/-!
# Log entries and logged computations

A computation may leave messages behind, each with a level. `Logged ε α` is the outcome of such a
computation: what it said, in order, beside the value it ended with or the failure that cut it
short. What was said before a failure is kept.

The outcome does not depend on the messages: `Logged.result` commutes with sequencing
(`Logged.result_bind`), so a fact about the result of a logged computation is a fact about the
same computation without its messages.
-/

namespace MachineCode

/-- How severe a message is, the most severe first. -/
inductive Level where
  | error
  | warn
  | info
  | debug
  | trace
  deriving DecidableEq

namespace Level

/-- The rank of a level: the more severe, the smaller. -/
def rank : Level → Nat
  | error => 0
  | warn => 1
  | info => 2
  | debug => 3
  | trace => 4

/-- The name that stands before a message. -/
def label : Level → String
  | error => "ERROR"
  | warn => "WARN"
  | info => "INFO"
  | debug => "DEBUG"
  | trace => "TRACE"

/-- All levels, the most severe first. -/
def all : List Level := [error, warn, info, debug, trace]

end Level

/-- One message with its level. -/
structure Entry where
  level : Level
  message : String
  deriving DecidableEq

namespace Entry

/-- The entry as a line: the level, a blank, the message. -/
def line (e : Entry) : String := e.level.label ++ " " ++ e.message

/-- The entries at level `limit` or more severe, in order. -/
def upTo (limit : Level) (log : List Entry) : List Entry := log.filter (·.level.rank ≤ limit.rank)

end Entry

/-- The messages of a computation, in order, and how it ended. -/
@[ext] structure Logged (ε α : Type) where
  log : List Entry
  result : Except ε α

namespace Logged

variable {ε ε' α β : Type}

/-- Say nothing and end as `x` does. -/
def ofExcept (x : Except ε α) : Logged ε α := ⟨[], x⟩

/-- Run `f` on the value of `x`, after the messages of `x`. -/
def bind (x : Logged ε α) (f : α → Logged ε β) : Logged ε β :=
  match x.result with
  | .ok a =>
    let y := f a
    ⟨x.log ++ y.log, y.result⟩
  | .error e => ⟨x.log, .error e⟩

instance : Monad (Logged ε) where
  pure a := ⟨[], .ok a⟩
  bind := bind

/-- Leave one message. -/
def say (level : Level) (message : String) : Logged ε Unit := ⟨[⟨level, message⟩], .ok ()⟩

/-- Leave the messages of `entries`. -/
def sayAll (entries : List Entry) : Logged ε Unit := ⟨entries, .ok ()⟩

/-- End with the failure `e`. -/
def fail (e : ε) : Logged ε α := ⟨[], .error e⟩

/-- The same messages, with the failure seen through `f`. -/
def mapError (f : ε → ε') (x : Logged ε α) : Logged ε' α := ⟨x.log, x.result.mapError f⟩

/-- The same messages, with the failure turned into a value. -/
def attempt (x : Logged ε α) : Logged ε' (Except ε α) := ⟨x.log, .ok x.result⟩

instance : LawfulMonad (Logged ε) :=
  LawfulMonad.mk' _
    (fun x ↦ by
      obtain ⟨log, result⟩ := x
      cases result <;> simp [Functor.map, bind])
    (fun a f ↦ by simp [Bind.bind, bind, pure])
    (fun x f g ↦ by
      obtain ⟨log, result⟩ := x
      cases result with
      | error e => rfl
      | ok a => cases h : (f a).result <;> simp [Bind.bind, bind, h])

/-! ### Messages do not change the outcome -/

@[simp] theorem result_pure (a : α) : (pure a : Logged ε α).result = .ok a := rfl

@[simp] theorem result_bind (x : Logged ε α) (f : α → Logged ε β) :
    (x >>= f).result = x.result >>= fun a ↦ (f a).result := by
  show (bind x f).result = _
  unfold bind
  cases x.result <;> rfl

@[simp] theorem result_ofExcept (x : Except ε α) : (ofExcept x).result = x := rfl

@[simp] theorem result_say (l : Level) (m : String) : (say l m : Logged ε Unit).result = .ok () :=
  rfl

@[simp] theorem result_sayAll (es : List Entry) : (sayAll es : Logged ε Unit).result = .ok () :=
  rfl

@[simp] theorem result_fail (e : ε) : (fail e : Logged ε α).result = .error e := rfl

@[simp] theorem result_mapError (f : ε → ε') (x : Logged ε α) :
    (x.mapError f).result = x.result.mapError f := rfl

end Logged

end MachineCode
