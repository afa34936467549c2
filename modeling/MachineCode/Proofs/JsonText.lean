import Mathlib.Data.List.TakeWhile
import MachineCode.Json.Reader

/-!
# Reading what was written

A value is written on one line without blanks, and reading the line gives the value back
(`Json.IsPlain.parse?_render`). This holds of every value whose numbers are integers and whose
parts all denote something (`Json.IsPlain`).

Both directions meet in the tokens of the value (`Json.tokens`). Writing appends to a text, so the
scanner is followed along that text: after a value it has the tokens of the value, the last of
which may be a word that only the next character ends (`Scanner.Pending`). Every character behind a
value is a mark, which does end it (`Scanner.Pending.mark`). The reader, in turn, takes the tokens
of a value for the value wherever one may stand, with any arrays and objects around it still open
(`Json.ReadBack`).
-/

namespace MachineCode

/-! ### Decimal digits -/

namespace Text

/-- The digits of a number have its value. -/
theorem decimal_toDigits (n : Nat) : decimal (Nat.toDigits 10 n) = n :=
  Nat.ofDigitChars_toDigits (by decide) (by decide)

theorem isDigit_of_mem {n : Nat} {c : Char} (hc : c ∈ Nat.toDigits 10 n) : c.isDigit :=
  Nat.isDigit_of_mem_toDigits (by decide) (by decide) hc

theorem exists_cons_toDigits (n : Nat) : ∃ c cs, Nat.toDigits 10 n = c :: cs :=
  List.exists_cons_of_ne_nil Nat.toDigits_ne_nil

/-- No number but zero starts with a zero. -/
theorem head?_toDigits {n : Nat} (hn : n ≠ 0) : (Nat.toDigits 10 n).head? ≠ some '0' := by
  induction n using Nat.strongRecOn with
  | ind n ih =>
    rcases Nat.lt_or_ge n 10 with hlt | hge
    · have hdigit : ∀ d < 10, d ≠ 0 → d.digitChar ≠ '0' := by decide
      rw [Nat.toDigits_of_lt_base hlt]
      exact fun h ↦ hdigit n hlt hn (Option.some.inj h)
    · have hhead := ih (n / 10) (by omega) (by omega)
      rw [Nat.toDigits_of_base_le (by decide) hge]
      obtain ⟨c, cs, hcs⟩ := exists_cons_toDigits (n / 10)
      rw [hcs] at hhead ⊢
      exact hhead

end Text

/-! ### Words -/

namespace Token

theorem isWordChar_of_isDigit {c : Char} (hc : c.isDigit) : isWordChar c := by
  simp [isWordChar, Char.isAlphanum, hc]

theorem takeWhile_toDigits (n : Nat) :
    (Nat.toDigits 10 n).takeWhile Char.isDigit = Nat.toDigits 10 n :=
  List.takeWhile_eq_self_iff.2 fun _ hc ↦ Text.isDigit_of_mem hc

theorem dropWhile_toDigits (n : Nat) : (Nat.toDigits 10 n).dropWhile Char.isDigit = [] :=
  List.dropWhile_eq_nil_iff.2 fun _ hc ↦ Text.isDigit_of_mem hc

/-- The digits of a number have no needless zero before them. -/
theorem whole_toDigits (n : Nat) : ((Nat.toDigits 10 n).isEmpty ||
    ((Nat.toDigits 10 n).head? = some '0' && (Nat.toDigits 10 n).length ≠ 1)) = false := by
  have hne : (Nat.toDigits 10 n).isEmpty = false := by
    rw [List.isEmpty_eq_false_iff]
    exact Nat.toDigits_ne_nil
  rw [hne, Bool.false_or]
  by_cases hn : n = 0
  · subst hn
    decide
  · simp [Text.head?_toDigits hn]

/-- A natural number is read from its digits. -/
theorem number?_toDigits (n : Nat) : number? (Nat.toDigits 10 n) = some (.int n) := by
  have hhead : (Nat.toDigits 10 n).head? ≠ some '-' := by
    intro h
    have hdigit := Text.isDigit_of_mem (List.mem_of_mem_head? h)
    exact absurd hdigit (by decide)
  simp only [number?, hhead, decide_false, Bool.false_eq_true, if_false, takeWhile_toDigits,
    dropWhile_toDigits, whole_toDigits, List.isEmpty_nil, if_true, Text.decimal_toDigits]

theorem number?_neg_toDigits {n : Nat} (hn : n ≠ 0) :
    number? ('-' :: Nat.toDigits 10 n) = some (.int (-n)) := by
  simp only [number?, List.head?_cons, decide_true, if_true, List.drop_succ_cons, List.drop_zero,
    takeWhile_toDigits, dropWhile_toDigits, whole_toDigits, Bool.false_eq_true, if_false,
    List.isEmpty_nil, Text.decimal_toDigits, hn]

theorem isAlpha_of_isDigit {c : Char} (hc : c.isDigit) : c.isAlpha = false := by
  have hdigit : c.val ≤ '9'.val := of_decide_eq_true (Bool.and_eq_true_iff.1 hc).2
  have hupper : ¬ 'A'.val ≤ c.val := fun h ↦ absurd (UInt32.le_trans h hdigit) (by decide)
  have hlower : ¬ 'a'.val ≤ c.val := fun h ↦ absurd (UInt32.le_trans h hdigit) (by decide)
  show (decide (c.val ≥ 'A'.val ∧ c.val ≤ 'Z'.val) ||
    (decide (c.val ≥ 'a'.val) && decide (c.val ≤ 'z'.val))) = false
  rw [decide_eq_false fun h ↦ hupper h.1, decide_eq_false hlower]
  rfl

/-- A word that does not start with a letter is a number. -/
theorem word?_of_head {c : Char} {cs : List Char} (hc : c.isAlpha = false) :
    word? (c :: cs) = number? (c :: cs) := by
  have hne (w : String) (hw : w.toList.head?.any Char.isAlpha) : String.ofList (c :: cs) ≠ w := by
    rintro rfl
    simp [hc] at hw
  rw [word?]
  split
  · exact absurd ‹_› (hne "null" (by decide))
  · exact absurd ‹_› (hne "true" (by decide))
  · exact absurd ‹_› (hne "false" (by decide))
  · rfl

/-- **An integer that is written is read.** -/
theorem word?_toString (n : Int) : word? (toString n).toList = some (.int n) := by
  rw [Int.toString_eq_repr, Int.repr_eq_if]
  split
  · rename_i hn
    rw [Nat.toList_repr]
    obtain ⟨c, cs, hcs⟩ := Text.exists_cons_toDigits n.toNat
    have hc : c.isDigit := Text.isDigit_of_mem (hcs ▸ List.mem_cons_self)
    rw [hcs, word?_of_head (isAlpha_of_isDigit hc), ← hcs, number?_toDigits,
      Int.toNat_of_nonneg hn]
  · rename_i hn
    rw [String.toList_append, Nat.toList_repr]
    show word? ('-' :: Nat.toDigits 10 (-n).toNat) = _
    rw [word?_of_head (by decide), number?_neg_toDigits (by omega)]
    congr 2
    omega

/-- A number is written as one word. -/
theorem all_isWordChar_toString (n : Int) : (toString n).toList.all isWordChar := by
  have hdigits (m : Nat) : m.repr.toList.all isWordChar := by
    rw [Nat.toList_repr, List.all_eq_true]
    exact fun c hc ↦ isWordChar_of_isDigit (Text.isDigit_of_mem hc)
  rw [Int.toString_eq_repr, Int.repr_eq_if]
  split
  · exact hdigits _
  · rw [String.toList_append, List.all_append, hdigits]
    rfl

end Token

/-! ### Scanning -/

namespace Scanner

/-- Whatever comes next, the tokens so far are `ts`. The last of them may be a word that has not
ended yet. -/
def Yields (s : Scanner) (ts : List Token) : Prop :=
  s = { tokens := ts } ∨ ∃ cs v before, Token.word? cs.reverse = some v ∧
    s = { tokens := before, lexeme := .word cs } ∧ ts = .scalar v :: before

/-- At the end of the text a last word ends too. -/
theorem Yields.finish {s : Scanner} {ts : List Token} (h : s.Yields ts) :
    s.finish = some ts.reverse := by
  rcases h with rfl | ⟨cs, v, before, hv, rfl, rfl⟩
  · rfl
  · simp [Scanner.finish, hv]

/-- A character that cannot go on a word ends it. -/
theorem Yields.step {s : Scanner} {ts : List Token} (h : s.Yields ts) {c : Char}
    (hc : Token.isWordChar c = false) : s.step c = start ts c := by
  rcases h with rfl | ⟨cs, v, before, hv, rfl, rfl⟩
  · rfl
  · simp [Scanner.step, hc, hv]

/-- The scanner after a text. -/
def after (text : String) : Option Scanner := text.toList.foldlM step {}

theorem after_append (text more : String) :
    after (text ++ more) = after text >>= fun s ↦ more.toList.foldlM step s := by
  rw [after, String.toList_append, List.foldlM_append]
  rfl

/-- A text is cut into tokens, with nothing begun. -/
def Scanned (text : String) (ts : List Token) : Prop := after text = some { tokens := ts }

/-- A text is cut into tokens, the last of which may be a word that has not ended. -/
def Pending (text : String) (ts : List Token) : Prop := ∃ s, after text = some s ∧ s.Yields ts

variable {text : String} {ts : List Token}

theorem Scanned.pending (h : Scanned text ts) : Pending text ts := ⟨_, h, Or.inl rfl⟩

/-- A mark is a token by itself. -/
theorem start_mark (ts : List Token) {c : Char} {t : Token} (hc : Token.mark? c = some t) :
    Token.isWordChar c = false ∧ start ts c = some { tokens := t :: ts } := by
  unfold Token.mark? at hc
  split at hc <;> cases hc <;> exact ⟨by decide, rfl⟩

/-- A mark behind a value. -/
theorem Pending.mark (h : Pending text ts) {c : Char} {t : Token} (hc : Token.mark? c = some t) :
    Scanned (text ++ String.singleton c) (t :: ts) := by
  obtain ⟨s, hs, hyields⟩ := h
  obtain ⟨hword, hstart⟩ := start_mark ts hc
  rw [Scanned, after_append, hs, String.toList_singleton]
  show (s.step c >>= fun s ↦ some s) = _
  rw [hyields.step hword, hstart]
  rfl

/-- A character of a word begins one. -/
theorem start_word (ts : List Token) {c : Char} (hc : Token.isWordChar c) :
    start ts c = some { tokens := ts, lexeme := .word [c] } := by
  have hspace : Token.isSpace c = false := by
    by_contra hspace
    simp only [Token.isSpace, Bool.not_eq_false, Bool.or_eq_true, decide_eq_true_eq] at hspace
    rcases hspace with ((rfl | rfl) | rfl) | rfl <;> exact absurd hc (by decide)
  have hquote : c ≠ '"' := by
    rintro rfl
    exact absurd hc (by decide)
  simp [start, hspace, hquote, hc]

/-- A word is collected in reverse. -/
theorem foldlM_word (ts : List Token) {cs : List Char} (hcs : ∀ c ∈ cs, Token.isWordChar c)
    (before : List Char) :
    cs.foldlM step { tokens := ts, lexeme := .word before } =
      some { tokens := ts, lexeme := .word (cs.reverse ++ before) } := by
  induction cs generalizing before with
  | nil => rfl
  | cons c cs ih =>
    obtain ⟨hc, hcs⟩ := List.forall_mem_cons.1 hcs
    have hstep : step { tokens := ts, lexeme := .word before } c =
        some { tokens := ts, lexeme := .word (c :: before) } := if_pos hc
    rw [List.foldlM_cons, hstep, List.reverse_cons, List.append_assoc, List.singleton_append]
    exact ih hcs (c :: before)

/-- A word behind a whole token. -/
theorem Scanned.word (h : Scanned text ts) {w : String} {v : Json}
    (hw : w.toList.all Token.isWordChar) (hv : Token.word? w.toList = some v) :
    Pending (text ++ w) (.scalar v :: ts) := by
  refine ⟨{ tokens := ts, lexeme := .word w.toList.reverse }, ?_,
    Or.inr ⟨w.toList.reverse, v, ts, by rwa [List.reverse_reverse], rfl, rfl⟩⟩
  rw [after_append, h]
  cases hcs : w.toList with
  | nil =>
    rw [hcs] at hv
    cases (show Token.word? [] = none from rfl).symm.trans hv
  | cons c cs =>
    rw [hcs, List.all_eq_true] at hw
    obtain ⟨hc, hcs⟩ := List.forall_mem_cons.1 hw
    show (start ts c >>= fun s ↦ cs.foldlM step s) = _
    rw [start_word ts hc, List.reverse_cons]
    exact foldlM_word ts hcs [c]

/-! ### Strings -/

theorem hexValue?_hexDigit : ∀ n < 16, Token.hexValue? (Json.hexDigit n) = some n := by
  decide

/-- Control characters are no surrogates, so their escape is a character. -/
theorem pushUnit_control (t : PartialText) {c : Char} (hc : c.toNat < 0x20) :
    t.pushUnit c.toNat = t.push c := by
  have hhigh : ¬ (0xD800 ≤ c.toNat ∧ c.toNat < 0xDC00) := by omega
  have hlow : ¬ (0xDC00 ≤ c.toNat ∧ c.toNat < 0xE000) := by omega
  rw [PartialText.pushUnit, if_neg hhigh, if_neg hlow, Char.ofNat_toNat]

/-- **A character of a string is read as it was written**, whether it was escaped or not. -/
theorem foldlM_escape (ts : List Token) (t : PartialText) (c : Char) :
    (Json.escape c).toList.foldlM step { tokens := ts, lexeme := .string t } =
      some { tokens := ts, lexeme := .string (t.push c) } := by
  rw [Json.escape]
  split
  · subst c
    rfl
  · split
    · subst c
      rfl
    · split
      · rename_i hcontrol
        have hhigh := hexValue?_hexDigit (c.toNat / 16) (by omega)
        have hlow := hexValue?_hexDigit (c.toNat % 16) (by omega)
        rw [String.toList_append, String.toList_ofList, String.toList_ofList, List.foldlM_append]
        show ([Json.hexDigit (c.toNat / 16), Json.hexDigit (c.toNat % 16)].foldlM step
          { tokens := ts, lexeme := .unit t 1 0 }) = _
        -- the two digits are read as one code unit
        have hvalue : 16 * (16 * 0 + c.toNat / 16) + c.toNat % 16 = c.toNat := by omega
        simp only [List.foldlM_cons, List.foldlM_nil, step, hhigh, hlow, Option.bind_eq_bind,
          Option.bind_some, hvalue, pushUnit_control t hcontrol]
        rfl
      · rename_i hquote hslash hprint
        rw [String.toList_singleton]
        show (step _ c >>= fun s ↦ some s) = _
        simp [step, hquote, hslash, hprint]

/-- **The characters of a string are read one by one.** -/
theorem foldlM_escapes (ts : List Token) (cs : List Char) (t : PartialText) :
    (cs.flatMap fun c ↦ (Json.escape c).toList).foldlM step { tokens := ts, lexeme := .string t } =
      some { tokens := ts, lexeme := .string (cs.foldl PartialText.push t) } := by
  induction cs generalizing t with
  | nil => rfl
  | cons c cs ih =>
    rw [List.flatMap_cons, List.foldlM_append, foldlM_escape]
    exact ih (t.push c)

/-- The text of a string is collected in reverse. -/
theorem foldl_push (cs before : List Char) :
    cs.foldl PartialText.push { chars := before } = { chars := cs.reverse ++ before } := by
  induction cs generalizing before with
  | nil => rfl
  | cons c cs ih =>
    rw [List.foldl_cons, List.reverse_cons, List.append_assoc, List.singleton_append]
    exact ih (c :: before)

/-- **A text that is written is read.** -/
theorem Scanned.quote (h : Scanned text ts) (s : String) :
    Scanned (text ++ Json.quote s) (.scalar (.str s) :: ts) := by
  rw [Scanned, after_append, h, Json.quote, String.toList_append, String.toList_append,
    String.toList_join, List.flatMap_map, List.append_assoc]
  show (s.toList.flatMap (fun c ↦ (Json.escape c).toList) ++ ['"']).foldlM step
    { tokens := ts, lexeme := .string {} } = _
  rw [List.foldlM_append, foldlM_escapes, foldl_push, List.append_nil]
  have htext : PartialText.toJson { chars := s.toList.reverse } = .str s := by
    simp [PartialText.toJson, PartialText.text?]
  exact congrArg (fun v ↦ some ({ tokens := .scalar v :: ts } : Scanner)) htext

end Scanner

/-! ### Values -/

namespace Json

/-- A value without numbers that are no integers, and without parts that denote nothing. -/
inductive IsPlain : Json → Prop
  | null : IsPlain .null
  | bool (b : Bool) : IsPlain (.bool b)
  | int (n : Int) : IsPlain (.int n)
  | str (text : String) : IsPlain (.str text)
  | arr {items : List Json} (h : ∀ v ∈ items, IsPlain v) : IsPlain (.arr items)
  | obj {members : List (String × Json)} (h : ∀ m ∈ members, IsPlain m.2) : IsPlain (.obj members)

mutual

/-- The tokens of a value. -/
def tokens : Json → List Token
  | arr items => .openBracket :: itemTokens items ++ [.closeBracket]
  | obj members => .openBrace :: memberTokens members ++ [.closeBrace]
  | v => [.scalar v]

/-- The tokens of the items of an array, with commas between them. -/
def itemTokens : List Json → List Token
  | [] => []
  | [v] => tokens v
  | v :: rest => tokens v ++ .comma :: itemTokens rest

/-- The tokens of the members of an object, with commas between them. -/
def memberTokens : List (String × Json) → List Token
  | [] => []
  | [(k, v)] => .scalar (.str k) :: .colon :: tokens v
  | (k, v) :: rest => .scalar (.str k) :: .colon :: tokens v ++ .comma :: memberTokens rest

end

theorem itemTokens_cons (v w : Json) (rest : List Json) :
    itemTokens (v :: w :: rest) = tokens v ++ .comma :: itemTokens (w :: rest) := rfl

theorem memberTokens_cons (k : String) (v : Json) (m : String × Json)
    (rest : List (String × Json)) : memberTokens ((k, v) :: m :: rest) =
      .scalar (.str k) :: .colon :: tokens v ++ .comma :: memberTokens (m :: rest) := rfl

open Scanner

/-- The value is written in its tokens, behind any text. -/
def Written (v : Json) : Prop := ∀ out ts, Scanned out ts →
  Pending (renderAfter out v) ((tokens v).reverse ++ ts)

/-- **Writing items writes their tokens**, if writing each of them does. -/
theorem pending_renderItems {items : List Json} (h : ∀ v ∈ items, Written v) {out : String}
    {ts : List Token} (hout : Scanned out ts) :
    Pending (renderItems out items) ((itemTokens items).reverse ++ ts) := by
  induction items generalizing out ts with
  | nil => exact hout.pending
  | cons v rest ih =>
    obtain ⟨hv, hrest⟩ := List.forall_mem_cons.1 h
    cases rest with
    | nil => exact hv out ts hout
    | cons w rest =>
      have hpending := ih hrest ((hv out ts hout).mark (c := ',') rfl)
      rw [itemTokens_cons, List.reverse_append, List.reverse_cons, List.append_assoc,
        List.append_assoc]
      exact hpending

/-- **Writing members writes their tokens**, with the keys as strings. -/
theorem pending_renderMembers {members : List (String × Json)} (h : ∀ m ∈ members, Written m.2)
    {out : String} {ts : List Token} (hout : Scanned out ts) :
    Pending (renderMembers out members) ((memberTokens members).reverse ++ ts) := by
  induction members generalizing out ts with
  | nil => exact hout.pending
  | cons m rest ih =>
    obtain ⟨k, v⟩ := m
    obtain ⟨hv, hrest⟩ := List.forall_mem_cons.1 h
    have hvalue := hv _ _ ((hout.quote k).pending.mark (c := ':') rfl)
    cases rest with
    | nil =>
      rw [memberTokens, List.reverse_cons, List.reverse_cons, List.append_assoc, List.append_assoc]
      exact hvalue
    | cons m rest =>
      have hpending := ih hrest (hvalue.mark (c := ',') rfl)
      rw [memberTokens_cons]
      simp only [List.reverse_append, List.reverse_cons, List.append_assoc, List.cons_append,
        List.nil_append] at hpending ⊢
      exact hpending

theorem reverse_enclosed {α : Type} (a b : α) (l l' : List α) :
    (a :: l ++ [b]).reverse ++ l' = b :: (l.reverse ++ a :: l') := by
  simp

/-- **Writing a plain value writes its tokens.** -/
theorem IsPlain.written {v : Json} (h : IsPlain v) : Written v := by
  induction h with
  | null => exact fun out ts hout ↦ hout.word (w := "null") rfl rfl
  | bool b =>
    cases b with
    | true => exact fun out ts hout ↦ hout.word (w := "true") rfl rfl
    | false => exact fun out ts hout ↦ hout.word (w := "false") rfl rfl
  | int n =>
    exact fun out ts hout ↦ hout.word (Token.all_isWordChar_toString n) (Token.word?_toString n)
  | str text => exact fun out ts hout ↦ (hout.quote text).pending
  -- the tokens are collected in reverse, so a closing bracket comes first
  | @arr items _ ih =>
    intro out ts hout
    have hitems := pending_renderItems ih (hout.pending.mark (c := '[') rfl)
    have hclosed := (hitems.mark (c := ']') rfl).pending
    rw [tokens, reverse_enclosed]
    exact hclosed
  | @obj members _ ih =>
    intro out ts hout
    have hmembers := pending_renderMembers ih (hout.pending.mark (c := '\x7b') rfl)
    have hclosed := (hmembers.mark (c := '\x7d') rfl).pending
    rw [tokens, reverse_enclosed]
    exact hclosed

/-- **Scanning a written value gives its tokens.** -/
theorem IsPlain.scan_render {v : Json} (h : IsPlain v) :
    Token.scan v.render = some (tokens v) := by
  obtain ⟨s, hs, hyields⟩ := h.written "" [] rfl
  rw [List.append_nil] at hyields
  show (Scanner.after (renderAfter "" v) >>= fun s ↦ s.finish) = _
  rw [hs]
  show s.finish = _
  rw [hyields.finish, List.reverse_reverse]

/-! ### Reading -/

/-- The tokens of the value are read as the value, wherever one may stand. -/
def ReadBack (v : Json) : Prop := ∀ stack rest,
  (tokens v ++ rest).foldlM Reader.step (.value stack) =
    rest.foldlM Reader.step (Reader.complete v stack)

/-- The first item of an array is read like any other. -/
theorem foldlM_arrayStart (v : Json) (items : List Json) (stack : List Open) (rest : List Token) :
    (itemTokens (v :: items) ++ rest).foldlM Reader.step (.arrayStart stack) =
      (itemTokens (v :: items) ++ rest).foldlM Reader.step (.value (.array [] :: stack)) := by
  cases items <;> cases v <;> rfl

/-- **The tokens of items are read back as the items**, up to the bracket that closes the array. -/
theorem foldlM_items {items : List Json} (h : ∀ v ∈ items, ReadBack v) (hne : items ≠ [])
    (before : List Json) (stack : List Open) (rest : List Token) :
    (itemTokens items ++ .closeBracket :: rest).foldlM Reader.step
        (.value (.array before :: stack)) =
      rest.foldlM Reader.step (Reader.complete (.arr (before.reverse ++ items)) stack) := by
  induction items generalizing before with
  | nil => exact absurd rfl hne
  | cons v items ih =>
    obtain ⟨hv, hitems⟩ := List.forall_mem_cons.1 h
    cases items with
    | nil =>
      rw [itemTokens, hv]
      show rest.foldlM Reader.step (Reader.complete (.arr (v :: before).reverse) stack) = _
      rw [List.reverse_cons]
    | cons w items =>
      rw [itemTokens_cons, List.append_assoc, hv]
      show (itemTokens (w :: items) ++ .closeBracket :: rest).foldlM Reader.step
        (.value (.array (v :: before) :: stack)) = _
      rw [ih hitems nofun, List.reverse_cons, List.append_assoc, List.singleton_append]

/-- The first member of an object is read like any other. -/
theorem foldlM_objectStart (m : String × Json) (members : List (String × Json))
    (stack : List Open) (rest : List Token) :
    (memberTokens (m :: members) ++ rest).foldlM Reader.step (.objectStart stack) =
      (memberTokens (m :: members) ++ rest).foldlM Reader.step (.objectKey [] stack) := by
  cases members <;> rfl

/-- An object whose keys are all texts has its members. -/
theorem ofMembers_map (members : List (String × Json)) :
    ofMembers (members.map fun m ↦ (some m.1, m.2)) = .obj members := by
  have hmapM : (members.map fun m ↦ (some m.1, m.2)).mapM
      (fun ((key, v) : Option String × Json) ↦ key.map (·, v)) = some members := by
    rw [List.mapM_map]
    exact (List.mapM_pure (f := fun m : String × Json ↦ m)).trans (congrArg some (List.map_id _))
  rw [ofMembers, hmapM]
  rfl

/-- **The tokens of members are read back as the members**, up to the brace that closes the object.
-/
theorem foldlM_members {members : List (String × Json)} (h : ∀ m ∈ members, ReadBack m.2)
    (hne : members ≠ []) (before : List (String × Json)) (stack : List Open)
    (rest : List Token) :
    (memberTokens members ++ .closeBrace :: rest).foldlM Reader.step
        (.objectKey (before.map fun m ↦ (some m.1, m.2)) stack) =
      rest.foldlM Reader.step (Reader.complete (.obj (before.reverse ++ members)) stack) := by
  induction members generalizing before with
  | nil => exact absurd rfl hne
  | cons m members ih =>
    obtain ⟨k, v⟩ := m
    obtain ⟨hv, hmembers⟩ := List.forall_mem_cons.1 h
    -- the last member is followed by the brace, the others by a comma and another key
    cases members with
    | nil =>
      show (tokens v ++ .closeBrace :: rest).foldlM Reader.step
        (.value (.object (before.map fun m ↦ (some m.1, m.2)) (some k) :: stack)) = _
      rw [hv]
      show rest.foldlM Reader.step (Reader.complete
        (ofMembers (((k, v) :: before).map fun m ↦ (some m.1, m.2)).reverse) stack) = _
      rw [← List.map_reverse, ofMembers_map, List.reverse_cons]
    | cons m members =>
      rw [memberTokens_cons, List.append_assoc]
      show (tokens v ++ (.comma :: memberTokens (m :: members) ++ .closeBrace :: rest)).foldlM
        Reader.step (.value (.object (before.map fun m ↦ (some m.1, m.2)) (some k) :: stack)) = _
      rw [hv]
      show (memberTokens (m :: members) ++ .closeBrace :: rest).foldlM Reader.step
        (.objectKey (((k, v) :: before).map fun m ↦ (some m.1, m.2)) stack) = _
      rw [ih hmembers nofun, List.reverse_cons, List.append_assoc, List.singleton_append]

/-- **The tokens of a plain value are read as that value.** -/
theorem IsPlain.readBack {v : Json} (h : IsPlain v) : ReadBack v := by
  induction h with
  | null => exact fun _ _ ↦ rfl
  | bool b => exact fun _ _ ↦ rfl
  | int n => exact fun _ _ ↦ rfl
  | str text => exact fun _ _ ↦ rfl
  | @arr items _ ih =>
    intro stack rest
    cases items with
    | nil => rfl
    | cons v items =>
      rw [tokens, List.append_assoc]
      show (itemTokens (v :: items) ++ .closeBracket :: rest).foldlM Reader.step
        (.arrayStart stack) = _
      rw [foldlM_arrayStart]
      exact foldlM_items ih nofun [] stack rest
  | @obj members _ ih =>
    intro stack rest
    cases members with
    | nil => rfl
    | cons m members =>
      rw [tokens, List.append_assoc]
      show (memberTokens (m :: members) ++ .closeBrace :: rest).foldlM Reader.step
        (.objectStart stack) = _
      rw [foldlM_objectStart]
      exact foldlM_members ih nofun [] stack rest

/-- **A plain value that is written is read.** -/
theorem IsPlain.parse?_render {v : Json} (h : IsPlain v) : parse? v.render = some v := by
  have hread := h.readBack [] []
  rw [List.append_nil] at hread
  rw [parse?, h.scan_render]
  show ofTokens? (tokens v) = _
  rw [ofTokens?, hread]
  rfl

end Json

end MachineCode
