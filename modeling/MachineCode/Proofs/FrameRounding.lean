import MachineCode.Proofs.FrameSizes
import Mathlib.Order.Bounds.Defs

/-!
# Rounding in words

The size of a frame is rounded up to the alignment, and all of it is computed in words of 32 bits.
`Frame.sizes_exact` says when that works: exactly if the frame and one alignment more have a size
that is a word. Then the size is the least multiple of the alignment with room for the frame
(`Frame.isLeast_roundUp`); otherwise some step overflows (`Frame.onlyOverflows_totalBytes`).

The alignment is a power of two, so the machine need not divide: to round a word up, it adds the
alignment less one, and clears the bits of the alignment less one (`Frame.roundUp_eq_mask`).
-/

namespace MachineCode.Frame

/-! ### Multiples of the alignment -/

/-- **Rounding up gives the least multiple that is large enough.** -/
theorem isLeast_roundUp {align : Nat} (h : 0 < align) (value : Nat) :
    IsLeast {n | align ∣ n ∧ value ≤ n} (roundUp value align) := by
  refine ⟨⟨dvd_roundUp value align, le_roundUp h value⟩, ?_⟩
  rintro n ⟨⟨q, rfl⟩, hle⟩
  -- the next multiple behind `q` is already out of reach
  have hlt : value + align - 1 < align * (q + 1) := by
    rw [Nat.mul_succ]
    omega
  calc roundUp value align = (value + align - 1) / align * align := rfl
    _ ≤ q * align := Nat.mul_le_mul_right _ (Nat.lt_succ_iff.1 (Nat.div_lt_of_lt_mul hlt))
    _ = align * q := Nat.mul_comm _ _

/-- The test on the bits finds the powers of two. -/
theorem isPowerOfTwo_iff {n : Nat} : isPowerOfTwo n ↔ ∃ e, n = 2 ^ e := by
  rw [isPowerOfTwo, Bool.and_eq_true, decide_eq_true_eq, decide_eq_true_eq]
  constructor
  · rintro ⟨-, h⟩
    exact ⟨n.log2, h.symm⟩
  · rintro ⟨e, rfl⟩
    exact ⟨(Nat.two_pow_pos e).ne', by rw [Nat.log2_two_pow]; rfl⟩

/-! ### Masks -/

/-- Clearing the low bits of a word rounds it down. -/
theorem toNat_and_not_mask (x : BitVec 32) (e : Nat) :
    (x &&& ~~~ BitVec.ofNat 32 (2 ^ e - 1)).toNat = x.toNat / 2 ^ e * 2 ^ e := by
  have hlt : x.toNat / 2 ^ e * 2 ^ e < 2 ^ 32 := (Nat.div_mul_le_self _ _).trans_lt x.isLt
  rw [← Nat.mod_eq_of_lt hlt, ← BitVec.toNat_ofNat, BitVec.toNat_inj]
  refine BitVec.eq_of_getLsbD_eq fun i hi ↦ ?_
  simp only [BitVec.getLsbD_and, BitVec.getLsbD_not, BitVec.getLsbD_ofNat, hi, decide_true,
    Bool.true_and, Nat.testBit_two_pow_sub_one, Nat.testBit_mul_two_pow, Nat.testBit_div_two_pow,
    BitVec.testBit_toNat]
  rcases Nat.lt_or_ge i e with h | h
  · simp [h, Nat.not_le.2 h]
  · simp [h, Nat.not_lt.2 h]

/-- **Rounding up by a mask**, where nothing overflows. -/
theorem roundUp_eq_mask {value e : Nat} (h : value + 2 ^ e < Unsigned32.bound) :
    roundUp value (2 ^ e) =
      (BitVec.ofNat 32 (value + 2 ^ e - 1) &&& ~~~ BitVec.ofNat 32 (2 ^ e - 1)).toNat := by
  have hword : value + 2 ^ e - 1 < 2 ^ 32 := by
    have : Unsigned32.bound = 2 ^ 32 := rfl
    omega
  rw [toNat_and_not_mask, BitVec.toNat_ofNat, Nat.mod_eq_of_lt hword, roundUp]

/-! ### Overflow -/

/-- The computation can only fail by a result that does not fit in its word, not by taking away too
much or by a bad alignment. -/
def OnlyOverflows {α : Type} (x : Except Fault α) : Prop :=
  ∀ fault, x = .error fault → fault = .addOverflow ∨ fault = .mulOverflow

/-- A sequence of computations that fail by overflow only does so too. -/
theorem OnlyOverflows.bind {α β : Type} {x : Except Fault α} {f : α → Except Fault β}
    (hx : OnlyOverflows x) (hf : ∀ a, OnlyOverflows (f a)) : OnlyOverflows (x >>= f) := by
  cases x with
  | error e => exact fun fault h ↦ hx fault (by cases h; rfl)
  | ok a => exact hf a

theorem onlyOverflows_add (a b : Nat) : OnlyOverflows (Unsigned32.add a b) := by
  intro fault h
  rw [Unsigned32.add] at h
  split at h <;> cases h
  exact Or.inl rfl

theorem onlyOverflows_mul (a b : Nat) : OnlyOverflows (Unsigned32.mul a b) := by
  intro fault h
  rw [Unsigned32.mul] at h
  split at h <;> cases h
  exact Or.inr rfl

/-- Rounding to a power of two fails by overflow only. -/
theorem onlyOverflows_alignUp {align : Nat} (h : isPowerOfTwo align) (value : Nat) :
    OnlyOverflows (alignUp value align) := by
  rw [alignUp, if_pos h]
  exact (onlyOverflows_add value align).bind fun _ fault h ↦ by cases h

/-- The size of a frame fails to be computed for no other reason. -/
theorem onlyOverflows_totalBytes {f : Frame} (h : isPowerOfTwo f.alignment) :
    OnlyOverflows f.totalBytes := by
  have hbody : OnlyOverflows f.bodyBytes :=
    (onlyOverflows_add _ _).bind fun _ ↦ (onlyOverflows_mul _ _).bind fun _ ↦ onlyOverflows_add _ _
  have hsave : OnlyOverflows f.saveBytes :=
    (onlyOverflows_add _ _).bind fun _ ↦ onlyOverflows_mul _ _
  exact hbody.bind fun _ ↦ hsave.bind fun _ ↦ (onlyOverflows_add _ _).bind fun _ ↦
    onlyOverflows_alignUp h _

/-! ### Sizes -/

/-- The padded body has room for the body. -/
theorem Fits.body_le_padded {f : Frame} (h : f.Fits) : f.body ≤ f.padded := by
  have hle := h.le_total
  rw [padded]
  omega

theorem Fits.padded_lt {f : Frame} (h : f.Fits) : f.padded < f.body + f.alignment := by
  have hlt : f.total < f.body + f.save + f.alignment := roundUp_lt h.alignment_pos _
  have hle := h.le_total
  rw [padded]
  omega

/-- **Sizes are exact, or there is an overflow.** Let registers have a size and let the alignment be
a power of two. If the frame and one alignment more have a size that is a word, then all sizes can
be computed: those of the body and of the save area are exact; that of the frame is the least
multiple of the alignment with room for both, which a mask gives too; and the padding of the body is
less than the alignment. If not, computing the size of the frame overflows. -/
theorem sizes_exact {f : Frame} (hsize : 0 < f.registerSize) (halign : ∃ e, f.alignment = 2 ^ e) :
    (f.body + f.save + f.alignment < 2 ^ 32 →
      f.bodyBytes = .ok f.body ∧ f.saveBytes = .ok f.save ∧
      ∃ total padded, f.totalBytes = .ok total ∧ f.paddedBodyBytes = .ok padded ∧
        IsLeast {n | f.alignment ∣ n ∧ f.body + f.save ≤ n} total ∧
        total = (BitVec.ofNat 32 (f.body + f.save + f.alignment - 1) &&&
          ~~~ BitVec.ofNat 32 (f.alignment - 1)).toNat ∧
        f.body ≤ padded ∧ padded < f.body + f.alignment) ∧
    (2 ^ 32 ≤ f.body + f.save + f.alignment →
      ∃ fault, f.totalBytes = .error fault ∧
        (fault = .addOverflow ∨ fault = .mulOverflow)) := by
  have hpow : isPowerOfTwo f.alignment := isPowerOfTwo_iff.2 halign
  constructor
  · intro hlt
    have hfits : f.Fits := ⟨hsize, hpow, hlt⟩
    have hmask : f.total = (BitVec.ofNat 32 (f.body + f.save + f.alignment - 1) &&&
        ~~~ BitVec.ofNat 32 (f.alignment - 1)).toNat := by
      obtain ⟨e, he⟩ := halign
      rw [total, he]
      exact roundUp_eq_mask (he ▸ hlt)
    exact ⟨hfits.bodyBytes_eq, hfits.saveBytes_eq, f.total, f.padded, hfits.totalBytes_eq,
      hfits.paddedBodyBytes_eq, isLeast_roundUp hfits.alignment_pos _, hmask,
      hfits.body_le_padded, hfits.padded_lt⟩
  -- a size that is computed is a size that fits
  · intro hge
    cases htotal : f.totalBytes with
    | error fault => exact ⟨fault, rfl, onlyOverflows_totalBytes hpow fault htotal⟩
    | ok n =>
      have hfits := ((totalBytes_eq_ok_iff hsize).1 htotal).1
      exact absurd hfits.size (Nat.not_lt.2 hge)

/-- The largest frame with two slots that has a size, and the same with one byte more. -/
theorem sizes_exact_boundary :
    let f : Frame := ⟨4294967247, 1, 1, [], 8, 16⟩
    let g : Frame := ⟨4294967248, 1, 1, [], 8, 16⟩
    (f.body + f.save + f.alignment = 2 ^ 32 - 1 ∧ f.totalBytes = .ok 4294967280 ∧
      IsLeast {n | 16 ∣ n ∧ 4294967279 ≤ n} 4294967280) ∧
    g.body + g.save + g.alignment = 2 ^ 32 ∧ ∃ fault, g.totalBytes = .error fault ∧
      (fault = .addOverflow ∨ fault = .mulOverflow) := by
  intro f g
  obtain ⟨-, -, total, -, htotal, -, hleast, -⟩ :=
    (sizes_exact (f := f) (by decide) ⟨4, rfl⟩).1 (by decide)
  have hvalue : f.totalBytes = .ok 4294967280 := by decide
  cases htotal.symm.trans hvalue
  exact ⟨⟨by decide, hvalue, hleast⟩, by decide,
    (sizes_exact (f := g) (by decide) ⟨4, rfl⟩).2 (by decide)⟩

end MachineCode.Frame
