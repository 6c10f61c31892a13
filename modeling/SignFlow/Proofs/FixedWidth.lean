import Mathlib.Algebra.Order.Group.Unbundled.Int
import Mathlib.Algebra.Order.Ring.Nat
import Mathlib.Order.Monotone.Basic
import SignFlow.Analysis.Conversion
import SignFlow.Proofs.Covers

/-! Integers of fixed width, and the signs they have after a conversion.

An integral type holds the integers that its bits have room for. A conversion keeps what the new type holds;
of anything else it keeps the lowest bits. Where the new type is no narrower, that never makes zero of what is
not zero, but it may change the sign. -/

namespace SignFlow

structure Widths where
  bits : Nat → Nat
  pos : ∀ rank, 0 < bits rank
  mono : Monotone bits

namespace Widths

def bytes : Widths where
  bits rank := 8 * (rank + 1)
  pos rank := by omega
  mono _ _ h := by dsimp only; omega

theorem bytes_strict : StrictMono bytes.bits := fun _ _ h => by
  simp only [bytes]
  omega

end Widths

namespace ValueType

def patterns (w : Widths) (t : ValueType) : Nat := 2 ^ w.bits t.base.rank

/-- The integer is a value of the type. A signed type has as many values below zero as from zero on. -/
def Holds (w : Widths) (t : ValueType) (v : Int) : Prop :=
  if t.base = .bool then v = 0 ∨ v = 1
  else if t.unsigned then 0 ≤ v ∧ v < t.patterns w
  else -t.patterns w ≤ v * 2 ∧ v * 2 < t.patterns w

instance (w : Widths) (t : ValueType) (v : Int) : Decidable (t.Holds w v) :=
  inferInstanceAs (Decidable (ite _ _ _))

/-- The integer converted to the type: compared with zero for `bool`, reduced by the number of patterns for an
unsigned type, and reduced to what two's complement writes for a signed one. -/
def wrap (w : Widths) (t : ValueType) (v : Int) : Int :=
  if t.base = .bool then if v = 0 then 0 else 1
  else if t.unsigned then v % t.patterns w
  else v.bmod (t.patterns w)

section

variable {w : Widths} {src dst t : ValueType} {v : Int}

theorem two_le_patterns (w : Widths) (t : ValueType) : 2 ≤ t.patterns w :=
  Nat.le_self_pow (w.pos _).ne' 2

theorem patterns_mono (h : src.base.rank ≤ dst.base.rank) : src.patterns w ≤ dst.patterns w :=
  Nat.pow_le_pow_right Nat.two_pos (w.mono h)

theorem patterns_double (h : w.bits src.base.rank < w.bits dst.base.rank) :
    src.patterns w * 2 ≤ dst.patterns w :=
  (Nat.pow_succ 2 _).symm.trans_le (Nat.pow_le_pow_right Nat.two_pos h)

theorem holds_bool (ht : t.base = .bool) : t.Holds w v ↔ v = 0 ∨ v = 1 := by
  rw [Holds, if_pos ht]

theorem holds_unsigned (ht : t.base ≠ .bool) (hu : t.unsigned = true) :
    t.Holds w v ↔ 0 ≤ v ∧ v < t.patterns w := by
  rw [Holds, if_neg ht, if_pos hu]

theorem holds_signed (ht : t.base ≠ .bool) (hu : t.unsigned = false) :
    t.Holds w v ↔ -t.patterns w ≤ v * 2 ∧ v * 2 < t.patterns w := by
  rw [Holds, if_neg ht, if_neg (by simp [hu])]

theorem Holds.nonneg (h : t.Holds w v) (ht : t.base = .bool ∨ t.unsigned = true) : 0 ≤ v := by
  by_cases hb : t.base = .bool
  · rcases (holds_bool hb).mp h with rfl | rfl <;> decide
  · exact ((holds_unsigned hb (ht.resolve_left hb)).mp h).1

theorem Holds.abs_lt_patterns (h : t.Holds w v) : |v| < t.patterns w := by
  have htwo := two_le_patterns w t
  rw [abs_lt]
  by_cases hb : t.base = .bool
  · rcases (holds_bool hb).mp h with rfl | rfl <;> omega
  · cases hu : t.unsigned with
    | true =>
      have := (holds_unsigned hb hu).mp h
      omega
    | false =>
      have := (holds_signed hb hu).mp h
      omega

theorem Holds.wrap_eq (h : t.Holds w v) : t.wrap w v = v := by
  unfold wrap
  by_cases hb : t.base = .bool
  · rw [if_pos hb]
    rcases (holds_bool hb).mp h with rfl | rfl <;> rfl
  rw [if_neg hb]
  cases hu : t.unsigned with
  | true =>
    obtain ⟨hlo, hhi⟩ := (holds_unsigned hb hu).mp h
    exact Int.emod_eq_of_lt hlo hhi
  | false =>
    obtain ⟨hlo, hhi⟩ := (holds_signed hb hu).mp h
    exact Int.bmod_eq_of_le_mul_two hlo hhi

theorem wrap_ne_zero (hv : v ≠ 0) (hlt : |v| < t.patterns w) : t.wrap w v ≠ 0 := by
  intro hzero
  unfold wrap at hzero
  split at hzero
  · simp at hzero
  · refine hv (Int.eq_zero_of_abs_lt_dvd (m := t.patterns w) ?_ hlt)
    split at hzero
    · exact Int.dvd_of_emod_eq_zero hzero
    · exact Int.dvd_of_bmod_eq_zero hzero

/-- Without a loss of bits, what is not zero does not become zero. -/
theorem Holds.wrap_ne_zero (h : src.Holds w v) (hrank : src.base.rank ≤ dst.base.rank) (hv : v ≠ 0) :
    dst.wrap w v ≠ 0 :=
  ValueType.wrap_ne_zero hv (h.abs_lt_patterns.trans_le (mod_cast patterns_mono hrank))

@[simp] theorem wrap_zero (w : Widths) (t : ValueType) : t.wrap w 0 = 0 := by
  simp [wrap]

theorem wrap_nonneg (ht : t.base = .bool ∨ t.unsigned = true) : 0 ≤ t.wrap w v := by
  unfold wrap
  by_cases hb : t.base = .bool
  · rw [if_pos hb]
    split <;> decide
  · rw [if_neg hb, if_pos (ht.resolve_left hb)]
    have htwo := two_le_patterns w t
    exact Int.emod_nonneg v (by omega)

theorem rank_pos (ht : t.base ≠ .bool) : 0 < t.base.rank := by
  cases hb : t.base <;> first | exact absurd hb ht | decide

theorem Holds.same (h : src.Holds w v) (hs : src.base ≠ .bool) (hd : dst.base ≠ .bool)
    (hsign : src.unsigned = dst.unsigned) (hrank : src.base.rank ≤ dst.base.rank) : dst.Holds w v := by
  have hle := patterns_mono (w := w) hrank
  cases hu : dst.unsigned with
  | true =>
    have := (holds_unsigned hs (hsign.trans hu)).mp h
    exact (holds_unsigned hd hu).mpr (by omega)
  | false =>
    have := (holds_signed hs (hsign.trans hu)).mp h
    exact (holds_signed hd hu).mpr (by omega)

theorem Holds.to_unsigned (h : src.Holds w v) (hv : 0 ≤ v) (hd : dst.base ≠ .bool)
    (hu : dst.unsigned = true) (hle : src.patterns w ≤ dst.patterns w) : dst.Holds w v := by
  have hlt := abs_lt.mp h.abs_lt_patterns
  exact (holds_unsigned hd hu).mpr ⟨hv, by omega⟩

theorem Holds.to_wider (h : src.Holds w v) (hd : dst.base ≠ .bool) (hu : dst.unsigned = false)
    (hlt : w.bits src.base.rank < w.bits dst.base.rank) : dst.Holds w v := by
  have hdouble := patterns_double hlt
  have habs := abs_lt.mp h.abs_lt_patterns
  exact (holds_signed hd hu).mpr (by omega)

end

end ValueType

namespace Sign

variable {w : Widths} {src dst : ValueType} {s : Sign} {v : Int}

/-- Zero, anything and nothing are kept; of what is not zero the types decide. -/
theorem convert_cases (hsrc : src.isIntegral = true) (hdst : dst.isIntegral = true) (hs : s.Covers v) :
    v = 0 ∧ s = .zero ∧ s.convert src dst = .zero ∨ s = .top ∧ s.convert src dst = .top ∨
      v ≠ 0 ∧ s.convert src dst = if dst.base = .bool then .pos else s.convertIntegral src dst := by
  cases s with
  | bottom => exact absurd hs (not_covers_bottom v)
  | zero => exact .inl ⟨covers_zero.mp hs, rfl, rfl⟩
  | top => exact .inr (.inl ⟨rfl, rfl⟩)
  | neg => exact .inr (.inr ⟨(covers_neg.mp hs).ne, by simp [convert, ValueType.isNumeric, hsrc, hdst]⟩)
  | pos => exact .inr (.inr ⟨(covers_pos.mp hs).ne', by simp [convert, ValueType.isNumeric, hsrc, hdst]⟩)
  | nonzero => exact .inr (.inr ⟨covers_nonzero.mp hs, by simp [convert, ValueType.isNumeric, hsrc, hdst]⟩)

/-- What a conversion makes zero may be zero before and after, or may be anything. -/
theorem convert_zero_or_top (hsrc : src.isIntegral = true) (hdst : dst.isIntegral = true)
    (hv : src.Holds w v) (hs : s.Covers v) (hzero : dst.wrap w v = 0) :
    s.convert src dst = .zero ∨ s.convert src dst = .top := by
  rcases convert_cases hsrc hdst hs with ⟨-, -, h⟩ | ⟨-, h⟩ | ⟨hne, h⟩
  · exact .inl h
  · exact .inr h
  · by_cases hb : dst.base = .bool
    · simp [ValueType.wrap, hb, hne] at hzero
    -- without a loss of bits the value would not be zero
    have hrank : dst.base.rank < src.base.rank := by
      by_contra hle
      exact hv.wrap_ne_zero (Nat.le_of_not_lt hle) hne hzero
    rw [h, if_neg hb, convertIntegral, if_pos hrank]
    exact .inr rfl

/-- Between integral types other than `bool`. Where the sign is kept, the value is, or the sign says no more
than that it is not zero. -/
theorem convertIntegral_covers (hw : StrictMono w.bits) (hd : dst.base ≠ .bool) (hv : src.Holds w v)
    (hs : s.Covers v) (hne : v ≠ 0) : (s.convertIntegral src dst).Covers (dst.wrap w v) := by
  unfold convertIntegral
  split
  · exact covers_top _
  have hrank : src.base.rank ≤ dst.base.rank := Nat.le_of_not_lt ‹_›
  have hwrap := hv.wrap_ne_zero hrank hne
  cases hdu : dst.unsigned with
  | true =>
    cases hsu : src.unsigned with
    | false =>
      have hnonneg := ValueType.wrap_nonneg (w := w) (v := v) (.inr hdu)
      exact covers_pos.mpr (by omega)
    | true =>
      have hkept := hv.to_unsigned (hv.nonneg (.inr hsu)) hd hdu (ValueType.patterns_mono hrank)
      rw [hkept.wrap_eq]
      exact hs
  | false =>
    by_cases hlt : src.base.rank < dst.base.rank
    · -- a wider type keeps every value, so the sign it had is right
      rw [(hv.to_wider hd hdu (hw hlt)).wrap_eq, if_neg (by simp), if_neg (by simp; omega)]
      exact hs
    have hsb : src.base ≠ .bool := fun hb => hlt (hb ▸ ValueType.rank_pos hd)
    cases hsu : src.unsigned with
    | false =>
      rw [(hv.same hsb hd (hsu.trans hdu.symm) hrank).wrap_eq]
      simpa using hs
    | true =>
      -- of one rank, large values turn negative, and all that is left is that they are not zero
      have hnonneg := hv.nonneg (.inr hsu)
      have heq : dst.base.rank = src.base.rank := Nat.le_antisymm (Nat.le_of_not_lt hlt) hrank
      rw [heq, if_neg (by simp)]
      cases s with
      | bottom => exact absurd hs (not_covers_bottom v)
      | neg => exact absurd (covers_neg.mp hs) (not_lt.mpr hnonneg)
      | zero => exact absurd (covers_zero.mp hs) hne
      | pos => simpa using hwrap
      | nonzero => simpa using hwrap
      | top => simp

/-- Conversion between integral types is sound. Let a value of the one type have the sign. If it becomes
zero, the sign after the conversion is zero or anything; and if types of a higher rank are wider, the
value it becomes has that sign. -/
theorem convert_sound (w : Widths) (src dst : ValueType) (hsrc : src.isIntegral = true)
    (hdst : dst.isIntegral = true) (s : Sign) {v : Int} (hv : src.Holds w v) (hs : s.Covers v) :
    ∃ r, Fact.convert (some s) (some src) (some dst) = some r ∧
      (dst.wrap w v = 0 → r = .zero ∨ r = .top) ∧ (StrictMono w.bits → r.Covers (dst.wrap w v)) := by
  refine ⟨_, rfl, convert_zero_or_top hsrc hdst hv hs, fun hw => ?_⟩
  rcases convert_cases hsrc hdst hs with ⟨rfl, -, h⟩ | ⟨-, h⟩ | ⟨hne, h⟩
  · rw [h, ValueType.wrap_zero]
    exact covers_ofInt 0
  · rw [h]
    exact covers_top _
  · rw [h]
    split
    · next hb =>
      rw [ValueType.wrap, if_pos hb, if_neg hne]
      decide
    · next hb => exact convertIntegral_covers hw hb hv hs hne

/-- The largest `unsigned int` is -1 as an `int`: no longer positive, but not zero either. -/
theorem convert_sound_largest :
    (ValueType.Holds .bytes ⟨.int, true, false⟩ 4294967295 ∧ pos.Covers 4294967295) ∧
    ValueType.wrap .bytes ⟨.int, false, false⟩ 4294967295 = -1 ∧
    Fact.convert (some .pos) (some ⟨.int, true, false⟩) (some ⟨.int, false, false⟩) = some .nonzero ∧
    nonzero.Covers (-1) := by
  have hv : ValueType.Holds .bytes ⟨.int, true, false⟩ 4294967295 := by decide
  have hs : pos.Covers 4294967295 := by decide
  have hwrap : ValueType.wrap .bytes ⟨.int, false, false⟩ 4294967295 = -1 := by decide
  obtain ⟨r, hr, -, hcovers⟩ := convert_sound .bytes _ ⟨.int, false, false⟩ rfl rfl .pos hv hs
  obtain rfl : Sign.nonzero = r := Option.some.inj hr
  exact ⟨⟨hv, hs⟩, hwrap, hr, hwrap ▸ hcovers Widths.bytes_strict⟩

end Sign

end SignFlow
