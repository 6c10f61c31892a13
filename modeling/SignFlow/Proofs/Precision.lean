import Mathlib.Data.Rat.Cast.Order
import SignFlow.Proofs.Bounds

/-! Arithmetic on signs says all that can be said.

The sign of a result covers every result of operands that the signs of the operands cover, and no smaller
sign does. That it covers them has been shown for each operator; that no smaller one does is seen from a
few operands of each sign. A quotient has the sign of the product, so division by something not zero is as
precise as multiplication. -/

namespace SignFlow

/-- What the operators that always give an integer do to integers. -/
def Operator.onIntegers? : Operator → Option (Int → Int → Int)
  | plus => some fun x y => x + y
  | minus => some fun x y => x - y
  | times => some fun x y => x * y
  | divide | mod => none

theorem Operator.gives_of_onIntegers {op : Operator} {f : Int → Int → Int}
    (hf : op.onIntegers? = some f) (x y : Int) : op.Gives x y (f x y) := by
  cases op with
  | plus | minus | times =>
    cases hf
    rfl
  | divide | mod => cases hf

namespace Sign

variable {a b c : Sign}

def ofRat (q : ℚ) : Sign := if q = 0 then zero else if 0 < q then pos else neg

theorem ofRat_div (x y : Int) : ofRat (x / y) = ofInt (x * y) := by
  have hzero : (x / y : ℚ) = 0 ↔ x * y = 0 := by
    rw [div_eq_zero_iff, mul_eq_zero, Int.cast_eq_zero, Int.cast_eq_zero]
  have hpos : 0 < (x / y : ℚ) ↔ 0 < x * y := by
    rw [div_pos_iff, mul_pos_iff, Int.cast_pos, Int.cast_pos, Int.cast_lt_zero, Int.cast_lt_zero]
  simp only [ofRat, ofInt, hzero, hpos]

theorem div_eq_mul (hb : b ∈ [neg, pos, nonzero]) : a.div b = a.mul b := by
  revert hb
  cases a <;> cases b <;> decide

theorem joinAll_le {signs : List Sign} : joinAll signs ≤ c ↔ ∀ a ∈ signs, a ≤ c :=
  domain_lawful.joinAll_le

theorem ofNumbers_le {numbers : List Number} : ofNumbers numbers ≤ c ↔ ∀ n ∈ numbers, ofNumber n ≤ c :=
  joinAll_le.trans List.forall_mem_map

theorem covers_of_mem {xs : List Int} {x : Int} (h : x ∈ xs) : (ofNumbers (xs.map .int)).Covers x :=
  ofNumbers_le.mp (le_refl _) (.int x) (List.mem_map_of_mem h)

/-- Integers of the sign. Of a negative and a positive one either may be the larger, or they cancel. -/
def samples : Sign → List Int
  | bottom => []
  | neg => [-2, -1]
  | zero => [0]
  | pos => [1, 2]
  | nonzero => [-2, -1, 1, 2]
  | top => [-2, -1, 0, 1, 2]

theorem covers_of_mem_samples {x : Int} (h : x ∈ a.samples) : a.Covers x := by
  revert x
  cases a <;> decide

end Sign

namespace Operator

open Sign (ofInt ofNumbers joinAll)

variable {op : Operator} {f : Int → Int → Int}

/-- The results of the samples already need all of the sign that the operator gives. -/
theorem apply_le_samples (hf : op.onIntegers? = some f) (a b : Sign) :
    op.apply a b ≤ joinAll (a.samples.flatMap fun x => b.samples.map fun y => ofInt (f x y)) := by
  cases op with
  | plus | minus | times =>
    cases hf
    cases a <;> cases b <;> decide
  | divide | mod => cases hf

theorem apply_isLeast (hf : op.onIntegers? = some f) (a b : Sign) :
    IsLeast {c : Sign | ∀ x y, a.Covers x → b.Covers y → c.Covers (f x y)} (op.apply a b) := by
  refine ⟨fun x y hx hy => (gives_of_onIntegers hf x y).covers hx hy, fun c hc => ?_⟩
  refine Sign.le_trans (apply_le_samples hf a b) (Sign.joinAll_le.mpr fun s hs => ?_)
  obtain ⟨x, hx, hs⟩ := List.mem_flatMap.mp hs
  obtain ⟨y, hy, rfl⟩ := List.mem_map.mp hs
  exact hc x y (Sign.covers_of_mem_samples hx) (Sign.covers_of_mem_samples hy)

theorem apply_division (h : op.isDivision = true) {a b : Sign} (hb : b ∈ [.neg, .pos, .nonzero]) :
    op.apply a b = times.apply a b := by
  cases op with
  | divide | mod => exact Sign.div_eq_mul hb
  | plus | minus | times => cases h

/-- Sums, differences and products: of all signs, the one given is the least that covers every result of
operands of the given signs, so the sign of the results of two lists is never above it. Quotients and
remainders by something not zero: the sign given is the least that covers the sign of every exact
quotient. -/
theorem apply_best_abstraction :
    (∀ op f, onIntegers? op = some f →
      (∀ a b, IsLeast {c : Sign | ∀ x y, a.Covers x → b.Covers y → c.Covers (f x y)} (op.apply a b)) ∧
      ∀ xs ys : List Int,
        ofNumbers (xs.flatMap fun x => ys.map fun y => .int (f x y)) ≤
          op.apply (ofNumbers (xs.map .int)) (ofNumbers (ys.map .int))) ∧
    ∀ op, isDivision op = true → ∀ a b, b ∈ [.neg, .pos, .nonzero] →
      IsLeast {c : Sign | ∀ x y : Int, a.Covers x → b.Covers y → Sign.ofRat (x / y) ≤ c} (op.apply a b) := by
  refine ⟨fun op f hf => ⟨apply_isLeast hf, fun xs ys => ?_⟩, fun op hop a b hb => ?_⟩
  · refine Sign.ofNumbers_le.mpr fun n hn => ?_
    obtain ⟨x, hx, hn⟩ := List.mem_flatMap.mp hn
    obtain ⟨y, hy, rfl⟩ := List.mem_map.mp hn
    exact (gives_of_onIntegers hf x y).covers (Sign.covers_of_mem hx) (Sign.covers_of_mem hy)
  · rw [apply_division hop hb]
    simp only [Sign.ofRat_div]
    exact apply_isLeast rfl a b

end Operator

end SignFlow
