import Mathlib
import OptimalTransport.Family
import OptimalTransport.Scalar

namespace OptimalTransport.Scalar

instance rational : Scalar ℚ where
  abs a := |a|
  isFinite _ := true
  decLt := inferInstance
  decLe := inferInstance

@[simp]
theorem isNumber_eq (a : ℚ) : isNumber a = true :=
  decide_eq_true (le_refl a)

@[simp]
theorem abs_eq (a : ℚ) : Scalar.abs a = |a| :=
  rfl

@[simp]
theorem max_eq (a b : ℚ) : Scalar.max a b = Max.max a b := by
  rw [Scalar.max, if_pos (isNumber_eq b)]
  split
  · next h => exact (max_eq_left (le_of_lt h)).symm
  · next h => exact (max_eq_right (not_lt.mp h)).symm

theorem foldl_add (xs : List ℚ) (a : ℚ) : xs.foldl (· + ·) a = a + xs.sum := by
  induction xs generalizing a with
  | nil => simp
  | cons x xs ih => rw [List.foldl_cons, ih, List.sum_cons, add_assoc]

@[simp]
theorem sum_eq (xs : List ℚ) : Scalar.sum xs = xs.sum := by
  change xs.foldl (· + ·) (-0) = _
  rw [foldl_add, neg_zero, zero_add]

theorem foldl_max_le_iff (xs : List ℚ) (a b : ℚ) :
    xs.foldl Scalar.max a ≤ b ↔ a ≤ b ∧ ∀ x ∈ xs, x ≤ b := by
  induction xs generalizing a with
  | nil => simp
  | cons x xs ih => rw [List.foldl_cons, ih, max_eq, max_le_iff, List.forall_mem_cons, and_assoc]

end OptimalTransport.Scalar

namespace OptimalTransport.Family

variable {k : Nat}

theorem sum_toList (x : Family k ℚ) : Scalar.sum x.toList = ∑ i, x.get i := by
  rw [Scalar.sum_eq, toList_eq_ofFn, List.sum_ofFn]

theorem sum_zipWith_mul (x y : Family k ℚ) :
    Scalar.sum (List.zipWith (· * ·) x.toList y.toList) = ∑ i, x.get i * y.get i := by
  have hzip : List.zipWith (· * ·) (List.ofFn x.get) (List.ofFn y.get) =
      List.ofFn fun i => x.get i * y.get i := by
    apply List.ext_getElem
    · simp
    · simp
  rw [Scalar.sum_eq, toList_eq_ofFn, toList_eq_ofFn, hzip, List.sum_ofFn]

end OptimalTransport.Family
