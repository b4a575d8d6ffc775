import OptimalTransport.Proofs.Exact
import OptimalTransport.Scalar.Binary64

namespace OptimalTransport

namespace Scalar

class Ordered (α : Type) [Scalar α] : Prop where
  le_self_of_isFinite {a : α} (h : isFinite a = true) : a ≤ a
  le_self_of_le {a b : α} (h : a ≤ b) : a ≤ a ∧ b ≤ b
  le_trans {a b c : α} (h : a ≤ b) (h' : b ≤ c) : a ≤ c
  le_total {a b : α} (ha : a ≤ a) (hb : b ≤ b) : a ≤ b ∨ b ≤ a
  lt_iff {a b : α} : a < b ↔ a ≤ b ∧ ¬ b ≤ a

theorem isBelowInfinity_of_isFinite {α : Type} [Scalar α] {a : α} (h : isFinite a = true) :
    isBelowInfinity a = true :=
  Bool.or_eq_true_iff.mpr (.inl h)

namespace Ordered

section Laws

variable {α : Type} [Scalar α] [Ordered α] {a b c : α}

theorem le_of_lt (h : a < b) : a ≤ b :=
  (lt_iff.mp h).1

theorem lt_of_lt_of_le (h : a < b) (h' : b ≤ c) : a < c := by
  obtain ⟨hab, hba⟩ := lt_iff.mp h
  exact lt_iff.mpr ⟨le_trans hab h', fun hca => hba (le_trans h' hca)⟩

theorem le_of_not_lt (ha : a ≤ a) (hb : b ≤ b) (h : ¬ a < b) : b ≤ a := by
  rcases le_total ha hb with hab | hba
  · by_contra hba
    exact h (lt_iff.mpr ⟨hab, hba⟩)
  · exact hba

theorem lt_of_not_le (ha : a ≤ a) (hb : b ≤ b) (h : ¬ a ≤ b) : b < a :=
  lt_iff.mpr ⟨(le_total ha hb).resolve_left h, h⟩

theorem max_zero (h : 0 ≤ a) : Scalar.max a 0 ≤ a ∧ a ≤ Scalar.max a 0 := by
  obtain ⟨hzero, ha⟩ := le_self_of_le h
  rw [Scalar.max, isNumber, decide_eq_true hzero, if_pos rfl]
  split
  · exact ⟨ha, ha⟩
  · next hpos => exact ⟨h, le_of_not_lt hzero ha hpos⟩

end Laws

theorem of_place {α κ : Type} [Scalar α] [LinearOrder κ] (place : α → Option κ)
    (hfinite : ∀ a, isFinite a = true → ∃ p, place a = some p)
    (hle : ∀ a b, a ≤ b ↔ ∃ p q, place a = some p ∧ place b = some q ∧ p ≤ q)
    (hlt : ∀ a b, a < b ↔ ∃ p q, place a = some p ∧ place b = some q ∧ p < q) : Ordered α where
  le_self_of_isFinite {a} h := by
    obtain ⟨p, hp⟩ := hfinite a h
    exact (hle a a).mpr ⟨p, p, hp, hp, le_refl p⟩
  le_self_of_le {a b} h := by
    obtain ⟨p, q, hp, hq, -⟩ := (hle a b).mp h
    exact ⟨(hle a a).mpr ⟨p, p, hp, hp, le_refl p⟩, (hle b b).mpr ⟨q, q, hq, hq, le_refl q⟩⟩
  le_trans {a b c} h h' := by
    obtain ⟨p, q, hp, hq, hpq⟩ := (hle a b).mp h
    obtain ⟨q', r, hq', hr, hqr⟩ := (hle b c).mp h'
    obtain rfl := Option.some.inj (hq.symm.trans hq')
    exact (hle a c).mpr ⟨p, r, hp, hr, hpq.trans hqr⟩
  le_total {a b} ha hb := by
    obtain ⟨p, -, hp, -⟩ := (hle a a).mp ha
    obtain ⟨q, -, hq, -⟩ := (hle b b).mp hb
    rcases LinearOrder.le_total p q with h | h
    · exact .inl ((hle a b).mpr ⟨p, q, hp, hq, h⟩)
    · exact .inr ((hle b a).mpr ⟨q, p, hq, hp, h⟩)
  lt_iff {a b} := by
    constructor
    · intro h
      obtain ⟨p, q, hp, hq, hpq⟩ := (hlt a b).mp h
      refine ⟨(hle a b).mpr ⟨p, q, hp, hq, hpq.le⟩, fun hba => ?_⟩
      obtain ⟨q', p', hq', hp', hqp⟩ := (hle b a).mp hba
      obtain rfl := Option.some.inj (hp.symm.trans hp')
      obtain rfl := Option.some.inj (hq.symm.trans hq')
      exact absurd hpq (not_lt.mpr hqp)
    · rintro ⟨hab, hba⟩
      obtain ⟨p, q, hp, hq, -⟩ := (hle a b).mp hab
      refine (hlt a b).mpr ⟨p, q, hp, hq, ?_⟩
      by_contra h
      exact hba ((hle b a).mpr ⟨q, p, hq, hp, not_lt.mp h⟩)

instance rational : Ordered ℚ :=
  of_place some (fun a _ => ⟨a, rfl⟩) (by simp) (by simp)

end Ordered

end Scalar

namespace Binary64

open Float.Model

/-- Where a number stands among all others: by its kind and sign, then by its exponent, and then by
its mantissa. -/
def place : UnpackedFloat → Option (ℤ ×ₗ ℤ ×ₗ ℤ)
  | .notANumber => none
  | .infinity .negative => some (toLex (-2, toLex (0, 0)))
  | .finite .negative mantissa exponent _ => some (toLex (-1, toLex (-exponent, -mantissa)))
  | .zero _ => some (toLex (0, toLex (0, 0)))
  | .finite .positive mantissa exponent _ => some (toLex (1, toLex (exponent, mantissa)))
  | .infinity .positive => some (toLex (2, toLex (0, 0)))

theorem compare_toLex (k a b c d : ℤ) :
    compare (toLex (k, toLex (a, b))) (toLex (k, toLex (c, d))) =
      (compare a c).then (compare b d) := by
  change (compare k k).then ((compare a c).then (compare b d)) = _
  rw [compare_eq_iff_eq.mpr rfl]
  rfl

theorem compare_neg (a b : ℤ) : compare (-a) (-b) = (compare a b).swap := by
  rcases lt_trichotomy a b with h | rfl | h
  · rw [compare_lt_iff_lt.mpr h, compare_gt_iff_gt.mpr (neg_lt_neg h)]
    rfl
  · rw [compare_eq_iff_eq.mpr rfl, compare_eq_iff_eq.mpr rfl]
    rfl
  · rw [compare_gt_iff_gt.mpr h, compare_lt_iff_lt.mpr (neg_lt_neg h)]
    rfl

theorem compare_natCast (a b : ℕ) : compare (a : ℤ) (b : ℤ) = compare a b := by
  rcases lt_trichotomy a b with h | rfl | h
  · rw [compare_lt_iff_lt.mpr h, compare_lt_iff_lt.mpr (Int.ofNat_lt.mpr h)]
  · rw [compare_eq_iff_eq.mpr rfl, compare_eq_iff_eq.mpr rfl]
  · rw [compare_gt_iff_gt.mpr h, compare_gt_iff_gt.mpr (Int.ofNat_lt.mpr h)]

theorem compare_eq (x y : UnpackedFloat) :
    x.compare y = (place x).bind fun p => (place y).map (compare p) := by
  cases x with
  | notANumber => rfl
  | infinity s =>
    cases s <;> cases y with
    | infinity s' => cases s' <;> rfl
    | finite s' m' e' hm' => cases s' <;> rfl
    | _ => rfl
  | zero s =>
    cases y with
    | infinity s' => cases s' <;> rfl
    | finite s' m' e' hm' => cases s' <;> rfl
    | _ => rfl
  | finite s m e hm =>
    cases y with
    | infinity s' => cases s <;> cases s' <;> rfl
    | notANumber => cases s <;> rfl
    | zero s' => cases s <;> rfl
    | finite s' m' e' hm' =>
      cases s with
      | negative =>
        cases s' with
        | negative =>
          simp only [UnpackedFloat.compare, place, Option.bind_some, Option.map_some,
            compare_toLex, compare_neg, compare_natCast, Ordering.swap_then]
        | positive => rfl
      | positive =>
        cases s' with
        | negative => rfl
        | positive =>
          simp only [UnpackedFloat.compare, place, Option.bind_some, Option.map_some,
            compare_toLex, compare_natCast]

theorem compare_eq_some_iff {x y : UnpackedFloat} {o : Ordering} :
    x.compare y = some o ↔ ∃ p q, place x = some p ∧ place y = some q ∧ compare p q = o := by
  rw [compare_eq, Option.bind_eq_some_iff]
  simp only [Option.map_eq_some_iff, ← exists_and_left]

def floatPlace (a : Float) : Option (ℤ ×ₗ ℤ ×ₗ ℤ) :=
  place a.toModel.unpack

theorem lt_iff (a b : Float) :
    a < b ↔ ∃ p q, floatPlace a = some p ∧ floatPlace b = some q ∧ p < q := by
  have hcompare : a < b ↔ a.toModel.unpack.compare b.toModel.unpack = some .lt := by
    change decide (a.toModel < b.toModel) = true ↔ _
    rw [decide_eq_true_iff]
    exact beq_iff_eq
  rw [hcompare, compare_eq_some_iff]
  simp only [compare_lt_iff_lt]
  rfl

theorem le_iff (a b : Float) :
    a ≤ b ↔ ∃ p q, floatPlace a = some p ∧ floatPlace b = some q ∧ p ≤ q := by
  have hcompare : a ≤ b ↔
      ∃ o, a.toModel.unpack.compare b.toModel.unpack = some o ∧ o.isLE = true := by
    change decide (a.toModel ≤ b.toModel) = true ↔ _
    rw [decide_eq_true_iff]
    exact Option.any_eq_true _ _
  simp only [hcompare, compare_eq_some_iff]
  constructor
  · rintro ⟨o, ⟨p, q, hp, hq, rfl⟩, hle⟩
    exact ⟨p, q, hp, hq, compare_le_iff_le.mp (Ordering.isLE_iff_ne_gt.mp hle)⟩
  · rintro ⟨p, q, hp, hq, hle⟩
    exact ⟨_, ⟨p, q, hp, hq, rfl⟩, Ordering.isLE_iff_ne_gt.mpr (compare_le_iff_le.mpr hle)⟩

theorem floatPlace_of_isFinite (a : Float) (h : a.isFinite = true) :
    ∃ p, floatPlace a = some p := by
  change a.toModel.unpack.isFinite = true at h
  rw [floatPlace]
  cases hx : a.toModel.unpack with
  | notANumber => rw [hx] at h; cases h
  | infinity s => rw [hx] at h; cases h
  | zero s => exact ⟨_, rfl⟩
  | finite s m e hm => cases s <;> exact ⟨_, rfl⟩

theorem floatPlace_infinity : floatPlace (1 / 0) = some (toLex (2, toLex (0, 0))) :=
  rfl

theorem lt_infinity_iff (a : Float) : a < 1 / 0 ↔ Scalar.isBelowInfinity a = true := by
  have hfinite : Scalar.isFinite a = a.toModel.unpack.isFinite := rfl
  have hzero : floatPlace 0 = some (toLex (0, toLex (0, 0))) := rfl
  rw [Scalar.isBelowInfinity, Bool.or_eq_true, decide_eq_true_iff, hfinite]
  change _ ↔ _ ∨ a < (0 : Float)
  rw [lt_iff, lt_iff, floatPlace_infinity, hzero, floatPlace]
  cases a.toModel.unpack with
  | notANumber => simp [place, UnpackedFloat.isFinite]
  | infinity s => cases s <;> simp [place, UnpackedFloat.isFinite, Prod.Lex.toLex_lt_toLex]
  | zero s => simp [place, UnpackedFloat.isFinite, Prod.Lex.toLex_lt_toLex]
  | finite s m e hm => cases s <;> simp [place, UnpackedFloat.isFinite, Prod.Lex.toLex_lt_toLex]

theorem le_infinity_iff (a : Float) : a ≤ 1 / 0 ↔ Scalar.isNumber a = true := by
  rw [Scalar.isNumber, decide_eq_true_iff]
  change _ ↔ a ≤ a
  rw [le_iff, le_iff, floatPlace_infinity, floatPlace]
  cases a.toModel.unpack with
  | notANumber => simp [place]
  | infinity s => cases s <;> simp [place, Prod.Lex.toLex_le_toLex]
  | zero s => simp [place, Prod.Lex.toLex_le_toLex]
  | finite s m e hm => cases s <;> simp [place, Prod.Lex.toLex_le_toLex]

end Binary64

instance Scalar.Ordered.binary64 : Scalar.Ordered Float :=
  .of_place Binary64.floatPlace Binary64.floatPlace_of_isFinite Binary64.le_iff Binary64.lt_iff

end OptimalTransport
