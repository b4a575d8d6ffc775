import Mathlib
import OptimalTransport.Problem
import OptimalTransport.Proofs.Matrix
import OptimalTransport.Proofs.Simplex.Status

namespace OptimalTransport

namespace Matrix

variable {α : Type} {a c : Matrix α}

theorem length_of_toRows {rows : List (List α)} (h : a.toRows = .ok rows) :
    rows.length = a.rows := by
  obtain ⟨-, -, h⟩ := Fault.bind_eq_ok.mp h
  rw [← Except.ok.inj h, List.length_map, List.length_range]

variable [Scalar α]

theorem rows_of_pad {extra : Nat} (h : a.pad extra = .ok c) : c.rows = a.rows := by
  obtain ⟨-, -, h⟩ := Fault.bind_eq_ok.mp h
  have hrows := congrArg rows (Except.ok.inj h)
  exact hrows.symm

variable [Powers α]

theorem shape_pow (a : Matrix α) (p : α) : (a.pow p).shape = a.shape := by
  rw [pow]
  split <;> rfl

theorem Full.pow (h : a.Full) (p : α) : (a.pow p).Full := by
  rw [Matrix.pow]
  split
  · exact h
  · exact Array.size_map.trans h

end Matrix

theorem Histogram.rows_of_embed {α : Type} [Scalar α] {h h' : Histogram α} {k : Nat}
    (hembed : h.embed k = .ok h') : h'.points.rows = h.size := by
  obtain ⟨points, hpad, hpoints⟩ := Fault.bind_eq_ok.mp hembed
  obtain rfl := Except.ok.inj hpoints
  exact Matrix.rows_of_pad hpad

namespace Metric

variable {α : Type} [Scalar α] [Powers α] {metric : Metric} {source target : Histogram α}

theorem pairwise_full {x y a : Matrix α} (h : metric.pairwise x y = .ok a) :
    a.shape = (x.rows, y.rows) ∧ a.Full := by
  obtain ⟨-, -, h⟩ := Fault.bind_eq_ok.mp h
  split at h
  · obtain rfl := Except.ok.inj h
    exact ⟨rfl, .zeros _ _⟩
  · obtain ⟨xs, hxs, h⟩ := Fault.bind_eq_ok.mp h
    obtain ⟨ys, hys, h⟩ := Fault.bind_eq_ok.mp h
    obtain rfl := Except.ok.inj h
    refine ⟨rfl, ?_⟩
    rw [Matrix.Full, List.size_toArray, List.length_flatMap]
    simp [Matrix.length_of_toRows hxs, Matrix.length_of_toRows hys]

theorem between_full {a : Matrix α} (h : metric.between source target = .ok a) :
    a.shape = (source.size, target.size) ∧ a.Full := by
  rw [between] at h
  split at h
  · obtain ⟨source', hsource, h⟩ := Fault.bind_eq_ok.mp h
    obtain ⟨target', htarget, h⟩ := Fault.bind_eq_ok.mp h
    rw [← Histogram.rows_of_embed hsource, ← Histogram.rows_of_embed htarget]
    exact pairwise_full h
  · exact pairwise_full h

end Metric

namespace GroundCost

variable {α : Type} [Scalar α] [Powers α] {metric : Metric} {source target : Histogram α}
  {costs : Option (Matrix α)} {a : Matrix α}

theorem shape_of_choose (h : choose metric source target costs = .ok a) :
    a.shape = (source.size, target.size) := by
  cases costs with
  | none => exact (Metric.between_full (Fault.mapError_eq_ok.mp h)).1
  | some c =>
    rw [choose] at h
    split at h
    · next hshape => rwa [← Except.ok.inj h]
    · cases h

theorem full_of_choose (hcosts : ∀ c ∈ costs, c.Full)
    (h : choose metric source target costs = .ok a) : a.Full := by
  cases costs with
  | none => exact (Metric.between_full (Fault.mapError_eq_ok.mp h)).2
  | some c =>
    rw [choose] at h
    split at h
    · exact Except.ok.inj h ▸ hcosts c rfl
    · cases h

end GroundCost

theorem Scalar.isMagnitude_iff {α : Type} [Scalar α] {x : α} :
    isMagnitude x = true ↔ 0 ≤ x ∧ isFinite x = true := by
  simp [isMagnitude]

theorem GroundCost.check_eq_ok_iff {α : Type} [Scalar α] {a : Matrix α} :
    check a = .ok () ↔ ∀ x ∈ a.data, Scalar.isMagnitude x = true := by
  simp only [← Array.mem_toList_iff]
  rw [check]
  split
  · next x hsome =>
    refine iff_of_false (fun h => nomatch h) fun h => ?_
    have hx := List.find?_some hsome
    rw [h x (List.mem_of_find?_eq_some hsome)] at hx
    cases hx
  · next hnone =>
    refine iff_of_true rfl fun x hx => ?_
    simpa using List.find?_eq_none.mp hnone x hx

theorem massBelow_size (weights : Array ℚ) :
    massBelow weights.size weights = weights.toList.sum := by
  rw [massBelow, indicesBelow_of_le (Nat.le_succ _), Scalar.sum_eq]
  congr 1
  apply List.ext_getElem
  · simp
  intro i hi hi'
  have hlt : i < weights.size := by simpa using hi
  simp [density, hlt]

def Histogram.Counted {α : Type} (h : Histogram α) : Prop :=
  h.weights.size = h.size

instance {α : Type} (h : Histogram α) : Decidable h.Counted :=
  inferInstanceAs (Decidable (_ = _))

namespace Histogram

variable {h : Histogram ℚ} {side : Side}

structure Valid (h : Histogram ℚ) : Prop where
  nonempty : 0 < h.size
  nonneg : ∀ x ∈ h.weights, 0 ≤ x
  mass : |h.weights.toList.sum - 1| ≤ 1e-6

theorem Valid.mass_pos (hv : h.Valid) : 0 < h.weights.toList.sum := by
  have := (abs_le.mp hv.mass).1
  linarith

theorem mass_eq (hcount : h.Counted) : h.mass = h.weights.toList.sum := by
  rw [Counted] at hcount
  rw [mass, ← hcount, massBelow_size]

theorem valid_of_validate (hcount : h.Counted) (hok : h.validate side = .ok ()) :
    h.Valid := by
  rw [validate] at hok
  split at hok
  · cases hok
  next hempty =>
  split at hok
  · cases hok
  next hnone =>
  split at hok
  · cases hok
  next hmass =>
  refine ⟨Nat.pos_of_ne_zero hempty, fun x hx => ?_, ?_⟩
  · have hsize : h.weights.size = h.size := hcount
    obtain ⟨k, hk, rfl⟩ := Array.mem_iff_getElem.mp hx
    have hmem : k ∈ indicesBelow h.size h.weights := by
      rw [indicesBelow_of_le (by omega), List.mem_range]
      omega
    have hfound := List.find?_eq_none.mp hnone k hmem
    have hmagnitude : Scalar.isMagnitude (h.density k) = true := by simpa using hfound
    have hnonneg := (Scalar.isMagnitude_iff.mp hmagnitude).1
    rwa [Histogram.density, OptimalTransport.density, Array.getElem?_eq_getElem hk] at hnonneg
  · rw [mass_eq hcount] at hmass
    exact not_lt.mp hmass

end Histogram

namespace Problem

variable {α : Type} [Scalar α] {exponent : α} {source target : Histogram α}

structure Checks (exponent : α) (source target : Histogram α) : Prop where
  exponent : checkExponent exponent = .ok ()
  dimension : checkDimension source target = .ok ()
  source : source.validate .source = .ok ()
  target : target.validate .target = .ok ()

variable [Powers α] {metric : Metric} {costs : Option (Matrix α)} {problem : Problem α}

theorem prepare_of_checks (h : Checks exponent source target) :
    prepare exponent metric source target costs =
      (GroundCost.choose metric source target costs >>= fun ground =>
        (GroundCost.check ground).mapError .refused >>= fun _ =>
          .ok ⟨ground, ground.pow exponent, source.weights, balance source target⟩) := by
  rw [prepare, h.exponent, h.source, h.target, h.dimension]
  rfl

theorem prepare_of_not_checks (metric : Metric) (costs : Option (Matrix α))
    (h : ¬ Checks exponent source target) :
    ∃ e, prepare exponent metric source target costs = .error (.refused e) ∧
      (checkExponent exponent = .error e ∨ source.validate .source = .error e ∨
        target.validate .target = .error e ∨ checkDimension source target = .error e) := by
  cases hexponent : checkExponent exponent with
  | error e => exact ⟨e, by rw [prepare, hexponent]; rfl, .inl rfl⟩
  | ok _ =>
  cases hsource : source.validate .source with
  | error e => exact ⟨e, by rw [prepare, hexponent, hsource]; rfl, .inr (.inl rfl)⟩
  | ok _ =>
  cases htarget : target.validate .target with
  | error e =>
    exact ⟨e, by rw [prepare, hexponent, hsource, htarget]; rfl, .inr (.inr (.inl rfl))⟩
  | ok _ =>
  cases hdimension : checkDimension source target with
  | error e =>
    exact ⟨e, by rw [prepare, hexponent, hsource, htarget, hdimension]; rfl,
      .inr (.inr (.inr rfl))⟩
  | ok _ => exact absurd ⟨hexponent, hdimension, hsource, htarget⟩ h

theorem prepare_eq_ok_iff : prepare exponent metric source target costs = .ok problem ↔
    Checks exponent source target ∧
      GroundCost.choose metric source target costs = .ok problem.ground ∧
      (∀ x ∈ problem.ground.data, Scalar.isMagnitude x = true) ∧
      problem.costs = problem.ground.pow exponent ∧ problem.supply = source.weights ∧
      problem.demand = balance source target := by
  by_cases hchecks : Checks exponent source target
  · rw [prepare_of_checks hchecks]
    simp only [Fault.bind_eq_ok, Fault.mapError_eq_ok]
    constructor
    · rintro ⟨ground, hground, _, hcheck, h⟩
      obtain rfl := Except.ok.inj h
      exact ⟨hchecks, hground, GroundCost.check_eq_ok_iff.mp hcheck, rfl, rfl, rfl⟩
    · rintro ⟨-, hground, hmagnitude, hcosts, hsupply, hdemand⟩
      refine ⟨problem.ground, hground, (), GroundCost.check_eq_ok_iff.mpr hmagnitude, ?_⟩
      rw [← hcosts, ← hsupply, ← hdemand]
  · obtain ⟨e, he, -⟩ := prepare_of_not_checks metric costs hchecks
    rw [he]
    exact iff_of_false (fun h => nomatch h) fun h => hchecks h.1

theorem costs_of_prepare (h : prepare exponent metric source target costs = .ok problem) :
    problem.costs = problem.ground.pow exponent :=
  (prepare_eq_ok_iff.mp h).2.2.2.1

theorem shape_eq_iff (h : prepare exponent metric source target costs = .ok problem) :
    problem.costs.shape = (problem.supply.size, problem.demand.size) ↔
      source.Counted ∧ target.Counted := by
  obtain ⟨-, hground, -, hraised, hsupply, hdemand⟩ := prepare_eq_ok_iff.mp h
  rw [hraised, Matrix.shape_pow, GroundCost.shape_of_choose hground, hsupply, hdemand, balance,
    Array.size_map, Prod.mk.injEq]
  exact and_congr eq_comm eq_comm

end Problem

theorem Problem.checkExponent_eq_ok_iff {α : Type} [Scalar α] {exponent : α} :
    checkExponent exponent = .ok () ↔ 0 < exponent ∧ Scalar.isFinite exponent = true := by
  rw [checkExponent]
  split
  · next h => exact iff_of_true rfl (by simpa using h)
  · next h => exact iff_of_false (fun he => nomatch he) (by simpa using h)

namespace Problem

variable [Powers ℚ] {exponent : ℚ} {metric : Metric} {source target : Histogram ℚ}
  {costs : Option (Matrix ℚ)} {problem : Problem ℚ}

structure Prepared (exponent : ℚ) (metric : Metric) (source target : Histogram ℚ)
    (costs : Option (Matrix ℚ)) (problem : Problem ℚ) : Prop where
  chosen : GroundCost.choose metric source target costs = .ok problem.ground
  costs_eq : problem.costs = problem.ground.pow exponent
  supply_eq : problem.supply = source.weights
  demand_eq : problem.demand =
    target.weights.map (· * (source.weights.toList.sum / target.weights.toList.sum))
  nonnegative : Nonnegative problem.costs problem.supply problem.demand
  balanced : problem.supply.toList.sum = problem.demand.toList.sum

theorem prepared_of_prepare (hpow : ∀ x p : ℚ, 0 ≤ x → 0 < p → 0 ≤ Powers.pow x p)
    (hsource : source.Counted) (htarget : target.Counted) (hcosts : ∀ c ∈ costs, c.Full)
    (h : prepare exponent metric source target costs = .ok problem) :
    Prepared exponent metric source target costs problem := by
  obtain ⟨hchecks, hground, hmagnitude, hraised, hsupply, hdemand⟩ := prepare_eq_ok_iff.mp h
  have hp := (checkExponent_eq_ok_iff.mp hchecks.exponent).1
  have hvs := Histogram.valid_of_validate hsource hchecks.source
  have hvt := Histogram.valid_of_validate htarget hchecks.target
  have hnonneg : ∀ x ∈ problem.ground.data, 0 ≤ x :=
    fun x hx => (Scalar.isMagnitude_iff.mp (hmagnitude x hx)).1
  have hfull := GroundCost.full_of_choose hcosts hground
  have hscale : 0 ≤ source.weights.toList.sum / target.weights.toList.sum :=
    (div_pos hvs.mass_pos hvt.mass_pos).le
  rw [balance, Histogram.mass_eq hsource, Histogram.mass_eq htarget] at hdemand
  refine ⟨hground, hraised, hsupply, hdemand,
    ⟨(shape_eq_iff h).mpr ⟨hsource, htarget⟩, hraised ▸ hfull.pow exponent, ?_,
      hsupply ▸ hvs.nonneg, ?_⟩, ?_⟩
  · intro x hx
    rw [hraised, Matrix.pow] at hx
    split at hx
    · exact hnonneg x hx
    · obtain ⟨y, hy, rfl⟩ := Array.mem_map.mp hx
      exact hpow y exponent (hnonneg y hy) hp
  · intro x hx
    rw [hdemand] at hx
    obtain ⟨y, hy, rfl⟩ := Array.mem_map.mp hx
    exact mul_nonneg (hvt.nonneg y hy) hscale
  · rw [hsupply, hdemand, Array.toList_map, List.sum_map_mul_right, List.map_id',
      mul_div_cancel₀ _ hvt.mass_pos.ne']

end Problem

end OptimalTransport
