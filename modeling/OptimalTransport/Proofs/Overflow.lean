import OptimalTransport.Proofs.WeightCount

namespace OptimalTransport

section Refusal

variable {α : Type} [Scalar α] {x p : α} {h source target : Histogram α}

theorem Histogram.validate_ne_cost {side : Side} : h.validate side ≠ .error (.cost x) := by
  intro he
  rw [validate] at he
  split at he
  · cases he
  split at he
  · cases he
  split at he
  · cases he
  · cases he

theorem Problem.checkExponent_ne_cost : checkExponent p ≠ .error (.cost x) := by
  intro he
  rw [checkExponent] at he
  split at he
  · cases he
  · cases he

omit [Scalar α] in
theorem Problem.checkDimension_ne_cost : checkDimension source target ≠ .error (.cost x) := by
  intro he
  rw [checkDimension] at he
  split at he
  · cases he
  · cases he

theorem GroundCost.check_eq_cost_iff {a : Matrix α} :
    check a = .error (.cost x) ↔ a.toList.find? (fun c => !Scalar.isMagnitude c) = some x := by
  rw [check]
  split
  · next hsome => simp [hsome]
  · next hnone => simp [hnone]

variable [Powers α] {metric : Metric} {costs : Option (Matrix α)}

theorem GroundCost.choose_ne_cost :
    choose metric source target costs ≠ .error (.refused (.cost x)) := by
  intro he
  cases costs with
  | none =>
    obtain ⟨_, -, he⟩ := Fault.mapError_eq_error.mp he
    cases he
  | some c =>
    rw [choose] at he
    split at he
    · cases he
    · cases he

theorem Problem.prepare_eq_cost_iff :
    prepare p metric source target costs = .error (.refused (.cost x)) ↔
      Checks p source target ∧ ∃ ground,
        GroundCost.choose metric source target costs = .ok ground ∧
        ground.toList.find? (fun c => !Scalar.isMagnitude c) = some x := by
  by_cases hchecks : Checks p source target
  · rw [prepare_of_checks hchecks, Fault.bind_eq_error]
    constructor
    · rintro (he | ⟨ground, hground, he⟩)
      · exact absurd he GroundCost.choose_ne_cost
      refine ⟨hchecks, ground, hground, GroundCost.check_eq_cost_iff.mp ?_⟩
      rcases Fault.bind_eq_error.mp he with he | ⟨_, -, he⟩
      · obtain ⟨e, he, heq⟩ := Fault.mapError_eq_error.mp he
        cases heq
        exact he
      · cases he
    · rintro ⟨-, ground, hground, hfind⟩
      refine .inr ⟨ground, hground, ?_⟩
      rw [GroundCost.check_eq_cost_iff.mpr hfind]
      rfl
  · obtain ⟨e, he, hfailed⟩ := prepare_of_not_checks metric costs hchecks
    rw [he]
    refine iff_of_false (fun heq => ?_) fun h => hchecks h.1
    cases heq
    rcases hfailed with hfailed | hfailed | hfailed | hfailed
    · exact checkExponent_ne_cost hfailed
    · exact Histogram.validate_ne_cost hfailed
    · exact Histogram.validate_ne_cost hfailed
    · exact checkDimension_ne_cost hfailed

end Refusal

structure Problem.Raised {α : Type} [Scalar α] [Powers α] (exponent : α) (problem : Problem α) :
    Prop where
  ground : ∀ x ∈ problem.ground.data, Scalar.isMagnitude x = true
  nonneg : ∀ x ∈ problem.costs.data, 0 ≤ x
  finite_iff : (∀ x ∈ problem.costs.data, Scalar.isFinite x = true) ↔
    (exponent == 1) = true ∨
      ∀ x ∈ problem.ground.data, Scalar.isFinite (Powers.pow x exponent) = true

variable {α : Type} [Scalar α] [Powers α] {source target : Histogram α}
  {costs : Option (Matrix α)} {problem : Problem α}

theorem Problem.raised_of_prepare {p : α} {metric : Metric}
    (hpow : ∀ x p : α, Scalar.isMagnitude x = true → 0 < p → Scalar.isFinite p = true →
      0 ≤ Powers.pow x p)
    (hprepare : prepare p metric source target costs = .ok problem) : problem.Raised p := by
  obtain ⟨hchecks, -, hground, hcosts, -⟩ := prepare_eq_ok_iff.mp hprepare
  obtain ⟨hpos, hfinite⟩ := checkExponent_eq_ok_iff.mp hchecks.exponent
  by_cases hone : (p == 1) = true
  · rw [Matrix.pow, if_pos hone] at hcosts
    refine ⟨hground, ?_, iff_of_true ?_ (.inl hone)⟩
    · rw [hcosts]
      exact fun x hx => (Scalar.isMagnitude_iff.mp (hground x hx)).1
    · rw [hcosts]
      exact fun x hx => (Scalar.isMagnitude_iff.mp (hground x hx)).2
  · rw [Matrix.pow, if_neg hone, Matrix.map] at hcosts
    refine ⟨hground, ?_, ?_⟩
    · rw [hcosts]
      intro x hx
      obtain ⟨y, hy, rfl⟩ := Array.mem_map.mp hx
      exact hpow y p (hground y hy) hpos hfinite
    · rw [hcosts, Array.forall_mem_map]
      exact (or_iff_right hone).symm

namespace Solver

variable {s : Solver α}

theorem fitWith_eq_refused_iff {engine : Engine α} {e : InputError α} :
    s.fitWith engine source target costs = .error (.refused e) ↔
      s.prepare source target costs = .error (.refused e) := by
  cases hprepare : s.prepare source target costs with
  | error e' =>
    rw [fitWith, hprepare]
    constructor
    · intro he
      exact congrArg _ (Except.error.inj he)
    · intro he
      exact congrArg _ (Except.error.inj he)
  | ok problem =>
    rw [fitWith_of_prepare hprepare]
    constructor
    · intro he
      obtain ⟨_, -, he⟩ := Fault.mapError_eq_error.mp he
      cases he
    · intro he
      cases he

theorem fitWith_checks_ground
    (hpow : ∀ x p : α, Scalar.isMagnitude x = true → 0 < p → Scalar.isFinite p = true →
      0 ≤ Powers.pow x p)
    (s : Solver α) (source target : Histogram α) (costs : Option (Matrix α)) :
    (∀ engine x, s.fitWith engine source target costs = .error (.refused (.cost x)) ↔
      Problem.Checks s.exponent source target ∧ ∃ ground,
        GroundCost.choose s.metric source target costs = .ok ground ∧
        ground.toList.find? (fun c => !Scalar.isMagnitude c) = some x) ∧
    (∀ ground, (∃ problem, s.prepare source target costs = .ok problem ∧
        problem.ground = ground) ↔
      Problem.Checks s.exponent source target ∧
        GroundCost.choose s.metric source target costs = .ok ground ∧
        ∀ x ∈ ground.data, Scalar.isMagnitude x = true) ∧
    ∀ problem, s.prepare source target costs = .ok problem →
      problem.Raised s.exponent ∧
      ∀ engine, s.fitWith engine source target costs =
        (engine problem.costs problem.supply problem.demand >>=
          Solution.ofOutcome s.exponent problem.ground).mapError .fault := by
  refine ⟨fun engine x => ?_, fun ground => ?_, fun problem hprepare => ?_⟩
  · exact fitWith_eq_refused_iff.trans Problem.prepare_eq_cost_iff
  · constructor
    · rintro ⟨problem, hprepare, rfl⟩
      obtain ⟨hchecks, hground, hmagnitude, -⟩ := Problem.prepare_eq_ok_iff.mp hprepare
      exact ⟨hchecks, hground, hmagnitude⟩
    · rintro ⟨hchecks, hground, hmagnitude⟩
      let problem : Problem α :=
        ⟨ground, ground.pow s.exponent, source.weights, Problem.balance source target⟩
      refine ⟨problem, Problem.prepare_eq_ok_iff.mpr ?_, rfl⟩
      exact ⟨hchecks, hground, hmagnitude, rfl, rfl, rfl⟩
  · exact ⟨Problem.raised_of_prepare hpow hprepare, fun _ => fitWith_of_prepare hprepare⟩

abbrev squares : Powers Float :=
  ⟨Float.sqrt, fun x _ => if 0 ≤ x * x then x * x else 0⟩

theorem squares_nonneg (x p : Float) : 0 ≤ squares.pow x p := by
  change 0 ≤ if 0 ≤ x * x then x * x else 0
  split
  · next h => exact h
  · decide

theorem fitWith_checks_ground_square :
    letI := squares
    let point : Histogram Float := ⟨.column #[0], #[1]⟩
    let costs : Matrix Float := .column #[1e200]
    (∀ x p : Float, 0 ≤ Powers.pow x p) ∧
    ∃ problem, (default : Solver Float).prepare point point (some costs) = .ok problem ∧
      (∀ x ∈ problem.costs.data, 0 ≤ x) ∧
      (¬ ∀ x ∈ problem.costs.data, Scalar.isFinite x = true) ∧
      ∀ engine x, (default : Solver Float).fitWith engine point point (some costs) ≠
        .error (.refused (.cost x)) := by
  let := squares
  intro point costs
  refine ⟨squares_nonneg, ?_⟩
  obtain ⟨hrefused, haccepted, hgiven⟩ := fitWith_checks_ground
    (fun x p _ _ _ => squares_nonneg x p) (default : Solver Float) point point (some costs)
  have hchecked : ((default : Solver Float).prepare point point (some costs)).toOption.map
      (fun problem => problem.ground.data) = some #[1e200] := by
    decide +kernel
  obtain ⟨problem, hprepare, hground⟩ := Fault.exists_of_map hchecked
  obtain ⟨hraised, -⟩ := hgiven problem hprepare
  refine ⟨problem, hprepare, hraised.nonneg, ?_, fun engine x he => ?_⟩
  · rw [hraised.finite_iff, hground]
    decide +kernel
  · obtain ⟨-, ground, hchosen, hfind⟩ := (hrefused engine x).mp he
    obtain ⟨-, hchosen', hmagnitude⟩ := (haccepted problem.ground).mp ⟨problem, hprepare, rfl⟩
    obtain rfl := Except.ok.inj (hchosen'.symm.trans hchosen)
    have hx := hmagnitude x (Array.mem_toList_iff.mp (List.mem_of_find?_eq_some hfind))
    have hx' := List.find?_some hfind
    rw [hx] at hx'
    cases hx'

/-- A target without demand decides the plan, if it is so far away that its costs overflow. The fit
is a success with it and without it. -/
theorem far_target_misleads :
    letI := squares
    let source : Histogram Float := ⟨.column #[0, 1], #[0.5, 0.5]⟩
    let target : Histogram Float := ⟨.column #[0, 1, 2], #[0.5, 0.5, 0]⟩
    let costs : Matrix Float := ⟨2, 3, #[1, 3, 1e200, 0, 0, 1e200]⟩
    (∀ x p : Float, 0 ≤ Powers.pow x p) ∧
    ∃ problem far near, (default : Solver Float).prepare source target (some costs) = .ok problem ∧
      (¬ ∀ x ∈ problem.costs.data, Scalar.isFinite x = true) ∧
      (default : Solver Float).fit source target (some costs) = .ok far ∧
      far.success = true ∧ far.plan.matrix.data = #[0, 0.5, 0, 0.5, 0, 0] ∧
      (default : Solver Float).fit source source (some ⟨2, 2, #[1, 3, 0, 0]⟩) = .ok near ∧
      near.success = true ∧ near.plan.matrix.data = #[0.5, 0, 0, 0.5] := by
  let := squares
  intro source target costs
  have hchecked : ((default : Solver Float).prepare source target (some costs)).toOption.map
      (fun problem => decide (∀ x ∈ problem.costs.data, Scalar.isFinite x = true)) =
        some false := by
    decide +kernel
  have hfar : ((default : Solver Float).fit source target (some costs)).toOption.map
      (fun sol => (sol.success, sol.plan.matrix.data)) =
        some (true, #[0, 0.5, 0, 0.5, 0, 0]) := by
    decide +kernel
  have hnear : ((default : Solver Float).fit source source
      (some ⟨2, 2, #[1, 3, 0, 0]⟩)).toOption.map (fun sol => (sol.success, sol.plan.matrix.data)) =
        some (true, #[0.5, 0, 0, 0.5]) := by
    decide +kernel
  obtain ⟨problem, hprepare, hfinite⟩ := Fault.exists_of_map hchecked
  obtain ⟨far, hfar, hfarBoth⟩ := Fault.exists_of_map hfar
  obtain ⟨near, hnear, hnearBoth⟩ := Fault.exists_of_map hnear
  obtain ⟨hsuccess, hplan⟩ := Prod.mk.inj hfarBoth
  obtain ⟨hsuccess', hplan'⟩ := Prod.mk.inj hnearBoth
  exact ⟨squares_nonneg, problem, far, near, hprepare, of_decide_eq_false hfinite, hfar, hsuccess,
    hplan, hnear, hsuccess', hplan'⟩

end Solver

end OptimalTransport
