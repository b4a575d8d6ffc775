import Mathlib
import OptimalTransport.Proofs.Plan
import OptimalTransport.Proofs.Problem
import OptimalTransport.Proofs.Simplex.Spread
import OptimalTransport.Solver

namespace OptimalTransport

namespace Simplex

variable {costs : Matrix ℚ} {supply demand : Array ℚ} {budget : Nat} {o : Outcome ℚ}

theorem Meets.sum_eq {x : Fin supply.size → Fin demand.size → ℚ} (hx : Meets supply demand x) :
    ∑ i, ∑ j, x i j = supply.toList.sum := by
  simp only [hx.supply]
  exact Fin.sum_univ_getElem supply.toList

namespace Answers

section Shipments

variable {n m : Nat} {net : Network n m ℚ} {b : Basis n m ℚ}

theorem shipments_within (ha : Answers net budget o b) (hopt : o.status = .optimal) :
    Shipment.Within n m o.shipments :=
  ha.shipments hopt ▸ b.shipments_lt

theorem mass_nonneg (ha : Answers net budget o b) (hopt : o.status = .optimal) :
    ∀ x ∈ o.shipments, 0 ≤ x.mass := by
  intro x hx
  rw [ha.shipments hopt] at hx
  obtain ⟨r, -, rfl⟩ := Basis.mem_shipments.mp hx
  exact ha.feasible.nonneg r.arc

end Shipments

variable {net : Network supply.size demand.size ℚ} {b : Basis supply.size demand.size ℚ}

theorem totalCost_le (ha : Answers net budget o b) (hopt : o.status = .optimal)
    (hn : Nonnegative costs supply demand) (hnet : Network.Of costs supply demand net)
    (heq : supply.toList.sum = demand.toList.sum)
    {x : Fin supply.size → Fin demand.size → ℚ} (hx : Meets supply demand x) :
    Shipment.totalCost costs o.shipments ≤ costs.price x +
      1e-12 * ((supply.size + demand.size : Nat) : ℚ) * costs.maxFrom 0 * supply.toList.sum := by
  have hs := ha.feasible.sound
  obtain ⟨size, hsize⟩ := hs.exists_cycleSizes
  have hbound := hsize.le hs (hnet.outweighed hn).cost_le
  have hmax : 0 ≤ costs.maxFrom 0 := Matrix.le_maxFrom (.inl rfl)
  have hsub := ha.price_sub hopt hnet.cost_real (ha.rival hopt hn hnet heq hx)
  have hworth := hsize.neg_le_sum hs (ha.ends.settled_of (.inl hopt)).2 hx.nonneg
  have hsum : ∑ i, ∑ j, (if b.basic.get (.real i j) then 0 else x i j * size i j) ≤
      ∑ i, ∑ j, x i j * (((supply.size + demand.size : Nat) : ℚ) * costs.maxFrom 0) := by
    apply Finset.sum_le_sum
    intro i _
    apply Finset.sum_le_sum
    intro j _
    split
    · exact mul_nonneg (hx.nonneg i j) (mul_nonneg (Nat.cast_nonneg _) hmax)
    · exact mul_le_mul_of_nonneg_left (hbound i j) (hx.nonneg i j)
  simp only [← Finset.sum_mul, hx.sum_eq] at hsum
  rw [Pricing.epsilon] at hworth
  linarith

theorem succeeds (ha : Answers net budget o b) (hn : Nonnegative costs supply demand)
    (hnet : Network.Of costs supply demand net) (heq : supply.toList.sum = demand.toList.sum)
    (hbudget : 2 ^ (supply.size * demand.size + (supply.size + demand.size)) ≤ budget) :
    o.status = .optimal := by
  have himb : |net.imbalance| ≤ feasibility := by
    rw [hnet.imbalance_eq_zero heq, abs_zero]
    exact feasibility_pos.le
  exact (ha.status_eq hn hnet himb).resolve_right (ha.not_exhausted hnet.priced hbudget)

end Answers

end Simplex

namespace Solution

theorem success_iff {α : Type} [Scalar α] {sol : Solution α} :
    sol.success = true ↔ sol.status = .optimal :=
  beq_iff_eq

theorem ofOutcome_ok (exponent : ℚ) {ground : Matrix ℚ} {o : Outcome ℚ}
    (hcapacity : requireCapacity (ground.rows * ground.cols) = .ok ())
    (hwithin : o.status = .optimal → Shipment.Within ground.rows ground.cols o.shipments) :
    ∃ sol, ofOutcome exponent ground o = .ok sol ∧ sol.exponent = exponent ∧ sol.costs = ground ∧
      sol.status = o.status ∧
      (o.status = .optimal → sol.plan.Holds ground.rows ground.cols o.shipments) := by
  rw [ofOutcome, hcapacity, Fault.ok_bind]
  cases hs : o.status with
  | optimal =>
    obtain ⟨p, hp, hholds⟩ := Plan.scatter_ok (hwithin hs)
    exact ⟨_, by dsimp only; rw [hp]; rfl, rfl, rfl, rfl, fun _ => hholds⟩
  | infeasible | unbounded | exhausted => exact ⟨_, rfl, rfl, rfl, rfl, nofun⟩

variable [Powers ℚ]

structure Solves (sol : Solution ℚ) (supply demand : Array ℚ) : Prop where
  shape : sol.plan.matrix.shape = (supply.size, demand.size)
  full : sol.plan.matrix.Full
  nonneg : ∀ x ∈ sol.plan.matrix.data, 0 ≤ x
  rowSums : sol.plan.matrix.rowSums = .ok supply.toList
  colSums : sol.plan.matrix.colSums = .ok demand.toList
  sum : sol.plan.matrix.sum = supply.toList.sum
  cost : ∃ c, sol.cost = .ok c ∧ ∀ x, Simplex.Meets supply demand x →
    c ≤ (sol.costs.pow sol.exponent).price x + 1e-12 * ((supply.size + demand.size : Nat) : ℚ) *
      (sol.costs.pow sol.exponent).maxFrom 0 * supply.toList.sum

open Simplex in
theorem solves_of_answers {costs : Matrix ℚ} {supply demand : Array ℚ} {budget : Nat}
    {o : Outcome ℚ} {net : Network supply.size demand.size ℚ}
    {b : Basis supply.size demand.size ℚ} {sol : Solution ℚ}
    (ha : Answers net budget o b) (hopt : o.status = .optimal)
    (hn : Nonnegative costs supply demand) (hnet : Network.Of costs supply demand net)
    (heq : supply.toList.sum = demand.toList.sum)
    (hplan : sol.plan.Holds supply.size demand.size o.shipments)
    (hcosts : sol.costs.pow sol.exponent = costs) : sol.Solves supply demand := by
  have hwithin := ha.shipments_within hopt
  have hsent := ha.sent_eq_supply hopt hn hnet heq
  have hreceived := ha.received_eq_demand hopt hn hnet heq
  refine ⟨hplan.shape, hplan.full, hplan.nonneg (ha.mass_nonneg hopt), ?_, ?_, ?_, ?_⟩
  · rw [hplan.rowSums_ok hwithin]
    simp only [hsent]
    exact congrArg Except.ok List.ofFn_getElem
  · rw [hplan.colSums_ok hwithin]
    simp only [hreceived]
    exact congrArg Except.ok List.ofFn_getElem
  · rw [hplan.sum_ok hwithin, ← Shipment.sum_sent hwithin]
    simp only [hsent]
    exact Fin.sum_univ_getElem supply.toList
  · refine ⟨_, hplan.cost_ok hwithin (hcosts ▸ hn.shape) (hcosts ▸ hn.full), fun x hx => ?_⟩
    rw [hcosts]
    exact ha.totalCost_le hopt hn hnet heq hx

end Solution

namespace Solver

section Parts

variable {α : Type} [Scalar α] [Powers α] {s : Solver α} {engine : Engine α}
  {source target : Histogram α} {costs : Option (Matrix α)} {problem : Problem α}

theorem fitWith_of_prepare (h : s.prepare source target costs = .ok problem) :
    s.fitWith engine source target costs =
      (engine problem.costs problem.supply problem.demand >>=
        Solution.ofOutcome s.exponent problem.ground).mapError .fault := by
  rw [fitWith, h, Fault.ok_bind]
  cases engine problem.costs problem.supply problem.demand with
  | error f => rfl
  | ok o => rfl

theorem fitWith_eq_ok_iff {sol : Solution α} : s.fitWith engine source target costs = .ok sol ↔
    ∃ problem o, s.prepare source target costs = .ok problem ∧
      engine problem.costs problem.supply problem.demand = .ok o ∧
      Solution.ofOutcome s.exponent problem.ground o = .ok sol := by
  constructor
  · intro hfit
    obtain ⟨problem, hprepare, -⟩ := Fault.bind_eq_ok.mp hfit
    rw [fitWith_of_prepare hprepare, Fault.mapError_eq_ok, Fault.bind_eq_ok] at hfit
    obtain ⟨o, ho, hsol⟩ := hfit
    exact ⟨problem, o, hprepare, ho, hsol⟩
  · rintro ⟨problem, o, hprepare, ho, hsol⟩
    rw [fitWith_of_prepare hprepare, ho, Fault.ok_bind, hsol]
    rfl

theorem counted_of_fit {sol : Solution α} (hfit : s.fit source target costs = .ok sol) :
    source.Counted ∧ target.Counted := by
  obtain ⟨problem, o, hprepare, ho, -⟩ := fitWith_eq_ok_iff.mp hfit
  obtain ⟨net, hbuilt, -⟩ := Fault.bind_eq_ok.mp ho
  exact (Problem.shape_eq_iff hprepare).mp (Network.shape_of_build hbuilt)

end Parts

variable [Powers ℚ] {s : Solver ℚ} {source target : Histogram ℚ} {costs : Option (Matrix ℚ)}
  {problem : Problem ℚ} {sol : Solution ℚ}

open Simplex in
theorem fit_ok (hprepare : s.prepare source target costs = .ok problem)
    (hp : problem.Prepared s.exponent s.metric source target costs)
    (hcapacity : requireCapacity (problem.ground.rows * problem.ground.cols) = .ok ())
    (budget : Nat) :
    ∃ net o b sol, Network.Of problem.costs problem.supply problem.demand net ∧
      Answers net budget o b ∧
      ({ s with engine := ⟨budget⟩ } : Solver ℚ).fit source target costs = .ok sol ∧
      sol.exponent = s.exponent ∧ sol.costs = problem.ground ∧ sol.status = o.status ∧
      (o.status = .optimal →
        sol.plan.Holds problem.supply.size problem.demand.size o.shipments) := by
  obtain ⟨net, o, b, hnet, ho, ha⟩ := transport_answers hp.nonnegative.shape hp.nonnegative.full
    hp.balanced budget
  have hshape : problem.ground.shape = (problem.supply.size, problem.demand.size) := by
    rw [← hp.nonnegative.shape, hp.costs_eq, Matrix.shape_pow]
  obtain ⟨hrows, hcols⟩ := Prod.mk.inj hshape
  obtain ⟨sol, hsol, hexponent, hground, hstatus, hplan⟩ :=
    Solution.ofOutcome_ok s.exponent hcapacity
      fun hopt => hrows ▸ hcols ▸ ha.shipments_within hopt
  refine ⟨net, o, b, sol, hnet, ha, ?_, hexponent, hground, hstatus, hrows ▸ hcols ▸ hplan⟩
  exact fitWith_eq_ok_iff.mpr ⟨problem, o, hprepare, ho, hsol⟩

theorem solves_of_fit (hpow : ∀ x p : ℚ, 0 ≤ x → 0 < p → 0 ≤ Powers.pow x p)
    (hcosts : ∀ c ∈ costs, c.Full) (hfit : s.fit source target costs = .ok sol)
    (hsuccess : sol.success = true) :
    GroundCost.choose s.metric source target costs = .ok sol.costs ∧
      sol.exponent = s.exponent ∧
      sol.Solves source.weights
        (target.weights.map (· * (source.weights.toList.sum / target.weights.toList.sum))) := by
  obtain ⟨problem, _, hprepare, -, hsol⟩ := fitWith_eq_ok_iff.mp hfit
  obtain ⟨_, hcapacity, -⟩ := Fault.bind_eq_ok.mp hsol
  obtain ⟨hsource, htarget⟩ := counted_of_fit hfit
  have hp := Problem.prepared_of_prepare hpow hsource htarget hcosts hprepare
  obtain ⟨net, o, b, sol', hnet, ha, hfit', hexponent, hground, hstatus, hplan⟩ :=
    fit_ok hprepare hp hcapacity s.engine.budget
  obtain rfl := Except.ok.inj (hfit.symm.trans hfit')
  have hopt := hstatus.symm.trans (Solution.success_iff.mp hsuccess)
  have hsolves := Solution.solves_of_answers ha hopt hp.nonnegative hnet hp.balanced (hplan hopt)
    (by rw [hground, hexponent, hp.costs_eq])
  rw [hp.supply_eq, hp.demand_eq] at hsolves
  exact ⟨hground ▸ hp.chosen, hexponent, hsolves⟩

theorem fit_solves (hpow : ∀ x p : ℚ, 0 ≤ x → 0 < p → 0 ≤ Powers.pow x p)
    (hcosts : ∀ c ∈ costs, c.Full) (hfit : s.fit source target costs = .ok sol) :
    (∃ enough, ∀ budget, enough ≤ budget → ∃ sol',
      ({ s with engine := ⟨budget⟩ } : Solver ℚ).fit source target costs = .ok sol' ∧
        sol'.success = true) ∧
    (sol.success = true →
      GroundCost.choose s.metric source target costs = .ok sol.costs ∧
      sol.exponent = s.exponent ∧
      sol.Solves source.weights
        (target.weights.map (· * (source.weights.toList.sum / target.weights.toList.sum)))) := by
  obtain ⟨problem, hprepare, hrest⟩ := Fault.bind_eq_ok.mp hfit
  obtain ⟨_, -, hresult⟩ := Fault.bind_eq_ok.mp hrest
  obtain ⟨_, hcapacity, -⟩ := Fault.bind_eq_ok.mp (Fault.mapError_eq_ok.mp hresult)
  obtain ⟨hsource, htarget⟩ := counted_of_fit hfit
  have hp := Problem.prepared_of_prepare hpow hsource htarget hcosts hprepare
  -- The checks do not depend on the budget: what passed them once is solved with any other one.
  have hanswer := fit_ok hprepare hp hcapacity
  constructor
  · refine ⟨2 ^ (problem.supply.size * problem.demand.size +
      (problem.supply.size + problem.demand.size)), fun budget hbudget => ?_⟩
    obtain ⟨net, o, b, sol', hnet, ha, hfit', -, -, hstatus, -⟩ := hanswer budget
    have hopt := ha.succeeds hp.nonnegative hnet hp.balanced hbudget
    exact ⟨sol', hfit', Solution.success_iff.mpr (hstatus.trans hopt)⟩
  · exact solves_of_fit hpow hcosts hfit

abbrev wholePowers : Powers ℚ :=
  ⟨Rat.sqrt, fun x p => x ^ p.num.toNat⟩

omit [Powers ℚ] in
theorem fit_solves_line :
    letI := wholePowers
    ∃ sol : Solution ℚ,
      (⟨2, .manhattan, ⟨9⟩⟩ : Solver ℚ).fit ⟨.column #[0, 3], #[1 / 4, 3 / 4]⟩
        ⟨.column #[1, 2, 5], #[1 / 2, 0, 0.4999995]⟩ none = .ok sol ∧
      sol.success = true ∧ sol.costs.data = #[1, 2, 5, 2, 1, 2] ∧
      sol.plan.matrix.rowSums = .ok [1 / 4, 3 / 4] ∧ sol.plan.matrix.sum = 1 := by
  let := wholePowers
  have hpow : ∀ x p : ℚ, 0 ≤ x → 0 < p → 0 ≤ Powers.pow x p := fun x p hx _ => pow_nonneg hx _
  have hrun : ((⟨2, .manhattan, ⟨9⟩⟩ : Solver ℚ).fit ⟨.column #[0, 3], #[1 / 4, 3 / 4]⟩
      ⟨.column #[1, 2, 5], #[1 / 2, 0, 0.4999995]⟩ none).toOption.map
        (fun sol => (sol.success, sol.costs.data)) = some (true, #[1, 2, 5, 2, 1, 2]) := by
    decide +kernel
  obtain ⟨sol, hfit, hboth⟩ := Fault.exists_of_map hrun
  obtain ⟨hsuccess, hdata⟩ := Prod.mk.inj hboth
  obtain ⟨-, -, hsolves⟩ := (fit_solves hpow (by simp) hfit).2 hsuccess
  exact ⟨sol, hfit, hsuccess, hdata, hsolves.rowSums, hsolves.sum.trans (by decide +kernel)⟩

end Solver

end OptimalTransport
