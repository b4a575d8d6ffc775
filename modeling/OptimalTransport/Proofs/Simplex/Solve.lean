import OptimalTransport.Proofs.Simplex.Run

namespace OptimalTransport

variable {n m : Nat} {net : Network n m ℚ}

namespace Shipment

def sent (xs : List (Shipment ℚ)) (i : Nat) : ℚ :=
  (xs.map fun x => if x.source = i then x.mass else 0).sum

def received (xs : List (Shipment ℚ)) (j : Nat) : ℚ :=
  (xs.map fun x => if x.target = j then x.mass else 0).sum

def totalCost (costs : Matrix ℚ) (xs : List (Shipment ℚ)) : ℚ :=
  (xs.map fun x => x.mass * costs.entry x.source x.target).sum

end Shipment

theorem Route.sum_all (f : Route n m → ℚ) :
    ((Route.all n m).map f).sum = ∑ i, ∑ j, f (i, j) := by
  rw [Route.all, List.map_flatMap, List.flatMap_def, List.sum_flatten, List.map_map,
    Fin.sum_univ_def]
  refine congrArg List.sum (List.map_congr_left fun i _ => ?_)
  rw [Function.comp_apply, List.map_map, Fin.sum_univ_def]
  rfl

namespace Simplex.Basis

theorem sum_shipments {b : Basis n m ℚ} (hnonneg : ∀ a, 0 ≤ b.flow.get a) (w : Nat → Nat → ℚ) :
    (b.shipments.map fun x => x.mass * w x.source x.target).sum =
      ∑ i, ∑ j, b.flow.get (.real i j) * w i j := by
  refine .trans ?_ (Route.sum_all fun r => b.flow.get r.arc * w r.1 r.2)
  rw [shipments]
  induction Route.all n m with
  | nil => rfl
  | cons r rs ih =>
    rw [List.filterMap_cons, List.map_cons, List.sum_cons, ← ih]
    by_cases hr : 0 < b.flow.get r.arc
    · simp only [if_pos hr, List.map_cons, List.sum_cons]
    · have hzero := (hnonneg r.arc).antisymm' (not_lt.mp hr)
      simp only [hzero, lt_irrefl, if_false, zero_mul, zero_add]

theorem mem_shipments {α : Type} [Scalar α] {b : Basis n m α} {x : Shipment α} :
    x ∈ b.shipments ↔
      ∃ r : Route n m, 0 < b.flow.get r.arc ∧ ⟨r.1, r.2, b.flow.get r.arc⟩ = x := by
  simp only [shipments, List.mem_filterMap, Route.mem_all, true_and, Option.ite_none_right_eq_some,
    Option.some.injEq]

theorem shipments_lt {α : Type} [Scalar α] (b : Basis n m α) :
    ∀ x ∈ b.shipments, x.source < n ∧ x.target < m := by
  intro x hx
  obtain ⟨r, -, rfl⟩ := mem_shipments.mp hx
  exact ⟨r.1.isLt, r.2.isLt⟩

theorem sent_shipments {b : Basis n m ℚ} (hnonneg : ∀ a, 0 ≤ b.flow.get a) (i : Fin n) :
    Shipment.sent b.shipments i = ∑ j, b.flow.get (.real i j) := by
  have h := sum_shipments hnonneg fun source _ => if source = i then 1 else 0
  simpa [Shipment.sent, Fin.val_inj] using h

theorem received_shipments {b : Basis n m ℚ} (hnonneg : ∀ a, 0 ≤ b.flow.get a) (j : Fin m) :
    Shipment.received b.shipments j = ∑ i, b.flow.get (.real i j) := by
  have h := sum_shipments hnonneg fun _ target => if target = j then 1 else 0
  simpa [Shipment.received, Fin.val_inj] using h

end Simplex.Basis

namespace Network

theorem excess_source (net : Network n m ℚ) (i : Fin n) :
    net.excess (.source i) = net.supply.get i :=
  Fin.addCases_left i

theorem excess_target (net : Network n m ℚ) (j : Fin m) :
    net.excess (.target j) = -net.demand.get j :=
  Fin.addCases_right j

theorem imbalance_eq (net : Network n m ℚ) :
    net.imbalance = (∑ i, net.supply.get i) - ∑ j, net.demand.get j := by
  rw [imbalance, Scalar.sum_eq, ← Fin.sum_univ_def, Fin.sum_univ_add, sub_eq_add_neg,
    ← Finset.sum_neg_distrib]
  exact congrArg₂ _ (Finset.sum_congr rfl fun i _ => net.excess_source i)
    (Finset.sum_congr rfl fun j _ => net.excess_target j)

section Build

variable {costs : Matrix ℚ} {supply demand : Array ℚ}

structure Of (costs : Matrix ℚ) (supply demand : Array ℚ)
    (net : Network supply.size demand.size ℚ) : Prop where
  built : build costs supply demand = .ok net
  costs_eq : net.costs = costs
  supply_eq : net.supply = .ofArray supply
  demand_eq : net.demand = .ofArray demand
  penalty_eq : net.penalty = (costs.maxFrom 0 + 1) * ((supply.size + demand.size + 1 : Nat) : ℚ)
  cost_real : ∀ i j, net.cost (.real i j) = costs.entry i j
  priced : net.Priced

theorem build_ok (hshape : costs.shape = (supply.size, demand.size)) (hfull : costs.Full) :
    ∃ net, Of costs supply demand net := by
  have hcols : costs.cols = demand.size := congrArg Prod.snd hshape
  refine ⟨_, if_pos hshape, rfl, rfl, rfl, rfl, fun i j => ?_, priced_of_full hshape hfull⟩
  rw [Matrix.entry, Matrix.get?, hcols]
  rfl

namespace Of

variable {net : Network supply.size demand.size ℚ}

theorem excess_source_eq (h : Of costs supply demand net) (i : Fin supply.size) :
    net.excess (.source i) = (Family.ofArray supply).get i := by
  rw [excess_source, h.supply_eq]

theorem excess_target_eq (h : Of costs supply demand net) (j : Fin demand.size) :
    net.excess (.target j) = -(Family.ofArray demand).get j := by
  rw [excess_target, h.demand_eq]

end Of

end Build

end Network

namespace Simplex

structure Answers (net : Network n m ℚ) (budget : Nat) (o : Outcome ℚ) (b : Basis n m ℚ) :
    Prop where
  run : (Basis.start net).run net budget = .ok (o.status, b)
  feasible : b.Feasible net
  ends : b.Ends net o.status
  shipments : o.status = .optimal → o.shipments = b.shipments

theorem solve_ok (hprice : net.Priced) (budget : Nat) :
    ∃ o, solve budget net = .ok o ∧
      ((feasibility < |net.imbalance| ∧ o.status = .infeasible) ∨
        (|net.imbalance| ≤ feasibility ∧ ∃ b, Answers net budget o b)) := by
  rw [solve, Scalar.abs_eq]
  by_cases himb : feasibility < |net.imbalance|
  · exact ⟨_, if_pos himb, .inl ⟨himb, rfl⟩⟩
  rw [if_neg himb]
  obtain ⟨status, b, -, hrun, hb, hends, -⟩ := Basis.run_ok (.start net) hprice budget
  rw [hrun, Fault.ok_bind]
  cases status with
  | optimal =>
    exact ⟨_, rfl, .inr ⟨not_lt.mp himb, b, hrun, hb, hends, fun _ => rfl⟩⟩
  | infeasible | unbounded | exhausted =>
    exact ⟨_, rfl, .inr ⟨not_lt.mp himb, b, hrun, hb, hends, nofun⟩⟩

theorem Answers.not_exhausted {budget : Nat} {o : Outcome ℚ} {b : Basis n m ℚ}
    (ha : Answers net budget o b) (hprice : net.Priced)
    (hbudget : 2 ^ (n * m + (n + m)) ≤ budget) : o.status ≠ .exhausted := by
  obtain ⟨status, last, hrun, hne⟩ := Basis.run_stops hprice hbudget
  obtain ⟨rfl, -⟩ := Prod.mk.inj (Except.ok.inj (ha.run.symm.trans hrun))
  exact hne

theorem Answers.outcome_eq {budget : Nat} {o : Outcome ℚ} {b : Basis n m ℚ}
    (ha : Answers net budget o b) (hopt : o.status = .optimal)
    (himb : |net.imbalance| ≤ feasibility) (hsolve : solve budget net = .ok o) :
    o = ⟨.optimal, b.shipments, (duals net b.tree).source.toList,
      (duals net b.tree).target.toList, b.pivots⟩ := by
  rw [solve, Scalar.abs_eq, if_neg (not_lt.mpr himb), ha.run, Fault.ok_bind, hopt] at hsolve
  exact (Except.ok.inj hsolve).symm

end Simplex

end OptimalTransport
