import OptimalTransport.Proofs.Simplex.Stranded

namespace OptimalTransport

variable {costs : Matrix ℚ} {supply demand : Array ℚ}

theorem Family.mem_toList {k : Nat} {β : Type} {x : Family k β} {y : β} :
    y ∈ x.toList ↔ ∃ i, x.get i = y := by
  rw [toList_eq_ofFn, List.mem_ofFn]

structure Nonnegative (costs : Matrix ℚ) (supply demand : Array ℚ) : Prop where
  shape : costs.shape = (supply.size, demand.size)
  full : costs.Full
  costs : ∀ x ∈ costs.data, 0 ≤ x
  supply : ∀ x ∈ supply, 0 ≤ x
  demand : ∀ x ∈ demand, 0 ≤ x

namespace Network.Of

variable {net : Network supply.size demand.size ℚ}

theorem sum_supply (h : Of costs supply demand net) :
    ∑ i, net.supply.get i = supply.toList.sum := by
  rw [h.supply_eq, ← Fin.sum_univ_getElem supply.toList]
  rfl

theorem sum_demand (h : Of costs supply demand net) :
    ∑ j, net.demand.get j = demand.toList.sum := by
  rw [h.demand_eq, ← Fin.sum_univ_getElem demand.toList]
  rfl

theorem imbalance_sum (h : Of costs supply demand net) :
    net.imbalance = supply.toList.sum - demand.toList.sum := by
  rw [imbalance_eq, h.sum_supply, h.sum_demand]

theorem imbalance_eq_zero (h : Of costs supply demand net)
    (heq : supply.toList.sum = demand.toList.sum) : net.imbalance = 0 := by
  rw [h.imbalance_sum, heq, sub_self]

theorem oriented_of (h : Of costs supply demand net) (hsupply : ∀ x ∈ supply, 0 ≤ x)
    (hdemand : ∀ x ∈ demand, 0 ≤ x) : net.Oriented where
  source i := by
    rw [h.excess_source_eq]
    exact hsupply _ (Array.getElem_mem i.isLt)
  target j := by
    rw [h.excess_target_eq]
    exact neg_nonpos.mpr (hdemand _ (Array.getElem_mem j.isLt))

theorem oriented (h : Of costs supply demand net) (hn : Nonnegative costs supply demand) :
    net.Oriented :=
  h.oriented_of hn.supply hn.demand

theorem outweighed (h : Of costs supply demand net) (hn : Nonnegative costs supply demand) :
    Simplex.Basis.Outweighed net (costs.maxFrom 0) where
  cost_le i j := by
    have hnonneg : 0 ≤ costs.entry i j := by
      rcases costs.entry_cases i j with hzero | hmem
      · exact hzero.ge
      · exact hn.costs _ hmem
    rw [h.cost_real, abs_of_nonneg hnonneg]
    exact costs.entry_le i j
  lt_penalty := by
    have hmax : 0 ≤ costs.maxFrom 0 := Matrix.le_maxFrom (.inl rfl)
    have hsize : (0 : ℚ) ≤ ((supply.size + demand.size : Nat) : ℚ) := Nat.cast_nonneg _
    have hprod := mul_nonneg hsize hmax
    have hepsilon : (Pricing.epsilon : ℚ) ≤ 1 := by norm_num [Pricing.epsilon]
    have hscale := mul_le_mul_of_nonneg_right hepsilon hprod
    rw [h.penalty_eq, Nat.cast_succ]
    linarith

end Network.Of

namespace Simplex

theorem feasibility_pos : (0 : ℚ) < feasibility := by
  norm_num [feasibility]

theorem Basis.verdict_eq_optimal {n m : Nat} {b : Basis n m ℚ}
    (h : ∀ v, b.flow.get (.artificial v) ≤ feasibility) : b.verdict = .optimal := by
  rw [verdict]
  refine if_neg (not_lt.mpr ((Scalar.foldl_max_le_iff _ _ _).mpr
    ⟨feasibility_pos.le, fun x hx => ?_⟩))
  obtain ⟨v, rfl⟩ := Family.mem_toList.mp hx
  exact h v

theorem transport_answers (hshape : costs.shape = (supply.size, demand.size))
    (hfull : costs.Full) (heq : supply.toList.sum = demand.toList.sum) (budget : Nat) :
    ∃ net o b, Network.Of costs supply demand net ∧
      (⟨budget⟩ : Config).transport costs supply demand = .ok o ∧ Answers net budget o b := by
  obtain ⟨net, hnet⟩ := Network.build_ok hshape hfull
  obtain ⟨o, hsolve, ⟨hgap, -⟩ | ⟨-, b, ha⟩⟩ := solve_ok hnet.priced budget
  · rw [hnet.imbalance_eq_zero heq, abs_zero] at hgap
    exact absurd hgap feasibility_pos.le.not_gt
  · exact ⟨net, o, b, hnet, by rw [Config.transport, hnet.built, Fault.ok_bind, hsolve], ha⟩

namespace Answers

variable {net : Network supply.size demand.size ℚ} {budget : Nat} {o : Outcome ℚ}
  {b : Basis supply.size demand.size ℚ}

theorem status_cases (ha : Answers net budget o b) (ho : ∀ i, 0 ≤ net.excess (.source i))
    (hprice : net.Priced)
    (hle : (∀ r, ¬ b.Cheap net r) → ∀ v, b.flow.get (.artificial v) ≤ feasibility) :
    o.status = .optimal ∨ o.status = .exhausted := by
  cases hs : o.status with
  | optimal => exact .inl rfl
  | exhausted => exact .inr rfl
  | infeasible =>
    obtain ⟨hverdict, hcheap⟩ := ha.ends.settled_of (.inr hs)
    rw [Basis.verdict_eq_optimal (hle hcheap), hs] at hverdict
    cases hverdict
  | unbounded =>
    have hends := ha.ends
    rw [hs] at hends
    exact absurd hends (ha.feasible.sound.not_unbounded ho hprice)

theorem status_eq (ha : Answers net budget o b) (hn : Nonnegative costs supply demand)
    (hnet : Network.Of costs supply demand net) (himb : |net.imbalance| ≤ feasibility) :
    o.status = .optimal ∨ o.status = .exhausted := by
  have ho := hnet.oriented hn
  exact ha.status_cases ho.source hnet.priced fun hcheap v =>
    (ha.feasible.stranded_le ho (hnet.outweighed hn) hcheap v).trans himb

theorem abs_sent_sub_le (ha : Answers net budget o b) (hopt : o.status = .optimal)
    (hnet : Network.Of costs supply demand net) (i : Fin supply.size) :
    |Shipment.sent o.shipments i - supply[i]| ≤ b.flow.get (.artificial (.source i)) := by
  have hrow := ha.feasible.balanced.row i
  have hflow := ha.feasible.nonneg (.artificial (.source i))
  rw [← ha.sent_eq hopt, hnet.excess_source_eq] at hrow
  change _ = supply[i] at hrow
  have heq : Shipment.sent o.shipments i - supply[i] =
      -(b.flow.get (.artificial (.source i)) * net.bias (.source i)) := by
    linarith
  rw [heq, abs_neg, abs_mul, net.abs_bias, abs_of_nonneg hflow, mul_one]

theorem abs_received_sub_le (ha : Answers net budget o b) (hopt : o.status = .optimal)
    (hnet : Network.Of costs supply demand net) (j : Fin demand.size) :
    |Shipment.received o.shipments j - demand[j]| ≤ b.flow.get (.artificial (.target j)) := by
  have hcol := ha.feasible.balanced.col j
  have hflow := ha.feasible.nonneg (.artificial (.target j))
  rw [← ha.received_eq hopt, hnet.excess_target_eq] at hcol
  change _ = -demand[j] at hcol
  have heq : Shipment.received o.shipments j - demand[j] =
      b.flow.get (.artificial (.target j)) * net.bias (.target j) := by
    linarith
  rw [heq, abs_mul, net.abs_bias, abs_of_nonneg hflow, mul_one]

theorem sent_eq_of (ha : Answers net budget o b) (hopt : o.status = .optimal)
    (hnet : Network.Of costs supply demand net) (hzero : ∀ v, b.flow.get (.artificial v) = 0)
    (i : Fin supply.size) : Shipment.sent o.shipments i = supply[i] := by
  have hrow := ha.abs_sent_sub_le hopt hnet i
  rw [hzero] at hrow
  exact sub_eq_zero.mp (abs_eq_zero.mp (hrow.antisymm (abs_nonneg _)))

theorem received_eq_of (ha : Answers net budget o b) (hopt : o.status = .optimal)
    (hnet : Network.Of costs supply demand net) (hzero : ∀ v, b.flow.get (.artificial v) = 0)
    (j : Fin demand.size) : Shipment.received o.shipments j = demand[j] := by
  have hcol := ha.abs_received_sub_le hopt hnet j
  rw [hzero] at hcol
  exact sub_eq_zero.mp (abs_eq_zero.mp (hcol.antisymm (abs_nonneg _)))

theorem artificial_eq_zero (ha : Answers net budget o b) (hopt : o.status = .optimal)
    (hn : Nonnegative costs supply demand) (hnet : Network.Of costs supply demand net)
    (heq : supply.toList.sum = demand.toList.sum)
    (v : Site supply.size demand.size) : b.flow.get (.artificial v) = 0 := by
  have hcheap := (ha.ends.settled_of (.inl hopt)).2
  have hle := ha.feasible.stranded_le (hnet.oriented hn) (hnet.outweighed hn) hcheap v
  rw [hnet.imbalance_sum, heq, sub_self, abs_zero] at hle
  exact hle.antisymm (ha.feasible.nonneg _)

theorem sent_eq_supply (ha : Answers net budget o b) (hopt : o.status = .optimal)
    (hn : Nonnegative costs supply demand) (hnet : Network.Of costs supply demand net)
    (heq : supply.toList.sum = demand.toList.sum) (i : Fin supply.size) :
    Shipment.sent o.shipments i = supply[i] :=
  ha.sent_eq_of hopt hnet (ha.artificial_eq_zero hopt hn hnet heq) i

theorem received_eq_demand (ha : Answers net budget o b) (hopt : o.status = .optimal)
    (hn : Nonnegative costs supply demand) (hnet : Network.Of costs supply demand net)
    (heq : supply.toList.sum = demand.toList.sum) (j : Fin demand.size) :
    Shipment.received o.shipments j = demand[j] :=
  ha.received_eq_of hopt hnet (ha.artificial_eq_zero hopt hn hnet heq) j

end Answers

theorem transport_status (hn : Nonnegative costs supply demand) (budget : Nat) :
    ∃ o, (⟨budget⟩ : Config).transport costs supply demand = .ok o ∧
      (1e-9 < |supply.toList.sum - demand.toList.sum| → o.status = .infeasible) ∧
      (|supply.toList.sum - demand.toList.sum| ≤ 1e-9 →
        o.status = .optimal ∨ o.status = .exhausted) ∧
      (o.status = .optimal →
        (∀ i : Fin supply.size, |Shipment.sent o.shipments i - supply[i]| ≤ 1e-9) ∧
        (∀ j : Fin demand.size, |Shipment.received o.shipments j - demand[j]| ≤ 1e-9) ∧
        (supply.toList.sum = demand.toList.sum →
          (∀ i : Fin supply.size, Shipment.sent o.shipments i = supply[i]) ∧
          (∀ j : Fin demand.size, Shipment.received o.shipments j = demand[j]) ∧
          ∃ net b, Network.build costs supply demand = .ok net ∧
            (Basis.start net).run net budget = .ok (.optimal, b) ∧
            ∀ v, b.flow.get (.artificial v) = 0)) := by
  obtain ⟨net, hnet⟩ := Network.build_ok hn.shape hn.full
  obtain ⟨o, hsolve, hcase⟩ := solve_ok hnet.priced budget
  have htransport : (⟨budget⟩ : Config).transport costs supply demand = .ok o := by
    rw [Config.transport, hnet.built, Fault.ok_bind, hsolve]
  refine ⟨o, htransport, ?_⟩
  rw [← hnet.imbalance_sum]
  rcases hcase with ⟨hgap, hinf⟩ | ⟨himb, b, ha⟩
  · refine ⟨fun _ => hinf, fun hle => absurd hgap (not_lt.mpr hle), fun hopt => ?_⟩
    rw [hinf] at hopt; cases hopt
  refine ⟨fun hgap => absurd hgap (not_lt.mpr himb), fun _ => ha.status_eq hn hnet himb,
    fun hopt => ?_⟩
  have hcheap := (ha.ends.settled_of (.inl hopt)).2
  have hstranded := ha.feasible.stranded_le (hnet.oriented hn) (hnet.outweighed hn) hcheap
  have hrow := ha.abs_sent_sub_le hopt hnet
  have hcol := ha.abs_received_sub_le hopt hnet
  refine ⟨fun i => (hrow i).trans ((hstranded _).trans himb),
    fun j => (hcol j).trans ((hstranded _).trans himb), fun heq => ?_⟩
  exact ⟨ha.sent_eq_supply hopt hn hnet heq, ha.received_eq_demand hopt hn hnet heq, net, b,
    hnet.built, hopt ▸ ha.run, ha.artificial_eq_zero hopt hn hnet heq⟩

theorem transport_status_two_by_two :
    Nonnegative ⟨2, 2, #[0, 3, 1, 0]⟩ #[1, 2] #[2, 1] ∧
      ∃ o, (⟨9⟩ : Config).transport ⟨2, 2, #[0, 3, 1, 0]⟩ #[1, 2] #[2, 1] = .ok o ∧
        o.status = .optimal ∧ Shipment.sent o.shipments 1 = 2 ∧
        Shipment.received o.shipments 0 = 2 := by
  have hn : Nonnegative ⟨2, 2, #[0, 3, 1, 0]⟩ #[1, 2] #[2, 1] :=
    ⟨rfl, rfl, by decide +kernel, by decide +kernel, by decide +kernel⟩
  have hopt : ((⟨9⟩ : Config).transport (⟨2, 2, #[0, 3, 1, 0]⟩ : Matrix ℚ) #[1, 2]
      #[2, 1]).toOption.map Outcome.status = some .optimal := by
    decide +kernel
  obtain ⟨o, hsolve, -, -, hsums⟩ := transport_status hn 9
  rw [hsolve] at hopt
  have hstatus : o.status = .optimal := Option.some.inj hopt
  obtain ⟨hrow, hcol, -⟩ := (hsums hstatus).2.2 (by decide +kernel)
  exact ⟨hn, o, hsolve, hstatus, hrow 1, hcol 0⟩

end Simplex

end OptimalTransport
