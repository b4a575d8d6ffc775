import OptimalTransport.Proofs.Simplex.Status

namespace OptimalTransport

namespace Simplex

variable {n m : Nat} {net : Network n m ℚ} {t : SpanningTree n m ℚ} {d : Duals n m ℚ} {level : ℚ}

/-- Potentials are counted down from a level at sources and up from it at targets. The level is
their mean, each of them weighted by the mass of its site, and if there is no mass, the offset of
the first site. -/
structure Duals.Levelled (net : Network n m ℚ) (t : SpanningTree n m ℚ) (d : Duals n m ℚ)
    (level : ℚ) : Prop where
  source : ∀ i, d.source.get i = level - t.potential (some (.source i))
  target : ∀ j, d.target.get j = t.potential (some (.target j)) - level
  mean : 0 < (∑ i, net.supply.get i) + ∑ j, net.demand.get j →
    level * ((∑ i, net.supply.get i) + ∑ j, net.demand.get j) =
      (∑ i, net.supply.get i * t.potential (some (.source i))) +
        ∑ j, net.demand.get j * t.potential (some (.target j))
  base : ¬ 0 < (∑ i, net.supply.get i) + ∑ j, net.demand.get j → level = baseOffset t

theorem duals_levelled (net : Network n m ℚ) (t : SpanningTree n m ℚ) :
    ∃ level, (duals net t).Levelled net t level := by
  let base := baseOffset t
  let supplied := ∑ i, net.supply.get i * -(t.potential (some (.source i)) - base)
  let demanded := ∑ j, net.demand.get j * (t.potential (some (.target j)) - base)
  let total := (∑ i, net.supply.get i) + ∑ j, net.demand.get j
  let shift := if 0 < total then (demanded - supplied) / total else 0
  have hsplit : ∀ v : Site n m,
      ((t.label (some v)).offset - baseOffset t) + (t.label (some v)).relative =
        t.potential (some v) - baseOffset t := by
    intro v
    rw [SpanningTree.potential, Label.potential]
    ring
  refine ⟨base + shift, fun i => ?_, fun j => ?_, fun hpos => ?_, fun hnone => ?_⟩
  · simp only [duals, Family.get_map, Family.get_ofFn, Family.sum_zipWith_mul, Family.sum_toList,
      hsplit]
    change -(t.potential (some (.source i)) - base) + shift = _
    ring
  · simp only [duals, Family.get_map, Family.get_ofFn, Family.sum_zipWith_mul, Family.sum_toList,
      hsplit]
    change t.potential (some (.target j)) - base - shift = _
    ring
  · -- the shift makes up for the difference between the two values
    have hshift : shift * total = demanded - supplied := by
      rw [show shift = (demanded - supplied) / total from if_pos hpos, div_mul_cancel₀ _ hpos.ne']
    simp only [demanded, supplied, total, mul_neg, mul_sub, Finset.sum_neg_distrib,
      Finset.sum_sub_distrib, ← Finset.sum_mul] at hshift
    linarith
  · rw [show shift = 0 from if_neg hnone, add_zero]

namespace Duals.Levelled

theorem source_add_target (h : d.Levelled net t level) (i : Fin n) (j : Fin m) :
    d.source.get i + d.target.get j =
      net.cost (.real i j) - Pricing.reducedCost net t (.real i j) := by
  rw [h.source, h.target, Pricing.reducedCost_eq]
  change _ = _ - (_ + t.potential (some (.source i)) - t.potential (some (.target j)))
  ring

theorem valued_alike (h : d.Levelled net t level)
    (hpos : 0 < (∑ i, net.supply.get i) + ∑ j, net.demand.get j) :
    ∑ i, net.supply.get i * d.source.get i = ∑ j, net.demand.get j * d.target.get j := by
  have hmean := h.mean hpos
  simp only [h.source, h.target, mul_sub, Finset.sum_sub_distrib, ← Finset.sum_mul]
  linarith

theorem worth (h : d.Levelled net t level) :
    (∑ i, net.supply.get i * d.source.get i) + ∑ j, net.demand.get j * d.target.get j =
      level * net.imbalance - ∑ v, t.potential (some v) * net.excess v := by
  have hsites : ∑ v, t.potential (some v) * net.excess v =
      (∑ i, net.supply.get i * t.potential (some (.source i))) -
        ∑ j, net.demand.get j * t.potential (some (.target j)) := by
    rw [Fin.sum_univ_add, sub_eq_add_neg, ← Finset.sum_neg_distrib]
    congr 1
    · apply Finset.sum_congr rfl
      intro i _
      change t.potential (some (.source i)) * net.excess (.source i) = _
      rw [net.excess_source, mul_comm]
    · apply Finset.sum_congr rfl
      intro j _
      change t.potential (some (.target j)) * net.excess (.target j) = _
      rw [net.excess_target, mul_neg, mul_comm]
  rw [hsites, net.imbalance_eq]
  simp only [h.source, h.target, mul_sub, Finset.sum_sub_distrib, ← Finset.sum_mul]
  ring

end Duals.Levelled

theorem Basis.Feasible.reducedCost_eq_zero {b : Basis n m ℚ} (h : b.Feasible net) {a : Arc n m}
    (ha : 0 < b.flow.get a) : Pricing.reducedCost net b.tree a = 0 :=
  (mul_eq_zero.mp (h.flow_mul_reducedCost a)).resolve_left ha.ne'

namespace Answers

variable {costs : Matrix ℚ} {supply demand : Array ℚ} {budget : Nat} {o : Outcome ℚ}

theorem neg_le_reducedCost {net : Network n m ℚ} {b : Basis n m ℚ} (ha : Answers net budget o b)
    (hopt : o.status = .optimal) (hcost : ∀ i j, net.cost (.real i j) = costs.entry i j) (i : Fin n)
    (j : Fin m) :
    -(1e-12 * ((n + m : Nat) : ℚ) * costs.maxAbs) ≤ Pricing.reducedCost net b.tree (.real i j) := by
  obtain ⟨size, hsize⟩ := ha.feasible.sound.exists_cycleSizes
  have hle := mul_le_mul_of_nonneg_left (ha.size_le hcost hsize i j) Pricing.epsilon_pos.le
  have hleft := hsize.settled ha.feasible.sound (ha.ends.settled_of (.inl hopt)).2 i j
  have hbound := mul_nonneg (Nat.cast_nonneg (α := ℚ) (n + m)) costs.maxAbs_nonneg
  rw [Pricing.epsilon] at hle hleft
  split at hleft
  · linarith
  · linarith

theorem worth_eq {net : Network supply.size demand.size ℚ} {b : Basis supply.size demand.size ℚ}
    {d : Duals supply.size demand.size ℚ} {level : ℚ} (ha : Answers net budget o b)
    (hopt : o.status = .optimal) (hn : Nonnegative costs supply demand)
    (hnet : Network.Of costs supply demand net) (heq : supply.toList.sum = demand.toList.sum)
    (hd : d.Levelled net b.tree level) :
    (∑ i, net.supply.get i * d.source.get i) + ∑ j, net.demand.get j * d.target.get j =
      Shipment.totalCost costs o.shipments := by
  have hempty := ha.artificial_eq_zero hopt hn hnet heq
  have hcost := ha.feasible.cost_eq
  rw [Basis.cost, Arc.sum_eq] at hcost
  simp only [hempty, zero_mul, Finset.sum_const_zero, add_zero] at hcost
  rw [hd.worth, hnet.imbalance_sum, heq, sub_self, mul_zero, zero_sub, ← hcost,
    ha.totalCost_eq hopt hnet.cost_real]

end Answers

variable {costs : Matrix ℚ} {supply demand : Array ℚ} {budget : Nat} {o : Outcome ℚ}

theorem optimal_duals (hfull : costs.Full)
    (hsolve : (⟨budget⟩ : Config).transport costs supply demand = .ok o)
    (hopt : o.status = .optimal) :
    ∃ (u : Fin supply.size → ℚ) (v : Fin demand.size → ℚ),
      o.sourcePotentials = List.ofFn u ∧ o.targetPotentials = List.ofFn v ∧
      (∀ x ∈ o.shipments, ∃ i j, x.source = i.val ∧ x.target = j.val ∧
        u i + v j = costs.entry i j) ∧
      (∀ i j, u i + v j ≤ costs.entry i j +
        1e-12 * ((supply.size + demand.size : Nat) : ℚ) * costs.maxAbs) ∧
      (0 < supply.toList.sum + demand.toList.sum →
        ∑ i, (Family.ofArray supply).get i * u i = ∑ j, (Family.ofArray demand).get j * v j) ∧
      (Nonnegative costs supply demand → supply.toList.sum = demand.toList.sum →
        (∑ i, (Family.ofArray supply).get i * u i) + ∑ j, (Family.ofArray demand).get j * v j =
          Shipment.totalCost costs o.shipments) := by
  obtain ⟨net, b, hnet, himb, ha, -⟩ := optimal_answer hfull hsolve hopt
  rw [Config.transport, hnet.built, Fault.ok_bind] at hsolve
  have hout := ha.outcome_eq hopt himb hsolve
  obtain ⟨level, hd⟩ := duals_levelled net b.tree
  have hsum := hd.source_add_target
  refine ⟨(duals net b.tree).source.get, (duals net b.tree).target.get, ?_, ?_, ?_, ?_, ?_, ?_⟩
  · rw [hout]
    exact Family.toList_eq_ofFn _
  · rw [hout]
    exact Family.toList_eq_ofFn _
  · intro x hx
    rw [ha.shipments hopt] at hx
    obtain ⟨⟨i, j⟩, hpos, rfl⟩ := Basis.mem_shipments.mp hx
    have hzero : Pricing.reducedCost net b.tree (.real i j) = 0 :=
      ha.feasible.reducedCost_eq_zero hpos
    exact ⟨i, j, rfl, rfl, by rw [hsum, hzero, sub_zero, hnet.cost_real]⟩
  · intro i j
    have hleft := ha.neg_le_reducedCost hopt hnet.cost_real i j
    rw [hsum, hnet.cost_real]
    linarith
  · intro hpos
    rw [← hnet.sum_supply, ← hnet.sum_demand] at hpos
    have halike := hd.valued_alike hpos
    rwa [hnet.supply_eq, hnet.demand_eq] at halike
  · intro hn heq
    have hworth := ha.worth_eq hopt hn hnet heq hd
    rwa [hnet.supply_eq, hnet.demand_eq] at hworth

theorem optimal_duals_two_by_three :
    ∃ o, (⟨9⟩ : Config).transport ⟨2, 3, #[3, 1, 4, 1, 5, 9]⟩ #[3, 2] #[1, 2, 2] = .ok o ∧
      o.status = .optimal ∧
      o.shipments.map (fun x => (x.source, x.target)) = [(0, 1), (0, 2), (1, 0), (1, 1)] ∧
      ∃ (u : Fin 2 → ℚ) (v : Fin 3 → ℚ),
        o.sourcePotentials = List.ofFn u ∧ o.targetPotentials = List.ofFn v ∧ u 1 + v 1 = 5 ∧
        (∀ i j, u i + v j ≤ Matrix.entry ⟨2, 3, #[3, 1, 4, 1, 5, 9]⟩ i j + 45e-12) ∧
        3 * u 0 + 2 * u 1 = v 0 + 2 * v 1 + 2 * v 2 ∧
        (3 * u 0 + 2 * u 1) + (v 0 + 2 * v 1 + 2 * v 2) = 15 := by
  let costs : Matrix ℚ := ⟨2, 3, #[3, 1, 4, 1, 5, 9]⟩
  have hn : Nonnegative costs #[3, 2] #[1, 2, 2] :=
    ⟨rfl, rfl, by decide +kernel, by decide +kernel, by decide +kernel⟩
  have hopt : ((⟨9⟩ : Config).transport costs #[3, 2] #[1, 2, 2]).toOption.map
      (fun o => (o.status, o.shipments.map (fun x => (x.source, x.target)),
        Shipment.totalCost costs o.shipments)) =
        some (.optimal, [(0, 1), (0, 2), (1, 0), (1, 1)], 15) := by
    decide +kernel
  obtain ⟨o, hsolve, hall⟩ := Fault.exists_of_map hopt
  simp only [Prod.mk.injEq] at hall
  obtain ⟨hstatus, hroutes, hcost⟩ := hall
  obtain ⟨u, v, hu, hv, htight, hle, halike, hworth⟩ := optimal_duals hn.full hsolve hstatus
  have hlast : (1, 1) ∈ o.shipments.map fun x => (x.source, x.target) := by simp [hroutes]
  obtain ⟨x, hx, hends⟩ := List.mem_map.mp hlast
  obtain ⟨i, j, hi, hj, hsum⟩ := htight x hx
  obtain ⟨hsource, htarget⟩ := Prod.mk.inj hends
  obtain rfl : i = 1 := Fin.ext (hi.symm.trans hsource)
  obtain rfl : j = 1 := Fin.ext (hj.symm.trans htarget)
  have hscale : 1e-12 * ((#[(3 : ℚ), 2].size + #[(1 : ℚ), 2, 2].size : Nat) : ℚ) * costs.maxAbs =
      45e-12 := by
    decide +kernel
  have hsupply : ∑ i, (Family.ofArray (#[3, 2] : Array ℚ)).get i * u i = 3 * u 0 + 2 * u 1 :=
    Fin.sum_univ_two _
  have hdemand : ∑ j, (Family.ofArray (#[1, 2, 2] : Array ℚ)).get j * v j =
      1 * v 0 + 2 * v 1 + 2 * v 2 :=
    Fin.sum_univ_three _
  have halike := halike (by decide +kernel)
  have hworth := hworth hn (by decide +kernel)
  rw [hscale] at hle
  rw [hsupply, hdemand, one_mul] at halike hworth
  exact ⟨o, hsolve, hstatus, hroutes, u, v, hu, hv, hsum, hle, halike, hworth.trans hcost⟩

end Simplex

end OptimalTransport
