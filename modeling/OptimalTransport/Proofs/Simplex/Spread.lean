import OptimalTransport.Proofs.Simplex.Status

namespace OptimalTransport.Simplex

variable {costs : Matrix ℚ} {supply demand : Array ℚ} {budget : Nat} {o : Outcome ℚ}

structure Meets (supply demand : Array ℚ) (x : Fin supply.size → Fin demand.size → ℚ) : Prop where
  nonneg : ∀ i j, 0 ≤ x i j
  supply : ∀ i, ∑ j, x i j = (Family.ofArray supply).get i
  demand : ∀ j, ∑ i, x i j = (Family.ofArray demand).get j

theorem Answers.rival {net : Network supply.size demand.size ℚ}
    {b : Basis supply.size demand.size ℚ} (ha : Answers net budget o b) (hopt : o.status = .optimal)
    (hn : Nonnegative costs supply demand) (hnet : Network.Of costs supply demand net)
    (heq : supply.toList.sum = demand.toList.sum)
    {x : Fin supply.size → Fin demand.size → ℚ} (hx : Meets supply demand x) :
    Shipment.Rival o.shipments x where
  nonneg := hx.nonneg
  sent_eq i := (hx.supply i).trans (ha.sent_eq_supply hopt hn hnet heq i).symm
  received_eq j := (hx.demand j).trans (ha.received_eq_demand hopt hn hnet heq j).symm

theorem neg_reducedCost_le {basic : Bool} {reduced size cost : ℚ}
    (hleft : if basic then reduced = 0 else -(Pricing.epsilon * size) ≤ reduced)
    (hsize : size ≤ 1000 * cost) (hcost : 0 ≤ cost) : -reduced ≤ 1e-9 * cost := by
  rw [Pricing.epsilon] at hleft
  split at hleft
  · linarith
  · linarith

/-- An optimal answer is within a billionth of a plan exactly if the reduced costs that were left
are worth no more on that plan. They are zero on the tree, and off it at least the negated rounding
around the cycle, so that this holds whenever no cost is small against the largest one. -/
theorem optimal_within_iff (hn : Nonnegative costs supply demand)
    (heq : supply.toList.sum = demand.toList.sum)
    (hsolve : (⟨budget⟩ : Config).transport costs supply demand = .ok o)
    (hopt : o.status = .optimal) :
    ∃ net b, Network.build costs supply demand = .ok net ∧
      (Basis.start net).run net budget = .ok (.optimal, b) ∧
      (∃ size, b.CycleSizes net size ∧
        (∀ i j, size i j ≤ ((supply.size + demand.size : Nat) : ℚ) * costs.maxAbs) ∧
        ∀ i j, if b.basic.get (.real i j) then Pricing.reducedCost net b.tree (.real i j) = 0
          else -(1e-12 * size i j) ≤ Pricing.reducedCost net b.tree (.real i j)) ∧
      ∀ x, Meets supply demand x →
        (Shipment.totalCost costs o.shipments ≤ (1 + 1e-9) * costs.price x ↔
          -∑ i, ∑ j, x i j * Pricing.reducedCost net b.tree (.real i j) ≤
            1e-9 * costs.price x) ∧
        ((∀ (i : Fin supply.size) (j : Fin demand.size),
            ((supply.size + demand.size : Nat) : ℚ) * costs.maxAbs ≤ 1000 * costs.entry i j) →
          Shipment.totalCost costs o.shipments ≤ (1 + 1e-9) * costs.price x) := by
  obtain ⟨net, b, hnet, -, ha, hcheap⟩ := optimal_answer hn.full hsolve hopt
  obtain ⟨size, hsize⟩ := ha.feasible.sound.exists_cycleSizes
  have hbound := ha.size_le hnet.cost_real hsize
  have hleft := hsize.settled ha.feasible.sound hcheap
  refine ⟨net, b, hnet.built, hopt ▸ ha.run, ⟨size, hsize, hbound, hleft⟩, ?_⟩
  intro x hx
  have hsub := ha.price_sub hopt hnet.cost_real (ha.rival hopt hn hnet heq hx)
  have hiff : Shipment.totalCost costs o.shipments ≤ (1 + 1e-9) * costs.price x ↔
      -∑ i, ∑ j, x i j * Pricing.reducedCost net b.tree (.real i j) ≤ 1e-9 * costs.price x := by
    rw [← hsub]
    constructor
    · intro h; linarith
    · intro h; linarith
  refine ⟨hiff, ?_⟩
  intro hspread
  apply hiff.mpr
  rw [Matrix.price, Finset.mul_sum, ← Finset.sum_neg_distrib]
  apply Finset.sum_le_sum
  intro i _
  rw [Finset.mul_sum, ← Finset.sum_neg_distrib]
  apply Finset.sum_le_sum
  intro j _
  have hworth : -Pricing.reducedCost net b.tree (.real i j) ≤ 1e-9 * costs.entry i j :=
    neg_reducedCost_le (hleft i j) ((hbound i j).trans (hspread i j)) <| by
      have := mul_nonneg (Nat.cast_nonneg (α := ℚ) (supply.size + demand.size)) costs.maxAbs_nonneg
      linarith [hspread i j]
  have := mul_le_mul_of_nonneg_left hworth (hx.nonneg i j)
  linarith

theorem optimal_within_iff_two_by_two :
    ∃ o, (⟨9⟩ : Config).transport ⟨2, 2, #[1, 3, 2, 1]⟩ #[1, 2] #[2, 1] = .ok o ∧
      o.status = .optimal ∧
      ∀ x, Meets #[1, 2] #[2, 1] x →
        Shipment.totalCost ⟨2, 2, #[1, 3, 2, 1]⟩ o.shipments ≤
          (1 + 1e-9) * Matrix.price ⟨2, 2, #[1, 3, 2, 1]⟩ x := by
  have hn : Nonnegative ⟨2, 2, #[1, 3, 2, 1]⟩ #[1, 2] #[2, 1] :=
    ⟨rfl, rfl, by decide +kernel, by decide +kernel, by decide +kernel⟩
  have hopt : ((⟨9⟩ : Config).transport (⟨2, 2, #[1, 3, 2, 1]⟩ : Matrix ℚ) #[1, 2]
      #[2, 1]).toOption.map Outcome.status = some .optimal := by
    decide +kernel
  obtain ⟨o, hsolve, hstatus⟩ := Fault.exists_of_map hopt
  obtain ⟨net, b, -, -, -, hwithin⟩ := optimal_within_iff hn (by decide +kernel) hsolve hstatus
  refine ⟨o, hsolve, hstatus, ?_⟩
  intro x hx
  apply (hwithin x hx).2
  decide +kernel

/-- A far source hides a saving between the two near ones: the last source ships 99999 units at cost
one that it could swap with the other near source for nothing. -/
theorem far_source_hides_saving :
    ¬ ∀ (costs : Matrix ℚ) (supply demand : Array ℚ) (budget : Nat) (o : Outcome ℚ),
      0 < supply.size → 0 < demand.size → Nonnegative costs supply demand →
      supply.toList.sum = demand.toList.sum →
      (⟨budget⟩ : Config).transport costs supply demand = .ok o → o.status = .optimal →
      ∀ x, Meets supply demand x →
        Shipment.totalCost costs o.shipments ≤ (1 + 1e-9) * costs.price x := by
  intro h
  let costs : Matrix ℚ := ⟨3, 6, #[1e13, 1e13, 1e13, 1e13, 1e13, 1e13, 1, 0, 1, 0, 0, 0,
    0, 0, 1, 1, 0, 0]⟩
  let supply : Array ℚ := #[2, 200000, 100000]
  let demand : Array ℚ := #[0, 200001, 0, 100000, 1, 0]
  let x : Fin supply.size → Fin demand.size → ℚ :=
    ![![0, 0, 0, 2, 0, 0], ![0, 100002, 0, 99998, 0, 0], ![0, 99999, 0, 0, 1, 0]]
  have hn : Nonnegative costs supply demand :=
    ⟨rfl, rfl, by decide +kernel, by decide +kernel, by decide +kernel⟩
  have hx : Meets supply demand x :=
    ⟨by decide +kernel, by decide +kernel, by decide +kernel⟩
  have hprice : costs.price x = 20000000000000 := by decide +kernel
  have hopt : ((⟨16777216⟩ : Config).transport costs supply demand).toOption.map
      (fun o => (o.status, Shipment.totalCost costs o.shipments)) =
        some (.optimal, 20000000099999) := by
    decide +kernel
  obtain ⟨o, hsolve, hboth⟩ := Fault.exists_of_map hopt
  obtain ⟨hstatus, hcost⟩ := Prod.mk.inj hboth
  have hle := h costs supply demand 16777216 o (by decide) (by decide) hn (by decide +kernel)
    hsolve hstatus x hx
  rw [hcost, hprice] at hle
  norm_num at hle

end OptimalTransport.Simplex
