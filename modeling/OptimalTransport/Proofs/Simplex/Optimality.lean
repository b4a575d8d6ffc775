import OptimalTransport.Proofs.Simplex.Solve

namespace OptimalTransport

variable {n m : Nat} {net : Network n m ℚ}

namespace Matrix

theorem le_maxFrom {a : Matrix ℚ} {bottom x : ℚ} (hx : x = bottom ∨ x ∈ a.data) :
    x ≤ a.maxFrom bottom := by
  have h := (Scalar.foldl_max_le_iff a.data.toList bottom (a.maxFrom bottom)).mp
    (by rw [maxFrom, ← Array.foldl_toList])
  rcases hx with rfl | hx
  · exact h.1
  · exact h.2 x (Array.mem_toList_iff.mpr hx)

def maxAbs (a : Matrix ℚ) : ℚ :=
  (a.map Scalar.abs).maxFrom 0

theorem maxAbs_nonneg (a : Matrix ℚ) : 0 ≤ a.maxAbs :=
  le_maxFrom (.inl rfl)

theorem entry_cases (a : Matrix ℚ) (i j : Nat) : a.entry i j = 0 ∨ a.entry i j ∈ a.data := by
  rw [entry, get?]
  by_cases hk : i * a.cols + j < a.data.size
  · rw [Array.getElem?_eq_getElem hk]
    exact .inr (Array.getElem_mem hk)
  · rw [Array.getElem?_eq_none (not_lt.mp hk)]
    exact .inl rfl

theorem entry_le (a : Matrix ℚ) (i j : Nat) : a.entry i j ≤ a.maxFrom 0 :=
  le_maxFrom (a.entry_cases i j)

theorem abs_entry_le (a : Matrix ℚ) (i j : Nat) : |a.entry i j| ≤ a.maxAbs := by
  rcases a.entry_cases i j with hzero | hmem
  · rw [hzero, abs_zero]
    exact a.maxAbs_nonneg
  · exact le_maxFrom (.inr (Array.mem_map.mpr ⟨_, hmem, rfl⟩))

end Matrix

namespace Simplex.Basis

variable {b : Basis n m ℚ}

def CycleSizes (net : Network n m ℚ) (b : Basis n m ℚ) (size : Fin n → Fin m → ℚ) : Prop :=
  ∀ i j, ∃ c, b.tree.cycle net (.real i j) = .ok c ∧
    (Pricing.cycleCost net b.tree (.real i j) c).size = size i j

theorem Sound.exists_cycleSizes (h : b.Sound net) : ∃ size, CycleSizes net b size := by
  choose c apex hc hcl using fun i j =>
    SpanningTree.cycle_ok h.wellFormed.ranked net (.real i j)
  exact ⟨_, fun i j => ⟨c i j, hc i j, rfl⟩⟩

theorem CycleSizes.le {size : Fin n → Fin m → ℚ} (hs : CycleSizes net b size) (h : b.Sound net)
    {bound : ℚ} (hb : ∀ i j, |net.cost (.real i j)| ≤ bound) (i : Fin n) (j : Fin m) :
    size i j ≤ ((n + m : Nat) : ℚ) * bound := by
  obtain ⟨c, hc, hsize⟩ := hs i j
  obtain ⟨apex, hcl⟩ := SpanningTree.closes_of_cycle h.wellFormed.ranked hc
  rw [← hsize]
  exact Pricing.cycleCost_size_le h.wellFormed hcl hb

theorem CycleSizes.neg_le_reducedCost {size : Fin n → Fin m → ℚ} (hs : CycleSizes net b size)
    (h : b.Sound net) {i : Fin n} {j : Fin m} (hb : b.basic.get (.real i j) = false)
    (hcheap : ¬ b.Cheap net (i, j)) :
    -(Pricing.epsilon * size i j) ≤ Pricing.reducedCost net b.tree (.real i j) := by
  obtain ⟨c, hc, hsize⟩ := hs i j
  rw [← hsize]
  by_contra hlt
  exact hcheap ((h.cheap_iff (r := (i, j)) hc).mpr ⟨hb, not_le.mp hlt⟩)

theorem CycleSizes.settled {size : Fin n → Fin m → ℚ} (hs : CycleSizes net b size)
    (h : b.Sound net) (hcheap : ∀ r, ¬ b.Cheap net r) (i : Fin n) (j : Fin m) :
    if b.basic.get (.real i j) then Pricing.reducedCost net b.tree (.real i j) = 0
    else -(Pricing.epsilon * size i j) ≤ Pricing.reducedCost net b.tree (.real i j) := by
  cases hb : b.basic.get (.real i j) with
  | true =>
    obtain ⟨v, hv⟩ := (h.basic_iff _).mp hb
    rw [← hv]
    exact Pricing.reducedCost_arc h.wellFormed v
  | false => exact hs.neg_le_reducedCost h hb (hcheap (i, j))

theorem Feasible.sum_cost_sub (h : b.Feasible net) {x : Fin n → Fin m → ℚ}
    (hrow : ∀ i, ∑ j, x i j = ∑ j, b.flow.get (.real i j))
    (hcol : ∀ j, ∑ i, x i j = ∑ i, b.flow.get (.real i j)) :
    (∑ i, ∑ j, net.cost (.real i j) * x i j) -
        ∑ i, ∑ j, b.flow.get (.real i j) * net.cost (.real i j) =
      ∑ i, ∑ j, x i j * Pricing.reducedCost net b.tree (.real i j) := by
  let p (i : Fin n) : ℚ := b.tree.potential (some (.source i))
  let q (j : Fin m) : ℚ := b.tree.potential (some (.target j))
  have hred : ∀ i j, Pricing.reducedCost net b.tree (.real i j) =
      net.cost (.real i j) + p i - q j := fun i j => Pricing.reducedCost_eq net b.tree (.real i j)
  have hsplit : ∀ y : Fin n → Fin m → ℚ,
      ∑ i, ∑ j, y i j * Pricing.reducedCost net b.tree (.real i j) =
        (∑ i, ∑ j, y i j * net.cost (.real i j)) + (∑ i, p i * ∑ j, y i j) -
          ∑ j, q j * ∑ i, y i j := by
    intro y
    have hswap : ∑ j, q j * ∑ i, y i j = ∑ i, ∑ j, q j * y i j := by
      simp only [Finset.mul_sum]
      exact Finset.sum_comm
    rw [hswap, ← Finset.sum_add_distrib, ← Finset.sum_sub_distrib]
    apply Finset.sum_congr rfl
    intro i _
    rw [Finset.mul_sum, ← Finset.sum_add_distrib, ← Finset.sum_sub_distrib]
    apply Finset.sum_congr rfl
    intro j _
    rw [hred]
    ring
  have hflow : ∑ i, ∑ j, b.flow.get (.real i j) * Pricing.reducedCost net b.tree (.real i j) = 0 :=
    Finset.sum_eq_zero fun i _ => Finset.sum_eq_zero fun j _ => h.flow_mul_reducedCost _
  have hx := hsplit x
  have hf := hsplit fun i j => b.flow.get (.real i j)
  simp only [hrow, hcol] at hx
  rw [hflow] at hf
  have hcomm : ∑ i, ∑ j, net.cost (.real i j) * x i j = ∑ i, ∑ j, x i j * net.cost (.real i j) :=
    Finset.sum_congr rfl fun i _ => Finset.sum_congr rfl fun j _ => mul_comm _ _
  rw [hcomm, hx]
  linarith

theorem CycleSizes.neg_le_sum {size x : Fin n → Fin m → ℚ} (hs : CycleSizes net b size)
    (h : b.Sound net) (hcheap : ∀ r, ¬ b.Cheap net r) (hx : ∀ i j, 0 ≤ x i j) :
    -(Pricing.epsilon * ∑ i, ∑ j, if b.basic.get (.real i j) then 0 else x i j * size i j) ≤
      ∑ i, ∑ j, x i j * Pricing.reducedCost net b.tree (.real i j) := by
  rw [Finset.mul_sum, ← Finset.sum_neg_distrib]
  apply Finset.sum_le_sum
  intro i _
  rw [Finset.mul_sum, ← Finset.sum_neg_distrib]
  apply Finset.sum_le_sum
  intro j _
  have hterm := hs.settled h hcheap i j
  split at hterm
  · next hb => rw [if_pos hb, hterm, mul_zero, mul_zero, neg_zero]
  · next hb =>
    have := mul_le_mul_of_nonneg_left hterm (hx i j)
    rw [if_neg hb]
    linarith

end Simplex.Basis

def Matrix.price (costs : Matrix ℚ) (x : Fin n → Fin m → ℚ) : ℚ :=
  ∑ i : Fin n, ∑ j : Fin m, costs.entry i j * x i j

structure Shipment.Rival (xs : List (Shipment ℚ)) (x : Fin n → Fin m → ℚ) : Prop where
  nonneg : ∀ i j, 0 ≤ x i j
  sent_eq : ∀ i : Fin n, ∑ j, x i j = Shipment.sent xs i
  received_eq : ∀ j : Fin m, ∑ i, x i j = Shipment.received xs j

namespace Simplex

variable {costs : Matrix ℚ} {supply demand : Array ℚ} {budget : Nat} {o : Outcome ℚ}

theorem optimal_answer (hfull : costs.Full)
    (hsolve : (⟨budget⟩ : Config).transport costs supply demand = .ok o)
    (hopt : o.status = .optimal) :
    ∃ net b, Network.Of costs supply demand net ∧ |net.imbalance| ≤ feasibility ∧
      Answers net budget o b ∧ ∀ r, ¬ b.Cheap net r := by
  obtain ⟨net, hbuilt, hanswer⟩ := Fault.bind_eq_ok.mp hsolve
  obtain ⟨net', hnet⟩ := Network.build_ok (Network.shape_of_build hbuilt) hfull
  obtain rfl := Except.ok.inj (hbuilt.symm.trans hnet.built)
  obtain ⟨o', ho', hcase⟩ := solve_ok hnet.priced budget
  obtain rfl := Except.ok.inj (ho'.symm.trans hanswer)
  rcases hcase with ⟨-, hinf⟩ | ⟨himb, b, ha⟩
  · rw [hinf] at hopt; cases hopt
  · exact ⟨net, b, hnet, himb, ha, (ha.ends.settled_of (.inl hopt)).2⟩

namespace Answers

variable {n m : Nat} {net : Network n m ℚ} {b : Basis n m ℚ}

theorem sent_eq (ha : Answers net budget o b) (hopt : o.status = .optimal) (i : Fin n) :
    Shipment.sent o.shipments i = ∑ j, b.flow.get (.real i j) := by
  rw [ha.shipments hopt]
  exact Basis.sent_shipments ha.feasible.nonneg i

theorem received_eq (ha : Answers net budget o b) (hopt : o.status = .optimal) (j : Fin m) :
    Shipment.received o.shipments j = ∑ i, b.flow.get (.real i j) := by
  rw [ha.shipments hopt]
  exact Basis.received_shipments ha.feasible.nonneg j

theorem totalCost_eq (ha : Answers net budget o b) (hopt : o.status = .optimal)
    (hcost : ∀ i j, net.cost (.real i j) = costs.entry i j) :
    Shipment.totalCost costs o.shipments =
      ∑ i, ∑ j, b.flow.get (.real i j) * net.cost (.real i j) := by
  rw [ha.shipments hopt, Shipment.totalCost]
  simp only [hcost]
  exact Basis.sum_shipments ha.feasible.nonneg costs.entry

theorem price_sub (ha : Answers net budget o b) (hopt : o.status = .optimal)
    (hcost : ∀ i j, net.cost (.real i j) = costs.entry i j) {x : Fin n → Fin m → ℚ}
    (hx : Shipment.Rival o.shipments x) :
    costs.price x - Shipment.totalCost costs o.shipments =
      ∑ i, ∑ j, x i j * Pricing.reducedCost net b.tree (.real i j) := by
  rw [ha.totalCost_eq hopt hcost, Matrix.price]
  simp only [← hcost]
  apply ha.feasible.sum_cost_sub
  · intro i
    rw [hx.sent_eq, ha.sent_eq hopt]
  · intro j
    rw [hx.received_eq, ha.received_eq hopt]

theorem size_le (ha : Answers net budget o b)
    (hcost : ∀ i j, net.cost (.real i j) = costs.entry i j) {size : Fin n → Fin m → ℚ}
    (hs : b.CycleSizes net size) (i : Fin n) (j : Fin m) :
    size i j ≤ ((n + m : Nat) : ℚ) * costs.maxAbs := by
  apply hs.le ha.feasible.sound
  intro i j
  rw [hcost]
  exact costs.abs_entry_le i j

end Answers

theorem optimal_totalCost_le (hfull : costs.Full)
    (hsolve : (⟨budget⟩ : Config).transport costs supply demand = .ok o)
    (hopt : o.status = .optimal) :
    ∃ net b, Network.build costs supply demand = .ok net ∧
      (Basis.start net).run net budget = .ok (.optimal, b) ∧
      ∃ size : Fin supply.size → Fin demand.size → ℚ,
        (∀ i j, ∃ c, b.tree.cycle net (.real i j) = .ok c ∧
          (Pricing.cycleCost net b.tree (.real i j) c).size = size i j) ∧
        (∀ i j, size i j ≤ ((supply.size + demand.size : Nat) : ℚ) * costs.maxAbs) ∧
        ∀ x : Fin supply.size → Fin demand.size → ℚ, Shipment.Rival o.shipments x →
          Shipment.totalCost costs o.shipments ≤ costs.price x +
              1e-12 * ∑ i, ∑ j, (if b.basic.get (.real i j) then 0 else x i j * size i j) ∧
            Shipment.totalCost costs o.shipments ≤ costs.price x +
              1e-12 * ((supply.size + demand.size : Nat) : ℚ) * costs.maxAbs *
                ∑ i, ∑ j, x i j := by
  obtain ⟨net, b, hnet, -, ha, hcheap⟩ := optimal_answer hfull hsolve hopt
  obtain ⟨size, hsize⟩ := ha.feasible.sound.exists_cycleSizes
  have hle := ha.size_le hnet.cost_real hsize
  refine ⟨net, b, hnet.built, hopt ▸ ha.run, size, hsize, hle, ?_⟩
  intro x hx
  have hsub := ha.price_sub hopt hnet.cost_real hx
  have hworth := hsize.neg_le_sum ha.feasible.sound hcheap hx.nonneg
  have hmain : Shipment.totalCost costs o.shipments ≤ costs.price x +
      1e-12 * ∑ i, ∑ j, (if b.basic.get (.real i j) then 0 else x i j * size i j) := by
    rw [Pricing.epsilon] at hworth
    linarith
  refine ⟨hmain, hmain.trans ?_⟩
  have hsum : ∑ i, ∑ j, (if b.basic.get (.real i j) then 0 else x i j * size i j) ≤
      ∑ i, ∑ j, x i j * (((supply.size + demand.size : Nat) : ℚ) * costs.maxAbs) := by
    apply Finset.sum_le_sum
    intro i _
    apply Finset.sum_le_sum
    intro j _
    split
    · exact mul_nonneg (hx.nonneg i j) (mul_nonneg (Nat.cast_nonneg _) costs.maxAbs_nonneg)
    · exact mul_le_mul_of_nonneg_left (hle i j) (hx.nonneg i j)
  simp only [← Finset.sum_mul] at hsum
  linarith

theorem optimal_totalCost_le_two_by_two :
    ∃ o, (⟨9⟩ : Config).transport ⟨2, 2, #[0, 3, -1, 0]⟩ #[1, 2] #[2, 1] = .ok o ∧
      o.status = .optimal ∧
      ∀ x : Fin 2 → Fin 2 → ℚ, Shipment.Rival o.shipments x →
        Shipment.totalCost ⟨2, 2, #[0, 3, -1, 0]⟩ o.shipments ≤
          Matrix.price ⟨2, 2, #[0, 3, -1, 0]⟩ x + 12e-12 * ∑ i, ∑ j, x i j := by
  have hopt : ((⟨9⟩ : Config).transport (⟨2, 2, #[0, 3, -1, 0]⟩ : Matrix ℚ) #[1, 2]
      #[2, 1]).toOption.map Outcome.status = some .optimal := by
    decide +kernel
  obtain ⟨o, hsolve, hstatus⟩ := Fault.exists_of_map hopt
  have hfull : (⟨2, 2, #[0, 3, -1, 0]⟩ : Matrix ℚ).Full := rfl
  obtain ⟨net, b, -, -, size, -, -, hle⟩ := optimal_totalCost_le hfull hsolve hstatus
  have hscale : 1e-12 * ((#[(1 : ℚ), 2].size + #[(2 : ℚ), 1].size : Nat) : ℚ) *
      Matrix.maxAbs ⟨2, 2, #[0, 3, -1, 0]⟩ = 12e-12 := by
    decide +kernel
  rw [hscale] at hle
  exact ⟨o, hsolve, hstatus, fun x hx => (hle x hx).2⟩

end Simplex

end OptimalTransport
