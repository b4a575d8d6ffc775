import OptimalTransport.Proofs.Flow.Marginals
import OptimalTransport.Proofs.Simplex.Feasible
import OptimalTransport.Proofs.Simplex.Reachable

namespace OptimalTransport.Simplex.Basis

variable {n m : Nat} {net : Network n m ℚ} {b : Basis n m ℚ}

theorem Reachable.feasible (h : Reachable net b) : b.Feasible net := by
  induction h with
  | start => exact .start net
  | withSweep _ sweep ih => exact ih.withSweep sweep
  | pivot _ r he hpivot ih =>
    obtain ⟨c, apex, k, stem, -, p⟩ := pivoted_of_pivot ih.sound hpivot
    exact p.feasible ih he

theorem reachable_conserves (h : Reachable net b) :
    (∀ a, 0 ≤ b.flow.get a) ∧ (∀ a, b.basic.get a = false → b.flow.get a = 0) ∧
      ∀ v, (∑ a with net.tail a = some v, b.flow.get a) -
        ∑ a with net.head a = some v, b.flow.get a = net.excess v :=
  ⟨h.feasible.nonneg, h.feasible.idle, h.feasible.balanced.out_sub_in⟩

theorem reachable_conserves_signed :
    ∃ (net : Network 2 2 ℚ) (b b' : Basis 2 2 ℚ),
      0 < Pricing.reducedCost net (Basis.start net).tree (.real 0 0) ∧
      (Basis.start net).pivot net (0, 0) = .ok (some b) ∧ b.pivot net (1, 0) = .ok (some b') ∧
      b'.flow.get (.real 1 0) = 4 ∧
      (∑ a with net.tail a = some (.source 0), b'.flow.get a) -
        ∑ a with net.head a = some (.source 0), b'.flow.get a = -2 := by
  let net : Network 2 2 ℚ := ⟨⟨2, 2, #[7, -1, 1, 0]⟩, .ofFn ![-2, 5], .ofFn ![4, -1], 40⟩
  have hpivots : ((Basis.start net).pivot net (0, 0)).toOption.join.map (fun b =>
      (b.basic.get (.real 1 0), (b.pivot net (1, 0)).toOption.join.map
        fun b' => b'.flow.get (.real 1 0))) = some (false, some 4) := by
    decide +kernel
  obtain ⟨b, hb, hnext⟩ := Fault.exists_of_join_map hpivots
  obtain ⟨he, hnext⟩ := Prod.mk.inj hnext
  obtain ⟨b', hb', hflow⟩ := Fault.exists_of_join_map hnext
  have hreach := (Reachable.start.pivot (0, 0) (by decide +kernel) hb).pivot (1, 0) he hb'
  exact ⟨net, b, b', by decide +kernel, hb, hb', hflow, (reachable_conserves hreach).2.2 (.source 0)⟩

theorem reachable_strongly_feasible (h : Reachable net b) :
    (∀ v, b.load v = 0 → b.tree.direction net v = .up ∧
      net.tail (b.tree.arc v) = some v ∧ net.head (b.tree.arc v) = b.tree.parent v) ∧
    ∀ r b', b.basic.get r.arc = false → b.pivot net r = .ok (some b') →
      ∃ c k, b.tree.cycle net r.arc = .ok c ∧ b.leaving net c = some k ∧
        (∀ a, b.basic.get a = true ∧ b'.basic.get a = false ↔ a = b.tree.arc k.site) ∧
        ((∀ a, b'.flow.get a = b.flow.get a) ↔ Scalar.max k.load 0 = 0) ∧
        (Scalar.max k.load 0 = 0 → k.half = .tail ∧ k.site ∈ c.tailSide) := by
  have hf := h.feasible
  constructor
  · intro v hv
    have hup := hf.upward v hv
    exact ⟨hup, (hf.sound.wellFormed.joined v).up hup⟩
  · intro r b' he hpivot
    obtain ⟨c, apex, k, stem, hc, p⟩ := pivoted_of_pivot hf.sound hpivot
    have hmax : Scalar.max k.load 0 = k.load := by
      rw [Scalar.max_eq, max_eq_left (p.load_nonneg hf)]
    refine ⟨c, k, hc, p.leaving, p.dropped_iff hf.sound he, ?_⟩
    rw [hmax]
    refine ⟨p.flow_stays_iff hf he, fun hload => ?_⟩
    have hhalf := p.half_of_load_eq_zero hf hload
    have hmem := (blocks_of_leaving p.leaving).mem
    rw [hhalf] at hmem
    exact ⟨hhalf, hmem⟩

theorem reachable_strongly_feasible_tie :
    ∃ (net : Network 2 2 ℚ) (b b' : Basis 2 2 ℚ) (c : Cycle 2 2) (v : Site 2 2),
      (Basis.start net).pivot net (0, 0) = .ok (some b) ∧ b.load (.source 0) = 0 ∧
      b.tree.direction net (.source 0) = .up ∧
      b.pivot net (0, 1) = .ok (some b') ∧ (∀ a, b'.flow.get a = b.flow.get a) ∧
      b.tree.cycle net (.real 0 1) = .ok c ∧ v ∈ c.tailSide ∧
      b'.basic.get (b.tree.arc v) = false := by
  let net : Network 2 2 ℚ := ⟨⟨2, 2, #[0, 0, 0, 0]⟩, .ofFn ![1, 1], .ofFn ![1, 1], 5⟩
  have hpivots : ((Basis.start net).pivot net (0, 0)).toOption.join.map (fun b =>
      (b.load (.source 0), b.basic.get (.real 0 1), (b.pivot net (0, 1)).toOption.join.map
        fun b' => decide (∀ a, b'.flow.get a = b.flow.get a))) = some (0, false, some true) := by
    decide +kernel
  obtain ⟨b, hb, hnext⟩ := Fault.exists_of_join_map hpivots
  simp only [Prod.mk.injEq] at hnext
  obtain ⟨hload, he, hnext⟩ := hnext
  obtain ⟨b', hb', hstay⟩ := Fault.exists_of_join_map hnext
  have hsame := of_decide_eq_true hstay
  obtain ⟨hup, hdrop⟩ := reachable_strongly_feasible
    (Reachable.start.pivot (0, 0) (by decide +kernel) hb)
  obtain ⟨c, k, hc, -, hout, hmoves, hside⟩ := hdrop (0, 1) b' he hb'
  exact ⟨net, b, b', c, k.site, hb, hload, (hup _ hload).1, hb', hsame, hc,
    (hside (hmoves.mp hsame)).2, ((hout _).mpr rfl).2⟩

end OptimalTransport.Simplex.Basis
