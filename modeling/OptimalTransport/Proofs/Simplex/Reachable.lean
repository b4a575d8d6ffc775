import OptimalTransport.Proofs.Exact
import OptimalTransport.Proofs.Simplex.Entering

namespace OptimalTransport.Simplex.Basis

variable {n m : Nat} {α : Type} [Scalar α] {net : Network n m α} {b : Basis n m α}

/-- The sweep may stand anywhere, since a search moves it and no pivot reads it. -/
inductive Reachable (net : Network n m α) : Basis n m α → Prop
  | start : Reachable net (.start net)
  | withSweep {b : Basis n m α} (h : Reachable net b) (sweep : Pricing.Sweep) :
      Reachable net { b with sweep }
  | pivot {b b' : Basis n m α} (h : Reachable net b) (r : Route n m)
      (he : b.basic.get r.arc = false) (hpivot : b.pivot net r = .ok (some b')) : Reachable net b'

namespace Reachable

theorem sound (h : Reachable net b) : b.Sound net := by
  induction h with
  | start => exact .start net
  | withSweep _ sweep ih => exact ih.withSweep sweep
  | pivot _ r _ hpivot ih =>
    obtain ⟨c, apex, k, stem, -, p⟩ := pivoted_of_pivot ih hpivot
    exact p.sound ih

theorem run (h : Reachable net b) (hprice : net.Priced) {budget : Nat} {status : Status}
    {last : Basis n m α} (hrun : b.run net budget = .ok (status, last)) : Reachable net last := by
  induction budget generalizing b with
  | zero =>
    obtain ⟨o, ho, -, -⟩ := b.entering_ok h.sound hprice
    rw [Basis.run, ho, Fault.ok_bind] at hrun
    cases o with
    | none => cases hrun; exact h
    | some found => cases hrun; exact h
  | succ budget ih =>
    obtain ⟨o, ho, -, hsome⟩ := b.entering_ok h.sound hprice
    rw [Basis.run, ho, Fault.ok_bind] at hrun
    cases o with
    | none => cases hrun; exact h
    | some found =>
      obtain ⟨r, sweep⟩ := found
      obtain ⟨next, hpivot, hrest⟩ := Fault.bind_eq_ok.mp hrun
      cases next with
      | none => cases hrest; exact h
      | some b' => exact ih ((h.withSweep sweep).pivot r (hsome _ rfl).1 hpivot) hrest

end Reachable

structure Spanning (net : Network n m α) (b : Basis n m α) : Prop where
  root : b.tree.depth none = 0
  climbs : ∀ v k, b.tree.above^[k] (some v) = none ↔ b.tree.depth (some v) ≤ k
  joined : ∀ v, net.Joins (b.tree.arc v) v (b.tree.parent v)
  up : ∀ v, b.tree.direction net v = .up ↔ net.tail (b.tree.arc v) = some v
  down : ∀ v, b.tree.direction net v = .down ↔ net.head (b.tree.arc v) = some v
  listed : ∀ u v, (b.tree.childrenOf u).count v = if b.tree.parent v = u then 1 else 0
  distinct : Function.Injective b.tree.arc
  marked : ∀ a, b.basic.get a = true ↔ ∃ v, b.tree.arc v = a
  artificial : ∀ v w, b.tree.arc v = .artificial w ↔ b.tree.parent v = none ∧ v = w

theorem reachable_spanning (h : Reachable net b) : Spanning net b where
  root := rfl
  climbs _ _ := h.sound.wellFormed.ranked.iterate_above_eq_none_iff
  joined := h.sound.wellFormed.joined
  up _ := Network.direction_eq_up_iff
  down v := (h.sound.wellFormed.joined v).direction_eq_down_iff_head
  listed := h.sound.wellFormed.filed.count_childrenOf
  distinct := h.sound.wellFormed.arc_injective
  marked := h.sound.basic_iff
  artificial _ _ := h.sound.wellFormed.arc_eq_artificial_iff

theorem reachable_spanning_path :
    ∃ (net : Network 3 3 ℚ) (b : Basis 3 3 ℚ),
      (Basis.start net).run net 20 = .ok (.optimal, b) ∧ b.pivots = 5 ∧
      b.tree.depth (some (.target 2)) = 6 ∧ Spanning net b := by
  let net : Network 3 3 ℚ :=
    ⟨⟨3, 3, #[4, 1, 3, 2, 0, 5, 3, 2, 2]⟩, .ofFn ![2, 3, 2], .ofFn ![3, 2, 2], 42⟩
  have hprice : net.Priced := by decide +kernel
  have hlast : ((Basis.start net).run net 20).toOption.map
      (fun x => (x.1, x.2.pivots, x.2.tree.depth (some (.target 2)))) = some (.optimal, 5, 6) := by
    decide +kernel
  obtain ⟨⟨status, b⟩, hrun, heq⟩ := Fault.exists_of_map hlast
  simp only [Prod.mk.injEq] at heq
  obtain ⟨rfl, hpivots, hdepth⟩ := heq
  exact ⟨net, b, hrun, hpivots, hdepth, reachable_spanning (Reachable.start.run hprice hrun)⟩

end OptimalTransport.Simplex.Basis
