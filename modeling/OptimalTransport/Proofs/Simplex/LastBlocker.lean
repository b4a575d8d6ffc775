import OptimalTransport.Proofs.Flow.Circulation
import OptimalTransport.Proofs.Flow.Walk
import OptimalTransport.Proofs.Simplex.Leaving
import OptimalTransport.Proofs.Simplex.Reachable

namespace OptimalTransport.Simplex

variable {n m : Nat} {α : Type} [Scalar α] {net : Network n m α} {b : Basis n m α} {c : Cycle n m}
  {k : Blocker n m α}

theorem Blocker.Leaves.lastLeast [Scalar.Ordered α]
    (h : k.Leaves net b c) (hj : ∀ v, net.Joins (b.tree.arc v) v (b.tree.parent v)) (a : Arc n m) :
    LastLeast (Crossing.Against net) (fun x => b.flow.get x.arc) (c.walk net b.tree a)
      (.above b.tree k.half k.site) := by
  have hagainst : ∀ half, ∀ sites : List (Site n m), ∀ v ∈ sites,
      (Crossing.above b.tree half v).Against net ↔ b.tree.direction net v = half.losing :=
    fun _ _ v _ => Crossing.against_iff (hj v)
  have hload : ∀ half v, b.flow.get (Crossing.above b.tree half v).arc = b.load v := by
    intro half v
    cases half <;> rfl
  have hclosing := Crossing.not_against_closing net a
  have hlast := h.last
  cases hhalf : k.half with
  | tail =>
    rw [hhalf] at hlast
    obtain ⟨hfirst, hless⟩ := hlast
    apply (hfirst.reverse.map (hagainst .tail _) (hload .tail)).before
    simp only [List.forall_mem_cons, List.forall_mem_map]
    refine ⟨fun hx => absurd hx hclosing, fun v hv hx => ?_⟩
    rw [hload, hload, ← h.blocks.load]
    exact hless v hv ((Crossing.against_iff (hj v)).mp hx)
  | head =>
    rw [hhalf] at hlast
    rw [Cycle.walk, List.append_cons]
    apply (hlast.map (hagainst .head _) (hload .head)).after
    simp only [List.forall_mem_append, List.forall_mem_singleton, List.forall_mem_map,
      List.mem_reverse]
    refine ⟨fun v hv hx => ?_, fun hx => absurd hx hclosing⟩
    rw [hload, hload, ← h.blocks.load]
    exact h.least .tail v hv ((Crossing.against_iff (hj v)).mp hx)

namespace Basis

variable [Scalar.Ordered α]

theorem leaving_eq_none_iff (hj : ∀ v, net.Joins (b.tree.arc v) v (b.tree.parent v))
    (hfinite : ∀ v, Scalar.isFinite (b.load v) = true) (a : Arc n m) :
    b.leaving net c = none ↔ ∀ x ∈ c.walk net b.tree a, ¬ x.Against net := by
  cases hk : b.leaving net c with
  | none =>
    apply iff_of_true rfl
    have hall := no_losing_of_leaving hfinite hk
    rw [Cycle.forall_mem_walk]
    simp only [Crossing.against_iff (hj _)]
    exact ⟨hall .tail, Crossing.not_against_closing net a, hall .head⟩
  | some k =>
    apply iff_of_false (by simp)
    intro hall
    have hlast := (leaves_of_leaving hfinite hk).lastLeast hj a
    exact hall _ hlast.mem hlast.holds

theorem reachable_leaving (h : Reachable net b)
    (hflow : ∀ a, Scalar.isFinite (b.flow.get a) = true ∧ 0 ≤ b.flow.get a) (r : Route n m) :
    ∃ apex c, b.tree.join (net.tail r.arc) (net.head r.arc) = .ok apex ∧
      b.tree.path (net.tail r.arc) apex = .ok c.tailSide ∧
      b.tree.path (net.head r.arc) apex = .ok c.headSide ∧
      b.tree.cycle net r.arc = .ok c ∧ net.Walk apex apex (c.walk net b.tree r.arc) ∧
      (b.leaving net c = none ↔ ∀ x ∈ c.walk net b.tree r.arc, ¬ x.Against net) ∧
      ∀ k, b.leaving net c = some k →
        LastLeast (Crossing.Against net) (fun x => b.flow.get x.arc) (c.walk net b.tree r.arc)
          (.above b.tree k.half k.site) ∧
        k.site ∈ c.side k.half ∧ k.load = b.load k.site ∧
        Scalar.max k.load 0 ≤ k.load ∧ k.load ≤ Scalar.max k.load 0 ∧
        b.tree.Below (some (r.near k.half)) (some k.site) ∧
        ¬ b.tree.Below (some (r.far k.half)) (some k.site) := by
  have hw := h.sound.wellFormed
  have hfinite : ∀ v, Scalar.isFinite (b.load v) = true := fun v => (hflow _).1
  obtain ⟨c, -, hc, -⟩ := SpanningTree.cycle_ok hw.ranked net r.arc
  obtain ⟨apex, hjoin, hcl⟩ := SpanningTree.join_of_cycle hw.ranked hc
  refine ⟨apex, c, hjoin, (SpanningTree.path_eq_ok_iff hw.ranked).mpr hcl.tailClimb,
    (SpanningTree.path_eq_ok_iff hw.ranked).mpr hcl.headClimb, hc, hcl.walk hw.joined,
    leaving_eq_none_iff hw.joined hfinite r.arc, fun k hk => ?_⟩
  have hleaves := leaves_of_leaving hfinite hk
  have hmem := hleaves.blocks.mem
  have hload := hleaves.blocks.load
  obtain ⟨hmax, hmax'⟩ := Scalar.Ordered.max_zero (a := k.load) (hload ▸ (hflow _).2)
  exact ⟨hleaves.lastLeast hw.joined r.arc, hmem, hload, hmax, hmax',
    .of_mem (hcl.climb k.half) hmem, hcl.not_below_far hw.ranked hmem⟩

theorem reachable_leaving_tie :
    ∃ (net : Network 2 2 Float) (b : Basis 2 2 Float) (c : Cycle 2 2) (k : Blocker 2 2 Float),
      (Basis.start net).pivot net (0, 0) = .ok (some b) ∧
      b.tree.cycle net (.real 1 0) = .ok c ∧ (c.walk net b.tree (.real 1 0)).length = 4 ∧
      b.leaving net c = some k ∧ k.site = .target 0 ∧
      (Crossing.above b.tree .tail (.source 1)).Against net ∧ b.load (.source 1) ≤ k.load ∧
      LastLeast (Crossing.Against net) (fun x => b.flow.get x.arc) (c.walk net b.tree (.real 1 0))
        (.above b.tree .head (.target 0)) := by
  let net : Network 2 2 Float := ⟨⟨2, 2, #[4, 1, 3, 2]⟩, .ofFn ![0.5, 0.5], .ofFn ![0.5, 0.5], 25⟩
  have hchecks : ((Basis.start net).pivot net (0, 0)).toOption.join.map (fun b =>
      (decide (∀ a, Scalar.isFinite (b.flow.get a) = true ∧ 0 ≤ b.flow.get a),
        decide ((Crossing.above b.tree .tail (.source 1)).Against net),
        (b.tree.cycle net (.real 1 0)).toOption.map fun c =>
          ((c.walk net b.tree (.real 1 0)).length, (b.leaving net c).map fun k =>
            decide (k.site = .target 0 ∧ k.half = .head ∧ b.load (.source 1) ≤ k.load)))) =
      some (true, true, some (4, some true)) := by
    decide +kernel
  obtain ⟨b, hb, hchecks⟩ := Fault.exists_of_join_map hchecks
  simp only [Prod.mk.injEq, decide_eq_true_eq] at hchecks
  obtain ⟨hflow, hagainst, hcycle⟩ := hchecks
  have hstart : Reachable net (Basis.start net) := .start
  have hreach := hstart.pivot (0, 0) (by decide +kernel) hb
  obtain ⟨apex, c, -, -, -, hc, -, -, hlast⟩ := reachable_leaving hreach hflow (1, 0)
  obtain ⟨c', hc', hfound⟩ := Fault.exists_of_map hcycle
  obtain rfl := Except.ok.inj (hc.symm.trans hc')
  simp only [Prod.mk.injEq, Option.map_eq_some_iff, decide_eq_true_eq] at hfound
  obtain ⟨hlength, k, hk, hsite, hhalf, hload⟩ := hfound
  have hl := (hlast k hk).1
  rw [hsite, hhalf] at hl
  exact ⟨net, b, c, k, hb, hc, hlength, hk, hsite, hagainst, hload, hl⟩

end Basis

end OptimalTransport.Simplex
