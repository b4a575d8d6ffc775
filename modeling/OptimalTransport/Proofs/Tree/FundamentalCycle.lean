import OptimalTransport.Proofs.Pricing.Agreement
import OptimalTransport.Proofs.Simplex.Reachable
/-!
The cycle that an arc off a spanning tree closes. The sites below a site are joined to the other
nodes by one arc of the tree, and a closed walk that leaves them over it has to come back over
another arc. So the closing arc is on every cycle, together with the arcs above the sites that have
one of its ends below them, and these are the ones that two climbs to a common apex meet.
-/

namespace OptimalTransport

variable {n m : Nat} {α : Type} [Scalar α] {net : Network n m α} {t : SpanningTree n m α}

section Straddling

variable {side : Node n m → Prop} {u v w : Node n m} {x : Crossing n m}
  {xs ys front back : List (Crossing n m)} {a : Arc n m}

def Network.Straddles (net : Network n m α) (side : Node n m → Prop) (a : Arc n m) : Prop :=
  ¬ (side (net.tail a) ↔ side (net.head a))

theorem Network.straddles_iff
    (h : (net.tail a = u ∧ net.head a = v) ∨ (net.tail a = v ∧ net.head a = u)) :
    net.Straddles side a ↔ ¬ (side u ↔ side v) := by
  rcases h with ⟨ht, hh⟩ | ⟨ht, hh⟩
  · rw [Straddles, ht, hh]
  · rw [Straddles, ht, hh, not_congr iff_comm]

namespace Network.Walk

theorem same_side (h : net.Walk u v xs) (hs : ∀ x ∈ xs, ¬ net.Straddles side x.arc) :
    side u ↔ side v := by
  induction h with
  | stay u => rfl
  | cross hx hrest ih =>
    obtain ⟨hfirst, hs⟩ := List.forall_mem_cons.mp hs
    rw [Network.straddles_iff hx, not_not] at hfirst
    exact hfirst.trans (ih hs)

theorem exists_straddling (h : net.Walk u u (front ++ x :: back))
    (hx : net.Straddles side x.arc) : ∃ y ∈ front ++ back, net.Straddles side y.arc := by
  obtain ⟨v, hfront, hrest⟩ := append_iff.mp h
  obtain ⟨rfl, hcross, hback⟩ := cons_iff.mp hrest
  by_contra hnone
  push Not at hnone
  rw [Network.straddles_iff hcross] at hx
  have hbefore := hfront.same_side fun y hy => hnone y (List.mem_append_left _ hy)
  have hafter := hback.same_side fun y hy => hnone y (List.mem_append_right _ hy)
  exact hx (hbefore.symm.trans hafter.symm)

theorem exists_other_arc (h : net.Walk u u xs) (hn : (xs.map Crossing.arc).Nodup)
    (ha : a ∈ xs.map Crossing.arc) (hs : net.Straddles side a) :
    ∃ b ∈ xs.map Crossing.arc, b ≠ a ∧ net.Straddles side b := by
  obtain ⟨x, hx, rfl⟩ := List.mem_map.mp ha
  obtain ⟨front, back, rfl⟩ := List.append_of_mem hx
  obtain ⟨y, hy, hys⟩ := h.exists_straddling hs
  rw [List.map_append, List.map_cons] at hn
  have hnot := (List.nodup_middle.mp hn).notMem
  rw [← List.map_append] at hnot
  refine ⟨y.arc, ?_, fun he => hnot (he ▸ List.mem_map_of_mem hy), hys⟩
  exact List.mem_map_of_mem (((List.sublist_cons_self x back).append_left front).subset hy)

end Network.Walk

end Straddling

structure Network.SimpleCycle (net : Network n m α) (xs : List (Crossing n m)) : Prop where
  nonempty : xs ≠ []
  closed : ∃ u, net.Walk u u xs
  nodes : (xs.map Crossing.before).Nodup
  arcs : (xs.map Crossing.arc).Nodup

namespace SpanningTree

structure LastCommon (t : SpanningTree n m α) (u v a : Node n m) : Prop where
  left : t.Below u a
  right : t.Below v a
  below : ∀ b, t.Below u b → t.Below v b → t.Below a b
  deepest : ∀ b, t.Below u b → t.Below v b → b ≠ a → t.depth b < t.depth a

structure Ascent (t : SpanningTree n m α) (u a : Node n m) (sites : List (Site n m)) : Prop where
  steps : List.iterate t.above u sites.length = sites.map some
  ends : t.above^[sites.length] u = a
  away : a ∉ sites.map some
  nodup : sites.Nodup

variable {a u v : Node n m} {w : Site n m} {sites left right : List (Site n m)}

omit [Scalar α] in
theorem Climb.map_parent (h : t.Climb a u sites) :
    sites.reverse.map t.parent ++ [u] = a :: sites.reverse.map some := by
  induction h with
  | here => rfl
  | @up v sites away rest ih =>
    rw [List.reverse_cons, List.map_append, List.map_append, List.map_singleton, List.map_singleton,
      ih, List.cons_append]

theorem Climb.ascent (h : t.Climb a u sites) (hr : t.Ranked t.depth) : t.Ascent u a sites where
  steps := by
    clear hr
    induction h with
    | here => rfl
    | up away rest ih => exact congrArg _ ih
  ends := by
    clear hr
    induction h with
    | here => rfl
    | up away rest ih => exact ih
  away hm := by
    obtain ⟨w, hw, rfl⟩ := List.mem_map.mp hm
    exact h.not_below_of_mem hr hw (.refl _)
  nodup := h.nodup hr

theorem lastCommon_of_climb (hr : t.Ranked t.depth) (hu : t.Climb a u left)
    (hv : t.Climb a v right) (hd : left.Disjoint right) : t.LastCommon u v a := by
  have hbelow : ∀ b, t.Below u b → t.Below v b → t.Below a b := by
    intro b hub hvb
    cases b with
    | none => exact hr.rooted a
    | some w =>
      rcases hu.below_iff.mp hub with hl | hb
      · exact (hv.below_iff.mp hvb).resolve_left fun hm => hd hl hm
      · exact hb
  refine ⟨⟨_, hu⟩, ⟨_, hv⟩, hbelow, fun b hub hvb hne => ?_⟩
  have hb := hbelow b hub hvb
  refine lt_of_le_of_ne (hb.rank_le hr) fun he => hne ?_
  exact (hb.eq_of_rank_eq hr he.symm).symm

theorem WellFormed.straddles_arc_iff (hw : t.WellFormed net) {v w : Site n m} :
    net.Straddles (t.Below · (some v)) (t.arc w) ↔ w = v := by
  rw [Network.straddles_iff (hw.joined w)]
  constructor
  · intro h
    by_contra hne
    exact h (Below.iff_parent hne)
  · rintro rfl h
    exact Below.not_parent hw.ranked (h.mp (.refl _))

end SpanningTree

namespace Cycle

variable {c : Cycle n m} {a : Arc n m} {apex : Node n m}

theorem map_arc_walk (net : Network n m α) (t : SpanningTree n m α) (a : Arc n m) (c : Cycle n m) :
    (c.walk net t a).map Crossing.arc =
      c.tailSide.reverse.map t.arc ++ a :: c.headSide.map t.arc := by
  rw [walk, List.map_append, List.map_cons, List.map_map, List.map_map]
  rfl

theorem mem_arcs_walk {b : Arc n m} : b ∈ (c.walk net t a).map Crossing.arc ↔
    b = a ∨ ∃ v, (v ∈ c.tailSide ∨ v ∈ c.headSide) ∧ t.arc v = b := by
  simp only [map_arc_walk, List.mem_append, List.mem_cons, List.mem_map, List.mem_reverse,
    or_and_right, exists_or]
  exact or_left_comm

namespace Closes

theorem map_before_walk (h : c.Closes net t a apex) :
    (c.walk net t a).map Crossing.before =
      apex :: (c.tailSide.reverse.map some ++ c.headSide.map some) := by
  rw [Cycle.walk, List.map_append, List.map_cons, List.map_map, List.map_map]
  change c.tailSide.reverse.map t.parent ++ net.tail a :: c.headSide.map some = _
  rw [List.append_cons, h.tailClimb.map_parent, List.cons_append]

theorem straddles_iff (h : c.Closes net t a apex) (hr : t.Ranked t.depth) {v : Site n m} :
    net.Straddles (t.Below · (some v)) a ↔ v ∈ c.tailSide ∨ v ∈ c.headSide := by
  have htail := fun hv => h.tailClimb.not_below_of_mem hr (w := v) hv
  have hhead := fun hv => h.headClimb.not_below_of_mem hr (w := v) hv
  have hboth : v ∈ c.tailSide → v ∉ c.headSide := fun ht hh => h.disjoint ht hh
  rw [Network.Straddles, h.tailClimb.below_iff, h.headClimb.below_iff]
  tauto

theorem nodup_sides (h : c.Closes net t a apex) (hr : t.Ranked t.depth) :
    (c.tailSide.reverse ++ c.headSide).Nodup := by
  apply List.Nodup.append
  · exact List.nodup_reverse.mpr (h.tailClimb.nodup hr)
  · exact h.headClimb.nodup hr
  · exact fun v hv => h.disjoint (List.mem_reverse.mp hv)

theorem nodup_arcs (hw : t.WellFormed net) (h : c.Closes net t a apex) (hoff : ∀ v, t.arc v ≠ a) :
    ((c.walk net t a).map Crossing.arc).Nodup := by
  rw [map_arc_walk, List.nodup_middle, ← List.map_append]
  refine List.nodup_cons.mpr ⟨fun hm => ?_, (h.nodup_sides hw.ranked).map hw.arc_injective⟩
  obtain ⟨v, -, hv⟩ := List.mem_map.mp hm
  exact hoff v hv

theorem nodup_nodes (h : c.Closes net t a apex) (hr : t.Ranked t.depth) :
    ((c.walk net t a).map Crossing.before).Nodup := by
  rw [h.map_before_walk, ← List.map_append]
  refine List.nodup_cons.mpr ⟨fun hm => ?_, (h.nodup_sides hr).map (Option.some_injective _)⟩
  obtain ⟨v, hv, rfl⟩ := List.mem_map.mp hm
  rcases List.mem_append.mp hv with ht | hh
  · exact h.tailClimb.not_below_of_mem hr (List.mem_reverse.mp ht) (.refl _)
  · exact h.headClimb.not_below_of_mem hr hh (.refl _)

theorem simpleCycle (hw : t.WellFormed net) (h : c.Closes net t a apex)
    (hoff : ∀ v, t.arc v ≠ a) : net.SimpleCycle (c.walk net t a) where
  nonempty := by simp [Cycle.walk]
  closed := ⟨apex, h.walk hw.joined⟩
  nodes := h.nodup_nodes hw.ranked
  arcs := h.nodup_arcs hw hoff

theorem perm_arcs (hw : t.WellFormed net) (h : c.Closes net t a apex) (hoff : ∀ v, t.arc v ≠ a)
    {xs : List (Crossing n m)} (hxs : net.SimpleCycle xs)
    (hon : ∀ x ∈ xs, x.arc = a ∨ ∃ v, t.arc v = x.arc) :
    (xs.map Crossing.arc).Perm ((c.walk net t a).map Crossing.arc) := by
  obtain ⟨u, hclosed⟩ := hxs.closed
  have hon' : ∀ b ∈ xs.map Crossing.arc, b = a ∨ ∃ v, t.arc v = b := List.forall_mem_map.mpr hon
  -- only the closing arc can lead back over the side that an arc of the tree has left, and only
  -- the arc above a site back over the side that the closing arc has left
  have hback : ∀ v, t.arc v ∈ xs.map Crossing.arc →
      a ∈ xs.map Crossing.arc ∧ net.Straddles (t.Below · (some v)) a := by
    intro v hv
    obtain ⟨b, hb, hne, hs⟩ := hclosed.exists_other_arc hxs.arcs hv (hw.straddles_arc_iff.mpr rfl)
    rcases hon' b hb with rfl | ⟨w, rfl⟩
    · exact ⟨hb, hs⟩
    · exact absurd (congrArg t.arc (hw.straddles_arc_iff.mp hs)) hne
  have ha : a ∈ xs.map Crossing.arc := by
    obtain ⟨x, hx⟩ := List.exists_mem_of_ne_nil xs hxs.nonempty
    have hmem : x.arc ∈ xs.map Crossing.arc := List.mem_map_of_mem hx
    rcases hon x hx with he | ⟨v, hv⟩
    · exact he ▸ hmem
    · exact (hback v (hv ▸ hmem)).1
  have hforth : ∀ v, net.Straddles (t.Below · (some v)) a → t.arc v ∈ xs.map Crossing.arc := by
    intro v hv
    obtain ⟨b, hb, hne, hs⟩ := hclosed.exists_other_arc hxs.arcs ha hv
    obtain ⟨w, rfl⟩ := (hon' b hb).resolve_left hne
    exact hw.straddles_arc_iff.mp hs ▸ hb
  apply (List.perm_ext_iff_of_nodup hxs.arcs (h.nodup_arcs hw hoff)).mpr
  intro b
  rw [mem_arcs_walk]
  constructor
  · intro hb
    rcases hon' b hb with rfl | ⟨v, rfl⟩
    · exact .inl rfl
    · exact .inr ⟨v, (h.straddles_iff hw.ranked).mp (hback v hb).2, rfl⟩
  · rintro (rfl | ⟨v, hv, rfl⟩)
    · exact ha
    · exact hforth v ((h.straddles_iff hw.ranked).mpr hv)

end Closes

end Cycle

namespace Simplex.Basis

variable {b b' : Basis n m α} {r : Route n m} {c : Cycle n m} {k : Blocker n m α}

theorem exchange_of_pivot (hc : b.tree.cycle net r.arc = .ok c) (hk : b.leaving net c = some k)
    (hpivot : b.pivot net r = .ok (some b')) :
    b.tree.exchange net r.arc (r.near k.half) (some (r.far k.half)) k.site = .ok b'.tree := by
  rw [pivot, hc, Fault.ok_bind, hk] at hpivot
  obtain ⟨t, ht, hnext⟩ := Fault.bind_eq_ok.mp hpivot
  obtain rfl := Option.some.inj (Except.ok.inj hnext)
  cases hh : k.half with
  | tail => rw [hh] at ht; exact ht
  | head => rw [hh] at ht; exact ht

theorem Reachable.exchanges (h : Reachable net b) :
    SpanningTree.Exchanges net (.star net) b.tree := by
  induction h with
  | start => exact .refl
  | withSweep _ _ ih => exact ih
  | pivot h r _ hpivot ih =>
    obtain ⟨c, apex, k, stem, hc, p⟩ := pivoted_of_pivot h.sound hpivot
    have hmem := (blocks_of_leaving p.leaving).mem
    have hswap := p.closes.swaps h.sound.wellFormed (requireCost_of_pivot hpivot) hmem
    exact .step ih hswap (exchange_of_pivot hc p.leaving hpivot)

end Simplex.Basis

namespace SpanningTree

theorem exchanges_cycle (h : Exchanges net (.star net) t) :
    (∀ u v, ∃ a left right, t.join u v = .ok a ∧ t.LastCommon u v a ∧
      t.path u a = .ok left ∧ t.Ascent u a left ∧ t.path v a = .ok right ∧ t.Ascent v a right ∧
      left.Disjoint right) ∧
    ∀ e, (∀ v, t.arc v ≠ e) → ∃ (a : Node n m) (c : Cycle n m),
      t.cycle net e = .ok c ∧ t.join (net.tail e) (net.head e) = .ok a ∧
      t.path (net.tail e) a = .ok c.tailSide ∧ t.path (net.head e) a = .ok c.headSide ∧
      (c.walk net t e).map Crossing.arc =
        c.tailSide.reverse.map t.arc ++ e :: c.headSide.map t.arc ∧
      net.SimpleCycle (c.walk net t e) ∧
      ∀ xs, net.SimpleCycle xs → (∀ x ∈ xs, x.arc = e ∨ ∃ v, t.arc v = x.arc) →
        (xs.map Crossing.arc).Perm ((c.walk net t e).map Crossing.arc) := by
  have hw := h.wellFormed (.star net)
  have hr := hw.ranked
  constructor
  · intro u v
    obtain ⟨a, left, right, hjoin, hleft, hright, hd⟩ := join_ok hr u v
    have hpath := (path_eq_ok_iff hr).mpr hleft
    have hpath' := (path_eq_ok_iff hr).mpr hright
    exact ⟨a, left, right, hjoin, lastCommon_of_climb hr hleft hright hd, hpath, hleft.ascent hr,
      hpath', hright.ascent hr, hd⟩
  · intro e hoff
    obtain ⟨c, -, hc, -⟩ := cycle_ok hr net e
    obtain ⟨a, hjoin, hcl⟩ := join_of_cycle hr hc
    have hpath := (path_eq_ok_iff hr).mpr hcl.tailClimb
    have hpath' := (path_eq_ok_iff hr).mpr hcl.headClimb
    refine ⟨a, c, hc, hjoin, hpath, hpath', c.map_arc_walk net t e, hcl.simpleCycle hw hoff, ?_⟩
    exact fun xs hxs hon => hcl.perm_arcs hw hoff hxs hon

theorem exchanges_cycle_hexagon :
    ∃ (net : Network 3 3 ℚ) (t : SpanningTree 3 3 ℚ) (c : Cycle 3 3),
      Exchanges net (.star net) t ∧ (∀ v, t.arc v ≠ .real 0 1) ∧
      t.join (some (.source 0)) (some (.target 1)) = .ok (some (.source 1)) ∧
      t.LastCommon (some (.source 0)) (some (.target 1)) (some (.source 1)) ∧
      (c.walk net t (.real 0 1)).map Crossing.arc =
        [.real 1 2, .real 2 2, .real 2 0, .real 0 0, .real 0 1, .real 1 1] ∧
      net.SimpleCycle (c.walk net t (.real 0 1)) := by
  let net : Network 3 3 ℚ :=
    ⟨⟨3, 3, #[0, 1, 3, 5, 1, 4, 1, 5, 3]⟩, .ofFn ![2, 3, 2], .ofFn ![3, 2, 2], 42⟩
  have hprice : net.Priced := by decide +kernel
  have hlast : ((Simplex.Basis.start net).run net 20).toOption.map (fun x =>
      (x.2.basic.get (.real 0 1),
        (x.2.tree.join (some (.source 0)) (some (.target 1))).toOption,
        (x.2.tree.cycle net (.real 0 1)).toOption.map fun c =>
          (c.walk net x.2.tree (.real 0 1)).map Crossing.arc)) =
      some (false, some (some (.source 1)),
        some [.real 1 2, .real 2 2, .real 2 0, .real 0 0, .real 0 1, .real 1 1]) := by
    decide +kernel
  obtain ⟨⟨_, b⟩, hrun, hall⟩ := Fault.exists_of_map hlast
  simp only [Prod.mk.injEq] at hall
  obtain ⟨hbasic, hjoined, hwalk⟩ := hall
  have hreached := Simplex.Basis.Reachable.start.run hprice hrun
  have hoff := hreached.sound.arc_ne hbasic
  obtain ⟨hjoin, hcycle⟩ := exchanges_cycle hreached.exchanges
  obtain ⟨a, -, -, ha, hlca, -⟩ := hjoin (some (.source 0)) (some (.target 1))
  rw [ha] at hjoined
  obtain rfl := Option.some.inj hjoined
  obtain ⟨-, c, hc, -, -, -, -, hsimple, -⟩ := hcycle (.real 0 1) hoff
  obtain ⟨c', hc', harcs⟩ := Fault.exists_of_map hwalk
  obtain rfl := Except.ok.inj (hc.symm.trans hc')
  exact ⟨net, b.tree, c, hreached.exchanges, hoff, ha, hlca, harcs, hsimple⟩

end SpanningTree

end OptimalTransport
