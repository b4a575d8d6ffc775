import OptimalTransport.Proofs.Flow.Circulation
import OptimalTransport.Proofs.Simplex.Leaving
/-!
The invariant of a run over exact arithmetic. The flow is nonnegative, zero off the tree and
balanced, and an empty arc of the tree leads toward the root. Every pivot on an arc off the tree
keeps it, the last part by the leaving rule.
-/

namespace OptimalTransport

variable {n m : Nat} {net : Network n m ℚ}

namespace Cycle.Closes

variable {t : SpanningTree n m ℚ} {c : Cycle n m} {e : Arc n m} {apex : Node n m} {half : Half}
  {v : Site n m}

theorem circulation_losing (h : c.Closes net t e apex) (hw : t.WellFormed net)
    (he : ∀ v, t.arc v ≠ e) (hv : v ∈ c.side half) (hd : t.direction net v = half.losing) :
    c.circulation net t e (t.arc v) = -1 := by
  rw [h.circulation_arc hw he, hd]
  cases half with
  | tail => exact if_pos hv
  | head => exact (if_neg fun hm => h.disjoint hm hv).trans (if_pos hv)

theorem circulation_gaining (h : c.Closes net t e apex) (hw : t.WellFormed net)
    (he : ∀ v, t.arc v ≠ e) (hv : v ∈ c.side half) (hd : t.direction net v ≠ half.losing) :
    c.circulation net t e (t.arc v) = 1 := by
  rw [h.circulation_arc hw he]
  cases half with
  | tail =>
    apply (if_pos hv).trans
    cases hdir : t.direction net v with
    | up => exact absurd hdir hd
    | down => exact neg_neg 1
  | head =>
    apply ((if_neg fun hm => h.disjoint hm hv).trans (if_pos hv)).trans
    cases hdir : t.direction net v with
    | up => rfl
    | down => exact absurd hdir hd

theorem circulation_off (h : c.Closes net t e apex) (hw : t.WellFormed net)
    (he : ∀ v, t.arc v ≠ e) (hv : ∀ half, v ∉ c.side half) :
    c.circulation net t e (t.arc v) = 0 := by
  rw [h.circulation_arc hw he]
  exact (if_neg (hv .tail)).trans (if_neg (hv .head))

end Cycle.Closes

namespace Simplex.Basis

structure Feasible (net : Network n m ℚ) (b : Basis n m ℚ) : Prop where
  sound : b.Sound net
  nonneg : ∀ a, 0 ≤ b.flow.get a
  idle : ∀ a, b.basic.get a = false → b.flow.get a = 0
  balanced : net.Balanced b.flow.get
  upward : ∀ v, b.load v = 0 → b.tree.direction net v = .up

theorem Feasible.start (net : Network n m ℚ) : (Basis.start net).Feasible net where
  sound := .start net
  nonneg a := by
    cases a with
    | real i j => simp [Basis.start]
    | artificial v => simp [Basis.start]
  idle := Idle.start net
  balanced p hp := by
    rw [Arc.sum_eq]
    have hreal : ∀ i j, (Basis.start net).flow.get (.real i j) = 0 := fun i j => by
      simp [Basis.start]
    simp only [hreal, zero_mul, Finset.sum_const_zero, zero_add]
    apply Finset.sum_congr rfl
    intro v _
    simp only [Basis.start, ArcMap.get_ofFn, Scalar.abs_eq, Network.tail, Network.head]
    split
    · next hv => rw [hp, abs_of_nonneg hv]; ring
    · next hv => rw [hp, abs_of_neg (not_le.mp hv)]; ring
  upward v hv := by
    have hzero : net.excess v = 0 := by
      simpa [Basis.start, load, SpanningTree.star, SpanningTree.arc] using hv
    simp [Basis.start, SpanningTree.star, SpanningTree.direction, SpanningTree.arc,
      Network.direction, Network.tail, hzero]

theorem Feasible.withSweep {b : Basis n m ℚ} (h : b.Feasible net) (sweep : Pricing.Sweep) :
    { b with sweep }.Feasible net :=
  ⟨h.sound.withSweep sweep, h.nonneg, h.idle, h.balanced, h.upward⟩

namespace Pivoted

variable {b b' : Basis n m ℚ} {r : Route n m} {c : Cycle n m} {apex : Node n m}
  {k : Blocker n m ℚ} {stem : List (Site n m)}

theorem load_eq (p : Pivoted net b b' r c apex k stem) : k.load = b.flow.get (b.tree.arc k.site) :=
  (blocks_of_leaving p.leaving).load

theorem load_nonneg (p : Pivoted net b b' r c apex k stem) (h : b.Feasible net) : 0 ≤ k.load :=
  p.load_eq ▸ h.nonneg _

theorem circulation_leaving (p : Pivoted net b b' r c apex k stem) (h : b.Sound net)
    (he : b.basic.get r.arc = false) :
    c.circulation net b.tree r.arc (b.tree.arc k.site) = -1 :=
  p.closes.circulation_losing h.wellFormed (h.arc_ne he) (blocks_of_leaving p.leaving).mem
    (blocks_of_leaving p.leaving).direction

theorem flow_eq (p : Pivoted net b b' r c apex k stem) (h : b.Feasible net)
    (he : b.basic.get r.arc = false) (a : Arc n m) :
    b'.flow.get a = b.flow.get a + k.load * c.circulation net b.tree r.arc a := by
  have hload := p.load_nonneg h
  rw [p.flow, ArcMap.get_put, Scalar.max_eq, max_eq_left hload]
  by_cases hout : b.tree.arc k.site = a
  · rw [if_pos hout, ← hout, p.circulation_leaving h.sound he, ← p.load_eq]
    ring
  rw [if_neg hout]
  split
  · exact get_augment b r.arc c k.load a
  · next hpos =>
    rw [hload.antisymm' (not_lt.mp hpos)]
    ring

theorem flow_entering (p : Pivoted net b b' r c apex k stem) (h : b.Feasible net)
    (he : b.basic.get r.arc = false) : b'.flow.get r.arc = k.load := by
  rw [p.flow_eq h he, h.idle _ he, Cycle.circulation_entering (h.sound.arc_ne he)]
  ring

theorem load_pos (p : Pivoted net b b' r c apex k stem) (h : b.Feasible net)
    (hhalf : k.half = .head) : 0 < k.load := by
  apply lt_of_le_of_ne (p.load_nonneg h)
  -- an empty arc leads up, but on this side only arcs that lead down lose flow
  intro hzero
  have hup := h.upward k.site (p.load_eq.symm.trans hzero.symm)
  have hdown := (blocks_of_leaving p.leaving).direction
  rw [hup, hhalf] at hdown
  cases hdown

theorem half_of_load_eq_zero (p : Pivoted net b b' r c apex k stem) (h : b.Feasible net)
    (hload : k.load = 0) : k.half = .tail := by
  cases hhalf : k.half with
  | tail => rfl
  | head => exact absurd hload (p.load_pos h hhalf).ne'

theorem flow_stays_iff (p : Pivoted net b b' r c apex k stem) (h : b.Feasible net)
    (he : b.basic.get r.arc = false) :
    (∀ a, b'.flow.get a = b.flow.get a) ↔ k.load = 0 := by
  constructor
  · intro hstay
    rw [← p.flow_entering h he, hstay, h.idle _ he]
  · intro hload a
    rw [p.flow_eq h he, hload, zero_mul, add_zero]

theorem stem_subset (p : Pivoted net b b' r c apex k stem) {v : Site n m} (hv : v ∈ stem) :
    v ∈ c.side k.half := by
  obtain ⟨rest, hside⟩ := p.side
  rw [hside]
  exact List.mem_append_left _ hv

theorem split_unique (p : Pivoted net b b' r c apex k stem) (h : b.Sound net)
    {front back : List (Site n m)} (hs : c.side k.half = front ++ k.site :: back) :
    front = stem := by
  have hclimb := p.closes.climb k.half
  rw [hs] at hclimb
  have hnodup := hclimb.nodup h.wellFormed.ranked
  refine SpanningTree.Climb.unique (hclimb.front fun hm => ?_) p.climb
  exact (List.nodup_append.mp hnodup).2.2 _ hm _ List.mem_cons_self rfl

theorem lt_load_of_tail (p : Pivoted net b b' r c apex k stem) (h : b.Sound net)
    (hhalf : k.half = .tail) {v : Site n m} (hv : v ∈ stem)
    (hd : b.tree.direction net v = .up) : k.load < b.load v := by
  have hlast := (leaves_of_leaving (fun _ => rfl) p.leaving).last
  rw [hhalf] at hlast
  obtain ⟨⟨-, front, back, hsplit, hfront, -⟩, -⟩ := hlast
  obtain rfl := p.split_unique h (by rw [hhalf]; exact hsplit)
  exact p.load_eq ▸ hfront v hv hd

theorem lt_load_of_headSide (p : Pivoted net b b' r c apex k stem) (h : b.Sound net)
    {v : Site n m} (hv : v ∈ c.headSide) (hs : v ∉ stem) (hk : v ≠ k.site)
    (hd : b.tree.direction net v = .down) : k.load < b.load v := by
  have hlast := (leaves_of_leaving (fun _ => rfl) p.leaving).last
  cases hhalf : k.half with
  | tail =>
    rw [hhalf] at hlast
    exact hlast.2 v hv hd
  | head =>
    rw [hhalf] at hlast
    obtain ⟨-, front, back, hsplit, -, hback⟩ := hlast
    obtain rfl := p.split_unique h (by rw [hhalf]; exact hsplit)
    rw [hsplit] at hv
    rcases List.mem_append.mp hv with hv | hv
    · exact absurd hv hs
    · exact p.load_eq ▸ hback v ((List.mem_cons.mp hv).resolve_left hk) hd

theorem nonneg (p : Pivoted net b b' r c apex k stem) (h : b.Feasible net)
    (he : b.basic.get r.arc = false) (a : Arc n m) : 0 ≤ b'.flow.get a := by
  have hw := h.sound.wellFormed
  have hne := h.sound.arc_ne he
  have hload := p.load_nonneg h
  by_cases ha : r.arc = a
  · rw [← ha, p.flow_entering h he]
    exact hload
  rw [p.flow_eq h he]
  by_cases htree : ∃ v, b.tree.arc v = a
  · obtain ⟨v, rfl⟩ := htree
    by_cases hside : ∃ half, v ∈ c.side half
    · obtain ⟨half, hv⟩ := hside
      by_cases hd : b.tree.direction net v = half.losing
      · have hleast := (leaves_of_leaving (fun _ => rfl) p.leaving).least half v hv hd
        rw [p.closes.circulation_losing hw hne hv hd]
        rw [load] at hleast
        linarith
      · rw [p.closes.circulation_gaining hw hne hv hd]
        linarith [h.nonneg (b.tree.arc v)]
    · rw [p.closes.circulation_off hw hne (not_exists.mp hside)]
      linarith [h.nonneg (b.tree.arc v)]
  · rw [Cycle.circulation_of_ne (not_exists.mp htree) ha]
    linarith [h.nonneg a]

theorem balanced (p : Pivoted net b b' r c apex k stem) (h : b.Feasible net)
    (he : b.basic.get r.arc = false) : net.Balanced b'.flow.get := by
  intro q hq
  have hcirc := p.closes.sum_circulation h.sound.wellFormed.joined q
  simp only [p.flow_eq h he, add_mul, Finset.sum_add_distrib, mul_assoc, ← Finset.mul_sum, hcirc,
    mul_zero, add_zero]
  exact h.balanced q hq

theorem upward_frame (p : Pivoted net b b' r c apex k stem) (h : b.Feasible net)
    (he : b.basic.get r.arc = false) {v : Site n m} (hs : v ∉ stem) (hk : v ≠ k.site)
    (hzero : b'.flow.get (b.tree.arc v) = 0) : b.tree.direction net v = .up := by
  have hw := h.sound.wellFormed
  have hne := h.sound.arc_ne he
  have hload := p.load_nonneg h
  have hflow := h.nonneg (b.tree.arc v)
  rw [p.flow_eq h he] at hzero
  cases hd : b.tree.direction net v with
  | up => rfl
  | down =>
    rw [← hd]
    -- an arc that leads down loses flow on the side of the head only
    by_cases hhead : v ∈ c.headSide
    · have hlt := p.lt_load_of_headSide h.sound hhead hs hk hd
      rw [p.closes.circulation_losing hw hne (show v ∈ c.side .head from hhead) hd] at hzero
      rw [load] at hlt
      linarith
    · apply h.upward
      rw [load]
      by_cases htail : v ∈ c.tailSide
      · rw [p.closes.circulation_gaining hw hne (show v ∈ c.side .tail from htail)
          (by simp [hd, Half.losing])] at hzero
        linarith
      · rw [p.closes.circulation_off hw hne fun half => by cases half; exacts [htail, hhead]]
          at hzero
        linarith

theorem turned_pos (p : Pivoted net b b' r c apex k stem) (h : b.Feasible net)
    (he : b.basic.get r.arc = false) {w : Site n m} (hw : w ∈ stem)
    (hd : b.tree.direction net w = .up) : 0 < b'.flow.get (b.tree.arc w) := by
  have hwf := h.sound.wellFormed
  have hne := h.sound.arc_ne he
  have hside := p.stem_subset hw
  rw [p.flow_eq h he]
  cases hhalf : k.half with
  | tail =>
    -- it loses flow after the arc that leaves, on the way around the cycle
    have hlt := p.lt_load_of_tail h.sound hhalf hw hd
    rw [hhalf] at hside
    rw [p.closes.circulation_losing hwf hne hside hd]
    rw [load] at hlt
    linarith
  | head =>
    have hpos := p.load_pos h hhalf
    rw [hhalf] at hside
    rw [p.closes.circulation_gaining hwf hne hside (by simp [hd, Half.losing])]
    linarith [h.nonneg (b.tree.arc w)]

theorem upward (p : Pivoted net b b' r c apex k stem) (h : b.Feasible net)
    (he : b.basic.get r.arc = false) {v : Site n m} (hzero : b'.load v = 0) :
    b'.tree.direction net v = .up := by
  rw [load] at hzero
  rw [SpanningTree.direction]
  rcases p.exchanged.arc_cases p.climb v with ⟨hs, hk, ha⟩ | ⟨rfl, ha⟩ | ⟨w, hw, hp, ha⟩
  · rw [ha] at hzero ⊢
    exact p.upward_frame h he hs hk hzero
  · rw [ha, p.flow_entering h he] at hzero
    rw [ha]
    cases hhalf : k.half with
    | tail => exact Network.direction_eq_up_iff.mpr rfl
    | head => exact absurd hzero (p.load_pos h hhalf).ne'
  · rw [ha] at hzero ⊢
    cases hd : b.tree.direction net w with
    | up => exact absurd hzero (p.turned_pos h he hw hd).ne'
    | down => exact Network.Joins.direction_swap (hp ▸ h.sound.wellFormed.joined w) hd

theorem feasible (p : Pivoted net b b' r c apex k stem) (h : b.Feasible net)
    (he : b.basic.get r.arc = false) : b'.Feasible net where
  sound := p.sound h.sound
  nonneg := p.nonneg h he
  idle := p.idle h.sound h.idle
  balanced := p.balanced h he
  upward _ := p.upward h he

end Pivoted

end Simplex.Basis

end OptimalTransport
