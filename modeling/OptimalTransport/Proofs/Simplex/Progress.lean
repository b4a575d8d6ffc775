import OptimalTransport.Proofs.Pricing.CycleCost
import OptimalTransport.Proofs.Simplex.Feasible
/-!
A pivot on an arc of negative reduced cost makes progress. The cost falls by the amount pushed times
the reduced cost, and where nothing is pushed the potentials of the sites that move rise. Cost and
potentials are determined by the basic arcs, so that no set of basic arcs comes back.
-/

namespace OptimalTransport.Simplex.Basis

variable {n m : Nat} {net : Network n m ℚ} {b b' : Basis n m ℚ} {r : Route n m} {c : Cycle n m}
  {apex : Node n m} {k : Blocker n m ℚ} {stem : List (Site n m)}

def cost (net : Network n m ℚ) (b : Basis n m ℚ) : ℚ :=
  ∑ a, b.flow.get a * net.cost a

theorem Feasible.flow_mul_reducedCost (h : b.Feasible net) (a : Arc n m) :
    b.flow.get a * Pricing.reducedCost net b.tree a = 0 := by
  cases hb : b.basic.get a with
  | true =>
    obtain ⟨v, rfl⟩ := (h.sound.basic_iff a).mp hb
    rw [Pricing.reducedCost_arc h.sound.wellFormed, mul_zero]
  | false => rw [h.idle a hb, zero_mul]

theorem Feasible.cost_eq (h : b.Feasible net) :
    b.cost net = -∑ v, b.tree.potential (some v) * net.excess v := by
  have hzero : ∑ a, b.flow.get a * Pricing.reducedCost net b.tree a = 0 :=
    Finset.sum_eq_zero fun a _ => h.flow_mul_reducedCost a
  have hbal := h.balanced b.tree.potential SpanningTree.potential_root
  rw [← hbal, cost, eq_neg_iff_add_eq_zero, ← hzero, ← Finset.sum_add_distrib]
  apply Finset.sum_congr rfl
  intro a _
  rw [Pricing.reducedCost_eq]
  ring

theorem Sound.potential_congr (h : b.Sound net) (h' : b'.Sound net)
    (hb : ∀ a, b'.basic.get a = b.basic.get a) (u : Node n m) :
    b'.tree.potential u = b.tree.potential u := by
  refine (h'.wellFormed.eq_potential SpanningTree.potential_root (fun v => ?_) u).symm
  obtain ⟨w, hw⟩ := (h.basic_iff _).mp ((hb _).symm.trans ((h'.basic_iff _).mpr ⟨v, rfl⟩))
  rw [← hw]
  exact h.wellFormed.fits w

namespace Pivoted

theorem sum_circulation_cost (p : Pivoted net b b' r c apex k stem) (h : b.Sound net)
    (he : b.basic.get r.arc = false) :
    ∑ a, c.circulation net b.tree r.arc a * net.cost a =
      Pricing.reducedCost net b.tree r.arc := by
  have hred : ∑ a, c.circulation net b.tree r.arc a * Pricing.reducedCost net b.tree a =
      Pricing.reducedCost net b.tree r.arc := by
    rw [Finset.sum_eq_single r.arc]
    · rw [Cycle.circulation_entering (h.arc_ne he), one_mul]
    · intro a _ ha
      by_cases htree : ∃ v, b.tree.arc v = a
      · obtain ⟨v, rfl⟩ := htree
        rw [Pricing.reducedCost_arc h.wellFormed, mul_zero]
      · rw [Cycle.circulation_of_ne (not_exists.mp htree) (Ne.symm ha), zero_mul]
    · simp
  have hcirc := p.closes.sum_circulation h.wellFormed.joined b.tree.potential
  rw [← hred, ← add_zero (∑ a, _ * net.cost a), ← hcirc, ← Finset.sum_add_distrib]
  apply Finset.sum_congr rfl
  intro a _
  rw [Pricing.reducedCost_eq]
  ring

theorem cost_eq (p : Pivoted net b b' r c apex k stem) (h : b.Feasible net)
    (he : b.basic.get r.arc = false) :
    b'.cost net = b.cost net + k.load * Pricing.reducedCost net b.tree r.arc := by
  simp only [cost, p.flow_eq h he, add_mul, Finset.sum_add_distrib, mul_assoc, ← Finset.mul_sum,
    p.sum_circulation_cost h.sound he]

def lift (net : Network n m ℚ) (b : Basis n m ℚ) (r : Route n m) : Half → ℚ
  | .tail => -Pricing.reducedCost net b.tree r.arc
  | .head => Pricing.reducedCost net b.tree r.arc

open scoped Classical in
/-- The potentials after a pivot: the sites below the leaving arc move with the entering one. -/
noncomputable def lifted (net : Network n m ℚ) (b : Basis n m ℚ) (r : Route n m)
    (k : Blocker n m ℚ) (u : Node n m) : ℚ :=
  b.tree.potential u + if b.tree.Below u (some k.site) then lift net b r k.half else 0

theorem lifted_below {u : Node n m} (hu : b.tree.Below u (some k.site)) :
    lifted net b r k u = b.tree.potential u + lift net b r k.half := by
  rw [lifted, if_pos hu]

theorem lifted_off {u : Node n m} (hu : ¬ b.tree.Below u (some k.site)) :
    lifted net b r k u = b.tree.potential u := by
  rw [lifted, if_neg hu, add_zero]

theorem lifted_root (h : b.Sound net) : lifted net b r k none = 0 := by
  rw [lifted_off, SpanningTree.potential_root]
  intro hb
  have := hb.rank_le h.wellFormed.ranked
  have := h.wellFormed.ranked.root
  have := h.wellFormed.ranked.link k.site
  omega

theorem lifted_entering (p : Pivoted net b b' r c apex k stem) (h : b.Sound net) :
    lifted net b r k (net.head r.arc) = lifted net b r k (net.tail r.arc) + net.cost r.arc := by
  have hnear : lifted net b r k (some (r.near k.half)) = _ := lifted_below ⟨stem, p.climb⟩
  have hfar : lifted net b r k (some (r.far k.half)) = _ :=
    lifted_off (p.closes.not_below_far h.wellFormed.ranked (blocks_of_leaving p.leaving).mem)
  cases hhalf : k.half with
  | tail =>
    rw [hhalf] at hnear hfar
    change lifted net b r k (some (r.far .tail)) = lifted net b r k (some (r.near .tail)) + _
    rw [hnear, hfar, lift, Pricing.reducedCost_eq]
    change b.tree.potential (some (r.far .tail)) = _ +
      -(_ + b.tree.potential (some (r.near .tail)) - b.tree.potential (some (r.far .tail))) + _
    ring
  | head =>
    rw [hhalf] at hnear hfar
    change lifted net b r k (some (r.near .head)) = lifted net b r k (some (r.far .head)) + _
    rw [hnear, hfar, lift, Pricing.reducedCost_eq]
    change _ + (_ + b.tree.potential (some (r.far .head)) -
      b.tree.potential (some (r.near .head))) = _
    ring

theorem lifted_stays (h : b.Sound net) {w : Site n m} (hw : w ≠ k.site) :
    lifted net b r k (net.head (b.tree.arc w)) =
      lifted net b r k (net.tail (b.tree.arc w)) + net.cost (b.tree.arc w) := by
  -- both ends of an arc that stays move, or neither does
  have hsame := SpanningTree.Below.iff_parent (t := b.tree) hw
  have hends : b.tree.Below (net.head (b.tree.arc w)) (some k.site) ↔
      b.tree.Below (net.tail (b.tree.arc w)) (some k.site) := by
    rcases h.wellFormed.joined w with ⟨ht, hh⟩ | ⟨ht, hh⟩
    · rw [ht, hh]; exact hsame.symm
    · rw [ht, hh]; exact hsame
  by_cases ht : b.tree.Below (net.tail (b.tree.arc w)) (some k.site)
  · rw [lifted_below (hends.mpr ht), lifted_below ht, h.wellFormed.fits w]
    ring
  · rw [lifted_off (mt hends.mp ht), lifted_off ht, h.wellFormed.fits w]

theorem potential_eq (p : Pivoted net b b' r c apex k stem) (h : b.Sound net) (u : Node n m) :
    b'.tree.potential u = lifted net b r k u := by
  symm
  apply p.exchanged.wellFormed.eq_potential (lifted_root h)
  intro v
  rcases (p.exchanged.arc_iff h.wellFormed.ranked p.climb _).mp ⟨v, rfl⟩ with he | ⟨w, hw, he⟩
  · rw [he]
    exact p.lifted_entering h
  · rw [← he]
    exact lifted_stays h hw

theorem sum_potential_lt (p : Pivoted net b b' r c apex k stem) (h : b.Feasible net)
    (hneg : Pricing.reducedCost net b.tree r.arc < 0) (hload : k.load = 0) :
    ∑ v, b.tree.potential (some v) < ∑ v, b'.tree.potential (some v) := by
  -- on the side of the head the arc that leaves is not empty
  have hhalf := p.half_of_load_eq_zero h hload
  have hlift : 0 < lift net b r k.half := by
    rw [hhalf]
    exact neg_pos.mpr hneg
  apply Finset.sum_lt_sum
  · intro v _
    rw [p.potential_eq h.sound]
    by_cases hv : b.tree.Below (some v) (some k.site)
    · rw [lifted_below hv]
      linarith
    · rw [lifted_off hv]
  · refine ⟨k.site, Finset.mem_univ _, ?_⟩
    rw [p.potential_eq h.sound, lifted_below (.refl _)]
    linarith

end Pivoted

def measure (net : Network n m ℚ) (b : Basis n m ℚ) : ℚ ×ₗ ℚ :=
  toLex (b.cost net, -∑ v, b.tree.potential (some v))

theorem Pivoted.measure_lt (p : Pivoted net b b' r c apex k stem) (h : b.Feasible net)
    (he : b.basic.get r.arc = false) (hneg : Pricing.reducedCost net b.tree r.arc < 0) :
    b'.measure net < b.measure net := by
  rw [measure, measure, Prod.Lex.toLex_lt_toLex, p.cost_eq h he]
  rcases (p.load_nonneg h).eq_or_lt with hload | hload
  · right
    rw [← hload, zero_mul, add_zero]
    exact ⟨rfl, neg_lt_neg (p.sum_potential_lt h hneg hload.symm)⟩
  · left
    have := mul_neg_of_pos_of_neg hload hneg
    dsimp only
    linarith

theorem Feasible.measure_congr (h : b.Feasible net) (h' : b'.Feasible net)
    (hb : ∀ a, b'.basic.get a = b.basic.get a) : b'.measure net = b.measure net := by
  have hp := h.sound.potential_congr h'.sound hb
  simp only [measure, h.cost_eq, h'.cost_eq, hp]

end OptimalTransport.Simplex.Basis
