import OptimalTransport.Proofs.Pricing.Potential
import OptimalTransport.Proofs.Tree.Climb

namespace OptimalTransport

variable {n m : Nat} {net : Network n m ℚ} {t : SpanningTree n m ℚ} {a : Arc n m}
  {apex : Node n m} {c : Cycle n m}

namespace SpanningTree

def realSites (t : SpanningTree n m ℚ) (sites : List (Site n m)) : List (Site n m) :=
  sites.filter fun v => !(t.arc v).isArtificial

theorem Climb.relative_eq (h : t.WellFormed net) {u : Node n m} {sites : List (Site n m)}
    (hs : t.Climb apex u sites) :
    (t.label u).relative = (t.label apex).relative +
      ((t.realSites sites).map fun v => net.gain (t.arc v) v).sum := by
  induction hs with
  | here => simp [realSites]
  | @up v sites away rest ih =>
    rw [h.relative_eq v, ih, realSites, realSites, List.filter_cons]
    cases (t.arc v).isArtificial with
    | true => simp
    | false => simp only [Bool.false_eq_true, if_false, Bool.not_false, if_true, List.map_cons,
        List.sum_cons]; ring

theorem Climb.potential_eq (h : t.WellFormed net) {u : Node n m} {sites : List (Site n m)}
    (hs : t.Climb apex u sites) :
    t.potential u = t.potential apex + (sites.map fun v => net.gain (t.arc v) v).sum := by
  induction hs with
  | here => simp
  | @up v sites away rest ih =>
    rw [h.potential_eq v, ih, List.map_cons, List.sum_cons]
    ring

theorem Climb.exists_top {v : Site n m} {sites : List (Site n m)}
    (hs : t.Climb none (some v) sites) : ∃ w ∈ sites, t.parent w = none := by
  generalize hu : some v = u at hs
  induction hs generalizing v with
  | here => cases hu
  | @up w sites away rest ih =>
    cases hp : t.parent w with
    | none => exact ⟨w, List.mem_cons_self, hp⟩
    | some x =>
      obtain ⟨y, hy, htop⟩ := ih hp.symm
      exact ⟨y, List.mem_cons_of_mem _ hy, htop⟩

end SpanningTree

namespace Pricing

open SpanningTree

theorem foldl_tally (g s : Site n m → ℚ) (sites : List (Site n m)) (x : Tally ℚ) :
    sites.foldl (fun x v => ⟨x.sum + g v, x.size + s v⟩) x =
      ⟨x.sum + (sites.map g).sum, x.size + (sites.map s).sum⟩ := by
  induction sites generalizing x with
  | nil => simp
  | cons v sites ih => simp only [List.foldl_cons, ih, List.map_cons, List.sum_cons, add_assoc]

theorem cycleCost_eq (net : Network n m ℚ) (t : SpanningTree n m ℚ) (a : Arc n m)
    (c : Cycle n m) :
    cycleCost net t a c =
      ⟨(t.label (net.tail a)).offset - (t.label (net.head a)).offset +
          (net.cost a + ((t.realSites c.tailSide).map fun v => net.gain (t.arc v) v).sum -
            ((t.realSites c.headSide).map fun v => net.gain (t.arc v) v).sum),
        |net.cost a| +
          ((t.realSites (c.tailSide ++ c.headSide)).map fun v => |net.gain (t.arc v) v|).sum⟩ := by
  have hup : ∀ x : Tally ℚ, ∀ sites : List (Site n m), sites.foldl
      (fun x v => ⟨x.sum - net.gain (t.arc v) v, x.size + |net.gain (t.arc v) v|⟩) x =
      ⟨x.sum - (sites.map fun v => net.gain (t.arc v) v).sum,
        x.size + (sites.map fun v => |net.gain (t.arc v) v|).sum⟩ := by
    intro x sites
    have hneg : (sites.map fun v => -net.gain (t.arc v) v).sum =
        -(sites.map fun v => net.gain (t.arc v) v).sum := by
      rw [List.sum_neg, List.map_map]
      rfl
    have := foldl_tally (fun v => -net.gain (t.arc v) v) (fun v => |net.gain (t.arc v) v|) sites x
    rw [hneg] at this
    simpa only [← sub_eq_add_neg] using this
  simp only [cycleCost, Scalar.abs_eq, foldl_tally, hup, realSites, List.filter_append,
    List.map_append, List.sum_append, add_assoc]

theorem cycleCost_sum (h : t.WellFormed net) (hc : c.Closes net t a apex) :
    (cycleCost net t a c).sum = reducedCost net t a := by
  have htail := hc.tailClimb.relative_eq h
  have hhead := hc.headClimb.relative_eq h
  rw [cycleCost_eq, reducedCost, htail, hhead]
  ring

theorem reducedCost_eq_sum (h : t.WellFormed net) (hc : c.Closes net t a apex) :
    reducedCost net t a = net.cost a + (c.tailSide.map fun v => net.gain (t.arc v) v).sum -
      (c.headSide.map fun v => net.gain (t.arc v) v).sum := by
  rw [reducedCost_eq, hc.tailClimb.potential_eq h, hc.headClimb.potential_eq h]
  ring

theorem cycleCost_size_nonneg (net : Network n m ℚ) (t : SpanningTree n m ℚ) (a : Arc n m)
    (c : Cycle n m) : 0 ≤ (cycleCost net t a c).size := by
  rw [cycleCost_eq]
  refine add_nonneg (abs_nonneg _) (List.sum_nonneg fun x hx => ?_)
  obtain ⟨v, -, rfl⟩ := List.mem_map.mp hx
  exact abs_nonneg _

theorem abs_gain (net : Network n m ℚ) (a : Arc n m) (v : Site n m) :
    |net.gain a v| = |net.cost a| := by
  rw [Network.gain]
  split
  · exact abs_neg _
  · rfl

theorem abs_sum_gain_le (net : Network n m ℚ) (t : SpanningTree n m ℚ) (sites : List (Site n m)) :
    |(sites.map fun v => net.gain (t.arc v) v).sum| ≤
      (sites.map fun v => |net.gain (t.arc v) v|).sum := by
  have hle := List.le_sum_of_subadditive (fun x : ℚ => |x|) abs_zero.le abs_add_le
    (sites.map fun v => net.gain (t.arc v) v)
  rwa [List.map_map] at hle

theorem sum_abs_gain_le {bound : ℚ} (hb : ∀ i j, |net.cost (.real i j)| ≤ bound)
    (t : SpanningTree n m ℚ) (sites : List (Site n m)) :
    ((t.realSites sites).map fun v => |net.gain (t.arc v) v|).sum ≤
      ((t.realSites sites).length : ℚ) * bound := by
  have hle : ∀ x ∈ (t.realSites sites).map (fun v => |net.gain (t.arc v) v|), x ≤ bound := by
    intro x hx
    obtain ⟨v, hv, rfl⟩ := List.mem_map.mp hx
    have hreal := (List.mem_filter.mp hv).2
    rw [abs_gain]
    cases ha : t.arc v with
    | real i j => exact hb i j
    | artificial w => rw [ha] at hreal; cases hreal
  have hsum := List.sum_le_card_nsmul _ _ hle
  rwa [List.length_map, nsmul_eq_mul] at hsum

theorem length_realSites_lt (h : t.WellFormed net) {i : Fin n} {j : Fin m}
    (hc : c.Closes net t (.real i j) apex) :
    (t.realSites (c.tailSide ++ c.headSide)).length < n + m := by
  have hr := h.ranked
  have hnodup : (t.realSites (c.tailSide ++ c.headSide)).Nodup :=
    (List.nodup_append'.mpr ⟨hc.tailClimb.nodup hr, hc.headClimb.nodup hr, hc.disjoint⟩).filter _
  -- the apex, or if that is the root the topmost site on the way to the tail
  obtain ⟨w, hw⟩ : ∃ w, w ∉ t.realSites (c.tailSide ++ c.headSide) := by
    cases apex with
    | some w =>
      refine ⟨w, fun hm => ?_⟩
      rcases List.mem_append.mp (List.mem_of_mem_filter hm) with hm | hm
      · exact lt_irrefl _ (hc.tailClimb.rank_mem hr hm).1
      · exact lt_irrefl _ (hc.headClimb.rank_mem hr hm).1
    | none =>
      obtain ⟨w, -, hp⟩ := Climb.exists_top (v := .source i) hc.tailClimb
      refine ⟨w, fun hm => ?_⟩
      have := (List.mem_filter.mp hm).2
      rw [(h.joined w).artificial_iff.mpr hp] at this
      cases this
  simpa using (List.nodup_cons.mpr ⟨hw, hnodup⟩).length_le_card

theorem cycleCost_size_le (h : t.WellFormed net) {i : Fin n} {j : Fin m}
    (hc : c.Closes net t (.real i j) apex) {bound : ℚ}
    (hb : ∀ i j, |net.cost (.real i j)| ≤ bound) :
    (cycleCost net t (.real i j) c).size ≤ ((n + m : Nat) : ℚ) * bound := by
  have hlen := length_realSites_lt h hc
  have hsum := sum_abs_gain_le hb t (c.tailSide ++ c.headSide)
  have hb0 : 0 ≤ bound := (abs_nonneg _).trans (hb i j)
  have hlen' : (((t.realSites (c.tailSide ++ c.headSide)).length : ℚ) + 1) ≤
      ((n + m : Nat) : ℚ) := by
    exact_mod_cast hlen
  rw [cycleCost_eq]
  calc |net.cost (.real i j)| + _ ≤ bound + _ * bound := add_le_add (hb i j) hsum
    _ = (_ + 1) * bound := by ring
    _ ≤ ((n + m : Nat) : ℚ) * bound := mul_le_mul_of_nonneg_right hlen' hb0

theorem abs_reducedCost_sub_offset_le (h : t.WellFormed net) (hc : c.Closes net t a apex) :
    |reducedCost net t a - ((t.label (net.tail a)).offset - (t.label (net.head a)).offset)| ≤
      (cycleCost net t a c).size := by
  rw [← cycleCost_sum h hc, cycleCost_eq]
  obtain ⟨htail, htail'⟩ := abs_le.mp (abs_sum_gain_le net t (t.realSites c.tailSide))
  obtain ⟨hhead, hhead'⟩ := abs_le.mp (abs_sum_gain_le net t (t.realSites c.headSide))
  obtain ⟨hcost, hcost'⟩ := abs_le.mp (le_refl |net.cost a|)
  simp only [realSites, List.filter_append, List.map_append, List.sum_append]
    at htail htail' hhead hhead' ⊢
  apply abs_le.mpr
  constructor
  · linarith
  · linarith

end Pricing

end OptimalTransport
