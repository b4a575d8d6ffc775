import OptimalTransport.Proofs.Flow.Marginals
import OptimalTransport.Proofs.Simplex.Optimality
import OptimalTransport.Proofs.Simplex.Unbounded
/-!
What is left on the artificial arcs when supply and demand are magnitudes. In a settled basis no
artificial arc carries more than the imbalance, since otherwise some subtree has supply to spare,
another one lacks it, and a route between the two is cheap.
-/

namespace OptimalTransport

variable {n m : Nat} {net : Network n m ℚ}

theorem Site.eq_source_or_target (v : Site n m) : (∃ i, v = .source i) ∨ ∃ j, v = .target j := by
  induction v using Fin.addCases with
  | left i => exact .inl ⟨i, rfl⟩
  | right j => exact .inr ⟨j, rfl⟩

namespace Network

structure Oriented (net : Network n m ℚ) : Prop where
  source : ∀ i, 0 ≤ net.excess (.source i)
  target : ∀ j, net.excess (.target j) ≤ 0

theorem Oriented.exists_source (h : net.Oriented) {v : Site n m} (hv : 0 < net.excess v) :
    ∃ i, v = .source i := by
  rcases v.eq_source_or_target with hs | ⟨j, rfl⟩
  · exact hs
  · exact absurd (h.target j) (not_le.mpr hv)

theorem Oriented.exists_target (h : net.Oriented) {v : Site n m} (hv : net.excess v < 0) :
    ∃ j, v = .target j := by
  rcases v.eq_source_or_target with ⟨i, rfl⟩ | ht
  · exact absurd (h.source i) (not_le.mpr hv)
  · exact ht

end Network

namespace SpanningTree

variable {t : SpanningTree n m ℚ} {w : Site n m}

theorem Below.offset_eq {u : Node n m} (hb : t.Below u (some w)) (h : t.WellFormed net)
    (hw : t.parent w = none) : (t.label u).offset = net.gain (t.arc w) w := by
  obtain ⟨sites, hs⟩ := hb
  induction hs with
  | here => rw [h.offset_eq, if_pos hw]
  | @up v sites away rest ih =>
    have hp : t.parent v ≠ none := by
      intro hp
      rw [hp] at rest
      cases rest
    rw [h.offset_eq, if_neg hp, ih]

theorem Below.offset_up {u : Node n m} (hb : t.Below u (some w)) (h : t.WellFormed net)
    (hw : t.parent w = none) (hd : t.direction net w = .up) :
    (t.label u).offset = -net.penalty := by
  have hj := h.joined w
  rw [hw] at hj
  rw [hb.offset_eq h hw, Network.gain_up hd, hj.eq_artificial]
  rfl

theorem Below.offset_down {u : Node n m} (hb : t.Below u (some w)) (h : t.WellFormed net)
    (hw : t.parent w = none) (hd : t.direction net w = .down) :
    (t.label u).offset = net.penalty := by
  have hj := h.joined w
  rw [hw] at hj
  rw [hb.offset_eq h hw, Network.gain_down hd, hj.eq_artificial]
  rfl

theorem Below.source_target_joined {i : Fin n} {j : Fin m} {v : Site n m} (h : t.WellFormed net)
    (hv : t.arc v = .real i j) (hw : t.parent w = none) :
    t.Below (some (.source i)) (some w) ↔ t.Below (some (.target j)) (some w) := by
  have hjoin := hv ▸ h.joined v
  have hvw : v ≠ w := by
    rintro rfl
    have := hjoin.artificial_iff.mpr hw
    cases this
  have hsame := iff_parent (t := t) hvw
  rcases hjoin.ends (net.joins_real i j) with ⟨rfl, hp⟩ | ⟨hp, htarget⟩
  · rw [hsame, hp]
  · rw [← hp, Option.some.inj htarget]
    exact hsame.symm

end SpanningTree

namespace Simplex.Basis

variable {b : Basis n m ℚ} {v w : Site n m}

open scoped Classical in
theorem Feasible.sum_below (h : b.Feasible net) (w : Site n m) :
    ∑ v, (if b.tree.Below (some v) (some w) then net.excess v else 0) =
      b.load w * (b.tree.direction net w).sign := by
  have hwf := h.sound.wellFormed
  let p (u : Node n m) : ℚ := if b.tree.Below u (some w) then 1 else 0
  have hself : p (some w) = 1 := if_pos (.refl _)
  have hparent : p (b.tree.parent w) = 0 := if_neg (SpanningTree.Below.not_parent hwf.ranked)
  have hroot : p none = 0 := by
    apply if_neg
    intro hb
    have := hb.rank_le hwf.ranked
    rw [hwf.ranked.root, hwf.ranked.link w] at this
    omega
  have hsame : ∀ v, v ≠ w → p (some v) = p (b.tree.parent v) := by
    intro v hvw
    simp only [p, SpanningTree.Below.iff_parent hvw]
  have hleft : ∑ v, (if b.tree.Below (some v) (some w) then net.excess v else 0) =
      ∑ v, p (some v) * net.excess v :=
    Finset.sum_congr rfl fun v _ => by simp only [p, ite_mul, one_mul, zero_mul]
  rw [hleft, ← h.balanced p hroot, Finset.sum_eq_single (b.tree.arc w)]
  · rw [load]
    cases hd : b.tree.direction net w with
    | up =>
      obtain ⟨ht, hh⟩ := (hwf.joined w).up hd
      rw [ht, hh, hself, hparent, Direction.sign]
      ring
    | down =>
      obtain ⟨ht, hh⟩ := (hwf.joined w).down hd
      rw [ht, hh, hself, hparent, Direction.sign]
      ring
  · intro a _ ha
    cases hbasic : b.basic.get a with
    | false => rw [h.idle a hbasic, zero_mul]
    | true =>
      obtain ⟨v, rfl⟩ := (h.sound.basic_iff a).mp hbasic
      have hv := hsame v fun he => ha (he ▸ rfl)
      rcases hwf.joined v with ⟨ht, hh⟩ | ⟨ht, hh⟩
      · rw [ht, hh, hv]; ring
      · rw [ht, hh, hv]; ring
  · simp

theorem Feasible.exists_below (h : b.Feasible net) (hw : 0 < b.load w) :
    ∃ v, b.tree.Below (some v) (some w) ∧ 0 < net.excess v * (b.tree.direction net w).sign := by
  by_contra hnone
  push Not at hnone
  have hsquare : (b.tree.direction net w).sign * (b.tree.direction net w).sign = 1 := by
    cases b.tree.direction net w with
    | up => exact one_mul 1
    | down => exact (neg_mul_neg 1 1).trans (one_mul 1)
  have hload : (b.load w * (b.tree.direction net w).sign) * (b.tree.direction net w).sign ≤ 0 := by
    rw [← h.sum_below w, Finset.sum_mul]
    apply Finset.sum_nonpos
    intro v _
    split
    · next hv => exact hnone v hv
    · rw [zero_mul]
  rw [mul_assoc, hsquare, mul_one] at hload
  linarith

theorem Feasible.exists_source_below (h : b.Feasible net) (ho : net.Oriented) (hw : 0 < b.load w)
    (hd : b.tree.direction net w = .up) : ∃ i, b.tree.Below (some (.source i)) (some w) := by
  obtain ⟨v, hv, hpos⟩ := h.exists_below hw
  rw [hd, Direction.sign, mul_one] at hpos
  obtain ⟨i, rfl⟩ := ho.exists_source hpos
  exact ⟨i, hv⟩

theorem Feasible.exists_target_below (h : b.Feasible net) (ho : net.Oriented) (hw : 0 < b.load w)
    (hd : b.tree.direction net w = .down) : ∃ j, b.tree.Below (some (.target j)) (some w) := by
  obtain ⟨v, hv, hpos⟩ := h.exists_below hw
  rw [hd, Direction.sign, mul_neg_one] at hpos
  obtain ⟨j, rfl⟩ := ho.exists_target (neg_pos.mp hpos)
  exact ⟨j, hv⟩

/-- Costs are small against the penalty: a route between two children of the root saves more than
rounding can hide. -/
structure Outweighed (net : Network n m ℚ) (bound : ℚ) : Prop where
  cost_le : ∀ i j, |net.cost (.real i j)| ≤ bound
  lt_penalty : (1 + Pricing.epsilon) * (((n + m : Nat) : ℚ) * bound) < 2 * net.penalty

theorem Sound.nonbasic_of_apart (h : b.Sound net) (hpv : b.tree.parent v = none)
    (hpw : b.tree.parent w = none) (hvw : v ≠ w) {i : Fin n} {j : Fin m}
    (hi : b.tree.Below (some (.source i)) (some v))
    (hj : b.tree.Below (some (.target j)) (some w)) : b.basic.get (.real i j) = false := by
  apply Bool.eq_false_iff.mpr
  intro hb
  obtain ⟨u, hu⟩ := (h.basic_iff _).mp hb
  have hjv := (SpanningTree.Below.source_target_joined h.wellFormed hu hpv).mp hi
  exact hvw (h.wellFormed.ranked.eq_of_siblings (hpv.trans hpw.symm) hjv hj)

structure Stranded (net : Network n m ℚ) (b : Basis n m ℚ) (d : Direction) (v : Site n m) :
    Prop where
  arc : b.tree.arc v = .artificial v
  parent : b.tree.parent v = none
  direction : b.tree.direction net v = d
  load_pos : 0 < b.load v

theorem Stranded.ne (hv : b.Stranded net .up v) (hw : b.Stranded net .down w) : v ≠ w := by
  rintro rfl
  exact absurd (hv.direction.symm.trans hw.direction) (by simp)

theorem Feasible.exists_cheap (h : b.Feasible net) (ho : net.Oriented) {bound : ℚ}
    (hout : Outweighed net bound) (hv : b.Stranded net .up v) (hw : b.Stranded net .down w) :
    ∃ r, b.Cheap net r := by
  have hwf := h.sound.wellFormed
  obtain ⟨i, hi⟩ := h.exists_source_below ho hv.load_pos hv.direction
  obtain ⟨j, hj⟩ := h.exists_target_below ho hw.load_pos hw.direction
  have hnonbasic := h.sound.nonbasic_of_apart hv.parent hw.parent (hv.ne hw) hi hj
  have htail := hi.offset_up hwf hv.parent hv.direction
  have hhead := hj.offset_down hwf hw.parent hw.direction
  obtain ⟨c, apex, hc, hcl⟩ := SpanningTree.cycle_ok hwf.ranked net (.real i j)
  have hsize := Pricing.cycleCost_size_le hwf hcl hout.cost_le
  have hreduced := le_of_abs_le (Pricing.abs_reducedCost_sub_offset_le hwf hcl)
  change _ - ((b.tree.label (some (.source i))).offset -
    (b.tree.label (some (.target j))).offset) ≤ _ at hreduced
  rw [htail, hhead] at hreduced
  refine ⟨(i, j), (h.sound.cheap_iff (r := (i, j)) hc).mpr ⟨hnonbasic, ?_⟩⟩
  have hone : (0 : ℚ) ≤ 1 + Pricing.epsilon := by linarith [Pricing.epsilon_pos]
  have hscale := mul_le_mul_of_nonneg_left hsize hone
  have := hout.lt_penalty
  change Pricing.reducedCost net b.tree (.real i j) <
    -(Pricing.epsilon * (Pricing.cycleCost net b.tree (.real i j) c).size)
  linarith

theorem Feasible.arc_of_artificial (h : b.Feasible net) (hv : 0 < b.flow.get (.artificial v)) :
    b.tree.arc v = .artificial v ∧ b.tree.parent v = none := by
  have hbasic : b.basic.get (.artificial v) = true := by
    refine Bool.not_eq_false _ ▸ fun hb => ?_
    exact hv.ne' (h.idle _ hb)
  obtain ⟨w, hw⟩ := (h.sound.basic_iff _).mp hbasic
  rcases (hw ▸ h.sound.wellFormed.joined w).ends (net.joins_artificial v) with ⟨rfl, hp⟩ | ⟨-, hq⟩
  · exact ⟨hw, hp⟩
  · cases hq

theorem Feasible.stranded (h : b.Feasible net) (hv : 0 < b.flow.get (.artificial v)) :
    b.Stranded net (net.direction (.artificial v) v) v := by
  obtain ⟨harc, hp⟩ := h.arc_of_artificial hv
  exact ⟨harc, hp, by rw [SpanningTree.direction, harc], by rwa [load, harc]⟩

theorem Feasible.artificial_le (h : b.Feasible net)
    (hsides : ∀ v w, b.Stranded net .up v → ¬ b.Stranded net .down w) (v : Site n m) :
    b.flow.get (.artificial v) ≤ |net.imbalance| := by
  obtain ⟨d, hd⟩ : ∃ d, ∀ v, 0 < b.flow.get (.artificial v) →
      net.direction (.artificial v) v = d := by
    by_cases hup : ∀ v, 0 < b.flow.get (.artificial v) → net.direction (.artificial v) v = .up
    · exact ⟨.up, hup⟩
    push Not at hup
    obtain ⟨w, hw, hdw⟩ := hup
    refine ⟨.down, fun v hv => ?_⟩
    have hv' := h.stranded hv
    have hw' := h.stranded hw
    cases hdv : net.direction (.artificial v) v with
    | down => rfl
    | up =>
      cases hdw' : net.direction (.artificial w) w with
      | up => exact absurd hdw' hdw
      | down => exact absurd (hdw' ▸ hw') (hsides v w (hdv ▸ hv'))
  have hterm : ∀ w, b.flow.get (.artificial w) * net.bias w =
      b.flow.get (.artificial w) * d.sign := by
    intro w
    rcases (h.nonneg (.artificial w)).eq_or_lt with hzero | hpos
    · rw [← hzero, zero_mul, zero_mul]
    · rw [Network.bias, hd w hpos]
  have hsum := h.balanced.sum_bias
  simp only [hterm, ← Finset.sum_mul] at hsum
  have hsingle : b.flow.get (.artificial v) ≤ ∑ w, b.flow.get (.artificial w) :=
    Finset.single_le_sum (fun w _ => h.nonneg (.artificial w)) (Finset.mem_univ v)
  rw [← hsum, abs_mul]
  have habs : |d.sign| = 1 := by cases d <;> simp [Direction.sign]
  rw [habs, mul_one]
  exact hsingle.trans (le_abs_self _)

theorem Feasible.stranded_le (h : b.Feasible net) (ho : net.Oriented) {bound : ℚ}
    (hout : Outweighed net bound) (hcheap : ∀ r, ¬ b.Cheap net r) (v : Site n m) :
    b.flow.get (.artificial v) ≤ |net.imbalance| := by
  refine h.artificial_le (fun v w hv hw => ?_) v
  obtain ⟨r, hr⟩ := h.exists_cheap ho hout hv hw
  exact hcheap r hr

end Simplex.Basis

end OptimalTransport
