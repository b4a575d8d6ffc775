import Mathlib
import OptimalTransport.Pricing
import OptimalTransport.Proofs.Exact
import OptimalTransport.Proofs.Tree.WellFormed

namespace OptimalTransport

variable {n m : Nat} {net : Network n m ℚ} {t : SpanningTree n m ℚ}

namespace SpanningTree

def potential (t : SpanningTree n m ℚ) (u : Node n m) : ℚ :=
  (t.label u).potential

@[simp]
theorem potential_root : t.potential none = 0 := by
  change (0 : ℚ) + 0 = 0
  rw [add_zero]

def Fits (net : Network n m ℚ) (t : SpanningTree n m ℚ) (p : Node n m → ℚ) : Prop :=
  ∀ v, p (net.head (t.arc v)) = p (net.tail (t.arc v)) + net.cost (t.arc v)

theorem fits_iff (hj : ∀ v, net.Joins (t.arc v) v (t.parent v)) {p : Node n m → ℚ} :
    t.Fits net p ↔ ∀ v, p (some v) = p (t.parent v) + net.gain (t.arc v) v := by
  apply forall_congr'
  intro v
  cases hd : net.direction (t.arc v) v with
  | up =>
    obtain ⟨ht, hh⟩ := (hj v).up hd
    rw [ht, hh, Network.gain_up hd]
    exact ⟨fun h => by rw [h]; ring, fun h => by rw [h]; ring⟩
  | down =>
    obtain ⟨ht, hh⟩ := (hj v).down hd
    rw [ht, hh, Network.gain_down hd]

namespace WellFormed

theorem potential_eq (h : t.WellFormed net) (v : Site n m) :
    t.potential (some v) = t.potential (t.parent v) + net.gain (t.arc v) v := by
  rw [potential, h.labelled v, freshLabel]
  split
  · next hp =>
    rw [hp, potential_root, zero_add]
    exact add_zero _
  · next p hp =>
    rw [hp, potential]
    simp only [Label.next, Label.potential]
    ring

theorem fits (h : t.WellFormed net) : t.Fits net t.potential :=
  (fits_iff h.joined).mpr h.potential_eq

theorem eq_potential (h : t.WellFormed net) {p : Node n m → ℚ} (h0 : p none = 0)
    (hp : t.Fits net p) (u : Node n m) : p u = t.potential u := by
  obtain ⟨sites, hs⟩ := h.ranked.rooted u
  induction hs with
  | here => rw [h0, potential_root]
  | @up v sites away rest ih => rw [(fits_iff h.joined).mp hp v, h.potential_eq v, ih]

theorem relative_eq (h : t.WellFormed net) (v : Site n m) :
    (t.label (some v)).relative = (t.label (t.parent v)).relative +
      if (t.arc v).isArtificial then 0 else net.gain (t.arc v) v := by
  have hart := (h.joined v).artificial_iff
  rw [h.labelled v, freshLabel]
  split
  · next hp =>
    rw [if_pos (hart.mpr hp), hp]
    exact (add_zero _).symm
  · next p hp =>
    have ha : ¬ (t.arc v).isArtificial = true := by simp [hart, hp]
    rw [if_neg ha, hp]
    rfl

theorem offset_eq (h : t.WellFormed net) (v : Site n m) :
    (t.label (some v)).offset =
      if t.parent v = none then net.gain (t.arc v) v else (t.label (t.parent v)).offset := by
  rw [h.labelled v, freshLabel]
  split
  · next hp => rw [if_pos hp]; rfl
  · next p hp => rw [hp, if_neg (by simp)]; rfl

end WellFormed

end SpanningTree

namespace Pricing

theorem reducedCost_eq (net : Network n m ℚ) (t : SpanningTree n m ℚ) (a : Arc n m) :
    reducedCost net t a =
      net.cost a + t.potential (net.tail a) - t.potential (net.head a) := by
  simp only [reducedCost, SpanningTree.potential, Label.potential]
  ring

theorem reducedCost_arc (h : t.WellFormed net) (v : Site n m) :
    reducedCost net t (t.arc v) = 0 := by
  rw [reducedCost_eq, h.fits v]
  ring

theorem epsilon_pos : (0 : ℚ) < epsilon := by
  norm_num [epsilon]

theorem tolerance_nonneg (net : Network n m ℚ) (t : SpanningTree n m ℚ) (a : Arc n m) :
    0 ≤ tolerance net t a := by
  apply mul_nonneg epsilon_pos.le
  rw [Scalar.max_eq, Scalar.max_eq]
  exact ((abs_nonneg _).trans (le_max_left _ _)).trans (le_max_left _ _)

end Pricing

end OptimalTransport
