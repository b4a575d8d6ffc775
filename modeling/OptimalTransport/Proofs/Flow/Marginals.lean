import OptimalTransport.Proofs.Flow.Circulation

namespace OptimalTransport.Network

variable {n m : Nat} {net : Network n m ℚ}

def bias (net : Network n m ℚ) (v : Site n m) : ℚ :=
  (net.direction (.artificial v) v).sign

theorem drop_artificial (net : Network n m ℚ) (v : Site n m) {p : Node n m → ℚ} (hp : p none = 0) :
    p (net.tail (.artificial v)) - p (net.head (.artificial v)) = net.bias v * p (some v) := by
  rw [bias]
  cases hd : net.direction (.artificial v) v with
  | up =>
    obtain ⟨ht, hh⟩ := (net.joins_artificial v).up hd
    rw [ht, hh, hp, Direction.sign]
    ring
  | down =>
    obtain ⟨ht, hh⟩ := (net.joins_artificial v).down hd
    rw [ht, hh, hp, Direction.sign]
    ring

theorem abs_bias (net : Network n m ℚ) (v : Site n m) : |net.bias v| = 1 := by
  rw [bias]
  cases net.direction (.artificial v) v with
  | up => exact abs_one
  | down => exact (abs_neg 1).trans abs_one

namespace Balanced

variable {f : Arc n m → ℚ}

theorem sum_drop (h : net.Balanced f) {p : Node n m → ℚ} (hp : p none = 0) :
    (∑ i, ∑ j, f (.real i j) * (p (some (.source i)) - p (some (.target j)))) +
      ∑ v, f (.artificial v) * (net.bias v * p (some v)) = ∑ v, p (some v) * net.excess v := by
  have hb := h p hp
  rw [Arc.sum_eq] at hb
  simp only [net.drop_artificial _ hp] at hb
  exact hb

theorem sum_bias (h : net.Balanced f) : ∑ v, f (.artificial v) * net.bias v = net.imbalance := by
  let p : Node n m → ℚ := fun u => if u = none then 0 else 1
  have hb := h.sum_drop (p := p) rfl
  rw [imbalance, Scalar.sum_eq, ← Fin.sum_univ_def]
  simpa [p] using hb

theorem out_sub_in (h : net.Balanced f) (v : Site n m) :
    (∑ a with net.tail a = some v, f a) - ∑ a with net.head a = some v, f a = net.excess v := by
  let p : Node n m → ℚ := fun u => if u = some v then 1 else 0
  have hb := h p rfl
  simpa [p, mul_sub, Finset.sum_sub_distrib, Finset.sum_filter] using hb

theorem row (h : net.Balanced f) (i : Fin n) :
    ∑ j, f (.real i j) + f (.artificial (.source i)) * net.bias (.source i) =
      net.excess (.source i) := by
  let p : Node n m → ℚ := fun u => if u = some (.source i) then 1 else 0
  have hb := h.sum_drop (p := p) rfl
  have hne : ∀ j : Fin m, ¬ (Site.target j : Site n m) = .source i := fun j he =>
    source_ne_target i j he.symm
  have hinj : ∀ i' : Fin n, (Site.source i' : Site n m) = .source i ↔ i' = i := fun i' =>
    (Fin.castAdd_injective n m).eq_iff
  simpa [p, hne, hinj, Finset.sum_ite_irrel] using hb

theorem col (h : net.Balanced f) (j : Fin m) :
    -∑ i, f (.real i j) + f (.artificial (.target j)) * net.bias (.target j) =
      net.excess (.target j) := by
  let p : Node n m → ℚ := fun u => if u = some (.target j) then 1 else 0
  have hb := h.sum_drop (p := p) rfl
  have hne : ∀ i : Fin n, ¬ (Site.source i : Site n m) = .target j := fun i =>
    source_ne_target i j
  have hinj : ∀ j' : Fin m, (Site.target j' : Site n m) = .target j ↔ j' = j := fun j' =>
    (Fin.natAdd_injective m n).eq_iff
  simpa [p, hne, hinj] using hb

end Balanced

end OptimalTransport.Network
