import Mathlib
import OptimalTransport.Engine
import OptimalTransport.Proofs.Matrix
import OptimalTransport.Proofs.Simplex.Solve

namespace OptimalTransport

namespace Shipment

def onRoute (xs : List (Shipment ℚ)) (i j : Nat) : ℚ :=
  (xs.map fun x => if x.source = i ∧ x.target = j then x.mass else 0).sum

def Within (n m : Nat) (xs : List (Shipment ℚ)) : Prop :=
  ∀ x ∈ xs, x.source < n ∧ x.target < m

variable {n m : Nat} {xs : List (Shipment ℚ)}

theorem onRoute_cons (x : Shipment ℚ) (xs : List (Shipment ℚ)) (i j : Nat) :
    onRoute (x :: xs) i j =
      (if x.source = i ∧ x.target = j then x.mass else 0) + onRoute xs i j := by
  rw [onRoute, List.map_cons, List.sum_cons]
  rfl

theorem onRoute_nonneg (h : ∀ x ∈ xs, 0 ≤ x.mass) (i j : Nat) : 0 ≤ onRoute xs i j := by
  apply List.sum_nonneg
  intro y hy
  obtain ⟨x, hx, rfl⟩ := List.mem_map.mp hy
  split
  · exact h x hx
  · exact le_refl 0

theorem sum_onRoute (h : Within n m xs) (w : Nat → Nat → ℚ) :
    ∑ i : Fin n, ∑ j : Fin m, onRoute xs i j * w i j =
      (xs.map fun x => x.mass * w x.source x.target).sum := by
  induction xs with
  | nil => simp [onRoute]
  | cons x xs ih =>
    obtain ⟨⟨hi, hj⟩, hrest⟩ := List.forall_mem_cons.mp h
    have hone : ∑ i : Fin n, ∑ j : Fin m,
        (if x.source = i ∧ x.target = j then x.mass else 0) * w i j =
          x.mass * w x.source x.target := by
      rw [Finset.sum_eq_single ⟨x.source, hi⟩, Finset.sum_eq_single ⟨x.target, hj⟩]
      · simp
      · intro j _ hne
        rw [if_neg fun heq => hne (Fin.ext heq.2.symm), zero_mul]
      · simp
      · intro i _ hne
        refine Finset.sum_eq_zero fun j _ => ?_
        rw [if_neg fun heq => hne (Fin.ext heq.1.symm), zero_mul]
      · simp
    simp only [onRoute_cons, add_mul, Finset.sum_add_distrib, hone, ih hrest, List.map_cons,
      List.sum_cons]

theorem sum_row (h : Within n m xs) (i : Fin n) : ∑ j : Fin m, onRoute xs i j = sent xs i := by
  have hrow := sum_onRoute h fun i' _ => if i' = i then 1 else 0
  simpa [sent, Fin.val_inj, Finset.sum_ite_irrel] using hrow

theorem sum_col (h : Within n m xs) (j : Fin m) : ∑ i : Fin n, onRoute xs i j = received xs j := by
  have hcol := sum_onRoute h fun _ j' => if j' = j then 1 else 0
  simpa [received, Fin.val_inj] using hcol

theorem sum_sent (h : Within n m xs) : ∑ i : Fin n, sent xs i = (xs.map mass).sum := by
  simp only [← sum_row h]
  simpa using sum_onRoute h fun _ _ => 1

end Shipment

namespace Plan

open Shipment

variable {n m : Nat} {xs : List (Shipment ℚ)}

theorem increments_ok {a : Matrix ℚ} (ha : a.Full) (h : Within a.rows a.cols xs) :
    ∃ a', xs.foldlM (fun a x => a.increment x.source x.target x.mass) a = .ok a' ∧
      a'.shape = a.shape ∧ a'.Full ∧
      ∀ i j, j < a.cols → a'.entry i j = a.entry i j + onRoute xs i j := by
  induction xs generalizing a with
  | nil => exact ⟨a, rfl, rfl, ha, fun i j _ => (add_zero _).symm⟩
  | cons x xs ih =>
    obtain ⟨⟨hi, hj⟩, hrest⟩ := List.forall_mem_cons.mp h
    obtain ⟨a₁, h₁, hshape, hfull, hentry⟩ := Matrix.increment_ok ha hi hj x.mass
    obtain ⟨hrows, hcols⟩ := Prod.mk.inj hshape
    obtain ⟨a₂, h₂, hshape', hfull', hentry'⟩ := ih hfull (hrows ▸ hcols ▸ hrest)
    refine ⟨a₂, ?_, hshape'.trans hshape, hfull', fun i j hj => ?_⟩
    · rw [List.foldlM_cons, h₁, Fault.ok_bind, h₂]
    · rw [hentry' i j (hcols ▸ hj), hentry i j hj, onRoute_cons, ← add_assoc]
      congr 1
      split
      · next heq => rw [heq.1, heq.2]
      · rw [add_zero]

structure Holds (p : Plan ℚ) (n m : Nat) (xs : List (Shipment ℚ)) : Prop where
  shape : p.matrix.shape = (n, m)
  full : p.matrix.Full
  entry : ∀ i j, j < m → p.matrix.entry i j = onRoute xs i j

theorem scatter_ok (h : Within n m xs) : ∃ p, scatter n m xs = .ok p ∧ p.Holds n m xs := by
  obtain ⟨a, ha, hshape, hfull, hentry⟩ := increments_ok (Matrix.Full.zeros n m) h
  refine ⟨⟨a⟩, by rw [scatter, ha]; rfl, hshape, hfull, fun i j hj => ?_⟩
  rw [hentry i j hj, Matrix.entry_zeros, zero_add]

namespace Holds

variable {p : Plan ℚ}

theorem nonneg (hp : p.Holds n m xs) (hmass : ∀ x ∈ xs, 0 ≤ x.mass) :
    ∀ y ∈ p.matrix.data, 0 ≤ y := by
  have hcols : p.matrix.cols = m := congrArg Prod.snd hp.shape
  refine Matrix.forall_mem_data hp.full fun i _ j hj => ?_
  rw [hp.entry i j (hcols ▸ hj)]
  exact onRoute_nonneg hmass i j

theorem sum_ok (hp : p.Holds n m xs) (h : Within n m xs) :
    p.matrix.sum = (xs.map Shipment.mass).sum := by
  obtain ⟨⟨rows, cols, data⟩⟩ := p
  obtain ⟨rfl, rfl⟩ := Prod.mk.inj hp.shape
  rw [Matrix.sum_eq hp.full, ← sum_sent h]
  refine Finset.sum_congr rfl fun i _ => ?_
  rw [← sum_row h i]
  exact Finset.sum_congr rfl fun j _ => hp.entry i j j.isLt

theorem rowSums_ok (hp : p.Holds n m xs) (h : Within n m xs) :
    p.matrix.rowSums = .ok (List.ofFn fun i : Fin n => sent xs i) := by
  obtain ⟨⟨rows, cols, data⟩⟩ := p
  obtain ⟨rfl, rfl⟩ := Prod.mk.inj hp.shape
  rw [Matrix.rowSums_ok hp.full]
  refine congrArg _ (congrArg List.ofFn (funext fun i => ?_))
  rw [← sum_row h i]
  exact Finset.sum_congr rfl fun j _ => hp.entry i j j.isLt

theorem colSums_ok (hp : p.Holds n m xs) (h : Within n m xs) :
    p.matrix.colSums = .ok (List.ofFn fun j : Fin m => received xs j) := by
  obtain ⟨⟨rows, cols, data⟩⟩ := p
  obtain ⟨rfl, rfl⟩ := Prod.mk.inj hp.shape
  rw [Matrix.colSums_ok hp.full]
  refine congrArg _ (congrArg List.ofFn (funext fun j => ?_))
  rw [← sum_col h j]
  exact Finset.sum_congr rfl fun i _ => hp.entry i j j.isLt

theorem cost_ok (hp : p.Holds n m xs) (h : Within n m xs) {costs : Matrix ℚ}
    (hshape : costs.shape = (n, m)) (hfull : costs.Full) :
    p.cost costs = .ok (totalCost costs xs) := by
  obtain ⟨⟨rows, cols, data⟩⟩ := p
  obtain ⟨rfl, rfl⟩ := Prod.mk.inj hp.shape
  rw [cost, Matrix.dot_ok hp.full hfull hshape.symm, totalCost, ← sum_onRoute h costs.entry]
  refine congrArg _ (Finset.sum_congr rfl fun i _ => Finset.sum_congr rfl fun j _ => ?_)
  rw [hp.entry i j j.isLt]

end Holds

end Plan

end OptimalTransport
