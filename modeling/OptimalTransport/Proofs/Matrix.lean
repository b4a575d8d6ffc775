import Mathlib
import OptimalTransport.Matrix
import OptimalTransport.Network.Arc
import OptimalTransport.Proofs.Exact
import OptimalTransport.Proofs.Fault

namespace OptimalTransport.Matrix

section Entries

variable {α : Type} [Scalar α] {a : Matrix α} {i j : Nat}

theorem offset_inj {k i i' j j' : Nat} (hj : j < k) (hj' : j' < k) :
    i * k + j = i' * k + j' ↔ i = i' ∧ j = j' := by
  constructor
  · intro h
    have hrow := congrArg (· / k) h
    have hk : 0 < k := by omega
    simp only [Nat.mul_comm _ k, Nat.mul_add_div hk, Nat.div_eq_of_lt hj, Nat.div_eq_of_lt hj',
      Nat.add_zero] at hrow
    subst hrow
    exact ⟨rfl, by omega⟩
  · rintro ⟨rfl, rfl⟩
    rfl

theorem offset_lt {n m : Nat} (hi : i < n) (hj : j < m) : i * m + j < n * m :=
  Route.index_lt (n := n) (m := m) (⟨i, hi⟩, ⟨j, hj⟩)

theorem Full.zeros (n m : Nat) : (zeros n m : Matrix α).Full :=
  Array.size_replicate ..

theorem entry_zeros (n m i j : Nat) : (zeros n m : Matrix α).entry i j = 0 := by
  rw [entry, get?, Matrix.zeros, Array.getElem?_replicate]
  split <;> rfl

theorem increment_ok (h : a.Full) (hi : i < a.rows) (hj : j < a.cols) (x : α) :
    ∃ a', a.increment i j x = .ok a' ∧ a'.shape = a.shape ∧ a'.Full ∧
      ∀ i' j', j' < a.cols →
        a'.entry i' j' = if i = i' ∧ j = j' then a.entry i j + x else a.entry i' j' := by
  have hk : i * a.cols + j < a.data.size := by
    rw [h]
    exact offset_lt hi hj
  refine ⟨_, if_pos hk, rfl, (Array.size_modify).trans h, fun i' j' hj' => ?_⟩
  rw [entry, get?, Array.getElem?_modify]
  dsimp only
  by_cases heq : i = i' ∧ j = j'
  · obtain ⟨rfl, rfl⟩ := heq
    rw [if_pos rfl, if_pos ⟨rfl, rfl⟩, entry, get?, Array.getElem?_eq_getElem hk]
    rfl
  · rw [if_neg (mt (offset_inj hj hj').mp heq), if_neg heq]
    rfl

theorem exists_entry (h : a.Full) {k : Nat} (hk : k < a.data.size) :
    ∃ i < a.rows, ∃ j < a.cols, i * a.cols + j = k ∧ a.entry i j = a.data[k] := by
  obtain ⟨r, -, hr⟩ := Route.exists_ofIndex? (n := a.rows) (m := a.cols) (h ▸ hk)
  change r.1.val * a.cols + r.2.val = k at hr
  refine ⟨r.1, r.1.isLt, r.2, r.2.isLt, hr, ?_⟩
  rw [entry, get?, hr, Array.getElem?_eq_getElem hk, Option.getD_some]

theorem forall_mem_data (h : a.Full) {P : α → Prop}
    (hP : ∀ i < a.rows, ∀ j < a.cols, P (a.entry i j)) : ∀ x ∈ a.data, P x := by
  intro x hx
  obtain ⟨k, hk, rfl⟩ := Array.mem_iff_getElem.mp hx
  obtain ⟨i, hi, j, hj, -, hentry⟩ := exists_entry h hk
  exact hentry ▸ hP i hi j hj

theorem eq_of_entry {c : Matrix α} (ha : a.Full) (hc : c.Full) (hshape : a.shape = c.shape)
    (h : ∀ i < a.rows, ∀ j < a.cols, a.entry i j = c.entry i j) : a = c := by
  obtain ⟨rows, cols, data⟩ := a
  obtain ⟨rows', cols', data'⟩ := c
  obtain ⟨rfl, rfl⟩ := Prod.mk.inj hshape
  congr 1
  apply Array.ext
  · exact ha.trans hc.symm
  intro k hk hk'
  obtain ⟨i, hi, j, hj, hindex, hentry⟩ := exists_entry ha hk
  have hentry' := h i hi j hj
  rw [hentry, entry, get?] at hentry'
  dsimp only at hindex hentry'
  rwa [hindex, Array.getElem?_eq_getElem hk'] at hentry'

omit [Scalar α] in
theorem toRows_ok (h : a.Full) : a.toRows = .ok ((List.range a.rows).map a.slice) := by
  rw [toRows, requireRows, if_pos (.inr h.ge)]
  rfl

theorem slice_eq (h : a.Full) {i : Nat} (hi : i < a.rows) :
    a.slice i = List.ofFn fun j : Fin a.cols => a.entry i j := by
  have hle : (i + 1) * a.cols ≤ a.data.size := h ▸ Nat.mul_le_mul_right _ hi
  have hlen : (a.slice i).length = a.cols := by
    rw [slice, Array.length_toList, Array.size_extract, Nat.min_eq_left hle, Nat.succ_mul,
      Nat.add_sub_cancel_left]
  apply List.ext_getElem
  · rw [hlen, List.length_ofFn]
  intro j hj hj'
  rw [List.getElem_ofFn, entry, get?]
  have hk : i * a.cols + j < a.data.size := by
    rw [h]
    exact offset_lt hi (hlen ▸ hj)
  rw [Array.getElem?_eq_getElem hk]
  simp [slice]

end Entries

variable {a c : Matrix ℚ} {n m : Nat}

def family (a : Matrix ℚ) (h : a.Full) : Family (a.rows * a.cols) ℚ :=
  ⟨⟨a.data, h⟩⟩

theorem get_family (h : a.Full) (k : Fin (a.rows * a.cols)) :
    (a.family h).get k = a.data[k.val]?.getD 0 := by
  have hk : k.val < a.data.size := by
    rw [h]
    exact k.isLt
  rw [Array.getElem?_eq_getElem hk]
  rfl

theorem sum_product (f : Nat → ℚ) :
    ∑ k : Fin (n * m), f k = ∑ i : Fin n, ∑ j : Fin m, f (i * m + j) := by
  rw [← finProdFinEquiv.sum_comp, Fintype.sum_prod_type]
  simp only [finProdFinEquiv_apply_val, Nat.add_comm, Nat.mul_comm]

theorem sum_eq (h : a.Full) : a.sum = ∑ i : Fin a.rows, ∑ j : Fin a.cols, a.entry i j := by
  have hsum := Family.sum_toList (a.family h)
  simp only [get_family] at hsum
  exact hsum.trans (sum_product fun k => a.data[k]?.getD 0)

theorem rowSums_ok (h : a.Full) :
    a.rowSums = .ok (List.ofFn fun i : Fin a.rows => ∑ j : Fin a.cols, a.entry i j) := by
  rw [rowSums, toRows_ok h, Fault.ok_bind, Fault.pure_eq_ok, List.map_map]
  congr 1
  apply List.ext_getElem
  · simp
  intro i hi hi'
  have hlt : i < a.rows := by simpa using hi
  simp [slice_eq h hlt, List.sum_ofFn]

theorem colSums_ok (h : a.Full) :
    a.colSums = .ok (List.ofFn fun j : Fin a.cols => ∑ i : Fin a.rows, a.entry i j) := by
  rw [colSums, requireRows, if_pos (.inr h.ge), Fault.ok_bind, Fault.pure_eq_ok]
  congr 1
  apply List.ext_getElem
  · simp
  intro j hj hj'
  have hsum := Scalar.foldl_add ((List.range a.rows).map fun i => a.entry i j) 0
  rw [List.foldl_map, zero_add] at hsum
  rw [List.getElem_map, List.getElem_range, List.getElem_ofFn, hsum,
    ← List.map_coe_finRange_eq_range, List.map_map, Fin.sum_univ_def]
  rfl

theorem dot_ok (ha : a.Full) (hc : c.Full) (hshape : a.shape = c.shape) :
    a.dot c = .ok (∑ i : Fin a.rows, ∑ j : Fin a.cols, a.entry i j * c.entry i j) := by
  rw [dot, if_pos hshape]
  obtain ⟨rows, cols, data⟩ := c
  obtain ⟨hrows, hcols⟩ := Prod.mk.inj hshape
  obtain rfl : a.rows = rows := hrows
  obtain rfl : a.cols = cols := hcols
  let c : Matrix ℚ := ⟨a.rows, a.cols, data⟩
  have hsum := Family.sum_zipWith_mul (a.family ha) (c.family hc)
  simp only [get_family] at hsum
  exact congrArg _ (hsum.trans (sum_product fun k => a.data[k]?.getD 0 * data[k]?.getD 0))

end OptimalTransport.Matrix
