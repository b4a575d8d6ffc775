import Mathlib
import OptimalTransport.Proofs.Ordered

namespace OptimalTransport

variable {α β γ : Type} [Scalar α] {P : β → Prop} {f : β → α} {xs ys : List β} {x w : β}

structure FirstLeast (P : β → Prop) (f : β → α) (xs : List β) (x : β) : Prop where
  holds : P x
  split : ∃ front back, xs = front ++ x :: back ∧ (∀ y ∈ front, P y → f x < f y) ∧
    ∀ y ∈ back, P y → f x ≤ f y

structure LastLeast (P : β → Prop) (f : β → α) (xs : List β) (x : β) : Prop where
  holds : P x
  split : ∃ front back, xs = front ++ x :: back ∧ (∀ y ∈ front, P y → f x ≤ f y) ∧
    ∀ y ∈ back, P y → f x < f y

theorem forall_mem_concat {Q : β → Prop} (h : ∀ y ∈ xs, Q y) (hw : Q w) : ∀ y ∈ xs ++ [w], Q y :=
  List.forall_mem_append.mpr ⟨h, List.forall_mem_singleton.mpr hw⟩

namespace FirstLeast

theorem mem (h : FirstLeast P f xs x) : x ∈ xs := by
  obtain ⟨front, back, rfl, -, -⟩ := h.split
  simp

theorem keep (h : FirstLeast P f xs x) (hw : P w → f x ≤ f w) : FirstLeast P f (xs ++ [w]) x := by
  obtain ⟨front, back, rfl, hfront, hback⟩ := h.split
  exact ⟨h.holds, front, back ++ [w], by simp, hfront, forall_mem_concat hback hw⟩

theorem concat (h : ∀ y ∈ xs, P y → f w < f y) (hw : P w) : FirstLeast P f (xs ++ [w]) w :=
  ⟨hw, xs, [], rfl, h, by simp⟩

theorem reverse (h : FirstLeast P f xs x) : LastLeast P f xs.reverse x := by
  obtain ⟨front, back, rfl, hfront, hback⟩ := h.split
  refine ⟨h.holds, back.reverse, front.reverse, by simp, fun y hy => ?_, fun y hy => ?_⟩
  · exact hback y (List.mem_reverse.mp hy)
  · exact hfront y (List.mem_reverse.mp hy)

end FirstLeast

namespace LastLeast

theorem mem (h : LastLeast P f xs x) : x ∈ xs := by
  obtain ⟨front, back, rfl, -, -⟩ := h.split
  simp

theorem keep (h : LastLeast P f xs x) (hw : P w → f x < f w) : LastLeast P f (xs ++ [w]) x := by
  obtain ⟨front, back, rfl, hfront, hback⟩ := h.split
  exact ⟨h.holds, front, back ++ [w], by simp, hfront, forall_mem_concat hback hw⟩

theorem concat (h : ∀ y ∈ xs, P y → f w ≤ f y) (hw : P w) : LastLeast P f (xs ++ [w]) w :=
  ⟨hw, xs, [], rfl, h, by simp⟩

theorem before (h : LastLeast P f xs x) (hys : ∀ y ∈ ys, P y → f x < f y) :
    LastLeast P f (xs ++ ys) x := by
  obtain ⟨front, back, rfl, hfront, hback⟩ := h.split
  exact ⟨h.holds, front, back ++ ys, by simp, hfront, List.forall_mem_append.mpr ⟨hback, hys⟩⟩

theorem after (h : LastLeast P f xs x) (hys : ∀ y ∈ ys, P y → f x ≤ f y) :
    LastLeast P f (ys ++ xs) x := by
  obtain ⟨front, back, rfl, hfront, hback⟩ := h.split
  exact ⟨h.holds, ys ++ front, back, by simp, List.forall_mem_append.mpr ⟨hys, hfront⟩, hback⟩

theorem map {Q : γ → Prop} {g : γ → α} {s : β → γ} (h : LastLeast P f xs x)
    (hP : ∀ y ∈ xs, Q (s y) ↔ P y) (hg : ∀ y, g (s y) = f y) : LastLeast Q g (xs.map s) (s x) := by
  obtain ⟨front, back, rfl, hfront, hback⟩ := h.split
  simp only [List.forall_mem_append, List.forall_mem_cons] at hP
  obtain ⟨hPfront, hPx, hPback⟩ := hP
  refine ⟨hPx.mpr h.holds, front.map s, back.map s, by simp, ?_, ?_⟩
  · simp only [List.forall_mem_map, hg]
    exact fun y hy hQ => hfront y hy ((hPfront y hy).mp hQ)
  · simp only [List.forall_mem_map, hg]
    exact fun y hy hQ => hback y hy ((hPback y hy).mp hQ)

end LastLeast

variable [Scalar.Ordered α]

open Scalar.Ordered

theorem FirstLeast.least (h : FirstLeast P f xs x) (hx : f x ≤ f x) :
    ∀ y ∈ xs, P y → f x ≤ f y := by
  obtain ⟨front, back, rfl, hfront, hback⟩ := h.split
  simp only [List.forall_mem_append, List.forall_mem_cons]
  exact ⟨fun y hy hP => le_of_lt (hfront y hy hP), fun _ => hx, hback⟩

theorem LastLeast.least (h : LastLeast P f xs x) (hx : f x ≤ f x) : ∀ y ∈ xs, P y → f x ≤ f y := by
  obtain ⟨front, back, rfl, hfront, hback⟩ := h.split
  simp only [List.forall_mem_append, List.forall_mem_cons]
  exact ⟨hfront, fun _ => hx, fun y hy hP => le_of_lt (hback y hy hP)⟩

end OptimalTransport
