import Mathlib
import OptimalTransport.Proofs.Tree.Climb

namespace OptimalTransport

variable {n m : Nat} {α : Type}

namespace SpanningTree

def graph (t : SpanningTree n m α) : SimpleGraph (Node n m) :=
  .fromRel fun u w => t.above u = w

variable {t : SpanningTree n m α} {rank : Node n m → Nat}

theorem graph_adj_iff {u w : Node n m} :
    t.graph.Adj u w ↔ u ≠ w ∧ (t.above u = w ∨ t.above w = u) :=
  SimpleGraph.fromRel_adj _ _ _

theorem adj_parent (hr : t.Ranked rank) (v : Site n m) : t.graph.Adj (some v) (t.parent v) := by
  refine graph_adj_iff.mpr ⟨fun he => ?_, .inl rfl⟩
  have := hr.link v
  rw [← he] at this
  omega

theorem Below.of_adj {v : Site n m} {u w : Node n m} (hb : t.Below u (some v))
    (hadj : (t.graph.deleteEdges {s(some v, t.parent v)}).Adj u w) : t.Below w (some v) := by
  obtain ⟨hadj, hcut⟩ := SimpleGraph.deleteEdges_adj.mp hadj
  obtain ⟨hne, hup | hdown⟩ := graph_adj_iff.mp hadj
  · cases u with
    | none => exact absurd hup hne
    | some x =>
      have hx : x ≠ v := by
        rintro rfl
        exact hcut (by rw [← hup]; rfl)
      exact hup ▸ (iff_parent hx).mp hb
  · cases w with
    | none => exact absurd hdown.symm hne
    | some x =>
      obtain rfl : t.parent x = u := hdown
      exact .of_parent hb

theorem isBridge_parent (hr : t.Ranked rank) (v : Site n m) :
    t.graph.IsBridge s(some v, t.parent v) := by
  rw [SimpleGraph.isBridge_iff, SimpleGraph.reachable_iff_reflTransGen]
  intro hpath
  have hbelow : ∀ w, Relation.ReflTransGen
      (t.graph.deleteEdges {s(some v, t.parent v)}).Adj (some v) w → t.Below w (some v) := by
    intro w hw
    induction hw with
    | refl => exact .refl _
    | tail _ hadj ih => exact ih.of_adj hadj
  exact Below.not_parent hr (hbelow _ hpath)

theorem isAcyclic_graph (hr : t.Ranked rank) : t.graph.IsAcyclic := by
  apply SimpleGraph.isAcyclic_iff_forall_adj_isBridge.mpr
  intro u w hadj
  obtain ⟨hne, hup | hdown⟩ := graph_adj_iff.mp hadj
  · cases u with
    | none => exact absurd hup hne
    | some v => exact hup ▸ isBridge_parent hr v
  · cases w with
    | none => exact absurd hdown.symm hne
    | some v =>
      rw [Sym2.eq_swap]
      exact hdown ▸ isBridge_parent hr v

end SpanningTree

end OptimalTransport
