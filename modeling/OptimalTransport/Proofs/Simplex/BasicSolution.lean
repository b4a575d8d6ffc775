import OptimalTransport.Proofs.Shipments
import OptimalTransport.Proofs.Simplex.Faultless
import OptimalTransport.Proofs.Tree.Graph
import OptimalTransport.Proofs.Tree.Relabel

namespace OptimalTransport

variable {n m : Nat} {α : Type}

namespace Shipment

def graph (n m : Nat) (xs : List (Shipment α)) : SimpleGraph (Site n m) :=
  .fromRel fun u v => ∃ i j, u = .source i ∧ v = .target j ∧
    ∃ x ∈ xs, x.source = i.val ∧ x.target = j.val

theorem graph_isBipartiteWith (n m : Nat) (xs : List (Shipment α)) :
    (graph n m xs).IsBipartiteWith (Set.range .source) (Set.range .target) where
  disjoint := by
    refine Set.disjoint_left.mpr ?_
    rintro _ ⟨i, rfl⟩ ⟨j, he⟩
    exact Network.source_ne_target i j he.symm
  mem_of_adj u v hadj := by
    obtain ⟨-, ⟨i, j, rfl, rfl, -⟩ | ⟨i, j, rfl, rfl, -⟩⟩ :=
      (SimpleGraph.fromRel_adj _ _ _).mp hadj
    · exact .inl ⟨⟨i, rfl⟩, ⟨j, rfl⟩⟩
    · exact .inr ⟨⟨j, rfl⟩, ⟨i, rfl⟩⟩

theorem isAcyclic_graph_nil (n m : Nat) : (graph n m ([] : List (Shipment α))).IsAcyclic := by
  have hbot : graph n m ([] : List (Shipment α)) = ⊥ := by
    ext u v
    simp [graph]
  exact hbot ▸ SimpleGraph.isAcyclic_bot

end Shipment

namespace Simplex

variable [Scalar α] {net : Network n m α} {b : Basis n m α}

namespace Basis

namespace Reachable

theorem idle (h : Reachable net b) : b.Idle := by
  induction h with
  | start => exact .start net
  | withSweep _ _ ih => exact ih
  | pivot h r _ hpivot ih =>
    obtain ⟨c, apex, k, stem, -, p⟩ := pivoted_of_pivot h.sound hpivot
    exact p.idle h.sound ih

theorem exists_site (h : Reachable net b) (hzero : ¬ (0 : α) < 0) {a : Arc n m}
    (ha : 0 < b.flow.get a) : ∃ v, b.tree.arc v = a := by
  apply (h.sound.basic_iff a).mp
  by_contra hb
  rw [h.idle a (Bool.eq_false_iff.mpr hb)] at ha
  exact hzero ha

theorem adj_of_loaded (h : Reachable net b) (hzero : ¬ (0 : α) < 0) {i : Fin n} {j : Fin m}
    (hload : 0 < b.flow.get (.real i j)) :
    b.tree.graph.Adj (some (.source i)) (some (.target j)) := by
  obtain ⟨v, hv⟩ := h.exists_site hzero hload
  have hparent := SpanningTree.adj_parent h.sound.wellFormed.ranked v
  have hjoin := hv ▸ h.sound.wellFormed.joined v
  rcases hjoin.ends (net.joins_real i j) with ⟨rfl, hp⟩ | ⟨hp, htarget⟩
  · rwa [hp] at hparent
  · rw [hp, ← htarget] at hparent
    exact hparent.symm

theorem isAcyclic_shipments (h : Reachable net b) (hzero : ¬ (0 : α) < 0) :
    (Shipment.graph n m b.shipments).IsAcyclic := by
  have hstep : ∀ i j, (∃ x ∈ b.shipments, x.source = i.val ∧ x.target = j.val) →
      b.tree.graph.Adj (some (.source i)) (some (.target j)) := by
    rintro i j ⟨x, hx, hi, hj⟩
    obtain ⟨r, hload, rfl⟩ := mem_shipments.mp hx
    obtain rfl : r.1 = i := Fin.ext hi
    obtain rfl : r.2 = j := Fin.ext hj
    exact h.adj_of_loaded hzero hload
  let embed : Shipment.graph n m b.shipments →g b.tree.graph := ⟨some, fun {u v} hadj => by
    obtain ⟨-, ⟨i, j, rfl, rfl, hx⟩ | ⟨i, j, rfl, rfl, hx⟩⟩ :=
      (SimpleGraph.fromRel_adj _ _ _).mp hadj
    · exact hstep i j hx
    · exact (hstep i j hx).symm⟩
  exact (SpanningTree.isAcyclic_graph h.sound.wellFormed.ranked).comap embed
    (Option.some_injective _)

theorem length_shipments_lt (h : Reachable net b) (hzero : ¬ (0 : α) < 0) (hsites : 0 < n + m) :
    b.shipments.length < n + m := by
  have hwf := h.sound.wellFormed
  obtain ⟨w, hw, -⟩ := SpanningTree.Below.exists_top (hwf.ranked.rooted (some ⟨0, hsites⟩))
  have hnodup : (b.loaded.map Route.arc).Nodup :=
    (((Route.pairwise_all n m).filter _).imp fun hlt he => by
      obtain ⟨hi, hj⟩ := Arc.real.inj he
      rcases hlt with hlt | ⟨-, hlt⟩
      · exact hlt.ne hi
      · exact hlt.ne hj).map _ fun _ _ hne => hne
  have hsubset : b.loaded.map Route.arc ⊆ ((List.finRange (n + m)).erase w).map b.tree.arc := by
    intro a ha
    obtain ⟨r, hr, rfl⟩ := List.mem_map.mp ha
    obtain ⟨v, hv⟩ := h.exists_site hzero (of_decide_eq_true (List.mem_filter.mp hr).2)
    have hne : v ≠ w := by
      rintro rfl
      have := (hv ▸ hwf.joined v).artificial_iff.mpr hw
      cases this
    refine List.mem_map.mpr ⟨v, ?_, hv⟩
    exact (List.mem_erase_of_ne hne).mpr (List.mem_finRange v)
  have hle := (hnodup.subperm hsubset).length_le
  rw [List.length_map, List.length_map, List.length_erase_of_mem (List.mem_finRange w),
    List.length_finRange] at hle
  rw [shipments_eq_map, List.length_map]
  omega

end Reachable

end Basis

variable {costs : Matrix α} {supply demand : Array α}

theorem transport_basic (hzero : ¬ (0 : α) < 0)
    (hshape : costs.shape = (supply.size, demand.size)) (hfull : costs.Full)
    (hsites : 1 ≤ supply.size + demand.size) (budget : Nat) :
    ∃ o, (⟨budget⟩ : Config).transport costs supply demand = .ok o ∧
      (∀ x ∈ o.shipments, x.source < supply.size ∧ x.target < demand.size ∧ 0 < x.mass) ∧
      o.shipments.Pairwise Shipment.Before ∧
      (o.shipments.map Shipment.route).Nodup ∧
      (Shipment.graph supply.size demand.size o.shipments).IsBipartiteWith
        (Set.range .source) (Set.range .target) ∧
      (Shipment.graph supply.size demand.size o.shipments).IsAcyclic ∧
      o.shipments.length ≤ supply.size + demand.size - 1 := by
  obtain ⟨net, hbuilt, hprice⟩ := Network.build_priced hshape hfull
  obtain ⟨o, ho⟩ := solve_faultless hprice budget
  have hlisted := listed_of_solve ho
  refine ⟨o, by rw [Config.transport, hbuilt, Fault.ok_bind, ho], fun x hx => ?_, hlisted.ordered,
    hlisted.nodup_routes, Shipment.graph_isBipartiteWith _ _ _, ?_⟩
  · obtain ⟨hi, hj⟩ := hlisted.inRange x hx
    exact ⟨hi, hj, hlisted.positive x hx⟩
  · rcases shipments_of_solve ho with hnil | ⟨status, b, hrun, hb⟩
    · rw [hnil]
      exact ⟨Shipment.isAcyclic_graph_nil _ _, Nat.zero_le _⟩
    · have hreach := Basis.Reachable.start.run hprice hrun
      rw [hb]
      exact ⟨hreach.isAcyclic_shipments hzero,
        Nat.le_sub_one_of_lt (hreach.length_shipments_lt hzero hsites)⟩

theorem transport_basic_rounded :
    ∃ o, (⟨9⟩ : Config).transport (⟨3, 3, #[0, 3, 1, 0, 2, 2, 1, 1, 1]⟩ : Matrix Float)
        #[0.1, 0.2, 0.7] #[0.3, 0.6, 0.1] = .ok o ∧
      o.shipments.map (fun x => (x.source, x.target, decide (x.mass < 1e-16))) =
        [(0, 0, false), (0, 2, true), (1, 0, false), (2, 1, false), (2, 2, false)] ∧
      (Shipment.graph 3 3 o.shipments).IsAcyclic ∧ o.shipments.length ≤ 5 := by
  have hrun : ((⟨9⟩ : Config).transport (⟨3, 3, #[0, 3, 1, 0, 2, 2, 1, 1, 1]⟩ : Matrix Float)
      #[0.1, 0.2, 0.7] #[0.3, 0.6, 0.1]).toOption.map
        (fun o => o.shipments.map fun x => (x.source, x.target, decide (x.mass < 1e-16))) =
      some [(0, 0, false), (0, 2, true), (1, 0, false), (2, 1, false), (2, 2, false)] := by
    decide +kernel
  obtain ⟨o, ho, hroutes⟩ := Fault.exists_of_map hrun
  obtain ⟨o', ho', -, -, -, -, hacyclic, hfew⟩ := @transport_basic Float _
    ⟨3, 3, #[0, 3, 1, 0, 2, 2, 1, 1, 1]⟩ #[0.1, 0.2, 0.7] #[0.3, 0.6, 0.1] (by decide +kernel)
    rfl rfl (by decide) 9
  obtain rfl := Except.ok.inj (ho.symm.trans ho')
  exact ⟨o, ho, hroutes, hacyclic, hfew⟩

end Simplex

end OptimalTransport
