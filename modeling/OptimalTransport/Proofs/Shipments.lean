import OptimalTransport.Proofs.Simplex.Solve

namespace OptimalTransport

variable {n m : Nat} {α : Type}

namespace Shipment

attribute [ext] Shipment

def route (x : Shipment α) : Nat × Nat :=
  (x.source, x.target)

def Before (x y : Shipment α) : Prop :=
  x.source < y.source ∨ x.source = y.source ∧ x.target < y.target

instance (x y : Shipment α) : Decidable (Before x y) :=
  inferInstanceAs (Decidable (_ ∨ _))

instance : Std.Asymm (Before : Shipment α → Shipment α → Prop) where
  asymm x y h h' := by
    simp only [Before] at h h'
    omega

variable [Scalar α] {xs ys : List (Shipment α)}

structure Listed (n m : Nat) (xs : List (Shipment α)) : Prop where
  inRange : ∀ x ∈ xs, x.source < n ∧ x.target < m
  positive : ∀ x ∈ xs, 0 < x.mass
  ordered : xs.Pairwise Before

namespace Listed

theorem nil : Listed n m ([] : List (Shipment α)) :=
  ⟨List.forall_mem_nil _, List.forall_mem_nil _, .nil⟩

theorem nodup_routes (h : Listed n m xs) : (xs.map route).Nodup := by
  apply List.pairwise_map.mpr
  refine h.ordered.imp fun hxy he => ?_
  obtain ⟨hs, ht⟩ := Prod.mk.inj he
  rcases hxy with hlt | ⟨-, hlt⟩
  · exact hlt.ne hs
  · exact hlt.ne ht

theorem eq_of_mem_iff (h : Listed n m xs) (h' : Listed n m ys) (hmem : ∀ x, x ∈ xs ↔ x ∈ ys) :
    xs = ys :=
  h.ordered.eq_of_mem_iff h'.ordered hmem

end Listed

end Shipment

theorem Route.pairwise_all (n m : Nat) :
    (all n m).Pairwise fun r r' => r.1 < r'.1 ∨ r.1 = r'.1 ∧ r.2 < r'.2 := by
  refine List.pairwise_flatMap.mpr ⟨fun i _ => ?_, ?_⟩
  · exact List.pairwise_map.mpr ((List.pairwise_lt_finRange m).imp fun h => .inr ⟨rfl, h⟩)
  · refine (List.pairwise_lt_finRange n).imp fun h r hr r' hr' => ?_
    obtain ⟨j, -, rfl⟩ := List.mem_map.mp hr
    obtain ⟨j', -, rfl⟩ := List.mem_map.mp hr'
    exact .inl h

namespace Simplex

variable [Scalar α] {net : Network n m α} {b : Basis n m α} {budget : Nat} {o : Outcome α}

namespace Basis

def loaded (b : Basis n m α) : List (Route n m) :=
  (Route.all n m).filter fun r => decide (0 < b.flow.get r.arc)

theorem shipments_eq_map (b : Basis n m α) :
    b.shipments = b.loaded.map fun r => ⟨r.1, r.2, b.flow.get r.arc⟩ := by
  rw [shipments, loaded]
  induction Route.all n m with
  | nil => rfl
  | cons r rs ih =>
    rw [List.filterMap_cons, List.filter_cons, ih]
    by_cases hr : 0 < b.flow.get r.arc
    · simp [hr]
    · simp [hr]

theorem shipments_listed (b : Basis n m α) : Shipment.Listed n m b.shipments where
  inRange := b.shipments_lt
  positive x hx := by
    obtain ⟨r, hpos, rfl⟩ := mem_shipments.mp hx
    exact hpos
  ordered := by
    rw [shipments_eq_map]
    refine List.pairwise_map.mpr (((Route.pairwise_all n m).filter _).imp fun h => ?_)
    exact h.imp_right fun ⟨he, hlt⟩ => ⟨congrArg Fin.val he, hlt⟩

end Basis

theorem shipments_of_solve (h : solve budget net = .ok o) :
    o.shipments = [] ∨ ∃ status b, (Basis.start net).run net budget = .ok (status, b) ∧
      o.shipments = b.shipments := by
  rw [solve] at h
  split at h
  · cases h
    exact .inl rfl
  · obtain ⟨⟨status, b⟩, hrun, h⟩ := Fault.bind_eq_ok.mp h
    cases status with
    | optimal =>
      cases h
      exact .inr ⟨_, b, hrun, rfl⟩
    | infeasible | unbounded | exhausted =>
      cases h
      exact .inl rfl

theorem listed_of_solve (h : solve budget net = .ok o) : Shipment.Listed n m o.shipments := by
  rcases shipments_of_solve h with hnil | ⟨status, b, -, hb⟩
  · rw [hnil]
    exact .nil
  · rw [hb]
    exact b.shipments_listed

theorem listed_of_transport {s : Config} {costs : Matrix α} {supply demand : Array α}
    (h : s.transport costs supply demand = .ok o) :
    Shipment.Listed costs.rows costs.cols o.shipments := by
  obtain ⟨net, hnet, hsolve⟩ := Fault.bind_eq_ok.mp h
  obtain ⟨hrows, hcols⟩ := Prod.mk.inj (Network.shape_of_build hnet)
  exact hrows ▸ hcols ▸ listed_of_solve hsolve

end Simplex

end OptimalTransport
