import OptimalTransport.Proofs.Simplex.Solve
/-!
Cycles that no arc blocks. Such a cycle passes every arc of the tree in its own direction, and costs
less than nothing when the arc that closes it was found. There is none where no source takes in
mass. The arc above the source then leads up and blocks the cycle, or the source is the apex, and
the arc above the target leads down to it and does.
-/

namespace OptimalTransport

variable {n m : Nat} {net : Network n m ℚ}

namespace Network

theorem direction_source {a : Arc n m} {i : Fin n} {p : Node n m}
    (hs : 0 ≤ net.excess (.source i)) (hj : net.Joins a (.source i) p) :
    net.direction a (.source i) = .up := by
  cases hd : net.direction a (.source i) with
  | up => rfl
  | down =>
    have hh := (hj.down hd).2
    cases a with
    | real i' j => exact absurd (Option.some.inj hh).symm (source_ne_target i j)
    | artificial v =>
      rw [head] at hh
      split at hh
      · cases hh
      · next hneg => exact absurd (Option.some.inj hh ▸ hs) hneg

theorem parent_eq_none_of_up {a : Arc n m} {j : Fin m} {p : Node n m}
    (hj : net.Joins a (.target j) p) (hd : net.direction a (.target j) = .up) : p = none := by
  apply hj.artificial_iff.mp
  cases a with
  | real i j' => exact absurd (Option.some.inj (direction_eq_up_iff.mp hd)) (source_ne_target i j)
  | artificial v => rfl

end Network

namespace Simplex.Basis

variable {b : Basis n m ℚ} {r : Route n m} {c : Cycle n m} {apex : Node n m}

theorem Sound.leaving_ne_none (h : b.Sound net) (ho : ∀ i, 0 ≤ net.excess (.source i))
    (hcl : c.Closes net b.tree r.arc apex) : b.leaving net c ≠ none := by
  intro hnone
  have hj := h.wellFormed.joined
  have htail := hcl.climb .tail
  generalize hsites : c.side .tail = sites at htail
  cases htail with
  | up away rest =>
    -- The cycle comes down to the source by an arc that leads up.
    refine no_losing_of_leaving (fun _ => rfl) hnone .tail (.source r.1) ?_
      (Network.direction_source (ho _) (hj _))
    rw [hsites]
    exact List.mem_cons_self
  | here =>
    -- The source is the apex, so that the way up from the target ends before the root.
    have hhead := hcl.climb .head
    generalize hsites' : c.side .head = sites' at hhead
    change b.tree.Climb (some (.source r.1)) (some (.target r.2)) sites' at hhead
    generalize hu : some (Site.target r.2) = u at hhead
    cases hhead with
    | here => exact Network.source_ne_target r.1 r.2 (Option.some.inj hu).symm
    | up away rest =>
      obtain rfl := Option.some.inj hu
      cases hd : b.tree.direction net (.target r.2) with
      | down =>
        refine no_losing_of_leaving (fun _ => rfl) hnone .head (.target r.2) ?_ hd
        rw [hsites']
        exact List.mem_cons_self
      | up =>
        rw [Network.parent_eq_none_of_up (hj _) hd] at rest
        cases rest

theorem Ends.exists_unblocked (hends : b.Ends net .unbounded) (h : b.Sound net)
    (hprice : net.Priced) :
    ∃ r sweep c apex, b.entering net = .ok (some (r, sweep)) ∧ b.tree.cycle net r.arc = .ok c ∧
      c.Closes net b.tree r.arc apex ∧ b.leaving net c = none := by
  generalize hs : Status.unbounded = status at hends
  cases hends with
  | settled =>
    rcases b.verdict_cases with hv | hv
    · simp [hv] at hs
    · simp [hv] at hs
  | exhausted => cases hs
  | unbounded r sweep hfound hpivot =>
    obtain ⟨c, apex, hc, hcl, ⟨hnone, -⟩ | ⟨k, stem, b', hsome, -⟩⟩ :=
      pivot_ok (h.withSweep sweep) (net.requireCost_ok hprice r.arc)
    · exact ⟨r, sweep, c, apex, hfound, hc, hcl, hnone⟩
    · rw [hsome] at hpivot; cases hpivot

theorem Sound.not_unbounded (h : b.Sound net) (ho : ∀ i, 0 ≤ net.excess (.source i))
    (hprice : net.Priced) : ¬ b.Ends net .unbounded := by
  intro hends
  obtain ⟨r, -, c, apex, -, -, hcl, hnone⟩ := hends.exists_unblocked h hprice
  exact h.leaving_ne_none ho hcl hnone

/-- A route whose cycle carries any amount, each unit at the same negative cost. -/
structure Runaway (net : Network n m ℚ) (b : Basis n m ℚ) (r : Route n m) (c : Cycle n m) :
    Prop where
  nonbasic : b.basic.get r.arc = false
  cycle : b.tree.cycle net r.arc = .ok c
  down : ∀ v ∈ c.tailSide, b.tree.direction net v = .down
  up : ∀ v ∈ c.headSide, b.tree.direction net v = .up
  gains : ∀ amount, 0 ≤ amount → ∀ a, b.flow.get a ≤ (b.augment net r.arc c amount).get a
  cost_neg : net.cost r.arc +
    ((c.tailSide ++ c.headSide).map fun v => net.cost (b.tree.arc v)).sum < 0

theorem Sound.circulation_nonneg (h : b.Sound net) (he : b.basic.get r.arc = false)
    (hcl : c.Closes net b.tree r.arc apex) (hnone : b.leaving net c = none) (a : Arc n m) :
    0 ≤ c.circulation net b.tree r.arc a := by
  have hne := h.arc_ne he
  by_cases ha : r.arc = a
  · rw [← ha, Cycle.circulation_entering hne]
    exact zero_le_one
  by_cases htree : ∃ v, b.tree.arc v = a
  · obtain ⟨v, rfl⟩ := htree
    by_cases hside : ∃ half, v ∈ c.side half
    · obtain ⟨half, hv⟩ := hside
      have hgains := no_losing_of_leaving (fun _ => rfl) hnone half v hv
      rw [hcl.circulation_gaining h.wellFormed hne hv hgains]
      exact zero_le_one
    · exact (hcl.circulation_off h.wellFormed hne (not_exists.mp hside)).ge
  · exact (Cycle.circulation_of_ne (not_exists.mp htree) ha).ge

theorem Sound.runaway (h : b.Sound net) (he : b.basic.get r.arc = false)
    (hneg : Pricing.reducedCost net b.tree r.arc < 0) (hc : b.tree.cycle net r.arc = .ok c)
    (hcl : c.Closes net b.tree r.arc apex) (hnone : b.leaving net c = none) :
    b.Runaway net r c := by
  have hdown : ∀ v ∈ c.tailSide, b.tree.direction net v = .down := by
    intro v hv
    cases hd : b.tree.direction net v with
    | up => exact absurd hd (no_losing_of_leaving (fun _ => rfl) hnone .tail v hv)
    | down => rfl
  have hup : ∀ v ∈ c.headSide, b.tree.direction net v = .up := by
    intro v hv
    cases hd : b.tree.direction net v with
    | up => rfl
    | down => exact absurd hd (no_losing_of_leaving (fun _ => rfl) hnone .head v hv)
  refine ⟨he, hc, hdown, hup, fun amount hamount a => ?_, ?_⟩
  · rw [get_augment]
    linarith [mul_nonneg hamount (h.circulation_nonneg he hcl hnone a)]
  · have htail : c.tailSide.map (fun v => net.gain (b.tree.arc v) v) =
        c.tailSide.map fun v => net.cost (b.tree.arc v) :=
      List.map_congr_left fun v hv => Network.gain_down (hdown v hv)
    have hhead : c.headSide.map (fun v => net.gain (b.tree.arc v) v) =
        c.headSide.map fun v => -net.cost (b.tree.arc v) :=
      List.map_congr_left fun v hv => Network.gain_up (hup v hv)
    have hsum : (c.headSide.map fun v => -net.cost (b.tree.arc v)).sum =
        -(c.headSide.map fun v => net.cost (b.tree.arc v)).sum := by
      rw [List.sum_neg, List.map_map]
      rfl
    rw [Pricing.reducedCost_eq_sum h.wellFormed hcl, htail, hhead, hsum] at hneg
    rw [List.map_append, List.sum_append]
    linarith

end Simplex.Basis

namespace Simplex

variable {costs : Matrix ℚ} {supply demand : Array ℚ}

theorem transport_unbounded (hshape : costs.shape = (supply.size, demand.size))
    (hfull : costs.Full) (budget : Nat) :
    ∃ o, (⟨budget⟩ : Config).transport costs supply demand = .ok o ∧
      ((∀ x ∈ supply, 0 ≤ x) → o.status ≠ .unbounded) ∧
      (o.status = .unbounded → ∃ net b r sweep c,
        Network.build costs supply demand = .ok net ∧
        (Basis.start net).run net budget = .ok (.unbounded, b) ∧
        b.entering net = .ok (some (r, sweep)) ∧ b.Runaway net r c) := by
  obtain ⟨net, hnet⟩ := Network.build_ok hshape hfull
  obtain ⟨o, hsolve, hcase⟩ := solve_ok hnet.priced budget
  refine ⟨o, by rw [Config.transport, hnet.built, Fault.ok_bind, hsolve], ?_⟩
  rcases hcase with ⟨-, hinf⟩ | ⟨-, b, ha⟩
  · rw [hinf]
    exact ⟨fun _ => nofun, nofun⟩
  have hs := ha.feasible.sound
  constructor
  · intro hsupply hstatus
    refine hs.not_unbounded (fun i => ?_) hnet.priced (hstatus ▸ ha.ends)
    rw [hnet.excess_source_eq]
    exact hsupply _ (Array.getElem_mem i.isLt)
  · intro hstatus
    obtain ⟨r, sweep, c, apex, hfound, hc, hcl, hnone⟩ :=
      (hstatus ▸ ha.ends : b.Ends net .unbounded).exists_unblocked hs hnet.priced
    obtain ⟨he, hneg⟩ := hs.negative_of_entering hnet.priced hfound
    exact ⟨net, b, r, sweep, c, hnet.built, hstatus ▸ ha.run, hfound,
      hs.runaway he hneg hc hcl hnone⟩

theorem transport_unbounded_signed :
    (∃ net b r c, Network.build (⟨1, 1, #[-10]⟩ : Matrix ℚ) #[-1] #[-1] = .ok net ∧
      (Basis.start net).run net 9 = .ok (.unbounded, b) ∧ b.Runaway net r c) ∧
    ∃ o, (⟨9⟩ : Config).transport (⟨1, 2, #[-10, 3]⟩ : Matrix ℚ) #[1] #[-1, 2] = .ok o ∧
      o.status ≠ .unbounded := by
  have hstatus : ((⟨9⟩ : Config).transport (⟨1, 1, #[-10]⟩ : Matrix ℚ) #[-1]
      #[-1]).toOption.map Outcome.status = some .unbounded := by
    decide +kernel
  obtain ⟨o, ho, -, hrun⟩ := transport_unbounded (show Matrix.shape (⟨1, 1, #[-10]⟩ : Matrix ℚ) =
    (#[(-1 : ℚ)].size, #[(-1 : ℚ)].size) from rfl) rfl 9
  rw [ho] at hstatus
  obtain ⟨net, b, r, sweep, c, hbuilt, hlast, -, hrunaway⟩ := hrun (Option.some.inj hstatus)
  obtain ⟨o', ho', hsupply, -⟩ := transport_unbounded (show Matrix.shape
    (⟨1, 2, #[-10, 3]⟩ : Matrix ℚ) = (#[(1 : ℚ)].size, #[(-1 : ℚ), 2].size) from rfl) rfl 9
  exact ⟨⟨net, b, r, c, hbuilt, hlast, hrunaway⟩, o', ho', hsupply (by decide +kernel)⟩

end Simplex

end OptimalTransport
