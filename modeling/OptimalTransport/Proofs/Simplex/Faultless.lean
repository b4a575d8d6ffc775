import OptimalTransport.Proofs.Pricing.Countdown
import OptimalTransport.Proofs.Simplex.Reachable
import OptimalTransport.Scalar.Binary64

namespace OptimalTransport

variable {n m : Nat} {α : Type} [Scalar α] {net : Network n m α}

namespace Pricing.Sweep

variable {s s' : Sweep} {t : SpanningTree n m α} {basic : Arc n m → Bool} {r : Route n m}

structure Placed (n m : Nat) (s : Sweep) : Prop where
  block : 16 ≤ s.block
  next : 0 < n * m → s.next < n * m

theorem Placed.start (n m : Nat) : (Sweep.start (n * m)).Placed n m where
  block := (block_start_le_iff.mp (le_refl _)).1
  next h := h

theorem Placed.findIn (hp : s.Placed n m) {k : Nat}
    (h : s.findIn net t basic k = .ok (some (r, s'))) : s'.Placed n m := by
  obtain ⟨bid, -, hfound⟩ := Fault.bind_eq_ok.mp h
  obtain ⟨found, -, hmoved⟩ := Option.map_eq_some_iff.mp (Except.ok.inj hfound)
  obtain ⟨-, rfl⟩ := Prod.mk.inj hmoved
  exact ⟨hp.block, fun hpos => Nat.mod_lt _ hpos⟩

theorem Placed.find (hp : s.Placed n m) (h : s.find net t basic = .ok (some (r, s'))) :
    s'.Placed n m := by
  obtain ⟨k, -, hk⟩ := Fault.exists_of_findSomeM? h
  exact hp.findIn hk

end Pricing.Sweep

namespace Simplex.Basis

variable {b b' : Basis n m α} {r : Route n m}

theorem entering_placed (hp : b.sweep.Placed n m) {sweep : Pricing.Sweep}
    (h : b.entering net = .ok (some (r, sweep))) : sweep.Placed n m := by
  obtain ⟨swept, hswept, h⟩ := Fault.bind_eq_ok.mp h
  cases swept with
  | some found =>
    cases h
    exact hp.find hswept
  | none =>
    obtain ⟨cheap, -, h⟩ := Fault.bind_eq_ok.mp h
    obtain ⟨found, -, hmoved⟩ := Option.map_eq_some_iff.mp (Except.ok.inj h)
    obtain ⟨-, rfl⟩ := Prod.mk.inj hmoved
    exact hp

theorem beside_of_pivot (h : b.pivot net r = .ok (some b')) :
    b'.sweep = b.sweep ∧ b'.pivots = b.pivots + 1 := by
  obtain ⟨c, -, h⟩ := Fault.bind_eq_ok.mp h
  split at h
  · cases h
  · obtain ⟨t', -, h⟩ := Fault.bind_eq_ok.mp h
    cases h
    exact ⟨rfl, rfl⟩

inductive Visited (net : Network n m α) : Basis n m α → Prop
  | start : Visited net (.start net)
  | step {b b' : Basis n m α} (h : Visited net b) {r : Route n m} {sweep : Pricing.Sweep}
      (hfound : b.entering net = .ok (some (r, sweep)))
      (hpivot : { b with sweep }.pivot net r = .ok (some b')) : Visited net b'

namespace Visited

theorem reachable (h : Visited net b) (hprice : net.Priced) : Reachable net b := by
  induction h with
  | start => exact .start
  | @step b b' _ r sweep hfound hpivot ih =>
    obtain ⟨o, ho, -, hsome⟩ := b.entering_ok ih.sound hprice
    obtain rfl := Except.ok.inj (hfound.symm.trans ho)
    exact (ih.withSweep sweep).pivot r (hsome _ rfl).1 hpivot

theorem placed (h : Visited net b) : b.sweep.Placed n m := by
  induction h with
  | start => exact .start n m
  | step _ hfound hpivot ih =>
    rw [(beside_of_pivot hpivot).1]
    exact entering_placed ih hfound

theorem run (h : Visited net b) (hprice : net.Priced) (budget : Nat) :
    ∃ status last, b.run net budget = .ok (status, last) ∧ Visited net last := by
  have hs := (h.reachable hprice).sound
  obtain ⟨o, ho, -, hsome⟩ := b.entering_ok hs hprice
  induction budget generalizing b o with
  | zero =>
    cases o with
    | none => exact ⟨_, b, run_verdict ho 0, h⟩
    | some found => exact ⟨_, b, run_exhausted ho, h⟩
  | succ budget ih =>
    cases o with
    | none => exact ⟨_, b, run_verdict ho (budget + 1), h⟩
    | some found =>
      obtain ⟨r, sweep⟩ := found
      obtain ⟨c, apex, -, ⟨-, hpivot⟩ | ⟨k, stem, next, hpivot, -⟩⟩ :=
        pivot_cases (hs.withSweep sweep) hprice r
      · exact ⟨_, b, run_unbounded ho hpivot budget, h⟩
      · have hnext := h.step ho hpivot
        have hs' := (hnext.reachable hprice).sound
        obtain ⟨o', ho', -, hsome'⟩ := next.entering_ok hs' hprice
        rw [run_succ ho hpivot]
        exact ih hnext hs' o' ho' hsome'

end Visited

structure Faultless (net : Network n m α) (b : Basis n m α) : Prop where
  walks : ∀ u v, ∃ apex left right, b.tree.join u v = .ok apex ∧ b.tree.path u apex = .ok left ∧
    b.tree.path v apex = .ok right
  subtrees : ∀ v, ∃ sites, b.tree.subtree v = .ok sites
  counts : ∃ found, b.sweep.find net b.tree b.basic.get = .ok found ∧
    b.sweep.countdown net b.tree b.basic.get b.sweep.block none
      (Route.window b.sweep.next (n * m)) = .ok found
  certifies : ∃ cheap, b.certify net = .ok cheap
  searches : ∃ found, b.entering net = .ok found
  pivots : ∀ r sweep, ∃ next, { b with sweep }.pivot net r = .ok next

theorem Sound.faultless (h : b.Sound net) (hprice : net.Priced) (hp : b.sweep.Placed n m) :
    b.Faultless net where
  walks u v := by
    have hr := h.wellFormed.ranked
    obtain ⟨apex, left, right, hj, hl, hr', -⟩ := SpanningTree.join_ok hr u v
    exact ⟨apex, left, right, hj, (SpanningTree.path_eq_ok_iff hr).mpr hl,
      (SpanningTree.path_eq_ok_iff hr).mpr hr'⟩
  subtrees v := by
    obtain ⟨sites, hs, -⟩ := SpanningTree.subtree_ok h.wellFormed.filed h.wellFormed.ranked v
    exact ⟨sites, hs⟩
  counts := by
    obtain ⟨found, hfound, -⟩ := b.sweep.find_ok hprice b.tree b.basic.get
    have hblock : 0 < b.sweep.block := Nat.lt_of_lt_of_le (by decide) hp.block
    exact ⟨found, hfound, (Pricing.Sweep.find_eq_countdown hblock).symm.trans hfound⟩
  certifies := by
    obtain ⟨cheap, hcheap, -⟩ := b.certify_ok h
    exact ⟨cheap, hcheap⟩
  searches := by
    obtain ⟨found, hfound, -⟩ := b.entering_ok h hprice
    exact ⟨found, hfound⟩
  pivots r sweep := by
    obtain ⟨c, apex, -, ⟨-, hnone⟩ | ⟨k, stem, next, hsome, -⟩⟩ :=
      pivot_cases (h.withSweep sweep) hprice r
    · exact ⟨none, hnone⟩
    · exact ⟨some next, hsome⟩

end Simplex.Basis

namespace Simplex

theorem solve_faultless (hprice : net.Priced) (budget : Nat) : ∃ o, solve budget net = .ok o := by
  rw [solve]
  split
  · exact ⟨_, rfl⟩
  · obtain ⟨status, last, hrun, -⟩ := Basis.Visited.start.run hprice budget
    rw [hrun, Fault.ok_bind]
    cases status with
    | optimal => exact ⟨_, rfl⟩
    | infeasible | unbounded | exhausted => exact ⟨_, rfl⟩

variable {costs : Matrix α} {supply demand : Array α}

theorem transport_faultless (hshape : costs.shape = (supply.size, demand.size))
    (hfull : costs.Full) (budget : Nat) :
    (∃ o, (⟨budget⟩ : Config).transport costs supply demand = .ok o) ∧
      ∃ net, Network.build costs supply demand = .ok net ∧
        (∃ status last, (Basis.start net).run net budget = .ok (status, last) ∧
          Basis.Visited net last) ∧
        ∀ b, Basis.Visited net b →
          b.sweep.Placed supply.size demand.size ∧ Basis.Faultless net b := by
  obtain ⟨net, hbuilt, hprice⟩ := Network.build_priced hshape hfull
  obtain ⟨o, ho⟩ := solve_faultless hprice budget
  refine ⟨⟨o, ?_⟩, net, hbuilt, Basis.Visited.start.run hprice budget, fun b hb => ?_⟩
  · rw [Config.transport, hbuilt, Fault.ok_bind, ho]
  · exact ⟨hb.placed, (hb.reachable hprice).sound.faultless hprice hb.placed⟩

theorem transport_faultless_nan :
    ∃ o, (⟨9⟩ : Config).transport (⟨2, 2, #[0 / 0, 1 / 0, -1 / 0, 1]⟩ : Matrix Float)
      #[0 / 0, 1] #[1 / 0, 0 / 0] = .ok o :=
  (@transport_faultless Float _ ⟨2, 2, #[0 / 0, 1 / 0, -1 / 0, 1]⟩ #[0 / 0, 1] #[1 / 0, 0 / 0]
    rfl rfl 9).1

end Simplex

end OptimalTransport
