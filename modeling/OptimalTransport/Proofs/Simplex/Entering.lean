import OptimalTransport.Proofs.Simplex.Sound
import OptimalTransport.Simplex.Run

namespace OptimalTransport

variable {n m : Nat} {α : Type} [Scalar α] {net : Network n m α}

theorem Route.mem_all (r : Route n m) : r ∈ Route.all n m := by
  simp [Route.all]

namespace Pricing

variable {t : SpanningTree n m α} {basic : Arc n m → Bool}

structure Bid.Clears (net : Network n m α) (t : SpanningTree n m α) (basic : Arc n m → Bool)
    (bid : Bid n m α) : Prop where
  nonbasic : basic bid.route.arc = false
  clears : reducedCost net t bid.route.arc < -tolerance net t bid.route.arc

theorem Bid.best_ok (hprice : net.Priced) (t : SpanningTree n m α) (basic : Arc n m → Bool)
    (routes : List (Route n m)) :
    ∃ best, Bid.best net t basic routes = .ok best ∧
      ∀ bid : Bid n m α, bid ∈ best → bid.Clears net t basic := by
  refine Fault.foldlM_ok (P := fun best => ∀ bid : Bid n m α, bid ∈ best → bid.Clears net t basic)
    (fun best hbest r _ => ?_) (by simp)
  by_cases hr : basic r.arc = true
  · exact ⟨best, by rw [if_pos hr]; rfl, hbest⟩
  rw [if_neg hr, Bid.improve, net.requireCost_ok hprice, Fault.ok_bind]
  refine ⟨_, rfl, fun bid hbid => ?_⟩
  split at hbid
  · next hc =>
    cases hbid
    simp only [Bool.and_eq_true, decide_eq_true_eq] at hc
    exact ⟨by simpa using hr, hc.2⟩
  · exact hbest bid hbid

theorem Sweep.findIn_ok (hprice : net.Priced) (t : SpanningTree n m α) (basic : Arc n m → Bool)
    (s : Sweep) (k : Nat) :
    ∃ o, s.findIn net t basic k = .ok o ∧ ∀ found ∈ o, basic found.1.arc = false ∧
      reducedCost net t found.1.arc < -tolerance net t found.1.arc := by
  obtain ⟨best, hbest, hclears⟩ := Bid.best_ok hprice t basic
    (Route.window (s.next + k * s.block) (Nat.min s.block (n * m - k * s.block)))
  refine ⟨_, by rw [Sweep.findIn]; dsimp only; rw [hbest, Fault.ok_bind]; rfl, fun found hf => ?_⟩
  obtain ⟨bid, hbid, rfl⟩ := Option.map_eq_some_iff.mp hf
  exact ⟨(hclears bid hbid).nonbasic, (hclears bid hbid).clears⟩

theorem Sweep.find_ok (hprice : net.Priced) (t : SpanningTree n m α) (basic : Arc n m → Bool)
    (s : Sweep) :
    ∃ o, s.find net t basic = .ok o ∧ ∀ found ∈ o, basic found.1.arc = false ∧
      reducedCost net t found.1.arc < -tolerance net t found.1.arc := by
  choose found hok hfound using s.findIn_ok hprice t basic
  have hp : s.findIn net t basic = fun k => pure (found k) := funext hok
  refine ⟨(List.range (s.blocks (n * m))).findSome? found, ?_, fun f hf => ?_⟩
  · rw [find, hp, List.findSomeM?_pure]
    rfl
  · obtain ⟨k, -, hk⟩ := List.exists_of_findSome?_eq_some hf
    exact hfound k f hk

end Pricing

namespace Simplex.Basis

variable {b : Basis n m α}

section Run

variable {b' : Basis n m α} {r : Route n m} {sweep : Pricing.Sweep}

theorem run_verdict (hfound : b.entering net = .ok none) (budget : Nat) :
    b.run net budget = .ok (b.verdict, b) := by
  cases budget with
  | zero =>
    rw [run, hfound]
    rfl
  | succ budget =>
    rw [run, hfound]
    rfl

theorem run_exhausted (hfound : b.entering net = .ok (some (r, sweep))) :
    b.run net 0 = .ok (.exhausted, b) := by
  rw [run, hfound]
  rfl

theorem run_unbounded (hfound : b.entering net = .ok (some (r, sweep)))
    (hpivot : { b with sweep }.pivot net r = .ok none) (budget : Nat) :
    b.run net (budget + 1) = .ok (.unbounded, b) := by
  rw [run, hfound, Fault.ok_bind]
  dsimp only
  rw [hpivot]
  rfl

theorem run_succ (hfound : b.entering net = .ok (some (r, sweep)))
    (hpivot : { b with sweep }.pivot net r = .ok (some b')) (budget : Nat) :
    b.run net (budget + 1) = b'.run net budget := by
  rw [run, hfound, Fault.ok_bind]
  dsimp only
  rw [hpivot]
  rfl

end Run

theorem verdict_cases (b : Basis n m α) : b.verdict = .infeasible ∨ b.verdict = .optimal := by
  rw [verdict]
  exact ite_eq_or_eq _ _ _

def Cheap (net : Network n m α) (b : Basis n m α) (r : Route n m) : Prop :=
  b.basic.get r.arc = false ∧
    Pricing.reducedCost net b.tree r.arc < Pricing.tolerance net b.tree r.arc ∧
    ∃ c, b.tree.cycle net r.arc = .ok c ∧
      (Pricing.cycleCost net b.tree r.arc c).sum <
        -Pricing.epsilon * (Pricing.cycleCost net b.tree r.arc c).size

theorem isCheap_ok (b : Basis n m α) (h : b.Sound net) (r : Route n m) :
    ∃ cheap, b.isCheap net r = .ok cheap ∧ (cheap = true ↔ b.Cheap net r) := by
  rw [isCheap]
  by_cases hb : b.basic.get r.arc = true
  · exact ⟨false, if_pos hb, by simp [Cheap, hb]⟩
  rw [if_neg hb]
  by_cases ht : Pricing.reducedCost net b.tree r.arc < Pricing.tolerance net b.tree r.arc
  · obtain ⟨c, apex, hc, -⟩ := SpanningTree.cycle_ok h.wellFormed.ranked net r.arc
    rw [if_pos ht, hc, Fault.ok_bind]
    refine ⟨_, rfl, ?_⟩
    simp [Cheap, hb, ht, hc]
  · exact ⟨false, if_neg ht, by simp [Cheap, ht]⟩

theorem certify_ok (b : Basis n m α) (h : b.Sound net) :
    ∃ o, b.certify net = .ok o ∧ (o = none → ∀ r, ¬ b.Cheap net r) ∧ ∀ r ∈ o, b.Cheap net r := by
  choose cheap hok hiff using b.isCheap_ok h
  have hp : b.isCheap net = fun r => pure (cheap r) := funext hok
  refine ⟨(Route.all n m).find? cheap, ?_, fun hnone r hr => ?_, fun r hr => ?_⟩
  · rw [certify, hp, List.findM?_pure]
    rfl
  · exact List.find?_eq_none.mp hnone r (Route.mem_all r) ((hiff r).mpr hr)
  · exact (hiff r).mp (List.find?_some hr)

theorem entering_ok (b : Basis n m α) (h : b.Sound net) (hprice : net.Priced) :
    ∃ o, b.entering net = .ok o ∧ (o = none → ∀ r, ¬ b.Cheap net r) ∧
      ∀ found ∈ o, b.basic.get found.1.arc = false ∧
        (Pricing.reducedCost net b.tree found.1.arc < -Pricing.tolerance net b.tree found.1.arc ∨
          b.Cheap net found.1) := by
  obtain ⟨swept, hswept, hclears⟩ := b.sweep.find_ok hprice b.tree b.basic.get
  rw [entering, hswept, Fault.ok_bind]
  cases swept with
  | some found =>
    exact ⟨_, rfl, by simp, fun f hf => by
      cases hf
      exact ⟨(hclears _ rfl).1, .inl (hclears _ rfl).2⟩⟩
  | none =>
    obtain ⟨o, ho, hnone, hsome⟩ := b.certify_ok h
    refine ⟨_, by dsimp only; rw [ho, Fault.ok_bind]; rfl, fun hn => ?_, fun found hf => ?_⟩
    · exact hnone (Option.map_eq_none_iff.mp hn)
    · obtain ⟨r, hr, rfl⟩ := Option.map_eq_some_iff.mp hf
      exact ⟨(hsome r hr).1, .inr (hsome r hr)⟩

end Simplex.Basis

end OptimalTransport
