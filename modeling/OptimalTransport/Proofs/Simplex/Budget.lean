import OptimalTransport.Proofs.Simplex.Faultless

namespace OptimalTransport.Simplex

variable {n m : Nat} {α : Type} [Scalar α] {net : Network n m α}

namespace Basis

variable {b b' last : Basis n m α} {r : Route n m} {need budget : Nat} {status : Status}

/-- Where a run ends that its budget does not stop, and the least budget for it. A route is looked
for before the budget is. A pivot that finds no arc to leave takes its share of the budget, though
it is not counted. -/
inductive Settles (net : Network n m α) : Basis n m α → Nat → Status → Basis n m α → Prop
  | verdict {b : Basis n m α} (hfound : b.entering net = .ok none) : Settles net b 0 b.verdict b
  | unbounded {b : Basis n m α} {r : Route n m} {sweep : Pricing.Sweep}
      (hfound : b.entering net = .ok (some (r, sweep)))
      (hpivot : { b with sweep }.pivot net r = .ok none) : Settles net b 1 .unbounded b
  | pivot {b b' last : Basis n m α} {r : Route n m} {sweep : Pricing.Sweep} {need : Nat}
      {status : Status} (hfound : b.entering net = .ok (some (r, sweep)))
      (hpivot : { b with sweep }.pivot net r = .ok (some b'))
      (h : Settles net b' need status last) : Settles net b (need + 1) status last

theorem pivots_of_pivot {sweep : Pricing.Sweep}
    (h : { b with sweep }.pivot net r = .ok (some b')) : b'.pivots = b.pivots + 1 :=
  (beside_of_pivot h).2

namespace Settles

theorem not_exhausted (h : Settles net b need status last) : status ≠ .exhausted := by
  induction h with
  | @verdict b _ => rcases b.verdict_cases with h | h <;> simp [h]
  | unbounded => simp
  | pivot _ _ _ ih => exact ih

theorem pivots_eq (h : Settles net b need status last) :
    (if status = .unbounded then last.pivots + 1 else last.pivots) = b.pivots + need := by
  induction h with
  | @verdict b _ => rcases b.verdict_cases with h | h <;> simp [h]
  | unbounded => simp
  | pivot _ hpivot _ ih =>
    rw [ih, pivots_of_pivot hpivot]
    omega

theorem run (h : Settles net b need status last) (hneed : need ≤ budget) :
    b.run net budget = .ok (status, last) := by
  induction h generalizing budget with
  | verdict hfound => exact run_verdict hfound budget
  | unbounded hfound hpivot =>
    cases budget with
    | zero => omega
    | succ budget => exact run_unbounded hfound hpivot budget
  | pivot hfound hpivot _ ih =>
    cases budget with
    | zero => omega
    | succ budget =>
      rw [run_succ hfound hpivot]
      exact ih (Nat.le_of_succ_le_succ hneed)

theorem run_short (h : Settles net b need status last) (hneed : budget < need) :
    ∃ mid, b.run net budget = .ok (.exhausted, mid) ∧ mid.pivots = b.pivots + budget := by
  induction h generalizing budget with
  | verdict => exact absurd hneed (Nat.not_lt_zero _)
  | @unbounded b _ _ hfound _ =>
    obtain rfl : budget = 0 := by omega
    exact ⟨b, run_exhausted hfound, rfl⟩
  | @pivot b b' _ _ _ _ _ hfound hpivot _ ih =>
    cases budget with
    | zero => exact ⟨b, run_exhausted hfound, rfl⟩
    | succ budget =>
      obtain ⟨mid, hmid, hpivots⟩ := ih (Nat.lt_of_succ_lt_succ hneed)
      refine ⟨mid, ?_, ?_⟩
      · rw [run_succ hfound hpivot, hmid]
      · rw [hpivots, pivots_of_pivot hpivot]
        omega

end Settles

theorem run_cases (h : b.run net budget = .ok (status, last)) :
    (status = .exhausted ∧ last.pivots = b.pivots + budget) ∨
      ∃ need ≤ budget, Settles net b need status last := by
  induction budget generalizing b with
  | zero =>
    rw [run] at h
    obtain ⟨found, hfound, h⟩ := Fault.bind_eq_ok.mp h
    cases found with
    | none =>
      cases h
      exact .inr ⟨0, le_rfl, .verdict hfound⟩
    | some found =>
      cases h
      exact .inl ⟨rfl, rfl⟩
  | succ budget ih =>
    rw [run] at h
    obtain ⟨found, hfound, h⟩ := Fault.bind_eq_ok.mp h
    cases found with
    | none =>
      cases h
      exact .inr ⟨0, Nat.zero_le _, .verdict hfound⟩
    | some found =>
      obtain ⟨next, hpivot, h⟩ := Fault.bind_eq_ok.mp h
      cases next with
      | none =>
        cases h
        exact .inr ⟨1, by omega, .unbounded hfound hpivot⟩
      | some next =>
        rcases ih h with ⟨hstatus, hpivots⟩ | ⟨need, hneed, hsettles⟩
        · left
          refine ⟨hstatus, ?_⟩
          rw [hpivots, pivots_of_pivot hpivot]
          omega
        · exact .inr ⟨need + 1, by omega, .pivot hfound hpivot hsettles⟩

end Basis

def leastBudget (o : Outcome α) : Nat :=
  if o.status = .unbounded then o.pivots + 1 else o.pivots

theorem solve_of_run {budget : Nat} {status : Status} {last : Basis n m α}
    (himb : ¬ feasibility < Scalar.abs net.imbalance)
    (hrun : (Basis.start net).run net budget = .ok (status, last)) :
    ∃ o, solve budget net = .ok o ∧ o.status = status ∧ o.pivots = last.pivots ∧
      (status = .exhausted → o = .failure .exhausted last.pivots) := by
  rw [solve, if_neg himb, hrun, Fault.ok_bind]
  cases status with
  | optimal => exact ⟨_, rfl, rfl, rfl, by simp⟩
  | infeasible | unbounded => exact ⟨_, rfl, rfl, rfl, by simp⟩
  | exhausted => exact ⟨_, rfl, rfl, rfl, fun _ => rfl⟩

theorem solve_cases (hprice : net.Priced) (budget : Nat) :
    ∃ o, solve budget net = .ok o ∧
      (o = .failure .exhausted budget ∨
        (o.status ≠ .exhausted ∧ leastBudget o ≤ budget ∧
          ∀ j, solve j net = .ok (if j < leastBudget o then .failure .exhausted j else o))) := by
  by_cases himb : feasibility < Scalar.abs net.imbalance
  · refine ⟨.failure .infeasible 0, if_pos himb, .inr ⟨nofun, Nat.zero_le _, fun j => ?_⟩⟩
    have hleast : leastBudget (.failure .infeasible 0 : Outcome α) = 0 := rfl
    rw [hleast, if_neg (Nat.not_lt_zero j)]
    exact if_pos himb
  obtain ⟨status, last, hrun, -⟩ := Basis.Visited.start.run hprice budget
  obtain ⟨o, ho, rfl, hpivots, hexhausted⟩ := solve_of_run himb hrun
  refine ⟨o, ho, ?_⟩
  rcases Basis.run_cases hrun with ⟨hstatus, hcount⟩ | ⟨need, hneed, hsettles⟩
  · left
    rw [hexhausted hstatus, hcount]
    exact congrArg _ (Nat.zero_add budget)
  · right
    have hleast : leastBudget o = need := by
      rw [leastBudget, hpivots, hsettles.pivots_eq]
      exact Nat.zero_add need
    rw [hleast]
    refine ⟨hsettles.not_exhausted, hneed, fun j => ?_⟩
    split
    · next hj =>
      obtain ⟨mid, hmid, hcount⟩ := hsettles.run_short hj
      obtain ⟨o', ho', -, -, hshort⟩ := solve_of_run himb hmid
      rw [ho', hshort rfl, hcount]
      exact congrArg _ (congrArg _ (Nat.zero_add j))
    · next hj =>
      rw [← ho, solve, solve, hrun, hsettles.run (not_lt.mp hj)]

section Engine

variable {costs : Matrix α} {supply demand : Array α}

theorem transport_budget (hshape : costs.shape = (supply.size, demand.size)) (hfull : costs.Full)
    {k k' : Nat} (hk : k ≤ k') :
    ∃ o o', (⟨k⟩ : Config).transport costs supply demand = .ok o ∧
      (⟨k'⟩ : Config).transport costs supply demand = .ok o' ∧
      (o.status ≠ .exhausted → o' = o ∧ o.pivots ≤ k) ∧
      (o'.status = .exhausted → o = .failure .exhausted k) ∧
      (o.status ≠ .exhausted →
        (∀ j < o.pivots,
          (⟨j⟩ : Config).transport costs supply demand = .ok (.failure .exhausted j)) ∧
        (o.status ≠ .unbounded →
          (⟨o.pivots⟩ : Config).transport costs supply demand = .ok o) ∧
        (o.status = .unbounded →
          (⟨o.pivots⟩ : Config).transport costs supply demand =
              .ok (.failure .exhausted o.pivots) ∧
            (⟨o.pivots + 1⟩ : Config).transport costs supply demand = .ok o)) := by
  obtain ⟨net, hbuilt, hprice⟩ := Network.build_priced hshape hfull
  have htransport : ∀ j, (⟨j⟩ : Config).transport costs supply demand = solve j net := by
    intro j
    rw [Config.transport, hbuilt, Fault.ok_bind]
  simp only [htransport]
  obtain ⟨o, ho, hcase⟩ := solve_cases hprice k
  obtain ⟨o', ho', -⟩ := solve_cases hprice k'
  refine ⟨o, o', ho, ho', ?_⟩
  rcases hcase with rfl | ⟨hstatus, hleast, hall⟩
  · exact ⟨fun h => absurd rfl h, fun _ => rfl, fun h => absurd rfl h⟩
  have hsame : o' = o := by
    have h := hall k'
    rw [if_neg (not_lt.mpr (hleast.trans hk)), ho'] at h
    exact Except.ok.inj h
  have hpivots : o.pivots ≤ leastBudget o := by
    rw [leastBudget]
    split <;> omega
  refine ⟨fun _ => ⟨hsame, hpivots.trans hleast⟩, fun h => absurd (hsame ▸ h) hstatus, fun _ => ?_⟩
  refine ⟨fun j hj => ?_, fun hbounded => ?_, fun hunbounded => ?_⟩
  · rw [hall, if_pos (hj.trans_le hpivots)]
  · rw [hall, leastBudget, if_neg hbounded, if_neg (lt_irrefl _)]
  · have hone : leastBudget o = o.pivots + 1 := if_pos hunbounded
    rw [hall, hall, hone, if_pos (Nat.lt_succ_self _), if_neg (lt_irrefl _)]
    exact ⟨rfl, rfl⟩

end Engine

theorem transport_budget_four :
    ∃ (costs : Matrix Float) (supply demand : Array Float) (o : Outcome Float),
      (⟨4⟩ : Config).transport costs supply demand = .ok o ∧ o.status = .optimal ∧
      (⟨9⟩ : Config).transport costs supply demand = .ok o ∧
      ∀ j < 4, (⟨j⟩ : Config).transport costs supply demand = .ok (.failure .exhausted j) := by
  let costs : Matrix Float := ⟨2, 3, #[3, 1, 4, 1, 5, 9]⟩
  let supply : Array Float := #[0.5, 0.5]
  let demand : Array Float := #[0.25, 0.25, 0.5]
  have hshape : costs.shape = (supply.size, demand.size) := rfl
  have hanswer : ((⟨4⟩ : Config).transport costs supply demand).toOption.map
      (fun o => (o.status, o.pivots)) = some (.optimal, 4) := by
    decide +kernel
  obtain ⟨o, ho, hall⟩ := Fault.exists_of_map hanswer
  simp only [Prod.mk.injEq] at hall
  obtain ⟨hoptimal, hpivots⟩ := hall
  have hsettled : o.status ≠ .exhausted := by simp [hoptimal]
  obtain ⟨o₁, o', ho₁, ho', hsame, -, hleast⟩ :=
    transport_budget hshape rfl (show 4 ≤ 9 by decide)
  obtain rfl := Except.ok.inj (ho.symm.trans ho₁)
  refine ⟨costs, supply, demand, o, ho, hoptimal, ?_, ?_⟩
  · rw [ho', (hsame hsettled).1]
  · rw [← hpivots]
    exact (hleast hsettled).1

theorem pivots_not_enough :
    ¬ ∀ (costs : Matrix Float) (supply demand : Array Float),
      costs.shape = (supply.size, demand.size) → costs.Full → ∀ k o,
        (⟨k⟩ : Config).transport costs supply demand = .ok o → o.status ≠ .exhausted →
          ∃ o', (⟨o.pivots⟩ : Config).transport costs supply demand = .ok o' ∧
            o'.status ≠ .exhausted := by
  intro h
  have hone : ((⟨1⟩ : Config).transport (⟨1, 1, #[-10]⟩ : Matrix Float) #[-1] #[-1]).toOption.map
      (fun o => (o.status, o.pivots)) = some (.unbounded, 0) := by
    decide +kernel
  have hnone : ((⟨0⟩ : Config).transport (⟨1, 1, #[-10]⟩ : Matrix Float) #[-1] #[-1]).toOption.map
      Outcome.status = some .exhausted := by
    decide +kernel
  obtain ⟨o, ho, hall⟩ := Fault.exists_of_map hone
  simp only [Prod.mk.injEq] at hall
  obtain ⟨o', ho', hne⟩ := h ⟨1, 1, #[-10]⟩ #[-1] #[-1] rfl rfl 1 o ho (by simp [hall.1])
  rw [hall.2] at ho'
  rw [ho'] at hnone
  exact hne (Option.some.inj hnone)

end OptimalTransport.Simplex
