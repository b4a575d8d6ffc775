import OptimalTransport.Proofs.Simplex.Entering
import OptimalTransport.Proofs.Simplex.Progress

namespace OptimalTransport.Simplex.Basis

variable {n m : Nat} {net : Network n m ℚ} {b b' : Basis n m ℚ} {r : Route n m}
  {status : Status}

theorem Sound.cheap_iff (h : b.Sound net) {c : Cycle n m} (hc : b.tree.cycle net r.arc = .ok c) :
    b.Cheap net r ↔ b.basic.get r.arc = false ∧ Pricing.reducedCost net b.tree r.arc <
      -(Pricing.epsilon * (Pricing.cycleCost net b.tree r.arc c).size) := by
  obtain ⟨apex, hcl⟩ := SpanningTree.closes_of_cycle h.wellFormed.ranked hc
  have hsum := Pricing.cycleCost_sum h.wellFormed hcl
  constructor
  · rintro ⟨he, -, c', hc', hlt⟩
    obtain rfl := Except.ok.inj (hc.symm.trans hc')
    rw [hsum, neg_mul] at hlt
    exact ⟨he, hlt⟩
  · rintro ⟨he, hlt⟩
    have htol := Pricing.tolerance_nonneg net b.tree r.arc
    have hsize := mul_nonneg Pricing.epsilon_pos.le
      (Pricing.cycleCost_size_nonneg net b.tree r.arc c)
    refine ⟨he, by linarith, c, hc, ?_⟩
    rwa [hsum, neg_mul]

theorem Cheap.reducedCost_neg (hcheap : b.Cheap net r) (h : b.Sound net) :
    Pricing.reducedCost net b.tree r.arc < 0 := by
  obtain ⟨-, -, c, hc, -⟩ := id hcheap
  have hlt := ((h.cheap_iff hc).mp hcheap).2
  have := mul_nonneg Pricing.epsilon_pos.le (Pricing.cycleCost_size_nonneg net b.tree r.arc c)
  linarith

theorem Sound.negative_of_entering (h : b.Sound net) (hprice : net.Priced) {sweep : Pricing.Sweep}
    (hfound : b.entering net = .ok (some (r, sweep))) :
    b.basic.get r.arc = false ∧ Pricing.reducedCost net b.tree r.arc < 0 := by
  obtain ⟨o, ho, -, hsome⟩ := b.entering_ok h hprice
  obtain rfl := Except.ok.inj (hfound.symm.trans ho)
  obtain ⟨he, hlt | hcheap⟩ := hsome _ rfl
  · exact ⟨he, by linarith [Pricing.tolerance_nonneg net b.tree r.arc]⟩
  · exact ⟨he, hcheap.reducedCost_neg h⟩

def basicArcs (b : Basis n m ℚ) : Finset (Arc n m) :=
  Finset.univ.filter fun a => b.basic.get a = true

def Improves (net : Network n m ℚ) (b b' : Basis n m ℚ) : Prop :=
  ∃ r sweep, b.basic.get r.arc = false ∧ Pricing.reducedCost net b.tree r.arc < 0 ∧
    { b with sweep }.pivot net r = .ok (some b')

theorem Improves.step (hi : Improves net b b') (h : b.Feasible net) (hprice : net.Priced) :
    b'.Feasible net ∧ b'.measure net < b.measure net := by
  obtain ⟨r, sweep, he, hneg, hpivot⟩ := hi
  have hs := h.withSweep sweep
  obtain ⟨c, apex, -, ⟨-, hnone⟩ | ⟨k, stem, b₁, hsome, p⟩⟩ := pivot_cases hs.sound hprice r
  · rw [hnone] at hpivot; cases hpivot
  · rw [hsome] at hpivot
    obtain rfl := Option.some.inj (Except.ok.inj hpivot)
    exact ⟨p.feasible hs he, p.measure_lt hs he hneg⟩

theorem Improves.chain (h : b.Feasible net) (hprice : net.Priced) {bs : List (Basis n m ℚ)}
    (hchain : (b :: bs).IsChain (Improves net)) :
    ∀ x ∈ bs, x.Feasible net ∧ x.measure net < b.measure net := by
  induction bs generalizing b with
  | nil => simp
  | cons b₁ bs ih =>
    obtain ⟨hi, hrest⟩ := List.isChain_cons_cons.mp hchain
    obtain ⟨h₁, hlt⟩ := hi.step h hprice
    intro x hx
    rcases List.mem_cons.mp hx with rfl | hx
    · exact ⟨h₁, hlt⟩
    · exact ⟨(ih h₁ hrest x hx).1, (ih h₁ hrest x hx).2.trans hlt⟩

theorem Improves.nodup (h : b.Feasible net) (hprice : net.Priced) {bs : List (Basis n m ℚ)}
    (hchain : (b :: bs).IsChain (Improves net)) : ((b :: bs).map basicArcs).Nodup := by
  induction bs generalizing b with
  | nil => simp
  | cons b₁ bs ih =>
    obtain ⟨hi, hrest⟩ := List.isChain_cons_cons.mp hchain
    have hlower := Improves.chain h hprice hchain
    rw [List.map_cons, List.nodup_cons]
    refine ⟨fun hm => ?_, ih (hi.step h hprice).1 hrest⟩
    obtain ⟨x, hx, heq⟩ := List.mem_map.mp hm
    have hsame : ∀ a, x.basic.get a = b.basic.get a := by
      intro a
      have := Finset.ext_iff.mp heq a
      rw [basicArcs, basicArcs, Finset.mem_filter_univ, Finset.mem_filter_univ] at this
      exact Bool.eq_iff_iff.mpr this
    exact (hlower x hx).2.ne (h.measure_congr (hlower x hx).1 hsame)

inductive Ends (net : Network n m ℚ) (b : Basis n m ℚ) : Status → Prop
  | settled (hcheap : ∀ r, ¬ b.Cheap net r) : Ends net b b.verdict
  | unbounded (r : Route n m) (sweep : Pricing.Sweep)
      (hfound : b.entering net = .ok (some (r, sweep)))
      (hpivot : { b with sweep }.pivot net r = .ok none) : Ends net b .unbounded
  | exhausted : Ends net b .exhausted

theorem Ends.settled_of (h : Ends net b status) (hs : status = .optimal ∨ status = .infeasible) :
    status = b.verdict ∧ ∀ r, ¬ b.Cheap net r := by
  cases h with
  | settled hcheap => exact ⟨rfl, hcheap⟩
  | unbounded => simp at hs
  | exhausted => simp at hs

theorem run_ok (h : b.Feasible net) (hprice : net.Priced) (budget : Nat) :
    ∃ status last bs, b.run net budget = .ok (status, last) ∧ last.Feasible net ∧
      Ends net last status ∧ (b :: bs).IsChain (Improves net) ∧
      (status = .exhausted → bs.length = budget) := by
  induction budget generalizing b with
  | zero =>
    obtain ⟨o, ho, hnone, -⟩ := b.entering_ok h.sound hprice
    cases o with
    | none =>
      exact ⟨_, b, [], run_verdict ho 0, h, .settled (hnone rfl), .singleton b, fun _ => rfl⟩
    | some found =>
      exact ⟨_, b, [], run_exhausted ho, h, .exhausted, .singleton b, fun _ => rfl⟩
  | succ budget ih =>
    obtain ⟨o, ho, hnone, -⟩ := b.entering_ok h.sound hprice
    cases o with
    | none =>
      refine ⟨_, b, [], run_verdict ho _, h, .settled (hnone rfl), .singleton b, fun hv => ?_⟩
      rcases b.verdict_cases with h | h <;> simp [h] at hv
    | some found =>
      obtain ⟨r, sweep⟩ := found
      obtain ⟨he, hneg⟩ := h.sound.negative_of_entering hprice ho
      have hs := h.withSweep sweep
      obtain ⟨c, apex, -, ⟨-, hpivot⟩ | ⟨k, stem, b₁, hpivot, p⟩⟩ := pivot_cases hs.sound hprice r
      · exact ⟨.unbounded, b, [], run_unbounded ho hpivot budget, h,
          .unbounded r sweep ho hpivot, .singleton b, by simp⟩
      · obtain ⟨status, last, bs, hrun, hlast, hends, hchain, hlen⟩ := ih (p.feasible hs he)
        refine ⟨status, last, b₁ :: bs, ?_, hlast, hends, ?_, fun hx => ?_⟩
        · rw [run_succ ho hpivot, hrun]
        · exact List.isChain_cons_cons.mpr ⟨⟨r, sweep, he, hneg, hpivot⟩, hchain⟩
        · rw [List.length_cons, hlen hx]

theorem run_stops (hprice : net.Priced) {budget : Nat} (hb : 2 ^ (n * m + (n + m)) ≤ budget) :
    ∃ status last, (Basis.start net).run net budget = .ok (status, last) ∧
      status ≠ .exhausted := by
  obtain ⟨status, last, bs, hrun, -, -, hchain, hlen⟩ := run_ok (.start net) hprice budget
  refine ⟨status, last, hrun, fun hx => ?_⟩
  have hcard := (Improves.nodup (.start net) hprice hchain).length_le_card
  rw [List.length_map, List.length_cons, hlen hx, Fintype.card_finset, Arc.card_eq] at hcard
  omega

theorem no_basis_recurs (hprice : net.Priced) :
    (∀ bs : List (Basis n m ℚ), (Basis.start net :: bs).IsChain (Improves net) →
        ((Basis.start net :: bs).map basicArcs).Nodup) ∧
      ∀ budget, 2 ^ (n * m + (n + m)) ≤ budget →
        ∃ status last, (Basis.start net).run net budget = .ok (status, last) ∧
          status ≠ .exhausted := by
  constructor
  · intro bs hchain
    exact Improves.nodup (.start net) hprice hchain
  · intro budget hb
    exact run_stops hprice hb

theorem no_basis_recurs_two_by_two :
    ∃ net : Network 2 2 ℚ, net.Priced ∧
      ∃ b, Improves net (Basis.start net) b ∧ (Basis.start net).basicArcs ≠ b.basicArcs ∧
        ∃ status last, (Basis.start net).run net 256 = .ok (status, last) ∧
          status ≠ .exhausted := by
  let net : Network 2 2 ℚ := ⟨⟨2, 2, #[0, -1, 1, 0]⟩, .ofFn fun _ => 1, .ofFn fun _ => 1, 10⟩
  have hprice : net.Priced := by
    intro a
    cases a with
    | real i j => revert i j; decide +kernel
    | artificial v => rfl
  have hpivot : ((Basis.start net).pivot net (0, 0)).toOption.join.isSome = true := by
    decide +kernel
  obtain ⟨c, apex, -, ⟨-, hnone⟩ | ⟨k, stem, b, hsome, -⟩⟩ :=
    pivot_cases (Sound.start net) hprice (0, 0)
  · rw [hnone] at hpivot
    cases hpivot
  have himproves : Improves net (Basis.start net) b :=
    ⟨(0, 0), .start 4, by decide +kernel, by decide +kernel, hsome⟩
  have hchain := (no_basis_recurs hprice).1 [b] (.cons_cons himproves (.singleton b))
  refine ⟨net, hprice, b, himproves, ?_, (no_basis_recurs hprice).2 256 (by decide)⟩
  simpa using hchain

end OptimalTransport.Simplex.Basis
