import OptimalTransport.Proofs.Flow.Walk
import OptimalTransport.Proofs.Pricing.CycleCost
import OptimalTransport.Proofs.Tree.Relabel

namespace OptimalTransport

variable {n m : Nat}

section Signed

variable {net : Network n m ℚ}

def Crossing.signed (net : Network n m ℚ) (worth : Arc n m → ℚ) (x : Crossing n m) : ℚ :=
  if x.Along net then worth x.arc else -worth x.arc

theorem Network.Walk.sum_cost {u v : Node n m} {xs : List (Crossing n m)} (h : net.Walk u v xs)
    (p : Node n m → ℚ) :
    (xs.map (Crossing.signed net net.cost)).sum =
      (xs.map (Crossing.signed net fun a => net.cost a + p (net.tail a) - p (net.head a))).sum +
        p v - p u := by
  induction h with
  | stay u => simp
  | @cross x v rest hx hrest ih =>
    rw [List.map_cons, List.sum_cons, ih, List.map_cons, List.sum_cons, Crossing.signed,
      Crossing.signed]
    by_cases halong : x.Along net
    · rw [if_pos halong, if_pos halong, halong.1, halong.2]
      ring
    · obtain ⟨htail, hhead⟩ := hx.resolve_left halong
      rw [if_neg halong, if_neg halong, htail, hhead]
      ring

theorem Cycle.Closes.sum_cost {t : SpanningTree n m ℚ} (hw : t.WellFormed net) {a : Arc n m}
    {apex : Node n m} {c : Cycle n m} (h : c.Closes net t a apex) :
    ((c.walk net t a).map (Crossing.signed net net.cost)).sum = Pricing.reducedCost net t a := by
  have hzero : ∀ half (sites : List (Site n m)), ((sites.map (Crossing.above t half)).map
      (Crossing.signed net (Pricing.reducedCost net t))).sum = 0 := by
    intro half sites
    apply List.sum_eq_zero
    simp only [List.map_map, List.forall_mem_map, Function.comp_apply]
    intro v _
    have htree : Pricing.reducedCost net t (Crossing.above t half v).arc = 0 := by
      cases half <;> exact Pricing.reducedCost_arc hw v
    rw [Crossing.signed, htree, neg_zero, ite_self]
  have hclosing : Crossing.signed net (Pricing.reducedCost net t) (.closing net a) =
      Pricing.reducedCost net t a :=
    if_pos (Crossing.along_closing net a)
  have hreduced : (fun a => net.cost a + t.potential (net.tail a) - t.potential (net.head a)) =
      Pricing.reducedCost net t :=
    funext fun a => (Pricing.reducedCost_eq net t a).symm
  -- the walk is closed, so that the potentials at its ends cancel
  rw [(h.walk hw.joined).sum_cost t.potential, hreduced, Cycle.walk, List.map_append,
    List.map_cons, List.sum_append, List.sum_cons, hzero, hzero, hclosing]
  ring

end Signed

theorem Cycle.Closes.swaps {α : Type} [Scalar α] {net : Network n m α} {t : SpanningTree n m α}
    (hw : t.WellFormed net) {r : Route n m} {apex : Node n m} {c : Cycle n m}
    (h : c.Closes net t r.arc apex) (hcost : net.requireCost r.arc = .ok ()) {half : Half}
    {v : Site n m} (hv : v ∈ c.side half) :
    t.Swaps net r.arc (r.near half) (some (r.far half)) v where
  priced := hcost
  inner_below := .of_mem (h.climb half) hv
  outer_not_below := h.not_below_far hw.ranked hv
  joins := r.joins net half

namespace Pricing

open SpanningTree

variable {net : Network n m ℚ} {t : SpanningTree n m ℚ}

theorem cycleCost_agrees (h : Exchanges net (.star net) t) (r : Route n m) :
    ∃ apex c, t.join (net.tail r.arc) (net.head r.arc) = .ok apex ∧ t.cycle net r.arc = .ok c ∧
      net.Walk apex apex (c.walk net t r.arc) ∧
      (cycleCost net t r.arc c).sum = reducedCost net t r.arc ∧
      reducedCost net t r.arc =
        net.cost r.arc + t.potential (net.tail r.arc) - t.potential (net.head r.arc) ∧
      reducedCost net t r.arc = ((c.walk net t r.arc).map (Crossing.signed net net.cost)).sum ∧
      (∀ v, reducedCost net t (t.arc v) = 0) ∧
      ((t.label (net.tail r.arc)).offset = (t.label (net.head r.arc)).offset →
        |reducedCost net t r.arc| ≤ (cycleCost net t r.arc c).size) ∧
      (net.requireCost r.arc = .ok () → ∀ half, ∀ v ∈ c.side half,
        ∃ t', t.exchange net r.arc (r.near half) (some (r.far half)) v = .ok t' ∧
          Exchanges net (.star net) t') := by
  have hw := h.wellFormed (.star net)
  obtain ⟨c, -, hc, -⟩ := cycle_ok hw.ranked net r.arc
  obtain ⟨apex, hjoin, hcl⟩ := join_of_cycle hw.ranked hc
  refine ⟨apex, c, hjoin, hc, hcl.walk hw.joined, cycleCost_sum hw hcl, reducedCost_eq net t r.arc,
    (hcl.sum_cost hw).symm, reducedCost_arc hw, fun hoffset => ?_, fun hcost half v hv => ?_⟩
  · have hsize := abs_reducedCost_sub_offset_le hw hcl
    rwa [hoffset, sub_self, sub_zero] at hsize
  · have hswap := hcl.swaps hw hcost hv
    obtain ⟨t', -, ht', -⟩ := hswap.exchange_ok hw
    exact ⟨t', ht', .step h hswap ht'⟩

theorem cycleCost_agrees_through_root :
    ∃ (net : Network 2 2 ℚ) (t : SpanningTree 2 2 ℚ) (c : Cycle 2 2),
      Exchanges net (.star net) t ∧ t.cycle net (.real 0 1) = .ok c ∧
      (c.walk net t (.real 0 1)).map Crossing.arc =
        [.artificial (.target 0), .real 0 0, .real 0 1, .artificial (.target 1)] ∧
      reducedCost net t (.real 0 1) = 1 ∧ (cycleCost net t (.real 0 1) c).sum = 1 ∧
      ((c.walk net t (.real 0 1)).map (Crossing.signed net net.cost)).sum = 1 := by
  let net : Network 2 2 ℚ := ⟨⟨2, 2, #[1, 2, 3, 4]⟩, .ofFn ![1, 1], .ofFn ![1, 1], 25⟩
  have hside : ((star net).cycle net (.real 0 0)).toOption.map Cycle.tailSide =
      some [.source 0] := by
    decide +kernel
  have hchecks : ((star net).exchange net (.real 0 0) (.source 0) (some (.target 0))
      (.source 0)).toOption.map (fun t => (reducedCost net t (.real 0 1),
        (t.cycle net (.real 0 1)).toOption.map fun c =>
          (c.walk net t (.real 0 1)).map Crossing.arc)) =
      some (1, some [.artificial (.target 0), .real 0 0, .real 0 1, .artificial (.target 1)]) := by
    decide +kernel
  obtain ⟨c₀, hc₀, htail⟩ := Fault.exists_of_map hside
  obtain ⟨t, ht, hall⟩ := Fault.exists_of_map hchecks
  simp only [Prod.mk.injEq] at hall
  obtain ⟨hreduced, hwalk⟩ := hall
  have hstar : Exchanges net (.star net) (.star net) := .refl
  obtain ⟨-, c₁, -, hc₁, -, -, -, -, -, -, hexchanges⟩ := cycleCost_agrees hstar (0, 0)
  obtain rfl := Except.ok.inj (hc₀.symm.trans hc₁)
  have hmem : Site.source 0 ∈ c₀.side .tail := by
    rw [Cycle.side, htail]
    exact List.mem_singleton_self _
  obtain ⟨t', ht', hreached⟩ := hexchanges (by decide +kernel) .tail (.source 0) hmem
  obtain rfl := Except.ok.inj (ht.symm.trans ht')
  obtain ⟨-, c, -, hc, -, hsum, -, hsigned, -, -, -⟩ := cycleCost_agrees hreached (0, 1)
  obtain ⟨c', hc', harcs⟩ := Fault.exists_of_map hwalk
  obtain rfl := Except.ok.inj (hc.symm.trans hc')
  exact ⟨net, t, c, hreached, hc, harcs, hreduced, hsum.trans hreduced, hsigned.symm.trans hreduced⟩

end Pricing

end OptimalTransport
