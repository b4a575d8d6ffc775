import OptimalTransport.Proofs.Least
import OptimalTransport.Proofs.Pricing.Countdown
import OptimalTransport.Proofs.Simplex.Entering

namespace OptimalTransport

variable {n m : Nat}

namespace Route

theorem index_injective : Function.Injective (index : Route n m → Nat) := by
  rintro ⟨i, j⟩ ⟨i', j'⟩ h
  simp only [index] at h
  have hpos : 0 < m := Nat.zero_lt_of_lt j.isLt
  have hi := congrArg (· / m) h
  have hj := congrArg (· % m) h
  simp only [Nat.mul_comm _ m, Nat.mul_add_div hpos, Nat.mul_add_mod, Nat.div_eq_of_lt j.isLt,
    Nat.div_eq_of_lt j'.isLt, Nat.mod_eq_of_lt j.isLt, Nat.mod_eq_of_lt j'.isLt] at hi hj
  exact Prod.ext (Fin.ext hi) (Fin.ext hj)

theorem map_index_all : (all n m).map index = List.range (n * m) := by
  have hrows : ∀ k, (List.range k).flatMap (fun i => (List.range m).map (i * m + ·)) =
      List.range (k * m) := by
    intro k
    induction k with
    | zero => simp
    | succ k ih => simp [List.range_succ, ih, Nat.succ_mul, List.range_add]
  rw [← hrows n, all, List.map_flatMap, ← List.map_coe_finRange_eq_range (n := n),
    List.flatMap_map]
  congr 1
  funext i
  rw [List.map_map, ← List.map_coe_finRange_eq_range (n := m), List.map_map]
  rfl

theorem map_index_window (h : 0 < n * m) (first count : Nat) :
    (window first count : List (Route n m)).map index =
      (List.range count).map fun k => (first + k) % (n * m) := by
  induction count with
  | zero => rfl
  | succ count ih =>
    obtain ⟨r, hr, hwindow⟩ := window_succ h first count
    rw [hwindow, List.map_append, ih, List.range_succ, List.map_append, List.map_singleton,
      List.map_singleton, hr]

def circle (n m first : Nat) : List (Route n m) :=
  (all n m).rotate first

theorem circle_eq_window (h : 0 < n * m) (first : Nat) :
    circle n m first = window first (n * m) := by
  apply List.map_injective_iff.mpr index_injective
  rw [circle, List.map_rotate, map_index_all, map_index_window h]
  apply List.ext_getElem
  · simp
  · intro k hk hk'
    simp [List.getElem_rotate, Nat.add_comm]

theorem drop_window (h : 0 < n * m) (first count k : Nat) :
    (window first count : List (Route n m)).drop k = window (first + k) (count - k) := by
  by_cases hk : k ≤ count
  · obtain ⟨rest, rfl⟩ := Nat.exists_eq_add_of_le hk
    rw [window_add, List.drop_left' (length_window h first k), Nat.add_sub_cancel_left]
  · rw [List.drop_eq_nil_of_le (by rw [length_window h]; omega), Nat.sub_eq_zero_of_le (by omega)]
    rfl

theorem take_window (h : 0 < n * m) (first count k : Nat) :
    (window first count : List (Route n m)).take k = window first (min k count) := by
  by_cases hk : k ≤ count
  · obtain ⟨rest, rfl⟩ := Nat.exists_eq_add_of_le hk
    rw [window_add, List.take_left' (length_window h first k), Nat.min_eq_left hk]
  · rw [List.take_of_length_le (by rw [length_window h]; omega), Nat.min_eq_right (by omega)]

end Route

namespace Pricing

variable {α : Type} [Scalar α] {net : Network n m α} {t : SpanningTree n m α}
  {basic : Arc n m → Bool}

structure Candidate (net : Network n m α) (t : SpanningTree n m α) (basic : Arc n m → Bool)
    (r : Route n m) : Prop where
  nonbasic : basic r.arc = false
  negative : reducedCost net t r.arc < 0
  clears : reducedCost net t r.arc < -tolerance net t r.arc

namespace Sweep

def blockAt (n m : Nat) (s : Sweep) (k : Nat) : List (Route n m) :=
  ((Route.circle n m s.next).drop (k * s.block)).take s.block

def resume (s : Sweep) (found : Option (Route n m × Sweep)) : Sweep :=
  found.elim s Prod.snd

variable {s : Sweep}

theorem resume_of_entering {b : Simplex.Basis n m α} {found : Option (Route n m × Sweep)}
    (hfind : b.sweep.find net b.tree b.basic.get = .ok found) {x : Route n m × Sweep}
    (h : b.entering net = .ok (some x)) : x.2 = b.sweep.resume found := by
  rw [Simplex.Basis.entering, hfind, Fault.ok_bind] at h
  cases found with
  | some y =>
    cases h
    rfl
  | none =>
    obtain ⟨o, -, ho⟩ := Fault.bind_eq_ok.mp h
    obtain ⟨r, -, rfl⟩ := Option.map_eq_some_iff.mp (Except.ok.inj ho)
    rfl

theorem blockAt_eq_window (h : 0 < n * m) (s : Sweep) (k : Nat) :
    s.blockAt n m k =
      Route.window (s.next + k * s.block) (min s.block (n * m - k * s.block)) := by
  rw [blockAt, Route.circle_eq_window h, Route.drop_window h, Route.take_window h]

theorem length_blockAt (h : 0 < n * m) (s : Sweep) (k : Nat) :
    (s.blockAt n m k).length = min s.block (n * m - k * s.block) := by
  rw [blockAt_eq_window h, Route.length_window h]

theorem flatMap_blockAt (s : Sweep) (k : Nat) :
    (List.range k).flatMap (s.blockAt n m) = (Route.circle n m s.next).take (k * s.block) := by
  induction k with
  | zero => simp
  | succ k ih =>
    rw [List.range_succ, List.flatMap_append, ih, List.flatMap_singleton, Nat.succ_mul,
      List.take_add]
    rfl

theorem flatMap_blocks (hblock : 0 < s.block) :
    (List.range (s.blocks (n * m))).flatMap (s.blockAt n m) = Route.circle n m s.next := by
  have hend : ¬ s.blocks (n * m) < s.blocks (n * m) := lt_irrefl _
  rw [lt_blocks_iff hblock] at hend
  have hlength := congrArg List.length (Route.map_index_all (n := n) (m := m))
  rw [List.length_map, List.length_range] at hlength
  rw [flatMap_blockAt]
  apply List.take_of_length_le
  rw [Route.circle, List.length_rotate, hlength]
  omega

/-- Where a search goes on that has found a route in a block: after the block if it is full, and
after the route if it is short. -/
structure Lands (s : Sweep) (k : Nat) (r : Route n m) (s' : Sweep) : Prop where
  block : s'.block = s.block
  full (h : (s.blockAt n m k).length = s.block) :
    ∃ last, (s.blockAt n m k).getLast? = some last ∧ s'.next = (last.index + 1) % (n * m)
  short (h : (s.blockAt n m k).length < s.block) : s'.next = (r.index + 1) % (n * m)

theorem Lands.next_lt {k : Nat} {r : Route n m} {s' : Sweep} (h : s.Lands k r s') :
    s'.next < n * m := by
  have hpos : 0 < n * m := Nat.zero_lt_of_lt r.index_lt
  rcases Nat.lt_or_ge (s.blockAt n m k).length s.block with hshort | hfull
  · rw [h.short hshort]
    exact Nat.mod_lt _ hpos
  · have hle : (s.blockAt n m k).length ≤ s.block := List.length_take_le _ _
    obtain ⟨last, -, hnext⟩ := h.full (Nat.le_antisymm hle hfull)
    rw [hnext]
    exact Nat.mod_lt _ hpos

inductive Found (net : Network n m α) (t : SpanningTree n m α) (basic : Arc n m → Bool)
    (s : Sweep) (k : Nat) : Option (Route n m × Sweep) → Prop
  | none (h : ∀ r ∈ s.blockAt n m k, ¬ Candidate net t basic r) : Found net t basic s k none
  | some {r : Route n m} {s' : Sweep}
      (first : FirstLeast (Candidate net t basic) (fun r => reducedCost net t r.arc)
        (s.blockAt n m k) r)
      (lands : s.Lands k r s') : Found net t basic s k (some (r, s'))

end Sweep

inductive Bid.Best (net : Network n m α) (t : SpanningTree n m α) (basic : Arc n m → Bool)
    (routes : List (Route n m)) : Option (Bid n m α) → Prop
  | none (h : ∀ r ∈ routes, ¬ Candidate net t basic r) : Best net t basic routes none
  | some {r : Route n m}
      (h : FirstLeast (Candidate net t basic) (fun r => reducedCost net t r.arc) routes r) :
      Best net t basic routes (some ⟨r, reducedCost net t r.arc⟩)

variable [Scalar.Ordered α]

open Scalar.Ordered

theorem Bid.Best.consider {routes : List (Route n m)} {best : Option (Bid n m α)}
    (h : Best net t basic routes best) (hprice : net.Priced) (w : Route n m) :
    ∃ best', Bid.consider net t basic best w = .ok best' ∧
      Best net t basic (routes ++ [w]) best' := by
  rw [Bid.consider]
  by_cases hw : basic w.arc = true
  · have hnot : ¬ Candidate net t basic w := fun hc => by simp [hc.nonbasic] at hw
    refine ⟨best, if_pos hw, ?_⟩
    cases h with
    | none h => exact .none (forall_mem_concat h hnot)
    | some h => exact .some (h.keep fun hc => absurd hc hnot)
  rw [if_neg hw, Bid.improve, net.requireCost_ok hprice, Fault.ok_bind]
  rw [Bool.not_eq_true] at hw
  refine ⟨_, rfl, ?_⟩
  simp only [Bool.and_eq_true, decide_eq_true_eq]
  cases h with
  | none h =>
    split
    · next hc => exact .some (.concat (fun y hy hy' => absurd hy' (h y hy)) ⟨hw, hc.1, hc.2⟩)
    · next hc => exact .none (forall_mem_concat h fun hc' => hc ⟨hc'.negative, hc'.clears⟩)
  | @some r h =>
    have hr := le_of_lt h.holds.negative
    split
    · next hc =>
      -- what beats the best bid also beats all that the best bid was not above
      have hbelow : ∀ y ∈ routes, Candidate net t basic y →
          reducedCost net t w.arc < reducedCost net t y.arc :=
        fun y hy hy' => lt_of_lt_of_le hc.1 (h.least (le_self_of_le hr).1 y hy hy')
      have hneg : reducedCost net t w.arc < 0 := lt_of_lt_of_le hc.1 hr
      exact .some (.concat hbelow ⟨hw, hneg, hc.2⟩)
    · next hc =>
      refine .some (h.keep fun hc' => ?_)
      have hw' := le_of_lt hc'.negative
      exact le_of_not_lt (le_self_of_le hw').1 (le_self_of_le hr).1
        fun hlt => hc ⟨hlt, hc'.clears⟩

theorem Bid.best_is_best (hprice : net.Priced) (t : SpanningTree n m α) (basic : Arc n m → Bool)
    (routes : List (Route n m)) :
    ∃ best, Bid.best net t basic routes = .ok best ∧ Best net t basic routes best := by
  induction routes using List.reverseRecOn with
  | nil => exact ⟨none, rfl, .none (by simp)⟩
  | append_singleton routes w ih =>
    obtain ⟨best, hbest, h⟩ := ih
    obtain ⟨best', hbest', h'⟩ := h.consider hprice w
    refine ⟨best', ?_, h'⟩
    rw [Bid.best] at hbest ⊢
    rw [List.foldlM_append, hbest, Fault.ok_bind]
    simp only [List.foldlM_cons, List.foldlM_nil, bind_pure]
    exact hbest'

namespace Sweep

variable {s : Sweep}

theorem findIn_found (hprice : net.Priced) (hroutes : 0 < n * m) (hblock : 0 < s.block)
    (t : SpanningTree n m α) (basic : Arc n m → Bool) (k : Nat) :
    ∃ o, s.findIn net t basic k = .ok o ∧ s.Found net t basic k o := by
  obtain ⟨best, hbest, h⟩ := Bid.best_is_best hprice t basic
    (Route.window (s.next + k * s.block) (Nat.min s.block (n * m - k * s.block)))
  refine ⟨_, by rw [findIn]; dsimp only; rw [hbest, Fault.ok_bind]; rfl, ?_⟩
  have hsize := length_blockAt hroutes s k
  cases h with
  | none h => exact .none (by rwa [blockAt_eq_window hroutes])
  | @some r h =>
    refine .some (by rwa [blockAt_eq_window hroutes]) ⟨rfl, fun hfull => ?_, fun hshort => ?_⟩
    · have hrest : s.block - 1 + 1 = s.block := Nat.sub_add_cancel hblock
      obtain ⟨last, hlast, hwindow⟩ :=
        Route.window_succ hroutes (s.next + k * s.block) (s.block - 1)
      rw [hrest] at hwindow
      rw [hsize] at hfull
      refine ⟨last, ?_, ?_⟩
      · rw [blockAt_eq_window hroutes, hfull, hwindow, List.getLast?_concat]
      · have hend : s.next + k * s.block + (s.block - 1) + 1 = s.next + k * s.block + s.block := by
          omega
        rw [hlast, Nat.mod_add_mod, hend]
        simp [hfull]
    · rw [hsize] at hshort
      simp [hshort.ne]

theorem find_found (hprice : net.Priced) (hroutes : 0 < n * m) (hblock : 0 < s.block)
    (t : SpanningTree n m α) (basic : Arc n m → Bool) :
    ∃ o, s.find net t basic = .ok o ∧ (o = none → ∀ r, ¬ Candidate net t basic r) ∧
      ∀ r s', o = some (r, s') →
        ∃ k, (∀ j < k, ∀ x ∈ s.blockAt n m j, ¬ Candidate net t basic x) ∧
          FirstLeast (Candidate net t basic) (fun x => reducedCost net t x.arc)
            (s.blockAt n m k) r ∧
          s.Lands k r s' := by
  choose found hok hfound using findIn_found (s := s) hprice hroutes hblock t basic
  have hp : s.findIn net t basic = fun k => pure (found k) := funext hok
  -- a block without a bid has no candidate, and the blocks together are the circle
  have hempty : ∀ k, found k = none → ∀ r ∈ s.blockAt n m k, ¬ Candidate net t basic r := by
    intro k hk
    cases hk ▸ hfound k with
    | none h => exact h
  refine ⟨(List.range (s.blocks (n * m))).findSome? found, ?_, fun hnone r => ?_, fun r s' h => ?_⟩
  · rw [find, hp, List.findSomeM?_pure]
    rfl
  · have hr : r ∈ Route.circle n m s.next := List.mem_rotate.mpr (Route.mem_all r)
    rw [← flatMap_blocks hblock] at hr
    obtain ⟨k, hk, hr⟩ := List.mem_flatMap.mp hr
    exact hempty k (List.findSome?_eq_none_iff.mp hnone k hk) r hr
  · obtain ⟨front, k, back, hrange, hk, hfront⟩ := List.findSome?_eq_some_iff.mp h
    rw [List.range_eq_range', List.range'_eq_append_iff] at hrange
    obtain ⟨c, -, rfl, hrest⟩ := hrange
    obtain ⟨rfl, -, -⟩ := List.range'_eq_cons_iff.mp hrest.symm
    have hbefore : ∀ j < 0 + c * 1, ∀ r ∈ s.blockAt n m j, ¬ Candidate net t basic r :=
      fun j hj => hempty j (hfront j (List.mem_range'_1.mpr (by omega)))
    cases hk ▸ hfound _ with
    | some first lands => exact ⟨_, hbefore, first, lands⟩

theorem find_first_block (hprice : net.Priced) (hroutes : 0 < n * m) (hblock : 0 < s.block)
    (hnext : s.next < n * m) (t : SpanningTree n m α) (basic : Arc n m → Bool) :
    ∃ found, s.find net t basic = .ok found ∧
      s.countdown net t basic s.block none (Route.circle n m s.next) = .ok found ∧
      (found = none ↔ ∀ r, ¬ Candidate net t basic r) ∧ (s.resume found).next < n * m ∧
      (∀ b : Simplex.Basis n m α, b.tree = t → b.basic.get = basic → b.sweep = s →
        ∀ x, b.entering net = .ok (some x) → x.2 = s.resume found) ∧
      ∀ r s', found = some (r, s') →
        ∃ k, (∀ j < k, ∀ x ∈ s.blockAt n m j, ¬ Candidate net t basic x) ∧
          FirstLeast (Candidate net t basic) (fun x => reducedCost net t x.arc)
            (s.blockAt n m k) r ∧
          s.Lands k r s' := by
  obtain ⟨found, hfind, hnone, hsome⟩ := find_found hprice hroutes hblock t basic
  refine ⟨found, hfind, ?_, ⟨hnone, fun hall => ?_⟩, ?_, ?_, hsome⟩
  · rw [Route.circle_eq_window hroutes, ← find_eq_countdown hblock, hfind]
  · by_contra h
    obtain ⟨⟨r, s'⟩, h⟩ := Option.ne_none_iff_exists'.mp h
    obtain ⟨k, -, first, -⟩ := hsome r s' h
    exact hall r first.holds
  · cases found with
    | none => exact hnext
    | some x =>
      obtain ⟨k, -, -, lands⟩ := hsome x.1 x.2 rfl
      exact lands.next_lt
  · rintro b rfl rfl rfl x hx
    exact resume_of_entering hfind hx

theorem find_first_block_second :
    ∃ (net : Network 2 3 Float) (basic : Arc 2 3 → Bool) (s s' : Sweep),
      s.block = 2 ∧ s.next = 5 ∧ s.find net (.star net) basic = .ok (some ((0, 1), s')) ∧
      (∀ r ∈ s.blockAt 2 3 0, ¬ Candidate net (.star net) basic r) ∧
      s.blockAt 2 3 1 = [(0, 1), (0, 2)] ∧
      FirstLeast (Candidate net (.star net) basic) (fun r => reducedCost net (.star net) r.arc)
        (s.blockAt 2 3 1) (0, 1) ∧
      s'.next = 3 := by
  let net : Network 2 3 Float :=
    ⟨⟨2, 3, #[1, 2, 2, 4, 1, 1]⟩, .ofFn ![0.5, 0.5], .ofFn ![0.5, 0.25, 0.25], 25⟩
  let basic : Arc 2 3 → Bool := fun a => a ∈ [.real 1 2, .real 0 0]
  let s : Sweep := ⟨2, 5⟩
  have hchecks : (s.find net (.star net) basic).toOption.join.map
      (fun x => (x.1, x.2.next)) = some ((0, 1), 3) := by
    decide +kernel
  obtain ⟨x, hx, hchecks⟩ := Fault.exists_of_join_map hchecks
  have hprice : net.Priced := by decide +kernel
  obtain ⟨found, hfind, -, -, -, -, hsome⟩ :=
    find_first_block (s := s) hprice (by decide) (by decide) (by decide) (.star net) basic
  obtain rfl := Except.ok.inj (hfind.symm.trans hx)
  obtain ⟨r, s'⟩ := x
  simp only [Prod.mk.injEq] at hchecks
  obtain ⟨rfl, hnext⟩ := hchecks
  obtain ⟨k, hbefore, hfirst, hlands⟩ := hsome (0, 1) s' rfl
  have hsecond : s.blockAt 2 3 1 = [(0, 1), (0, 2)] := by decide
  have hk : k = 1 := by
    rcases Nat.lt_trichotomy k 1 with h | h | h
    · obtain rfl : k = 0 := by omega
      exact absurd hfirst.mem (by decide)
    · exact h
    · exact absurd hfirst.holds (hbefore 1 h (0, 1) (by simp [hsecond]))
  subst hk
  exact ⟨net, basic, s, s', rfl, rfl, hx, hbefore 0 Nat.one_pos, hsecond, hfirst, hnext⟩

end Sweep

end Pricing

end OptimalTransport
