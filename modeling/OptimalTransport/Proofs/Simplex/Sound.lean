import OptimalTransport.Proofs.Tree.Exchange
import OptimalTransport.Simplex.Pivot

namespace OptimalTransport

variable {n m : Nat} {α : Type} [Scalar α] {net : Network n m α} {t : SpanningTree n m α}

def Route.near (r : Route n m) : Half → Site n m
  | .tail => .source r.1
  | .head => .target r.2

def Route.far (r : Route n m) : Half → Site n m
  | .tail => .target r.2
  | .head => .source r.1

theorem Route.joins (net : Network n m α) (r : Route n m) (half : Half) :
    net.Joins r.arc (r.near half) (some (r.far half)) := by
  cases half with
  | tail => exact net.joins_real r.1 r.2
  | head => exact (net.joins_real r.1 r.2).swap

def Half.losing : Half → Direction
  | .tail => .up
  | .head => .down

def Cycle.side (c : Cycle n m) : Half → List (Site n m)
  | .tail => c.tailSide
  | .head => c.headSide

namespace Cycle.Closes

variable {c : Cycle n m} {r : Route n m} {apex : Node n m}

theorem climb (h : c.Closes net t r.arc apex) (half : Half) :
    t.Climb apex (some (r.near half)) (c.side half) := by
  cases half with
  | tail => exact h.tailClimb
  | head => exact h.headClimb

theorem climb_far (h : c.Closes net t r.arc apex) (half : Half) :
    ∃ sites, t.Climb apex (some (r.far half)) sites ∧ (c.side half).Disjoint sites := by
  cases half with
  | tail => exact ⟨_, h.headClimb, h.disjoint⟩
  | head => exact ⟨_, h.tailClimb, h.disjoint.symm⟩

theorem not_below_far {rank : Node n m → Nat} (h : c.Closes net t r.arc apex) (hr : t.Ranked rank)
    {half : Half} {v : Site n m} (hv : v ∈ c.side half) :
    ¬ t.Below (some (r.far half)) (some v) := by
  obtain ⟨sites, hfar, hd⟩ := h.climb_far half
  rw [hfar.below_iff]
  rintro (hm | hb)
  · exact hd hv hm
  · exact (h.climb half).not_below_of_mem hr hv hb

end Cycle.Closes

namespace Simplex

variable {b b' : Basis n m α} {c : Cycle n m} {k : Blocker n m α}

structure Blocker.Blocks (net : Network n m α) (b : Basis n m α) (c : Cycle n m)
    (k : Blocker n m α) : Prop where
  mem : k.site ∈ c.side k.half
  direction : b.tree.direction net k.site = k.half.losing
  load : k.load = b.load k.site

namespace Blocker

variable {best : Option (Blocker n m α)} {v : Site n m}

theorem tailStep_blocks (ih : ∀ k ∈ best, k.Blocks net b c) (hv : v ∈ c.tailSide) :
    ∀ k ∈ tailStep net b best v, k.Blocks net b c := by
  intro k hk
  unfold tailStep at hk
  split at hk
  · next hd =>
    dsimp only at hk
    split at hk
    · cases hk; exact ⟨hv, hd, rfl⟩
    · exact ih k hk
  · exact ih k hk

theorem headStep_blocks (ih : ∀ k ∈ best, k.Blocks net b c) (hv : v ∈ c.headSide) :
    ∀ k ∈ headStep net b best v, k.Blocks net b c := by
  intro k hk
  unfold headStep at hk
  split at hk
  · exact ih k hk
  · next hd =>
    dsimp only at hk
    split at hk
    · cases hk; exact ⟨hv, hd, rfl⟩
    · exact ih k hk

end Blocker

theorem Basis.blocks_of_leaving (h : b.leaving net c = some k) : k.Blocks net b c := by
  have htail : ∀ k ∈ c.tailSide.foldl (Blocker.tailStep net b) none, k.Blocks net b c :=
    List.foldlRecOn (motive := fun best => ∀ k ∈ best, Blocker.Blocks net b c k) c.tailSide _
      (by simp) fun _ ih _ hv => Blocker.tailStep_blocks ih hv
  have hhead : ∀ k ∈ b.leaving net c, k.Blocks net b c :=
    List.foldlRecOn (motive := fun best => ∀ k ∈ best, Blocker.Blocks net b c k) c.headSide _
      htail fun _ ih _ hv => Blocker.headStep_blocks ih hv
  exact hhead k h

namespace Basis

structure Sound (net : Network n m α) (b : Basis n m α) : Prop where
  wellFormed : b.tree.WellFormed net
  basic_iff : ∀ a, b.basic.get a = true ↔ ∃ v, b.tree.arc v = a

theorem Sound.start (net : Network n m α) : (Basis.start net).Sound net where
  wellFormed := .star net
  basic_iff a := by
    cases a with
    | real i j => simp [Basis.start, Arc.isArtificial, SpanningTree.star, SpanningTree.arc]
    | artificial v => simp [Basis.start, Arc.isArtificial, SpanningTree.star, SpanningTree.arc]

theorem Sound.arc_ne (h : b.Sound net) {a : Arc n m} (ha : b.basic.get a = false)
    (v : Site n m) : b.tree.arc v ≠ a := by
  intro he
  rw [(h.basic_iff a).mpr ⟨v, he⟩] at ha
  cases ha

structure Pivoted (net : Network n m α) (b b' : Basis n m α) (r : Route n m) (c : Cycle n m)
    (apex : Node n m) (k : Blocker n m α) (stem : List (Site n m)) : Prop where
  closes : c.Closes net b.tree r.arc apex
  leaving : b.leaving net c = some k
  side : ∃ rest, c.side k.half = stem ++ k.site :: rest
  climb : b.tree.Climb (some k.site) (some (r.near k.half)) stem
  exchanged : b.tree.Exchanged net b'.tree (some (r.far k.half)) r.arc (r.near k.half) k.site stem
  flow : b'.flow =
    (if 0 < Scalar.max k.load 0 then b.augment net r.arc c (Scalar.max k.load 0)
      else b.flow).put (b.tree.arc k.site) 0
  basic : b'.basic = (b.basic.put (b.tree.arc k.site) false).put r.arc true
  pivots : b'.pivots = b.pivots + 1

theorem pivot_ok (h : b.Sound net) {r : Route n m} (hcost : net.requireCost r.arc = .ok ()) :
    ∃ c apex, b.tree.cycle net r.arc = .ok c ∧ c.Closes net b.tree r.arc apex ∧
      ((b.leaving net c = none ∧ b.pivot net r = .ok none) ∨
        ∃ k stem b', b.pivot net r = .ok (some b') ∧ Pivoted net b b' r c apex k stem) := by
  have hr := h.wellFormed.ranked
  obtain ⟨c, apex, hc, hcl⟩ := SpanningTree.cycle_ok hr net r.arc
  refine ⟨c, apex, hc, hcl, ?_⟩
  cases hk : b.leaving net c with
  | none =>
    refine .inl ⟨rfl, ?_⟩
    simp only [pivot, hc, Fault.ok_bind, hk, Fault.pure_eq_ok]
  | some k =>
    have hblock := blocks_of_leaving hk
    obtain ⟨stem, rest, hside⟩ := List.append_of_mem hblock.mem
    have hclimb := hcl.climb k.half
    rw [hside] at hclimb
    have hfront : b.tree.Climb (some k.site) (some (r.near k.half)) stem :=
      hclimb.front fun hm =>
        (List.nodup_append.mp (hclimb.nodup hr)).2.2 _ hm _ List.mem_cons_self rfl
    obtain ⟨t', ht', hex⟩ := SpanningTree.exchange_ok h.wellFormed hcost hfront
      (hcl.not_below_far hr hblock.mem) (Route.joins net r k.half)
    let amount := Scalar.max k.load 0
    let next : Basis n m α := {
      tree := t'
      flow := (if 0 < amount then b.augment net r.arc c amount else b.flow).put
        (b.tree.arc k.site) 0
      basic := (b.basic.put (b.tree.arc k.site) false).put r.arc true
      sweep := b.sweep
      pivots := b.pivots + 1 }
    refine .inr ⟨k, stem, next, ?_, hcl, hk, ⟨rest, hside⟩, hfront, hex, rfl, rfl, rfl⟩
    simp only [pivot, hc, Fault.ok_bind, hk]
    cases hh : k.half with
    | tail =>
      simp only [hh, Route.near, Route.far] at ht'
      simp only [ht', Fault.ok_bind, Fault.pure_eq_ok, next, amount]
    | head =>
      simp only [hh, Route.near, Route.far] at ht'
      simp only [ht', Fault.ok_bind, Fault.pure_eq_ok, next, amount]

theorem pivot_cases (h : b.Sound net) (hprice : net.Priced) (r : Route n m) :
    ∃ c apex, c.Closes net b.tree r.arc apex ∧
      ((b.leaving net c = none ∧ b.pivot net r = .ok none) ∨
        ∃ k stem b', b.pivot net r = .ok (some b') ∧ Pivoted net b b' r c apex k stem) := by
  obtain ⟨c, apex, -, hcase⟩ := pivot_ok h (net.requireCost_ok hprice r.arc)
  exact ⟨c, apex, hcase⟩

theorem requireCost_of_pivot {r : Route n m} (h : b.pivot net r = .ok (some b')) :
    net.requireCost r.arc = .ok () := by
  obtain ⟨c, -, h⟩ := Fault.bind_eq_ok.mp h
  split at h
  · cases h
  · obtain ⟨t', ht', -⟩ := Fault.bind_eq_ok.mp h
    exact SpanningTree.requireCost_of_exchange ht'

theorem pivoted_of_pivot (h : b.Sound net) {r : Route n m}
    (hpivot : b.pivot net r = .ok (some b')) :
    ∃ c apex k stem, b.tree.cycle net r.arc = .ok c ∧ Pivoted net b b' r c apex k stem := by
  obtain ⟨c, apex, hc, -, ⟨-, hnone⟩ | ⟨k, stem, b₁, hsome, p⟩⟩ :=
    pivot_ok h (requireCost_of_pivot hpivot)
  · rw [hnone] at hpivot; cases hpivot
  · rw [hsome] at hpivot
    obtain rfl := Option.some.inj (Except.ok.inj hpivot)
    exact ⟨c, apex, k, stem, hc, p⟩

theorem Pivoted.sound {r : Route n m} {apex : Node n m} {stem : List (Site n m)}
    (h : b.Sound net) (p : Pivoted net b b' r c apex k stem) : b'.Sound net := by
  refine ⟨p.exchanged.wellFormed, fun a => ?_⟩
  rw [p.exchanged.arc_iff h.wellFormed.ranked p.climb, p.basic, ArcMap.get_put, ArcMap.get_put]
  by_cases ha : r.arc = a
  · rw [if_pos ha]
    exact iff_of_true rfl (.inl ha.symm)
  rw [if_neg ha]
  by_cases hout : b.tree.arc k.site = a
  · rw [if_pos hout]
    apply iff_of_false (by simp)
    rintro (he | ⟨v, hv, he⟩)
    · exact ha he.symm
    · exact hv (h.wellFormed.arc_injective (he.trans hout.symm))
  · rw [if_neg hout, h.basic_iff]
    constructor
    · rintro ⟨v, rfl⟩
      exact .inr ⟨v, fun he => hout (he ▸ rfl), rfl⟩
    · rintro (he | ⟨v, -, he⟩)
      · exact absurd he.symm ha
      · exact ⟨v, he⟩

theorem Pivoted.dropped_iff {r : Route n m} {apex : Node n m} {stem : List (Site n m)}
    (h : b.Sound net) (p : Pivoted net b b' r c apex k stem) (he : b.basic.get r.arc = false)
    (a : Arc n m) :
    b.basic.get a = true ∧ b'.basic.get a = false ↔ a = b.tree.arc k.site := by
  have hout : b.basic.get (b.tree.arc k.site) = true := (h.basic_iff _).mpr ⟨k.site, rfl⟩
  rw [p.basic, ArcMap.get_put, ArcMap.get_put]
  constructor
  · rintro ⟨hb, hb'⟩
    split at hb'
    · cases hb'
    split at hb'
    · next ha => exact ha.symm
    · rw [hb] at hb'; cases hb'
  · rintro rfl
    refine ⟨hout, ?_⟩
    rw [if_neg, if_pos rfl]
    intro heq
    rw [heq, hout] at he
    cases he

section Idle

variable {a e : Arc n m}

theorem get_shift_of_ne (h : ∀ v, t.arc v ≠ a) (onUp onDown : α → α) (flow : ArcMap n m α)
    (sites : List (Site n m)) : (shift net t onUp onDown flow sites).get a = flow.get a := by
  induction sites generalizing flow with
  | nil => rfl
  | cons v sites ih =>
    apply (ih _).trans
    rw [ArcMap.get_modify, if_neg (h v)]

theorem get_augment_of_ne (h : ∀ v, b.tree.arc v ≠ a) (he : e ≠ a) (c : Cycle n m) (amount : α) :
    (b.augment net e c amount).get a = b.flow.get a := by
  rw [augment, get_shift_of_ne h, get_shift_of_ne h, ArcMap.get_modify, if_neg he]

def Idle (b : Basis n m α) : Prop :=
  ∀ a, b.basic.get a = false → b.flow.get a = 0

theorem Idle.start (net : Network n m α) : (Basis.start net).Idle := by
  intro a ha
  cases a with
  | real i j => simp [Basis.start]
  | artificial v => simp [Basis.start, Arc.isArtificial] at ha

theorem Pivoted.idle {r : Route n m} {apex : Node n m} {stem : List (Site n m)}
    (p : Pivoted net b b' r c apex k stem) (h : b.Sound net) (hidle : b.Idle) : b'.Idle := by
  intro a ha
  rw [p.basic, ArcMap.get_put, ArcMap.get_put] at ha
  rw [p.flow, ArcMap.get_put]
  by_cases hout : b.tree.arc k.site = a
  · exact if_pos hout
  rw [if_neg hout] at ha ⊢
  by_cases hr : r.arc = a
  · rw [if_pos hr] at ha
    cases ha
  rw [if_neg hr] at ha
  split
  · rw [get_augment_of_ne (h.arc_ne ha) hr, hidle a ha]
  · exact hidle a ha

end Idle

theorem Sound.withSweep (h : b.Sound net) (sweep : Pricing.Sweep) :
    { b with sweep }.Sound net :=
  ⟨h.wellFormed, h.basic_iff⟩

end Basis

end Simplex

end OptimalTransport
