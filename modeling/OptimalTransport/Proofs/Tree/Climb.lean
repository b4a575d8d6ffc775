import Mathlib
import OptimalTransport.Proofs.Fault
import OptimalTransport.SpanningTree.Exchange

namespace OptimalTransport.SpanningTree

variable {n m : Nat} {α : Type} {t : SpanningTree n m α}

inductive Climb (t : SpanningTree n m α) (apex : Node n m) : Node n m → List (Site n m) → Prop
  | here : Climb t apex apex []
  | up {v : Site n m} {sites : List (Site n m)} (away : some v ≠ apex)
      (rest : Climb t apex (t.parent v) sites) : Climb t apex (some v) (v :: sites)

def Below (t : SpanningTree n m α) (u a : Node n m) : Prop :=
  ∃ sites, t.Climb a u sites

def Rooted (t : SpanningTree n m α) : Prop :=
  ∀ u, t.Below u none

/-- A rank that is zero at the root only, and grows by one along each link away from it. -/
structure Ranked (t : SpanningTree n m α) (rank : Node n m → Nat) : Prop where
  root : rank none = 0
  link : ∀ v, rank (some v) = rank (t.parent v) + 1

namespace Climb

variable {a b u : Node n m} {sites others : List (Site n m)}

theorem nil_iff : t.Climb a u [] ↔ u = a := by
  constructor
  · intro h; cases h; rfl
  · rintro rfl; exact .here

theorem cons_iff {v : Site n m} :
    t.Climb a u (v :: sites) ↔ u = some v ∧ some v ≠ a ∧ t.Climb a (t.parent v) sites := by
  constructor
  · intro h
    cases h with
    | up away rest => exact ⟨rfl, away, rest⟩
  · rintro ⟨rfl, away, rest⟩
    exact .up away rest

theorem unique (h : t.Climb a u sites) (h' : t.Climb a u others) : sites = others := by
  induction h generalizing others with
  | here =>
    cases h' with
    | here => rfl
    | up away rest => exact absurd rfl away
  | @up v sites away rest ih =>
    cases h' with
    | here => exact absurd rfl away
    | up away' rest' => rw [ih rest']

theorem suffix {front : List (Site n m)} {v : Site n m}
    (h : t.Climb a u (front ++ v :: sites)) : t.Climb a (some v) (v :: sites) := by
  induction front generalizing u with
  | nil =>
    obtain ⟨rfl, away, rest⟩ := cons_iff.mp h
    exact .up away rest
  | cons w front ih => exact ih (cons_iff.mp h).2.2

theorem front {front : List (Site n m)} {v : Site n m}
    (h : t.Climb a u (front ++ v :: sites)) (hv : v ∉ front) : t.Climb (some v) u front := by
  induction front generalizing u with
  | nil =>
    obtain ⟨rfl, -, -⟩ := cons_iff.mp h
    exact .here
  | cons w front ih =>
    obtain ⟨rfl, away, rest⟩ := cons_iff.mp h
    have hw : v ≠ w := fun he => hv (he ▸ List.mem_cons_self)
    exact .up (fun he => hw (Option.some.inj he).symm)
      (ih rest fun hm => hv (List.mem_cons_of_mem _ hm))

theorem congr {t' : SpanningTree n m α} (h : t.Climb a u sites)
    (hp : ∀ v ∈ sites, t'.parent v = t.parent v) : t'.Climb a u sites := by
  induction h with
  | here => exact .here
  | @up v sites away rest ih =>
    refine .up away ?_
    rw [hp v List.mem_cons_self]
    exact ih fun w hw => hp w (List.mem_cons_of_mem _ hw)

theorem below_of_mem (h : t.Climb a u sites) {v : Site n m} (hv : v ∈ sites) :
    t.Below (some v) a := by
  obtain ⟨front, back, rfl⟩ := List.append_of_mem hv
  exact ⟨_, h.suffix⟩

theorem append_top {v : Site n m} (h : t.Climb (some v) u sites) (hv : t.parent v = none) :
    t.Climb none u (sites ++ [v]) := by
  induction h with
  | here => exact .up (by simp) (hv ▸ .here)
  | up away rest ih => exact .up (by simp) ih

variable {rank : Node n m → Nat}

theorem rank_eq (h : t.Climb a u sites) (hr : t.Ranked rank) :
    rank u = rank a + sites.length := by
  induction h with
  | here => rfl
  | @up v sites away rest ih =>
    rw [hr.link v, ih, List.length_cons, Nat.add_assoc]

theorem rank_mem (h : t.Climb a u sites) (hr : t.Ranked rank) {v : Site n m} (hv : v ∈ sites) :
    rank a < rank (some v) ∧ rank (some v) ≤ rank u := by
  induction h with
  | here => simp at hv
  | @up w sites away rest ih =>
    have hw := hr.link w
    have hrest := rest.rank_eq hr
    rcases List.mem_cons.mp hv with rfl | hv
    · omega
    · have := ih hv
      omega

theorem append (h : t.Climb b u sites) (h' : t.Climb a b others) (hr : t.Ranked rank) :
    t.Climb a u (sites ++ others) := by
  have hb := h'.rank_eq hr
  induction h with
  | here => exact h'
  | @up v sites away rest ih =>
    refine .up (fun ha => ?_) ih
    have := hr.link v
    have := rest.rank_eq hr
    rw [← ha] at hb
    omega

theorem nodup (h : t.Climb a u sites) (hr : t.Ranked rank) : sites.Nodup := by
  induction h with
  | here => exact .nil
  | @up v sites away rest ih =>
    refine List.nodup_cons.mpr ⟨fun hv => ?_, ih⟩
    have := (rest.rank_mem hr hv).2
    have := hr.link v
    omega

theorem length_le (h : t.Climb a u sites) (hr : t.Ranked rank) : sites.length ≤ n + m := by
  simpa using (h.nodup hr).length_le_card

end Climb

namespace Below

variable {a b u : Node n m} {v : Site n m}

theorem refl (u : Node n m) : t.Below u u :=
  ⟨[], .here⟩

theorem of_parent (h : t.Below (t.parent v) a) : t.Below (some v) a := by
  by_cases hv : some v = a
  · exact hv ▸ refl _
  · obtain ⟨sites, hs⟩ := h
    exact ⟨v :: sites, .up hv hs⟩

theorem eq_or_parent (h : t.Below (some v) a) : some v = a ∨ t.Below (t.parent v) a := by
  obtain ⟨sites, hs⟩ := h
  cases hs with
  | here => exact .inl rfl
  | up away rest => exact .inr ⟨_, rest⟩

theorem iff_parent {w : Site n m} (hv : v ≠ w) :
    t.Below (some v) (some w) ↔ t.Below (t.parent v) (some w) :=
  ⟨fun h => h.eq_or_parent.resolve_left fun he => hv (Option.some.inj he), of_parent⟩

theorem trans (h : t.Below u b) (h' : t.Below b a) : t.Below u a := by
  obtain ⟨sites, hs⟩ := h
  induction hs with
  | here => exact h'
  | up away rest ih => exact of_parent ih

theorem of_mem {sites : List (Site n m)} (h : t.Climb a u sites) (hv : v ∈ sites) :
    t.Below u (some v) := by
  induction h with
  | here => simp at hv
  | @up w sites away rest ih =>
    rcases List.mem_cons.mp hv with rfl | hv
    · exact refl _
    · exact of_parent (ih hv)

theorem total (h : t.Below u a) (h' : t.Below u b) : t.Below a b ∨ t.Below b a := by
  obtain ⟨sites, hs⟩ := h
  induction hs with
  | here => exact .inl h'
  | @up v sites away rest ih =>
    rcases h'.eq_or_parent with rfl | hp
    · exact .inr (of_parent ⟨sites, rest⟩)
    · exact ih hp

variable {rank : Node n m → Nat}

theorem rank_le (h : t.Below u a) (hr : t.Ranked rank) : rank a ≤ rank u := by
  obtain ⟨sites, hs⟩ := h
  exact Nat.le.intro (hs.rank_eq hr).symm

theorem eq_of_rank_eq (h : t.Below u a) (hr : t.Ranked rank) (he : rank u = rank a) : u = a := by
  obtain ⟨sites, hs⟩ := h
  have hl : sites.length = 0 := by
    have := hs.rank_eq hr
    omega
  obtain rfl := List.length_eq_zero_iff.mp hl
  exact Climb.nil_iff.mp hs

theorem not_parent (hr : t.Ranked rank) : ¬ t.Below (t.parent v) (some v) := by
  intro h
  have := h.rank_le hr
  have := hr.link v
  omega

end Below

namespace Climb

variable {a u : Node n m} {w : Site n m} {sites : List (Site n m)}

theorem below_iff (h : t.Climb a u sites) :
    t.Below u (some w) ↔ w ∈ sites ∨ t.Below a (some w) := by
  constructor
  · intro hb
    induction h with
    | here => exact .inr hb
    | @up v sites away rest ih =>
      rcases hb.eq_or_parent with he | hp
      · exact .inl (Option.some.inj he ▸ List.mem_cons_self)
      · exact (ih hp).imp_left (List.mem_cons_of_mem _)
  · rintro (hw | hb)
    · exact .of_mem h hw
    · exact Below.trans ⟨_, h⟩ hb

theorem not_below_of_mem {rank : Node n m → Nat} (h : t.Climb a u sites) (hr : t.Ranked rank)
    (hw : w ∈ sites) : ¬ t.Below a (some w) := by
  intro hb
  have := hb.rank_le hr
  have := (h.rank_mem hr hw).1
  omega

end Climb

theorem Ranked.rooted {rank : Node n m → Nat} (hr : t.Ranked rank) : t.Rooted := by
  intro u
  induction hk : rank u generalizing u with
  | zero =>
    cases u with
    | none => exact Below.refl none
    | some v =>
      have := hr.link v
      omega
  | succ k ih =>
    cases u with
    | none => exact Below.refl none
    | some v =>
      apply Below.of_parent
      apply ih
      have := hr.link v
      omega

theorem Ranked.rank_le {rank : Node n m → Nat} (hr : t.Ranked rank) (u : Node n m) :
    rank u ≤ n + m := by
  obtain ⟨sites, hs⟩ := hr.rooted u
  have := hs.rank_eq hr
  have := hs.length_le hr
  have := hr.root
  omega

theorem Ranked.rank_iterate_above {rank : Node n m → Nat} (hr : t.Ranked rank) (k : Nat)
    (u : Node n m) : rank (t.above^[k] u) = rank u - k := by
  induction k generalizing u with
  | zero => rfl
  | succ k ih =>
    rw [Function.iterate_succ_apply, ih]
    cases u with
    | none =>
      have := hr.root
      simp only [above]
      omega
    | some v =>
      have := hr.link v
      simp only [above]
      omega

theorem Rooted.exists_ranked (h : t.Rooted) : ∃ rank, t.Ranked rank := by
  choose sites hs using h
  refine ⟨fun u => (sites u).length, ?_, fun v => ?_⟩
  · rw [Climb.unique (hs none) .here, List.length_nil]
  · rw [Climb.unique (hs (some v)) (.up (by simp) (hs (t.parent v))), List.length_cons]

section Walks

variable {a u : Node n m} {sites : List (Site n m)}

theorem pathWithin_self (fuel : Nat) : t.pathWithin u fuel u = .ok [] := by
  unfold pathWithin
  exact if_pos rfl

theorem pathWithin_succ {v : Site n m} (away : some v ≠ a) (fuel : Nat) :
    t.pathWithin a (fuel + 1) (some v) =
      (do return v :: (← t.pathWithin a fuel (t.parent v))) := by
  rw [pathWithin, if_neg away]

theorem climb_of_pathWithin {fuel : Nat} (h : t.pathWithin a fuel u = .ok sites) :
    t.Climb a u sites := by
  induction fuel generalizing u sites with
  | zero =>
    by_cases hu : u = a
    · subst hu
      rw [pathWithin_self] at h
      cases h
      exact .here
    · unfold pathWithin at h
      rw [if_neg hu] at h
      cases u <;> cases h
  | succ fuel ih =>
    by_cases hu : u = a
    · subst hu
      rw [pathWithin_self] at h
      cases h
      exact .here
    cases u with
    | none => simp [pathWithin, hu] at h
    | some v =>
      rw [pathWithin_succ hu, Fault.bind_eq_ok] at h
      obtain ⟨rest, hrest, he⟩ := h
      cases he
      exact .up hu (ih hrest)

theorem pathWithin_of_climb {fuel : Nat} (h : t.Climb a u sites) (hl : sites.length ≤ fuel) :
    t.pathWithin a fuel u = .ok sites := by
  induction h generalizing fuel with
  | here => exact pathWithin_self fuel
  | @up v sites away rest ih =>
    cases fuel with
    | zero => simp at hl
    | succ fuel =>
      rw [pathWithin_succ away, ih (by simpa using hl)]
      rfl

theorem path_eq_ok_iff {rank : Node n m → Nat} (hr : t.Ranked rank) :
    t.path u a = .ok sites ↔ t.Climb a u sites :=
  ⟨climb_of_pathWithin, fun h => pathWithin_of_climb h (h.length_le hr)⟩

theorem below_iff_path {rank : Node n m → Nat} (hr : t.Ranked rank) :
    t.Below u a ↔ (t.path u a).toBool = true := by
  constructor
  · rintro ⟨sites, hs⟩
    rw [(path_eq_ok_iff hr).mpr hs]
    rfl
  · intro h
    cases hp : t.path u a with
    | error e => rw [hp] at h; cases h
    | ok sites => exact ⟨sites, climb_of_pathWithin hp⟩

end Walks

theorem Ranked.eq_root {rank : Node n m → Nat} (hr : t.Ranked rank) {u : Node n m}
    (hu : rank u = 0) : u = none :=
  (hr.rooted u).eq_of_rank_eq hr (hu.trans hr.root.symm)

theorem Ranked.iterate_above_eq_none_iff {rank : Node n m → Nat} (hr : t.Ranked rank) {k : Nat}
    {u : Node n m} : t.above^[k] u = none ↔ rank u ≤ k := by
  have hk := hr.rank_iterate_above k u
  constructor
  · intro h
    rw [h, hr.root] at hk
    omega
  · intro h
    apply hr.eq_root
    omega

theorem Ranked.exists_site {rank : Node n m → Nat} (hr : t.Ranked rank) {u : Node n m}
    (hu : 0 < rank u) : ∃ v, u = some v := by
  cases u with
  | none => rw [hr.root] at hu; omega
  | some v => exact ⟨v, rfl⟩

variable [Scalar α]

theorem joinWithin_ok (hr : t.Ranked t.depth) {fuel : Nat} {u v : Node n m}
    (hf : t.depth u + t.depth v ≤ fuel) :
    ∃ a left right, t.joinWithin fuel u v = .ok a ∧ t.Climb a u left ∧ t.Climb a v right ∧
      left.Disjoint right := by
  induction fuel generalizing u v with
  | zero =>
    have hu := hr.eq_root (show t.depth u = 0 by omega)
    have hv := hr.eq_root (show t.depth v = 0 by omega)
    subst hu hv
    exact ⟨none, [], [], by simp [joinWithin], .here, .here, by simp⟩
  | succ fuel ih =>
    by_cases he : u = v
    · subst he
      exact ⟨u, [], [], by simp [joinWithin], .here, .here, by simp⟩
    by_cases hd : t.depth v ≤ t.depth u
    · have hpos : 0 < t.depth u := by
        by_contra hu
        exact he ((hr.eq_root (by omega)).trans (hr.eq_root (by omega)).symm)
      obtain ⟨w, rfl⟩ := hr.exists_site hpos
      have hw := hr.link w
      obtain ⟨a, left, right, hj, hl, hr', hdis⟩ := ih (u := t.parent w) (v := v) (by omega)
      -- `w` is as deep as the other node, so that it could only be that one
      refine ⟨a, w :: left, right, ?_, .up (fun ha => ?_) hl, hr', ?_⟩
      · rw [joinWithin, if_neg he, if_pos hd]
        exact hj
      · have := hl.rank_eq hr
        rw [ha] at hw
        omega
      · refine List.disjoint_cons_left.mpr ⟨fun hm => he ?_, hdis⟩
        have := (hr'.rank_mem hr hm).2
        exact ((Below.of_mem hr' hm).eq_of_rank_eq hr (by omega)).symm
    · obtain ⟨w, rfl⟩ := hr.exists_site (show 0 < t.depth v by omega)
      have hw := hr.link w
      obtain ⟨a, left, right, hj, hl, hr', hdis⟩ := ih (u := u) (v := t.parent w) (by omega)
      refine ⟨a, left, w :: right, ?_, hl, .up (fun ha => ?_) hr', ?_⟩
      · rw [joinWithin, if_neg he, if_neg hd]
        exact hj
      · have := hr'.rank_eq hr
        rw [ha] at hw
        omega
      · refine List.disjoint_cons_right.mpr ⟨fun hm => ?_, hdis⟩
        have := (hl.rank_mem hr hm).2
        omega

theorem join_ok (hr : t.Ranked t.depth) (u v : Node n m) :
    ∃ a left right, t.join u v = .ok a ∧ t.Climb a u left ∧ t.Climb a v right ∧
      left.Disjoint right := by
  have hu := hr.rank_le u
  have hv := hr.rank_le v
  exact joinWithin_ok hr (show t.depth u + t.depth v ≤ 2 * (n + m) by omega)

end OptimalTransport.SpanningTree

namespace OptimalTransport

variable {n m : Nat} {α : Type} [Scalar α]

/-- The two sides of a cycle: walks from the ends of an arc to a common apex that meet nowhere
below it. -/
structure Cycle.Closes (c : Cycle n m) (net : Network n m α) (t : SpanningTree n m α)
    (a : Arc n m) (apex : Node n m) : Prop where
  tailClimb : t.Climb apex (net.tail a) c.tailSide
  headClimb : t.Climb apex (net.head a) c.headSide
  disjoint : c.tailSide.Disjoint c.headSide

theorem SpanningTree.cycle_ok {t : SpanningTree n m α} (hr : t.Ranked t.depth)
    (net : Network n m α) (a : Arc n m) :
    ∃ c apex, t.cycle net a = .ok c ∧ c.Closes net t a apex := by
  obtain ⟨apex, left, right, hj, hl, hr', hd⟩ := join_ok hr (net.tail a) (net.head a)
  refine ⟨⟨left, right⟩, apex, ?_, hl, hr', hd⟩
  rw [cycle, hj, Fault.ok_bind, (path_eq_ok_iff hr).mpr hl, Fault.ok_bind,
    (path_eq_ok_iff hr).mpr hr']
  rfl

theorem Cycle.Closes.unique {t : SpanningTree n m α} (hr : t.Ranked t.depth) {net : Network n m α}
    {a : Arc n m} {c c' : Cycle n m} {apex apex' : Node n m} (h : c.Closes net t a apex)
    (h' : c'.Closes net t a apex') : c = c' := by
  -- above the lower apex both sides go the same way, which they must not
  have hbelow : ∀ {c c' : Cycle n m} {apex apex' : Node n m}, c.Closes net t a apex →
      c'.Closes net t a apex' → t.Below apex apex' → c = c' := by
    intro c c' apex apex' h h' ⟨sites, hs⟩
    have htail := (h.tailClimb.append hs hr).unique h'.tailClimb
    have hhead := (h.headClimb.append hs hr).unique h'.headClimb
    have hnil : sites = [] := by
      apply List.eq_nil_iff_forall_not_mem.mpr
      intro v hv
      have ht : v ∈ c'.tailSide := htail ▸ List.mem_append_right _ hv
      have hh : v ∈ c'.headSide := hhead ▸ List.mem_append_right _ hv
      exact h'.disjoint ht hh
    rw [hnil, List.append_nil] at htail hhead
    cases c
    cases c'
    exact congrArg₂ Cycle.mk htail hhead
  rcases SpanningTree.Below.total ⟨_, h.tailClimb⟩ ⟨_, h'.tailClimb⟩ with hb | hb
  · exact hbelow h h' hb
  · exact (hbelow h' h hb).symm

theorem SpanningTree.closes_of_cycle {t : SpanningTree n m α} (hr : t.Ranked t.depth)
    {net : Network n m α} {a : Arc n m} {c : Cycle n m} (hc : t.cycle net a = .ok c) :
    ∃ apex, c.Closes net t a apex := by
  obtain ⟨c', apex, hc', hcl⟩ := cycle_ok hr net a
  obtain rfl := Except.ok.inj (hc.symm.trans hc')
  exact ⟨apex, hcl⟩

theorem Cycle.Closes.cycle_eq {t : SpanningTree n m α} (hr : t.Ranked t.depth) {net : Network n m α}
    {a : Arc n m} {c : Cycle n m} {apex : Node n m} (h : c.Closes net t a apex) :
    t.cycle net a = .ok c := by
  obtain ⟨c', apex', hc', hcl⟩ := SpanningTree.cycle_ok hr net a
  rw [hc', hcl.unique hr h]

end OptimalTransport
