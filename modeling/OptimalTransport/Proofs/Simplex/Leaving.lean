import OptimalTransport.Proofs.Least
import OptimalTransport.Proofs.Simplex.Sound

namespace OptimalTransport.Simplex

variable {n m : Nat} {α : Type} [Scalar α] {net : Network n m α} {b : Basis n m α} {c : Cycle n m}
  {k : Blocker n m α}

/-- An arc that loses flow carries no less than the blocker, and more than it when it is met later
on the way around the cycle. -/
structure Blocker.Leaves (net : Network n m α) (b : Basis n m α) (c : Cycle n m)
    (k : Blocker n m α) : Prop where
  blocks : k.Blocks net b c
  least : ∀ half, ∀ v ∈ c.side half, b.tree.direction net v = half.losing → k.load ≤ b.load v
  last : match k.half with
    | .tail =>
      FirstLeast (b.tree.direction net · = .up) b.load c.tailSide k.site ∧
        ∀ v ∈ c.headSide, b.tree.direction net v = .down → k.load < b.load v
    | .head => LastLeast (b.tree.direction net · = .down) b.load c.headSide k.site

inductive Blocker.TailBest (net : Network n m α) (b : Basis n m α) (sites : List (Site n m)) :
    Option (Blocker n m α) → Prop
  | none (h : ∀ v ∈ sites, b.tree.direction net v ≠ .up) : TailBest net b sites none
  | some {v : Site n m} (h : FirstLeast (b.tree.direction net · = .up) b.load sites v) :
      TailBest net b sites (some ⟨v, .tail, b.load v⟩)

inductive Blocker.HeadBest (net : Network n m α) (b : Basis n m α) (best : Option (Blocker n m α))
    (sites : List (Site n m)) : Option (Blocker n m α) → Prop
  | stays (h : ∀ v ∈ sites, b.tree.direction net v = .down → ∃ s ∈ best, s.load < b.load v) :
      HeadBest net b best sites best
  | passed {v : Site n m} (h : LastLeast (b.tree.direction net · = .down) b.load sites v)
      (hle : ∀ s ∈ best, b.load v ≤ s.load) :
      HeadBest net b best sites (some ⟨v, .head, b.load v⟩)

variable [Scalar.Ordered α]

open Scalar.Ordered

namespace Blocker

variable {sites : List (Site n m)} {best best' : Option (Blocker n m α)}

theorem TailBest.step (h : TailBest net b sites best)
    (hfinite : ∀ v, Scalar.isFinite (b.load v) = true) (w : Site n m) :
    TailBest net b (sites ++ [w]) (tailStep net b best w) := by
  have hnumber : ∀ v, b.load v ≤ b.load v := fun v => le_self_of_isFinite (hfinite v)
  rw [tailStep]
  cases hw : b.tree.direction net w with
  | down =>
    cases h with
    | none h => exact .none (forall_mem_concat h (by simp [hw]))
    | some h => exact .some (h.keep (by simp [hw]))
  | up =>
    cases h with
    | none h =>
      have hpass : Scalar.isBelowInfinity (b.load w) = true :=
        Scalar.isBelowInfinity_of_isFinite (hfinite w)
      simp only [Option.elim_none, hpass, if_true]
      exact .some (.concat (fun v hv hup => absurd hup (h v hv)) hw)
    | @some v h =>
      simp only [Option.elim_some, decide_eq_true_eq]
      split
      · next hlt =>
        exact .some (.concat (fun x hx hup => lt_of_lt_of_le hlt (h.least (hnumber v) x hx hup)) hw)
      · next hlt => exact .some (h.keep fun _ => le_of_not_lt (hnumber w) (hnumber v) hlt)

theorem TailBest.number (h : TailBest net b sites best)
    (hfinite : ∀ v, Scalar.isFinite (b.load v) = true) : ∀ s ∈ best, s.load ≤ s.load := by
  cases h with
  | none h => simp
  | @some v h => simpa using le_self_of_isFinite (hfinite v)

theorem HeadBest.step (h : HeadBest net b best sites best')
    (hfinite : ∀ v, Scalar.isFinite (b.load v) = true) (hbest : ∀ s ∈ best, s.load ≤ s.load)
    (w : Site n m) : HeadBest net b best (sites ++ [w]) (headStep net b best' w) := by
  have hnumber : ∀ v, b.load v ≤ b.load v := fun v => le_self_of_isFinite (hfinite v)
  rw [headStep]
  cases hw : b.tree.direction net w with
  | up =>
    cases h with
    | stays h => exact .stays (forall_mem_concat h (by simp [hw]))
    | passed h hle => exact .passed (h.keep (by simp [hw])) hle
  | down =>
    cases h with
    | stays h =>
      cases best with
      | none =>
        have hpass : Scalar.isNumber (b.load w) = true := decide_eq_true (hnumber w)
        simp only [Option.elim_none, hpass, if_true]
        refine .passed (.concat (fun v hv hdown => ?_) hw) (by simp)
        obtain ⟨s, hs, -⟩ := h v hv hdown
        cases hs
      | some s =>
        simp only [Option.elim_some, decide_eq_true_eq]
        split
        · next hle =>
          refine .passed (.concat (fun v hv hdown => ?_) hw) (by simpa using hle)
          obtain ⟨s', hs', hlt⟩ := h v hv hdown
          obtain rfl := Option.some.inj hs'
          exact le_trans hle (le_of_lt hlt)
        · next hle =>
          exact .stays (forall_mem_concat h fun _ =>
            ⟨s, rfl, lt_of_not_le (hnumber w) (hbest s rfl) hle⟩)
    | @passed v h hbelow =>
      simp only [Option.elim_some, decide_eq_true_eq]
      split
      · next hle =>
        refine .passed (.concat (fun x hx hdown => ?_) hw) fun s hs => le_trans hle (hbelow s hs)
        exact le_trans hle (h.least (hnumber v) x hx hdown)
      · next hle =>
        exact .passed (h.keep fun _ => lt_of_not_le (hnumber w) (hnumber v) hle) hbelow

theorem tailBest (net : Network n m α) (hfinite : ∀ v, Scalar.isFinite (b.load v) = true)
    (sites : List (Site n m)) : TailBest net b sites (sites.foldl (tailStep net b) none) := by
  induction sites using List.reverseRecOn with
  | nil => exact .none (by simp)
  | append_singleton sites w ih =>
    rw [List.foldl_append]
    exact ih.step hfinite w

theorem headBest (net : Network n m α) (hfinite : ∀ v, Scalar.isFinite (b.load v) = true)
    (hbest : ∀ s ∈ best, s.load ≤ s.load) (sites : List (Site n m)) :
    HeadBest net b best sites (sites.foldl (headStep net b) best) := by
  induction sites using List.reverseRecOn with
  | nil => exact .stays (by simp)
  | append_singleton sites w ih =>
    rw [List.foldl_append]
    exact ih.step hfinite hbest w

end Blocker

namespace Basis

theorem leaving_best (net : Network n m α) (hfinite : ∀ v, Scalar.isFinite (b.load v) = true)
    (c : Cycle n m) :
    ∃ best, Blocker.TailBest net b c.tailSide best ∧
      Blocker.HeadBest net b best c.headSide (b.leaving net c) := by
  have htail := Blocker.tailBest net hfinite c.tailSide
  exact ⟨_, htail, Blocker.headBest net hfinite (htail.number hfinite) c.headSide⟩

theorem leaves_of_leaving (hfinite : ∀ v, Scalar.isFinite (b.load v) = true)
    (h : b.leaving net c = some k) : k.Leaves net b c := by
  have hnumber : ∀ v, b.load v ≤ b.load v := fun v => le_self_of_isFinite (hfinite v)
  have hblocks := blocks_of_leaving h
  obtain ⟨best, htail, hhead⟩ := leaving_best net hfinite c
  rw [h] at hhead
  cases hhead with
  | stays hmore =>
    -- the best one on the side of the tail has stayed
    cases htail with
    | @some v hfirst =>
      have hless : ∀ x ∈ c.headSide, b.tree.direction net x = .down → b.load v < b.load x := by
        simpa using hmore
      refine ⟨hblocks, fun half x hx hd => ?_, hfirst, hless⟩
      cases half with
      | tail => exact hfirst.least (hnumber v) x hx hd
      | head => exact le_of_lt (hless x hx hd)
  | @passed w hlast hle =>
    refine ⟨hblocks, fun half x hx hd => ?_, hlast⟩
    cases half with
    | tail =>
      cases htail with
      | none hall => exact absurd hd (hall x hx)
      | @some v hfirst => exact le_trans (hle _ rfl) (hfirst.least (hnumber v) x hx hd)
    | head => exact hlast.least (hnumber w) x hx hd

theorem no_losing_of_leaving (hfinite : ∀ v, Scalar.isFinite (b.load v) = true)
    (h : b.leaving net c = none) (half : Half) :
    ∀ v ∈ c.side half, b.tree.direction net v ≠ half.losing := by
  obtain ⟨best, htail, hhead⟩ := leaving_best net hfinite c
  rw [h] at hhead
  cases hhead with
  | stays hmore =>
    cases htail with
    | none hall =>
      cases half with
      | tail => exact hall
      | head =>
        intro v hv hd
        obtain ⟨s, hs, -⟩ := hmore v hv hd
        cases hs

end Basis

end OptimalTransport.Simplex
