import OptimalTransport.Proofs.Tree.Climb
import OptimalTransport.SpanningTree.Exchange

namespace OptimalTransport

variable {n m : Nat} {α : Type} [Scalar α]

namespace Network

variable {net : Network n m α} {a : Arc n m} {u v w : Site n m} {p q : Node n m}

def Joins (net : Network n m α) (a : Arc n m) (v : Site n m) (p : Node n m) : Prop :=
  (net.tail a = some v ∧ net.head a = p) ∨ (net.tail a = p ∧ net.head a = some v)

def Priced (net : Network n m α) : Prop :=
  ∀ a, (net.cost? a).isSome = true

omit [Scalar α] in
theorem priced_iff : net.Priced ↔ ∀ i j, (net.cost? (.real i j)).isSome = true := by
  constructor
  · intro h i j
    exact h _
  · intro h a
    cases a with
    | real i j => exact h i j
    | artificial v => rfl

omit [Scalar α] in
theorem priced_of_full (hshape : net.costs.shape = (n, m)) (hfull : net.costs.Full) :
    net.Priced := by
  apply priced_iff.mpr
  intro i j
  have hrows : net.costs.rows = n := congrArg Prod.fst hshape
  have hcols : net.costs.cols = m := congrArg Prod.snd hshape
  have hlt : Route.index (i, j) < net.costs.data.size := by
    rw [hfull, hrows, hcols]
    exact Route.index_lt (i, j)
  simp [cost?, hlt]

theorem shape_of_build {costs : Matrix α} {supply demand : Array α}
    {net : Network supply.size demand.size α} (h : build costs supply demand = .ok net) :
    costs.shape = (supply.size, demand.size) := by
  by_contra hshape
  rw [build, if_neg hshape] at h
  cases h

theorem build_priced {costs : Matrix α} {supply demand : Array α}
    (hshape : costs.shape = (supply.size, demand.size)) (hfull : costs.Full) :
    ∃ net, build costs supply demand = .ok net ∧ net.Priced :=
  ⟨_, if_pos hshape, priced_of_full hshape hfull⟩

instance (net : Network n m α) : Decidable net.Priced :=
  decidable_of_iff _ priced_iff.symm

omit [Scalar α] in
theorem requireCost_ok (h : net.Priced) (a : Arc n m) : net.requireCost a = .ok () :=
  if_pos (h a)

theorem source_ne_target (i : Fin n) (j : Fin m) : (Site.source i : Site n m) ≠ .target j := by
  intro h
  have := congrArg Fin.val h
  simp only [Site.source, Site.target, Fin.val_castAdd, Fin.val_natAdd] at this
  omega

theorem tail_ne_head (net : Network n m α) (a : Arc n m) : net.tail a ≠ net.head a := by
  cases a with
  | real i j => exact fun h => source_ne_target i j (Option.some.inj h)
  | artificial v => simp only [tail, head]; split <;> simp

theorem direction_eq_up_iff : net.direction a v = .up ↔ net.tail a = some v := by
  simp [direction]

theorem direction_eq_down_iff : net.direction a v = .down ↔ net.tail a ≠ some v := by
  simp [direction]

theorem gain_up (hd : net.direction a v = .up) : net.gain a v = -net.cost a := by
  rw [gain, hd]

theorem gain_down (hd : net.direction a v = .down) : net.gain a v = net.cost a := by
  rw [gain, hd]

theorem joins_artificial (net : Network n m α) (v : Site n m) :
    net.Joins (.artificial v) v none := by
  simp only [Joins, tail, head]
  split <;> simp

namespace Joins

theorem up (h : net.Joins a v p) (hd : net.direction a v = .up) :
    net.tail a = some v ∧ net.head a = p := by
  rcases h with h | ⟨-, hh⟩
  · exact h
  · exact absurd ((direction_eq_up_iff.mp hd).trans hh.symm) (net.tail_ne_head a)

theorem down (h : net.Joins a v p) (hd : net.direction a v = .down) :
    net.tail a = p ∧ net.head a = some v := by
  rcases h with ⟨ht, -⟩ | h
  · exact absurd ht (direction_eq_down_iff.mp hd)
  · exact h

theorem direction_eq_down_iff_head (h : net.Joins a v p) :
    net.direction a v = .down ↔ net.head a = some v := by
  constructor
  · intro hd
    exact (h.down hd).2
  · intro hh
    exact direction_eq_down_iff.mpr fun ht => net.tail_ne_head a (ht.trans hh.symm)

theorem swap (h : net.Joins a v (some w)) : net.Joins a w (some v) := by
  rcases h with ⟨ht, hh⟩ | ⟨ht, hh⟩
  · exact .inr ⟨ht, hh⟩
  · exact .inl ⟨ht, hh⟩

theorem direction_swap (h : net.Joins a v (some w)) (hd : net.direction a v = .down) :
    net.direction a w = .up :=
  direction_eq_up_iff.mpr (h.down hd).1

theorem ends (h : net.Joins a v p) (h' : net.Joins a w q) :
    (v = w ∧ p = q) ∨ (p = some w ∧ q = some v) := by
  rcases h with ⟨ht, hh⟩ | ⟨ht, hh⟩ <;> rcases h' with ⟨ht', hh'⟩ | ⟨ht', hh'⟩ <;>
    rw [ht] at ht' <;> rw [hh] at hh'
  · exact .inl ⟨Option.some.inj ht', hh'⟩
  · exact .inr ⟨hh', ht'.symm⟩
  · exact .inr ⟨ht', hh'.symm⟩
  · exact .inl ⟨Option.some.inj hh', ht'⟩

theorem artificial_iff (h : net.Joins a v p) : a.isArtificial = true ↔ p = none := by
  cases a with
  | real i j =>
    apply iff_of_false (by simp [Arc.isArtificial])
    rintro rfl
    rcases h with ⟨-, h⟩ | ⟨h, -⟩ <;> cases h
  | artificial u =>
    apply iff_of_true rfl
    rcases h.ends (net.joins_artificial u) with ⟨-, h⟩ | ⟨-, h⟩
    · exact h
    · cases h

theorem eq_artificial (h : net.Joins a v none) : a = .artificial v := by
  cases a with
  | real i j => exact absurd (h.artificial_iff.mpr rfl) (by simp [Arc.isArtificial])
  | artificial u =>
    rcases h.ends (net.joins_artificial u) with ⟨rfl, -⟩ | ⟨h, -⟩
    · rfl
    · cases h

end Joins

theorem joins_real (net : Network n m α) (i : Fin n) (j : Fin m) :
    net.Joins (.real i j) (.source i) (some (.target j)) :=
  .inl ⟨rfl, rfl⟩

end Network

def Direction.signed : Direction → α → α
  | .up, x => -x
  | .down, x => x

theorem Network.gain_eq (net : Network n m α) (a : Arc n m) (v : Site n m) :
    net.gain a v = (net.direction a v).signed (net.cost a) := by
  rw [gain]
  cases net.direction a v <;> rfl

namespace SpanningTree

variable {net : Network n m α} {t : SpanningTree n m α}

structure Filed (t : SpanningTree n m α) : Prop where
  nodup : ∀ u, (t.childrenOf u).Nodup
  mem_iff : ∀ u v, v ∈ t.childrenOf u ↔ t.parent v = u

omit [Scalar α] in
theorem Filed.count_childrenOf (h : t.Filed) (u : Node n m) (v : Site n m) :
    (t.childrenOf u).count v = if t.parent v = u then 1 else 0 := by
  split
  · next hp => exact List.count_eq_one_of_mem (h.nodup u) ((h.mem_iff u v).mpr hp)
  · next hp => exact List.count_eq_zero.mpr (mt (h.mem_iff u v).mp hp)

structure Labelled (net : Network n m α) (t : SpanningTree n m α) : Prop where
  root : t.depth none = 0
  depth : ∀ v, t.depth (some v) = t.depth (t.parent v) + 1
  offset_top : ∀ v, t.parent v = none →
    (t.label (some v)).offset = (t.direction net v).signed net.penalty
  relative_top : ∀ v, t.parent v = none → (t.label (some v)).relative = 0
  magnitude_top : ∀ v, t.parent v = none → (t.label (some v)).magnitude = 0
  offset : ∀ v p, t.parent v = some p →
    (t.label (some v)).offset = (t.label (some p)).offset
  relative : ∀ v p, t.parent v = some p → (t.label (some v)).relative =
    (t.label (some p)).relative + (t.direction net v).signed (net.cost (t.arc v))
  magnitude : ∀ v p, t.parent v = some p → (t.label (some v)).magnitude =
    Scalar.max (t.label (some p)).magnitude (Scalar.abs (t.label (some v)).relative)

theorem freshLabel_top (hj : ∀ v, net.Joins (t.arc v) v (t.parent v)) {v : Site n m}
    (hp : t.parent v = none) :
    t.freshLabel net v = .first ((t.direction net v).signed net.penalty) := by
  have ha : t.arc v = .artificial v := (hp ▸ hj v).eq_artificial
  rw [freshLabel, hp, net.gain_eq, direction, ha]
  rfl

theorem freshLabel_below {v p : Site n m} (hp : t.parent v = some p) :
    t.freshLabel net v =
      (t.label (some p)).next ((t.direction net v).signed (net.cost (t.arc v))) := by
  rw [freshLabel, hp, net.gain_eq]
  rfl

theorem labelled_iff (hj : ∀ v, net.Joins (t.arc v) v (t.parent v)) :
    t.Labelled net ↔ ∀ v, t.label (some v) = t.freshLabel net v := by
  constructor
  · intro h v
    have hdepth := h.depth v
    cases hp : t.parent v with
    | none =>
      rw [hp, h.root] at hdepth
      rw [freshLabel_top hj hp]
      exact Label.ext hdepth (h.offset_top v hp) (h.relative_top v hp) (h.magnitude_top v hp)
    | some p =>
      rw [hp] at hdepth
      rw [freshLabel_below hp, Label.next, ← h.relative v p hp, ← h.magnitude v p hp]
      exact Label.ext hdepth (h.offset v p hp) rfl rfl
  · intro h
    have htop : ∀ v, t.parent v = none →
        t.label (some v) = .first ((t.direction net v).signed net.penalty) :=
      fun v hp => (h v).trans (freshLabel_top hj hp)
    have hbelow : ∀ v p, t.parent v = some p → t.label (some v) =
        (t.label (some p)).next ((t.direction net v).signed (net.cost (t.arc v))) :=
      fun v p hp => (h v).trans (freshLabel_below hp)
    constructor
    · rfl
    · intro v
      cases hp : t.parent v with
      | none => rw [depth, htop v hp]; rfl
      | some p => rw [depth, hbelow v p hp]; rfl
    · intro v hp
      rw [htop v hp]; rfl
    · intro v hp
      rw [htop v hp]; rfl
    · intro v hp
      rw [htop v hp]; rfl
    · intro v p hp
      rw [hbelow v p hp]; rfl
    · intro v p hp
      rw [hbelow v p hp]; rfl
    · intro v p hp
      rw [hbelow v p hp]; rfl

structure WellFormed (net : Network n m α) (t : SpanningTree n m α) : Prop where
  joined : ∀ v, net.Joins (t.arc v) v (t.parent v)
  filed : t.Filed
  labelled : ∀ v, t.label (some v) = t.freshLabel net v

namespace WellFormed

theorem ranked (h : t.WellFormed net) : t.Ranked t.depth where
  root := rfl
  link v := by
    rw [depth, h.labelled v, freshLabel]
    split
    · next hp => rw [hp]; rfl
    · next p hp => rw [hp]; rfl

theorem arc_injective (h : t.WellFormed net) : Function.Injective t.arc := by
  intro v w he
  rcases (h.joined v).ends (he ▸ h.joined w) with ⟨hv, -⟩ | ⟨hp, hq⟩
  · exact hv
  · have hv := h.ranked.link v
    have hw := h.ranked.link w
    rw [hp] at hv
    rw [hq] at hw
    omega

theorem arc_eq_artificial_iff (h : t.WellFormed net) {v w : Site n m} :
    t.arc v = .artificial w ↔ t.parent v = none ∧ v = w := by
  have hj := h.joined v
  constructor
  · intro ha
    have hp := hj.artificial_iff.mp (ha ▸ rfl)
    rw [hp] at hj
    exact ⟨hp, Arc.artificial.inj (hj.eq_artificial.symm.trans ha)⟩
  · rintro ⟨hp, rfl⟩
    rw [hp] at hj
    exact hj.eq_artificial

theorem star (net : Network n m α) : (SpanningTree.star net).WellFormed net where
  joined v := by simpa [SpanningTree.star, arc, parent] using net.joins_artificial v
  filed := by
    refine ⟨fun u => ?_, fun u v => ?_⟩
    · cases u <;> simp [SpanningTree.star, childrenOf, List.nodup_finRange]
    · cases u <;> simp [SpanningTree.star, childrenOf, parent]
  labelled v := by simp [SpanningTree.star, label, freshLabel, arc, parent]

end WellFormed

end SpanningTree

end OptimalTransport
