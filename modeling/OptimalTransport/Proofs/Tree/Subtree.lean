import OptimalTransport.Proofs.Tree.WellFormed

namespace OptimalTransport.SpanningTree

variable {n m : Nat} {α : Type} {t : SpanningTree n m α}

def Ordered (t : SpanningTree n m α) (sites : List (Site n m)) : Prop :=
  sites.Pairwise fun v w => v ≠ w ∧ t.parent v ≠ some w

theorem Below.eq_or_child {u : Node n m} {v : Site n m} (h : t.Below u (some v)) :
    u = some v ∨ ∃ c, t.parent c = some v ∧ t.Below u (some c) := by
  obtain ⟨sites, hs⟩ := h
  induction hs with
  | here => exact .inl rfl
  | @up w sites away rest ih =>
    rcases ih with hw | ⟨c, hc, hb⟩
    · exact .inr ⟨w, hw, .refl _⟩
    · exact .inr ⟨c, hc, hb.of_parent⟩

variable {rank : Node n m → Nat}

theorem Ranked.eq_of_siblings (hr : t.Ranked rank) {c d : Site n m} {u : Node n m}
    (hp : t.parent c = t.parent d) (hc : t.Below u (some c)) (hd : t.Below u (some d)) : c = d := by
  have hrank : rank (some c) = rank (some d) := by rw [hr.link c, hr.link d, hp]
  rcases hc.total hd with h | h
  · exact Option.some.inj (h.eq_of_rank_eq hr hrank)
  · exact (Option.some.inj (h.eq_of_rank_eq hr hrank.symm)).symm

theorem ordered_siblings (hr : t.Ranked rank) {siblings : List (Site n m)} (hn : siblings.Nodup)
    {p : Node n m} (hp : ∀ c ∈ siblings, t.parent c = p) {part : Site n m → List (Site n m)}
    (hmem : ∀ c ∈ siblings, ∀ w, w ∈ part c ↔ t.Below (some w) (some c))
    (ho : ∀ c ∈ siblings, t.Ordered (part c)) : t.Ordered (siblings.map part).flatten := by
  refine List.pairwise_flatten.mpr ⟨?_, ?_⟩
  · simp only [List.mem_map, forall_exists_index, and_imp, forall_apply_eq_imp_iff₂]
    exact ho
  · refine List.pairwise_map.mpr (hn.imp_of_mem fun {c d} hc hd hne => ?_)
    intro x hx y hy
    have hxc := (hmem c hc x).mp hx
    have hyd := (hmem d hd y).mp hy
    have hcd : t.parent c = t.parent d := (hp c hc).trans (hp d hd).symm
    refine ⟨fun he => hne ?_, fun hq => hne ?_⟩
    · exact hr.eq_of_siblings hcd hxc (he ▸ hyd)
    · exact hr.eq_of_siblings hcd hxc (.of_parent (hq ▸ hyd))

theorem subtreeWithin_ok (hf : t.Filed) (hr : t.Ranked rank) {fuel : Nat} {v : Site n m}
    (hd : ∀ w, t.Below (some w) (some v) → rank (some w) < rank (some v) + fuel) :
    ∃ sites, t.subtreeWithin fuel v = .ok sites ∧
      (∀ w, w ∈ sites ↔ t.Below (some w) (some v)) ∧ t.Ordered sites := by
  induction fuel generalizing v with
  | zero => exact absurd (hd v (.refl _)) (by omega)
  | succ fuel ih =>
    have hchild : ∀ c ∈ t.childrenOf (some v), t.parent c = some v := fun c hc =>
      (hf.mem_iff _ c).mp hc
    have hsub : ∀ c, ∃ sites, c ∈ t.childrenOf (some v) → t.subtreeWithin fuel c = .ok sites ∧
        (∀ w, w ∈ sites ↔ t.Below (some w) (some c)) ∧ t.Ordered sites := by
      intro c
      by_cases hc : c ∈ t.childrenOf (some v)
      · have hp := hchild c hc
        obtain ⟨sites, h⟩ := ih (v := c) fun w hw => by
          have hv : t.Below (some c) (some v) := .of_parent (hp ▸ .refl _)
          have := hd w (hw.trans hv)
          have := hr.link c
          rw [hp] at this
          omega
        exact ⟨sites, fun _ => h⟩
      · exact ⟨[], fun h => absurd h hc⟩
    choose part hpart using hsub
    refine ⟨v :: ((t.childrenOf (some v)).map part).flatten, ?_, fun w => ?_, ?_⟩
    · rw [subtreeWithin, Fault.mapM_ok fun c hc => (hpart c hc).1]
      rfl
    · simp only [List.mem_cons, List.mem_flatten, List.mem_map, exists_exists_and_eq_and]
      constructor
      · rintro (rfl | ⟨c, hc, hw⟩)
        · exact .refl _
        · exact (((hpart c hc).2.1 w).mp hw).trans (.of_parent (hchild c hc ▸ .refl _))
      · intro hw
        rcases hw.eq_or_child with he | ⟨c, hp, hb⟩
        · exact .inl (Option.some.inj he)
        · have hc := (hf.mem_iff _ c).mpr hp
          exact .inr ⟨c, hc, ((hpart c hc).2.1 w).mpr hb⟩
    · refine List.pairwise_cons.mpr ⟨fun w hw => ?_,
        ordered_siblings hr (hf.nodup (some v)) hchild (fun c hc => (hpart c hc).2.1)
          fun c hc => (hpart c hc).2.2⟩
      simp only [List.mem_flatten, List.mem_map, exists_exists_and_eq_and] at hw
      obtain ⟨c, hc, hw⟩ := hw
      have hb := ((hpart c hc).2.1 w).mp hw
      have hv : t.Below (some c) (some v) := .of_parent (hchild c hc ▸ .refl _)
      have hle := hb.rank_le hr
      have hlink := hr.link c
      rw [hchild c hc] at hlink
      refine ⟨fun he => ?_, fun hp => ?_⟩
      · rw [he] at hlink
        omega
      · exact Below.not_parent hr (hp ▸ hb.trans hv)

theorem subtree_ok (hf : t.Filed) (hr : t.Ranked rank) (v : Site n m) :
    ∃ sites, t.subtree v = .ok sites ∧ (∀ w, w ∈ sites ↔ t.Below (some w) (some v)) ∧
      t.Ordered sites :=
  subtreeWithin_ok hf hr fun w _ => by
    have := hr.rank_le (some w)
    have := hr.link v
    omega

variable [Scalar α] {net : Network n m α}

section Relabel

@[simp]
theorem parent_foldl_relabel (sites : List (Site n m)) (v : Site n m) :
    (sites.foldl (relabel net) t).parent v = t.parent v := by
  induction sites generalizing t with
  | nil => rfl
  | cons w sites ih => exact ih

@[simp]
theorem arc_foldl_relabel (sites : List (Site n m)) (v : Site n m) :
    (sites.foldl (relabel net) t).arc v = t.arc v := by
  induction sites generalizing t with
  | nil => rfl
  | cons w sites ih => exact ih

@[simp]
theorem childrenOf_foldl_relabel (sites : List (Site n m)) (u : Node n m) :
    (sites.foldl (relabel net) t).childrenOf u = t.childrenOf u := by
  induction sites generalizing t with
  | nil => rfl
  | cons w sites ih => exact ih.trans (by cases u <;> rfl)

theorem label_relabel (v w : Site n m) :
    (t.relabel net v).label (some w) = if v = w then t.freshLabel net v else t.label (some w) :=
  Family.get_put _ _ _ _

theorem label_foldl_relabel_of_notMem {sites : List (Site n m)} {u : Node n m}
    (hu : ∀ v ∈ sites, u ≠ some v) : (sites.foldl (relabel net) t).label u = t.label u := by
  cases u with
  | none => rfl
  | some w =>
    induction sites generalizing t with
    | nil => rfl
    | cons v sites ih =>
      have hv : v ≠ w := fun he => hu v List.mem_cons_self (he ▸ rfl)
      rw [List.foldl_cons, ih fun x hx => hu x (List.mem_cons_of_mem _ hx), label_relabel,
        if_neg hv]

theorem freshLabel_congr {t' : SpanningTree n m α} {v : Site n m} (hp : t'.parent v = t.parent v)
    (ha : t'.arc v = t.arc v) (hl : t'.label (t.parent v) = t.label (t.parent v)) :
    t'.freshLabel net v = t.freshLabel net v := by
  simp only [freshLabel, hp, ha]
  cases h : t.parent v with
  | none => rfl
  | some p => simp only [← h, hl]

theorem label_foldl_relabel (hr : t.Ranked rank) {sites : List (Site n m)} (ho : t.Ordered sites)
    {v : Site n m} (hv : v ∈ sites) :
    (sites.foldl (relabel net) t).label (some v) =
      (sites.foldl (relabel net) t).freshLabel net v := by
  induction sites generalizing t with
  | nil => simp at hv
  | cons w sites ih =>
    obtain ⟨hw, ho⟩ := List.pairwise_cons.mp ho
    have hr' : (t.relabel net w).Ranked rank := ⟨hr.root, hr.link⟩
    rcases List.mem_cons.mp hv with rfl | hv
    · have hpar : t.parent v ≠ some v := fun hp => by
        have := hr.link v
        rw [hp] at this
        omega
      rw [List.foldl_cons,
        label_foldl_relabel_of_notMem fun x hx he => (hw x hx).1 (Option.some.inj he),
        label_relabel, if_pos rfl]
      symm
      apply freshLabel_congr
      · exact parent_foldl_relabel sites v
      · exact arc_foldl_relabel sites v
      rw [label_foldl_relabel_of_notMem fun x hx => (hw x hx).2]
      cases hp : t.parent v with
      | none => rfl
      | some p =>
        rw [label_relabel, if_neg]
        exact fun he => hpar (he ▸ hp)
    · exact ih hr' ho hv

end Relabel

theorem wellFormed_relabel (hj : ∀ v, net.Joins (t.arc v) v (t.parent v)) (hf : t.Filed)
    (hr : t.Rooted) (v : Site n m)
    (hl : ∀ w, ¬ t.Below (some w) (some v) → t.label (some w) = t.freshLabel net w) :
    ∃ sites, t.subtree v = .ok sites ∧ (sites.foldl (relabel net) t).WellFormed net := by
  obtain ⟨rank, hrank⟩ := hr.exists_ranked
  obtain ⟨sites, hs, hmem, ho⟩ := subtree_ok hf hrank v
  refine ⟨sites, hs, ⟨fun w => by simpa using hj w, ⟨fun u => ?_, fun u w => ?_⟩, fun w => ?_⟩⟩
  · rw [childrenOf_foldl_relabel]
    exact hf.nodup u
  · rw [childrenOf_foldl_relabel, parent_foldl_relabel]
    exact hf.mem_iff u w
  · by_cases hw : w ∈ sites
    · exact label_foldl_relabel hrank ho hw
    · have hb : ¬ t.Below (some w) (some v) := fun hb => hw ((hmem w).mpr hb)
      have hout : ∀ x ∈ sites, t.parent w ≠ some x := fun x hx hp =>
        hb (.of_parent (hp ▸ (hmem x).mp hx))
      have hself : ∀ x ∈ sites, some w ≠ some x := fun x hx he => hw (Option.some.inj he ▸ hx)
      rw [label_foldl_relabel_of_notMem hself, hl w hb]
      refine (freshLabel_congr (by simp) (by simp) ?_).symm
      exact label_foldl_relabel_of_notMem hout

end OptimalTransport.SpanningTree
