import OptimalTransport.Proofs.Tree.Subtree

namespace OptimalTransport.SpanningTree

variable {n m : Nat} {α : Type} {t : SpanningTree n m α}

section Rehang

variable (v w : Site n m) (p u : Node n m) (a : Arc n m)

@[simp]
theorem parent_modifyChildren (f : List (Site n m) → List (Site n m)) :
    (t.modifyChildren f u).parent = t.parent := by
  cases u <;> rfl

@[simp]
theorem arc_modifyChildren (f : List (Site n m) → List (Site n m)) :
    (t.modifyChildren f u).arc = t.arc := by
  cases u <;> rfl

theorem childrenOf_modifyChildren (f : List (Site n m) → List (Site n m)) (q : Node n m) :
    (t.modifyChildren f u).childrenOf q =
      if u = q then f (t.childrenOf q) else t.childrenOf q := by
  cases u <;> cases q <;> simp [modifyChildren, childrenOf, Family.get_put]
  split
  · next h => rw [h]
  · rfl

theorem parent_rehang : (t.rehang v p a).parent w = if v = w then p else t.parent w := by
  simp only [rehang, parent_modifyChildren]
  rw [parent, Family.get_put]
  congr 1
  exact congrFun (parent_modifyChildren _ _) w

theorem arc_rehang : (t.rehang v p a).arc w = if v = w then a else t.arc w := by
  simp only [rehang, arc_modifyChildren]
  rw [arc, Family.get_put]
  congr 1
  exact congrFun (arc_modifyChildren _ _) w

theorem childrenOf_rehang : (t.rehang v p a).childrenOf u =
    let rest := if t.parent v = u then (t.childrenOf u).erase v else t.childrenOf u
    if p = u then v :: rest else rest := by
  rw [rehang, childrenOf_modifyChildren]
  have h : ∀ s : SpanningTree n m α, ∀ ps as,
      ({ s with parents := ps, arcs := as } : SpanningTree n m α).childrenOf u = s.childrenOf u := by
    intro s ps as
    cases u <;> rfl
  simp only [h, childrenOf_modifyChildren]

@[simp]
theorem label_rehang [Scalar α] : (t.rehang v p a).label u = t.label u := by
  have h : ∀ (s : SpanningTree n m α) f q, (s.modifyChildren f q).labels = s.labels := by
    intro s f q
    cases q <;> rfl
  cases u with
  | none => rfl
  | some w => simp only [label, rehang, h]

variable {v p a}

theorem filed_rehang (h : t.Filed) : (t.rehang v p a).Filed := by
  have hmem : ∀ q w, w ∈ (if t.parent v = q then (t.childrenOf q).erase v else t.childrenOf q) ↔
      w ≠ v ∧ t.parent w = q := by
    intro q w
    split
    · next hq => rw [(h.nodup q).mem_erase_iff, h.mem_iff]
    · next hq =>
      rw [h.mem_iff]
      exact ⟨fun hw => ⟨fun he => hq (he ▸ hw), hw⟩, And.right⟩
  have hnodup : ∀ q,
      (if t.parent v = q then (t.childrenOf q).erase v else t.childrenOf q).Nodup := by
    intro q
    split
    · exact (h.nodup q).erase v
    · exact h.nodup q
  refine ⟨fun q => ?_, fun q w => ?_⟩
  · rw [childrenOf_rehang]
    dsimp only
    split
    · exact List.nodup_cons.mpr ⟨fun hv => ((hmem q v).mp hv).1 rfl, hnodup q⟩
    · exact hnodup q
  · rw [childrenOf_rehang, parent_rehang]
    dsimp only
    by_cases hv : v = w
    · subst hv
      split
      · next hp => simp [hp]
      · next hp => simp [hmem, hp]
    · have hw : w ≠ v := Ne.symm hv
      rw [if_neg hv]
      split
      · simp [hmem, hw]
      · simp [hmem, hw]

theorem rooted_rehang (h : t.Rooted) {up : List (Site n m)} (hp : t.Climb none p up)
    (hv : v ∉ up) : (t.rehang v p a).Rooted := by
  have hup : (t.rehang v p a).Climb none p up := by
    apply hp.congr
    intro w hw
    rw [parent_rehang, if_neg]
    exact fun he => hv (he ▸ hw)
  intro u
  obtain ⟨sites, hs⟩ := h u
  induction hs with
  | here => exact .refl none
  | @up w sites away rest ih =>
    apply Below.of_parent
    rw [parent_rehang]
    split
    · exact ⟨up, hup⟩
    · exact ih

end Rehang

section Reverse

variable [Scalar α] {net : Network n m α}

/-- What turning the links between `inner` and `leaving` around asks for: `entering` joins `inner`
to `outer`, whose way to the root meets none of the sites that move. -/
structure Reversible (net : Network n m α) (t : SpanningTree n m α) (outer : Node n m)
    (entering : Arc n m) (inner leaving : Site n m) (stem : List (Site n m)) : Prop where
  joined : ∀ v, net.Joins (t.arc v) v (t.parent v)
  filed : t.Filed
  rooted : t.Rooted
  climb : t.Climb (some leaving) (some inner) stem
  enters : net.Joins entering inner outer
  apart : ∃ up, t.Climb none outer up ∧ leaving ∉ up ∧ stem.Disjoint up

structure Reversed (net : Network n m α) (t t' : SpanningTree n m α) (outer : Node n m)
    (entering : Arc n m) (inner leaving : Site n m) (stem : List (Site n m)) : Prop where
  joined : ∀ v, net.Joins (t'.arc v) v (t'.parent v)
  filed : t'.Filed
  rooted : t'.Rooted
  label : ∀ u, t'.label u = t.label u
  frame : ∀ v, v ∉ stem → v ≠ leaving → t'.parent v = t.parent v ∧ t'.arc v = t.arc v
  first : t'.parent inner = outer ∧ t'.arc inner = entering
  turned : ∀ v ∈ stem, ∃ w, t.parent v = some w ∧ t'.parent w = some v ∧ t'.arc w = t.arc v
  moved : t'.Below (some leaving) (some inner) ∧ ∀ v ∈ stem, t'.Below (some v) (some inner)

namespace Reversible

variable {outer : Node n m} {entering : Arc n m} {inner leaving : Site n m}
  {stem : List (Site n m)}

theorem rehang_joined (h : t.Reversible net outer entering inner leaving stem) (w : Site n m) :
    net.Joins ((t.rehang inner outer entering).arc w) w
      ((t.rehang inner outer entering).parent w) := by
  rw [arc_rehang, parent_rehang]
  split
  · next he => exact he ▸ h.enters
  · exact h.joined w

theorem rehang_rooted (h : t.Reversible net outer entering inner leaving stem) :
    (t.rehang inner outer entering).Rooted := by
  obtain ⟨up, hup, hl, hd⟩ := h.apart
  apply rooted_rehang h.rooted hup
  intro hi
  cases h.climb with
  | here => exact hl hi
  | up away rest => exact hd List.mem_cons_self hi

theorem step {next : Site n m} (hn : t.parent inner = some next)
    (h : t.Reversible net outer entering inner leaving (inner :: stem)) :
    (t.rehang inner outer entering).Reversible net (some inner) (t.arc inner) next leaving
      stem := by
  obtain ⟨rank, hr⟩ := h.rooted.exists_ranked
  obtain ⟨-, away, hrest⟩ := Climb.cons_iff.mp h.climb
  have hnotin : inner ∉ stem := (List.nodup_cons.mp (h.climb.nodup hr)).1
  have hkeep : ∀ w, w ≠ inner → (t.rehang inner outer entering).parent w = t.parent w :=
    fun w hw => by rw [parent_rehang, if_neg (Ne.symm hw)]
  obtain ⟨up, hup, hl, hd⟩ := h.apart
  have hinup : inner ∉ up := fun hi => hd List.mem_cons_self hi
  refine ⟨h.rehang_joined, filed_rehang h.filed, h.rehang_rooted, ?_, ?_, inner :: up, ?_, ?_, ?_⟩
  · rw [hn] at hrest
    exact hrest.congr fun w hw => hkeep w fun he => hnotin (he ▸ hw)
  · exact (hn ▸ h.joined inner).swap
  · refine .up (by simp) ?_
    rw [parent_rehang, if_pos rfl]
    exact hup.congr fun w hw => hkeep w fun he => hinup (he ▸ hw)
  · exact fun hm => (List.mem_cons.mp hm).elim (fun he => away (he ▸ rfl)) hl
  · refine List.disjoint_cons_right.mpr ⟨hnotin, fun w hw hu => ?_⟩
    exact hd (List.mem_cons_of_mem _ hw) hu

theorem reversed (h : t.Reversible net outer entering inner leaving stem) :
    Reversed net t (t.reverse outer entering (stem ++ [leaving])) outer entering inner leaving
      stem := by
  induction stem generalizing t outer entering inner with
  | nil =>
    obtain rfl := Option.some.inj (Climb.nil_iff.mp h.climb)
    refine ⟨h.rehang_joined, filed_rehang h.filed, h.rehang_rooted, fun u => label_rehang _ _ _ _,
      fun v _ hv => ?_, ?_, by simp, .refl _, by simp⟩
    · change (t.rehang inner outer entering).parent v = _ ∧
        (t.rehang inner outer entering).arc v = _
      rw [parent_rehang, arc_rehang, if_neg (Ne.symm hv), if_neg (Ne.symm hv)]
      exact ⟨rfl, rfl⟩
    · change (t.rehang inner outer entering).parent inner = _ ∧
        (t.rehang inner outer entering).arc inner = _
      rw [parent_rehang, arc_rehang, if_pos rfl, if_pos rfl]
      exact ⟨rfl, rfl⟩
  | cons v stem ih =>
    obtain ⟨rank, hr⟩ := h.rooted.exists_ranked
    obtain ⟨hv, away, hrest⟩ := Climb.cons_iff.mp h.climb
    obtain rfl := Option.some.inj hv
    have hnotin : inner ∉ stem := (List.nodup_cons.mp (h.climb.nodup hr)).1
    have hne : inner ≠ leaving := fun he => away (he ▸ rfl)
    obtain ⟨next, hn⟩ : ∃ next, t.parent inner = some next := by
      cases hrest' : t.parent inner with
      | none => rw [hrest'] at hrest; cases hrest
      | some next => exact ⟨next, rfl⟩
    have hpar : ∀ w, inner ≠ w → (t.rehang inner outer entering).parent w = t.parent w :=
      fun w hw => by rw [parent_rehang, if_neg hw]
    have harc : ∀ w, inner ≠ w → (t.rehang inner outer entering).arc w = t.arc w :=
      fun w hw => by rw [arc_rehang, if_neg hw]
    have r := ih (h.step hn)
    have hbelow : ∀ {u},
        (t.reverse outer entering (inner :: stem ++ [leaving])).Below u (some next) →
        (t.reverse outer entering (inner :: stem ++ [leaving])).Below u (some inner) :=
      fun hu => hu.trans (.of_parent (r.first.1 ▸ .refl _))
    have hfirst := r.frame inner hnotin hne
    refine ⟨r.joined, r.filed, r.rooted, fun u => (r.label u).trans (label_rehang _ _ _ _),
      fun w hw hl => ?_, ?_, fun w hw => ?_, hbelow r.moved.1, fun w hw => ?_⟩
    · have hwi : w ≠ inner := List.ne_of_not_mem_cons hw
      have hws : w ∉ stem := List.not_mem_of_not_mem_cons hw
      obtain ⟨hp, ha⟩ := r.frame w hws hl
      exact ⟨hp.trans (hpar w (Ne.symm hwi)), ha.trans (harc w (Ne.symm hwi))⟩
    · refine ⟨hfirst.1.trans ?_, hfirst.2.trans ?_⟩
      · rw [parent_rehang, if_pos rfl]
      · rw [arc_rehang, if_pos rfl]
    · rcases List.mem_cons.mp hw with rfl | hw
      · exact ⟨next, hn, r.first⟩
      · have hwi : inner ≠ w := fun he => hnotin (he ▸ hw)
        obtain ⟨x, hx, hp, ha⟩ := r.turned w hw
        exact ⟨x, (hpar w hwi).symm.trans hx, hp, ha.trans (harc w hwi)⟩
    · rcases List.mem_cons.mp hw with rfl | hw
      · exact .refl _
      · exact hbelow (r.moved.2 w hw)

end Reversible

end Reverse

section Exchange

variable [Scalar α] {net : Network n m α} {outer : Node n m} {entering : Arc n m}
  {inner leaving : Site n m} {stem : List (Site n m)}

structure Exchanged (net : Network n m α) (t t' : SpanningTree n m α) (outer : Node n m)
    (entering : Arc n m) (inner leaving : Site n m) (stem : List (Site n m)) : Prop where
  wellFormed : t'.WellFormed net
  frame : ∀ v, v ∉ stem → v ≠ leaving → t'.parent v = t.parent v ∧ t'.arc v = t.arc v
  first : t'.parent inner = outer ∧ t'.arc inner = entering
  turned : ∀ v ∈ stem, ∃ w, t.parent v = some w ∧ t'.parent w = some v ∧ t'.arc w = t.arc v

omit [Scalar α] in
theorem Climb.eq_or_parent_eq {x y z : Site n m} (h : t.Climb (some z) (some x) stem)
    (hy : y ∈ stem ∨ y = z) : y = x ∨ ∃ v ∈ stem, t.parent v = some y := by
  generalize hx : some x = u at h
  induction h generalizing x with
  | here =>
    obtain rfl := Option.some.inj hx
    simpa using hy
  | @up v sites away rest ih =>
    obtain rfl := Option.some.inj hx
    by_cases hyx : y = x
    · exact .inl hyx
    have hy' : y ∈ sites ∨ y = z := hy.imp_left fun hm => (List.mem_cons.mp hm).resolve_left hyx
    cases hp : t.parent x with
    | none => rw [hp] at rest; cases rest
    | some w =>
      rcases ih hy' hp.symm with rfl | ⟨v, hv, hvy⟩
      · exact .inr ⟨x, List.mem_cons_self, hp⟩
      · exact .inr ⟨v, List.mem_cons_of_mem _ hv, hvy⟩

theorem exchange_ok (h : t.WellFormed net) (hcost : net.requireCost entering = .ok ())
    (hstem : t.Climb (some leaving) (some inner) stem)
    (hout : ¬ t.Below outer (some leaving)) (hjoin : net.Joins entering inner outer) :
    ∃ t', t.exchange net entering inner outer leaving = .ok t' ∧
      Exchanged net t t' outer entering inner leaving stem := by
  obtain ⟨up, hup⟩ := h.ranked.rooted outer
  have hrev : t.Reversible net outer entering inner leaving stem := by
    refine ⟨h.joined, h.filed, h.ranked.rooted, hstem, hjoin, up, hup, fun hm => ?_,
      fun v hv hm => ?_⟩
    · exact hout (.of_mem hup hm)
    · exact hout ((Below.of_mem hup hm).trans (hstem.below_of_mem hv))
  have r := hrev.reversed
  obtain ⟨sites, hs, hwf⟩ := wellFormed_relabel r.joined r.filed r.rooted inner fun w hw => by
    have hws : w ∉ stem := fun hm => hw (r.moved.2 w hm)
    have hwl : w ≠ leaving := fun he => hw (he ▸ r.moved.1)
    obtain ⟨hp, ha⟩ := r.frame w hws hwl
    rw [r.label, h.labelled, freshLabel_congr hp ha (r.label _)]
  refine ⟨_, ?_, hwf, fun v hv hl => ?_, ?_, fun v hv => ?_⟩
  · rw [exchange, hcost, Fault.ok_bind, (path_eq_ok_iff h.ranked).mpr hstem,
      Fault.ok_bind]
    dsimp only
    rw [hs, Fault.ok_bind, Fault.pure_eq_ok]
  · simpa using r.frame v hv hl
  · simpa using r.first
  · simpa using r.turned v hv

theorem requireCost_of_exchange {t' : SpanningTree n m α}
    (h : t.exchange net entering inner outer leaving = .ok t') :
    net.requireCost entering = .ok () := by
  obtain ⟨_, hcost, -⟩ := Fault.bind_eq_ok.mp h
  exact hcost

namespace Exchanged

variable {t' : SpanningTree n m α}

theorem arc_cases (h : Exchanged net t t' outer entering inner leaving stem)
    (hstem : t.Climb (some leaving) (some inner) stem) (v : Site n m) :
    (v ∉ stem ∧ v ≠ leaving ∧ t'.arc v = t.arc v) ∨ (v = inner ∧ t'.arc v = entering) ∨
      ∃ w ∈ stem, t.parent w = some v ∧ t'.arc v = t.arc w := by
  by_cases hv : v ∈ stem ∨ v = leaving
  · rcases hstem.eq_or_parent_eq hv with rfl | ⟨w, hw, hp⟩
    · exact .inr (.inl ⟨rfl, h.first.2⟩)
    · obtain ⟨x, hx, -, ha⟩ := h.turned w hw
      obtain rfl := Option.some.inj (hp.symm.trans hx)
      exact .inr (.inr ⟨w, hw, hp, ha⟩)
  · obtain ⟨hs, hl⟩ := not_or.mp hv
    exact .inl ⟨hs, hl, (h.frame v hs hl).2⟩

theorem arc_iff (h : Exchanged net t t' outer entering inner leaving stem)
    (hr : t.Ranked t.depth) (hstem : t.Climb (some leaving) (some inner) stem) (a : Arc n m) :
    (∃ v, t'.arc v = a) ↔ a = entering ∨ ∃ v, v ≠ leaving ∧ t.arc v = a := by
  constructor
  · rintro ⟨v, rfl⟩
    rcases h.arc_cases hstem v with ⟨-, hl, ha⟩ | ⟨-, ha⟩ | ⟨w, hw, -, ha⟩
    · exact .inr ⟨v, hl, ha.symm⟩
    · exact .inl ha
    · refine .inr ⟨w, fun he => ?_, ha.symm⟩
      have := (hstem.rank_mem hr hw).1
      rw [he] at this
      omega
  · rintro (rfl | ⟨v, hl, rfl⟩)
    · exact ⟨inner, h.first.2⟩
    · by_cases hv : v ∈ stem
      · obtain ⟨w, -, -, ha⟩ := h.turned v hv
        exact ⟨w, ha⟩
      · exact ⟨v, (h.frame v hv hl).2⟩

end Exchanged

end Exchange

end OptimalTransport.SpanningTree
