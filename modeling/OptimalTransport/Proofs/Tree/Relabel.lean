import OptimalTransport.Proofs.Exact
import OptimalTransport.Proofs.Tree.Exchange

namespace OptimalTransport.SpanningTree

variable {n m : Nat} {α : Type} [Scalar α] {net : Network n m α} {t t' : SpanningTree n m α}

def relabelAll (net : Network n m α) (t : SpanningTree n m α) :
    Except Fault (SpanningTree n m α) := do
  let sites := (← t.top.mapM t.subtree).flatten
  return sites.foldl (relabel net) t

section Pass

theorem foldl_relabel_eq (sites : List (Site n m)) :
    sites.foldl (relabel net) t = { t with labels := (sites.foldl (relabel net) t).labels } := by
  induction sites generalizing t with
  | nil => rfl
  | cons v sites ih => exact ih

omit [Scalar α] in
theorem Below.exists_top {v : Site n m} (h : t.Below (some v) none) :
    ∃ c, t.parent c = none ∧ t.Below (some v) (some c) := by
  obtain ⟨sites, hs⟩ := h
  generalize hu : some v = u at hs
  induction hs generalizing v with
  | here => cases hu
  | @up w sites away rest ih =>
    obtain rfl := Option.some.inj hu
    cases hp : t.parent v with
    | none => exact ⟨v, hp, .refl _⟩
    | some p =>
      obtain ⟨c, hc, hb⟩ := ih hp.symm
      exact ⟨c, hc, .of_parent (hp ▸ hb)⟩

theorem relabelAll_ok (net : Network n m α) (hf : t.Filed) (hr : t.Rooted) :
    ∃ sites, t.relabelAll net = .ok (sites.foldl (relabel net) t) ∧ (∀ v, v ∈ sites) ∧
      t.Ordered sites := by
  obtain ⟨rank, hrank⟩ := hr.exists_ranked
  choose part hpart hmem ho using t.subtree_ok hf hrank
  refine ⟨(t.top.map part).flatten, ?_, fun v => ?_, ?_⟩
  · rw [relabelAll, Fault.mapM_ok fun c _ => hpart c]
    rfl
  · obtain ⟨c, hc, hb⟩ := (hr (some v)).exists_top
    have htop : c ∈ t.top := (hf.mem_iff none c).mpr hc
    exact List.mem_flatten_of_mem (List.mem_map_of_mem htop) ((hmem c v).mpr hb)
  · exact ordered_siblings hrank (hf.nodup none) (fun c hc => (hf.mem_iff none c).mp hc)
      (fun c _ => hmem c) fun c _ => ho c

end Pass

theorem label_congr (h : ∀ v, t.label (some v) = t.freshLabel net v)
    (h' : ∀ v, t'.label (some v) = t'.freshLabel net v) {u : Node n m} {sites : List (Site n m)}
    (hu : t.Climb none u sites)
    (hsame : ∀ v ∈ sites, t'.parent v = t.parent v ∧ t'.arc v = t.arc v) :
    t'.label u = t.label u := by
  induction hu with
  | here => rfl
  | @up v sites away rest ih =>
    obtain ⟨hp, ha⟩ := hsame v List.mem_cons_self
    rw [h, h', freshLabel_congr hp ha (ih fun w hw => hsame w (List.mem_cons_of_mem _ hw))]

namespace WellFormed

theorem relabelAll_eq (h : t.WellFormed net) (labels : Family (n + m) (Label α)) :
    relabelAll net { t with labels } = .ok t := by
  let blank : SpanningTree n m α := { t with labels }
  have hchildren : ∀ u, blank.childrenOf u = t.childrenOf u := by
    intro u
    cases u <;> rfl
  have hf : blank.Filed := by
    refine ⟨fun u => ?_, fun u v => ?_⟩
    · rw [hchildren]
      exact h.filed.nodup u
    · rw [hchildren]
      exact h.filed.mem_iff u v
  have hr : blank.Rooted := by
    intro u
    obtain ⟨sites, hs⟩ := h.ranked.rooted u
    exact ⟨sites, hs.congr fun v _ => rfl⟩
  obtain ⟨sites, hsites, hall, ho⟩ := relabelAll_ok net hf hr
  obtain ⟨rank, hrank⟩ := hr.exists_ranked
  let full := sites.foldl (relabel net) blank
  have hlabelled : ∀ v, full.label (some v) = full.freshLabel net v := fun v =>
    label_foldl_relabel hrank ho (hall v)
  have hlabels : full.labels = t.labels := by
    ext1 v
    obtain ⟨sites, hs⟩ := h.ranked.rooted (some v)
    refine label_congr h.labelled hlabelled hs fun w _ => ⟨?_, ?_⟩
    · exact parent_foldl_relabel _ w
    · exact arc_foldl_relabel _ w
  refine hsites.trans (congrArg Except.ok ?_)
  rw [foldl_relabel_eq]
  change { blank with labels := full.labels } = t
  rw [hlabels]

end WellFormed

/-- What swapping the arc above `leaving` for `entering` asks for: `entering` has a cost, and joins
a site at or below `leaving` to a node that is not. -/
structure Swaps (net : Network n m α) (t : SpanningTree n m α) (entering : Arc n m)
    (inner : Site n m) (outer : Node n m) (leaving : Site n m) : Prop where
  priced : net.requireCost entering = .ok ()
  inner_below : t.Below (some inner) (some leaving)
  outer_not_below : ¬ t.Below outer (some leaving)
  joins : net.Joins entering inner outer

inductive Exchanges (net : Network n m α) (t : SpanningTree n m α) : SpanningTree n m α → Prop
  | refl : Exchanges net t t
  | step {t' t'' : SpanningTree n m α} (h : Exchanges net t t') {entering : Arc n m}
      {inner leaving : Site n m} {outer : Node n m}
      (hswap : t'.Swaps net entering inner outer leaving)
      (hx : t'.exchange net entering inner outer leaving = .ok t'') : Exchanges net t t''

section Swaps

variable {entering : Arc n m} {inner leaving : Site n m} {outer : Node n m}

structure Keeps (net : Network n m α) (t t' : SpanningTree n m α) (v : Site n m) : Prop where
  parent : t'.parent v = t.parent v
  arc : t'.arc v = t.arc v
  direction : t'.direction net v = t.direction net v
  label : t'.label (some v) = t.label (some v)

namespace Exchanged

variable {stem : List (Site n m)}

theorem keeps (h : Exchanged net t t' outer entering inner leaving stem) (hwf : t.WellFormed net)
    (hstem : t.Climb (some leaving) (some inner) stem) {v : Site n m}
    (hv : ¬ t.Below (some v) (some leaving)) : Keeps net t t' v := by
  have hsame : ∀ w, ¬ t.Below (some w) (some leaving) →
      t'.parent w = t.parent w ∧ t'.arc w = t.arc w := by
    intro w hw
    apply h.frame w
    · exact fun hm => hw (hstem.below_of_mem hm)
    · rintro rfl
      exact hw (.refl _)
  obtain ⟨sites, hs⟩ := hwf.ranked.rooted (some v)
  obtain ⟨hp, ha⟩ := hsame v hv
  refine ⟨hp, ha, by rw [direction, direction, ha], ?_⟩
  refine label_congr hwf.labelled h.wellFormed.labelled hs fun w hw => hsame w fun hb => hv ?_
  exact (Below.of_mem hs hw).trans hb

theorem range_arc (h : Exchanged net t t' outer entering inner leaving stem)
    (hwf : t.WellFormed net) (hstem : t.Climb (some leaving) (some inner) stem) :
    Set.range t'.arc = insert entering (Set.range t.arc \ {t.arc leaving}) := by
  ext a
  rw [Set.mem_range, h.arc_iff hwf.ranked hstem, Set.mem_insert_iff, Set.mem_sdiff, Set.mem_range,
    Set.mem_singleton_iff]
  refine or_congr_right ⟨?_, ?_⟩
  · rintro ⟨v, hv, rfl⟩
    exact ⟨⟨v, rfl⟩, fun he => hv (hwf.arc_injective he)⟩
  · rintro ⟨⟨v, rfl⟩, hne⟩
    exact ⟨v, fun he => hne (he ▸ rfl), rfl⟩

end Exchanged

theorem Swaps.exchange_ok (h : t.Swaps net entering inner outer leaving) (hwf : t.WellFormed net) :
    ∃ t' stem, t.exchange net entering inner outer leaving = .ok t' ∧
      t.Climb (some leaving) (some inner) stem ∧
      Exchanged net t t' outer entering inner leaving stem := by
  obtain ⟨stem, hstem⟩ := h.inner_below
  obtain ⟨t', ht', hex⟩ :=
    SpanningTree.exchange_ok hwf h.priced hstem h.outer_not_below h.joins
  exact ⟨t', stem, ht', hstem, hex⟩

theorem Exchanges.wellFormed (h : Exchanges net t t') (hwf : t.WellFormed net) :
    t'.WellFormed net := by
  induction h with
  | refl => exact hwf
  | step _ hswap hx ih =>
    obtain ⟨t₁, stem, ht₁, -, hex⟩ := hswap.exchange_ok ih
    obtain rfl := Except.ok.inj (hx.symm.trans ht₁)
    exact hex.wellFormed

end Swaps

/-- A tree whose labels are the ones that its links ask for: those of a full pass from the root
down, and the only ones to satisfy the equations. -/
structure Relabelled (net : Network n m α) (t : SpanningTree n m α) : Prop where
  joined : ∀ v, net.Joins (t.arc v) v (t.parent v)
  filed : t.Filed
  labelled : t.Labelled net
  full : ∀ labels, relabelAll net { t with labels } = .ok t
  unique : ∀ labels, Labelled net { t with labels } → labels = t.labels

theorem WellFormed.relabelled (h : t.WellFormed net) : t.Relabelled net where
  joined := h.joined
  filed := h.filed
  labelled := (labelled_iff h.joined).mpr h.labelled
  full := h.relabelAll_eq
  unique labels hl := by
    have hlabels := (labelled_iff (t := { t with labels }) h.joined).mp hl
    ext1 v
    obtain ⟨sites, hs⟩ := h.ranked.rooted (some v)
    exact label_congr h.labelled hlabels hs fun w _ => ⟨rfl, rfl⟩

theorem exchange_relabels (hjoined : ∀ v, net.Joins (t.arc v) v (t.parent v)) (hfiled : t.Filed)
    (hlabelled : t.Labelled net) :
    (∀ entering inner outer leaving, t.Swaps net entering inner outer leaving →
      ∃ t', t.exchange net entering inner outer leaving = .ok t' ∧
        Set.range t'.arc = insert entering (Set.range t.arc \ {t.arc leaving}) ∧
        (∀ v, ¬ t.Below (some v) (some leaving) → Keeps net t t' v) ∧ t'.Relabelled net) ∧
    ∀ t', Exchanges net t t' → t'.Relabelled net := by
  have h : t.WellFormed net := ⟨hjoined, hfiled, (labelled_iff hjoined).mp hlabelled⟩
  constructor
  · intro entering inner outer leaving hswap
    obtain ⟨t', stem, ht', hstem, hex⟩ := hswap.exchange_ok h
    have hrange := hex.range_arc h hstem
    exact ⟨t', ht', hrange, fun v hv => hex.keeps h hstem hv, hex.wellFormed.relabelled⟩
  · intro t' ht'
    exact (ht'.wellFormed h).relabelled

theorem exchange_relabels_two_by_two :
    ∃ (net : Network 2 2 ℚ) (t t' : SpanningTree 2 2 ℚ),
      (∀ v, net.Joins (t.arc v) v (t.parent v)) ∧ t.Filed ∧ t.Labelled net ∧
      t.Swaps net (.real 0 1) (.source 0) (some (.target 1)) (.target 0) ∧
      t.exchange net (.real 0 1) (.source 0) (some (.target 1)) (.target 0) = .ok t' ∧
      t'.depth (some (.target 0)) = 3 ∧ (t'.label (some (.target 0))).relative = 3 ∧
      t'.Relabelled net := by
  let net : Network 2 2 ℚ := ⟨⟨2, 2, #[4, 1, 3, 2]⟩, .ofFn ![2, 3], .ofFn ![3, 2], 25⟩
  have hstar := WellFormed.star net
  have hlabelled := (labelled_iff hstar.joined).mpr hstar.labelled
  have hfirst : (star net).Swaps net (.real 0 0) (.source 0) (some (.target 0)) (.source 0) := by
    refine ⟨by decide +kernel, .refl _, fun hb => ?_, .inl ⟨rfl, rfl⟩⟩
    rcases hb.eq_or_parent with he | hp
    · exact absurd he (by decide)
    · exact Below.not_parent hstar.ranked hp
  obtain ⟨t, ht, -, -, hr⟩ :=
    (exchange_relabels hstar.joined hstar.filed hlabelled).1 _ _ _ _ hfirst
  have hchecks : ((star net).exchange net (.real 0 0) (.source 0) (some (.target 0))
      (.source 0)).toOption.map (fun t => ((t.path (some (.source 0)) (some (.target 0))).toBool,
        (t.path (some (.target 1)) (some (.target 0))).toBool,
        (t.exchange net (.real 0 1) (.source 0) (some (.target 1)) (.target 0)).toOption.map
          fun t => (t.depth (some (.target 0)), (t.label (some (.target 0))).relative))) =
      some (true, false, some (3, 3)) := by
    decide +kernel
  rw [ht] at hchecks
  obtain ⟨hin, hout, hdeep⟩ : _ ∧ _ ∧ _ := by
    simpa only [Except.toOption, Option.map_some, Option.some.injEq, Prod.mk.injEq] using hchecks
  have hlabels := (labelled_iff hr.joined).mp hr.labelled
  have hranked := (WellFormed.mk hr.joined hr.filed hlabels).ranked
  have hswap : t.Swaps net (.real 0 1) (.source 0) (some (.target 1)) (.target 0) := by
    refine ⟨by decide +kernel, (below_iff_path hranked).mpr hin, fun hb => ?_, .inl ⟨rfl, rfl⟩⟩
    rw [below_iff_path hranked, hout] at hb
    cases hb
  obtain ⟨t', ht', -, -, hr'⟩ :=
    (exchange_relabels hr.joined hr.filed hr.labelled).1 _ _ _ _ hswap
  rw [ht'] at hdeep
  obtain ⟨hdepth, hrelative⟩ := Prod.mk.inj (Option.some.inj hdeep)
  exact ⟨net, t, t', hr.joined, hr.filed, hr.labelled, hswap, ht', hdepth, hrelative, hr'⟩

end OptimalTransport.SpanningTree
