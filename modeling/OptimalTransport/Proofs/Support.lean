import OptimalTransport.Proofs.Shipments
import OptimalTransport.Proofs.Solver

namespace OptimalTransport

variable {n m : Nat} {α : Type} [Scalar α]

namespace Plan

variable {p p' : Plan α} {xs : List (Shipment α)}

structure Carries (p : Plan α) (n m : Nat) (xs : List (Shipment α)) : Prop where
  shape : p.matrix.shape = (n, m)
  full : p.matrix.Full
  listed : ∀ x ∈ xs, p.matrix.entry x.source x.target = x.mass
  unlisted : ∀ i < n, ∀ j < m, (i, j) ∉ xs.map Shipment.route → p.matrix.entry i j = 0

theorem Carries.unique (h : p.Carries n m xs) (h' : p'.Carries n m xs) : p = p' := by
  obtain ⟨⟨rows, cols, data⟩⟩ := p
  obtain ⟨a⟩ := p'
  obtain ⟨rfl, rfl⟩ := Prod.mk.inj h.shape
  refine congrArg Plan.mk (Matrix.eq_of_entry h.full h'.full h'.shape.symm fun i hi j hj => ?_)
  by_cases hmem : (i, j) ∈ xs.map Shipment.route
  · obtain ⟨x, hx, heq⟩ := List.mem_map.mp hmem
    obtain ⟨rfl, rfl⟩ := Prod.mk.inj heq
    exact (h.listed x hx).trans (h'.listed x hx).symm
  · exact (h.unlisted i hi j hj hmem).trans (h'.unlisted i hi j hj hmem).symm

theorem increments_carry (hadd : ∀ x : α, 0 < x → 0 + x = x) {a : Matrix α} (ha : a.Full)
    (hrange : ∀ x ∈ xs, x.source < a.rows ∧ x.target < a.cols) (hpos : ∀ x ∈ xs, 0 < x.mass)
    (hnodup : (xs.map Shipment.route).Nodup)
    (hzero : ∀ x ∈ xs, a.entry x.source x.target = 0) :
    ∃ a', xs.foldlM (fun a x => a.increment x.source x.target x.mass) a = .ok a' ∧
      a'.shape = a.shape ∧ a'.Full ∧ (∀ x ∈ xs, a'.entry x.source x.target = x.mass) ∧
      ∀ i j, j < a.cols → (i, j) ∉ xs.map Shipment.route → a'.entry i j = a.entry i j := by
  induction xs generalizing a with
  | nil => exact ⟨a, rfl, rfl, ha, nofun, fun _ _ _ _ => rfl⟩
  | cons x xs ih =>
    obtain ⟨⟨hi, hj⟩, hrange⟩ := List.forall_mem_cons.mp hrange
    obtain ⟨hx, hpos⟩ := List.forall_mem_cons.mp hpos
    obtain ⟨hx0, hzero⟩ := List.forall_mem_cons.mp hzero
    obtain ⟨hfresh, hnodup⟩ := List.nodup_cons.mp hnodup
    obtain ⟨a₁, h₁, hshape, hfull, hentry⟩ := Matrix.increment_ok ha hi hj x.mass
    obtain ⟨hrows, hcols⟩ := Prod.mk.inj hshape
    have hother : ∀ i j, j < a.cols → ¬(x.source = i ∧ x.target = j) →
        a₁.entry i j = a.entry i j := fun i j hj hne => (hentry i j hj).trans (if_neg hne)
    -- no later shipment shares the route of `x`, so that zero is added to once
    have hne : ∀ y ∈ xs, ¬(x.source = y.source ∧ x.target = y.target) := by
      rintro y hy ⟨hs, ht⟩
      exact hfresh (List.mem_map.mpr ⟨y, hy, Prod.ext hs.symm ht.symm⟩)
    obtain ⟨a₂, h₂, hshape', hfull', hlisted, hunlisted⟩ := ih hfull (hrows ▸ hcols ▸ hrange) hpos
      hnodup fun y hy => (hother _ _ (hrange y hy).2 (hne y hy)).trans (hzero y hy)
    refine ⟨a₂, ?_, hshape'.trans hshape, hfull', List.forall_mem_cons.mpr ⟨?_, hlisted⟩, ?_⟩
    · rw [List.foldlM_cons, h₁, Fault.ok_bind, h₂]
    · rw [hunlisted _ _ (hcols ▸ hj) hfresh, hentry _ _ hj, if_pos ⟨rfl, rfl⟩, hx0, hadd _ hx]
    · intro i j hj hout
      obtain ⟨hxout, hout⟩ := not_or.mp (mt List.mem_cons.mpr hout)
      rw [hunlisted i j (hcols ▸ hj) hout]
      exact hother i j hj fun heq => hxout (Prod.ext heq.1.symm heq.2.symm)

theorem scatter_carries (hadd : ∀ x : α, 0 < x → 0 + x = x) (h : Shipment.Listed n m xs) :
    ∃ p, scatter n m xs = .ok p ∧ p.Carries n m xs := by
  obtain ⟨a, ha, hshape, hfull, hlisted, hunlisted⟩ := increments_carry hadd
    (Matrix.Full.zeros n m) h.inRange h.positive h.nodup_routes fun x _ => Matrix.entry_zeros ..
  refine ⟨⟨a⟩, by rw [scatter, ha]; rfl, hshape, hfull, hlisted, fun i _ j hj hout => ?_⟩
  rw [hunlisted i j hj hout, Matrix.entry_zeros]

def supported (p : Plan α) : List (Shipment α) :=
  (p.matrix.toList.zipIdx.filter fun e => decide (0 < e.1)).map
    fun e => ⟨e.2 / p.matrix.cols, e.2 % p.matrix.cols, e.1⟩

theorem support_eq (h : p.matrix.Full) : p.support = .ok p.supported := by
  refine Fault.mapM_ok fun e he => if_neg fun hcols => ?_
  obtain ⟨x, k⟩ := e
  have hk := (List.mem_zipIdx' (List.mem_of_mem_filter he)).1
  rw [Matrix.toList, Array.length_toList, h, hcols, Nat.mul_zero] at hk
  exact Nat.not_lt_zero _ hk

theorem mem_supported (h : p.matrix.Full) {x : Shipment α} :
    x ∈ p.supported ↔ (x.source < p.matrix.rows ∧ x.target < p.matrix.cols) ∧ 0 < x.mass ∧
      p.matrix.entry x.source x.target = x.mass := by
  constructor
  · intro hx
    obtain ⟨⟨mass, k⟩, he, rfl⟩ := List.mem_map.mp hx
    obtain ⟨hmem, hmass⟩ := List.mem_filter.mp he
    have hat := List.mk_mem_zipIdx_iff_getElem?.mp hmem
    rw [Matrix.toList, Array.getElem?_toList] at hat
    obtain ⟨hk, -⟩ := Array.getElem?_eq_some_iff.mp hat
    rw [h] at hk
    have hcols : 0 < p.matrix.cols := Nat.pos_of_mul_pos_left (Nat.zero_lt_of_lt hk)
    refine ⟨⟨Nat.div_lt_of_lt_mul (Nat.mul_comm _ _ ▸ hk), Nat.mod_lt _ hcols⟩,
      of_decide_eq_true hmass, ?_⟩
    rw [Matrix.entry, Matrix.get?, Nat.div_add_mod', hat]
    rfl
  · rintro ⟨⟨hi, hj⟩, hmass, hentry⟩
    have hk : x.source * p.matrix.cols + x.target < p.matrix.data.size :=
      (Matrix.offset_lt hi hj).trans_eq h.symm
    rw [Matrix.entry, Matrix.get?, Array.getElem?_eq_getElem hk, Option.getD_some] at hentry
    obtain ⟨hrow, hcol⟩ := (Matrix.offset_inj (Nat.mod_lt _ (Nat.zero_lt_of_lt hj)) hj).mp
      (Nat.div_add_mod' (x.source * p.matrix.cols + x.target) p.matrix.cols)
    refine List.mem_map.mpr ⟨(x.mass, x.source * p.matrix.cols + x.target), List.mem_filter.mpr
      ⟨List.mk_mem_zipIdx_iff_getElem?.mpr ?_, decide_eq_true hmass⟩, ?_⟩
    · rw [Matrix.toList, Array.getElem?_toList, Array.getElem?_eq_getElem hk, hentry]
    · dsimp only
      rw [hrow, hcol]

theorem supported_listed (h : p.matrix.Full) :
    Shipment.Listed p.matrix.rows p.matrix.cols p.supported where
  inRange x hx := ((mem_supported h).mp hx).1
  positive x hx := ((mem_supported h).mp hx).2.1
  ordered := by
    rw [supported]
    have hsorted : p.matrix.toList.zipIdx.Pairwise fun e e' => e.2 < e'.2 := by
      apply List.pairwise_map.mp
      rw [List.zipIdx_map_snd]
      exact List.pairwise_lt_range'
    refine List.pairwise_map.mpr ((hsorted.filter _).imp fun {e e'} hlt => ?_)
    rcases (Nat.div_le_div_right (c := p.matrix.cols) hlt.le).lt_or_eq with hrow | hrow
    · exact .inl hrow
    · refine .inr ⟨hrow, ?_⟩
      have hlow := Nat.div_add_mod e.2 p.matrix.cols
      have hhigh := Nat.div_add_mod e'.2 p.matrix.cols
      rw [hrow] at hlow
      dsimp only
      omega

theorem Carries.support_eq (h : p.Carries n m xs) (hzero : ¬ (0 : α) < 0)
    (hxs : Shipment.Listed n m xs) : p.support = .ok xs := by
  rw [Plan.support_eq h.full]
  obtain ⟨⟨rows, cols, data⟩⟩ := p
  obtain ⟨rfl, rfl⟩ := Prod.mk.inj h.shape
  refine congrArg _ ((supported_listed h.full).eq_of_mem_iff hxs fun x => ?_)
  rw [mem_supported h.full]
  constructor
  · rintro ⟨⟨hi, hj⟩, hmass, hentry⟩
    by_cases hmem : x.route ∈ xs.map Shipment.route
    · obtain ⟨y, hy, heq⟩ := List.mem_map.mp hmem
      obtain ⟨hs, ht⟩ := Prod.mk.inj heq
      have hsame := h.listed y hy
      rw [hs, ht, hentry] at hsame
      exact Shipment.ext hs ht hsame.symm ▸ hy
    · rw [h.unlisted _ hi _ hj hmem] at hentry
      exact absurd (hentry ▸ hmass) hzero
  · intro hx
    exact ⟨hxs.inRange x hx, hxs.positive x hx, h.listed x hx⟩

def positivePart (p : Plan α) : Plan α :=
  ⟨p.matrix.map fun x => if 0 < x then x else 0⟩

theorem entry_positivePart (p : Plan α) (i j : Nat) :
    p.positivePart.matrix.entry i j =
      if 0 < p.matrix.entry i j then p.matrix.entry i j else 0 := by
  rw [Matrix.entry, Matrix.entry, Matrix.get?, Matrix.get?, positivePart, Matrix.map]
  dsimp only
  rw [Array.getElem?_map]
  cases p.matrix.data[i * p.matrix.cols + j]? with
  | none => exact (ite_self _).symm
  | some x => rfl

theorem positivePart_carries (h : p.matrix.Full) :
    p.positivePart.Carries p.matrix.rows p.matrix.cols p.supported where
  shape := rfl
  full := Array.size_map.trans h
  listed x hx := by
    obtain ⟨-, hmass, hentry⟩ := (mem_supported h).mp hx
    rw [entry_positivePart, hentry, if_pos hmass]
  unlisted i hi j hj hout := by
    rw [entry_positivePart]
    refine if_neg fun hpos => hout (List.mem_map.mpr ⟨⟨i, j, p.matrix.entry i j⟩, ?_, rfl⟩)
    exact (mem_supported h).mpr ⟨⟨hi, hj⟩, hpos, rfl⟩

theorem positivePart_eq (h : ∀ x ∈ p.matrix.data, 0 < x ∨ x = 0) : p.positivePart = p := by
  obtain ⟨⟨rows, cols, data⟩⟩ := p
  have hmap : data.map (fun x => if 0 < x then x else 0) = data.map id := by
    refine Array.map_congr_left fun x hx => ?_
    split
    · rfl
    · next hneg => exact ((h x hx).resolve_left hneg).symm
  rw [positivePart, Matrix.map, hmap, Array.map_id]

end Plan

theorem Solution.plan_of_ofOutcome {exponent : α} {ground : Matrix α} {o : Outcome α}
    {sol : Solution α} {p : Plan α} (h : ofOutcome exponent ground o = .ok sol)
    (hsuccess : sol.success = true)
    (hp : Plan.scatter ground.rows ground.cols o.shipments = .ok p) : sol.plan = p := by
  obtain ⟨-, -, h⟩ := Fault.bind_eq_ok.mp h
  cases hs : o.status with
  | optimal =>
    rw [hs] at h
    obtain ⟨plan, hplan, h⟩ := Fault.bind_eq_ok.mp h
    obtain rfl := Except.ok.inj h
    exact Except.ok.inj (hplan.symm.trans hp)
  | infeasible | unbounded | exhausted =>
    rw [hs] at h
    cases h
    cases hsuccess

namespace Solver

variable [Powers α] {s : Solver α} {source target : Histogram α} {costs : Option (Matrix α)}
  {sol : Solution α}

theorem support_of_fit (hadd : ∀ x : α, 0 < x → 0 + x = x) (hzero : ¬ (0 : α) < 0)
    (hfit : s.fit source target costs = .ok sol) (hsuccess : sol.success = true) :
    ∃ problem o, s.prepare source target costs = .ok problem ∧
      s.engine.transport problem.costs problem.supply problem.demand = .ok o ∧
      sol.plan.support = .ok o.shipments := by
  obtain ⟨problem, o, hprepare, ho, hsol⟩ := fitWith_eq_ok_iff.mp hfit
  refine ⟨problem, o, hprepare, ho, ?_⟩
  have hshape : problem.costs.shape = problem.ground.shape := by
    rw [Problem.costs_of_prepare hprepare, Matrix.shape_pow]
  obtain ⟨hrows, hcols⟩ := Prod.mk.inj hshape
  have hlisted := hrows ▸ hcols ▸ Simplex.listed_of_transport ho
  obtain ⟨p, hp, hcarries⟩ := Plan.scatter_carries hadd hlisted
  rw [← hcarries.support_eq hzero hlisted, Solution.plan_of_ofOutcome hsol hsuccess hp]

end Solver

open Shipment in
theorem Plan.support_inverts_scatter [Powers α] (hadd : ∀ x : α, 0 < x → 0 + x = x)
    (hzero : ¬ (0 : α) < 0) :
    (∀ n m, ∀ xs : List (Shipment α), Listed n m xs →
      ∃ p, scatter n m xs = .ok p ∧ p.support = .ok xs) ∧
    (∀ p : Plan α, p.matrix.Full →
      ∃ xs, p.support = .ok xs ∧ scatter p.matrix.rows p.matrix.cols xs = .ok p.positivePart ∧
        ((∀ x ∈ p.matrix.data, 0 < x ∨ x = 0) → p.positivePart = p)) ∧
    (∀ (s : Solver α) (source target : Histogram α) (costs : Option (Matrix α)) (sol : Solution α),
      s.fit source target costs = .ok sol → sol.success = true →
      ∃ problem o, s.prepare source target costs = .ok problem ∧
        s.engine.transport problem.costs problem.supply problem.demand = .ok o ∧
        sol.plan.support = .ok o.shipments) ∧
    (∀ n m, ∀ xs : List (Shipment ℚ), Within n m xs →
      ∃ p, scatter n m xs = .ok p ∧
        p.matrix.rowSums = .ok (List.ofFn fun i : Fin n => sent xs i) ∧
        p.matrix.colSums = .ok (List.ofFn fun j : Fin m => received xs j) ∧
        p.matrix.sum = (xs.map mass).sum ∧
        ∀ c : Matrix ℚ, c.shape = (n, m) → c.Full → p.cost c = .ok (totalCost c xs)) := by
  refine ⟨fun n m xs hxs => ?_, fun p hp => ?_, fun s source target costs sol => ?_,
    fun n m xs hxs => ?_⟩
  · obtain ⟨p, hp, hcarries⟩ := scatter_carries hadd hxs
    exact ⟨p, hp, hcarries.support_eq hzero hxs⟩
  · obtain ⟨p', hp', hcarries⟩ := scatter_carries hadd (supported_listed hp)
    obtain rfl := hcarries.unique (positivePart_carries hp)
    exact ⟨p.supported, support_eq hp, hp', positivePart_eq⟩
  · exact Solver.support_of_fit hadd hzero
  · obtain ⟨p, hp, hholds⟩ := scatter_ok hxs
    exact ⟨p, hp, hholds.rowSums_ok hxs, hholds.colSums_ok hxs, hholds.sum_ok hxs,
      fun c hshape hfull => hholds.cost_ok hxs hshape hfull⟩

theorem Plan.support_inverts_scatter_two_by_three :
    letI := Solver.wholePowers
    (∃ p : Plan ℚ, scatter 2 3 [⟨0, 2, 1 / 4⟩, ⟨1, 0, 3 / 4⟩] = .ok p ∧
      p.support = .ok [⟨0, 2, 1 / 4⟩, ⟨1, 0, 3 / 4⟩]) ∧
    (∃ p : Plan ℚ, scatter 2 3 [⟨1, 0, 1 / 2⟩, ⟨0, 2, 1 / 4⟩, ⟨1, 0, 1 / 4⟩] = .ok p ∧
      p.matrix.rowSums = .ok [1 / 4, 3 / 4] ∧ p.matrix.colSums = .ok [3 / 4, 0, 1 / 4] ∧
      p.matrix.sum = 1 ∧ p.cost ⟨2, 3, #[1, 2, 4, 8, 16, 32]⟩ = .ok 7) ∧
    ∃ (sol : Solution ℚ) (problem : Problem ℚ) (o : Outcome ℚ),
      (⟨2, .manhattan, ⟨9⟩⟩ : Solver ℚ).fit ⟨.column #[0, 3], #[1 / 4, 3 / 4]⟩
        ⟨.column #[1, 2, 5], #[1 / 2, 0, 1 / 2]⟩ none = .ok sol ∧ sol.success = true ∧
      (⟨9⟩ : Simplex.Config).transport problem.costs problem.supply problem.demand = .ok o ∧
      sol.plan.support = .ok o.shipments := by
  let := Solver.wholePowers
  obtain ⟨hsupport, -, hfits, hsums⟩ :=
    support_inverts_scatter (α := ℚ) (fun x _ => zero_add x) (lt_irrefl 0)
  refine ⟨hsupport 2 3 _ ⟨by decide, by decide +kernel, by decide⟩, ?_, ?_⟩
  · obtain ⟨p, hp, hrows, hcols, hsum, hcost⟩ :=
      hsums 2 3 [⟨1, 0, 1 / 2⟩, ⟨0, 2, 1 / 4⟩, ⟨1, 0, 1 / 4⟩] (by simp [Shipment.Within])
    have hpaid := hcost ⟨2, 3, #[1, 2, 4, 8, 16, 32]⟩ rfl rfl
    exact ⟨p, hp, hrows.trans (by decide +kernel), hcols.trans (by decide +kernel),
      hsum.trans (by decide +kernel), hpaid.trans (by decide +kernel)⟩
  · have hrun : ((⟨2, .manhattan, ⟨9⟩⟩ : Solver ℚ).fit ⟨.column #[0, 3], #[1 / 4, 3 / 4]⟩
        ⟨.column #[1, 2, 5], #[1 / 2, 0, 1 / 2]⟩ none).toOption.map Solution.success =
          some true := by
      decide +kernel
    obtain ⟨sol, hfit, hsuccess⟩ := Fault.exists_of_map hrun
    obtain ⟨problem, o, -, ho, hsol⟩ := hfits _ _ _ _ _ hfit hsuccess
    exact ⟨sol, problem, o, hfit, hsuccess, ho, hsol⟩

end OptimalTransport
