import OptimalTransport.Proofs.Solver

namespace OptimalTransport

structure Scalar.ZeroLaws (α : Type) [Scalar α] : Prop where
  add_zero : ∀ x : α, x + 0 = x
  sub_zero : (0 : α) - 0 = 0
  mul_zero : (0 : α) * 0 = 0
  abs_zero : Scalar.abs (0 : α) = 0

theorem Scalar.zeroLaws_rational : ZeroLaws ℚ :=
  ⟨add_zero, sub_zero 0, mul_zero 0, abs_zero⟩

variable {α : Type} [Scalar α]

theorem Scalar.sum_append_zeros (hz : ZeroLaws α) (xs : List α) (k : Nat) :
    sum (xs ++ List.replicate k 0) = sum xs := by
  rw [sum, List.foldl_append]
  change _ = xs.foldl (· + ·) (-0)
  generalize xs.foldl (· + ·) (-0 : α) = x
  induction k with
  | zero => rfl
  | succ k ih => rw [List.replicate_succ, List.foldl_cons, hz.add_zero, ih]

theorem Metric.distance_append_zeros [Powers α] (hz : Scalar.ZeroLaws α) (metric : Metric)
    {x y : List α} (hlen : x.length = y.length) (k : Nat) :
    metric.distance (x ++ List.replicate k 0) (y ++ List.replicate k 0) = metric.distance x y := by
  have hdeltas : List.zipWith (· - ·) (x ++ List.replicate k 0) (y ++ List.replicate k 0) =
      List.zipWith (· - ·) x y ++ List.replicate k (0 : α) := by
    rw [List.zipWith_append hlen, List.zipWith_replicate, Nat.min_self, hz.sub_zero]
  have hmap : ∀ f : α → α, f 0 = 0 → Scalar.sum
      ((List.zipWith (· - ·) x y ++ List.replicate k 0).map f) =
        Scalar.sum ((List.zipWith (· - ·) x y).map f) := by
    intro f hf
    rw [List.map_append, List.map_replicate, hf, Scalar.sum_append_zeros hz]
  have hsquares := hmap (fun d => d * d) hz.mul_zero
  cases metric with
  | euclidean | sqEuclidean => simp only [distance, hdeltas, hsquares]
  | manhattan => simp only [distance, hdeltas, hmap _ hz.abs_zero]

namespace Matrix

variable {a c : Matrix α} {extra : Nat}

structure Padded (a : Matrix α) (extra : Nat) (c : Matrix α) : Prop where
  rows : c.rows = a.rows
  cols : c.cols = a.cols + extra
  full : c.Full
  slice : ∀ i < a.rows, c.slice i = a.slice i ++ List.replicate extra 0

theorem pad_ok (h : a.Full) (extra : Nat) : ∃ c, a.pad extra = .ok c ∧ a.Padded extra c := by
  let c : Matrix α := ⟨a.rows, a.cols + extra, Array.ofFn fun k : Fin (a.rows * (a.cols + extra)) =>
    if k % (a.cols + extra) < a.cols then a.entry (k / (a.cols + extra)) (k % (a.cols + extra))
    else 0⟩
  have hfull : c.Full := Array.size_ofFn
  refine ⟨c, ?_, rfl, rfl, hfull, fun i hi => ?_⟩
  · rw [pad, requireRows, if_pos (.inr h.ge)]
    rfl
  have hentry : ∀ j < a.cols + extra, c.entry i j = if j < a.cols then a.entry i j else 0 := by
    intro j hj
    have hk : i * (a.cols + extra) + j < a.rows * (a.cols + extra) := offset_lt hi hj
    have hpos : 0 < a.cols + extra := by omega
    have hdiv : (i * (a.cols + extra) + j) / (a.cols + extra) = i := by
      rw [Nat.mul_comm, Nat.mul_add_div hpos, Nat.div_eq_of_lt hj, Nat.add_zero]
    have hmod : (i * (a.cols + extra) + j) % (a.cols + extra) = j := by
      rw [Nat.mul_add_mod', Nat.mod_eq_of_lt hj]
    simp only [entry, get?, c, Array.getElem?_ofFn, dif_pos hk, Option.getD_some, hdiv, hmod]
  rw [slice_eq hfull hi, slice_eq h hi]
  apply List.ext_getElem
  · simp [c]
  intro j hj hj'
  have hlt : j < a.cols + extra := by simpa [c] using hj
  rw [List.getElem_ofFn, hentry j hlt, List.getElem_append]
  simp

end Matrix

theorem Metric.pairwise_padded [Powers α] (hz : Scalar.ZeroLaws α) (metric : Metric)
    {x y x' y' : Matrix α} {extra : Nat} (hx : x.Full) (hy : y.Full) (hcols : x.cols = y.cols)
    (px : x.Padded extra x') (py : y.Padded extra y') :
    metric.pairwise x' y' = metric.pairwise x y := by
  have hlen : ∀ {a : Matrix α}, a.Full → ∀ i < a.rows, (a.slice i).length = a.cols := by
    intro a ha i hi
    rw [Matrix.slice_eq ha hi, List.length_ofFn]
  have hdist : ∀ i < x.rows, ∀ j < y.rows,
      metric.distance (x'.slice i) (y'.slice j) = metric.distance (x.slice i) (y.slice j) := by
    intro i hi j hj
    rw [px.slice i hi, py.slice j hj]
    exact distance_append_zeros hz metric (by rw [hlen hx i hi, hlen hy j hj, hcols]) extra
  have hrows : ((List.range x.rows).map x'.slice).flatMap
      (fun a => ((List.range y.rows).map y'.slice).map (metric.distance a)) =
      ((List.range x.rows).map x.slice).flatMap
        fun a => ((List.range y.rows).map y.slice).map (metric.distance a) := by
    simp only [List.flatMap_map, List.map_map]
    refine List.flatMap_congr fun i hi => List.map_congr_left fun j hj => ?_
    exact hdist i (List.mem_range.mp hi) j (List.mem_range.mp hj)
  simp only [pairwise, Matrix.toRows_ok px.full, Matrix.toRows_ok py.full, Matrix.toRows_ok hx,
    Matrix.toRows_ok hy, px.rows, py.rows, Fault.ok_bind, hrows]

namespace Histogram

variable {h h' source target source' target' : Histogram α}

structure Embedded (h : Histogram α) (extra : Nat) (h' : Histogram α) : Prop where
  points : h.points.Padded extra h'.points
  weights : h'.weights = h.weights

theorem embed_ok (hfull : h.points.Full) (d : Nat) :
    ∃ h', h.embed d = .ok h' ∧ h.Embedded (d - h.dimension) h' := by
  obtain ⟨points, hpad, hp⟩ := Matrix.pad_ok hfull (d - h.dimension)
  exact ⟨{ h with points }, by rw [embed, hpad]; rfl, hp, rfl⟩

theorem Embedded.validate_eq {extra : Nat} (he : h.Embedded extra h') (side : Side) :
    h'.validate side = h.validate side := by
  obtain ⟨⟨rows, cols, data⟩, weights⟩ := h
  obtain ⟨⟨rows', cols', data'⟩, weights'⟩ := h'
  obtain rfl : rows' = rows := he.points.rows
  obtain rfl : weights' = weights := he.weights
  rfl

end Histogram

section Solver

variable [Powers α] {source target source' target' : Histogram α} {extra : Nat}

theorem Metric.between_eq_pairwise (hz : Scalar.ZeroLaws α) (metric : Metric)
    (hsource : source.points.Full) (htarget : target.points.Full)
    (hdim : source.dimension = target.dimension) :
    metric.between source target = metric.pairwise source.points target.points := by
  rw [between]
  split
  · obtain ⟨source', hs, ps⟩ := Histogram.embed_ok hsource 2
    obtain ⟨target', ht, pt⟩ := Histogram.embed_ok htarget 2
    rw [hs, ht, Fault.ok_bind, Fault.ok_bind]
    rw [← hdim] at pt
    exact pairwise_padded hz metric hsource htarget hdim ps.points pt.points
  · rfl

theorem Problem.prepare_embedded (hz : Scalar.ZeroLaws α) (hsource : source.points.Full)
    (htarget : target.points.Full) (hdim : source.dimension = target.dimension)
    (hs : source.Embedded extra source') (ht : target.Embedded extra target') (exponent : α)
    (metric : Metric) (costs : Option (Matrix α)) :
    prepare exponent metric source' target' costs =
      prepare exponent metric source target costs := by
  have hdim' : source'.dimension = target'.dimension := by
    have hcols := congrArg (· + extra) hdim
    exact hs.points.cols.trans (hcols.trans ht.points.cols.symm)
  have hsize : source'.size = source.size := hs.points.rows
  have htsize : target'.size = target.size := ht.points.rows
  have hbetween : metric.between source' target' = metric.between source target := by
    rw [Metric.between_eq_pairwise hz metric hsource htarget hdim,
      Metric.between_eq_pairwise hz metric hs.points.full ht.points.full hdim',
      Metric.pairwise_padded hz metric hsource htarget hdim hs.points ht.points]
  have hchoose : GroundCost.choose metric source' target' costs =
      GroundCost.choose metric source target costs := by
    cases costs with
    | none => simp only [GroundCost.choose, hbetween]
    | some c => simp only [GroundCost.choose, hsize, htsize]
  simp only [prepare, hs.validate_eq, ht.validate_eq, checkDimension, if_pos hdim, if_pos hdim',
    hchoose, balance, Histogram.mass, hsize, htsize, hs.weights, ht.weights]

theorem Solver.fit_embed (hz : Scalar.ZeroLaws α) (hsource : source.points.Full)
    (htarget : target.points.Full) (hdim : source.dimension = target.dimension) (d : Nat) :
    ∃ source' target', source.embed d = .ok source' ∧ target.embed d = .ok target' ∧
      ∀ (s : Solver α) (costs : Option (Matrix α)),
        s.fit source' target' costs = s.fit source target costs ∧
        ∀ engine : Engine α,
          s.fitWith engine source' target' costs = s.fitWith engine source target costs := by
  obtain ⟨source', hs, ps⟩ := Histogram.embed_ok hsource d
  obtain ⟨target', ht, pt⟩ := Histogram.embed_ok htarget d
  rw [← hdim] at pt
  refine ⟨source', target', hs, ht, fun s costs => ?_⟩
  have hengine : ∀ engine : Engine α,
      s.fitWith engine source' target' costs = s.fitWith engine source target costs := by
    intro engine
    rw [fitWith, fitWith, prepare,
      Problem.prepare_embedded hz hsource htarget hdim ps pt s.exponent s.metric costs]
  exact ⟨hengine _, hengine⟩

theorem Solver.fit_embed_line :
    letI := wholePowers
    ∃ source' target' : Histogram ℚ,
      (⟨.column #[0, 3], #[1 / 4, 3 / 4]⟩ : Histogram ℚ).embed 3 = .ok source' ∧
      (⟨.column #[1, 2], #[1 / 2, 1 / 2]⟩ : Histogram ℚ).embed 3 = .ok target' ∧
      source'.points.data = #[0, 0, 0, 3, 0, 0] ∧
      ∃ sol, (⟨2, .sqEuclidean, ⟨9⟩⟩ : Solver ℚ).fit source' target' none = .ok sol ∧
        sol.costs.data = #[1, 4, 4, 1] ∧ sol.success = true := by
  let := wholePowers
  let source : Histogram ℚ := ⟨.column #[0, 3], #[1 / 4, 3 / 4]⟩
  let target : Histogram ℚ := ⟨.column #[1, 2], #[1 / 2, 1 / 2]⟩
  obtain ⟨source', target', hs, ht, hfit⟩ :=
    @fit_embed ℚ _ _ source target Scalar.zeroLaws_rational rfl rfl rfl 3
  have hdata : (source.embed 3).toOption.map (fun h => h.points.data) =
      some #[0, 0, 0, 3, 0, 0] := by
    decide +kernel
  have hrun : ((⟨2, .sqEuclidean, ⟨9⟩⟩ : Solver ℚ).fit source target none).toOption.map
      (fun sol => (sol.costs.data, sol.success)) = some (#[1, 4, 4, 1], true) := by
    decide +kernel
  rw [hs] at hdata
  obtain ⟨sol, hsol, hboth⟩ := Fault.exists_of_map hrun
  obtain ⟨hcosts, hsuccess⟩ := Prod.mk.inj hboth
  exact ⟨source', target', hs, ht, Option.some.inj hdata, sol, (hfit _ none).1.trans hsol, hcosts,
    hsuccess⟩

end Solver

end OptimalTransport
