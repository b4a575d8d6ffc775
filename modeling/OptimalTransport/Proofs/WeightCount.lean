import OptimalTransport.Document.Codec
import OptimalTransport.Proofs.Embedding
import OptimalTransport.Proofs.Shipments
import OptimalTransport.Proofs.Simplex.Faultless
import OptimalTransport.Scalar.Binary64
/-!
Histograms as they come from documents, with any number of weights. The checks read the weight of
each point, which is zero where the list has ended, and never the length of the list. The engine is
given the list itself. So a list of another length that passes the checks ends in a fault.
-/

namespace OptimalTransport

variable {α : Type} [Scalar α]

namespace Failure

omit [Scalar α] in
theorem refuse_bind_eq_fault {β γ : Type} {x : Except (InputError α) β}
    {g : β → Except (Failure α) γ} {f : Fault} :
    (x.mapError .refused >>= g) = .error (.fault f) ↔ ∃ b, x = .ok b ∧ g b = .error (.fault f) := by
  rw [Fault.bind_eq_error]
  constructor
  · rintro (h | ⟨b, hb, hg⟩)
    · obtain ⟨e, -, he⟩ := Fault.mapError_eq_error.mp h
      cases he
    · exact ⟨b, Fault.mapError_eq_ok.mp hb, hg⟩
  · rintro ⟨b, hb, hg⟩
    exact .inr ⟨b, Fault.mapError_eq_ok.mpr hb, hg⟩

omit [Scalar α] in
theorem lift_eq_fault {β : Type} {x : Except Fault β} {f : Fault} :
    x.mapError (Failure.fault (α := α)) = .error (.fault f) ↔ x = .error f := by
  rw [Fault.mapError_eq_error]
  constructor
  · rintro ⟨e, he, heq⟩
    cases heq
    exact he
  · intro h
    exact ⟨f, h, rfl⟩

end Failure

theorem requireCapacity_cases (count : Nat) :
    (count ≤ capacity ∧ requireCapacity count = .ok ()) ∨
      (capacity < count ∧ requireCapacity count = .error .tooLarge) := by
  rw [requireCapacity]
  split
  · next h => exact .inl ⟨h, rfl⟩
  · next h => exact .inr ⟨not_le.mp h, rfl⟩

namespace Metric

variable [Powers α] {metric : Metric} {source target : Histogram α}

theorem pairwise_eq_error_iff {x y : Matrix α} (hx : x.Full) (hy : y.Full) {f : Fault} :
    metric.pairwise x y = .error f ↔ f = .tooLarge ∧ capacity < x.rows * y.rows := by
  rw [pairwise]
  rcases requireCapacity_cases (x.rows * y.rows) with ⟨hle, hok⟩ | ⟨hlt, herror⟩
  · rw [hok, Fault.ok_bind, Matrix.toRows_ok hx, Matrix.toRows_ok hy]
    refine iff_of_false (fun h => ?_) fun h => absurd h.2 (not_lt.mpr hle)
    split at h
    · cases h
    · cases h
  · rw [herror]
    exact ⟨fun h => ⟨(Except.error.inj h).symm, hlt⟩, fun h => congrArg _ h.1.symm⟩

theorem between_eq_error_iff (hsource : source.points.Full) (htarget : target.points.Full)
    {f : Fault} :
    metric.between source target = .error f ↔
      f = .tooLarge ∧ capacity < source.size * target.size := by
  rw [between]
  split
  · obtain ⟨source', hs, ps⟩ := Histogram.embed_ok hsource 2
    obtain ⟨target', ht, pt⟩ := Histogram.embed_ok htarget 2
    have hrows : source'.points.rows = source.size := ps.points.rows
    have htrows : target'.points.rows = target.size := pt.points.rows
    rw [hs, ht, Fault.ok_bind, Fault.ok_bind, pairwise_eq_error_iff ps.points.full pt.points.full,
      hrows, htrows]
  · exact pairwise_eq_error_iff hsource htarget

end Metric

namespace Problem

variable [Powers α] {exponent : α} {metric : Metric} {source target : Histogram α}
  {costs : Option (Matrix α)} {problem : Problem α}

theorem choose_eq_fault_iff (hsource : source.points.Full) (htarget : target.points.Full)
    {f : Fault} :
    GroundCost.choose metric source target costs = .error (.fault f) ↔
      costs = none ∧ f = .tooLarge ∧ capacity < source.size * target.size := by
  cases costs with
  | none =>
    refine Failure.lift_eq_fault.trans ((Metric.between_eq_error_iff hsource htarget).trans ?_)
    exact (and_iff_right rfl).symm
  | some c =>
    rw [GroundCost.choose]
    refine iff_of_false (fun h => ?_) fun h => absurd h.1 (Option.some_ne_none c)
    split at h
    · cases h
    · cases h

theorem prepare_eq_fault_iff (hsource : source.points.Full) (htarget : target.points.Full)
    {f : Fault} :
    prepare exponent metric source target costs = .error (.fault f) ↔
      Checks exponent source target ∧
        costs = none ∧ f = .tooLarge ∧ capacity < source.size * target.size := by
  by_cases hchecks : Checks exponent source target
  · rw [prepare_of_checks hchecks, Fault.bind_eq_error, choose_eq_fault_iff hsource htarget]
    constructor
    · rintro (hlarge | ⟨ground, -, h⟩)
      · exact ⟨hchecks, hlarge⟩
      · obtain ⟨_, -, h⟩ := Failure.refuse_bind_eq_fault.mp h
        cases h
    · rintro ⟨-, hlarge⟩
      exact .inl hlarge
  · obtain ⟨e, he, -⟩ := prepare_of_not_checks metric costs hchecks
    rw [he]
    exact iff_of_false (fun h => nomatch h) fun h => hchecks h.1

structure Sized (source target : Histogram α) (problem : Problem α) : Prop where
  ground : problem.ground.shape = (source.size, target.size)
  costs : problem.costs.shape = problem.ground.shape
  full : problem.costs.Full
  fits : source.size * target.size ≤ capacity
  counted : problem.costs.shape = (problem.supply.size, problem.demand.size) ↔
    source.Counted ∧ target.Counted

theorem sized_of_prepare (hsource : source.points.Full) (htarget : target.points.Full)
    (hcosts : ∀ c ∈ costs, c.Full ∧ c.data.size ≤ capacity)
    (h : prepare exponent metric source target costs = .ok problem) :
    Sized source target problem := by
  obtain ⟨-, hground, -, hraised, -, -⟩ := prepare_eq_ok_iff.mp h
  have hshape := GroundCost.shape_of_choose hground
  have hfull := GroundCost.full_of_choose (fun c hc => (hcosts c hc).1) hground
  have hfits : source.size * target.size ≤ capacity := by
    cases costs with
    | none =>
      by_contra hlarge
      have hfault : GroundCost.choose metric source target none = .error (.fault .tooLarge) :=
        (choose_eq_fault_iff hsource htarget).mpr ⟨rfl, rfl, not_le.mp hlarge⟩
      rw [hfault] at hground
      cases hground
    | some c =>
      rw [GroundCost.choose] at hground
      split at hground
      · next hc =>
        obtain ⟨hrows, hcols⟩ := Prod.mk.inj hc
        obtain ⟨hcfull, hsize⟩ := hcosts c rfl
        rwa [hcfull, hrows, hcols] at hsize
      · cases hground
  refine ⟨hshape, ?_, hraised ▸ hfull.pow exponent, hfits, shape_eq_iff h⟩
  rw [hraised, Matrix.shape_pow]

end Problem

theorem Plan.scatter_faultless {n m : Nat} {xs : List (Shipment α)}
    (h : ∀ x ∈ xs, x.source < n ∧ x.target < m) : ∃ p, Plan.scatter n m xs = .ok p := by
  let Fits (a : Matrix α) : Prop := a.shape = (n, m) ∧ a.Full
  have hstep : ∀ a, Fits a → ∀ x ∈ xs, ∃ a', a.increment x.source x.target x.mass = .ok a' ∧
      Fits a' := by
    rintro a ⟨hshape, hfull⟩ x hx
    obtain ⟨hrows, hcols⟩ := Prod.mk.inj hshape
    obtain ⟨hi, hj⟩ := h x hx
    obtain ⟨a', ha', hshape', hfull', -⟩ :=
      Matrix.increment_ok hfull (hrows ▸ hi) (hcols ▸ hj) x.mass
    exact ⟨a', ha', hshape'.trans hshape, hfull'⟩
  have hstart : Fits (.zeros n m) := ⟨rfl, .zeros n m⟩
  obtain ⟨a, ha, -⟩ := Fault.foldlM_ok hstep hstart
  exact ⟨⟨a⟩, by rw [scatter, ha]; rfl⟩

theorem Solution.ofOutcome_faultless (exponent : α) {ground : Matrix α} {o : Outcome α}
    (hcapacity : ground.rows * ground.cols ≤ capacity)
    (h : ∀ x ∈ o.shipments, x.source < ground.rows ∧ x.target < ground.cols) :
    ∃ sol, ofOutcome exponent ground o = .ok sol := by
  rw [ofOutcome, requireCapacity, if_pos hcapacity, Fault.ok_bind]
  cases o.status with
  | optimal =>
    obtain ⟨p, hp⟩ := Plan.scatter_faultless h
    exact ⟨_, by dsimp only; rw [hp]; rfl⟩
  | infeasible | unbounded | exhausted => exact ⟨_, rfl⟩

namespace Solver

variable {source target : Histogram α} {problem : Problem α}

theorem transport_eq_error (s : Solver α) (hp : problem.Sized source target)
    (hcount : ¬ (source.Counted ∧ target.Counted)) :
    s.engine.transport problem.costs problem.supply problem.demand = .error .shapesDiffer := by
  rw [Simplex.Config.transport, Network.build, if_neg (mt hp.counted.mp hcount)]
  rfl

theorem exists_solution (s : Solver α) (hp : problem.Sized source target) (hs : source.Counted)
    (ht : target.Counted) :
    ∃ o sol, s.engine.transport problem.costs problem.supply problem.demand = .ok o ∧
      Solution.ofOutcome s.exponent problem.ground o = .ok sol := by
  have hshape := hp.counted.mpr ⟨hs, ht⟩
  obtain ⟨net, hbuilt, hprice⟩ := Network.build_priced hshape hp.full
  obtain ⟨o, ho⟩ := Simplex.solve_faultless hprice s.engine.budget
  have hlt := (Simplex.listed_of_solve ho).inRange
  obtain ⟨hrows, hcols⟩ := Prod.mk.inj hp.ground
  obtain ⟨hsupply, hdemand⟩ := Prod.mk.inj (hp.costs.symm.trans hshape)
  rw [← hsupply, ← hdemand] at hlt
  obtain ⟨sol, hsol⟩ := Solution.ofOutcome_faultless s.exponent (hrows ▸ hcols ▸ hp.fits) hlt
  exact ⟨o, sol, by rw [Simplex.Config.transport, hbuilt, Fault.ok_bind, ho], hsol⟩

variable [Powers α] {s : Solver α} {costs : Option (Matrix α)}

theorem fit_eq_fault (hprepare : s.prepare source target costs = .ok problem)
    (hp : problem.Sized source target) (hcount : ¬ (source.Counted ∧ target.Counted)) :
    s.fit source target costs = .error (.fault .shapesDiffer) := by
  rw [fit, fitWith_of_prepare hprepare, s.transport_eq_error hp hcount]
  rfl

theorem fit_eq_ok (hprepare : s.prepare source target costs = .ok problem)
    (hp : problem.Sized source target) (hs : source.Counted) (ht : target.Counted) :
    ∃ sol, s.fit source target costs = .ok sol := by
  obtain ⟨o, sol, ho, hsol⟩ := s.exists_solution hp hs ht
  exact ⟨sol, fitWith_eq_ok_iff.mpr ⟨problem, o, hprepare, ho, hsol⟩⟩

theorem fit_eq_fault_iff (hsource : source.points.Full) (htarget : target.points.Full)
    (hcosts : ∀ c ∈ costs, c.Full ∧ c.data.size ≤ capacity) :
    (∀ f, s.fit source target costs = .error (.fault f) ↔
      (f = .shapesDiffer ∧ (∃ problem, s.prepare source target costs = .ok problem) ∧
        ¬ (source.Counted ∧ target.Counted)) ∨
      (f = .tooLarge ∧ Problem.Checks s.exponent source target ∧ costs = none ∧
        capacity < source.size * target.size)) ∧
    ∀ sol, s.fit source target costs = .ok sol → source.Counted ∧ target.Counted := by
  have hsized : ∀ {problem}, s.prepare source target costs = .ok problem →
      problem.Sized source target :=
    Problem.sized_of_prepare hsource htarget hcosts
  refine ⟨fun f => ⟨fun hfit => ?_, ?_⟩, fun sol hfit => counted_of_fit hfit⟩
  · rcases Fault.bind_eq_error.mp hfit with hfault | ⟨problem, hprepare, -⟩
    · obtain ⟨hchecks, hnone, rfl, hlarge⟩ :=
        (Problem.prepare_eq_fault_iff hsource htarget).mp hfault
      exact .inr ⟨rfl, hchecks, hnone, hlarge⟩
    · -- The fault came from the engine, which has none for weights of the right number.
      have hcount : ¬ (source.Counted ∧ target.Counted) := by
        rintro ⟨hs, ht⟩
        obtain ⟨sol, hsol⟩ := fit_eq_ok hprepare (hsized hprepare) hs ht
        rw [hsol] at hfit
        cases hfit
      rw [fit_eq_fault hprepare (hsized hprepare) hcount] at hfit
      cases hfit
      exact .inl ⟨rfl, ⟨problem, hprepare⟩, hcount⟩
  · rintro (⟨rfl, ⟨problem, hprepare⟩, hcount⟩ | ⟨rfl, hchecks, hnone, hlarge⟩)
    · exact fit_eq_fault hprepare (hsized hprepare) hcount
    · exact Fault.bind_eq_error.mpr (.inl
        ((Problem.prepare_eq_fault_iff hsource htarget).mpr ⟨hchecks, hnone, rfl, hlarge⟩))

theorem fit_eq_fault_iff_missing_weight :
    let source : Histogram Float := ⟨⟨2, 1, #[0, 1]⟩, #[1]⟩
    let target : Histogram Float := ⟨⟨1, 1, #[0]⟩, #[1]⟩
    (default : Solver Float).fit source target none = .error (.fault .shapesDiffer) := by
  intro source target
  have hsource : source.points.Full := rfl
  have htarget : target.points.Full := rfl
  have hcosts : ∀ c ∈ (none : Option (Matrix Float)), c.Full ∧ c.data.size ≤ capacity :=
    fun _ h => nomatch h
  have hcount : ¬ (source.Counted ∧ target.Counted) := by decide
  have hpasses : ((default : Solver Float).prepare source target none).isOk := by decide +kernel
  refine ((fit_eq_fault_iff hsource htarget hcosts).1 .shapesDiffer).mpr
    (.inl ⟨rfl, ?_, hcount⟩)
  cases hprepare : (default : Solver Float).prepare source target none with
  | ok problem => exact ⟨problem, rfl⟩
  | error _ =>
    rw [hprepare] at hpasses
    cases hpasses

/-- A document of one point and two weights, the second of which is zero, is read. All checks pass,
and the fit ends in a fault. -/
theorem surplus_weight_faults :
    let point : Document Float :=
      .record [("rows", .integer 1), ("cols", .integer 1), ("data", .list [.integer 0])]
    ∃ source target : Histogram Float,
      Histogram.ofDocument?
        (.record [("points", point), ("weights", .list [.integer 1, .integer 0])]) = some source ∧
      Histogram.ofDocument?
        (.record [("points", point), ("weights", .list [.integer 1])]) = some target ∧
      source.points.Full ∧ target.points.Full ∧ ¬ source.Counted ∧ target.Counted ∧
      (default : Solver Float).fit source target none = .error (.fault .shapesDiffer) := by
  intro point
  refine ⟨⟨⟨1, 1, #[0]⟩, #[1, 0]⟩, ⟨⟨1, 1, #[0]⟩, #[1]⟩, rfl, rfl, rfl, rfl, ?_, rfl, rfl⟩
  exact Nat.ne_of_beq_eq_false rfl

end Solver

end OptimalTransport
