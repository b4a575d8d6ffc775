import OptimalTransport.Document.Codec
import OptimalTransport.Proofs.Document.Structure
import OptimalTransport.Scalar.Binary64

namespace OptimalTransport

open Document

variable {α : Type}

/-- What is written is read back, and so is every document that stands for the value. -/
def Document.ReadsBack {β : Type} (finite : β → Prop) (form : β → Form α) (encode : β → Document α)
    (decode : Document α → Option β) : Prop :=
  ∀ b, finite b → decode (encode b) = some b ∧ ∀ d, form b d → decode d = some b

theorem Document.ReadsBack.of_form {β : Type} {finite : β → Prop} {form : β → Form α}
    {encode : β → Document α} {decode : Document α → Option β} (hencode : ∀ b, form b (encode b))
    (hdecode : ∀ b, finite b → ∀ d, form b d → decode d = some b) :
    ReadsBack finite form encode decode :=
  fun b hb => ⟨hdecode b hb _ (hencode b), hdecode b hb⟩

theorem Document.Choice.readsBack {β : Type} {all : List β} {name : β → String}
    (h : Choice all name) :
    ReadsBack (fun _ => True) (fun b => Named (α := α) (name b)) (fun b => .text (name b))
      (choice? all name) :=
  .of_form (fun _ => .text) fun _ _ _ => h.choice?_of_named

namespace Metric

def Shown (metric : Metric) : Form α :=
  Named metric.name

theorem choice : Choice all name where
  complete metric := by cases metric <;> decide
  distinct := by decide

end Metric

namespace Status

def Shown (status : Status) : Form α :=
  Named status.name

theorem choice : Choice all name where
  complete status := by cases status <;> decide
  distinct := by decide

end Status

namespace Simplex.Config

def Shown (s : Config) : Form α :=
  Structure ["iterations"] [("iterations", exactly (ofNat s.budget))]

theorem ofDocument?_of_shown {s : Config} {d : Document α} (h : s.Shown d) :
    ofDocument? d = some s := by
  obtain ⟨fields, hfields, hfound⟩ := h.exists_fields (by decide) (.refl _)
  have hbudget : required fields "iterations" nat? = some s.budget :=
    hfound.required_exactly (by simp) (nat?_ofNat _)
  rw [ofDocument?, hfields, Option.bind_eq_bind, Option.bind_some, hbudget]
  rfl

theorem shown_toDocument (s : Config) : s.Shown (s.toDocument : Document α) :=
  .of_record (.cons ⟨rfl, rfl⟩ .nil)

theorem readsBack : ReadsBack (fun _ => True) Shown (toDocument (α := α)) ofDocument? :=
  .of_form shown_toDocument fun _ _ _ => ofDocument?_of_shown

end Simplex.Config

variable [Scalar α]

namespace Matrix

def IsFinite (a : Matrix α) : Prop :=
  ∀ x ∈ a.toList, Scalar.isFinite x

def Shown (a : Matrix α) : Form α :=
  Structure ["rows", "cols", "data"] [
    ("rows", exactly (ofNat a.rows)),
    ("cols", exactly (ofNat a.cols)),
    ("data", exactly (ofScalars a.toList))]

theorem ofDocument?_of_shown {a : Matrix α} (ha : a.IsFinite) {d : Document α} (h : a.Shown d) :
    ofDocument? d = some a := by
  obtain ⟨fields, hfields, hfound⟩ := h.exists_fields (by decide) (.refl _)
  have hrows : required fields "rows" nat? = some a.rows :=
    hfound.required_exactly (by simp) (nat?_ofNat _)
  have hcols : required fields "cols" nat? = some a.cols :=
    hfound.required_exactly (by simp) (nat?_ofNat _)
  have hdata : required fields "data" scalars? = some a.toList :=
    hfound.required_exactly (by simp) (scalars?_ofScalars ha)
  rw [ofDocument?, hfields]
  simp only [Option.bind_eq_bind, Option.bind_some, hrows, hcols, hdata]
  rfl

theorem shown_toDocument (a : Matrix α) : a.Shown a.toDocument :=
  .of_record (.cons ⟨rfl, rfl⟩ (.cons ⟨rfl, rfl⟩ (.cons ⟨rfl, rfl⟩ .nil)))

theorem readsBack : ReadsBack IsFinite Shown toDocument (ofDocument? (α := α)) :=
  .of_form shown_toDocument fun _ ha _ => ofDocument?_of_shown ha

end Matrix

namespace Histogram

def IsFinite (h : Histogram α) : Prop :=
  h.points.IsFinite ∧ ∀ x ∈ h.weights.toList, Scalar.isFinite x

def Shown (h : Histogram α) : Form α :=
  Structure ["points", "weights"] [
    ("points", h.points.Shown),
    ("weights", exactly (ofScalars h.weights.toList))]

theorem ofDocument?_of_shown {h : Histogram α} (hh : h.IsFinite) {d : Document α} (hd : h.Shown d) :
    ofDocument? d = some h := by
  obtain ⟨fields, hfields, hfound⟩ := hd.exists_fields (by decide) (.refl _)
  have hpoints : required fields "points" Matrix.ofDocument? = some h.points :=
    hfound.required_eq (by simp) fun _ => Matrix.ofDocument?_of_shown hh.1
  have hweights : required fields "weights" scalars? = some h.weights.toList :=
    hfound.required_exactly (by simp) (scalars?_ofScalars hh.2)
  rw [ofDocument?, hfields]
  simp only [Option.bind_eq_bind, Option.bind_some, hpoints, hweights]
  rfl

theorem shown_toDocument (h : Histogram α) : h.Shown h.toDocument :=
  .of_record (.cons ⟨rfl, h.points.shown_toDocument⟩ (.cons ⟨rfl, rfl⟩ .nil))

theorem readsBack : ReadsBack IsFinite Shown toDocument (ofDocument? (α := α)) :=
  .of_form shown_toDocument fun _ hh _ => ofDocument?_of_shown hh

end Histogram

namespace Plan

def IsFinite (p : Plan α) : Prop :=
  p.matrix.IsFinite

def Shown (p : Plan α) : Form α :=
  p.matrix.Shown

theorem ofDocument?_of_shown {p : Plan α} (hp : p.IsFinite) {d : Document α} (h : p.Shown d) :
    ofDocument? d = some p := by
  rw [ofDocument?, Matrix.ofDocument?_of_shown hp h]
  rfl

theorem shown_toDocument (p : Plan α) : p.Shown p.toDocument :=
  p.matrix.shown_toDocument

theorem readsBack : ReadsBack IsFinite Shown toDocument (ofDocument? (α := α)) :=
  .of_form shown_toDocument fun _ hp _ => ofDocument?_of_shown hp

end Plan

namespace Solution

structure IsFinite (s : Solution α) : Prop where
  exponent : Scalar.isFinite s.exponent
  costs : s.costs.IsFinite
  plan : s.plan.IsFinite
  sourcePotentials : ∀ x ∈ s.sourcePotentials, Scalar.isFinite x
  targetPotentials : ∀ x ∈ s.targetPotentials, Scalar.isFinite x

def Shown (s : Solution α) : Form α :=
  Structure ["p", "costs", "plan", "status", "lhs", "rhs", "pivots"] [
    ("p", exactly (ofScalar s.exponent)),
    ("costs", s.costs.Shown),
    ("plan", s.plan.Shown),
    ("status", s.status.Shown),
    ("lhs", exactly (ofScalars s.sourcePotentials)),
    ("rhs", exactly (ofScalars s.targetPotentials)),
    ("pivots", exactly (ofNat s.pivots))]

theorem ofDocument?_of_shown {s : Solution α} (hs : s.IsFinite) {d : Document α} (h : s.Shown d) :
    ofDocument? d = some s := by
  obtain ⟨fields, hfields, hfound⟩ := h.exists_fields (by decide) (.refl _)
  have hexponent : required fields "p" scalar? = some s.exponent :=
    hfound.required_exactly (by simp) (scalar?_ofScalar hs.exponent)
  have hcosts : required fields "costs" Matrix.ofDocument? = some s.costs :=
    hfound.required_eq (by simp) fun _ => Matrix.ofDocument?_of_shown hs.costs
  have hplan : required fields "plan" Plan.ofDocument? = some s.plan :=
    hfound.required_eq (by simp) fun _ => Plan.ofDocument?_of_shown hs.plan
  have hname : ∀ x : Document α, s.status.Shown x → Status.ofDocument? x = some s.status :=
    fun _ => Status.choice.choice?_of_named
  have hstatus : required fields "status" Status.ofDocument? = some s.status :=
    hfound.required_eq (by simp) hname
  have hlhs : required fields "lhs" scalars? = some s.sourcePotentials :=
    hfound.required_exactly (by simp) (scalars?_ofScalars hs.sourcePotentials)
  have hrhs : required fields "rhs" scalars? = some s.targetPotentials :=
    hfound.required_exactly (by simp) (scalars?_ofScalars hs.targetPotentials)
  have hpivots : required fields "pivots" nat? = some s.pivots :=
    hfound.required_exactly (by simp) (nat?_ofNat _)
  rw [ofDocument?, hfields]
  simp only [Option.bind_eq_bind, Option.bind_some, hexponent, hcosts, hplan, hstatus, hlhs, hrhs,
    hpivots]
  rfl

theorem shown_toDocument (s : Solution α) : s.Shown s.toDocument :=
  .of_record <| .cons ⟨rfl, rfl⟩ <| .cons ⟨rfl, s.costs.shown_toDocument⟩ <|
    .cons ⟨rfl, s.plan.shown_toDocument⟩ <| .cons ⟨rfl, .text⟩ <|
    .cons ⟨rfl, rfl⟩ <| .cons ⟨rfl, rfl⟩ <| .cons ⟨rfl, rfl⟩ .nil

theorem readsBack : ReadsBack IsFinite Shown toDocument (ofDocument? (α := α)) :=
  .of_form shown_toDocument fun _ hs _ => ofDocument?_of_shown hs

end Solution

namespace Solver

def IsFinite (s : Solver α) : Prop :=
  Scalar.isFinite s.exponent

def parts (s : Solver α) : List (String × Form α) := [
  ("p", exactly (ofScalar s.exponent)),
  ("metric", s.metric.Shown),
  ("engine", s.engine.Shown)]

def Shown (s : Solver α) : Form α :=
  Structure ["p", "metric", "engine"] s.parts

def ShownIn (keep : String → Bool) (s : Solver α) : Form α :=
  Structure ["p", "metric", "engine"] (s.parts.filter fun part => keep part.1)

def restrict (keep : String → Bool) (s : Solver α) : Solver α where
  exponent := if keep "p" then s.exponent else 2.0
  metric := if keep "metric" then s.metric else .euclidean
  engine := if keep "engine" then s.engine else ⟨16777216⟩

theorem ofDocument?_of_shownIn {keep : String → Bool} {s : Solver α} (hs : s.IsFinite)
    {d : Document α} (h : s.ShownIn keep d) : ofDocument? d = some (s.restrict keep) := by
  have hparts : ((s.parts.filter fun part => keep part.1).map Prod.fst).Sublist
      ["p", "metric", "engine"] :=
    List.filter_sublist.map Prod.fst
  obtain ⟨fields, hfields, hfound⟩ := h.exists_fields (by decide) hparts
  have hexponent : defaulted fields "p" scalar? (default : Solver α).exponent =
      some (s.restrict keep).exponent :=
    hfound.defaulted_eq (by simp) (by simp [parts]) (forall_exactly (scalar?_ofScalar hs)) _
  have hname : ∀ x : Document α, s.metric.Shown x → Metric.ofDocument? x = some s.metric :=
    fun _ => Metric.choice.choice?_of_named
  have hmetric : defaulted fields "metric" Metric.ofDocument? (default : Solver α).metric =
      some (s.restrict keep).metric :=
    hfound.defaulted_eq (by simp) (by simp [parts]) hname _
  have hengine : defaulted fields "engine" Simplex.Config.ofDocument? (default : Solver α).engine =
      some (s.restrict keep).engine :=
    hfound.defaulted_eq (by simp) (by simp [parts])
      (fun _ => Simplex.Config.ofDocument?_of_shown) _
  rw [ofDocument?, hfields]
  simp only [Option.bind_eq_bind, Option.bind_some, hexponent, hmetric, hengine]
  rfl

theorem ofDocument?_of_shown {s : Solver α} (hs : s.IsFinite) {d : Document α} (h : s.Shown d) :
    ofDocument? d = some s := by
  have hall : s.ShownIn (fun _ => true) d := by
    rw [ShownIn, List.filter_true]
    exact h
  exact ofDocument?_of_shownIn hs hall

theorem shown_toDocument (s : Solver α) : s.Shown s.toDocument :=
  .of_record <| .cons ⟨rfl, rfl⟩ <| .cons ⟨rfl, .text⟩ <|
    .cons ⟨rfl, s.engine.shown_toDocument⟩ .nil

theorem readsBack : ReadsBack IsFinite Shown toDocument (ofDocument? (α := α)) :=
  .of_form shown_toDocument fun _ hs _ => ofDocument?_of_shown hs

end Solver

theorem Document.values_readBack :
    ReadsBack Matrix.IsFinite Matrix.Shown Matrix.toDocument (Matrix.ofDocument? (α := α)) ∧
    ReadsBack Histogram.IsFinite Histogram.Shown Histogram.toDocument
      (Histogram.ofDocument? (α := α)) ∧
    ReadsBack Plan.IsFinite Plan.Shown Plan.toDocument (Plan.ofDocument? (α := α)) ∧
    ReadsBack Solution.IsFinite Solution.Shown Solution.toDocument
      (Solution.ofDocument? (α := α)) ∧
    ReadsBack Solver.IsFinite Solver.Shown Solver.toDocument (Solver.ofDocument? (α := α)) ∧
    ReadsBack (fun _ => True) Simplex.Config.Shown Simplex.Config.toDocument
      (Simplex.Config.ofDocument? (α := α)) ∧
    ReadsBack (fun _ => True) Metric.Shown Metric.toDocument (Metric.ofDocument? (α := α)) ∧
    ReadsBack (fun _ => True) Status.Shown Status.toDocument (Status.ofDocument? (α := α)) ∧
    ∀ (s : Solver α) (keep : String → Bool), s.IsFinite →
      ∀ d, s.ShownIn keep d → Solver.ofDocument? d = some (s.restrict keep) :=
  ⟨Matrix.readsBack, Histogram.readsBack, Plan.readsBack, Solution.readsBack, Solver.readsBack,
    Simplex.Config.readsBack, Metric.choice.readsBack, Status.choice.readsBack,
    fun _ _ hs _ => Solver.ofDocument?_of_shownIn hs⟩

theorem Document.values_readBack_partial :
    let p : String × Document Float := ("p", .number 1)
    let engine : String × Document Float := ("engine", .list [.integer 7])
    let label : String × Document Float := ("label", .null)
    (∃ a : Matrix Float, ¬ a.Full ∧ Matrix.ofDocument? a.toDocument = some a) ∧
    Solver.ofDocument? (.record [engine, label, p]) = some ⟨1, .euclidean, ⟨7⟩⟩ := by
  intro p engine label
  constructor
  · have ha : (⟨2, 3, #[1]⟩ : Matrix Float).IsFinite := by
      simp only [Matrix.IsFinite, Matrix.toList, List.forall_mem_singleton]
      decide
    exact ⟨⟨2, 3, #[1]⟩, by decide, (values_readBack.1 _ ha).1⟩
  · let s : Solver Float := ⟨1, .manhattan, ⟨7⟩⟩
    have hs : Scalar.isFinite (1 : Float) := by decide
    have hbudget : Filled (α := Float) [("iterations", exactly (ofNat 7))]
        [("iterations", .integer 7)] :=
      .cons ⟨rfl, rfl⟩ .nil
    have hengine : s.engine.Shown engine.2 := .list hbudget (List.prefix_refl _)
    have hp : ofScalar (1 : Float) = p.2 := if_pos hs
    have hfields : Filled [("p", exactly (ofScalar s.exponent)), ("engine", s.engine.Shown)]
        [p, engine] :=
      .cons ⟨rfl, hp.symm⟩ (.cons ⟨rfl, hengine⟩ .nil)
    have hunknown : ∀ x ∈ [label], x.1 ∉ ["p", "metric", "engine"] := by decide
    have hall : [engine, label, p].Perm ([p, engine] ++ [label]) :=
      List.perm_append_singleton p [engine, label]
    have hshown : s.ShownIn (· != "metric") (.record [engine, label, p]) :=
      .record hfields hunknown hall
    exact values_readBack.2.2.2.2.2.2.2.2 s _ hs _ hshown

end OptimalTransport
