import OptimalTransport.Proofs.Simplex.Sound

namespace OptimalTransport

variable {n m : Nat} {α : Type} [Scalar α]

structure Crossing (n m : Nat) where
  before : Node n m
  arc : Arc n m
  after : Node n m

namespace Crossing

def Along (net : Network n m α) (x : Crossing n m) : Prop :=
  net.tail x.arc = x.before ∧ net.head x.arc = x.after

def Against (net : Network n m α) (x : Crossing n m) : Prop :=
  net.tail x.arc = x.after ∧ net.head x.arc = x.before

instance (net : Network n m α) : DecidablePred (Along net) := fun x =>
  inferInstanceAs (Decidable (net.tail x.arc = x.before ∧ net.head x.arc = x.after))

instance (net : Network n m α) : DecidablePred (Against net) := fun x =>
  inferInstanceAs (Decidable (net.tail x.arc = x.after ∧ net.head x.arc = x.before))

def closing (net : Network n m α) (a : Arc n m) : Crossing n m :=
  ⟨net.tail a, a, net.head a⟩

/-- The arc above a site, as the walk around a cycle crosses it: downward on the side of the tail,
and upward on the side of the head. -/
def above (t : SpanningTree n m α) : Half → Site n m → Crossing n m
  | .tail, v => ⟨t.parent v, t.arc v, some v⟩
  | .head, v => ⟨some v, t.arc v, t.parent v⟩

variable {net : Network n m α} {t : SpanningTree n m α} {a : Arc n m} {v : Site n m}

theorem along_closing (net : Network n m α) (a : Arc n m) : (closing net a).Along net :=
  ⟨rfl, rfl⟩

theorem not_against_closing (net : Network n m α) (a : Arc n m) : ¬ (closing net a).Against net :=
  fun h => net.tail_ne_head a h.1

theorem along_or_against (hj : net.Joins (t.arc v) v (t.parent v)) (half : Half) :
    (above t half v).Along net ∨ (above t half v).Against net := by
  cases half with
  | tail => exact hj.symm
  | head => exact hj

theorem against_iff (hj : net.Joins (t.arc v) v (t.parent v)) {half : Half} :
    (above t half v).Against net ↔ t.direction net v = half.losing := by
  cases half with
  | tail =>
    constructor
    · rintro ⟨htail, -⟩
      exact Network.direction_eq_up_iff.mpr htail
    · intro hup
      exact hj.up hup
  | head =>
    constructor
    · rintro ⟨-, hhead⟩
      exact hj.direction_eq_down_iff_head.mpr hhead
    · intro hdown
      exact hj.down hdown

end Crossing

inductive Network.Walk (net : Network n m α) : Node n m → Node n m → List (Crossing n m) → Prop
  | stay (u : Node n m) : Walk net u u []
  | cross {x : Crossing n m} {v : Node n m} {rest : List (Crossing n m)}
      (hx : x.Along net ∨ x.Against net) (hrest : Walk net x.after v rest) :
      Walk net x.before v (x :: rest)

namespace Network.Walk

variable {net : Network n m α} {t : SpanningTree n m α} {u v w : Node n m}
  {x : Crossing n m} {xs ys : List (Crossing n m)}

theorem append (h : net.Walk u v xs) (h' : net.Walk v w ys) : net.Walk u w (xs ++ ys) := by
  induction h with
  | stay u => exact h'
  | cross hx hrest ih => exact .cross hx (ih h')

theorem cons_iff : net.Walk u v (x :: xs) ↔
    u = x.before ∧ (x.Along net ∨ x.Against net) ∧ net.Walk x.after v xs := by
  constructor
  · intro h
    cases h with
    | cross hx hrest => exact ⟨rfl, hx, hrest⟩
  · rintro ⟨rfl, hx, hrest⟩
    exact .cross hx hrest

theorem append_iff : net.Walk u w (xs ++ ys) ↔ ∃ v, net.Walk u v xs ∧ net.Walk v w ys := by
  constructor
  · intro h
    induction xs generalizing u with
    | nil => exact ⟨u, .stay u, h⟩
    | cons x xs ih =>
      obtain ⟨rfl, hx, hrest⟩ := cons_iff.mp h
      obtain ⟨v, hv, hys⟩ := ih hrest
      exact ⟨v, .cross hx hv, hys⟩
  · rintro ⟨v, hxs, hys⟩
    exact hxs.append hys

theorem of_climb (hj : ∀ v, net.Joins (t.arc v) v (t.parent v)) {sites : List (Site n m)}
    (h : t.Climb v u sites) : net.Walk u v (sites.map (Crossing.above t .head)) := by
  induction h with
  | here => exact .stay v
  | @up w sites away rest ih => exact .cross (Crossing.along_or_against (hj w) .head) ih

theorem of_climb_reverse (hj : ∀ v, net.Joins (t.arc v) v (t.parent v)) {sites : List (Site n m)}
    (h : t.Climb v u sites) : net.Walk v u (sites.reverse.map (Crossing.above t .tail)) := by
  induction h with
  | here => exact .stay v
  | @up w sites away rest ih =>
    rw [List.reverse_cons, List.map_append]
    exact ih.append (.cross (Crossing.along_or_against (hj w) .tail) (.stay (some w)))

end Network.Walk

namespace Cycle

def walk (net : Network n m α) (t : SpanningTree n m α) (a : Arc n m) (c : Cycle n m) :
    List (Crossing n m) :=
  c.tailSide.reverse.map (Crossing.above t .tail) ++
    .closing net a :: c.headSide.map (Crossing.above t .head)

variable {net : Network n m α} {t : SpanningTree n m α} {a : Arc n m} {apex : Node n m}
  {c : Cycle n m}

theorem Closes.walk (hj : ∀ v, net.Joins (t.arc v) v (t.parent v)) (h : c.Closes net t a apex) :
    net.Walk apex apex (c.walk net t a) :=
  (Network.Walk.of_climb_reverse hj h.tailClimb).append
    (.cross (.inl (Crossing.along_closing net a)) (.of_climb hj h.headClimb))

theorem forall_mem_walk {P : Crossing n m → Prop} :
    (∀ x ∈ c.walk net t a, P x) ↔
      (∀ v ∈ c.tailSide, P (.above t .tail v)) ∧ P (.closing net a) ∧
        ∀ v ∈ c.headSide, P (.above t .head v) := by
  simp only [Cycle.walk, List.forall_mem_append, List.forall_mem_cons, List.forall_mem_map,
    List.mem_reverse]

end Cycle

theorem SpanningTree.join_of_cycle {t : SpanningTree n m α} (hr : t.Ranked t.depth)
    {net : Network n m α} {a : Arc n m} {c : Cycle n m} (hc : t.cycle net a = .ok c) :
    ∃ apex, t.join (net.tail a) (net.head a) = .ok apex ∧ c.Closes net t a apex := by
  obtain ⟨apex, left, right, hj, hl, hr', hd⟩ := join_ok hr (net.tail a) (net.head a)
  rw [cycle, hj, Fault.ok_bind, (path_eq_ok_iff hr).mpr hl, Fault.ok_bind,
    (path_eq_ok_iff hr).mpr hr', Fault.ok_bind] at hc
  cases hc
  exact ⟨apex, hj, hl, hr', hd⟩

end OptimalTransport
