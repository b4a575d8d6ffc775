import OptimalTransport.Proofs.Exact
import OptimalTransport.Proofs.Tree.WellFormed
import OptimalTransport.Simplex.Pivot
/-!
Flows over exact arithmetic. A balanced flow is told by its pairing with potentials: whatever the
potentials are, each unit that crosses an arc pays their drop along it, and in total this is what
the excesses are worth. Pushing an amount around a cycle adds a circulation, which pays nothing.
-/

namespace OptimalTransport

variable {n m : Nat}

namespace Arc

def equivSum : Arc n m ≃ Route n m ⊕ Site n m where
  toFun
    | .real i j => .inl (i, j)
    | .artificial v => .inr v
  invFun
    | .inl r => r.arc
    | .inr v => .artificial v
  left_inv a := by cases a <;> rfl
  right_inv x := by rcases x with ⟨i, j⟩ | v <;> rfl

instance : Fintype (Arc n m) :=
  .ofEquiv _ equivSum.symm

theorem card_eq : Fintype.card (Arc n m) = n * m + (n + m) := by
  rw [Fintype.card_congr equivSum]
  simp

theorem sum_eq (f : Arc n m → ℚ) :
    ∑ a, f a = (∑ i, ∑ j, f (.real i j)) + ∑ v, f (.artificial v) := by
  rw [← equivSum.symm.sum_comp, Fintype.sum_sum_type, Fintype.sum_prod_type]
  rfl

end Arc

def Direction.sign : Direction → ℚ
  | .up => 1
  | .down => -1

def Network.Balanced (net : Network n m ℚ) (f : Arc n m → ℚ) : Prop :=
  ∀ p : Node n m → ℚ, p none = 0 →
    ∑ a, f a * (p (net.tail a) - p (net.head a)) = ∑ v, p (some v) * net.excess v

variable {net : Network n m ℚ} {t : SpanningTree n m ℚ} {apex : Node n m}

namespace SpanningTree

def carry (net : Network n m ℚ) (t : SpanningTree n m ℚ) (sites : List (Site n m)) (a : Arc n m) :
    ℚ :=
  (sites.map fun v => if t.arc v = a then (t.direction net v).sign else 0).sum

theorem carry_cons (v : Site n m) (sites : List (Site n m)) (a : Arc n m) :
    t.carry net (v :: sites) a =
      (if t.arc v = a then (t.direction net v).sign else 0) + t.carry net sites a := by
  rw [carry, List.map_cons, List.sum_cons]
  rfl

theorem carry_eq_zero {sites : List (Site n m)} {a : Arc n m} (h : ∀ v ∈ sites, t.arc v ≠ a) :
    t.carry net sites a = 0 := by
  apply List.sum_eq_zero
  intro x hx
  obtain ⟨v, hv, rfl⟩ := List.mem_map.mp hx
  exact if_neg (h v hv)

theorem carry_arc (hinj : Function.Injective t.arc) {sites : List (Site n m)} (hs : sites.Nodup)
    (v : Site n m) :
    t.carry net sites (t.arc v) = if v ∈ sites then (t.direction net v).sign else 0 := by
  induction sites with
  | nil => rfl
  | cons w sites ih =>
    obtain ⟨hw, hs⟩ := List.nodup_cons.mp hs
    rw [carry_cons, ih hs]
    by_cases hvw : w = v
    · subst hvw
      rw [if_pos rfl, if_neg hw, if_pos List.mem_cons_self, add_zero]
    · rw [if_neg fun he => hvw (hinj he), zero_add]
      have : v ∈ w :: sites ↔ v ∈ sites := by simp [Ne.symm hvw]
      simp only [this]

theorem Climb.sum_carry (hj : ∀ v, net.Joins (t.arc v) v (t.parent v)) {u : Node n m}
    {sites : List (Site n m)} (hs : t.Climb apex u sites) (p : Node n m → ℚ) :
    ∑ a, t.carry net sites a * (p (net.tail a) - p (net.head a)) = p u - p apex := by
  induction hs with
  | here => simp [carry]
  | @up v sites away rest ih =>
    have hfirst : ∑ a, (if t.arc v = a then (t.direction net v).sign else 0) *
        (p (net.tail a) - p (net.head a)) = p (some v) - p (t.parent v) := by
      simp only [ite_mul, zero_mul, Finset.sum_ite_eq, Finset.mem_univ, if_true]
      cases hd : t.direction net v with
      | up =>
        obtain ⟨ht, hh⟩ := (hj v).up hd
        rw [ht, hh, Direction.sign, one_mul]
      | down =>
        obtain ⟨ht, hh⟩ := (hj v).down hd
        rw [ht, hh, Direction.sign]
        ring
    simp only [carry_cons, add_mul, Finset.sum_add_distrib, hfirst, ih]
    ring

end SpanningTree

namespace Cycle

def circulation (net : Network n m ℚ) (t : SpanningTree n m ℚ) (entering : Arc n m) (c : Cycle n m)
    (a : Arc n m) : ℚ :=
  (if entering = a then 1 else 0) - t.carry net c.tailSide a + t.carry net c.headSide a

variable {c : Cycle n m} {e : Arc n m}

theorem Closes.sum_circulation (hj : ∀ v, net.Joins (t.arc v) v (t.parent v))
    (h : c.Closes net t e apex) (p : Node n m → ℚ) :
    ∑ a, c.circulation net t e a * (p (net.tail a) - p (net.head a)) = 0 := by
  have htail := h.tailClimb.sum_carry hj p
  have hhead := h.headClimb.sum_carry hj p
  simp only [circulation, add_mul, sub_mul, Finset.sum_add_distrib, Finset.sum_sub_distrib, ite_mul,
    one_mul, zero_mul, Finset.sum_ite_eq, Finset.mem_univ, if_true] at htail hhead ⊢
  linarith

theorem circulation_entering (h : ∀ v, t.arc v ≠ e) : c.circulation net t e e = 1 := by
  rw [circulation, if_pos rfl, SpanningTree.carry_eq_zero fun v _ => h v,
    SpanningTree.carry_eq_zero fun v _ => h v]
  ring

theorem circulation_of_ne {a : Arc n m} (h : ∀ v, t.arc v ≠ a) (he : e ≠ a) :
    c.circulation net t e a = 0 := by
  rw [circulation, if_neg he, SpanningTree.carry_eq_zero fun v _ => h v,
    SpanningTree.carry_eq_zero fun v _ => h v]
  ring

theorem Closes.circulation_arc (hw : t.WellFormed net) (h : c.Closes net t e apex)
    (he : ∀ v, t.arc v ≠ e) (v : Site n m) :
    c.circulation net t e (t.arc v) =
      if v ∈ c.tailSide then -(t.direction net v).sign
      else if v ∈ c.headSide then (t.direction net v).sign else 0 := by
  rw [circulation, if_neg fun heq => he v heq.symm,
    SpanningTree.carry_arc hw.arc_injective (h.tailClimb.nodup hw.ranked),
    SpanningTree.carry_arc hw.arc_injective (h.headClimb.nodup hw.ranked)]
  by_cases hv : v ∈ c.tailSide
  · rw [if_pos hv, if_neg fun hm => h.disjoint hv hm, if_pos hv]
    ring
  · rw [if_neg hv, if_neg hv]
    ring

end Cycle

namespace Simplex.Basis

theorem get_shift (net : Network n m ℚ) (t : SpanningTree n m ℚ) (s : ℚ) (flow : ArcMap n m ℚ)
    (sites : List (Site n m)) (a : Arc n m) :
    (shift net t (· + s) (· - s) flow sites).get a = flow.get a + s * t.carry net sites a := by
  induction sites generalizing flow with
  | nil => simp [shift, SpanningTree.carry]
  | cons v sites ih =>
    rw [SpanningTree.carry_cons]
    apply (ih _).trans
    rw [ArcMap.get_modify]
    by_cases ha : t.arc v = a
    · rw [if_pos ha, if_pos ha]
      cases t.direction net v with
      | up => simp only [Direction.sign]; ring
      | down => simp only [Direction.sign]; ring
    · rw [if_neg ha, if_neg ha]
      ring

theorem get_augment (b : Basis n m ℚ) (entering : Arc n m) (c : Cycle n m) (amount : ℚ)
    (a : Arc n m) :
    (b.augment net entering c amount).get a =
      b.flow.get a + amount * c.circulation net b.tree entering a := by
  have hsub : (fun x : ℚ => x - amount) = (· + -amount) := by
    funext x
    ring
  have hadd : (fun x : ℚ => x + amount) = (· - -amount) := by
    funext x
    ring
  have htail : shift net b.tree (· - amount) (· + amount) (b.flow.modify entering (· + amount))
      c.tailSide = shift net b.tree (· + -amount) (· - -amount)
        (b.flow.modify entering (· + amount)) c.tailSide := by
    rw [← hsub, ← hadd]
  rw [augment, get_shift, htail, get_shift, ArcMap.get_modify, Cycle.circulation]
  split <;> ring

end Simplex.Basis

end OptimalTransport
