import Mathlib
import OptimalTransport.Pricing
import OptimalTransport.Proofs.Fault

namespace OptimalTransport

variable {n m : Nat}

namespace Route

theorem window_add (first a b : Nat) :
    (window first (a + b) : List (Route n m)) = window first a ++ window (first + a) b := by
  rw [window, List.range_add, List.filterMap_append, List.filterMap_map]
  simp only [Function.comp_def, ← Nat.add_assoc]
  rfl

theorem window_succ (h : 0 < n * m) (first count : Nat) :
    ∃ r : Route n m, r.index = (first + count) % (n * m) ∧
      window first (count + 1) = window first count ++ [r] := by
  obtain ⟨r, hr, hindex⟩ := exists_ofIndex? (Nat.mod_lt (first + count) h)
  refine ⟨r, hindex, ?_⟩
  rw [window_add]
  congr 1
  simp [window, List.range_succ, hr]

theorem length_window (h : 0 < n * m) (first count : Nat) :
    (window first count : List (Route n m)).length = count := by
  induction count with
  | zero => rfl
  | succ count ih =>
    obtain ⟨r, -, hr⟩ := window_succ h first count
    rw [hr, List.length_append, ih, List.length_singleton]

end Route

namespace Pricing

section BlockSize

theorem floorSqrtWithin_eq_sqrt {fuel k : Nat} (h : k < 4 ^ fuel) :
    floorSqrtWithin fuel k = Nat.sqrt k := by
  induction fuel generalizing k with
  | zero =>
    obtain rfl : k = 0 := by simpa using h
    rfl
  | succ fuel ih =>
    have hquarter : k / 4 < 4 ^ fuel := Nat.div_lt_of_lt_mul (by rwa [Nat.mul_comm])
    have hle := Nat.sqrt_le (k / 4)
    have hlt := Nat.lt_succ_sqrt (k / 4)
    rw [floorSqrtWithin, ih hquarter]
    generalize (k / 4).sqrt = q at hle hlt
    have hlow : 2 * q * (2 * q) ≤ k := by
      calc 2 * q * (2 * q) = 4 * (q * q) := by ring
        _ ≤ 4 * (k / 4) := Nat.mul_le_mul_left 4 hle
        _ ≤ k := Nat.mul_div_le k 4
    have hhigh : k < (2 * q + 2) * (2 * q + 2) := by
      calc k < 4 * (k / 4 + 1) := by omega
        _ ≤ 4 * ((q + 1) * (q + 1)) := Nat.mul_le_mul_left 4 hlt
        _ = (2 * q + 2) * (2 * q + 2) := by ring
    split
    · next hroot => exact Nat.eq_sqrt.mpr ⟨hroot, hhigh⟩
    · next hroot => exact Nat.eq_sqrt.mpr ⟨hlow, not_le.mp hroot⟩

theorem ceilSqrt_le_iff {k r : Nat} : ceilSqrt k ≤ r ↔ k ≤ r * r := by
  have hfuel : k < 4 ^ (k.log2 + 1) :=
    Nat.lt_log2_self.trans_le (Nat.pow_le_pow_left (by decide) _)
  rw [ceilSqrt, floorSqrtWithin_eq_sqrt hfuel]
  split
  · next hsquare => rw [← Nat.mul_self_le_mul_self_iff, hsquare]
  · next hsquare =>
    have hne : k ≠ r * r := by
      rintro rfl
      rw [Nat.sqrt_eq] at hsquare
      exact hsquare rfl
    rw [Nat.succ_le_iff, Nat.sqrt_lt]
    exact ⟨le_of_lt, fun hle => lt_of_le_of_ne hle hne⟩

theorem Sweep.block_start_le_iff {routes r : Nat} :
    (start routes).block ≤ r ↔ 16 ≤ r ∧ routes ≤ r * r := by
  rw [start, ← ceilSqrt_le_iff, and_comm]
  exact max_le_iff

end BlockSize

variable {α : Type} [Scalar α] {net : Network n m α} {t : SpanningTree n m α}
  {basic : Arc n m → Bool}

def Bid.consider (net : Network n m α) (t : SpanningTree n m α) (basic : Arc n m → Bool)
    (best : Option (Bid n m α)) (r : Route n m) : Except Fault (Option (Bid n m α)) :=
  if basic r.arc then pure best else improve net t best r

namespace Sweep

def around (n m k : Nat) : Except Fault Nat :=
  if n * m = 0 then .error .outOfRange else .ok (k % (n * m))

/-- The search through the routes of a list. The number of routes that the block has left falls by
one with each route, so that it must not be zero before. -/
def countdown (s : Sweep) (net : Network n m α) (t : SpanningTree n m α) (basic : Arc n m → Bool) :
    Nat → Option (Bid n m α) → List (Route n m) → Except Fault (Option (Route n m × Sweep))
  | _, none, [] => return none
  | _, some bid, [] =>
    return some (bid.route, { s with next := ← around n m (bid.route.index + 1) })
  | 0, _, _ :: _ => throw .outOfRange
  | left + 1, best, r :: rest => do
    let best ← Bid.consider net t basic best r
    match left, best with
    | 0, none => s.countdown net t basic s.block none rest
    | 0, some bid => return some (bid.route, { s with next := ← around n m (r.index + 1) })
    | left + 1, best => s.countdown net t basic (left + 1) best rest

variable {s : Sweep}

theorem countdown_block {left : Nat} {routes : List (Route n m)} (hlen : routes.length + 1 = left)
    (best : Option (Bid n m α)) (r : Route n m) (rest : List (Route n m)) :
    s.countdown net t basic left best (routes ++ r :: rest) =
      ((routes ++ [r]).foldlM (Bid.consider net t basic) best >>= fun best =>
        match best with
        | none => s.countdown net t basic s.block none rest
        | some bid => return some (bid.route, { s with next := ← around n m (r.index + 1) })) := by
  induction routes generalizing left best with
  | nil =>
    obtain rfl := hlen
    simp only [List.nil_append, List.foldlM_cons, List.foldlM_nil, bind_pure]
    rw [countdown]
    congr 1
    funext best
    cases best <;> rfl
  | cons x routes ih =>
    obtain rfl := hlen
    rw [List.cons_append, List.cons_append, List.foldlM_cons, bind_assoc, countdown]
    congr 1
    funext best
    exact ih rfl best

theorem countdown_rest {left : Nat} {routes : List (Route n m)} (hlen : routes.length < left)
    (best : Option (Bid n m α)) :
    s.countdown net t basic left best routes =
      (routes.foldlM (Bid.consider net t basic) best >>= fun best =>
        match best with
        | none => return none
        | some bid =>
          return some (bid.route, { s with next := ← around n m (bid.route.index + 1) })) := by
  induction routes generalizing left best with
  | nil => cases best <;> rfl
  | cons x routes ih =>
    obtain ⟨left, rfl⟩ : ∃ k, left = k + 2 := ⟨left - 2, by simp at hlen; omega⟩
    rw [List.foldlM_cons, bind_assoc, countdown]
    congr 1
    funext best
    exact ih (by simpa using hlen) best

theorem around_eq_ok (h : 0 < n * m) (k : Nat) : around n m k = .ok (k % (n * m)) :=
  if_neg h.ne'

def findThen (s : Sweep) (net : Network n m α) (t : SpanningTree n m α) (basic : Arc n m → Bool)
    (k : Nat) (rest : Except Fault (Option (Route n m × Sweep))) :
    Except Fault (Option (Route n m × Sweep)) :=
  s.findIn net t basic k >>= fun found =>
    match found with
    | some found => return some found
    | none => rest

theorem findSomeM?_cons (s : Sweep) (k : Nat) (ks : List Nat) :
    (k :: ks).findSomeM? (s.findIn net t basic) =
      s.findThen net t basic k (ks.findSomeM? (s.findIn net t basic)) := by
  rw [List.findSomeM?, findThen]
  apply bind_congr
  intro found
  cases found <;> rfl

theorem findThen_full (h : 0 < n * m) (hblock : 0 < s.block) {k left : Nat}
    (hleft : n * m = k * s.block + s.block + left) :
    s.findThen net t basic k
        (s.countdown net t basic s.block none
          (Route.window (s.next + (k + 1) * s.block) left)) =
      s.countdown net t basic s.block none
        (Route.window (s.next + k * s.block) (s.block + left)) := by
  obtain ⟨size, hsize⟩ : ∃ size, s.block = size + 1 := ⟨s.block - 1, by omega⟩
  obtain ⟨r, hr, hwindow⟩ := Route.window_succ h (s.next + k * s.block) size
  rw [← hsize] at hwindow
  have hmin : Nat.min s.block (n * m - k * s.block) = s.block := Nat.min_eq_left (by omega)
  have hgoon : s.next + k * s.block + s.block = s.next + (k + 1) * s.block := by
    rw [Nat.succ_mul, Nat.add_assoc]
  have hnext : (r.index + 1) % (n * m) = (s.next + k * s.block + s.block) % (n * m) := by
    rw [hr, Nat.mod_add_mod, hsize, Nat.add_assoc]
  have hlen : (Route.window (s.next + k * s.block) size : List (Route n m)).length + 1 =
      s.block := by
    rw [Route.length_window h, hsize]
  rw [Route.window_add, hgoon, hwindow, List.append_assoc, List.singleton_append,
    countdown_block hlen, findThen, findIn, bind_assoc]
  simp only [hmin, hwindow, if_true]
  apply bind_congr
  intro best
  cases best with
  | none => rfl
  | some bid => simp [around_eq_ok h, hnext]

theorem findThen_last (h : 0 < n * m) {k left : Nat} (hleft : n * m = k * s.block + left)
    (hshort : left < s.block) :
    s.findThen net t basic k (.ok none) =
      s.countdown net t basic s.block none (Route.window (s.next + k * s.block) left) := by
  have hmin : Nat.min s.block (n * m - k * s.block) = left := by
    rw [hleft, Nat.add_sub_cancel_left]
    exact Nat.min_eq_right hshort.le
  rw [countdown_rest (by rwa [Route.length_window h]), findThen, findIn, bind_assoc]
  simp only [hmin, hshort.ne, if_false]
  apply bind_congr
  intro best
  cases best with
  | none => rfl
  | some bid => simp [around_eq_ok h]

theorem lt_blocks_iff (hblock : 0 < s.block) {k routes : Nat} :
    k < s.blocks routes ↔ k * s.block < routes := by
  rw [blocks, ← Nat.succ_le_iff, Nat.le_div_iff_mul_le hblock, Nat.succ_mul]
  omega

theorem findSomeM?_eq_countdown (h : 0 < n * m) (hblock : 0 < s.block) {count k left : Nat}
    (hleft : n * m = k * s.block + left) (hcount : s.blocks (n * m) = k + count) :
    (List.range' k count).findSomeM? (s.findIn net t basic) =
      s.countdown net t basic s.block none (Route.window (s.next + k * s.block) left) := by
  -- On the blocks that are left, all of them full but perhaps the last one.
  induction count generalizing k left with
  | zero =>
    have hend : ¬ k < s.blocks (n * m) := by omega
    rw [lt_blocks_iff hblock] at hend
    obtain rfl : left = 0 := by omega
    rfl
  | succ count ih =>
    rw [List.range'_succ, findSomeM?_cons]
    by_cases hfull : s.block ≤ left
    · obtain ⟨left, rfl⟩ := Nat.exists_eq_add_of_le hfull
      have hrest : n * m = (k + 1) * s.block + left := by rw [hleft, Nat.succ_mul, Nat.add_assoc]
      rw [ih hrest (by omega)]
      exact findThen_full h hblock (hleft.trans (Nat.add_assoc _ _ _).symm)
    · have hlast : ¬ k + 1 < s.blocks (n * m) := by
        rw [lt_blocks_iff hblock, Nat.succ_mul]
        omega
      obtain rfl : count = 0 := by omega
      exact findThen_last h hleft (not_le.mp hfull)

theorem find_eq_countdown (hblock : 0 < s.block) :
    s.find net t basic =
      s.countdown net t basic s.block none (Route.window s.next (n * m)) := by
  rcases Nat.eq_zero_or_pos (n * m) with hnone | hsome
  · have hblocks : s.blocks (n * m) = 0 := by
      have hnot : ¬ 0 < s.blocks (n * m) := by
        rw [lt_blocks_iff hblock, hnone]
        exact Nat.not_lt_zero _
      exact Nat.eq_zero_of_not_pos hnot
    rw [find, hblocks, hnone]
    rfl
  · have hleft : n * m = 0 * s.block + n * m := by rw [Nat.zero_mul, Nat.zero_add]
    rw [find, List.range_eq_range',
      findSomeM?_eq_countdown hsome hblock hleft (Nat.zero_add _).symm, Nat.zero_mul, Nat.add_zero]

end Sweep

end Pricing

end OptimalTransport
