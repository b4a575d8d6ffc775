import OptimalTransport.Proofs.Simplex.Status
/-!
Balanced instances whose costs may be negative. The penalty outweighs the largest cost only. The
artificial arc of a target without demand leads to the root, so that mass may pass through such a
target and go on by two artificial arcs. This pays off when the route to the target is cheaper than
another one by twice the penalty, and is the only way in which mass is stranded.
-/

namespace OptimalTransport

variable {n m : Nat} {net : Network n m ℚ}

namespace Network

theorem direction_artificial_eq_up_iff {v : Site n m} :
    net.direction (.artificial v) v = .up ↔ 0 ≤ net.excess v := by
  simp [direction, tail]

end Network

namespace SpanningTree

variable {t : SpanningTree n m ℚ} {v w : Site n m} {u : Node n m} {front back : List (Site n m)}

theorem Climb.realSites_eq (hs : t.Climb (some v) u front) (h : t.WellFormed net) :
    t.realSites front = front := by
  induction hs with
  | here => rfl
  | @up x sites away rest ih =>
    have hp : t.parent x ≠ none := by
      intro hp
      rw [hp] at rest
      cases rest
    have hreal : (!(t.arc x).isArtificial) = true := by
      simpa using mt (h.joined x).artificial_iff.mp hp
    exact (List.filter_cons_of_pos (by exact hreal)).trans (congrArg _ ih)

theorem closes_of_tops (h : t.WellFormed net) {a : Arc n m} (hpv : t.parent v = none)
    (hpw : t.parent w = none) (hvw : v ≠ w) (hi : t.Climb (some v) (net.tail a) front)
    (hj : t.Climb (some w) (net.head a) back) :
    (⟨front ++ [v], back ++ [w]⟩ : Cycle n m).Closes net t a none where
  tailClimb := hi.append_top hpv
  headClimb := hj.append_top hpw
  disjoint := by
    have hbelow : ∀ {y u sites x}, t.Climb (some y) u sites → x ∈ sites ++ [y] →
        t.Below (some x) (some y) := by
      intro y u sites x hs hx
      rcases List.mem_append.mp hx with hx | hx
      · exact hs.below_of_mem hx
      · exact List.mem_singleton.mp hx ▸ .refl _
    intro x hx hx'
    exact hvw (h.ranked.eq_of_siblings (hpv.trans hpw.symm) (hbelow hi hx) (hbelow hj hx'))

end SpanningTree

/-- A source that sends, a target without demand and one with some, such that the way from the
source through the first one and on by two artificial arcs costs no more than the route to the
second, but for rounding. -/
structure Detour (costs : Matrix ℚ) (supply demand : Array ℚ) (i : Fin supply.size)
    (j k : Fin demand.size) : Prop where
  sends : 0 < (Family.ofArray supply).get i
  idle : (Family.ofArray demand).get j = 0
  takes : 0 < (Family.ofArray demand).get k
  pays : costs.entry i j +
      2 * ((costs.maxFrom 0 + 1) * ((supply.size + demand.size + 1 : Nat) : ℚ)) ≤
    costs.entry i k + 1e-12 * (|costs.entry i k| + |costs.entry i j|)

instance (costs : Matrix ℚ) (supply demand : Array ℚ) (i : Fin supply.size)
    (j k : Fin demand.size) : Decidable (Detour costs supply demand i j k) :=
  decidable_of_iff (0 < (Family.ofArray supply).get i ∧ (Family.ofArray demand).get j = 0 ∧
      0 < (Family.ofArray demand).get k ∧ _)
    ⟨fun ⟨hs, hi, ht, hp⟩ => ⟨hs, hi, ht, hp⟩, fun ⟨hs, hi, ht, hp⟩ => ⟨hs, hi, ht, hp⟩⟩

namespace Simplex.Basis

variable {b : Basis n m ℚ} {v : Site n m} {i : Fin n} {k : Fin m} {front : List (Site n m)}

theorem Stranded.gain {d : Direction} (hv : b.Stranded net d v) :
    net.gain (b.tree.arc v) v = -(d.sign * net.penalty) := by
  cases d with
  | up =>
    rw [Network.gain_up hv.direction, hv.arc, Direction.sign, one_mul]
    rfl
  | down =>
    rw [Network.gain_down hv.direction, hv.arc, Direction.sign, neg_one_mul, neg_neg]
    rfl

theorem Stranded.realSites_eq {d : Direction} (hv : b.Stranded net d v) :
    b.tree.realSites [v] = [] := by
  simp [SpanningTree.realSites, hv.arc, Arc.isArtificial]

theorem Stranded.excess_nonneg (hv : b.Stranded net .up v) : 0 ≤ net.excess v :=
  Network.direction_artificial_eq_up_iff.mp (hv.arc ▸ hv.direction)

theorem Stranded.excess_neg (hv : b.Stranded net .down v) : net.excess v < 0 := by
  apply not_le.mp
  intro hnonneg
  have hup := Network.direction_artificial_eq_up_iff.mpr hnonneg
  rw [← hv.arc] at hup
  exact absurd (hup.symm.trans hv.direction) (by simp)

theorem Sound.penalty_le (h : b.Sound net) (hcheap : ∀ r, ¬ b.Cheap net r)
    (hv : b.Stranded net .up v) (hw : b.Stranded net .down (.target k))
    (hi : b.tree.Climb (some v) (some (.source i)) front) :
    2 * net.penalty ≤ net.cost (.real i k) + (front.map fun v => net.gain (b.tree.arc v) v).sum +
      Pricing.epsilon *
        (|net.cost (.real i k)| + (front.map fun v => |net.gain (b.tree.arc v) v|).sum) := by
  have hwf := h.wellFormed
  have hne := hv.ne hw
  have hcl := SpanningTree.closes_of_tops (a := .real i k) hwf hv.parent hw.parent hne hi .here
  have hnonbasic := h.nonbasic_of_apart hv.parent hw.parent hne ⟨_, hi⟩ (.refl _)
  have hle := not_lt.mp fun hlt => hcheap (i, k)
    ((h.cheap_iff (r := (i, k)) (hcl.cycle_eq hwf.ranked)).mpr ⟨hnonbasic, hlt⟩)
  have hsum := Pricing.reducedCost_eq_sum hwf hcl
  have hreal : b.tree.realSites ((front ++ [v]) ++ ([] ++ [.target k])) = front := by
    have hfront := hi.realSites_eq hwf
    have hv' := hv.realSites_eq
    have hw' := hw.realSites_eq
    simp only [SpanningTree.realSites, List.filter_append, List.nil_append] at hfront hv' hw' ⊢
    rw [hfront, hv', hw', List.append_nil, List.append_nil]
  change -(_ * (Pricing.cycleCost net b.tree (.real i k) _).size) ≤
    Pricing.reducedCost net b.tree (.real i k) at hle
  rw [hsum, Pricing.cycleCost_eq, hreal] at hle
  simp only [List.map_append, List.sum_append, List.map_cons, List.map_nil, List.sum_cons,
    List.sum_nil, List.nil_append, hv.gain, hw.gain, Direction.sign] at hle
  linarith

theorem Feasible.exists_sender {j : Fin m} (h : b.Feasible net)
    (hj : b.Stranded net .up (.target j)) (hzero : net.excess (.target j) = 0) :
    ∃ i, 0 < b.flow.get (.real i j) ∧ b.tree.arc (.source i) = .real i j ∧
      b.tree.parent (.source i) = some (.target j) := by
  have hload := hj.load_pos
  have hcol := h.balanced.col j
  rw [load, hj.arc] at hload
  rw [hzero, Network.bias, Network.direction_artificial_eq_up_iff.mpr hzero.ge, Direction.sign,
    mul_one] at hcol
  obtain ⟨i, -, hi⟩ : ∃ i ∈ Finset.univ, 0 < b.flow.get (.real i j) :=
    Finset.exists_lt_of_sum_lt (f := fun _ => 0) (by rw [Finset.sum_const_zero]; linarith)
  obtain ⟨u, hu⟩ := (h.sound.basic_iff (.real i j)).mp <| by
    cases hb : b.basic.get (.real i j) with
    | true => rfl
    | false => exact absurd (h.idle _ hb) hi.ne'
  rcases (hu ▸ h.sound.wellFormed.joined u).ends (net.joins_real i j) with ⟨rfl, hp⟩ | ⟨hp, hroot⟩
  · exact ⟨i, hi, hu, hp⟩
  · obtain rfl := Option.some.inj hroot
    rw [hj.parent] at hp
    cases hp

theorem Feasible.excess_pos {i : Fin n} {j : Fin m} (h : b.Feasible net) (ho : net.Oriented)
    (hflow : 0 < b.flow.get (.real i j)) : 0 < net.excess (.source i) := by
  have hrow := h.balanced.row i
  rw [Network.bias, Network.direction_artificial_eq_up_iff.mpr (ho.source i), Direction.sign,
    mul_one] at hrow
  have hle := Finset.single_le_sum (fun j _ => h.nonneg (.real i j)) (Finset.mem_univ j)
  have := h.nonneg (.artificial (.source i))
  linarith

end Simplex.Basis

section Detours

variable {costs : Matrix ℚ} {supply demand : Array ℚ} {net : Network supply.size demand.size ℚ}

theorem Network.Of.cost_lt_penalty (h : Of costs supply demand net) (i : Fin supply.size)
    (j : Fin demand.size) :
    net.cost (.real i j) + Pricing.epsilon * |net.cost (.real i j)| < 2 * net.penalty := by
  have hentry := costs.entry_le i j
  have hmax : 0 ≤ costs.maxFrom 0 := Matrix.le_maxFrom (.inl rfl)
  have hsize : (1 : ℚ) ≤ ((supply.size + demand.size + 1 : Nat) : ℚ) := by
    exact_mod_cast Nat.le_add_left _ _
  have hpenalty : costs.maxFrom 0 + 1 ≤ net.penalty := by
    rw [h.penalty_eq]
    exact le_mul_of_one_le_right (by linarith) hsize
  rw [h.cost_real, Pricing.epsilon]
  rcases abs_cases (costs.entry i j) with ⟨habs, -⟩ | ⟨habs, -⟩
  · rw [habs]
    linarith
  · rw [habs]
    linarith

theorem Simplex.Basis.Feasible.exists_detour {b : Basis supply.size demand.size ℚ}
    {v w : Site supply.size demand.size} (h : b.Feasible net)
    (hnet : Network.Of costs supply demand net) (ho : net.Oriented)
    (hcheap : ∀ r, ¬ b.Cheap net r) (hv : b.Stranded net .up v) (hw : b.Stranded net .down w) :
    ∃ i j k, Detour costs supply demand i j k := by
  have htakes := hw.excess_neg
  obtain ⟨k, rfl⟩ := ho.exists_target htakes
  rw [hnet.excess_target_eq, neg_neg_iff_pos] at htakes
  rcases v.eq_source_or_target with ⟨i, rfl⟩ | ⟨j, rfl⟩
  -- A source would send by the route itself, which costs less than two artificial arcs.
  · have hpays := h.sound.penalty_le hcheap hv hw .here
    rw [List.map_nil, List.map_nil, List.sum_nil, add_zero, add_zero] at hpays
    exact absurd (hnet.cost_lt_penalty i k) (not_lt.mpr hpays)
  -- A target that passes mass on has no demand, and gets the mass from a source below it.
  · have hidle := (ho.target j).antisymm hv.excess_nonneg
    obtain ⟨i, hflow, harc, hp⟩ := h.exists_sender hv hidle
    have hsends := h.excess_pos ho hflow
    have haway : some (Site.source i) ≠ some (Site.target j) := fun he =>
      Network.source_ne_target i j (Option.some.inj he)
    have hclimb : b.tree.Climb (some (.target j)) (some (.source i)) [.source i] :=
      .up haway (hp ▸ .here)
    have hpays := h.sound.penalty_le hcheap hv hw hclimb
    have hup : net.direction (.real i j) (.source i) = .up :=
      Network.direction_eq_up_iff.mpr rfl
    simp only [List.map_cons, List.map_nil, List.sum_cons, List.sum_nil, add_zero, harc,
      Pricing.abs_gain, Network.gain_up hup, hnet.cost_real, hnet.penalty_eq, Pricing.epsilon]
      at hpays
    rw [hnet.excess_target_eq, neg_eq_zero] at hidle
    rw [hnet.excess_source_eq] at hsends
    exact ⟨i, j, k, hsends, hidle, htakes, by linarith⟩

end Detours

namespace Simplex

variable {costs : Matrix ℚ} {supply demand : Array ℚ}

theorem transport_feasible (hshape : costs.shape = (supply.size, demand.size)) (hfull : costs.Full)
    (hsupply : ∀ x ∈ supply, 0 ≤ x) (hdemand : ∀ x ∈ demand, 0 ≤ x)
    (heq : supply.toList.sum = demand.toList.sum)
    (hdetour : ∀ i j k, ¬ Detour costs supply demand i j k) (budget : Nat) :
    ∃ o, (⟨budget⟩ : Config).transport costs supply demand = .ok o ∧
      (o.status = .optimal ∨ o.status = .exhausted) ∧
      (2 ^ (supply.size * demand.size + (supply.size + demand.size)) ≤ budget →
        o.status = .optimal) ∧
      (o.status = .optimal →
        (∀ i : Fin supply.size, Shipment.sent o.shipments i = (Family.ofArray supply).get i) ∧
        (∀ j : Fin demand.size,
          Shipment.received o.shipments j = (Family.ofArray demand).get j) ∧
        ∃ net b, Network.build costs supply demand = .ok net ∧
          (Basis.start net).run net budget = .ok (.optimal, b) ∧
          ∀ v, b.flow.get (.artificial v) = 0) := by
  obtain ⟨net, o, b, hnet, hsolve, ha⟩ := transport_answers hshape hfull heq budget
  have ho := hnet.oriented_of hsupply hdemand
  have hempty : (∀ r, ¬ b.Cheap net r) → ∀ v, b.flow.get (.artificial v) = 0 := by
    intro hcheap v
    have hle := ha.feasible.artificial_le (fun v w hv hw => by
      obtain ⟨i, j, k, hd⟩ := ha.feasible.exists_detour hnet ho hcheap hv hw
      exact hdetour i j k hd) v
    rw [hnet.imbalance_eq_zero heq, abs_zero] at hle
    exact hle.antisymm (ha.feasible.nonneg _)
  have hstatus := ha.status_cases ho.source hnet.priced fun hcheap v =>
    (hempty hcheap v).le.trans feasibility_pos.le
  refine ⟨o, hsolve, hstatus, fun hbudget => ?_, fun hopt => ?_⟩
  · exact hstatus.resolve_right (ha.not_exhausted hnet.priced hbudget)
  · have hzero := hempty (ha.ends.settled_of (.inl hopt)).2
    exact ⟨ha.sent_eq_of hopt hnet hzero, ha.received_eq_of hopt hnet hzero, net, b, hnet.built,
      hopt ▸ ha.run, hzero⟩

theorem transport_feasible_idle :
    ∃ o, (⟨2 ^ 8⟩ : Config).transport ⟨2, 2, #[-10, -9, 3, -5]⟩ #[1, 2] #[3, 0] = .ok o ∧
      o.status = .optimal ∧ Shipment.sent o.shipments 1 = 2 ∧
      Shipment.received o.shipments 0 = 3 := by
  obtain ⟨o, hsolve, -, hstops, hsums⟩ := @transport_feasible ⟨2, 2, #[-10, -9, 3, -5]⟩ #[1, 2]
    #[3, 0] rfl rfl (by decide +kernel) (by decide +kernel) (by decide +kernel) (by decide +kernel)
    (2 ^ 8)
  have hopt := hstops (by decide)
  obtain ⟨hsent, hreceived, -⟩ := hsums hopt
  exact ⟨o, hsolve, hopt, hsent 1, hreceived 0⟩

/-- A route to a target without demand that costs ten less than the other one, where the penalty is
four. After the first pivot all mass goes by this detour, which no other route improves. -/
theorem idle_target_strands :
    ¬ ∀ (costs : Matrix ℚ) (supply demand : Array ℚ) (budget : Nat) (o : Outcome ℚ),
      0 < supply.size → 0 < demand.size → costs.shape = (supply.size, demand.size) → costs.Full →
      (∀ x ∈ supply, 0 ≤ x) → (∀ x ∈ demand, 0 ≤ x) →
      supply.toList.sum = demand.toList.sum →
      (⟨budget⟩ : Config).transport costs supply demand = .ok o → o.status ≠ .infeasible := by
  intro h
  have hstatus : ((⟨16777216⟩ : Config).transport (⟨1, 2, #[-10, 0]⟩ : Matrix ℚ) #[1]
      #[0, 1]).toOption.map Outcome.status = some .infeasible := by
    decide +kernel
  obtain ⟨o, hsolve, hinf⟩ := Fault.exists_of_map hstatus
  exact h ⟨1, 2, #[-10, 0]⟩ #[1] #[0, 1] 16777216 o (by decide) (by decide) rfl rfl
    (by decide +kernel) (by decide +kernel) (by decide +kernel) hsolve hinf

end Simplex

end OptimalTransport
