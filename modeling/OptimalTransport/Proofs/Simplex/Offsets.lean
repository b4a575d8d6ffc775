import OptimalTransport.Proofs.Simplex.Duality
import OptimalTransport.Proofs.Tree.Relabel
/-!
The dual potentials of balanced masses have nothing to do with the penalty. When no artificial arc
carries mass, the leaving rule has turned all of them toward the root, so that all sites share one
offset. What is left of the potentials is made up of costs.
-/

namespace OptimalTransport

variable {n m : Nat} {net : Network n m ℚ}

theorem SpanningTree.WellFormed.abs_relative_le {t : SpanningTree n m ℚ} (h : t.WellFormed net)
    {bound : ℚ} (hbound : 0 ≤ bound) (hb : ∀ i j, |net.cost (.real i j)| ≤ bound) (u : Node n m) :
    |(t.label u).relative| ≤ ((n + m : Nat) : ℚ) * bound := by
  obtain ⟨sites, hs⟩ := h.ranked.rooted u
  have hlen : (t.realSites sites).length ≤ n + m :=
    (List.length_filter_le _ _).trans (hs.length_le h.ranked)
  have hroot : (t.label none).relative = 0 := rfl
  rw [hs.relative_eq h, hroot, zero_add]
  calc |((t.realSites sites).map fun v => net.gain (t.arc v) v).sum|
    _ ≤ ((t.realSites sites).map fun v => |net.gain (t.arc v) v|).sum :=
      Pricing.abs_sum_gain_le net t _
    _ ≤ ((t.realSites sites).length : ℚ) * bound := Pricing.sum_abs_gain_le hb t sites
    _ ≤ ((n + m : Nat) : ℚ) * bound :=
      mul_le_mul_of_nonneg_right (by exact_mod_cast hlen) hbound

namespace Simplex

theorem Basis.Feasible.offset_eq {b : Basis n m ℚ} (h : b.Feasible net)
    (hempty : ∀ v, b.flow.get (.artificial v) = 0) (v : Site n m) :
    (b.tree.label (some v)).offset = -net.penalty := by
  have hwf := h.sound.wellFormed
  obtain ⟨w, hw, hbelow⟩ := SpanningTree.Below.exists_top (hwf.ranked.rooted (some v))
  have harc : b.tree.arc w = .artificial w := hwf.arc_eq_artificial_iff.mpr ⟨hw, rfl⟩
  -- the arc between `w` and the root is empty, so that it leads up like all empty arcs
  have hload : b.load w = 0 := by rw [load, harc, hempty]
  exact hbelow.offset_up hwf hw (h.upward w hload)

theorem sum_weighted_le (hsupply : ∀ i, 0 ≤ net.supply.get i) (hdemand : ∀ j, 0 ≤ net.demand.get j)
    (p q : Site n m → ℚ) (hle : ∀ v, p v ≤ q v) :
    (∑ i, net.supply.get i * p (.source i)) + ∑ j, net.demand.get j * p (.target j) ≤
      (∑ i, net.supply.get i * q (.source i)) + ∑ j, net.demand.get j * q (.target j) := by
  refine add_le_add (Finset.sum_le_sum fun i _ => ?_) (Finset.sum_le_sum fun j _ => ?_)
  · exact mul_le_mul_of_nonneg_left (hle _) (hsupply i)
  · exact mul_le_mul_of_nonneg_left (hle _) (hdemand j)

namespace Duals.Levelled

variable {t : SpanningTree n m ℚ} {d : Duals n m ℚ} {level low high : ℚ}

theorem level_mem (h : d.Levelled net t level)
    (hpos : 0 < (∑ i, net.supply.get i) + ∑ j, net.demand.get j)
    (hsupply : ∀ i, 0 ≤ net.supply.get i) (hdemand : ∀ j, 0 ≤ net.demand.get j)
    (hp : ∀ v, t.potential (some v) ∈ Set.Icc low high) : level ∈ Set.Icc low high := by
  have hconst : ∀ c : ℚ, c * ((∑ i, net.supply.get i) + ∑ j, net.demand.get j) =
      (∑ i, net.supply.get i * c) + ∑ j, net.demand.get j * c := by
    intro c
    rw [← Finset.sum_mul, ← Finset.sum_mul]
    ring
  constructor
  · refine le_of_mul_le_mul_right ?_ hpos
    rw [h.mean hpos, hconst]
    exact sum_weighted_le hsupply hdemand (fun _ => low) (fun v => t.potential (some v))
      fun v => (hp v).1
  · refine le_of_mul_le_mul_right ?_ hpos
    rw [h.mean hpos, hconst]
    exact sum_weighted_le hsupply hdemand (fun v => t.potential (some v)) (fun _ => high)
      fun v => (hp v).2

theorem abs_get_le {offset radius : ℚ} (h : d.Levelled net t level)
    (hsupply : ∀ i, 0 ≤ net.supply.get i) (hdemand : ∀ j, 0 ≤ net.demand.get j)
    (hoffset : ∀ v, (t.label (some v)).offset = offset)
    (hradius : ∀ v, |(t.label (some v)).relative| ≤ radius) :
    (∀ i, |d.source.get i| ≤ 2 * radius) ∧ ∀ j, |d.target.get j| ≤ 2 * radius := by
  have hp : ∀ v, t.potential (some v) ∈ Set.Icc (offset - radius) (offset + radius) := by
    intro v
    obtain ⟨hlow, hhigh⟩ := abs_le.mp (hradius v)
    rw [SpanningTree.potential, Label.potential, hoffset]
    constructor
    · linarith
    · linarith
  have hlevel : ∀ v : Site n m, level ∈ Set.Icc (offset - radius) (offset + radius) := by
    intro v
    by_cases hpos : 0 < (∑ i, net.supply.get i) + ∑ j, net.demand.get j
    · exact h.level_mem hpos hsupply hdemand hp
    · have hsites : 0 < n + m := Nat.zero_lt_of_lt v.isLt
      rw [h.base hpos, baseOffset, dif_pos hsites, hoffset]
      have hnonneg := (abs_nonneg _).trans (hradius v)
      constructor
      · linarith
      · linarith
  have hdist : ∀ v, |level - t.potential (some v)| ≤ 2 * radius := by
    intro v
    have := abs_sub_le_of_le_of_le (hlevel v).1 (hlevel v).2 (hp v).1 (hp v).2
    linarith
  refine ⟨fun i => ?_, fun j => ?_⟩
  · rw [h.source]
    exact hdist _
  · rw [h.target, abs_sub_comm]
    exact hdist _

end Duals.Levelled

variable {costs : Matrix ℚ} {supply demand : Array ℚ} {budget : Nat} {o : Outcome ℚ}

theorem optimal_offsets (hn : Nonnegative costs supply demand)
    (heq : supply.toList.sum = demand.toList.sum)
    (hsolve : (⟨budget⟩ : Config).transport costs supply demand = .ok o)
    (hopt : o.status = .optimal) :
    ∃ net b, Network.build costs supply demand = .ok net ∧
      (Basis.start net).run net budget = .ok (.optimal, b) ∧
      (∀ v, (b.tree.label (some v)).offset = -net.penalty) ∧
      ∃ (u : Fin supply.size → ℚ) (v : Fin demand.size → ℚ),
        o.sourcePotentials = List.ofFn u ∧ o.targetPotentials = List.ofFn v ∧
        (∀ i, |u i| ≤ 2 * ((supply.size + demand.size : Nat) : ℚ) * costs.maxFrom 0) ∧
        ∀ j, |v j| ≤ 2 * ((supply.size + demand.size : Nat) : ℚ) * costs.maxFrom 0 := by
  obtain ⟨net, b, hnet, himb, ha, -⟩ := optimal_answer hn.full hsolve hopt
  rw [Config.transport, hnet.built, Fault.ok_bind] at hsolve
  have hout := ha.outcome_eq hopt himb hsolve
  obtain ⟨level, hd⟩ := duals_levelled net b.tree
  have hoffset := ha.feasible.offset_eq (ha.artificial_eq_zero hopt hn hnet heq)
  have hmax : 0 ≤ costs.maxFrom 0 := Matrix.le_maxFrom (.inl rfl)
  have hradius := ha.feasible.sound.wellFormed.abs_relative_le hmax (hnet.outweighed hn).cost_le
  have hsupply : ∀ i, 0 ≤ net.supply.get i := fun i =>
    net.excess_source i ▸ (hnet.oriented hn).source i
  have hdemand : ∀ j, 0 ≤ net.demand.get j := fun j =>
    neg_nonpos.mp (net.excess_target j ▸ (hnet.oriented hn).target j)
  obtain ⟨hsource, htarget⟩ := hd.abs_get_le hsupply hdemand hoffset fun v => hradius (some v)
  rw [← mul_assoc] at hsource htarget
  refine ⟨net, b, hnet.built, hopt ▸ ha.run, hoffset, _, _, ?_, ?_, hsource, htarget⟩
  · rw [hout]
    exact Family.toList_eq_ofFn _
  · rw [hout]
    exact Family.toList_eq_ofFn _

theorem optimal_offsets_two_by_three :
    ∃ o : Outcome ℚ,
      (⟨9⟩ : Config).transport ⟨2, 3, #[3, 1, 4, 1, 5, 9]⟩ #[5, 0] #[2, 0, 3] = .ok o ∧
      o.status = .optimal ∧ o.sourcePotentials.length = 2 ∧ o.targetPotentials.length = 3 ∧
      (∀ x ∈ o.sourcePotentials ++ o.targetPotentials, |x| ≤ 90) ∧
      ∃ net b, Network.build (⟨2, 3, #[3, 1, 4, 1, 5, 9]⟩ : Matrix ℚ) #[5, 0] #[2, 0, 3] = .ok net ∧
        (Basis.start net).run net 9 = .ok (.optimal, b) ∧
        ∀ v, (b.tree.label (some v)).offset = -60 := by
  have hn : Nonnegative ⟨2, 3, #[3, 1, 4, 1, 5, 9]⟩ #[5, 0] #[2, 0, 3] :=
    ⟨rfl, rfl, by decide +kernel, by decide +kernel, by decide +kernel⟩
  have hrun : ((⟨9⟩ : Config).transport (⟨2, 3, #[3, 1, 4, 1, 5, 9]⟩ : Matrix ℚ) #[5, 0]
      #[2, 0, 3]).toOption.map Outcome.status = some .optimal := by
    decide +kernel
  obtain ⟨o, hsolve, hopt⟩ := Fault.exists_of_map hrun
  obtain ⟨net, b, hbuilt, hlast, hoffset, u, v, hu, hv, hsource, htarget⟩ :=
    optimal_offsets hn (by decide +kernel) hsolve hopt
  have hscale : 2 * ((#[(5 : ℚ), 0].size + #[(2 : ℚ), 0, 3].size : Nat) : ℚ) *
      Matrix.maxFrom 0 ⟨2, 3, #[3, 1, 4, 1, 5, 9]⟩ = 90 := by
    decide +kernel
  have hpenalty : net.penalty = 60 := by
    cases hbuilt
    decide +kernel
  rw [hscale] at hsource htarget
  refine ⟨o, hsolve, hopt, ?_, ?_, ?_, net, b, hbuilt, hlast, hpenalty ▸ hoffset⟩
  · rw [hu, List.length_ofFn]
    rfl
  · rw [hv, List.length_ofFn]
    rfl
  · intro x hx
    rw [hu, hv] at hx
    rcases List.mem_append.mp hx with hx | hx
    · obtain ⟨i, rfl⟩ := List.mem_ofFn.mp hx
      exact hsource i
    · obtain ⟨j, rfl⟩ := List.mem_ofFn.mp hx
      exact htarget j

end Simplex

end OptimalTransport
