import OptimalTransport.Proofs.Solver

namespace OptimalTransport

namespace Histogram

variable {source target : Histogram ℚ}

theorem Valid.abs_total_sub_le (hs : source.Valid) (ht : target.Valid) :
    |source.weights.toList.sum - target.weights.toList.sum| ≤ 2e-6 := by
  have hsource := hs.mass
  have htarget := ht.mass
  rw [abs_sub_comm] at htarget
  calc |source.weights.toList.sum - target.weights.toList.sum|
    _ ≤ |source.weights.toList.sum - 1| + |1 - target.weights.toList.sum| := abs_sub_le _ _ _
    _ ≤ 1e-6 + 1e-6 := add_le_add hsource htarget
    _ = 2e-6 := by norm_num

section Rescale

variable (h : target.Valid) {x : ℚ} (hx : x ∈ target.weights) (mass : ℚ)
include h hx

theorem Valid.weight_le : x ≤ target.weights.toList.sum := by
  refine List.single_le_sum (fun y hy => ?_) x (Array.mem_toList_iff.mpr hx)
  exact h.nonneg y (Array.mem_toList_iff.mp hy)

theorem Valid.abs_rescale_sub :
    |x * (mass / target.weights.toList.sum) - x| =
      x * |mass - target.weights.toList.sum| / target.weights.toList.sum := by
  have htotal := h.mass_pos
  have hdiff : x * (mass / target.weights.toList.sum) - x =
      x * (mass - target.weights.toList.sum) / target.weights.toList.sum := by
    field_simp
  rw [hdiff, abs_div, abs_mul, abs_of_nonneg (h.nonneg x hx), abs_of_pos htotal]

theorem Valid.abs_rescale_sub_le :
    |x * (mass / target.weights.toList.sum) - x| ≤ |mass - target.weights.toList.sum| := by
  rw [h.abs_rescale_sub hx, div_le_iff₀ h.mass_pos, mul_comm]
  exact mul_le_mul_of_nonneg_left (h.weight_le hx) (abs_nonneg _)

end Rescale

end Histogram

theorem Problem.valid_of_prepare [Powers ℚ] {exponent : ℚ} {metric : Metric}
    {source target : Histogram ℚ} {costs : Option (Matrix ℚ)} {problem : Problem ℚ}
    (hsource : source.Counted) (htarget : target.Counted)
    (h : prepare exponent metric source target costs = .ok problem) :
    source.Valid ∧ target.Valid := by
  have hchecks := (prepare_eq_ok_iff.mp h).1
  exact ⟨Histogram.valid_of_validate hsource hchecks.source,
    Histogram.valid_of_validate htarget hchecks.target⟩

namespace Solver

variable [Powers ℚ] {s : Solver ℚ} {source target : Histogram ℚ} {costs : Option (Matrix ℚ)}
  {sol : Solution ℚ}

/-- Rows sum up to the weights of the source, and everything to one within `1e-6`. A column is off
its weight by what the two totals differ, in proportion to the weight. That is within `2e-6`, and
within `1e-6` under one condition exactly. -/
theorem fit_marginals (hpow : ∀ x p : ℚ, 0 ≤ x → 0 < p → 0 ≤ Powers.pow x p)
    (hcosts : ∀ c ∈ costs, c.Full) (hfit : s.fit source target costs = .ok sol)
    (hsuccess : sol.success = true) :
    sol.plan.matrix.rowSums = .ok source.weights.toList ∧
    |sol.plan.matrix.sum - 1| ≤ 1e-6 ∧
    ∃ column : Fin target.weights.size → ℚ,
      sol.plan.matrix.colSums = .ok (List.ofFn column) ∧
      (∀ j, |column j - target.weights[j]| ≤ 2e-6) ∧
      (∀ j, |column j - target.weights[j]| ≤ 1e-6 ↔
        target.weights[j] * |source.weights.toList.sum - target.weights.toList.sum| ≤
          1e-6 * target.weights.toList.sum) ∧
      (|source.weights.toList.sum - target.weights.toList.sum| ≤ 1e-6 →
        ∀ j, |column j - target.weights[j]| ≤ 1e-6) := by
  obtain ⟨-, -, hsolves⟩ := solves_of_fit hpow hcosts hfit hsuccess
  obtain ⟨hsource, htarget⟩ := counted_of_fit hfit
  obtain ⟨problem, hprepare, -⟩ := Fault.bind_eq_ok.mp hfit
  obtain ⟨hvs, hvt⟩ := Problem.valid_of_prepare hsource htarget hprepare
  have hmem : ∀ j : Fin target.weights.size, target.weights[j] ∈ target.weights :=
    fun j => Array.getElem_mem j.isLt
  have hle := fun j => hvt.abs_rescale_sub_le (hmem j) source.weights.toList.sum
  refine ⟨hsolves.rowSums, ?_, fun j => target.weights[j] *
    (source.weights.toList.sum / target.weights.toList.sum), ?_, fun j => ?_, fun j => ?_,
    fun hnear j => (hle j).trans hnear⟩
  · rw [hsolves.sum]
    exact hvs.mass
  · rw [hsolves.colSums]
    exact congrArg _ (List.ext_getElem (by simp) (by simp))
  · exact (hle j).trans (hvs.abs_total_sub_le hvt)
  · rw [hvt.abs_rescale_sub (hmem j), div_le_iff₀ hvt.mass_pos]

omit [Powers ℚ] in
theorem fit_marginals_two_columns :
    letI := wholePowers
    ∃ (sol : Solution ℚ) (column : Fin 2 → ℚ),
      (⟨2, .euclidean, ⟨9⟩⟩ : Solver ℚ).fit ⟨.column #[0], #[1.0000009]⟩
        ⟨.column #[0, 1], #[0.1, 0.8999991]⟩ none = .ok sol ∧
      sol.success = true ∧ |sol.plan.matrix.sum - 1| ≤ 1e-6 ∧
      sol.plan.matrix.colSums = .ok (List.ofFn column) ∧ |column 0 - 0.1| ≤ 1e-6 ∧
      ¬ |column 1 - 0.8999991| ≤ 1e-6 ∧ |column 1 - 0.8999991| ≤ 2e-6 := by
  let := wholePowers
  have hpow : ∀ x p : ℚ, 0 ≤ x → 0 < p → 0 ≤ Powers.pow x p := fun x p hx _ => pow_nonneg hx _
  have hrun : ((⟨2, .euclidean, ⟨9⟩⟩ : Solver ℚ).fit ⟨.column #[0], #[1.0000009]⟩
      ⟨.column #[0, 1], #[0.1, 0.8999991]⟩ none).toOption.map Solution.success = some true := by
    decide +kernel
  obtain ⟨sol, hfit, hsuccess⟩ := Fault.exists_of_map hrun
  obtain ⟨-, hsum, column, hcolumns, hnear, hiff, -⟩ :=
    fit_marginals hpow (by simp) hfit hsuccess
  refine ⟨sol, column, hfit, hsuccess, hsum, hcolumns, ?_, ?_, hnear 1⟩
  · exact (hiff 0).mpr (by decide +kernel)
  · exact mt (hiff 1).mp (by decide +kernel)

omit [Powers ℚ] in
theorem heavy_source_drifts :
    letI := wholePowers
    ∃ sol : Solution ℚ,
      (⟨2, .euclidean, ⟨9⟩⟩ : Solver ℚ).fit ⟨.column #[0], #[1.0000009]⟩
        ⟨.column #[0], #[0.9999991]⟩ none = .ok sol ∧
      sol.success = true ∧ sol.plan.matrix.colSums = .ok [1.0000009] ∧
      (1e-6 : ℚ) < |1.0000009 - 0.9999991| := by
  let := wholePowers
  have hrun : ((⟨2, .euclidean, ⟨9⟩⟩ : Solver ℚ).fit ⟨.column #[0], #[1.0000009]⟩
      ⟨.column #[0], #[0.9999991]⟩ none).toOption.map
        (fun sol => (sol.success, sol.plan.matrix.colSums.toOption)) =
          some (true, some [1.0000009]) := by
    decide +kernel
  obtain ⟨sol, hfit, hboth⟩ := Fault.exists_of_map hrun
  obtain ⟨hsuccess, hcolumns⟩ := Prod.mk.inj hboth
  refine ⟨sol, hfit, hsuccess, ?_, by norm_num⟩
  cases hsums : sol.plan.matrix.colSums with
  | error f =>
    rw [hsums] at hcolumns
    cases hcolumns
  | ok columns =>
    rw [hsums] at hcolumns
    exact congrArg _ (Option.some.inj hcolumns)

end Solver

end OptimalTransport
