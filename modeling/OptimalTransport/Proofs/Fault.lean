import OptimalTransport.Failure

namespace OptimalTransport.Fault

variable {ε β γ : Type}

@[simp]
theorem pure_eq_ok (b : β) : (pure b : Except ε β) = .ok b :=
  rfl

@[simp]
theorem ok_bind (b : β) (f : β → Except ε γ) : (Except.ok b >>= f) = f b :=
  rfl

theorem bind_eq_ok {x : Except ε β} {f : β → Except ε γ} {c : γ} :
    (x >>= f) = .ok c ↔ ∃ b, x = .ok b ∧ f b = .ok c := by
  cases x with
  | error e => exact ⟨fun h => (nomatch h), fun ⟨_, h, _⟩ => (nomatch h)⟩
  | ok b => simp

theorem mapError_eq_ok {ε' : Type} {x : Except ε β} {f : ε → ε'} {b : β} :
    x.mapError f = .ok b ↔ x = .ok b := by
  cases x with
  | error e => exact ⟨fun h => (nomatch h), fun h => (nomatch h)⟩
  | ok b' => exact ⟨fun h => congrArg _ (Except.ok.inj h), fun h => congrArg _ (Except.ok.inj h)⟩

theorem bind_eq_error {x : Except ε β} {f : β → Except ε γ} {e : ε} :
    (x >>= f) = .error e ↔ x = .error e ∨ ∃ b, x = .ok b ∧ f b = .error e := by
  cases x with
  | error e' =>
    change Except.error e' = _ ↔ _
    simp
  | ok b => simp

theorem mapError_eq_error {ε' : Type} {x : Except ε β} {f : ε → ε'} {e' : ε'} :
    x.mapError f = .error e' ↔ ∃ e, x = .error e ∧ f e = e' := by
  cases x with
  | error e =>
    constructor
    · intro h
      exact ⟨e, rfl, Except.error.inj h⟩
    · rintro ⟨_, ⟨⟩, rfl⟩
      rfl
  | ok b => exact ⟨fun h => (nomatch h), fun ⟨_, h, _⟩ => (nomatch h)⟩

theorem exists_of_map {x : Except ε β} {f : β → γ} {c : γ} (h : x.toOption.map f = some c) :
    ∃ b, x = .ok b ∧ f b = c := by
  cases x with
  | error e => cases h
  | ok b => exact ⟨b, rfl, Option.some.inj h⟩

theorem exists_of_join_map {x : Except ε (Option β)} {f : β → γ} {c : γ}
    (h : x.toOption.join.map f = some c) : ∃ b, x = .ok (some b) ∧ f b = c := by
  rcases x with e | ⟨_ | b⟩
  · cases h
  · cases h
  · exact ⟨b, rfl, Option.some.inj h⟩

theorem mapM_ok {xs : List β} {f : β → Except ε γ} {g : β → γ} (h : ∀ b ∈ xs, f b = .ok (g b)) :
    xs.mapM f = .ok (xs.map g) := by
  induction xs with
  | nil => rfl
  | cons b xs ih =>
    rw [List.mapM_cons, h b List.mem_cons_self, ih fun c hc => h c (List.mem_cons_of_mem _ hc)]
    rfl

theorem foldlM_ok {σ : Type} {P : σ → Prop} {xs : List β} {f : σ → β → Except ε σ}
    (h : ∀ s, P s → ∀ b ∈ xs, ∃ s', f s b = .ok s' ∧ P s') {s : σ} (hs : P s) :
    ∃ s', xs.foldlM f s = .ok s' ∧ P s' := by
  induction xs generalizing s with
  | nil => exact ⟨s, rfl, hs⟩
  | cons b xs ih =>
    obtain ⟨s₁, h₁, hs₁⟩ := h s hs b List.mem_cons_self
    obtain ⟨s₂, h₂, hs₂⟩ := ih (fun s hs c hc => h s hs c (List.mem_cons_of_mem _ hc)) hs₁
    exact ⟨s₂, by rw [List.foldlM_cons, h₁, ok_bind, h₂], hs₂⟩

theorem exists_of_findSomeM? {xs : List β} {f : β → Except ε (Option γ)} {c : γ}
    (h : xs.findSomeM? f = .ok (some c)) : ∃ b ∈ xs, f b = .ok (some c) := by
  induction xs with
  | nil => cases h
  | cons b xs ih =>
    rw [List.findSomeM?, bind_eq_ok] at h
    obtain ⟨found, hb, h⟩ := h
    cases found with
    | some d =>
      cases h
      exact ⟨b, List.mem_cons_self, hb⟩
    | none =>
      obtain ⟨d, hd, hfound⟩ := ih h
      exact ⟨d, List.mem_cons_of_mem _ hd, hfound⟩

end OptimalTransport.Fault
