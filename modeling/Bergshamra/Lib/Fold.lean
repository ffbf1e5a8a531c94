import Mathlib.Data.List.Forall2

/-!
# Runs of a fallible step

`foldlM` over `Except` as a run of a system: it starts in a state, takes a step
for every element of a list, and stops at the first error. A run that ended in a
state keeps what every step keeps; and where something held before the run and
not after it, one step of the run is to blame.
-/

namespace Fold

variable {ε σ α : Type} {f : σ → α → Except ε σ} {P : σ → Prop}

theorem cons_ok {a : α} {l : List α} {s s' : σ} :
    (a :: l).foldlM f s = .ok s' ↔ ∃ s₁, f s a = .ok s₁ ∧ l.foldlM f s₁ = .ok s' := by
  rw [List.foldlM_cons]
  cases f s a with
  | error e => simp [bind, Except.bind]
  | ok s₁ => simp [bind, Except.bind]

/-- What every step keeps, a run keeps. -/
theorem invariant (hstep : ∀ s a s', P s → f s a = .ok s' → P s') {l : List α} {s s' : σ}
    (hs : P s) (h : l.foldlM f s = .ok s') : P s' := by
  induction l generalizing s with
  | nil =>
      cases h
      exact hs
  | cons a l ih =>
      obtain ⟨s₁, h₁, h₂⟩ := cons_ok.mp h
      exact ih (hstep s a s₁ hs h₁) h₂

/-- What held before a run and not after it was lost in one of its steps. -/
theorem changes {l : List α} {s s' : σ} (h : l.foldlM f s = .ok s') (hs : P s) (hs' : ¬ P s') :
    ∃ before a after s₁ s₂, l = before ++ a :: after ∧ before.foldlM f s = .ok s₁
      ∧ f s₁ a = .ok s₂ ∧ after.foldlM f s₂ = .ok s' ∧ P s₁ ∧ ¬ P s₂ := by
  induction l generalizing s with
  | nil =>
      cases h
      exact absurd hs hs'
  | cons a l ih =>
      obtain ⟨s₁, h₁, h₂⟩ := cons_ok.mp h
      by_cases hp : P s₁
      · obtain ⟨before, b, after, t₁, t₂, hl, hb, hstep, ha, ht₁, ht₂⟩ := ih h₂ hp
        exact ⟨a :: before, b, after, t₁, t₂, by rw [hl, List.cons_append],
          cons_ok.mpr ⟨s₁, h₁, hb⟩, hstep, ha, ht₁, ht₂⟩
      · exact ⟨[], a, l, s, s₁, rfl, rfl, h₁, h₂, hs, hp⟩

/-- Two runs over one list keep a relation that every pair of steps keeps. -/
theorem related {τ : Type} {g : τ → α → Except ε τ} {R : σ → τ → Prop}
    (hstep : ∀ a s t s' t', R s t → f s a = .ok s' → g t a = .ok t' → R s' t') {l : List α}
    {s s' : σ} {t t' : τ} (hst : R s t) (h : l.foldlM f s = .ok s') (h' : l.foldlM g t = .ok t') :
    R s' t' := by
  induction l generalizing s t with
  | nil =>
      cases h
      cases h'
      exact hst
  | cons a l ih =>
      obtain ⟨s₁, h₁, h₂⟩ := cons_ok.mp h
      obtain ⟨t₁, h₁', h₂'⟩ := cons_ok.mp h'
      exact ih (hstep a s t s₁ t₁ hst h₁ h₁') h₂ h₂'

section Outcomes

variable {τ : Type} {R : σ → τ → Prop}

/-- Two results that are both errors, and the same, or both values that are related. -/
def Outcomes (R : σ → τ → Prop) (x : Except ε σ) (y : Except ε τ) : Prop :=
  (∃ s t, x = .ok s ∧ y = .ok t ∧ R s t) ∨ ∃ e, x = .error e ∧ y = .error e

theorem Outcomes.of_ok {s : σ} {t : τ} (h : R s t) :
    Outcomes R (.ok s : Except ε σ) (.ok t) := Or.inl ⟨s, t, rfl, rfl, h⟩

theorem Outcomes.of_error (e : ε) : Outcomes R (.error e) (.error e) := Or.inr ⟨e, rfl, rfl⟩

theorem Outcomes.bind {x : Except ε σ} {y : Except ε τ} (h : Outcomes R x y) {σ' τ' : Type}
    {R' : σ' → τ' → Prop} {k : σ → Except ε σ'} {k' : τ → Except ε τ'}
    (hk : ∀ s t, R s t → Outcomes R' (k s) (k' t)) : Outcomes R' (x >>= k) (y >>= k') := by
  rcases h with ⟨s, t, rfl, rfl, hst⟩ | ⟨e, rfl, rfl⟩
  · exact hk s t hst
  · exact .of_error e

theorem Outcomes.eq {x y : Except ε σ} (h : Outcomes Eq x y) : x = y := by
  rcases h with ⟨s, t, rfl, rfl, rfl⟩ | ⟨e, rfl, rfl⟩
  · rfl
  · rfl

theorem Outcomes.self {R : σ → σ → Prop} {x : Except ε σ} (h : ∀ s, x = .ok s → R s s) :
    Outcomes R x x := by
  cases x with
  | error e => exact .of_error e
  | ok s => exact .of_ok (h s rfl)

/-- Two runs over two lists whose elements correspond, one by one. -/
theorem outcomes_foldlM {β : Type} {Q : α → β → Prop} {g : τ → β → Except ε τ} {l : List α}
    {l' : List β} (hl : List.Forall₂ Q l l')
    (hstep : ∀ a b s t, Q a b → R s t → Outcomes R (f s a) (g t b)) {s : σ} {t : τ}
    (hst : R s t) : Outcomes R (l.foldlM f s) (l'.foldlM g t) := by
  induction hl generalizing s t with
  | nil => exact .of_ok hst
  | cons hq _ ih =>
      rw [List.foldlM_cons, List.foldlM_cons]
      exact (hstep _ _ _ _ hq hst).bind fun _ _ h => ih h

end Outcomes

theorem mem_filterAuxM {p : α → Except ε Bool} {l acc r : List α}
    (h : l.filterAuxM p acc = .ok r) {a : α} : a ∈ r ↔ a ∈ acc ∨ (a ∈ l ∧ p a = .ok true) := by
  induction l generalizing acc with
  | nil =>
      cases h
      simp
  | cons b l ih =>
      rw [List.filterAuxM] at h
      cases hb : p b with
      | error e => simp [hb, bind, Except.bind] at h
      | ok keep =>
          simp only [hb, bind, Except.bind] at h
          rw [ih h, List.mem_cons]
          cases keep with
          | true =>
              simp only [cond_true, List.mem_cons]
              constructor
              · rintro ((rfl | ha) | ⟨ha, hp⟩)
                · exact Or.inr ⟨Or.inl rfl, hb⟩
                · exact Or.inl ha
                · exact Or.inr ⟨Or.inr ha, hp⟩
              · rintro (ha | ⟨rfl | ha, hp⟩)
                · exact Or.inl (Or.inr ha)
                · exact Or.inl (Or.inl rfl)
                · exact Or.inr ⟨ha, hp⟩
          | false =>
              simp only [cond_false]
              constructor
              · rintro (ha | ⟨ha, hp⟩)
                · exact Or.inl ha
                · exact Or.inr ⟨Or.inr ha, hp⟩
              · rintro (ha | ⟨rfl | ha, hp⟩)
                · exact Or.inl ha
                · rw [hb] at hp
                  simp at hp
                · exact Or.inr ⟨ha, hp⟩

/-- A test that can fail, passed over a list: what is left are the elements it holds of. -/
theorem mem_filterM {p : α → Except ε Bool} {l r : List α} (h : l.filterM p = .ok r) {a : α} :
    a ∈ r ↔ a ∈ l ∧ p a = .ok true := by
  rw [List.filterM] at h
  cases hl : l.filterAuxM p [] with
  | error e => simp [hl, bind, Except.bind] at h
  | ok r' =>
      simp only [hl, bind, Except.bind, pure, Except.pure, Except.ok.injEq] at h
      rw [← h, List.mem_reverse, mem_filterAuxM hl]
      simp

/-- A test that does not fail keeps the elements it holds of. -/
theorem filterM_ok {p : α → Except ε Bool} {q : α → Bool} (h : ∀ a, p a = .ok (q a))
    (l : List α) : ∃ r, l.filterM p = .ok r ∧ ∀ a, a ∈ r ↔ a ∈ l ∧ q a = true := by
  have haux : ∀ acc : List α, ∃ r, l.filterAuxM p acc = .ok r := by
    induction l with
    | nil => exact fun acc => ⟨acc, rfl⟩
    | cons b l ih =>
        intro acc
        rw [List.filterAuxM, h b]
        exact ih _
  obtain ⟨r, hr⟩ := haux []
  have hf : l.filterM p = .ok r.reverse := by
    rw [List.filterM, hr]
    rfl
  refine ⟨r.reverse, hf, fun a => ?_⟩
  rw [mem_filterM hf, h a]
  simp

end Fold
