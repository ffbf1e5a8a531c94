import Mathlib.Data.List.Infix

/-!
# Nesting

Texts in which an opening and a closing character match up, and where in such a
text a mark stands inside.
-/

namespace Text

/-- The depth after a text that is entered at depth `d`. -/
def depthFrom (o c : Char) (d : Int) (s : List Char) : Int := d + s.count o - s.count c

/-- Nothing is closed before it is opened, and everything that is opened is closed. -/
structure Nested (o c : Char) (s : List Char) : Prop where
  inits : ∀ u ∈ s.inits, u.count c ≤ u.count o
  whole : s.count o = s.count c

instance (o c : Char) (s : List Char) : Decidable (Nested o c s) :=
  decidable_of_iff ((∀ u ∈ s.inits, u.count c ≤ u.count o) ∧ s.count o = s.count c)
    ⟨fun h => ⟨h.1, h.2⟩, fun h => ⟨h.inits, h.whole⟩⟩

section

variable {o c : Char} {s t : List Char}

theorem depthFrom_append (d : Int) (s t : List Char) :
    depthFrom o c d (s ++ t) = depthFrom o c (depthFrom o c d s) t := by
  unfold depthFrom
  rw [List.count_append, List.count_append]
  omega

theorem Nested.depthFrom_eq (h : Nested o c s) (d : Int) : depthFrom o c d s = d := by
  have := h.whole
  unfold depthFrom
  omega

/-- The beginnings of a text are those of its first part, and that part with those of the second. -/
theorem prefix_append_cases {u s t : List Char} (h : u <+: s ++ t) :
    u <+: s ∨ ∃ v, u = s ++ v ∧ v <+: t := by
  obtain ⟨r, hr⟩ := h
  rcases List.append_eq_append_iff.mp hr with ⟨w, rfl, hw⟩ | ⟨w, rfl, hw⟩
  · exact Or.inl ⟨w, rfl⟩
  · exact Or.inr ⟨w, rfl, r, hw.symm⟩

theorem Nested.of_not_mem (ho : o ∉ s) (hc : c ∉ s) : Nested o c s := by
  refine ⟨fun u hu => ?_, ?_⟩
  · have hcu : c ∉ u := fun hm => hc ((List.mem_inits u s).mp hu |>.subset hm)
    rw [List.count_eq_zero_of_not_mem hcu]
    exact Nat.zero_le _
  · rw [List.count_eq_zero_of_not_mem ho, List.count_eq_zero_of_not_mem hc]

theorem Nested.append (hs : Nested o c s) (ht : Nested o c t) : Nested o c (s ++ t) := by
  refine ⟨fun u hu => ?_, ?_⟩
  · rcases prefix_append_cases ((List.mem_inits u (s ++ t)).mp hu) with hu | ⟨v, rfl, hv⟩
    · exact hs.inits u ((List.mem_inits u s).mpr hu)
    · have h1 := hs.whole
      have h2 := ht.inits v ((List.mem_inits v t).mpr hv)
      rw [List.count_append, List.count_append]
      omega
  · have h1 := hs.whole
    have h2 := ht.whole
    rw [List.count_append, List.count_append]
    omega

/-- Putting a pair around a text keeps it nested. -/
theorem Nested.wrap (h : Nested o c s) (hoc : o ≠ c) : Nested o c (o :: s ++ [c]) := by
  have hcount : ∀ u : List Char, (o :: u).count o = u.count o + 1 ∧ (o :: u).count c = u.count c :=
    fun u => ⟨List.count_cons_self, List.count_cons_of_ne hoc⟩
  refine ⟨fun u hu => ?_, ?_⟩
  · have hp := (List.mem_inits u _).mp hu
    rw [List.cons_append, List.prefix_cons_iff] at hp
    rcases hp with rfl | ⟨v, rfl, hv⟩
    · simp
    · rw [(hcount v).1, (hcount v).2]
      rcases prefix_append_cases hv with hv | ⟨w, rfl, hw⟩
      · have := h.inits v ((List.mem_inits v s).mpr hv)
        omega
      · have h1 := h.whole
        have h2 : w.count c ≤ 1 := Nat.le_trans (hw.sublist.count_le c) (by simp)
        rw [List.count_append, List.count_append]
        omega
  · have h1 := h.whole
    rw [List.cons_append, (hcount _).1, (hcount _).2, List.count_append, List.count_append]
    simp [hoc.symm, h1]

/-- In the text, entered at depth `d`, no `mark` stands at depth zero. -/
def Guarded (o c mark : Char) (d : Int) (s : List Char) : Prop :=
  ∀ u v, s = u ++ mark :: v → depthFrom o c d u ≠ 0

theorem Guarded.of_not_mem {mark : Char} (h : mark ∉ s) (d : Int) : Guarded o c mark d s := by
  rintro u v rfl
  exact absurd (by simp) h

theorem Guarded.append {mark : Char} {d : Int} (hs : Guarded o c mark d s)
    (ht : Guarded o c mark (depthFrom o c d s) t) : Guarded o c mark d (s ++ t) := by
  intro u v huv
  rcases List.append_eq_append_iff.mp huv with ⟨w, rfl, hw⟩ | ⟨w, rfl, hw⟩
  · rw [depthFrom_append]
    exact ht w v hw
  · cases w with
    | nil =>
        have := ht [] v (by simpa using hw.symm)
        simpa [depthFrom] using this
    | cons a w =>
        obtain ⟨rfl, rfl⟩ := List.cons_eq_cons.mp hw
        exact hs u w rfl

/-- Inside something that is open a nested text has nothing at depth zero. -/
theorem Nested.guarded {mark : Char} (h : Nested o c s) {d : Int} (hd : 0 < d) :
    Guarded o c mark d s := by
  rintro u v rfl
  have := h.inits u ((List.mem_inits u _).mpr (List.prefix_append u _))
  unfold depthFrom
  omega

end

end Text
