import Bergshamra.Lib.Text

/-!
# White space around and between words

What trimming and normalizing white space leave of a text that is put together
from words and white space, and what trimming quotes leaves of a quoted text.
-/

namespace Text

/-- White space only. -/
def IsBlank (w : List Char) : Prop := ∀ c ∈ w, isWhitespace c = true

instance (w : List Char) : Decidable (IsBlank w) := List.decidableBAll _ _

/-- A text that neither begins nor ends with white space. -/
structure Solid (s : List Char) : Prop where
  ne_nil : s ≠ []
  head : ∀ c ∈ s.head?, isWhitespace c = false
  last : ∀ c ∈ s.getLast?, isWhitespace c = false

theorem Solid.of_word {s : List Char} (hne : s ≠ []) (h : ∀ c ∈ s, isWhitespace c = false) :
    Solid s :=
  ⟨hne, fun c hc => h c (List.mem_of_mem_head? hc), fun c hc => h c (List.mem_of_mem_getLast? hc)⟩

theorem Solid.append {s t : List Char} (hs : Solid s) (ht : Solid t) (m : List Char) :
    Solid (s ++ m ++ t) := by
  refine ⟨by simp [hs.ne_nil], ?_, ?_⟩
  · intro c hc
    rw [List.append_assoc, List.head?_append_of_ne_nil _ hs.ne_nil] at hc
    exact hs.head c hc
  · intro c hc
    rw [List.getLast?_append_of_ne_nil _ ht.ne_nil] at hc
    exact ht.last c hc

theorem Solid.trim_eq {s : List Char} (h : Solid s) : trim s = s := trim_of_ends h.head h.last

theorem trimStart_blank_append {w : List Char} (hw : IsBlank w) (s : List Char) :
    trimStart (w ++ s) = trimStart s := by
  induction w with
  | nil => rfl
  | cons c w ih =>
      have hc : isWhitespace c = true := hw c List.mem_cons_self
      rw [List.cons_append, trimStart, List.dropWhile_cons_of_pos hc]
      exact ih fun d hd => hw d (List.mem_cons_of_mem _ hd)

/-- The white space around a text is what trimming takes off. -/
theorem trim_padded {w s w' : List Char} (hw : IsBlank w) (hs : Solid s) (hw' : IsBlank w') :
    trim (w ++ s ++ w') = s := by
  have hrev : IsBlank w'.reverse := fun c hc => hw' c (List.mem_reverse.mp hc)
  have hstart : trimStart (s ++ w') = s ++ w' := by
    refine trimStart_of_head fun c hc => ?_
    rw [List.head?_append_of_ne_nil _ hs.ne_nil] at hc
    exact hs.head c hc
  have hend : trimStart s.reverse = s.reverse :=
    trimStart_of_head (by rw [List.head?_reverse]; exact hs.last)
  rw [trim, List.append_assoc, trimStart_blank_append hw, hstart, List.reverse_append,
    trimStart_blank_append hrev, hend, List.reverse_reverse]

theorem trim_padded_left {w s : List Char} (hw : IsBlank w) (hs : Solid s) :
    trim (w ++ s) = s := by
  have := @trim_padded w s [] hw hs (by intro c hc; cases hc)
  rwa [List.append_nil] at this

theorem trim_padded_right {s w' : List Char} (hs : Solid s) (hw' : IsBlank w') :
    trim (s ++ w') = s := by
  have := @trim_padded [] s w' (by intro c hc; cases hc) hs hw'
  rwa [List.nil_append] at this

theorem trim_prefix (s : List Char) : trim s <+: trimStart s := by
  have h := List.dropWhile_suffix (l := (trimStart s).reverse) isWhitespace
  have hr := List.reverse_prefix.mpr h
  rwa [List.reverse_reverse] at hr

theorem head?_trimStart {s : List Char} {c : Char} (h : c ∈ (trimStart s).head?) :
    isWhitespace c = false := by
  have := List.head?_dropWhile_not isWhitespace s
  rw [Option.mem_def] at h
  rw [trimStart] at h
  rw [h] at this
  exact this

/-- Trimmed text begins with the first character that is not white space. -/
theorem head?_trim {s : List Char} (h : trim s ≠ []) : (trim s).head? = (trimStart s).head? := by
  obtain ⟨t, ht⟩ := trim_prefix s
  rw [← ht, List.head?_append_of_ne_nil _ h]

theorem solid_trim {s : List Char} (h : trim s ≠ []) : Solid (trim s) := by
  refine ⟨h, fun c hc => ?_, fun c hc => ?_⟩
  · rw [head?_trim h] at hc
    exact head?_trimStart hc
  · rw [trim, List.getLast?_reverse] at hc
    exact head?_trimStart hc

/-! ## Normalizing white space -/

/-- What white space between two words becomes. -/
def gap (w : List Char) : List Char := if w = [] then [] else [' ']

theorem gap_blank (w : List Char) : IsBlank (gap w) := by
  unfold gap
  intro c hc
  split at hc
  · cases hc
  · rw [List.mem_singleton] at hc
    rw [hc]
    decide

theorem splitRuns_of_pos {p : Char → Bool} {c : Char} (hc : p c = true) (s : List Char) :
    splitRuns p (c :: s) = splitRuns p s := by
  rw [splitRuns.eq_def]
  dsimp only
  rw [if_pos hc]

/-- A run that starts here. -/
theorem exists_splitRuns {p : Char → Bool} {c : Char} (hc : p c = false) (s : List Char) :
    ∃ run runs, splitRuns p (c :: s) = (c :: run) :: runs := by
  rw [splitRuns.eq_def]
  dsimp only
  rw [if_neg (by simp [hc])]
  split
  · split
    · exact ⟨[], _, rfl⟩
    · exact ⟨_, _, rfl⟩
  · exact ⟨[], _, rfl⟩

theorem intercalate_cons (a b : List Char) (l : List (List Char)) :
    [' '].intercalate (a :: b :: l) = a ++ ' ' :: [' '].intercalate (b :: l) := by
  simp [List.intercalate, List.intersperse]

theorem splitRuns_of_blank {w : List Char} (hw : IsBlank w) (s : List Char) :
    splitRuns isWhitespace (w ++ s) = splitRuns isWhitespace s := by
  induction w with
  | nil => rfl
  | cons c w ih =>
      rw [List.cons_append, splitRuns_of_pos (hw c List.mem_cons_self)]
      exact ih fun d hd => hw d (List.mem_cons_of_mem _ hd)

theorem normalizeSpace_cons {c d : Char} (hc : isWhitespace c = false)
    (hd : isWhitespace d = false) (s : List Char) :
    normalizeSpace (c :: d :: s) = c :: normalizeSpace (d :: s) := by
  obtain ⟨run, runs, hr⟩ := exists_splitRuns hd s
  have hruns : splitRuns isWhitespace (c :: d :: s) = (c :: d :: run) :: runs := by
    rw [splitRuns.eq_def]
    dsimp only
    rw [if_neg (by simp [hc]), hr]
    dsimp only
    rw [if_neg (by simp [hd])]
  rw [normalizeSpace, normalizeSpace, splitWhitespace, splitWhitespace, hruns, hr]
  cases runs with
  | nil => simp [List.intercalate]
  | cons run' runs => rw [intercalate_cons, intercalate_cons]; rfl

theorem normalizeSpace_cons_blank {c d : Char} {w : List Char} (hc : isWhitespace c = false)
    (hd : isWhitespace d = false) (hw : IsBlank w) (hne : w ≠ []) (s : List Char) :
    normalizeSpace (c :: (w ++ d :: s)) = c :: ' ' :: normalizeSpace (d :: s) := by
  cases w with
  | nil => exact absurd rfl hne
  | cons e w =>
      have he : isWhitespace e = true := hw e List.mem_cons_self
      have hskip : splitRuns isWhitespace (e :: (w ++ d :: s)) = splitRuns isWhitespace (d :: s) :=
        splitRuns_of_blank hw (d :: s)
      obtain ⟨run, runs, hr⟩ := exists_splitRuns hd s
      have hruns : splitRuns isWhitespace (c :: e :: (w ++ d :: s)) = [c] :: (d :: run) :: runs := by
        rw [splitRuns.eq_def]
        dsimp only
        rw [if_neg (by simp [hc]), hskip, hr]
        dsimp only
        rw [if_pos he]
      rw [List.cons_append, normalizeSpace, splitWhitespace, hruns, intercalate_cons,
        normalizeSpace, splitWhitespace, hr]
      rfl

/-- A word is kept, and the white space after it becomes one space. -/
theorem normalizeSpace_append {x w y : List Char} (hx : ∀ c ∈ x, isWhitespace c = false)
    (hne : x ≠ []) (hw : IsBlank w) (hy : ∀ c ∈ y.head?, isWhitespace c = false) (hyne : y ≠ []) :
    normalizeSpace (x ++ w ++ y) = x ++ gap w ++ normalizeSpace y := by
  obtain ⟨d, y, rfl⟩ := List.exists_cons_of_ne_nil hyne
  have hd : isWhitespace d = false := hy d rfl
  induction x with
  | nil => exact absurd rfl hne
  | cons c x ih =>
      have hc : isWhitespace c = false := hx c List.mem_cons_self
      cases x with
      | nil =>
          by_cases hwne : w = []
          · subst hwne
            exact normalizeSpace_cons hc hd y
          · rw [gap, if_neg hwne]
            exact normalizeSpace_cons_blank hc hd hw hwne y
      | cons c' x =>
          have hc' : isWhitespace c' = false := hx c' (by simp)
          have hrest := ih (fun e he => hx e (List.mem_cons_of_mem _ he)) (by simp)
          simp only [List.cons_append] at hrest ⊢
          rw [normalizeSpace_cons hc hc', hrest]

/-! ## Quotes -/

theorem trimMatches_of_ends {c : Char} {s : List Char} (hh : c ∉ s.head?) (hl : c ∉ s.getLast?) :
    trimMatches c s = s := by
  have hdrop : ∀ t : List Char, c ∉ t.head? → t.dropWhile (fun d => d == c) = t := by
    intro t ht
    cases t with
    | nil => rfl
    | cons d t =>
        have hdc : d ≠ c := fun h => ht (by rw [h]; rfl)
        exact List.dropWhile_cons_of_neg (by simpa using hdc)
  rw [trimMatches, hdrop s hh, hdrop s.reverse (by rwa [List.head?_reverse]), List.reverse_reverse]

/-- What is between quotes, where they do not occur in it. -/
theorem trimMatches_quoted {c : Char} {s : List Char} (h : c ∉ s) :
    trimMatches c (c :: s ++ [c]) = s := by
  have hdrop : ∀ t : List Char, c ∉ t → (t ++ [c]).dropWhile (fun d => d == c)
      = if t = [] then [] else t ++ [c] := by
    intro t ht
    cases t with
    | nil => simp
    | cons d t =>
        have hdc : d ≠ c := fun h => ht (by rw [h]; exact List.mem_cons_self)
        rw [if_neg (by simp), List.cons_append, List.dropWhile_cons_of_neg (by simpa using hdc)]
  rw [trimMatches, List.cons_append, List.dropWhile_cons_of_pos (by simp), hdrop s h]
  by_cases hs : s = []
  · rw [if_pos hs, hs]
    rfl
  · have hrev : c ∉ s.reverse := fun hc => h (List.mem_reverse.mp hc)
    have hnil : s.reverse ≠ [] := fun hnil => hs (by simpa using hnil)
    obtain ⟨d, t, ht⟩ := List.exists_cons_of_ne_nil hnil
    rw [if_neg hs, List.reverse_append, List.reverse_singleton, List.singleton_append,
      List.dropWhile_cons_of_pos (by simp), ht]
    have hdc : d ≠ c := fun h => hrev (by rw [ht, h]; exact List.mem_cons_self)
    rw [List.dropWhile_cons_of_neg (by simpa using hdc), ← ht, List.reverse_reverse]

end Text
