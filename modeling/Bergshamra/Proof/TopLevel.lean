import Bergshamra.Spec.BoolExpr

/-!
# Splitting at the top level

What `split_top_level` and `strip_not` see of a text that is put together from
parts: they pass over a part that is closed inside parentheses, over one without
a space, and over white space that no operator follows.
-/

namespace Bergshamra

/-! ## Depth -/

/-- The depth of parentheses after a text. -/
def depthAfter (d : Int) (s : List Char) : Int := s.foldl parenDepth d

theorem depthAfter_append (d : Int) (s t : List Char) :
    depthAfter d (s ++ t) = depthAfter (depthAfter d s) t := List.foldl_append

theorem parenDepth_add (d k : Int) (c : Char) : parenDepth (d + k) c = parenDepth d c + k := by
  unfold parenDepth
  split
  · omega
  · split
    · omega
    · rfl

theorem parenDepth_of_ne {c : Char} (h : '(' ≠ c) (h' : ')' ≠ c) (d : Int) : parenDepth d c = d := by
  rw [parenDepth, if_neg (Ne.symm h), if_neg (Ne.symm h')]

/-- No parentheses. -/
def NoParens (s : List Char) : Prop := '(' ∉ s ∧ ')' ∉ s

/-- A text whose parentheses close is passed over at any depth. -/
theorem balancedFrom_append {s : List Char} {j : Int} (h : balancedFrom j s = true) {k : Int}
    (hk : 0 ≤ k) (t : List Char) : balancedFrom (j + k) (s ++ t) = balancedFrom k t := by
  induction s generalizing j with
  | nil =>
      have hj : j = 0 := by simpa [balancedFrom] using h
      rw [hj, Int.zero_add, List.nil_append]
  | cons c s ih =>
      rw [balancedFrom] at h
      by_cases hneg : parenDepth j c < 0
      · rw [if_pos hneg] at h
        cases h
      · rw [if_neg hneg] at h
        rw [List.cons_append, balancedFrom, parenDepth_add, if_neg (by omega)]
        exact ih h

/-- The parentheses of the text close. -/
def Closed (s : List Char) : Prop := balancedFrom 0 s = true

theorem Closed.append {s t : List Char} (hs : Closed s) (ht : Closed t) : Closed (s ++ t) := by
  have := balancedFrom_append hs (Int.le_refl 0) t
  rw [Int.zero_add] at this
  rw [Closed, this]
  exact ht

theorem NoParens.closed {s : List Char} (h : NoParens s) : Closed s := by
  induction s with
  | nil => rfl
  | cons c s ih =>
      obtain ⟨hopen, hclose⟩ := h
      rw [List.mem_cons, not_or] at hopen hclose
      have hd := parenDepth_of_ne hopen.1 hclose.1 0
      rw [Closed, balancedFrom, hd, if_neg (by omega)]
      exact ih ⟨hopen.2, hclose.2⟩

theorem NoParens.of_blank {w : List Char} (hw : Text.IsBlank w) : NoParens w := by
  have hopen : Text.isWhitespace '(' = false := by decide
  have hclose : Text.isWhitespace ')' = false := by decide
  refine ⟨fun hc => ?_, fun hc => ?_⟩
  · have := hw _ hc
    rw [hopen] at this
    cases this
  · have := hw _ hc
    rw [hclose] at this
    cases this

theorem Closed.paren {s : List Char} (h : Closed s) : Closed ('(' :: s ++ [')']) := by
  have hinner := balancedFrom_append h (k := 1) (by omega) [')']
  have hopen : parenDepth 0 '(' = 0 + 1 := rfl
  rw [Closed, List.cons_append, balancedFrom, hopen, if_neg (by omega), hinner]
  rfl

theorem depthAfter_of_balanced {s : List Char} {j : Int} (h : balancedFrom j s = true) (d : Int) :
    depthAfter (j + d) s = d := by
  induction s generalizing j with
  | nil =>
      have hj : j = 0 := by simpa [balancedFrom] using h
      rw [hj, Int.zero_add]
      rfl
  | cons c s ih =>
      rw [balancedFrom] at h
      by_cases hneg : parenDepth j c < 0
      · rw [if_pos hneg] at h
        cases h
      · rw [if_neg hneg] at h
        have := ih h
        rwa [← parenDepth_add] at this

theorem Closed.depthAfter_eq {s : List Char} (h : Closed s) (d : Int) : depthAfter d s = d := by
  have := depthAfter_of_balanced h d
  rwa [Int.zero_add] at this

/-! ## Passing over a part -/

/-- Scanning at depth `d`, the splitter passes over `s` where `rest` follows. -/
def Passes (sep : List Char) (d : Int) (s rest : List Char) : Prop :=
  ∀ before, splitTopLevelFrom sep d before (s ++ rest)
    = splitTopLevelFrom sep (depthAfter d s) (s.reverse ++ before) rest

theorem Passes.nil (sep : List Char) (d : Int) (rest : List Char) : Passes sep d [] rest :=
  fun _ => rfl

theorem Passes.append {sep : List Char} {d : Int} {s t rest : List Char}
    (hs : Passes sep d s (t ++ rest)) (ht : Passes sep (depthAfter d s) t rest) :
    Passes sep d (s ++ t) rest := by
  intro before
  rw [List.append_assoc, hs, ht, depthAfter_append, List.reverse_append, List.append_assoc]

/-- One character: the splitter is inside parentheses, or the separator is not here. -/
theorem Passes.cons {sep : List Char} {d : Int} {c : Char} {s rest : List Char}
    (h : parenDepth d c ≠ 0 ∨ Text.stripPrefix? sep (c :: (s ++ rest)) = none)
    (hs : Passes sep (parenDepth d c) s rest) : Passes sep d (c :: s) rest := by
  intro before
  have hstep : splitTopLevelFrom sep d before (c :: (s ++ rest))
      = splitTopLevelFrom sep (parenDepth d c) (c :: before) (s ++ rest) := by
    rw [splitTopLevelFrom]
    rcases h with h | h
    · cases Text.stripPrefix? sep (c :: (s ++ rest)) with
      | none => rfl
      | some right => exact if_neg fun hc => h hc.1
    · rw [h]
  rw [List.cons_append, hstep, hs, List.reverse_cons, List.append_assoc]
  rfl

/-- Inside parentheses the splitter passes over what closes. -/
theorem Passes.of_balanced {sep : List Char} {s : List Char} {j : Int}
    (h : balancedFrom j s = true) {k : Int} (hk : 0 < k) (rest : List Char) :
    Passes sep (j + k) s rest := by
  induction s generalizing j with
  | nil => exact Passes.nil _ _ _
  | cons c s ih =>
      rw [balancedFrom] at h
      by_cases hneg : parenDepth j c < 0
      · rw [if_pos hneg] at h
        cases h
      · rw [if_neg hneg] at h
        refine Passes.cons (Or.inl ?_) ?_
        · rw [parenDepth_add]
          omega
        · rw [parenDepth_add]
          exact ih h

theorem Passes.of_closed {sep s : List Char} (h : Closed s) {d : Int} (hd : 0 < d)
    (rest : List Char) : Passes sep d s rest := by
  have := @Passes.of_balanced sep s 0 h d hd rest
  rwa [Int.zero_add] at this

theorem stripPrefix?_of_ne {a c : Char} (h : a ≠ c) (pat s : List Char) :
    Text.stripPrefix? (a :: pat) (c :: s) = none := by
  rw [Text.stripPrefix?, if_neg h]

theorem stripPrefix?_of_eq (a : Char) (pat s : List Char) :
    Text.stripPrefix? (a :: pat) (a :: s) = Text.stripPrefix? pat s := by
  rw [Text.stripPrefix?, if_pos rfl]

/-- A text without the separator's first character is passed over. -/
theorem Passes.of_not_mem {a : Char} {word s : List Char} (h : a ∉ s) (d : Int)
    (rest : List Char) : Passes (a :: word) d s rest := by
  induction s generalizing d with
  | nil => exact Passes.nil _ _ _
  | cons c s ih =>
      rw [List.mem_cons, not_or] at h
      exact Passes.cons (Or.inr (stripPrefix?_of_ne h.1 ..)) (ih h.2 _)

/-- White space is passed over where no operator word follows. -/
theorem Passes.of_blank {a : Char} {word w rest : List Char} (ha : Text.isWhitespace a = false)
    (hw : Text.IsBlank w) (hrest : Text.stripPrefix? (a :: word) rest = none) (d : Int) :
    Passes (' ' :: a :: word) d w rest := by
  induction w generalizing d with
  | nil => exact Passes.nil _ _ _
  | cons c w ih =>
      have hw' : Text.IsBlank w := fun e he => hw e (List.mem_cons_of_mem _ he)
      refine Passes.cons (Or.inr ?_) (ih hw' _)
      by_cases hc : ' ' = c
      · subst hc
        rw [stripPrefix?_of_eq]
        cases w with
        | nil => exact hrest
        | cons e w =>
            refine stripPrefix?_of_ne ?_ ..
            intro hae
            have he : Text.isWhitespace e = true := hw e (by simp)
            rw [← hae, ha] at he
            cases he
      · exact stripPrefix?_of_ne hc ..

/-- A separator that does not occur in a text does not begin in it either, where the text holds a
character that is not in the separator. -/
theorem stripPrefix?_append_none {sep u : List Char} {q : Char} (hq : q ∉ sep) (hu : q ∈ u)
    (h : Text.stripPrefix? sep u = none) (rest : List Char) :
    Text.stripPrefix? sep (u ++ rest) = none := by
  induction sep generalizing u with
  | nil => rw [Text.stripPrefix?] at h; cases h
  | cons a sep ih =>
      cases u with
      | nil => cases hu
      | cons c u =>
          rw [List.mem_cons, not_or] at hq
          by_cases hac : a = c
          · subst hac
            rw [stripPrefix?_of_eq] at h
            rw [List.cons_append, stripPrefix?_of_eq]
            refine ih hq.2 ?_ h
            rcases List.mem_cons.mp hu with heq | hmem
            · exact absurd heq hq.1
            · exact hmem
          · exact stripPrefix?_of_ne hac ..

/-- A text that ends in a character foreign to the separator, and in which it does not occur. -/
theorem Passes.of_no_sub {sep s : List Char} {q : Char} (hq : q ∉ sep)
    (h : Text.splitOnce sep (s ++ [q]) = none) (d : Int) (rest : List Char) :
    Passes sep d (s ++ [q]) rest := by
  have hstep : ∀ {u : List Char}, Text.splitOnce sep u = none → q ∈ u →
      Text.stripPrefix? sep (u ++ rest) = none := by
    intro u hu hqu
    refine stripPrefix?_append_none hq hqu ?_ rest
    cases u with
    | nil => cases hqu
    | cons c u =>
        rw [Text.splitOnce] at hu
        cases hs : Text.stripPrefix? sep (c :: u) with
        | none => rfl
        | some r => rw [hs] at hu; cases hu
  have htail : ∀ {c : Char} {u : List Char}, Text.splitOnce sep (c :: u) = none →
      Text.splitOnce sep u = none := by
    intro c u hu
    rw [Text.splitOnce] at hu
    cases hs : Text.stripPrefix? sep (c :: u) with
    | none => rwa [hs, Option.map_eq_none_iff] at hu
    | some r => rw [hs] at hu; cases hu
  induction s generalizing d with
  | nil => exact Passes.cons (Or.inr (hstep h (by simp))) (Passes.nil _ _ _)
  | cons c s ih => exact Passes.cons (Or.inr (hstep h (by simp))) (ih (htail h) _)

/-! ## Splitting -/

theorem splitTopLevel_of_passes {sep s : List Char} (h : Passes sep 0 s []) :
    splitTopLevel s sep = none := by
  have := h []
  rw [List.append_nil] at this
  rw [splitTopLevel, this]
  rfl

/-- At a separator after a part that is passed over, the text is split. -/
theorem splitTopLevel_at {a : Char} {word p w w' q : List Char}
    (hp : Passes (' ' :: a :: word) 0 p (w ++ (' ' :: a :: word) ++ w' ++ q)) (hclosed : Closed p)
    (ha : Text.isWhitespace a = false) (hpsolid : Text.Solid p) (hqsolid : Text.Solid q)
    (hw : Text.IsBlank w) (hw' : Text.IsBlank w') :
    splitTopLevel (p ++ (w ++ (' ' :: a :: word) ++ w') ++ q) (' ' :: a :: word) = some (p, q) := by
  have hspace : Text.isWhitespace ' ' = true := by decide
  have hnot : Text.stripPrefix? (a :: word) (' ' :: (a :: word ++ w' ++ q)) = none := by
    refine stripPrefix?_of_ne ?_ ..
    intro hac
    rw [hac, hspace] at ha
    cases ha
  have hwpass : Passes (' ' :: a :: word) 0 w (' ' :: (a :: word ++ w' ++ q)) :=
    Passes.of_blank ha hw hnot 0
  have hwclosed : Closed w := (NoParens.of_blank hw).closed
  have htrim : Text.trim ((w.reverse ++ (p.reverse ++ [])).reverse) = p := by
    rw [List.append_nil, List.reverse_append, List.reverse_reverse, List.reverse_reverse]
    exact Text.trim_padded_right hpsolid hw
  have htrim' : Text.trim (w' ++ q) = q := Text.trim_padded_left hw' hqsolid
  have hmatch : Text.stripPrefix? (' ' :: a :: word) (' ' :: a :: word ++ (w' ++ q))
      = some (w' ++ q) := Text.stripPrefix?_append ..
  have hdepth : parenDepth 0 ' ' = 0 := rfl
  have h1 := hp []
  have h2 := hwpass (p.reverse ++ [])
  rw [hclosed.depthAfter_eq] at h1
  rw [hwclosed.depthAfter_eq] at h2
  simp only [List.append_assoc, List.cons_append] at h1 h2 hmatch ⊢
  rw [splitTopLevel, h1, h2, splitTopLevelFrom, hmatch]
  dsimp only
  rw [if_pos ⟨hdepth, by rw [htrim]; exact hpsolid.ne_nil, by rw [htrim']; exact hqsolid.ne_nil⟩,
    htrim, htrim']

end Bergshamra
