import Bergshamra.Proof.Latin1

/-!
# Plaintext in its place

Where the plaintext counts as XML it is rewritten, put between what stands before
and after the EncryptedData, and rewritten again. Bytes that come out as they went
in were not touched by any of it. Every rewriter only ever makes the text shorter,
so that the ones that leave a text as it is are those with nothing to do
(`outputBytes_eq_self_iff`). And none of them removes what opens a tag: what is put
between other markup has more tags than it had (`opens`), and is not the same.
-/

namespace Bergshamra

/-! ## What opens a tag -/

/-- Does something other than `/` come next, after blanks? -/
def opensNext (s : List UInt8) : Bool :=
  (s.dropWhile (fun b => b == asciiByte ' ')).head?.any (fun b => b != asciiByte '/')

/-- How often `<` opens something other than a closing tag. -/
def opens : List UInt8 → Nat
  | [] => 0
  | b :: rest => (if b = asciiByte '<' ∧ opensNext rest = true then 1 else 0) + opens rest

/-- `t` opens at least what `s` opens, behind a `<` too. -/
structure OpensMore (s t : List UInt8) : Prop where
  count : opens s ≤ opens t
  next : opensNext s = true → opensNext t = true

@[simp] theorem opensNext_nil : opensNext [] = false := rfl

theorem opensNext_cons (b : UInt8) (s : List UInt8) :
    opensNext (b :: s) = if b = asciiByte ' ' then opensNext s else b != asciiByte '/' := by
  unfold opensNext
  by_cases hb : b = asciiByte ' '
  · rw [if_pos hb, List.dropWhile_cons_of_pos (by simpa using hb)]
  · rw [if_neg hb, List.dropWhile_cons_of_neg (by simpa using hb), List.head?_cons,
      Option.any_some]

theorem opens_cons_of_ne {b : UInt8} (h : b ≠ asciiByte '<') (s : List UInt8) :
    opens (b :: s) = opens s := by
  rw [opens, if_neg (fun hb => h hb.1), Nat.zero_add]

theorem opens_append_of_not_mem {w : List UInt8} (h : asciiByte '<' ∉ w) (s : List UInt8) :
    opens (w ++ s) = opens s := by
  induction w with
  | nil => rfl
  | cons b w ih =>
      rw [List.mem_cons, not_or] at h
      rw [List.cons_append, opens_cons_of_ne (Ne.symm h.1), ih h.2]

theorem OpensMore.refl (s : List UInt8) : OpensMore s s := ⟨le_refl _, id⟩

theorem OpensMore.cons {s t : List UInt8} (h : OpensMore s t) (b : UInt8) :
    OpensMore (b :: s) (b :: t) := by
  constructor
  · rw [opens, opens]
    have hcount := h.count
    by_cases hb : b = asciiByte '<' ∧ opensNext s = true
    · rw [if_pos hb, if_pos ⟨hb.1, h.next hb.2⟩]
      omega
    · rw [if_neg hb]
      omega
  · rw [opensNext_cons, opensNext_cons]
    split
    · exact h.next
    · exact id

theorem OpensMore.trans {s t u : List UInt8} (h : OpensMore s t) (h' : OpensMore t u) :
    OpensMore s u :=
  ⟨h.count.trans h'.count, h'.next ∘ h.next⟩

theorem opensNext_append {s : List UInt8} (h : opensNext s = true) (t : List UInt8) :
    opensNext (s ++ t) = true := by
  induction s with
  | nil => cases h
  | cons b s ih =>
      rw [opensNext_cons] at h
      rw [List.cons_append, opensNext_cons]
      split at h
      · rw [if_pos ‹_›]
        exact ih h
      · rwa [if_neg ‹_›]

/-- Nothing is closed by what follows. -/
theorem opens_append (s t : List UInt8) : opens s + opens t ≤ opens (s ++ t) := by
  induction s with
  | nil => rw [opens, Nat.zero_add, List.nil_append]
  | cons b s ih =>
      rw [List.cons_append, opens, opens]
      by_cases hb : b = asciiByte '<' ∧ opensNext s = true
      · rw [if_pos hb, if_pos ⟨hb.1, opensNext_append hb.2 t⟩]
        omega
      · rw [if_neg hb]
        omega

/-! ## Line ends -/

theorem normalizeLineEndings_crlf (s : List UInt8) :
    normalizeLineEndings (asciiByte '\r' :: asciiByte '\n' :: s)
      = asciiByte '\n' :: normalizeLineEndings s := by
  rw [normalizeLineEndings.eq_def]
  dsimp only
  rw [if_pos rfl, if_pos rfl]

theorem normalizeLineEndings_cr {c : UInt8} (hc : c ≠ asciiByte '\n') (s : List UInt8) :
    normalizeLineEndings (asciiByte '\r' :: c :: s)
      = asciiByte '\n' :: normalizeLineEndings (c :: s) := by
  rw [normalizeLineEndings.eq_def]
  dsimp only
  rw [if_pos rfl, if_neg hc]

theorem normalizeLineEndings_of_ne {b : UInt8} (hb : b ≠ asciiByte '\r') (s : List UInt8) :
    normalizeLineEndings (b :: s) = b :: normalizeLineEndings s := by
  rw [normalizeLineEndings.eq_def]
  dsimp only
  rw [if_neg hb]

theorem normalizeLineEndings_length_le (s : List UInt8) :
    (normalizeLineEndings s).length ≤ s.length := by
  induction s using normalizeLineEndings.induct with
  | case1 => exact le_refl _
  | case2 s ih =>
      rw [normalizeLineEndings_crlf, List.length_cons, List.length_cons, List.length_cons]
      omega
  | case3 c s hc ih =>
      rw [normalizeLineEndings_cr hc, List.length_cons, List.length_cons]
      omega
  | case4 => exact le_refl _
  | case5 b s hb ih =>
      rw [normalizeLineEndings_of_ne hb, List.length_cons, List.length_cons]
      omega

theorem not_mem_normalizeLineEndings (s : List UInt8) :
    asciiByte '\r' ∉ normalizeLineEndings s := by
  have hlf : asciiByte '\r' ≠ asciiByte '\n' := by decide
  induction s using normalizeLineEndings.induct with
  | case1 => simp [normalizeLineEndings]
  | case2 s ih =>
      rw [normalizeLineEndings_crlf, List.mem_cons, not_or]
      exact ⟨hlf, ih⟩
  | case3 c s hc ih =>
      rw [normalizeLineEndings_cr hc, List.mem_cons, not_or]
      exact ⟨hlf, ih⟩
  | case4 => exact fun h => hlf (List.mem_singleton.mp h)
  | case5 b s hb ih =>
      rw [normalizeLineEndings_of_ne hb, List.mem_cons, not_or]
      exact ⟨Ne.symm hb, ih⟩

theorem normalizeLineEndings_eq {data : List UInt8} (h : asciiByte '\r' ∉ data) :
    normalizeLineEndings data = data := by
  induction data with
  | nil => rfl
  | cons b rest ih =>
      rw [List.mem_cons, not_or] at h
      rw [normalizeLineEndings_of_ne (Ne.symm h.1), ih h.2]

/-- A byte that neither opens a tag nor hides what comes next. -/
theorem OpensMore.drop {b : UInt8} {s t : List UInt8} (hb : b ≠ asciiByte '<')
    (h : OpensMore s t) (hnext : opensNext t = true) : OpensMore (b :: s) t :=
  ⟨by rw [opens_cons_of_ne hb]; exact h.count, fun _ => hnext⟩

theorem opensMore_normalizeLineEndings (s : List UInt8) : OpensMore s (normalizeLineEndings s) := by
  have hcr : asciiByte '\r' ≠ asciiByte '<' := by decide
  have hnext : ∀ t, opensNext (asciiByte '\n' :: t) = true := by
    intro t
    rw [opensNext_cons, if_neg (by decide)]
    decide
  have hcount : ∀ t, opens (asciiByte '\n' :: t) = opens t := opens_cons_of_ne (by decide)
  induction s using normalizeLineEndings.induct with
  | case1 => exact .refl []
  | case2 s ih =>
      rw [normalizeLineEndings_crlf]
      exact (ih.cons _).drop hcr (hnext _)
  | case3 c s hc ih =>
      rw [normalizeLineEndings_cr hc]
      refine .drop hcr ⟨?_, fun _ => hnext _⟩ (hnext _)
      rw [hcount]
      exact ih.count
  | case4 => exact .drop hcr ⟨Nat.zero_le _, fun h => by cases h⟩ (hnext [])
  | case5 b s hb ih =>
      rw [normalizeLineEndings_of_ne hb]
      exact ih.cons b

/-! ## Empty elements -/

/-- What a name ends with, where something follows it. -/
theorem takeWhile_append_gt {s : List UInt8}
    (h : (s.takeWhile (fun b => b != asciiByte '>')).length < s.length) :
    ∃ rest, s = s.takeWhile (fun b => b != asciiByte '>') ++ asciiByte '>' :: rest := by
  induction s with
  | nil => exact absurd h (Nat.not_lt_zero _)
  | cons b s ih =>
      by_cases hb : b = asciiByte '>'
      · refine ⟨s, ?_⟩
        rw [List.takeWhile_cons_of_neg (by simp [hb]), List.nil_append, hb]
      · rw [List.takeWhile_cons_of_pos (by simpa using hb)] at h ⊢
        obtain ⟨rest, hrest⟩ := ih (by simpa using h)
        exact ⟨rest, by rw [List.cons_append, ← hrest]⟩

/-- What is found where a closing tag is joined to the tag before it. -/
structure FoundEmpty (seen s : List UInt8) (n : Nat) : Prop where
  closing : ∃ name rest, name.length = n ∧ asciiByte '<' ∉ name
    ∧ s = asciiByte '>' :: asciiByte '<' :: asciiByte '/' :: (name ++ asciiByte '>' :: rest)
  named : (seen.takeWhile (fun b => b != asciiByte '<')).reverse.takeWhile
    (fun b => !endsTagName b) ≠ []

theorem emptyElement?_eq_some {seen s : List UInt8} {n : Nat} (h : emptyElement? seen s = some n) :
    FoundEmpty seen s n := by
  rw [emptyElement?.eq_def] at h
  split at h
  next c₀ c₁ c₂ rest =>
      split at h
      next hc =>
          obtain ⟨rfl, rfl, rfl⟩ := hc
          dsimp only at h
          split at h
          next hname =>
              obtain ⟨hlen, hne, hall, -, -, heq⟩ := hname
              obtain ⟨rest', hrest⟩ := takeWhile_append_gt hlen
              rw [Option.some.injEq] at h
              refine ⟨⟨_, rest', h, ?_, by rw [← hrest]⟩, heq ▸ hne⟩
              intro hmem
              have := List.all_eq_true.mp hall _ hmem
              simp at this
          next => cases h
      next => cases h
  next => cases h

/-- No element is written with a closing tag that holds nothing. -/
def NoEmptyElement (seen s : List UInt8) : Prop :=
  ∀ before rest, s = before ++ rest → emptyElement? (before.reverse ++ seen) rest = none

theorem noEmptyElement_cons {seen rest : List UInt8} {b : UInt8} :
    NoEmptyElement seen (b :: rest)
      ↔ emptyElement? seen (b :: rest) = none ∧ NoEmptyElement (b :: seen) rest := by
  constructor
  · intro h
    refine ⟨h [] _ rfl, ?_⟩
    intro before rest' heq
    have := h (b :: before) rest' (by rw [heq, List.cons_append])
    rwa [List.reverse_cons, List.append_assoc, List.singleton_append] at this
  · rintro ⟨hb, hrest⟩ before rest' heq
    cases before with
    | nil =>
        rw [List.nil_append] at heq
        rw [← heq]
        exact hb
    | cons b' before =>
        rw [List.cons_append, List.cons.injEq] at heq
        obtain ⟨rfl, heq⟩ := heq
        rw [List.reverse_cons, List.append_assoc, List.singleton_append]
        exact hrest before rest' heq

theorem normalizeEmptyFrom_skip (seen : List UInt8) (n : Nat) (b : UInt8) (rest : List UInt8) :
    normalizeEmptyFrom seen (n + 1) (b :: rest) = normalizeEmptyFrom (b :: seen) n rest := rfl

theorem normalizeEmptyFrom_found {seen rest : List UInt8} {b : UInt8} {n : Nat}
    (h : emptyElement? seen (b :: rest) = some n) :
    normalizeEmptyFrom seen 0 (b :: rest)
      = asciiByte '/' :: asciiByte '>' :: normalizeEmptyFrom (b :: seen) (n + 3) rest := by
  rw [normalizeEmptyFrom]
  simp only [h]

theorem normalizeEmptyFrom_kept {seen rest : List UInt8} {b : UInt8}
    (h : emptyElement? seen (b :: rest) = none) :
    normalizeEmptyFrom seen 0 (b :: rest) = b :: normalizeEmptyFrom (b :: seen) 0 rest := by
  rw [normalizeEmptyFrom]
  simp only [h]

theorem normalizeEmptyFrom_length_le (seen : List UInt8) (skip : Nat) (s : List UInt8) :
    (normalizeEmptyFrom seen skip s).length ≤ s.length - skip := by
  induction seen, skip, s using normalizeEmptyFrom.induct with
  | case1 seen skip => exact Nat.zero_le _
  | case2 seen b rest n ih =>
      rw [normalizeEmptyFrom_skip, List.length_cons]
      omega
  | case3 seen b rest n hfound ih =>
      obtain ⟨name, rest', rfl, -, heq⟩ := (emptyElement?_eq_some hfound).closing
      have hlen := congrArg List.length heq
      rw [normalizeEmptyFrom_found hfound]
      simp only [List.length_cons, List.length_append] at hlen ⊢
      omega
  | case4 seen b rest hkept ih =>
      rw [normalizeEmptyFrom_kept hkept, List.length_cons, List.length_cons]
      omega

theorem normalizeEmptyFrom_eq {seen s : List UInt8} (h : NoEmptyElement seen s) :
    normalizeEmptyFrom seen 0 s = s := by
  induction s generalizing seen with
  | nil => rfl
  | cons b rest ih =>
      obtain ⟨hkept, hrest⟩ := noEmptyElement_cons.mp h
      rw [normalizeEmptyFrom_kept hkept, ih hrest]

/-- The text gets shorter where there is such an element. -/
theorem normalizeEmptyFrom_shorter {seen s : List UInt8} (h : ¬ NoEmptyElement seen s) :
    (normalizeEmptyFrom seen 0 s).length < s.length := by
  induction s generalizing seen with
  | nil =>
      refine absurd ?_ h
      intro before rest heq
      rw [(List.append_eq_nil_iff.mp heq.symm).2]
      rfl
  | cons b rest ih =>
      cases hfound : emptyElement? seen (b :: rest) with
      | none =>
          have hrest : ¬ NoEmptyElement (b :: seen) rest :=
            fun hr => h (noEmptyElement_cons.mpr ⟨hfound, hr⟩)
          rw [normalizeEmptyFrom_kept hfound, List.length_cons, List.length_cons]
          exact Nat.succ_lt_succ (ih hrest)
      | some n =>
          obtain ⟨name, rest', rfl, -, heq⟩ := (emptyElement?_eq_some hfound).closing
          have hle := normalizeEmptyFrom_length_le (b :: seen) (name.length + 3) rest
          have hlen := congrArg List.length heq
          rw [normalizeEmptyFrom_found hfound]
          simp only [List.length_cons, List.length_append] at hlen ⊢
          omega

/-- Was `<` the last byte, blanks apart? -/
def afterLt (seen : List UInt8) : Prop :=
  (seen.dropWhile (fun b => b == asciiByte ' ')).head? = some (asciiByte '<')

theorem afterLt_cons {b : UInt8} {seen : List UInt8} (h : afterLt (b :: seen)) :
    b = asciiByte '<' ∨ b = asciiByte ' ' ∧ afterLt seen := by
  unfold afterLt at h ⊢
  by_cases hb : b = asciiByte ' '
  · rw [List.dropWhile_cons_of_pos (by simpa using hb)] at h
    exact Or.inr ⟨hb, h⟩
  · rw [List.dropWhile_cons_of_neg (by simpa using hb), List.head?_cons, Option.some.injEq] at h
    exact Or.inl h

/-- Right behind `<` there is no tag to be closed. -/
theorem not_afterLt_of_found {seen s : List UInt8} {n : Nat} (h : FoundEmpty seen s n) :
    ¬ afterLt seen := by
  have hblank : ∀ l : List UInt8, afterLt l →
      ∀ b ∈ l.takeWhile (fun b => b != asciiByte '<'), endsTagName b = true := by
    intro l
    induction l with
    | nil => simp
    | cons b l ih =>
        intro hl b' hb'
        rcases afterLt_cons hl with rfl | ⟨rfl, hl⟩
        · rw [List.takeWhile_cons_of_neg (by simp)] at hb'
          cases hb'
        · rw [List.takeWhile_cons_of_pos (by decide), List.mem_cons] at hb'
          rcases hb' with rfl | hb'
          · decide
          · exact ih hl b' hb'
  intro hlt
  apply h.named
  cases htag : (seen.takeWhile (fun b => b != asciiByte '<')).reverse with
  | nil => rfl
  | cons b tag =>
      have hmem : b ∈ seen.takeWhile (fun b => b != asciiByte '<') := by
        rw [← List.mem_reverse, htag]
        exact List.mem_cons_self
      rw [List.takeWhile_cons_of_neg (by simp [hblank seen hlt b hmem])]

/-- Nothing that opens a tag is left out, and where a `<` came before, the same comes next. -/
theorem opens_normalizeEmptyFrom (seen : List UInt8) (skip : Nat) (s : List UInt8) :
    opens (s.drop skip) ≤ opens (normalizeEmptyFrom seen skip s)
      ∧ (skip = 0 → afterLt seen → opensNext s = true →
        opensNext (normalizeEmptyFrom seen skip s) = true) := by
  induction seen, skip, s using normalizeEmptyFrom.induct with
  | case1 seen skip =>
      rw [List.drop_nil]
      exact ⟨Nat.zero_le _, fun _ _ h => h⟩
  | case2 seen b rest n ih =>
      exact ⟨ih.1, fun h => absurd h (Nat.succ_ne_zero n)⟩
  | case3 seen b rest n hfound ih =>
      have hf := emptyElement?_eq_some hfound
      refine ⟨?_, fun _ hlt => absurd hlt (not_afterLt_of_found hf)⟩
      obtain ⟨name, rest', rfl, hname, heq⟩ := hf.closing
      have hdrop : rest.drop (name.length + 3) = rest' := by
        rw [List.cons.injEq] at heq
        rw [heq.2]
        simp [List.drop_append]
      have hgt : asciiByte '>' ≠ asciiByte '<' := by decide
      have hslash : asciiByte '/' ≠ asciiByte '<' := by decide
      -- the closing tag that is left out opened nothing
      have hopens : opens (b :: rest) = opens rest' := by
        rw [heq, opens_cons_of_ne hgt, opens, if_neg, Nat.zero_add, opens_cons_of_ne hslash,
          opens_append_of_not_mem hname, opens_cons_of_ne hgt]
        rintro ⟨-, hnext⟩
        rw [opensNext_cons, if_neg (by decide)] at hnext
        simp at hnext
      rw [normalizeEmptyFrom_found hfound, List.drop_zero, hopens, opens_cons_of_ne hslash,
        opens_cons_of_ne hgt, ← hdrop]
      exact ih.1
  | case4 seen b rest hkept ih =>
      rw [normalizeEmptyFrom_kept hkept, List.drop_zero]
      constructor
      · rw [opens, opens]
        have hcount := ih.1
        rw [List.drop_zero] at hcount
        by_cases hb : b = asciiByte '<' ∧ opensNext rest = true
        · -- what came next comes next still, since nothing is joined to a bare `<`
          have hlt : afterLt (b :: seen) := by
            rw [afterLt, hb.1, List.dropWhile_cons_of_neg (by decide), List.head?_cons]
          rw [if_pos hb, if_pos ⟨hb.1, ih.2 rfl hlt hb.2⟩]
          omega
        · rw [if_neg hb]
          omega
      · intro _ hlt hnext
        rw [opensNext_cons] at hnext ⊢
        by_cases hb : b = asciiByte ' '
        · rw [if_pos hb] at hnext ⊢
          refine ih.2 rfl ?_ hnext
          rw [afterLt, List.dropWhile_cons_of_pos (by simpa using hb)]
          exact hlt
        · rw [if_neg hb] at hnext ⊢
          exact hnext

/-! ## Blanks at the end of a tag -/

/-- How one byte moves the scan for blanks. -/
def TagState.step (st : TagState) (b : UInt8) : TagState :=
  match st with
  | .value quote => if b = quote then .tag else .value quote
  | .text => if b = asciiByte '<' then .tag else .text
  | .tag =>
      if b = asciiByte '"' ∨ b = asciiByte apostrophe then .value b
      else if b = asciiByte '>' then .text
      else .tag

/-- No blank stands right before the `/>` of a tag. -/
def NoBlank (st : TagState) (s : List UInt8) : Prop :=
  ∀ before rest, s = before ++ asciiByte ' ' :: asciiByte '/' :: asciiByte '>' :: rest →
    before.foldl TagState.step st ≠ .tag

/-- The blank of a tag that is left out. -/
def Blank (st : TagState) (b : UInt8) (rest : List UInt8) : Prop :=
  st = .tag ∧ b = asciiByte ' ' ∧ [asciiByte '/', asciiByte '>'].isPrefixOf rest = true

theorem normalizeSpaceFrom_blank {st : TagState} {b : UInt8} {rest : List UInt8}
    (h : Blank st b rest) :
    normalizeSpaceFrom st (b :: rest) = normalizeSpaceFrom .tag rest := by
  obtain ⟨rfl, rfl, hrest⟩ := h
  have hquote : ¬ (asciiByte ' ' = asciiByte '"' ∨ asciiByte ' ' = asciiByte apostrophe) := by decide
  have hgt : asciiByte ' ' ≠ asciiByte '>' := by decide
  rw [normalizeSpaceFrom, if_neg hquote, if_neg hgt, if_pos ⟨rfl, hrest⟩]

theorem normalizeSpaceFrom_kept {st : TagState} {b : UInt8} {rest : List UInt8}
    (h : ¬ Blank st b rest) :
    normalizeSpaceFrom st (b :: rest) = b :: normalizeSpaceFrom (st.step b) rest := by
  cases st with
  | value quote => rfl
  | text => rfl
  | tag =>
      have hblank : ¬ (b = asciiByte ' ' ∧ [asciiByte '/', asciiByte '>'].isPrefixOf rest = true) :=
        fun hb => h ⟨rfl, hb⟩
      rw [normalizeSpaceFrom, TagState.step, if_neg hblank]
      split
      · rfl
      · split
        · rfl
        · rfl

theorem isPrefixOf_close {rest : List UInt8} :
    [asciiByte '/', asciiByte '>'].isPrefixOf rest = true
      ↔ ∃ rest', rest = asciiByte '/' :: asciiByte '>' :: rest' := by
  rw [List.isPrefixOf_iff_prefix]
  constructor
  · rintro ⟨rest', rfl⟩
    exact ⟨rest', rfl⟩
  · rintro ⟨rest', rfl⟩
    exact ⟨rest', rfl⟩

theorem noBlank_cons {st : TagState} {b : UInt8} {rest : List UInt8} :
    NoBlank st (b :: rest) ↔ ¬ Blank st b rest ∧ NoBlank (st.step b) rest := by
  constructor
  · intro h
    constructor
    · rintro ⟨hst, rfl, hclose⟩
      obtain ⟨rest', rfl⟩ := isPrefixOf_close.mp hclose
      exact h [] rest' rfl hst
    · intro before rest' heq
      exact h (b :: before) rest' (by rw [heq, List.cons_append])
  · rintro ⟨hb, hrest⟩ before rest' heq
    cases before with
    | nil =>
        rw [List.nil_append, List.cons.injEq] at heq
        exact fun hst => hb ⟨hst, heq.1, isPrefixOf_close.mpr ⟨rest', heq.2⟩⟩
    | cons b' before =>
        rw [List.cons_append, List.cons.injEq] at heq
        obtain ⟨rfl, heq⟩ := heq
        exact hrest before rest' heq

theorem noBlank_nil (st : TagState) : NoBlank st [] := by
  intro before rest heq
  cases before with
  | nil => cases heq
  | cons => cases heq

theorem normalizeSpaceFrom_eq {st : TagState} {s : List UInt8} (h : NoBlank st s) :
    normalizeSpaceFrom st s = s := by
  induction s generalizing st with
  | nil => rfl
  | cons b rest ih =>
      obtain ⟨hb, hrest⟩ := noBlank_cons.mp h
      rw [normalizeSpaceFrom_kept hb, ih hrest]

theorem normalizeSpaceFrom_length_le (st : TagState) (s : List UInt8) :
    (normalizeSpaceFrom st s).length ≤ s.length := by
  induction s generalizing st with
  | nil => exact le_refl _
  | cons b rest ih =>
      by_cases hb : Blank st b rest
      · rw [normalizeSpaceFrom_blank hb]
        exact (ih .tag).trans (Nat.le_succ _)
      · rw [normalizeSpaceFrom_kept hb]
        exact Nat.succ_le_succ (ih _)

theorem normalizeSpaceFrom_shorter {st : TagState} {s : List UInt8} (h : ¬ NoBlank st s) :
    (normalizeSpaceFrom st s).length < s.length := by
  induction s generalizing st with
  | nil => exact absurd (noBlank_nil st) h
  | cons b rest ih =>
      by_cases hb : Blank st b rest
      · rw [normalizeSpaceFrom_blank hb]
        exact Nat.lt_succ_of_le (normalizeSpaceFrom_length_le .tag rest)
      · rw [normalizeSpaceFrom_kept hb]
        exact Nat.succ_lt_succ (ih (fun hrest => h (noBlank_cons.mpr ⟨hb, hrest⟩)))

theorem opensMore_normalizeSpaceFrom (st : TagState) (s : List UInt8) :
    OpensMore s (normalizeSpaceFrom st s) := by
  induction s generalizing st with
  | nil => exact .refl []
  | cons b rest ih =>
      by_cases hb : Blank st b rest
      · rw [normalizeSpaceFrom_blank hb]
        have hlt : asciiByte ' ' ≠ asciiByte '<' := by decide
        rw [hb.2.1]
        refine ⟨?_, ?_⟩
        · rw [opens_cons_of_ne hlt]
          exact (ih .tag).count
        · rw [opensNext_cons, if_pos rfl]
          exact (ih .tag).next
      · rw [normalizeSpaceFrom_kept hb]
        exact (ih _).cons b

/-! ## The rewriters together -/

theorem normalizeEmptyElements_length_le (data : List UInt8) :
    (normalizeEmptyElements data).length ≤ data.length := by
  rw [normalizeEmptyElements]
  split
  · exact normalizeEmptyFrom_length_le [] 0 data
  · exact le_refl _

theorem normalizeSelfClosingSpace_length_le (data : List UInt8) :
    (normalizeSelfClosingSpace data).length ≤ data.length := by
  rw [normalizeSelfClosingSpace]
  split
  · exact normalizeSpaceFrom_length_le .text data
  · exact le_refl _

/-- A rewriter that shortens what it changes has changed nothing where the length is kept. -/
theorem kept_of_length {P : Prop} {data out : List UInt8} (hfixed : P → out = data)
    (hshorter : ¬ P → out.length < data.length) (h : data.length ≤ out.length) :
    out = data ∧ P := by
  have hp : P := by
    by_contra hp
    exact absurd h (Nat.not_le_of_lt (hshorter hp))
  exact ⟨hfixed hp, hp⟩

theorem normalizeEmptyElements_eq {data : List UInt8}
    (h : data.length ≤ (normalizeEmptyElements data).length) :
    normalizeEmptyElements data = data ∧ ((utf8? data).isSome = true → NoEmptyElement [] data) := by
  rw [normalizeEmptyElements] at h ⊢
  split at h
  · obtain ⟨heq, hno⟩ := kept_of_length normalizeEmptyFrom_eq normalizeEmptyFrom_shorter h
    rw [if_pos ‹_›]
    exact ⟨heq, fun _ => hno⟩
  · rw [if_neg ‹_›]
    exact ⟨rfl, fun hutf => absurd hutf ‹_›⟩

theorem normalizeSelfClosingSpace_eq {data : List UInt8}
    (h : data.length ≤ (normalizeSelfClosingSpace data).length) :
    normalizeSelfClosingSpace data = data ∧ ((utf8? data).isSome = true → NoBlank .text data) := by
  rw [normalizeSelfClosingSpace] at h ⊢
  split at h
  · obtain ⟨heq, hno⟩ := kept_of_length normalizeSpaceFrom_eq normalizeSpaceFrom_shorter h
    rw [if_pos ‹_›]
    exact ⟨heq, fun _ => hno⟩
  · rw [if_neg ‹_›]
    exact ⟨rfl, fun hutf => absurd hutf ‹_›⟩

theorem opens_normalized (data : List UInt8) :
    opens data ≤ opens (normalizeSelfClosingSpace (normalizeEmptyElements data)) := by
  have hempty : opens data ≤ opens (normalizeEmptyElements data) := by
    rw [normalizeEmptyElements]
    split
    · exact (opens_normalizeEmptyFrom [] 0 data).1
    · exact le_refl _
  refine hempty.trans ?_
  rw [normalizeSelfClosingSpace]
  split
  · exact (opensMore_normalizeSpaceFrom .text _).count
  · exact le_refl _

/-- Behind blanks the bytes begin with a tag. -/
def StartsTag (data : List UInt8) : Prop :=
  ∃ s, utf8? data = some s ∧ Text.startsWith ['<'] (Text.trimStart s.toList) = true

/-- Behind blanks the bytes begin with an XML declaration. -/
def DeclaresXml (data : List UInt8) : Prop :=
  ∃ s, utf8? data = some s ∧ Text.startsWith "<?xml".toList (Text.trimStart s.toList) = true

/-- **There is nothing to rewrite**: no carriage return, no element that holds nothing and is not
closed at once, no blank at the end of a tag that is. -/
structure Tidy (data : List UInt8) : Prop where
  lines : asciiByte '\r' ∉ data
  elements : NoEmptyElement [] data
  blanks : NoBlank .text data

theorem startsWith_trimmed {pat : List Char} (hpat : Text.startsWith pat [] = false)
    (data : List UInt8) :
    Text.startsWith pat (((utf8? data).map (fun s => Text.trimStart s.toList)).getD []) = true
      ↔ ∃ s, utf8? data = some s ∧ Text.startsWith pat (Text.trimStart s.toList) = true := by
  cases utf8? data with
  | none => simp [hpat]
  | some s => simp

theorem outputBytes_of_tag {data : List UInt8} (h : StartsTag data) :
    outputBytes data
      = normalizeSelfClosingSpace (normalizeEmptyElements (normalizeLineEndings data)) := by
  rw [outputBytes]
  exact if_pos ((startsWith_trimmed (by decide) data).mpr h)

theorem outputBytes_of_not {data : List UInt8} (h : ¬ StartsTag data) : outputBytes data = data := by
  rw [outputBytes]
  exact if_neg (fun hs => h ((startsWith_trimmed (by decide) data).mp hs))

theorem outputBytes_length_le (data : List UInt8) : (outputBytes data).length ≤ data.length := by
  by_cases h : StartsTag data
  · rw [outputBytes_of_tag h]
    exact ((normalizeSelfClosingSpace_length_le _).trans (normalizeEmptyElements_length_le _)).trans
      (normalizeLineEndings_length_le data)
  · rw [outputBytes_of_not h]

theorem opens_outputBytes (data : List UInt8) : opens data ≤ opens (outputBytes data) := by
  by_cases h : StartsTag data
  · rw [outputBytes_of_tag h]
    exact (opensMore_normalizeLineEndings data).count.trans (opens_normalized _)
  · rw [outputBytes_of_not h]

/-- **Bytes that begin with a tag stay as they are exactly when there is nothing to rewrite.** -/
theorem outputBytes_eq_self_iff {data : List UInt8} (h : StartsTag data) :
    outputBytes data = data ↔ Tidy data := by
  have hutf : (utf8? data).isSome = true := by
    obtain ⟨s, hs, -⟩ := h
    rw [hs, Option.isSome_some]
  rw [outputBytes_of_tag h]
  constructor
  · intro heq
    -- all that comes out has the length of the data, so no rewriter has done anything
    have hl := normalizeLineEndings_length_le data
    have he := normalizeEmptyElements_length_le (normalizeLineEndings data)
    have hs := normalizeSelfClosingSpace_length_le
      (normalizeEmptyElements (normalizeLineEndings data))
    have hlen := congrArg List.length heq
    obtain ⟨hsame, -⟩ := @normalizeEmptyElements_eq (normalizeLineEndings data) (by omega)
    rw [hsame] at heq hlen
    obtain ⟨hsame', hblanks⟩ := @normalizeSelfClosingSpace_eq (normalizeLineEndings data) (by omega)
    rw [hsame'] at heq
    obtain ⟨-, helements⟩ := @normalizeEmptyElements_eq data (by rw [← heq, hsame])
    rw [heq] at hblanks
    refine ⟨?_, helements hutf, hblanks hutf⟩
    rw [← heq]
    exact not_mem_normalizeLineEndings data
  · intro ht
    rw [normalizeLineEndings_eq ht.lines, normalizeEmptyElements, if_pos hutf,
      normalizeEmptyFrom_eq ht.elements, normalizeSelfClosingSpace, if_pos hutf,
      normalizeSpaceFrom_eq ht.blanks]

/-! ## The encoding -/

/-- A byte of a character beyond ASCII opens nothing and closes nothing. -/
theorem high_ne {b : UInt8} (h : 0x80 ≤ b.toNat) :
    b ≠ asciiByte '<' ∧ b ≠ asciiByte ' ' ∧ b ≠ asciiByte '/' := by
  have hlt : (asciiByte '<').toNat = 60 := by decide
  have hblank : (asciiByte ' ').toNat = 32 := by decide
  have hslash : (asciiByte '/').toNat = 47 := by decide
  refine ⟨?_, ?_, ?_⟩
  · rintro rfl
    omega
  · rintro rfl
    omega
  · rintro rfl
    omega

theorem opens_append_high {w : List UInt8} (h : ∀ b ∈ w, 0x80 ≤ b.toNat) (s : List UInt8) :
    opens (w ++ s) = opens s :=
  opens_append_of_not_mem (fun hmem => (high_ne (h _ hmem)).1 rfl) s

theorem opensNext_append_high {w : List UInt8} (hw : w ≠ []) (h : ∀ b ∈ w, 0x80 ≤ b.toNat)
    (s : List UInt8) : opensNext (w ++ s) = true := by
  cases w with
  | nil => exact absurd rfl hw
  | cons b w =>
      obtain ⟨-, hblank, hslash⟩ := high_ne (h b List.mem_cons_self)
      rw [List.cons_append, opensNext_cons, if_neg hblank, bne_iff_ne]
      exact hslash

theorem OpensMore.append {s t : List UInt8} (h : OpensMore s t) (w : List UInt8) :
    OpensMore (w ++ s) (w ++ t) := by
  induction w with
  | nil => exact h
  | cons b w ih => exact ih.cons b

theorem opensMore_latin1 (s : List Char) : OpensMore (Text.bytes s) (s.flatMap latin1Bytes) := by
  induction s with
  | nil => exact .refl []
  | cons c s ih =>
      rw [Text.bytes_cons, List.flatMap_cons]
      by_cases hc : IsLatin1Supplement c
      · have hbyte : latin1Bytes c = [c.val.toUInt8] := by rw [latin1Bytes, if_pos hc.2]
        have hval : c.val.toUInt8.toNat = c.toNat := by
          have hlt : c.toNat < 256 := by
            have := hc.2
            omega
          rw [UInt32.toNat_toUInt8]
          exact Nat.mod_eq_of_lt hlt
        have hone : ∀ b ∈ latin1Bytes c, 0x80 ≤ b.toNat := by
          intro b hb
          rw [hbyte, List.mem_singleton] at hb
          rw [hb, hval]
          exact hc.1
        -- two bytes become one, and neither the two nor the one are markup
        constructor
        · rw [opens_append_high (Text.utf8EncodeChar_high hc.1), opens_append_high hone]
          exact ih.count
        · intro _
          exact opensNext_append_high (by rw [hbyte]; simp) hone _
      · rw [latin1Bytes_eq hc]
        exact ih.append _

theorem opens_maybeConvertEncoding (data : List UInt8) :
    opens data ≤ opens (maybeConvertEncoding data) := by
  rw [maybeConvertEncoding]
  split
  · rw [utf8ToLatin1]
    cases hutf : utf8? data with
    | none => exact le_refl _
    | some s =>
        have hcount := (opensMore_latin1 s.toList).count
        rwa [bytes_of_utf8? hutf] at hcount
  · exact le_refl _

theorem maybeConvertEncoding_shorter {data : List UInt8} (h : Garbled data) :
    (maybeConvertEncoding data).length < data.length := by
  obtain ⟨hdecl, s, hutf, hsup⟩ := h
  have hlt := flatMap_latin1Bytes_shorter hsup
  rw [bytes_of_utf8? hutf] at hlt
  rw [maybeConvertEncoding, if_pos hdecl, utf8ToLatin1, hutf]
  exact hlt

/-! ## In place -/

/-- Nothing but a prolog stands before the EncryptedData, and nothing behind it. -/
def Alone (before after : List Char) : Prop :=
  (Text.trim before = [] ∨ isXmlProlog (Text.trim before) = true) ∧ Text.trim after = []

/-- A tag is opened in the text: an element's, a comment's or an instruction's. -/
def HasTag (s : List Char) : Prop :=
  ∃ front c back, s = front ++ '<' :: c :: back ∧ c ≠ '/' ∧ c ≠ ' '

instance (before after : List Char) : Decidable (Alone before after) :=
  inferInstanceAs (Decidable (_ ∧ _))

/-- What takes the place of the EncryptedData, with the text `before` and `after` around it. -/
def placedBytes (isOpaque : Bool) (before after : List Char) (plaintext : List UInt8) :
    List UInt8 :=
  if isOpaque then plaintext
  else if Alone before after then wholeDocument (Text.trim before) plaintext
  else normalizeSelfClosingSpace (normalizeEmptyElements
    (Text.bytes before ++ outputBytes plaintext ++ Text.bytes after))

/-- **Plaintext that comes out of its place as it went in.** -/
def PassesPlace (isOpaque : Bool) (before after : List Char) (data : List UInt8) : Prop :=
  (isOpaque = true
      ∨ Alone before after ∧ (StartsTag data → DeclaresXml data ∧ Tidy data))
    ∧ ¬ Garbled data

theorem opens_hasTag {s : List Char} (h : HasTag s) : 0 < opens (Text.bytes s) := by
  obtain ⟨front, c, back, rfl, hslash, hblank⟩ := h
  have hnext : opensNext (String.utf8EncodeChar c ++ Text.bytes back) = true := by
    -- beyond ASCII no byte of the character is a blank or a slash
    by_cases hc : c.toNat < 0x80
    · have hne : ∀ d : Char, d.toNat < 0x80 → c ≠ d → c.val.toUInt8 ≠ asciiByte d :=
        fun d hd hcd heq => hcd ((Text.byte_eq_iff hc hd).mp heq)
      rw [Text.utf8EncodeChar_ascii hc, List.singleton_append, opensNext_cons,
        if_neg (hne ' ' (by decide) hblank), bne_iff_ne]
      exact hne '/' (by decide) hslash
    · have hlen : String.utf8EncodeChar c ≠ [] := by
        intro hnil
        have hpos := Char.utf8Size_pos c
        rw [← String.length_utf8EncodeChar, hnil] at hpos
        exact absurd hpos (Nat.lt_irrefl 0)
      exact opensNext_append_high hlen (Text.utf8EncodeChar_high (Nat.le_of_not_lt hc)) _
  have hlt : String.utf8EncodeChar '<' = [asciiByte '<'] := by decide
  have hle := opens_append (Text.bytes front)
    (asciiByte '<' :: (String.utf8EncodeChar c ++ Text.bytes back))
  rw [opens, if_pos ⟨rfl, hnext⟩] at hle
  rw [Text.bytes_append, Text.bytes_cons, Text.bytes_cons, hlt, List.singleton_append]
  omega

/-- Among other markup there are more tags than the data has. -/
theorem convert_ne_of_opens {data placed : List UInt8} (h : opens data < opens placed) :
    maybeConvertEncoding placed ≠ data := by
  intro heq
  have hle := opens_maybeConvertEncoding placed
  rw [heq] at hle
  omega

/-- Alone in its document, plaintext with a declaration or without tags is the result. -/
theorem wholeDocument_of_declared {before : List Char} {data : List UInt8}
    (h : StartsTag data → DeclaresXml data) : wholeDocument before data = outputBytes data := by
  rw [wholeDocument]
  dsimp only
  refine if_neg ?_
  rw [Bool.and_eq_true, Bool.not_eq_true', startsWith_trimmed (by decide)]
  rintro ⟨hs, hno⟩
  rw [(startsWith_trimmed (by decide) data).mpr (h hs)] at hno
  cases hno

/-- Other markup gets a declaration. -/
theorem opens_wholeDocument (before : List Char) {data : List UInt8} (hs : StartsTag data)
    (hd : ¬ DeclaresXml data) : opens data < opens (wholeDocument before data) := by
  have hdecl : ∀ s : List Char, "<?xml".toList <+: s → 0 < opens (Text.bytes s) := by
    rintro s ⟨rest, rfl⟩
    exact opens_hasTag ⟨[], '?', "xml".toList ++ rest, rfl, by decide, by decide⟩
  have hno : Text.startsWith "<?xml".toList
      (((utf8? data).map (fun s => Text.trimStart s.toList)).getD []) = false := by
    rw [Bool.eq_false_iff]
    exact fun hx => hd ((startsWith_trimmed (by decide) data).mp hx)
  have hout := opens_outputBytes data
  rw [wholeDocument]
  dsimp only
  rw [(startsWith_trimmed (by decide) data).mpr hs, hno, Bool.not_false, Bool.and_true, if_pos rfl]
  -- the declaration opens one tag more
  have hresult : ∀ decl : List Char, 0 < opens (Text.bytes decl) →
      opens data < opens (Text.bytes decl ++ asciiByte '\n' :: outputBytes data) := by
    intro decl hpos
    have happ := opens_append (Text.bytes decl) (asciiByte '\n' :: outputBytes data)
    rw [opens_cons_of_ne (by decide)] at happ
    omega
  have hend : ∀ result : List UInt8, opens data < opens result →
      opens data < opens (if (outputBytes data).getLast? = some (asciiByte '\n') then result
        else result ++ [asciiByte '\n']) := by
    intro result hlt
    split
    · exact hlt
    · have := opens_append result [asciiByte '\n']
      omega
  refine hend _ (hresult _ ?_)
  split
  · exact hdecl _ (Text.startsWith_iff.mp ‹_›)
  · exact hdecl _ ⟨" version=\"1.0\"?>".toList, by decide⟩

/-- The conversion undoes no rewriting. -/
theorem convert_outputBytes_eq_iff {data : List UInt8} :
    maybeConvertEncoding (outputBytes data) = data
      ↔ (StartsTag data → Tidy data) ∧ ¬ Garbled data := by
  have hself : outputBytes data = data ↔ (StartsTag data → Tidy data) := by
    by_cases hs : StartsTag data
    · rw [outputBytes_eq_self_iff hs]
      exact ⟨fun ht _ => ht, fun ht => ht hs⟩
    · rw [outputBytes_of_not hs]
      exact ⟨fun _ h => absurd h hs, fun _ => rfl⟩
  rw [← hself]
  constructor
  · intro heq
    -- both make the text shorter, so neither has done anything
    have hclean : ¬ Garbled (outputBytes data) := by
      intro hg
      have hlt := maybeConvertEncoding_shorter hg
      have hle := outputBytes_length_le data
      rw [heq] at hlt
      omega
    rw [(maybeConvertEncoding_eq_self_iff _).mpr hclean] at heq
    rw [heq] at hclean
    exact ⟨heq, hclean⟩
  · rintro ⟨heq, hclean⟩
    rw [heq]
    exact (maybeConvertEncoding_eq_self_iff _).mpr hclean

/-- **Exactly these pass.** -/
theorem convert_placed_eq_iff {isOpaque : Bool} {before after : List Char} {data : List UInt8}
    (hmarkup : isOpaque = false → ¬ Alone before after → HasTag before ∨ HasTag after) :
    maybeConvertEncoding (placedBytes isOpaque before after data) = data
      ↔ PassesPlace isOpaque before after data := by
  rw [placedBytes, PassesPlace]
  cases isOpaque with
  | true =>
      rw [if_pos rfl, maybeConvertEncoding_eq_self_iff]
      exact ⟨fun h => ⟨Or.inl rfl, h⟩, fun h => h.2⟩
  | false =>
      rw [if_neg Bool.false_ne_true]
      by_cases halone : Alone before after
      · -- the plaintext is the document, and gets a declaration where it has none
        rw [if_pos halone]
        by_cases hdecl : StartsTag data → DeclaresXml data
        · rw [wholeDocument_of_declared hdecl, convert_outputBytes_eq_iff]
          constructor
          · rintro ⟨ht, hclean⟩
            exact ⟨Or.inr ⟨halone, fun hs => ⟨hdecl hs, ht hs⟩⟩, hclean⟩
          · rintro ⟨ho | ⟨-, h⟩, hclean⟩
            · cases ho
            · exact ⟨fun hs => (h hs).2, hclean⟩
        · rw [Classical.not_imp] at hdecl
          have hne := convert_ne_of_opens (opens_wholeDocument (Text.trim before) hdecl.1 hdecl.2)
          refine ⟨fun h => absurd h hne, ?_⟩
          rintro ⟨ho | ⟨-, h⟩, -⟩
          · cases ho
          · exact absurd (h hdecl.1).1 hdecl.2
      · -- the markup around it is in the result too
        rw [if_neg halone]
        have hne : maybeConvertEncoding (normalizeSelfClosingSpace (normalizeEmptyElements
            (Text.bytes before ++ outputBytes data ++ Text.bytes after))) ≠ data := by
          have hout := opens_outputBytes data
          have hfront := opens_append (Text.bytes before) (outputBytes data)
          have hback := opens_append (Text.bytes before ++ outputBytes data) (Text.bytes after)
          have hnorm := opens_normalized
            (Text.bytes before ++ outputBytes data ++ Text.bytes after)
          refine convert_ne_of_opens ?_
          rcases hmarkup rfl halone with h | h
          · have := opens_hasTag h
            omega
          · have := opens_hasTag h
            omega
        refine ⟨fun h => absurd h hne, ?_⟩
        rintro ⟨ho | ⟨h, -⟩, -⟩
        · cases ho
        · exact absurd h halone

end Bergshamra
