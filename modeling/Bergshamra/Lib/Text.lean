import Mathlib.Data.List.Infix

/-!
# Searching and splitting character sequences

The handful of string operations that hand-written scanners use, over lists of
characters: stripping a known beginning, splitting at the first occurrence of a
marker, trimming and splitting on white space. A slice taken at an index a
search returned is the corresponding half of a split here, so no index
arithmetic is left to get wrong.
-/

namespace Text

/-- What holds of the characters of a text is decided by going through these, not through all
characters there are. -/
instance decidableForallChar (s : List Char) (p : Char → Prop) [DecidablePred p] :
    Decidable (∀ c ∈ s, p c) := List.decidableBAll p s

/-- `str::strip_prefix`. -/
def stripPrefix? : List Char → List Char → Option (List Char)
  | [], s => some s
  | _ :: _, [] => none
  | c :: pat, d :: s => if c = d then stripPrefix? pat s else none

/-- `str::starts_with`. -/
def startsWith (pat s : List Char) : Bool := (stripPrefix? pat s).isSome

/-- Split at the first occurrence of `pat`: what is before it and what is after it. -/
def splitOnce (pat : List Char) : List Char → Option (List Char × List Char)
  | [] => if pat = [] then some ([], []) else none
  | c :: s =>
      match stripPrefix? pat (c :: s) with
      | some rest => some ([], rest)
      | none => (splitOnce pat s).map (fun r => (c :: r.1, r.2))

/-- `str::contains`. -/
def containsSub (pat s : List Char) : Bool := (splitOnce pat s).isSome

/-- `str::strip_suffix`. -/
def stripSuffix? (pat s : List Char) : Option (List Char) :=
  (stripPrefix? pat.reverse s.reverse).map List.reverse

/-- `str::ends_with`. -/
def endsWith (pat s : List Char) : Bool := (stripSuffix? pat s).isSome

/-- Everything up to and including the last `c`; empty when there is none. -/
def uptoLast (c : Char) (s : List Char) : List Char :=
  (s.reverse.dropWhile (fun d => d != c)).reverse

/-- `char::is_whitespace`: the Unicode property White_Space. -/
def isWhitespace (c : Char) : Bool :=
  let n := c.toNat
  (0x9 ≤ n && n ≤ 0xD) || n == 0x20 || n == 0x85 || n == 0xA0 || n == 0x1680
    || (0x2000 ≤ n && n ≤ 0x200A) || n == 0x2028 || n == 0x2029 || n == 0x202F
    || n == 0x205F || n == 0x3000

/-- `str::trim_start`. -/
def trimStart (s : List Char) : List Char := s.dropWhile isWhitespace

/-- `str::trim`. -/
def trim (s : List Char) : List Char := (trimStart (trimStart s).reverse).reverse

/-- `str::trim_matches` with one character. -/
def trimMatches (c : Char) (s : List Char) : List Char :=
  ((s.dropWhile (fun d => d == c)).reverse.dropWhile (fun d => d == c)).reverse

/-- `str::split` with one character. -/
def splitOn (c : Char) : List Char → List (List Char)
  | [] => [[]]
  | d :: s =>
      if d == c then [] :: splitOn c s
      else
        match splitOn c s with
        | run :: runs => (d :: run) :: runs
        | [] => [[d]]

/-- The maximal runs of characters that fail `p`, in order. -/
def splitRuns (p : Char → Bool) : List Char → List (List Char)
  | [] => []
  | c :: s =>
      if p c then splitRuns p s
      else
        match s, splitRuns p s with
        | d :: _, run :: runs => if p d then [c] :: run :: runs else (c :: run) :: runs
        | _, runs => [c] :: runs

/-- `str::split_whitespace`. -/
def splitWhitespace (s : List Char) : List (List Char) := splitRuns isWhitespace s

/-- `split_whitespace().collect::<Vec<_>>().join(" ")`. -/
def normalizeSpace (s : List Char) : List Char := [' '].intercalate (splitWhitespace s)

/-- The characters whose UTF-8 encoding takes the bytes up to `n`, and the rest; nothing where
`n` is past the end or inside a character. -/
def splitBytes : Nat → List Char → Option (List Char × List Char)
  | 0, s => some ([], s)
  | _ + 1, [] => none
  | n + 1, c :: s =>
      if n + 1 < c.utf8Size then none
      else (splitBytes (n + 1 - c.utf8Size) s).map (fun p => (c :: p.1, p.2))
termination_by _ s => s.length

theorem stripPrefix?_eq_some {pat s rest : List Char} :
    stripPrefix? pat s = some rest ↔ s = pat ++ rest := by
  induction pat generalizing s with
  | nil => simp [stripPrefix?, eq_comm]
  | cons c pat ih =>
      cases s with
      | nil => simp [stripPrefix?]
      | cons d s =>
          rw [stripPrefix?]
          by_cases h : c = d
          · subst h; simp [ih]
          · simp [h, Ne.symm h]

theorem startsWith_iff {pat s : List Char} : startsWith pat s = true ↔ pat <+: s := by
  rw [startsWith, Option.isSome_iff_exists]
  constructor
  · rintro ⟨rest, h⟩
    exact ⟨rest, (stripPrefix?_eq_some.mp h).symm⟩
  · rintro ⟨rest, h⟩
    exact ⟨rest, stripPrefix?_eq_some.mpr h.symm⟩

theorem splitOnce_eq_some {pat s before after : List Char}
    (h : splitOnce pat s = some (before, after)) : s = before ++ pat ++ after := by
  induction s generalizing before with
  | nil =>
      rw [splitOnce] at h
      split at h
      · rename_i hp
        simp only [Option.some.injEq, Prod.mk.injEq] at h
        simp [← h.1, ← h.2, hp]
      · simp at h
  | cons c s ih =>
      rw [splitOnce] at h
      split at h
      · rename_i rest hr
        simp only [Option.some.injEq, Prod.mk.injEq] at h
        rw [stripPrefix?_eq_some] at hr
        rw [hr, ← h.1, ← h.2, List.nil_append]
      · rw [Option.map_eq_some_iff] at h
        obtain ⟨⟨b, a⟩, hs, he⟩ := h
        simp only [Prod.mk.injEq] at he
        obtain ⟨rfl, rfl⟩ := he
        rw [ih hs]
        simp

/-- What does not hold the first character of the marker is passed over. -/
theorem splitOnce_append {p : Char} {pat before s : List Char} (h : p ∉ before) :
    splitOnce (p :: pat) (before ++ s)
      = (splitOnce (p :: pat) s).map (fun r => (before ++ r.1, r.2)) := by
  induction before with
  | nil => simp
  | cons c before ih =>
      rw [List.mem_cons, not_or] at h
      have hstrip : stripPrefix? (p :: pat) (c :: (before ++ s)) = none := by
        rw [stripPrefix?, if_neg h.1]
      rw [List.cons_append, splitOnce, hstrip, ih h.2, Option.map_map]
      rfl

theorem splitOnce_eq_none {p : Char} {pat s : List Char} (h : p ∉ s) :
    splitOnce (p :: pat) s = none := by
  have hall : splitOnce (p :: pat) (s ++ []) = none := by
    rw [splitOnce_append h, splitOnce, if_neg (by simp), Option.map_none]
  rwa [List.append_nil] at hall

/-- What is split off does not hold the mark. -/
theorem splitOnce_front {p : Char} {s before after : List Char}
    (h : splitOnce [p] s = some (before, after)) : p ∉ before := by
  induction s generalizing before with
  | nil =>
      rw [splitOnce, if_neg (by simp)] at h
      cases h
  | cons c s ih =>
      rw [splitOnce] at h
      split at h
      · cases h
        exact List.not_mem_nil
      · rename_i hstrip
        obtain ⟨⟨b, a⟩, hs, he⟩ := Option.map_eq_some_iff.mp h
        cases he
        have hne : p ≠ c := by
          rintro rfl
          rw [stripPrefix?, if_pos rfl, stripPrefix?] at hstrip
          cases hstrip
        rw [List.mem_cons, not_or]
        exact ⟨hne, ih hs⟩

/-- At a marker the text is split. -/
theorem splitOnce_marker (p : Char) (pat s : List Char) :
    splitOnce (p :: pat) (p :: pat ++ s) = some ([], s) := by
  rw [List.cons_append, splitOnce, ← List.cons_append, stripPrefix?_eq_some.mpr rfl]

/-- Past the first occurrence of a character that can begin the marker but here does not. -/
theorem splitOnce_cons {c : Char} {pat s : List Char} (h : stripPrefix? pat (c :: s) = none) :
    splitOnce pat (c :: s) = (splitOnce pat s).map (fun r => (c :: r.1, r.2)) := by
  rw [splitOnce, h]

/-- The text is cut at the first place where the marker stands. -/
theorem splitOnce_first {pat before : List Char} (hpat : pat ≠ [])
    (h : ¬ pat <:+: before ++ pat.dropLast) (after : List Char) :
    splitOnce pat (before ++ (pat ++ after)) = some (before, after) := by
  induction before with
  | nil =>
      obtain ⟨p, pat, rfl⟩ := List.exists_cons_of_ne_nil hpat
      exact splitOnce_marker p pat after
  | cons c before ih =>
      have hrest : ¬ pat <:+: before ++ pat.dropLast := fun hi =>
        h (hi.trans (List.suffix_cons c _).isInfix)
      have hcut : c :: (before ++ (pat ++ after))
          = (c :: before ++ pat.dropLast) ++ (pat.getLast hpat :: after) := by
        conv_lhs => rw [← List.dropLast_append_getLast hpat]
        simp
      have hstrip : stripPrefix? pat (c :: (before ++ (pat ++ after))) = none := by
        cases hs : stripPrefix? pat (c :: (before ++ (pat ++ after))) with
        | none => rfl
        | some rest =>
            have hpre : pat <+: c :: (before ++ (pat ++ after)) :=
              ⟨rest, (stripPrefix?_eq_some.mp hs).symm⟩
            rw [hcut] at hpre
            have hlen : pat.length ≤ (c :: before ++ pat.dropLast).length := by
              have := List.length_pos_iff.mpr hpat
              simp
              omega
            exact absurd (List.prefix_of_prefix_length_le hpre (List.prefix_append _ _) hlen).isInfix h
      rw [List.cons_append, splitOnce_cons hstrip, ih hrest]
      rfl

/-- Two characters in a text made of two stand in one of these, or where they meet. -/
theorem pair_infix_append {a b : Char} {x y : List Char} (h : [a, b] <:+: x ++ y) :
    [a, b] <:+: x ∨ [a, b] <:+: y ∨ x.getLast? = some a ∧ y.head? = some b := by
  induction x with
  | nil => exact Or.inr (Or.inl h)
  | cons c x ih =>
      rw [List.cons_append, List.infix_cons_iff] at h
      rcases h with h | h
      · rw [List.cons_prefix_cons] at h
        obtain ⟨rfl, h⟩ := h
        cases x with
        | nil =>
            obtain ⟨rest, hy⟩ := h
            rw [List.nil_append] at hy
            exact Or.inr (Or.inr ⟨rfl, by rw [← hy]; rfl⟩)
        | cons d x =>
            rw [List.cons_append, List.cons_prefix_cons] at h
            refine Or.inl ⟨[], x, ?_⟩
            rw [h.1]
            rfl
      · rcases ih h with h | h | ⟨hlast, hhead⟩
        · exact Or.inl (h.trans (List.suffix_cons c x).isInfix)
        · exact Or.inr (Or.inl h)
        · refine Or.inr (Or.inr ⟨?_, hhead⟩)
          cases x with
          | nil => cases hlast
          | cons d x => exact hlast

/-- The text is cut at a marker exactly when it holds one. -/
theorem containsSub_iff {pat s : List Char} : containsSub pat s = true ↔ pat <:+: s := by
  induction s with
  | nil =>
      rw [containsSub, splitOnce, List.infix_nil]
      by_cases h : pat = []
      · simp [h]
      · simp [h]
  | cons c s ih =>
      rw [containsSub, splitOnce, List.infix_cons_iff, ← ih]
      cases hs : stripPrefix? pat (c :: s) with
      | some rest =>
          have hpre : pat <+: c :: s := ⟨rest, (stripPrefix?_eq_some.mp hs).symm⟩
          simp [hpre]
      | none =>
          have hpre : ¬ pat <+: c :: s := by
            rintro ⟨rest, hr⟩
            rw [stripPrefix?_eq_some.mpr hr.symm] at hs
            cases hs
          simp [hpre, containsSub]

theorem stripPrefix?_append (pat s : List Char) : stripPrefix? pat (pat ++ s) = some s :=
  stripPrefix?_eq_some.mpr rfl

theorem stripSuffix?_append (pat s : List Char) : stripSuffix? pat (s ++ pat) = some s := by
  rw [stripSuffix?, List.reverse_append, stripPrefix?_eq_some.mpr rfl, Option.map_some,
    List.reverse_reverse]

theorem trimStart_of_head {s : List Char} (h : ∀ c ∈ s.head?, isWhitespace c = false) :
    trimStart s = s := by
  cases s with
  | nil => rfl
  | cons c s =>
      have hc : isWhitespace c = false := h c rfl
      rw [trimStart, List.dropWhile_cons_of_neg (by simp [hc])]

/-- A text that neither starts nor ends with white space has nothing to trim. -/
theorem trim_of_ends {s : List Char} (hh : ∀ c ∈ s.head?, isWhitespace c = false)
    (hl : ∀ c ∈ s.getLast?, isWhitespace c = false) : trim s = s := by
  rw [trim, trimStart_of_head hh, trimStart_of_head, List.reverse_reverse]
  rwa [List.head?_reverse]

example : normalizeSpace " a\n\t b  c ".toList = "a b c".toList := by decide

end Text
