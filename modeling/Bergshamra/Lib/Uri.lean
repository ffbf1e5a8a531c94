import Mathlib.Data.List.TakeWhile
import Bergshamra.Lib.Text

/-!
# URI references

RFC 3986 on character sequences: the five components of a reference as the
regular expression of its appendix B takes them apart, their recomposition
(section 5.3), and the transformation of a reference against a base (5.2.2) with
the merging of paths (5.2.3) and the removal of dot segments (5.2.4). The
components always put the reference together again, and removing dot segments
never makes a path longer: it leaves exactly those paths alone that have none.
-/

namespace Text

theorem uptoLast_append_of_mem {c : Char} {t : List Char} (h : c ∈ t) (s : List Char) :
    uptoLast c (s ++ t) = s ++ uptoLast c t := by
  have hrev : ∃ x ∈ t.reverse, ¬ (x != c) = true := ⟨c, List.mem_reverse.mpr h, by simp⟩
  rw [uptoLast, uptoLast, List.reverse_append, List.dropWhile_append, if_neg, List.reverse_append,
    List.reverse_reverse]
  rw [List.isEmpty_iff, List.dropWhile_eq_nil_iff]
  intro hall
  obtain ⟨x, hx, hne⟩ := hrev
  exact hne (hall x hx)

theorem uptoLast_append_of_notMem {c : Char} {t : List Char} (h : c ∉ t) (s : List Char) :
    uptoLast c (s ++ t) = uptoLast c s := by
  rw [uptoLast, uptoLast, List.reverse_append, List.dropWhile_append, if_pos]
  rw [List.isEmpty_iff, List.dropWhile_eq_nil_iff]
  intro x hx
  have hne : x ≠ c := fun he => h (he ▸ List.mem_reverse.mp hx)
  simpa using hne

theorem uptoLast_of_notMem {c : Char} {s : List Char} (h : c ∉ s) : uptoLast c s = [] := by
  have happ := uptoLast_append_of_notMem h []
  rwa [List.nil_append] at happ

/-- What `uptoLast` leaves out does not hold the character. -/
theorem exists_uptoLast (c : Char) (s : List Char) :
    ∃ t, s = uptoLast c s ++ t ∧ c ∉ t := by
  refine ⟨(s.reverse.takeWhile (fun d => d != c)).reverse, ?_, ?_⟩
  · rw [uptoLast, ← List.reverse_append, List.takeWhile_append_dropWhile, List.reverse_reverse]
  · intro hc
    have hne := List.mem_takeWhile_imp (List.mem_reverse.mp hc)
    simp at hne

theorem uptoLast_eq_self {c : Char} {s : List Char} (hne : s ≠ []) :
    uptoLast c s = s ↔ s.getLast? = some c := by
  rw [uptoLast, List.reverse_eq_iff, ← List.head?_reverse]
  cases hs : s.reverse with
  | nil => exact absurd (List.reverse_eq_nil_iff.mp hs) hne
  | cons d t =>
      by_cases hd : d = c
      · simp [hd]
      · have hdrop : t.dropWhile (fun x => x != c) ≠ d :: t := by
          intro he
          have hlen := (List.dropWhile_suffix (fun x => x != c) (l := t)).length_le
          rw [he, List.length_cons] at hlen
          omega
        simp [hdrop, hd]

theorem mem_uptoLast {c : Char} {s : List Char} (h : c ∈ s) : c ∈ uptoLast c s := by
  obtain ⟨t, hs, ht⟩ := exists_uptoLast c s
  rw [hs, List.mem_append] at h
  exact h.resolve_right ht

theorem splitOn_of_notMem {c : Char} {s : List Char} (h : c ∉ s) : splitOn c s = [s] := by
  induction s with
  | nil => rfl
  | cons d s ih =>
      rw [List.mem_cons, not_or] at h
      rw [splitOn, if_neg (by simpa using Ne.symm h.1), ih h.2]

theorem splitOn_marker {c : Char} {s : List Char} (h : c ∉ s) (t : List Char) :
    splitOn c (s ++ c :: t) = s :: splitOn c t := by
  induction s with
  | nil => rw [List.nil_append, splitOn, if_pos (beq_self_eq_true c)]
  | cons d s ih =>
      rw [List.mem_cons, not_or] at h
      rw [List.cons_append, splitOn, if_neg (by simpa using Ne.symm h.1), ih h.2]

end Text

namespace Uri

/-- The five components of a reference; `none` is a component that is not there, which is not
the same as an empty one. -/
structure Components where
  scheme : Option (List Char)
  authority : Option (List Char)
  path : List Char
  query : Option (List Char)
  fragment : Option (List Char)
  deriving DecidableEq, Repr

/-- The characters that end a scheme. -/
def isGeneral (c : Char) : Bool := c == ':' || c == '/' || c == '?' || c == '#'

/-- `^(([^:/?#]+):)?` -/
def splitScheme (s : List Char) : Option (List Char) × List Char :=
  match s.takeWhile (fun c => !isGeneral c), s.dropWhile (fun c => !isGeneral c) with
  | x :: xs, ':' :: rest => (some (x :: xs), rest)
  | _, _ => (none, s)

/-- The characters that end an authority. -/
def endsAuthority (c : Char) : Bool := c == '/' || c == '?' || c == '#'

/-- `(//([^/?#]*))?` -/
def splitAuthority : List Char → Option (List Char) × List Char
  | '/' :: '/' :: s =>
      (some (s.takeWhile (fun c => !endsAuthority c)), s.dropWhile (fun c => !endsAuthority c))
  | s => (none, s)

/-- The characters that end a path. -/
def endsPath (c : Char) : Bool := c == '?' || c == '#'

/-- `(\?([^#]*))?` -/
def splitQuery : List Char → Option (List Char) × List Char
  | '?' :: s => (some (s.takeWhile (fun c => c != '#')), s.dropWhile (fun c => c != '#'))
  | s => (none, s)

/-- `(#(.*))?` -/
def splitFragment : List Char → Option (List Char)
  | '#' :: s => some s
  | _ => none

/-- The components of a reference. -/
def parse (s : List Char) : Components :=
  let (scheme, s1) := splitScheme s
  let (authority, s2) := splitAuthority s1
  let (query, s4) := splitQuery (s2.dropWhile (fun c => !endsPath c))
  { scheme, authority, path := s2.takeWhile (fun c => !endsPath c), query
    fragment := splitFragment s4 }

/-- The scheme with its colon and the authority with its slashes. -/
def Components.root (u : Components) : List Char :=
  (match u.scheme with | some x => x ++ [':'] | none => [])
    ++ (match u.authority with | some a => '/' :: '/' :: a | none => [])

/-- The query with its mark. -/
def Components.queryPart (u : Components) : List Char :=
  match u.query with | some q => '?' :: q | none => []

/-- The fragment with its mark. -/
def Components.fragmentPart (u : Components) : List Char :=
  match u.fragment with | some f => '#' :: f | none => []

/-- Section 5.3. -/
def Components.recompose (u : Components) : List Char :=
  u.root ++ u.path ++ u.queryPart ++ u.fragmentPart

/-- The output buffer without its last segment and the slash before that. -/
def dropSegment (output : List Char) : List Char := (Text.uptoLast '/' output).dropLast

/-- One `/` or none, and the segment after it, taken off the input: the loop of section 5.2.4,
with the output buffer first. -/
def removeDots (output : List Char) : List Char → List Char
  | [] => output
  | '.' :: '.' :: '/' :: rest => removeDots output rest
  | '.' :: '/' :: rest => removeDots output rest
  | '/' :: '.' :: '/' :: rest => removeDots output ('/' :: rest)
  | ['/', '.'] => removeDots output ['/']
  | '/' :: '.' :: '.' :: '/' :: rest => removeDots (dropSegment output) ('/' :: rest)
  | ['/', '.', '.'] => removeDots (dropSegment output) ['/']
  | ['.', '.'] => removeDots output []
  | ['.'] => removeDots output []
  | c :: rest =>
      removeDots (output ++ c :: rest.takeWhile (fun d => d != '/'))
        (rest.dropWhile (fun d => d != '/'))
termination_by input => input.length
decreasing_by
  all_goals simp only [List.length_cons, List.length_nil]
  all_goals first | omega | exact Nat.lt_succ_of_le (List.dropWhile_suffix _).length_le

/-- Section 5.2.4. -/
def removeDotSegments (path : List Char) : List Char := removeDots [] path

/-- Section 5.2.3. -/
def mergePaths (base : Components) (path : List Char) : List Char :=
  if base.authority.isSome ∧ base.path = [] then '/' :: path
  else Text.uptoLast '/' base.path ++ path

/-- Section 5.2.2, for a parser that is strict. -/
def transform (base r : Components) : Components :=
  if r.scheme.isSome then { r with path := removeDotSegments r.path }
  else if r.authority.isSome then
    { r with scheme := base.scheme, path := removeDotSegments r.path }
  else if r.path = [] then
    { base with
      query := if r.query.isSome then r.query else base.query
      fragment := r.fragment }
  else
    { scheme := base.scheme
      authority := base.authority
      path := removeDotSegments
        (if r.path.head? = some '/' then r.path else mergePaths base r.path)
      query := r.query
      fragment := r.fragment }

/-- The target of `reference` relative to `base`. -/
def resolve (base reference : List Char) : List Char :=
  (transform (parse base) (parse reference)).recompose

/-- An absolute URI: a scheme, and no fragment. -/
def IsAbsolute (s : List Char) : Prop :=
  (parse s).scheme.isSome = true ∧ (parse s).fragment = none

/-- No segment of the path is `.` or `..`. -/
def Dotless (path : List Char) : Prop :=
  ∀ seg ∈ Text.splitOn '/' path, seg ≠ ['.'] ∧ seg ≠ ['.', '.']

instance (path : List Char) : Decidable (Dotless path) := List.decidableBAll _ _

/-! ## Taking a reference apart -/

/-- What the components of a reference can be. -/
structure Components.Lawful (u : Components) : Prop where
  /-- A scheme is not empty and holds no general delimiter. -/
  scheme : ∀ x ∈ u.scheme, x ≠ [] ∧ ∀ c ∈ x, isGeneral c = false
  /-- An authority runs up to the path, which then starts with a slash. -/
  authority : ∀ a ∈ u.authority,
    (∀ c ∈ a, endsAuthority c = false) ∧ ∀ c ∈ u.path.head?, c = '/'
  /-- A path with two slashes in front would be read as an authority. -/
  path : u.authority = none → ∀ t, u.path ≠ '/' :: '/' :: t
  /-- The path runs up to the query or the fragment. -/
  pathChars : ∀ c ∈ u.path, endsPath c = false

/-- A beginning without general delimiters that a colon ends is the scheme. -/
theorem splitScheme_colon {x : List Char} (hx : x ≠ []) (hg : ∀ c ∈ x, isGeneral c = false)
    (t : List Char) : splitScheme (x ++ ':' :: t) = (some x, t) := by
  have hpos : ∀ c ∈ x, (!isGeneral c) = true := by
    intro c hc
    rw [hg c hc]; rfl
  have htake : (':' :: t).takeWhile (fun c => !isGeneral c) = [] := rfl
  have hdrop : (':' :: t).dropWhile (fun c => !isGeneral c) = ':' :: t := rfl
  obtain ⟨y, ys, rfl⟩ := List.exists_cons_of_ne_nil hx
  rw [splitScheme, List.takeWhile_append_of_pos hpos, List.dropWhile_append_of_pos hpos, htake,
    hdrop, List.append_nil]
  rfl

/-- Either a scheme is taken off, or nothing is. -/
theorem splitScheme_cases (s : List Char) :
    (∃ x t, splitScheme s = (some x, t) ∧ s = x ++ ':' :: t ∧ x ≠ []
      ∧ ∀ c ∈ x, isGeneral c = false) ∨ splitScheme s = (none, s) := by
  have hsplit := List.takeWhile_append_dropWhile (p := fun c => !isGeneral c) (l := s)
  have hchars : ∀ c ∈ s.takeWhile (fun c => !isGeneral c), isGeneral c = false := by
    intro c hc
    simpa using List.mem_takeWhile_imp hc
  rw [splitScheme]
  split
  · rename_i x xs rest hx hrest
    rw [hx, hrest] at hsplit
    rw [hx] at hchars
    exact Or.inl ⟨x :: xs, rest, rfl, hsplit.symm, List.cons_ne_nil _ _, hchars⟩
  · exact Or.inr rfl

/-- Either an authority is taken off, or nothing is. -/
theorem splitAuthority_cases (s : List Char) :
    (∃ a t, splitAuthority s = (some a, t) ∧ s = '/' :: '/' :: a ++ t
      ∧ (∀ c ∈ a, endsAuthority c = false) ∧ ∀ c ∈ t.head?, endsAuthority c = true)
    ∨ (splitAuthority s = (none, s) ∧ ∀ t, s ≠ '/' :: '/' :: t) := by
  rw [splitAuthority.eq_def]
  split
  · rename_i s
    refine Or.inl ⟨_, _, rfl, ?_, ?_, ?_⟩
    · rw [List.cons_append, List.cons_append, List.takeWhile_append_dropWhile]
    · intro c hc
      simpa using List.mem_takeWhile_imp hc
    · intro c hc
      have hhead := List.head?_dropWhile_not (fun c => !endsAuthority c) s
      rw [Option.mem_def] at hc
      rw [hc] at hhead
      simpa using hhead
  · rename_i hno
    exact Or.inr ⟨rfl, fun t ht => hno t ht⟩

/-- Either a query is taken off, or nothing is. -/
theorem splitQuery_cases (s : List Char) :
    (∃ q t, splitQuery s = (some q, t) ∧ s = '?' :: q ++ t ∧ ∀ c ∈ t.head?, c = '#')
    ∨ (splitQuery s = (none, s) ∧ ∀ t, s ≠ '?' :: t) := by
  rw [splitQuery.eq_def]
  split
  · rename_i s
    refine Or.inl ⟨_, _, rfl, ?_, ?_⟩
    · rw [List.cons_append, List.takeWhile_append_dropWhile]
    · intro c hc
      have hhead := List.head?_dropWhile_not (fun c => c != '#') s
      rw [Option.mem_def] at hc
      rw [hc] at hhead
      simpa using hhead
  · rename_i hno
    exact Or.inr ⟨rfl, fun t ht => hno t ht⟩

theorem parse_scheme (s : List Char) : (parse s).scheme = (splitScheme s).1 := rfl

theorem parse_authority (s : List Char) :
    (parse s).authority = (splitAuthority (splitScheme s).2).1 := rfl

theorem parse_path (s : List Char) :
    (parse s).path = (splitAuthority (splitScheme s).2).2.takeWhile (fun c => !endsPath c) := rfl

theorem splitScheme_append (s : List Char) :
    (match (splitScheme s).1 with | some x => x ++ [':'] | none => []) ++ (splitScheme s).2 = s := by
  rcases splitScheme_cases s with ⟨x, t, he, hs, _, _⟩ | he
  · rw [he, hs]
    simp
  · rw [he]
    rfl

theorem splitAuthority_append (s : List Char) :
    (match (splitAuthority s).1 with | some a => '/' :: '/' :: a | none => [])
      ++ (splitAuthority s).2 = s := by
  rcases splitAuthority_cases s with ⟨a, t, he, hs, _, _⟩ | ⟨he, _⟩
  · rw [he, hs]
  · rw [he]
    rfl

theorem splitQuery_append (s : List Char) :
    (match (splitQuery s).1 with | some q => '?' :: q | none => []) ++ (splitQuery s).2 = s := by
  rcases splitQuery_cases s with ⟨q, t, he, hs, _⟩ | ⟨he, _⟩
  · rw [he, hs]
  · rw [he]
    rfl

/-- What the query leaves is the fragment. -/
theorem splitFragment_append {s : List Char} (h : ∀ c ∈ s.head?, c = '#') :
    (match splitFragment s with | some f => '#' :: f | none => []) = s := by
  cases s with
  | nil => rfl
  | cons c s =>
      obtain rfl := h c rfl
      rfl

/-- Past the path only a query or a fragment can start, and past the query only a fragment. -/
theorem head_splitQuery (s : List Char) :
    ∀ c ∈ (splitQuery (s.dropWhile (fun c => !endsPath c))).2.head?, c = '#' := by
  rcases splitQuery_cases (s.dropWhile (fun c => !endsPath c)) with ⟨q, t, he, _, ht⟩ | ⟨he, hno⟩
  · rw [he]
    exact ht
  · rw [he]
    intro c hc
    have hhead := List.head?_dropWhile_not (fun c => !endsPath c) s
    rw [Option.mem_def] at hc
    rw [hc] at hhead
    have hends : endsPath c = true := by simpa using hhead
    rw [endsPath, Bool.or_eq_true, beq_iff_eq, beq_iff_eq] at hends
    rcases hends with rfl | rfl
    · obtain ⟨t, ht⟩ := List.head?_eq_some_iff.mp hc
      exact absurd ht (hno t)
    · rfl

/-- **The components put the reference together again.** -/
theorem recompose_parse (s : List Char) : (parse s).recompose = s := by
  have hpath := List.takeWhile_append_dropWhile (p := fun c => !endsPath c)
    (l := (splitAuthority (splitScheme s).2).2)
  calc (parse s).recompose
      = (match (splitScheme s).1 with | some x => x ++ [':'] | none => [])
        ++ ((match (splitAuthority (splitScheme s).2).1 with
            | some a => '/' :: '/' :: a | none => [])
        ++ ((splitAuthority (splitScheme s).2).2.takeWhile (fun c => !endsPath c)
        ++ ((match (splitQuery ((splitAuthority (splitScheme s).2).2.dropWhile
              (fun c => !endsPath c))).1 with | some q => '?' :: q | none => [])
        ++ (match splitFragment (splitQuery ((splitAuthority (splitScheme s).2).2.dropWhile
              (fun c => !endsPath c))).2 with | some f => '#' :: f | none => [])))) := by
        simp only [Components.recompose, Components.root, Components.queryPart,
          Components.fragmentPart, parse, List.append_assoc]
    _ = s := by
        rw [splitFragment_append (head_splitQuery _), splitQuery_append, hpath,
          splitAuthority_append, splitScheme_append]

/-- The components of a reference are lawful. -/
theorem parse_lawful (s : List Char) : (parse s).Lawful where
  scheme := by
    intro x hx
    rw [parse_scheme] at hx
    rcases splitScheme_cases s with ⟨y, t, he, _, hne, hg⟩ | he
    · rw [he] at hx
      cases hx
      exact ⟨hne, hg⟩
    · rw [he] at hx
      cases hx
  authority := by
    intro a ha
    rw [parse_authority] at ha
    rw [parse_path]
    rcases splitAuthority_cases (splitScheme s).2 with ⟨b, t, he, _, hb, ht⟩ | ⟨he, _⟩
    · rw [he] at ha ⊢
      cases ha
      refine ⟨hb, ?_⟩
      intro c hc
      dsimp only at hc
      cases t with
      | nil => cases hc
      | cons d t =>
          by_cases hd : endsPath d = true
          · rw [List.takeWhile_cons_of_neg (by simpa using hd)] at hc
            cases hc
          · rw [List.takeWhile_cons_of_pos (by simpa using hd)] at hc
            obtain rfl : d = c := by simpa using hc
            -- the authority ended before this character
            have hends := ht d rfl
            simp only [endsAuthority, endsPath, Bool.or_eq_true, beq_iff_eq, not_or] at hends hd
            rcases hends with (h | h) | h
            · exact h
            · exact absurd h hd.1
            · exact absurd h hd.2
    · rw [he] at ha
      cases ha
  path := by
    intro hnone t ht
    rw [parse_authority] at hnone
    rw [parse_path] at ht
    rcases splitAuthority_cases (splitScheme s).2 with ⟨b, u, he, _, _, _⟩ | ⟨he, hno⟩
    · rw [he] at hnone
      cases hnone
    · rw [he] at ht
      -- without an authority the path does not begin with two slashes
      have hsplit := List.takeWhile_append_dropWhile (p := fun c => !endsPath c)
        (l := (splitScheme s).2)
      rw [ht] at hsplit
      exact hno _ hsplit.symm
  pathChars := by
    intro c hc
    simpa using List.mem_takeWhile_imp hc

/-! ## Removing dot segments -/

theorem dotless_nil : Dotless [] := by
  intro seg hseg
  rw [Text.splitOn, List.mem_singleton] at hseg
  simp [hseg]

theorem dotless_marker {seg : List Char} (h : '/' ∉ seg) (rest : List Char) :
    Dotless (seg ++ '/' :: rest) ↔ (seg ≠ ['.'] ∧ seg ≠ ['.', '.']) ∧ Dotless rest := by
  rw [Dotless, Text.splitOn_marker h, List.forall_mem_cons, Dotless]

theorem dotless_slash (rest : List Char) : Dotless ('/' :: rest) ↔ Dotless rest := by
  have hmark := dotless_marker (List.not_mem_nil (a := '/')) rest
  rw [List.nil_append] at hmark
  rw [hmark]
  simp

theorem dotless_of_notMem {seg : List Char} (h : '/' ∉ seg) :
    Dotless seg ↔ seg ≠ ['.'] ∧ seg ≠ ['.', '.'] := by
  rw [Dotless, Text.splitOn_of_notMem h, List.forall_mem_singleton]

/-- A segment that is no dot segment can be left out of account. -/
theorem dotless_append {seg rest : List Char} (h : '/' ∉ seg) (hone : seg ≠ ['.'])
    (htwo : seg ≠ ['.', '.']) (hrest : ∀ c ∈ rest.head?, c = '/') :
    Dotless (seg ++ rest) ↔ Dotless rest := by
  cases rest with
  | nil =>
      rw [List.append_nil, dotless_of_notMem h]
      simp [hone, htwo, dotless_nil]
  | cons c rest =>
      obtain rfl := hrest c rfl
      rw [dotless_marker h, dotless_slash]
      simp [hone, htwo]

theorem length_dropSegment_le (output : List Char) :
    (dropSegment output).length ≤ output.length := by
  obtain ⟨t, ht, _⟩ := Text.exists_uptoLast '/' output
  have hlen := congrArg List.length ht
  rw [List.length_append] at hlen
  rw [dropSegment, List.length_dropLast]
  omega

/-- The first segment of the input, and what comes after it. -/
theorem segment_append (s : List Char) :
    s.takeWhile (fun d => d != '/') ++ s.dropWhile (fun d => d != '/') = s :=
  List.takeWhile_append_dropWhile

theorem slash_notMem_segment (s : List Char) : '/' ∉ s.takeWhile (fun d => d != '/') := by
  intro hmem
  have hne := List.mem_takeWhile_imp hmem
  simp at hne

/-- What comes after a segment is nothing, or starts with a slash. -/
theorem after_segment (s : List Char) :
    s.dropWhile (fun d => d != '/') = [] ∨ ∃ t, s.dropWhile (fun d => d != '/') = '/' :: t := by
  cases hs : s.dropWhile (fun d => d != '/') with
  | nil => exact Or.inl rfl
  | cons c t =>
      have hhead := List.head?_dropWhile_not (fun d => d != '/') s
      rw [hs] at hhead
      obtain rfl : c = '/' := by simpa using hhead
      exact Or.inr ⟨t, rfl⟩

theorem head_after_segment (s : List Char) :
    ∀ c ∈ (s.dropWhile (fun d => d != '/')).head?, c = '/' := by
  intro c hc
  rcases after_segment s with hs | ⟨t, hs⟩
  · rw [hs] at hc
    cases hc
  · rw [hs] at hc
    cases hc
    rfl

/-- A first segment that the loop does not take for a dot segment is none. -/
theorem dotless_first {c : Char} {rest : List Char}
    (hup : ∀ t, c = '.' → rest ≠ '.' :: '/' :: t) (hhere : ∀ t, c = '.' → rest ≠ '/' :: t)
    (hslash : ∀ t, c = '/' → rest ≠ '.' :: '/' :: t) (hslashEnd : c = '/' → rest ≠ ['.'])
    (hslashUp : ∀ t, c = '/' → rest ≠ '.' :: '.' :: '/' :: t)
    (hslashUpEnd : c = '/' → rest ≠ ['.', '.']) (hupEnd : c = '.' → rest ≠ ['.'])
    (hhereEnd : c = '.' → rest ≠ []) :
    Dotless (c :: rest) ↔ Dotless (rest.dropWhile (fun d => d != '/')) := by
  have hseg := segment_append rest
  have hafter := after_segment rest
  -- `c` begins a segment, or is in the middle of one
  by_cases hc : c = '/'
  · subst hc
    have hone : rest.takeWhile (fun d => d != '/') ≠ ['.'] := by
      intro he
      rw [he] at hseg
      rcases hafter with hr | ⟨t, hr⟩
      · exact hslashEnd rfl (by rw [← hseg, hr]; rfl)
      · exact hslash t rfl (by rw [← hseg, hr]; rfl)
    have htwo : rest.takeWhile (fun d => d != '/') ≠ ['.', '.'] := by
      intro he
      rw [he] at hseg
      rcases hafter with hr | ⟨t, hr⟩
      · exact hslashUpEnd rfl (by rw [← hseg, hr]; rfl)
      · exact hslashUp t rfl (by rw [← hseg, hr]; rfl)
    have happ := dotless_append (slash_notMem_segment rest) hone htwo (head_after_segment rest)
    rw [hseg] at happ
    rw [dotless_slash, happ]
  · have hmem : '/' ∉ c :: rest.takeWhile (fun d => d != '/') := by
      rw [List.mem_cons, not_or]
      exact ⟨Ne.symm hc, slash_notMem_segment rest⟩
    have hone : c :: rest.takeWhile (fun d => d != '/') ≠ ['.'] := by
      intro he
      obtain ⟨hdot, hnil⟩ := List.cons.inj he
      rw [hnil] at hseg
      rcases hafter with hr | ⟨t, hr⟩
      · exact hhereEnd hdot (by rw [← hseg, hr]; rfl)
      · exact hhere t hdot (by rw [← hseg, hr]; rfl)
    have htwo : c :: rest.takeWhile (fun d => d != '/') ≠ ['.', '.'] := by
      intro he
      obtain ⟨hdot, hnil⟩ := List.cons.inj he
      rw [hnil] at hseg
      rcases hafter with hr | ⟨t, hr⟩
      · exact hupEnd hdot (by rw [← hseg, hr]; rfl)
      · exact hup t hdot (by rw [← hseg, hr]; rfl)
    have happ := dotless_append hmem hone htwo (head_after_segment rest)
    rwa [List.cons_append, hseg] at happ

/-- **The loop moves a path without dot segments over as it is, and makes every other one
shorter.** -/
theorem removeDots_spec (output input : List Char) :
    (Dotless input ∧ removeDots output input = output ++ input)
    ∨ (¬ Dotless input ∧ (removeDots output input).length < output.length + input.length) := by
  -- whatever the loop still does, the result is no longer than what is left of the two buffers
  have hle : ∀ {o i r : List Char}, (Dotless i ∧ r = o ++ i)
      ∨ (¬ Dotless i ∧ r.length < o.length + i.length) → r.length ≤ o.length + i.length := by
    intro o i r h
    rcases h with ⟨_, rfl⟩ | ⟨_, h⟩
    · rw [List.length_append]
    · omega
  have hone : '/' ∉ ['.'] := by decide
  have htwo : '/' ∉ ['.', '.'] := by decide
  fun_induction removeDots output input with
  | case1 output => exact Or.inl ⟨dotless_nil, (List.append_nil output).symm⟩
  | case2 output rest ih =>
      refine Or.inr ⟨fun h => ((dotless_marker htwo rest).mp h).1.2 rfl, ?_⟩
      have := hle ih
      simp only [List.length_cons]
      omega
  | case3 output rest ih =>
      refine Or.inr ⟨fun h => ((dotless_marker hone rest).mp h).1.1 rfl, ?_⟩
      have := hle ih
      simp only [List.length_cons]
      omega
  | case4 output rest ih =>
      refine Or.inr ⟨fun h => ((dotless_marker hone rest).mp ((dotless_slash _).mp h)).1.1 rfl, ?_⟩
      have := hle ih
      simp only [List.length_cons] at this ⊢
      omega
  | case5 output ih =>
      refine Or.inr ⟨by decide, ?_⟩
      have := hle ih
      simp only [List.length_cons] at this ⊢
      omega
  | case6 output rest ih =>
      refine Or.inr ⟨fun h => ((dotless_marker htwo rest).mp ((dotless_slash _).mp h)).1.2 rfl, ?_⟩
      have := hle ih
      have := length_dropSegment_le output
      simp only [List.length_cons] at *
      omega
  | case7 output ih =>
      refine Or.inr ⟨by decide, ?_⟩
      have := hle ih
      have := length_dropSegment_le output
      simp only [List.length_cons] at *
      omega
  | case8 output ih =>
      refine Or.inr ⟨by decide, ?_⟩
      have := hle ih
      simp only [List.length_cons] at this ⊢
      omega
  | case9 output ih =>
      refine Or.inr ⟨by decide, ?_⟩
      have := hle ih
      simp only [List.length_cons] at this ⊢
      omega
  | case10 output c rest h1 h2 h3 h4 h5 h6 h7 h8 ih =>
      have hdot := dotless_first h1 h2 h3 h4 h5 h6 h7 h8
      have hseg := segment_append rest
      rcases ih with ⟨hd, he⟩ | ⟨hd, hlt⟩
      · refine Or.inl ⟨hdot.mpr hd, ?_⟩
        rw [he, List.append_assoc, List.cons_append, hseg]
      · refine Or.inr ⟨fun h => hd (hdot.mp h), ?_⟩
        have hlen := congrArg List.length hseg
        simp only [List.length_append, List.length_cons] at hlen hlt ⊢
        omega

theorem length_removeDotSegments_le (path : List Char) :
    (removeDotSegments path).length ≤ path.length := by
  rcases removeDots_spec [] path with ⟨_, he⟩ | ⟨_, hlt⟩
  · rw [removeDotSegments, he, List.nil_append]
  · rw [removeDotSegments]
    simp only [List.length_nil] at hlt
    omega

/-- **Exactly the paths without dot segments are left alone.** -/
theorem removeDotSegments_eq_self (path : List Char) :
    removeDotSegments path = path ↔ Dotless path := by
  rw [removeDotSegments]
  rcases removeDots_spec [] path with ⟨hd, he⟩ | ⟨hd, hlt⟩
  · rw [he]
    exact iff_of_true rfl hd
  · refine iff_of_false (fun he => ?_) hd
    rw [he, List.length_nil] at hlt
    omega

/-- The loop never loses the slash a path starts with. -/
theorem head_removeDots (output input : List Char)
    (h : (output = [] ∧ input.head? = some '/')
      ∨ (output.head? = some '/' ∧ ∀ c ∈ input.head?, c = '/')) :
    (removeDots output input).head? = some '/' := by
  -- dropping the last segment keeps the slash at the front, or leaves nothing
  have hdrop : ∀ {o : List Char} (t : List Char), (∀ c ∈ o.head?, c = '/') →
      (dropSegment o = [] ∧ ('/' :: t).head? = some '/')
      ∨ ((dropSegment o).head? = some '/' ∧ ∀ c ∈ ('/' :: t).head?, c = '/') := by
    intro o t ho
    obtain ⟨u, hu, _⟩ := Text.exists_uptoLast '/' o
    have hpre : dropSegment o <+: o :=
      (List.dropLast_prefix _).trans ⟨u, hu.symm⟩
    cases hd : dropSegment o with
    | nil => exact Or.inl ⟨rfl, rfl⟩
    | cons d ds =>
        obtain ⟨v, hv⟩ := hpre
        rw [hd] at hv
        obtain rfl := ho d (by rw [← hv]; rfl)
        exact Or.inr ⟨rfl, by simp⟩
  fun_induction removeDots output input with
  | case1 output =>
      rcases h with ⟨_, h⟩ | ⟨h, _⟩
      · cases h
      · exact h
  | case2 | case3 | case8 | case9 =>
      rcases h with ⟨_, h⟩ | ⟨_, h⟩ <;> simp at h
  | case4 output rest ih => exact ih (by simpa using h)
  | case5 output ih => exact ih (by simpa using h)
  | case6 output rest ih =>
      refine ih (hdrop rest ?_)
      rcases h with ⟨rfl, _⟩ | ⟨h, _⟩
      · simp
      · simp [h]
  | case7 output ih =>
      refine ih (hdrop [] ?_)
      rcases h with ⟨rfl, _⟩ | ⟨h, _⟩
      · simp
      · simp [h]
  | case10 output c rest h1 h2 h3 h4 h5 h6 h7 h8 ih =>
      refine ih (Or.inr ⟨?_, head_after_segment rest⟩)
      rcases h with ⟨rfl, h⟩ | ⟨h, hc⟩
      · simpa using h
      · rw [List.head?_append, h]
        rfl

theorem head_removeDotSegments (path : List Char) :
    (removeDotSegments ('/' :: path)).head? = some '/' :=
  head_removeDots [] ('/' :: path) (Or.inl ⟨rfl, rfl⟩)

example : removeDotSegments "/a/b/c/./../../g".toList = "/a/g".toList := by decide +kernel
example : removeDotSegments "mid/content=5/../6".toList = "mid/6".toList := by decide +kernel

/-! ## The target -/

/-- The query and the fragment, with their marks. -/
def Components.tail (u : Components) : List Char := u.queryPart ++ u.fragmentPart

theorem Components.recompose_eq (u : Components) : u.recompose = u.root ++ (u.path ++ u.tail) := by
  rw [recompose, tail, List.append_assoc, List.append_assoc]

/-- Without scheme and authority a reference is its path and what comes behind. -/
theorem parse_relative {r : List Char} (hs : (parse r).scheme = none)
    (ha : (parse r).authority = none) : (parse r).path ++ (parse r).tail = r := by
  have hall := recompose_parse r
  rw [Components.recompose_eq, Components.root, hs, ha] at hall
  exact hall

/-- A reference that has a scheme is its own target. -/
theorem resolve_of_scheme (base : List Char) {r : List Char}
    (hs : (parse r).scheme.isSome = true) :
    resolve base r = (parse r).root ++ (removeDotSegments (parse r).path ++ (parse r).tail) := by
  rw [resolve, transform, if_pos hs, Components.recompose_eq]
  rfl

/-- A reference without scheme, authority and path changes the query or the fragment. -/
theorem resolve_pathless {base r : List Char} (hb : (parse base).fragment = none)
    (hs : (parse r).scheme = none) (ha : (parse r).authority = none) (hp : (parse r).path = []) :
    resolve base r = if (parse r).query.isSome then
        (parse base).root ++ ((parse base).path ++ (parse r).tail)
      else base ++ (parse r).tail := by
  rw [resolve, transform, if_neg (by simp [hs]), if_neg (by simp [ha]), if_pos hp,
    Components.recompose_eq]
  by_cases hq : (parse r).query.isSome = true
  · rw [if_pos hq, if_pos hq]
    rfl
  · have hnone : (parse r).query = none := by simpa using hq
    have htail : (parse r).tail = (parse r).fragmentPart := by
      rw [Components.tail, Components.queryPart, hnone]
      rfl
    have hbase := recompose_parse base
    rw [Components.recompose, Components.fragmentPart, hb, List.append_nil] at hbase
    rw [if_neg hq, if_neg hq, htail]
    conv_rhs => rw [← hbase]
    simp only [List.append_assoc]
    rfl

/-- A path from the root replaces the path of the base. -/
theorem resolve_slash (base : List Char) {r : List Char} (hs : (parse r).scheme = none)
    (ha : (parse r).authority = none) (hp : (parse r).path.head? = some '/') :
    resolve base r
      = (parse base).root ++ (removeDotSegments (parse r).path ++ (parse r).tail) := by
  have hne : (parse r).path ≠ [] := by
    intro he
    rw [he] at hp
    cases hp
  rw [resolve, transform, if_neg (by simp [hs]), if_neg (by simp [ha]), if_neg hne, if_pos hp,
    Components.recompose_eq]
  rfl

/-- Any other path is merged with the path of the base. -/
theorem resolve_relative (base : List Char) {r : List Char} (hs : (parse r).scheme = none)
    (ha : (parse r).authority = none) (hne : (parse r).path ≠ [])
    (hp : (parse r).path.head? ≠ some '/') :
    resolve base r = (parse base).root
      ++ (removeDotSegments (mergePaths (parse base) (parse r).path) ++ (parse r).tail) := by
  rw [resolve, transform, if_neg (by simp [hs]), if_neg (by simp [ha]), if_neg hne, if_neg hp,
    Components.recompose_eq]
  rfl

/-- A reference without a scheme takes that of the base, and then is no longer than before. -/
theorem resolve_of_authority (base : List Char) {r a : List Char} (hs : (parse r).scheme = none)
    (ha : (parse r).authority = some a) :
    resolve base r = (match (parse base).scheme with | some x => x ++ [':'] | none => [])
      ++ ('/' :: '/' :: a ++ (removeDotSegments (parse r).path ++ (parse r).tail)) := by
  rw [resolve, transform, if_neg (by simp [hs]), if_pos (by simp [ha]), Components.recompose_eq,
    Components.root, ha, List.append_assoc]
  rfl

/-- The target has the scheme of the base when the reference has none. -/
theorem scheme_resolve {base r : List Char} (hb : (parse base).scheme.isSome = true)
    (hs : (parse r).scheme = none) : (parse (resolve base r)).scheme.isSome = true := by
  obtain ⟨x, hx⟩ := Option.isSome_iff_exists.mp hb
  obtain ⟨hne, hg⟩ := (parse_lawful base).scheme x hx
  have hroot : ∀ u : Components, u.scheme = some x →
      (parse u.recompose).scheme.isSome = true := by
    intro u hu
    rw [Components.recompose_eq, Components.root, hu, parse_scheme, List.append_assoc,
      List.append_assoc, List.singleton_append, splitScheme_colon hne hg]
    rfl
  rw [resolve]
  apply hroot
  rw [transform, if_neg (by simp [hs])]
  split
  · exact hx
  · split
    · exact hx
    · exact hx

end Uri
