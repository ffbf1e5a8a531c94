import Bergshamra.C14n.Inclusive
import Bergshamra.Lib.Uri

/-!
# The code's resolution of `xml:base` and RFC 3986

`resolve_uri_reference` works on the text: it asks for `://` anywhere in the
reference, for a slash in front of it, and otherwise writes the reference behind
what the base has up to its last slash. The standard takes both texts apart into
their components. The two are compared here component by component; the length
of the result decides most cases, because the standard's result is never longer
than the kept components of the base and the reference together.
-/

namespace Bergshamra.Inclusive

theorem marker_eq : "://".toList = [':', '/', '/'] := by decide

theorem slashes_eq : "//".toList = ['/', '/'] := by decide

/-- Does the reference hold `://` anywhere? -/
abbrev marked (reference : List Char) : Bool := Text.containsSub "://".toList reference

/-- Behind the first `://` of the base no slash is left, so all of it is taken for the
authority. -/
def AllAuthority (base : List Char) : Prop :=
  ∃ r ∈ Text.splitOnce "://".toList base, '/' ∉ r.2

instance (base : List Char) : Decidable (AllAuthority base) :=
  inferInstanceAs (Decidable (∃ r ∈ Text.splitOnce "://".toList base, '/' ∉ r.2))

/-- What the code writes in front of a reference that does not start with a slash. -/
def keptBase (base : List Char) : List Char :=
  if AllAuthority base then base else Text.uptoLast '/' base

/-- What the code writes in front of a reference that starts with a slash. -/
def keptRoot (base : List Char) : List Char :=
  (parseUriComponents base).1 ++ (parseUriComponents base).2.1

/-! ## What the code returns -/

theorem parseUriComponents_marker {base before after : List Char}
    (h : Text.splitOnce "://".toList base = some (before, after)) :
    parseUriComponents base = (before ++ [':'],
      '/' :: '/' :: after.takeWhile (fun c => c != '/'), after.dropWhile (fun c => c != '/')) := by
  rw [parseUriComponents, h]
  dsimp only
  rw [Text.stripPrefix?_append, slashes_eq]
  rfl

theorem parseUriComponents_plain {base : List Char} (hslash : base.head? ≠ some '/')
    (h : Text.splitOnce "://".toList base = none) : parseUriComponents base = ([], [], base) := by
  have hstrip : Text.stripPrefix? "//".toList base = none := by
    cases hs : Text.stripPrefix? "//".toList base with
    | none => rfl
    | some t =>
        rw [Text.stripPrefix?_eq_some, slashes_eq] at hs
        rw [hs] at hslash
        simp at hslash
  rw [parseUriComponents, h]
  dsimp only
  rw [hstrip]

theorem resolve_slash {base reference : List Char}
    (hmark : marked reference = false)
    (hslash : reference.head? = some '/') :
    resolveUriReference base reference = keptRoot base ++ reference := by
  obtain ⟨t, rfl⟩ := List.head?_eq_some_iff.mp hslash
  have hstarts : Text.startsWith ['/'] ('/' :: t) = true := by
    simp [Text.startsWith, Text.stripPrefix?]
  rw [resolveUriReference, if_neg (Bool.eq_false_iff.mp hmark)]
  dsimp only
  rw [if_pos hstarts, keptRoot]

/-- A reference that does not start with a slash goes behind what is kept of the base. -/
theorem resolve_relative {base reference : List Char} (hbase : base ≠ [])
    (hbaseSlash : base.head? ≠ some '/')
    (hmark : marked reference = false)
    (hslash : reference.head? ≠ some '/') (hne : reference ≠ []) :
    resolveUriReference base reference = keptBase base ++ reference := by
  have hstarts : Text.startsWith ['/'] reference = false := by
    cases reference with
    | nil => rfl
    | cons c t =>
        have hc : '/' ≠ c := by
          intro hc
          simp [← hc] at hslash
        simp [Text.startsWith, Text.stripPrefix?, hc]
  have hempty : reference.isEmpty = false := by simpa using hne
  rw [resolveUriReference, if_neg (Bool.eq_false_iff.mp hmark)]
  dsimp only
  rw [if_neg (Bool.eq_false_iff.mp hstarts), if_neg (Bool.eq_false_iff.mp hempty), keptBase]
  cases hsplit : Text.splitOnce "://".toList base with
  | none =>
      -- without `://` there is no authority, and the last segment goes
      have hall : ¬ AllAuthority base := by
        rintro ⟨r, hr, _⟩
        rw [hsplit] at hr
        cases hr
      have hbaseEmpty : base.isEmpty = false := by simpa using hbase
      rw [parseUriComponents_plain hbaseSlash hsplit, if_neg hall, if_neg (by simp [hbaseEmpty]),
        List.append_nil, List.nil_append]
  | some r =>
      obtain ⟨before, after⟩ := r
      have hbaseEq : base = before ++ [':', '/', '/'] ++ after := by
        rw [← marker_eq]
        exact Text.splitOnce_eq_some hsplit
      have hafter : after.takeWhile (fun c => c != '/') ++ after.dropWhile (fun c => c != '/')
          = after := List.takeWhile_append_dropWhile
      rw [parseUriComponents_marker hsplit]
      dsimp only
      rw [if_neg (by simp)]
      by_cases hall : '/' ∈ after
      · -- the last slash is behind the authority
        have hno : ¬ AllAuthority base := by
          rintro ⟨r, hr, hr'⟩
          rw [hsplit] at hr
          cases hr
          exact hr' hall
        have hdrop : '/' ∈ after.dropWhile (fun c => c != '/') := by
          rw [← hafter, List.mem_append] at hall
          exact hall.resolve_left (Uri.slash_notMem_segment after)
        rw [if_neg hno, hbaseEq, Text.uptoLast_append_of_mem hall, ← hafter,
          Text.uptoLast_append_of_mem hdrop, hafter]
        simp
      · -- the base ends with the authority: there is no segment to go
        have hyes : AllAuthority base := ⟨(before, after), hsplit, hall⟩
        have hdrop : after.dropWhile (fun c => c != '/') = [] := by
          rw [List.dropWhile_eq_nil_iff]
          intro c hc
          have hne : c ≠ '/' := fun he => hall (he ▸ hc)
          simpa using hne
        rw [hdrop, List.append_nil] at hafter
        rw [if_pos hyes, hdrop, hafter, Text.uptoLast_of_notMem List.not_mem_nil]
        nth_rewrite 1 [hbaseEq]
        simp

/-! ## What is kept of an absolute base -/

section Base

variable {base : List Char} (hbase : Uri.IsAbsolute base)

include hbase

theorem absolute_eq :
    base = (Uri.parse base).root ++ (Uri.parse base).path ++ (Uri.parse base).queryPart := by
  have hall := Uri.recompose_parse base
  rw [Uri.Components.recompose, Uri.Components.fragmentPart, hbase.2, List.append_nil] at hall
  exact hall.symm

/-- The scheme of an absolute base. -/
theorem exists_scheme : ∃ x, (Uri.parse base).scheme = some x ∧ x ≠ []
    ∧ ∀ c ∈ x, Uri.isGeneral c = false := by
  obtain ⟨x, hx⟩ := Option.isSome_iff_exists.mp hbase.1
  exact ⟨x, hx, (Uri.parse_lawful base).scheme x hx⟩

theorem root_of_none (ha : (Uri.parse base).authority = none) :
    '/' ∉ (Uri.parse base).root ∧ (Uri.parse base).root ≠ [] := by
  obtain ⟨x, hx, hne, hg⟩ := exists_scheme hbase
  rw [Uri.Components.root, hx, ha, List.append_nil]
  constructor
  · intro hmem
    rw [List.mem_append] at hmem
    rcases hmem with hmem | hmem
    · have hslash := hg _ hmem
      exact absurd hslash (by decide)
    · simp at hmem
  · simp

theorem absolute_head : base ≠ [] ∧ base.head? ≠ some '/' := by
  obtain ⟨x, hx, hne, hg⟩ := exists_scheme hbase
  obtain ⟨y, ys, rfl⟩ := List.exists_cons_of_ne_nil hne
  have hy : y ≠ '/' := by
    intro hy
    have hslash := hg y List.mem_cons_self
    rw [hy] at hslash
    exact absurd hslash (by decide)
  rw [absolute_eq hbase, Uri.Components.root, hx]
  constructor
  · simp
  · simpa using hy

/-- With an authority the first `://` of the base stands before it. -/
theorem splitOnce_of_authority {a : List Char} (ha : (Uri.parse base).authority = some a) :
    ∃ x, (Uri.parse base).root = x ++ ':' :: '/' :: '/' :: a ∧
      Text.splitOnce "://".toList base
        = some (x, a ++ (Uri.parse base).path ++ (Uri.parse base).queryPart) := by
  obtain ⟨x, hx, _, hg⟩ := exists_scheme hbase
  have hcolon : ':' ∉ x := fun hmem => absurd (hg _ hmem) (by decide)
  have hroot : (Uri.parse base).root = x ++ ':' :: '/' :: '/' :: a := by
    rw [Uri.Components.root, hx, ha]
    simp
  refine ⟨x, hroot, ?_⟩
  have hmark := Text.splitOnce_marker ':' ['/', '/']
    (a ++ (Uri.parse base).path ++ (Uri.parse base).queryPart)
  have heq : base = x ++ (':' :: ['/', '/']
      ++ (a ++ (Uri.parse base).path ++ (Uri.parse base).queryPart)) := by
    rw [List.append_assoc] at *
    nth_rewrite 1 [absolute_eq hbase]
    rw [hroot]
    simp
  nth_rewrite 1 [heq]
  rw [marker_eq, Text.splitOnce_append hcolon, hmark, Option.map_some, List.append_nil]

/-- Without an authority the first `://` of the base lies behind the scheme and its colon. -/
theorem splitOnce_of_none (ha : (Uri.parse base).authority = none) :
    Text.splitOnce "://".toList base
      = (Text.splitOnce "://".toList ((Uri.parse base).path ++ (Uri.parse base).queryPart)).map
          (fun r => ((Uri.parse base).root ++ r.1, r.2)) := by
  obtain ⟨x, hx, _, hg⟩ := exists_scheme hbase
  have hcolon : ':' ∉ x := fun hmem => absurd (hg _ hmem) (by decide)
  have hroot : (Uri.parse base).root = x ++ [':'] := by
    rw [Uri.Components.root, hx, ha, List.append_nil]
  have hstrip : Text.stripPrefix? [':', '/', '/']
      (':' :: ((Uri.parse base).path ++ (Uri.parse base).queryPart)) = none := by
    cases hs : Text.stripPrefix? [':', '/', '/']
        (':' :: ((Uri.parse base).path ++ (Uri.parse base).queryPart)) with
    | none => rfl
    | some t =>
        exfalso
        rw [Text.stripPrefix?_eq_some] at hs
        have htwo := (List.cons.inj hs).2
        have hno := (Uri.parse_lawful base).path ha
        -- the two slashes would stand in the path: the query starts with its mark
        have hquery : ∀ c ∈ ((Uri.parse base).queryPart).head?, c = '?' := by
          intro c hc
          rw [Uri.Components.queryPart] at hc
          split at hc
          · simpa using hc.symm
          · simp at hc
        cases hp : (Uri.parse base).path with
        | nil =>
            rw [hp, List.nil_append] at htwo
            rw [htwo] at hquery
            have hslash := hquery '/' rfl
            exact absurd hslash (by decide)
        | cons c u =>
            rw [hp] at htwo
            obtain ⟨hc, hrest⟩ := List.cons.inj htwo
            cases u with
            | nil =>
                have hmark : (Uri.parse base).queryPart = '/' :: t := hrest
                rw [hmark] at hquery
                have hslash := hquery '/' rfl
                exact absurd hslash (by decide)
            | cons d u =>
                obtain ⟨hd, _⟩ := List.cons.inj hrest
                exact hno u (by rw [hp, hc, hd])
  have heq : base = x ++ (':' :: ((Uri.parse base).path ++ (Uri.parse base).queryPart)) := by
    nth_rewrite 1 [absolute_eq hbase]
    rw [hroot]
    simp
  nth_rewrite 1 [heq]
  rw [marker_eq, Text.splitOnce_append hcolon, Text.splitOnce_cons hstrip, Option.map_map, hroot]
  congr 1
  funext r
  simp

theorem allAuthority_of_authority {a : List Char} (ha : (Uri.parse base).authority = some a) :
    AllAuthority base ↔ '/' ∉ (Uri.parse base).path ∧ '/' ∉ (Uri.parse base).queryPart := by
  obtain ⟨x, _, hsplit⟩ := splitOnce_of_authority hbase ha
  have hno : '/' ∉ a := fun hmem =>
    absurd (((Uri.parse_lawful base).authority a ha).1 _ hmem) (by decide)
  rw [AllAuthority, hsplit]
  simp [hno]

/-- Where the base has no authority, the mark that the code takes for the start of one holds a
slash of the path or of the query. -/
theorem slash_of_allAuthority (ha : (Uri.parse base).authority = none)
    (hall : AllAuthority base) :
    '/' ∈ (Uri.parse base).path ∨ '/' ∈ (Uri.parse base).queryPart := by
  obtain ⟨r, hr, _⟩ := hall
  rw [Option.mem_def, splitOnce_of_none hbase ha, Option.map_eq_some_iff] at hr
  obtain ⟨⟨before, after⟩, hs, _⟩ := hr
  have heq := Text.splitOnce_eq_some hs
  rw [marker_eq] at heq
  rw [← List.mem_append, heq]
  simp

/-- The three places the last slash of the base can stand in. -/
theorem uptoLast_base :
    ('/' ∈ (Uri.parse base).queryPart ∧ Text.uptoLast '/' base
      = (Uri.parse base).root ++ (Uri.parse base).path
        ++ Text.uptoLast '/' (Uri.parse base).queryPart)
    ∨ ('/' ∉ (Uri.parse base).queryPart ∧ '/' ∈ (Uri.parse base).path ∧ Text.uptoLast '/' base
      = (Uri.parse base).root ++ Text.uptoLast '/' (Uri.parse base).path)
    ∨ ('/' ∉ (Uri.parse base).queryPart ∧ '/' ∉ (Uri.parse base).path ∧ Text.uptoLast '/' base
      = Text.uptoLast '/' (Uri.parse base).root) := by
  have heq := absolute_eq hbase
  by_cases hq : '/' ∈ (Uri.parse base).queryPart
  · left
    refine ⟨hq, ?_⟩
    nth_rewrite 1 [heq]
    rw [Text.uptoLast_append_of_mem hq]
  · right
    by_cases hp : '/' ∈ (Uri.parse base).path
    · left
      refine ⟨hq, hp, ?_⟩
      nth_rewrite 1 [heq]
      rw [Text.uptoLast_append_of_notMem hq, Text.uptoLast_append_of_mem hp]
    · right
      refine ⟨hq, hp, ?_⟩
      nth_rewrite 1 [heq]
      rw [Text.uptoLast_append_of_notMem hq, Text.uptoLast_append_of_notMem hp]

/-- **What is kept of the base.** All of it; or up to a slash of the query; or up to the last
slash of the path; or nothing, where there is no slash at all. -/
theorem keptBase_cases :
    (AllAuthority base ∧ keptBase base
      = (Uri.parse base).root ++ (Uri.parse base).path ++ (Uri.parse base).queryPart)
    ∨ (¬ AllAuthority base ∧ '/' ∈ (Uri.parse base).queryPart ∧ keptBase base
      = (Uri.parse base).root ++ (Uri.parse base).path
        ++ Text.uptoLast '/' (Uri.parse base).queryPart)
    ∨ (¬ AllAuthority base ∧ '/' ∉ (Uri.parse base).queryPart ∧ '/' ∈ (Uri.parse base).path
      ∧ keptBase base = (Uri.parse base).root ++ Text.uptoLast '/' (Uri.parse base).path)
    ∨ (¬ AllAuthority base ∧ '/' ∉ (Uri.parse base).queryPart ∧ '/' ∉ (Uri.parse base).path
      ∧ (Uri.parse base).authority = none ∧ keptBase base = []) := by
  by_cases hall : AllAuthority base
  · exact Or.inl ⟨hall, by rw [keptBase, if_pos hall]; exact absolute_eq hbase⟩
  · right
    have hkept : keptBase base = Text.uptoLast '/' base := by rw [keptBase, if_neg hall]
    rw [hkept]
    rcases uptoLast_base hbase with ⟨hq, he⟩ | ⟨hq, hp, he⟩ | ⟨hq, hp, he⟩
    · exact Or.inl ⟨hall, hq, he⟩
    · exact Or.inr (Or.inl ⟨hall, hq, hp, he⟩)
    · have hnone : (Uri.parse base).authority = none := by
        cases ha : (Uri.parse base).authority with
        | none => rfl
        | some a => exact absurd ((allAuthority_of_authority hbase ha).mpr ⟨hp, hq⟩) hall
      refine Or.inr (Or.inr ⟨hall, hq, hp, hnone, ?_⟩)
      rw [he, Text.uptoLast_of_notMem (root_of_none hbase hnone).1]

/-- What the code keeps in front of a path from the root is the scheme and the authority, where
the base has an authority that the code finds the end of; else it is nothing, or too much. -/
theorem keptRoot_cases :
    ((Uri.parse base).authority.isSome ∧ ((Uri.parse base).path = [] → (Uri.parse base).query = none)
      ∧ keptRoot base = (Uri.parse base).root)
    ∨ (¬ ((Uri.parse base).authority.isSome
        ∧ ((Uri.parse base).path = [] → (Uri.parse base).query = none))
      ∧ (keptRoot base = [] ∨ (Uri.parse base).root.length < (keptRoot base).length)) := by
  cases ha : (Uri.parse base).authority with
  | some a =>
      obtain ⟨x, hroot, hsplit⟩ := splitOnce_of_authority hbase ha
      obtain ⟨hends, hhead⟩ := (Uri.parse_lawful base).authority a ha
      -- an authority ends before the first slash
      have hno : ∀ c ∈ a, (c != '/') = true := by
        intro c hc
        have hne : c ≠ '/' := fun he => absurd (hends c hc) (by rw [he]; decide)
        simpa using hne
      have hkept : keptRoot base = x ++ ':' :: '/' :: '/' :: (a
          ++ ((Uri.parse base).path ++ (Uri.parse base).queryPart).takeWhile
            (fun c => c != '/')) := by
        rw [keptRoot, parseUriComponents_marker hsplit]
        dsimp only
        rw [List.append_assoc a, List.takeWhile_append_of_pos hno]
        simp
      cases hp : (Uri.parse base).path with
      | cons c t =>
          left
          rw [hp] at hhead hkept
          obtain rfl := hhead c rfl
          refine ⟨rfl, by simp, ?_⟩
          rw [hkept, hroot, List.cons_append, List.takeWhile_cons_of_neg (by decide),
            List.append_nil]
      | nil =>
          rw [hp, List.nil_append] at hkept
          cases hq : (Uri.parse base).query with
          | none =>
              left
              rw [Uri.Components.queryPart, hq] at hkept
              refine ⟨rfl, fun _ => rfl, ?_⟩
              rw [hkept, hroot]
              simp
          | some q =>
              right
              rw [Uri.Components.queryPart, hq] at hkept
              refine ⟨by simp, Or.inr ?_⟩
              rw [hkept, hroot]
              dsimp only
              rw [List.takeWhile_cons_of_pos (by decide)]
              simp only [List.length_append, List.length_cons]
              omega
  | none =>
      right
      refine ⟨by simp, ?_⟩
      cases hs : Text.splitOnce "://".toList
          ((Uri.parse base).path ++ (Uri.parse base).queryPart) with
      | none =>
          left
          have hnone := splitOnce_of_none hbase ha
          rw [hs, Option.map_none] at hnone
          rw [keptRoot, parseUriComponents_plain (absolute_head hbase).2 hnone]
          rfl
      | some r =>
          right
          have hsome := splitOnce_of_none hbase ha
          rw [hs, Option.map_some] at hsome
          rw [keptRoot, parseUriComponents_marker hsome]
          simp only [List.length_append, List.length_cons]
          omega

end Base

/-! ## The kinds of reference -/

theorem slash_of_containsSub {s : List Char} (h : Text.containsSub "://".toList s = true) :
    '/' ∈ s := by
  obtain ⟨⟨before, after⟩, hr⟩ := Option.isSome_iff_exists.mp h
  have heq := Text.splitOnce_eq_some hr
  rw [marker_eq] at heq
  rw [heq]
  simp

theorem keptBase_eq_nil {base : List Char} (hne : base ≠ []) :
    keptBase base = [] ↔ '/' ∉ base := by
  rw [keptBase]
  by_cases hall : AllAuthority base
  · obtain ⟨r, hr, _⟩ := id hall
    have hslash : '/' ∈ base := slash_of_containsSub (Option.isSome_iff_exists.mpr ⟨r, hr⟩)
    rw [if_pos hall]
    exact iff_of_false hne (fun h => h hslash)
  · rw [if_neg hall]
    constructor
    · intro hnil hmem
      have hup := Text.mem_uptoLast hmem
      rw [hnil] at hup
      cases hup
    · exact Text.uptoLast_of_notMem

/-- A reference with a scheme does not start with a slash. -/
theorem head_of_scheme {r : List Char} (hs : (Uri.parse r).scheme.isSome = true) :
    r ≠ [] ∧ r.head? ≠ some '/' := by
  obtain ⟨x, hx⟩ := Option.isSome_iff_exists.mp hs
  obtain ⟨hne, hg⟩ := (Uri.parse_lawful r).scheme x hx
  obtain ⟨y, ys, rfl⟩ := List.exists_cons_of_ne_nil hne
  have hy : y ≠ '/' := fun hy => absurd (hg y List.mem_cons_self) (by rw [hy]; decide)
  have hall := Uri.recompose_parse r
  rw [Uri.Components.recompose_eq, Uri.Components.root, hx] at hall
  rw [← hall]
  constructor
  · simp
  · simpa using hy

/-- A path that starts with no slash: neither does the reference, and behind the path comes a
mark. -/
theorem head_of_path {r : List Char} (hs : (Uri.parse r).scheme = none)
    (ha : (Uri.parse r).authority = none) :
    r.head? = some '/' ↔ (Uri.parse r).path.head? = some '/' := by
  have hall := Uri.parse_relative hs ha
  cases hp : (Uri.parse r).path with
  | cons c t =>
      rw [hp] at hall
      rw [← hall]
      simp
  | nil =>
      rw [hp, List.nil_append] at hall
      rw [← hall, Uri.Components.tail, Uri.Components.queryPart, Uri.Components.fragmentPart]
      cases (Uri.parse r).query with
      | some q => simp
      | none =>
          cases (Uri.parse r).fragment with
          | some f => simp
          | none => simp

theorem queryPart_eq_nil {u : Uri.Components} : u.queryPart = [] ↔ u.query = none := by
  rw [Uri.Components.queryPart]
  cases u.query <;> simp

section Kinds

variable {base reference : List Char} (hbase : Uri.IsAbsolute base)

theorem resolve_empty (hfrag : (Uri.parse base).fragment = none) :
    resolveUriReference base [] = Uri.resolve base [] := by
  have hparse : Uri.parse [] = ⟨none, none, [], none, none⟩ := by decide
  have hcode : resolveUriReference base [] = base := by
    rw [resolveUriReference, if_neg (by decide)]
    dsimp only
    rw [if_neg (by decide), if_pos List.isEmpty_nil]
  rw [hcode, Uri.resolve_pathless hfrag (by rw [hparse]) (by rw [hparse]) (by rw [hparse]), hparse]
  simp [Uri.Components.tail, Uri.Components.queryPart, Uri.Components.fragmentPart]

/-- A reference that has a scheme should be its own target. -/
theorem resolve_of_scheme_iff (hne : base ≠ []) (hhead : base.head? ≠ some '/')
    (hs : (Uri.parse reference).scheme.isSome = true) :
    resolveUriReference base reference = Uri.resolve base reference
      ↔ Uri.Dotless (Uri.parse reference).path ∧ (marked reference = true ∨ '/' ∉ base) := by
  have hall := Uri.recompose_parse reference
  rw [Uri.Components.recompose_eq] at hall
  have hself : reference = Uri.resolve base reference ↔ Uri.Dotless (Uri.parse reference).path := by
    rw [Uri.resolve_of_scheme base hs]
    nth_rewrite 1 [← hall]
    rw [List.append_cancel_left_eq, List.append_cancel_right_eq, eq_comm,
      Uri.removeDotSegments_eq_self]
  by_cases hmark : marked reference = true
  · rw [resolveUriReference, if_pos hmark, hself]
    simp [hmark]
  · have hmarkF : marked reference = false := Bool.eq_false_iff.mpr hmark
    obtain ⟨hrne, hrhead⟩ := head_of_scheme hs
    rw [resolve_relative hne hhead hmarkF hrhead hrne, ← keptBase_eq_nil hne]
    constructor
    · intro heq
      -- the target is no longer than the reference
      have hlen := congrArg List.length heq
      have hself_len := congrArg List.length hall
      have hdots := Uri.length_removeDotSegments_le (Uri.parse reference).path
      rw [Uri.resolve_of_scheme base hs] at hlen
      simp only [List.length_append] at hlen hself_len
      have hnil : keptBase base = [] := List.length_eq_zero_iff.mp (by omega)
      rw [hnil, List.nil_append] at heq
      exact ⟨hself.mp heq, Or.inr hnil⟩
    · rintro ⟨hdot, hmark' | hnil⟩
      · exact absurd hmark' hmark
      · rw [hnil, List.nil_append]
        exact hself.mpr hdot

include hbase

/-- A reference without a scheme that holds the mark, or has an authority of its own, is never
resolved: the target has the scheme of the base. -/
theorem resolve_differs (hs : (Uri.parse reference).scheme = none)
    (h : marked reference = true ∨ (Uri.parse reference).authority.isSome = true) :
    resolveUriReference base reference ≠ Uri.resolve base reference := by
  have hscheme := Uri.scheme_resolve (r := reference) hbase.1 hs
  by_cases hmark : marked reference = true
  · rw [resolveUriReference, if_pos hmark]
    intro heq
    rw [← heq, hs] at hscheme
    cases hscheme
  · obtain ⟨a, ha⟩ := Option.isSome_iff_exists.mp (h.resolve_left hmark)
    have hall := Uri.recompose_parse reference
    rw [Uri.Components.recompose_eq, Uri.Components.root, hs, ha, List.nil_append] at hall
    have hhead : reference.head? = some '/' := by
      rw [← hall]
      rfl
    rw [resolve_slash (Bool.eq_false_iff.mpr hmark) hhead]
    intro heq
    obtain ⟨x, hx, _, _⟩ := exists_scheme hbase
    have htarget := Uri.resolve_of_authority base hs ha
    rw [hx] at htarget
    have hdots := Uri.length_removeDotSegments_le (Uri.parse reference).path
    have hlen := congrArg List.length heq
    have hself := congrArg List.length hall
    rw [htarget] at hlen
    simp only [List.length_append, List.length_cons, List.length_nil] at hlen hself
    have hroot : x.length + 1 ≤ (Uri.parse base).root.length := by
      rw [Uri.Components.root, hx]
      simp
    rcases keptRoot_cases hbase with ⟨hauth, _, hkept⟩ | ⟨_, hnil | hlong⟩
    · obtain ⟨b, hb⟩ := Option.isSome_iff_exists.mp hauth
      rw [hkept, Uri.Components.root, hx, hb] at hlen
      simp only [List.length_append, List.length_cons, List.length_nil] at hlen
      omega
    · rw [hnil, List.nil_append] at heq
      rw [← heq, hs] at hscheme
      cases hscheme
    · omega

/-- A path from the root goes behind the scheme and the authority of the base. -/
theorem resolve_slash_iff (hs : (Uri.parse reference).scheme = none)
    (ha : (Uri.parse reference).authority = none) (hmark : marked reference = false)
    (hp : (Uri.parse reference).path.head? = some '/') :
    resolveUriReference base reference = Uri.resolve base reference
      ↔ Uri.Dotless (Uri.parse reference).path ∧ (Uri.parse base).authority.isSome = true
        ∧ ((Uri.parse base).path = [] → (Uri.parse base).query = none) := by
  have hscheme := Uri.scheme_resolve (r := reference) hbase.1 hs
  have hall := Uri.parse_relative hs ha
  have htarget := Uri.resolve_slash base hs ha hp
  rw [resolve_slash hmark ((head_of_path hs ha).mpr hp)]
  rcases keptRoot_cases hbase with ⟨hauth, hquery, hkept⟩ | ⟨hno, hwrong⟩
  · rw [hkept, htarget, List.append_cancel_left_eq]
    nth_rewrite 1 [← hall]
    rw [List.append_cancel_right_eq, eq_comm, Uri.removeDotSegments_eq_self]
    exact ⟨fun hd => ⟨hd, hauth, hquery⟩, fun hd => hd.1⟩
  · refine iff_of_false ?_ (fun h => hno h.2)
    intro heq
    rcases hwrong with hnil | hlong
    · rw [hnil, List.nil_append] at heq
      rw [← heq, hs] at hscheme
      cases hscheme
    · have hdots := Uri.length_removeDotSegments_le (Uri.parse reference).path
      have hlen := congrArg List.length heq
      have hself := congrArg List.length hall
      rw [htarget] at hlen
      simp only [List.length_append] at hlen hself
      omega

/-- The base up to its query is what is kept of it. -/
theorem keptBase_eq_path : keptBase base = (Uri.parse base).root ++ (Uri.parse base).path
      ↔ if AllAuthority base then (Uri.parse base).query = none
        else (Uri.parse base).path.getLast? = some '/' ∧ '/' ∉ (Uri.parse base).queryPart := by
  have hmemLast : ∀ {s : List Char}, s.getLast? = some '/' → '/' ∈ s :=
    fun h => List.mem_of_getLast? h
  rcases keptBase_cases hbase with ⟨hall, he⟩ | ⟨hall, hq, he⟩ | ⟨hall, hq, hp, he⟩ |
    ⟨hall, hq, hp, hnone, he⟩
  · rw [if_pos hall, he, List.append_right_eq_self]
    exact queryPart_eq_nil
  · rw [if_neg hall, he, List.append_right_eq_self]
    refine iff_of_false ?_ (fun h => h.2 hq)
    intro hnil
    have hup := Text.mem_uptoLast hq
    rw [hnil] at hup
    cases hup
  · rw [if_neg hall, he, List.append_cancel_left_eq,
      Text.uptoLast_eq_self (List.ne_nil_of_mem hp)]
    exact ⟨fun h => ⟨h, hq⟩, fun h => h.1⟩
  · rw [if_neg hall, he]
    refine iff_of_false ?_ (fun h => hp (hmemLast h.1))
    intro hnil
    exact (root_of_none hbase hnone).2 (List.append_eq_nil_iff.mp hnil.symm).1

/-- All of the base is kept. -/
theorem keptBase_eq_self :
    keptBase base = base ↔ AllAuthority base ∨ base.getLast? = some '/' := by
  by_cases hall : AllAuthority base
  · rw [keptBase, if_pos hall]
    exact iff_of_true rfl (Or.inl hall)
  · rw [keptBase, if_neg hall, Text.uptoLast_eq_self (absolute_head hbase).1]
    exact ⟨Or.inr, fun h => h.resolve_left hall⟩

/-- A reference without a path goes behind the base up to its query, or behind all of it. -/
theorem resolve_pathless_iff (hne : reference ≠ []) (hs : (Uri.parse reference).scheme = none)
    (ha : (Uri.parse reference).authority = none) (hmark : marked reference = false)
    (hp : (Uri.parse reference).path = []) :
    resolveUriReference base reference = Uri.resolve base reference
      ↔ if (Uri.parse reference).query.isSome then
          if AllAuthority base then (Uri.parse base).query = none
          else (Uri.parse base).path.getLast? = some '/' ∧ '/' ∉ (Uri.parse base).queryPart
        else AllAuthority base ∨ base.getLast? = some '/' := by
  obtain ⟨hbne, hbhead⟩ := absolute_head hbase
  have hhead : reference.head? ≠ some '/' := by
    rw [Ne, head_of_path hs ha, hp]
    simp
  have hall := Uri.parse_relative hs ha
  rw [hp, List.nil_append] at hall
  rw [resolve_relative hbne hbhead hmark hhead hne, Uri.resolve_pathless hbase.2 hs ha hp, hall]
  by_cases hq : (Uri.parse reference).query.isSome = true
  · rw [if_pos hq, if_pos hq, ← List.append_assoc, List.append_cancel_right_eq]
    exact keptBase_eq_path hbase
  · rw [if_neg hq, if_neg hq, List.append_cancel_right_eq]
    exact keptBase_eq_self hbase

/-- Where the last slash of the base is in its path, what is kept of the base is its root and
the path up to that slash; it can only be more than that, never less. -/
theorem keptBase_eq_directory (hslash : '/' ∈ (Uri.parse base).path) :
    ∃ extra, keptBase base = (Uri.parse base).root
        ++ (Text.uptoLast '/' (Uri.parse base).path ++ extra)
      ∧ (extra = [] ↔ if AllAuthority base then
          (Uri.parse base).path.getLast? = some '/' ∧ (Uri.parse base).query = none
        else '/' ∉ (Uri.parse base).queryPart) := by
  have hne : (Uri.parse base).path ≠ [] := List.ne_nil_of_mem hslash
  obtain ⟨t, ht, _⟩ := Text.exists_uptoLast '/' (Uri.parse base).path
  have htail : t = [] ↔ (Uri.parse base).path.getLast? = some '/' := by
    rw [← Text.uptoLast_eq_self hne]
    constructor
    · rintro rfl
      rw [List.append_nil] at ht
      exact ht.symm
    · intro he
      rw [he] at ht
      exact List.self_eq_append_right.mp ht
  rcases keptBase_cases hbase with ⟨hall, he⟩ | ⟨hall, hq, he⟩ | ⟨hall, hq, hp, he⟩ |
    ⟨hall, hq, hp, hnone, he⟩
  · refine ⟨t ++ (Uri.parse base).queryPart, ?_, ?_⟩
    · rw [he]
      conv_lhs => rw [ht]
      simp only [List.append_assoc]
    · rw [if_pos hall, List.append_eq_nil_iff, htail, queryPart_eq_nil]
  · refine ⟨t ++ Text.uptoLast '/' (Uri.parse base).queryPart, ?_, ?_⟩
    · rw [he]
      conv_lhs => rw [ht]
      simp only [List.append_assoc]
    · rw [if_neg hall]
      refine iff_of_false ?_ (fun h => h hq)
      intro hnil
      have hup := Text.mem_uptoLast hq
      rw [(List.append_eq_nil_iff.mp hnil).2] at hup
      cases hup
  · refine ⟨[], by rw [he, List.append_nil], ?_⟩
    rw [if_neg hall]
    exact iff_of_true rfl hq
  · exact absurd hslash hp

/-- Without a slash in the path of the base no relative path is resolved. -/
theorem resolve_relative_differs (hs : (Uri.parse reference).scheme = none)
    (ha : (Uri.parse reference).authority = none) (hne : (Uri.parse reference).path ≠ [])
    (hp : (Uri.parse reference).path.head? ≠ some '/') (hslash : '/' ∉ (Uri.parse base).path) :
    keptBase base ++ reference ≠ Uri.resolve base reference := by
  intro heq
  have hscheme := Uri.scheme_resolve (r := reference) hbase.1 hs
  have hall := Uri.parse_relative hs ha
  have htarget := Uri.resolve_relative base hs ha hne hp
  by_cases hnil : keptBase base = []
  · rw [hnil, List.nil_append] at heq
    rw [← heq, hs] at hscheme
    cases hscheme
  -- the root is kept, and behind it a piece of the query
  have hkept : ∃ k, keptBase base = (Uri.parse base).root ++ (Uri.parse base).path ++ k
      ∧ (∀ c ∈ k.head?, c = '?')
      ∧ ((Uri.parse base).authority = none → k ≠ []) := by
    have hmark : ∀ c ∈ (Uri.parse base).queryPart.head?, c = '?' := by
      intro c hc
      rw [Uri.Components.queryPart] at hc
      split at hc
      · simpa using hc.symm
      · simp at hc
    rcases keptBase_cases hbase with ⟨hyes, he⟩ | ⟨_, hq, he⟩ | ⟨_, _, hin, _⟩ | ⟨_, _, _, _, he⟩
    · refine ⟨_, he, hmark, ?_⟩
      intro hnone hempty
      rcases slash_of_allAuthority hbase hnone hyes with h | h
      · exact hslash h
      · rw [hempty] at h
        cases h
    · obtain ⟨t, ht, _⟩ := Text.exists_uptoLast '/' (Uri.parse base).queryPart
      have hup := Text.mem_uptoLast hq
      refine ⟨_, he, ?_, fun _ => List.ne_nil_of_mem hup⟩
      intro c hc
      refine hmark c ?_
      rw [ht, List.head?_append]
      rw [Option.mem_def] at hc
      rw [hc]
      rfl
    · exact absurd hin hslash
    · exact absurd he hnil
  obtain ⟨k, hk, hkhead, hkne⟩ := hkept
  rw [hk, htarget] at heq
  conv_lhs at heq => rw [← hall]
  rw [← List.append_assoc, ← List.append_assoc (Uri.parse base).root,
    List.append_cancel_right_eq, List.append_assoc, List.append_assoc,
    List.append_cancel_left_eq] at heq
  cases ha' : (Uri.parse base).authority with
  | none =>
      -- nothing is merged, and the target is too short
      have hmerge : Uri.mergePaths (Uri.parse base) (Uri.parse reference).path
          = (Uri.parse reference).path := by
        rw [Uri.mergePaths, if_neg (by simp [ha']), Text.uptoLast_of_notMem hslash,
          List.nil_append]
      have hdots := Uri.length_removeDotSegments_le (Uri.parse reference).path
      have hlen := congrArg List.length heq
      have hpos := List.length_pos_iff.mpr (hkne ha')
      rw [hmerge] at hlen
      simp only [List.length_append] at hlen
      omega
  | some a =>
      -- the merged path starts with a slash, what the code writes does not
      have hpath : (Uri.parse base).path = [] := by
        cases hpath : (Uri.parse base).path with
        | nil => rfl
        | cons c t =>
            have hc := ((Uri.parse_lawful base).authority a ha').2 c (by rw [hpath]; rfl)
            rw [hpath, hc] at hslash
            exact absurd List.mem_cons_self hslash
      have hhead := Uri.head_removeDotSegments (Uri.parse reference).path
      rw [Uri.mergePaths, if_pos ⟨by simp [ha'], hpath⟩] at heq
      rw [← heq, hpath, List.nil_append, List.head?_append] at hhead
      cases hkh : k.head? with
      | none =>
          rw [hkh] at hhead
          exact hp hhead
      | some c =>
          rw [hkh] at hhead
          have hc := hkhead c hkh
          rw [hc] at hhead
          simp at hhead

/-- A relative path goes behind the directory of the base, if that is what is kept of it. -/
theorem resolve_relative_iff (hs : (Uri.parse reference).scheme = none)
    (ha : (Uri.parse reference).authority = none) (hmark : marked reference = false)
    (hne : (Uri.parse reference).path ≠ [])
    (hp : (Uri.parse reference).path.head? ≠ some '/') :
    resolveUriReference base reference = Uri.resolve base reference
      ↔ Uri.Dotless (Text.uptoLast '/' (Uri.parse base).path ++ (Uri.parse reference).path)
        ∧ '/' ∈ (Uri.parse base).path
        ∧ if AllAuthority base then
            (Uri.parse base).path.getLast? = some '/' ∧ (Uri.parse base).query = none
          else '/' ∉ (Uri.parse base).queryPart := by
  obtain ⟨hbne, hbhead⟩ := absolute_head hbase
  have hall := Uri.parse_relative hs ha
  have hhead : reference.head? ≠ some '/' := by
    rw [Ne, head_of_path hs ha]
    exact hp
  have hrne : reference ≠ [] := by
    rw [← hall]
    simp [hne]
  rw [resolve_relative hbne hbhead hmark hhead hrne]
  by_cases hslash : '/' ∈ (Uri.parse base).path
  · obtain ⟨extra, hkept, hextra⟩ := keptBase_eq_directory hbase hslash
    have hmerge : Uri.mergePaths (Uri.parse base) (Uri.parse reference).path
        = Text.uptoLast '/' (Uri.parse base).path ++ (Uri.parse reference).path := by
      rw [Uri.mergePaths, if_neg]
      rintro ⟨_, hnil⟩
      rw [hnil] at hslash
      cases hslash
    rw [← hextra, ← Uri.removeDotSegments_eq_self, Uri.resolve_relative base hs ha hne hp, hmerge,
      hkept]
    nth_rewrite 1 [← hall]
    rw [← List.append_assoc, List.append_assoc (Uri.parse base).root, ← List.append_assoc
      (Uri.parse base).root (Uri.removeDotSegments _), List.append_cancel_right_eq,
      List.append_cancel_left_eq]
    constructor
    · intro heq
      -- the code leaves nothing out, so the standard must not either
      have hdots := Uri.length_removeDotSegments_le
        (Text.uptoLast '/' (Uri.parse base).path ++ (Uri.parse reference).path)
      have hlen := congrArg List.length heq
      simp only [List.length_append] at hlen hdots
      have hnil : extra = [] := List.length_eq_zero_iff.mp (by omega)
      rw [hnil, List.append_nil] at heq
      exact ⟨heq.symm, hslash, hnil⟩
    · rintro ⟨hdot, _, hnil⟩
      rw [hnil, List.append_nil, hdot]
  · exact iff_of_false (resolve_relative_differs hbase hs ha hne hp hslash) (fun h => hslash h.2.1)

end Kinds

/-! ## When the code follows the standard -/

/-- The condition under which the code finds the target, by the kind of reference. -/
def FollowsStandard (base reference : List Char) : Prop :=
  let b := Uri.parse base
  let r := Uri.parse reference
  if reference = [] then True
  else if r.scheme.isSome then
    Uri.Dotless r.path ∧ (marked reference = true ∨ '/' ∉ base)
  else if marked reference = true ∨ r.authority.isSome = true then False
  else if r.path = [] then
    if r.query.isSome then
      if AllAuthority base then b.query = none
      else b.path.getLast? = some '/' ∧ '/' ∉ b.queryPart
    else AllAuthority base ∨ base.getLast? = some '/'
  else if r.path.head? = some '/' then
    Uri.Dotless r.path ∧ b.authority.isSome = true ∧ (b.path = [] → b.query = none)
  else
    Uri.Dotless (Text.uptoLast '/' b.path ++ r.path) ∧ '/' ∈ b.path
      ∧ if AllAuthority base then b.path.getLast? = some '/' ∧ b.query = none
        else '/' ∉ b.queryPart

/-- **The code resolves a reference as the standard does exactly under this condition.** -/
theorem resolveUriReference_eq_iff (base reference : List Char) (hbase : Uri.IsAbsolute base) :
    resolveUriReference base reference = Uri.resolve base reference
      ↔ FollowsStandard base reference := by
  rw [FollowsStandard]
  by_cases hne : reference = []
  · rw [if_pos hne, hne]
    exact iff_of_true (resolve_empty hbase.2) trivial
  rw [if_neg hne]
  by_cases hs : (Uri.parse reference).scheme.isSome = true
  · rw [if_pos hs]
    obtain ⟨hbne, hbhead⟩ := absolute_head hbase
    exact resolve_of_scheme_iff hbne hbhead hs
  rw [if_neg hs]
  have hscheme : (Uri.parse reference).scheme = none := by simpa using hs
  by_cases hout : marked reference = true ∨ (Uri.parse reference).authority.isSome = true
  · rw [if_pos hout]
    exact iff_of_false (resolve_differs hbase hscheme hout) id
  rw [if_neg hout]
  obtain ⟨hm, ha⟩ := not_or.mp hout
  have hmark : marked reference = false := Bool.eq_false_iff.mpr hm
  have hauth : (Uri.parse reference).authority = none := by simpa using ha
  by_cases hp : (Uri.parse reference).path = []
  · rw [if_pos hp]
    exact resolve_pathless_iff hbase hne hscheme hauth hmark hp
  rw [if_neg hp]
  by_cases hslash : (Uri.parse reference).path.head? = some '/'
  · rw [if_pos hslash]
    exact resolve_slash_iff hbase hscheme hauth hmark hslash
  · rw [if_neg hslash]
    exact resolve_relative_iff hbase hscheme hauth hmark hp hslash

/-- A sibling of the base, which the code finds. -/
theorem resolve_sibling : (resolveUriReference "http://a/b/c/d;p?q".toList "g;x?y#s".toList
      = Uri.resolve "http://a/b/c/d;p?q".toList "g;x?y#s".toList
      ↔ FollowsStandard "http://a/b/c/d;p?q".toList "g;x?y#s".toList)
    ∧ resolveUriReference "http://a/b/c/d;p?q".toList "g;x?y#s".toList
      = "http://a/b/c/g;x?y#s".toList :=
  ⟨resolveUriReference_eq_iff _ _ ⟨by decide +kernel, by decide +kernel⟩, by decide +kernel⟩

/-- The parent of the base's directory: the code leaves the dots in. -/
theorem dots_stay : ¬ ∀ base reference : List Char, Uri.IsAbsolute base →
    resolveUriReference base reference = Uri.resolve base reference := by
  intro h
  have hcode : resolveUriReference "http://a/b/c/d;p?q".toList "../g".toList
      = "http://a/b/c/../g".toList := by decide +kernel
  have htarget : Uri.resolve "http://a/b/c/d;p?q".toList "../g".toList
      = "http://a/b/g".toList := by decide +kernel
  have heq := h "http://a/b/c/d;p?q".toList "../g".toList ⟨by decide +kernel, by decide +kernel⟩
  rw [hcode, htarget] at heq
  exact absurd heq (by decide +kernel)

end Bergshamra.Inclusive
