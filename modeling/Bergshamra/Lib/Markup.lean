import Bergshamra.Lib.Forest
import Mathlib.Data.List.Infix

/-!
# Markup can be read back

A small language of tagged text: start and end tags with fields, comments,
instructions and characters, nested as a forest. Each piece is written next to
the other with nothing in between, so reading back rests on where each piece
ends. A piece that is followed by anything at all can be cut off in one way only
(`Separates`), and the first characters of what remains tell which piece comes
next (`Kind`). The two together make `render` injective on valid forests.

The two escapes, for characters in the text and in a field, are parameters.
-/

namespace Markup

/-- However the code of one value is continued, value and continuation can be told. -/
def Separates {α : Type} (code : α → List Char) : Prop :=
  ∀ a b r r', code a ++ r = code b ++ r' → a = b ∧ r = r'

/-- An escape: codes separate, and none is empty or starts with the character that stops. -/
structure Escape (code : Char → List Char) (stop : Char) : Prop where
  separates : Separates code
  head : ∀ c, ∃ d r, code c = d :: r ∧ d ≠ stop

/-- What stands between two tags. -/
inductive Leaf where
  | char (c : Char)
  | comment (text : List Char)
  | instruction (target data : List Char)
deriving DecidableEq, Repr

structure Tag where
  name : List Char
  fields : List (List Char × List Char)
deriving DecidableEq, Repr

section Render

variable (escText escField : Char → List Char)

/-- ` name="value"`. -/
def renderField (f : List Char × List Char) : List Char :=
  ' ' :: (f.1 ++ '=' :: '"' :: (f.2.flatMap escField ++ ['"']))

/-- `<name field …>`. -/
def renderStart (t : Tag) : List Char :=
  '<' :: (t.name ++ t.fields.flatMap (renderField escField) ++ ['>'])

/-- `</name>`. -/
def renderEnd (t : Tag) : List Char := '<' :: '/' :: (t.name ++ ['>'])

def renderLeaf : Leaf → List Char
  | .char c => escText c
  | .comment text => '<' :: '!' :: '-' :: '-' :: (text ++ ['-', '-', '>'])
  | .instruction target data =>
      '<' :: '?' :: (target ++ (if data.isEmpty then [] else ' ' :: data) ++ ['?', '>'])

def render : Forest Unit Tag Leaf → List Char
  | .nil => []
  | .leaf _ l rest => renderLeaf escText l ++ render rest
  | .node _ t kids rest =>
      renderStart escField t ++ render kids ++ renderEnd t ++ render rest

/-- A line break, if asked for. -/
def newline (b : Bool) : List Char := if b then ['\n'] else []

/-- At the top a leaf is set off by line breaks from tags before (`preceding`) and after it. -/
def renderTop (preceding : Bool) : Forest Unit Tag Leaf → List Char
  | .nil => []
  | .leaf _ l rest =>
      newline preceding ++ renderLeaf escText l ++ newline rest.hasNode
        ++ renderTop preceding rest
  | .node _ t kids rest =>
      renderStart escField t ++ render escText escField kids ++ renderEnd t
        ++ renderTop true rest

end Render

/-! ## Valid forests -/

/-- A name is not empty and has none of the characters that may follow it or would make
the tag look like something else. -/
def ValidName (name : List Char) : Prop :=
  name ≠ [] ∧ ∀ c ∈ name, c ∉ [' ', '>', '/', '!', '?']

structure Tag.Valid (t : Tag) : Prop where
  name : ValidName t.name
  fields : ∀ f ∈ t.fields, '=' ∉ f.1

def Leaf.Valid : Leaf → Prop
  | .char _ => True
  | .comment text => ¬ ['-', '-'] <:+: text
  | .instruction target data =>
      (∀ c ∈ target, c ∉ [' ', '?']) ∧ ¬ ['?', '>'] <:+: data

def Leaf.isChar : Leaf → Bool
  | .char _ => true
  | _ => false

def Valid : Forest Unit Tag Leaf → Prop
  | .nil => True
  | .leaf _ l rest => l.Valid ∧ Valid rest
  | .node _ t kids rest => t.Valid ∧ Valid kids ∧ Valid rest

/-- No characters at the top. -/
def TopValid : Forest Unit Tag Leaf → Prop
  | .nil => True
  | .leaf _ l rest => l.Valid ∧ l.isChar = false ∧ TopValid rest
  | .node _ t kids rest => t.Valid ∧ Valid kids ∧ TopValid rest

/-! ## Where a piece ends -/

/-- A run of characters that fail the test, up to one that passes. -/
theorem run_separates {p : Char → Prop} {a b r r' : List Char} (ha : ∀ c ∈ a, ¬ p c)
    (hb : ∀ c ∈ b, ¬ p c) (hr : ∃ c s, r = c :: s ∧ p c) (hr' : ∃ c s, r' = c :: s ∧ p c)
    (h : a ++ r = b ++ r') : a = b ∧ r = r' := by
  induction a generalizing b with
  | nil =>
      cases b with
      | nil => exact ⟨rfl, h⟩
      | cons d b =>
          obtain ⟨c, s, rfl, hc⟩ := hr
          rw [List.nil_append, List.cons_append] at h
          injection h with hcd _
          exact absurd (hcd ▸ hc) (hb d List.mem_cons_self)
  | cons c a ih =>
      cases b with
      | nil =>
          obtain ⟨d, s, rfl, hd⟩ := hr'
          rw [List.nil_append, List.cons_append] at h
          injection h with hcd _
          exact absurd (hcd ▸ hd) (ha c List.mem_cons_self)
      | cons d b =>
          rw [List.cons_append, List.cons_append] at h
          injection h with hcd ht
          obtain ⟨hab, hrr⟩ := ih (fun x hx => ha x (List.mem_cons_of_mem _ hx))
            (fun x hx => hb x (List.mem_cons_of_mem _ hx)) ht
          exact ⟨by rw [hcd, hab], hrr⟩

/-- A text ends at the first `mark` if it is free of some `bad` sequence without which the
mark cannot be found inside it or run into it. -/
theorem marker_separates {bad mark : List Char}
    (hmark : ∀ u s s' : List Char, ¬ bad <:+: u → u ++ (mark ++ s) = mark ++ s' → u = [])
    {a b r r' : List Char} (ha : ¬ bad <:+: a) (hb : ¬ bad <:+: b)
    (h : a ++ (mark ++ r) = b ++ (mark ++ r')) : a = b ∧ r = r' := by
  rcases List.append_eq_append_iff.mp h with ⟨u, hbu, hu⟩ | ⟨u, hau, hu⟩
  · have hnil : u = [] := by
      refine hmark u r' r ?_ hu.symm
      intro hin
      exact hb (hin.trans ⟨a, [], by rw [hbu]; simp⟩)
    subst hnil
    simpa [hbu] using hu
  · have hnil : u = [] := by
      refine hmark u r r' ?_ hu.symm
      intro hin
      exact ha (hin.trans ⟨b, [], by rw [hau]; simp⟩)
    subst hnil
    simpa [hau, eq_comm] using hu

/-- Text without `--` ends at the first `-->`. -/
theorem comment_separates {a b r r' : List Char} (ha : ¬ ['-', '-'] <:+: a)
    (hb : ¬ ['-', '-'] <:+: b)
    (h : a ++ (['-', '-', '>'] ++ r) = b ++ (['-', '-', '>'] ++ r')) : a = b ∧ r = r' := by
  refine marker_separates ?_ ha hb h
  intro u s s' hu he
  match u, hu, he with
  | [], _, _ => rfl
  | [x], _, he => simp at he
  | x :: y :: u, hu, he =>
      simp only [List.cons_append, List.cons.injEq] at he
      obtain ⟨rfl, rfl, _⟩ := he
      exact absurd ⟨[], u, rfl⟩ hu

/-- Data without `?>` ends at the first `?>`. -/
theorem instruction_separates {a b r r' : List Char} (ha : ¬ ['?', '>'] <:+: a)
    (hb : ¬ ['?', '>'] <:+: b) (h : a ++ (['?', '>'] ++ r) = b ++ (['?', '>'] ++ r')) :
    a = b ∧ r = r' := by
  refine marker_separates ?_ ha hb h
  intro u s s' hu he
  match u, hu, he with
  | [], _, _ => rfl
  | [x], _, he => simp at he
  | x :: y :: u, hu, he =>
      simp only [List.cons_append, List.cons.injEq] at he
      obtain ⟨rfl, rfl, _⟩ := he
      exact absurd ⟨[], u, rfl⟩ hu

/-- An escaped value ends at the stop character. -/
theorem Escape.value_separates {code : Char → List Char} {stop : Char} (he : Escape code stop)
    {a b r r' : List Char} (h : a.flatMap code ++ stop :: r = b.flatMap code ++ stop :: r') :
    a = b ∧ r = r' := by
  induction a generalizing b with
  | nil =>
      cases b with
      | nil => simpa using h
      | cons d b =>
          obtain ⟨x, s, hx, hne⟩ := he.head d
          rw [List.flatMap_nil, List.nil_append, List.flatMap_cons, hx] at h
          simp only [List.cons_append, List.cons.injEq] at h
          exact absurd h.1.symm hne
  | cons c a ih =>
      cases b with
      | nil =>
          obtain ⟨x, s, hx, hne⟩ := he.head c
          rw [List.flatMap_nil, List.nil_append, List.flatMap_cons, hx] at h
          simp only [List.cons_append, List.cons.injEq] at h
          exact absurd h.1 hne
      | cons d b =>
          rw [List.flatMap_cons, List.flatMap_cons, List.append_assoc, List.append_assoc] at h
          obtain ⟨hcd, ht⟩ := he.separates _ _ _ _ h
          obtain ⟨hab, hrr⟩ := ih ht
          exact ⟨by rw [hcd, hab], hrr⟩

section Separate

variable {escText escField : Char → List Char}

theorem fields_separate (he : Escape escField '"') {fs gs : List (List Char × List Char)}
    (hf : ∀ f ∈ fs, '=' ∉ f.1) (hg : ∀ g ∈ gs, '=' ∉ g.1) {r r' : List Char}
    (h : fs.flatMap (renderField escField) ++ '>' :: r
      = gs.flatMap (renderField escField) ++ '>' :: r') : fs = gs ∧ r = r' := by
  induction fs generalizing gs with
  | nil =>
      cases gs with
      | nil => simpa using h
      | cons g gs => simp [renderField] at h
  | cons f fs ih =>
      cases gs with
      | nil => simp [renderField] at h
      | cons g gs =>
          simp only [List.flatMap_cons, renderField, List.cons_append, List.append_assoc,
            List.cons.injEq, true_and, List.nil_append] at h
          have hname := run_separates (p := fun c => c = '=')
            (fun c hc he => hf f List.mem_cons_self (he ▸ hc))
            (fun c hc he => hg g List.mem_cons_self (he ▸ hc)) ⟨_, _, rfl, rfl⟩ ⟨_, _, rfl, rfl⟩ h
          obtain ⟨hname, hrest⟩ := hname
          simp only [List.cons.injEq, true_and] at hrest
          obtain ⟨hval, hrest⟩ := he.value_separates hrest
          obtain ⟨hfs, hrr⟩ := ih (fun x hx => hf x (List.mem_cons_of_mem _ hx))
            (fun x hx => hg x (List.mem_cons_of_mem _ hx)) hrest
          exact ⟨by rw [hfs, Prod.ext hname hval], hrr⟩

theorem name_separates {a b r r' : List Char} (ha : ValidName a) (hb : ValidName b)
    (hr : ∃ c s, r = c :: s ∧ c ∈ [' ', '>']) (hr' : ∃ c s, r' = c :: s ∧ c ∈ [' ', '>'])
    (h : a ++ r = b ++ r') : a = b ∧ r = r' := by
  refine run_separates (p := fun c => c ∈ [' ', '>']) ?_ ?_ hr hr' h
  · intro c hc hp
    exact ha.2 c hc (by simp only [List.mem_cons, List.not_mem_nil, or_false] at hp ⊢; tauto)
  · intro c hc hp
    exact hb.2 c hc (by simp only [List.mem_cons, List.not_mem_nil, or_false] at hp ⊢; tauto)

theorem start_separates (he : Escape escField '"') {t u : Tag} (ht : t.Valid) (hu : u.Valid)
    {r r' : List Char} (h : renderStart escField t ++ r = renderStart escField u ++ r') :
    t = u ∧ r = r' := by
  have after : ∀ (fs : List (List Char × List Char)) (s : List Char),
      ∃ c s', fs.flatMap (renderField escField) ++ '>' :: s = c :: s' ∧ c ∈ [' ', '>'] := by
    intro fs s
    cases fs with
    | nil => exact ⟨'>', s, rfl, by simp⟩
    | cons f fs => exact ⟨' ', _, rfl, by simp⟩
  simp only [renderStart, List.cons_append, List.append_assoc, List.cons.injEq, true_and,
    List.nil_append] at h
  obtain ⟨hname, h⟩ := name_separates ht.name hu.name (after _ _) (after _ _) h
  obtain ⟨hfields, h⟩ := fields_separate he ht.fields hu.fields h
  refine ⟨?_, h⟩
  cases t
  cases u
  simp_all

theorem end_separates {t : Tag} {r r' : List Char} (h : renderEnd t ++ r = renderEnd t ++ r') :
    r = r' := List.append_cancel_left h

/-- The part of an instruction after its target. -/
theorem data_separates {d d' r r' : List Char} (hd : ¬ ['?', '>'] <:+: d)
    (hd' : ¬ ['?', '>'] <:+: d')
    (h : (if d.isEmpty then [] else ' ' :: d) ++ (['?', '>'] ++ r)
      = (if d'.isEmpty then [] else ' ' :: d') ++ (['?', '>'] ++ r')) : d = d' ∧ r = r' := by
  cases d with
  | nil =>
      cases d' with
      | nil => simpa using h
      | cons => simp at h
  | cons c d =>
      cases d' with
      | nil => simp at h
      | cons c' d' =>
          refine instruction_separates hd hd' ?_
          simpa using h

theorem leaf_separates (he : Escape escText '<') {l m : Leaf} (hl : l.Valid) (hm : m.Valid)
    {r r' : List Char} (h : renderLeaf escText l ++ r = renderLeaf escText m ++ r') :
    l = m ∧ r = r' := by
  have hchar : ∀ c x s s', escText c ++ s = '<' :: x :: s' → False := by
    intro c x s s' h
    obtain ⟨d, t, hd, hne⟩ := he.head c
    rw [hd, List.cons_append, List.cons.injEq] at h
    exact hne h.1
  cases l with
  | char c =>
      cases m with
      | char d =>
          obtain ⟨hcd, hr⟩ := he.separates _ _ _ _ h
          exact ⟨by rw [hcd], hr⟩
      | comment | instruction => exact (hchar _ _ _ _ h).elim
  | comment text =>
      cases m with
      | char d => exact (hchar _ _ _ _ h.symm).elim
      | comment text' =>
          simp only [renderLeaf, List.cons_append, List.append_assoc, List.cons.injEq,
            true_and] at h
          obtain ⟨ht, hr⟩ := comment_separates hl hm h
          exact ⟨by rw [ht], hr⟩
      | instruction => simp [renderLeaf] at h
  | instruction target data =>
      cases m with
      | char d => exact (hchar _ _ _ _ h.symm).elim
      | comment => simp [renderLeaf] at h
      | instruction target' data' =>
          -- the target ends at the first blank or question mark
          have after : ∀ d s : List Char, ∃ c s',
              (if d.isEmpty then [] else ' ' :: d) ++ (['?', '>'] ++ s) = c :: s'
                ∧ c ∈ [' ', '?'] := by
            intro d s
            cases d with
            | nil => exact ⟨'?', _, rfl, by simp⟩
            | cons c d => exact ⟨' ', _, rfl, by simp⟩
          simp only [renderLeaf, List.cons_append, List.append_assoc, List.cons.injEq,
            true_and] at h
          obtain ⟨ht, hrest⟩ := run_separates (p := fun c => c ∈ [' ', '?']) hl.1 hm.1
            (after _ _) (after _ _) h
          obtain ⟨hd, hr⟩ := data_separates hl.2 hm.2 hrest
          exact ⟨by rw [ht, hd], hr⟩

/-! ## Which piece comes next -/

/-- What the first characters announce. -/
inductive Kind where
  | close
  | leaf
  | tag
deriving DecidableEq

def kind : List Char → Kind
  | [] => .close
  | '<' :: '/' :: _ => .close
  | '<' :: '!' :: _ => .leaf
  | '<' :: '?' :: _ => .leaf
  | '<' :: _ => .tag
  | _ => .leaf

theorem kind_leaf (he : Escape escText '<') (l : Leaf) (r : List Char) :
    kind (renderLeaf escText l ++ r) = .leaf := by
  cases l with
  | char c =>
      obtain ⟨d, s, hd, hne⟩ := he.head c
      rw [renderLeaf, hd, List.cons_append]
      unfold kind
      split <;> simp_all
  | comment => rfl
  | instruction => rfl

theorem kind_start {t : Tag} (ht : t.Valid) (r : List Char) :
    kind (renderStart escField t ++ r) = .tag := by
  obtain ⟨hne, hall⟩ := ht.name
  obtain ⟨c, name, hname⟩ := List.exists_cons_of_ne_nil hne
  have hc := hall c (by rw [hname]; exact List.mem_cons_self)
  simp only [List.mem_cons, List.not_mem_nil, or_false, not_or] at hc
  rw [renderStart, hname]
  simp only [List.cons_append]
  unfold kind
  split <;> simp_all

/-- **Rows can be read back.** Followed by a closing tag or by nothing, a row of valid pieces
and what follows it can be told in one way only. -/
theorem render_separates (ht : Escape escText '<') (hf : Escape escField '"')
    {f g : Forest Unit Tag Leaf} (hvf : Valid f) (hvg : Valid g) {r r' : List Char}
    (hr : kind r = .close) (hr' : kind r' = .close)
    (h : render escText escField f ++ r = render escText escField g ++ r') :
    f = g ∧ r = r' := by
  -- `kind` tells from the first characters what comes next
  induction f generalizing g r r' with
  | nil =>
      cases g with
      | nil => exact ⟨rfl, h⟩
      | leaf _ l rest =>
          have hk := congrArg kind h
          rw [render, render, List.nil_append, List.append_assoc, hr, kind_leaf ht] at hk
          exact absurd hk (by simp)
      | node _ t kids rest =>
          have hk := congrArg kind h
          simp only [render, List.append_assoc, List.nil_append] at hk
          rw [hr, kind_start hvg.1] at hk
          exact absurd hk (by simp)
  | leaf _ l rest ih =>
      cases g with
      | nil =>
          have hk := congrArg kind h
          rw [render, render, List.nil_append, List.append_assoc, hr', kind_leaf ht] at hk
          exact absurd hk (by simp)
      | leaf _ l' rest' =>
          simp only [render, List.append_assoc] at h
          obtain ⟨hl, h⟩ := leaf_separates ht hvf.1 hvg.1 h
          obtain ⟨hrest, h⟩ := ih hvf.2 hvg.2 hr hr' h
          exact ⟨by rw [hl, hrest], h⟩
      | node _ t' kids' rest' =>
          have hk := congrArg kind h
          simp only [render, List.append_assoc] at hk
          rw [kind_leaf ht, kind_start hvg.1] at hk
          exact absurd hk (by simp)
  | node _ t kids rest ihk ihr =>
      cases g with
      | nil =>
          have hk := congrArg kind h
          simp only [render, List.append_assoc, List.nil_append] at hk
          rw [hr', kind_start hvf.1] at hk
          exact absurd hk (by simp)
      | leaf _ l' rest' =>
          have hk := congrArg kind h
          simp only [render, List.append_assoc] at hk
          rw [kind_leaf ht, kind_start hvf.1] at hk
          exact absurd hk (by simp)
      | node _ t' kids' rest' =>
          simp only [render, List.append_assoc] at h
          obtain ⟨rfl, h⟩ := start_separates hf hvf.1 hvg.1 h
          obtain ⟨hkids, h⟩ := ihk hvf.2.1 hvg.2.1 rfl rfl h
          obtain ⟨hrest, h⟩ := ihr hvf.2.2 hvg.2.2 hr hr' (end_separates h)
          exact ⟨by rw [hkids, hrest], h⟩

/-! ## The top -/

/-- Drop line breaks. -/
def dropBreaks (s : List Char) : List Char := s.dropWhile (fun c => c = '\n')

theorem dropBreaks_newline (b : Bool) (s : List Char) :
    dropBreaks (newline b ++ s) = dropBreaks s := by
  cases b <;> simp [newline, dropBreaks]

theorem dropBreaks_lt (s : List Char) : dropBreaks ('<' :: s) = '<' :: s := by
  simp [dropBreaks]

theorem dropBreaks_leaf {l : Leaf} (hl : l.isChar = false) (s : List Char) :
    dropBreaks (renderLeaf escText l ++ s) = renderLeaf escText l ++ s := by
  cases l with
  | char => simp [Leaf.isChar] at hl
  | comment => exact dropBreaks_lt _
  | instruction => exact dropBreaks_lt _

theorem dropBreaks_start (t : Tag) (s : List Char) :
    dropBreaks (renderStart escField t ++ s) = renderStart escField t ++ s :=
  dropBreaks_lt _

/-- **A document can be read back,** even when line breaks at the front are ignored. -/
theorem renderTop_injective (ht : Escape escText '<') (hf : Escape escField '"')
    {f g : Forest Unit Tag Leaf} (hvf : TopValid f) (hvg : TopValid g) {b b' : Bool}
    (h : dropBreaks (renderTop escText escField b f)
      = dropBreaks (renderTop escText escField b' g)) : f = g := by
  -- as for a row, with the line breaks between the nodes dropped on both sides
  induction f generalizing g b b' with
  | nil =>
      cases g with
      | nil => rfl
      | leaf _ l rest =>
          have hk := congrArg kind h
          simp only [renderTop, List.append_assoc, dropBreaks_newline] at hk
          rw [dropBreaks_leaf hvg.2.1, kind_leaf ht] at hk
          exact absurd hk (by simp [dropBreaks, kind])
      | node _ t kids rest =>
          have hk := congrArg kind h
          simp only [renderTop, List.append_assoc] at hk
          rw [dropBreaks_start, kind_start hvg.1] at hk
          exact absurd hk (by simp [dropBreaks, kind])
  | leaf _ l rest ih =>
      cases g with
      | nil =>
          have hk := congrArg kind h
          simp only [renderTop, List.append_assoc, dropBreaks_newline] at hk
          rw [dropBreaks_leaf hvf.2.1, kind_leaf ht] at hk
          exact absurd hk (by simp [dropBreaks, kind])
      | leaf _ l' rest' =>
          simp only [renderTop, List.append_assoc, dropBreaks_newline] at h
          rw [dropBreaks_leaf hvf.2.1, dropBreaks_leaf hvg.2.1] at h
          obtain ⟨hl, h⟩ := leaf_separates ht hvf.1 hvg.1 h
          have hrest := congrArg dropBreaks h
          rw [dropBreaks_newline, dropBreaks_newline] at hrest
          rw [hl, ih hvf.2.2 hvg.2.2 hrest]
      | node _ t' kids' rest' =>
          have hk := congrArg kind h
          simp only [renderTop, List.append_assoc, dropBreaks_newline] at hk
          rw [dropBreaks_leaf hvf.2.1, dropBreaks_start, kind_leaf ht, kind_start hvg.1] at hk
          exact absurd hk (by simp)
  | node _ t kids rest ihk ihr =>
      cases g with
      | nil =>
          have hk := congrArg kind h
          simp only [renderTop, List.append_assoc] at hk
          rw [dropBreaks_start, kind_start hvf.1] at hk
          exact absurd hk (by simp [dropBreaks, kind])
      | leaf _ l' rest' =>
          have hk := congrArg kind h
          simp only [renderTop, List.append_assoc, dropBreaks_newline] at hk
          rw [dropBreaks_leaf hvg.2.1, dropBreaks_start, kind_leaf ht, kind_start hvf.1] at hk
          exact absurd hk (by simp)
      | node _ t' kids' rest' =>
          simp only [renderTop, List.append_assoc] at h
          rw [dropBreaks_start, dropBreaks_start] at h
          obtain ⟨rfl, h⟩ := start_separates hf hvf.1 hvg.1 h
          obtain ⟨hkids, h⟩ := render_separates ht hf hvf.2.1 hvg.2.1 rfl rfl h
          rw [hkids, ihr hvf.2.2 hvg.2.2 (congrArg dropBreaks (end_separates h))]

end Separate

end Markup
