import Bergshamra.Proof.SourceTree

/-!
# A parser for the documents of a table

A parser that knows a list of documents reads each of them that is well-formed.
So what is asked of a parser can be had, for any documents there are.
-/

namespace Bergshamra

open XmlSource

/-- Names and data without references. -/
def plainLexicon : Lexicon where
  name n := !n.isEmpty && n.all (fun c => !nameStops.contains c)
  text s := if !s.isEmpty && s.all (fun c => c != '<' && c != '&') then some s else none
  value s := if s.all (fun c => c != '<' && c != '&') then some s else none
  comment s := !Text.containsSub "--".toList (s ++ ['-'])
  instruction _ := none
  declaration _ := false
  name_ne_nil n h := by
    rw [Bool.and_eq_true] at h
    simpa using h.1
  name_chars n h c hc := by
    rw [Bool.and_eq_true] at h
    simpa using List.all_eq_true.mp h.2 c hc
  text_ne_nil s h := by
    split at h
    · rename_i hs
      rw [Bool.and_eq_true] at hs
      simpa using hs.1
    · cases h
  text_chars s h := by
    split at h
    · rename_i hs
      rw [Bool.and_eq_true] at hs
      intro hlt
      exact absurd (List.all_eq_true.mp hs.2 '<' hlt) (by decide)
    · cases h
  value_chars s h := by
    split at h
    · rename_i hs
      intro hlt
      exact absurd (List.all_eq_true.mp hs '<' hlt) (by decide)
    · cases h

section Table

variable (lex : Lexicon) (table : List Source)

/-- The document of the table that is written so. -/
def entryOf? (text : String) : Option Source :=
  table.find? (fun src => String.ofList (src.text spelling) = text)

/-- The tree of a document, under a document node with the id 0. -/
def documentOf (src : Source) : Except String Document :=
  if h : (0 :: (treeOf lex [] src).keys).Nodup then .ok ⟨0, treeOf lex [] src, h⟩
  else .error "ids"

def tableParse (text : String) : Except String Document :=
  match entryOf? table text with
  | some src => documentOf lex src
  | none => .error "not well-formed"

def tableRange (text : String) (n : Node) : Option (Nat × Nat) :=
  (entryOf? table text).bind (fun src =>
    (src.cursors []).findSome? (fun c =>
      match c.item with
      | .node t kids =>
          if c.key = n.key then
            some (Text.byteLength (src.textBefore spelling n.key),
              Text.byteLength (src.textBefore spelling n.key)
                + Text.byteLength (Forest.nodeText spelling t kids))
          else none
      | .leaf _ => none))

variable {lex table}

theorem keys_treeOf (path : List (NodeId × Element)) (src : Source) :
    (treeOf lex path src).keys.Sublist src.keys := by
  induction src generalizing path with
  | nil => exact List.Sublist.refl _
  | leaf i p rest ih =>
      rw [treeOf]
      cases leafOf lex p with
      | none => exact (ih path).cons i
      | some k => exact (ih path).cons_cons i
  | node i t kids rest ihk ihr => exact ((ihk _).append (ihr _)).cons_cons i

/-- Texts that are equal have the same characters. -/
theorem entryOf?_ofList (text : List Char) : entryOf? table (String.ofList text)
    = table.find? (fun src => src.text spelling == text) := by
  rw [entryOf?]
  refine congrArg (fun p => List.find? p table) (funext fun src => ?_)
  rw [Bool.eq_iff_iff, decide_eq_true_eq, beq_iff_eq, String.ofList_inj]

theorem documentOf_eq {src : Source} (hkeys : (0 :: src.keys).Nodup) :
    ∃ doc, documentOf lex src = .ok doc ∧ doc.top = treeOf lex [] src := by
  have hnodup : (0 :: (treeOf lex [] src).keys).Nodup := ((keys_treeOf [] src).cons_cons 0).nodup hkeys
  exact ⟨_, dif_pos hnodup, rfl⟩

/-- **The documents of a table are read.** -/
theorem reads_table {up : Uppsala} {nodeRange : String → Node → Option (Nat × Nat)} {src : Source}
    (hparse : up.parse = tableParse lex table) (hrange : nodeRange = tableRange table)
    (hentry : entryOf? table (String.ofList (src.text spelling)) = some src)
    (hkeys : (0 :: src.keys).Nodup) (hwf : WellFormed lex src) :
    ∃ doc, up.parse (String.ofList (src.text spelling)) = .ok doc
      ∧ Reads lex up nodeRange src doc := by
  obtain ⟨doc, hdoc, htop⟩ := @documentOf_eq lex src hkeys
  have hparsed : up.parse (String.ofList (src.text spelling)) = .ok doc := by
    rw [hparse, tableParse, hentry]
    exact hdoc
  refine ⟨doc, hparsed, hwf, (List.nodup_cons.mp hkeys).2, hparsed, htop, ?_⟩
  intro n _ c hc hkey t kids hitem
  rw [hrange, tableRange, hentry, Option.bind_some, List.findSome?_eq_some_iff]
  obtain ⟨before, after, hsplit⟩ := List.append_of_mem hc
  refine ⟨before, c, after, hsplit, ?_, fun d hd => ?_⟩
  · rw [hitem]
    exact if_pos hkey
  · have hne : d.key ≠ n.key := by
      intro hsame
      have hdistinct := (List.nodup_cons.mp hkeys).2
      rw [← Forest.cursors_keys [], hsplit, List.map_append, List.nodup_append] at hdistinct
      exact hdistinct.2.2 _ (List.mem_map_of_mem hd) _
        (List.mem_map_of_mem List.mem_cons_self) (hsame.trans hkey.symm)
    cases hd' : d.item with
    | leaf p => rfl
    | node t' kids' => exact if_neg hne

/-- What is written like a document of the table, and is of its shape, is understood. -/
theorem understands_table {up : Uppsala} {src entry : Source}
    (hparse : up.parse = tableParse lex table)
    (hentry : entryOf? table (String.ofList (src.text spelling)) = some entry)
    (hkeys : (0 :: entry.keys).Nodup)
    (hshape : (treeOf lex [] entry).shape = (treeOf lex [] src).shape) (hwf : WellFormed lex src) :
    Understands lex up src := by
  obtain ⟨doc, hdoc, htop⟩ := @documentOf_eq lex entry hkeys
  refine ⟨fun _ => ⟨doc, ?_, ?_⟩, fun hnot => absurd hwf hnot⟩
  · rw [hparse, tableParse, hentry]
    exact hdoc
  · rw [htop]
    exact hshape

end Table

end Bergshamra
