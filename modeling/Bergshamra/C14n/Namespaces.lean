import Bergshamra.Xml.Document
import Bergshamra.Lib.OrdMap

/-!
# In-scope namespaces

Both canonicalizers and the XPath filter compute the namespaces in scope at an
element by walking to the root, one map of declarations per element, and merging
the maps from the root down. They differ only in which empty URIs remove a
binding: the inclusive canonicalizer keeps `xmlns=""` as an entry of its own.
-/

namespace Bergshamra

/-- `BTreeMap<String, String>` from prefix to URI; the default prefix is `""`. -/
abbrev NsMap := Std.ExtTreeMap String String

/-- The declarations of one element as a map. -/
def nsLevel (e : Element) : NsMap :=
  e.namespaceDeclarations.foldl (fun level d => level.insert d.1 d.2) ∅

/-- Merge one element's declarations over what its ancestors bound. -/
def mergeLevel (drop : String → String → Bool) (result level : NsMap) : NsMap :=
  level.toList.foldl
    (fun result d => if drop d.1 d.2 then result.erase d.1 else result.insert d.1 d.2) result

/-- The walk: `chain` is the element and its ancestors, nearest first. -/
def collectInscope (drop : String → String → Bool) (chain : List Element) : NsMap :=
  chain.foldr (fun e result => mergeLevel drop result (nsLevel e)) ∅

/-- `collect_inscope_namespaces` of `inclusive.rs`. -/
def Inclusive.collectInscopeNamespaces (chain : List Element) : NsMap :=
  collectInscope (fun p uri => uri.isEmpty && !p.isEmpty) chain

/-- `collect_inscope_namespaces` of `exclusive.rs`. -/
def Exclusive.collectInscopeNamespaces (chain : List Element) : NsMap :=
  collectInscope (fun _ uri => uri.isEmpty) chain

theorem getElem?_mergeLevel (drop : String → String → Bool) (result level : NsMap) (p : String) :
    (mergeLevel drop result level)[p]?
      = match level[p]? with
        | some uri => if drop p uri then none else some uri
        | none => result[p]? := by
  unfold mergeLevel
  rw [OrdMap.getElem?_overlay (OrdMap.keyedStep_ite drop (fun _ uri => uri)) level result p]
  cases level[p]? <;> rfl

@[simp] theorem collectInscope_nil (drop : String → String → Bool) :
    collectInscope drop [] = ∅ := rfl

/-- The nearest declaration decides; without one the ancestors do. -/
theorem getElem?_collectInscope_cons (drop : String → String → Bool) (e : Element)
    (chain : List Element) (p : String) :
    (collectInscope drop (e :: chain))[p]?
      = match (nsLevel e)[p]? with
        | some uri => if drop p uri then none else some uri
        | none => (collectInscope drop chain)[p]? :=
  getElem?_mergeLevel drop _ _ p

/-- The walk reads of each element the map of its declarations. -/
theorem collectInscope_congr (drop : String → String → Bool) {chain chain' : List Element}
    (h : chain.map nsLevel = chain'.map nsLevel) :
    collectInscope drop chain = collectInscope drop chain' := by
  have hmap : ∀ chain : List Element,
      collectInscope drop chain
        = (chain.map nsLevel).foldr (fun level result => mergeLevel drop result level) ∅ := by
    intro chain
    rw [List.foldr_map]
    rfl
  rw [hmap, hmap, h]

/-- A binding the exclusive walk reports is never empty. -/
theorem exclusive_inscope_ne_empty {chain : List Element} {p uri : String}
    (h : (Exclusive.collectInscopeNamespaces chain)[p]? = some uri) : uri.isEmpty = false := by
  unfold Exclusive.collectInscopeNamespaces at h
  induction chain with
  | nil => simp at h
  | cons e chain ih =>
      rw [getElem?_collectInscope_cons] at h
      cases hl : (nsLevel e)[p]? with
      | none => rw [hl] at h; exact ih h
      | some u =>
          simp only [hl] at h
          split at h
          · simp at h
          · rename_i hne
            rw [← Option.some.inj h]
            simpa using hne

end Bergshamra
