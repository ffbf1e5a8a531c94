import Bergshamra.Dsig.Sign
import Bergshamra.Enc.Decrypt
import Bergshamra.Proof.IdLookup

/-!
# One meaning for an id

The library makes four tables of the id values of a document: one for signing,
one for the References and key references of a verification, one of the default
attributes for the XPointer transform and for `id()`, and one for decryption. The
first three refuse a document in which they meet a value twice; the last keeps
the element that comes last. `one_meaning_iff` says for which documents an id
still means one thing.
-/

namespace Bergshamra

variable {up : UppsalaNs} {idAttrs : List String} {doc : Document}

/-! ## Maps that replace -/

theorem IdMap.get?_append (m m' : IdMap) (id : String) :
    IdMap.get? (m ++ m') id = (m.get? id).or (m'.get? id) := by
  unfold IdMap.get?
  rw [List.find?_append]
  cases m.find? (fun p => p.1 == id) with
  | none => rfl
  | some p => rfl

theorem IdMap.get?_singleton (p : String × Node) (id : String) :
    IdMap.get? [p] id = if p.1 = id then some p.2 else none := by
  unfold IdMap.get?
  by_cases hp : p.1 = id
  · simp [hp]
  · simp [hp]

theorem IdMap.get?_insert (m : IdMap) (p : String × Node) (id : String) :
    (m.insert p).get? id = if p.1 = id then some p.2 else m.get? id := by
  rw [IdMap.insert, IdMap.get?_append, IdMap.get?_singleton]
  by_cases hp : p.1 = id
  · have hnone : IdMap.get? (m.filter (fun q => q.1 != p.1)) id = none := by
      rw [IdMap.get?, Option.map_eq_none_iff, List.find?_eq_none]
      intro q hq hqid
      have hne : q.1 ≠ p.1 := by simpa using List.of_mem_filter hq
      exact hne ((beq_iff_eq.mp hqid).trans hp.symm)
    rw [hnone, Option.none_or, if_pos hp, if_pos hp]
  · have hsame : IdMap.get? (m.filter (fun q => q.1 != p.1)) id = m.get? id := by
      unfold IdMap.get?
      rw [List.find?_filter]
      congr 2
      funext q
      by_cases hq : q.1 = id
      · simp [hq, Ne.symm hp]
      · simp [hq]
    rw [hsame, if_neg hp, if_neg hp, Option.or_none]

/-- In a map that replaces, the last entry with a value is what a lookup finds. -/
theorem IdMap.get?_foldl_insert (ps : List (String × Node)) (m : IdMap) (id : String) :
    (ps.foldl IdMap.insert m).get? id = (IdMap.get? ps.reverse id).or (m.get? id) := by
  induction ps generalizing m with
  | nil => rfl
  | cons p ps ih =>
      rw [List.foldl_cons, ih, IdMap.get?_insert, List.reverse_cons, IdMap.get?_append,
        IdMap.get?_singleton, Option.or_assoc]
      congr 1
      by_cases hp : p.1 = id
      · rw [if_pos hp, if_pos hp, Option.some_or]
      · rw [if_neg hp, if_neg hp, Option.none_or]

/-! ## The tables -/

/-- The tables that refuse a value they meet twice. -/
inductive IdTable
  | sign
  | verify
  | default

/-- The id values of an element that a table reads. -/
def IdTable.values (up : UppsalaNs) (idAttrs : List String) : IdTable → Element → List String
  | .sign, e => Sign.idValues up (defaultIdAttrs ++ idAttrs) e
  | .verify, e => (defaultIdAttrs ++ idAttrs ++ ["xml:id"]).filterMap (up.getAttribute e)
  | .default, e => (defaultIdAttrs ++ ["xml:id"]).filterMap (up.getAttribute e)

/-- The table of a document. -/
def IdTable.idMap (up : UppsalaNs) (idAttrs : List String) (doc : Document) :
    IdTable → Except Error IdMap
  | .sign => Sign.buildIdMap up doc (defaultIdAttrs ++ idAttrs)
  | .verify => buildIdMap up.toUppsala doc (defaultIdAttrs ++ idAttrs)
  | .default => buildIdMap up.toUppsala doc defaultIdAttrs

/-- The node is an element with the value among those that `values` reads. -/
def ReadsId (values : Element → List String) (doc : Document) (n : Node) (id : String) : Prop :=
  n ∈ doc.descendants ∧ ∃ e, n.element? = some e ∧ id ∈ values e

theorem mem_entriesBy_iff {values : Element → List String} {id : String} {n : Node} :
    (id, n) ∈ entriesBy values doc ↔ ReadsId values doc n id := by
  unfold entriesBy ReadsId
  rw [List.mem_flatMap]
  constructor
  · rintro ⟨m, hm, hin⟩
    cases he : m.element? with
    | none => simp [he] at hin
    | some e =>
        simp only [he, List.mem_map] at hin
        obtain ⟨v, hv, hpair⟩ := hin
        obtain ⟨rfl, rfl⟩ := Prod.mk.inj hpair
        exact ⟨hm, e, he, hv⟩
  · rintro ⟨hn, e, he, hid⟩
    refine ⟨n, hn, ?_⟩
    simp only [he, List.mem_map]
    exact ⟨id, hid, rfl⟩

theorem idEntries_eq (up : Uppsala) (attrNames : List String) (doc : Document) :
    idEntries up attrNames doc
      = entriesBy (fun e => (attrNames ++ ["xml:id"]).filterMap (up.getAttribute e)) doc := by
  unfold idEntries entriesBy
  congr 1
  funext n
  cases n.element? with
  | none => rfl
  | some e => exact (List.map_filterMap ..).symm

/-- Inserting succeeds exactly where no value occurs twice. -/
theorem insertIds_ok_iff {m m' : IdMap} {ps : List (String × Node)}
    (hm : (m.map Prod.fst).Nodup) :
    insertIds m ps = .ok m' ↔ m' = m ++ ps ∧ ((m ++ ps).map Prod.fst).Nodup := by
  constructor
  · intro h
    have heq := insertIds_ok h
    exact ⟨heq, heq ▸ insertIds_nodup h hm⟩
  · rintro ⟨rfl, hnodup⟩
    induction ps generalizing m with
    | nil => rw [insertIds, List.append_nil]
    | cons p ps ih =>
        have hnew : m.get? p.1 = none := by
          rw [IdMap.get?, Option.map_eq_none_iff, List.find?_eq_none]
          intro q hq hqp
          rw [List.map_append, List.nodup_append] at hnodup
          exact hnodup.2.2 q.1 (List.mem_map_of_mem hq) p.1 (by simp) (beq_iff_eq.mp hqp)
        have happ : m ++ p :: ps = (m ++ [p]) ++ ps := by simp
        rw [happ] at hnodup ⊢
        have hfront : ((m ++ [p]).map Prod.fst).Nodup := by
          rw [List.map_append] at hnodup
          exact (List.nodup_append.mp hnodup).1
        rw [insertIds, hnew, Option.isSome_none, if_neg (by simp)]
        exact ih hfront hnodup

/-- A table refuses a document in which it meets a value twice. -/
def IdTable.Refused (up : UppsalaNs) (idAttrs : List String) (doc : Document) (t : IdTable) : Prop :=
  ¬ ((entriesBy (t.values up idAttrs) doc).map Prod.fst).Nodup

theorem IdTable.idMap_ok_iff {t : IdTable} {m : IdMap} :
    t.idMap up idAttrs doc = .ok m
      ↔ m = entriesBy (t.values up idAttrs) doc ∧ ¬ t.Refused up idAttrs doc := by
  have hinsert : t.idMap up idAttrs doc = insertIds [] (entriesBy (t.values up idAttrs) doc) := by
    cases t with
    | sign => rfl
    | verify => rw [IdTable.idMap, buildIdMap, idEntries_eq]; rfl
    | default => rw [IdTable.idMap, buildIdMap, idEntries_eq]; rfl
  rw [hinsert, insertIds_ok_iff (by simp), IdTable.Refused, not_not, List.nil_append]

/-- A lookup in a table finds the element that carries the value. -/
theorem IdTable.get?_iff {t : IdTable} {m : IdMap} (h : t.idMap up idAttrs doc = .ok m)
    {id : String} {n : Node} :
    m.get? id = some n ↔ ReadsId (t.values up idAttrs) doc n id := by
  obtain ⟨rfl, hfine⟩ := IdTable.idMap_ok_iff.mp h
  rw [← mem_entriesBy_iff]
  exact IdMap.get?_iff_mem (not_not.mp hfine)

/-! ## The places -/

/-- The places that resolve an id. -/
inductive IdPlace
  /-- The Reference loop of `sign`. -/
  | signReference
  /-- `resolve_reference_uri`. -/
  | verifyReference
  /-- `resolve_key_info_reference` and `try_resolve_retrieval_method_inline`. -/
  | keyReference
  /-- `apply_xpointer_transform`. -/
  | xpointerTransform
  /-- `try_compound_xpath_filter`. -/
  | idFunction
  /-- `resolve_decryption_key` and `resolve_cipher_reference`. -/
  | decryption

/-- What an id denotes at a place: the place refuses it, or finds a node or nothing. -/
def IdPlace.denotes (up : UppsalaNs) (idAttrs : List String) (doc : Document) (id : String) :
    IdPlace → Except Error (Option Node)
  | .signReference => do
      let idMap ← Sign.buildIdMap up doc (defaultIdAttrs ++ idAttrs)
      let node ← resolveId idMap id
      .ok (some node)
  | .verifyReference => do
      let idMap ← buildIdMap up.toUppsala doc (defaultIdAttrs ++ idAttrs)
      let node ← resolveId idMap id
      .ok (some node)
  | .keyReference => do
      let idMap ← buildIdMap up.toUppsala doc (defaultIdAttrs ++ idAttrs)
      .ok (idMap.get? id)
  | .xpointerTransform => (resolveDefaultId up.toUppsala doc id).map some
  | .idFunction => do
      let idMap ← buildIdMap up.toUppsala doc defaultIdAttrs
      .ok (idMap.get? id)
  | .decryption =>
      .ok ((Decrypt.buildIdMap up.toUppsala doc (defaultIdAttrs ++ idAttrs)).get? id)

/-- The table a place looks in; decryption has none of these. -/
def IdPlace.table : IdPlace → Option IdTable
  | .signReference => some .sign
  | .verifyReference | .keyReference => some .verify
  | .xpointerTransform | .idFunction => some .default
  | .decryption => none

/-- The id values of an element that decryption reads. -/
def decryptionValues (up : UppsalaNs) (idAttrs : List String) (e : Element) : List String :=
  Decrypt.idValues up.toUppsala (defaultIdAttrs ++ idAttrs) e

/-- The id values of an element: of any registered attribute, or of `xml:id` however it is read. -/
def anyIdValues (up : UppsalaNs) (idAttrs : List String) (e : Element) : List String :=
  IdTable.sign.values up idAttrs e ++ IdTable.verify.values up idAttrs e

/-- Two elements carry the same id value. -/
def HasDuplicateId (up : UppsalaNs) (idAttrs : List String) (doc : Document) : Prop :=
  ∃ id n m, ReadsId (anyIdValues up idAttrs) doc n id ∧ ReadsId (anyIdValues up idAttrs) doc m id
    ∧ n ≠ m

/-- **One meaning**: places that do not refuse an id take it for the same element, and where two
elements carry one value every place refuses. -/
structure OneMeaning (up : UppsalaNs) (idAttrs : List String) (doc : Document) : Prop where
  same : ∀ (p q : IdPlace) (id : String) (a b : Option Node),
    p.denotes up idAttrs doc id = .ok a → q.denotes up idAttrs doc id = .ok b → a = b
  refuses : HasDuplicateId up idAttrs doc →
    ∀ (p : IdPlace) (id : String), ∃ e, p.denotes up idAttrs doc id = .error e

theorem resolveId_ok {m : IdMap} {id : String} {n : Node} :
    resolveId m id = .ok n ↔ m.get? id = some n := by
  unfold resolveId
  cases m.get? id with
  | none => simp
  | some n' => simp

/-- A place that has a table answers with the element the table has the value from. -/
theorem IdPlace.denotes_table {p : IdPlace} {t : IdTable} (hp : p.table = some t) {id : String}
    {a : Option Node} (h : p.denotes up idAttrs doc id = .ok a) :
    ∃ m, t.idMap up idAttrs doc = .ok m ∧ m.get? id = a := by
  cases p with
  | decryption => cases hp
  | signReference =>
      cases hp
      simp only [IdPlace.denotes, bind_eq_ok, resolveId_ok, Except.ok.injEq] at h
      obtain ⟨m, hm, n, hn, rfl⟩ := h
      exact ⟨m, hm, hn⟩
  | verifyReference =>
      cases hp
      simp only [IdPlace.denotes, bind_eq_ok, resolveId_ok, Except.ok.injEq] at h
      obtain ⟨m, hm, n, hn, rfl⟩ := h
      exact ⟨m, hm, hn⟩
  | keyReference =>
      cases hp
      simp only [IdPlace.denotes, bind_eq_ok, Except.ok.injEq] at h
      obtain ⟨m, hm, rfl⟩ := h
      exact ⟨m, hm, rfl⟩
  | xpointerTransform =>
      cases hp
      -- the transform reads the ids of the default names anew
      cases hr : resolveDefaultId up.toUppsala doc id with
      | error e => simp [IdPlace.denotes, hr, Except.map] at h
      | ok n =>
          obtain rfl : some n = a := by simpa [IdPlace.denotes, hr, Except.map] using h
          simp only [resolveDefaultId, bind_eq_ok, resolveId_ok] at hr
          obtain ⟨m, hm, hn⟩ := hr
          exact ⟨m, hm, hn⟩
  | idFunction =>
      cases hp
      simp only [IdPlace.denotes, bind_eq_ok, Except.ok.injEq] at h
      obtain ⟨m, hm, rfl⟩ := h
      exact ⟨m, hm, rfl⟩

/-- What a table has, the References that look in it find. -/
theorem IdTable.exists_place {t : IdTable} {m : IdMap} (h : t.idMap up idAttrs doc = .ok m)
    {id : String} {n : Node} (hn : m.get? id = some n) :
    ∃ p : IdPlace, p.denotes up idAttrs doc id = .ok (some n) := by
  have hres := resolveId_ok.mpr hn
  cases t with
  | sign =>
      refine ⟨.signReference, ?_⟩
      simp only [IdPlace.denotes, bind_eq_ok]
      exact ⟨m, h, n, hres, rfl⟩
  | verify =>
      refine ⟨.verifyReference, ?_⟩
      simp only [IdPlace.denotes, bind_eq_ok]
      exact ⟨m, h, n, hres, rfl⟩
  | default =>
      refine ⟨.idFunction, ?_⟩
      simp only [IdPlace.denotes, bind_eq_ok]
      exact ⟨m, h, by rw [hn]⟩

/-! ## Where an id has one meaning -/

theorem ReadsId.mono {values values' : Element → List String} {n : Node} {id : String}
    (h : ReadsId values doc n id) (hsub : ∀ e, values e ⊆ values' e) : ReadsId values' doc n id := by
  obtain ⟨hn, e, he, hid⟩ := h
  exact ⟨hn, e, he, hsub e hid⟩

theorem decryptionValues_subset_sign (e : Element) :
    decryptionValues up idAttrs e ⊆ IdTable.sign.values up idAttrs e :=
  List.subset_append_left ..

theorem decryptionValues_subset_verify (e : Element) :
    decryptionValues up idAttrs e ⊆ IdTable.verify.values up idAttrs e := by
  intro id hid
  rw [IdTable.values.eq_def]
  dsimp only
  rw [List.filterMap_append]
  exact List.mem_append_left _ hid

theorem decryptionValues_subset (e : Element) :
    decryptionValues up idAttrs e ⊆ anyIdValues up idAttrs e :=
  fun _ hid => List.mem_append_left _ (decryptionValues_subset_sign e hid)

/-- Decryption finds an element that carries the value, if there is one. -/
theorem decryption_denotes (hone : ¬ HasDuplicateId up idAttrs doc) (id : String) :
    ∃ a, IdPlace.decryption.denotes up idAttrs doc id = .ok a
      ∧ ∀ n, a = some n ↔ ReadsId (decryptionValues up idAttrs) doc n id := by
  refine ⟨_, rfl, fun n => ?_⟩
  have hnil : IdMap.get? [] id = none := rfl
  rw [Decrypt.buildIdMap, IdMap.get?_foldl_insert, hnil, Option.or_none]
  constructor
  · intro h
    have hmem := IdMap.mem_of_get? h
    rw [List.mem_reverse] at hmem
    exact mem_entriesBy_iff.mp hmem
  · intro h
    have hmem := List.mem_reverse.mpr (mem_entriesBy_iff.mpr h)
    cases hg : IdMap.get? (entriesBy (Decrypt.idValues up.toUppsala (defaultIdAttrs ++ idAttrs))
        doc).reverse id with
    | none =>
        rw [IdMap.get?, Option.map_eq_none_iff, List.find?_eq_none] at hg
        exact absurd (beq_self_eq_true id) (hg _ hmem)
    | some m =>
        -- the entry found is of an element that carries the value too
        have hm := IdMap.mem_of_get? hg
        rw [List.mem_reverse] at hm
        have hm := mem_entriesBy_iff.mp hm
        by_cases hnm : n = m
        · rw [hnm]
        · exact absurd ⟨id, n, m, h.mono decryptionValues_subset, hm.mono decryptionValues_subset,
            hnm⟩ hone

/-- A table reads off the elements of a document what decryption reads. -/
def IdTable.AsDecryption (up : UppsalaNs) (idAttrs : List String) (doc : Document) (t : IdTable) :
    Prop :=
  ∀ id n, ReadsId (t.values up idAttrs) doc n id ↔ ReadsId (decryptionValues up idAttrs) doc n id

/-- **Where an id has one meaning**: exactly where no two elements carry the same value and every
table that does not refuse the document reads the values that decryption reads. -/
theorem one_meaning_iff (up : UppsalaNs) (idAttrs : List String) (doc : Document) :
    OneMeaning up idAttrs doc
      ↔ ¬ HasDuplicateId up idAttrs doc
        ∧ ∀ t : IdTable, t.Refused up idAttrs doc ∨ t.AsDecryption up idAttrs doc := by
  constructor
  · intro h
    have hone : ¬ HasDuplicateId up idAttrs doc := by
      intro hdup
      obtain ⟨e, he⟩ := h.refuses hdup .decryption ""
      cases he
    refine ⟨hone, fun t => ?_⟩
    by_cases hfine : t.Refused up idAttrs doc
    · exact Or.inl hfine
    refine Or.inr fun id n => ?_
    have hmap := IdTable.idMap_ok_iff.mpr ⟨rfl, hfine⟩
    obtain ⟨a, ha, hdec⟩ := decryption_denotes hone id
    constructor
    · intro hreads
      obtain ⟨p, hp⟩ := IdTable.exists_place hmap ((IdTable.get?_iff hmap).mpr hreads)
      exact (hdec n).mp (h.same .decryption p id a (some n) ha hp)
    · intro hreads
      cases t with
      | sign => exact hreads.mono decryptionValues_subset_sign
      | verify => exact hreads.mono decryptionValues_subset_verify
      | default =>
          -- `id()` does not refuse what its table lacks, so the table cannot lack it
          rw [← IdTable.get?_iff hmap, ← (hdec n).mpr hreads]
          refine h.same .idFunction .decryption id _ _ ?_ ha
          simp only [IdPlace.denotes, bind_eq_ok]
          exact ⟨_, hmap, rfl⟩
  · rintro ⟨hone, htables⟩
    refine ⟨?_, fun hdup => absurd hdup hone⟩
    have hdenotes : ∀ (p : IdPlace) (id : String) (a : Option Node),
        p.denotes up idAttrs doc id = .ok a →
          ∀ n, a = some n ↔ ReadsId (decryptionValues up idAttrs) doc n id := by
      intro p id a hp n
      cases ht : p.table with
      | none =>
          cases p with
          | decryption =>
              obtain ⟨b, hb, hdec⟩ := decryption_denotes hone id
              rw [hp, Except.ok.injEq] at hb
              rw [hb, hdec]
          | _ => cases ht
      | some t =>
          obtain ⟨m, hm, rfl⟩ := IdPlace.denotes_table ht hp
          rcases htables t with hrefused | has
          · exact absurd hrefused (IdTable.idMap_ok_iff.mp hm).2
          · rw [IdTable.get?_iff hm, has]
    intro p q id a b hp hq
    ext n
    rw [hdenotes p id a hp, hdenotes q id b hq]

/-! ## The last of two -/

/-- A parser's crate that compares local names, and namespaces where it is given one. -/
def sampleUppsala : UppsalaNs where
  parse _ := .error "no text is known"
  getAttribute e a := (e.attributes.find? (fun b => b.name.localName == a)).map (·.value)
  getAttributeNs e nsUri a :=
    (e.attributes.find? (fun b => b.name.uri == nsUri && b.name.localName == a)).map (·.value)

/-- Two elements with the id `x`. -/
def twoElements : Document where
  root := 0
  top := .node 1 ⟨⟨none, "root", none⟩, [], []⟩
    (.node 2 ⟨⟨none, "a", none⟩, [Sample.attr "Id" "x"], []⟩ .nil
      (.node 3 ⟨⟨none, "b", none⟩, [Sample.attr "Id" "x"], []⟩ .nil .nil)) .nil
  nodup := by decide

/-- Decryption takes the second. -/
theorem second_element_decrypted :
    ¬ ∀ (up : UppsalaNs) (idAttrs : List String) (doc : Document), OneMeaning up idAttrs doc := by
  intro h
  have hdup : HasDuplicateId sampleUppsala [] twoElements := by
    refine ⟨"x", ⟨2, [(1, ⟨⟨none, "root", none⟩, [], []⟩)],
        .node ⟨⟨none, "a", none⟩, [Sample.attr "Id" "x"], []⟩ .nil⟩,
      ⟨3, [(1, ⟨⟨none, "root", none⟩, [], []⟩)],
        .node ⟨⟨none, "b", none⟩, [Sample.attr "Id" "x"], []⟩ .nil⟩,
      ⟨by decide +kernel, _, rfl, by decide +kernel⟩,
      ⟨by decide +kernel, _, rfl, by decide +kernel⟩, by decide⟩
  obtain ⟨e, he⟩ := (h sampleUppsala [] twoElements).refuses hdup .decryption "x"
  cases he

end Bergshamra
