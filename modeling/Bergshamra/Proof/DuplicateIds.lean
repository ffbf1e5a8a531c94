import Bergshamra.Proof.IdPlaces

/-!
# Which documents have a duplicate id

`build_id_map` looks each name of its list up on each element, and `xml:id`
after that, and refuses a value that it meets a second time. It meets values, not
attributes: a name that stands in the list twice, or that finds the attribute
another one finds, meets the value of one attribute twice, and an attribute that
no lookup finds is not met at all. The detection is exact where every id
attribute is found by one lookup, and otherwise only by accident.
-/

namespace Bergshamra

/-! ## Values read in turn -/

/-- The values read off the elements of a list are distinct exactly where no two readings, on one
element or on two, give the same. -/
theorem nodup_readings_iff {α β γ : Type} {l : List α} (hl : l.Nodup) (fs : List β)
    (read : α → β → Option γ) :
    (l.flatMap (fun a => fs.filterMap (read a))).Nodup
      ↔ ∀ a ∈ l, ∀ a' ∈ l, ∀ (k k' : Nat) (f f' : β) (v : γ), fs[k]? = some f → fs[k']? = some f' →
        read a f = some v → read a' f' = some v → a = a' ∧ k = k' := by
  -- within one element: two readers that find the same value are one
  have hone : ∀ a, (fs.filterMap (read a)).Nodup
      ↔ ∀ (k k' : Nat) (f f' : β) (v : γ), fs[k]? = some f → fs[k']? = some f' →
        read a f = some v → read a f' = some v → k = k' := by
    intro a
    rw [List.Nodup, List.pairwise_filterMap, List.pairwise_iff_getElem]
    constructor
    · intro h k k' f f' v hk hk' hf hf'
      obtain ⟨hlt, hfk⟩ := List.getElem?_eq_some_iff.mp hk
      obtain ⟨hlt', hfk'⟩ := List.getElem?_eq_some_iff.mp hk'
      subst hfk hfk'
      rcases Nat.lt_trichotomy k k' with hkk | hkk | hkk
      · exact absurd rfl (h k k' hlt hlt' hkk v hf v hf')
      · exact hkk
      · exact absurd rfl (h k' k hlt' hlt hkk v hf' v hf)
    · intro h k k' hk hk' hlt v hv v' hv' heq
      subst heq
      have := h k k' _ _ v (List.getElem?_eq_getElem hk) (List.getElem?_eq_getElem hk') hv hv'
      omega
  rw [List.nodup_flatMap]
  constructor
  · intro h a ha a' ha' k k' f f' v hk hk' hf hf'
    obtain ⟨hnodup, hdisj⟩ := h
    have hsymm : Std.Symm (fun a b : α =>
        List.Disjoint (fs.filterMap (read a)) (fs.filterMap (read b))) :=
      ⟨fun _ _ h => h.symm⟩
    by_cases haa : a = a'
    · subst haa
      exact ⟨rfl, (hone a).mp (hnodup a ha) k k' f f' v hk hk' hf hf'⟩
    · -- two elements share no value
      have := hdisj.forall ha ha' haa
      exact absurd (List.mem_filterMap.mpr ⟨f', List.mem_of_getElem? hk', hf'⟩)
        (this (List.mem_filterMap.mpr ⟨f, List.mem_of_getElem? hk, hf⟩))
  · intro h
    refine ⟨fun a ha => (hone a).mpr ?_, hl.pairwise_of_forall_ne ?_⟩
    · intro k k' f f' v hk hk' hf hf'
      exact (h a ha a ha k k' f f' v hk hk' hf hf').2
    · intro a ha a' ha' hne v hv hv'
      obtain ⟨f, hf, hr⟩ := List.mem_filterMap.mp hv
      obtain ⟨f', hf', hr'⟩ := List.mem_filterMap.mp hv'
      obtain ⟨k, hk⟩ := List.mem_iff_getElem?.mp hf
      obtain ⟨k', hk'⟩ := List.mem_iff_getElem?.mp hf'
      exact hne (h a ha a' ha' k k' f f' v hk hk' hr hr').1

/-! ## Attributes and lookups -/

/-- `xml:id`. -/
def isXmlId (q : QName) : Bool :=
  q.uri == "http://www.w3.org/XML/1998/namespace" && q.localName == "id"

/-- The attribute at a place of an element. -/
def attributeAt (n : Node) (i : Nat) : Option Attribute :=
  n.element?.bind (fun e => e.attributes[i]?)

/-- The parser's crate finds the first attribute whose name matches, and under the name `xml:id`
nothing else. -/
structure FirstMatch (up : UppsalaNs) (names : String → QName → Bool) (doc : Document) : Prop where
  getAttribute : ∀ e a,
    up.getAttribute e a = (e.attributes.find? (fun b => names a b.name)).map (·.value)
  getAttributeNs : ∀ e nsUri a, up.getAttributeNs e nsUri a
    = (e.attributes.find? (fun b => b.name.uri == nsUri && b.name.localName == a)).map (·.value)
  xmlId : ∀ n ∈ doc.descendants, ∀ i b, attributeAt n i = some b →
    names "xml:id" b.name = true → isXmlId b.name = true

/-- The names of id attributes that a table is made with. -/
def IdTable.attrNames (idAttrs : List String) : IdTable → List String
  | .sign | .verify => defaultIdAttrs ++ idAttrs
  | .default => defaultIdAttrs

section

variable (names : String → QName → Bool) (idAttrs : List String) (doc : Document)

/-- The attributes that a table looks for on an element, one after the other. -/
def IdTable.lookups : IdTable → List (QName → Bool)
  | .sign => (defaultIdAttrs ++ idAttrs).map names ++ [isXmlId]
  | .verify => (defaultIdAttrs ++ idAttrs ++ ["xml:id"]).map names
  | .default => (defaultIdAttrs ++ ["xml:id"]).map names

/-- The value at a place of an element is an id: the attribute has one of the names or is
`xml:id`. -/
def CarriesId (attrNames : List String) (n : Node) (i : Nat) (id : String) : Prop :=
  n ∈ doc.descendants ∧ ∃ b, attributeAt n i = some b
    ∧ ((∃ a ∈ attrNames, names a b.name = true) ∨ isXmlId b.name = true) ∧ b.value = id

/-- Two id attributes have the same value. -/
def DuplicateId (attrNames : List String) : Prop :=
  ∃ id n n' i i', CarriesId names doc attrNames n i id ∧ CarriesId names doc attrNames n' i' id
    ∧ ¬ (n = n' ∧ i = i')

/-- The detection is exact: an error exactly where two id attributes have the same value, and
otherwise a map of the values to the elements that carry them. -/
def ExactIds (attrNames : List String) (r : Except Error IdMap) : Prop :=
  ((∃ e, r = .error e) ↔ DuplicateId names doc attrNames)
    ∧ (¬ DuplicateId names doc attrNames → ∃ m, r = .ok m
      ∧ ∀ id n, m.get? id = some n ↔ ∃ i, CarriesId names doc attrNames n i id)

/-- The lookup finds the attribute at a place of the element. -/
def Finds (lookups : List (QName → Bool)) (n : Node) (k i : Nat) : Prop :=
  ∃ f e, lookups[k]? = some f ∧ n.element? = some e
    ∧ e.attributes.findIdx? (fun b => f b.name) = some i

/-- Every id attribute is found by exactly one of the lookups. -/
def FoundOnce (attrNames : List String) (lookups : List (QName → Bool)) : Prop :=
  ∀ n i id, CarriesId names doc attrNames n i id →
    ∃ k, Finds lookups n k i ∧ ∀ k', Finds lookups n k' i → k' = k

/-- Two lookups, on one element or on two, find attributes with the same value. -/
def MeetsTwice (lookups : List (QName → Bool)) : Prop :=
  ∃ n ∈ doc.descendants, ∃ n' ∈ doc.descendants, ∃ k k' i i' b b',
    Finds lookups n k i ∧ Finds lookups n' k' i' ∧ attributeAt n i = some b
      ∧ attributeAt n' i' = some b' ∧ b.value = b'.value ∧ ¬ (n = n' ∧ k = k')

end

variable {names : String → QName → Bool}

/-- What a lookup reads off an element. -/
def readValue (n : Node) (f : QName → Bool) : Option String :=
  n.element?.bind (fun e => (e.attributes.find? (fun b => f b.name)).map (·.value))

theorem readValue_iff {lookups : List (QName → Bool)} {n : Node} {k : Nat} {f : QName → Bool}
    (hk : lookups[k]? = some f) {v : String} :
    readValue n f = some v
      ↔ ∃ i b, Finds lookups n k i ∧ attributeAt n i = some b ∧ b.value = v := by
  unfold readValue Finds attributeAt
  cases he : n.element? with
  | none => simp
  | some e =>
      rw [Option.bind_some, Option.map_eq_some_iff, List.find?_eq_bind_findIdx?_getElem?]
      constructor
      · intro h
        obtain ⟨b, hb, hv⟩ := h
        obtain ⟨i, hi, hbi⟩ := Option.bind_eq_some_iff.mp hb
        exact ⟨i, b, ⟨f, e, hk, rfl, hi⟩, hbi, hv⟩
      · intro h
        obtain ⟨i, b, ⟨f', e', hk', he', hi⟩, hbi, hv⟩ := h
        obtain rfl := Option.some.inj (hk.symm.trans hk')
        obtain rfl := Option.some.inj he'
        exact ⟨b, Option.bind_eq_some_iff.mpr ⟨i, hi, hbi⟩, hv⟩

/-- What a lookup finds is at one place. -/
theorem Finds.unique {lookups : List (QName → Bool)} {n : Node} {k i i' : Nat}
    (h : Finds lookups n k i) (h' : Finds lookups n k i') : i = i' := by
  obtain ⟨f, e, hk, he, hi⟩ := h
  obtain ⟨f', e', hk', he', hi'⟩ := h'
  obtain rfl := Option.some.inj (hk.symm.trans hk')
  obtain rfl := Option.some.inj (he.symm.trans he')
  exact Option.some.inj (hi.symm.trans hi')

section

variable (hup : FirstMatch up names doc)
include hup

/-- A table reads off an element what its lookups find there. -/
theorem IdTable.values_eq (t : IdTable) (e : Element) :
    t.values up idAttrs e = (t.lookups names idAttrs).filterMap
      (fun f => (e.attributes.find? (fun b => f b.name)).map (·.value)) := by
  have hnames : ∀ l : List String, l.filterMap (up.getAttribute e) = (l.map names).filterMap
      (fun f => (e.attributes.find? (fun b => f b.name)).map (·.value)) := by
    intro l
    rw [List.filterMap_map]
    congr 1
    funext a
    exact hup.getAttribute e a
  cases t with
  | sign =>
      rw [IdTable.values, Sign.idValues, hnames, IdTable.lookups, List.filterMap_append,
        hup.getAttributeNs]
      congr 1
  | verify => exact hnames _
  | default => exact hnames _

theorem IdTable.fst_entries (t : IdTable) :
    (entriesBy (t.values up idAttrs) doc).map Prod.fst
      = doc.descendants.flatMap (fun n => (t.lookups names idAttrs).filterMap (readValue n)) := by
  unfold entriesBy readValue
  rw [List.map_flatMap]
  congr 1
  funext n
  cases n.element? with
  | none => simp
  | some e =>
      dsimp only [Option.bind_some]
      rw [List.map_map, IdTable.values_eq hup t e]
      exact List.map_id _

/-- A table is refused exactly where its lookups meet a value twice. -/
theorem IdTable.refused_iff (t : IdTable) :
    t.Refused up idAttrs doc ↔ MeetsTwice doc (t.lookups names idAttrs) := by
  rw [IdTable.Refused, IdTable.fst_entries hup t,
    nodup_readings_iff doc.nodup_descendants]
  constructor
  · intro h
    by_contra hno
    refine h fun n hn n' hn' k k' f f' v hk hk' hv hv' => ?_
    obtain ⟨i, b, hfind, hb, hbv⟩ := (readValue_iff hk).mp hv
    obtain ⟨i', b', hfind', hb', hbv'⟩ := (readValue_iff hk').mp hv'
    by_contra hne
    exact hno ⟨n, hn, n', hn', k, k', i, i', b, b', hfind, hfind', hb, hb',
      hbv.trans hbv'.symm, hne⟩
  · intro h hall
    obtain ⟨n, hn, n', hn', k, k', i, i', b, b', hfind, hfind', hb, hb', hvv, hne⟩ := h
    obtain ⟨f, e, hk, he, hi⟩ := hfind
    obtain ⟨f', e', hk', he', hi'⟩ := hfind'
    refine hne (hall n hn n' hn' k k' f f' b.value hk hk' ?_ ?_)
    · exact (readValue_iff hk).mpr ⟨i, b, ⟨f, e, hk, he, hi⟩, hb, rfl⟩
    · exact (readValue_iff hk').mpr ⟨i', b', ⟨f', e', hk', he', hi'⟩, hb', hvv.symm⟩

/-- What a lookup finds is an id attribute. -/
theorem IdTable.carries_of_finds {t : IdTable} {n : Node} (hn : n ∈ doc.descendants) {k i : Nat}
    (h : Finds (t.lookups names idAttrs) n k i) {b : Attribute} (hb : attributeAt n i = some b) :
    CarriesId names doc (t.attrNames idAttrs) n i b.value := by
  obtain ⟨f, e, hk, he, hi⟩ := h
  have hbe : e.attributes[i]? = some b := by
    rw [attributeAt, he, Option.bind_some] at hb
    exact hb
  have hmatch : f b.name = true := by
    have hof := List.of_findIdx?_eq_some hi
    rw [hbe] at hof
    exact hof
  refine ⟨hn, b, hb, ?_, rfl⟩
  have hnamed : ∀ l : List String, f ∈ l.map names → ∃ a ∈ l, names a b.name = true := by
    intro l hl
    obtain ⟨a, ha, rfl⟩ := List.mem_map.mp hl
    exact ⟨a, ha, hmatch⟩
  have hxml : ∀ l : List String, (∃ a ∈ l ++ ["xml:id"], names a b.name = true) →
      (∃ a ∈ l, names a b.name = true) ∨ isXmlId b.name = true := by
    intro l hl
    obtain ⟨a, ha, hab⟩ := hl
    rcases List.mem_append.mp ha with ha | ha
    · exact Or.inl ⟨a, ha, hab⟩
    · rw [List.mem_singleton.mp ha] at hab
      exact Or.inr (hup.xmlId n hn i b hb hab)
  have hmem := List.mem_of_getElem? hk
  cases t with
  | sign =>
      -- the last lookup of signing is the one for `xml:id`
      rcases List.mem_append.mp hmem with hmem | hmem
      · exact Or.inl (hnamed _ hmem)
      · rw [List.mem_singleton.mp hmem] at hmatch
        exact Or.inr hmatch
  | verify => exact hxml _ (hnamed _ hmem)
  | default => exact hxml _ (hnamed _ hmem)

/-- A value that a table reads off an element is that of an attribute there. -/
theorem IdTable.reads_iff (t : IdTable) {n : Node} {id : String} :
    ReadsId (t.values up idAttrs) doc n id ↔ n ∈ doc.descendants
      ∧ ∃ k i b, Finds (t.lookups names idAttrs) n k i ∧ attributeAt n i = some b
        ∧ b.value = id := by
  have hread : (∃ e, n.element? = some e ∧ id ∈ t.values up idAttrs e)
      ↔ ∃ (k : Nat) (f : QName → Bool), (t.lookups names idAttrs)[k]? = some f
        ∧ readValue n f = some id := by
    cases he : n.element? with
    | none => simp [readValue, he]
    | some e =>
        have hvalues : id ∈ t.values up idAttrs e ↔ ∃ f ∈ t.lookups names idAttrs,
            (e.attributes.find? (fun b => f b.name)).map (·.value) = some id := by
          rw [IdTable.values_eq hup, List.mem_filterMap]
        constructor
        · intro h
          obtain ⟨e', he', hid⟩ := h
          obtain rfl := Option.some.inj he'
          obtain ⟨f, hf, hv⟩ := hvalues.mp hid
          obtain ⟨k, hk⟩ := List.mem_iff_getElem?.mp hf
          exact ⟨k, f, hk, by rw [readValue, he, Option.bind_some, hv]⟩
        · intro h
          obtain ⟨k, f, hk, hv⟩ := h
          rw [readValue, he, Option.bind_some] at hv
          exact ⟨e, rfl, hvalues.mpr ⟨f, List.mem_of_getElem? hk, hv⟩⟩
  rw [ReadsId, hread]
  constructor
  · intro h
    obtain ⟨hn, k, f, hk, hv⟩ := h
    obtain ⟨i, b, hfind, hb, hbv⟩ := (readValue_iff hk).mp hv
    exact ⟨hn, k, i, b, hfind, hb, hbv⟩
  · intro h
    obtain ⟨hn, k, i, b, ⟨f, e, hk, he, hi⟩, hb, hbv⟩ := h
    exact ⟨hn, k, f, hk, (readValue_iff hk).mpr ⟨i, b, ⟨f, e, hk, he, hi⟩, hb, hbv⟩⟩

/-- What is found once is met once: two meetings of a value are two attributes that have it. -/
theorem IdTable.duplicate_of_meets {t : IdTable}
    (honce : FoundOnce names doc (t.attrNames idAttrs) (t.lookups names idAttrs))
    (h : MeetsTwice doc (t.lookups names idAttrs)) :
    DuplicateId names doc (t.attrNames idAttrs) := by
  obtain ⟨n, hn, n', hn', k, k', i, i', b, b', hf, hf', hb, hb', hvv, hne⟩ := h
  have hc := IdTable.carries_of_finds hup hn hf hb
  have hc' := IdTable.carries_of_finds hup hn' hf' hb'
  refine ⟨b.value, n, n', i, i', hc, hvv ▸ hc', ?_⟩
  rintro ⟨rfl, rfl⟩
  obtain ⟨k₀, -, huniq⟩ := honce n i b.value hc
  exact hne ⟨rfl, (huniq k hf).trans (huniq k' hf').symm⟩

omit hup in
/-- Two attributes that are found are met. -/
theorem meets_of_duplicate {attrNames : List String} {lookups : List (QName → Bool)}
    (honce : FoundOnce names doc attrNames lookups) (h : DuplicateId names doc attrNames) :
    MeetsTwice doc lookups := by
  obtain ⟨id, n, n', i, i', hc, hc', hne⟩ := h
  obtain ⟨k, hk, -⟩ := honce n i id hc
  obtain ⟨k', hk', -⟩ := honce n' i' id hc'
  obtain ⟨hn, b, hb, -, hv⟩ := hc
  obtain ⟨hn', b', hb', -, hv'⟩ := hc'
  refine ⟨n, hn, n', hn', k, k', i, i', b, b', hk, hk', hb, hb', hv.trans hv'.symm, ?_⟩
  rintro ⟨rfl, rfl⟩
  exact hne ⟨rfl, hk.unique hk'⟩

/-- **The detection is exact where every id attribute is found once, or where two have the same
value and some value is met twice.** -/
theorem IdTable.exactIds_iff (t : IdTable) :
    ExactIds names doc (t.attrNames idAttrs) (t.idMap up idAttrs doc)
      ↔ FoundOnce names doc (t.attrNames idAttrs) (t.lookups names idAttrs)
        ∨ DuplicateId names doc (t.attrNames idAttrs)
          ∧ MeetsTwice doc (t.lookups names idAttrs) := by
  have herr : (∃ e, t.idMap up idAttrs doc = .error e)
      ↔ MeetsTwice doc (t.lookups names idAttrs) := by
    rw [← IdTable.refused_iff hup t]
    cases hm : t.idMap up idAttrs doc with
    | ok m => simp [(IdTable.idMap_ok_iff.mp hm).2]
    | error e =>
        refine ⟨fun _ => ?_, fun _ => ⟨e, rfl⟩⟩
        by_contra hfine
        rw [IdTable.idMap_ok_iff.mpr ⟨rfl, hfine⟩] at hm
        cases hm
  constructor
  · intro h
    obtain ⟨hexact, hmap⟩ := h
    by_cases hdup : DuplicateId names doc (t.attrNames idAttrs)
    · exact Or.inr ⟨hdup, herr.mp (hexact.mpr hdup)⟩
    · refine Or.inl fun n i id hc => ?_
      obtain ⟨m, hm, hget⟩ := hmap hdup
      have hfine : ¬ MeetsTwice doc (t.lookups names idAttrs) := by
        intro hmeets
        exact hdup (hexact.mp (herr.mpr hmeets))
      -- the value is in the map, so some lookup found it; it found this attribute
      have hreads := (IdTable.get?_iff hm).mp ((hget id n).mpr ⟨i, hc⟩)
      obtain ⟨hn, k, j, b, hk, hb, hbv⟩ := (IdTable.reads_iff hup t).mp hreads
      have hj := IdTable.carries_of_finds hup hn hk hb
      have hij : j = i := by
        by_contra hne
        exact hdup ⟨id, n, n, j, i, hbv ▸ hj, hc, fun h => hne h.2⟩
      subst hij
      refine ⟨k, hk, fun k' hk' => ?_⟩
      by_contra hkk
      exact hfine ⟨n, hn, n, hn, k', k, j, j, b, b, hk', hk, hb, hb, rfl, fun h => hkk h.2⟩
  · intro h
    rcases h with honce | ⟨hdup, hmeets⟩
    · refine ⟨herr.trans ⟨IdTable.duplicate_of_meets hup honce, meets_of_duplicate honce⟩, ?_⟩
      intro hno
      have hfine : ¬ t.Refused up idAttrs doc := by
        rw [IdTable.refused_iff hup t]
        exact fun h => hno (IdTable.duplicate_of_meets hup honce h)
      have hok := IdTable.idMap_ok_iff.mpr ⟨rfl, hfine⟩
      refine ⟨_, hok, fun id n => ?_⟩
      rw [IdTable.get?_iff hok, IdTable.reads_iff hup t]
      constructor
      · intro h
        obtain ⟨hn, k, i, b, hk, hb, hbv⟩ := h
        exact ⟨i, hbv ▸ IdTable.carries_of_finds hup hn hk hb⟩
      · intro h
        obtain ⟨i, hc⟩ := h
        obtain ⟨k, hk, -⟩ := honce n i id hc
        obtain ⟨hn, b, hb, -, hbv⟩ := hc
        exact ⟨hn, k, i, b, hk, hb, hbv⟩
    · exact ⟨⟨fun _ => hdup, fun _ => herr.mpr hmeets⟩, fun hno => absurd hdup hno⟩

end

/-- **Duplicate detection**, in verification and in signing. -/
theorem duplicate_detection_exact_iff (up : UppsalaNs) (names : String → QName → Bool)
    (idAttrs : List String) (doc : Document) (hup : FirstMatch up names doc) :
    (ExactIds names doc (defaultIdAttrs ++ idAttrs)
        (buildIdMap up.toUppsala doc (defaultIdAttrs ++ idAttrs))
      ↔ FoundOnce names doc (defaultIdAttrs ++ idAttrs) (IdTable.verify.lookups names idAttrs)
        ∨ DuplicateId names doc (defaultIdAttrs ++ idAttrs)
          ∧ MeetsTwice doc (IdTable.verify.lookups names idAttrs))
    ∧ (ExactIds names doc (defaultIdAttrs ++ idAttrs)
        (Sign.buildIdMap up doc (defaultIdAttrs ++ idAttrs))
      ↔ FoundOnce names doc (defaultIdAttrs ++ idAttrs) (IdTable.sign.lookups names idAttrs)
        ∨ DuplicateId names doc (defaultIdAttrs ++ idAttrs)
          ∧ MeetsTwice doc (IdTable.sign.lookups names idAttrs)) :=
  ⟨IdTable.exactIds_iff hup .verify, IdTable.exactIds_iff hup .sign⟩

namespace SampleIds

/-- Names are compared with local names. -/
def byLocalName (a : String) (q : QName) : Bool := q.localName == a

def element (localName attrName value : String) : Element :=
  ⟨⟨none, localName, none⟩, [Sample.attr attrName value], []⟩

/-- `<a Id="x"/>`. -/
def oneId : Document where
  root := 0
  top := .node 1 (element "a" "Id" "x") .nil .nil
  nodup := by decide

/-- `<a Id="x"><b ID="value"/></a>`. -/
def twoIds (value : String) : Document where
  root := 0
  top := .node 1 (element "a" "Id" "x") (.node 2 (element "b" "ID" value) .nil .nil) .nil
  nodup := by
    show [0, 1, 2].Nodup
    decide

def outer (value : String) : Node :=
  ⟨1, [], .node (element "a" "Id" "x") (.node 2 (element "b" "ID" value) .nil .nil)⟩

def inner (value : String) : Node :=
  ⟨2, [(1, element "a" "Id" "x")], .node (element "b" "ID" value) .nil⟩

theorem mem_twoIds {value : String} {n : Node} (h : n ∈ (twoIds value).descendants) :
    n = outer value ∨ n = inner value := by
  have hlist : (twoIds value).descendants = [outer value, inner value] := rfl
  rw [hlist, List.mem_cons, List.mem_singleton] at h
  exact h

theorem attributeAt_single {n : Node} {localName attrName value : String} {i : Nat} {b : Attribute}
    (he : n.element? = some (element localName attrName value)) :
    attributeAt n i = some b ↔ i = 0 ∧ b = Sample.attr attrName value := by
  have hat : attributeAt n i = [Sample.attr attrName value][i]? := by
    rw [attributeAt, he]
    rfl
  rw [hat]
  constructor
  · intro h
    rcases i with _ | i
    · exact ⟨rfl, (Option.some.inj h).symm⟩
    · cases h
  · rintro ⟨rfl, rfl⟩
    rfl

theorem finds_single {lookups : List (QName → Bool)} {n : Node} {localName attrName value : String}
    {k i : Nat} (he : n.element? = some (element localName attrName value)) :
    Finds lookups n k i
      ↔ i = 0 ∧ (lookups.map (fun f => f ⟨none, attrName, none⟩))[k]? = some true := by
  have hfind : ∀ f : QName → Bool, (element localName attrName value).attributes.findIdx?
      (fun b => f b.name) = some i ↔ i = 0 ∧ f ⟨none, attrName, none⟩ = true := by
    intro f
    show [Sample.attr attrName value].findIdx? (fun b => f b.name) = some i ↔ _
    rw [List.findIdx?_cons]
    have hname : (Sample.attr attrName value).name = ⟨none, attrName, none⟩ := rfl
    rw [hname]
    cases hf : f ⟨none, attrName, none⟩ with
    | true => simp [eq_comm]
    | false => simp
  rw [List.getElem?_map, Option.map_eq_some_iff]
  constructor
  · rintro ⟨f, e, hk, he', hi⟩
    cases he.symm.trans he'
    obtain ⟨rfl, hf⟩ := (hfind f).mp hi
    exact ⟨rfl, f, hk, hf⟩
  · rintro ⟨rfl, f, hk, hf⟩
    exact ⟨f, _, hk, he, (hfind f).mpr ⟨rfl, hf⟩⟩

/-- One of the lookups takes the name. -/
def TakenOnce (lookups : List (QName → Bool)) (attrName : String) : Prop :=
  ∃ k < lookups.length, ∀ j < lookups.length,
    ((lookups.map (fun f => f ⟨none, attrName, none⟩))[j]? = some true ↔ j = k)

instance (lookups : List (QName → Bool)) (attrName : String) :
    Decidable (TakenOnce lookups attrName) :=
  inferInstanceAs (Decidable (∃ k < _, ∀ j < _, (_ ↔ _)))

theorem TakenOnce.finds {lookups : List (QName → Bool)} {n : Node}
    {localName attrName value : String} (h : TakenOnce lookups attrName)
    (he : n.element? = some (element localName attrName value)) :
    ∃ k, Finds lookups n k 0 ∧ ∀ k', Finds lookups n k' 0 → k' = k := by
  obtain ⟨k, hk, hall⟩ := h
  refine ⟨k, (finds_single he).mpr ⟨rfl, (hall k hk).mpr rfl⟩, fun k' hk' => ?_⟩
  have htrue := ((finds_single he).mp hk').2
  have hlt := (List.getElem?_eq_some_iff.mp htrue).1
  rw [List.length_map] at hlt
  exact (hall k' hlt).mp htrue

/-- No name of these documents is taken for `xml:id`. -/
theorem firstMatch {doc : Document} (h : ∀ n ∈ doc.descendants, ∃ localName attrName value,
    n.element? = some (element localName attrName value) ∧ attrName ≠ "xml:id") :
    FirstMatch sampleUppsala byLocalName doc where
  getAttribute _ _ := rfl
  getAttributeNs _ _ _ := rfl
  xmlId n hn i b hb hname := by
    obtain ⟨localName, attrName, value, he, hne⟩ := h n hn
    obtain ⟨-, rfl⟩ := (attributeAt_single he).mp hb
    exact absurd (beq_iff_eq.mp hname) hne

theorem firstMatch_one : FirstMatch sampleUppsala byLocalName oneId :=
  firstMatch fun n hn => ⟨"a", "Id", "x", by rw [List.mem_singleton.mp hn]; rfl, by decide⟩

theorem firstMatch_two (value : String) :
    FirstMatch sampleUppsala byLocalName (twoIds value) := by
  refine firstMatch fun n hn => ?_
  rcases mem_twoIds hn with rfl | rfl
  · exact ⟨"a", "Id", "x", rfl, by decide⟩
  · exact ⟨"b", "ID", value, rfl, by decide⟩

section

variable {lookups : List (QName → Bool)} {attrNames : List String}

/-- Each of the two names is found by one lookup. -/
theorem foundOnce_two {value : String} (hId : TakenOnce lookups "Id")
    (hID : TakenOnce lookups "ID") :
    FoundOnce byLocalName (twoIds value) attrNames lookups := by
  rintro n i id ⟨hn, b, hb, -⟩
  rcases mem_twoIds hn with rfl | rfl
  · have he : (outer value).element? = some (element "a" "Id" "x") := rfl
    rw [((attributeAt_single he).mp hb).1]
    exact hId.finds he
  · have he : (inner value).element? = some (element "b" "ID" value) := rfl
    rw [((attributeAt_single he).mp hb).1]
    exact hID.finds he

/-- The second id is the first one again. -/
theorem duplicate_two (hId : "Id" ∈ attrNames) (hID : "ID" ∈ attrNames) :
    DuplicateId byLocalName (twoIds "x") attrNames :=
  ⟨"x", outer "x", inner "x", 0, 0, ⟨by decide, _, rfl, Or.inl ⟨_, hId, rfl⟩, rfl⟩,
    ⟨by decide, _, rfl, Or.inl ⟨_, hID, rfl⟩, rfl⟩, by decide⟩

theorem meetsTwice_two (hId : TakenOnce lookups "Id") (hID : TakenOnce lookups "ID") :
    MeetsTwice (twoIds "x") lookups := by
  obtain ⟨k, hk, -⟩ := hId.finds (n := outer "x") rfl
  obtain ⟨k', hk', -⟩ := hID.finds (n := inner "x") rfl
  have hne : outer "x" ≠ inner "x" := by decide
  exact ⟨_, by decide, _, by decide, k, k', 0, 0, _, _, hk, hk', rfl, rfl, rfl,
    fun h => hne h.1⟩

end

theorem carries_one {attrNames : List String} {n : Node} {i : Nat} {id : String}
    (h : CarriesId byLocalName oneId attrNames n i id) :
    n = ⟨1, [], .node (element "a" "Id" "x") .nil⟩ ∧ i = 0 := by
  obtain ⟨hn, b, hb, -⟩ := h
  obtain rfl := List.mem_singleton.mp hn
  exact ⟨rfl, ((attributeAt_single rfl).mp hb).1⟩

/-- The lookups of both maps take each of the two names once. -/
theorem takenOnce : (TakenOnce (IdTable.verify.lookups byLocalName []) "Id"
      ∧ TakenOnce (IdTable.verify.lookups byLocalName []) "ID")
    ∧ TakenOnce (IdTable.sign.lookups byLocalName []) "Id"
    ∧ TakenOnce (IdTable.sign.lookups byLocalName []) "ID" := by
  decide +kernel

end SampleIds

open SampleIds

/-- Two ids, and the same id twice. -/
theorem duplicate_detection_exact_sample :
    (ExactIds byLocalName (twoIds "y") (defaultIdAttrs ++ [])
        (buildIdMap sampleUppsala.toUppsala (twoIds "y") (defaultIdAttrs ++ []))
      ∧ ExactIds byLocalName (twoIds "y") (defaultIdAttrs ++ [])
        (Sign.buildIdMap sampleUppsala (twoIds "y") (defaultIdAttrs ++ [])))
    ∧ ExactIds byLocalName (twoIds "x") (defaultIdAttrs ++ [])
        (buildIdMap sampleUppsala.toUppsala (twoIds "x") (defaultIdAttrs ++ []))
      ∧ ExactIds byLocalName (twoIds "x") (defaultIdAttrs ++ [])
        (Sign.buildIdMap sampleUppsala (twoIds "x") (defaultIdAttrs ++ [])) := by
  obtain ⟨⟨hverifyId, hverifyID⟩, hsignId, hsignID⟩ := takenOnce
  have hdup : DuplicateId byLocalName (twoIds "x") (defaultIdAttrs ++ []) :=
    duplicate_two (by decide) (by decide)
  have h := duplicate_detection_exact_iff sampleUppsala byLocalName [] (twoIds "y")
    (firstMatch_two "y")
  have h' := duplicate_detection_exact_iff sampleUppsala byLocalName [] (twoIds "x")
    (firstMatch_two "x")
  exact ⟨⟨h.1.mpr (Or.inl (foundOnce_two hverifyId hverifyID)),
      h.2.mpr (Or.inl (foundOnce_two hsignId hsignID))⟩,
    h'.1.mpr (Or.inr ⟨hdup, meetsTwice_two hverifyId hverifyID⟩),
    h'.2.mpr (Or.inr ⟨hdup, meetsTwice_two hsignId hsignID⟩)⟩

/-- A name that is registered once more makes an id a duplicate of itself. -/
theorem repeated_name_refuses_single_id :
    ¬ ∀ (up : UppsalaNs) (names : String → QName → Bool) (idAttrs : List String) (doc : Document),
      FirstMatch up names doc →
      ExactIds names doc (defaultIdAttrs ++ idAttrs)
          (buildIdMap up.toUppsala doc (defaultIdAttrs ++ idAttrs))
        ∧ ExactIds names doc (defaultIdAttrs ++ idAttrs)
          (Sign.buildIdMap up doc (defaultIdAttrs ++ idAttrs)) := by
  intro h
  have hexact := (h sampleUppsala byLocalName ["Id"] oneId firstMatch_one).1.1
  have herr : buildIdMap sampleUppsala.toUppsala oneId (defaultIdAttrs ++ ["Id"])
      = .error (.xmlStructure "duplicate ID: x") := rfl
  obtain ⟨id, n, n', i, i', hc, hc', hne⟩ := hexact.mp ⟨_, herr⟩
  obtain ⟨rfl, rfl⟩ := carries_one hc
  obtain ⟨rfl, rfl⟩ := carries_one hc'
  exact hne ⟨rfl, rfl⟩

end Bergshamra
