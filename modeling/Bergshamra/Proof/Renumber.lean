import Bergshamra.Enc.Decrypt
import Bergshamra.Lib.Refill

/-!
# Readers that do not look at node ids

A text that is parsed again has other node ids. What is read of an element
(its name, its attributes, the text below it, its children, and from these the
key that a KeyName or a DerivedKey stands for) does not depend on them.
-/

namespace Bergshamra

section Node

variable (g : NodeId → NodeId) (n : Node)

@[simp] theorem element?_mapKeys : Node.element? (n.mapKeys g) = n.element? := by
  obtain ⟨key, path, item⟩ := n
  cases item with
  | leaf k => rfl
  | node e kids => rfl

@[simp] theorem leaf?_mapKeys : Node.leaf? (n.mapKeys g) = n.leaf? := by
  obtain ⟨key, path, item⟩ := n
  cases item with
  | leaf k => rfl
  | node e kids => rfl

@[simp] theorem isNamed_mapKeys (nsUri localName : String) :
    Node.isNamed (n.mapKeys g) nsUri localName = n.isNamed nsUri localName := by
  rw [Node.isNamed, element?_mapKeys, Node.isNamed]

theorem findChildElement_mapKeys (nsUri localName : String) :
    Node.findChildElement (n.mapKeys g) nsUri localName
      = (n.findChildElement nsUri localName).map (Forest.Cursor.mapKeys g) := by
  rw [Node.findChildElement, Forest.Cursor.children_mapKeys, List.find?_map, Node.findChildElement]
  congr 1
  refine congrArg (fun p => List.find? p n.children) ?_
  funext c
  exact isNamed_mapKeys g c nsUri localName

@[simp] theorem textContentDeep_mapKeys :
    Node.textContentDeep (n.mapKeys g) = n.textContentDeep := by
  rw [Node.textContentDeep, Forest.Cursor.descendants_mapKeys, List.filterMap_map,
    Node.textContentDeep]
  refine congrArg (fun f => String.join (List.filterMap f n.descendants)) ?_
  funext c
  exact congrArg (fun l => Option.bind l LeafKind.text?) (leaf?_mapKeys g c)

@[simp] theorem trimmedText_mapKeys : trimmedText (n.mapKeys g) = trimmedText n := by
  rw [trimmedText, textContentDeep_mapKeys, trimmedText]

@[simp] theorem attributeOf_mapKeys (up : Uppsala) (name : String) :
    attributeOf up (n.mapKeys g) name = attributeOf up n name := by
  rw [attributeOf, element?_mapKeys, attributeOf]

end Node

/-! ## Nodes that differ in their ids only -/

/-- The node with no ids left to tell apart. -/
def Node.bare (n : Node) : Node := n.mapKeys (fun _ => 0)

/-- The nodes differ in their ids only. -/
def Node.Alike (n m : Node) : Prop := n.bare = m.bare

namespace Node.Alike

variable {n m : Node}

/-- What does not look at ids cannot tell them apart. -/
theorem congr {γ : Type} (h : n.Alike m) {f : Node → γ}
    (hf : ∀ g (n : Node), f (n.mapKeys g) = f n) :
    f n = f m := by
  rw [← hf (fun _ => 0) n, ← hf (fun _ => 0) m]
  exact congrArg f h

theorem children (h : n.Alike m) : n.children.map Node.bare = m.children.map Node.bare := by
  have hc := congrArg Forest.Cursor.children h
  rwa [Node.bare, Node.bare, Forest.Cursor.children_mapKeys, Forest.Cursor.children_mapKeys] at hc

theorem findChildElement_map (h : n.Alike m) (nsUri localName : String) :
    (n.findChildElement nsUri localName).map Node.bare
      = (m.findChildElement nsUri localName).map Node.bare := by
  have hc := congrArg (fun x => Node.findChildElement x nsUri localName) h
  simp only [Node.bare, findChildElement_mapKeys] at hc
  exact hc

theorem findChildElement (h : n.Alike m) {nsUri localName : String} {d : Node}
    (hd : m.findChildElement nsUri localName = some d) :
    ∃ c, n.findChildElement nsUri localName = some c ∧ c.Alike d := by
  have hmap := h.findChildElement_map nsUri localName
  rw [hd] at hmap
  obtain ⟨c, hc, hcd⟩ := Option.map_eq_some_iff.mp hmap
  exact ⟨c, hc, hcd⟩

theorem findChildElement_none (h : n.Alike m) {nsUri localName : String}
    (hd : m.findChildElement nsUri localName = none) :
    n.findChildElement nsUri localName = none := by
  have hmap := h.findChildElement_map nsUri localName
  rw [hd] at hmap
  exact Option.map_eq_none_iff.mp hmap

end Node.Alike

/-- A search that does not look at ids finds the same. -/
theorem findSome?_congr_bare {γ : Type} {f : Node → Option γ}
    (hf : ∀ g (n : Node), f (n.mapKeys g) = f n) {l l' : List Node}
    (h : l.map Node.bare = l'.map Node.bare) : l.findSome? f = l'.findSome? f := by
  have hbare : ∀ l : List Node, (l.map Node.bare).findSome? f = l.findSome? f := by
    intro l
    rw [List.findSome?_map]
    refine congrArg (fun f => List.findSome? f l) ?_
    funext n
    exact hf _ n
  rw [← hbare l, ← hbare l', h]

/-! ## Keys -/

section Keys

variable (g : NodeId → NodeId) (n : Node) (lib : EncLibs) (ctx : EncContext)

theorem keyNameBytes_mapKeys (manager : KeysManager) :
    keyNameBytes manager (n.mapKeys g) = keyNameBytes manager n := by
  rw [keyNameBytes, isNamed_mapKeys, trimmedText_mapKeys, keyNameBytes]

theorem masterKeyBytes_mapKeys (manager : KeysManager) :
    masterKeyBytes manager (n.mapKeys g) = masterKeyBytes manager n := by
  have hname : ((n.findChildElement Ns.ENC11 "MasterKeyName").map (Forest.Cursor.mapKeys g)).map
      trimmedText = (n.findChildElement Ns.ENC11 "MasterKeyName").map trimmedText := by
    rw [Option.map_map]
    refine congrArg (fun f => Option.map f _) ?_
    funext c
    exact trimmedText_mapKeys g c
  rw [masterKeyBytes, findChildElement_mapKeys, hname, masterKeyBytes]

theorem hexAttribute_mapKeys (up : Uppsala) (name : String) :
    hexAttribute up (n.mapKeys g) name = hexAttribute up n name := by
  rw [hexAttribute, attributeOf_mapKeys, hexAttribute]

theorem parseConcatKdfParams_mapKeys (up : Uppsala) :
    parseConcatKdfParams up (n.mapKeys g) = parseConcatKdfParams up n := by
  rw [parseConcatKdfParams, findChildElement_mapKeys, parseConcatKdfParams]
  cases n.findChildElement Ns.ENC11 "ConcatKDFParams" with
  | none => rfl
  | some params =>
      simp only [Option.map_some, hexAttribute_mapKeys, findChildElement_mapKeys]
      cases params.findChildElement Ns.DSIG "DigestMethod" with
      | none => rfl
      | some dm => simp only [Option.map_some, Option.bind_some, attributeOf_mapKeys]

theorem pbkdf2Salt_mapKeys : pbkdf2Salt lib (n.mapKeys g) = pbkdf2Salt lib n := by
  rw [pbkdf2Salt, findChildElement_mapKeys, pbkdf2Salt]
  cases n.findChildElement Ns.ENC11 "Salt" with
  | none => rfl
  | some salt =>
      simp only [Option.map_some, required, bind, Except.bind, findChildElement_mapKeys]
      cases salt.findChildElement Ns.ENC11 "Specified" with
      | none => rfl
      | some specified => simp only [Option.map_some, trimmedText_mapKeys]

theorem parsePbkdf2Params_mapKeys (defaultKeyLen : Nat) :
    parsePbkdf2Params lib (n.mapKeys g) defaultKeyLen = parsePbkdf2Params lib n defaultKeyLen := by
  rw [parsePbkdf2Params, findChildElement_mapKeys, parsePbkdf2Params]
  cases n.findChildElement Ns.ENC11 "PBKDF2-params" with
  | none => rfl
  | some params =>
      simp only [Option.map_some, required, bind, Except.bind, pbkdf2Salt_mapKeys,
        findChildElement_mapKeys]
      cases params.findChildElement Ns.ENC11 "IterationCount" with
      | none => rfl
      | some iterCount =>
          cases params.findChildElement Ns.ENC11 "KeyLength" with
          | none =>
              cases params.findChildElement Ns.ENC11 "PRF" with
              | none => simp only [Option.map_some, Option.map_none, trimmedText_mapKeys]
              | some prf =>
                  simp only [Option.map_some, Option.map_none, trimmedText_mapKeys,
                    attributeOf_mapKeys]
          | some kl =>
              cases params.findChildElement Ns.ENC11 "PRF" with
              | none => simp only [Option.map_some, Option.map_none, trimmedText_mapKeys]
              | some prf => simp only [Option.map_some, trimmedText_mapKeys, attributeOf_mapKeys]

/-- The key of a DerivedKey. -/
theorem resolveDerivedKey_mapKeys (encUri : String) :
    resolveDerivedKey lib ctx (n.mapKeys g) encUri = resolveDerivedKey lib ctx n encUri := by
  rw [resolveDerivedKey, masterKeyBytes_mapKeys, findChildElement_mapKeys, resolveDerivedKey]
  cases n.findChildElement Ns.ENC11 "KeyDerivationMethod" with
  | none => rfl
  | some kdMethod =>
      simp only [Option.map_some, required, bind, Except.bind, attributeOf_mapKeys,
        parseConcatKdfParams_mapKeys, parsePbkdf2Params_mapKeys]

end Keys

end Bergshamra
