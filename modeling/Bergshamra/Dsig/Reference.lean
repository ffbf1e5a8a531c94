import Bergshamra.Dsig.Transform

/-!
# References

Dereferencing a Reference's URI, running its transforms and comparing the
digest. `verify_reference` and the loop of `sign` have the same steps; the two
error texts for a URI that leads nowhere are the one thing they say differently
on the way to the octets.
-/

namespace Bergshamra

/-- What the signature code takes from outside: digests and the file system. -/
structure DsigLibs extends TransformLibs where
  /-- `digest::digest`. -/
  digest : String → ByteArray → Except Error ByteArray
  /-- `std::fs::read`. -/
  readFile : String → Except String ByteArray
  /-- `Path::exists`. -/
  pathExists : String → Bool
  /-- `Path::join`. -/
  joinPath : String → String → String

/-- The `Algorithm` of a child element, both of which have to be there. -/
def algorithmOf (up : Uppsala) (parent : Node) (localName : String) : Except Error String :=
  match parent.findChildElement Ns.DSIG localName with
  | none => .error (.missingElement localName)
  | some n =>
      match n.element?.bind (fun e => up.getAttribute e "Algorithm") with
      | none => .error (.missingAttribute ("Algorithm on " ++ localName))
      | some uri => .ok uri

/-! ## Dereferencing -/

/-- Where a context says external resources are. -/
structure Resources where
  urlMaps : List (String × String)
  baseDir : Option String

/-- `std::fs::read`, with the path in the error. -/
def readPath (lib : DsigLibs) (path shown : String) : Except Error ByteArray :=
  match lib.readFile path with
  | .ok data => .ok data
  | .error e => .error (.other (shown ++ ": " ++ e))

/-- A file in the working directory. -/
def readWorkingDir (lib : DsigLibs) (uri : String) (unsupported : Error) : Except Error ByteArray :=
  if lib.pathExists uri then readPath lib uri uri else .error unsupported

/-- An external resource: mapped, below the base directory, or in the working directory. -/
def readExternal (lib : DsigLibs) (res : Resources) (uri : String) (unsupported : Error) :
    Except Error ByteArray :=
  match res.urlMaps.find? (fun m => startsWithStr m.1 uri) with
  | some m => readPath lib m.2 ("url-map " ++ m.2)
  | none =>
      if Text.containsSub "://".toList uri.toList then .error unsupported
      else
        match res.baseDir with
        | some base =>
            if lib.pathExists (lib.joinPath base uri) then
              readPath lib (lib.joinPath base uri) (lib.joinPath base uri)
            else readWorkingDir lib uri unsupported
        | none => readWorkingDir lib uri unsupported

/-- `ResolvedUri`. -/
inductive ResolvedUri where
  | xml (xmlText : String) (nodeSet : Option NodeSet) (resolvedNode : Option Node)
  | binary (data : ByteArray)

/-- The data of a resolved URI. -/
def ResolvedUri.data : ResolvedUri → TransformData
  | .xml xmlText nodeSet _ => .xml xmlText nodeSet
  | .binary data => .binary data

/-- The node a same-document URI resolved to. -/
def ResolvedUri.node : ResolvedUri → Option Node
  | .xml _ _ resolvedNode => resolvedNode
  | .binary _ => none

/-- The steps that `resolve_reference_uri` and `sign` share. -/
def dereference (lib : DsigLibs) (res : Resources) (doc : Document) (idMap : IdMap)
    (xml uri : String) (unsupported : Error) : Except Error ResolvedUri :=
  if uri.isEmpty then .ok (.xml xml (some (NodeSet.allWithoutComments doc)) none)
  else
    match parseSameDocumentRef uri with
    | some fragment =>
        if fragment = "xpointer(/)" then .ok (.xml xml none none)
        else
          match parseXPointerId fragment with
          | some id => do
              let node ← resolveId idMap id
              .ok (.xml xml (some (NodeSet.treeWithComments node)) (some node))
          | none => do
              let node ← resolveId idMap fragment
              .ok (.xml xml (some (NodeSet.treeWithoutComments node)) (some node))
    | none => do
        let data ← readExternal lib res uri unsupported
        .ok (.binary data)

/-- `resolve_reference_uri`. -/
def resolveReferenceUri (lib : DsigLibs) (res : Resources) (doc : Document) (idMap : IdMap)
    (xml uri : String) : Except Error ResolvedUri :=
  dereference lib res doc idMap xml uri (.invalidUri ("external URI not supported: " ++ uri))

/-- The dereferencing in the loop of `sign`. -/
def signReferenceData (lib : DsigLibs) (res : Resources) (doc : Document) (idMap : IdMap)
    (xml uri : String) : Except Error ResolvedUri :=
  dereference lib res doc idMap xml uri (.invalidUri ("unsupported URI: " ++ uri))

/-! ## The transform loop -/

/-- The `<Transform>` elements of a Reference, whatever their namespace. -/
def transformNodes (reference : Node) : List Node :=
  match reference.findChildElement Ns.DSIG "Transforms" with
  | none => []
  | some transforms =>
      transforms.children.filter (fun c : Node =>
        c.element?.any (fun e => e.name.localName == "Transform"))

/-- The algorithm of a transform element; it may be left out. -/
def transformUri (up : Uppsala) (transformNode : Node) : String :=
  (transformNode.element?.bind (fun e => up.getAttribute e "Algorithm")).getD ""

/-- One turn of the loop. -/
def transformStep (lib : TransformLibs) (sigNode : NodeId) (data : TransformData)
    (transformNode : Node) : Except Error TransformData :=
  applyTransform lib (transformUri lib.toUppsala transformNode) data transformNode sigNode

/-- The loop over the transforms, and the octets that are digested. -/
def referenceOctets (lib : TransformLibs) (sigNode : NodeId) (reference : Node)
    (data : TransformData) : Except Error ByteArray := do
  let data ← (transformNodes reference).foldlM (transformStep lib sigNode) data
  data.toBinary lib

/-- The `URI` of a Reference; it may be left out. -/
def referenceUri (up : Uppsala) (reference : Node) : String :=
  (reference.element?.bind (fun e => up.getAttribute e "URI")).getD ""

/-! ## Verification -/

/-- `VerifiedReference`. -/
structure VerifiedReference where
  uri : String
  resolvedNode : Option Node
  digestVerified : Bool

/-- The digest that a Reference carries. -/
def expectedDigest (lib : DsigLibs) (reference : Node) : Except Error ByteArray :=
  match reference.findChildElement Ns.DSIG "DigestValue" with
  | none => .error (.missingElement "DigestValue")
  | some n =>
      match lib.base64Decode (withoutWhitespace (trimStr (n.elementText.getD ""))) with
      | .error e => .error (.base64 ("DigestValue: " ++ e))
      | .ok digest => .ok digest

/-- `verify_reference`: the reason of a mismatch, and what was verified. -/
def verifyReference (lib : DsigLibs) (res : Resources) (doc : Document) (idMap : IdMap)
    (xml : String) (sigNode : NodeId) (reference : Node) :
    Except Error (Option String × VerifiedReference) :=
  let uri := referenceUri lib.toUppsala reference
  if startsWithStr "cid:" uri then .ok (none, ⟨uri, none, false⟩)
  else do
    let digestUri ← algorithmOf lib.toUppsala reference "DigestMethod"
    let expected ← expectedDigest lib reference
    let resolved ← resolveReferenceUri lib res doc idMap xml uri
    let bytes ← referenceOctets lib.toTransformLibs sigNode reference resolved.data
    let computed ← lib.digest digestUri bytes
    let vref : VerifiedReference := ⟨uri, resolved.node, true⟩
    if computed = expected then .ok (none, vref)
    else .ok (some ("URI=" ++ uri ++ ": expected digest does not match computed digest"), vref)

theorem verifyReference_ok {lib : DsigLibs} {res : Resources} {doc : Document} {idMap : IdMap}
    {xml : String} {sigNode : NodeId} {reference : Node} {vref : VerifiedReference}
    (hcid : startsWithStr "cid:" (referenceUri lib.toUppsala reference) = false)
    (h : verifyReference lib res doc idMap xml sigNode reference = .ok (none, vref)) :
    ∃ digestUri expected resolved bytes,
      algorithmOf lib.toUppsala reference "DigestMethod" = .ok digestUri
      ∧ expectedDigest lib reference = .ok expected
      ∧ resolveReferenceUri lib res doc idMap xml (referenceUri lib.toUppsala reference)
          = .ok resolved
      ∧ referenceOctets lib.toTransformLibs sigNode reference resolved.data = .ok bytes
      ∧ lib.digest digestUri bytes = .ok expected
      ∧ vref = ⟨referenceUri lib.toUppsala reference, resolved.node, true⟩ := by
  unfold verifyReference at h
  rw [if_neg (by simp [hcid])] at h
  simp only [bind_eq_ok] at h
  obtain ⟨digestUri, hd, expected, he, resolved, hr, bytes, hb, computed, hc, h⟩ := h
  split at h
  · rename_i heq
    exact ⟨digestUri, expected, resolved, bytes, hd, he, hr, hb, heq ▸ hc,
      (Prod.mk.inj (Except.ok.inj h)).2.symm⟩
  · simp at h

end Bergshamra
