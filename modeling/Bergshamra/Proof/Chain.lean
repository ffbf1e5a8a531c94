import Bergshamra.Dsig.Reference
import Bergshamra.Lib.Fold

/-!
# The run of a transform chain

The loop over the transforms of a Reference, as a run of a system. Its state is
the data and whether they are still the document that contains the transforms
(`own`). They are until some step returns octets.
-/

namespace Bergshamra

/-! ## Running a chain -/

def TransformData.isXml : TransformData → Bool
  | .xml _ _ => true
  | .binary _ => false

structure ChainState where
  data : TransformData
  own : Bool

/-- The data a URI resolved to. -/
def ChainState.start (resolved : ResolvedUri) : ChainState :=
  ⟨resolved.data, resolved.data.isXml⟩

/-- One turn of the transform loop. -/
def chainStep (lib : TransformLibs) (sigNode : NodeId) (s : ChainState) (t : Node) :
    Except Error ChainState := do
  let data ← transformStep lib sigNode s.data t
  .ok ⟨data, s.own && data.isXml⟩

/-- In a chain that starts in `s₀`, the transform `t` is executed in `s` and leads to `s'`. -/
def Executes (lib : TransformLibs) (sigNode : NodeId) (ts : List Node) (s₀ s : ChainState)
    (t : Node) (s' : ChainState) : Prop :=
  ∃ before after, ts = before ++ t :: after ∧ before.foldlM (chainStep lib sigNode) s₀ = .ok s
    ∧ chainStep lib sigNode s t = .ok s'

theorem chainStep_ok {lib : TransformLibs} {sigNode : NodeId} {s s' : ChainState} {t : Node} :
    chainStep lib sigNode s t = .ok s'
      ↔ ∃ data, transformStep lib sigNode s.data t = .ok data ∧ s' = ⟨data, s.own && data.isXml⟩ := by
  simp only [chainStep, bind_eq_ok, Except.ok.injEq, eq_comm (a := s')]

/-- The states of a chain carry exactly the data of the transform loop. -/
theorem foldlM_chainStep_data (lib : TransformLibs) (sigNode : NodeId) (ts : List Node)
    (s : ChainState) :
    (ts.foldlM (chainStep lib sigNode) s).map ChainState.data
      = ts.foldlM (transformStep lib sigNode) s.data := by
  induction ts generalizing s with
  | nil => rfl
  | cons t ts ih =>
      rw [List.foldlM_cons, List.foldlM_cons, chainStep]
      cases transformStep lib sigNode s.data t with
      | error e => rfl
      | ok data => exact ih _

/-- What every state of a chain over the document text `xml` satisfies. -/
structure ChainInv (xml : String) (s : ChainState) : Prop where
  /-- The chain's own data still have the document's text. -/
  text : s.own = true → ∃ input, s.data = .xml xml input
  /-- No set lists what it leaves out. -/
  normal : ∀ xmlText input, s.data.asXml? = some (xmlText, input) → NormalInput input

theorem normalInput_none : NormalInput none := by
  intro s h
  simp at h

theorem asXml?_binary {bytes : ByteArray} {xmlText : String} {input : Option NodeSet}
    (h : (TransformData.binary bytes).asXml? = some (xmlText, input)) : input = none := by
  simp only [TransformData.asXml?, Option.map_eq_some_iff, Prod.mk.injEq] at h
  obtain ⟨_, _, _, h⟩ := h
  exact h.symm

/-- The text of a chain's own data is the document's. -/
theorem ChainInv.asXml {xml : String} {s : ChainState} (h : ChainInv xml s) (ho : s.own = true)
    {xmlText : String} {input : Option NodeSet} (hx : s.data.asXml? = some (xmlText, input)) :
    xmlText = xml := by
  obtain ⟨ns, hd⟩ := h.text ho
  rw [hd, TransformData.asXml?, Option.some.injEq, Prod.mk.injEq] at hx
  exact hx.1.symm

/-- **One step keeps the invariant.** -/
theorem chainInv_step {lib : TransformLibs} {sigNode : NodeId} {xml : String} {s s' : ChainState}
    {t : Node} (h : ChainInv xml s) (hs : chainStep lib sigNode s t = .ok s') :
    ChainInv xml s' := by
  obtain ⟨data, hd, rfl⟩ := chainStep_ok.mp hs
  cases applyTransform_result hd with
  | octets bytes =>
      refine ⟨by simp [TransformData.isXml], fun xmlText input hx => ?_⟩
      rw [asXml?_binary hx]
      exact normalInput_none
  | unchanged => exact ⟨fun ho => h.text (by simp_all), h.normal⟩
  | filtered hx hdoc hout =>
      refine ⟨fun ho => ?_, fun xmlText input hx' => ?_⟩
      · have ho' : s.own = true := by simpa [TransformData.isXml] using ho
        rw [h.asXml ho' hx]
        exact ⟨_, rfl⟩
      · simp only [TransformData.asXml?, Option.some.injEq, Prod.mk.injEq] at hx'
        obtain ⟨rfl, rfl⟩ := hx'
        intro s₁ hs₁
        cases hs₁
        exact hout (h.normal _ _ hx)

/-- **Every state of a chain satisfies the invariant.** -/
theorem chainInv_executes {lib : TransformLibs} {sigNode : NodeId} {xml : String}
    {ts : List Node} {s₀ s s' : ChainState} {t : Node} (h₀ : ChainInv xml s₀)
    (h : Executes lib sigNode ts s₀ s t s') : ChainInv xml s := by
  obtain ⟨before, _, _, hrun, _⟩ := h
  exact Fold.invariant (fun s a s' hP hs => chainInv_step hP hs) h₀ hrun

theorem chainInv_start {lib : DsigLibs} {res : Resources} {doc : Document} {idMap : IdMap}
    {xml uri : String} {unsupported : Error} {resolved : ResolvedUri}
    (h : dereference lib res doc idMap xml uri unsupported = .ok resolved) :
    ChainInv xml (.start resolved) := by
  have hxml : ∀ (s : NodeSet) (n : Option Node), s.setType = .normal →
      ChainInv xml (.start (.xml xml (some s) n)) := by
    intro s n hs
    refine ⟨fun _ => ⟨some s, rfl⟩, fun xmlText input hx => ?_⟩
    simp only [ChainState.start, ResolvedUri.data, TransformData.asXml?, Option.some.injEq,
      Prod.mk.injEq] at hx
    intro s' hs'
    rw [← hx.2, Option.some.injEq] at hs'
    exact hs' ▸ hs
  unfold dereference at h
  split at h
  · cases h
    exact hxml _ _ rfl
  · split at h
    · split at h
      · cases h
        refine ⟨fun _ => ⟨none, rfl⟩, fun xmlText input hx => ?_⟩
        simp only [ChainState.start, ResolvedUri.data, TransformData.asXml?, Option.some.injEq,
          Prod.mk.injEq] at hx
        exact hx.2 ▸ normalInput_none
      · split at h
        all_goals
          rw [bind_eq_ok] at h
          obtain ⟨node, _, hr⟩ := h
          cases hr
          exact hxml _ _ rfl
    · rw [bind_eq_ok] at h
      obtain ⟨bytes, _, hr⟩ := h
      cases hr
      refine ⟨by simp [ChainState.start, ResolvedUri.data, TransformData.isXml],
        fun xmlText input hx => ?_⟩
      rw [asXml?_binary hx]
      exact normalInput_none

/-! ## The chain of a Reference -/

/-- A chain of transforms: those of a Reference of the first Signature's SignedInfo. -/
structure IsReference (doc : Document) (sig reference : Node) : Prop where
  signature : doc.findElement Ns.DSIG "Signature" = some sig
  ofSignedInfo : ∃ signedInfo, sig.findChildElement Ns.DSIG "SignedInfo" = some signedInfo
    ∧ reference ∈ signedInfo.findChildElements Ns.DSIG "Reference"

/-- A Reference that is being verified or signed: the document, its first Signature, the
Reference, and the data its URI resolved to. -/
structure Run (lib : DsigLibs) where
  xml : String
  doc : Document
  parsed : lib.parse xml = .ok doc
  sig : Node
  reference : Node
  isReference : IsReference doc sig reference
  res : Resources
  idMap : IdMap
  unsupported : Error
  resolved : ResolvedUri
  resolves : dereference lib res doc idMap xml (referenceUri lib.toUppsala reference) unsupported
    = .ok resolved

/-- The transform `t` of a run is executed in `s` and leads to `s'`. -/
def Run.Executes {lib : DsigLibs} (r : Run lib) (s : ChainState) (t : Node) (s' : ChainState) :
    Prop :=
  Bergshamra.Executes lib.toTransformLibs r.sig.key (transformNodes r.reference)
    (.start r.resolved) s t s'

end Bergshamra
