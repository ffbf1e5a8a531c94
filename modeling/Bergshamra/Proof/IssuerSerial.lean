import Bergshamra.Dsig.CertInfo
import Bergshamra.Proof.SerialNumbers

/-!
# Keys named by issuer and serial number

An X509IssuerSerial names a certificate by two things, and `find_key_by_serial` looks
at one of them. The first key of the manager whose leaf certificate has the serial
number is taken, with the bytes read without a sign. So what is found is right where
the keys that only look right stand behind one that is.
-/

namespace Bergshamra

open BigEndian

/-! ## The hint -/

/-- The text of the serial number, as `resolve_key_info` reads it. -/
def serialTextOf (issuerSerial : Node) : String :=
  trimStr (((issuerSerial.findLocalNamed "X509SerialNumber").map Node.textContentDeep).getD "")

/-- The text of the issuer's name, which nothing reads. -/
def issuerTextOf (issuerSerial : Node) : String :=
  trimStr (((issuerSerial.findLocalNamed "X509IssuerName").map Node.textContentDeep).getD "")

/-- Is the node an X509IssuerSerial? -/
def isIssuerSerial (n : Node) : Bool :=
  n.element?.any (fun e => e.name.localName == "X509IssuerSerial")

/-- The X509IssuerSerial elements of a KeyInfo. -/
def hintsOf (keyInfo : Node) : List Node :=
  (keyInfo.children.filter fun c : Node => c.isDsigOrPlain "X509Data").flatMap
    fun c : Node => c.children.filter isIssuerSerial

/-- The only hint at a key of the manager is this X509IssuerSerial. -/
structure OnlyHint (keyInfo hint : Node) : Prop where
  noKeyName : ∀ c ∈ keyInfo.children, Node.isNamed c Ns.DSIG "KeyName" = false
  hints : hintsOf keyInfo = [hint]

/-- `resolve_key_info` returns the key, and it is the one that the hint was resolved to. -/
def ReturnsByHint (lib : KeyLibs) (manager : KeysManager) (keyInfo hint : Node) (key : Key) : Prop :=
  resolveKeyInfo lib keyInfo manager = .ok key ∧ keyByIssuerSerial lib manager hint = some key

theorem keyByIssuerSerial_eq (lib : KeyLibs) (manager : KeysManager) (n : Node) :
    keyByIssuerSerial lib manager n
      = if isIssuerSerial n then
          if serialTextOf n = "" then none else findKeyBySerial lib manager (serialTextOf n)
        else none := rfl

/-- What a filter leaves out finds nothing. -/
theorem findSome?_filter_of_none {α β : Type} {p : α → Bool} {f : α → Option β} {l : List α}
    (h : ∀ x ∈ l, p x = false → f x = none) : (l.filter p).findSome? f = l.findSome? f := by
  induction l with
  | nil => rfl
  | cons x l ih =>
      have hl := ih fun y hy => h y (List.mem_cons_of_mem x hy)
      rw [List.filter_cons, List.findSome?_cons]
      cases hp : p x with
      | true => rw [if_pos rfl, List.findSome?_cons, hl]
      | false =>
          rw [if_neg Bool.false_ne_true, h x List.mem_cons_self hp]
          exact hl

/-- The keys of the X509Data are those of the hints. -/
theorem findSome?_hints (lib : KeyLibs) (manager : KeysManager) (keyInfo : Node) :
    keyInfo.children.findSome? (keyByX509Data lib manager)
      = (hintsOf keyInfo).findSome? (keyByIssuerSerial lib manager) := by
  have hother : ∀ n : Node, isIssuerSerial n = false → keyByIssuerSerial lib manager n = none := by
    intro n hn
    rw [keyByIssuerSerial_eq, hn, if_neg Bool.false_ne_true]
  rw [hintsOf]
  induction keyInfo.children with
  | nil => rfl
  | cons c cs ih =>
      rw [List.findSome?_cons, ih, List.filter_cons, keyByX509Data]
      cases hc : Node.isDsigOrPlain c "X509Data" with
      | true =>
          have hchildren : c.children.findSome? (keyByIssuerSerial lib manager)
              = (c.children.filter isIssuerSerial).findSome? (keyByIssuerSerial lib manager) :=
            (findSome?_filter_of_none fun n _ => hother n).symm
          rw [if_pos rfl, if_pos rfl, List.flatMap_cons, List.findSome?_append, hchildren]
          cases (c.children.filter isIssuerSerial).findSome? (keyByIssuerSerial lib manager) with
          | none => rfl
          | some key => rfl
      | false => rfl

/-- With one hint `resolve_key_info` returns what the hint is resolved to. -/
theorem returnsByHint_iff {lib : KeyLibs} {manager : KeysManager} {keyInfo hint : Node} {key : Key}
    (h : OnlyHint keyInfo hint) : ReturnsByHint lib manager keyInfo hint key
      ↔ serialTextOf hint ≠ "" ∧ findKeyBySerial lib manager (serialTextOf hint) = some key := by
  have hhint : isIssuerSerial hint = true := by
    have hmem : hint ∈ hintsOf keyInfo := by
      rw [h.hints]
      exact List.mem_singleton_self hint
    obtain ⟨c, -, hc⟩ := List.mem_flatMap.mp hmem
    exact (List.mem_filter.mp hc).2
  have hfound : keyByIssuerSerial lib manager hint = some key
      ↔ serialTextOf hint ≠ "" ∧ findKeyBySerial lib manager (serialTextOf hint) = some key := by
    rw [keyByIssuerSerial_eq, if_pos hhint]
    by_cases hempty : serialTextOf hint = ""
    · simp [hempty]
    · simp [hempty]
  rw [← hfound, ReturnsByHint]
  refine ⟨fun hreturns => hreturns.2, fun hkey => ⟨?_, hkey⟩⟩
  have hnames : keyInfo.children.findSome? (keyByKeyName manager) = none := by
    rw [List.findSome?_eq_none_iff]
    intro c hc
    rw [keyByKeyName, h.noKeyName c hc, if_neg Bool.false_ne_true]
  have hhints : keyInfo.children.findSome? (keyByX509Data lib manager) = some key := by
    rw [findSome?_hints, h.hints, List.findSome?_cons, hkey]
  rw [resolveKeyInfo, hnames]
  dsimp only
  rw [hhints]

/-! ## Keys and their certificates -/

/-- The leaf certificate of a key. -/
def HasLeaf (lib : KeyLibs) (key : Key) (cert : Certificate) : Prop :=
  ∃ der rest, key.x509Chain = der :: rest ∧ lib.parseCertificate der = .ok cert

/-- The bytes of the leaf's serial number, read without a sign, are the number in the text. -/
def LooksNamed (lib : KeyLibs) (serial : String) (key : Key) : Prop :=
  ∃ cert, HasLeaf lib key cert ∧ formatSerialDecimal cert.serialNumber.toList = serial

/-- The leaf has this issuer and this serial number. -/
def IsNamed (lib : CertInfoLibs) (issuer serial : String) (key : Key) : Prop :=
  ∃ cert, HasLeaf lib.toKeyLibs key cert ∧ Sign.formatRdnSequence lib cert.issuer = issuer
    ∧ toString (signed cert.serialNumber.toList) = serial

theorem HasLeaf.unique {lib : KeyLibs} {key : Key} {cert cert' : Certificate}
    (h : HasLeaf lib key cert) (h' : HasLeaf lib key cert') : cert = cert' := by
  obtain ⟨der, rest, hchain, hparse⟩ := h
  obtain ⟨der', rest', hchain', hparse'⟩ := h'
  rw [hchain] at hchain'
  obtain ⟨rfl, rfl⟩ := List.cons.inj hchain'
  rw [hparse] at hparse'
  exact Except.ok.inj hparse'

/-- The first key that looks right is found. -/
theorem findKeyBySerial_eq_some {lib : KeyLibs} {manager : KeysManager} {serial : String}
    {key : Key} : findKeyBySerial lib manager serial = some key
      ↔ LooksNamed lib serial key ∧ ∃ before after, manager.keys = before ++ key :: after
          ∧ ∀ other ∈ before, ¬ LooksNamed lib serial other := by
  obtain ⟨p, hp, hfind⟩ : ∃ p : Key → Bool, (∀ k, p k = true ↔ LooksNamed lib serial k)
      ∧ findKeyBySerial lib manager serial = manager.keys.find? p := by
    refine ⟨_, ?_, rfl⟩
    intro k
    rw [LooksNamed]
    cases hchain : k.x509Chain with
    | nil => simp [HasLeaf, hchain]
    | cons der rest =>
        cases hparse : lib.parseCertificate der with
        | error e => simp [HasLeaf, hchain, hparse]
        | ok cert => simp [HasLeaf, hchain, hparse]
  rw [hfind, List.find?_eq_some_iff_append, hp]
  simp only [Bool.not_eq_true', ← Bool.not_eq_true, hp]

/-- A serial number is printed with a digit at least. -/
theorem LooksNamed.ne_empty {lib : KeyLibs} {serial : String} {key : Key}
    (h : LooksNamed lib serial key) : serial ≠ "" := by
  obtain ⟨cert, -, rfl⟩ := h
  rw [formatSerialDecimal_eq]
  exact Nat.repr_ne_empty

/-! ## Right and wrong keys -/

/-- Each key that looks right and is not stands behind one that is. -/
def WrongBehindRight (lib : CertInfoLibs) (manager : KeysManager) (issuer serial : String) :
    Prop :=
  ∀ before key after, manager.keys = before ++ key :: after →
    LooksNamed lib.toKeyLibs serial key → ¬ IsNamed lib issuer serial key →
      ∃ right ∈ before, LooksNamed lib.toKeyLibs serial right ∧ IsNamed lib issuer serial right

/-- The first in a list that satisfies a predicate. -/
theorem exists_first {α : Type} {P : α → Prop} {l : List α} (h : ∃ x ∈ l, P x) :
    ∃ before x after, l = before ++ x :: after ∧ P x ∧ ∀ y ∈ before, ¬ P y := by
  classical
  obtain ⟨x, hx, hP⟩ := h
  have hsome : (l.find? (fun y => decide (P y))).isSome = true := by
    rw [List.find?_isSome]
    exact ⟨x, hx, decide_eq_true hP⟩
  obtain ⟨y, hy⟩ := Option.isSome_iff_exists.mp hsome
  obtain ⟨hPy, before, after, hl, hbefore⟩ := List.find?_eq_some_iff_append.mp hy
  exact ⟨before, y, after, hl, of_decide_eq_true hPy, fun z hz => by simpa using hbefore z hz⟩

/-- What is found is right exactly where the wrong keys stand behind a right one. -/
theorem found_named_iff (lib : CertInfoLibs) (manager : KeysManager) (issuer serial : String) :
    (∀ key, findKeyBySerial lib.toKeyLibs manager serial = some key →
        IsNamed lib issuer serial key)
      ↔ WrongBehindRight lib manager issuer serial := by
  constructor
  · intro h before key after hkeys hlooks hwrong
    -- the first key that looks right is found, and is not this one
    obtain ⟨front, first, back, hfront, hfirst, hnone⟩ :=
      exists_first (P := LooksNamed lib.toKeyLibs serial) (l := before ++ [key])
        ⟨key, List.mem_append_right _ (List.mem_singleton_self key), hlooks⟩
    have hright : IsNamed lib issuer serial first := by
      refine h first (findKeyBySerial_eq_some.mpr ⟨hfirst, front, back ++ after, ?_, hnone⟩)
      calc manager.keys = (before ++ [key]) ++ after := by rw [hkeys, List.append_assoc]; rfl
        _ = front ++ first :: (back ++ after) := by rw [hfront, List.append_assoc]; rfl
    have hmem : first ∈ before ++ [key] := by
      rw [hfront]
      exact List.mem_append_right _ List.mem_cons_self
    rcases List.mem_append.mp hmem with hin | heq
    · exact ⟨first, hin, hfirst, hright⟩
    · rw [List.mem_singleton.mp heq] at hright
      exact absurd hright hwrong
  · intro h key hfound
    obtain ⟨hlooks, before, after, hkeys, hnone⟩ := findKeyBySerial_eq_some.mp hfound
    by_contra hwrong
    obtain ⟨right, hright, hlooks', -⟩ := h before key after hkeys hlooks hwrong
    exact hnone right hright hlooks'

/-- The hint has the texts that signing writes for a certificate. -/
structure WrittenFor (lib : CertInfoLibs) (certDer : ByteArray) (hint : Node) : Prop where
  issuer : (Sign.extractX509Info lib certDer).issuerName = some (issuerTextOf hint)
  serial : (Sign.extractX509Info lib certDer).serialNumber = some (serialTextOf hint)

/-- What is written for a certificate names it. -/
theorem WrittenFor.texts {lib : CertInfoLibs} {certDer : ByteArray} {cert : Certificate}
    {hint : Node} (hcert : lib.parseCertificate certDer = .ok cert)
    (h : WrittenFor lib certDer hint) :
    Sign.formatRdnSequence lib cert.issuer = issuerTextOf hint
      ∧ toString (signed cert.serialNumber.toList) = serialTextOf hint := by
  have hissuer := h.issuer
  have hserial := h.serial
  rw [Sign.extractX509Info, hcert] at hissuer hserial
  refine ⟨Option.some.inj hissuer, ?_⟩
  rw [← Sign.formatSerial_eq]
  exact Option.some.inj hserial

/-- **What an X509IssuerSerial resolves to.** The key that is returned by the hint has its issuer
and its serial number exactly where the keys that look right and are not stand behind one that is;
and the hint that signing writes for the certificate of a key returns that key exactly where the
serial number is not negative and no key before it looks right. -/
theorem issuer_serial_iff (lib : CertInfoLibs) (manager : KeysManager) (keyInfo hint : Node)
    (honly : OnlyHint keyInfo hint) :
    ((∀ key, ReturnsByHint lib.toKeyLibs manager keyInfo hint key →
          IsNamed lib (issuerTextOf hint) (serialTextOf hint) key)
        ↔ WrongBehindRight lib manager (issuerTextOf hint) (serialTextOf hint))
      ∧ ∀ before key after certDer chain cert, manager.keys = before ++ key :: after →
          key ∉ before → key.x509Chain = certDer :: chain →
          lib.parseCertificate certDer = .ok cert → WrittenFor lib certDer hint →
          (ReturnsByHint lib.toKeyLibs manager keyInfo hint key
            ↔ 0 ≤ signed cert.serialNumber.toList
              ∧ ∀ other ∈ before, ¬ LooksNamed lib.toKeyLibs (serialTextOf hint) other) := by
  constructor
  · rw [← found_named_iff]
    constructor
    · intro h key hfound
      have hne := (findKeyBySerial_eq_some.mp hfound).1.ne_empty
      exact h key ((returnsByHint_iff honly).mpr ⟨hne, hfound⟩)
    · intro h key hreturns
      exact h key ((returnsByHint_iff honly).mp hreturns).2
  · intro before key after certDer chain cert hkeys hfirst hchain hcert hwritten
    have hleaf : HasLeaf lib.toKeyLibs key cert := ⟨certDer, chain, hchain, hcert⟩
    have hlooks : LooksNamed lib.toKeyLibs (serialTextOf hint) key
        ↔ 0 ≤ signed cert.serialNumber.toList := by
      rw [← serialDecimal_signed_iff, (hwritten.texts hcert).2]
      constructor
      · rintro ⟨cert', hleaf', hserial⟩
        rw [hleaf.unique hleaf']
        exact hserial
      · intro hserial
        exact ⟨cert, hleaf, hserial⟩
    rw [returnsByHint_iff honly, findKeyBySerial_eq_some, ← hlooks]
    constructor
    · rintro ⟨-, hkey, front, back, hkeys', hnone⟩
      refine ⟨hkey, ?_⟩
      intro other hother
      rcases List.append_eq_append_iff.mp (hkeys.symm.trans hkeys') with
        ⟨more, hfront, -⟩ | ⟨more, hbefore, hrest⟩
      · rw [hfront] at hnone
        exact hnone other (List.mem_append_left more hother)
      · cases more with
        | nil =>
            rw [hbefore, List.append_nil] at hother
            exact hnone other hother
        | cons k more =>
            -- the key would be among those before it
            obtain ⟨rfl, -⟩ := List.cons.inj hrest
            rw [hbefore] at hfirst
            exact absurd (List.mem_append_right front List.mem_cons_self) hfirst
    · rintro ⟨hkey, hnone⟩
      exact ⟨hkey.ne_empty, hkey, before, after, hkeys, hnone⟩

namespace TwoIssuers

/-- A certificate with serial number 7. -/
def cert (issuer : UInt8) : Certificate where
  subject := .empty
  issuer := ⟨#[issuer]⟩
  serialNumber := ⟨#[7]⟩
  extensions := []
  subjectPublicKeyInfo := .empty
  algorithmOid := "1.2.840.113549.1.1.1"
  notBefore := 0
  notAfter := 100

/-- The names of the issuers are one letter each, as a common name. -/
def lib : CertInfoLibs where
  toKeyLibs :=
    { (VerifyLibs.ofParser (fun _ => .error "no text is known")).toKeyLibs with
      parseCertificate := fun der =>
        if der = ⟨#[1]⟩ then .ok (cert 65) else if der = ⟨#[2]⟩ then .ok (cert 66)
        else .error "not a certificate" }
  rdns name := [[⟨"2.5.4.3", name⟩]]
  utf8String _ := none
  printableString _ := none
  ia5String _ := none
  fromUtf8Lossy value := String.ofList (value.toList.map (fun b => Char.ofNat b.toNat))
  octetString _ := none
  base64Encode _ := ""

def key (der : UInt8) : Key := ⟨none, .rsa none ⟨#[der]⟩, .verify, [⟨#[der]⟩]⟩

def manager (keys : List Key) : KeysManager := ⟨keys, [], [], []⟩

def element (localName : String) : Element := ⟨⟨none, localName, some Ns.DSIG⟩, [], []⟩

/-- The hint that is written for the first certificate. -/
def hintKids : Nodes :=
  .node 3 (element "X509IssuerName") (.leaf 4 (.text "CN=A") .nil)
    (.node 5 (element "X509SerialNumber") (.leaf 6 (.text "7") .nil) .nil)

def keyInfo : Node :=
  ⟨0, [], .node (element "KeyInfo") (.node 1 (element "X509Data")
    (.node 2 (element "X509IssuerSerial") hintKids .nil) .nil)⟩

def hint : Node :=
  ⟨2, [(1, element "X509Data"), (0, element "KeyInfo")], .node (element "X509IssuerSerial") hintKids⟩

theorem onlyHint : OnlyHint keyInfo hint where
  noKeyName c hc := by
    obtain rfl := List.mem_singleton.mp hc
    rfl
  hints := rfl

theorem serialText : serialTextOf hint = "7" := by decide

theorem issuerText : issuerTextOf hint = "CN=A" := by decide

theorem singleton_toList (b : UInt8) : (⟨#[b]⟩ : ByteArray).toList = [b] := by
  have hpos : 0 < (⟨#[b]⟩ : ByteArray).size := Nat.one_pos
  rw [ByteArray.toList, ByteArray.toList.loop, if_pos hpos, ByteArray.toList.loop]
  rfl

theorem issuerName (b : UInt8) : Sign.formatRdnSequence lib ⟨#[b]⟩
    = "CN=" ++ String.ofList [Char.ofNat b.toNat] := by
  have hvalue : lib.fromUtf8Lossy ⟨#[b]⟩ = String.ofList [Char.ofNat b.toNat] := by
    show String.ofList ((⟨#[b]⟩ : ByteArray).toList.map _) = _
    rw [singleton_toList]
    rfl
  rw [← hvalue]
  rfl

theorem writtenFor : WrittenFor lib ⟨#[1]⟩ hint where
  issuer := by
    show some (Sign.formatRdnSequence lib ⟨#[65]⟩) = some (issuerTextOf hint)
    rw [issuerName, issuerText]
    rfl
  serial := by
    show some (Sign.formatSerial (⟨#[7]⟩ : ByteArray).toList) = some (serialTextOf hint)
    rw [singleton_toList, Sign.formatSerial_eq, serialText]
    rfl

theorem hasLeaf (der issuer : UInt8) (h : lib.parseCertificate ⟨#[der]⟩ = .ok (cert issuer)) :
    HasLeaf lib.toKeyLibs (key der) (cert issuer) := ⟨⟨#[der]⟩, [], rfl, h⟩

/-- Both keys look right. -/
theorem looksNamed (der issuer : UInt8) (h : lib.parseCertificate ⟨#[der]⟩ = .ok (cert issuer)) :
    LooksNamed lib.toKeyLibs (serialTextOf hint) (key der) := by
  refine ⟨cert issuer, hasLeaf der issuer h, ?_⟩
  rw [formatSerialDecimal_eq, serialText]
  show Nat.repr (value (⟨#[7]⟩ : ByteArray).toList) = "7"
  rw [singleton_toList]
  rfl

end TwoIssuers

/-- With the key of the certificate in front, the hint returns it and nothing wrong. -/
theorem issuer_serial_sample :
    ReturnsByHint TwoIssuers.lib.toKeyLibs (TwoIssuers.manager [TwoIssuers.key 1, TwoIssuers.key 2])
      TwoIssuers.keyInfo TwoIssuers.hint (TwoIssuers.key 1) := by
  have hcert : TwoIssuers.lib.parseCertificate ⟨#[1]⟩ = .ok (TwoIssuers.cert 65) := rfl
  have hnonneg : 0 ≤ signed (TwoIssuers.cert 65).serialNumber.toList := by
    show 0 ≤ signed (⟨#[7]⟩ : ByteArray).toList
    rw [TwoIssuers.singleton_toList]
    decide
  refine ((issuer_serial_iff TwoIssuers.lib
    (TwoIssuers.manager [TwoIssuers.key 1, TwoIssuers.key 2]) TwoIssuers.keyInfo TwoIssuers.hint
    TwoIssuers.onlyHint).2 [] (TwoIssuers.key 1) [TwoIssuers.key 2] _ _ _ rfl List.not_mem_nil rfl
    hcert TwoIssuers.writtenFor).mpr ⟨hnonneg, ?_⟩
  intro other hother
  exact absurd hother List.not_mem_nil

/-- **The key of another issuer**, with the same serial number, is returned for the hint that was
written for the other certificate. -/
theorem other_issuer_returned :
    WrittenFor TwoIssuers.lib ⟨#[1]⟩ TwoIssuers.hint
      ∧ ReturnsByHint TwoIssuers.lib.toKeyLibs
          (TwoIssuers.manager [TwoIssuers.key 2, TwoIssuers.key 1]) TwoIssuers.keyInfo
          TwoIssuers.hint (TwoIssuers.key 2)
      ∧ ¬ IsNamed TwoIssuers.lib (issuerTextOf TwoIssuers.hint) (serialTextOf TwoIssuers.hint)
          (TwoIssuers.key 2) := by
  have hcert : TwoIssuers.lib.parseCertificate ⟨#[2]⟩ = .ok (TwoIssuers.cert 66) := rfl
  have hlooks := TwoIssuers.looksNamed 2 66 hcert
  refine ⟨TwoIssuers.writtenFor, ?_, ?_⟩
  · refine (returnsByHint_iff TwoIssuers.onlyHint).mpr ⟨hlooks.ne_empty, ?_⟩
    exact findKeyBySerial_eq_some.mpr ⟨hlooks, [], [TwoIssuers.key 1], rfl,
      fun other hother => absurd hother List.not_mem_nil⟩
  · rintro ⟨cert, hleaf, hissuer, -⟩
    rw [← (TwoIssuers.hasLeaf 2 66 hcert).unique hleaf, TwoIssuers.issuerText] at hissuer
    have hname : Sign.formatRdnSequence TwoIssuers.lib ⟨#[66]⟩ = "CN=A" := hissuer
    rw [TwoIssuers.issuerName] at hname
    exact absurd hname (by decide)

end Bergshamra
