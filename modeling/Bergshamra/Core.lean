/-!
# Names shared by every crate

The error type, the namespace and element names, and the algorithm identifiers.
Only the ones a modelled function reads are listed.
-/

namespace Bergshamra

/-- There is more than one way to compare octets; the model keeps to the core library's. -/
instance instDecidableEqOctets : DecidableEq ByteArray := ByteArray.instDecidableEq

theorem octets_beq {a b : ByteArray} : (a == b) = true ↔ a = b := by
  rcases a with ⟨a⟩
  rcases b with ⟨b⟩
  show (a == b) = true ↔ _
  rw [beq_iff_eq, ByteArray.mk.injEq]

/-- The library's error type; each constructor carries the text it is built with. -/
inductive Error where
  /-- Not a value of the library: the call does not return, a slice or an `unwrap` fails. -/
  | panics
  | xmlParse (msg : String)
  | xmlStructure (msg : String)
  | unsupportedAlgorithm (msg : String)
  | crypto (msg : String)
  | key (msg : String)
  | transform (msg : String)
  | decryption (msg : String)
  | base64 (msg : String)
  | keyNotFound (msg : String)
  | missingElement (msg : String)
  | missingAttribute (msg : String)
  | invalidUri (msg : String)
  | certificate (msg : String)
  | other (msg : String)
deriving DecidableEq, Repr

/-- A computation that returned went through its first step. -/
theorem bind_eq_ok {ε α β : Type} {x : Except ε α} {f : α → Except ε β} {b : β} :
    (x >>= f) = .ok b ↔ ∃ a, x = .ok a ∧ f a = .ok b := by
  cases x with
  | error e => simp [bind, Except.bind]
  | ok a => simp [bind, Except.bind]

/-- A loop that returned passed every turn. -/
theorem forM_eq_ok {ε α : Type} {f : α → Except ε Unit} {l : List α} :
    l.forM f = .ok () ↔ ∀ a ∈ l, f a = .ok () := by
  induction l with
  | nil => simp [pure, Except.pure]
  | cons a l ih =>
      rw [List.forM, bind_eq_ok, List.forall_mem_cons, ← ih]
      exact ⟨fun ⟨_, ha, hl⟩ => ⟨ha, hl⟩, fun ⟨ha, hl⟩ => ⟨(), ha, hl⟩⟩

/-- `Result::ok`: an error is dropped, a panic is not caught. -/
def attempt {α : Type} : Except Error α → Except Error (Option α)
  | .ok a => .ok (some a)
  | .error .panics => .error .panics
  | .error _ => .ok none

theorem attempt_some {α : Type} {r : Except Error α} {a : α} :
    attempt r = .ok (some a) ↔ r = .ok a := by
  unfold attempt
  split <;> simp

/-- `or_else` on the option inside. -/
def orTry {α : Type} (r : Except Error (Option α)) (next : Except Error (Option α)) :
    Except Error (Option α) :=
  match r with
  | .ok none => next
  | .ok (some a) => .ok (some a)
  | .error e => .error e

/-- The value comes from the first alternative, or from the second when the first has none. -/
theorem orTry_some {α : Type} {r next : Except Error (Option α)} {a : α} :
    orTry r next = .ok (some a) ↔ r = .ok (some a) ∨ r = .ok none ∧ next = .ok (some a) := by
  unfold orTry
  split <;> simp

/-! ## Namespaces and names -/

namespace Ns

def DSIG : String := "http://www.w3.org/2000/09/xmldsig#"
def DSIG11 : String := "http://www.w3.org/2009/xmldsig11#"
def ENC : String := "http://www.w3.org/2001/04/xmlenc#"
def ENC11 : String := "http://www.w3.org/2009/xmlenc11#"
def DSIG_MORE : String := "http://www.w3.org/2001/04/xmldsig-more#"
def XML : String := "http://www.w3.org/XML/1998/namespace"
def XMLSEC_PQ : String := "http://www.aleksey.com/xmlsec/2025/12/xmldsig-more#"
def XSL : String := "http://www.w3.org/1999/XSL/Transform"
def RELATIONSHIPS : String := "http://schemas.openxmlformats.org/package/2006/relationships"
def RELATIONSHIP_REFERENCE : String :=
  "http://schemas.openxmlformats.org/package/2006/digital-signature"

end Ns

namespace Algorithm

def C14N : String := "http://www.w3.org/TR/2001/REC-xml-c14n-20010315"
def C14N_WITH_COMMENTS : String :=
  "http://www.w3.org/TR/2001/REC-xml-c14n-20010315#WithComments"
def C14N11 : String := "http://www.w3.org/2006/12/xml-c14n11"
def C14N11_WITH_COMMENTS : String := "http://www.w3.org/2006/12/xml-c14n11#WithComments"
def EXC_C14N : String := "http://www.w3.org/2001/10/xml-exc-c14n#"
def EXC_C14N_WITH_COMMENTS : String := "http://www.w3.org/2001/10/xml-exc-c14n#WithComments"
def BASE64 : String := "http://www.w3.org/2000/09/xmldsig#base64"
def ENVELOPED_SIGNATURE : String := "http://www.w3.org/2000/09/xmldsig#enveloped-signature"
def XPATH : String := "http://www.w3.org/TR/1999/REC-xpath-19991116"
def XPATH2 : String := "http://www.w3.org/2002/06/xmldsig-filter2"
def XSLT : String := "http://www.w3.org/TR/1999/REC-xslt-19991116"
def XPOINTER : String := "http://www.w3.org/2001/04/xmldsig-more/xptr"
def RELATIONSHIP : String :=
  "http://schemas.openxmlformats.org/package/2006/RelationshipTransform"

def HMAC_SHA1 : String := "http://www.w3.org/2000/09/xmldsig#hmac-sha1"
def HMAC_SHA224 : String := "http://www.w3.org/2001/04/xmldsig-more#hmac-sha224"
def HMAC_SHA256 : String := "http://www.w3.org/2001/04/xmldsig-more#hmac-sha256"
def HMAC_SHA384 : String := "http://www.w3.org/2001/04/xmldsig-more#hmac-sha384"
def HMAC_SHA512 : String := "http://www.w3.org/2001/04/xmldsig-more#hmac-sha512"
def HMAC_MD5 : String := "http://www.w3.org/2001/04/xmldsig-more#hmac-md5"
def HMAC_RIPEMD160 : String := "http://www.w3.org/2001/04/xmldsig-more#hmac-ripemd160"
def ML_DSA_44 : String := "http://www.aleksey.com/xmlsec/2025/12/xmldsig-more#ml-dsa-44"
def ML_DSA_65 : String := "http://www.aleksey.com/xmlsec/2025/12/xmldsig-more#ml-dsa-65"
def ML_DSA_87 : String := "http://www.aleksey.com/xmlsec/2025/12/xmldsig-more#ml-dsa-87"
def SLH_DSA_SHA2_128F : String :=
  "http://www.aleksey.com/xmlsec/2025/12/xmldsig-more#slh-dsa-sha2-128f"
def SLH_DSA_SHA2_128S : String :=
  "http://www.aleksey.com/xmlsec/2025/12/xmldsig-more#slh-dsa-sha2-128s"
def SLH_DSA_SHA2_192F : String :=
  "http://www.aleksey.com/xmlsec/2025/12/xmldsig-more#slh-dsa-sha2-192f"
def SLH_DSA_SHA2_192S : String :=
  "http://www.aleksey.com/xmlsec/2025/12/xmldsig-more#slh-dsa-sha2-192s"
def SLH_DSA_SHA2_256F : String :=
  "http://www.aleksey.com/xmlsec/2025/12/xmldsig-more#slh-dsa-sha2-256f"
def SLH_DSA_SHA2_256S : String :=
  "http://www.aleksey.com/xmlsec/2025/12/xmldsig-more#slh-dsa-sha2-256s"
def KW_AES128 : String := "http://www.w3.org/2001/04/xmlenc#kw-aes128"
def KW_AES192 : String := "http://www.w3.org/2001/04/xmlenc#kw-aes192"
def KW_AES256 : String := "http://www.w3.org/2001/04/xmlenc#kw-aes256"
def KW_TRIPLEDES : String := "http://www.w3.org/2001/04/xmlenc#kw-tripledes"
def RSA_PKCS1 : String := "http://www.w3.org/2001/04/xmlenc#rsa-1_5"
def RSA_OAEP : String := "http://www.w3.org/2001/04/xmlenc#rsa-oaep-mgf1p"
def RSA_OAEP_ENC11 : String := "http://www.w3.org/2009/xmlenc11#rsa-oaep"
def AES128_CBC : String := "http://www.w3.org/2001/04/xmlenc#aes128-cbc"
def AES192_CBC : String := "http://www.w3.org/2001/04/xmlenc#aes192-cbc"
def AES256_CBC : String := "http://www.w3.org/2001/04/xmlenc#aes256-cbc"
def AES128_GCM : String := "http://www.w3.org/2009/xmlenc11#aes128-gcm"
def AES192_GCM : String := "http://www.w3.org/2009/xmlenc11#aes192-gcm"
def AES256_GCM : String := "http://www.w3.org/2009/xmlenc11#aes256-gcm"
def TRIPLEDES_CBC : String := "http://www.w3.org/2001/04/xmlenc#tripledes-cbc"
def DH_ES : String := "http://www.w3.org/2009/xmlenc11#dh-es"
def ECDH_ES : String := "http://www.w3.org/2009/xmlenc11#ECDH-ES"
def X25519 : String := "http://www.w3.org/2021/04/xmldsig-more#x25519"
def PBKDF2 : String := "http://www.w3.org/2009/xmlenc11#pbkdf2"
def CONCAT_KDF : String := "http://www.w3.org/2009/xmlenc11#ConcatKDF"
def HKDF : String := "http://www.w3.org/2021/04/xmldsig-more#hkdf"

end Algorithm

end Bergshamra
