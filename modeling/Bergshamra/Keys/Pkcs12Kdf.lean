import Bergshamra.Crypto.SignatureValue

/-!
# The key derivation of PKCS#12

`kdf.rs`: `pkcs12_kdf_generic` with its two helpers. The hash is a parameter, a
function on bytes.
-/

namespace Bergshamra

namespace Pkcs12

/-- The loop of `extend_to_multiple`. -/
def extendLoop (data : List UInt8) (hne : data ≠ []) (len : Nat) (out : List UInt8) : List UInt8 :=
  if out.length < len then
    let remaining := len - out.length
    let take := min remaining data.length
    extendLoop data hne len (out ++ data.take take)
  else out
termination_by len - out.length
decreasing_by
  have hpos := List.length_pos_iff.mpr hne
  rw [List.length_append, List.length_take]
  omega

/-- `usize::div_ceil`; a division by zero panics. -/
def divCeil (n d : Nat) : Except Error Nat :=
  if d = 0 then .error .panics else .ok ((n + d - 1) / d)

/-- `extend_to_multiple`. -/
def extendToMultiple (data : List UInt8) (v : Nat) : Except Error (List UInt8) :=
  if hne : data = [] then .ok []
  else do
    let copies ← divCeil data.length v
    .ok (extendLoop data hne (copies * v) [])

/-- One turn of the loop of `add_one_plus_b`, from the last byte on. -/
def addStep (p : UInt8 × UInt8) (acc : List UInt8 × Nat) : List UInt8 × Nat :=
  let sum := p.1.toNat + p.2.toNat + acc.2
  (UInt8.ofNat sum :: acc.1, sum >>> 8)

/-- `add_one_plus_b`; `b` has to be as long as the block. -/
def addOnePlusB (block b : List UInt8) : Except Error (List UInt8) :=
  if b.length < block.length then .error .panics
  else .ok ((block.zip b).foldr addStep ([], 1)).1

/-- One turn of the loop over the blocks of `I`. -/
def addToBlock (v : Nat) (b iBlock : List UInt8) (j : Nat) : Except Error (List UInt8) := do
  let block ← orPanics (Slices.slice? iBlock (j * v) ((j + 1) * v))
  let block ← addOnePlusB block b
  orPanics (Slices.copy? iBlock (j * v) ((j + 1) * v) block)

/-- The hash of `D` and `I`, and the hash of that again and again. -/
def hashTimes (hash : List UInt8 → List UInt8) (iterations : Nat) (data : List UInt8) : List UInt8 :=
  (List.range' 1 (iterations - 1)).foldl (fun a _ => hash a) (hash data)

/-- One turn of the loop over the output blocks: the result so far, and `I`. -/
def kdfTurn (hash : List UInt8 → List UInt8) (dBlock : List UInt8) (iterations v numBlocks : Nat)
    (state : List UInt8 × List UInt8) (blockIdx : Nat) : Except Error (List UInt8 × List UInt8) :=
  let a := hashTimes hash iterations (dBlock ++ state.2)
  let result := state.1 ++ a
  if blockIdx + 1 < numBlocks then do
    let b ← extendToMultiple a v
    let iBlock ← (List.range (state.2.length / v)).foldlM (addToBlock v b) state.2
    .ok (result, iBlock)
  else .ok (result, state.2)

/-- `pkcs12_kdf_generic`. -/
def pkcs12KdfGeneric (hash : List UInt8 → List UInt8) (id : UInt8) (password salt : List UInt8)
    (iterations outputLen u v : Nat) : Except Error (List UInt8) := do
  let dBlock := List.replicate v id
  let s ← extendToMultiple salt v
  let p ← extendToMultiple password v
  let numBlocks ← divCeil outputLen u
  let state ← (List.range numBlocks).foldlM (kdfTurn hash dBlock iterations v numBlocks) ([], s ++ p)
  .ok (state.1.take outputLen)

/-- `pkcs12_kdf_sha1`. -/
def pkcs12KdfSha1 (sha1 : List UInt8 → List UInt8) (id : UInt8) (password salt : List UInt8)
    (iterations outputLen : Nat) : Except Error (List UInt8) :=
  pkcs12KdfGeneric sha1 id password salt iterations outputLen 20 64

/-- `pkcs12_kdf_sha256`. -/
def pkcs12KdfSha256 (sha256 : List UInt8 → List UInt8) (id : UInt8) (password salt : List UInt8)
    (iterations outputLen : Nat) : Except Error (List UInt8) :=
  pkcs12KdfGeneric sha256 id password salt iterations outputLen 32 64

end Pkcs12

end Bergshamra
