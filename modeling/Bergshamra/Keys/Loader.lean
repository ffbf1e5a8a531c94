import Bergshamra.Crypto.SignatureValue

/-!
# Loading keys

`extract_first_octet_string` of `loader.rs`, for private keys that are an OCTET STRING
in a SEQUENCE, with the lengths it reads.
-/

namespace Bergshamra

/-- `parse_asn1_length`: the length, and the data after it. -/
def parseAsn1Length : List UInt8 → Option (Nat × List UInt8)
  | [] => none
  | first :: data =>
      if first < 0x80 then some (first.toNat, data)
      else if first = 0x81 then
        match data with
        | a :: rest => some (a.toNat, rest)
        | _ => none
      else if first = 0x82 then
        match data with
        | a :: b :: rest => some (a.toNat <<< 8 ||| b.toNat, rest)
        | _ => none
      else if first = 0x83 then
        match data with
        | a :: b :: c :: rest => some (a.toNat <<< 16 ||| b.toNat <<< 8 ||| c.toNat, rest)
        | _ => none
      else none

/-- `extract_first_octet_string`. -/
def extractFirstOctetString (data : List UInt8) : Except Error (Option (List UInt8)) :=
  match data with
  | [] => .ok none
  | tag :: data =>
      if tag ≠ 0x30 then .ok none
      else
        match parseAsn1Length data with
        | none => .ok none
        | some (_, []) => .ok none
        | some (_, tag :: seqContent) =>
            if tag ≠ 0x04 then .ok none
            else
              match parseAsn1Length seqContent with
              | none => .ok none
              | some (octetLen, octetContent) =>
                  (orPanics (Slices.slice? octetContent 0 octetLen)).map some

end Bergshamra
