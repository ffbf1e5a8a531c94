import Bergshamra.Lib.BigEndian
import Mathlib.Algebra.Order.Floor.Div

/-!
# The key derivation of RFC 7292, appendix B.2

The strings of the appendix by their own names: `D`, `S`, `P`, the `I` and the `A`
of every turn, `B`. The hash maps bytes to `u` bytes and works on blocks of `v`
bytes.
-/

namespace Rfc7292

open BigEndian

/-- Copies of a string one after another, the last of them cut. -/
def copies (data : List UInt8) (len : Nat) : List UInt8 :=
  (List.range len).map fun i => data.getD (i % data.length) 0

/-- Copies of a string up to the next multiple of `v`. -/
def filled (v : Nat) (data : List UInt8) : List UInt8 := copies data (v * (data.length ⌈/⌉ v))

/-- `I_j + B + 1` modulo `2^(8v)`. -/
def bumped (v : Nat) (b block : List UInt8) : List UInt8 :=
  fixed v ((value block + value b + 1) % 2 ^ (8 * v))

/-- Every block of `I` with `B + 1` added. -/
def next (v : Nat) (b i : List UInt8) : List UInt8 :=
  (List.range (i.length / v)).flatMap fun j => bumped v b ((i.drop (j * v)).take v)

section

variable (hash : List UInt8 → List UInt8) (id : UInt8) (password salt : List UInt8)
variable (iterations u v : Nat)

/-- The `A` that comes from an `I`: the hash of `D` and `I`, `iterations` times. -/
def hashed (i : List UInt8) : List UInt8 := hash^[iterations] (List.replicate v id ++ i)

/-- The `I` of a turn. -/
def input : Nat → List UInt8
  | 0 => filled v salt ++ filled v password
  | turn + 1 =>
      let i := input turn
      next v (copies (hashed hash id iterations v i) v) i

/-- The first `n` bytes of the `A` of `⌈n/u⌉` turns. -/
def kdf (n : Nat) : List UInt8 :=
  ((List.range (n ⌈/⌉ u)).flatMap fun turn =>
    hashed hash id iterations v (input hash id password salt iterations v turn)).take n

end

end Rfc7292
