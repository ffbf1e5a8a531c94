import Mathlib.Data.Nat.Digits.Lemmas

/-!
# Big-endian bytes

The number that a list of bytes denotes, most significant byte first, and the
bytes of a number: `fixed` in a given number of bytes, `minimal` without leading
zeros. Lists of one length are determined by their number.
-/

namespace BigEndian

/-- The number that bytes denote. -/
def value (bs : List UInt8) : Nat := bs.foldl (fun n b => n * 256 + b.toNat) 0

/-- The last bytes of a number. -/
def fixed : Nat → Nat → List UInt8
  | 0, _ => []
  | len + 1, n => fixed len (n / 256) ++ [UInt8.ofNat n]

/-- How many bytes a number has. -/
def width (n : Nat) : Nat := (Nat.digits 256 n).length

/-- The bytes of a number, without leading zeros. -/
def minimal (n : Nat) : List UInt8 := fixed (width n) n

/-- The signed number that bytes denote, in two's complement. -/
def signed (bs : List UInt8) : Int :=
  if bs.head?.any (fun b => 0x80 ≤ b) then value bs - 256 ^ bs.length else value bs

/-- Without leading zeros. -/
def strip (bs : List UInt8) : List UInt8 := bs.dropWhile (· == 0)

/-! ## Values -/

@[simp] theorem value_nil : value [] = 0 := rfl

theorem value_singleton (b : UInt8) : value [b] = b.toNat := Nat.zero_add _

/-- One more byte at the end. -/
theorem value_concat (bs : List UInt8) (b : UInt8) :
    value (bs ++ [b]) = value bs * 256 + b.toNat := by
  rw [value, List.foldl_append]
  rfl

theorem value_append (as bs : List UInt8) :
    value (as ++ bs) = value as * 256 ^ bs.length + value bs := by
  induction bs using List.reverseRecOn with
  | nil => simp
  | append_singleton bs b ih =>
      rw [← List.append_assoc, value_concat, ih, value_concat, List.length_append]
      simp only [List.length_singleton, pow_succ]
      ring

theorem value_cons (b : UInt8) (bs : List UInt8) :
    value (b :: bs) = b.toNat * 256 ^ bs.length + value bs := by
  rw [← List.singleton_append, value_append, value_singleton]

theorem value_lt (bs : List UInt8) : value bs < 256 ^ bs.length := by
  induction bs using List.reverseRecOn with
  | nil => exact Nat.one_pos
  | append_singleton bs b ih =>
      have hb := b.toNat_lt
      rw [value_concat, List.length_append, List.length_singleton, pow_succ]
      omega

@[simp] theorem value_replicate_zero (n : Nat) : value (List.replicate n 0) = 0 := by
  induction n with
  | zero => rfl
  | succ n ih =>
      rw [List.replicate_succ, value_cons, ih]
      simp

theorem value_replicate_append (n : Nat) (bs : List UInt8) :
    value (List.replicate n 0 ++ bs) = value bs := by
  rw [value_append, value_replicate_zero, Nat.zero_mul, Nat.zero_add]

/-! ## Bytes in a given number -/

@[simp] theorem fixed_length (len n : Nat) : (fixed len n).length = len := by
  induction len generalizing n with
  | zero => rfl
  | succ len ih => rw [fixed, List.length_append, ih, List.length_singleton]

theorem value_fixed (len n : Nat) : value (fixed len n) = n % 256 ^ len := by
  induction len generalizing n with
  | zero => rw [fixed, value_nil, pow_zero, Nat.mod_one]
  | succ len ih =>
      have hbyte : (UInt8.ofNat n).toNat = n % 256 := rfl
      rw [fixed, value_concat, ih, hbyte, pow_succ, Nat.mul_comm (256 ^ len) 256, Nat.mod_mul]
      omega

theorem value_fixed_of_lt {len n : Nat} (h : n < 256 ^ len) : value (fixed len n) = n := by
  rw [value_fixed, Nat.mod_eq_of_lt h]

/-- The bytes of the number of a list are the list. -/
theorem fixed_value (bs : List UInt8) : fixed bs.length (value bs) = bs := by
  induction bs using List.reverseRecOn with
  | nil => rfl
  | append_singleton bs b ih =>
      have hb := b.toNat_lt
      have hdiv : (value bs * 256 + b.toNat) / 256 = value bs := by omega
      have hbyte : UInt8.ofNat (value bs * 256 + b.toNat) = b := by
        apply UInt8.toNat_inj.mp
        show (value bs * 256 + b.toNat) % 256 = b.toNat
        omega
      rw [List.length_append, List.length_singleton, value_concat, fixed, hdiv, ih, hbyte]

theorem fixed_eq_of_value {bs : List UInt8} {len n : Nat} (hlen : bs.length = len)
    (hvalue : value bs = n) : fixed len n = bs := by
  rw [← hlen, ← hvalue, fixed_value]

/-! ## Leading zeros -/

theorem exists_zeros (bs : List UInt8) : ∃ n, bs = List.replicate n 0 ++ strip bs := by
  induction bs with
  | nil => exact ⟨0, rfl⟩
  | cons b bs ih =>
      by_cases hb : b = 0
      · obtain ⟨n, hn⟩ := ih
        refine ⟨n + 1, ?_⟩
        rw [strip, List.dropWhile_cons_of_pos (by rw [hb]; rfl), List.replicate_succ, List.cons_append,
          hb]
        exact congrArg _ hn
      · refine ⟨0, ?_⟩
        rw [strip, List.dropWhile_cons_of_neg (by simpa using hb)]
        rfl

@[simp] theorem value_strip (bs : List UInt8) : value (strip bs) = value bs := by
  obtain ⟨n, hn⟩ := exists_zeros bs
  have hvalue := value_replicate_append n (strip bs)
  rw [← hn] at hvalue
  exact hvalue.symm

/-- What is left does not begin with a zero. -/
theorem strip_head (bs : List UInt8) : ∀ b ∈ (strip bs).head?, b ≠ 0 := by
  intro b hb
  have h := List.head?_dropWhile_not (· == (0 : UInt8)) bs
  rw [strip, Option.mem_def] at hb
  rw [hb] at h
  simpa using h

/-- The number of a list that does not begin with a zero. -/
theorem le_value {bs : List UInt8} (hne : bs ≠ []) (h : ∀ b ∈ bs.head?, b ≠ 0) :
    256 ^ (bs.length - 1) ≤ value bs := by
  cases bs with
  | nil => exact absurd rfl hne
  | cons b bs =>
      have hb : b ≠ 0 := h b rfl
      have hpos : 1 ≤ b.toNat := by
        by_contra hzero
        exact hb (UInt8.toNat_inj.mp (by simpa using hzero))
      rw [value_cons, List.length_cons, Nat.add_sub_cancel]
      calc 256 ^ bs.length = 1 * 256 ^ bs.length := (Nat.one_mul _).symm
        _ ≤ b.toNat * 256 ^ bs.length := Nat.mul_le_mul_right _ hpos
        _ ≤ b.toNat * 256 ^ bs.length + value bs := Nat.le_add_right _ _

theorem width_le_iff {n len : Nat} : width n ≤ len ↔ n < 256 ^ len :=
  Nat.digits_length_le_iff (by decide) n

theorem lt_width (n : Nat) : n < 256 ^ width n := width_le_iff.mp (le_refl _)

theorem width_eq {bs : List UInt8} (h : ∀ b ∈ bs.head?, b ≠ 0) : width (value bs) = bs.length := by
  refine Nat.le_antisymm (width_le_iff.mpr (value_lt bs)) ?_
  by_cases hne : bs = []
  · rw [hne]
    exact Nat.zero_le _
  · have hle := le_value hne h
    have hpos := List.length_pos_iff.mpr hne
    by_contra hlt
    have hsmall := width_le_iff.mp (show width (value bs) ≤ bs.length - 1 by omega)
    omega

/-- The shortest bytes of the number of a list are the list without its leading zeros. -/
theorem minimal_value (bs : List UInt8) : minimal (value bs) = strip bs := by
  have hwidth := width_eq (strip_head bs)
  rw [minimal, ← value_strip, hwidth, fixed_value]

@[simp] theorem value_minimal (n : Nat) : value (minimal n) = n := value_fixed_of_lt (lt_width n)

@[simp] theorem minimal_length (n : Nat) : (minimal n).length = width n := fixed_length _ _

/-- In a given number of bytes a number has zeros in front. -/
theorem fixed_eq_replicate {len n : Nat} (h : n < 256 ^ len) :
    fixed len n = List.replicate (len - width n) 0 ++ minimal n := by
  have hle := width_le_iff.mpr h
  refine fixed_eq_of_value ?_ ?_
  · rw [List.length_append, List.length_replicate, minimal_length]
    omega
  · rw [value_replicate_append, value_minimal]

/-! ## Two's complement -/

theorem signed_nonneg_iff (bs : List UInt8) :
    0 ≤ signed bs ↔ ¬ bs.head?.any (fun b => 0x80 ≤ b) = true := by
  rw [signed]
  split
  · rename_i h
    have hlt : (value bs : Int) < 256 ^ bs.length := by exact_mod_cast value_lt bs
    constructor
    · intro hle
      omega
    · intro hnot
      exact absurd h hnot
  · rename_i h
    exact ⟨fun _ => h, fun _ => Int.natCast_nonneg _⟩

theorem signed_of_nonneg {bs : List UInt8} (h : 0 ≤ signed bs) : signed bs = value bs :=
  if_neg ((signed_nonneg_iff bs).mp h)

theorem signed_of_neg {bs : List UInt8} (h : signed bs < 0) :
    signed bs = value bs - 256 ^ bs.length := by
  have hhigh : bs.head?.any (fun b => 0x80 ≤ b) = true := by
    by_contra hnot
    have := (signed_nonneg_iff bs).mpr hnot
    omega
  exact if_pos hhigh

end BigEndian
