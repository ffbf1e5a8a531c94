import Bergshamra.Keys.Pkcs12Kdf
import Bergshamra.Spec.Pkcs12Kdf

/-!
# The derived key is the one of the appendix

`pkcs12_kdf_generic` against the text of RFC 7292, for every hash. The loop of
`extend_to_multiple` keeps a beginning of the copies. The loop of `add_one_plus_b`
keeps the sum of what it has read: the bytes written and the carry above them. The
loop over the blocks of `I` has done the first blocks and left the rest alone. And
the loop over the output has, before every turn that is not after the last, the
`I` of that turn.
-/

namespace Bergshamra

namespace Pkcs12

open BigEndian Rfc7292

/-! ## Copies -/

@[simp] theorem copies_length (data : List UInt8) (len : Nat) : (copies data len).length = len := by
  rw [copies, List.length_map, List.length_range]

/-- Whole copies, and the beginning of one more. -/
theorem copies_add (data : List UInt8) (turns : Nat) {more : Nat} (h : more ≤ data.length) :
    copies data (turns * data.length + more)
      = copies data (turns * data.length) ++ data.take more := by
  rw [copies, List.range_add, List.map_append, List.map_map]
  congr 1
  apply List.ext_getElem
  · rw [List.length_map, List.length_range, List.length_take]
    omega
  · intro i hi _
    rw [List.length_map, List.length_range] at hi
    have hlt : i < data.length := by omega
    have hmod : (turns * data.length + i) % data.length = i := by
      rw [Nat.mul_comm, Nat.mul_add_mod, Nat.mod_eq_of_lt hlt]
    rw [List.getElem_map, List.getElem_range, List.getElem_take, Function.comp_apply, hmod,
      ← List.getElem_eq_getD 0]

theorem copies_take (data : List UInt8) {len len' : Nat} (h : len ≤ len') :
    (copies data len').take len = copies data len := by
  rw [copies, ← List.map_take, List.take_range, Nat.min_eq_left h, copies]

/-- The loop makes the beginning of the copies longer. -/
theorem extendLoop_eq (data : List UInt8) (hne : data ≠ []) (len : Nat) (out : List UInt8)
    (hle : out.length ≤ len) (hout : out = copies data out.length)
    (hwhole : out.length < len → data.length ∣ out.length) :
    extendLoop data hne len out = copies data len := by
  have hpos := List.length_pos_iff.mpr hne
  induction out using extendLoop.induct data hne len with
  | case1 out hlt remaining take ih =>
      obtain ⟨turns, hturns⟩ := hwhole hlt
      have htake : take ≤ data.length := Nat.min_le_right _ _
      have hlen : (out ++ data.take take).length = out.length + take := by
        rw [List.length_append, List.length_take, Nat.min_eq_left htake]
      rw [extendLoop, if_pos hlt]
      refine ih ?_ ?_ ?_
      · rw [hlen]
        have : take ≤ len - out.length := Nat.min_le_left _ _
        omega
      · rw [hlen, hturns, Nat.mul_comm, copies_add data turns htake, Nat.mul_comm, ← hturns, ← hout]
      · -- a copy that was cut is the last
        intro hmore
        rw [hlen] at hmore ⊢
        have hwholeTake : take = data.length := by
          have : take = min (len - out.length) data.length := rfl
          omega
        rw [hwholeTake]
        exact Nat.dvd_add ⟨turns, hturns⟩ (Nat.dvd_refl _)
  | case2 out hge =>
      have hlen : out.length = len := by omega
      rw [extendLoop, if_neg hge, hout, hlen]

theorem divCeil_eq (n : Nat) {d : Nat} (hd : 0 < d) : divCeil n d = .ok (n ⌈/⌉ d) := by
  rw [divCeil, if_neg (by omega), Nat.ceilDiv_eq_add_pred_div]

/-- `extend_to_multiple` makes copies up to the next multiple. -/
theorem extendToMultiple_eq {v : Nat} (hv : 0 < v) (data : List UInt8) :
    extendToMultiple data v = .ok (filled v data) := by
  rw [extendToMultiple]
  split
  · rename_i hnil
    rw [hnil, filled, List.length_nil, zero_ceilDiv, Nat.mul_zero]
    rfl
  · rename_i hne
    rw [divCeil_eq _ hv]
    simp only [bind, Except.bind]
    rw [extendLoop_eq data hne _ [] (Nat.zero_le _) rfl (fun _ => Nat.dvd_zero _), Nat.mul_comm]
    rfl

theorem filled_length (v : Nat) (data : List UInt8) :
    (filled v data).length = v * (data.length ⌈/⌉ v) := copies_length _ _

/-! ## One more than the sum -/

/-- The bytes written and the carry above them are one more than the sum of what was read. -/
theorem addStep_value (pairs : List (UInt8 × UInt8)) :
    let state := pairs.foldr addStep ([], 1)
    state.1.length = pairs.length
      ∧ value state.1 + state.2 * 256 ^ pairs.length
          = value (pairs.map Prod.fst) + value (pairs.map Prod.snd) + 1 := by
  induction pairs with
  | nil => exact ⟨rfl, rfl⟩
  | cons pair pairs ih =>
      obtain ⟨hlen, hvalue⟩ := ih
      simp only [List.foldr_cons, List.map_cons, List.length_cons, addStep]
      refine ⟨by rw [hlen], ?_⟩
      generalize List.foldr addStep ([], 1) pairs = state at hlen hvalue
      have hbyte : ∀ n : Nat, (UInt8.ofNat n).toNat = n % 256 := fun _ => rfl
      have hcarry : ∀ n : Nat, n >>> 8 = n / 256 := fun n => Nat.shiftRight_eq_div_pow n 8
      rw [value_cons, value_cons, value_cons, hlen, List.length_map, List.length_map, hbyte, hcarry]
      calc (pair.1.toNat + pair.2.toNat + state.2) % 256 * 256 ^ pairs.length + value state.1
            + (pair.1.toNat + pair.2.toNat + state.2) / 256 * 256 ^ (pairs.length + 1)
          = ((pair.1.toNat + pair.2.toNat + state.2) % 256
              + 256 * ((pair.1.toNat + pair.2.toNat + state.2) / 256)) * 256 ^ pairs.length
              + value state.1 := by ring
        _ = (pair.1.toNat + pair.2.toNat + state.2) * 256 ^ pairs.length + value state.1 := by
            rw [Nat.mod_add_div]
        _ = (pair.1.toNat + pair.2.toNat) * 256 ^ pairs.length
              + (value state.1 + state.2 * 256 ^ pairs.length) := by ring
        _ = _ := by
            rw [hvalue]
            ring

/-- `add_one_plus_b` on a block and a `B` that is not shorter. -/
theorem addOnePlusB_eq {v : Nat} {block b : List UInt8} (hblock : block.length = v)
    (hb : v ≤ b.length) : addOnePlusB block b = .ok (bumped v (b.take v) block) := by
  obtain ⟨hlen, hvalue⟩ := addStep_value (block.zip b)
  have hpairs : (block.zip b).length = v := by
    rw [List.length_zip, hblock, Nat.min_eq_left hb]
  have hzip : block.zip b = block.zip (b.take v) := by
    rw [List.zip_eq_zip_take_min, hblock, Nat.min_eq_left hb,
      List.take_of_length_le (Nat.le_of_eq hblock)]
  have hfst : (block.zip b).map Prod.fst = block := List.map_fst_zip (by omega)
  have hsnd : (block.zip b).map Prod.snd = b.take v := by
    rw [hzip]
    refine List.map_snd_zip ?_
    rw [List.length_take]
    omega
  have hlt := value_lt ((block.zip b).foldr addStep ([], 1)).1
  rw [hpairs] at hlen hvalue
  rw [hlen] at hlt
  rw [hfst, hsnd] at hvalue
  rw [addOnePlusB, if_neg (by omega)]
  congr 1
  refine (fixed_eq_of_value hlen ?_).symm
  -- what the carry counts is lost
  rw [← hvalue, Nat.pow_mul, Nat.add_mul_mod_self_right, Nat.mod_eq_of_lt hlt]

/-! ## The blocks of `I` -/

theorem bumped_length (v : Nat) (b block : List UInt8) : (bumped v b block).length = v :=
  fixed_length _ _

/-- Every block is as long as before. -/
theorem bumpedBlocks_length (v : Nat) (b i : List UInt8) (blocks : Nat) :
    ((List.range blocks).flatMap fun j => bumped v b ((i.drop (j * v)).take v)).length
      = blocks * v := by
  simp [List.length_flatMap, bumped_length]

theorem next_length {v : Nat} (b : List UInt8) {i : List UInt8} (h : v ∣ i.length) :
    (next v b i).length = i.length := by
  rw [next, bumpedBlocks_length, Nat.div_mul_cancel h]

/-- One block gets its sum, in its place. -/
theorem addToBlock_eq {v j : Nat} {b done block rest : List UInt8} (hb : v ≤ b.length)
    (hdone : done.length = j * v) (hblock : block.length = v) :
    addToBlock v b (done ++ block ++ rest) j = .ok (done ++ bumped v (b.take v) block ++ rest) := by
  have hstop : (j + 1) * v = done.length + block.length := by
    rw [hdone, hblock, Nat.succ_mul]
  have hlen : (bumped v (b.take v) block).length = block.length := by
    rw [bumped_length, hblock]
  rw [addToBlock, ← hdone, hstop, Slices.slice?_middle]
  simp only [orPanics, bind, Except.bind, addOnePlusB_eq hblock hb,
    Slices.copy?_middle _ _ _ _ hlen]

/-- The first blocks are done, the rest is as it was. -/
theorem blocks_run {v : Nat} {b : List UInt8} (hb : v ≤ b.length) (i : List UInt8) (blocks : Nat)
    (h : blocks * v ≤ i.length) :
    (List.range blocks).foldlM (addToBlock v b) i
      = .ok (((List.range blocks).flatMap fun j => bumped v (b.take v) ((i.drop (j * v)).take v))
          ++ i.drop (blocks * v)) := by
  induction blocks with
  | zero =>
      rw [Nat.zero_mul, List.drop_zero]
      rfl
  | succ blocks ih =>
      rw [Nat.succ_mul] at h
      have hdone := bumpedBlocks_length v (b.take v) i blocks
      rw [List.range_succ, List.foldlM_append, ih (by omega), List.flatMap_append]
      generalize (List.range blocks).flatMap
        (fun j => bumped v (b.take v) ((i.drop (j * v)).take v)) = done at hdone
      have hblock : ((i.drop (blocks * v)).take v).length = v := by
        rw [List.length_take, List.length_drop]
        omega
      have hsplit : done ++ i.drop (blocks * v)
          = done ++ (i.drop (blocks * v)).take v ++ i.drop ((blocks + 1) * v) := by
        rw [List.append_assoc, Nat.succ_mul, ← List.drop_drop, List.take_append_drop]
      simp only [List.foldlM_cons, List.foldlM_nil, List.flatMap_cons, List.flatMap_nil,
        List.append_nil, bind, Except.bind, pure, Except.pure]
      rw [hsplit, addToBlock_eq hb hdone hblock]

/-- All blocks of an `I`. -/
theorem next_run {v : Nat} {b : List UInt8} (hb : v ≤ b.length) {i : List UInt8}
    (h : v ∣ i.length) :
    (List.range (i.length / v)).foldlM (addToBlock v b) i = .ok (next v (b.take v) i) := by
  have hle : i.length / v * v = i.length := Nat.div_mul_cancel h
  rw [blocks_run hb i _ (Nat.le_of_eq hle), hle, List.drop_length, List.append_nil, next]

/-! ## The turns -/

section

variable {hash : List UInt8 → List UInt8} {u v : Nat} {iterations : Nat}

theorem hashTimes_eq (hit : 1 ≤ iterations) (id : UInt8) (i : List UInt8) :
    hashTimes hash iterations (List.replicate v id ++ i) = hashed hash id iterations v i := by
  obtain ⟨more, rfl⟩ := Nat.exists_eq_add_of_le' hit
  rw [hashTimes, List.foldl_const, List.length_range', hashed, Function.iterate_succ_apply,
    Nat.add_sub_cancel]

theorem hashed_length (hhash : ∀ data, (hash data).length = u) (hit : 1 ≤ iterations) (id : UInt8)
    (i : List UInt8) : (hashed hash id iterations v i).length = u := by
  obtain ⟨more, rfl⟩ := Nat.exists_eq_add_of_le' hit
  rw [hashed, Function.iterate_succ_apply', hhash]

variable (id : UInt8) (password salt : List UInt8)

/-- `I` is made of whole blocks. -/
theorem input_dvd (turn : Nat) : v ∣ (input hash id password salt iterations v turn).length := by
  induction turn with
  | zero =>
      rw [input, List.length_append, filled_length, filled_length]
      exact Nat.dvd_add (Nat.dvd_mul_right _ _) (Nat.dvd_mul_right _ _)
  | succ turn ih =>
      rw [input, next_length _ ih]
      exact ih

/-- One turn, from the `I` of that turn. -/
theorem kdfTurn_eq (hhash : ∀ data, (hash data).length = u) (hu : 0 < u) (hv : 0 < v)
    (hit : 1 ≤ iterations) (numBlocks turn : Nat) (result : List UInt8) :
    ∃ i, kdfTurn hash (List.replicate v id) iterations v numBlocks
        (result, input hash id password salt iterations v turn) turn
      = .ok (result
          ++ hashed hash id iterations v (input hash id password salt iterations v turn), i)
      ∧ (turn + 1 < numBlocks → i = input hash id password salt iterations v (turn + 1)) := by
  have hdvd := @input_dvd hash v iterations id password salt turn
  have hlen := hashed_length (v := v) hhash hit id (input hash id password salt iterations v turn)
  rw [kdfTurn]
  simp only [hashTimes_eq hit]
  by_cases hmore : turn + 1 < numBlocks
  · refine ⟨_, ?_, fun _ => rfl⟩
    generalize hA : hashed hash id iterations v (input hash id password salt iterations v turn) = a
      at hlen
    -- the copies of `A` fill at least one block
    have hceil : 1 ≤ a.length ⌈/⌉ v := by
      have hle := le_smul_ceilDiv (b := a.length) hv
      rw [smul_eq_mul] at hle
      by_contra hzero
      rw [show a.length ⌈/⌉ v = 0 by omega] at hle
      omega
    have hfits : v ≤ v * (a.length ⌈/⌉ v) := Nat.le_mul_of_pos_right v hceil
    have hb : v ≤ (filled v a).length := by
      rw [filled_length]
      exact hfits
    have htake : (filled v a).take v = copies a v := copies_take a hfits
    rw [if_pos hmore, extendToMultiple_eq hv]
    simp only [bind, Except.bind]
    rw [next_run hb hdvd, htake, input, hA]
  · refine ⟨input hash id password salt iterations v turn, ?_, fun h => absurd h hmore⟩
    rw [if_neg hmore]

/-- The output of the first turns, and the `I` of the next. -/
theorem kdf_run (hhash : ∀ data, (hash data).length = u) (hu : 0 < u) (hv : 0 < v)
    (hit : 1 ≤ iterations) {numBlocks turns : Nat} (hle : turns ≤ numBlocks) :
    ∃ i, (List.range turns).foldlM (kdfTurn hash (List.replicate v id) iterations v numBlocks)
        ([], input hash id password salt iterations v 0)
      = .ok ((List.range turns).flatMap fun turn =>
          hashed hash id iterations v (input hash id password salt iterations v turn), i)
      ∧ (turns < numBlocks → i = input hash id password salt iterations v turns) := by
  induction turns with
  | zero => exact ⟨_, rfl, fun _ => rfl⟩
  | succ turns ih =>
      obtain ⟨i, hrun, hi⟩ := ih (by omega)
      rw [hi (by omega)] at hrun
      obtain ⟨j, hturn, hj⟩ := kdfTurn_eq id password salt hhash hu hv hit numBlocks turns
        ((List.range turns).flatMap fun turn =>
          hashed hash id iterations v (input hash id password salt iterations v turn))
      refine ⟨j, ?_, hj⟩
      rw [List.range_succ, List.foldlM_append, hrun, List.flatMap_append]
      simp only [List.foldlM_cons, List.foldlM_nil, List.flatMap_cons, List.flatMap_nil,
        List.append_nil, bind, Except.bind, pure, Except.pure, hturn]

end

/-- **`pkcs12_kdf_generic` is the key derivation of the appendix**, for every hash; the copies
and the sums are the ones of the appendix too. -/
theorem pkcs12_kdf_is_rfc (hash : List UInt8 → List UInt8) (u v : Nat)
    (hhash : ∀ data, (hash data).length = u) (hu : 0 < u) (hv : 0 < v) :
    (∀ id password salt iterations n, 1 ≤ iterations →
        pkcs12KdfGeneric hash id password salt iterations n u v
          = .ok (kdf hash id password salt iterations u v n))
      ∧ (∀ data, extendToMultiple data v = .ok (copies data (v * (data.length ⌈/⌉ v))))
      ∧ ∀ block b : List UInt8, block.length = v → b.length = v →
          ∃ sum, addOnePlusB block b = .ok sum ∧ sum.length = v
            ∧ value sum = (value block + value b + 1) % 2 ^ (8 * v) := by
  refine ⟨?_, fun data => extendToMultiple_eq hv data, ?_⟩
  · intro id password salt iterations n hit
    obtain ⟨i, hrun, -⟩ := kdf_run id password salt hhash hu hv hit (Nat.le_refl (n ⌈/⌉ u))
    rw [pkcs12KdfGeneric, extendToMultiple_eq hv, extendToMultiple_eq hv, divCeil_eq n hu]
    simp only [bind, Except.bind]
    rw [← input, hrun]
    rfl
  · intro block b hblock hb
    have hpow : 2 ^ (8 * v) = 256 ^ v := Nat.pow_mul 2 8 v
    refine ⟨_, addOnePlusB_eq hblock (Nat.le_of_eq hb.symm), bumped_length _ _ _, ?_⟩
    rw [List.take_of_length_le (Nat.le_of_eq hb), bumped, hpow, value_fixed, Nat.mod_mod]

/-! ## A run over two blocks -/

namespace TwoBlocks

def salt : List UInt8 := [10, 88, 207, 100, 83, 13, 130, 63]

/-- The digest of the first turn. -/
def first : List UInt8 :=
  [153, 133, 3, 110, 26, 49, 210, 129, 32, 133, 214, 206, 249, 219, 46, 3, 220, 187, 107, 156]

/-- The digest of the second turn. -/
def second : List UInt8 :=
  [208, 16, 15, 181, 129, 240, 228, 150, 212, 95, 101, 250, 26, 84, 252, 213, 160, 187, 32,
      160]

/-- SHA-1 on what the two turns hash. -/
def sha1 (data : List UInt8) : List UInt8 :=
  if data = List.replicate 64 1 ++ copies salt 64 then first
  else if data = List.replicate 64 1 ++ next 64 (copies first 64) (copies salt 64) then second
  else List.replicate 20 0

theorem sha1_length (data : List UInt8) : (sha1 data).length = 20 := by
  rw [sha1]
  split_ifs
  · rfl
  · rfl
  · exact List.length_replicate

end TwoBlocks

/-- 24 bytes take two turns: the second digest begins after the first. -/
theorem pkcs12_kdf_two_blocks :
    pkcs12KdfSha1 TwoBlocks.sha1 1 [] TwoBlocks.salt 1 24
      = .ok (TwoBlocks.first ++ TwoBlocks.second.take 4) := by
  have h := (pkcs12_kdf_is_rfc TwoBlocks.sha1 20 64 TwoBlocks.sha1_length (by omega) (by omega)).1
    1 [] TwoBlocks.salt 1 24 (by omega)
  have hkdf : kdf TwoBlocks.sha1 1 [] TwoBlocks.salt 1 20 64 24
      = TwoBlocks.first ++ TwoBlocks.second.take 4 := by decide +kernel
  rw [← hkdf, pkcs12KdfSha1, h]

end Pkcs12

end Bergshamra
