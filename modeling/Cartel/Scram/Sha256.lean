import Cartel.Lib.Hash

/-!
# SHA-256 and HMAC in place

`Sha256` holds the state, one block and the length. An update fills the block, and every
complete block goes to the compression function, which is a parameter. The same value is
used again for the second hash of an HMAC : its state and its length are set by hand, and
the digest is written over the block.

Whatever the updates were, the state has absorbed the complete blocks of the bytes so far,
and the first bytes of the block are the others (`Sha256.Absorbed`). So a finalized value
is the padded hash of `Cartel.Lib.Chain`, and the HMAC is the one over it.
-/

namespace Cartel.Pg.Scram

open Cartel.Lib

/-- `[u32; 8]`. -/
abbrev Words := Vector UInt32 8

/-- `Secret32`. -/
abbrev Secret32 := Vector UInt8 32

/-- `copy_from_slice` into the cells from `pos` on. -/
def copyAt {n : ℕ} (cells : Vector UInt8 n) (pos : ℕ) (bytes : List UInt8) : Vector UInt8 n :=
  Vector.ofFn fun i => if i < pos then cells.get i else bytes.getD (i - pos) (cells.get i)

/-- `IV`. -/
def iv : Words :=
  #v[0x6a09e667, 0xbb67ae85, 0x3c6ef372, 0xa54ff53a, 0x510e527f, 0x9b05688c, 0x1f83d9ab,
    0x5be0cd19]

/-- The words of a state, in bytes. -/
def stateBytes (state : Words) : List UInt8 :=
  state.toList.flatMap fun word => bigEndian 4 word.toNat

/-- `write_state`. -/
def writeState {n : ℕ} (state : Words) (output : Vector UInt8 n) : Vector UInt8 n :=
  copyAt output 0 (stateBytes state)

/-- `Sha256`. -/
structure Sha256 where
  state : Words
  block : Vector UInt8 64
  len : UInt64

/-- `Sha256::new`. -/
def Sha256.new (len : UInt64) : Sha256 :=
  ⟨iv, .replicate 64 0, len⟩

variable (compress256 : Words → List UInt8 → Words)

/-- The end of `Sha256::update`, from a block boundary on. -/
def Sha256.updateWhole (hash : Sha256) (input : List UInt8) : Sha256 :=
  ⟨(wholeBlocks 64 input).foldl compress256 hash.state,
    copyAt hash.block 0 (input.drop (input.length / 64 * 64)), hash.len⟩

/-- `Sha256::update`. -/
def Sha256.update (hash : Sha256) (input : List UInt8) : Sha256 :=
  let pos := (hash.len &&& 63).toNat
  let len := hash.len + .ofNat input.length
  if pos = 0 then
    Sha256.updateWhole compress256 ⟨hash.state, hash.block, len⟩ input
  else
    let take := min (64 - pos) input.length
    let block := copyAt hash.block pos (input.take take)
    if pos + take = 64 then
      Sha256.updateWhole compress256 ⟨compress256 hash.state block.toList, block, len⟩
        (input.drop take)
    else ⟨hash.state, block, len⟩

/-- `pad` : the state and the last block. -/
def pad (state : Words) (block : Vector UInt8 64) (len : UInt64) : Words × Vector UInt8 64 :=
  let pos := (len &&& 63).toNat
  let block := copyAt block pos (0x80 :: List.replicate (63 - pos) 0)
  let tail := bigEndian 8 (len * 8).toNat
  if 56 ≤ pos then
    (compress256 state block.toList, copyAt (.replicate 64 0) 56 tail)
  else (state, copyAt block 56 tail)

/-- `Sha256::finalize`. -/
def Sha256.finalize (hash : Sha256) : Sha256 :=
  let (state, block) := pad compress256 hash.state hash.block hash.len
  ⟨compress256 state block.toList, block, hash.len⟩

/-- `Sha256::hmac` : the value left, and the output. -/
def Sha256.hmac (hash : Sha256) (outer : Words) (output : Secret32) : Sha256 × Secret32 :=
  let hash := hash.finalize compress256
  let hash := Sha256.finalize compress256 ⟨outer, writeState hash.state hash.block, 96⟩
  (hash, writeState hash.state output)

/-- `hmac` : the two states after the block of a key. -/
def hmac (key : List UInt8) (inner outer : Words) : Words × Words :=
  let zeros : Vector UInt8 64 := .replicate 64 0
  let block :=
    if 64 < key.length then
      writeState (((Sha256.new 0).update compress256 key).finalize compress256).state zeros
    else copyAt zeros 0 key
  let first := block.map (· ^^^ 0x36)
  let second := first.map (· ^^^ (0x36 ^^^ 0x5c))
  (compress256 inner first.toList, compress256 outer second.toList)

/-- The value `hmac` prepares for a keyed hash, and its outer state. -/
def keyed (key : List UInt8) : Sha256 × Words :=
  let (inner, outer) := hmac compress256 key iv iv
  (⟨inner, (Sha256.new 64).block, 64⟩, outer)

/-! ## Cells -/

theorem getElem_copyAt {n pos i : ℕ} {cells : Vector UInt8 n} {bytes : List UInt8} (h : i < n) :
    (copyAt cells pos bytes)[i] =
      if i < pos then cells[i] else bytes.getD (i - pos) cells[i] :=
  Vector.getElem_ofFn h

theorem toList_copyAt {n pos : ℕ} {cells : Vector UInt8 n} {bytes : List UInt8}
    (h : pos + bytes.length ≤ n) : (copyAt cells pos bytes).toList =
      cells.toList.take pos ++ bytes ++ cells.toList.drop (pos + bytes.length) := by
  have hcells : cells.toList.length = n := Vector.length_toList
  refine List.ext_getElem (by simp; omega) fun i hi _ => ?_
  rw [Vector.length_toList] at hi
  rw [Vector.getElem_toList, getElem_copyAt hi]
  split_ifs with hpos
  · rw [List.getElem_append_left (by simp; omega), List.getElem_append_left (by simp; omega),
      List.getElem_take]
    rfl
  · rcases Nat.lt_or_ge (i - pos) bytes.length with hlt | hge
    · rw [List.getElem_append_left (by simp; omega), List.getElem_append_right (by simp; omega),
        List.getD_eq_getElem _ _ hlt]
      congr 1
      simp
      omega
    · rw [List.getElem_append_right (by simp; omega), List.getD_eq_default _ _ hge,
        List.getElem_drop]
      change cells.toList.get ⟨i, by omega⟩ = _
      congr 1
      simp
      omega

theorem length_stateBytes (state : Words) : (stateBytes state).length = 32 := by
  unfold stateBytes
  rw [List.length_flatMap]
  simp only [length_bigEndian, List.map_const', List.sum_replicate_nat, Vector.length_toList]

theorem toList_writeState {n : ℕ} (state : Words) (output : Vector UInt8 n) (h : 32 ≤ n) :
    (writeState state output).toList = stateBytes state ++ output.toList.drop 32 := by
  unfold writeState
  rw [toList_copyAt (by rw [length_stateBytes]; omega), length_stateBytes]
  rfl

theorem toList_digest (state : Words) (output : Secret32) :
    (writeState state output).toList = stateBytes state := by
  rw [toList_writeState state output le_rfl, List.drop_eq_nil_of_le (by simp), List.append_nil]

/-! ## The padded hash -/

theorem stateBytes_le (state : Words) : (stateBytes state).length ≤ 64 := by
  rw [length_stateBytes]
  exact Nat.le_add_right 32 32

/-- The padded hash over the compression function. -/
def sha256 : Chain Words :=
  ⟨64, 8, iv, compress256, stateBytes, Nat.succ_pos 63, stateBytes_le⟩

/-- The value has absorbed the blocks `front`, and the block begins with `rest`. -/
structure Sha256.Holds (hash : Sha256) (front rest : List UInt8) : Prop where
  whole : 64 ∣ front.length
  short : rest.length < 64
  state : hash.state = (sha256 compress256).absorb iv front
  block : hash.block.toList.take rest.length = rest
  len : hash.len = .ofNat (front.length + rest.length)

/-- The bytes a value was updated with. -/
def Sha256.Absorbed (hash : Sha256) (bytes : List UInt8) : Prop :=
  ∃ front rest, front ++ rest = bytes ∧ hash.Holds compress256 front rest

variable {compress256} {hash : Sha256} {front rest bytes : List UInt8}

theorem toNat_pos (n : ℕ) : (UInt64.ofNat n &&& 63).toNat = n % 64 := by
  rw [UInt64.toNat_and, UInt64.toNat_ofNat']
  change n % 2 ^ 64 &&& (2 ^ 6 - 1) = n % 64
  rw [Nat.and_two_pow_sub_one_eq_mod]
  exact Nat.mod_mod_of_dvd n (by decide)

theorem Sha256.Holds.pos (h : hash.Holds compress256 front rest) :
    (hash.len &&& 63).toNat = rest.length := by
  have hwhole := h.whole
  have hshort := h.short
  rw [h.len, toNat_pos]
  omega

/-- What is in the block at the start does not matter. -/
theorem Sha256.absorbed_start (block : Vector UInt8 64) :
    (⟨iv, block, 0⟩ : Sha256).Absorbed compress256 [] :=
  ⟨[], [], rfl, by decide, by decide, (@Chain.absorb_of_lt _ (sha256 compress256) iv []
    (sha256 compress256).width_pos).symm, rfl, rfl⟩

theorem Sha256.absorbed_new : (Sha256.new 0).Absorbed compress256 [] :=
  Sha256.absorbed_start _

theorem Sha256.absorbed_updateWhole {input : List UInt8} (hwhole : 64 ∣ front.length)
    (hstate : hash.state = (sha256 compress256).absorb iv front)
    (hlen : hash.len = .ofNat (front.length + input.length)) :
    (hash.updateWhole compress256 input).Absorbed compress256 (front ++ input) := by
  have hsplit := List.take_append_drop (input.length / 64 * 64) input
  have htake : (input.take (input.length / 64 * 64)).length = input.length / 64 * 64 := by
    rw [List.length_take]
    omega
  have hdrop : (input.drop (input.length / 64 * 64)).length < 64 := by
    rw [List.length_drop]
    omega
  have hblocks : (sha256 compress256).absorb iv (front ++ input.take (input.length / 64 * 64)) =
      (sha256 compress256).absorb ((sha256 compress256).absorb iv front) input := by
    rw [Chain.absorb_append (by exact hwhole)]
    exact Chain.absorb_take
  refine ⟨front ++ input.take (input.length / 64 * 64), input.drop (input.length / 64 * 64),
    by rw [List.append_assoc, hsplit], ?_, hdrop, ?_, ?_, ?_⟩
  · rw [List.length_append, htake]
    omega
  · rw [hblocks, ← hstate]
    rfl
  · rw [Sha256.updateWhole, toList_copyAt (by omega), List.take_zero, List.nil_append,
      List.take_left]
  · rw [List.length_append, Nat.add_assoc, ← List.length_append, hsplit]
    exact hlen

theorem Sha256.Absorbed.update (h : hash.Absorbed compress256 bytes) (input : List UInt8) :
    (hash.update compress256 input).Absorbed compress256 (bytes ++ input) := by
  obtain ⟨front, rest, rfl, h⟩ := h
  have hpos := h.pos
  have hshort := h.short
  have hlen : hash.len + .ofNat input.length =
      UInt64.ofNat (front.length + rest.length + input.length) := by
    rw [h.len, UInt64.ofNat_add _ input.length]
  have hcells : ∀ count, rest.length + count ≤ 64 →
      (copyAt hash.block rest.length (input.take count)).toList.take
        (rest.length + (input.take count).length) = rest ++ input.take count := by
    intro count hcount
    rw [toList_copyAt (by rw [List.length_take]; omega), h.block, ← List.length_append,
      List.take_left]
  unfold Sha256.update
  dsimp only
  rw [hpos, hlen]
  split_ifs with hzero hfull
  · obtain rfl := List.eq_nil_of_length_eq_zero hzero
    rw [List.append_nil]
    exact Sha256.absorbed_updateWhole h.whole h.state rfl
  · have htake : min (64 - rest.length) input.length = 64 - rest.length := by omega
    have hblock : (rest ++ input.take (64 - rest.length)).length = 64 := by
      rw [List.length_append, List.length_take]
      omega
    have hfill : (copyAt hash.block rest.length (input.take (64 - rest.length))).toList =
        rest ++ input.take (64 - rest.length) := by
      rw [← hcells _ (by omega), ← List.length_append, hblock,
        List.take_of_length_le Vector.length_toList.le]
    have hsplit : front ++ (rest ++ input.take (64 - rest.length)) ++
        input.drop (64 - rest.length) = front ++ rest ++ input := by
      rw [List.append_assoc, List.append_assoc, List.take_append_drop, List.append_assoc]
    rw [htake, hfill, ← hsplit]
    refine Sha256.absorbed_updateWhole ?_ ?_ ?_
    · rw [List.length_append, hblock]
      exact Nat.dvd_add h.whole (Nat.dvd_refl 64)
    · rw [Chain.absorb_append (by exact h.whole), Chain.absorb_block (by exact hblock), ← h.state]
      rfl
    · rw [List.length_append, hblock, List.length_drop]
      exact congrArg UInt64.ofNat (by omega)
  · have htake : min (64 - rest.length) input.length = input.length := by omega
    have hfill := hcells input.length (by omega)
    rw [List.take_length, ← List.length_append] at hfill
    rw [htake, List.take_length]
    refine ⟨front, rest ++ input, (List.append_assoc _ _ _).symm, h.whole, ?_, h.state, hfill, ?_⟩
    · rw [List.length_append]
      omega
    · rw [List.length_append, ← Nat.add_assoc]

theorem Sha256.Absorbed.updates (h : hash.Absorbed compress256 bytes) :
    ∀ pieces : List (List UInt8), (pieces.foldl (·.update compress256) hash).Absorbed
      compress256 (bytes ++ pieces.flatten) := by
  intro pieces
  induction pieces generalizing hash bytes with
  | nil =>
    rw [List.flatten_nil, List.append_nil]
    exact h
  | cons piece pieces ih =>
    rw [List.flatten_cons, ← List.append_assoc]
    exact ih (h.update piece)

/-- The bytes that complete the last block, or the last two. -/
theorem padding_eq (front rest : List UInt8) (hwhole : 64 ∣ front.length)
    (hshort : rest.length < 64) :
    (sha256 compress256).padding (front.length + rest.length) =
      (if rest.length < 56 then 0x80 :: List.replicate (55 - rest.length) 0
        else 0x80 :: List.replicate (63 - rest.length) 0 ++ List.replicate 56 0) ++
      bigEndian 8 (8 * (front.length + rest.length)) := by
  obtain ⟨blocks, hblocks⟩ := hwhole
  have hzeros : (64 - (front.length + rest.length + 1 + 8) % 64) % 64 =
      if rest.length < 56 then 55 - rest.length else 63 - rest.length + 56 := by
    split_ifs <;> omega
  unfold Chain.padding
  change 0x80 :: List.replicate ((64 - (front.length + rest.length + 1 + 8) % 64) % 64) 0 ++
    bigEndian 8 (8 * (front.length + rest.length)) = _
  rw [hzeros]
  split_ifs
  · rfl
  · rw [← List.replicate_append_replicate]
    rfl

theorem Sha256.Absorbed.finalize (h : hash.Absorbed compress256 bytes) :
    (hash.finalize compress256).state = (sha256 compress256).close iv bytes bytes.length := by
  obtain ⟨front, rest, rfl, h⟩ := h
  have hpos := h.pos
  have hshort := h.short
  have htail : bigEndian 8 (hash.len * 8).toNat =
      bigEndian 8 (8 * (front.length + rest.length)) := by
    rw [h.len, UInt64.toNat_mul, UInt64.toNat_ofNat', ← bigEndian_mod 8 (8 * _)]
    refine congrArg (bigEndian 8) ?_
    simp only [UInt64.reduceToNat]
    omega
  have hclose : (sha256 compress256).close iv (front ++ rest) (front ++ rest).length =
      (sha256 compress256).absorb hash.state
        (rest ++ (sha256 compress256).padding (front.length + rest.length)) := by
    unfold Chain.close
    rw [List.length_append, List.append_assoc, Chain.absorb_append (by exact h.whole), ← h.state]
  have hmark : (copyAt hash.block rest.length
      (0x80 :: List.replicate (63 - rest.length) 0)).toList =
        rest ++ 0x80 :: List.replicate (63 - rest.length) 0 := by
    rw [toList_copyAt (by simp; omega), h.block, List.drop_eq_nil_of_le (by simp; omega),
      List.append_nil]
  rw [hclose, padding_eq front rest h.whole hshort]
  unfold Sha256.finalize pad
  dsimp only
  rw [hpos, htail]
  split_ifs with hlong hshort
  · omega
  · have hfirst : (rest ++ 0x80 :: List.replicate (63 - rest.length) 0).length = 64 := by
      simp
      omega
    have hlast : (copyAt (.replicate 64 0 : Vector UInt8 64) 56
        (bigEndian 8 (8 * (front.length + rest.length)))).toList =
          List.replicate 56 0 ++ bigEndian 8 (8 * (front.length + rest.length)) := by
      rw [toList_copyAt (by rw [length_bigEndian]), length_bigEndian]
      exact List.append_nil _
    rw [hmark, hlast, List.append_assoc, ← List.append_assoc rest,
      Chain.absorb_append (by exact ⟨1, hfirst⟩),
      Chain.absorb_block (by rw [List.length_append, length_bigEndian]; rfl),
      Chain.absorb_block (by exact hfirst)]
    rfl
  · have hlast : (copyAt (copyAt hash.block rest.length
        (0x80 :: List.replicate (63 - rest.length) 0)) 56
          (bigEndian 8 (8 * (front.length + rest.length)))).toList =
            rest ++ (0x80 :: List.replicate (55 - rest.length) 0 ++
              bigEndian 8 (8 * (front.length + rest.length))) := by
      rw [toList_copyAt (by rw [length_bigEndian]), length_bigEndian, hmark,
        List.drop_eq_nil_of_le (by simp; omega), List.append_nil, ← List.append_assoc rest,
        show 63 - rest.length = 55 - rest.length + 8 by omega,
        ← List.replicate_append_replicate, ← List.cons_append, ← List.append_assoc rest,
        List.take_append_of_le_length (by simp; omega), List.take_of_length_le (by simp; omega)]
    rw [hlast, Chain.absorb_block (by simp [sha256]; omega)]
    rfl
  · omega

/-- A value updated in pieces, once finalized, has the hash of the bytes together. -/
theorem digest_pieces (pieces : List (List UInt8)) : stateBytes
    (((pieces.foldl (·.update compress256) (Sha256.new 0)).finalize compress256).state) =
      (sha256 compress256).hash pieces.flatten := by
  rw [(Sha256.absorbed_new.updates pieces).finalize]
  rfl

/-! ## HMAC -/

/-- The block `hmac` makes of a key. -/
theorem toList_keyBlock (key : List UInt8) :
    (if 64 < key.length then
      writeState (((Sha256.new 0).update compress256 key).finalize compress256).state
        (.replicate 64 0 : Vector UInt8 64)
    else copyAt (.replicate 64 0) 0 key).toList = (sha256 compress256).keyBlock key := by
  have hzeros : (.replicate 64 0 : Vector UInt8 64).toList = List.replicate 64 0 := rfl
  have hdigest : stateBytes (((Sha256.new 0).update compress256 key).finalize compress256).state =
      (sha256 compress256).hash key := by
    rw [(Sha256.absorbed_new.update key).finalize]
    rfl
  have hlength : ((sha256 compress256).hash key).length = 32 := length_stateBytes _
  have hblock : (sha256 compress256).keyBlock key =
      (if 64 < key.length then (sha256 compress256).hash key else key) ++ List.replicate
        (64 - (if 64 < key.length then (sha256 compress256).hash key else key).length) 0 := rfl
  rw [hblock]
  split_ifs with hlong
  · rw [toList_writeState _ _ (by decide), hdigest, hlength, hzeros, List.drop_replicate]
  · rw [toList_copyAt (by omega), hzeros, List.drop_replicate, List.take_zero, Nat.zero_add]
    rfl

/-- The two states after the block of a key are the ones of HMAC. -/
theorem hmac_eq (key : List UInt8) :
    hmac compress256 key iv iv =
      ((sha256 compress256).seed 0x36 key, (sha256 compress256).seed 0x5c key) := by
  have hpads : ((· ^^^ (0x36 ^^^ 0x5c)) ∘ (· ^^^ 0x36) : UInt8 → UInt8) = (· ^^^ 0x5c) := by
    funext byte
    change byte ^^^ 0x36 ^^^ (0x36 ^^^ 0x5c) = byte ^^^ 0x5c
    rw [UInt8.xor_assoc]
    rfl
  unfold hmac
  dsimp only
  rw [Vector.toList_map, Vector.toList_map, Vector.toList_map, List.map_map, hpads,
    toList_keyBlock]
  rfl

theorem seed_eq (pad : UInt8) (key : List UInt8) : (sha256 compress256).seed pad key =
    (sha256 compress256).absorb iv (((sha256 compress256).keyBlock key).map (· ^^^ pad)) :=
  (@Chain.absorb_keyBlock _ (sha256 compress256) key pad).symm

theorem Sha256.absorbed_keyed (key : List UInt8) (block : Vector UInt8 64) :
    (⟨(sha256 compress256).seed 0x36 key, block, 64⟩ : Sha256).Absorbed compress256
      (((sha256 compress256).keyBlock key).map (· ^^^ 0x36)) := by
  have hlength : (((sha256 compress256).keyBlock key).map (· ^^^ 0x36)).length = 64 := by
    rw [List.length_map]
    exact Chain.length_keyBlock
  refine ⟨_, [], List.append_nil _, ⟨1, hlength⟩, by decide, seed_eq _ _, rfl, ?_⟩
  rw [hlength]
  rfl

/-- The output of `Sha256::hmac` is the HMAC of the bytes behind the key. -/
theorem Sha256.Absorbed.hmac {key text : List UInt8} (output : Secret32)
    (h : hash.Absorbed compress256
      (((sha256 compress256).keyBlock key).map (· ^^^ 0x36) ++ text)) :
    (hash.hmac compress256 ((sha256 compress256).seed 0x5c key) output).2.toList =
      (sha256 compress256).hmac key text := by
  have hlength : (((sha256 compress256).keyBlock key).map (· ^^^ 0x5c)).length = 64 := by
    rw [List.length_map]
    exact Chain.length_keyBlock
  have houter : (⟨(sha256 compress256).seed 0x5c key,
      writeState (hash.finalize compress256).state (hash.finalize compress256).block, 96⟩ :
        Sha256).Absorbed compress256 (((sha256 compress256).keyBlock key).map (· ^^^ 0x5c) ++
          stateBytes (hash.finalize compress256).state) := by
    refine ⟨_, _, rfl, ⟨1, hlength⟩, ?_, seed_eq _ _, ?_, ?_⟩
    · rw [length_stateBytes]
      decide
    · rw [toList_writeState _ _ (by decide), List.take_left]
    · rw [hlength, length_stateBytes]
      rfl
  unfold Sha256.hmac
  dsimp only
  rw [toList_digest, houter.finalize, h.finalize]
  rfl

end Cartel.Pg.Scram
