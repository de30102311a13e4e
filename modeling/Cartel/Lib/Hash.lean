import Mathlib.Data.Nat.Bitwise
import Cartel.Lib.Endian

/-!
# Hashing by blocks

A compression function is run over the complete blocks of a text (`absorb`). The hash of a
message absorbs the message and its padding, a one bit, zeros and the length in bits
(Merkle and Damgard). Over a hash stand the keyed hash HMAC and, over a keyed hash, one
block of the password derivation PBKDF2.
-/

namespace Cartel.Lib

/-! ## Combined bytes -/

/-- The bytes of `xs` and `ys`, combined. -/
def xorBytes (xs ys : List UInt8) : List UInt8 :=
  List.zipWith (· ^^^ ·) xs ys

@[simp] theorem length_xorBytes (xs ys : List UInt8) :
    (xorBytes xs ys).length = min xs.length ys.length :=
  List.length_zipWith

theorem xorBytes_append {as bs cs ds : List UInt8} (h : as.length = cs.length) :
    xorBytes (as ++ bs) (cs ++ ds) = xorBytes as cs ++ xorBytes bs ds :=
  List.zipWith_append h

theorem xorBytes_bigEndian : ∀ width m n : ℕ,
    xorBytes (bigEndian width m) (bigEndian width n) = bigEndian width (m ^^^ n)
  | 0, _, _ => rfl
  | width + 1, m, n => by
    have hhigh : (m ^^^ n) / 2 ^ 8 = m / 2 ^ 8 ^^^ n / 2 ^ 8 := Nat.xor_div_two_pow
    have hlow : UInt8.ofNat (m ^^^ n) = UInt8.ofNat m ^^^ UInt8.ofNat n := by
      apply UInt8.toNat.inj
      rw [UInt8.toNat_xor, UInt8.toNat_ofNat', UInt8.toNat_ofNat', UInt8.toNat_ofNat']
      exact Nat.xor_mod_two_pow
    rw [bigEndian, bigEndian, bigEndian, xorBytes_append (by simp), xorBytes_bigEndian width,
      hlow]
    exact congrArg (fun high => bigEndian width high ++ _) hhigh.symm

/-! ## Blocks -/

section Blocks

variable {A : Type*} (width : ℕ)

/-- The next `count` blocks of a text. -/
def blocks : ℕ → List A → List (List A)
  | 0, _ => []
  | count + 1, xs => xs.take width :: blocks count (xs.drop width)

/-- The complete blocks of a text. -/
def wholeBlocks (xs : List A) : List (List A) :=
  blocks width (xs.length / width) xs

variable {width}

theorem blocks_append : ∀ (m n : ℕ) (xs ys : List A), xs.length = m * width →
    blocks width (m + n) (xs ++ ys) = blocks width m xs ++ blocks width n ys
  | 0, n, xs, ys, h => by
    rw [Nat.zero_mul] at h
    rw [List.eq_nil_of_length_eq_zero h, Nat.zero_add]
    rfl
  | m + 1, n, xs, ys, h => by
    rw [Nat.succ_mul] at h
    have hle : width ≤ xs.length := by omega
    rw [Nat.add_right_comm, blocks, blocks, List.take_append_of_le_length hle,
      List.drop_append_of_le_length hle,
      blocks_append m n (xs.drop width) ys (by rw [List.length_drop]; omega)]
    rfl

theorem wholeBlocks_append {xs : List A} (ys : List A) (hwidth : 0 < width)
    (h : width ∣ xs.length) :
    wholeBlocks width (xs ++ ys) = wholeBlocks width xs ++ wholeBlocks width ys := by
  obtain ⟨m, hm⟩ := h
  have hdiv : (xs ++ ys).length / width = m + ys.length / width := by
    rw [List.length_append, hm, Nat.mul_add_div hwidth]
  have hxs : xs.length / width = m := by
    rw [hm, Nat.mul_div_cancel_left m hwidth]
  unfold wholeBlocks
  rw [hdiv, hxs]
  exact blocks_append m _ xs ys (by rw [hm, Nat.mul_comm])

theorem wholeBlocks_of_lt {xs : List A} (h : xs.length < width) : wholeBlocks width xs = [] := by
  unfold wholeBlocks
  rw [Nat.div_eq_of_lt h]
  rfl

theorem wholeBlocks_self {xs : List A} (hwidth : 0 < width) (h : xs.length = width) :
    wholeBlocks width xs = [xs] := by
  unfold wholeBlocks
  rw [h, Nat.div_self hwidth, blocks, ← h, List.take_length]
  rfl

end Blocks

/-! ## Chains -/

/-- A hash over blocks of `width` bytes, with the length in the last `field` bytes. -/
structure Chain (σ : Type*) where
  width : ℕ
  field : ℕ
  iv : σ
  compress : σ → List UInt8 → σ
  digest : σ → List UInt8
  width_pos : 0 < width
  digest_le : ∀ state, (digest state).length ≤ width

namespace Chain

variable {σ : Type*} (C : Chain σ)

/-- The state after the complete blocks of a text. -/
def absorb (state : σ) (bytes : List UInt8) : σ :=
  (wholeBlocks C.width bytes).foldl C.compress state

/-- What follows a message of `length` bytes. -/
def padding (length : ℕ) : List UInt8 :=
  0x80 :: List.replicate ((C.width - (length + 1 + C.field) % C.width) % C.width) 0 ++
    bigEndian C.field (8 * length)

/-- The state after a message and its padding. -/
def close (state : σ) (message : List UInt8) (length : ℕ) : σ :=
  C.absorb state (message ++ C.padding length)

/-- The hash of a message. -/
def hash (message : List UInt8) : List UInt8 :=
  C.digest (C.close C.iv message message.length)

variable {C} {state : σ} {xs ys : List UInt8}

theorem absorb_append (h : C.width ∣ xs.length) :
    C.absorb state (xs ++ ys) = C.absorb (C.absorb state xs) ys := by
  unfold absorb
  rw [wholeBlocks_append ys C.width_pos h, List.foldl_append]

theorem absorb_of_lt (h : xs.length < C.width) : C.absorb state xs = state := by
  unfold absorb
  rw [wholeBlocks_of_lt h]
  rfl

theorem absorb_block (h : xs.length = C.width) : C.absorb state xs = C.compress state xs := by
  unfold absorb
  rw [wholeBlocks_self C.width_pos h]
  rfl

/-- What is behind the last block is not absorbed. -/
theorem absorb_take : C.absorb state (xs.take (xs.length / C.width * C.width)) =
    C.absorb state xs := by
  have hle := Nat.div_mul_le_self xs.length C.width
  have hmod := Nat.mod_lt xs.length C.width_pos
  have hdiv := Nat.div_add_mod' xs.length C.width
  have hwhole : C.width ∣ (xs.take (xs.length / C.width * C.width)).length := by
    rw [List.length_take, Nat.min_eq_left hle]
    exact Nat.dvd_mul_left _ _
  have hshort : (xs.drop (xs.length / C.width * C.width)).length < C.width := by
    rw [List.length_drop]
    omega
  conv_rhs => rw [← List.take_append_drop (xs.length / C.width * C.width) xs]
  rw [absorb_append hwhole, absorb_of_lt hshort]

/-! ## Keyed hashes -/

variable (C)

/-- The key of HMAC as one block : a longer one is hashed, and zeros fill the block. -/
def keyBlock (key : List UInt8) : List UInt8 :=
  let short := if C.width < key.length then C.hash key else key
  short ++ List.replicate (C.width - short.length) 0

/-- HMAC. -/
def hmac (key text : List UInt8) : List UInt8 :=
  let block := C.keyBlock key
  C.hash (block.map (· ^^^ 0x5c) ++ C.hash (block.map (· ^^^ 0x36) ++ text))

/-- The states after the key block, of the two hashes of HMAC. -/
def seed (pad : UInt8) (key : List UInt8) : σ :=
  C.compress C.iv ((C.keyBlock key).map (· ^^^ pad))

variable {C} {key : List UInt8}

@[simp] theorem length_keyBlock : (C.keyBlock key).length = C.width := by
  have hle : (if C.width < key.length then C.hash key else key).length ≤ C.width := by
    split_ifs with h
    · exact C.digest_le _
    · exact Nat.le_of_not_lt h
  unfold keyBlock
  rw [List.length_append, List.length_replicate]
  omega

theorem absorb_keyBlock (pad : UInt8) :
    C.absorb C.iv ((C.keyBlock key).map (· ^^^ pad)) = C.seed pad key :=
  absorb_block (by rw [List.length_map, length_keyBlock])

end Chain

/-! ## Password derivation -/

section Derivation

variable (prf : List UInt8 → List UInt8 → List UInt8) (password salt : List UInt8)

/-- The values of the keyed hash that PBKDF2 combines, from the value `start`. -/
def rounds (start : List UInt8) : ℕ → List UInt8
  | 0 => start
  | j + 1 => prf password (rounds start j)

/-- The first `j + 1` of them, combined. -/
def combined (start : List UInt8) : ℕ → List UInt8
  | 0 => start
  | j + 1 => xorBytes (combined start j) (rounds prf password start (j + 1))

/-- The value PBKDF2 starts from, for the first block of its output. -/
def pbkdf2Start : List UInt8 :=
  prf password (salt ++ bigEndian 4 1)

/-- The first block of the output of PBKDF2. -/
def pbkdf2 (iterations : ℕ) : List UInt8 :=
  combined prf password (pbkdf2Start prf password salt) (iterations - 1)

end Derivation

end Cartel.Lib
