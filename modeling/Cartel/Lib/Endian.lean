import Mathlib.Data.List.Induction
import Mathlib.Data.PNat.Basic

/-!
# Numbers as bytes

A number as a given count of bytes, most significant first, and the number that bytes stand
for. A word of `8 * n` bits and `n` bytes determine each other (`fromBytes_toBytes`,
`toBytes_fromBytes`).
-/

namespace Cartel.Lib

/-- The `width` low bytes of `n`, most significant first. -/
def bigEndian : ℕ → ℕ → List UInt8
  | 0, _ => []
  | width + 1, n => bigEndian width (n / 256) ++ [.ofNat n]

/-- The number that bytes stand for, most significant first. -/
def ofBigEndian (bytes : List UInt8) : ℕ :=
  bytes.foldl (fun n byte => n * 256 + byte.toNat) 0

@[simp] theorem length_bigEndian : ∀ width n : ℕ, (bigEndian width n).length = width
  | 0, _ => rfl
  | width + 1, n => by
    rw [bigEndian, List.length_append, length_bigEndian width]
    rfl

theorem ofBigEndian_snoc (bytes : List UInt8) (byte : UInt8) :
    ofBigEndian (bytes ++ [byte]) = ofBigEndian bytes * 256 + byte.toNat := by
  unfold ofBigEndian
  rw [List.foldl_append]
  rfl

theorem bigEndian_ofBigEndian (bytes : List UInt8) :
    bigEndian bytes.length (ofBigEndian bytes) = bytes := by
  induction bytes using List.reverseRecOn with
  | nil => rfl
  | append_singleton bytes byte ih =>
    have hlt := UInt8.toNat_lt byte
    have hlast : UInt8.ofNat (ofBigEndian bytes * 256 + byte.toNat) = byte := by
      apply UInt8.toNat.inj
      rw [UInt8.toNat_ofNat']
      omega
    rw [List.length_append, List.length_singleton, ofBigEndian_snoc, bigEndian, hlast,
      show (ofBigEndian bytes * 256 + byte.toNat) / 256 = ofBigEndian bytes by omega, ih]

/-- Only the low bytes count. -/
theorem bigEndian_mod : ∀ width n : ℕ, bigEndian width (n % 256 ^ width) = bigEndian width n
  | 0, _ => rfl
  | width + 1, n => by
    have hhigh : n % 256 ^ (width + 1) / 256 = n / 256 % 256 ^ width := by
      rw [pow_succ', Nat.mod_mul_right_div_self]
    have hlow : UInt8.ofNat (n % 256 ^ (width + 1)) = UInt8.ofNat n := by
      apply UInt8.toNat.inj
      rw [UInt8.toNat_ofNat', UInt8.toNat_ofNat', pow_succ']
      exact Nat.mod_mul_right_mod n 256 (256 ^ width)
    rw [bigEndian, bigEndian, hhigh, hlow, bigEndian_mod width]

theorem ofBigEndian_bigEndian : ∀ width n : ℕ, ofBigEndian (bigEndian width n) = n % 256 ^ width
  | 0, n => (Nat.mod_one n).symm
  | width + 1, n => by
    have hpow : 256 ^ (width + 1) = 256 * 256 ^ width := pow_succ' 256 width
    rw [bigEndian, ofBigEndian_snoc, ofBigEndian_bigEndian width, UInt8.toNat_ofNat', hpow,
      Nat.mod_mul]
    omega

/-! ## Words -/

/-- `to_be_bytes`. -/
def toBytes {w : ℕ} (word : BitVec w) : List UInt8 :=
  bigEndian (w / 8) word.toNat

/-- `from_be_bytes`. -/
def fromBytes (w : ℕ) (bytes : List UInt8) : BitVec w :=
  .ofNat w (ofBigEndian bytes)

variable {w : ℕ}

@[simp] theorem length_toBytes (word : BitVec w) : (toBytes word).length = w / 8 :=
  length_bigEndian _ _

theorem fromBytes_toBytes (h : 8 ∣ w) (word : BitVec w) : fromBytes w (toBytes word) = word := by
  obtain ⟨n, rfl⟩ := h
  have hpow : 256 ^ n = 2 ^ (8 * n) := (pow_mul 2 8 n).symm
  apply BitVec.eq_of_toNat_eq
  unfold fromBytes toBytes
  rw [BitVec.toNat_ofNat, ofBigEndian_bigEndian, Nat.mul_div_cancel_left n (by decide), hpow,
    Nat.mod_mod, Nat.mod_eq_of_lt word.isLt]

theorem toBytes_fromBytes {bytes : List UInt8} (h : 8 * bytes.length = w) :
    toBytes (fromBytes w bytes) = bytes := by
  subst h
  have hpow : 2 ^ (8 * bytes.length) = 256 ^ bytes.length := pow_mul 2 8 bytes.length
  unfold fromBytes toBytes
  rw [BitVec.toNat_ofNat, Nat.mul_div_cancel_left _ (by decide), hpow, bigEndian_mod,
    bigEndian_ofBigEndian]

end Cartel.Lib
