import Cartel.Scram.Parser
import Cartel.Scram.Sha256

/-!
# Deriving the keys

`Kdf` goes through the iterations of PBKDF2 in slices. It keeps the states after the two
key blocks, the last value and the values combined so far, and a slice works on one block :
behind the 32 bytes of a value it always holds the padding of a text of 96 bytes, which is
the one of both hashes. `Keys::write` derives the keys of the exchange from the salted
password.
-/

namespace Cartel.Pg.Scram

open Cartel.Lib

/-! ## The values of an exchange -/

section Values

variable {σ : Type*} (C : Chain σ) (salted : List UInt8)

/-- ClientKey. -/
def clientKey : List UInt8 :=
  C.hmac salted (ascii "Client Key")

/-- StoredKey. -/
def storedKey : List UInt8 :=
  C.hash (clientKey C salted)

/-- ServerKey. -/
def serverKey : List UInt8 :=
  C.hmac salted (ascii "Server Key")

/-- AuthMessage, of a client nonce, a server-first message and its nonce. -/
def authMessage (client first nonce : List UInt8) : List UInt8 :=
  ascii "n=,r=" ++ client ++ ascii "," ++ first ++ ascii ",c=biws,r=" ++ nonce

/-- ClientProof. -/
def clientProof (auth : List UInt8) : List UInt8 :=
  xorBytes (clientKey C salted) (C.hmac (storedKey C salted) auth)

/-- ServerSignature. -/
def serverSignature (auth : List UInt8) : List UInt8 :=
  C.hmac (serverKey C salted) auth

end Values

/-! ## The model -/

/-- `bounded::NonZeroU32<MIN_ITERATIONS, MAX_ITERATIONS>`. -/
structure Iterations where
  get : ℕ
  lower : 4096 ≤ get
  upper : get ≤ 100000
  deriving DecidableEq

/-- `KdfKey`. -/
structure KdfKey where
  first : Secret32
  iterations : Iterations
  deriving DecidableEq

/-- `Kdf`, with the two states of `prf` apart. -/
structure Kdf where
  inner : Words
  outer : Words
  previous : Secret32
  output : Secret32
  remaining : ℕ

/-- `Keys`. -/
structure Keys where
  client : Secret32
  stored : Secret32
  server : Secret32
  deriving DecidableEq

/-- The loop over the words of the output. -/
def xorState (output : Secret32) (state : Words) : Secret32 :=
  copyAt output 0 (((blocks 4 8 output.toList).zip state.toList).flatMap fun item =>
    bigEndian 4 (UInt32.ofNat (ofBigEndian item.1) ^^^ item.2).toNat)

variable (compress256 : Words → List UInt8 → Words)

/-- What `select` puts into an entry. -/
def Kdf.new (password : List UInt8) (key : KdfKey) : Kdf :=
  let (inner, outer) := hmac compress256 password iv iv
  ⟨inner, outer, key.first, key.first, key.iterations.get - 1⟩

/-- One round of `Kdf::advance`, on the block and the output. -/
def Kdf.round (kdf : Kdf) (work : Vector UInt8 64 × Secret32) : Vector UInt8 64 × Secret32 :=
  let block := writeState (compress256 kdf.inner work.1.toList) work.1
  let state := compress256 kdf.outer block.toList
  (writeState state block, xorState work.2 state)

/-- The loop of `Kdf::advance`. -/
def Kdf.run (kdf : Kdf) : ℕ → Vector UInt8 64 × Secret32 → Vector UInt8 64 × Secret32
  | 0, work => work
  | rounds + 1, work => kdf.run rounds (kdf.round compress256 work)

/-- `Kdf::advance`. -/
def Kdf.advance (kdf : Kdf) : Kdf × Option Secret32 :=
  let rounds := min kdf.remaining 256
  let zeros : Vector UInt8 64 := .replicate 64 0
  let block := (pad compress256 (.replicate 8 0) (copyAt zeros 0 kdf.previous.toList) 96).2
  let work := kdf.run compress256 rounds (block, kdf.output)
  let remaining := kdf.remaining - rounds
  (⟨kdf.inner, kdf.outer, copyAt kdf.previous 0 (work.1.toList.take 32), work.2, remaining⟩,
    if remaining = 0 then some work.2 else none)

/-- `Keys::write`, on keys of zeros. -/
def Keys.write (inner outer : Words) : Keys :=
  let zeros : Secret32 := .replicate 32 0
  let hash : Sha256 := ⟨inner, (Sha256.new 64).block, 64⟩
  let (hash, client) := (hash.update compress256 (ascii "Client Key")).hmac compress256 outer zeros
  let hash : Sha256 := ⟨inner, hash.block, 64⟩
  let (hash, server) := (hash.update compress256 (ascii "Server Key")).hmac compress256 outer zeros
  let hash : Sha256 := ⟨iv, hash.block, 0⟩
  let hash := (hash.update compress256 client.toList).finalize compress256
  ⟨client, writeState hash.state zeros, server⟩

variable {compress256}

/-! ## The keys -/

/-- The keys are the ones of a salted password. -/
structure Keys.Of (compress256 : Words → List UInt8 → Words) (keys : Keys)
    (salted : List UInt8) : Prop where
  client : keys.client.toList = clientKey (sha256 compress256) salted
  stored : keys.stored.toList = storedKey (sha256 compress256) salted
  server : keys.server.toList = serverKey (sha256 compress256) salted

theorem keys_write (salted : List UInt8) :
    (Keys.write compress256 ((sha256 compress256).seed 0x36 salted)
      ((sha256 compress256).seed 0x5c salted)).Of compress256 salted := by
  have hkeyed := fun (text : List UInt8) (block : Vector UInt8 64) =>
    ((@Sha256.absorbed_keyed compress256 salted block).update text).hmac
      (.replicate 32 0)
  have hclient := hkeyed (ascii "Client Key") (Sha256.new 64).block
  refine ⟨hclient, ?_, hkeyed (ascii "Server Key") _⟩
  unfold Keys.write
  dsimp only
  rw [toList_digest, ((Sha256.absorbed_start _).update _).finalize, hclient]
  rfl

/-! ## The rounds -/

/-- The padding of a text of 96 bytes. -/
def tail96 : List UInt8 :=
  0x80 :: List.replicate 23 0 ++ bigEndian 8 768

theorem padding_digest : (sha256 compress256).padding 96 = tail96 := by
  have h := @padding_eq compress256 (List.replicate 64 0) (List.replicate 32 0)
    (by decide) (by decide)
  rw [List.length_replicate, List.length_replicate, if_pos (by decide)] at h
  exact h

/-- The block of a slice ends in that padding. -/
theorem toList_pad_digest (state : Words) (block : Vector UInt8 64) :
    (pad compress256 state block 96).2.toList = block.toList.take 32 ++ tail96 := by
  have hmark : (copyAt block 32 (0x80 :: List.replicate 31 0)).toList =
      block.toList.take 32 ++ 0x80 :: List.replicate 31 0 := by
    rw [toList_copyAt (by simp), List.drop_eq_nil_of_le (by simp), List.append_nil]
  change (copyAt (copyAt block 32 (0x80 :: List.replicate 31 0)) 56 (bigEndian 8 768)).toList = _
  rw [toList_copyAt (by rw [length_bigEndian]), hmark, length_bigEndian,
    List.drop_eq_nil_of_le (by simp), List.append_nil,
    List.take_append, List.take_of_length_le (by simp)]
  simp only [List.length_take, Vector.length_toList]
  exact List.append_assoc _ _ _

/-- The hash of a text of 32 bytes behind a key block. -/
theorem hash_digest (key : UInt8) (password value : List UInt8) (h : value.length = 32) :
    (sha256 compress256).hash
        (((sha256 compress256).keyBlock password).map (· ^^^ key) ++ value) =
      stateBytes (compress256 ((sha256 compress256).seed key password) (value ++ tail96)) := by
  have hblock : (((sha256 compress256).keyBlock password).map (· ^^^ key)).length = 64 := by
    rw [List.length_map]
    exact Chain.length_keyBlock
  have hlength : (((sha256 compress256).keyBlock password).map (· ^^^ key) ++ value).length =
      96 := by
    rw [List.length_append, hblock, h]
  unfold Chain.hash Chain.close
  rw [hlength, padding_digest, List.append_assoc, Chain.absorb_append (by exact ⟨1, hblock⟩),
    Chain.absorb_block (by rw [List.length_append, h]; rfl)]
  exact congrArg (fun state => stateBytes (compress256 state _)) (seed_eq key password).symm

/-- The HMAC of a text of 32 bytes. -/
theorem hmac_digest (password value : List UInt8) (h : value.length = 32) :
    (sha256 compress256).hmac password value =
      stateBytes (compress256 ((sha256 compress256).seed 0x5c password)
        (stateBytes (compress256 ((sha256 compress256).seed 0x36 password) (value ++ tail96)) ++
          tail96)) := by
  unfold Chain.hmac
  dsimp only
  rw [hash_digest 0x36 password value h, hash_digest 0x5c _ _ (length_stateBytes _)]

theorem xor_word {bytes : List UInt8} (word : UInt32) (h : bytes.length = 4) :
    bigEndian 4 (UInt32.ofNat (ofBigEndian bytes) ^^^ word).toNat =
      xorBytes bytes (bigEndian 4 word.toNat) := by
  rw [UInt32.toNat_xor, UInt32.toNat_ofNat', ← xorBytes_bigEndian]
  congr 1
  exact (bigEndian_mod 4 _).trans (h ▸ bigEndian_ofBigEndian bytes)

theorem xor_words : ∀ (words : List UInt32) (bytes : List UInt8),
    bytes.length = words.length * 4 →
      ((blocks 4 words.length bytes).zip words).flatMap (fun item =>
        bigEndian 4 (UInt32.ofNat (ofBigEndian item.1) ^^^ item.2).toNat) =
      xorBytes bytes (words.flatMap fun word => bigEndian 4 word.toNat)
  | [], bytes, h => by
    rw [List.eq_nil_of_length_eq_zero h]
    rfl
  | word :: words, bytes, h => by
    rw [List.length_cons, Nat.succ_mul] at h
    have hhead : (bytes.take 4).length = 4 := by
      rw [List.length_take]
      omega
    have htail := xor_words words (bytes.drop 4) (by rw [List.length_drop]; omega)
    rw [List.length_cons, blocks, List.zip_cons_cons, List.flatMap_cons, List.flatMap_cons, htail,
      xor_word word hhead]
    conv_rhs => rw [← List.take_append_drop 4 bytes]
    rw [xorBytes_append (by rw [hhead, length_bigEndian])]

theorem toList_xorState (output : Secret32) (state : Words) :
    (xorState output state).toList = xorBytes output.toList (stateBytes state) := by
  have hwords := xor_words state.toList output.toList (by
    rw [Vector.length_toList, Vector.length_toList])
  rw [Vector.length_toList] at hwords
  unfold xorState
  rw [hwords, toList_copyAt]
  · rw [List.drop_eq_nil_of_le, List.append_nil]
    · rfl
    · rw [Vector.length_toList, length_xorBytes, Vector.length_toList]
      exact (Nat.zero_add _).symm ▸ (le_min le_rfl (length_stateBytes state).ge)
  · rw [Nat.zero_add, length_xorBytes, Vector.length_toList]
    exact min_le_left _ _

/-- The slices have gone through `j` rounds of the password's PBKDF2 from `start`. -/
structure Kdf.Holds (compress256 : Words → List UInt8 → Words) (kdf : Kdf)
    (password start : List UInt8) (j : ℕ) : Prop where
  inner : kdf.inner = (sha256 compress256).seed 0x36 password
  outer : kdf.outer = (sha256 compress256).seed 0x5c password
  previous : kdf.previous.toList = rounds (sha256 compress256).hmac password start j
  output : kdf.output.toList = combined (sha256 compress256).hmac password start j

variable {kdf : Kdf} {password start : List UInt8} {j : ℕ}

theorem Kdf.holds_new (password : List UInt8) (key : KdfKey) :
    (Kdf.new compress256 password key).Holds compress256 password key.first.toList 0 := by
  unfold Kdf.new
  rw [hmac_eq]
  exact ⟨rfl, rfl, rfl, rfl⟩

/-- What the loop works on after `j` rounds. -/
structure Working (compress256 : Words → List UInt8 → Words) (password start : List UInt8)
    (j : ℕ) (work : Vector UInt8 64 × Secret32) : Prop where
  block : work.1.toList = rounds (sha256 compress256).hmac password start j ++ tail96
  output : work.2.toList = combined (sha256 compress256).hmac password start j

theorem length_rounds (hstart : start.length = 32) :
    ∀ j, (rounds (sha256 compress256).hmac password start j).length = 32
  | 0 => hstart
  | _ + 1 => length_stateBytes _

variable {work : Vector UInt8 64 × Secret32}

/-- A round replaces the value in the block, and combines it with the others. -/
theorem Working.round (hkdf : kdf.inner = (sha256 compress256).seed 0x36 password ∧
    kdf.outer = (sha256 compress256).seed 0x5c password) (hstart : start.length = 32)
    (h : Working compress256 password start j work) :
    Working compress256 password start (j + 1) (kdf.round compress256 work) := by
  have hlength := @length_rounds compress256 password start hstart j
  have hvalue := @hmac_digest compress256 password _ hlength
  have hinner : (writeState (compress256 kdf.inner work.1.toList) work.1).toList =
      stateBytes (compress256 kdf.inner work.1.toList) ++ tail96 := by
    rw [toList_writeState _ _ (by decide), h.block, ← hlength, List.drop_left]
  rw [h.block, hkdf.1] at hinner
  unfold Kdf.round
  dsimp only
  rw [h.block, hkdf.1, hkdf.2, hinner]
  refine ⟨?_, ?_⟩
  · dsimp only
    rw [toList_writeState _ _ (by decide), hinner, ← hvalue, List.drop_left' (length_stateBytes _)]
    rfl
  · dsimp only
    rw [toList_xorState, h.output, ← hvalue]
    rfl

theorem Working.run (hkdf : kdf.inner = (sha256 compress256).seed 0x36 password ∧
    kdf.outer = (sha256 compress256).seed 0x5c password) (hstart : start.length = 32) :
    ∀ {count j : ℕ} {work : Vector UInt8 64 × Secret32},
      Working compress256 password start j work →
        Working compress256 password start (j + count) (kdf.run compress256 count work)
  | 0, _, _, h => h
  | count + 1, j, _, h => by
    rw [show j + (count + 1) = j + 1 + count by omega]
    exact Working.run hkdf hstart (h.round hkdf hstart)

/-- A slice goes through up to 256 rounds. -/
theorem Kdf.Holds.advance (h : kdf.Holds compress256 password start j)
    (hstart : start.length = 32) :
    (kdf.advance compress256).1.Holds compress256 password start (j + min kdf.remaining 256) ∧
      (kdf.advance compress256).1.remaining = kdf.remaining - 256 ∧
      ((kdf.advance compress256).2 =
        if kdf.remaining ≤ 256 then some (kdf.advance compress256).1.output else none) := by
  have hlength := @length_rounds compress256 password start hstart
  have hblock : (pad compress256 (.replicate 8 0) (copyAt (.replicate 64 0) 0
      kdf.previous.toList) 96).2.toList =
        rounds (sha256 compress256).hmac password start j ++ tail96 := by
    rw [toList_pad_digest, toList_copyAt (by simp), ← h.previous, List.take_zero, List.nil_append,
      List.take_left' Vector.length_toList]
  have hwork : Working compress256 password start (j + min kdf.remaining 256)
      (kdf.run compress256 (min kdf.remaining 256) ((pad compress256 (.replicate 8 0)
        (copyAt (.replicate 64 0) 0 kdf.previous.toList) 96).2, kdf.output)) :=
    Working.run ⟨h.inner, h.outer⟩ hstart ⟨hblock, h.output⟩
  unfold Kdf.advance
  dsimp only
  generalize kdf.run compress256 _ _ = work at hwork ⊢
  refine ⟨⟨h.inner, h.outer, ?_, hwork.output⟩, by omega, ?_⟩
  · rw [toList_copyAt (by simp), hwork.block, List.take_left' (hlength _), List.take_zero,
      List.nil_append, hlength, List.drop_eq_nil_of_le (by simp), List.append_nil]
  · rcases Nat.lt_or_ge 256 kdf.remaining with hgt | hle
    · rw [if_neg (by omega), if_neg (by omega)]
    · rw [if_pos (by omega), if_pos hle]

/-- What the slice behind `k` others returns. -/
def Kdf.polled (compress256 : Words → List UInt8 → Words) : Kdf → ℕ → Option Secret32
  | kdf, 0 => (kdf.advance compress256).2
  | kdf, k + 1 => Kdf.polled compress256 (kdf.advance compress256).1 k

/-- The slice that goes through the last round returns all rounds combined. -/
theorem Kdf.Holds.polled (hstart : start.length = 32) :
    ∀ {k j : ℕ} {kdf : Kdf}, kdf.Holds compress256 password start j →
      (kdf.polled compress256 k).map Vector.toList = if kdf.remaining ≤ 256 * (k + 1) then
        some (combined (sha256 compress256).hmac password start (j + kdf.remaining)) else none
  | 0, j, kdf, h => by
    obtain ⟨hholds, -, hresult⟩ := h.advance hstart
    rw [Kdf.polled, hresult]
    split_ifs with hle
    · rw [Nat.min_eq_left hle] at hholds
      exact congrArg some hholds.output
    · rfl
  | k + 1, j, kdf, h => by
    obtain ⟨hholds, hremaining, -⟩ := h.advance hstart
    rw [Kdf.polled, hholds.polled hstart, hremaining]
    have hiff : kdf.remaining - 256 ≤ 256 * (k + 1) ↔ kdf.remaining ≤ 256 * (k + 1 + 1) := by
      omega
    have hsum : j + min kdf.remaining 256 + (kdf.remaining - 256) = j + kdf.remaining := by
      omega
    rw [hsum]
    exact if_congr hiff rfl rfl

end Cartel.Pg.Scram
