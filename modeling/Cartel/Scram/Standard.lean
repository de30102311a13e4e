import Cartel.Scram.Exchange

/-!
# The functions of the standards

The compression function of SHA-256 and the text encoding in base 64. The theorems are about
any compression function and any lawful engine : with these an exchange can be run.
-/

namespace Cartel.Pg.Scram.Standard

open Cartel.Lib

/-! ## The compression function -/

/-- The constants of the rounds. -/
def constants : List UInt32 :=
  [0x428a2f98, 0x71374491, 0xb5c0fbcf, 0xe9b5dba5, 0x3956c25b, 0x59f111f1, 0x923f82a4, 0xab1c5ed5,
    0xd807aa98, 0x12835b01, 0x243185be, 0x550c7dc3, 0x72be5d74, 0x80deb1fe, 0x9bdc06a7, 0xc19bf174,
    0xe49b69c1, 0xefbe4786, 0x0fc19dc6, 0x240ca1cc, 0x2de92c6f, 0x4a7484aa, 0x5cb0a9dc, 0x76f988da,
    0x983e5152, 0xa831c66d, 0xb00327c8, 0xbf597fc7, 0xc6e00bf3, 0xd5a79147, 0x06ca6351, 0x14292967,
    0x27b70a85, 0x2e1b2138, 0x4d2c6dfc, 0x53380d13, 0x650a7354, 0x766a0abb, 0x81c2c92e, 0x92722c85,
    0xa2bfe8a1, 0xa81a664b, 0xc24b8b70, 0xc76c51a3, 0xd192e819, 0xd6990624, 0xf40e3585, 0x106aa070,
    0x19a4c116, 0x1e376c08, 0x2748774c, 0x34b0bcb5, 0x391c0cb3, 0x4ed8aa4a, 0x5b9cca4f, 0x682e6ff3,
    0x748f82ee, 0x78a5636f, 0x84c87814, 0x8cc70208, 0x90befffa, 0xa4506ceb, 0xbef9a3f7, 0xc67178f2]

/-- A rotation to the right. -/
def rotr (word count : UInt32) : UInt32 :=
  (word >>> count) ||| (word <<< (32 - count))

/-- The words behind the ones of a block, `count` of them. The list holds the last sixteen. -/
def expand : ℕ → List UInt32 → List UInt32
  | 0, _ => []
  | count + 1, words =>
    let low := words.getD 1 0
    let high := words.getD 14 0
    let word := words.getD 0 0 + (rotr low 7 ^^^ rotr low 18 ^^^ (low >>> 3)) +
      words.getD 9 0 + (rotr high 17 ^^^ rotr high 19 ^^^ (high >>> 10))
    word :: expand count (words.tail ++ [word])

/-- One round, with the sum of its constant and its word. -/
def round (state : Words) (word : UInt32) : Words :=
  let cell := fun i => state.toList.getD i 0
  let (a, b, c, d) := (cell 0, cell 1, cell 2, cell 3)
  let (e, f, g, h) := (cell 4, cell 5, cell 6, cell 7)
  let one := h + (rotr e 6 ^^^ rotr e 11 ^^^ rotr e 25) + ((e &&& f) ^^^ (~~~e &&& g)) + word
  let two := (rotr a 2 ^^^ rotr a 13 ^^^ rotr a 22) + ((a &&& b) ^^^ (a &&& c) ^^^ (b &&& c))
  #v[one + two, a, b, c, d + one, e, f, g]

/-- `compress256`, of one block. -/
def compress256 (state : Words) (block : List UInt8) : Words :=
  let words := (blocks 4 16 block).map fun bytes => UInt32.ofNat (ofBigEndian bytes)
  let schedule := words ++ expand 48 words
  Vector.zipWith (· + ·) state ((schedule.zipWith (· + ·) constants).foldl round state)

/-! ## Base 64 -/

/-- The symbols. -/
def alphabet : List UInt8 :=
  ascii "ABCDEFGHIJKLMNOPQRSTUVWXYZabcdefghijklmnopqrstuvwxyz0123456789+/"

/-- The symbol of six bits. -/
def symbol (bits : ℕ) : UInt8 :=
  alphabet.getD (bits % 64) 0

/-- `internal_encode`. -/
def internalEncode : List UInt8 → List UInt8
  | [] => []
  | [a] => [symbol (a.toNat / 4), symbol (a.toNat * 16)]
  | [a, b] => [symbol (a.toNat / 4), symbol (a.toNat * 16 + b.toNat / 16), symbol (b.toNat * 4)]
  | a :: b :: c :: rest =>
    [symbol (a.toNat / 4), symbol (a.toNat * 16 + b.toNat / 16),
      symbol (b.toNat * 4 + c.toNat / 64), symbol c.toNat] ++ internalEncode rest

/-- The bytes of the symbols of the last quantum, and whether no bit is left over. -/
def lastBytes : List ℕ → Option (List UInt8)
  | [a, b] => if b % 16 = 0 then some [.ofNat (a * 4 + b / 16)] else none
  | [a, b, c] =>
    if c % 4 = 0 then some [.ofNat (a * 4 + b / 16), .ofNat (b * 16 + c / 4)] else none
  | [a, b, c, d] =>
    some [.ofNat (a * 4 + b / 16), .ofNat (b * 16 + c / 4), .ofNat (c * 64 + d)]
  | _ => none

/-- The bytes of a text, quantum by quantum. -/
def decodeQuanta : List (List UInt8) → Except Base64 (List UInt8)
  | [] => .ok []
  | chunk :: chunks => do
    let symbols := if chunks = [] then (chunk.reverse.dropWhile (· = 61)).reverse else chunk
    if chunk.length < 4 ∨ symbols.length < 2 then .error .invalidPadding
    else
      match symbols.findIdx? (· ∉ alphabet) with
      | some index => .error (.invalidByte index (symbols.getD index 0))
      | none =>
        match lastBytes (symbols.map (alphabet.idxOf ·)) with
        | some bytes => return bytes ++ (← decodeQuanta chunks)
        | none => .error (.invalidLastSymbol (symbols.length - 1) (symbols.getLastD 0)
          (.ofNat (alphabet.idxOf (symbols.getLastD 0))))

/-- `STANDARD`. -/
def engine : Engine where
  internalEncode := internalEncode
  decodeSlice encoded capacity := do
    let bytes ← decodeQuanta (quanta encoded)
    if capacity < bytes.length then .error .outputSliceTooSmall else return bytes

theorem length_internalEncode (bytes : List UInt8) :
    (internalEncode bytes).length = (bytes.length * 4 + 2) / 3 := by
  induction bytes using internalEncode.induct with
  | case1 =>
    rw [internalEncode]
    rfl
  | case2 a | case3 a b =>
    rw [internalEncode]
    simp only [List.length_cons, List.length_nil]
  | case4 a b c rest ih =>
    rw [internalEncode, List.length_append, ih]
    simp only [List.length_cons, List.length_nil]
    omega

/-- 43 symbols stand for 32 bytes. -/
theorem engine_lawful : engine.Lawful := fun bytes h => by
  change (internalEncode bytes).length = 43
  rw [length_internalEncode, h]

end Cartel.Pg.Scram.Standard
