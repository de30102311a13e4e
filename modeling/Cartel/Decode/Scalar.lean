import Cartel.Parser.Tape

/-!
# Numbers in replies

A reply's number is an integer or a text. `unsigned` and `signed` read decimal texts with
the offset of what they reject, `parseFloat` a floating-point text. What the standard
library does with floating-point numbers is a parameter (`Floats`), and a number is known
by its bits.
-/

namespace Cartel.Redis.Decode

open Cartel.Redis.Parser

/-- `reply::Invalid`. -/
inductive Invalid where
  | empty
  | missing (offset : ℕ)
  | byte (offset : ℕ) (actual : UInt8)
  | overflow (offset : ℕ)
  deriving DecidableEq

/-! ## Integers -/

/-- The loop of `scalar::magnitude`, at the digit with the number `index`. -/
def digits (start limit : ℕ) : ℕ → ℕ → List UInt8 → Except Invalid ℕ
  | _, value, [] => .ok value
  | index, value, byte :: rest =>
    if 48 ≤ byte ∧ byte ≤ 57 then
      let total := value * 10 + (byte - 48).toNat
      if 2 ^ 64 ≤ total then .error (.overflow (start + index))
      else if limit < total then .error (.overflow (start + index))
      else digits start limit (index + 1) total rest
    else .error (.byte (start + index) byte)

/-- `scalar::magnitude`. -/
def magnitude (bytes : List UInt8) (start limit : ℕ) : Except Invalid ℕ :=
  if bytes = [] then .error (.missing start) else digits start limit 0 0 bytes

/-- `scalar::signed`. -/
def signed : List UInt8 → Except Invalid ℤ
  | [] => .error .empty
  | head :: tail =>
    if head = 45 then (magnitude tail 1 (2 ^ 63)).map fun value => -(value : ℤ)
    else if head = 43 then (magnitude tail 1 (2 ^ 63 - 1)).map fun value => (value : ℤ)
    else (magnitude (head :: tail) 0 (2 ^ 63 - 1)).map fun value => (value : ℤ)

/-- `scalar::Error`. -/
inductive ScalarError where
  | invalid (reason : Invalid)
  | negative (value : ℤ)
  deriving DecidableEq

/-- `scalar::unsigned`. -/
def unsigned : List UInt8 → Except ScalarError ℕ
  | [] => .error (.invalid .empty)
  | head :: tail =>
    if head = 45 then
      match signed (head :: tail) with
      | .error reason => .error (.invalid reason)
      | .ok value => if value < 0 then .error (.negative value) else .ok 0
    else if head = 43 then (magnitude tail 1 (2 ^ 64 - 1)).mapError .invalid
    else (magnitude (head :: tail) 0 (2 ^ 64 - 1)).mapError .invalid

/-! ## Floating-point numbers -/

/-- The part of the standard library : the offset `str::from_utf8` stops at, `str::parse`
with its error, and the conversion of an integer. -/
structure Floats (P : Type) where
  utf8 : List UInt8 → Option ℕ
  parse : List UInt8 → Except P UInt64
  ofInt : Int64 → UInt64

/-- `reply::Float`. -/
inductive FloatError (P : Type) where
  | invalid (reason : Invalid)
  | parse (error : P) (cause : Option Invalid)

/-- The number of ASCII digits at the front. -/
def digitRun (bytes : List UInt8) : ℕ :=
  (bytes.takeWhile fun byte => 48 ≤ byte ∧ byte ≤ 57).length

/-- `u8::to_ascii_lowercase`. -/
def lowercase (byte : UInt8) : UInt8 :=
  if 65 ≤ byte ∧ byte ≤ 90 then byte + 32 else byte

/-- The spellings that stand for a number, by their first letter, with the length of the
short form. -/
def named (head : UInt8) : Option (List UInt8 × ℕ) :=
  if lowercase head = 105 then some ([105, 110, 102, 105, 110, 105, 116, 121], 3)
  else if lowercase head = 110 then some ([110, 97, 110], 3)
  else none

/-- The byte at `offset`, or the end of the text. -/
def stopAt (bytes : List UInt8) (offset : ℕ) : Invalid :=
  match bytes[offset]? with
  | some actual => .byte offset actual
  | none => .missing offset

/-- The offset after the digits at `offset`. -/
def skip (bytes : List UInt8) (offset : ℕ) : ℕ :=
  offset + digitRun (bytes.drop offset)

/-- The part of `scalar::float_cause` for a decimal number. -/
def decimalCause (bytes : List UInt8) (start : ℕ) : Option Invalid :=
  let whole := skip bytes start
  let point := bytes[whole]? = some 46
  let cursor := if point then skip bytes (whole + 1) else whole
  let count := if point then cursor - start - 1 else cursor - start
  if count = 0 then some (stopAt bytes cursor)
  else
    let marked := bytes[cursor]? = some 101 ∨ bytes[cursor]? = some 69
    let sign := bytes[cursor + 1]? = some 43 ∨ bytes[cursor + 1]? = some 45
    let exponent := if sign then cursor + 2 else cursor + 1
    if marked ∧ skip bytes exponent = exponent then some (stopAt bytes exponent)
    else
      let last := if marked then skip bytes exponent else cursor
      (bytes[last]?).map (.byte last)

/-- `scalar::float_cause`. -/
def floatCause (bytes : List UInt8) (head : UInt8) (body : List UInt8) (start : ℕ) :
    Option Invalid :=
  match named head with
  | none => decimalCause bytes start
  | some (spelling, terminal) =>
    match (body.zip spelling).findIdx? fun pair => lowercase pair.1 ≠ pair.2 with
    | some offset => some (.byte (start + offset) (body.getD offset 0))
    | none =>
      if body.length = terminal ∨ body.length = spelling.length then none
      else if body.length < spelling.length then some (.missing (start + body.length))
      else (body[spelling.length]?).map (.byte (start + spelling.length))

/-- `scalar::parse_float`. -/
def parseFloat {P : Type} (std : Floats P) (bytes : List UInt8) : Except (FloatError P) UInt64 :=
  match bytes with
  | [] => .error (.invalid .empty)
  | head :: tail =>
    let signed := head = 43 ∨ head = 45
    let body := if signed then tail else bytes
    let start := if signed then 1 else 0
    match body with
    | [] => .error (.invalid (.missing start))
    | front :: _ =>
      match std.utf8 bytes with
      | some offset => .error (.invalid (.byte offset (bytes.getD offset 0)))
      | none =>
        match std.parse bytes with
        | .ok value => .ok value
        | .error error => .error (.parse error (floatCause bytes front body start))

end Cartel.Redis.Decode
