import Cartel.Lib.Utf8
import Cartel.Scram.Parser

/-!
# The fields of a diagnostic

A diagnostic is a list of fields, a tag and a text that a NUL ends, and one more NUL behind
them. `Fields::try_parse` checks all of it, and the bytes are kept. Later
`Fields::from_valid` reads them again without a check : it looks for the NUL of a field
wherever it is, takes the text as it stands, and counts on the severity, the code and the
message to be there. What it may not do has no result here : a read behind the bytes, a text
that is not UTF-8, an overflow, a number that is zero, a field that was never written.
-/

namespace Cartel.Pg.Reply

open Cartel.Lib Scram

/-! ## Errors -/

/-- `Utf8`. -/
inductive Utf8 where
  | incomplete
  | one
  | two
  | three
  | other
  deriving DecidableEq

/-- `Utf8::from_error`. -/
def Utf8.fromError : Option ℕ → Utf8
  | none => .incomplete
  | some 1 => .one
  | some 2 => .two
  | some 3 => .three
  | some _ => .other

/-- `Reason`, as far as diagnostics cause it. -/
inductive Reason where
  | diagnosticResponseTerminator (offset : ℕ)
  | diagnosticTrailing (offset actual : ℕ)
  | diagnosticTerminator (kind : UInt8) (offset actual : ℕ)
  | diagnosticUtf8 (kind : UInt8) (offset : ℕ) (error : Utf8)
  | duplicateDiagnostic (kind : UInt8)
  | diagnosticPosition (kind : UInt8) (error : Number)
  | diagnosticSeverity
  | diagnosticSqlstateByte (actual offset : ℕ) (byte : UInt8)
  | diagnosticSqlstateLength (actual : ℕ)
  | diagnosticMessage
  deriving DecidableEq

/-! ## The fields -/

/-- `Origin`. -/
structure Origin where
  schema : Option (List UInt8) := none
  table : Option (List UInt8) := none
  column : Option (List UInt8) := none
  dataType : Option (List UInt8) := none
  constraint : Option (List UInt8) := none
  file : Option (List UInt8) := none
  line : Option ℕ := none
  routine : Option (List UInt8) := none
  deriving DecidableEq

/-- `Context`. -/
structure Context where
  detail : Option (List UInt8) := none
  hint : Option (List UInt8) := none
  position : Option ℕ := none
  innerPosition : Option ℕ := none
  innerQuery : Option (List UInt8) := none
  location : Option (List UInt8) := none
  origin : Origin := {}
  deriving DecidableEq

/-- `Fields`. -/
structure Fields where
  severity : List UInt8
  code : List UInt8
  message : List UInt8
  context : Context
  deriving DecidableEq

/-- The numbers of a context. -/
inductive Slot where
  | position
  | innerPosition
  | line
  deriving DecidableEq

namespace Context

variable (context : Context) (kind : UInt8) (value : List UInt8)

/-- `Write::field` : the context, and the number that the field is written to. -/
def field : Context × Option Slot :=
  if kind = 68 then ({ context with detail := some value }, none)
  else if kind = 72 then ({ context with hint := some value }, none)
  else if kind = 80 then (context, some .position)
  else if kind = 112 then (context, some .innerPosition)
  else if kind = 113 then ({ context with innerQuery := some value }, none)
  else if kind = 87 then ({ context with location := some value }, none)
  else if kind = 115 then
    ({ context with origin := { context.origin with schema := some value } }, none)
  else if kind = 116 then
    ({ context with origin := { context.origin with table := some value } }, none)
  else if kind = 99 then
    ({ context with origin := { context.origin with column := some value } }, none)
  else if kind = 100 then
    ({ context with origin := { context.origin with dataType := some value } }, none)
  else if kind = 110 then
    ({ context with origin := { context.origin with constraint := some value } }, none)
  else if kind = 70 then
    ({ context with origin := { context.origin with file := some value } }, none)
  else if kind = 76 then (context, some .line)
  else if kind = 82 then
    ({ context with origin := { context.origin with routine := some value } }, none)
  else (context, none)

/-- A number written. -/
def setNumber (slot : Slot) (number : ℕ) : Context :=
  match slot with
  | .position => { context with position := some number }
  | .innerPosition => { context with innerPosition := some number }
  | .line => { context with origin := { context.origin with line := some number } }

/-- The loop of `Write::try_number`. -/
def tryNumberFrom (length : ℕ) : List UInt8 → ℕ → Except Reason ℕ
  | [], number => .ok number
  | byte :: tail, number =>
    if ¬(48 ≤ byte ∧ byte ≤ 57) then
      .error (.diagnosticPosition kind (.invalid (length - (byte :: tail).length) byte))
    else
      let next := number * 10 + (byte - 48).toNat
      if 2 ^ 32 ≤ next then
        .error (.diagnosticPosition kind (.overflow (length - (byte :: tail).length) byte))
      else tryNumberFrom length tail next

/-- `Write::try_number`. -/
def tryNumber : Except Reason ℕ :=
  if value = [] then .error (.diagnosticPosition kind .empty)
  else do
    let number ← tryNumberFrom kind value.length value 0
    if number = 0 then .error (.diagnosticPosition kind .zero) else .ok number

/-- `Write::try_set`. -/
def trySet : Except Reason Context :=
  match context.field kind value with
  | (context, none) => .ok context
  | (context, some slot) => do
    let number ← tryNumber kind value
    return context.setNumber slot number

end Context

/-- The loop of `Code::try_new`. -/
def tryCodeFrom (actual : ℕ) : List UInt8 → Except Reason Unit
  | [] => .ok ()
  | byte :: tail =>
    if ¬((65 ≤ byte ∧ byte ≤ 90) ∨ (48 ≤ byte ∧ byte ≤ 57)) then
      .error (.diagnosticSqlstateByte actual (actual - (byte :: tail).length) byte)
    else tryCodeFrom actual tail

/-- `Code::try_new`. -/
def tryCode (value : List UInt8) : Except Reason (List UInt8) := do
  tryCodeFrom value.length value
  if value.length ≠ 5 then .error (.diagnosticSqlstateLength value.length) else .ok value

/-! ## The checked parser -/

/-- `Parts`. -/
structure Parts where
  severity : Option (List UInt8) := none
  severityNonlocalized : Option (List UInt8) := none
  code : Option (List UInt8) := none
  message : Option (List UInt8) := none
  context : Context := {}

/-- `Parts::try_set`. -/
def Parts.trySet (parts : Parts) (kind : UInt8) (value : List UInt8) : Except Reason Parts :=
  if kind = 83 then .ok { parts with severity := some value }
  else if kind = 86 then .ok { parts with severityNonlocalized := some value }
  else if kind = 67 then .ok { parts with code := some value }
  else if kind = 77 then .ok { parts with message := some value }
  else do
    let context ← parts.context.trySet kind value
    return { parts with context := context }

/-- `Parts::try_finish`. -/
def Parts.tryFinish (parts : Parts) : Except Reason Fields :=
  match (parts.severityNonlocalized.or parts.severity).filter (· ≠ []) with
  | none => .error .diagnosticSeverity
  | some severity =>
    match parts.code with
    | none => .error (.diagnosticSqlstateLength 0)
    | some code => do
      let code ← tryCode code
      match parts.message with
      | none => .error .diagnosticMessage
      | some message => return ⟨severity, code, message, parts.context⟩

/-- The tags that may not be repeated, in the order of their bits. -/
def recognized : List UInt8 :=
  ascii "SVCMDHPpqWstcdnFLR"

/-- `recognized_bit`. -/
def recognizedBit (kind : UInt8) : Option ℕ :=
  recognized.findIdx? (· = kind)

/-- `Wire::split_byte`. -/
def splitByte (byte : UInt8) (bytes : List UInt8) : Option (List UInt8 × List UInt8) :=
  (bytes.findIdx? (· = byte)).map fun position =>
    (bytes.take position, bytes.drop (position + 1))

/-- The tags seen, if a tag may be there. -/
def tryKind (seen : ℕ) (kind : UInt8) : Except Reason ℕ :=
  match recognizedBit kind with
  | some bit =>
    if seen &&& (1 <<< bit) ≠ 0 then .error (.duplicateDiagnostic kind)
    else .ok (seen ||| (1 <<< bit))
  | none => .ok seen

theorem splitByte_eq_some {byte : UInt8} {bytes value rest : List UInt8}
    (h : splitByte byte bytes = some (value, rest)) :
    bytes = value ++ byte :: rest ∧ byte ∉ value := by
  unfold splitByte at h
  obtain ⟨position, hposition, heq⟩ := Option.map_eq_some_iff.mp h
  cases heq
  obtain ⟨hlt, hbyte, hbefore⟩ := List.findIdx?_eq_some_iff_getElem.mp hposition
  have hbyte : bytes[position] = byte := of_decide_eq_true hbyte
  refine ⟨?_, fun hmem => ?_⟩
  · rw [← hbyte, List.getElem_cons_drop, List.take_append_drop]
  · obtain ⟨i, hi, heq⟩ := List.mem_iff_getElem.mp hmem
    rw [List.length_take] at hi
    have hne := hbefore i (by omega)
    rw [List.getElem_take] at heq
    exact hne (decide_eq_true heq)

/-- The loop of `Fields::try_parse`. -/
def tryParseFrom (length : ℕ) (cursor : List UInt8) (seen : ℕ) (parts : Parts) :
    Except Reason Parts :=
  match cursor with
  | [] => .error (.diagnosticResponseTerminator length)
  | kind :: tail =>
    if kind = 0 then
      if tail ≠ [] then .error (.diagnosticTrailing (length - tail.length) tail.length)
      else .ok parts
    else
      match h : splitByte 0 tail with
      | none => .error (.diagnosticTerminator kind (length - tail.length) tail.length)
      | some (value, rest) =>
        match utf8Error value with
        | some (valid, error) =>
          .error (.diagnosticUtf8 kind (length - (tail.length - valid)) (.fromError error))
        | none => do
          let seen ← tryKind seen kind
          let parts ← parts.trySet kind value
          have : rest.length < tail.length + 1 := by
            rw [(splitByte_eq_some h).1, List.length_append, List.length_cons]
            omega
          tryParseFrom length rest seen parts
termination_by cursor.length

/-- `Fields::try_parse`. -/
def tryParse (payload : List UInt8) : Except Reason Fields := do
  let parts ← tryParseFrom payload.length payload 0 {}
  parts.tryFinish

/-! ## The unchecked parser -/

/-- `number` : the digits of a number replayed. -/
def replayFrom : List UInt8 → ℕ → Option ℕ
  | [], number => some number
  | byte :: tail, number =>
    if byte < 48 then none
    else
      let next := number * 10 + (byte - 48).toNat
      if 2 ^ 32 ≤ next then none else replayFrom tail next

/-- `number`. -/
def replay (value : List UInt8) : Option ℕ :=
  (replayFrom value 0).filter (· ≠ 0)

/-- `Build`. -/
structure Build where
  severity : Option (List UInt8) := none
  severityNonlocalized : Option (List UInt8) := none
  code : Option (List UInt8) := none
  message : Option (List UInt8) := none
  context : Context := {}

/-- `Build::set`. -/
def Build.set (build : Build) (kind : UInt8) (value : List UInt8) : Option Build :=
  if kind = 83 then some { build with severity := some value }
  else if kind = 86 then some { build with severityNonlocalized := some value }
  else if kind = 67 then some { build with code := some value }
  else if kind = 77 then some { build with message := some value }
  else
    match build.context.field kind value with
    | (context, none) => some { build with context := context }
    | (context, some slot) =>
      (replay value).map fun number => { build with context := context.setNumber slot number }

/-- `Build::finish`. -/
def Build.finish (build : Build) : Option Fields := do
  let severity ← match build.severityNonlocalized with
    | some severity => some severity
    | none => build.severity
  let code ← build.code
  let message ← build.message
  return ⟨severity, code, message, build.context⟩

/-- The loop of `Fields::from_valid` over the bytes of a field, up to its NUL. -/
def scan : List UInt8 → Option ℕ
  | [] => none
  | byte :: tail => if byte ≠ 0 then (scan tail).map (· + 1) else some 0

/-- The loop of `Fields::from_valid`, with as many fields as there are bytes at most. -/
def fromValidFrom : ℕ → List UInt8 → Build → Option Build
  | fuel + 1, kind :: tail, build =>
    if kind = 0 then some build
    else do
      let stop ← scan tail
      let value := tail.take stop
      if (utf8Error value).isSome then none
      else
        let build ← build.set kind value
        fromValidFrom fuel (tail.drop (stop + 1)) build
  | _, _, _ => none

/-- `Fields::from_valid`. -/
def fromValid (payload : List UInt8) : Option Fields := do
  let build ← fromValidFrom payload.length payload {}
  build.finish

end Cartel.Pg.Reply
