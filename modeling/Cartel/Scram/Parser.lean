import Mathlib.Data.PNat.Basic

/-!
# The messages of a SCRAM server

A message is a list of attributes, a letter, `=` and a value each, separated by commas.
`server_first` wants the nonce, the salt and the iteration count in this order, and
`server_final` a verifier or an error. Behind them stand extensions, and none of them may
be mandatory, one of the standard, or twice there.

Lengths and offsets are numbers : they are bounded by the length of the message, which the
frame bounds by 32 bits.
-/

namespace Cartel.Pg.Scram

/-! ## Errors -/

/-- `Number`. -/
inductive Number where
  | empty
  | zero
  | leadingZero (offset : ℕ)
  | invalid (offset : ℕ) (byte : UInt8)
  | overflow (offset : ℕ) (byte : UInt8)
  deriving DecidableEq

/-- `Reason`, as far as SCRAM causes it. -/
inductive Reason where
  | attributeEquals (offset : ℕ) (actual : UInt8)
  | attributeName (offset : ℕ) (actual : UInt8)
  | attributeOrder (actual expected : UInt8)
  | attributeTruncated (offset actual : ℕ)
  | authBeforeFinal
  | authTruncated (actual : ℕ)
  | authTrailing (actual : ℕ)
  | duplicateAttribute (name : UInt8) (offset : ℕ)
  | duplicateServerFirst
  | emptyAttribute (name : UInt8) (offset : ℕ)
  | extension (offset : ℕ)
  | extensionValue (name : UInt8) (offset : ℕ) (byte : UInt8)
  | finalAttribute (actual : UInt8)
  | finalState
  | finalValue (offset : ℕ) (byte : UInt8)
  | iteration (error : Number)
  | missingAttribute (expected : UInt8)
  | missingResult
  | nonceByte (offset : ℕ) (actual expected : UInt8)
  | nonceChar (offset : ℕ) (byte : UInt8)
  | nonceLength (actual minimum : ℕ)
  | saltPadding (offset : ℕ)
  | saslState
  | signatureLength (actual expected : ℕ)
  | signatureMismatch
  | standardExtension (name : UInt8) (offset : ℕ)
  | trailingComma (offset : ℕ)
  deriving DecidableEq

/-- `scram::Error`. -/
inductive ServerError where
  | invalidEncoding
  | extensionsNotSupported
  | invalidProof
  | channelBindingsDontMatch
  | serverDoesSupportChannelBinding
  | channelBindingNotSupported
  | unsupportedChannelBindingType
  | unknownUser
  | invalidUsernameEncoding
  | noResources
  | other
  deriving DecidableEq

/-! ## Attributes -/

/-- `Attribute`. -/
structure Attribute where
  name : UInt8
  value : List UInt8
  start : ℕ
  deriving DecidableEq

/-- `Attribute::offset`. -/
def Attribute.offset (attr : Attribute) : ℕ :=
  attr.start - 2

/-- `Attributes`. -/
structure Attributes where
  tail : Option (List UInt8)
  length : ℕ
  deriving DecidableEq

/-- `Attributes::new`. -/
def Attributes.new (bytes : List UInt8) : Attributes :=
  ⟨some bytes, bytes.length⟩

/-- `u8::is_ascii_alphabetic`. -/
def isAsciiAlphabetic (byte : UInt8) : Bool :=
  (65 ≤ byte && byte ≤ 90) || (97 ≤ byte && byte ≤ 122)

/-- `Wire::split_byte`, at a comma. -/
def splitComma : List UInt8 → Option (List UInt8 × List UInt8)
  | [] => none
  | byte :: bytes =>
    if byte = 44 then some ([], bytes)
    else (splitComma bytes).map fun parts => (byte :: parts.1, parts.2)

/-- `Attributes::next`, for the bytes that are left. -/
def Attributes.nextIn (length : ℕ) (bytes : List UInt8) :
    Except Reason (Option (Attribute × Attributes)) :=
  let start := length - bytes.length
  match bytes with
  | [] => .ok none
  | name :: equals :: byte :: rest =>
    let body := byte :: rest
    let begin := length - body.length
    if !isAsciiAlphabetic name then .error (.attributeName start name)
    else if equals ≠ 61 then .error (.attributeEquals (start + 1) equals)
    else
      let value := ((splitComma body).map Prod.fst).getD body
      let tail := (splitComma body).map Prod.snd
      if value = [] then .error (.emptyAttribute name begin)
      else if tail = some [] then .error (.trailingComma (length - 1))
      else .ok (some (⟨name, value, begin⟩, ⟨tail, length⟩))
  | _ => .error (.attributeTruncated start bytes.length)

/-- `Attributes::next` : the attribute and the state behind it, or the end. -/
def Attributes.next (attrs : Attributes) : Except Reason (Option (Attribute × Attributes)) :=
  match attrs.tail with
  | none => .ok none
  | some bytes => Attributes.nextIn attrs.length bytes

/-- `Attributes::required`. -/
def Attributes.required (attrs : Attributes) (name : UInt8) :
    Except Reason (Attribute × Attributes) := do
  match ← attrs.next with
  | none => .error (.missingAttribute name)
  | some (attr, attrs) =>
    if attr.name = 109 then .error (.extension attr.offset)
    else if attr.name ≠ name then .error (.attributeOrder attr.name name)
    else .ok (attr, attrs)

/-! ## Extensions -/

/-- `is_nonce_char`. -/
def isNonceChar (byte : UInt8) : Bool :=
  (0x21 ≤ byte && byte ≤ 0x2b) || (0x2d ≤ byte && byte ≤ 0x7e)

/-- `is_value_char`. -/
def isValueChar (byte : UInt8) : Bool :=
  (0x01 ≤ byte && byte ≤ 0x2b) || (0x2d ≤ byte && byte ≤ 0x3c) || (0x3e ≤ byte && byte ≤ 0x7f)

/-- `is_scram_attribute`. -/
def isScramAttribute (name : UInt8) : Bool :=
  name ∈ [97, 99, 101, 105, 109, 110, 112, 114, 115, 118]

/-- `Names::bit`. -/
def Names.bit (name : UInt8) : UInt64 :=
  1 <<< (if 97 ≤ name ∧ name ≤ 122 then name - 97 else name - 65 + 26).toUInt64

/-- The first byte that a predicate refuses, with its place. -/
def refused (accepts : UInt8 → Bool) (bytes : List UInt8) : Option (ℕ × UInt8) :=
  (bytes.zipIdx.find? fun item => !accepts item.1).map fun item => (item.2, item.1)

/-- The bytes that are left. -/
def Attributes.left (attrs : Attributes) : ℕ :=
  (attrs.tail.map List.length).getD 0

theorem splitComma_snd_lt : ∀ {bytes : List UInt8} {parts}, splitComma bytes = some parts →
    parts.2.length < bytes.length
  | [], _, h => nomatch h
  | byte :: bytes, parts, h => by
    rw [splitComma] at h
    split_ifs at h
    · cases h
      exact Nat.lt_succ_self _
    · obtain ⟨behind, hbehind, rfl⟩ := Option.map_eq_some_iff.mp h
      have hlt := splitComma_snd_lt hbehind
      exact Nat.lt_succ_of_lt hlt

theorem Attributes.nextIn_left {length : ℕ} {bytes : List UInt8} {attr : Attribute}
    {attrs : Attributes} (h : Attributes.nextIn length bytes = .ok (some (attr, attrs))) :
    attrs.left < bytes.length := by
  unfold Attributes.nextIn at h
  split at h
  · cases h
  · dsimp only at h
    split_ifs at h
    cases h
    unfold Attributes.left
    rename_i name equals byte rest _ _ _ _
    rcases hsplit : splitComma (byte :: rest) with - | parts
    · exact Nat.zero_lt_succ _
    · have hlt := splitComma_snd_lt hsplit
      simp only [Option.map_some, Option.getD_some, List.length_cons] at hlt ⊢
      omega
  · cases h

theorem Attributes.next_left {attrs attrs' : Attributes} {attr : Attribute}
    (h : attrs.next = .ok (some (attr, attrs'))) : attrs'.left < attrs.left := by
  unfold Attributes.next at h
  split at h
  · cases h
  · rename_i bytes htail
    have hlt := Attributes.nextIn_left h
    rw [Attributes.left, Attributes.left, htail] at *
    exact hlt

/-- The loop of `Attributes::extensions`, with the names that were there. -/
def Attributes.extensionsFrom (attrs : Attributes) (names : UInt64) : Except Reason Unit :=
  match h : attrs.next with
  | .error error => .error error
  | .ok none => .ok ()
  | .ok (some (attr, attrs')) =>
    have := Attributes.next_left h
    if attr.name = 109 then .error (.extension attr.offset)
    else if isScramAttribute attr.name then .error (.standardExtension attr.name attr.offset)
    else if names &&& Names.bit attr.name ≠ 0 then
      .error (.duplicateAttribute attr.name attr.offset)
    else
      match refused isValueChar attr.value with
      | some (relative, byte) => .error (.extensionValue attr.name (attr.start + relative) byte)
      | none => attrs'.extensionsFrom (names ||| Names.bit attr.name)
termination_by attrs.left

/-- `Attributes::extensions`. -/
def Attributes.extensions (attrs : Attributes) : Except Reason Unit :=
  attrs.extensionsFrom 0

/-! ## The two messages -/

/-- The loop of `positive_u32`. -/
def positiveFrom (start : ℕ) : List UInt8 → ℕ → ℕ → Except Number ℕ
  | [], _, value => .ok value
  | byte :: bytes, relative, value =>
    if ¬(48 ≤ byte ∧ byte ≤ 57) then .error (.invalid (start + relative) byte)
    else
      let next := value * 10 + (byte - 48).toNat
      if 2 ^ 32 ≤ next then .error (.overflow (start + relative) byte)
      else positiveFrom start bytes (relative + 1) next

/-- `positive_u32`. -/
def positiveU32 (bytes : List UInt8) (start : ℕ) : Except Number ℕ :=
  match bytes with
  | [] => .error .empty
  | byte :: rest =>
    if byte = 48 then .error (if rest = [] then .zero else .leadingZero start)
    else do
      let value ← positiveFrom start bytes 0 0
      if value = 0 then .error .zero else .ok value

/-- The bytes of a range. -/
def slice (bytes : List UInt8) (range : ℕ × ℕ) : List UInt8 :=
  (bytes.drop range.1).take (range.2 - range.1)

/-- `ServerFirst` : the message, the ranges of the nonce and of the salt, and the count. -/
structure ServerFirst where
  input : List UInt8
  nonce : ℕ × ℕ
  salt : ℕ × ℕ
  iterations : ℕ
  deriving DecidableEq

/-- `Parser::server_first`. -/
def serverFirst (bytes : List UInt8) : Except Reason ServerFirst := do
  let (nonce, attrs) ← (Attributes.new bytes).required 114
  match refused isNonceChar nonce.value with
  | some (relative, byte) => .error (.nonceChar (nonce.start + relative) byte)
  | none =>
    let (salt, attrs) ← attrs.required 115
    let (count, attrs) ← attrs.required 105
    let iterations ← (positiveU32 count.value count.start).mapError .iteration
    attrs.extensions
    return ⟨bytes, (nonce.start, nonce.start + nonce.value.length),
      (salt.start, salt.start + salt.value.length), iterations⟩

/-- `Retained`. -/
structure Retained where
  bytes : List UInt8
  range : ℕ × ℕ
  deriving DecidableEq

/-- `Retained::nonce`. -/
def Retained.nonce (retained : Retained) : List UInt8 :=
  slice retained.bytes retained.range

/-- `ServerFinal`. -/
inductive ServerFinal where
  | error (error : ServerError)
  | verifier (encoded : List UInt8)
  deriving DecidableEq

/-- A byte string literal. -/
def ascii (text : String) : List UInt8 :=
  text.toList.map fun ch => .ofNat ch.toNat

/-- `parse_server_error`. -/
def parseServerError (value : List UInt8) : ServerError :=
  if value = ascii "invalid-encoding" then .invalidEncoding
  else if value = ascii "extensions-not-supported" then .extensionsNotSupported
  else if value = ascii "invalid-proof" then .invalidProof
  else if value = ascii "channel-bindings-dont-match" then .channelBindingsDontMatch
  else if value = ascii "server-does-support-channel-binding" then
    .serverDoesSupportChannelBinding
  else if value = ascii "channel-binding-not-supported" then .channelBindingNotSupported
  else if value = ascii "unsupported-channel-binding-type" then .unsupportedChannelBindingType
  else if value = ascii "unknown-user" then .unknownUser
  else if value = ascii "invalid-username-encoding" then .invalidUsernameEncoding
  else if value = ascii "no-resources" then .noResources
  else .other

/-- The result that the first attribute of a server-final message is. -/
def finalResult (attr : Attribute) : Except Reason ServerFinal :=
  if attr.name = 101 then
    match refused isValueChar attr.value with
    | some (relative, byte) => .error (.finalValue (attr.start + relative) byte)
    | none => .ok (.error (parseServerError attr.value))
  else if attr.name = 118 then .ok (.verifier attr.value)
  else .error (.finalAttribute attr.name)

/-- `Parser::server_final`. -/
def serverFinal (bytes : List UInt8) : Except Reason ServerFinal := do
  match ← (Attributes.new bytes).next with
  | none => .error .missingResult
  | some (attr, attrs) =>
    if attr.name = 109 then .error (.extension attr.offset)
    else
      let result ← finalResult attr
      attrs.extensions
      return result

end Cartel.Pg.Scram
