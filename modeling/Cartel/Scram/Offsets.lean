import Cartel.Scram.Grammar

/-!
# The offsets of the parser in 32 bits

The parser again, with calculations of 32 bits that may fail (`Checked`). On a message of fewer
than 2^32 bytes none of them does, and the parser comes to what it comes to with numbers
(`serverFirst_checked`, `serverFinal_checked`).
-/

namespace Cartel.Pg.Scram

open Cartel.Lib

/-- A result, unless a calculation leaves its range. -/
abbrev Checked (ε α : Type) :=
  ExceptT ε Option α

namespace Checked

variable {ε α β : Type}

/-- A result whose calculations stayed in their range. -/
def returns (result : Except ε α) : Checked ε α :=
  ExceptT.mk (some result)

/-- A difference of 32 bits. -/
def sub32 (a b : ℕ) : Checked ε ℕ :=
  if b ≤ a then returns (.ok (a - b)) else ExceptT.mk none

/-- A sum of 32 bits. -/
def add32 (a b : ℕ) : Checked ε ℕ :=
  if a + b < 2 ^ 32 then returns (.ok (a + b)) else ExceptT.mk none

theorem returns_bind {result : Except ε α} {f : α → Checked ε β} {g : α → Except ε β}
    (h : ∀ a, result = .ok a → f a = returns (g a)) :
    (returns result >>= f) = returns (result >>= g) := by
  rcases result with error | a
  · rfl
  · exact h a rfl

theorem sub32_bind {a b : ℕ} (h : b ≤ a) (f : ℕ → Checked ε β) :
    (sub32 a b >>= f) = f (a - b) := by
  rw [sub32, if_pos h]
  rfl

theorem add32_bind {a b : ℕ} (h : a + b < 2 ^ 32) (f : ℕ → Checked ε β) :
    (add32 a b >>= f) = f (a + b) := by
  rw [add32, if_pos h]
  rfl

/-! ## The parser -/

/-- `Attributes::next`, for the bytes that are left. -/
def nextIn (length : ℕ) (bytes : List UInt8) : Checked Reason (Option (Attribute × Attributes)) :=
  match bytes with
  | [] => return none
  | name :: equals :: byte :: rest => do
    let body := byte :: rest
    let start ← sub32 length (name :: equals :: body).length
    if !isAsciiAlphabetic name then throw (.attributeName start name)
    else if equals ≠ 61 then
      let offset ← add32 start 1
      throw (.attributeEquals offset equals)
    else
      let begin ← sub32 length body.length
      let value := ((splitComma body).map Prod.fst).getD body
      let tail := (splitComma body).map Prod.snd
      if value = [] then throw (.emptyAttribute name begin)
      else if tail = some [] then
        let offset ← sub32 length 1
        throw (.trailingComma offset)
      else return some (⟨name, value, begin⟩, ⟨tail, length⟩)
  | bytes => do
    let start ← sub32 length bytes.length
    throw (.attributeTruncated start bytes.length)

/-- `Attributes::next`. -/
def next (attrs : Attributes) : Checked Reason (Option (Attribute × Attributes)) :=
  match attrs.tail with
  | none => return none
  | some bytes => nextIn attrs.length bytes

/-- `Attributes::required`. -/
def required (attrs : Attributes) (name : UInt8) : Checked Reason (Attribute × Attributes) := do
  match ← next attrs with
  | none => throw (.missingAttribute name)
  | some (attr, attrs) =>
    if attr.name = 109 then
      let offset ← sub32 attr.start 2
      throw (.extension offset)
    else if attr.name ≠ name then throw (.attributeOrder attr.name name)
    else return (attr, attrs)

/-- The first byte that a predicate refuses, with its place in the message. The counter is one
ahead. -/
def refused (accepts : UInt8 → Bool) (start : ℕ) :
    List UInt8 → ℕ → Checked Reason (Option (ℕ × UInt8))
  | [], relative => do
    let _ ← add32 relative 1
    return none
  | byte :: bytes, relative => do
    let next ← add32 relative 1
    if !accepts byte then
      let offset ← add32 start relative
      return some (offset, byte)
    else refused accepts start bytes next

/-- The check of an extension. -/
def extend (attr : Attribute) (names : UInt64) : Checked Reason UInt64 := do
  if attr.name = 109 then
    let offset ← sub32 attr.start 2
    throw (.extension offset)
  else if isScramAttribute attr.name then
    let offset ← sub32 attr.start 2
    throw (.standardExtension attr.name offset)
  else if names &&& Names.bit attr.name ≠ 0 then
    let offset ← sub32 attr.start 2
    throw (.duplicateAttribute attr.name offset)
  else
    match ← refused isValueChar attr.start attr.value 0 with
    | some (offset, byte) => throw (.extensionValue attr.name offset byte)
    | none => return names ||| Names.bit attr.name

/-- The loop of `Attributes::extensions`, of at most so many attributes. -/
def extensionsFrom : ℕ → Attributes → UInt64 → Checked Reason Unit
  | 0, _, _ => ExceptT.mk none
  | fuel + 1, attrs, names => do
    match ← next attrs with
    | none => return ()
    | some (attr, attrs) =>
      let names ← extend attr names
      extensionsFrom fuel attrs names

/-- `Attributes::extensions`. -/
def extensions (attrs : Attributes) : Checked Reason Unit :=
  extensionsFrom (attrs.left + 1) attrs 0

/-- The loop of `positive_u32`. The counter is one ahead. -/
def positiveFrom (start : ℕ) : List UInt8 → ℕ → ℕ → Checked Number ℕ
  | [], relative, value => do
    let _ ← add32 relative 1
    return value
  | byte :: bytes, relative, value => do
    let ahead ← add32 relative 1
    if ¬(48 ≤ byte ∧ byte ≤ 57) then
      let offset ← add32 start relative
      throw (.invalid offset byte)
    else
      let next := value * 10 + (byte - 48).toNat
      if 2 ^ 32 ≤ next then
        let offset ← add32 start relative
        throw (.overflow offset byte)
      else positiveFrom start bytes ahead next

/-- `positive_u32`. -/
def positiveU32 (bytes : List UInt8) (start : ℕ) : Checked Number ℕ :=
  match bytes with
  | [] => throw .empty
  | byte :: rest =>
    if byte = 48 then throw (if rest = [] then .zero else .leadingZero start)
    else do
      let value ← positiveFrom start (byte :: rest) 0 0
      if value = 0 then throw .zero else return value

/-- `Parser::server_first`. -/
def serverFirst (bytes : List UInt8) : Checked Reason ServerFirst := do
  let (nonce, attrs) ← required (Attributes.new bytes) 114
  match ← refused isNonceChar nonce.start nonce.value 0 with
  | some (offset, byte) => throw (.nonceChar offset byte)
  | none =>
    let (salt, attrs) ← required attrs 115
    let (count, attrs) ← required attrs 105
    let iterations ← (positiveU32 count.value count.start).adapt Reason.iteration
    extensions attrs
    let nonceEnd ← add32 nonce.start nonce.value.length
    let saltEnd ← add32 salt.start salt.value.length
    return ⟨bytes, (nonce.start, nonceEnd), (salt.start, saltEnd), iterations⟩

/-- The result that the first attribute of a server-final message is. -/
def finalResult (attr : Attribute) : Checked Reason ServerFinal := do
  if attr.name = 101 then
    match ← refused isValueChar attr.start attr.value 0 with
    | some (offset, byte) => throw (.finalValue offset byte)
    | none => return .error (parseServerError attr.value)
  else if attr.name = 118 then return .verifier attr.value
  else throw (.finalAttribute attr.name)

/-- `Parser::server_final`. -/
def serverFinal (bytes : List UInt8) : Checked Reason ServerFinal := do
  match ← next (Attributes.new bytes) with
  | none => throw .missingResult
  | some (attr, attrs) =>
    if attr.name = 109 then
      let offset ← sub32 attr.start 2
      throw (.extension offset)
    else
      let result ← finalResult attr
      extensions attrs
      return result

/-! ## The calculations stay in their range -/

theorem nextIn_eq {length : ℕ} {bytes : List UInt8} (h : bytes.length ≤ length)
    (hlength : length < 2 ^ 32) :
    nextIn length bytes = returns (Attributes.nextIn length bytes) := by
  match bytes, h with
  | [], _ => rfl
  | [name], h | [name, equals], h =>
    exact sub32_bind h fun start => throw (Reason.attributeTruncated start _)
  | name :: equals :: byte :: rest, h =>
    have hbody : (byte :: rest).length ≤ length := by
      simp only [List.length_cons] at h ⊢
      omega
    have hone : 1 ≤ length := by
      simp only [List.length_cons] at h
      omega
    have hnext : length - (name :: equals :: byte :: rest).length + 1 < 2 ^ 32 := by
      simp only [List.length_cons] at h ⊢
      omega
    rw [nextIn, Attributes.nextIn]
    dsimp only
    rw [sub32_bind h, sub32_bind hbody, add32_bind hnext, sub32_bind hone]
    split_ifs
    · rfl
    · rfl
    · rfl
    · rfl
    · rfl

variable {input front : List UInt8} {attrs attrs' : Attributes} {attr : Attribute}

theorem next_eq (h : attrs.Within input front) (hinput : input.length < 2 ^ 32) :
    next attrs = returns attrs.next := by
  have hlength := h.length
  have htext : attrs.text.length ≤ attrs.length := by
    rw [hlength, h.eq, List.length_append]
    omega
  rcases attrs with ⟨_ | bytes, length⟩
  · rfl
  · exact nextIn_eq htext (hlength ▸ hinput)

/-- An attribute that was read lies in the message. -/
theorem fits (h : attrs.Within input front) (hnext : attrs.next = .ok (some (attr, attrs'))) :
    2 ≤ attr.start ∧ attr.start + attr.value.length ≤ input.length := by
  obtain ⟨-, -, -, hstart, htext, -⟩ := h.next_spec.2.2 attr attrs' hnext
  have hlength := congrArg List.length h.eq
  rw [htext] at hlength
  simp only [List.length_append, List.length_cons] at hlength
  omega

theorem required_eq (h : attrs.Within input front) (hinput : input.length < 2 ^ 32)
    (name : UInt8) : required attrs name = returns (attrs.required name) := by
  rw [required, Attributes.required, next_eq h hinput]
  refine returns_bind fun read hread => ?_
  rcases read with _ | ⟨attr, attrs'⟩
  · rfl
  · have hfits := fits h hread
    dsimp only
    rw [sub32_bind hfits.1]
    split_ifs
    · rfl
    · rfl
    · rfl

/-- The place of a byte that is refused, from the place of the first one on. -/
def refusedAt (accepts : UInt8 → Bool) (start : ℕ) (bytes : List UInt8) : Option (ℕ × UInt8) :=
  (Scram.refused accepts bytes).map fun item => (start + item.1, item.2)

theorem refusedAt_cons (accepts : UInt8 → Bool) (start : ℕ) (byte : UInt8) (bytes : List UInt8) :
    refusedAt accepts start (byte :: bytes) =
      if !accepts byte then some (start, byte) else refusedAt accepts (start + 1) bytes := by
  rw [refusedAt, Scram.refused, List.zipIdx_cons', List.find?_cons]
  rcases accepts byte with _ | _
  · rfl
  · change ((((bytes.zipIdx).map fun item => (item.1, item.2 + 1)).find?
      fun item => !accepts item.1).map fun item => (item.2, item.1)).map _ = _
    rw [List.find?_map, if_neg (by decide), refusedAt, Scram.refused]
    simp only [Option.map_map]
    congr 1
    funext item
    simp only [Function.comp_apply, Nat.add_assoc, Nat.add_comm 1]

theorem refused_eq {accepts : UInt8 → Bool} {start : ℕ} {bytes : List UInt8} {relative : ℕ}
    (h : start + relative + bytes.length < 2 ^ 32) (hstart : 2 ≤ start) :
    refused accepts start bytes relative =
      returns (.ok (refusedAt accepts (start + relative) bytes)) := by
  induction bytes generalizing relative with
  | nil =>
    rw [refused, add32_bind (by simp only [List.length_nil] at h; omega)]
    rfl
  | cons byte bytes ih =>
    rw [List.length_cons] at h
    rw [refused, add32_bind (by omega)]
    rcases haccepts : accepts byte with _ | _
    · rw [if_pos (by decide), add32_bind (by omega), refusedAt_cons, haccepts]
      rfl
    · rw [if_neg (by decide), ih (by omega), refusedAt_cons, haccepts]
      rfl

/-- The first byte of an attribute's value that is refused. -/
theorem refused_value (hinput : input.length < 2 ^ 32)
    (hfits : 2 ≤ attr.start ∧ attr.start + attr.value.length ≤ input.length)
    (accepts : UInt8 → Bool) :
    refused accepts attr.start attr.value 0 =
      returns (.ok (refusedAt accepts attr.start attr.value)) :=
  refused_eq (by omega) hfits.1

theorem extend_eq (hinput : input.length < 2 ^ 32)
    (hfits : 2 ≤ attr.start ∧ attr.start + attr.value.length ≤ input.length) (names : UInt64) :
    extend attr names = returns (attr.extend names) := by
  rw [extend, Attribute.extend]
  simp only [sub32_bind hfits.1]
  split_ifs
  · rfl
  · rfl
  · rfl
  · rw [refused_value hinput hfits, refusedAt]
    rcases Scram.refused isValueChar attr.value with _ | ⟨relative, byte⟩
    · rfl
    · rfl

theorem extensionsFrom_eq (hinput : input.length < 2 ^ 32) {fuel : ℕ} (hfuel : attrs.left < fuel)
    (h : attrs.Within input front) (names : UInt64) :
    extensionsFrom fuel attrs names = returns (attrs.extensionsFrom names) := by
  induction fuel generalizing attrs front names with
  | zero => omega
  | succ fuel ih =>
    rw [extensionsFrom, next_eq h hinput]
    rcases hnext : attrs.next with reason | _ | ⟨attr, attrs'⟩
    · rw [Attributes.extensionsFrom_error hnext]
      rfl
    · rw [Attributes.extensionsFrom_none hnext]
      rfl
    · obtain ⟨-, -, -, -, -, front', hwithin, -⟩ := h.next_spec.2.2 attr attrs' hnext
      have hleft := Attributes.next_left hnext
      rw [Attributes.extensionsFrom_some hnext]
      change (extend attr names >>= extensionsFrom fuel attrs') = _
      rw [extend_eq hinput (fits h hnext)]
      exact returns_bind fun names' _ => ih (by omega) hwithin names'

theorem extensions_eq (hinput : input.length < 2 ^ 32) (h : attrs.Within input front) :
    extensions attrs = returns attrs.extensions :=
  extensionsFrom_eq hinput (Nat.lt_succ_self _) h 0

theorem positiveFrom_eq {start : ℕ} (hstart : 2 ≤ start) {bytes : List UInt8} {relative value : ℕ}
    (h : start + relative + bytes.length < 2 ^ 32) :
    positiveFrom start bytes relative value =
      returns (Scram.positiveFrom start bytes relative value) := by
  induction bytes generalizing relative value with
  | nil =>
    rw [positiveFrom, add32_bind (by simp only [List.length_nil] at h; omega)]
    rfl
  | cons byte bytes ih =>
    rw [List.length_cons] at h
    have hplace : start + relative < 2 ^ 32 := by omega
    rw [positiveFrom, add32_bind (by omega), Scram.positiveFrom]
    dsimp only
    rw [ih (by omega)]
    simp only [add32_bind hplace]
    split_ifs
    · rfl
    · rfl
    · rfl

theorem positiveU32_eq {start : ℕ} (hstart : 2 ≤ start) {bytes : List UInt8}
    (h : start + bytes.length < 2 ^ 32) :
    positiveU32 bytes start = returns (Scram.positiveU32 bytes start) := by
  rcases bytes with _ | ⟨byte, rest⟩
  · rfl
  · rw [positiveU32, Scram.positiveU32]
    by_cases hzero : byte = 48
    · rw [if_pos hzero, if_pos hzero]
      rfl
    · rw [if_neg hzero, if_neg hzero, positiveFrom_eq hstart (by omega)]
      refine returns_bind fun value _ => ?_
      split_ifs
      · rfl
      · rfl

theorem adapt_returns {δ : Type} (f : ε → δ) (result : Except ε α) :
    (returns result).adapt f = returns (result.mapError f) := by
  rcases result with error | a
  · rfl
  · rfl

/-- The calculations of `server_first` stay in 32 bits. -/
theorem serverFirst_eq {bytes : List UInt8} (h : bytes.length < 2 ^ 32) :
    serverFirst bytes = returns (Scram.serverFirst bytes) := by
  have hnew := Attributes.new_within bytes
  rw [serverFirst, Scram.serverFirst_eq, required_eq hnew h]
  refine returns_bind fun nonce hnonce => ?_
  obtain ⟨nonce, attrs₁⟩ := nonce
  have hfits := fits hnew ((hnew.required_cases 114).2 _ _ hnonce).1
  obtain ⟨-, -, -, -, -, front₁, hwithin₁, -⟩ := hnew.required_ok hnonce
  dsimp only
  rw [refused_value h hfits, refusedAt]
  rcases Scram.refused isNonceChar nonce.value with _ | ⟨relative, byte⟩
  swap
  · rfl
  change (required attrs₁ 115 >>= _) = returns (attrs₁.required 115 >>= _)
  rw [required_eq hwithin₁ h]
  refine returns_bind fun salt hsalt => ?_
  obtain ⟨salt, attrs₂⟩ := salt
  have hfits₁ := fits hwithin₁ ((hwithin₁.required_cases 115).2 _ _ hsalt).1
  obtain ⟨-, -, -, -, -, front₂, hwithin₂, -⟩ := hwithin₁.required_ok hsalt
  dsimp only
  rw [required_eq hwithin₂ h]
  refine returns_bind fun count hcount => ?_
  obtain ⟨count, attrs₃⟩ := count
  have hfits₂ := fits hwithin₂ ((hwithin₂.required_cases 105).2 _ _ hcount).1
  obtain ⟨-, -, -, -, -, front₃, hwithin₃, -⟩ := hwithin₂.required_ok hcount
  dsimp only
  rw [positiveU32_eq hfits₂.1 (by omega), adapt_returns]
  refine returns_bind fun iterations _ => ?_
  rw [extensions_eq h hwithin₃]
  refine returns_bind fun _ _ => ?_
  rw [add32_bind (by omega), add32_bind (by omega)]
  rfl

theorem finalResult_eq (hinput : input.length < 2 ^ 32)
    (hfits : 2 ≤ attr.start ∧ attr.start + attr.value.length ≤ input.length) :
    finalResult attr = returns (Scram.finalResult attr) := by
  rw [finalResult, Scram.finalResult]
  split_ifs
  · rw [refused_value hinput hfits, refusedAt]
    rcases Scram.refused isValueChar attr.value with _ | ⟨relative, byte⟩
    · rfl
    · rfl
  · rfl
  · rfl

/-- The calculations of `server_final` stay in 32 bits. -/
theorem serverFinal_eq {bytes : List UInt8} (h : bytes.length < 2 ^ 32) :
    serverFinal bytes = returns (Scram.serverFinal bytes) := by
  have hnew := Attributes.new_within bytes
  rw [serverFinal, Scram.serverFinal_eq, next_eq hnew h]
  refine returns_bind fun read hread => ?_
  rcases read with _ | ⟨attr, attrs'⟩
  · rfl
  obtain ⟨-, -, -, -, -, front', hwithin, -⟩ := hnew.next_spec.2.2 attr attrs' hread
  have hfits := fits hnew hread
  dsimp only
  rw [sub32_bind hfits.1]
  split_ifs
  · rfl
  · rw [finalResult_eq h hfits]
    refine returns_bind fun result _ => ?_
    rw [extensions_eq h hwithin]
    exact returns_bind fun _ _ => rfl

end Checked

/-! ## The messages -/

/-- The ranges lie in the message, and are those of the values. -/
theorem FirstMessage.slices {bytes nonce salt digits : List UInt8}
    {exts : List (UInt8 × List UInt8)} {first : ServerFirst}
    (h : FirstMessage bytes nonce salt digits exts first) :
    first.nonce.2 ≤ bytes.length ∧ slice bytes first.nonce = nonce ∧
      first.salt.2 ≤ bytes.length ∧ slice bytes first.salt = salt := by
  have hnonce : bytes = [114, 61] ++ nonce ++
      (44 :: message ((115, salt) :: (105, digits) :: exts)) := by
    rw [h.eq]
    simp [message]
  have hsalt : bytes = ([114, 61] ++ nonce ++ [44, 115, 61]) ++ salt ++
      (44 :: message ((105, digits) :: exts)) := by
    rw [h.eq]
    simp [message]
  have hslice : ∀ front value back : List UInt8, ∀ start stop, start = front.length →
      stop = start + value.length → bytes = front ++ value ++ back →
      stop ≤ bytes.length ∧ slice bytes (start, stop) = value := by
    rintro front value back start stop rfl rfl heq
    rw [heq, slice, List.append_assoc, List.drop_left, Nat.add_sub_cancel_left, List.take_left]
    refine ⟨?_, rfl⟩
    simp only [List.length_append]
    omega
  rw [h.nonceRange, h.saltRange]
  obtain ⟨hlt, heq⟩ := hslice [114, 61] nonce _ 2 (2 + nonce.length) rfl rfl hnonce
  refine ⟨hlt, heq, hslice _ salt _ _ _ ?_ rfl hsalt⟩
  simp only [List.length_append, List.length_cons, List.length_nil]
  omega

end Cartel.Pg.Scram
