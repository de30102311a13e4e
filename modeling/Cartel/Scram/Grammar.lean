import Cartel.Scram.Parser
import Cartel.Lib.Outcome

/-!
# The grammar of a server's messages

A message is the text of attributes (`message`). The parser accepts exactly the messages whose
attributes are those of the grammar, and gives back where they stand (`serverFirst_eq_ok`,
`serverFinal_eq_ok`). An error designates a place of the message (`Designates`). With offsets of
32 bits no calculation leaves its range (`Checked`).
-/

namespace Cartel.Pg.Scram

open Cartel.Lib

/-! ## The grammar -/

/-- The text of attributes. -/
def message : List (UInt8 × List UInt8) → List UInt8
  | [] => []
  | [(name, value)] => name :: 61 :: value
  | (name, value) :: attr :: attrs => name :: 61 :: (value ++ 44 :: message (attr :: attrs))

/-- A byte of a nonce. -/
def NonceByte (byte : UInt8) : Prop :=
  0x21 ≤ byte ∧ byte ≤ 0x7e ∧ byte ≠ 44

/-- A byte of a value. -/
def ValueByte (byte : UInt8) : Prop :=
  0x01 ≤ byte ∧ byte ≤ 0x7f ∧ byte ≠ 44 ∧ byte ≠ 61

/-- The names of the standard. -/
def reserved : List UInt8 :=
  ascii "aceimnprsv"

/-- Attributes that may follow those of the standard. -/
structure Extensions (attrs : List (UInt8 × List UInt8)) : Prop where
  nodup : (attrs.map Prod.fst).Nodup
  name : ∀ attr ∈ attrs, isAsciiAlphabetic attr.1 = true ∧ attr.1 ∉ reserved
  value : ∀ attr ∈ attrs, attr.2 ≠ [] ∧ ∀ byte ∈ attr.2, ValueByte byte

/-- The number that digits behind those of a number make of it. -/
def decimalFrom (value : ℕ) (digits : List UInt8) : ℕ :=
  digits.foldl (fun value digit => value * 10 + (digit.toNat - 48)) value

/-- A count, without a leading zero. -/
structure IsCount (digits : List UInt8) (count : ℕ) : Prop where
  digit : ∀ byte ∈ digits, 48 ≤ byte ∧ byte ≤ 57
  head : digits.head? ≠ some 48
  pos : 0 < count
  lt : count < 2 ^ 32
  eq : count = decimalFrom 0 digits

/-- An attribute with a name begins at a place of a text. -/
structure Begins (input : List UInt8) (offset : ℕ) (name : UInt8) : Prop where
  name : input[offset]? = some name
  equals : input[offset + 1]? = some 61
  front : offset = 0 ∨ input[offset - 1]? = some 44

/-- A byte that is at a place of a text. -/
def Number.Designates (input : List UInt8) : Number → Prop
  | .empty | .zero => True
  | .leadingZero offset => input[offset]? = some 48
  | .invalid offset byte => input[offset]? = some byte ∧ ¬(48 ≤ byte ∧ byte ≤ 57)
  | .overflow offset byte => input[offset]? = some byte ∧ 48 ≤ byte ∧ byte ≤ 57

/-- The place of an error is that of its byte or of its attribute. -/
def Reason.Designates (input : List UInt8) : Reason → Prop
  | .attributeName offset actual =>
    input[offset]? = some actual ∧ isAsciiAlphabetic actual = false ∧
      (offset = 0 ∨ input[offset - 1]? = some 44)
  | .attributeEquals offset actual =>
    input[offset]? = some actual ∧ actual ≠ 61 ∧
      ∃ name, isAsciiAlphabetic name = true ∧ input[offset - 1]? = some name
  | .attributeTruncated offset actual =>
    offset < input.length ∧ offset + actual = input.length ∧ actual ≤ 2 ∧
      (offset = 0 ∨ input[offset - 1]? = some 44)
  | .emptyAttribute name offset =>
    2 ≤ offset ∧ Begins input (offset - 2) name ∧ input[offset]? = some 44
  | .trailingComma offset => input[offset]? = some 44 ∧ offset + 1 = input.length
  | .extension offset => Begins input offset 109
  | .standardExtension name offset => Begins input offset name ∧ name ∈ reserved
  | .duplicateAttribute name offset =>
    Begins input offset name ∧ ∃ before < offset, Begins input before name
  | .extensionValue _ offset byte | .finalValue offset byte =>
    input[offset]? = some byte ∧ ¬ValueByte byte
  | .nonceChar offset byte => input[offset]? = some byte ∧ ¬NonceByte byte
  | .iteration number => number.Designates input
  | .attributeOrder _ _ | .missingAttribute _ | .missingResult | .finalAttribute _ => True
  | _ => False

/-- The place that an error of a number reports. -/
def Number.place : Number → Option ℕ
  | .empty | .zero => none
  | .leadingZero offset | .invalid offset _ | .overflow offset _ => some offset

/-- The place that an error reports. -/
def Reason.place : Reason → Option ℕ
  | .attributeName offset _ | .attributeEquals offset _ | .attributeTruncated offset _
  | .emptyAttribute _ offset | .trailingComma offset | .extension offset
  | .standardExtension _ offset | .duplicateAttribute _ offset | .extensionValue _ offset _
  | .finalValue offset _ | .nonceChar offset _ => some offset
  | .iteration number => number.place
  | _ => none

theorem Begins.lt {input : List UInt8} {offset : ℕ} {name : UInt8} (h : Begins input offset name) :
    offset < input.length :=
  (List.getElem?_eq_some_iff.mp h.name).1

/-- The place is within the message. -/
theorem Reason.Designates.place_lt {input : List UInt8} {reason : Reason}
    (h : reason.Designates input) {offset : ℕ} (hplace : reason.place = some offset) :
    offset < input.length := by
  have hbyte : ∀ {i : ℕ} {byte : UInt8}, input[i]? = some byte → i < input.length :=
    fun hi => (List.getElem?_eq_some_iff.mp hi).1
  cases reason with
  | attributeName | attributeEquals | trailingComma | extensionValue | finalValue | nonceChar =>
    cases hplace
    exact hbyte h.1
  | attributeTruncated =>
    cases hplace
    exact h.1
  | emptyAttribute =>
    cases hplace
    exact hbyte h.2.2
  | extension =>
    cases hplace
    exact Begins.lt h
  | standardExtension | duplicateAttribute =>
    cases hplace
    exact Begins.lt h.1
  | iteration number =>
    cases number with
    | empty | zero => cases hplace
    | leadingZero =>
      cases hplace
      exact hbyte h
    | invalid | overflow =>
      cases hplace
      exact hbyte h.1
  | _ => cases hplace

/-! ## Bytes -/

theorem isNonceChar_iff {byte : UInt8} : isNonceChar byte = true ↔ NonceByte byte := by
  simp only [isNonceChar, NonceByte, Bool.or_eq_true, Bool.and_eq_true, decide_eq_true_eq,
    UInt8.le_iff_toNat_le, Ne, ← UInt8.toNat_inj, UInt8.toNat_ofNat]
  omega

theorem isValueChar_iff {byte : UInt8} : isValueChar byte = true ↔ ValueByte byte := by
  simp only [isValueChar, ValueByte, Bool.or_eq_true, Bool.and_eq_true, decide_eq_true_eq,
    UInt8.le_iff_toNat_le, Ne, ← UInt8.toNat_inj, UInt8.toNat_ofNat]
  omega

theorem isScramAttribute_iff {name : UInt8} : isScramAttribute name = true ↔ name ∈ reserved := by
  have : reserved = [97, 99, 101, 105, 109, 110, 112, 114, 115, 118] := by decide
  rw [isScramAttribute, this, decide_eq_true_eq]

/-- The byte that is refused is the first one that is not accepted. -/
theorem refused_eq_none {accepts : UInt8 → Bool} {bytes : List UInt8} :
    refused accepts bytes = none ↔ ∀ byte ∈ bytes, accepts byte = true := by
  rw [refused, Option.map_eq_none_iff, List.find?_eq_none]
  constructor
  · intro h byte hbyte
    obtain ⟨i, hi, rfl⟩ := List.mem_iff_getElem.mp hbyte
    have := h (bytes[i], i) (List.mem_zipIdx_iff_getElem?.mpr (List.getElem?_eq_getElem hi))
    simpa using this
  · intro h item hitem
    have := h item.1 (List.mem_of_getElem? (List.mem_zipIdx_iff_getElem?.mp hitem))
    simpa using this

theorem refused_eq_some {accepts : UInt8 → Bool} {bytes : List UInt8} {relative : ℕ} {byte : UInt8}
    (h : refused accepts bytes = some (relative, byte)) :
    bytes[relative]? = some byte ∧ accepts byte = false := by
  obtain ⟨item, hitem, heq⟩ := Option.map_eq_some_iff.mp h
  cases heq
  refine ⟨List.mem_zipIdx_iff_getElem?.mp (List.mem_of_find?_eq_some hitem), ?_⟩
  simpa using List.find?_some hitem

/-! ## One attribute -/

theorem splitComma_eq_none {bytes : List UInt8} :
    splitComma bytes = none ↔ (44 : UInt8) ∉ bytes := by
  induction bytes with
  | nil => simp [splitComma]
  | cons byte bytes ih =>
    rw [splitComma]
    split_ifs with hbyte
    · simp [hbyte]
    · rw [Option.map_eq_none_iff, ih, List.mem_cons, not_or]
      exact ⟨fun h => ⟨Ne.symm hbyte, h⟩, fun h => h.2⟩

theorem splitComma_eq_some {bytes : List UInt8} {parts : List UInt8 × List UInt8} :
    splitComma bytes = some parts ↔ bytes = parts.1 ++ 44 :: parts.2 ∧ (44 : UInt8) ∉ parts.1 := by
  induction bytes generalizing parts with
  | nil => simp [splitComma]
  | cons byte bytes ih =>
    obtain ⟨value, rest⟩ := parts
    rw [splitComma]
    split_ifs with hbyte
    · subst hbyte
      rcases value with _ | ⟨head, value⟩
      · simp
      · simp only [Option.some.injEq, Prod.mk.injEq, List.cons_append, List.cons.injEq,
          List.mem_cons, not_or]
        exact ⟨fun h => (by cases h.1), fun h => absurd h.1.1 h.2.1⟩
    · rw [Option.map_eq_some_iff]
      constructor
      · rintro ⟨behind, hbehind, heq⟩
        cases heq
        obtain ⟨hbytes, hmem⟩ := ih.mp hbehind
        exact ⟨congrArg _ hbytes, fun h => (List.mem_cons.mp h).elim (Ne.symm hbyte) hmem⟩
      · rintro ⟨hbytes, hmem⟩
        rcases value with _ | ⟨head, value⟩
        · cases hbytes
          exact absurd rfl hbyte
        · cases hbytes
          exact ⟨(value, rest), ih.mpr ⟨rfl, fun h => hmem (List.mem_cons_of_mem _ h)⟩, rfl⟩

/-- The bytes that are left. -/
def Attributes.text (attrs : Attributes) : List UInt8 :=
  attrs.tail.getD []

/-- A comma, if something follows. -/
def separated (text : List UInt8) : List UInt8 :=
  if text = [] then [] else 44 :: text

theorem message_cons (name : UInt8) (value : List UInt8) (attrs : List (UInt8 × List UInt8)) :
    message ((name, value) :: attrs) = name :: 61 :: (value ++ separated (message attrs)) := by
  rcases attrs with _ | ⟨⟨name', value'⟩, attrs⟩
  · rw [message, message, separated, if_pos rfl, List.append_nil]
  · have hne : message ((name', value') :: attrs) ≠ [] := by
      rcases attrs with _ | ⟨attr, attrs⟩
      · simp [message]
      · simp [message]
    rw [message, separated, if_neg hne]

theorem message_eq_nil {attrs : List (UInt8 × List UInt8)} : message attrs = [] ↔ attrs = [] := by
  rcases attrs with _ | ⟨⟨name, value⟩, attrs⟩
  · simp [message]
  · simp [message_cons]

/-- The bytes that are left stand behind `front` in the message. -/
structure Attributes.Within (input front : List UInt8) (attrs : Attributes) : Prop where
  eq : input = front ++ attrs.text
  length : attrs.length = input.length
  front : attrs.text ≠ [] → front = [] ∨ front.getLast? = some 44

theorem Attributes.next_eq (attrs : Attributes) :
    attrs.next = Attributes.nextIn attrs.length attrs.text := by
  rcases attrs with ⟨_ | bytes, length⟩
  · rfl
  · rfl

theorem Attributes.new_within (bytes : List UInt8) : (Attributes.new bytes).Within bytes [] :=
  ⟨rfl, rfl, fun _ => .inl rfl⟩

/-- An attribute that the grammar has is read. -/
theorem Attributes.nextIn_separated {name : UInt8} {value : List UInt8}
    (hname : isAsciiAlphabetic name = true) (hvalue : value ≠ []) (hcomma : (44 : UInt8) ∉ value)
    (rest : List UInt8) (length : ℕ) :
    ∃ attrs', Attributes.nextIn length (name :: 61 :: (value ++ separated rest)) =
        .ok (some (⟨name, value, length - (value ++ separated rest).length⟩, attrs')) ∧
      attrs'.text = rest ∧ attrs'.length = length := by
  obtain ⟨byte, value, rfl⟩ := List.exists_cons_of_ne_nil hvalue
  have hletter : ¬(!isAsciiAlphabetic name) = true := by
    rw [hname]
    decide
  have hequals : ¬(61 : UInt8) ≠ 61 := fun h => h rfl
  rcases eq_or_ne rest [] with rfl | hrest
  · have hsplit : splitComma (byte :: value) = none := splitComma_eq_none.mpr hcomma
    refine ⟨⟨none, length⟩, ?_, rfl, rfl⟩
    rw [separated, if_pos rfl, List.append_nil, Attributes.nextIn]
    dsimp only
    rw [if_neg hletter, if_neg hequals, hsplit]
    rfl
  · have hsplit : splitComma (byte :: (value ++ 44 :: rest)) = some (byte :: value, rest) :=
      splitComma_eq_some.mpr ⟨rfl, hcomma⟩
    refine ⟨⟨some rest, length⟩, ?_, rfl, rfl⟩
    rw [separated, if_neg hrest, List.cons_append, Attributes.nextIn]
    dsimp only
    rw [if_neg hletter, if_neg hequals, hsplit]
    simp only [Option.map_some, Option.getD_some, Option.some.injEq, hrest, if_false]
    rw [if_neg hvalue]

/-- The bytes of a text behind the ones before. -/
theorem getElem?_behind {front text : List UInt8} {offset : ℕ} (h : offset = front.length)
    (i : ℕ) : (front ++ text)[offset + i]? = text[i]? := by
  rw [List.getElem?_append_right (by omega)]
  congr 1
  omega

theorem Attributes.Within.getElem? {input front : List UInt8} {attrs : Attributes}
    (h : attrs.Within input front) (i : ℕ) : input[front.length + i]? = attrs.text[i]? := by
  rw [h.eq, getElem?_behind rfl]

/-- An attribute begins where the bytes that are left do. -/
theorem Attributes.Within.starts {input front : List UInt8} {attrs : Attributes}
    (h : attrs.Within input front) (hne : attrs.text ≠ []) :
    front.length = 0 ∨ input[front.length - 1]? = some 44 := by
  rcases h.front hne with rfl | hlast
  · exact .inl rfl
  · refine .inr ?_
    rw [List.getLast?_eq_getElem?] at hlast
    obtain ⟨hlt, -⟩ := List.getElem?_eq_some_iff.mp hlast
    rw [h.eq, List.getElem?_append_left hlt, hlast]

/-- What reading an attribute comes to. -/
theorem Attributes.Within.next_spec {input front : List UInt8} {attrs : Attributes}
    (h : attrs.Within input front) :
    (∀ reason, attrs.next = .error reason → reason.Designates input) ∧
    (attrs.next = .ok none ↔ attrs.text = []) ∧
    ∀ attr attrs', attrs.next = .ok (some (attr, attrs')) →
      isAsciiAlphabetic attr.name = true ∧ attr.value ≠ [] ∧ (44 : UInt8) ∉ attr.value ∧
      attr.start = front.length + 2 ∧
      attrs.text = attr.name :: 61 :: (attr.value ++ separated attrs'.text) ∧
      ∃ front', attrs'.Within input front' ∧ front.length + 2 ≤ front'.length := by
  have hstart := h.starts
  have hbehind := h.getElem?
  obtain ⟨heq, hlength, hfront⟩ := h
  have hplace : attrs.length - attrs.text.length = front.length := by
    rw [hlength, heq, List.length_append]
    omega
  rw [Attributes.next_eq]
  match htext : attrs.text with
  | [] =>
    exact ⟨fun _ h => (by cases h), ⟨fun _ => rfl, fun _ => rfl⟩, fun _ _ h => (by cases h)⟩
  | [name] | [name, equals] =>
    rw [htext] at hplace
    rw [htext] at hstart
    refine ⟨fun reason h => ?_, ⟨fun h => (by cases h), fun h => (by cases h)⟩,
      fun _ _ h => (by cases h)⟩
    cases h
    rw [hplace]
    refine ⟨?_, ?_, by simp, hstart (List.cons_ne_nil _ _)⟩
    all_goals rw [heq, htext, List.length_append]
    · simp
  | name :: equals :: byte :: rest =>
    rw [htext] at hplace hstart
    have hbegin : attrs.length - (byte :: rest).length = front.length + 2 := by
      rw [← hplace]
      rw [hlength, heq, htext, List.length_append]
      simp only [List.length_cons]
      omega
    have hat : input[front.length]? = some name := by
      have := hbehind 0
      rwa [htext] at this
    have hnext : input[front.length + 1]? = some equals := by
      have := hbehind 1
      rwa [htext] at this
    have hbegins := hstart (List.cons_ne_nil _ _)
    rw [Attributes.nextIn]
    dsimp only
    rw [hplace, hbegin]
    by_cases hname : isAsciiAlphabetic name = true
    swap
    · rw [if_pos (by simpa using hname)]
      refine ⟨fun reason h => ?_, ⟨fun h => (by cases h), fun h => (by cases h)⟩,
        fun _ _ h => (by cases h)⟩
      cases h
      exact ⟨hat, Bool.eq_false_iff.mpr hname, hbegins⟩
    rw [if_neg (by simpa using hname)]
    by_cases hequals : equals = 61
    swap
    · rw [if_pos hequals]
      refine ⟨fun reason h => ?_, ⟨fun h => (by cases h), fun h => (by cases h)⟩,
        fun _ _ h => (by cases h)⟩
      cases h
      exact ⟨hnext, hequals, name, hname, hat⟩
    subst hequals
    rw [if_neg (fun h => h rfl)]
    rcases hsplit : splitComma (byte :: rest) with _ | ⟨value, tail⟩
    · have hcomma := splitComma_eq_none.mp hsplit
      simp only [Option.map_none, Option.getD_none, List.cons_ne_nil, if_false, reduceCtorEq]
      refine ⟨fun _ h => (by cases h), ⟨fun h => (by cases h), fun h => (by cases h)⟩,
        fun attr attrs' h => ?_⟩
      cases h
      refine ⟨hname, List.cons_ne_nil _ _, hcomma, rfl, ?_, input, ⟨?_, hlength, ?_⟩, ?_⟩
      · rw [Attributes.text, separated]
        simp
      · rw [Attributes.text]
        simp
      · intro h
        exact absurd rfl h
      · rw [heq, htext, List.length_append]
        simp only [List.length_cons]
        omega
    · obtain ⟨hbytes, hcomma⟩ := splitComma_eq_some.mp hsplit
      dsimp only at hbytes hcomma
      simp only [Option.map_some, Option.getD_some, Option.some.injEq]
      have hlook : ∀ i, input[front.length + 2 + i]? = (value ++ 44 :: tail)[i]? := by
        intro i
        have := hbehind (2 + i)
        rw [htext, hbytes, Nat.add_comm 2 i] at this
        rwa [Nat.add_assoc, Nat.add_comm 2 i]
      by_cases hvalue : value = []
      · subst hvalue
        rw [if_pos rfl]
        refine ⟨fun reason h => ?_, ⟨fun h => (by cases h), fun h => (by cases h)⟩,
          fun _ _ h => (by cases h)⟩
        cases h
        refine ⟨Nat.le_add_left _ _, ⟨hat, hnext, hbegins⟩, ?_⟩
        exact hlook 0
      rw [if_neg hvalue]
      have hwhole : input = (front ++ name :: 61 :: value) ++ [44] ++ tail := by
        rw [heq, htext, hbytes]
        simp
      by_cases htail : tail = []
      · subst htail
        rw [if_pos rfl]
        refine ⟨fun reason h => ?_, ⟨fun h => (by cases h), fun h => (by cases h)⟩,
          fun _ _ h => (by cases h)⟩
        cases h
        have hlast : input.getLast? = some 44 := by
          rw [hwhole, List.append_nil, List.getLast?_concat]
        have hpos : 0 < input.length := by
          rw [hwhole]
          simp
        rw [hlength]
        refine ⟨?_, Nat.sub_add_cancel hpos⟩
        rw [← List.getLast?_eq_getElem?, hlast]
      · rw [if_neg htail]
        refine ⟨fun _ h => (by cases h), ⟨fun h => (by cases h), fun h => (by cases h)⟩,
          fun attr attrs' h => ?_⟩
        cases h
        refine ⟨hname, hvalue, hcomma, rfl, ?_, (front ++ name :: 61 :: value) ++ [44],
          ⟨hwhole, hlength, fun _ => .inr List.getLast?_concat⟩, ?_⟩
        · rw [Attributes.text, separated, Option.getD_some, if_neg htail, hbytes]
        · rw [List.length_append, List.length_append]
          simp only [List.length_cons]
          omega

/-- An attribute that was read begins in front of what is left, and its value stands there. -/
theorem Attributes.Within.begins {input front : List UInt8} {attrs : Attributes}
    (h : attrs.Within input front) {name : UInt8} {value rest : List UInt8}
    (htext : attrs.text = name :: 61 :: (value ++ rest)) :
    Begins input front.length name ∧
      ∀ i byte, value[i]? = some byte → input[front.length + 2 + i]? = some byte := by
  have hne : attrs.text ≠ [] := by
    rw [htext]
    exact List.cons_ne_nil _ _
  have hat := h.getElem? 0
  have hnext := h.getElem? 1
  rw [htext] at hat hnext
  refine ⟨⟨hat, hnext, h.starts hne⟩, fun i byte hi => ?_⟩
  obtain ⟨hlt, -⟩ := List.getElem?_eq_some_iff.mp hi
  rw [Nat.add_assoc, h.getElem?, htext, Nat.add_comm 2 i]
  change (value ++ rest)[i]? = _
  rw [List.getElem?_append_left hlt, hi]

/-! ## The required attributes -/

/-- What reading an attribute with a name comes to. -/
theorem Attributes.Within.required_cases {input front : List UInt8} {attrs : Attributes}
    (h : attrs.Within input front) (name : UInt8) :
    (∀ reason, attrs.required name = .error reason → reason.Designates input) ∧
    ∀ attr attrs', attrs.required name = .ok (attr, attrs') →
      attrs.next = .ok (some (attr, attrs')) ∧ attr.name = name := by
  obtain ⟨herror, hnone, hsome⟩ := h.next_spec
  unfold Attributes.required
  rcases hnext : attrs.next with reason | _ | ⟨attr, attrs'⟩
  · refine ⟨fun reason' h' => ?_, fun _ _ h' => (by cases h')⟩
    cases h'
    exact herror _ hnext
  · refine ⟨fun reason' h' => ?_, fun _ _ h' => (by cases h')⟩
    cases h'
    exact trivial
  · obtain ⟨-, -, -, hstart, htext, -⟩ := hsome attr attrs' hnext
    obtain ⟨hbegins, -⟩ := h.begins htext
    change (∀ reason, (if attr.name = 109 then _ else _) = _ → _) ∧
      ∀ attr₁ attrs₁, (if attr.name = 109 then _ else _) = _ → _
    split_ifs with hm hname
    · refine ⟨fun reason' h' => ?_, fun _ _ h' => (by cases h')⟩
      cases h'
      change Begins input attr.offset 109
      rwa [Attribute.offset, hstart, Nat.add_sub_cancel, ← hm]
    · refine ⟨fun reason' h' => ?_, fun _ _ h' => (by cases h')⟩
      cases h'
      exact trivial
    · refine ⟨fun _ h' => (by cases h'), fun _ _ h' => ?_⟩
      cases h'
      exact ⟨rfl, not_not.mp hname⟩

/-! ## The names that were there -/

/-- The bit of a letter. -/
def Names.index (name : UInt8) : ℕ :=
  if 97 ≤ name.toNat then name.toNat - 97 else name.toNat - 65 + 26

theorem isAsciiAlphabetic_iff {name : UInt8} : isAsciiAlphabetic name = true ↔
    65 ≤ name.toNat ∧ name.toNat ≤ 90 ∨ 97 ≤ name.toNat ∧ name.toNat ≤ 122 := by
  simp only [isAsciiAlphabetic, Bool.or_eq_true, Bool.and_eq_true, decide_eq_true_eq,
    UInt8.le_iff_toNat_le, UInt8.toNat_ofNat]

theorem Names.index_lt {name : UInt8} (h : isAsciiAlphabetic name = true) :
    Names.index name < 52 := by
  rw [isAsciiAlphabetic_iff] at h
  unfold Names.index
  split_ifs
  · omega
  · omega

theorem Names.index_inj {name other : UInt8} (h : isAsciiAlphabetic name = true)
    (hother : isAsciiAlphabetic other = true) (heq : Names.index name = Names.index other) :
    name = other := by
  rw [isAsciiAlphabetic_iff] at h hother
  rw [← UInt8.toNat_inj]
  unfold Names.index at heq
  split_ifs at heq
  · omega
  · omega
  · omega
  · omega

theorem Names.toNat_bit {name : UInt8} (h : isAsciiAlphabetic name = true) :
    (Names.bit name).toNat = 2 ^ Names.index name := by
  have hlt := Names.index_lt h
  have hindex : (if 97 ≤ name ∧ name ≤ 122 then name - 97 else name - 65 + 26).toNat =
      Names.index name := by
    rw [isAsciiAlphabetic_iff] at h
    unfold Names.index
    by_cases hlow : 97 ≤ name.toNat
    · have hle : (97 : UInt8) ≤ name := UInt8.le_iff_toNat_le.mpr hlow
      have hge : name ≤ (122 : UInt8) :=
        UInt8.le_iff_toNat_le.mpr (show name.toNat ≤ 122 by omega)
      rw [if_pos ⟨hle, hge⟩, if_pos hlow, UInt8.toNat_sub_of_le _ _ hle]
      rfl
    · have hle : (65 : UInt8) ≤ name :=
        UInt8.le_iff_toNat_le.mpr (show 65 ≤ name.toNat by omega)
      have hnot : ¬(97 ≤ name ∧ name ≤ 122) := by
        rintro ⟨hge, -⟩
        have : (97 : UInt8).toNat ≤ name.toNat := UInt8.le_iff_toNat_le.mp hge
        exact hlow this
      rw [if_neg hnot, if_neg hlow, UInt8.toNat_add, UInt8.toNat_sub_of_le _ _ hle]
      change (name.toNat - 65 + 26) % 256 = _
      omega
  rw [Names.bit, UInt64.toNat_shiftLeft, UInt8.toNat_toUInt64, hindex,
    Nat.mod_eq_of_lt (show Names.index name < 64 by omega), UInt64.toNat_one, Nat.one_shiftLeft]
  exact Nat.mod_eq_of_lt (Nat.pow_lt_pow_right (by decide) (by omega))

/-- The set has the letters of a list. -/
def Names.Holds (names : UInt64) (seen : List UInt8) : Prop :=
  ∀ name, isAsciiAlphabetic name = true → (names &&& Names.bit name ≠ 0 ↔ name ∈ seen)

theorem Names.and_bit {names : UInt64} {name : UInt8} (h : isAsciiAlphabetic name = true) :
    names &&& Names.bit name ≠ 0 ↔ names.toNat.testBit (Names.index name) = true := by
  rw [Ne, ← UInt64.toNat_inj, UInt64.toNat_and, Names.toNat_bit h]
  change ¬names.toNat &&& 2 ^ Names.index name = 0 ↔ _
  rcases hbit : names.toNat.testBit (Names.index name) with _ | _
  · have hzero : names.toNat &&& 2 ^ Names.index name = 0 := by
      refine Nat.eq_of_testBit_eq fun i => ?_
      rw [Nat.testBit_and, Nat.testBit_two_pow, Nat.zero_testBit]
      by_cases hi : Names.index name = i
      · rw [← hi, hbit, Bool.false_and]
      · rw [decide_eq_false hi, Bool.and_false]
    simp [hzero]
  · refine ⟨fun _ => rfl, fun _ hzero => ?_⟩
    have := congrArg (Nat.testBit · (Names.index name)) hzero
    simp [hbit] at this

theorem Names.holds_zero : Names.Holds 0 [] := by
  intro name h
  rw [Names.and_bit h]
  simp

theorem Names.Holds.insert {names : UInt64} {seen : List UInt8} (h : Names.Holds names seen)
    {name : UInt8} (hname : isAsciiAlphabetic name = true) :
    Names.Holds (names ||| Names.bit name) (name :: seen) := by
  intro other hother
  rw [Names.and_bit hother, UInt64.toNat_or, Nat.testBit_or, Names.toNat_bit hname,
    Nat.testBit_two_pow, Bool.or_eq_true, ← Names.and_bit hother, h other hother, List.mem_cons,
    decide_eq_true_eq, or_comm]
  refine or_congr_left ⟨fun heq => (Names.index_inj hname hother heq).symm, ?_⟩
  rintro rfl
  rfl

/-! ## The extensions -/

/-- The check of an extension : the names with its own. -/
def Attribute.extend (attr : Attribute) (names : UInt64) : Except Reason UInt64 :=
  if attr.name = 109 then .error (.extension attr.offset)
  else if isScramAttribute attr.name then .error (.standardExtension attr.name attr.offset)
  else if names &&& Names.bit attr.name ≠ 0 then
    .error (.duplicateAttribute attr.name attr.offset)
  else
    match refused isValueChar attr.value with
    | some (relative, byte) => .error (.extensionValue attr.name (attr.start + relative) byte)
    | none => .ok (names ||| Names.bit attr.name)

theorem Attributes.extensionsFrom_none {attrs : Attributes} (h : attrs.next = .ok none)
    (names : UInt64) : attrs.extensionsFrom names = .ok () := by
  rw [Attributes.extensionsFrom]
  split
  · rename_i hnext
    rw [h] at hnext
    cases hnext
  · rfl
  · rename_i hnext
    rw [h] at hnext
    cases hnext

theorem Attributes.extensionsFrom_error {attrs : Attributes} {reason : Reason}
    (h : attrs.next = .error reason) (names : UInt64) :
    attrs.extensionsFrom names = .error reason := by
  rw [Attributes.extensionsFrom]
  split
  · rename_i hnext
    rw [h] at hnext
    cases hnext
    rfl
  · rename_i hnext
    rw [h] at hnext
    cases hnext
  · rename_i hnext
    rw [h] at hnext
    cases hnext

theorem Attributes.extensionsFrom_some {attrs attrs' : Attributes} {attr : Attribute}
    (h : attrs.next = .ok (some (attr, attrs'))) (names : UInt64) :
    attrs.extensionsFrom names = attr.extend names >>= attrs'.extensionsFrom := by
  rw [Attributes.extensionsFrom]
  split
  · rename_i hnext
    rw [h] at hnext
    cases hnext
  · rename_i hnext
    rw [h] at hnext
    cases hnext
  · rename_i attr₁ attrs₁ hnext
    rw [h] at hnext
    cases hnext
    unfold Attribute.extend
    split_ifs
    · rfl
    · rfl
    · rfl
    · rcases refused isValueChar attr.value with _ | ⟨relative, byte⟩
      · rfl
      · rfl

/-- What the check of an extension comes to. -/
theorem Attribute.extend_spec {input front : List UInt8} {attrs attrs' : Attributes}
    {attr : Attribute} (h : attrs.Within input front)
    (hnext : attrs.next = .ok (some (attr, attrs'))) {names : UInt64} {seen : List UInt8}
    (hseen : Names.Holds names seen)
    (hbefore : ∀ name ∈ seen, ∃ before < front.length, Begins input before name) :
    (∀ reason, attr.extend names = .error reason → reason.Designates input) ∧
    ∀ names', attr.extend names = .ok names' ↔
      attr.name ∉ reserved ∧ attr.name ∉ seen ∧ (∀ byte ∈ attr.value, ValueByte byte) ∧
        names' = names ||| Names.bit attr.name := by
  obtain ⟨hname, hvalue, hcomma, hstart, htext, -⟩ := h.next_spec.2.2 attr attrs' hnext
  obtain ⟨hbegins, hbytes⟩ := h.begins htext
  have hoffset : attr.offset = front.length := by
    rw [Attribute.offset, hstart, Nat.add_sub_cancel]
  unfold Attribute.extend
  by_cases hm : attr.name = 109
  · rw [if_pos hm]
    refine ⟨fun reason h' => ?_, fun names' => ⟨fun h' => (by cases h'), fun h' => ?_⟩⟩
    · cases h'
      change Begins input attr.offset 109
      rwa [hoffset, ← hm]
    · exact absurd (hm ▸ by decide) h'.1
  rw [if_neg hm]
  by_cases hstandard : isScramAttribute attr.name = true
  · have hmem := isScramAttribute_iff.mp hstandard
    rw [if_pos hstandard]
    refine ⟨fun reason h' => ?_, fun names' => ⟨fun h' => (by cases h'), fun h' => ?_⟩⟩
    · cases h'
      exact ⟨hoffset ▸ hbegins, hmem⟩
    · exact absurd hmem h'.1
  rw [if_neg hstandard]
  by_cases hdup : names &&& Names.bit attr.name ≠ 0
  · have hmem := (hseen attr.name hname).mp hdup
    rw [if_pos hdup]
    refine ⟨fun reason h' => ?_, fun names' => ⟨fun h' => (by cases h'), fun h' => ?_⟩⟩
    · cases h'
      exact ⟨hoffset ▸ hbegins, hoffset ▸ hbefore attr.name hmem⟩
    · exact absurd hmem h'.2.1
  rw [if_neg hdup]
  have hnew := fun hmem => hdup ((hseen attr.name hname).mpr hmem)
  have hfree := fun hmem => hstandard (isScramAttribute_iff.mpr hmem)
  rcases hrefused : refused isValueChar attr.value with _ | ⟨relative, byte⟩
  · have hall : ∀ byte ∈ attr.value, ValueByte byte := fun byte hbyte =>
      isValueChar_iff.mp (refused_eq_none.mp hrefused byte hbyte)
    refine ⟨fun reason h' => (by cases h'), fun names' => ⟨fun h' => ?_, fun h' => ?_⟩⟩
    · cases h'
      exact ⟨hfree, hnew, hall, rfl⟩
    · rw [h'.2.2.2]
  · obtain ⟨hbyte, hnot⟩ := refused_eq_some hrefused
    have hbad : ¬ValueByte byte := fun hvalue => by
      rw [isValueChar_iff.mpr hvalue] at hnot
      cases hnot
    refine ⟨fun reason h' => ?_, fun names' => ⟨fun h' => (by cases h'), fun h' => ?_⟩⟩
    · cases h'
      refine ⟨?_, hbad⟩
      rw [hstart]
      exact hbytes relative byte hbyte
    · exact absurd (h'.2.2.1 byte (List.mem_of_getElem? hbyte)) hbad

theorem extensions_nil : Extensions [] where
  nodup := List.nodup_nil
  name _ h := absurd h List.not_mem_nil
  value _ h := absurd h List.not_mem_nil

theorem extensions_cons {name : UInt8} {value : List UInt8} {attrs : List (UInt8 × List UInt8)} :
    Extensions ((name, value) :: attrs) ↔
      (isAsciiAlphabetic name = true ∧ name ∉ reserved ∧ name ∉ attrs.map Prod.fst) ∧
      (value ≠ [] ∧ ∀ byte ∈ value, ValueByte byte) ∧ Extensions attrs := by
  constructor
  · rintro ⟨hnodup, hname, hvalue⟩
    rw [List.map_cons, List.nodup_cons] at hnodup
    rw [List.forall_mem_cons] at hname hvalue
    exact ⟨⟨hname.1.1, hname.1.2, hnodup.1⟩, hvalue.1, hnodup.2, hname.2, hvalue.2⟩
  · rintro ⟨⟨hletter, hreserved, hnew⟩, hvalue, hnodup, hname, hvalues⟩
    refine ⟨?_, ?_, ?_⟩
    · rw [List.map_cons, List.nodup_cons]
      exact ⟨hnew, hnodup⟩
    · rw [List.forall_mem_cons]
      exact ⟨⟨hletter, hreserved⟩, hname⟩
    · rw [List.forall_mem_cons]
      exact ⟨hvalue, hvalues⟩

theorem comma_notMem {value : List UInt8} (h : ∀ byte ∈ value, ValueByte byte) :
    (44 : UInt8) ∉ value :=
  fun hmem => (h 44 hmem).2.2.1 rfl

/-- An attribute that the grammar has is the next one. -/
theorem Attributes.next_message (attrs : Attributes) {name : UInt8} {value : List UInt8}
    {rest : List (UInt8 × List UInt8)} (htext : attrs.text = message ((name, value) :: rest))
    (hname : isAsciiAlphabetic name = true) (hvalue : value ≠ []) (hcomma : (44 : UInt8) ∉ value) :
    ∃ attr attrs', attrs.next = .ok (some (attr, attrs')) ∧ attr.name = name ∧
      attr.value = value ∧ attrs'.text = message rest := by
  rw [message_cons] at htext
  obtain ⟨attrs', hnext, hrest, -⟩ :=
    Attributes.nextIn_separated hname hvalue hcomma (message rest) attrs.length
  rw [← htext, ← Attributes.next_eq] at hnext
  exact ⟨_, attrs', hnext, rfl, rfl, hrest⟩

/-- The loop accepts the extensions of the grammar that have other names than before. -/
theorem Attributes.Within.extensionsFrom_spec {input front : List UInt8} {attrs : Attributes}
    (h : attrs.Within input front) {names : UInt64} {seen : List UInt8}
    (hseen : Names.Holds names seen)
    (hbefore : ∀ name ∈ seen, ∃ before < front.length, Begins input before name) :
    (∀ reason, attrs.extensionsFrom names = .error reason → reason.Designates input) ∧
    (attrs.extensionsFrom names = .ok () ↔ ∃ exts, attrs.text = message exts ∧
      Extensions exts ∧ ∀ ext ∈ exts, ext.1 ∉ seen) := by
  induction hn : attrs.text.length using Nat.strong_induction_on
    generalizing front attrs names seen with
  | _ n ih =>
    subst hn
    obtain ⟨herror, hnone, hsome⟩ := h.next_spec
    rcases hnext : attrs.next with reason | _ | ⟨attr, attrs'⟩
    · rw [Attributes.extensionsFrom_error hnext]
      refine ⟨fun reason' h' => ?_, ⟨fun h' => (by cases h'), ?_⟩⟩
      · cases h'
        exact herror _ hnext
      · rintro ⟨exts, htext, hexts, -⟩
        rcases exts with _ | ⟨⟨name, value⟩, rest⟩
        · rw [hnone.mpr htext] at hnext
          cases hnext
        · obtain ⟨⟨hletter, -⟩, ⟨hvalue, hbytes⟩, -⟩ := extensions_cons.mp hexts
          obtain ⟨_, _, hread, -⟩ :=
            Attributes.next_message attrs htext hletter hvalue (comma_notMem hbytes)
          rw [hread] at hnext
          cases hnext
    · have htext := hnone.mp hnext
      rw [Attributes.extensionsFrom_none hnext]
      refine ⟨fun reason' h' => (by cases h'), ⟨fun _ => ?_, fun _ => rfl⟩⟩
      exact ⟨[], htext, extensions_nil, fun _ h => absurd h List.not_mem_nil⟩
    · obtain ⟨hname, hvalue, -, hstart, htext, front', hwithin, hfront⟩ := hsome attr attrs' hnext
      obtain ⟨hbegins, -⟩ := h.begins htext
      obtain ⟨hrefuse, haccept⟩ := Attribute.extend_spec h hnext hseen hbefore
      have hshort : attrs'.text.length < attrs.text.length := by
        rw [htext, separated]
        split_ifs with hempty
        · simp [hempty]
        · simp only [List.length_cons, List.length_append]
          omega
      have hbefore' : ∀ name ∈ attr.name :: seen,
          ∃ before < front'.length, Begins input before name := by
        rw [List.forall_mem_cons]
        refine ⟨⟨front.length, by omega, hbegins⟩, fun name hmem => ?_⟩
        obtain ⟨before, hlt, hbegin⟩ := hbefore name hmem
        exact ⟨before, by omega, hbegin⟩
      obtain ⟨herror', hok'⟩ := ih _ hshort hwithin (hseen.insert hname) hbefore' rfl
      rw [Attributes.extensionsFrom_some hnext]
      constructor
      · intro reason h'
        rcases bind_eq_error.mp h' with h' | ⟨names', hnames, h'⟩
        · exact hrefuse reason h'
        · obtain ⟨-, -, -, rfl⟩ := (haccept names').mp hnames
          exact herror' reason h'
      · rw [bind_eq_ok]
        constructor
        · rintro ⟨names', hnames, h'⟩
          obtain ⟨hfree, hnew, hbytes, rfl⟩ := (haccept names').mp hnames
          obtain ⟨rest, hrest, hexts, hothers⟩ := hok'.mp h'
          refine ⟨(attr.name, attr.value) :: rest, ?_, ?_, ?_⟩
          · rw [htext, message_cons, hrest]
          · refine extensions_cons.mpr ⟨⟨hname, hfree, fun hmem => ?_⟩, ⟨hvalue, hbytes⟩, hexts⟩
            obtain ⟨ext, hext, heq⟩ := List.mem_map.mp hmem
            exact hothers ext hext (heq ▸ List.mem_cons_self)
          · rw [List.forall_mem_cons]
            exact ⟨hnew, fun ext hext hmem => hothers ext hext (List.mem_cons_of_mem _ hmem)⟩
        · rintro ⟨exts, htext', hexts, hothers⟩
          rcases exts with _ | ⟨⟨name, value⟩, rest⟩
          · rw [hnone.mpr htext'] at hnext
            cases hnext
          · obtain ⟨⟨hletter, hfree, hother⟩, ⟨hsome', hbytes⟩, hrest⟩ := extensions_cons.mp hexts
            obtain ⟨attr₁, attrs₁, hread, rfl, rfl, htext₁⟩ :=
              Attributes.next_message attrs htext' hletter hsome' (comma_notMem hbytes)
            rw [hread] at hnext
            cases hnext
            rw [List.forall_mem_cons] at hothers
            refine ⟨_, (haccept _).mpr ⟨hfree, hothers.1, hbytes, rfl⟩, hok'.mpr ?_⟩
            refine ⟨rest, htext₁, hrest, fun ext hext hmem => ?_⟩
            rcases List.mem_cons.mp hmem with heq | hmem
            · exact hother (heq ▸ List.mem_map_of_mem hext)
            · exact hothers.2 ext hext hmem

/-! ## The count -/

theorem le_decimalFrom (value : ℕ) (digits : List UInt8) : value ≤ decimalFrom value digits := by
  induction digits generalizing value with
  | nil => exact le_rfl
  | cons digit digits ih =>
    have := ih (value * 10 + (digit.toNat - 48))
    rw [decimalFrom, List.foldl_cons]
    unfold decimalFrom at this
    omega

theorem digit_toNat {byte : UInt8} (h : 48 ≤ byte ∧ byte ≤ 57) :
    (byte - 48).toNat = byte.toNat - 48 :=
  UInt8.toNat_sub_of_le _ _ h.1

/-- The loop reads digits below 2^32, or stops at a byte of the text. -/
theorem positiveFrom_spec {input : List UInt8} {start : ℕ} {bytes : List UInt8} {relative : ℕ}
    (value : ℕ)
    (hinput : ∀ i byte, bytes[i]? = some byte → input[start + relative + i]? = some byte) :
    (∀ number, positiveFrom start bytes relative value = .error number →
      number.Designates input) ∧
    ∀ count, positiveFrom start bytes relative value = .ok count ↔
      (∀ byte ∈ bytes, 48 ≤ byte ∧ byte ≤ 57) ∧ count = decimalFrom value bytes ∧
        (bytes = [] ∨ count < 2 ^ 32) := by
  induction bytes generalizing relative value with
  | nil =>
    rw [positiveFrom]
    refine ⟨fun _ h => (by cases h), fun count => ⟨fun h => ?_, fun h => ?_⟩⟩
    · cases h
      exact ⟨fun _ h => absurd h List.not_mem_nil, rfl, .inl rfl⟩
    · rw [h.2.1]
      rfl
  | cons byte bytes ih =>
    have hat : input[start + relative]? = some byte := hinput 0 byte rfl
    rw [positiveFrom]
    by_cases hdigit : 48 ≤ byte ∧ byte ≤ 57
    swap
    · rw [if_pos hdigit]
      refine ⟨fun number h => ?_, fun count => ⟨fun h => (by cases h), fun h => ?_⟩⟩
      · cases h
        exact ⟨hat, hdigit⟩
      · exact absurd (h.1 byte List.mem_cons_self) hdigit
    rw [if_neg (not_not.mpr hdigit)]
    dsimp only
    rw [digit_toNat hdigit]
    have hfold : decimalFrom value (byte :: bytes) =
        decimalFrom (value * 10 + (byte.toNat - 48)) bytes := rfl
    have hle := le_decimalFrom (value * 10 + (byte.toNat - 48)) bytes
    by_cases hlarge : 2 ^ 32 ≤ value * 10 + (byte.toNat - 48)
    · rw [if_pos hlarge]
      refine ⟨fun number h => ?_, fun count => ⟨fun h => (by cases h), ?_⟩⟩
      · cases h
        exact ⟨hat, hdigit⟩
      · rintro ⟨-, rfl, hempty | hlt⟩
        · cases hempty
        · rw [hfold] at hlt
          omega
    · rw [if_neg hlarge]
      have hinput' : ∀ i byte', bytes[i]? = some byte' →
          input[start + (relative + 1) + i]? = some byte' := by
        intro i byte' hi
        have := hinput (i + 1) byte' hi
        rwa [show start + relative + (i + 1) = start + (relative + 1) + i by omega] at this
      obtain ⟨herror, hok⟩ := ih (value * 10 + (byte.toNat - 48)) hinput'
      refine ⟨herror, fun count => ?_⟩
      rw [hok, List.forall_mem_cons, hfold]
      constructor
      · rintro ⟨hdigits, rfl, hlt⟩
        refine ⟨⟨hdigit, hdigits⟩, rfl, .inr ?_⟩
        rcases hlt with rfl | hlt
        · change value * 10 + (byte.toNat - 48) < 2 ^ 32
          omega
        · exact hlt
      · rintro ⟨⟨-, hdigits⟩, rfl, hempty | hlt⟩
        · cases hempty
        · exact ⟨hdigits, rfl, .inr hlt⟩

/-- The counts that are read. -/
theorem positiveU32_spec {input : List UInt8} {start : ℕ} {bytes : List UInt8}
    (hinput : ∀ i byte, bytes[i]? = some byte → input[start + i]? = some byte) :
    (∀ number, positiveU32 bytes start = .error number → number.Designates input) ∧
    ∀ count, positiveU32 bytes start = .ok count ↔ IsCount bytes count := by
  rcases bytes with _ | ⟨byte, rest⟩
  · refine ⟨fun number h => ?_, fun count => ⟨fun h => (by cases h), fun h => ?_⟩⟩
    · cases h
      exact trivial
    · have hpos := h.pos
      rw [h.eq] at hpos
      cases hpos
  rw [positiveU32]
  by_cases hzero : byte = 48
  · subst hzero
    rw [if_pos rfl]
    refine ⟨fun number h => ?_, fun count => ⟨fun h => (by cases h), fun h => ?_⟩⟩
    · split_ifs at h
      · cases h
        exact trivial
      · cases h
        exact hinput 0 48 rfl
    · exact absurd rfl h.head
  rw [if_neg hzero]
  have hinput' : ∀ i b, (byte :: rest)[i]? = some b → input[start + 0 + i]? = some b := hinput
  obtain ⟨herror, hok⟩ := positiveFrom_spec 0 hinput'
  have hpos : (∀ b ∈ byte :: rest, 48 ≤ b ∧ b ≤ 57) → 0 < decimalFrom 0 (byte :: rest) := by
    intro hdigits
    have hdigit := UInt8.le_iff_toNat_le.mp (hdigits byte List.mem_cons_self).1
    have hne : byte.toNat ≠ 48 := fun h => hzero (UInt8.toNat_inj.mp h)
    have hle := le_decimalFrom (0 * 10 + (byte.toNat - 48)) rest
    change 48 ≤ byte.toNat at hdigit
    change 0 < decimalFrom (0 * 10 + (byte.toNat - 48)) rest
    omega
  constructor
  · intro number h
    rcases bind_eq_error.mp h with h | ⟨value, hvalue, h⟩
    · exact herror number h
    · obtain ⟨hdigits, rfl, -⟩ := (hok value).mp hvalue
      rw [if_neg (hpos hdigits).ne'] at h
      cases h
  · intro count
    rw [bind_eq_ok]
    constructor
    · rintro ⟨value, hvalue, h⟩
      obtain ⟨hdigits, rfl, hlt⟩ := (hok value).mp hvalue
      rw [if_neg (hpos hdigits).ne'] at h
      cases h
      refine ⟨hdigits, fun h => hzero (Option.some.inj h), hpos hdigits, ?_, rfl⟩
      rcases hlt with hempty | hlt
      · cases hempty
      · exact hlt
    · rintro ⟨hdigits, -, -, hlt, rfl⟩
      refine ⟨_, (hok _).mpr ⟨hdigits, rfl, .inr hlt⟩, ?_⟩
      exact if_neg (hpos hdigits).ne'

/-! ## The messages -/

/-- A message that `server_first` accepts, and what it gives back. -/
structure FirstMessage (bytes nonce salt digits : List UInt8) (exts : List (UInt8 × List UInt8))
    (first : ServerFirst) : Prop where
  eq : bytes = message ((114, nonce) :: (115, salt) :: (105, digits) :: exts)
  nonceBytes : nonce ≠ [] ∧ ∀ byte ∈ nonce, NonceByte byte
  saltBytes : salt ≠ [] ∧ (44 : UInt8) ∉ salt
  count : IsCount digits first.iterations
  extensions : Extensions exts
  input : first.input = bytes
  nonceRange : first.nonce = (2, 2 + nonce.length)
  saltRange : first.salt = (5 + nonce.length, 5 + nonce.length + salt.length)

/-- A message that `server_final` accepts, and what it gives back. -/
inductive FinalMessage (bytes : List UInt8) : ServerFinal → Prop
  | error {value : List UInt8} {exts : List (UInt8 × List UInt8)}
      (heq : bytes = message ((101, value) :: exts))
      (hvalue : value ≠ [] ∧ ∀ byte ∈ value, ValueByte byte) (hexts : Extensions exts) :
      FinalMessage bytes (.error (parseServerError value))
  | verifier {value : List UInt8} {exts : List (UInt8 × List UInt8)}
      (heq : bytes = message ((118, value) :: exts))
      (hvalue : value ≠ [] ∧ (44 : UInt8) ∉ value) (hexts : Extensions exts) :
      FinalMessage bytes (.verifier value)

/-- The steps of `server_first`. -/
theorem serverFirst_eq (bytes : List UInt8) : serverFirst bytes =
    (Attributes.new bytes).required 114 >>= fun nonce =>
      (((refused isNonceChar nonce.1.value).map fun item =>
        Except.error (Reason.nonceChar (nonce.1.start + item.1) item.2)).getD (.ok ())) >>= fun _ =>
      nonce.2.required 115 >>= fun salt => salt.2.required 105 >>= fun count =>
      (positiveU32 count.1.value count.1.start).mapError .iteration >>= fun iterations =>
      count.2.extensions >>= fun _ =>
      .ok ⟨bytes, (nonce.1.start, nonce.1.start + nonce.1.value.length),
        (salt.1.start, salt.1.start + salt.1.value.length), iterations⟩ := by
  unfold serverFirst
  congr 1
  funext nonce
  obtain ⟨nonce, attrs⟩ := nonce
  dsimp only
  rcases refused isNonceChar nonce.value with _ | ⟨relative, byte⟩
  · rfl
  · rfl

/-- A required attribute that was read. -/
theorem Attributes.Within.required_ok {input front : List UInt8} {attrs attrs' : Attributes}
    {attr : Attribute} {name : UInt8} (h : attrs.Within input front)
    (hread : attrs.required name = .ok (attr, attrs')) :
    attr.value ≠ [] ∧ (44 : UInt8) ∉ attr.value ∧ attr.start = front.length + 2 ∧
      attrs.text = name :: 61 :: (attr.value ++ separated attrs'.text) ∧
      (∀ i byte, attr.value[i]? = some byte → input[attr.start + i]? = some byte) ∧
      ∃ front', attrs'.Within input front' ∧
        (attrs'.text ≠ [] → front'.length = front.length + 3 + attr.value.length) := by
  obtain ⟨hnext, rfl⟩ := (h.required_cases name).2 attr attrs' hread
  obtain ⟨-, hvalue, hcomma, hstart, htext, front', hwithin, -⟩ := h.next_spec.2.2 attr attrs' hnext
  refine ⟨hvalue, hcomma, hstart, htext, ?_, front', hwithin, fun hne => ?_⟩
  · rw [hstart]
    exact (h.begins htext).2
  have hlength := congrArg List.length (h.eq.symm.trans hwithin.eq)
  rw [htext, separated, if_neg hne] at hlength
  simp only [List.length_append, List.length_cons] at hlength
  omega

/-- An attribute that the grammar has is read when it is required. -/
theorem Attributes.required_message (attrs : Attributes) {name : UInt8} {value : List UInt8}
    {rest : List (UInt8 × List UInt8)} (htext : attrs.text = message ((name, value) :: rest))
    (hname : isAsciiAlphabetic name = true) (hm : name ≠ 109) (hvalue : value ≠ [])
    (hcomma : (44 : UInt8) ∉ value) :
    ∃ attr attrs', attrs.required name = .ok (attr, attrs') ∧ attr.value = value ∧
      attrs'.text = message rest := by
  obtain ⟨attr, attrs', hnext, rfl, rfl, hrest⟩ :=
    Attributes.next_message attrs htext hname hvalue hcomma
  refine ⟨attr, attrs', ?_, rfl, hrest⟩
  rw [Attributes.required, hnext]
  change (if attr.name = 109 then _ else _) = _
  rw [if_neg hm, if_neg (fun h => h rfl)]

/-- The extensions behind the attributes of a message. -/
theorem Attributes.Within.extensions_spec {input front : List UInt8} {attrs : Attributes}
    (h : attrs.Within input front) :
    (∀ reason, attrs.extensions = .error reason → reason.Designates input) ∧
    (attrs.extensions = .ok () ↔ ∃ exts, attrs.text = message exts ∧ Extensions exts) := by
  obtain ⟨herror, hok⟩ := h.extensionsFrom_spec Names.holds_zero
    (fun _ hmem => absurd hmem List.not_mem_nil)
  refine ⟨herror, hok.trans ⟨?_, ?_⟩⟩
  · rintro ⟨exts, htext, hexts, -⟩
    exact ⟨exts, htext, hexts⟩
  · rintro ⟨exts, htext, hexts⟩
    exact ⟨exts, htext, hexts, fun _ _ => List.not_mem_nil⟩

/-- The check of the nonce's bytes. -/
theorem nonce_check {start : ℕ} {value : List UInt8} :
    (((refused isNonceChar value).map fun item =>
      Except.error (Reason.nonceChar (start + item.1) item.2)).getD (.ok ()) = .ok () ↔
        ∀ byte ∈ value, NonceByte byte) ∧
    ∀ reason, ((refused isNonceChar value).map fun item =>
      Except.error (Reason.nonceChar (start + item.1) item.2)).getD (.ok ()) = .error reason →
        ∃ i byte, value[i]? = some byte ∧ ¬NonceByte byte ∧
          reason = .nonceChar (start + i) byte := by
  rcases hrefused : refused isNonceChar value with _ | ⟨relative, byte⟩
  · refine ⟨⟨fun _ byte hbyte => ?_, fun _ => rfl⟩, fun _ h => (by cases h)⟩
    exact isNonceChar_iff.mp (refused_eq_none.mp hrefused byte hbyte)
  · obtain ⟨hbyte, hnot⟩ := refused_eq_some hrefused
    have hbad : ¬NonceByte byte := fun hvalue => by
      rw [isNonceChar_iff.mpr hvalue] at hnot
      cases hnot
    refine ⟨⟨fun h => (by cases h), fun h => ?_⟩, fun reason h => ?_⟩
    · exact absurd (h byte (List.mem_of_getElem? hbyte)) hbad
    · cases h
      exact ⟨relative, byte, hbyte, hbad, rfl⟩

/-- `server_first` accepts the messages of the grammar. -/
theorem serverFirst_eq_ok {bytes : List UInt8} {first : ServerFirst} :
    serverFirst bytes = .ok first ↔
      ∃ nonce salt digits exts, FirstMessage bytes nonce salt digits exts first := by
  have hnew := Attributes.new_within bytes
  rw [serverFirst_eq, bind_eq_ok]
  constructor
  · rintro ⟨⟨nonce, attrs₁⟩, hnonce, h⟩
    obtain ⟨hvalue, hcomma, hstart, htext, -, front₁, hwithin₁, hlength₁⟩ :=
      hnew.required_ok hnonce
    obtain ⟨_, hchars, h⟩ := bind_eq_ok.mp h
    obtain ⟨⟨salt, attrs₂⟩, hsalt, h⟩ := bind_eq_ok.mp h
    obtain ⟨hvalue₁, hcomma₁, hstart₁, htext₁, -, front₂, hwithin₂, hlength₂⟩ :=
      hwithin₁.required_ok hsalt
    obtain ⟨⟨count, attrs₃⟩, hcount, h⟩ := bind_eq_ok.mp h
    obtain ⟨hvalue₂, hcomma₂, hstart₂, htext₂, hbytes, front₃, hwithin₃, -⟩ :=
      hwithin₂.required_ok hcount
    obtain ⟨iterations, hiterations, h⟩ := bind_eq_ok.mp h
    obtain ⟨_, hend, h⟩ := bind_eq_ok.mp h
    obtain ⟨exts, htext₃, hexts⟩ := hwithin₃.extensions_spec.2.mp hend
    have hfront₁ := hlength₁ (htext₁ ▸ List.cons_ne_nil _ _)
    rw [htext₃, ← message_cons] at htext₂
    rw [htext₂, ← message_cons] at htext₁
    rw [htext₁, ← message_cons] at htext
    rw [List.length_nil] at hstart hfront₁
    cases h
    refine ⟨nonce.value, salt.value, count.value, exts, htext, ⟨hvalue, nonce_check.1.mp hchars⟩,
      ⟨hvalue₁, hcomma₁⟩, ?_, hexts, rfl, ?_, ?_⟩
    · exact ((positiveU32_spec hbytes).2 iterations).mp (mapError_eq_ok.mp hiterations)
    · dsimp only
      rw [hstart, Nat.zero_add]
    · dsimp only
      rw [hstart₁, hfront₁, show 0 + 3 + nonce.value.length + 2 = 5 + nonce.value.length by omega]
  · rintro ⟨nonce, salt, digits, exts, h⟩
    have hnonceComma : (44 : UInt8) ∉ nonce := fun hmem => (h.nonceBytes.2 44 hmem).2.2 rfl
    have hdigits : digits ≠ [] := by
      rintro rfl
      have hpos := h.count.pos
      rw [h.count.eq] at hpos
      cases hpos
    have hdigitComma : (44 : UInt8) ∉ digits := fun hmem =>
      absurd (h.count.digit 44 hmem).1 (by decide)
    obtain ⟨attr, attrs₁, hread, rfl, htext₁⟩ :=
      Attributes.required_message (Attributes.new bytes) h.eq (by decide) (by decide)
        h.nonceBytes.1 hnonceComma
    obtain ⟨-, -, hstart, -, -, front₁, hwithin₁, hlength₁⟩ := hnew.required_ok hread
    obtain ⟨attr₁, attrs₂, hread₁, rfl, htext₂⟩ :=
      Attributes.required_message attrs₁ htext₁ (by decide) (by decide) h.saltBytes.1 h.saltBytes.2
    obtain ⟨-, -, hstart₁, -, -, front₂, hwithin₂, -⟩ := hwithin₁.required_ok hread₁
    obtain ⟨attr₂, attrs₃, hread₂, rfl, htext₃⟩ :=
      Attributes.required_message attrs₂ htext₂ (by decide) (by decide) hdigits hdigitComma
    obtain ⟨-, -, -, -, hbytes, front₃, hwithin₃, -⟩ := hwithin₂.required_ok hread₂
    have hfront₁ := hlength₁ (by
      rw [htext₁, Ne, message_eq_nil]
      exact List.cons_ne_nil _ _)
    have hcount := ((positiveU32_spec hbytes).2 first.iterations).mpr h.count
    have hend := hwithin₃.extensions_spec.2.mpr ⟨exts, htext₃, h.extensions⟩
    refine ⟨_, hread, bind_eq_ok.mpr ⟨(), nonce_check.1.mpr h.nonceBytes.2, ?_⟩⟩
    refine bind_eq_ok.mpr ⟨_, hread₁, bind_eq_ok.mpr ⟨_, hread₂, ?_⟩⟩
    refine bind_eq_ok.mpr ⟨_, mapError_eq_ok.mpr hcount, bind_eq_ok.mpr ⟨(), hend, ?_⟩⟩
    obtain ⟨input, nonce', salt', iterations⟩ := first
    obtain ⟨-, -, -, -, -, rfl, rfl, rfl⟩ := h
    rw [List.length_nil] at hstart hfront₁
    dsimp only
    rw [hstart, hstart₁, hfront₁, Nat.zero_add,
      show 0 + 3 + attr.value.length + 2 = 5 + attr.value.length by omega]

/-- The errors of `server_first` designate places of the message. -/
theorem serverFirst_eq_error {bytes : List UInt8} {reason : Reason}
    (h : serverFirst bytes = .error reason) : reason.Designates bytes := by
  have hnew := Attributes.new_within bytes
  rw [serverFirst_eq] at h
  rcases bind_eq_error.mp h with h | ⟨⟨nonce, attrs₁⟩, hnonce, h⟩
  · exact (hnew.required_cases 114).1 reason h
  obtain ⟨-, -, -, -, hplace, front₁, hwithin₁, -⟩ := hnew.required_ok hnonce
  rcases bind_eq_error.mp h with h | ⟨_, -, h⟩
  · obtain ⟨i, byte, hbyte, hbad, rfl⟩ := nonce_check.2 reason h
    exact ⟨hplace i byte hbyte, hbad⟩
  rcases bind_eq_error.mp h with h | ⟨⟨salt, attrs₂⟩, hsalt, h⟩
  · exact (hwithin₁.required_cases 115).1 reason h
  obtain ⟨-, -, -, -, -, front₂, hwithin₂, -⟩ := hwithin₁.required_ok hsalt
  rcases bind_eq_error.mp h with h | ⟨⟨count, attrs₃⟩, hcount, h⟩
  · exact (hwithin₂.required_cases 105).1 reason h
  obtain ⟨-, -, -, -, hbytes, front₃, hwithin₃, -⟩ := hwithin₂.required_ok hcount
  rcases bind_eq_error.mp h with h | ⟨iterations, -, h⟩
  · obtain ⟨number, hnumber, rfl⟩ := mapError_eq_error.mp h
    exact (positiveU32_spec hbytes).1 number hnumber
  rcases bind_eq_error.mp h with h | ⟨_, -, h⟩
  · exact hwithin₃.extensions_spec.1 reason h
  · cases h

/-- The steps of `server_final`. -/
theorem serverFinal_eq (bytes : List UInt8) : serverFinal bytes =
    (Attributes.new bytes).next >>= fun read =>
      match read with
      | none => .error .missingResult
      | some (attr, attrs) =>
        if attr.name = 109 then .error (.extension attr.offset)
        else finalResult attr >>= fun result => attrs.extensions >>= fun _ => .ok result := rfl

/-- What the first attribute of a server-final message comes to. -/
theorem finalResult_spec {input : List UInt8} {attr : Attribute}
    (hplace : ∀ i byte, attr.value[i]? = some byte → input[attr.start + i]? = some byte) :
    (∀ reason, finalResult attr = .error reason → reason.Designates input) ∧
    ∀ result, finalResult attr = .ok result ↔
      attr.name = 101 ∧ (∀ byte ∈ attr.value, ValueByte byte) ∧
        result = .error (parseServerError attr.value) ∨
      attr.name = 118 ∧ result = .verifier attr.value := by
  unfold finalResult
  by_cases herror : attr.name = 101
  · have hother : attr.name ≠ 118 := by
      rw [herror]
      decide
    rw [if_pos herror]
    rcases hrefused : refused isValueChar attr.value with _ | ⟨relative, byte⟩
    · have hall : ∀ byte ∈ attr.value, ValueByte byte := fun byte hbyte =>
        isValueChar_iff.mp (refused_eq_none.mp hrefused byte hbyte)
      refine ⟨fun _ h => (by cases h), fun result => ⟨fun h => ?_, ?_⟩⟩
      · cases h
        exact .inl ⟨herror, hall, rfl⟩
      · rintro (⟨-, -, rfl⟩ | ⟨h, -⟩)
        · rfl
        · exact absurd h hother
    · obtain ⟨hbyte, hnot⟩ := refused_eq_some hrefused
      have hbad : ¬ValueByte byte := fun hvalue => by
        rw [isValueChar_iff.mpr hvalue] at hnot
        cases hnot
      refine ⟨fun reason h => ?_, fun result => ⟨fun h => (by cases h), ?_⟩⟩
      · cases h
        exact ⟨hplace relative byte hbyte, hbad⟩
      · rintro (⟨-, hall, -⟩ | ⟨h, -⟩)
        · exact absurd (hall byte (List.mem_of_getElem? hbyte)) hbad
        · exact absurd h hother
  · rw [if_neg herror]
    by_cases hverifier : attr.name = 118
    · rw [if_pos hverifier]
      refine ⟨fun _ h => (by cases h), fun result => ⟨fun h => ?_, ?_⟩⟩
      · cases h
        exact .inr ⟨hverifier, rfl⟩
      · rintro (⟨h, -⟩ | ⟨-, rfl⟩)
        · exact absurd h herror
        · rfl
    · rw [if_neg hverifier]
      refine ⟨fun reason h => ?_, fun result => ⟨fun h => (by cases h), ?_⟩⟩
      · cases h
        exact trivial
      · rintro (⟨h, -⟩ | ⟨h, -⟩)
        · exact absurd h herror
        · exact absurd h hverifier

/-- What `server_final` comes to. -/
theorem serverFinal_spec (bytes : List UInt8) :
    (∀ final, serverFinal bytes = .ok final ↔ FinalMessage bytes final) ∧
    ∀ reason, serverFinal bytes = .error reason → reason.Designates bytes := by
  have hnew := Attributes.new_within bytes
  obtain ⟨herror, hnone, hsome⟩ := hnew.next_spec
  have hfinal : ∀ final, FinalMessage bytes final → ∃ attr attrs' exts,
      (Attributes.new bytes).next = .ok (some (attr, attrs')) ∧ attr.name ≠ 109 ∧
        (attr.name = 101 ∧ (∀ byte ∈ attr.value, ValueByte byte) ∧
          final = .error (parseServerError attr.value) ∨
        attr.name = 118 ∧ final = .verifier attr.value) ∧
        attrs'.text = message exts ∧ Extensions exts := by
    rintro final (⟨heq, ⟨hvalue, hall⟩, hexts⟩ | ⟨heq, ⟨hvalue, hcomma⟩, hexts⟩)
    · obtain ⟨attr, attrs', hnext, hname, rfl, htext⟩ :=
        Attributes.next_message (Attributes.new bytes) heq (by decide) hvalue (comma_notMem hall)
      exact ⟨attr, attrs', _, hnext, hname ▸ by decide, .inl ⟨hname, hall, rfl⟩, htext, hexts⟩
    · obtain ⟨attr, attrs', hnext, hname, rfl, htext⟩ :=
        Attributes.next_message (Attributes.new bytes) heq (by decide) hvalue hcomma
      exact ⟨attr, attrs', _, hnext, hname ▸ by decide, .inr ⟨hname, rfl⟩, htext, hexts⟩
  rw [serverFinal_eq]
  rcases hnext : (Attributes.new bytes).next with reason | _ | ⟨attr, attrs'⟩
  · refine ⟨fun final => ⟨fun h => (by cases h), fun h => ?_⟩, fun reason' h => ?_⟩
    · obtain ⟨_, _, _, hnext', -⟩ := hfinal final h
      rw [hnext] at hnext'
      cases hnext'
    · cases h
      exact herror _ hnext
  · refine ⟨fun final => ⟨fun h => (by cases h), fun h => ?_⟩, fun reason' h => ?_⟩
    · obtain ⟨_, _, _, hnext', -⟩ := hfinal final h
      rw [hnext] at hnext'
      cases hnext'
    · cases h
      exact trivial
  · obtain ⟨-, hvalue, hcomma, hstart, htext, front', hwithin, -⟩ := hsome attr attrs' hnext
    obtain ⟨hbegins, hplace⟩ := hnew.begins htext
    rw [← hstart] at hplace
    obtain ⟨hrefuse, haccept⟩ := finalResult_spec hplace
    obtain ⟨hbad, hend⟩ := hwithin.extensions_spec
    have hone : ∀ final, FinalMessage bytes final → attr.name ≠ 109 ∧
        finalResult attr = .ok final ∧ attrs'.extensions = .ok () := by
      intro final h
      obtain ⟨attr₁, attrs₁, exts, hnext', hm, hresult, htext', hexts⟩ := hfinal final h
      rw [hnext] at hnext'
      cases hnext'
      exact ⟨hm, (haccept final).mpr hresult, hend.mpr ⟨exts, htext', hexts⟩⟩
    change (∀ final, (if attr.name = 109 then _ else _) = _ ↔ _) ∧
      ∀ reason, (if attr.name = 109 then _ else _) = _ → _
    by_cases hm : attr.name = 109
    · rw [if_pos hm]
      refine ⟨fun final => ⟨fun h => (by cases h), fun h => absurd hm (hone final h).1⟩,
        fun reason h => ?_⟩
      cases h
      change Begins bytes attr.offset 109
      rwa [Attribute.offset, hstart, Nat.add_sub_cancel, ← hm]
    rw [if_neg hm]
    constructor
    · intro final
      rw [bind_eq_ok]
      constructor
      · rintro ⟨result, hresult, h⟩
        obtain ⟨_, hok, h⟩ := bind_eq_ok.mp h
        cases h
        obtain ⟨exts, htext', hexts⟩ := hend.mp hok
        rw [htext', ← message_cons] at htext
        rcases (haccept final).mp hresult with ⟨hname, hall, rfl⟩ | ⟨hname, rfl⟩
        · rw [hname] at htext
          exact .error htext ⟨hvalue, hall⟩ hexts
        · rw [hname] at htext
          exact .verifier htext ⟨hvalue, hcomma⟩ hexts
      · intro h
        obtain ⟨-, hresult, hok⟩ := hone final h
        exact ⟨final, hresult, bind_eq_ok.mpr ⟨(), hok, rfl⟩⟩
    · intro reason h
      rcases bind_eq_error.mp h with h | ⟨result, -, h⟩
      · exact hrefuse reason h
      rcases bind_eq_error.mp h with h | ⟨_, -, h⟩
      · exact hbad reason h
      · cases h

end Cartel.Pg.Scram
