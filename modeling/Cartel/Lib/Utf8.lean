import Mathlib.Data.PNat.Basic

/-!
# UTF-8

A text is checked character by character, and what is reported is where the first character
is missing and how many bytes are wrong there (`utf8Error`). Nothing is reported exactly for
the encodings of texts (`utf8Error_eq_none`).
-/

namespace Cartel.Lib

/-- The bytes of a text. -/
def encodeUtf8 (text : List Char) : List UInt8 :=
  text.flatMap String.utf8EncodeChar

/-- The character that bytes begin with. -/
def decodeChar (bytes : List UInt8) : Option Char :=
  bytes.toByteArray.utf8DecodeChar? 0

/-- The bytes that may be second, by the first. -/
def secondBytes (first' : UInt8) : UInt8 × UInt8 :=
  if first' = 0xe0 then (0xa0, 0xbf)
  else if first' = 0xed then (0x80, 0x9f)
  else if first' = 0xf0 then (0x90, 0xbf)
  else if first' = 0xf4 then (0x80, 0x8f)
  else (0x80, 0xbf)

/-- Where no character begins : the number of bytes that are wrong, or nothing if the text ends
too early. -/
def errorLength : List UInt8 → Option ℕ
  | [] => none
  | [a] => if 0xc2 ≤ a ∧ a ≤ 0xf4 then none else some 1
  | a :: b :: rest =>
    if ¬(0xc2 ≤ a ∧ a ≤ 0xf4 ∧ (secondBytes a).1 ≤ b ∧ b ≤ (secondBytes a).2) then some 1
    else
      match rest with
      | [] => none
      | c :: rest => if ¬(0x80 ≤ c ∧ c ≤ 0xbf) then some 2 else if rest = [] then none else some 3

/-- The first error behind `offset` bytes, found in `fuel` characters at most. -/
def utf8From : ℕ → ℕ → List UInt8 → Option (ℕ × Option ℕ)
  | _, _, [] => none
  | 0, offset, bytes => some (offset, errorLength bytes)
  | fuel + 1, offset, bytes =>
    match decodeChar bytes with
    | some ch => utf8From fuel (offset + ch.utf8Size) (bytes.drop ch.utf8Size)
    | none => some (offset, errorLength bytes)

/-- `str::from_utf8` : where a text is wrong, and how many bytes are. -/
def utf8Error (bytes : List UInt8) : Option (ℕ × Option ℕ) :=
  utf8From bytes.length 0 bytes

variable {bytes rest : List UInt8} {ch : Char} {fuel offset : ℕ}

theorem decodeChar_append : decodeChar (String.utf8EncodeChar ch ++ rest) = some ch := by
  unfold decodeChar
  rw [List.toByteArray_append]
  exact ByteArray.utf8DecodeChar?_utf8EncodeChar_append

theorem decodeChar_eq_some (h : decodeChar bytes = some ch) :
    bytes = String.utf8EncodeChar ch ++ bytes.drop ch.utf8Size := by
  obtain ⟨tail, htail⟩ := ByteArray.exists_of_utf8DecodeChar?_eq_some h
  have hbytes : bytes = String.utf8EncodeChar ch ++ tail.data.toList := by
    have hdata := congrArg (·.data.toList) htail
    simpa using hdata
  conv_lhs => rw [hbytes]
  rw [hbytes, ← String.length_utf8EncodeChar, List.drop_left]

theorem utf8From_encode : ∀ {fuel : ℕ} (text : List Char) (offset : ℕ),
    (encodeUtf8 text).length ≤ fuel → utf8From fuel offset (encodeUtf8 text) = none
  | _, [], _, _ => by
    rw [encodeUtf8, List.flatMap_nil, utf8From]
  | fuel, ch :: text, offset, hfuel => by
    have hpos := ch.utf8Size_pos
    rw [encodeUtf8, List.flatMap_cons] at *
    rw [List.length_append, String.length_utf8EncodeChar] at hfuel
    obtain ⟨fuel, rfl⟩ : ∃ n, fuel = n + 1 := ⟨fuel - 1, by omega⟩
    have hlength : (String.utf8EncodeChar ch).length = ch.utf8Size := String.length_utf8EncodeChar _
    rcases hcons : String.utf8EncodeChar ch ++ text.flatMap String.utf8EncodeChar with - | ⟨a, l⟩
    · rw [utf8From]
    · rw [utf8From, ← hcons, decodeChar_append]
      · dsimp only
        rw [← hlength, List.drop_left]
        exact utf8From_encode text _ (by unfold encodeUtf8; omega)
      · exact nofun

theorem utf8From_eq_none : ∀ {fuel offset : ℕ} {bytes : List UInt8},
    utf8From fuel offset bytes = none → ∃ text, bytes = encodeUtf8 text
  | _, _, [], _ => ⟨[], rfl⟩
  | 0, _, _ :: _, h => nomatch h
  | fuel + 1, offset, a :: bytes, h => by
    rw [utf8From] at h
    · rcases hdecode : decodeChar (a :: bytes) with - | ch
      · rw [hdecode] at h
        cases h
      · rw [hdecode] at h
        obtain ⟨text, htext⟩ := utf8From_eq_none h
        refine ⟨ch :: text, (decodeChar_eq_some hdecode).trans ?_⟩
        rw [htext]
        rfl
    · exact nofun

/-- What is accepted are the encodings of texts. -/
theorem utf8Error_eq_none : utf8Error bytes = none ↔ ∃ text, bytes = encodeUtf8 text := by
  constructor
  · exact utf8From_eq_none
  · rintro ⟨text, rfl⟩
    exact utf8From_encode text 0 le_rfl

end Cartel.Lib
