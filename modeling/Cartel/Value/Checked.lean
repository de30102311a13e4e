import Cartel.Value.Decode

/-!
# Rows that are read again without checks

A row that was validated for a description of its fields is kept, and read later by a cursor
that checks nothing : a word is at its place behind the length, which is not looked at, and a
text has the length that is in front of it. A read behind the bytes of the row, a text with
a length that is negative or too short, and a text that is not UTF-8 have no result.

What is validated are the rows of values (`Fields.wire`), for the checked readers of `decode`
as well as for the cursor, so both have the same value.
-/

namespace Cartel.Pg.Value

open Cartel.Lib Reply

/-! ## Descriptions -/

/-- `checked::Fields` : the types it is there for. -/
inductive Fields where
  | bool
  | int32
  | int64
  | text
  | jsonb
  | single (a : Fields)
  | pair (a b : Fields)
  deriving DecidableEq

namespace Fields

/-- `schema::Row::View`. -/
@[reducible] def View : Fields → Type
  | bool => Bool
  | int32 => BitVec 32
  | int64 => BitVec 64
  | text => List UInt8
  | jsonb => List UInt8
  | single a => a.View × Unit
  | pair a b => a.View × b.View

/-- `schema::Row::decode`. -/
def decode : (T : Fields) → RowReader → Except Reason (T.View × RowReader)
  | bool, reader => reader.readBool
  | int32, reader => reader.readI32
  | int64, reader => reader.readI64
  | text, reader => reader.readText
  | jsonb, reader => reader.readJson
  | single a, reader => do
    let (value, reader) ← a.decode reader
    return ((value, ()), reader)
  | pair a b, reader => do
    let (first', reader) ← a.decode reader
    let (second, reader) ← b.decode reader
    return ((first', second), reader)

end Fields

/-! ## The cursor -/

/-- `Cursor::fixed` : the bytes of the payload, and those behind it. -/
def Cursor.fixed (width : ℕ) (bytes : List UInt8) : Option (List UInt8 × List UInt8) :=
  if 4 + width ≤ bytes.length then some ((bytes.drop 4).take width, bytes.drop (4 + width))
  else none

/-- `Cursor::text`, with a count of bytes left out in front. -/
def Cursor.text (leave : ℕ) (bytes : List UInt8) : Option (List UInt8 × List UInt8) :=
  if 4 ≤ bytes.length then
    let length := (fromBytes 32 (bytes.take 4)).toInt
    if leave ≤ length ∧ 4 + length ≤ bytes.length then
      let text := (bytes.take (4 + length.toNat)).drop (4 + leave)
      if (utf8Error text).isNone then some (text, bytes.drop (4 + length.toNat)) else none
    else none
  else none

/-- `checked::Fields::read`. -/
def Fields.read : (T : Fields) → List UInt8 → Option (T.View × List UInt8)
  | bool, cursor => (Cursor.fixed 1 cursor).map fun read => (read.1.headD 0 != 0, read.2)
  | int32, cursor => (Cursor.fixed 4 cursor).map fun read => (fromBytes 32 read.1, read.2)
  | int64, cursor => (Cursor.fixed 8 cursor).map fun read => (fromBytes 64 read.1, read.2)
  | text, cursor => Cursor.text 0 cursor
  | jsonb, cursor => Cursor.text 1 cursor
  | single a, cursor => do
    let (value, cursor) ← a.read cursor
    return ((value, ()), cursor)
  | pair a b, cursor => do
    let (first', cursor) ← a.read cursor
    let (second, cursor) ← b.read cursor
    return ((first', second), cursor)

/-- `Row::validate`. -/
def Row.validate (T : Fields) (bytes : List UInt8) (columns : ℕ) : Except Reason Unit := do
  let reader ← RowReader.new bytes columns
  let (_, reader) ← T.decode reader
  reader.finish

/-- `Row::read`, and the bytes behind the row. -/
def Row.read (T : Fields) (bytes : List UInt8) : Option (T.View × List UInt8) :=
  if 2 ≤ bytes.length then T.read (bytes.drop 2) else none

/-! ## Rows of values -/

namespace Fields

/-- The number of columns. -/
def columns : Fields → ℕ
  | bool | int32 | int64 | text | jsonb => 1
  | single a => a.columns
  | pair a b => a.columns + b.columns

/-- The bytes of a value. -/
def wire : (T : Fields) → T.View → List UInt8
  | bool, value => Value.wire [if (show Bool from value) then 1 else 0]
  | int32, value => Value.wire (toBytes (show BitVec 32 from value))
  | int64, value => Value.wire (toBytes (show BitVec 64 from value))
  | text, value => Value.wire value
  | jsonb, value => Value.wire (1 :: (show List UInt8 from value))
  | single a, value => a.wire value.1
  | pair a b, value => a.wire value.1 ++ b.wire value.2

/-- The texts of a value are UTF-8 and not too long. -/
def Valid : (T : Fields) → T.View → Prop
  | bool, _ | int32, _ | int64, _ => True
  | text, value => (∃ text, value = encodeUtf8 text) ∧ List.length value < 2 ^ 31
  | jsonb, value => (∃ text, value = encodeUtf8 text) ∧ List.length value + 1 < 2 ^ 31
  | single a, value => a.Valid value.1
  | pair a b, value => a.Valid value.1 ∧ b.Valid value.2

variable {reader reader' : RowReader}

/-- What the readers accept. -/
theorem decode_eq_ok : ∀ {T : Fields} {reader reader' : RowReader} {view : T.View},
    T.decode reader = .ok (view, reader') ↔ T.Valid view ∧
      reader.start + T.columns ≤ reader.stop ∧ reader.buf = T.wire view ++ reader'.buf ∧
        reader'.start = reader.start + T.columns ∧ reader'.stop = reader.stop := by
  intro T
  induction T with
  | bool =>
    intro reader reader' view
    rw [decode, RowReader.readBool, RowReader.required_eq_ok]
    constructor
    · rintro ⟨payload, hcolumns, -, hvalue, hbuf, hstart, hstop⟩
      rw [readBool_eq_ok.mp hvalue] at hbuf
      exact ⟨trivial, hcolumns, hbuf, hstart, hstop⟩
    · rintro ⟨-, hcolumns, hbuf, hstart, hstop⟩
      exact ⟨_, hcolumns, by simp, readBool_eq_ok.mpr rfl, hbuf, hstart, hstop⟩
  | int32 =>
    intro reader reader' view
    rw [decode, RowReader.readI32, RowReader.required_eq_ok]
    constructor
    · rintro ⟨payload, hcolumns, -, hvalue, hbuf, hstart, hstop⟩
      rw [(word_eq_ok (by decide)).mp hvalue] at hbuf
      exact ⟨trivial, hcolumns, hbuf, hstart, hstop⟩
    · rintro ⟨-, hcolumns, hbuf, hstart, hstop⟩
      exact ⟨_, hcolumns, by simp, (word_eq_ok (by decide)).mpr rfl, hbuf, hstart, hstop⟩
  | int64 =>
    intro reader reader' view
    rw [decode, RowReader.readI64, RowReader.required_eq_ok]
    constructor
    · rintro ⟨payload, hcolumns, -, hvalue, hbuf, hstart, hstop⟩
      rw [(word_eq_ok (by decide)).mp hvalue] at hbuf
      exact ⟨trivial, hcolumns, hbuf, hstart, hstop⟩
    · rintro ⟨-, hcolumns, hbuf, hstart, hstop⟩
      exact ⟨_, hcolumns, by simp, (word_eq_ok (by decide)).mpr rfl, hbuf, hstart, hstop⟩
  | text =>
    intro reader reader' view
    rw [decode, RowReader.readText, RowReader.required_eq_ok]
    constructor
    · rintro ⟨payload, hcolumns, hlt, hvalue, hbuf, hstart, hstop⟩
      obtain ⟨htext, rfl⟩ := text_eq_ok.mp hvalue
      exact ⟨⟨htext, hlt⟩, hcolumns, hbuf, hstart, hstop⟩
    · rintro ⟨⟨htext, hlt⟩, hcolumns, hbuf, hstart, hstop⟩
      exact ⟨_, hcolumns, hlt, text_eq_ok.mpr ⟨htext, rfl⟩, hbuf, hstart, hstop⟩
  | jsonb =>
    intro reader reader' view
    rw [decode, RowReader.readJson, RowReader.required_eq_ok]
    constructor
    · rintro ⟨payload, hcolumns, hlt, hvalue, hbuf, hstart, hstop⟩
      obtain ⟨htext, rfl⟩ := json_eq_ok.mp hvalue
      exact ⟨⟨htext, hlt⟩, hcolumns, hbuf, hstart, hstop⟩
    · rintro ⟨⟨htext, hlt⟩, hcolumns, hbuf, hstart, hstop⟩
      exact ⟨1 :: view, hcolumns, hlt, json_eq_ok.mpr ⟨htext, rfl⟩, hbuf, hstart, hstop⟩
  | single a ih =>
    intro reader reader' view
    rw [decode, bind_eq_ok]
    constructor
    · rintro ⟨⟨value, behind⟩, hvalue, h⟩
      cases h
      exact ih.mp hvalue
    · intro h
      exact ⟨(view.1, reader'), ih.mpr h, rfl⟩
  | pair a b iha ihb =>
    intro reader reader' view
    rw [decode, bind_eq_ok]
    constructor
    · rintro ⟨⟨first', middle⟩, hfirst, h⟩
      obtain ⟨⟨second, behind⟩, hsecond, h⟩ := bind_eq_ok.mp h
      cases h
      obtain ⟨hvalid, hle, hbuf, hstart, hstop⟩ := iha.mp hfirst
      obtain ⟨hvalid', hle', hbuf', hstart', hstop'⟩ := ihb.mp hsecond
      rw [columns]
      refine ⟨⟨hvalid, hvalid'⟩, by omega, ?_, by omega, hstop'.trans hstop⟩
      rw [hbuf, hbuf', wire, List.append_assoc]
    · rintro ⟨⟨hvalid, hvalid'⟩, hle, hbuf, hstart, hstop⟩
      rw [columns] at hle hstart
      rw [wire, List.append_assoc] at hbuf
      have hfirst : a.decode reader = .ok (view.1, ⟨b.wire view.2 ++ reader'.buf,
          reader.start + a.columns, reader.stop⟩) :=
        iha.mpr ⟨hvalid, by omega, hbuf, rfl, rfl⟩
      refine ⟨_, hfirst, bind_eq_ok.mpr ⟨(view.2, reader'), ihb.mpr ⟨hvalid', ?_⟩, rfl⟩⟩
      exact ⟨by dsimp only; omega, rfl, by dsimp only; omega, hstop⟩

end Fields

/-! ## The cursor on rows of values -/

theorem Cursor.fixed_wire {payload rest : List UInt8} :
    Cursor.fixed payload.length (Value.wire payload ++ rest) = some (payload, rest) := by
  have hdrop : (Value.wire payload ++ rest).drop 4 = payload ++ rest := by
    rw [Value.wire, List.append_assoc]
    exact List.drop_left' (length_toBytes _)
  unfold Cursor.fixed
  rw [List.length_append, length_wire, if_pos (by omega), ← List.drop_drop, hdrop, List.take_left,
    List.drop_left]

theorem Cursor.text_wire {leave payload rest : List UInt8}
    (hlt : (leave ++ payload).length < 2 ^ 31) (h : ∃ text, payload = encodeUtf8 text) :
    Cursor.text leave.length (Value.wire (leave ++ payload) ++ rest) = some (payload, rest) := by
  have hlength := @List.length_append _ leave payload
  have hhead : (Value.wire (leave ++ payload) ++ rest).take 4 =
      toBytes (BitVec.ofNat 32 (leave ++ payload).length) := by
    rw [Value.wire, List.append_assoc]
    exact List.take_left' (length_toBytes _)
  have hint : (BitVec.ofNat 32 (leave ++ payload).length).toInt = (leave ++ payload).length := by
    rw [BitVec.toInt_eq_toNat_of_lt, BitVec.toNat_ofNat, Nat.mod_eq_of_lt (by omega)]
    rw [BitVec.toNat_ofNat, Nat.mod_eq_of_lt (by omega)]
    omega
  have htake : (Value.wire (leave ++ payload) ++ rest).take (4 + (leave ++ payload).length) =
      Value.wire (leave ++ payload) := List.take_left' (length_wire _)
  have hbehind : (Value.wire (leave ++ payload)).drop 4 = leave ++ payload :=
    List.drop_left' (length_toBytes _)
  have hdrop : (Value.wire (leave ++ payload)).drop (4 + leave.length) = payload := by
    rw [← List.drop_drop, hbehind, List.drop_left]
  unfold Cursor.text
  rw [if_pos (by rw [List.length_append, length_wire]; omega), hhead,
    fromBytes_toBytes (by decide)]
  dsimp only
  rw [hint, Int.toNat_natCast, htake, hdrop, utf8Error_eq_none.mpr h, List.drop_left' (length_wire _),
    if_pos (by rw [@List.length_append _ _ rest, length_wire]; omega)]
  rfl

/-- The cursor reads the values. -/
theorem Fields.read_wire : ∀ {T : Fields} {view : T.View} {rest : List UInt8}, T.Valid view →
    T.read (T.wire view ++ rest) = some (view, rest) := by
  intro T
  induction T with
  | bool =>
    intro view rest _
    have hfixed := @Cursor.fixed_wire [if (show Bool from view) then 1 else 0] rest
    rw [read, wire]
    change (Cursor.fixed 1 _).map _ = _
    rw [show (1 : ℕ) = [if (show Bool from view) then (1 : UInt8) else 0].length from rfl, hfixed]
    cases view <;> rfl
  | int32 =>
    intro view rest _
    have hfixed := @Cursor.fixed_wire (toBytes (show BitVec 32 from view)) rest
    rw [length_toBytes] at hfixed
    rw [read, wire, hfixed, Option.map_some, fromBytes_toBytes (by decide)]
  | int64 =>
    intro view rest _
    have hfixed := @Cursor.fixed_wire (toBytes (show BitVec 64 from view)) rest
    rw [length_toBytes] at hfixed
    rw [read, wire, hfixed, Option.map_some, fromBytes_toBytes (by decide)]
  | text =>
    intro view rest h
    exact @Cursor.text_wire [] view rest h.2 h.1
  | jsonb =>
    intro view rest h
    exact @Cursor.text_wire [1] view rest h.2 h.1
  | single a ih =>
    intro view rest h
    rw [read, wire, ih h]
    rfl
  | pair a b iha ihb =>
    intro view rest h
    rw [read, wire, List.append_assoc, iha h.1]
    change (do
      let (second, cursor) ← b.read (b.wire view.2 ++ rest)
      return ((view.1, second), cursor)) = _
    rw [ihb h.2]
    rfl

/-! ## Validated rows -/

variable {T : Fields} {bytes : List UInt8} {columns : ℕ}

/-- The rows the checked readers read to their end are those of values. -/
theorem Fields.decoded_iff {view : T.View} :
    (∃ reader behind, RowReader.new bytes columns = .ok reader ∧
      T.decode reader = .ok (view, behind) ∧ behind.finish = .ok ()) ↔
    T.Valid view ∧ columns = T.columns ∧ columns < 2 ^ 15 ∧
      bytes = toBytes (BitVec.ofNat 16 columns) ++ T.wire view := by
  constructor
  · rintro ⟨reader, behind, hnew, hdecode, hfinish⟩
    obtain ⟨hlt, hbytes, hstart, hstop⟩ := RowReader.new_eq_ok.mp hnew
    obtain ⟨hvalid, hle, hbuf, hstart', hstop'⟩ := Fields.decode_eq_ok.mp hdecode
    obtain ⟨hread, hend⟩ := RowReader.finish_eq_ok.mp hfinish
    rw [hend, List.append_nil] at hbuf
    exact ⟨hvalid, by omega, hlt, hbuf ▸ hbytes⟩
  · rintro ⟨hvalid, hcolumns, hlt, hbytes⟩
    refine ⟨⟨T.wire view, 0, columns⟩, ⟨[], T.columns, columns⟩,
      RowReader.new_eq_ok.mpr ⟨hlt, hbytes, rfl, rfl⟩, Fields.decode_eq_ok.mpr ?_,
      RowReader.finish_eq_ok.mpr ⟨hcolumns.le, rfl⟩⟩
    exact ⟨hvalid, by dsimp only; omega, (List.append_nil _).symm, (Nat.zero_add _).symm, rfl⟩

/-- A row is validated exactly when the checked readers read it to its end, and what they
read is what the cursor reads, from all the bytes behind the count of the columns. -/
theorem Row.read_validated (T : Fields) (bytes : List UInt8) (columns : ℕ) :
    (Row.validate T bytes columns = .ok () ↔ ∃ reader view behind,
      RowReader.new bytes columns = .ok reader ∧ T.decode reader = .ok (view, behind) ∧
        behind.finish = .ok ()) ∧
    ∀ reader view behind, RowReader.new bytes columns = .ok reader →
      T.decode reader = .ok (view, behind) → behind.finish = .ok () →
        Row.read T bytes = some (view, []) := by
  constructor
  · unfold Row.validate
    rw [bind_eq_ok]
    constructor
    · rintro ⟨reader, hnew, h⟩
      obtain ⟨⟨view, behind⟩, hdecode, hfinish⟩ := bind_eq_ok.mp h
      exact ⟨reader, view, behind, hnew, hdecode, hfinish⟩
    · rintro ⟨reader, view, behind, hnew, hdecode, hfinish⟩
      exact ⟨reader, hnew, bind_eq_ok.mpr ⟨(view, behind), hdecode, hfinish⟩⟩
  · intro reader view behind hnew hdecode hfinish
    obtain ⟨hvalid, -, -, rfl⟩ :=
      Fields.decoded_iff.mp ⟨reader, behind, hnew, hdecode, hfinish⟩
    have hdrop : (toBytes (BitVec.ofNat 16 columns) ++ T.wire view).drop 2 = T.wire view ++ [] := by
      rw [List.append_nil]
      exact List.drop_left' (length_toBytes _)
    rw [Row.read, if_pos (by rw [List.length_append, length_toBytes]; omega), hdrop,
      Fields.read_wire hvalid]

/-- A row of a boolean, a JSON text and a word. -/
theorem Row.read_validated_mixed :
    Row.read (.pair .bool (.pair .jsonb (.single .int32)))
      [0, 3, 0, 0, 0, 1, 1, 0, 0, 0, 3, 1, 123, 125, 0, 0, 0, 4, 0, 0, 1, 2] =
        some ((true, [123, 125], 258, ()), []) :=
  (Row.read_validated (.pair .bool (.pair .jsonb (.single .int32)))
    [0, 3, 0, 0, 0, 1, 1, 0, 0, 0, 3, 1, 123, 125, 0, 0, 0, 4, 0, 0, 1, 2] 3).2
      ⟨[0, 0, 0, 1, 1, 0, 0, 0, 3, 1, 123, 125, 0, 0, 0, 4, 0, 0, 1, 2], 0, 3⟩
      (true, [123, 125], 258, ()) ⟨[], 3, 3⟩ rfl rfl rfl

end Cartel.Pg.Value
