import Cartel.Lib.Endian
import Cartel.Lib.Outcome
import Cartel.Reply.Server

/-!
# Reading a row

A row is the count of its columns and the columns, each with its length in front, and a
length of -1 for NULL. `RowReader` takes one column after the other, and each type checks
the bytes of its column. Every reader returns its value and the reader behind it.

Lengths and offsets are numbers : the length of a row is bounded by 32 bits.
-/

namespace Cartel.Pg.Value

open Cartel.Lib Reply

/-! ## Errors -/

/-- `Reason`, as far as values cause it. -/
inductive Reason where
  | rowTruncated (actual : ℕ)
  | negativeColumnCount (actual : ℤ)
  | columnCount (actual expected : ℕ)
  | rowUnread (remaining : ℕ)
  | rowTrailing (actual : ℕ)
  | rowDecoderColumns (declared : ℕ)
  | columnLength (column actual : ℕ)
  | negativeColumnLength (column : ℕ) (actual : ℤ)
  | columnBytes (column actual required : ℕ)
  | columnNull (column : ℕ)
  | columnWidth (column actual expected : ℕ)
  | bool (column : ℕ) (actual : UInt8)
  | textUtf8 (column valid : ℕ) (error : Utf8)
  | jsonTruncated (column actual : ℕ)
  | jsonVersion (column : ℕ) (actual : UInt8)
  | jsonUtf8 (column valid : ℕ) (error : Utf8)
  | arrayHeader (column actual required : ℕ)
  | arrayOid (column actual expected : ℕ)
  | arrayTextOid (column actual : ℕ)
  | arrayNulls (column : ℕ) (actual : ℤ)
  | arrayDimensions (column : ℕ) (actual : ℤ)
  | negativeArrayDimension (column : ℕ) (actual : ℤ)
  | arrayPayload (column elements actual : ℕ)
  | arrayTrailing (actual : ℕ)
  | arrayLength (actual : ℕ)
  | arrayNull
  | negativeArrayLength (actual : ℤ)
  | arrayBytes (actual required : ℕ)
  | arrayI32Width (actual : ℕ)
  | arrayI64Width (actual : ℕ)
  | arrayTextUtf8 (valid : ℕ) (error : Utf8)
  deriving DecidableEq

/-! ## Rows -/

/-- `Wire::split_at`, and `Wire::split_array` of a count. -/
def split (count : ℕ) (bytes : List UInt8) : Option (List UInt8 × List UInt8) :=
  if count ≤ bytes.length then some (bytes.take count, bytes.drop count) else none

/-- `RowReader`. -/
structure RowReader where
  buf : List UInt8
  start : ℕ
  stop : ℕ
  deriving DecidableEq

/-- `Column`. -/
structure Column where
  buf : List UInt8
  index : ℕ
  deriving DecidableEq

/-- `decode::Field`. -/
inductive Field where
  | data (column : Column)
  | null (column : ℕ)
  deriving DecidableEq

namespace RowReader

/-- `RowReader::new`. -/
def new (bytes : List UInt8) (want : ℕ) : Except Reason RowReader :=
  match split 2 bytes with
  | none => .error (.rowTruncated bytes.length)
  | some (head, tail) =>
    let count := fromBytes 16 head
    if count.toInt < 0 then .error (.negativeColumnCount count.toInt)
    else if count.toNat ≠ want then .error (.columnCount count.toNat want)
    else .ok ⟨tail, 0, count.toNat⟩

variable (reader : RowReader)

/-- `RowReader::finish`. -/
def finish : Except Reason Unit :=
  if reader.start < reader.stop then .error (.rowUnread (reader.stop - reader.start))
  else if reader.buf ≠ [] then .error (.rowTrailing reader.buf.length)
  else .ok ()

/-- `RowReader::take_column`. -/
def takeColumn : Except Reason (Field × RowReader) :=
  if ¬reader.start < reader.stop then .error (.rowDecoderColumns reader.stop)
  else
    match split 4 reader.buf with
    | none => .error (.columnLength reader.start reader.buf.length)
    | some (head, tail) =>
      let len := fromBytes 32 head
      if len = -1 then .ok (.null reader.start, ⟨tail, reader.start + 1, reader.stop⟩)
      else if len.toInt < 0 then .error (.negativeColumnLength reader.start len.toInt)
      else
        match split len.toNat tail with
        | none => .error (.columnBytes reader.start tail.length len.toNat)
        | some (head, tail) =>
          .ok (.data ⟨head, reader.start⟩, ⟨tail, reader.start + 1, reader.stop⟩)

/-- `RowReader::require`. -/
def require : Except Reason (Column × RowReader) := do
  match ← reader.takeColumn with
  | (.data column, reader) => .ok (column, reader)
  | (.null column, _) => .error (.columnNull column)

end RowReader

/-! ## Columns -/

namespace Column

variable (column : Column)

/-- `Column::fixed`. -/
def fixed (width : ℕ) : Except Reason (List UInt8) :=
  if column.buf.length = width then .ok column.buf
  else .error (.columnWidth column.index column.buf.length width)

/-- `Column::read_bool`. -/
def readBool : Except Reason Bool := do
  let bytes ← column.fixed 1
  let actual := bytes.headD 0
  if actual = 0 then .ok false
  else if actual = 1 then .ok true
  else .error (.bool column.index actual)

/-- `text`. -/
def text : Except Reason (List UInt8) :=
  match utf8Error column.buf with
  | none => .ok column.buf
  | some (valid, error) => .error (.textUtf8 column.index valid (.fromError error))

/-- `json`. -/
def json : Except Reason (List UInt8) :=
  match column.buf with
  | [] => .error (.jsonTruncated column.index 0)
  | version :: value =>
    if version ≠ 1 then .error (.jsonVersion column.index version)
    else
      match utf8Error value with
      | none => .ok value
      | some (valid, error) => .error (.jsonUtf8 column.index valid (.fromError error))

end Column

/-! ## Readers -/

namespace RowReader

variable {A : Type} (reader : RowReader)

/-- A column that may not be NULL, and its value. -/
def required (decode : Column → Except Reason A) : Except Reason (A × RowReader) := do
  let (column, reader) ← reader.require
  let value ← decode column
  return (value, reader)

/-- A column that may be NULL, and its value. -/
def optional (decode : Column → Except Reason A) : Except Reason (Option A × RowReader) := do
  match ← reader.takeColumn with
  | (.data column, reader) => do
    let value ← decode column
    return (some value, reader)
  | (.null _, reader) => return (none, reader)

/-- A column of a word. -/
def word (w : ℕ) (column : Column) : Except Reason (BitVec w) := do
  let bytes ← column.fixed (w / 8)
  return fromBytes w bytes

/-- `RowReader::read_i32`. -/
def readI32 : Except Reason (BitVec 32 × RowReader) :=
  reader.required (word 32)

/-- `Scalar::read_fixed`. -/
def readFixed (width : ℕ) : Except Reason (List UInt8 × RowReader) :=
  reader.required (·.fixed width)

/-- `Scalar::read_bool`. -/
def readBool : Except Reason (Bool × RowReader) :=
  reader.required Column.readBool

/-- `Scalar::read_i16`. -/
def readI16 : Except Reason (BitVec 16 × RowReader) :=
  reader.required (word 16)

/-- `Scalar::read_i64`. -/
def readI64 : Except Reason (BitVec 64 × RowReader) :=
  reader.required (word 64)

/-- `Scalar::read_f32`, of the bits. -/
def readF32 : Except Reason (BitVec 32 × RowReader) :=
  reader.required (word 32)

/-- `Scalar::read_f64`, of the bits. -/
def readF64 : Except Reason (BitVec 64 × RowReader) :=
  reader.required (word 64)

/-- `Data::read_bytes`. -/
def readBytes : Except Reason (List UInt8 × RowReader) :=
  reader.required fun column => .ok column.buf

/-- `Data::read_text`. -/
def readText : Except Reason (List UInt8 × RowReader) :=
  reader.required Column.text

/-- `Data::read_json`. -/
def readJson : Except Reason (List UInt8 × RowReader) :=
  reader.required Column.json

/-- `Optional::read_bool`. -/
def optionalBool : Except Reason (Option Bool × RowReader) :=
  reader.optional Column.readBool

/-- `Optional::read_i16`. -/
def optionalI16 : Except Reason (Option (BitVec 16) × RowReader) :=
  reader.optional (word 16)

/-- `Optional::read_i32`. -/
def optionalI32 : Except Reason (Option (BitVec 32) × RowReader) :=
  reader.optional (word 32)

/-- `Optional::read_i64`. -/
def optionalI64 : Except Reason (Option (BitVec 64) × RowReader) :=
  reader.optional (word 64)

/-- `Optional::read_f32`, of the bits. -/
def optionalF32 : Except Reason (Option (BitVec 32) × RowReader) :=
  reader.optional (word 32)

/-- `Optional::read_f64`, of the bits. -/
def optionalF64 : Except Reason (Option (BitVec 64) × RowReader) :=
  reader.optional (word 64)

/-- `Optional::read_text`. -/
def optionalText : Except Reason (Option (List UInt8) × RowReader) :=
  reader.optional Column.text

/-- `Optional::read_json`. -/
def optionalJson : Except Reason (Option (List UInt8) × RowReader) :=
  reader.optional Column.json

/-- `Optional::read_bytes`. -/
def optionalBytes : Except Reason (Option (List UInt8) × RowReader) :=
  reader.optional fun column => .ok column.buf

/-- `Optional::read_uuid`. -/
def optionalUuid : Except Reason (Option (List UInt8) × RowReader) :=
  reader.optional (·.fixed 16)

end RowReader

/-! ## Columns that are there -/

/-- A payload with its length in front. -/
def wire (payload : List UInt8) : List UInt8 :=
  toBytes (.ofNat 32 payload.length) ++ payload

/-- A NULL. -/
def wireNull : List UInt8 :=
  toBytes (-1 : BitVec 32)

@[simp] theorem length_wire (payload : List UInt8) : (wire payload).length = 4 + payload.length := by
  rw [wire, List.length_append, length_toBytes]

theorem split_append {head tail : List UInt8} {count : ℕ} (h : head.length = count) :
    split count (head ++ tail) = some (head, tail) := by
  unfold split
  rw [List.length_append, if_pos (by omega), List.take_left' h, List.drop_left' h]

theorem split_eq_some {count : ℕ} {bytes head tail : List UInt8} :
    split count bytes = some (head, tail) ↔ head.length = count ∧ bytes = head ++ tail := by
  constructor
  · intro h
    unfold split at h
    split_ifs at h with hle
    cases h
    exact ⟨by rw [List.length_take, Nat.min_eq_left hle], (List.take_append_drop count bytes).symm⟩
  · rintro ⟨h, rfl⟩
    exact split_append h

theorem split_word (word : BitVec 32) (tail : List UInt8) :
    split 4 (toBytes word ++ tail) = some (toBytes word, tail) :=
  split_append (length_toBytes word)

/-- A length that is not negative. -/
theorem length_nonneg {w : ℕ} {len : BitVec w} : ¬len.toInt < 0 ↔ 2 * len.toNat < 2 ^ w := by
  rw [BitVec.toInt_neg_iff, not_le]

/-- The bytes behind a length that is not negative, with the length, are a payload. -/
theorem split_payload {bytes head tail payload rest : List UInt8}
    (hhead : split 4 bytes = some (head, tail)) (hneg : ¬(fromBytes 32 head).toInt < 0)
    (hpayload : split (fromBytes 32 head).toNat tail = some (payload, rest)) :
    payload.length < 2 ^ 31 ∧ bytes = wire payload ++ rest := by
  obtain ⟨hlength, rfl⟩ := split_eq_some.mp hhead
  obtain ⟨hlen, rfl⟩ := split_eq_some.mp hpayload
  have hlt := length_nonneg.mp hneg
  have hhead' : toBytes (.ofNat 32 payload.length) = head := by
    rw [hlen, BitVec.ofNat_toNat, BitVec.setWidth_eq]
    exact toBytes_fromBytes (by rw [hlength])
  exact ⟨by omega, by rw [wire, hhead', List.append_assoc]⟩

section Length

variable {length : ℕ} (h : length < 2 ^ 31)

include h

theorem toNat_length : (BitVec.ofNat 32 length).toNat = length := by
  rw [BitVec.toNat_ofNat, Nat.mod_eq_of_lt (by omega)]

theorem length_ne_null : BitVec.ofNat 32 length ≠ -1 := by
  intro heq
  have hnat := congrArg BitVec.toNat heq
  rw [toNat_length h] at hnat
  have hones : (-1 : BitVec 32).toNat = 2 ^ 32 - 1 := by decide
  omega

theorem not_length_neg : ¬(BitVec.ofNat 32 length).toInt < 0 :=
  length_nonneg.mpr (by rw [toNat_length h]; omega)

end Length

namespace RowReader

variable {reader reader' : RowReader} {column : Column}

/-- The readers behind the count of the columns. -/
theorem new_eq_ok {bytes : List UInt8} {columns : ℕ} : new bytes columns = .ok reader ↔
    columns < 2 ^ 15 ∧ bytes = toBytes (BitVec.ofNat 16 columns) ++ reader.buf ∧
      reader.start = 0 ∧ reader.stop = columns := by
  unfold new
  constructor
  · intro h
    split at h
    · cases h
    · rename_i head tail hhead
      obtain ⟨hlength, hbytes⟩ := split_eq_some.mp hhead
      dsimp only at h
      split_ifs at h with hneg hwant
      cases h
      have hlt := length_nonneg.mp hneg
      have hcount := not_not.mp hwant
      refine ⟨by omega, ?_, rfl, hcount⟩
      rw [← hcount, BitVec.ofNat_toNat, BitVec.setWidth_eq, hbytes,
        toBytes_fromBytes (by rw [hlength])]
  · rintro ⟨hlt, rfl, hstart, hstop⟩
    have hnat : (BitVec.ofNat 16 columns).toNat = columns := by
      rw [BitVec.toNat_ofNat, Nat.mod_eq_of_lt (by omega)]
    have hsplit : split 2 (toBytes (BitVec.ofNat 16 columns) ++ reader.buf) =
        some (toBytes (BitVec.ofNat 16 columns), reader.buf) := split_append (length_toBytes _)
    rw [hsplit]
    dsimp only
    rw [fromBytes_toBytes (by decide), hnat, if_neg (length_nonneg.mpr (by rw [hnat]; omega)),
      if_neg (not_not.mpr rfl), ← hstart, ← hstop]

theorem finish_eq_ok : reader.finish = .ok () ↔ reader.stop ≤ reader.start ∧ reader.buf = [] := by
  unfold finish
  split_ifs with hcolumns hbuf
  · exact iff_of_false nofun fun h => absurd h.1 (by omega)
  · exact iff_of_false nofun fun h => hbuf h.2
  · exact iff_of_true rfl ⟨not_lt.mp hcolumns, not_not.mp hbuf⟩

/-- A column is taken exactly when its bytes are in front, with their length. -/
theorem takeColumn_data : reader.takeColumn = .ok (.data column, reader') ↔
    reader.start < reader.stop ∧ column.index = reader.start ∧ column.buf.length < 2 ^ 31 ∧
      reader.buf = wire column.buf ++ reader'.buf ∧ reader'.start = reader.start + 1 ∧
        reader'.stop = reader.stop := by
  unfold takeColumn
  constructor
  · intro h
    split_ifs at h with hcolumns
    split at h
    · cases h
    · rename_i head tail hhead
      dsimp only at h
      split_ifs at h with hnull hneg
      · cases h
      · split at h
        · cases h
        · rename_i payload rest hpayload
          cases h
          obtain ⟨hlt, hbuf⟩ := split_payload hhead hneg hpayload
          exact ⟨hcolumns, rfl, hlt, hbuf, rfl, rfl⟩
  · rintro ⟨hcolumns, hindex, hlt, hbuf, hstart, hstop⟩
    rw [if_neg (not_not.mpr hcolumns), hbuf, wire, List.append_assoc, split_word]
    dsimp only
    rw [fromBytes_toBytes (by decide), if_neg (length_ne_null hlt), if_neg (not_length_neg hlt),
      toNat_length hlt, split_append rfl, ← hindex, ← hstop]
    dsimp only
    rw [← hindex] at hstart
    rw [← hstart]

/-- A NULL is taken exactly when it is in front. -/
theorem takeColumn_null {index : ℕ} : reader.takeColumn = .ok (.null index, reader') ↔
    reader.start < reader.stop ∧ index = reader.start ∧ reader.buf = wireNull ++ reader'.buf ∧
      reader'.start = reader.start + 1 ∧ reader'.stop = reader.stop := by
  unfold takeColumn
  constructor
  · intro h
    split_ifs at h with hcolumns
    split at h
    · cases h
    · rename_i head tail hhead
      obtain ⟨hlength, hbuf⟩ := split_eq_some.mp hhead
      dsimp only at h
      split_ifs at h with hnull
      · cases h
        refine ⟨hcolumns, rfl, ?_, rfl, rfl⟩
        rw [hbuf, wireNull, ← hnull, toBytes_fromBytes (by rw [hlength])]
      · split at h <;> cases h
  · rintro ⟨hcolumns, rfl, hbuf, hstart, hstop⟩
    rw [if_neg (not_not.mpr hcolumns), hbuf, wireNull, split_word]
    dsimp only
    rw [fromBytes_toBytes (by decide), if_pos rfl, ← hstart, ← hstop]

theorem require_eq_ok : reader.require = .ok (column, reader') ↔
    reader.takeColumn = .ok (.data column, reader') := by
  unfold require
  rw [bind_eq_ok]
  constructor
  · rintro ⟨⟨field, behind⟩, htake, h⟩
    rcases field with column' | index
    · cases h
      exact htake
    · cases h
  · intro h
    exact ⟨_, h, rfl⟩

/-- A value is required exactly when the payload in front decodes to it. -/
theorem required_eq_ok {A : Type} {decode : Column → Except Reason A} {value : A} :
    reader.required decode = .ok (value, reader') ↔ ∃ payload : List UInt8,
      reader.start < reader.stop ∧ payload.length < 2 ^ 31 ∧
        decode ⟨payload, reader.start⟩ = .ok value ∧ reader.buf = wire payload ++ reader'.buf ∧
          reader'.start = reader.start + 1 ∧ reader'.stop = reader.stop := by
  unfold required
  rw [bind_eq_ok]
  constructor
  · rintro ⟨⟨column, behind⟩, hrequire, h⟩
    obtain ⟨hcolumns, hindex, hlt, hbuf, hstart, hstop⟩ :=
      takeColumn_data.mp (require_eq_ok.mp hrequire)
    obtain ⟨value', hvalue, h⟩ := bind_eq_ok.mp h
    cases h
    exact ⟨column.buf, hcolumns, hlt, hindex ▸ hvalue, hbuf, hstart, hstop⟩
  · rintro ⟨payload, hcolumns, hlt, hvalue, hbuf, hstart, hstop⟩
    have htake : reader.takeColumn = .ok (.data ⟨payload, reader.start⟩, reader') :=
      takeColumn_data.mpr ⟨hcolumns, rfl, hlt, hbuf, hstart, hstop⟩
    exact ⟨_, require_eq_ok.mpr htake, bind_eq_ok.mpr ⟨value, hvalue, rfl⟩⟩

/-- A value or NULL is read exactly when the column in front is one. -/
theorem optional_eq_some {A : Type} {decode : Column → Except Reason A} {value : A} :
    reader.optional decode = .ok (some value, reader') ↔
      reader.required decode = .ok (value, reader') := by
  unfold optional required
  rw [bind_eq_ok, bind_eq_ok]
  constructor
  · rintro ⟨⟨field, behind⟩, htake, h⟩
    rcases field with column | index
    · obtain ⟨value', hvalue, hreturn⟩ := bind_eq_ok.mp h
      cases hreturn
      exact ⟨_, require_eq_ok.mpr htake, bind_eq_ok.mpr ⟨value, hvalue, rfl⟩⟩
    · cases h
  · rintro ⟨⟨column, behind⟩, hrequire, h⟩
    obtain ⟨value', hvalue, hreturn⟩ := bind_eq_ok.mp h
    cases hreturn
    exact ⟨_, require_eq_ok.mp hrequire, bind_eq_ok.mpr ⟨value, hvalue, rfl⟩⟩

theorem optional_null {A : Type} {decode : Column → Except Reason A} {index : ℕ}
    (h : reader.takeColumn = .ok (.null index, reader')) :
    reader.optional decode = .ok (none, reader') :=
  bind_eq_ok.mpr ⟨_, h, rfl⟩

end RowReader

/-! ### What the payloads are -/

section Payloads

variable {payload : List UInt8} {index : ℕ}

theorem fixed_eq_ok {width : ℕ} {bytes : List UInt8} :
    Column.fixed ⟨payload, index⟩ width = .ok bytes ↔ bytes.length = width ∧ payload = bytes := by
  unfold Column.fixed
  dsimp only
  split_ifs with h
  · rw [Except.ok.injEq]
    exact ⟨fun heq => ⟨heq ▸ h, heq⟩, And.right⟩
  · exact iff_of_false nofun fun heq => h (heq.2 ▸ heq.1)

theorem word_eq_ok {w : ℕ} (hw : 8 ∣ w) {value : BitVec w} :
    RowReader.word w ⟨payload, index⟩ = .ok value ↔ payload = toBytes value := by
  unfold RowReader.word
  rw [bind_eq_ok]
  constructor
  · rintro ⟨bytes, hbytes, h⟩
    obtain ⟨hlength, rfl⟩ := fixed_eq_ok.mp hbytes
    cases h
    exact (toBytes_fromBytes (by omega)).symm
  · rintro rfl
    refine ⟨_, fixed_eq_ok.mpr ⟨length_toBytes _, rfl⟩, ?_⟩
    rw [fromBytes_toBytes hw]
    rfl

theorem readBool_eq_ok {value : Bool} :
    Column.readBool ⟨payload, index⟩ = .ok value ↔ payload = [if value then 1 else 0] := by
  unfold Column.readBool
  rw [bind_eq_ok]
  constructor
  · rintro ⟨bytes, hbytes, h⟩
    obtain ⟨hlength, rfl⟩ := fixed_eq_ok.mp hbytes
    obtain ⟨byte, rfl⟩ := List.length_eq_one_iff.mp hlength
    dsimp only [List.headD_cons] at h
    split_ifs at h with hzero hone
    · cases h
      rw [hzero]
      rfl
    · cases h
      rw [hone]
      rfl
  · rintro rfl
    refine ⟨_, fixed_eq_ok.mpr ⟨rfl, rfl⟩, ?_⟩
    rcases value with - | - <;> rfl

theorem text_eq_ok {value : List UInt8} : Column.text ⟨payload, index⟩ = .ok value ↔
    (∃ text, value = encodeUtf8 text) ∧ payload = value := by
  unfold Column.text
  dsimp only
  rw [← utf8Error_eq_none]
  rcases h : utf8Error payload with - | ⟨valid, error⟩
  · dsimp only
    rw [Except.ok.injEq]
    exact ⟨fun heq => ⟨heq ▸ h, heq⟩, And.right⟩
  · refine iff_of_false nofun ?_
    rintro ⟨hnone, rfl⟩
    exact nomatch h.symm.trans hnone

theorem json_eq_ok {value : List UInt8} : Column.json ⟨payload, index⟩ = .ok value ↔
    (∃ text, value = encodeUtf8 text) ∧ payload = 1 :: value := by
  unfold Column.json
  dsimp only
  rw [← utf8Error_eq_none]
  rcases payload with - | ⟨version, rest⟩
  · exact iff_of_false nofun nofun
  · dsimp only
    rw [List.cons.injEq]
    split_ifs with hversion
    · exact iff_of_false nofun fun h => hversion h.2.1
    · rcases h : utf8Error rest with - | ⟨valid, error⟩
      · dsimp only
        rw [Except.ok.injEq]
        exact ⟨fun heq => ⟨heq ▸ h, not_not.mp hversion, heq⟩, fun heq => heq.2.2⟩
      · refine iff_of_false nofun ?_
        rintro ⟨hnone, -, rfl⟩
        exact nomatch h.symm.trans hnone

end Payloads

end Cartel.Pg.Value
