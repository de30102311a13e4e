import Cartel.Value.Array

/-!
# Writing parameters

`BindWriter` writes the values of the parameters of a statement, each with its length in
front, and checks the type and the format of each against those the statement was admitted
with. The length of an array is patched in when its elements are written.

The buffer a frame is written to is a parameter (`Spare`) with the law that what is written
is appended. It may refuse to write for its capacity.

What is written reads back as it is : `BindWriter.reads_back`, and `Array.reencoded` for the
arrays that were read.
-/

namespace Cartel.Pg.Value.Encode

open Cartel.Lib Reply

/-! ## Buffers -/

/-- `encode::Error`, as far as values cause it. -/
inductive Error (ε : Type) where
  | frameLength (actual : ℕ)
  | valueLength (actual : ℕ)
  | arrayElements (actual : ℕ)
  | parameterValueCount (expected actual : ℕ)
  | parameterOid (index : ℕ) (expected actual : BitVec 32)
  | parameterEncoding (index : ℕ) (expected actual : BitVec 16)
  | capacity (error : ε)
  deriving DecidableEq

/-- `write::Spare` : the bytes written and the room that is left, `write_slices`, the spare of
an `Edit` behind four bytes, and the owner of one that was committed with its first bytes. -/
structure Spare (ω ε : Type) where
  written : ω → List UInt8
  room : ω → ℕ
  writeSlices : ω → List (List UInt8) → Except ε ω
  edit : ω → Except ε ω
  commit : ω → ω → List UInt8 → ω

/-- What is written is appended, and takes the room it needs. -/
structure Spare.Lawful {ω ε : Type} (spare : Spare ω ε) : Prop where
  writeSlices {out out' : ω} {slices : List (List UInt8)} :
    spare.writeSlices out slices = .ok out' →
      spare.written out' = spare.written out ++ slices.flatten ∧
        spare.room out' + slices.flatten.length = spare.room out
  grants (out : ω) (slices : List (List UInt8)) : slices.flatten.length ≤ spare.room out →
    ∃ out', spare.writeSlices out slices = .ok out'
  edit {out inner : ω} : spare.edit out = .ok inner →
    spare.written inner = [] ∧ spare.room inner + 4 = spare.room out
  grantsEdit (out : ω) : 4 ≤ spare.room out → ∃ inner, spare.edit out = .ok inner
  commit {out inner : ω} {head : List UInt8} :
    spare.written (spare.commit out inner head) =
        spare.written out ++ head ++ spare.written inner ∧
      spare.room (spare.commit out inner head) = spare.room inner

section Model

variable {ω ε : Type} (spare : Spare ω ε)

/-- `i32::MAX`. -/
def maximum : ℕ :=
  2 ^ 31 - 1

/-- `wire_length` of values. -/
def wireLength (value : ℕ) : Except (Error ε) (BitVec 32) :=
  if maximum < value then .error (.valueLength value) else .ok (.ofNat 32 value)

/-- `count32`. -/
def count32 (value : ℕ) : Except (Error ε) (BitVec 32) :=
  if maximum < value then .error (.arrayElements value) else .ok (.ofNat 32 value)

/-- `wire_length` of frames. -/
def frameLength (value : ℕ) : Except (Error ε) (BitVec 32) :=
  if maximum < value then .error (.frameLength value) else .ok (.ofNat 32 value)

/-- `Writer::write_slices`. -/
def writeSlices (out : ω) (slices : List (List UInt8)) : Except (Error ε) ω :=
  (spare.writeSlices out slices).mapError .capacity

/-- `Writer::patch`. -/
def patch (header : Bool) (out : ω) (write : ω → Except (Error ε) ω) : Except (Error ε) ω := do
  let inner ← (spare.edit out).mapError .capacity
  let inner ← write inner
  let length := (spare.written inner).length
  let length ← frameLength (if header then length + 4 else length)
  return spare.commit out inner (toBytes length)

/-- `write_with_len`. -/
def writeWithLen (payload : List UInt8) (out : ω) : Except (Error ε) ω := do
  let length ← wireLength payload.length
  writeSlices spare out [toBytes length, payload]

/-- The loops over the elements of an array. -/
def writeItems : List (List UInt8) → ω → Except (Error ε) ω
  | [], out => .ok out
  | payload :: payloads, out => do
    let out ← writeWithLen spare payload out
    writeItems payloads out

end Model

/-! ## Parameters -/

/-- `Admission` : the types of the parameters, and formats for them. -/
structure Admission where
  oids : List (BitVec 32)
  formats : List (BitVec 16)
  count : oids.length < 2 ^ 15
  isFormatCount : formats.length ≤ 1 ∨ formats.length = oids.length

/-- The format of a parameter. -/
def Admission.format (admission : Admission) (index : ℕ) : BitVec 16 :=
  match admission.formats with
  | [] => 0
  | [format] => format
  | formats => formats.getD index 0

/-- `BindWriter`. -/
structure BindWriter (ω : Type) where
  out : ω
  admission : Admission
  index : ℕ

namespace BindWriter

variable {ω ε : Type} (spare : Spare ω ε) (self : BindWriter ω)

/-- `BindWriter::new`. -/
def new (out : ω) (admission : Admission) : BindWriter ω :=
  ⟨out, admission, 0⟩

/-- `BindWriter::check`. -/
def check (oid : BitVec 32) (format : BitVec 16) : Except (Error ε) Unit :=
  match self.admission.oids[self.index]? with
  | none =>
    .error (.parameterValueCount self.admission.oids.length (self.admission.oids.length + 1))
  | some expected =>
    if oid ≠ expected then .error (.parameterOid self.index expected oid)
    else if format ≠ self.admission.format self.index then
      .error (.parameterEncoding self.index (self.admission.format self.index) format)
    else .ok ()

/-- `BindWriter::check_any`. -/
def checkAny : Except (Error ε) Unit :=
  if self.admission.oids.length ≤ self.index then
    .error (.parameterValueCount self.admission.oids.length (self.admission.oids.length + 1))
  else .ok ()

/-- `BindWriter::write`. -/
def write (oid : BitVec 32) (format : BitVec 16) (write : ω → Except (Error ε) ω) :
    Except (Error ε) (BindWriter ω) := do
  self.check oid format
  let out ← write self.out
  return { self with out, index := self.index + 1 }

/-- `BindWriter::write_null`. -/
def writeNull : Except (Error ε) (BindWriter ω) := do
  self.checkAny
  let out ← writeSlices spare self.out [toBytes (-1 : BitVec 32)]
  return { self with out, index := self.index + 1 }

/-- `BindWriter::finish`. -/
def finish : Except (Error ε) ω :=
  if self.index = self.admission.oids.length then .ok self.out
  else .error (.parameterValueCount self.admission.oids.length self.index)

/-- `write_array`, with the elements the loops write. -/
def writeArray (oid element : BitVec 32) (items : List (List UInt8)) :
    Except (Error ε) (BindWriter ω) :=
  self.write oid 1 fun out => do
    let count ← count32 items.length
    patch spare false out fun out => do
      let out ← writeSlices spare out [toBytes (1 : BitVec 32), toBytes (0 : BitVec 32),
        toBytes element, toBytes count, toBytes (1 : BitVec 32)]
      writeItems spare items out

/-- `Scalar::write_bool`. -/
def writeBool (value : Bool) : Except (Error ε) (BindWriter ω) :=
  self.write 16 1 (writeWithLen spare [if value then 1 else 0])

/-- `Scalar::write_i16`. -/
def writeI16 (value : BitVec 16) : Except (Error ε) (BindWriter ω) :=
  self.write 21 1 (writeWithLen spare (toBytes value))

/-- `Scalar::write_i32`. -/
def writeI32 (value : BitVec 32) : Except (Error ε) (BindWriter ω) :=
  self.write 23 1 (writeWithLen spare (toBytes value))

/-- `Scalar::write_i64`. -/
def writeI64 (value : BitVec 64) : Except (Error ε) (BindWriter ω) :=
  self.write 20 1 (writeWithLen spare (toBytes value))

/-- `Scalar::write_f32`, of the bits. -/
def writeF32 (value : BitVec 32) : Except (Error ε) (BindWriter ω) :=
  self.write 700 1 (writeWithLen spare (toBytes value))

/-- `Scalar::write_f64`, of the bits. -/
def writeF64 (value : BitVec 64) : Except (Error ε) (BindWriter ω) :=
  self.write 701 1 (writeWithLen spare (toBytes value))

/-- `Data::write_text`. -/
def writeText (value : Text) : Except (Error ε) (BindWriter ω) :=
  self.write 25 1 (writeWithLen spare value.bytes)

/-- `Data::write_ltree`. -/
def writeLtree (value : Text) : Except (Error ε) (BindWriter ω) :=
  self.write 25 0 (writeWithLen spare value.bytes)

/-- `Data::write_jsonb`. -/
def writeJsonb (value : Text) : Except (Error ε) (BindWriter ω) :=
  self.write 3802 1 fun out => do
    let length ← wireLength (value.bytes.length + 1)
    writeSlices spare out [toBytes length, [1], value.bytes]

/-- `Data::write_bytes`. -/
def writeBytes (value : List UInt8) : Except (Error ε) (BindWriter ω) :=
  self.write 17 1 (writeWithLen spare value)

/-- `Data::write_uuid`. -/
def writeUuid (value : Vector UInt8 16) : Except (Error ε) (BindWriter ω) :=
  self.write 2950 1 (writeWithLen spare value.toList)

/-- `Data::write_time`. -/
def writeTime (value : BitVec 64) : Except (Error ε) (BindWriter ω) :=
  self.write 1114 1 (writeWithLen spare (toBytes value))

/-- `Data::write_date`. -/
def writeDate (value : BitVec 32) : Except (Error ε) (BindWriter ω) :=
  self.write 1082 1 (writeWithLen spare (toBytes value))

/-- `Array::write_i64`. -/
def writeArrayI64 (items : List (BitVec 64)) : Except (Error ε) (BindWriter ω) :=
  self.writeArray spare 1016 20 (items.map toBytes)

/-- `Array::write_i32`. -/
def writeArrayI32 (items : List (BitVec 32)) : Except (Error ε) (BindWriter ω) :=
  self.writeArray spare 1007 23 (items.map toBytes)

/-- `Array::write_text`. -/
def writeArrayText (items : List Text) : Except (Error ε) (BindWriter ω) :=
  self.writeArray spare 1009 25 (items.map (·.bytes))

/-- `Array::write_i16`. -/
def writeArrayI16 (items : List (BitVec 16)) : Except (Error ε) (BindWriter ω) :=
  self.writeArray spare 1005 21 (items.map toBytes)

/-- `Array::write_f32`, of the bits. -/
def writeArrayF32 (items : List (BitVec 32)) : Except (Error ε) (BindWriter ω) :=
  self.writeArray spare 1021 700 (items.map toBytes)

/-- `Array::write_f64`, of the bits. -/
def writeArrayF64 (items : List (BitVec 64)) : Except (Error ε) (BindWriter ω) :=
  self.writeArray spare 1022 701 (items.map toBytes)

/-- `Array::write_bool`. -/
def writeArrayBool (items : List Bool) : Except (Error ε) (BindWriter ω) :=
  self.writeArray spare 1000 16 (items.map fun value => [if value then 1 else 0])

end BindWriter

/-! ## Values -/

/-- A value of a parameter. -/
inductive Parameter where
  | null
  | bool (value : Bool)
  | int16 (value : BitVec 16)
  | int32 (value : BitVec 32)
  | int64 (value : BitVec 64)
  | float32 (value : BitVec 32)
  | float64 (value : BitVec 64)
  | text (value : Text)
  | ltree (value : Text)
  | jsonb (value : Text)
  | bytes (value : List UInt8)
  | uuid (value : Vector UInt8 16)
  | time (value : BitVec 64)
  | date (value : BitVec 32)
  | arrayInt64 (items : List (BitVec 64))
  | arrayInt32 (items : List (BitVec 32))
  | arrayText (items : List Text)
  deriving DecidableEq

namespace BindWriter

variable {ω ε : Type} (spare : Spare ω ε) (self : BindWriter ω)

/-- The writer of a value. -/
def bind : Parameter → Except (Error ε) (BindWriter ω)
  | .null => self.writeNull spare
  | .bool value => self.writeBool spare value
  | .int16 value => self.writeI16 spare value
  | .int32 value => self.writeI32 spare value
  | .int64 value => self.writeI64 spare value
  | .float32 value => self.writeF32 spare value
  | .float64 value => self.writeF64 spare value
  | .text value => self.writeText spare value
  | .ltree value => self.writeLtree spare value
  | .jsonb value => self.writeJsonb spare value
  | .bytes value => self.writeBytes spare value
  | .uuid value => self.writeUuid spare value
  | .time value => self.writeTime spare value
  | .date value => self.writeDate spare value
  | .arrayInt64 items => self.writeArrayI64 spare items
  | .arrayInt32 items => self.writeArrayI32 spare items
  | .arrayText items => self.writeArrayText spare items

/-- The writers of values, one after the other. -/
def bindAll : List Parameter → BindWriter ω → Except (Error ε) (BindWriter ω)
  | [], self => .ok self
  | parameter :: parameters, self => do
    let self ← self.bind spare parameter
    bindAll parameters self

end BindWriter

/-- The writer of the values of a statement, in `Admission::write`. -/
def encode {ω ε : Type} (spare : Spare ω ε) (admission : Admission) (parameters : List Parameter)
    (out : ω) : Except (Error ε) ω := do
  let values ← BindWriter.bindAll spare parameters (.new out admission)
  values.finish

/-! ## What is written -/

section Written

variable {ω ε : Type} {spare : Spare ω ε}

/-- What was written of bytes. -/
def Appended (spare : Spare ω ε) (bytes : List UInt8) (out out' : ω) : Prop :=
  spare.written out' = spare.written out ++ bytes ∧ spare.room out' + bytes.length = spare.room out

/-- A writer appends a payload with its length, and does so where there is room. -/
structure Writes (spare : Spare ω ε) (payload : List UInt8)
    (write : ω → Except (Error ε) ω) : Prop where
  sound {out out' : ω} : write out = .ok out' →
    payload.length < 2 ^ 31 ∧ Appended spare (wire payload) out out'
  complete (out : ω) : (wire payload).length ≤ spare.room out → payload.length < 2 ^ 31 →
    ∃ out', write out = .ok out'

theorem Appended.refl (out : ω) : Appended spare [] out out :=
  ⟨(List.append_nil _).symm, rfl⟩

theorem Appended.trans {bytes bytes' : List UInt8} {out middle out' : ω}
    (h : Appended spare bytes out middle) (h' : Appended spare bytes' middle out') :
    Appended spare (bytes ++ bytes') out out' := by
  refine ⟨by rw [h'.1, h.1, List.append_assoc], ?_⟩
  rw [List.length_append, ← h.2, ← h'.2]
  omega

theorem Appended.le {bytes : List UInt8} {out out' : ω} (h : Appended spare bytes out out') :
    bytes.length ≤ spare.room out :=
  h.2 ▸ Nat.le_add_left _ _

theorem wireLength_eq_ok {value : ℕ} {length : BitVec 32} :
    wireLength (ε := ε) value = .ok length ↔ value < 2 ^ 31 ∧ length = .ofNat 32 value := by
  unfold wireLength maximum
  split_ifs with h
  · exact iff_of_false nofun fun hlt => absurd hlt.1 (by omega)
  · rw [Except.ok.injEq]
    exact ⟨fun heq => ⟨by omega, heq.symm⟩, fun heq => heq.2.symm⟩

theorem count32_eq_ok {value : ℕ} {count : BitVec 32} :
    count32 (ε := ε) value = .ok count ↔ value < 2 ^ 31 ∧ count = .ofNat 32 value := by
  unfold count32 maximum
  split_ifs with h
  · exact iff_of_false nofun fun hlt => absurd hlt.1 (by omega)
  · rw [Except.ok.injEq]
    exact ⟨fun heq => ⟨by omega, heq.symm⟩, fun heq => heq.2.symm⟩

theorem frameLength_eq_ok {value : ℕ} {length : BitVec 32} :
    frameLength (ε := ε) value = .ok length ↔ value < 2 ^ 31 ∧ length = .ofNat 32 value := by
  unfold frameLength maximum
  split_ifs with h
  · exact iff_of_false nofun fun hlt => absurd hlt.1 (by omega)
  · rw [Except.ok.injEq]
    exact ⟨fun heq => ⟨by omega, heq.symm⟩, fun heq => heq.2.symm⟩

theorem flatten_pair {first' second : List UInt8} : [first', second].flatten = first' ++ second := by
  rw [List.flatten_cons, List.flatten_cons, List.flatten_nil, List.append_nil]

variable (L : spare.Lawful)

include L

theorem written_slices {out out' : ω} {slices : List (List UInt8)}
    (h : writeSlices spare out slices = .ok out') : Appended spare slices.flatten out out' :=
  L.writeSlices (mapError_eq_ok.mp h)

theorem write_slices (out : ω) (slices : List (List UInt8))
    (h : slices.flatten.length ≤ spare.room out) : ∃ out', writeSlices spare out slices = .ok out' :=
  (L.grants out slices h).imp fun _ => mapError_eq_ok.mpr

theorem writes_withLen (payload : List UInt8) :
    Writes spare payload (writeWithLen spare payload) where
  sound h := by
    obtain ⟨length, hlength, hslices⟩ := bind_eq_ok.mp h
    obtain ⟨hlt, rfl⟩ := wireLength_eq_ok.mp hlength
    have hwritten := written_slices L hslices
    rw [flatten_pair] at hwritten
    exact ⟨hlt, hwritten⟩
  complete out hroom hlt := by
    rw [wire, ← flatten_pair] at hroom
    obtain ⟨out', h⟩ := write_slices L out _ hroom
    exact ⟨out', bind_eq_ok.mpr ⟨_, wireLength_eq_ok.mpr ⟨hlt, rfl⟩, h⟩⟩

theorem writes_jsonb (value : List UInt8) : Writes spare (1 :: value) fun out => do
    let length ← wireLength (value.length + 1)
    writeSlices spare out [toBytes length, [1], value] where
  sound h := by
    obtain ⟨length, hlength, hslices⟩ := bind_eq_ok.mp h
    obtain ⟨hlt, rfl⟩ := wireLength_eq_ok.mp hlength
    have hwritten := written_slices L hslices
    rw [List.flatten_cons, flatten_pair] at hwritten
    exact ⟨hlt, hwritten⟩
  complete out hroom hlt := by
    have hslices : [toBytes (BitVec.ofNat 32 (value.length + 1)), [1], value].flatten =
        wire (1 :: value) := by
      rw [List.flatten_cons, flatten_pair]
      rfl
    obtain ⟨out', h⟩ := write_slices L out _ (hslices ▸ hroom)
    exact ⟨out', bind_eq_ok.mpr ⟨_, wireLength_eq_ok.mpr ⟨hlt, rfl⟩, h⟩⟩

theorem written_items : ∀ {items : List (List UInt8)} {out out' : ω},
    writeItems spare items out = .ok out' → Appended spare (items.flatMap wire) out out'
  | [], _, _, h => by
    cases h
    exact .refl _
  | payload :: items, out, out', h => by
    obtain ⟨middle, hitem, hitems⟩ := bind_eq_ok.mp h
    exact ((writes_withLen L payload).sound hitem).2.trans (written_items hitems)

theorem write_items : ∀ (items : List (List UInt8)) (out : ω),
    (items.flatMap wire).length ≤ spare.room out → (∀ item ∈ items, item.length < 2 ^ 31) →
      ∃ out', writeItems spare items out = .ok out'
  | [], out, _, _ => ⟨out, rfl⟩
  | payload :: items, out, hroom, h => by
    rw [List.flatMap_cons, List.length_append] at hroom
    obtain ⟨middle, hitem⟩ := (writes_withLen L payload).complete out (by omega)
      (h payload List.mem_cons_self)
    have hwritten := ((writes_withLen L payload).sound hitem).2.2
    obtain ⟨out', hitems⟩ := write_items items middle (by omega)
      fun item hitem => h item (List.mem_cons_of_mem payload hitem)
    exact ⟨out', bind_eq_ok.mpr ⟨middle, hitem, hitems⟩⟩

/-- The header and the elements of an array. -/
theorem written_array {element : BitVec 32} {items : List (List UInt8)} {inner middle inner' : ω}
    (hinner : spare.written inner = [])
    (hheader : writeSlices spare inner [toBytes (1 : BitVec 32), toBytes (0 : BitVec 32),
      toBytes element, toBytes (BitVec.ofNat 32 items.length), toBytes (1 : BitVec 32)] =
        .ok middle)
    (hitems : writeItems spare items middle = .ok inner') :
    spare.written inner' = Array.payload element items ∧
      spare.room inner' + (Array.payload element items).length = spare.room inner := by
  have hwritten := (written_slices L hheader).trans (written_items L hitems)
  have hpayload : [toBytes (1 : BitVec 32), toBytes (0 : BitVec 32), toBytes element,
      toBytes (BitVec.ofNat 32 items.length), toBytes (1 : BitVec 32)].flatten ++
        items.flatMap wire = Array.payload element items := by
    unfold Array.payload
    simp only [List.flatten_cons, List.flatten_nil, List.append_nil, List.append_assoc]
  rw [hpayload] at hwritten
  exact ⟨by rw [hwritten.1, hinner, List.nil_append], hwritten.2⟩

theorem writes_array (element : BitVec 32) (items : List (List UInt8)) :
    Writes spare (Array.payload element items) fun out => do
      let count ← count32 items.length
      patch spare false out fun out => do
        let out ← writeSlices spare out [toBytes (1 : BitVec 32), toBytes (0 : BitVec 32),
          toBytes element, toBytes count, toBytes (1 : BitVec 32)]
        writeItems spare items out where
  sound {out out'} h := by
    obtain ⟨count, hcount, hpatch⟩ := bind_eq_ok.mp h
    obtain ⟨-, rfl⟩ := count32_eq_ok.mp hcount
    obtain ⟨inner, hedit, hpatch⟩ := bind_eq_ok.mp hpatch
    obtain ⟨inner', hwrite, hpatch⟩ := bind_eq_ok.mp hpatch
    obtain ⟨length, hlength, hcommit⟩ := bind_eq_ok.mp hpatch
    obtain ⟨hlt, rfl⟩ := frameLength_eq_ok.mp hlength
    cases hcommit
    obtain ⟨middle, hheader, hitems⟩ := bind_eq_ok.mp hwrite
    obtain ⟨hinner, hroom⟩ := L.edit (mapError_eq_ok.mp hedit)
    obtain ⟨hwritten, hroom'⟩ := written_array L hinner hheader hitems
    rw [hwritten] at hlt ⊢
    refine ⟨hlt, ?_, ?_⟩
    · rw [L.commit.1, hwritten, wire, List.append_assoc]
      rfl
    · rw [L.commit.2, length_wire]
      omega
  complete out hroom hlt := by
    have hlength := Array.length_payload element items
    have hcount := Array.length_items_le items
    have hshort : ∀ item ∈ items, item.length < 2 ^ 31 := by
      intro item hitem
      have := Array.length_item_lt hitem
      omega
    rw [length_wire] at hroom
    obtain ⟨inner, hedit⟩ := L.grantsEdit out (by omega)
    obtain ⟨hinner, hroom'⟩ := L.edit hedit
    have hflat : [toBytes (1 : BitVec 32), toBytes (0 : BitVec 32), toBytes element,
        toBytes (BitVec.ofNat 32 items.length), toBytes (1 : BitVec 32)].flatten.length = 20 := by
      simp only [List.flatten_cons, List.flatten_nil, List.length_append, length_toBytes,
        List.length_nil]
    obtain ⟨middle, hheader⟩ := write_slices L inner _ (hflat.trans_le (by omega))
    have hheader' := (written_slices L hheader).2
    obtain ⟨inner', hitems⟩ := write_items L items middle (by omega) hshort
    obtain ⟨hwritten, -⟩ := written_array L hinner hheader hitems
    refine ⟨spare.commit out inner' (toBytes (.ofNat 32 (spare.written inner').length)),
      bind_eq_ok.mpr ⟨_, count32_eq_ok.mpr ⟨by omega, rfl⟩, ?_⟩⟩
    refine bind_eq_ok.mpr ⟨inner, mapError_eq_ok.mpr hedit, ?_⟩
    refine bind_eq_ok.mpr ⟨inner', bind_eq_ok.mpr ⟨middle, hheader, hitems⟩, ?_⟩
    refine bind_eq_ok.mpr ⟨_, frameLength_eq_ok.mpr ⟨?_, rfl⟩, rfl⟩
    rw [hwritten]
    exact hlt

end Written

/-! ## What parameters write -/

namespace Parameter

/-- The bytes of a value, none for NULL. -/
def payload : Parameter → Option (List UInt8)
  | null => none
  | bool value => some [if value then 1 else 0]
  | int16 value => some (toBytes value)
  | int32 value | float32 value | date value => some (toBytes value)
  | int64 value | float64 value | time value => some (toBytes value)
  | text value | ltree value => some value.bytes
  | jsonb value => some (1 :: value.bytes)
  | bytes value => some value
  | uuid value => some value.toList
  | arrayInt64 items => some (Array.payload 20 (items.map toBytes))
  | arrayInt32 items => some (Array.payload 23 (items.map toBytes))
  | arrayText items => some (Array.payload 25 (items.map (·.bytes)))

/-- The type and the format a value is written with, none for NULL. -/
def type : Parameter → Option (BitVec 32 × BitVec 16)
  | null => none
  | bool _ => some (16, 1)
  | int16 _ => some (21, 1)
  | int32 _ => some (23, 1)
  | int64 _ => some (20, 1)
  | float32 _ => some (700, 1)
  | float64 _ => some (701, 1)
  | text _ => some (25, 1)
  | ltree _ => some (25, 0)
  | jsonb _ => some (3802, 1)
  | bytes _ => some (17, 1)
  | uuid _ => some (2950, 1)
  | time _ => some (1114, 1)
  | date _ => some (1082, 1)
  | arrayInt64 _ => some (1016, 1)
  | arrayInt32 _ => some (1007, 1)
  | arrayText _ => some (1009, 1)

/-- The bytes of a value are not too many for their length. -/
def Fits (parameter : Parameter) : Prop :=
  ∀ payload ∈ parameter.payload, payload.length < 2 ^ 31

/-- The bytes of a column. -/
def wire (parameter : Parameter) : List UInt8 :=
  match parameter.payload with
  | none => wireNull
  | some payload => Value.wire payload

/-- A value is of the type and the format at an index. -/
def Matches (parameter : Parameter) (admission : Admission) (index : ℕ) : Prop :=
  index < admission.oids.length ∧ ∀ type ∈ parameter.type,
    admission.oids[index]? = some type.1 ∧ admission.format index = type.2

/-- The values are of the types and formats from an index on, which are as many. -/
def MatchAll (admission : Admission) : ℕ → List Parameter → Prop
  | index, [] => index = admission.oids.length
  | index, parameter :: parameters =>
    parameter.Matches admission index ∧ MatchAll admission (index + 1) parameters

end Parameter

section Bound

variable {ω ε : Type} {spare : Spare ω ε} {self self' : BindWriter ω}

theorem BindWriter.check_eq_ok {oid : BitVec 32} {format : BitVec 16} :
    self.check (ε := ε) oid format = .ok () ↔ self.admission.oids[self.index]? = some oid ∧
      self.admission.format self.index = format := by
  unfold check
  split
  · rename_i h
    exact iff_of_false nofun fun hoid => nomatch h.symm.trans hoid.1
  · rename_i expected h
    rw [h, Option.some.injEq]
    split_ifs with hoid hformat
    · exact iff_of_false nofun fun heq => hoid heq.1.symm
    · exact iff_of_false nofun fun heq => hformat heq.2.symm
    · exact iff_of_true rfl ⟨(not_not.mp hoid).symm, (not_not.mp hformat).symm⟩

theorem BindWriter.checkAny_eq_ok :
    self.checkAny (ε := ε) = .ok () ↔ self.index < self.admission.oids.length := by
  unfold checkAny
  split_ifs with h
  · exact iff_of_false nofun (by omega)
  · exact iff_of_true rfl (by omega)

variable (L : spare.Lawful)

include L

/-- Every value but NULL has a writer of its bytes, behind the check of its type. -/
theorem BindWriter.bind_typed (self : BindWriter ω) {parameter : Parameter} (h : parameter ≠ .null) :
    ∃ oid format payload writer, parameter.type = some (oid, format) ∧
      parameter.payload = some payload ∧ Writes spare payload writer ∧
        self.bind spare parameter = self.write oid format writer := by
  cases parameter with
  | null => exact absurd rfl h
  | jsonb value =>
    exact ⟨3802, 1, 1 :: value.bytes, _, rfl, rfl, writes_jsonb L value.bytes, rfl⟩
  | arrayInt64 items =>
    exact ⟨1016, 1, Array.payload 20 (items.map toBytes), _, rfl, rfl, writes_array L 20 _, rfl⟩
  | arrayInt32 items =>
    exact ⟨1007, 1, Array.payload 23 (items.map toBytes), _, rfl, rfl, writes_array L 23 _, rfl⟩
  | arrayText items =>
    exact ⟨1009, 1, Array.payload 25 (items.map Text.bytes), _, rfl, rfl, writes_array L 25 _, rfl⟩
  | bool value => exact ⟨16, 1, [if value then 1 else 0], _, rfl, rfl, writes_withLen L _, rfl⟩
  | int16 value => exact ⟨21, 1, toBytes value, _, rfl, rfl, writes_withLen L _, rfl⟩
  | int32 value => exact ⟨23, 1, toBytes value, _, rfl, rfl, writes_withLen L _, rfl⟩
  | int64 value => exact ⟨20, 1, toBytes value, _, rfl, rfl, writes_withLen L _, rfl⟩
  | float32 value => exact ⟨700, 1, toBytes value, _, rfl, rfl, writes_withLen L _, rfl⟩
  | float64 value => exact ⟨701, 1, toBytes value, _, rfl, rfl, writes_withLen L _, rfl⟩
  | text value => exact ⟨25, 1, value.bytes, _, rfl, rfl, writes_withLen L _, rfl⟩
  | ltree value => exact ⟨25, 0, value.bytes, _, rfl, rfl, writes_withLen L _, rfl⟩
  | bytes value => exact ⟨17, 1, value, _, rfl, rfl, writes_withLen L _, rfl⟩
  | uuid value => exact ⟨2950, 1, value.toList, _, rfl, rfl, writes_withLen L _, rfl⟩
  | time value => exact ⟨1114, 1, toBytes value, _, rfl, rfl, writes_withLen L _, rfl⟩
  | date value => exact ⟨1082, 1, toBytes value, _, rfl, rfl, writes_withLen L _, rfl⟩

/-- A value that was written is appended. -/
theorem BindWriter.bind_eq_ok {parameter : Parameter}
    (h : self.bind spare parameter = .ok self') :
    (parameter.Matches self.admission self.index ∧ parameter.Fits) ∧
      Appended spare parameter.wire self.out self'.out ∧
        self'.admission = self.admission ∧ self'.index = self.index + 1 := by
  by_cases hnull : parameter = .null
  · subst hnull
    obtain ⟨⟨⟩, hcheck, hwrite⟩ := Lib.bind_eq_ok.mp h
    obtain ⟨out, hslices, hreturn⟩ := Lib.bind_eq_ok.mp hwrite
    cases hreturn
    exact ⟨⟨⟨checkAny_eq_ok.mp hcheck, nofun⟩, nofun⟩, written_slices L hslices, rfl, rfl⟩
  · obtain ⟨oid, format, payload, writer, htype, hpayload, hwrites, heq⟩ :=
      bind_typed L self hnull
    rw [heq] at h
    obtain ⟨⟨⟩, hcheck, hwrite⟩ := Lib.bind_eq_ok.mp h
    obtain ⟨out, hout, hreturn⟩ := Lib.bind_eq_ok.mp hwrite
    cases hreturn
    obtain ⟨hoid, hformat⟩ := check_eq_ok.mp hcheck
    obtain ⟨hlt, hwritten⟩ := hwrites.sound hout
    refine ⟨⟨⟨(List.getElem?_eq_some_iff.mp hoid).1, ?_⟩, ?_⟩, ?_, rfl, rfl⟩
    · intro type hmem
      cases htype.symm.trans hmem
      exact ⟨hoid, hformat⟩
    · intro other hother
      cases hpayload.symm.trans hother
      exact hlt
    · rw [Parameter.wire, hpayload]
      exact hwritten

/-- A value is written where it matches, fits and has room. -/
theorem BindWriter.bind_ok (self : BindWriter ω) {parameter : Parameter}
    (hroom : parameter.wire.length ≤ spare.room self.out)
    (hmatch : parameter.Matches self.admission self.index) (hfits : parameter.Fits) :
    ∃ self', self.bind spare parameter = .ok self' := by
  by_cases hnull : parameter = .null
  · subst hnull
    obtain ⟨out, hslices⟩ :=
      write_slices L self.out [toBytes (-1 : BitVec 32)] hroom
    exact ⟨{ self with out, index := self.index + 1 }, Lib.bind_eq_ok.mpr
      ⟨(), checkAny_eq_ok.mpr hmatch.1, Lib.bind_eq_ok.mpr ⟨out, hslices, rfl⟩⟩⟩
  · obtain ⟨oid, format, payload, writer, htype, hpayload, hwrites, heq⟩ :=
      bind_typed L self hnull
    rw [Parameter.wire, hpayload] at hroom
    obtain ⟨out, hout⟩ := hwrites.complete self.out hroom (hfits payload hpayload)
    refine ⟨{ self with out, index := self.index + 1 }, ?_⟩
    rw [heq]
    exact Lib.bind_eq_ok.mpr ⟨(), check_eq_ok.mpr (hmatch.2 _ htype),
      Lib.bind_eq_ok.mpr ⟨out, hout, rfl⟩⟩

theorem BindWriter.bindAll_admission : ∀ {parameters : List Parameter}
    {self self' : BindWriter ω}, bindAll spare parameters self = .ok self' →
      self'.admission = self.admission
  | [], _, _, h => by
    cases h
    rfl
  | _ :: _, _, _, h => by
    obtain ⟨middle, hbind, hall⟩ := Lib.bind_eq_ok.mp h
    exact (bindAll_admission hall).trans (bind_eq_ok L hbind).2.2.1

theorem BindWriter.bindAll_eq_ok : ∀ {parameters : List Parameter} {self self' : BindWriter ω},
    bindAll spare parameters self = .ok self' → self'.index = self.admission.oids.length →
      (Parameter.MatchAll self.admission self.index parameters ∧
        ∀ parameter ∈ parameters, parameter.Fits) ∧
        Appended spare (parameters.flatMap Parameter.wire) self.out self'.out ∧
          self'.index = self.index + parameters.length
  | [], self, self', h, hindex => by
    cases h
    exact ⟨⟨hindex, nofun⟩, .refl _, rfl⟩
  | parameter :: parameters, self, self', h, hindex => by
    obtain ⟨middle, hbind, hall⟩ := Lib.bind_eq_ok.mp h
    obtain ⟨⟨hmatch, hfits⟩, hwritten, hadmission, hnext⟩ := bind_eq_ok L hbind
    obtain ⟨⟨hmatches, hfit⟩, hwritten', hnext'⟩ :=
      bindAll_eq_ok hall (hadmission ▸ hindex)
    rw [hadmission, hnext] at hmatches
    refine ⟨⟨⟨hmatch, hmatches⟩, ?_⟩, ?_, ?_⟩
    · intro other hother
      rcases List.mem_cons.mp hother with rfl | hother
      · exact hfits
      · exact hfit other hother
    · exact hwritten.trans hwritten'
    · rw [hnext', hnext, List.length_cons]
      omega

theorem BindWriter.bindAll_ok : ∀ {parameters : List Parameter} (self : BindWriter ω),
    (parameters.flatMap Parameter.wire).length ≤ spare.room self.out →
      Parameter.MatchAll self.admission self.index parameters →
        (∀ parameter ∈ parameters, parameter.Fits) →
          ∃ self', bindAll spare parameters self = .ok self' ∧
            self'.index = self'.admission.oids.length
  | [], self, _, hmatch, _ => ⟨self, rfl, hmatch⟩
  | parameter :: parameters, self, hroom, hmatch, hfits => by
    rw [List.flatMap_cons, List.length_append] at hroom
    obtain ⟨middle, hbind⟩ :=
      bind_ok L self (by omega) hmatch.1 (hfits parameter List.mem_cons_self)
    obtain ⟨-, hwritten, hadmission, hnext⟩ := bind_eq_ok L hbind
    have hwritten := hwritten.2
    have hmatches := hmatch.2
    rw [← hadmission, ← hnext] at hmatches
    obtain ⟨self', hall, hindex⟩ := bindAll_ok middle (by omega) hmatches
      fun other hother => hfits other (List.mem_cons_of_mem parameter hother)
    exact ⟨self', Lib.bind_eq_ok.mpr ⟨middle, hbind, hall⟩, hindex⟩

theorem encode_eq_ok {admission : Admission} {parameters : List Parameter} {out out' : ω}
    (h : encode spare admission parameters out = .ok out') :
    (Parameter.MatchAll admission 0 parameters ∧ ∀ parameter ∈ parameters, parameter.Fits) ∧
      Appended spare (parameters.flatMap Parameter.wire) out out' ∧
        parameters.length = admission.oids.length := by
  obtain ⟨values, hall, hfinish⟩ := Lib.bind_eq_ok.mp h
  unfold BindWriter.finish at hfinish
  split_ifs at hfinish with hindex
  cases hfinish
  have hadmission : values.admission = admission := BindWriter.bindAll_admission L hall
  rw [hadmission] at hindex
  obtain ⟨hmatches, hwritten, hlength⟩ := BindWriter.bindAll_eq_ok L hall hindex
  exact ⟨hmatches, hwritten, by rw [← hindex, hlength]; exact (Nat.zero_add _).symm⟩

theorem encode_ok (admission : Admission) (parameters : List Parameter) (out : ω)
    (hroom : (parameters.flatMap Parameter.wire).length ≤ spare.room out)
    (hmatch : Parameter.MatchAll admission 0 parameters)
    (hfits : ∀ parameter ∈ parameters, parameter.Fits) :
    ∃ out', encode spare admission parameters out = .ok out' := by
  obtain ⟨values, hall, hindex⟩ :=
    BindWriter.bindAll_ok L (.new out admission) hroom hmatch hfits
  exact ⟨values.out, Lib.bind_eq_ok.mpr ⟨values, hall, if_pos hindex⟩⟩

end Bound

/-! ## What is read back -/

/-- The readers of a value return it, and the reader behind it. -/
def Parameter.ReadBack (reader reader' : RowReader) : Parameter → Prop
  | null => ∀ (A : Type) (decode : Column → Except Reason A),
    reader.optional decode = .ok (none, reader')
  | bool value =>
    reader.readBool = .ok (value, reader') ∧ reader.optionalBool = .ok (some value, reader')
  | int16 value =>
    reader.readI16 = .ok (value, reader') ∧ reader.optionalI16 = .ok (some value, reader')
  | int32 value | date value =>
    reader.readI32 = .ok (value, reader') ∧ reader.optionalI32 = .ok (some value, reader')
  | int64 value | time value =>
    reader.readI64 = .ok (value, reader') ∧ reader.optionalI64 = .ok (some value, reader')
  | float32 value =>
    reader.readF32 = .ok (value, reader') ∧ reader.optionalF32 = .ok (some value, reader')
  | float64 value =>
    reader.readF64 = .ok (value, reader') ∧ reader.optionalF64 = .ok (some value, reader')
  | text value | ltree value =>
    reader.readText = .ok (value.bytes, reader') ∧
      reader.optionalText = .ok (some value.bytes, reader')
  | jsonb value =>
    reader.readJson = .ok (value.bytes, reader') ∧
      reader.optionalJson = .ok (some value.bytes, reader')
  | bytes value =>
    reader.readBytes = .ok (value, reader') ∧ reader.optionalBytes = .ok (some value, reader')
  | uuid value =>
    reader.readFixed 16 = .ok (value.toList, reader') ∧
      reader.optionalUuid = .ok (some value.toList, reader')
  | arrayInt64 items => ∃ array, reader.readArrayI64 = .ok (array, reader') ∧ array.Holds items
  | arrayInt32 items => ∃ array, reader.readArrayI32 = .ok (array, reader') ∧ array.Holds items
  | arrayText items => ∃ array, reader.readArrayText = .ok (array, reader') ∧ array.Holds items

/-- The values are read back one after the other. -/
def Parameter.ReadAll : List Parameter → RowReader → RowReader → Prop
  | [], reader, reader' => reader' = reader
  | parameter :: parameters, reader, reader' => ∃ behind,
    parameter.ReadBack reader behind ∧ ReadAll parameters behind reader'

section Read

variable {reader reader' : RowReader}

/-- The column in front has the payload, and the reader behind it is another. -/
def Front (reader reader' : RowReader) (column : List UInt8) : Prop :=
  reader.start < reader.stop ∧ reader.buf = column ++ reader'.buf ∧
    reader'.start = reader.start + 1 ∧ reader'.stop = reader.stop

theorem Front.required {A : Type} {decode : Column → Except Reason A} {payload : List UInt8}
    {value : A} (h : Front reader reader' (wire payload)) (hlt : payload.length < 2 ^ 31)
    (hvalue : decode ⟨payload, reader.start⟩ = .ok value) :
    reader.required decode = .ok (value, reader') :=
  RowReader.required_eq_ok.mpr ⟨payload, h.1, hlt, hvalue, h.2⟩

theorem Front.both {A : Type} {decode : Column → Except Reason A} {payload : List UInt8}
    {value : A} (h : Front reader reader' (wire payload)) (hlt : payload.length < 2 ^ 31)
    (hvalue : decode ⟨payload, reader.start⟩ = .ok value) :
    reader.required decode = .ok (value, reader') ∧
      reader.optional decode = .ok (some value, reader') :=
  ⟨h.required hlt hvalue, RowReader.optional_eq_some.mpr (h.required hlt hvalue)⟩

/-- An array that was written is read, and holds its values. -/
theorem Front.array {E : Element} {values : List E.Item}
    (h : Front reader reader' (wire (Array.payload E.oid (values.map E.bytes))))
    (hlt : (Array.payload E.oid (values.map E.bytes)).length < 2 ^ 31) :
    ∃ array, reader.readArray E = .ok (array, reader') ∧ array.Holds values := by
  have hlength := Array.length_payload E.oid (values.map E.bytes)
  have hcount := Array.length_items_le (values.map E.bytes)
  have hshort : ∀ value ∈ values, (E.bytes value).length < 2 ^ 31 := by
    intro value hvalue
    have := Array.length_item_lt (List.mem_map_of_mem (f := E.bytes) hvalue)
    omega
  refine ⟨_, h.required hlt (Column.array_payload (by omega)), Array.holds_of_run ?_⟩
  dsimp only
  rw [List.length_map]
  exact Element.run_wire hshort

/-- What was written of a value is read back. -/
theorem Parameter.readBack_of_front {parameter : Parameter} (hfits : parameter.Fits)
    (h : Front reader reader' parameter.wire) : parameter.ReadBack reader reader' := by
  cases parameter with
  | null =>
    obtain ⟨hcolumns, hbuf, hstart, hstop⟩ := h
    exact fun A decode => RowReader.optional_null
      (RowReader.takeColumn_null.mpr ⟨hcolumns, rfl, hbuf, hstart, hstop⟩)
  | bool value => exact Front.both h (hfits _ rfl) (readBool_eq_ok.mpr rfl)
  | int16 value => exact Front.both h (hfits _ rfl) ((word_eq_ok (by decide)).mpr rfl)
  | int32 value => exact Front.both h (hfits _ rfl) ((word_eq_ok (by decide)).mpr rfl)
  | int64 value => exact Front.both h (hfits _ rfl) ((word_eq_ok (by decide)).mpr rfl)
  | float32 value => exact Front.both h (hfits _ rfl) ((word_eq_ok (by decide)).mpr rfl)
  | float64 value => exact Front.both h (hfits _ rfl) ((word_eq_ok (by decide)).mpr rfl)
  | text value =>
    exact Front.both h (hfits _ rfl) (text_eq_ok.mpr ⟨utf8Error_eq_none.mp value.utf8, rfl⟩)
  | ltree value =>
    exact Front.both h (hfits _ rfl) (text_eq_ok.mpr ⟨utf8Error_eq_none.mp value.utf8, rfl⟩)
  | jsonb value =>
    exact Front.both h (hfits _ rfl) (json_eq_ok.mpr ⟨utf8Error_eq_none.mp value.utf8, rfl⟩)
  | bytes value => exact Front.both h (hfits _ rfl) rfl
  | uuid value => exact Front.both h (hfits _ rfl) (fixed_eq_ok.mpr ⟨value.length_toList, rfl⟩)
  | time value => exact Front.both h (hfits _ rfl) ((word_eq_ok (by decide)).mpr rfl)
  | date value => exact Front.both h (hfits _ rfl) ((word_eq_ok (by decide)).mpr rfl)
  | arrayInt64 items => exact Front.array (E := .int64) h (hfits _ rfl)
  | arrayInt32 items => exact Front.array (E := .int32) h (hfits _ rfl)
  | arrayText items => exact Front.array (E := .text) h (hfits _ rfl)

theorem Parameter.readAll_of_written : ∀ {parameters : List Parameter} {start stop : ℕ},
    (∀ parameter ∈ parameters, parameter.Fits) → start + parameters.length = stop →
      ReadAll parameters ⟨parameters.flatMap wire, start, stop⟩ ⟨[], stop, stop⟩
  | [], start, stop, _, hstop => by
    obtain rfl : start = stop := hstop
    rfl
  | parameter :: parameters, start, stop, hfits, hstop => by
    rw [List.length_cons] at hstop
    refine ⟨⟨parameters.flatMap wire, start + 1, stop⟩, ?_, ?_⟩
    · exact readBack_of_front (hfits parameter List.mem_cons_self)
        ⟨by dsimp only; omega, rfl, rfl, rfl⟩
    · exact readAll_of_written (fun other hother => hfits other (List.mem_cons_of_mem _ hother))
        (by omega)

end Read

/-! ## Round trips -/

/-- The parameter of elements. -/
def Parameter.ofArray : (E : Element) → List E.Item → Parameter
  | .int32, values => .arrayInt32 values
  | .int64, values => .arrayInt64 values
  | .text, values => .arrayText values

/-- A statement with a parameter of an array. -/
def Admission.ofArray : Element → Admission
  | .int32 => ⟨[1007], [1], Nat.one_lt_two_pow (Nat.succ_ne_zero 14), Or.inl le_rfl⟩
  | .int64 => ⟨[1016], [1], Nat.one_lt_two_pow (Nat.succ_ne_zero 14), Or.inl le_rfl⟩
  | .text => ⟨[1009], [1], Nat.one_lt_two_pow (Nat.succ_ne_zero 14), Or.inl le_rfl⟩

theorem payload_ofArray (E : Element) (values : List E.Item) :
    (Parameter.ofArray E values).payload = some (Array.payload E.oid (values.map E.bytes)) := by
  cases E with
  | int32 => rfl
  | int64 => rfl
  | text => rfl

theorem matchAll_ofArray (E : Element) (values : List E.Item) :
    Parameter.MatchAll (Admission.ofArray E) 0 [Parameter.ofArray E values] := by
  cases E with
  | int32 => exact ⟨⟨Nat.one_pos, by rintro type ⟨⟩; exact ⟨rfl, rfl⟩⟩, rfl⟩
  | int64 => exact ⟨⟨Nat.one_pos, by rintro type ⟨⟩; exact ⟨rfl, rfl⟩⟩, rfl⟩
  | text => exact ⟨⟨Nat.one_pos, by rintro type ⟨⟩; exact ⟨rfl, rfl⟩⟩, rfl⟩

/-- The values of an array that was read fit into one that is written. -/
theorem fits_ofArray {E : Element} {array : Array E} {reader reader' : RowReader}
    (h : reader.readArray E = .ok (array, reader')) :
    (Parameter.ofArray E (E.run array.len array.bytes).1).Fits := by
  obtain ⟨column, -, hlt, hread, -⟩ := RowReader.required_eq_ok.mp h
  obtain ⟨hlength, -, rest, hbytes⟩ := @Element.run_spec E array.len array.bytes
  intro payload hpayload
  cases (payload_ofArray E _).symm.trans hpayload
  rw [Array.length_payload]
  rcases Column.array_eq_ok hread with hnone | hsome
  · rw [hnone, Nat.le_zero, List.length_eq_zero_iff] at hlength
    rw [hnone, hlength, List.map_nil, List.flatMap_nil]
    decide
  · have hcount := congrArg List.length hbytes
    rw [List.length_append] at hcount
    dsimp only at hsome
    omega

/-- Parameters that are written read back as they are, and are written exactly when they match
the statement, fit, and have room. An iterator over an array and its collection agree, and the
values of an array that was read are written and read back. -/
theorem round_trip {ω ε : Type} {spare : Spare ω ε} (L : spare.Lawful) :
    (∀ admission parameters out out', encode spare admission parameters out = .ok out' →
      ∃ values reader behind, spare.written out' = spare.written out ++ values ∧
        RowReader.new (toBytes (BitVec.ofNat 16 parameters.length) ++ values) parameters.length =
          .ok reader ∧
        Parameter.ReadAll parameters reader behind ∧ behind.finish = .ok ()) ∧
    (∀ admission parameters out, (∃ out', encode spare admission parameters out = .ok out') ↔
      Parameter.MatchAll admission 0 parameters ∧ (∀ parameter ∈ parameters, parameter.Fits) ∧
        (parameters.flatMap Parameter.wire).length ≤ spare.room out) ∧
    ∀ (E : Element) (array : Array E), ∃ values error,
      array.items = some (yields (values, error)) ∧
      (∀ memory : Memory, memory.Grants array.len →
        array.tryCollect memory = collected (values, error)) ∧
      (∀ memory, array.tryCollect memory = collected (values, error) ∨
        array.tryCollect memory = .error .allocation) ∧
      ∀ reader reader' : RowReader, reader.readArray E = .ok (array, reader') →
        ∀ out, (Parameter.ofArray E values).wire.length ≤ spare.room out → ∃ out' column,
          encode spare (.ofArray E) [Parameter.ofArray E values] out = .ok out' ∧
          spare.written out' = spare.written out ++ column ∧
          ∀ again again' : RowReader, Front again again' column → ∃ array',
            again.readArray E = .ok (array', again') ∧ array'.Holds values := by
  refine ⟨?_, ?_, ?_⟩
  · intro admission parameters out out' h
    obtain ⟨⟨-, hfits⟩, hwritten, hcount⟩ := encode_eq_ok L h
    refine ⟨_, ⟨parameters.flatMap Parameter.wire, 0, parameters.length⟩,
      ⟨[], parameters.length, parameters.length⟩, hwritten.1, ?_, ?_, ?_⟩
    · exact RowReader.new_eq_ok.mpr ⟨hcount ▸ admission.count, rfl, rfl, rfl⟩
    · exact Parameter.readAll_of_written hfits (Nat.zero_add _)
    · exact RowReader.finish_eq_ok.mpr ⟨le_rfl, rfl⟩
  · intro admission parameters out
    constructor
    · rintro ⟨out', h⟩
      obtain ⟨⟨hmatch, hfits⟩, hwritten, -⟩ := encode_eq_ok L h
      exact ⟨hmatch, hfits, hwritten.le⟩
    · rintro ⟨hmatch, hfits, hroom⟩
      exact encode_ok L admission parameters out hroom hmatch hfits
  · intro E array
    refine ⟨(E.run array.len array.bytes).1, (E.run array.len array.bytes).2, array.items_eq,
      fun memory hgrants => Array.tryCollect_granted hgrants,
      fun memory => (array.tryCollect_eq memory).imp_right And.left, ?_⟩
    intro reader reader' hread out hroom
    have hfits := fits_ofArray hread
    obtain ⟨out', hencode⟩ := encode_ok L (.ofArray E)
      [.ofArray E (E.run array.len array.bytes).1] out
      (by rw [List.flatMap_singleton]; exact hroom) (matchAll_ofArray E _)
      (by rintro parameter (- | ⟨-, ⟨⟩⟩); exact hfits)
    obtain ⟨-, hwritten, -⟩ := encode_eq_ok L hencode
    rw [List.flatMap_singleton] at hwritten
    refine ⟨out', _, hencode, hwritten.1, fun again again' hfront => ?_⟩
    rw [Parameter.wire, payload_ofArray] at hfront
    exact hfront.array (hfits _ (payload_ofArray E _))

/-- Bytes, and the room behind them. -/
def Spare.bounded : Spare (List UInt8 × ℕ) (ℕ × ℕ) where
  written := Prod.fst
  room := Prod.snd
  writeSlices out slices :=
    if slices.flatten.length ≤ out.2 then
      .ok (out.1 ++ slices.flatten, out.2 - slices.flatten.length)
    else .error (slices.flatten.length, out.2)
  edit out := if 4 ≤ out.2 then .ok ([], out.2 - 4) else .error (4, out.2)
  commit out inner head := (out.1 ++ head ++ inner.1, inner.2)

theorem Spare.bounded_lawful : Spare.bounded.Lawful where
  writeSlices {out out' slices} h := by
    simp only [bounded] at h ⊢
    split_ifs at h with hroom
    cases h
    exact ⟨rfl, Nat.sub_add_cancel hroom⟩
  grants out slices hroom := ⟨_, if_pos hroom⟩
  edit {out inner} h := by
    simp only [bounded] at h ⊢
    split_ifs at h with hroom
    cases h
    exact ⟨rfl, Nat.sub_add_cancel hroom⟩
  grantsEdit out hroom := ⟨_, if_pos hroom⟩
  commit := ⟨rfl, rfl⟩

/-- A boolean, a NULL and an empty array. -/
theorem round_trip_mixed : ∃ values reader behind,
    Spare.bounded.written ([0, 0, 0, 1, 1, 255, 255, 255, 255, 0, 0, 0, 20, 0, 0, 0, 1, 0, 0, 0, 0,
      0, 0, 0, 23, 0, 0, 0, 0, 0, 0, 0, 1], 7) = Spare.bounded.written ([], 40) ++ values ∧
    RowReader.new (toBytes (BitVec.ofNat 16 3) ++ values) 3 = .ok reader ∧
    Parameter.ReadAll [.bool true, .null, .arrayInt32 []] reader behind ∧
    behind.finish = .ok () :=
  (round_trip Spare.bounded_lawful).1
    ⟨[16, 25, 1007], [1], by decide, Or.inl le_rfl⟩
    [.bool true, .null, .arrayInt32 []] ([], 40) _ rfl

end Cartel.Pg.Value.Encode
