import Cartel.Value.Decode

/-!
# Arrays

A column of an array is a header and the elements, each with its length in front. The row
reader checks the header, and hands out the bytes behind it with the count of elements. They
are read one by one by an iterator, which ends after the first error, or all at once into
memory by `try_collect`. Whether memory is granted is a parameter.

`Array.iterated` : both are the same run over the bytes.
-/

namespace Cartel.Pg.Value

open Cartel.Lib Reply

/-! ## Elements -/

/-- `Text` : bytes that were checked. -/
structure Text where
  bytes : List UInt8
  utf8 : utf8Error bytes = none
  deriving DecidableEq

/-- The types with `array::Element`. -/
inductive Element where
  | int32
  | int64
  | text
  deriving DecidableEq

namespace Element

/-- `array::Element`, of a row. -/
@[reducible] def Item : Element → Type
  | int32 => BitVec 32
  | int64 => BitVec 64
  | text => Text

/-- `__read`, behind `element`. -/
def decode : (E : Element) → List UInt8 → Except Reason E.Item
  | int32, bytes =>
    if bytes.length = 4 then .ok (fromBytes 32 bytes) else .error (.arrayI32Width bytes.length)
  | int64, bytes =>
    if bytes.length = 8 then .ok (fromBytes 64 bytes) else .error (.arrayI64Width bytes.length)
  | text, bytes =>
    match h : utf8Error bytes with
    | none => .ok ⟨bytes, h⟩
    | some (valid, error) => .error (.arrayTextUtf8 valid (.fromError error))

/-- Whether `__own` takes memory. -/
def owns : Element → Bool
  | int32 | int64 => false
  | text => true

end Element

/-- `crate::Error`, as far as arrays cause it. -/
inductive Error where
  | allocation
  | protocol (reason : Reason)
  deriving DecidableEq

/-- Whether the memory for the values is granted, and for the copy of each. -/
structure Memory where
  block : ℕ → Bool
  own : ℕ → Bool

/-- `Element::__own`. -/
def Element.own (E : Element) (memory : Memory) (index : ℕ) : Except Error Unit :=
  if E.owns ∧ ¬memory.own index then .error .allocation else .ok ()

/-- The memory for an array of a length is granted. -/
def Memory.Grants (memory : Memory) (len : ℕ) : Prop :=
  memory.block len ∧ ∀ place, memory.own place

/-- `Block::try_new`. -/
def Memory.tryNew (memory : Memory) (len : ℕ) : Except Error Unit :=
  if memory.block len then .ok () else .error .allocation

/-- `element`. -/
def element (bytes : List UInt8) : Except Reason (List UInt8 × List UInt8) :=
  match split 4 bytes with
  | none => .error (.arrayLength bytes.length)
  | some (head, tail) =>
    let len := fromBytes 32 head
    if len = -1 then .error .arrayNull
    else if len.toInt < 0 then .error (.negativeArrayLength len.toInt)
    else
      match split len.toNat tail with
      | none => .error (.arrayBytes tail.length len.toNat)
      | some (head, tail) => .ok (head, tail)

/-- `Element::__read`. -/
def Element.read (E : Element) (bytes : List UInt8) : Except Reason (E.Item × List UInt8) := do
  let (bytes, rest) ← element bytes
  let value ← E.decode bytes
  return (value, rest)

/-! ## The array -/

/-- `array::Array`. -/
structure Array (E : Element) where
  bytes : List UInt8
  len : ℕ
  deriving DecidableEq

/-- `finish`. -/
def finish (bytes : List UInt8) : Except Reason Unit :=
  if bytes = [] then .ok () else .error (.arrayTrailing bytes.length)

/-- `State` of an iterator. -/
inductive Iter (E : Element) where
  | reading (bytes : List UInt8) (remaining : ℕ)
  | done
  deriving DecidableEq

namespace Iter

variable {E : Element}

/-- `Iter::next`. -/
def next : Iter E → Option (Except Reason E.Item) × Iter E
  | reading bytes 0 =>
    match finish bytes with
    | .ok () => (none, done)
    | .error error => (some (.error error), done)
  | reading bytes (left + 1) =>
    match E.read bytes with
    | .ok (value, rest) => (some (.ok value), reading rest left)
    | .error error => (some (.error error), done)
  | done => (none, done)

/-- What an iterator yields until it ends, if it does within `calls` calls. -/
def drain : ℕ → Iter E → Option (List (Except Reason E.Item))
  | 0, _ => none
  | calls + 1, iter =>
    match iter.next with
    | (none, _) => some []
    | (some item, iter) => (iter.drain calls).map (item :: ·)

end Iter

namespace Array

variable {E : Element} (array : Array E)

/-- `Array::into_iter`. -/
def intoIter : Iter E :=
  .reading array.bytes array.len

/-- All an iterator over the array yields. -/
def items : Option (List (Except Reason E.Item)) :=
  array.intoIter.drain (array.len + 2)

/-- `try_init` of `try_collect` : the values from an index on, and the bytes behind them. -/
def tryInit (memory : Memory) : ℕ → ℕ → List UInt8 → Except Error (List E.Item × List UInt8)
  | _, 0, bytes => .ok ([], bytes)
  | index, left + 1, bytes => do
    let (value, bytes) ← (E.read bytes).mapError .protocol
    E.own memory index
    let (values, bytes) ← tryInit memory (index + 1) left bytes
    return (value :: values, bytes)

/-- `Array::try_collect`. -/
def tryCollect (memory : Memory) : Except Error (List E.Item) := do
  memory.tryNew array.len
  let (values, bytes) ← tryInit memory 0 array.len array.bytes
  (finish bytes).mapError .protocol
  return values

end Array

/-! ## Columns of arrays -/

/-- `ArrayElement`. -/
inductive ArrayElement where
  | exact (oid : BitVec 32)
  | string
  deriving DecidableEq

/-- The check of the type of the elements. -/
def ArrayElement.check (index : ℕ) (oid : BitVec 32) : ArrayElement → Except Reason Unit
  | .exact want =>
    if oid ≠ want then .error (.arrayOid index oid.toNat want.toNat) else .ok ()
  | string =>
    if ¬(oid = 19 ∨ oid = 25 ∨ oid = 1042 ∨ oid = 1043) then
      .error (.arrayTextOid index oid.toNat)
    else .ok ()

namespace Column

variable (column : Column)

/-- `Column::take_fixed`. -/
def takeFixed (width : ℕ) : Except Reason (List UInt8 × Column) :=
  match split width column.buf with
  | none => .error (.arrayHeader column.index column.buf.length width)
  | some (head, tail) => .ok (head, ⟨tail, column.index⟩)

/-- `Column::array_header` : the count of elements, and the column behind the header. -/
def arrayHeader (want : ArrayElement) : Except Reason (ℕ × Column) := do
  let (header, column) ← column.takeFixed 12
  let ndim := fromBytes 32 (header.take 4)
  let nulls := fromBytes 32 ((header.drop 4).take 4)
  let oid := fromBytes 32 (header.drop 8)
  want.check column.index oid
  if nulls ≠ 0 then .error (.arrayNulls column.index nulls.toInt)
  else if ndim = 0 then .ok (0, column)
  else if ndim ≠ 1 then .error (.arrayDimensions column.index ndim.toInt)
  else do
    let (dimension, column) ← column.takeFixed 8
    let dim := fromBytes 32 (dimension.take 4)
    if dim.toInt < 0 then .error (.negativeArrayDimension column.index dim.toInt)
    else if column.buf.length / 4 < dim.toNat then
      .error (.arrayPayload column.index dim.toNat column.buf.length)
    else .ok (dim.toNat, column)

/-- The array of a column. -/
def array (E : Element) (want : ArrayElement) : Except Reason (Array E) := do
  let (len, column) ← column.arrayHeader want
  return ⟨column.buf, len⟩

end Column

/-- The elements a column may have. -/
def Element.want : Element → ArrayElement
  | int32 => .exact 23
  | int64 => .exact 20
  | text => .string

namespace RowReader

variable (reader : RowReader)

/-- The reader of an array. -/
def readArray (E : Element) : Except Reason (Array E × RowReader) :=
  reader.required (·.array E E.want)

/-- `Arrays::read_i64`. -/
def readArrayI64 : Except Reason (Array .int64 × RowReader) :=
  reader.readArray .int64

/-- `Arrays::read_i32`. -/
def readArrayI32 : Except Reason (Array .int32 × RowReader) :=
  reader.readArray .int32

/-- `Arrays::read_text`. -/
def readArrayText : Except Reason (Array .text × RowReader) :=
  reader.readArray .text

end RowReader

/-! ## Elements that are there -/

/-- `element` takes a payload with its length. -/
theorem element_eq_ok {bytes payload rest : List UInt8} :
    element bytes = .ok (payload, rest) ↔
      payload.length < 2 ^ 31 ∧ bytes = wire payload ++ rest := by
  unfold element
  constructor
  · intro h
    split at h
    · cases h
    · rename_i head tail hhead
      dsimp only at h
      split_ifs at h with hnull hneg
      split at h
      · cases h
      · rename_i payload' rest' hpayload
        cases h
        exact split_payload hhead hneg hpayload
  · rintro ⟨hlt, rfl⟩
    rw [wire, List.append_assoc, split_word]
    dsimp only
    rw [fromBytes_toBytes (by decide), if_neg (length_ne_null hlt), if_neg (not_length_neg hlt),
      toNat_length hlt, split_append rfl]

/-- The error for bytes that are left. -/
def trailing (bytes : List UInt8) : Option Reason :=
  match finish bytes with
  | .ok () => none
  | .error error => some error

namespace Element

variable {E : Element}

/-- The bytes of an element. -/
def bytes : (E : Element) → E.Item → List UInt8
  | int32, value => toBytes (show BitVec 32 from value)
  | int64, value => toBytes (show BitVec 64 from value)
  | text, value => (show Text from value).bytes

theorem decode_eq_ok {payload : List UInt8} {value : E.Item} :
    E.decode payload = .ok value ↔ payload = E.bytes value := by
  cases E with
  | int32 =>
    change (if payload.length = 4 then Except.ok (fromBytes 32 payload) else _) = _ ↔
      payload = toBytes _
    split_ifs with h
    · constructor
      · intro heq
        cases heq
        exact (toBytes_fromBytes (by rw [h])).symm
      · rintro rfl
        rw [fromBytes_toBytes (by decide)]
    · exact iff_of_false nofun fun heq => h (heq ▸ length_toBytes _)
  | int64 =>
    change (if payload.length = 8 then Except.ok (fromBytes 64 payload) else _) = _ ↔
      payload = toBytes _
    split_ifs with h
    · constructor
      · intro heq
        cases heq
        exact (toBytes_fromBytes (by rw [h])).symm
      · rintro rfl
        rw [fromBytes_toBytes (by decide)]
    · exact iff_of_false nofun fun heq => h (heq ▸ length_toBytes _)
  | text =>
    rw [decode]
    change _ ↔ payload = Text.bytes value
    split
    · rename_i h
      constructor
      · intro heq
        cases heq
        rfl
      · rintro rfl
        rfl
    · rename_i h
      refine iff_of_false nofun ?_
      rintro rfl
      exact nomatch h.symm.trans value.utf8

/-- An element is read exactly when its bytes are in front. -/
theorem read_eq_ok {bytes rest : List UInt8} {value : E.Item} :
    E.read bytes = .ok (value, rest) ↔
      (E.bytes value).length < 2 ^ 31 ∧ bytes = wire (E.bytes value) ++ rest := by
  unfold read
  rw [bind_eq_ok]
  constructor
  · rintro ⟨⟨payload, behind⟩, helement, h⟩
    obtain ⟨value', hvalue, h⟩ := bind_eq_ok.mp h
    cases h
    rw [← decode_eq_ok.mp hvalue]
    exact element_eq_ok.mp helement
  · intro h
    exact ⟨_, element_eq_ok.mpr h, bind_eq_ok.mpr ⟨value, decode_eq_ok.mpr rfl, rfl⟩⟩

/-- The values in front of the first error, and that error. -/
def run (E : Element) : ℕ → List UInt8 → List E.Item × Option Reason
  | 0, bytes => ([], trailing bytes)
  | left + 1, bytes =>
    match E.read bytes with
    | .ok (value, rest) => ((value :: (E.run left rest).1), (E.run left rest).2)
    | .error error => ([], some error)

/-- What a run found is there, in front of what was not read. -/
theorem run_spec : ∀ {left : ℕ} {bytes : List UInt8},
    (E.run left bytes).1.length ≤ left ∧
      (∀ value ∈ (E.run left bytes).1, (E.bytes value).length < 2 ^ 31) ∧
        ∃ rest, bytes = ((E.run left bytes).1.map E.bytes).flatMap wire ++ rest
  | 0, bytes => by
    exact ⟨le_rfl, nofun, bytes, rfl⟩
  | left + 1, bytes => by
    unfold run
    split
    · rename_i value behind h
      obtain ⟨hlt, hbytes⟩ := read_eq_ok.mp h
      obtain ⟨hlength, hvalues, rest, hrest⟩ := @run_spec left behind
      refine ⟨Nat.succ_le_succ hlength, ?_, rest, ?_⟩
      · intro other hother
        rcases List.mem_cons.mp hother with rfl | hother
        · exact hlt
        · exact hvalues other hother
      · rw [List.map_cons, List.flatMap_cons, List.append_assoc, ← hrest]
        exact hbytes
    · exact ⟨Nat.zero_le _, nofun, bytes, rfl⟩

/-- A run over values finds them. -/
theorem run_wire : ∀ {values : List E.Item},
    (∀ value ∈ values, (E.bytes value).length < 2 ^ 31) →
      E.run values.length ((values.map E.bytes).flatMap wire) = (values, none)
  | [], _ => rfl
  | value :: values, h => by
    have hread : E.read (((value :: values).map E.bytes).flatMap wire) =
        .ok (value, (values.map E.bytes).flatMap wire) :=
      read_eq_ok.mpr ⟨h value List.mem_cons_self, rfl⟩
    rw [List.length_cons, run, hread]
    dsimp only
    rw [run_wire fun other hother => h other (List.mem_cons_of_mem value hother)]

end Element

/-! ## The iterator and the collection -/

/-- What an iterator yields for a run. -/
def yields {A : Type} (run : List A × Option Reason) : List (Except Reason A) :=
  run.1.map .ok ++ run.2.toList.map .error

/-- What is collected for a run. -/
def collected {A : Type} (run : List A × Option Reason) : Except Error (List A) :=
  match run.2 with
  | none => .ok run.1
  | some error => .error (.protocol error)

namespace Array

variable {E : Element}

theorem drain_eq : ∀ {left : ℕ} {bytes : List UInt8},
    (Iter.reading bytes left : Iter E).drain (left + 2) = some (yields (E.run left bytes))
  | 0, bytes => by
    rw [Iter.drain, Iter.next, Element.run, trailing]
    rcases finish bytes with error | ⟨⟩
    · rfl
    · rfl
  | left + 1, bytes => by
    rw [Iter.drain, Iter.next, Element.run]
    rcases E.read bytes with error | ⟨value, rest⟩
    · rfl
    · dsimp only
      rw [drain_eq]
      rfl

/-- An iterator ends, and yields the run over the bytes. -/
theorem items_eq (array : Array E) : array.items = some (yields (E.run array.len array.bytes)) :=
  drain_eq

theorem tryInit_eq_ok {memory : Memory} : ∀ {left index : ℕ} {bytes rest : List UInt8}
    {values : List E.Item}, tryInit memory index left bytes = .ok (values, rest) →
      E.run left bytes = (values, trailing rest)
  | 0, _, _, _, _, h => by
    cases h
    rfl
  | left + 1, index, bytes, rest, values, h => by
    rw [tryInit] at h
    obtain ⟨⟨value, behind⟩, hread, h⟩ := bind_eq_ok.mp h
    obtain ⟨-, -, h⟩ := bind_eq_ok.mp h
    obtain ⟨⟨values', rest'⟩, hinit, h⟩ := bind_eq_ok.mp h
    cases h
    rw [Element.run, mapError_eq_ok.mp hread]
    dsimp only
    rw [tryInit_eq_ok hinit]

/-- The loop stops at the error the run ends with, or for memory. -/
theorem tryInit_eq_error {memory : Memory} {error : Error} : ∀ {left index : ℕ}
    {bytes : List UInt8}, tryInit (E := E) memory index left bytes = .error error →
      (∃ reason, error = .protocol reason ∧ (E.run left bytes).2 = some reason) ∨
        error = .allocation ∧ E.owns ∧ ∃ place, memory.own place = false
  | left + 1, index, bytes, h => by
    rw [tryInit] at h
    rw [Element.run]
    rcases bind_eq_error.mp h with hfail | ⟨⟨value, behind⟩, hread, hnext⟩
    · obtain ⟨reason, hread, rfl⟩ := mapError_eq_error.mp hfail
      exact Or.inl ⟨reason, rfl, by rw [hread]⟩
    · rw [mapError_eq_ok.mp hread]
      rcases bind_eq_error.mp hnext with hown | ⟨-, -, hloop⟩
      · unfold Element.own at hown
        split_ifs at hown with hrefused
        cases hown
        exact Or.inr ⟨rfl, hrefused.1, index, by simpa using hrefused.2⟩
      · rcases bind_eq_error.mp hloop with hinit | ⟨_, -, hreturn⟩
        · exact tryInit_eq_error hinit
        · cases hreturn

/-- The values are collected up to the error of the run, if memory is granted. -/
theorem tryCollect_eq (array : Array E) (memory : Memory) :
    array.tryCollect memory = collected (E.run array.len array.bytes) ∨
      array.tryCollect memory = .error .allocation ∧
        (memory.block array.len = false ∨ E.owns ∧ ∃ place, memory.own place = false) := by
  rcases hcollect : array.tryCollect memory with error | values
  · unfold tryCollect at hcollect
    rcases bind_eq_error.mp hcollect with hblock | ⟨-, -, hloop⟩
    · unfold Memory.tryNew at hblock
      split_ifs at hblock with hgranted
      cases hblock
      exact Or.inr ⟨rfl, Or.inl (by simpa using hgranted)⟩
    · rcases bind_eq_error.mp hloop with hfail | ⟨⟨values, rest⟩, hinit, hend⟩
      · rcases tryInit_eq_error hfail with ⟨reason, rfl, hrun⟩ | ⟨rfl, hrefused⟩
        · exact Or.inl (by rw [collected, hrun])
        · exact Or.inr ⟨rfl, Or.inr hrefused⟩
      · rcases bind_eq_error.mp hend with hfinish | ⟨-, -, hreturn⟩
        · obtain ⟨reason, hreason, rfl⟩ := mapError_eq_error.mp hfinish
          exact Or.inl (by rw [collected, tryInit_eq_ok hinit, trailing, hreason])
        · cases hreturn
  · unfold tryCollect at hcollect
    obtain ⟨-, -, hloop⟩ := bind_eq_ok.mp hcollect
    obtain ⟨⟨values', rest⟩, hinit, hend⟩ := bind_eq_ok.mp hloop
    obtain ⟨⟨⟩, hfinish, hreturn⟩ := bind_eq_ok.mp hend
    cases hreturn
    exact Or.inl (by rw [collected, tryInit_eq_ok hinit, trailing, mapError_eq_ok.mp hfinish])

/-- An array has the values, for its iterator and for the collection. -/
def Holds (array : Array E) (values : List E.Item) : Prop :=
  array.items = some (values.map .ok) ∧
    ∀ memory : Memory, memory.Grants array.len → array.tryCollect memory = .ok values

theorem tryCollect_granted {array : Array E} {memory : Memory} (h : memory.Grants array.len) :
    array.tryCollect memory = collected (E.run array.len array.bytes) := by
  rcases array.tryCollect_eq memory with heq | ⟨-, hblock | ⟨-, place, hown⟩⟩
  · exact heq
  · exact nomatch h.1.symm.trans hblock
  · exact nomatch (h.2 place).symm.trans hown

theorem holds_of_run {array : Array E} {values : List E.Item}
    (h : E.run array.len array.bytes = (values, none)) : array.Holds values := by
  refine ⟨?_, fun memory hgrants => ?_⟩
  · rw [items_eq, h, yields]
    exact congrArg some (List.append_nil _)
  · rw [tryCollect_granted hgrants, h, collected]

/-- The column of an array, with the elements and their type. -/
def payload (oid : BitVec 32) (items : List (List UInt8)) : List UInt8 :=
  (toBytes (1 : BitVec 32) ++ (toBytes (0 : BitVec 32) ++ toBytes oid)) ++
    ((toBytes (BitVec.ofNat 32 items.length) ++ toBytes (1 : BitVec 32)) ++ items.flatMap wire)

theorem length_payload (oid : BitVec 32) (items : List (List UInt8)) :
    (payload oid items).length = 20 + (items.flatMap wire).length := by
  unfold payload
  simp only [List.length_append, length_toBytes]
  omega

/-- Each element takes the bytes of its length. -/
theorem length_items_le : ∀ items : List (List UInt8),
    4 * items.length ≤ (items.flatMap wire).length
  | [] => le_rfl
  | item :: items => by
    have ih := length_items_le items
    rw [List.flatMap_cons, List.length_append, length_wire, List.length_cons]
    omega

theorem length_item_lt {items : List (List UInt8)} {item : List UInt8} (h : item ∈ items) :
    item.length < (items.flatMap wire).length := by
  obtain ⟨before, behind, rfl⟩ := List.append_of_mem h
  rw [List.flatMap_append, List.flatMap_cons, List.length_append, List.length_append, length_wire]
  omega

end Array

/-! ## Columns of the elements -/

/-- The type of the elements that are written. -/
def Element.oid : Element → BitVec 32
  | .int32 => 23
  | .int64 => 20
  | .text => 25

namespace Column

variable {E : Element} {index : ℕ}

theorem takeFixed_append {head tail : List UInt8} {width : ℕ} (h : head.length = width) :
    takeFixed ⟨head ++ tail, index⟩ width = .ok (head, ⟨tail, index⟩) := by
  unfold takeFixed
  dsimp only
  rw [split_append h]

theorem takeFixed_eq_ok {column column' : Column} {head : List UInt8} {width : ℕ}
    (h : column.takeFixed width = .ok (head, column')) :
    column.buf.length = width + column'.buf.length := by
  unfold takeFixed at h
  split at h
  · cases h
  · rename_i head' tail hsplit
    cases h
    obtain ⟨hlength, hbuf⟩ := split_eq_some.mp hsplit
    rw [hbuf, List.length_append, hlength]

theorem check_oid (E : Element) : E.want.check index E.oid = .ok () := by
  cases E with
  | int32 => rfl
  | int64 => rfl
  | text => rfl

/-- The array of the elements written. -/
theorem array_payload {items : List (List UInt8)} (h : items.length < 2 ^ 31) :
    array ⟨Array.payload E.oid items, index⟩ E E.want =
      .ok ⟨items.flatMap wire, items.length⟩ := by
  have hheader : (toBytes (1 : BitVec 32) ++ (toBytes (0 : BitVec 32) ++ toBytes E.oid)).length =
      12 := by
    simp only [List.length_append, length_toBytes]
  have hdimension : (toBytes (BitVec.ofNat 32 items.length) ++ toBytes (1 : BitVec 32)).length =
      8 := by
    simp only [List.length_append, length_toBytes]
  have hle := Array.length_items_le items
  unfold array
  refine bind_eq_ok.mpr ⟨(items.length, ⟨items.flatMap wire, index⟩), ?_, rfl⟩
  unfold arrayHeader Array.payload
  refine bind_eq_ok.mpr ⟨_, takeFixed_append hheader, ?_⟩
  dsimp only
  have hndim : (toBytes (1 : BitVec 32) ++ (toBytes (0 : BitVec 32) ++ toBytes E.oid)).take 4 =
      toBytes (1 : BitVec 32) := List.take_left' (length_toBytes _)
  have hdrop : (toBytes (1 : BitVec 32) ++ (toBytes (0 : BitVec 32) ++ toBytes E.oid)).drop 4 =
      toBytes (0 : BitVec 32) ++ toBytes E.oid := List.drop_left' (length_toBytes _)
  have hnulls : (toBytes (0 : BitVec 32) ++ toBytes E.oid).take 4 = toBytes (0 : BitVec 32) :=
    List.take_left' (length_toBytes _)
  have hoid : (toBytes (1 : BitVec 32) ++ (toBytes (0 : BitVec 32) ++ toBytes E.oid)).drop 8 =
      toBytes E.oid := by
    rw [← List.append_assoc]
    exact List.drop_left' rfl
  have hdim : (toBytes (BitVec.ofNat 32 items.length) ++ toBytes (1 : BitVec 32)).take 4 =
      toBytes (BitVec.ofNat 32 items.length) := List.take_left' (length_toBytes _)
  rw [hndim, hdrop, hnulls, hoid]
  simp only [fromBytes_toBytes (show 8 ∣ 32 by decide)]
  refine bind_eq_ok.mpr ⟨(), check_oid E, ?_⟩
  rw [if_neg (not_not.mpr rfl), if_neg (by decide), if_neg (not_not.mpr rfl)]
  refine bind_eq_ok.mpr ⟨_, takeFixed_append hdimension, ?_⟩
  dsimp only
  rw [hdim, fromBytes_toBytes (by decide), if_neg (not_length_neg h), toNat_length h,
    if_neg (by omega)]

/-- The elements of an array are within its column. -/
theorem array_eq_ok {want : ArrayElement} {column : Column} {read : Array E}
    (h : column.array E want = .ok read) :
    read.len = 0 ∨ column.buf.length = 20 + read.bytes.length := by
  unfold array at h
  obtain ⟨⟨len, behind⟩, hheader, hread⟩ := bind_eq_ok.mp h
  cases hread
  unfold arrayHeader at hheader
  obtain ⟨⟨header, column'⟩, htake, hrest⟩ := bind_eq_ok.mp hheader
  obtain ⟨-, -, hrest⟩ := bind_eq_ok.mp hrest
  split_ifs at hrest with hnulls hnone hndim
  · cases hrest
    exact Or.inl rfl
  · obtain ⟨⟨dimension, column''⟩, htake', hrest⟩ := bind_eq_ok.mp hrest
    dsimp only at hrest
    split_ifs at hrest with hneg hmany
    cases hrest
    have hlength := takeFixed_eq_ok htake
    have hlength' := takeFixed_eq_ok htake'
    exact Or.inr (by dsimp only; omega)

end Column

end Cartel.Pg.Value
