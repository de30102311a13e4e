import Cartel.Lib.Decimal
import Cartel.Lib.Outcome
import Cartel.Parser.Reader

/-!
# Request frames

A command is framed as an array of bulk strings, `wire`. Its length is computed before a
buffer is taken, and the writer then fills a buffer of exactly that length. `encode` frames
a list of arguments, `sequence` a list of items of one width, `eval` a script call.

The buffer belongs to the runtime : `Output` stands for it, and `Output.Lawful` states what
is used. Whenever the length computation succeeds the writer writes `wire` of the
arguments and fills the buffer (`Framed`), and the parser reads the frame back.
-/

namespace Cartel.Redis

open Cartel.Lib

/-! ## Lengths -/

/-- `request::Error`. `κ` and `ε` are the causes of the buffer and of egress. -/
inductive Request.Error (κ ε : Type) where
  | length (actual maximum : ℕ)
  | add (left right : ℕ)
  | mul (left right : ℕ)
  | capacity (cause : κ)
  | write (cause : κ)
  | bulkLength (declared actual : ℕ)
  | items (declared actual : ℕ)
  | incomplete (remaining : ℕ)
  | egress (cause : ε)

namespace Request

variable {σ ω κ φ ε : Type}

/-- `i64::MAX`. -/
def maximum : ℕ :=
  2 ^ 63 - 1

/-- `Number::new`. -/
def number (value : ℕ) : Except (Error κ ε) ℕ :=
  if value > maximum then .error (.length value maximum) else .ok value

/-- `Number::digits`, with `ilog10`. -/
def numberDigits (value : ℕ) : ℕ :=
  Nat.log 10 value + 1

/-- `add_count`. The sum is a `usize`. -/
def addCount (base len : ℕ) : Except (Error κ ε) ℕ :=
  if base + len < 2 ^ 64 then .ok (base + len) else .error (.add base len)

/-- `add_group_count`. -/
def addGroupCount (base len width : ℕ) : Except (Error κ ε) ℕ :=
  if len * width < 2 ^ 64 then addCount base (len * width) else .error (.mul len width)

/-- `next_item`. -/
def nextItem (declared actual : ℕ) : Except (Error κ ε) ℕ := do
  let actual ← addCount actual 1
  if actual > declared then .error (.items declared actual) else .ok actual

/-- `check_items`. -/
def checkItems (declared actual : ℕ) : Except (Error κ ε) Unit :=
  if actual ≠ declared then .error (.items declared actual) else .ok ()

/-- `encode::Length`. -/
structure Length where
  get : ℕ
  pos : 0 < get
  lt : get < 2 ^ 64

namespace Length

/-- `Length::array`. The addition saturates. -/
def array (count : ℕ) : Except (Error κ ε) Length := do
  let count ← number count
  .ok ⟨min (1 + (2 + numberDigits count)) (2 ^ 64 - 1), by omega, by omega⟩

/-- `Length::add`. -/
def add (self : Length) (amount : ℕ) : Except (Error κ ε) Length :=
  if h : self.get + amount < 2 ^ 64 then
    .ok ⟨self.get + amount, Nat.lt_of_lt_of_le self.pos (Nat.le_add_right _ _), h⟩
  else .error (.add self.get amount)

/-- `Length::bulk`. -/
def bulk (self : Length) (len : ℕ) : Except (Error κ ε) Length := do
  let length ← number len
  let self ← self.add 5
  let self ← self.add (numberDigits length)
  self.add len

/-- `Length::bulk` for one argument after the other. -/
def bulks (self : Length) (lens : List ℕ) : Except (Error κ ε) Length :=
  lens.foldlM bulk self

end Length

/-! ## The writer -/

/-- The loop of `cartel_core::write_digits`, before the digit at `index - 1`. The buffer
has a digit for every `u64`, so its front is not passed. -/
def writeDigitsFrom : ℕ → List UInt8 → ℕ → List UInt8 × ℕ
  | 0, buffer, _ => (buffer, 0)
  | index + 1, buffer, value =>
    let buffer := buffer.set index (48 + UInt8.ofNat (value % 10))
    let value := value / 10
    if value = 0 then (buffer, index) else writeDigitsFrom index buffer value

/-- `cartel_core::write_digits` : the buffer, and the start of the digits in it. -/
def writeDigits (buffer : List UInt8) (value : ℕ) : List UInt8 × ℕ :=
  writeDigitsFrom buffer.length buffer value

/-- `format_header_into`, on a buffer of 23 bytes. -/
def formatHeaderInto (buffer : List UInt8) (marker : UInt8) (value : ℕ) : List UInt8 :=
  let (digits, start) := writeDigits ((buffer.drop 1).take 20) value
  ((buffer.take 1 ++ digits ++ [13, 10]).set start marker).drop start

/-- `frame::Sensitivity`. -/
inductive Sensitivity where
  | plain
  | secret
  deriving DecidableEq

/-- The buffers of the runtime : a `pool::Limit` over a `pool::Span`, what `into_parts`
takes out of it, and `egress::NonEmpty`. -/
structure Output (σ ω κ φ ε : Type) where
  tryFrom : σ → ℕ → Sensitivity → Except κ ω
  tryExtend : ω → List UInt8 → Except κ ω
  remaining : ω → ℕ
  intoParts : ω → List UInt8 × Sensitivity
  tryNew : List UInt8 × Sensitivity → Except ε φ

/-- A limit starts empty, and takes bytes while they fit. -/
structure Output.Lawful (o : Output σ ω κ φ ε) : Prop where
  fresh : ∀ {span length kind out}, o.tryFrom span length kind = .ok out →
    o.remaining out = length ∧ o.intoParts out = ([], kind)
  extend : ∀ {out} (bytes : List UInt8), bytes.length ≤ o.remaining out →
    ∃ out', o.tryExtend out bytes = .ok out' ∧
      o.remaining out' + bytes.length = o.remaining out ∧
      o.intoParts out' = ((o.intoParts out).1 ++ bytes, (o.intoParts out).2)

/-- `request::Bulk` : the length, and the chunks a visit yields. -/
class Bulk (B : Type) where
  len : B → ℕ
  chunks : B → List (List UInt8)

/-- A byte slice is one chunk. -/
instance : Bulk (List UInt8) :=
  ⟨List.length, fun bytes => [bytes]⟩

/-- The bytes of a payload. -/
def Bulk.bytes {B : Type} [Bulk B] (payload : B) : List UInt8 :=
  (chunks payload).flatten

/-- The contract of `Bulk` : a visit yields exactly `len` bytes. -/
def Bulk.Exact {B : Type} [Bulk B] (payload : B) : Prop :=
  (bytes payload).length = len payload

/-- `encode::Arguments` : items of one width. -/
class Arguments (I : Type) where
  width : ℕ
  width_pos : 0 < width
  values : I → List (List UInt8)
  length_values : ∀ item, (values item).length = width

/-- A single key. -/
instance : Arguments (List UInt8) :=
  ⟨1, Nat.one_pos, fun key => [key], fun _ => rfl⟩

/-- A key and a value. -/
instance : Arguments (List UInt8 × List UInt8) :=
  ⟨2, Nat.two_pos, fun item => [item.1, item.2], fun _ => rfl⟩

namespace Output

variable (o : Output σ ω κ φ ε)

/-- `Writer::extend`. -/
def extend (out : ω) (bytes : List UInt8) : Except (Error κ ε) ω :=
  (o.tryExtend out bytes).mapError .write

/-- The visitor of `Writer::bulk`, on the bytes written so far. -/
def visit (declared : ℕ) (written : Except (Error κ ε) (ℕ × ω)) (chunk : List UInt8) :
    Except (Error κ ε) (ℕ × ω) := do
  let (current, out) ← written
  let actual ← addCount current chunk.length
  if actual > declared then .error (.bulkLength declared actual)
  else
    let out ← o.extend out chunk
    .ok (actual, out)

/-- `Writer::bulk`. -/
def bulk {B : Type} [Bulk B] (out : ω) (payload : B) : Except (Error κ ε) ω := do
  let declared := Bulk.len payload
  let out ← o.extend out (formatHeaderInto (List.replicate 23 0) 36 declared)
  let (actual, out) ← (Bulk.chunks payload).foldl (o.visit declared) (.ok (0, out))
  if actual ≠ declared then .error (.bulkLength declared actual) else o.extend out [13, 10]

/-- `Writer::bulk` for one argument after the other. -/
def bulks {B : Type} [Bulk B] (out : ω) (payloads : List B) : Except (Error κ ε) ω :=
  payloads.foldlM o.bulk out

/-- `Writer::array`. -/
def array (out : ω) (count : ℕ) : Except (Error κ ε) ω :=
  o.extend out (formatHeaderInto (List.replicate 23 0) 42 count)

/-- `Complete::encode`. -/
def complete (out : ω) (encode : ω → Except (Error κ ε) ω) : Except (Error κ ε) φ := do
  let out ← encode out
  if o.remaining out ≠ 0 then .error (.incomplete (o.remaining out))
  else (o.tryNew (o.intoParts out)).mapError .egress

/-- `Encoder::admit_with`. -/
def admitWith (frame : σ) (length : Length) (kind : Sensitivity)
    (encode : ω → Except (Error κ ε) ω) : Except (Error κ ε) φ := do
  let out ← (o.tryFrom frame length.get kind).mapError .capacity
  o.complete out encode

end Output

/-! ## The encoders -/

/-- The length computation of `Encoder::encode`, with the argument count. -/
def encodeLength (head tail : List (List UInt8)) : Except (Error κ ε) (ℕ × Length) := do
  let count ← addCount head.length tail.length
  let length ← Length.array count
  let length ← length.bulks ((head ++ tail).map List.length)
  .ok (count, length)

/-- One item of the first traversal of `Encoder::sequence`. -/
def measureItem {I : Type} [Arguments I] (declared : ℕ) (measured : ℕ × Length) (item : I) :
    Except (Error κ ε) (ℕ × Length) := do
  let actual ← nextItem declared measured.1
  let length ← measured.2.bulks ((Arguments.values item).map List.length)
  .ok (actual, length)

/-- The length computation of `Encoder::sequence`, with the argument count. -/
def sequenceLength {I : Type} [Arguments I] (head : List (List UInt8)) (declared : ℕ)
    (items : List I) : Except (Error κ ε) (ℕ × Length) := do
  let count ← addGroupCount head.length declared (Arguments.width I)
  let length ← Length.array count
  let length ← length.bulks (head.map List.length)
  let (actual, length) ← items.foldlM (measureItem declared) (0, length)
  checkItems declared actual
  .ok (count, length)

/-- `script::count`. -/
def scriptCount (keys args : ℕ) : Except (Error κ ε) ℕ := do
  let variable_count ← addCount keys args
  addCount 3 variable_count

/-- `script::start`. -/
def scriptStart (script : List UInt8) (keys args : ℕ) : Except (Error κ ε) Length := do
  let count ← scriptCount keys args
  let length ← Length.array count
  let length ← length.bulk 4
  let length ← length.bulk script.length
  length.bulk (numberDigits keys)

/-- `script::length`. -/
def scriptLength {A : Type} [Bulk A] (script : List UInt8) (keys : List (List UInt8))
    (args : List A) : Except (Error κ ε) Length := do
  let length ← scriptStart script keys.length args.length
  let length ← length.bulks (keys.map List.length)
  length.bulks (args.map Bulk.len)

/-- One size in the loop of `script::lengths`. -/
def measureSize (declared : ℕ) (measured : ℕ × Length) (size : ℕ) :
    Except (Error κ ε) (ℕ × Length) := do
  let actual ← nextItem declared measured.1
  let length ← measured.2.bulk size
  .ok (actual, length)

/-- `script::lengths`. -/
def scriptLengths (length : Length) (declared : ℕ) (sizes : List ℕ) :
    Except (Error κ ε) Length := do
  let (actual, length) ← sizes.foldlM (measureSize declared) (0, length)
  checkItems declared actual
  .ok length

/-- `script::wire_len`. -/
def wireLen (script : List UInt8) (keyCount : ℕ) (keyLengths : List ℕ) (argumentCount : ℕ)
    (argumentLengths : List ℕ) : Except (Error κ ε) ℕ := do
  let length ← scriptStart script keyCount argumentCount
  let length ← scriptLengths length keyCount keyLengths
  let length ← scriptLengths length argumentCount argumentLengths
  .ok length.get

namespace Output

variable (o : Output σ ω κ φ ε)

/-- `Encoder::encode`. -/
def encode (frame : σ) (head tail : List (List UInt8)) (kind : Sensitivity) :
    Except (Error κ ε) φ := do
  let (count, length) ← encodeLength head tail
  o.admitWith frame length kind fun out => do
    let out ← o.array out count
    o.bulks out (head ++ tail)

/-- One item of the second traversal of `Encoder::sequence`. -/
def writeItem {I : Type} [Arguments I] (declared : ℕ) (written : ℕ × ω) (item : I) :
    Except (Error κ ε) (ℕ × ω) := do
  let actual ← nextItem declared written.1
  let out ← o.bulks written.2 (Arguments.values item)
  .ok (actual, out)

/-- What `Encoder::sequence` writes. -/
def writeSequence {I : Type} [Arguments I] (head : List (List UInt8)) (declared : ℕ)
    (items : List I) (count : ℕ) (out : ω) : Except (Error κ ε) ω := do
  let out ← o.array out count
  let out ← o.bulks out head
  let (actual, out) ← items.foldlM (o.writeItem declared) (0, out)
  checkItems declared actual
  .ok out

/-- `Encoder::sequence`. Both traversals of the iterator yield `items`. -/
def sequence {I : Type} [Arguments I] (frame : σ) (head : List (List UInt8)) (declared : ℕ)
    (items : List I) : Except (Error κ ε) φ := do
  let (count, length) ← sequenceLength head declared items
  o.admitWith frame length .plain fun out => o.writeSequence head declared items count out

/-- `script::eval`. -/
def eval {A : Type} [Bulk A] (out : ω) (script : List UInt8) (keys : List (List UInt8))
    (args : List A) : Except (Error κ ε) ω := do
  let count ← scriptCount keys.length args.length
  let out ← o.array out count
  let out ← o.bulk out ([69, 86, 65, 76] : List UInt8)
  let out ← o.bulk out script
  let out ← o.bulk out (digits keys.length)
  let out ← o.bulks out keys
  o.bulks out args

/-- A script call : `script::length`, then `script::eval` in `Encoder::admit_with`. -/
def evalPrepared {A : Type} [Bulk A] (frame : σ) (script : List UInt8)
    (keys : List (List UInt8)) (args : List A) : Except (Error κ ε) φ := do
  let length ← scriptLength script keys args
  o.admitWith frame length .plain fun out => o.eval out script keys args

end Output

/-! ## Frames -/

/-- A header line. -/
def header (marker : UInt8) (value : ℕ) : List UInt8 :=
  marker :: (digits value ++ [13, 10])

/-- An argument of a frame. -/
def argument (bytes : List UInt8) : List UInt8 :=
  header 36 bytes.length ++ (bytes ++ [13, 10])

/-- The frame of a command. -/
def wire (args : List (List UInt8)) : List UInt8 :=
  header 42 args.length ++ args.flatMap argument

theorem length_header (marker : UInt8) (value : ℕ) :
    (header marker value).length = 3 + numberDigits value := by
  simp [header, numberDigits, length_digits]
  omega

theorem length_argument (bytes : List UInt8) :
    (argument bytes).length = 5 + numberDigits bytes.length + bytes.length := by
  rw [argument, List.length_append, length_header, List.length_append]
  simp only [List.length_cons, List.length_nil]
  omega

/-! ## What the length computation accepts -/

theorem number_eq_ok {value n : ℕ} :
    (number value : Except (Error κ ε) ℕ) = .ok n ↔ value ≤ maximum ∧ n = value := by
  unfold number
  split_ifs with h
  · simp
    omega
  · simp only [Except.ok.injEq]
    omega

theorem addCount_eq_ok {base len n : ℕ} :
    (addCount base len : Except (Error κ ε) ℕ) = .ok n ↔ base + len < 2 ^ 64 ∧ n = base + len := by
  unfold addCount
  split_ifs with h
  · simp only [Except.ok.injEq]
    omega
  · simp
    omega

theorem nextItem_eq_ok {declared actual n : ℕ} :
    (nextItem declared actual : Except (Error κ ε) ℕ) = .ok n ↔
      actual + 1 < 2 ^ 64 ∧ actual + 1 ≤ declared ∧ n = actual + 1 := by
  unfold nextItem
  rw [bind_eq_ok]
  constructor
  · rintro ⟨a, ha, hn⟩
    obtain ⟨hlt, rfl⟩ := addCount_eq_ok.mp ha
    split_ifs at hn with hle
    obtain rfl := Except.ok.inj hn
    exact ⟨hlt, by omega, rfl⟩
  · rintro ⟨hlt, hle, rfl⟩
    exact ⟨actual + 1, addCount_eq_ok.mpr ⟨hlt, rfl⟩, if_neg (by omega)⟩

theorem checkItems_eq_ok {declared actual : ℕ} :
    (checkItems declared actual : Except (Error κ ε) Unit) = .ok () ↔ actual = declared := by
  unfold checkItems
  split_ifs with h
  · simpa using h
  · simpa using h

namespace Length

theorem get_array {count : ℕ} {length : Length}
    (h : (array count : Except (Error κ ε) Length) = .ok length) :
    count ≤ maximum ∧ length.get = 3 + numberDigits count := by
  unfold array at h
  obtain ⟨n, hn, hlength⟩ := bind_eq_ok.mp h
  obtain ⟨hle, rfl⟩ := number_eq_ok.mp hn
  obtain rfl := Except.ok.inj hlength
  have hlog : Nat.log 10 n < 19 :=
    Nat.log_lt_of_lt_pow' (by omega) (lt_of_le_of_lt hle (by norm_num [maximum]))
  refine ⟨hle, ?_⟩
  dsimp only
  unfold numberDigits
  omega

theorem get_add {self length : Length} {amount : ℕ}
    (h : (self.add amount : Except (Error κ ε) Length) = .ok length) :
    length.get = self.get + amount := by
  unfold add at h
  split_ifs at h
  obtain rfl := Except.ok.inj h
  rfl

theorem get_bulk {self length : Length} {len : ℕ}
    (h : (self.bulk len : Except (Error κ ε) Length) = .ok length) :
    len ≤ maximum ∧ length.get = self.get + (5 + numberDigits len + len) := by
  unfold bulk at h
  obtain ⟨n, hn, h⟩ := bind_eq_ok.mp h
  obtain ⟨hle, rfl⟩ := number_eq_ok.mp hn
  obtain ⟨five, hfive, h⟩ := bind_eq_ok.mp h
  obtain ⟨mid, hmid, h⟩ := bind_eq_ok.mp h
  refine ⟨hle, ?_⟩
  rw [get_add h, get_add hmid, get_add hfive]
  omega

theorem bulks_append (self : Length) (first rest : List ℕ) :
    (self.bulks (first ++ rest) : Except (Error κ ε) Length) =
      self.bulks first >>= fun length => length.bulks rest :=
  List.foldlM_append

/-- The length of the arguments measured. -/
theorem get_bulks {self length : Length} {args : List (List UInt8)}
    (h : (self.bulks (args.map List.length) : Except (Error κ ε) Length) = .ok length) :
    (∀ arg ∈ args, arg.length ≤ maximum) ∧
      length.get = self.get + (args.flatMap argument).length := by
  induction args generalizing self with
  | nil =>
    obtain rfl := Except.ok.inj h
    exact ⟨by simp, rfl⟩
  | cons arg rest ih =>
    rw [List.map_cons, bulks, List.foldlM_cons] at h
    obtain ⟨mid, hmid, h⟩ := bind_eq_ok.mp h
    obtain ⟨hle, hget⟩ := get_bulk hmid
    obtain ⟨hall, hrest⟩ := ih h
    refine ⟨fun a ha => ?_, ?_⟩
    · rcases List.mem_cons.mp ha with rfl | ha
      · exact hle
      · exact hall a ha
    · rw [hrest, hget, List.flatMap_cons, List.length_append, length_argument]
      omega

end Length

/-! ## What the writer writes -/

/-- The digits fill the buffer before `index` from the right. -/
theorem writeDigitsFrom_eq : ∀ (index : ℕ) (buffer : List UInt8) (value : ℕ),
    index ≤ buffer.length → 0 < index → value < 10 ^ index →
      (writeDigitsFrom index buffer value).1.length = buffer.length ∧
        (writeDigitsFrom index buffer value).2 + (digits value).length = index ∧
        (writeDigitsFrom index buffer value).1.drop (writeDigitsFrom index buffer value).2 =
          digits value ++ buffer.drop index
  | 0, _, _, _, hpos, _ => absurd hpos (Nat.lt_irrefl 0)
  | index + 1, buffer, value, hle, _, hlt => by
    have hset : (buffer.set index (48 + UInt8.ofNat (value % 10))).drop index =
        (48 + UInt8.ofNat (value % 10)) :: buffer.drop (index + 1) := by
      rw [List.set_eq_take_append_cons_drop, if_pos (by omega),
        List.drop_append_of_le_length (by rw [List.length_take]; omega), List.drop_take_self,
        List.nil_append]
    unfold writeDigitsFrom
    dsimp only
    by_cases hsmall : value / 10 = 0
    · rw [if_pos hsmall, digits_of_lt (by omega)]
      refine ⟨List.length_set, rfl, ?_⟩
      dsimp only
      rw [hset, Nat.mod_eq_of_lt (by omega)]
      rfl
    · rw [if_neg hsmall]
      have hindex : 0 < index := by
        by_contra hzero
        obtain rfl : index = 0 := by omega
        omega
      obtain ⟨hlength, hstart, hdrop⟩ := writeDigitsFrom_eq index
        (buffer.set index (48 + UInt8.ofNat (value % 10))) (value / 10)
        (by rw [List.length_set]; omega) hindex (by
          rw [pow_succ] at hlt
          omega)
      rw [digits_of_le (by omega), List.length_append]
      refine ⟨by rw [hlength, List.length_set], by simp only [List.length_singleton]; omega, ?_⟩
      rw [hdrop, hset, List.append_assoc]
      rfl

/-- A header of a number that fits the buffer. -/
theorem formatHeaderInto_eq (marker : UInt8) {value : ℕ} (h : value < 10 ^ 20) :
    formatHeaderInto (List.replicate 23 0) marker value = header marker value := by
  obtain ⟨hlength, hstart, hdrop⟩ := writeDigitsFrom_eq 20 (List.replicate 20 0) value
    (by simp) (by omega) h
  have hbuffer : ((List.replicate 23 (0 : UInt8)).drop 1).take 20 = List.replicate 20 0 := rfl
  unfold formatHeaderInto writeDigits
  rw [hbuffer, List.length_replicate]
  generalize writeDigitsFrom 20 (List.replicate 20 0) value = r at hlength hstart hdrop
  obtain ⟨buffer, start⟩ := r
  dsimp only at hlength hstart hdrop ⊢
  rw [List.length_replicate] at hlength
  have hne := List.length_pos_iff.mpr (digits_ne_nil value)
  have htake : (List.replicate 23 (0 : UInt8)).take 1 = [0] := rfl
  have hwhole : ([0] ++ buffer ++ [13, 10]).length = 23 := by
    simp [hlength]
  rw [htake, List.set_eq_take_append_cons_drop, if_pos (by omega),
    List.drop_append_of_le_length (by rw [List.length_take]; omega), List.drop_take_self,
    List.nil_append, header]
  have hrest : ([0] ++ buffer ++ [13, 10]).drop (start + 1) = buffer.drop start ++ [13, 10] := by
    rw [List.append_assoc, List.singleton_append, List.drop_succ_cons,
      List.drop_append_of_le_length (by omega)]
  rw [hrest, hdrop]
  simp

/-- The bytes written between two states of a limit. -/
def Output.Writes (o : Output σ ω κ φ ε) (out : ω) (bytes : List UInt8) (out' : ω) : Prop :=
  o.remaining out' + bytes.length = o.remaining out ∧
    o.intoParts out' = ((o.intoParts out).1 ++ bytes, (o.intoParts out).2)

namespace Output

variable {o : Output σ ω κ φ ε}

theorem Writes.refl (out : ω) : o.Writes out [] out :=
  ⟨rfl, by rw [List.append_nil]⟩

theorem Writes.trans {out mid out' : ω} {first rest : List UInt8} (h : o.Writes out first mid)
    (h' : o.Writes mid rest out') : o.Writes out (first ++ rest) out' := by
  refine ⟨?_, ?_⟩
  · rw [List.length_append, ← h.1, ← h'.1]
    omega
  · rw [h'.2, h.2, List.append_assoc]

/-- A write step for some bytes : it succeeds while they fit. -/
def Wrote (o : Output σ ω κ φ ε) (bytes : List UInt8)
    (write : ω → Except (Error κ ε) ω) : Prop :=
  ∀ out, bytes.length ≤ o.remaining out → ∃ out', write out = .ok out' ∧ o.Writes out bytes out'

theorem Wrote.bind {first rest : List UInt8} {write next : ω → Except (Error κ ε) ω}
    (h : o.Wrote first write) (h' : o.Wrote rest next) :
    o.Wrote (first ++ rest) fun out => write out >>= next := fun out hfit => by
  rw [List.length_append] at hfit
  obtain ⟨mid, hmid, hfirst⟩ := h out (by omega)
  obtain ⟨out', hout, hrest⟩ := h' mid (by have := hfirst.1; omega)
  exact ⟨out', bind_eq_ok.mpr ⟨mid, hmid, hout⟩, hfirst.trans hrest⟩

section Lawful

variable (ho : o.Lawful)
include ho

theorem wrote_extend (bytes : List UInt8) : o.Wrote bytes fun out => o.extend out bytes :=
  fun out hfit => by
    obtain ⟨out', hextend, hremaining, hparts⟩ := ho.extend bytes hfit
    refine ⟨out', ?_, hremaining, hparts⟩
    dsimp only
    unfold extend
    rw [hextend]
    rfl

/-- The visitor writes the chunks while they are within the declared length. -/
theorem foldl_visit {declared : ℕ} (hdeclared : declared < 2 ^ 64) :
    ∀ (chunks : List (List UInt8)) (current : ℕ) (out : ω),
      current + chunks.flatten.length ≤ declared → chunks.flatten.length ≤ o.remaining out →
        ∃ out', chunks.foldl (o.visit declared) (.ok (current, out)) =
            .ok (current + chunks.flatten.length, out') ∧ o.Writes out chunks.flatten out'
  | [], current, out, _, _ => ⟨out, rfl, .refl out⟩
  | chunk :: rest, current, out, hle, hfit => by
    rw [List.flatten_cons, List.length_append] at hle hfit
    obtain ⟨mid, hmid, hfirst⟩ := wrote_extend ho chunk out (by omega)
    have hvisit : o.visit declared (.ok (current, out)) chunk =
        .ok (current + chunk.length, mid) := by
      unfold visit
      have hadd : (addCount current chunk.length : Except (Error κ ε) ℕ) =
          .ok (current + chunk.length) := addCount_eq_ok.mpr ⟨by omega, rfl⟩
      simp only [bind, Except.bind, hadd, hmid]
      rw [if_neg (by omega)]
    obtain ⟨out', hfold, hrest⟩ := foldl_visit hdeclared rest (current + chunk.length) mid
      (by omega) (by have := hfirst.1; omega)
    refine ⟨out', ?_, hfirst.trans hrest⟩
    rw [List.foldl_cons, hvisit, hfold, List.flatten_cons, List.length_append, Nat.add_assoc]

theorem wrote_array {count : ℕ} (h : count ≤ maximum) :
    o.Wrote (header 42 count) fun out => o.array out count := by
  unfold array
  rw [formatHeaderInto_eq 42 (lt_of_le_of_lt h (by norm_num [maximum]))]
  exact wrote_extend ho _

/-- A payload that honours its contract is written as an argument. -/
theorem wrote_bulk {B : Type} [Bulk B] {payload : B} (hexact : Bulk.Exact payload)
    (h : (Bulk.bytes payload).length ≤ maximum) :
    o.Wrote (argument (Bulk.bytes payload)) fun out => o.bulk out payload := by
  intro out hfit
  unfold argument at hfit
  rw [List.length_append, List.length_append] at hfit
  obtain ⟨mid, hmid, hheader⟩ := wrote_extend ho (header 36 (Bulk.bytes payload).length) out
    (by omega)
  obtain ⟨filled, hfilled, hbytes⟩ := foldl_visit ho
    (lt_of_le_of_lt h (by norm_num [maximum])) (Bulk.chunks payload) 0 mid (Nat.zero_add _).le
    (by
      have := hheader.1
      change (Bulk.bytes payload).length ≤ _
      omega)
  obtain ⟨out', hout, hend⟩ := wrote_extend ho [13, 10] filled (by
    have := hheader.1
    have := hbytes.1
    change _ + (Bulk.bytes payload).length = _ at this
    omega)
  refine ⟨out', ?_, hheader.trans (hbytes.trans hend)⟩
  unfold bulk
  dsimp only
  rw [← hexact, formatHeaderInto_eq 36 (lt_of_le_of_lt h (by norm_num [maximum]))]
  rw [Nat.zero_add] at hfilled
  refine bind_eq_ok.mpr ⟨mid, hmid, bind_eq_ok.mpr ⟨_, hfilled, ?_⟩⟩
  dsimp only
  rw [if_neg (by simp [Bulk.bytes])]
  exact hout

/-- Payloads are written one after the other. -/
theorem wrote_bulks {B : Type} [Bulk B] : ∀ {payloads : List B},
    (∀ payload ∈ payloads, Bulk.Exact payload ∧ (Bulk.bytes payload).length ≤ maximum) →
      o.Wrote ((payloads.map Bulk.bytes).flatMap argument) fun out => o.bulks out payloads
  | [], _ => fun out _ => ⟨out, rfl, .refl out⟩
  | payload :: rest, h => by
    obtain ⟨⟨hexact, hle⟩, hrest⟩ := List.forall_mem_cons.mp h
    rw [List.map_cons, List.flatMap_cons]
    exact (wrote_bulk ho hexact hle).bind (wrote_bulks hrest)

end Lawful

end Output

end Request

end Cartel.Redis
