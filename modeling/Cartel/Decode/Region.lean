import Cartel.Decode.Scalar
import Cartel.Parser.Reader

/-!
# Typed decoding on the tape

A decoder walks the nodes of a completed tape from its root : it checks the nodes of the
top-level array one by one, always stepping to the next node of the tape, and leaves a
region that its iterators read without looking at the tags again. Scores and coordinates
are written back into their nodes as the bits of their numbers, so those decoders return
the pool they leave with their answer. An element that is a text is known by its span.
-/

namespace Cartel.Redis.Decode

open Cartel.Redis.Parser

variable {n : ℕ} {P E : Type}

/-! ## Nodes and cursors -/

/-- `parser::Value`. -/
inductive Value where
  | nil
  | ok
  | status (span : Span)
  | integer (value : Int64)
  | bulk (span : Span)
  | array (len : UInt32)
  deriving DecidableEq

/-- `Node::try_value`. -/
def tryValue (node : Node n) : Except Span Value :=
  match node.tag with
  | .error => .error (.fromStored node.payload)
  | .nil => .ok .nil
  | .ok => .ok .ok
  | .status => .ok (.status (.fromStored node.payload))
  | .integer => .ok (.integer node.payload.toInt64)
  | .bulk => .ok (.bulk (.fromStored node.payload))
  | .array => .ok (.array node.payload.toUInt32)

/-- `Node::maybe_span`. -/
def maybeSpan (node : Node n) : Option Span :=
  match node.tag with
  | .nil => none
  | .bulk => some (.fromStored node.payload)
  | _ => none

/-- `Node::with_float`, for the bits of the number. -/
def withFloat (node : Node n) (bits : UInt64) : Node n :=
  { node with payload := bits }

/-- `Cursor::children`. The difference is a `u32`, and the sum saturates. -/
def children (cursor : Cursor n) (width : ℕ) : Batch n :=
  ⟨cursor.next, min (1 + (cursor.remaining - width)) (2 ^ 32 - 1)⟩

/-- `storage::Mismatch`. -/
inductive Mismatch where
  | server (span : Span)
  | value (actual : Value)

/-- `storage::Array` : the nodes after one array header, and how many children it has. -/
structure Children (n : ℕ) where
  cursor : Cursor n
  len : ℕ

/-- `Array::exact`. The error is the actual length. -/
def Children.exact (array : Children n) (width : ℕ) : Except ℕ (Batch n) :=
  if array.len ≠ width then .error array.len else .ok (children array.cursor width)

/-- `tape::array`. -/
def array (value : Value) (cursor : Cursor n) : Except Mismatch (Children n) :=
  match value with
  | .array len => .ok ⟨cursor, len.toNat⟩
  | .nil => .ok ⟨cursor, 0⟩
  | actual => .error (.value actual)

/-- `storage::Region`. -/
structure Region (n : ℕ) where
  tape : Tape n
  start : Cursor n
  len : ℕ

/-! ## Reads of the tape -/

section Reads

variable (tape : Tape n)

/-- `Tape::root`. -/
def root : Batch n :=
  ⟨tape.pool.next tape.tail, tape.len⟩

/-- `Tape::take`. -/
def take (batch : Batch n) : Except Span (Value × Cursor n) :=
  let node := tape.pool.nodes batch.next
  (tryValue node).map fun value => (value, batch.finish node.next)

/-- `Tape::pair`. -/
def pair (batch : Batch n) : (Except Span Value × Except Span Value) × Cursor n :=
  let first := tape.pool.nodes batch.next
  let second := tape.pool.nodes first.next
  ((tryValue first, tryValue second), batch.finish second.next)

/-- `Tape::array`. -/
def topArray (batch : Batch n) : Except Mismatch (Children n) :=
  match take tape batch with
  | .error span => .error (.server span)
  | .ok (value, cursor) => array value cursor

/-- `Tape::scan`. -/
def scanPair (batch : Batch n) : Except Span Value × Except Mismatch (Children n) :=
  let read := pair tape batch
  (read.1.1,
    match read.1.2 with
    | .error span => .error (.server span)
    | .ok value => array value read.2)

/-- `Tape::region`. -/
def region (array : Children n) : Region n :=
  ⟨tape, { array.cursor with remaining := array.len }, array.len⟩

end Reads

/-! ## Checked regions -/

/-- The loop that takes the nodes of a region and stops at the first one that is not
admitted. There is one round for each node that remains. -/
def checkFrom (tape : Tape n) (admits : Value → Bool) : ℕ → Cursor n → Except Mismatch Unit
  | 0, _ => .ok ()
  | rounds + 1, cursor =>
    match cursor.batch 1 with
    | none => .ok ()
    | some batch =>
      match take tape batch with
      | .error span => .error (.server span)
      | .ok (value, cursor) =>
        if admits value then checkFrom tape admits rounds cursor else .error (.value value)

/-- `matches!(value, Value::Bulk(_))`. -/
def Value.isBulk : Value → Bool
  | .bulk _ => true
  | _ => false

/-- `matches!(value, Value::Nil | Value::Bulk(_))`. -/
def Value.isOptional : Value → Bool
  | .nil => true
  | .bulk _ => true
  | _ => false

/-- `storage::Group`. -/
inductive Group where
  | length (width actual : ℕ)
  | mismatch (cause : Mismatch)

/-- `storage::Score`. -/
inductive Score (E : Type) where
  | length (width actual : ℕ)
  | server (span : Span)
  | member (actual : Value)
  | number (cause : E)

/-- `storage::CoordError`. -/
inductive CoordError (E : Type) where
  | array (cause : Mismatch)
  | member (cause : Mismatch)
  | length (actual : ℕ)
  | number (cause : E)

/-- The loop of `Region::scored`, with the pool it leaves. -/
def scoredFrom (number : Value → Except E UInt64) :
    ℕ → Pool n → Cursor n → Except (Score E) Unit × Pool n
  | 0, pool, _ => (.ok (), pool)
  | rounds + 1, pool, cursor =>
    match cursor.batch 2 with
    | none => (.ok (), pool)
    | some batch =>
      let member := pool.nodes batch.next
      match tryValue member with
      | .error span => (.error (.server span), pool)
      | .ok value =>
        if ¬value.isBulk then (.error (.member value), pool)
        else
          let key := member.next
          let score := pool.nodes key
          match tryValue score with
          | .error span => (.error (.server span), pool)
          | .ok value =>
            match number value with
            | .error cause => (.error (.number cause), pool)
            | .ok bits =>
              scoredFrom number rounds (pool.set key (withFloat score bits))
                (batch.finish score.next)

/-- The inner loop of `Tape::coordinates` : the numbers of one member, with the key after
them and the pool it leaves. -/
def numbersFrom (number : Value → Except E UInt64) :
    ℕ → Pool n → Fin n → Except (CoordError E) (Fin n) × Pool n
  | 0, pool, key => (.ok key, pool)
  | rounds + 1, pool, key =>
    let node := pool.nodes key
    match tryValue node with
    | .error span => (.error (.member (.server span)), pool)
    | .ok value =>
      match number value with
      | .error cause => (.error (.number cause), pool)
      | .ok bits => numbersFrom number rounds (pool.set key (withFloat node bits)) node.next

/-- The outer loop of `Tape::coordinates`, once for each member. -/
def coordinatesFrom (tape : Tape n) (number : Value → Except E UInt64) :
    ℕ → Pool n → Cursor n → Except (CoordError E) Unit × Pool n
  | 0, pool, _ => (.ok (), pool)
  | members + 1, pool, cursor =>
    match take { tape with pool } (children cursor 1) with
    | .error span => (.error (.member (.server span)), pool)
    | .ok (.nil, cursor) => coordinatesFrom tape number members pool cursor
    | .ok (.array len, cursor) =>
      if len.toNat ≠ 2 then (.error (.length len.toNat), pool)
      else
        let batch := children cursor 2
        match numbersFrom number 2 pool batch.next with
        | (.error cause, pool) => (.error cause, pool)
        | (.ok next, pool) => coordinatesFrom tape number members pool (batch.finish next)
    | .ok (actual, _) => (.error (.member (.value actual)), pool)

/-- `Tape::coordinates`, with the pool it leaves. -/
def coordinates (tape : Tape n) (number : Value → Except E UInt64) :
    Except (CoordError E) (Region n) × Pool n :=
  match topArray tape (root tape) with
  | .error cause => (.error (.array cause), tape.pool)
  | .ok outer =>
    match coordinatesFrom tape number outer.len tape.pool outer.cursor with
    | (.error cause, pool) => (.error cause, pool)
    | (.ok (), pool) =>
      (.ok ⟨{ tape with pool }, ⟨outer.cursor.next, outer.len⟩, outer.len⟩, pool)

namespace Region

variable (r : Region n)

/-- `Region::bulks`. -/
def bulks (width : ℕ) : Except Group (Region n) :=
  if r.len % width ≠ 0 then .error (.length width r.len)
  else
    match checkFrom r.tape Value.isBulk r.start.remaining r.start with
    | .error cause => .error (.mismatch cause)
    | .ok () => .ok { r with len := r.len / width }

/-- `Region::optional`. -/
def optional : Except Mismatch (Region n) :=
  (checkFrom r.tape Value.isOptional r.start.remaining r.start).map fun _ => r

/-- `Region::scored`, with the pool it leaves. -/
def scored (number : Value → Except E UInt64) : Except (Score E) (Region n) × Pool n :=
  if r.len % 2 ≠ 0 then (.error (.length 2 r.len), r.tape.pool)
  else
    match scoredFrom number r.start.remaining r.tape.pool r.start with
    | (.error cause, pool) => (.error cause, pool)
    | (.ok (), pool) => (.ok ⟨{ r.tape with pool }, r.start, r.len / 2⟩, pool)

end Region

/-! ## Iterators -/

/-- The nodes `Tape::bulks` and `Region::optionals` go through, and the key after them. -/
def readFrom {A : Type} (pool : Pool n) (view : Node n → A) : ℕ → Fin n → List A × Fin n
  | 0, key => ([], key)
  | width + 1, key =>
    let node := pool.nodes key
    let read := readFrom pool view width node.next
    (view node :: read.1, read.2)

/-- `frame::Iter`, and `CoordinateIter`. -/
structure Iter (n : ℕ) where
  source : Region n
  cursor : Cursor n

/-- `Stored::iter`. -/
def Region.iter (r : Region n) : Iter n :=
  ⟨r, r.start⟩

namespace Iter

variable (it : Iter n)

/-- The next batch of `width` nodes, read by `view` whatever their tags are. -/
def batch {A : Type} (view : Node n → A) (width : ℕ) : Option (List A × Iter n) :=
  match it.cursor.batch width with
  | none => none
  | some batch =>
    let read := readFrom it.source.tape.pool view width batch.next
    some (read.1, { it with cursor := batch.finish read.2 })

/-- `next` of the iterator over bulks. -/
def nextBulks (width : ℕ) : Option (List Span × Iter n) :=
  it.batch (fun node => .fromStored node.payload) width

/-- `next` of the iterator over optional bulks. -/
def nextOptional : Option (Option Span × Iter n) :=
  match it.batch maybeSpan 1 with
  | some ([span], it) => some (span, it)
  | _ => none

/-- `next` of the iterator over members and scores. -/
def nextScored : Option ((Span × UInt64) × Iter n) :=
  match it.cursor.batch 2 with
  | none => none
  | some batch =>
    let member := it.source.tape.pool.nodes batch.next
    let score := it.source.tape.pool.nodes member.next
    some ((.fromStored member.payload, score.payload),
      { it with cursor := batch.finish score.next })

/-- `next` of `CoordinateIter`. -/
def nextCoordinate : Option (Option (UInt64 × UInt64) × Iter n) :=
  match it.cursor.batch 1 with
  | none => none
  | some batch =>
    let member := it.source.tape.pool.nodes batch.next
    if member.tag = .nil then some (none, { it with cursor := batch.finish member.next })
    else
      let lon := it.source.tape.pool.nodes member.next
      let lat := it.source.tape.pool.nodes lon.next
      some (some (lon.payload, lat.payload), { it with cursor := batch.finish lat.next })

/-- `size_hint` of an iterator whose elements have `width` nodes. -/
def sizeHint (width : ℕ) : ℕ :=
  it.cursor.remaining / width

/-- The nodes read for the next element of `width` nodes. -/
def reads (width : ℕ) : List (Fin n) :=
  if width ≤ it.cursor.remaining then Lib.walk it.source.tape.pool.next width it.cursor.next
  else []

/-- The nodes `CoordinateIter` reads for its next element. -/
def readsCoordinate : List (Fin n) :=
  if 1 ≤ it.cursor.remaining then
    Lib.walk it.source.tape.pool.next
      (if (it.source.tape.pool.nodes it.cursor.next).tag = .nil then 1 else 3) it.cursor.next
  else []

end Iter

/-! ## Decoders -/

/-- `reply::Expectation`, as far as the structured decoders name it. -/
inductive Expectation where
  | bulk
  | bulkOrNil
  | float
  | array
  | arrayOrNil
  | scanCursor
  deriving DecidableEq

/-- `reply::Fault` and `reply::Decode` : why a reply is rejected. -/
inductive Fault (P : Type) where
  | negativeCursor (value : ℤ)
  | arrayLength (expected actual : ℕ)
  | arrayMultiple (width actual : ℕ)
  | expected (expected : Expectation) (actual : Value)
  | server (span : Span)
  | float (span : Span) (reason : FloatError P)
  | integer (span : Span) (reason : Invalid)

/-- `Fault::mismatch`. -/
def Fault.mismatch (expected : Expectation) : Mismatch → Fault P
  | .server span => .server span
  | .value actual => .expected expected actual

/-- How `Lease::scored` reports what stopped `Region::scored`. -/
def Score.fault : Score (Fault P) → Fault P
  | .length width actual => .arrayMultiple width actual
  | .server span => .server span
  | .member actual => .expected .bulk actual
  | .number cause => cause

/-- How `Coordinates::decode` reports what stopped `Tape::coordinates`. -/
def CoordError.fault : CoordError (Fault P) → Fault P
  | .array cause => .mismatch .array cause
  | .member cause => .mismatch .arrayOrNil cause
  | .length actual => .arrayLength 2 actual
  | .number cause => cause

/-- `scalar::float`. -/
def float (std : Floats P) (frame : List UInt8) : Value → Except (Fault P) UInt64
  | .bulk span => (parseFloat std (span.text frame)).mapError (.float span)
  | .status span => (parseFloat std (span.text frame)).mapError (.float span)
  | .integer value => .ok (std.ofInt value)
  | actual => .error (.expected .float actual)

/-- The offset of a scan reply. -/
def scanCursor (frame : List UInt8) : Except Span Value → Except (Fault P) ℕ
  | .error span => .error (.server span)
  | .ok (.bulk span) =>
    match unsigned (span.text frame) with
    | .ok value => .ok value
    | .error (.negative value) => .error (.negativeCursor value)
    | .error (.invalid reason) => .error (.integer span reason)
  | .ok value => .error (.expected .scanCursor value)

/-- A bulk of an exact pair. -/
def bulk : Except Span Value → Except (Fault P) Span
  | .ok (.bulk span) => .ok span
  | .ok actual => .error (.expected .bulk actual)
  | .error span => .error (.server span)

namespace Tape

variable (tape : Tape n) (std : Floats P) (frame : List UInt8)

/-- `Lease::top`. -/
def top : Except (Fault P) (Region n) :=
  match topArray tape (root tape) with
  | .error cause => .error (.mismatch .array cause)
  | .ok array => .ok (region tape array)

/-- `Lease::bulks`. -/
def leaseBulks (r : Region n) (width : ℕ) : Except (Fault P) (Region n) :=
  match r.bulks width with
  | .error (.length width actual) => .error (.arrayMultiple width actual)
  | .error (.mismatch cause) => .error (.mismatch .bulk cause)
  | .ok nodes => .ok nodes

/-- `bulks::Array::decode` and `BulkPairs::decode`, for `width` one and two. -/
def bulks (width : ℕ) : Except (Fault P) (Region n) :=
  (top tape).bind fun r => leaseBulks r width

/-- `bulks::Optional::decode`. -/
def optional : Except (Fault P) (Region n) :=
  (top tape).bind fun r => r.optional.mapError (.mismatch .bulkOrNil)

/-- `ScoredBulks::decode`, with the pool it leaves. -/
def scored : Except (Fault P) (Region n) × Pool n :=
  match top tape with
  | .error fault => (.error fault, tape.pool)
  | .ok r =>
    let read := r.scored (float std frame)
    (read.1.mapError Score.fault, read.2)

/-- `Coordinates::decode`, with the pool it leaves. -/
def coordinates : Except (Fault P) (Region n) × Pool n :=
  let read := Decode.coordinates tape (float std frame)
  (read.1.mapError CoordError.fault, read.2)

/-- The two nodes of a reply that has to be an array of two. -/
def exactPair : Except (Fault P) (Batch n) :=
  match topArray tape (root tape) with
  | .error cause => .error (.mismatch .array cause)
  | .ok array => (array.exact 2).mapError (.arrayLength 2)

/-- `Lease::scan`. -/
def leaseScan : Except (Fault P) (ℕ × Region n) := do
  let batch ← exactPair tape
  let read := scanPair tape batch
  let offset ← scanCursor frame read.1
  let keys ← read.2.mapError (.mismatch .array)
  pure (offset, region tape keys)

/-- `Scan::decode`. -/
def scan : Except (Fault P) (ℕ × Region n) := do
  let lease ← leaseScan tape frame
  let keys ← leaseBulks lease.2 1
  pure (lease.1, keys)

/-- `decode` of two bulks. -/
def bulkPair : Except (Fault P) (Span × Span) := do
  let batch ← exactPair tape
  let read := pair tape batch
  let first ← bulk read.1.1
  let second ← bulk read.1.2
  pure (first, second)

/-- `Wire::coordinate`. -/
def coordinate : Except (Fault P) (UInt64 × UInt64) := do
  let batch ← exactPair tape
  let read := pair tape batch
  let first ← read.1.1.mapError .server
  let first ← float std frame first
  let second ← read.1.2.mapError .server
  let second ← float std frame second
  pure (first, second)

/-- The loop of `Wire::discard`. -/
def discardFrom : ℕ → Cursor n → Except Span Unit
  | 0, _ => .ok ()
  | rounds + 1, cursor =>
    match cursor.batch 1 with
    | none => .ok ()
    | some batch =>
      match take tape batch with
      | .error span => .error span
      | .ok (_, cursor) => discardFrom rounds cursor

/-- `Wire::discard`. -/
def discard : Except Span Unit :=
  discardFrom tape tape.len tape.cursor

end Tape

end Cartel.Redis.Decode
