import Mathlib.Data.PNat.Basic
import Cartel.Lib.Reorder
import Cartel.Scram.Bidi

/-!
# Preparing a password

`Password::try_prepare` measures the decomposed password in a first pass, allocates once
for its characters and for the largest run it has to reorder, decomposes again into the
allocation, and then reorders and composes in place. Here every read and every write of the
allocation is checked : a read of a cell that was not written, or an access past the
capacity, has no result.

The tables of `stringprep` and the functions of `unicode_normalization` are parameters
(`Tables`), and so are the allocator and the width of a word (`Machine`). A `String` is the
list of its characters.
-/

namespace Cartel.Pg.Scram

/-! ## Parameters -/

/-- `stringprep::tables`, and `unicode_normalization::char`. -/
structure Tables where
  asciiControlCharacter : Char → Bool
  nonAsciiControlCharacter : Char → Bool
  privateUse : Char → Bool
  nonCharacterCodePoint : Char → Bool
  surrogateCode : Char → Bool
  inappropriateForPlainText : Char → Bool
  inappropriateForCanonicalRepresentation : Char → Bool
  changeDisplayPropertiesOrDeprecated : Char → Bool
  taggingCharacter : Char → Bool
  unassignedCodePoint : Char → Bool
  nonAsciiSpaceCharacter : Char → Bool
  commonlyMappedToNothing : Char → Bool
  canonicalCombiningClass : Char → ℕ
  decomposeCompatible : Char → List Char
  compose : Char → Char → Option Char

/-- The largest `usize`, the capacity an allocation of characters gets, and whether one of
bytes is granted. -/
structure Machine where
  usizeMax : ℕ
  reserve : ℕ → Option ℕ
  grants : ℕ → Bool

/-- `ConfigError`, as far as a password causes it. -/
inductive ConfigError where
  | passwordCapacity
  | allocation
  deriving DecidableEq

variable (T : Tables) (M : Machine)

/-- `is_prohibited`. -/
def isProhibited (ch : Char) : Bool :=
  T.asciiControlCharacter ch || T.nonAsciiControlCharacter ch || T.privateUse ch ||
    T.nonCharacterCodePoint ch || T.surrogateCode ch || T.inappropriateForPlainText ch ||
    T.inappropriateForCanonicalRepresentation ch || T.changeDisplayPropertiesOrDeprecated ch ||
    T.taggingCharacter ch

/-- `mapped`. -/
def mapped (value : List Char) : List Char :=
  (value.map fun ch => if T.nonAsciiSpaceCharacter ch then ' ' else ch).filter
    fun ch => !T.commonlyMappedToNothing ch

/-! ## The first pass -/

/-- What is known of the characters decomposed so far. -/
structure Measure where
  length : Option ℕ := some 0
  start : ℕ := 0
  last : ℕ := 0
  disordered : Bool := false
  scratch : ℕ := 0

/-- One decomposed character. -/
def Measure.visit (self : Measure) (ch : Char) : Measure :=
  match self.length with
  | none => self
  | some len =>
    let cls := T.canonicalCombiningClass ch
    let length := if len + 1 ≤ M.usizeMax then some (len + 1) else none
    if cls = 0 then
      { length, start := len, last := cls, disordered := false
        scratch := if self.disordered then max self.scratch (len - self.start) else self.scratch }
    else { self with length, last := cls, disordered := self.disordered || self.last > cls }

/-- The scratch that is asked for after `len` characters. -/
def Measure.total (self : Measure) (len : ℕ) : ℕ :=
  if self.disordered then max self.scratch (len - self.start) else self.scratch

/-- The state of the first pass. -/
structure Inspection where
  lastRight : Bool := false
  right : Bool := false
  left : Bool := false
  measure : Measure := {}

/-- The first pass. It ends early on a character that is not admitted. -/
def inspect : Inspection → List Char → Option Inspection
  | self, [] => some self
  | self, ch :: rest =>
    if isProhibited T ch || T.unassignedCodePoint ch then none
    else
      inspect
        { lastRight := right ch, right := self.right || right ch, left := self.left || left ch
          measure := (T.decomposeCompatible ch).foldl (Measure.visit T M) self.measure } rest

/-! ## The allocation -/

/-- An allocation of characters. -/
structure Cells where
  cap : ℕ
  cell : ℕ → Option Char

namespace Cells

def read (self : Cells) (index : ℕ) : Option Char :=
  if index < self.cap then self.cell index else none

def put (self : Cells) (index : ℕ) (ch : Char) : Cells :=
  { self with cell := Function.update self.cell index (some ch) }

def write (self : Cells) (index : ℕ) (ch : Char) : Option Cells :=
  if index < self.cap then some (self.put index ch) else none

end Cells

/-- The second decomposition, appending to the `len` characters there are. -/
def decomposeFrom : List Char → Cells → ℕ → Option Cells
  | [], cells, _ => some cells
  | ch :: rest, cells, len => do
    let cells ← cells.write len ch
    decomposeFrom rest cells (len + 1)

/-! ## Reordering and composing -/

/-- The end of the run at `start`, and whether it is in order. There is one round for each
cell left. -/
def scanFrom (cells : Cells) (start : ℕ) : ℕ → ℕ → ℕ → Bool → Option (ℕ × Bool)
  | 0, stop, _, ordered => some (stop, ordered)
  | rounds + 1, stop, last, ordered => do
    let ch ← cells.read stop
    let cls := T.canonicalCombiningClass ch
    if cls = 0 ∧ stop ≠ start then pure (stop, ordered)
    else scanFrom cells start rounds (stop + 1) cls (ordered && last ≤ cls)

/-- The first loop of the counting sort. -/
def countFrom (cells : Cells) : ℕ → ℕ → (ℕ → ℕ) → Option (ℕ → ℕ)
  | 0, _, positions => some positions
  | rounds + 1, index, positions => do
    let ch ← cells.read index
    let cls := T.canonicalCombiningClass ch
    countFrom cells rounds (index + 1) (Function.update positions cls (positions cls + 1))

/-- The second loop, from counts to offsets. -/
def offsetsFrom : ℕ → ℕ → ℕ → (ℕ → ℕ) → ℕ → ℕ
  | 0, _, _, positions => positions
  | rounds + 1, k, offset, positions =>
    offsetsFrom rounds (k + 1) (offset + positions k) (Function.update positions k offset)

/-- The third loop, into the scratch. -/
def scatterFrom (scratch : ℕ) : ℕ → ℕ → Cells → (ℕ → ℕ) → Option Cells
  | 0, _, cells, _ => some cells
  | rounds + 1, index, cells, positions => do
    let ch ← cells.read index
    let cls := T.canonicalCombiningClass ch
    let cells ← cells.write (scratch + positions cls) ch
    scatterFrom scratch rounds (index + 1) cells
      (Function.update positions cls (positions cls + 1))

/-- The counting sort of a run. -/
def sortRun (cells : Cells) (scratch start stop : ℕ) : Option Cells := do
  let positions ← countFrom T cells (stop - start) start fun _ => 0
  scatterFrom T scratch (stop - start) start cells (offsetsFrom 256 0 0 positions)

/-- The state of the composition. -/
structure Work where
  cells : Cells
  written : ℕ := 0
  starter : Option ℕ := none
  previous : ℕ := 0

namespace Work

/-- The starter with what it is joined to, if it is. -/
def join (self : Work) (ch : Char) : Option (Option (ℕ × Char)) :=
  match self.starter with
  | none => some none
  | some current =>
    if self.previous = 0 ∨ self.previous < T.canonicalCombiningClass ch then
      (self.cells.read current).map fun base => (T.compose base ch).map fun joined =>
        (current, joined)
    else some none

/-- A character that is kept. -/
def keep (self : Work) (ch : Char) : Option Work := do
  let cells ← self.cells.write self.written ch
  let cls := T.canonicalCombiningClass ch
  pure
    { cells, written := self.written + 1, previous := cls
      starter := if cls = 0 then some self.written else self.starter }

/-- One character of a run. -/
def place (self : Work) (ch : Char) : Option Work := do
  match ← self.join T ch with
  | some joined =>
    let cells ← self.cells.write joined.1 joined.2
    pure { self with cells }
  | none => self.keep T ch

/-- The characters of a run, from `source` on. -/
def composeFrom (source : ℕ) : ℕ → ℕ → Work → Option Work
  | 0, _, self => some self
  | rounds + 1, index, self => do
    let ch ← self.cells.read (source + index)
    let self ← self.place T ch
    composeFrom source rounds (index + 1) self

/-- The runs from `start` on. A run is not empty, so there are enough rounds. -/
def runsFrom (len : ℕ) (orderedAll : Bool) : ℕ → ℕ → Work → Option Work
  | 0, start, self => if start < len then none else some self
  | rounds + 1, start, self =>
    if start < len then do
      let first := if orderedAll then len else start
      let run ← scanFrom T self.cells start (len - first) first 0 true
      if run.2 then do
        let self ← self.composeFrom T start (run.1 - start) 0
        runsFrom len orderedAll rounds run.1 self
      else do
        let cells ← sortRun T self.cells len start run.1
        let self ← { self with cells }.composeFrom T len (run.1 - start) 0
        runsFrom len orderedAll rounds run.1 self
    else some self

end Work

/-- `compose_all`. -/
def composeAll (input : Cells) (len : ℕ) : Option (List Char) := do
  let work ← Work.runsFrom T len (input.cap = len) len 0 { cells := input }
  (List.range work.written).mapM work.cells.read

/-! ## Encoding -/

/-- The bytes of a string. -/
def utf8 (value : List Char) : List UInt8 :=
  value.flatMap String.utf8EncodeChar

/-- The copies into an allocation of `bytes` bytes, which have to fill it. -/
def copyFrom (bytes : ℕ) : List Char → List UInt8 → Option (List UInt8)
  | [], output => if output.length = bytes then some output else none
  | ch :: rest, output =>
    let encoded := String.utf8EncodeChar ch
    if output.length + encoded.length ≤ bytes then copyFrom bytes rest (output ++ encoded)
    else none

/-- `encode`, for an original with `capacity` bytes. -/
def encode (value : List Char) (capacity : ℕ) : Option (Except ConfigError (List UInt8)) :=
  let bytes := (value.map Char.utf8Size).sum
  if capacity = bytes ∨ M.grants bytes then (copyFrom bytes value []).map .ok
  else some (.error .allocation)

/-! ## Preparation -/

/-- The end of `prepare`, for the characters the second pass emits. -/
def normalize (source : List Char) (length scratch capacity : ℕ) :
    Option (Except ConfigError (List UInt8)) :=
  match M.reserve (min (length + scratch) M.usizeMax) with
  | none => some (.error .allocation)
  | some cap => do
    let cells ← decomposeFrom source ⟨cap, fun _ => none⟩ 0
    let composed ← composeAll T cells source.length
    encode M composed capacity

/-- `prepare`. The result is the bytes the password is left with. -/
def prepare (value : List Char) (capacity : ℕ) : Option (Except ConfigError (List UInt8)) :=
  match mapped T value with
  | [] => some (.ok (utf8 value))
  | head :: rest =>
    match inspect T M {} (head :: rest) with
    | none => some (.ok (utf8 value))
    | some seen =>
      if seen.right && (seen.left || !right head || !seen.lastRight) then
        some (.ok (utf8 value))
      else
        match seen.measure.length with
        | none => some (.error .passwordCapacity)
        | some length =>
          normalize T M ((mapped T value).flatMap T.decomposeCompatible) length
            (seen.measure.total length) capacity

/-- `Password::try_prepare`. -/
def tryPrepare (value : List Char) (capacity : ℕ) : Option (Except ConfigError (List UInt8)) :=
  if value.all fun ch => ch.toNat < 128 && !T.asciiControlCharacter ch then
    some (.ok (utf8 value))
  else prepare T M value capacity

end Cartel.Pg.Scram
