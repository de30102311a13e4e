import Cartel.Heap.Sizes
import Cartel.Lib.Bytes
import Cartel.Lib.Endian
import Mathlib.Logic.Function.Basic

/-!
# The arena of a connection

An arena lies behind its prefix at `base` : the blocks first, 32 bytes to a unit, then one control
byte for each unit. A free block holds the links of its list in its first bytes, a live one its
header. Addresses count from `base`, words stand least significant byte first.

What the source takes for granted has no result here : an access outside of the blocks or of the
control bytes, a copy onto itself, a count that overflows, a header that is not one of this arena.
-/

namespace Cartel.Sqlite.Heap

open Cartel.Lib

variable {M : Type}

/-! ## Words and links -/

/-- A word as it stands in memory. -/
def word (n : ℕ) : List UInt8 :=
  (bigEndian 8 n).reverse

/-- The word that stands in memory. -/
def ofWord (bytes : List UInt8) : ℕ :=
  ofBigEndian bytes.reverse

/-- `Index::new`, an index by its value. -/
def Index.new (index units : ℕ) : Option ℕ :=
  if units ≤ index then none else (fit 64 (index + 1)).map fun _ => index

/-- An `Option<Index>` in memory, an index as one more than its value. -/
def encodeIndex : Option ℕ → List UInt8
  | none => word 0
  | some index => word (index + 1)

/-- An `Option<Index>` read from memory. -/
def decodeIndex (bytes : List UInt8) : Option ℕ :=
  match ofWord bytes with
  | 0 => none
  | n + 1 => some n

/-- `raw::Links`. -/
structure Links where
  previous : Option ℕ
  next : Option ℕ
  deriving DecidableEq

/-- `raw::Free`. -/
structure Free where
  index : ℕ
  order : Level
  links : Links

/-- The control byte of a free block, `FREE | order`. -/
def mark (order : Level) : UInt8 :=
  .ofNat (2 ^ 7 + order.val)

/-- `raw::Arena` with its `raw::State`, and the bytes from `base` on. -/
structure Arena (M : Type) where
  address : ℕ
  units : ℕ
  heads : Level → Option ℕ
  references : ℕ
  backing : Option M
  memory : ℕ → UInt8

namespace Arena

/-! ## Blocks and control bytes -/

/-- `Arena::capacity`. -/
def capacity (arena : Arena M) : ℕ :=
  arena.units * Layout.unitBytes

/-- `Arena::block`. -/
def block (_ : Arena M) (index : ℕ) : ℕ :=
  index * Layout.unitBytes

/-- Read from the blocks. -/
def read (arena : Arena M) (start count : ℕ) : Option (List UInt8) :=
  if start + count ≤ arena.capacity then some (load arena.memory start count) else none

/-- Write to the blocks. -/
def write (arena : Arena M) (start : ℕ) (bytes : List UInt8) : Option (Arena M) :=
  if start + bytes.length ≤ arena.capacity then
    some { arena with memory := store arena.memory start bytes }
  else none

/-- `ptr::copy_nonoverlapping`. -/
def copy (arena : Arena M) (source destination count : ℕ) : Option (Arena M) := do
  let bytes ← arena.read source count
  if source + count ≤ destination ∨ destination + count ≤ source then
    arena.write destination bytes
  else none

/-- `Arena::control`. -/
def control (arena : Arena M) (index : ℕ) : Option UInt8 :=
  if index < arena.units then some (arena.memory (arena.capacity + index)) else none

/-- `Arena::set_control`. -/
def setControl (arena : Arena M) (index : ℕ) (value : UInt8) : Option (Arena M) :=
  if index < arena.units then
    some { arena with memory := store arena.memory (arena.capacity + index) [value] }
  else none

/-! ## The free lists -/

/-- The first link of a free block, as it stands in memory. -/
def previous (arena : Arena M) (index : ℕ) : Option ℕ :=
  decodeIndex (load arena.memory (arena.block index) 8)

/-- The second link of a free block, as it stands in memory. -/
def next (arena : Arena M) (index : ℕ) : Option ℕ :=
  decodeIndex (load arena.memory (arena.block index + 8) 8)

/-- `Free::new`. -/
def readFree (arena : Arena M) (index : ℕ) (order : Level) : Option Free := do
  let _ ← arena.read (arena.block index) 16
  return ⟨index, order, arena.previous index, arena.next index⟩

/-- Write the first link of a free block. -/
def setPrevious (arena : Arena M) (index : ℕ) (link : Option ℕ) : Option (Arena M) :=
  arena.write (arena.block index) (encodeIndex link)

/-- Write the second link of a free block. -/
def setNext (arena : Arena M) (index : ℕ) (link : Option ℕ) : Option (Arena M) :=
  arena.write (arena.block index + 8) (encodeIndex link)

/-- Write the first link of the block that comes next, if there is one. -/
def setBack (arena : Arena M) (next link : Option ℕ) : Option (Arena M) :=
  match next with
  | some next => arena.setPrevious next link
  | none => some arena

/-- Write the second link of the block that comes before, or the head if there is none. -/
def setForward (arena : Arena M) (order : Level) (previous link : Option ℕ) : Option (Arena M) :=
  match previous with
  | some previous => arena.setNext previous link
  | none => some { arena with heads := Function.update arena.heads order link }

/-- `State::link`. -/
def link (arena : Arena M) (index : ℕ) (order : Level) : Option (Arena M) := do
  let next := arena.heads order
  let arena ← arena.setPrevious index none
  let arena ← arena.setNext index next
  let arena ← arena.setBack next (some index)
  let arena ← arena.setControl index (mark order)
  return { arena with heads := Function.update arena.heads order (some index) }

/-- `State::unlink`. -/
def unlink (arena : Arena M) (free : Free) : Option (Arena M) := do
  let arena ← arena.setForward free.order free.links.previous free.links.next
  let arena ← arena.setBack free.links.next free.links.previous
  arena.setControl free.index 0

/-- `State::free`. -/
def free (arena : Arena M) (index : ℕ) (order : Level) : Option (Option Free) := do
  let control ← arena.control index
  if control ≠ mark order then return none
  let free ← arena.readFree index order
  return some free

/-! ## Headers -/

/-- `Block::pointer`. -/
def pointer (arena : Arena M) (index : ℕ) : ℕ :=
  arena.block index + headerBytes

/-- `Block::write_order`. -/
def writeOrder (arena : Arena M) (index : ℕ) (order : Order) : Option (Arena M) :=
  arena.write (arena.block index + 8) [.ofNat order.val]

/-- `Block::write`. -/
def writeBlock (arena : Arena M) (index : ℕ) (order : Order) : Option (Arena M) := do
  let arena ← arena.write (arena.block index) (word arena.address)
  arena.writeOrder index order

/-- The block of a payload : `Block::read`, and `Decoded::with_state`. -/
def decode (arena : Arena M) (payload : ℕ) : Option (ℕ × Order) := do
  let header ← less payload headerBytes
  let owner ← arena.read header 8
  if ofWord owner ≠ arena.address then none
  let bytes ← arena.read (header + 8) 1
  let byte ← bytes.head?
  let order ← Order.new byte.toNat
  return (header / Layout.unitBytes, order)

/-! ## Reserving and recycling -/

/-- `Segment::reserve` : the upper halves that are given back while a block of one order is cut
down to another. -/
def cut (arena : Arena M) (index : ℕ) (order : Order) (found : Level) : Option (Arena M) :=
  (List.range' order.val (found.val - order.val)).reverse.foldlM (fun arena position =>
    let level := Level.mask position
    arena.link (index + 2 ^ level.val) level) arena

/-- `State::reserve`, from the given positions on. -/
def scan (arena : Arena M) (order : Order) : List ℕ → Option (Option (Arena M × ℕ))
  | [] => some none
  | position :: positions =>
    let found := Level.mask position
    match arena.heads found with
    | none => arena.scan order positions
    | some index => do
      let free ← arena.readFree index found
      let arena ← arena.unlink free
      let arena ← arena.cut index order found
      return some (arena, index)

/-- `State::reserve`. -/
def reserve (arena : Arena M) (order : Order) : Option (Option (Arena M × ℕ)) :=
  arena.scan order (List.range' order.val (maxOrder + 1 - order.val))

/-- `State::recycle`. -/
def recycle (arena : Arena M) (index : ℕ) (order : Level) : Option (Arena M) :=
  match _h : Level.new (order.val + 1) with
  | none => arena.link index order
  | some next =>
    match Index.new (index ^^^ 2 ^ order.val) arena.units with
    | none => arena.link index order
    | some buddy =>
      match arena.free buddy order with
      | none => none
      | some none => arena.link index order
      | some (some free) =>
        match arena.unlink free with
        | none => none
        | some arena => arena.recycle (min index buddy) next
termination_by 32 - order.val
decreasing_by
  unfold Level.new at _h
  split at _h
  · obtain rfl := Option.some.inj _h
    dsimp only
    omega
  · exact absurd _h (by simp)

/-- `State::release`. -/
def release (arena : Arena M) : Option (Arena M × Option M) := do
  let references ← less arena.references 1
  if references = 0 then
    let backing ← arena.backing
    return ({ arena with references := references, backing := none }, some backing)
  else return ({ arena with references := references }, none)

/-- `Vacant::publish`. -/
def publish (arena : Arena M) (index : ℕ) (order : Order) : Option (Arena M × ℕ) := do
  let arena ← arena.writeBlock index order
  let references ← fit 64 (arena.references + 1)
  return ({ arena with references := references }, arena.pointer index)

/-! ## Growing -/

/-- `x & !(2 ^ k - 1)` on words. -/
def clearLow (k x : ℕ) : ℕ :=
  x &&& (2 ^ 64 - 1 ^^^ (2 ^ k - 1))

/-- The buddies that `grow_adjacent` absorbs. -/
def buddies (start : ℕ) (previous order : Order) : List (ℕ × Level) :=
  (List.range' previous.val (order.val - previous.val)).map fun position =>
    (clearLow position (start ^^^ 2 ^ position), Level.mask position)

/-- Whether all of some blocks are free, up to the first that is not. -/
def allFree (arena : Arena M) : List (ℕ × Level) → Option Bool
  | [] => some true
  | (index, level) :: rest => do
    match ← arena.free index level with
    | none => return false
    | some _ => arena.allFree rest

/-- Unlink free blocks, one after the other. -/
def unlinkAll (arena : Arena M) (blocks : List (ℕ × Level)) : Option (Arena M) :=
  blocks.foldlM (fun arena block => do
    let free ← arena.readFree block.1 block.2
    arena.unlink free) arena

/-- `Occupied::grow_adjacent`. -/
def growAdjacent (arena : Arena M) (start : ℕ) (previous order : Order) :
    Option (Option (Arena M × ℕ)) := do
  let base := clearLow order.val start
  let rest ← less arena.units base
  if rest < 2 ^ order.val then return none
  if !(← arena.allFree (buddies start previous order)) then return none
  let arena ← arena.unlinkAll (buddies start previous order)
  if base = start then
    let arena ← arena.writeOrder start order
    return some (arena, arena.pointer start)
  let arena ← arena.writeBlock base order
  let count ← payloadBytes previous
  let arena ← arena.copy (arena.pointer start) (arena.pointer base) count
  return some (arena, arena.pointer base)

/-- `Vacant::replace`. -/
def replace (arena : Arena M) (index : ℕ) (order : Order) (old : ℕ) (previous : Order) :
    Option (Arena M × ℕ) := do
  let arena ← arena.writeBlock index order
  let count ← payloadBytes previous
  let arena ← arena.copy (arena.pointer old) (arena.pointer index) count
  let arena ← arena.recycle old previous.widen
  return (arena, arena.pointer index)

/-- `Occupied::grow`. -/
def grow (arena : Arena M) (start : ℕ) (previous order : Order) :
    Option (Arena M × Option ℕ) := do
  match ← arena.growAdjacent start previous order with
  | some (arena, pointer) => return (arena, some pointer)
  | none =>
    match ← arena.reserve order with
    | none => return (arena, none)
    | some (arena, next) =>
      let (arena, pointer) ← arena.replace next order start previous
      return (arena, some pointer)

/-! ## The hooks -/

/-- `Owner::allocate`. -/
def allocate (arena : Arena M) (order : Order) : Option (Arena M × Option ℕ) := do
  match ← arena.reserve order with
  | none => return (arena, none)
  | some (arena, index) =>
    let (arena, pointer) ← arena.publish index order
    return (arena, some pointer)

/-- `hooks::malloc` inside the scope of this arena. -/
def malloc (arena : Arena M) (bytes : Int32) : Option (Arena M × Option ℕ) :=
  match Len.new bytes with
  | none => some (arena, none)
  | some len => do
    match ← len.order with
    | none => return (arena, none)
    | some order => arena.allocate order

/-- `hooks::free` : `Occupied::release`, with the backing when it is returned. -/
def dealloc (arena : Arena M) (payload : ℕ) : Option (Arena M × Option M) := do
  let (index, order) ← arena.decode payload
  let (arena, backing) ← arena.release
  match backing with
  | some backing => return (arena, some backing)
  | none =>
    let arena ← arena.recycle index order.widen
    return (arena, none)

/-- `Block::resize`. -/
def resize (arena : Arena M) (payload : ℕ) (len : Len) :
    Option (Arena M × Option ℕ) := do
  let (index, order) ← arena.decode payload
  let request ← len.intoUsize
  let room ← payloadBytes order
  if request ≤ room then return (arena, some (arena.pointer index))
  match ← len.order with
  | none => return (arena, none)
  | some next => arena.grow index order next

/-- `hooks::realloc`. -/
def realloc (arena : Arena M) (payload : ℕ) (bytes : Int32) :
    Option (Arena M × Option ℕ) :=
  match Len.new bytes with
  | none => some (arena, none)
  | some len => arena.resize payload len

/-- `hooks::size`. -/
def size (arena : Arena M) (payload : ℕ) : Option ℤ := do
  let (_, order) ← arena.decode payload
  payloadInteger order

/-! ## A new arena -/

/-- `block::Partition`. -/
def partition (offset left : ℕ) : List (ℕ × Level) :=
  if h : left = 0 then []
  else
    let order := Level.mask left.log2
    (offset, order) :: partition (offset + 2 ^ order.val) (left - 2 ^ order.val)
termination_by left
decreasing_by
  have hpos := Nat.two_pow_pos (Level.mask left.log2).val
  omega

/-- `Arena::initialize` : the control bytes are cleared, and the blocks of the partition linked. -/
def init (address : ℕ) (layout : Layout) (backing : M) (memory : ℕ → UInt8) :
    Option (Arena M) :=
  let units := layout.units
  let arena : Arena M :=
    { address := address
      units := units
      heads := fun _ => none
      references := 1
      backing := some backing
      memory := store memory (units * Layout.unitBytes) (List.replicate units 0) }
  (partition 0 units).foldlM (fun arena block => arena.link block.1 block.2) arena

end Arena

end Cartel.Sqlite.Heap
