import Cartel.Lib.Bitmap
import Cartel.Pool.Slot

/-!
# The index of ready connections

The slots of a pool, and the index of those that are listed: a ring of them for taking turns,
and a list of them for each load, with a bitmap of the loads that occur and the least one.
The last row takes every load above it.

Where the source relies on what its caller guarantees there is no result: an entry is linked
only where it is not, and unlinked only where it is, no counter goes below zero, and an entry
that is reserved is shared. Where a list takes a new entry is left to the parameter `Links`.
-/

namespace Cartel.Pg.Pool

open Cartel.Lib

variable {n top : ℕ} {φ : Type}

/-- What `depot` does to link an entry. -/
structure Links (n : ℕ) where
  cyclePush : Fin n → List (Fin n) → List (Fin n)
  linkRaw : Fin n → List (Fin n) → List (Fin n)
  cyclePush_perm : ∀ index ring, (cyclePush index ring).Perm (index :: ring)
  linkRaw_perm : ∀ index list, (linkRaw index list).Perm (index :: list)

/-- `storage::Index`, with its block. The ring starts at its head. -/
structure Index (n top : ℕ) (φ : Type) where
  slots : Fin n → Slot n φ
  ring : List (Fin n)
  heads : Fin (top + 1) → List (Fin n)
  bits : Fin (top + 1) → Bool
  priority : Fin n → Option (Fin (top + 1))
  minimum : Option (Fin (top + 1))
  live : ℕ
  blockers : ℕ

/-- `Row::clamp`. -/
def clamp (top depth : ℕ) : Fin (top + 1) :=
  ⟨min depth top, Nat.lt_succ_of_le (Nat.min_le_right depth top)⟩

/-- `storage::Listed` : an entry, and its rank. -/
structure Listed (n top : ℕ) where
  index : Fin n
  rank : Fin (top + 1)
  deriving DecidableEq

/-- `ready::Source`. -/
inductive Source (n top : ℕ) where
  | shared (listed : Listed n top)
  | exclusive (index : Fin n)
  deriving DecidableEq

/-- `storage::Reservation`, with the generation of its `phase`. -/
structure Reservation (n top : ℕ) where
  index : Fin n
  rank : Fin (top + 1)
  id : Transaction n
  deriving DecidableEq

/-- `poll::Status`. -/
inductive Status where
  | idle
  | transaction
  deriving DecidableEq

/-- `poll::Readiness`. -/
inductive Readiness where
  | ready
  | pending
  deriving DecidableEq

/-- `PickPolicy`. -/
inductive PickPolicy where
  | roundRobin
  | leastInflight
  deriving DecidableEq

namespace Index

/-- `Index::try_new`. -/
def new : Index n top φ where
  slots := fun _ => .new
  ring := []
  heads := fun _ => []
  bits := fun _ => false
  priority := fun _ => none
  minimum := none
  live := 0
  blockers := 0

/-- A new state of one slot. -/
def set (index : Fin n) (slot : Slot n φ) (self : Index n top φ) : Index n top φ :=
  { self with slots := Function.update self.slots index slot }

/-! ## Entries -/

/-- `Entry::attach`. -/
def attach (links : Links n) (index : Fin n) (row : Fin (top + 1)) (self : Index n top φ) :
    Option (Index n top φ) :=
  if (List.finRange (top + 1)).any fun row => decide (index ∈ self.heads row) then none
  else
    let lower := self.minimum.all fun current => decide (row < current)
    some { self with
      bits := if self.heads row = [] then Function.update self.bits row true else self.bits
      minimum := if self.heads row = [] ∧ lower then some row else self.minimum
      heads := Function.update self.heads row (links.linkRaw index (self.heads row))
      priority := Function.update self.priority index (some row) }

/-- `Entry::detach`. -/
def detach (index : Fin n) (rank : Fin (top + 1)) (self : Index n top φ) :
    Option (Index n top φ) :=
  if index ∉ self.heads rank then none
  else
    let list := (self.heads rank).erase index
    let bits := if list = [] then Function.update self.bits rank false else self.bits
    some { self with
      heads := Function.update self.heads rank list
      priority := Function.update self.priority index none
      bits
      minimum :=
        if list = [] ∧ self.minimum = some rank then Bitmap.find bits (rank.val + 1)
        else self.minimum }

/-- `Entry::insert_rank`. -/
def insertRank (links : Links n) (index : Fin n) (rank : Fin (top + 1)) (self : Index n top φ) :
    Option (Index n top φ) :=
  if index ∈ self.ring then none
  else attach links index rank { self with ring := links.cyclePush index self.ring }

/-- `Entry::insert`. -/
def insert (links : Links n) (index : Fin n) (depth : ℕ) (self : Index n top φ) :
    Option (Index n top φ) :=
  self.insertRank links index (clamp top depth)

/-- `Entry::listed`. -/
def listed (index : Fin n) (self : Index n top φ) : Option (Listed n top) :=
  (self.priority index).map fun rank => ⟨index, rank⟩

/-- `Listed::remove`. -/
def remove (listed : Listed n top) (self : Index n top φ) : Option (Index n top φ) :=
  if listed.index ∉ self.ring then none
  else detach listed.index listed.rank { self with ring := self.ring.erase listed.index }

/-- `Listed::remove`, of an entry that may be listed. -/
def unlist (listed : Option (Listed n top)) (self : Index n top φ) : Option (Index n top φ) :=
  match listed with
  | some listed => self.remove listed
  | none => some self

/-- `Listed::reprioritize`. -/
def reprioritizeListed (links : Links n) (listed : Listed n top) (depth : ℕ)
    (self : Index n top φ) : Option (Index n top φ) :=
  let bucket := clamp top depth
  if listed.rank = bucket ∧ (self.heads bucket).head? = some listed.index then some self
  else do (← self.detach listed.index listed.rank).attach links listed.index bucket

/-- `Entry::reprioritize`. -/
def reprioritize (links : Links n) (index : Fin n) (depth : ℕ) (self : Index n top φ) :
    Option (Index n top φ) :=
  match self.listed index with
  | none => some self
  | some listed => self.reprioritizeListed links listed depth

/-! ## Counters -/

/-- One blocker less. -/
def unblock (self : Index n top φ) : Option (Index n top φ) :=
  if self.blockers = 0 then none else some { self with blockers := self.blockers - 1 }

/-- One connection less that is ready. -/
def fall (self : Index n top φ) : Option (Index n top φ) :=
  if self.live = 0 then none else some { self with live := self.live - 1 }

/-! ## Selections -/

/-- `Index::next`, with the listed entry. -/
def next (self : Index n top φ) : Index n top φ × Option (Listed n top) :=
  match self.ring with
  | [] => (self, none)
  | index :: ring => ({ self with ring := ring ++ [index] }, self.listed index)

/-- `Index::minimum` : the front of the least bucket. There is one. -/
def least (self : Index n top φ) : Option (Option (Listed n top)) :=
  match self.minimum with
  | none => some none
  | some rank => (self.heads rank).head?.map fun index => some ⟨index, rank⟩

/-- A ring after its steps up to the first entry that is eligible. -/
def search (eligible : Fin n → Bool) : List (Fin n) → List (Fin n) → List (Fin n) × Option (Fin n)
  | before, [] => (before, none)
  | before, index :: behind =>
    if eligible index then (behind ++ (before ++ [index]), some index)
    else search eligible (before ++ [index]) behind

/-- `Index::next_where`. -/
def nextWhere (eligible : Slot n φ → Bool) (self : Index n top φ) :
    Index n top φ × Option (Listed n top) :=
  let found := search (fun index => eligible (self.slots index)) [] self.ring
  ({ self with ring := found.1 }, found.2.bind self.listed)

/-- The loop of `Index::least_where`, for at most as many rows as there are. -/
def leastFrom (eligible : Slot n φ → Bool) (self : Index n top φ) :
    ℕ → Fin (top + 1) → Option (Listed n top)
  | 0, _ => none
  | rows + 1, row =>
    match (self.heads row).find? fun index => eligible (self.slots index) with
    | some index => some ⟨index, row⟩
    | none =>
      match Bitmap.find self.bits (row.val + 1) with
      | none => none
      | some row => leastFrom eligible self rows row

/-- `Index::least_where`. -/
def leastWhere (eligible : Slot n φ → Bool) (self : Index n top φ) : Option (Listed n top) :=
  self.minimum.bind (self.leastFrom eligible (top + 1))

/-- `Set::pick_where`. -/
def pickWhere (policy : PickPolicy) (eligible : Slot n φ → Bool) (self : Index n top φ) :
    Index n top φ × Option (Listed n top) :=
  match policy with
  | .roundRobin => self.nextWhere eligible
  | .leastInflight => (self, self.leastWhere eligible)

/-- `Set::pick`. -/
def pick (policy : PickPolicy) (boundary : Boundary) (self : Index n top φ) :
    Option (Index n top φ × Option (Listed n top)) :=
  match boundary, policy with
  | .group, _ => some (self.pickWhere policy Slot.isSynced)
  | _, .roundRobin => some self.next
  | _, .leastInflight => self.least.map fun listed => (self, listed)

/-- `Set::pick_begin`. -/
def pickBegin (policy : PickPolicy) (self : Index n top φ) :
    Index n top φ × Option (Listed n top) :=
  self.pickWhere policy Slot.canBegin

/-- `Set::select` of a target, which is a connection, or a transaction on it : whether it is
there, and the source, if it is free. -/
def target (token : Token n) (generation : Option Generation) (self : Index n top φ) :
    Bool × Option (Source n top) :=
  let slot := self.slots token.index
  if !slot.select token generation then (false, none)
  else if slot.phase.isReceiving then (true, none)
  else if generation.isSome then (true, some (.exclusive token.index))
  else (true, (self.listed token.index).map .shared)

/-! ## Transitions -/

/-- `Set::bind`, and whether it was bound. -/
def bind (token : Token n) (self : Index n top φ) : Index n top φ × Bool :=
  let bound := (self.slots token.index).bind token
  (self.set token.index bound.1, bound.2)

/-- `Index::try_ready`, and whether it was ready. -/
def tryReady (links : Links n) (token : Token n) (self : Index n top φ) :
    Option (Index n top φ × Bool) :=
  match (self.slots token.index).tryReady token with
  | none => some (self, false)
  | some slot => do
    let self ← (self.set token.index slot).insert links token.index 0
    return ({ self with live := self.live + 1 }, true)

/-- `Listed::reserve`. -/
def reserve (listed : Listed n top) (self : Index n top φ) :
    Option (Index n top φ × Option (Reservation n top)) := do
  let (slot, id) ← (self.slots listed.index).reserve
  let self ← (self.set listed.index slot).remove listed
  match id with
  | none => return (self, none)
  | some id =>
    return ({ self with blockers := self.blockers + 1 }, some ⟨listed.index, listed.rank, id⟩)

/-- `Reservation::release`. -/
def release (links : Links n) (reservation : Reservation n top) (self : Index n top φ) :
    Option (Index n top φ) := do
  let slot ← (self.slots reservation.index).setAccess
    (.shared reservation.id.generation.sequence)
  let self ← (self.set reservation.index slot).insertRank links reservation.index reservation.rank
  self.unblock

/-- `Index::poll_ready`. -/
def pollReady (links : Links n) (token : Token n) (status : Status) (depth : ℕ)
    (self : Index n top φ) : Option (Index n top φ × Readiness × Option (Transaction n)) :=
  match (self.slots token.index).current token, status with
  | .reserved id, .idle => some (self, .ready, some id)
  | .reserved id, .transaction => do
    let slot ← (self.slots token.index).setAccess (.held id.generation)
    return (self.set token.index slot, .ready, some id)
  | .held id, _ => some (self, .ready, some id)
  | .finalizing _, .transaction => some (self, .pending, none)
  | .finalizing id, .idle => do
    let slot ← (self.slots token.index).setAccess (.shared id.generation.sequence)
    let self := self.set token.index slot
    if slot.phase.isReceiving then return (self, .ready, some id)
    return (← self.insert links token.index depth, .ready, some id)
  | .stale, _ | .handshaking, _ | .shared, _ | .draining, _ | .closing, _ =>
    some (self, .ready, none)

/-- `Index::finalize`. -/
def finalize (id : Transaction n) (self : Index n top φ) :
    Option (Index n top φ × Finalization n) :=
  let state := (self.slots id.conn.index).finalize id
  let self := self.set id.conn.index state.1
  match state.2 with
  | .pending _ => self.unblock.map fun self => (self, state.2)
  | .reusable _ | .lost _ => some (self, state.2)

/-- `Index::close`. -/
def close (token : Token n) (cause : φ) (fate : Disposition) (self : Index n top φ) :
    Option (Index n top φ × Option (Closed n × φ)) :=
  let listed := self.listed token.index
  match (self.slots token.index).tryClose token cause fate with
  | none => some (self, none)
  | some (slot, state, failure) => do
    let self ← (self.set token.index slot).unlist listed
    match state with
    | .reserved _ | .held _ => return (← (← self.unblock).fall, some (state, failure))
    | .shared | .finalizing _ | .draining => return (← self.fall, some (state, failure))
    | .handshaking | .closing => return (self, some (state, failure))

/-- `Index::reindex`, and the connection that has drained. -/
def reindex (links : Links n) (token : Token n) (depth : ℕ) (self : Index n top φ) :
    Option (Index n top φ × Option (Token n)) :=
  let slot := self.slots token.index
  match slot.current token with
  | .shared => do
    return (← self.reprioritize links token.index (depth + slot.barriers), none)
  | .draining =>
    some (self, if depth = 0 ∧ slot.barriers = 0 then some token else none)
  | .stale | .handshaking | .reserved _ | .held _ | .finalizing _ | .closing => some (self, none)

/-- `Index::set_receiving`, and whether there is a connection to wait for. -/
def setReceiving (links : Links n) (token : Token n) (receiving : Bool) (depth : ℕ)
    (self : Index n top φ) : Option (Index n top φ × Bool) :=
  let set := (self.slots token.index).setReceiving token receiving
  let self := self.set token.index set.1
  if !set.2 then some (self, false)
  else if receiving then do
    return (← self.unlist (self.listed token.index), false)
  else if set.1.current token = .shared then do
    return (← self.insert links token.index (depth + set.1.barriers), true)
  else some (self, true)

/-- `Slot::try_retire`, and whether the slot of the token is free. -/
def tryRetire (token : Token n) (self : Index n top φ) : Index n top φ × Bool :=
  let retired := (self.slots token.index).tryRetire token
  (self.set token.index retired.1, retired.2)

end Index

end Cartel.Pg.Pool
