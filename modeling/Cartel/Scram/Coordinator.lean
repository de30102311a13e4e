import Cartel.Scram.Exchange

/-!
# The key derivation runtime

The connections of a port share the derivations. A `Ticket` polls with its key : it joins
the entry of the key, or is admitted to a new one if it is the front of the unassigned
lane, and only the front of an entry's lane advances it. A derivation that is ready and
that nobody waits for is cached, and at most two are.

The tickets stand in lanes, one for each entry and one for the unassigned ones (`Waiters`).
A lane is FIFO, a ticket is in one lane at most, and entering a lane again keeps the place.
A ticket is known by the slot of its connection. A branch that the source marks as
unreachable has no result here.
-/

namespace Cartel.Pg.Scram

open Cartel.Lib

/-- `array::Index<ENTRIES>`. -/
abbrev Index :=
  Fin 6

/-! ## Waiters -/

/-- `values::Values` : the job of each member, and the lanes. -/
structure Waiters (ω : Type) where
  member : ω → Option (Option Index)
  lane : Option Index → List ω

namespace Waiters

variable {ω : Type} [DecidableEq ω] (w : Waiters ω)

/-- `write`, of a member that is in no lane. -/
def write (o : ω) : Waiters ω :=
  ⟨Function.update w.member o (some none), w.lane⟩

/-- `set` in the unassigned lane. -/
def set (o : ω) : Waiters ω :=
  ⟨w.member, Function.update w.lane none
    (if o ∈ w.lane none then w.lane none else w.lane none ++ [o])⟩

/-- The lanes without a member. -/
def without (o : ω) (l : Option Index) : List ω :=
  (w.lane l).filter (· ≠ o)

/-- `push` into the lane of an entry. -/
def push (o : ω) (index : Index) : Waiters ω :=
  ⟨Function.update w.member o (some (some index)),
    Function.update (w.without o) (some index) (w.without o (some index) ++ [o])⟩

/-- `take`. -/
def take (o : ω) : Waiters ω :=
  ⟨Function.update w.member o none, w.without o⟩

/-- `front`. -/
def front (l : Option Index) : Option ω :=
  (w.lane l).head?

end Waiters

/-! ## The coordinator -/

/-- `kdf::State`. -/
inductive EntryState where
  | computing (kdf : Kdf)
  | ready (keys : Keys)

/-- `Entry`. -/
structure Entry where
  key : KdfKey
  state : EntryState

/-- Whether an entry is being computed. -/
def Entry.isComputing (entry : Entry) : Bool :=
  match entry.state with
  | .computing _ => true
  | .ready _ => false

/-- `Coordinator`. -/
structure Coordinator where
  entries : Index → Option Entry
  cached : Bool → Option Index
  second : Bool

namespace Coordinator

/-- `Coordinator::default`. -/
def new : Coordinator :=
  ⟨fun _ => none, fun _ => none, false⟩

variable (c : Coordinator)

/-- Whether an entry is in the cache. -/
def isCached (index : Index) : Bool :=
  c.cached false = some index || c.cached true = some index

/-- Whether an entry is there for a key. -/
def holds (key : KdfKey) (index : Index) : Bool :=
  match c.entries index with
  | some entry => entry.key = key
  | none => false

/-- Whether an entry is there and being computed. -/
def computes (index : Index) : Bool :=
  match c.entries index with
  | some entry => entry.isComputing
  | none => false

/-- The loop of `select` over the entries that are not cached : the entry of the key, or
the last empty one and the number of those being computed. -/
def scan (key : KdfKey) : List Index → Option Index → ℕ → Index ⊕ (Option Index × ℕ)
  | [], empty, computing => .inr (empty, computing)
  | index :: rest, empty, computing =>
    if c.isCached index then scan key rest empty computing
    else if (c.entries index).isNone then scan key rest (some index) computing
    else if c.holds key index then .inl index
    else scan key rest empty (computing + if c.computes index then 1 else 0)

/-- What `take` leaves of the cache. -/
def uncache (b : Bool) : Bool → Option Index :=
  Function.update c.cached b none

/-- The entry that a new derivation gets, and the cache without it. -/
def vacate (empty : Option Index) : Option (Index × (Bool → Option Index)) :=
  match empty with
  | some index => some (index, c.cached)
  | none =>
    match c.cached c.second with
    | some index => some (index, c.uncache c.second)
    | none => (c.cached !c.second).map fun index => (index, c.uncache !c.second)

/-- An entry replaced. -/
def insert (index : Index) (cached : Bool → Option Index) (entry : Entry) : Coordinator :=
  ⟨Function.update c.entries index (some entry), cached, c.second⟩

/-- The state of an entry replaced. -/
def advanced (index : Index) (state : EntryState) : Coordinator :=
  ⟨Function.update c.entries index ((c.entries index).map fun entry => ⟨entry.key, state⟩),
    c.cached, c.second⟩

/-- An entry cleared. -/
def clear (index : Index) : Coordinator :=
  ⟨Function.update c.entries index none, c.cached, c.second⟩

/-- `Coordinator::cache`. -/
def cache (index : Index) : Coordinator :=
  let cached := Function.update c.cached c.second (some index)
  match c.cached c.second with
  | some previous => ⟨Function.update c.entries previous none, cached, !c.second⟩
  | none => ⟨c.entries, cached, !c.second⟩

variable (compress256 : Words → List UInt8 → Words)

/-- `Coordinator::select`. -/
def select (key : KdfKey) (password : Option (List UInt8)) : Option (Index × Coordinator) :=
  match [false, true].findSome? fun b => (c.cached b).filter (c.holds key) with
  | some index => some (index, c)
  | none =>
    match c.scan key (List.finRange 6) none 0 with
    | .inl index => some (index, c)
    | .inr (empty, computing) =>
      match password with
      | none => none
      | some password =>
        if computing = 4 then none
        else (c.vacate empty).map fun room =>
          (room.1, c.insert room.1 room.2 ⟨key, .computing (Kdf.new compress256 password key)⟩)

end Coordinator

/-! ## The runtime -/

/-- `Runtime`. -/
structure Runtime (ω : Type) where
  waiters : Waiters ω
  coordinator : Coordinator

/-- What a poll leaves : the runtime, the connections it wakes in order, and the keys it
passes on. For the proofs it also says which entry it advanced, and by how many rounds. -/
structure Polled (ω : Type) where
  runtime : Runtime ω
  wakes : List ω
  keys : Option Keys
  ran : Option (Index × ℕ)

namespace Runtime

variable {ω : Type} [DecidableEq ω] (s : Runtime ω)

/-- `Runtime::try_new`. -/
def new : Runtime ω :=
  ⟨⟨fun _ => none, fun _ => []⟩, .new⟩

/-- `Runtime::front`. -/
def front (l : Option Index) : Option ω :=
  s.waiters.front l

/-- `Runtime::try_entry`. -/
def tryEntry (o : ω) : Runtime ω :=
  ⟨s.waiters.write o, s.coordinator⟩

/-- `Ticket::release`, of a ticket with a job or without : the runtime, the connection to
wake, and whether others wait for the entry. -/
def releaseJob (o : ω) (job : Option Index) : Runtime ω × Option ω × Bool :=
  let front := s.front job = some o
  let waiters := s.waiters.take o
  match job with
  | none => (⟨waiters, s.coordinator⟩, if front then waiters.front none else none, false)
  | some index =>
    match waiters.front (some index) with
    | some next => (⟨waiters, s.coordinator⟩, if front then some next else none, true)
    | none =>
      let coordinator :=
        match s.coordinator.entries index with
        | some ⟨_, .ready _⟩ => s.coordinator.cache index
        | _ => s.coordinator.clear index
      (⟨waiters, coordinator⟩, waiters.front none, false)

/-- `Ticket::release`. -/
def release (o : ω) : Runtime ω × Option ω × Bool :=
  match s.waiters.member o with
  | none => (s, none, false)
  | some job => s.releaseJob o job

/-- `Ticket::cancel`. -/
def cancel (o : ω) : Runtime ω × Option ω :=
  ((s.release o).1, (s.release o).2.1)

/-- The end of `Ticket::poll`, for an entry that is ready. -/
def finish (o : ω) (index : Index) (wakes : List ω) (ran : Option (Index × ℕ)) :
    Option (Polled ω) :=
  let (s', next, remaining) := s.release o
  let others := if ran.isSome ∧ remaining then s'.front none else none
  match s'.coordinator.entries index with
  | some ⟨_, .ready keys⟩ => some ⟨s', wakes ++ next.toList ++ others.toList, some keys, ran⟩
  | _ => none

variable (compress256 : Words → List UInt8 → Words)

/-- The ticket enters the lane of its entry, and the next unassigned one is woken. -/
def join (o : ω) (index : Index) : Runtime ω × List ω :=
  let front := s.front none = some o
  let s' : Runtime ω := ⟨s.waiters.push o index, s.coordinator⟩
  (s', if front then (s'.front none).toList else [])

/-- The slice of `Ticket::poll`, once the ticket is in the lane of its entry. -/
def advance (o : ω) (index : Index) (kdf : Kdf) (wakes : List ω) : Option (Polled ω) :=
  if s.front (some index) ≠ some o then some ⟨s, wakes, none, none⟩
  else
    let rounds := min kdf.remaining 256
    match kdf.advance compress256 with
    | (kdf, none) =>
      some ⟨⟨s.waiters, s.coordinator.advanced index (.computing kdf)⟩, wakes ++ [o], none,
        some (index, rounds)⟩
    | (_, some salted) =>
      let (inner, outer) := hmac compress256 salted.toList iv iv
      let keys := Keys.write compress256 inner outer
      finish ⟨s.waiters, s.coordinator.advanced index (.ready keys)⟩ o index wakes
        (some (index, rounds))

/-- `Ticket::poll`, once its entry is known. -/
def drive (o : ω) (job : Option Index) (index : Index) : Option (Polled ω) :=
  match s.coordinator.entries index with
  | none => none
  | some ⟨_, .computing kdf⟩ =>
    let (s, wakes) := if job.isNone then s.join o index else (s, [])
    s.advance compress256 o index kdf wakes
  | some ⟨_, .ready _⟩ => s.finish o index [] none

/-- `Ticket::poll`. -/
def poll (o : ω) (key : KdfKey) (password : List UInt8) : Option (Polled ω) :=
  match s.waiters.member o with
  | none => some ⟨s, [], none, none⟩
  | some (some index) => s.drive compress256 o (some index) index
  | some none =>
    let admission := if s.front none = none ∨ s.front none = some o then some password else none
    match s.coordinator.select compress256 key admission with
    | none => some ⟨⟨s.waiters.set o, s.coordinator⟩, [], none, none⟩
    | some (index, coordinator) =>
      drive ⟨s.waiters, coordinator⟩ compress256 o none index

end Runtime

end Cartel.Pg.Scram
