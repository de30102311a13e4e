import Mathlib.Data.PNat.Basic

/-!
# Slots

The slot of a connection: its lifecycle with the access to it while it is ready, and what its
Syncs are at. A transaction is a connection and a generation, which the access hands out in
sequence, and which are never zero.

What a function of the source only does for a slot that its caller has proven to be ready has
no result for another one. Backend keys, targets to wake, and what is read from a failure are
left out.
-/

namespace Cartel.Pg.Pool

variable {n : ℕ} {φ : Type}

/-! ## Transactions -/

/-- `conn::Id` : an index, and the epoch of its binding. -/
structure Token (n : ℕ) where
  index : Fin n
  epoch : ℕ
  deriving DecidableEq

/-- `access::Sequence`. -/
structure Sequence where
  value : UInt64
  deriving DecidableEq

/-- `access::Generation`. -/
structure Generation where
  value : UInt64
  nonzero : value ≠ 0
  deriving DecidableEq

/-- `Sequence::INITIAL`. -/
def Sequence.initial : Sequence :=
  ⟨0⟩

/-- `Sequence::next`. -/
def Sequence.next (self : Sequence) : Option Generation :=
  if h : self.value + 1 ≠ 0 then some ⟨self.value + 1, h⟩ else none

/-- `Generation::sequence`. -/
def Generation.sequence (self : Generation) : Sequence :=
  ⟨self.value⟩

/-- `access::Transaction`. -/
structure Transaction (n : ℕ) where
  conn : Token n
  generation : Generation
  deriving DecidableEq

/-! ## Lifecycles -/

/-- `access::State`. -/
inductive Access where
  | shared (sequence : Sequence)
  | reserved (generation : Generation)
  | held (generation : Generation)
  | finalizing (generation : Generation)
  | draining
  deriving DecidableEq

/-- `Disposition`. -/
inductive Disposition where
  | reconnect
  | permanent
  deriving DecidableEq

/-- `Lifecycle`, with the binding of `phases::State`. -/
inductive Lifecycle (n : ℕ) (φ : Type) where
  | vacant
  | handshaking (bound : Token n)
  | ready (bound : Token n) (access : Access) (receiving : Bool)
  | closing (bound : Token n) (failure : φ) (disposition : Disposition)
  deriving DecidableEq

namespace Lifecycle

/-- `Phase::bound`. -/
def bound : Lifecycle n φ → Option (Token n)
  | vacant => none
  | handshaking bound | ready bound _ _ | closing bound _ _ => some bound

/-- `State::set_access`, of a slot that is ready. -/
def setAccess (access : Access) : Lifecycle n φ → Option (Lifecycle n φ)
  | ready bound _ receiving => some (ready bound access receiving)
  | _ => none

/-- `State::is_receiving`. -/
def isReceiving : Lifecycle n φ → Bool
  | ready _ _ receiving => receiving
  | _ => false

/-- `State::set_receiving`, and whether it was set. -/
def setReceiving (token : Token n) (receiving : Bool) (self : Lifecycle n φ) :
    Lifecycle n φ × Bool :=
  match self with
  | ready bound access current =>
    if current = receiving ∨ bound ≠ token then (self, false)
    else (ready bound access receiving, true)
  | _ => (self, false)

end Lifecycle

/-! ## Syncs -/

/-- `NonZero<u32>`. -/
structure Depth where
  get : ℕ
  pos : 0 < get
  lt : get < UInt32.size

theorem Depth.ext_get {a b : Depth} (h : a.get = b.get) : a = b := by
  obtain ⟨get, pos, lt⟩ := a
  obtain ⟨get', pos', lt'⟩ := b
  obtain rfl : get = get' := h
  rfl

instance : DecidableEq Depth := fun _ _ =>
  decidable_of_iff _ ⟨Depth.ext_get, congrArg Depth.get⟩

/-- `slot::Sync`. -/
inductive Sync where
  | synced
  | automatic (depth : Depth)
  | explicit (depth : Depth)
  deriving DecidableEq

/-- `requests::Boundary`. -/
inductive Boundary where
  | close
  | begin
  | commit
  | group
  | open'
  | external
  deriving DecidableEq

/-- `crate::Error`, as far as a Sync causes it. -/
inductive SyncError where
  | groupOpen (depth : Depth)
  | requestDepthOverflow (depth : Depth)
  | requestCloseDuringCopy (depth : Depth)
  | requestOpenDuringCopy (depth : Depth)
  | copyDuringPipeline (depth : Depth)
  | copyAlreadyOpen (depth : Depth)
  | copyFinishWithoutStart
  | copyFinishDuringPipeline (depth : Depth)
  deriving DecidableEq

/-- `NonZero::<u32>::MIN`. -/
def Depth.one : Depth :=
  ⟨1, Nat.one_pos, of_decide_eq_true rfl⟩

/-- `checked_add(1)`. -/
def Depth.succ (depth : Depth) : Option Depth :=
  if h : depth.get + 1 < UInt32.size then some ⟨depth.get + 1, Nat.succ_pos _, h⟩ else none

namespace Sync

/-- `Sync::try_next`. -/
def tryNext : Sync → Boundary → Except SyncError Sync
  | synced, .close | synced, .begin | synced, .commit | synced, .group => .ok synced
  | automatic _, .close | automatic _, .begin | automatic _, .commit => .ok synced
  | automatic depth, .group | explicit depth, .group => .error (.groupOpen depth)
  | synced, .open' => .ok (automatic .one)
  | automatic depth, .open' =>
    match depth.succ with
    | some depth => .ok (automatic depth)
    | none => .error (.requestDepthOverflow depth)
  | synced, .external => .ok (explicit .one)
  | explicit depth, .close | explicit depth, .begin | explicit depth, .commit =>
    .error (.requestCloseDuringCopy depth)
  | explicit depth, .open' => .error (.requestOpenDuringCopy depth)
  | automatic depth, .external => .error (.copyDuringPipeline depth)
  | explicit depth, .external => .error (.copyAlreadyOpen depth)

end Sync

/-! ## Slots -/

/-- `slot::Slot`. -/
structure Slot (n : ℕ) (φ : Type) where
  phase : Lifecycle n φ
  sync : Sync
  batch : UInt64
  pending : ℕ
  deriving DecidableEq

/-- `slot::Permit`. -/
structure Permit where
  next : Sync
  current : UInt64
  boundary : Boundary
  deriving DecidableEq

/-- `slot::Settle`. -/
inductive Settle where
  | applied
  | closing
  | empty
  | stale
  deriving DecidableEq

/-- `slot::Closed`. -/
inductive Closed (n : ℕ) where
  | handshaking
  | shared
  | reserved (transaction : Transaction n)
  | held (transaction : Transaction n)
  | finalizing (transaction : Transaction n)
  | draining
  | closing
  deriving DecidableEq

/-- `access::Finalization`. -/
inductive Finalization (n : ℕ) where
  | pending (transaction : Transaction n)
  | reusable (transaction : Transaction n)
  | lost (transaction : Transaction n)
  deriving DecidableEq

/-- `access::Current`. -/
inductive Current (n : ℕ) where
  | stale
  | handshaking
  | shared
  | reserved (transaction : Transaction n)
  | held (transaction : Transaction n)
  | finalizing (transaction : Transaction n)
  | draining
  | closing
  deriving DecidableEq

/-- `Permit::commit`, and whether the Sync is closed as before. -/
def Permit.commit (permit : Permit) (slot : Slot n φ) : Slot n φ × Bool :=
  let unchanged := permit.next ≠ .synced ∨ slot.sync = .synced
  match permit.boundary with
  | .close | .begin | .commit | .group =>
    ({ slot with
        sync := permit.next, batch := permit.current + 1, pending := slot.pending + 1 },
      decide unchanged)
  | .open' | .external => ({ slot with sync := permit.next }, decide unchanged)

namespace Slot

variable (slot : Slot n φ)

/-- `Slot::new`. -/
def new : Slot n φ :=
  ⟨.vacant, .synced, 0, 0⟩

/-- `Slot::is_synced`. -/
def isSynced : Bool :=
  slot.sync = .synced

/-- `Slot::can_begin`. -/
def canBegin : Bool :=
  match slot.sync with
  | .automatic _ => false
  | _ => true

/-- `Slot::permit`. -/
def permit (next : Sync) (boundary : Boundary) : Permit :=
  ⟨next, slot.batch, boundary⟩

/-- `Ready::try_reply`. -/
def tryReply (boundary : Boundary) : Except SyncError Permit := do
  let next ← slot.sync.tryNext boundary
  return slot.permit next boundary

/-- `Ready::try_finish`. -/
def tryFinish : Except SyncError Permit :=
  match slot.sync with
  | .explicit _ => .ok (slot.permit .synced .close)
  | .synced => .error .copyFinishWithoutStart
  | .automatic depth => .error (.copyFinishDuringPipeline depth)

/-- `Slot::bind`, and whether it was free. -/
def bind (token : Token n) : Slot n φ × Bool :=
  match slot.phase with
  | .vacant => ({ slot with batch := 0, phase := .handshaking token }, true)
  | _ => (slot, false)

/-- `Slot::try_ready`. -/
def tryReady (token : Token n) : Option (Slot n φ) :=
  match slot.phase with
  | .handshaking bound =>
    if bound = token then
      some { slot with phase := .ready bound (.shared .initial) slot.phase.isReceiving }
    else none
  | _ => none

/-- `Slot::matches`. -/
def matches' (token : Token n) : Bool :=
  slot.phase.bound = some token

/-- Whether `Slot::ready` has a result. -/
def ready (token : Token n) : Bool :=
  match slot.phase with
  | .ready bound access _ => bound = token ∧ access ≠ .draining
  | _ => false

/-- Whether `Slot::select` has a result. -/
def select (token : Token n) (generation : Option Generation) : Bool :=
  match slot.phase with
  | .ready bound access _ =>
    if bound ≠ token then false
    else
      match access, generation with
      | .shared _, none => true
      | .held current, some generation => current = generation
      | _, _ => false
  | _ => false

/-- `Slot::barriers`. -/
def barriers : ℕ :=
  slot.pending + if slot.isSynced then 0 else 1

/-- `Slot::settle`. -/
def settle (token : Token n) : Slot n φ × Settle :=
  let applied :=
    if slot.pending = 0 then (slot, .empty)
    else ({ slot with pending := slot.pending - 1 }, .applied)
  match slot.phase with
  | .ready bound _ _ => if bound = token then applied else (slot, .stale)
  | .closing bound _ _ => if bound = token then (slot, .closing) else (slot, .stale)
  | _ => (slot, .stale)

/-- `Slot::try_close` : what was closed, and for which failure. -/
def tryClose (token : Token n) (cause : φ) (fate : Disposition) :
    Option (Slot n φ × Closed n × φ) :=
  let close (state : Closed n) (cause : φ) (fate : Disposition) :=
    ({ slot with sync := .synced, pending := 0, phase := .closing token cause fate }, state, cause)
  match slot.phase with
  | .handshaking bound => if bound = token then some (close .handshaking cause fate) else none
  | .ready bound access _ =>
    if bound = token then
      match access with
      | .shared _ => some (close .shared cause fate)
      | .reserved value => some (close (.reserved ⟨token, value⟩) cause fate)
      | .held value => some (close (.held ⟨token, value⟩) cause fate)
      | .finalizing value => some (close (.finalizing ⟨token, value⟩) cause fate)
      | .draining => some (close .draining cause fate)
    else none
  | .closing bound failure old =>
    if bound = token then
      some (close .closing failure (if fate = .permanent then .permanent else old))
    else none
  | .vacant => none

/-- `Slot::try_retire`, and whether a slot of the token is left that does not close. -/
def tryRetire (token : Token n) : Slot n φ × Bool :=
  match slot.phase with
  | .closing bound _ _ =>
    if bound = token then ({ slot with phase := .vacant }, true) else (slot, true)
  | .handshaking bound | .ready bound _ _ => (slot, bound ≠ token)
  | .vacant => (slot, true)

/-- `Slot::flush`. -/
def flush (token : Token n) : Option Permit :=
  match slot.phase, slot.sync with
  | .ready bound _ _, .automatic _ =>
    if bound = token then some (slot.permit .synced .close) else none
  | _, _ => none

/-! ### Accesses -/

/-- `Access::is_current`. -/
def isCurrent (final : Bool) (value : Generation) : Bool :=
  match slot.phase with
  | .ready _ (.finalizing current) _ => final && current = value
  | .ready _ (.reserved current) _ | .ready _ (.held current) _ => !final && current = value
  | _ => false

/-- `Access::reserve`, of a slot that is shared. A sequence that ends drains it. -/
def reserve : Option (Slot n φ × Option (Transaction n)) :=
  match slot.phase with
  | .ready bound (.shared sequence) receiving =>
    match sequence.next with
    | none => some ({ slot with phase := .ready bound .draining receiving }, none)
    | some next =>
      some ({ slot with phase := .ready bound (.reserved next) receiving }, some ⟨bound, next⟩)
  | _ => none

/-- `Access::finalize`. -/
def finalize (id : Transaction n) : Slot n φ × Finalization n :=
  match slot.phase with
  | .ready bound access receiving =>
    if bound ≠ id.conn then (slot, .lost id)
    else if access ≠ .held id.generation then (slot, .reusable id)
    else
      ({ slot with phase := .ready bound (.finalizing id.generation) receiving }, .pending id)
  | _ => (slot, .lost id)

/-- `Access::current`. -/
def current (token : Token n) : Current n :=
  match slot.phase with
  | .vacant => .stale
  | .handshaking bound => if bound = token then .handshaking else .stale
  | .ready bound access _ =>
    if bound ≠ token then .stale
    else
      match access with
      | .shared _ => .shared
      | .reserved value => .reserved ⟨token, value⟩
      | .held value => .held ⟨token, value⟩
      | .finalizing value => .finalizing ⟨token, value⟩
      | .draining => .draining
  | .closing bound _ _ => if bound = token then .closing else .stale

/-- `State::set_access`. -/
def setAccess (access : Access) : Option (Slot n φ) := do
  let phase ← slot.phase.setAccess access
  return { slot with phase }

/-- `Slot::set_receiving`, and whether it was set. -/
def setReceiving (token : Token n) (receiving : Bool) : Slot n φ × Bool :=
  let set := slot.phase.setReceiving token receiving
  ({ slot with phase := set.1 }, set.2)

end Slot

end Cartel.Pg.Pool
