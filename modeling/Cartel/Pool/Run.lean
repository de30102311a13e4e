import Cartel.Pool.Index

/-!
# Runs of the pool

What is called of a pool, one call after another. A selected connection, and a reservation of
one, is in the hand of its caller until it is published or let go : both are consumed before
another turn of the protocol.
-/

namespace Cartel.Pg.Pool

variable {n top : ℕ} {φ : Type}

/-- What a caller has in hand. -/
inductive Hand (n top : ℕ) where
  | free
  | selected (source : Source n top)
  | reserved (reservation : Reservation n top)
  deriving DecidableEq

/-- A pool, and what is taken from it. -/
structure State (n top : ℕ) (φ : Type) where
  index : Index n top φ
  hand : Hand n top

/-- A call, with what is only known to its caller. -/
inductive Call (n : ℕ) (φ : Type) where
  | bind (token : Token n)
  | tryReady (token : Token n)
  | target (token : Token n) (generation : Option Generation)
  | pick (policy : PickPolicy) (boundary : Boundary)
  | pickBegin (policy : PickPolicy)
  | drop
  | reserve
  | release
  | publish (boundary : Boundary) (depth : ℕ)
  | tryFinish (token : Token n)
  | flush (token : Token n)
  | settle (token : Token n)
  | pollReady (token : Token n) (status : Status) (depth : ℕ)
  | finalize (id : Transaction n)
  | close (token : Token n) (cause : φ) (fate : Disposition)
  | reindex (token : Token n) (depth : ℕ)
  | setReceiving (token : Token n) (receiving : Bool) (depth : ℕ)
  | tryRetire (token : Token n)

/-- Whether the call can be made with what is in hand. -/
def Hand.permits (hand : Hand n top) (call : Call n φ) : Bool :=
  match hand, call with
  | .selected _, .drop | .selected _, .publish _ _ => true
  | .selected (.shared _), .reserve => true
  | .reserved _, .release | .reserved _, .publish _ _ => true
  | .free, .drop | .free, .reserve | .free, .release | .free, .publish _ _ => false
  | .free, _ => true
  | .selected _, _ | .reserved _, _ => false

/-- What is selected, in hand. -/
def Hand.select (source : Option (Source n top)) : Hand n top :=
  match source with
  | none => .free
  | some source => .selected source

namespace Index

variable (index : Index n top φ)

/-- `Permit::commit`, of a permit of the slot. -/
def commit (i : Fin n) (permit : Permit) : Index n top φ :=
  index.set i (permit.commit (index.slots i)).1

/-- `Access::try_with` of a selected connection, as far as its slot takes part. A request that
the slot does not admit leaves it. -/
def publish (links : Links n) (source : Source n top) (boundary : Boundary) (depth : ℕ) :
    Option (Index n top φ) :=
  match source with
  | .shared listed =>
    match (index.slots listed.index).tryReply boundary with
    | .error _ => some index
    | .ok permit =>
      let index := index.commit listed.index permit
      index.reprioritizeListed links listed (depth + (index.slots listed.index).barriers)
  | .exclusive i =>
    match (index.slots i).tryReply boundary with
    | .error _ => some index
    | .ok permit => some (index.commit i permit)

/-- `Access::try_sync`, as far as the slot takes part. -/
def tryFinish (token : Token n) : Index n top φ :=
  if (index.slots token.index).ready token then
    match (index.slots token.index).tryFinish with
    | .error _ => index
    | .ok permit => index.commit token.index permit
  else index

/-- `Access::try_flush`, as far as the slot takes part. -/
def flush (token : Token n) : Index n top φ :=
  match (index.slots token.index).flush token with
  | none => index
  | some permit => index.commit token.index permit

/-- `Slot::settle`. -/
def settle (token : Token n) : Index n top φ :=
  index.set token.index ((index.slots token.index).settle token).1

end Index

namespace State

/-- A pool at its start. -/
def new : State n top φ :=
  ⟨.new, .free⟩

/-- A pool after a call. -/
def call (links : Links n) (self : State n top φ) : Call n φ → Option (State n top φ)
  | .bind token => some { self with index := (self.index.bind token).1 }
  | .tryReady token => do
    let ready ← self.index.tryReady links token
    return { self with index := ready.1 }
  | .target token generation =>
    some { self with hand := .select (self.index.target token generation).2 }
  | .pick policy boundary => do
    let picked ← self.index.pick policy boundary
    return ⟨picked.1, .select (picked.2.map .shared)⟩
  | .pickBegin policy =>
    let picked := self.index.pickBegin policy
    some ⟨picked.1, .select (picked.2.map .shared)⟩
  | .drop => some { self with hand := .free }
  | .reserve =>
    match self.hand with
    | .selected (.shared listed) => do
      match ← self.index.reserve listed with
      | (index, none) => return ⟨index, .free⟩
      | (index, some reservation) => return ⟨index, .reserved reservation⟩
    | _ => none
  | .release =>
    match self.hand with
    | .reserved reservation => do return ⟨← self.index.release links reservation, .free⟩
    | _ => none
  | .publish boundary depth =>
    match self.hand with
    | .selected source => do return ⟨← self.index.publish links source boundary depth, .free⟩
    | .reserved reservation =>
      match (self.index.slots reservation.index).tryReply boundary with
      | .error _ => some self
      | .ok permit => some ⟨self.index.commit reservation.index permit, .free⟩
    | .free => none
  | .tryFinish token => some { self with index := self.index.tryFinish token }
  | .flush token => some { self with index := self.index.flush token }
  | .settle token => some { self with index := self.index.settle token }
  | .pollReady token status depth => do
    let ready ← self.index.pollReady links token status depth
    return { self with index := ready.1 }
  | .finalize id => do
    let finalized ← self.index.finalize id
    return { self with index := finalized.1 }
  | .close token cause fate => do
    let closed ← self.index.close token cause fate
    return { self with index := closed.1 }
  | .reindex token depth => do
    let reindexed ← self.index.reindex links token depth
    return { self with index := reindexed.1 }
  | .setReceiving token receiving depth => do
    let set ← self.index.setReceiving links token receiving depth
    return { self with index := set.1 }
  | .tryRetire token => some { self with index := (self.index.tryRetire token).1 }

end State

/-- The states of a pool after any calls that can be made. -/
inductive Reached (links : Links n) : State n top φ → Prop where
  | new : Reached links .new
  | call {state state' : State n top φ} (call : Call n φ) : Reached links state →
    state.hand.permits call = true → state.call links call = some state' →
    Reached links state'

end Cartel.Pg.Pool
