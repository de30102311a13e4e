import Cartel.Scheduler.Routes

/-!
# The schedule

The routes with the request queue and the reply lane of each connection, and every entry
point of the schedule. The fiber runtime decides some answers : whether a position is
admitted, whether a handoff is published, what inserting a frame into the front order
gives, and how many entries a budget lets through. They are arguments here. Its lanes are
FIFO lists of orders. A queued request is known by the order registered with it.

Waking of waiters, and the activation of reply lanes, are left out.
-/

namespace Cartel.Redis.Scheduler

open Cartel.Lib

variable {n : ℕ}

/-- `schedule::Schedule`. `identity` is the next order of the reply lanes. -/
structure Schedule (n : ℕ) where
  routes : Routes n
  queue : Fin n → List Order
  responses : Fin n → List Order
  identity : Order

/-- What inserting a frame into the front order gives, `usage::InsertError` or success. -/
inductive Insert where
  | stored
  | backpressure
  | capacity
  | front (front : Front)
  deriving DecidableEq

/-- What `Schedule::try_reply` makes of a frame. -/
inductive Delivery where
  | accepted
  | blocked
  | rejected (failure : Failure)
  deriving DecidableEq

/-- `session::Input`. -/
inductive Input where
  | empty
  | incomplete
  | yield
  | blocked
  deriving DecidableEq

/-- `reply::Registration`. -/
inductive Registration where
  | available
  | full
  | identityExhausted
  deriving DecidableEq

/-- What `handoff::Lane::try_publish` gives. -/
inductive Handoff where
  | published
  | reply
  | queue
  deriving DecidableEq

/-- `Block`. -/
inductive Block where
  | pool
  | queue
  | inactive
  deriving DecidableEq

/-- The errors a `plan::Reject` carries here. -/
inductive Error where
  | identityExhausted
  | reply
  | unavailable
  deriving DecidableEq

/-- `plan::Reject`. -/
inductive Reject where
  | blocked (cause : Block)
  | failed (error : Error)
  deriving DecidableEq

/-- `egress::Cleared`. -/
inductive Cleared where
  | done
  | retry
  deriving DecidableEq

/-! ## Reply lanes -/

/-- `try_push` into the front order. An empty lane has no front. -/
def insert (lane : List Order) (answer : Insert) : Insert :=
  if lane = [] then .front .empty else answer

/-- `is_cutoff`. -/
def isCutoff (lane : List Order) : Cutoff → Bool
  | none => false
  | some order => lane.head? = some order

/-- `contains_cutoff`, keeping the cutoff if it is. -/
def containsCutoff (lane : List Order) : Cutoff → Cutoff
  | none => none
  | some order => if order ∈ lane then some order else none

namespace Schedule

/-- `Schedule::try_new`. -/
def new : Schedule n :=
  ⟨.new, fun _ => [], fun _ => [], 0⟩

variable (s : Schedule n)

/-- `publish`. -/
def publish (conn : Token n) : Bool × Schedule n :=
  if s.responses conn.index ≠ [] ∨ s.queue conn.index ≠ [] then (false, s)
  else (true, { s with routes := s.routes.schedule .idle conn })

/-- `withdraw`. -/
def withdraw (conn : Token n) : Schedule n :=
  { s with routes := (s.routes.unlink .idle conn).unlink .released conn }

/-- The order and the request a handoff publishes. -/
def admitted (conn : Token n) : Schedule n :=
  { s with
    queue := Function.update s.queue conn.index (s.queue conn.index ++ [s.identity])
    responses := Function.update s.responses conn.index (s.responses conn.index ++ [s.identity])
    identity := s.identity + 1 }

/-! ## Life of a connection -/

/-- `Schedule::activate`. -/
def activate (token : Token n) (positioned : Bool) : Bool × Schedule n :=
  if positioned then
    match (s.routes.conns token.index).bind token with
    | none => (false, s)
    | some phase => (true, { s with routes := s.routes.set token.index phase })
  else (false, s)

/-- `Schedule::mark_ready`. -/
def markReady (token : Token n) : Bool × Schedule n :=
  match s.routes.markReady token with
  | none => (false, s)
  | some routes => (true, (publish { s with routes } token).2)

/-- `Schedule::fail`. -/
def fail (token : Token n) (err : Failure) : Bool × Schedule n :=
  match s.routes.fail token err with
  | none => (false, s)
  | some routes => (true, withdraw { s with routes } token)

/-- `Schedule::reconnect`. -/
def reconnect (token : Token n) (err : Failure) : Schedule n :=
  match s.routes.reconnect token err with
  | none => s
  | some routes => withdraw { s with routes } token

/-- `Schedule::quarantine`. -/
def quarantine (token : Token n) (reason : Reason) : Schedule n :=
  (s.fail token (.fromClose reason)).2

/-- `Schedule::clear_recv`, retiring so many orders. -/
def clearRecv (token : Token n) (work : ℕ) : Cleared × Schedule n :=
  match s.routes.failure token with
  | none => (.done, s)
  | some _ =>
    let lane := (s.responses token.index).drop work
    (if lane = [] then .done else .retry,
      { s with responses := Function.update s.responses token.index lane })

/-- `Schedule::clear_send`, dropping so many requests. -/
def clearSend (token : Token n) (work : ℕ) : Cleared × Schedule n :=
  match s.routes.bound token with
  | none => (.done, s)
  | some _ =>
    let lane := (s.queue token.index).drop work
    (if lane = [] then .done else .retry,
      { s with queue := Function.update s.queue token.index lane })

/-- `Routes::retire`. -/
def retire (token : Token n) : Schedule n :=
  { s with routes := s.routes.retire token }

/-- `Schedule::drain`, sending so many requests. -/
def drain (token : Token n) (work : ℕ) (reserved : Bool) : Except Failure Unit × Schedule n :=
  match s.routes.bound token with
  | none => (.ok (), s)
  | some _ =>
    if (s.routes.conns token.index).retries token then (.ok (), s)
    else
      (if reserved then .ok () else .error .requestReserve,
        { s with queue :=
            Function.update s.queue token.index ((s.queue token.index).drop work) })

/-! ## Input -/

/-- The cutoff `Logic::receipt` takes. -/
def cutoff (token : Token n) : Cutoff :=
  match s.routes.bound token with
  | none => none
  | some _ => (s.responses token.index).getLast?

/-- `Schedule::received`. -/
def received (token : Token n) (cutoff : Cutoff) (hasPrefix : Bool) : Schedule n :=
  let last := containsCutoff (s.responses token.index) cutoff
  { s with
    routes := s.routes.set token.index ((s.routes.conns token.index).withFrontier token
      fun frontier => ⟨if hasPrefix then frontier.first else last, last⟩) }

/-- `Schedule::try_input`. -/
def tryInput (token : Token n) (input : Input) : Except Failure Unit :=
  if input = .incomplete ∧ (s.routes.bound token).any fun frontier =>
      frontier.any fun frontier => frontier.first.isNone then
    .error .unexpectedResponse
  else .ok ()

/-- The front order leaves its lane, and the frontier moves on to the last receipt. -/
def passed (token : Token n) (last : Bool) : Schedule n :=
  { s with
    responses := Function.update s.responses token.index (s.responses token.index).tail
    routes := s.routes.set token.index ((s.routes.conns token.index).withFrontier token
      fun frontier =>
        let cutoff := if last then none else frontier.last
        ⟨cutoff, cutoff⟩) }

/-- The front order completed, with what `try_reply` does after it. -/
def completed (token : Token n) (last : Bool) : Schedule n :=
  let s := s.passed token last
  if (s.routes.conns token.index).access = some (token, .shared) then (s.publish token).2 else s

/-- `Schedule::try_reply`. -/
def tryReply (token : Token n) (answer : Insert) : Delivery × Schedule n :=
  match s.routes.bound token with
  | none => (.rejected .unexpectedResponse, s)
  | some frontier =>
    if frontier.any fun frontier => frontier.first.isNone then
      (.rejected (.responseFront .empty), s)
    else
      let lane := s.responses token.index
      let last := frontier.any fun frontier => isCutoff lane frontier.last
      match insert lane answer with
      | .stored => (.accepted, s.completed token last)
      | .backpressure => (.blocked, s)
      | .capacity => (.rejected .responseCapacity, s)
      | .front .detached => (.accepted, s.completed token last)
      | .front front => (.rejected (.responseFront front), s)

/-! ## Leases -/

/-- The loop of `refresh`, for so many connections at most. -/
def refreshFrom : ℕ → Option (Token n) → Schedule n → Schedule n
  | 0, _, s => s
  | work + 1, deferred, s =>
    if s.routes.front .released = deferred then s
    else
      match s.routes.pop .released with
      | none => s
      | some (token, routes) =>
        let s := { s with routes }
        if (s.routes.conns token.index).access = some (token, .shared) then
          match s.publish token with
          | (true, s) => refreshFrom work deferred s
          | (false, s) =>
            refreshFrom work (deferred.or (some token))
              { s with routes := s.routes.schedule .released token }
        else refreshFrom work deferred s

/-- `refresh`. It looks at each released connection once, `refreshFrom_add`. -/
def refresh : Schedule n :=
  refreshFrom (s.routes.queues .released).length none s

/-- The loop of `Schedule::try_lease`. -/
def leaseFrom : ℕ → Schedule n → Option (Token n) × Schedule n
  | 0, s => (none, s)
  | work + 1, s =>
    match s.routes.pop .idle with
    | none => (none, s)
    | some (token, routes) =>
      match (routes.conns token.index).acquire token with
      | some phase => (some token, { s with routes := routes.set token.index phase })
      | none => leaseFrom work { s with routes }

/-- `Schedule::try_lease`. -/
def tryLease : Option (Token n) × Schedule n :=
  leaseFrom n s.refresh

/-- `Schedule::release`. -/
def release (token : Token n) : Schedule n :=
  match (s.routes.conns token.index).release token with
  | none => s
  | some phase =>
    { s with routes := (s.routes.set token.index phase).schedule .released token }

/-! ## Admission -/

/-- The loop of `Schedule::try_pool`, with what each connection answers. -/
def poolFrom (answers : Fin n → Registration × Handoff) :
    ℕ → Block → Schedule n → Except Reject (Token n) × Schedule n
  | 0, blocked, s =>
    (.error (.blocked (if s.routes.isActive then blocked else .inactive)), s)
  | work + 1, blocked, s =>
    match s.routes.advance with
    | none => (.error (.blocked (if s.routes.isActive then blocked else .inactive)), s)
    | some (index, routes) =>
      let s := { s with routes }
      match (s.routes.conns index).access with
      | some (token, .shared) =>
        match answers index with
        | (.full, _) => poolFrom answers work blocked s
        | (.identityExhausted, _) => (.error (.failed .identityExhausted), s)
        | (.available, .published) =>
          (.ok token, admitted { s with routes := s.routes.unlink .idle token } token)
        | (.available, .reply) => (.error (.failed .reply), s)
        | (.available, .queue) => poolFrom answers work .queue s
      | _ => poolFrom answers work blocked s

/-- `Schedule::try_pool`. -/
def tryPool (exhausted : Bool) (answers : Fin n → Registration × Handoff) :
    Except Reject (Token n) × Schedule n :=
  if exhausted then (.error (.failed .identityExhausted), s)
  else poolFrom answers n .pool s

/-- `Schedule::try_dispatch_lease`. -/
def tryDispatchLease (token : Token n) (answer : Handoff) :
    Except Reject (Token n) × Schedule n :=
  if s.routes.exclusive token then
    match answer with
    | .published => (.ok token, s.admitted token)
    | .queue => (.error (.blocked .queue), s)
    | .reply => (.error (.failed .reply), s)
  else (.error (.failed .unavailable), s)

end Schedule

end Cartel.Redis.Scheduler
