import Cartel.Parser.Accept
import Cartel.Parser.Resume
import Cartel.Scheduler.Parties

/-!
# Connections and their initialization

A connection replays the configured commands (`Plan`) before it is ready. `Link` is one connection
on a schedule it shares with others : its phase, what has come in and is not decoded yet, and the
scanner. Bytes are taken with a receipt that tells what the connection waited for, and are received
later, in order.

What the network, the receive buffer and the egress decide are arguments : which bytes come, whether
a command can be sent, whether a frame can be retained, and when the connection closes. The policy
and the reason of a close are left out, and so is the payload of a failure.

The record of commands and bytes (`commands`, `history`, `opened`) is not read by any operation.
Each byte is kept with the number of commands queued when it was taken.
-/

namespace Cartel.Redis.Client

open Scheduler Parser

/-! ## The commands of a connection -/

/-- `init::Auth`. -/
inductive Auth where
  | password (password : List UInt8)
  | user (username password : List UInt8)
  deriving DecidableEq

/-- `init::Step`. -/
inductive Step where
  | authenticate
  | select
  | setClientName
  deriving DecidableEq

/-- `init::Command`. -/
inductive Command where
  | authenticate (auth : Auth)
  | select (database : UInt32)
  | name (name : List UInt8)
  deriving DecidableEq

/-- `Command::step`. -/
def Command.step : Command → Step
  | authenticate _ => .authenticate
  | select _ => .select
  | name _ => .setClientName

/-- `init::Plan`. -/
structure Plan where
  auth : Option Auth
  database : Option UInt32
  clientName : Option (List UInt8)

namespace Plan

variable (plan : Plan)

/-- `Plan::first`. -/
def first' : Option Command :=
  match plan.auth with
  | some auth => some (.authenticate auth)
  | none =>
    match plan.database with
    | some database => some (.select database)
    | none => plan.clientName.map .name

/-- `Plan::next`. -/
def next : Step → Option Command
  | .authenticate =>
    match plan.database with
    | some database => some (.select database)
    | none => plan.clientName.map .name
  | .select => plan.clientName.map .name
  | .setClientName => none

/-- The configured commands, in the order Auth, Select, Name. -/
def commands : List Command :=
  (plan.auth.map .authenticate).toList ++ (plan.database.map .select).toList ++
    (plan.clientName.map .name).toList

/-- The place of a step among the configured commands. -/
def position (step : Step) : ℕ :=
  (plan.commands.map Command.step).idxOf step

theorem first_eq : plan.first' = plan.commands[0]? := by
  obtain ⟨_ | auth, _ | database, _ | name⟩ := plan <;> rfl

/-- The command after a configured one is the next in the order. -/
theorem next_eq {step : Step} (h : plan.position step < plan.commands.length) :
    plan.next step = plan.commands[plan.position step + 1]? := by
  obtain ⟨_ | auth, _ | database, _ | name⟩ := plan <;> cases step <;> first
    | rfl
    | exact absurd h (Nat.lt_irrefl _)

/-- The configured commands have different steps. -/
theorem position_eq {command : Command} {m : ℕ} (h : plan.commands[m]? = some command) :
    plan.position command.step = m := by
  obtain ⟨hlt, rfl⟩ := List.getElem?_eq_some_iff.mp h
  have hnodup : (plan.commands.map Command.step).Nodup := by
    obtain ⟨_ | auth, _ | database, _ | name⟩ := plan <;> simp [commands, Command.step]
  have hlen : m < (plan.commands.map Command.step).length := by
    rw [List.length_map]
    exact hlt
  have hget : (plan.commands.map Command.step)[m] = plan.commands[m].step := List.getElem_map _
  rw [position, ← hget]
  exact hnodup.idxOf_getElem m hlen

end Plan

/-! ## Phases -/

/-- `protocol::Phase`. -/
inductive Phase where
  | offline
  | init (step : Step)
  | advance (step : Step)
  | unsolicited
  | ready
  deriving DecidableEq

/-- `ConnState::received`. -/
def Phase.received (step : Option Step) (hasPrefix : Bool) (phase : Phase) : Phase :=
  if !hasPrefix && (match phase with
      | .init expected => step != some expected
      | .advance _ => true
      | .offline => false
      | .unsolicited => false
      | .ready => false) then
    .unsolicited
  else phase

/-- `conn::ClosePhase`. -/
inductive ClosePhase where
  | withdrawing
  | requested
  | quarantining
  | retiring
  | settled
  | finalized
  | claimed
  deriving DecidableEq

/-- `conn::CloseStatus`, and whether the reason is a remote close. -/
inductive CloseStatus where
  | open'
  | closing (phase : ClosePhase) (remote : Bool)
  deriving DecidableEq

/-- A close that is requested while none is. -/
def CloseStatus.request : CloseStatus → CloseStatus
  | open' => .closing .requested false
  | status => status

/-- What `reply::deliver` still looks at. -/
inductive Intake where
  | all
  | rejections
  | nothing
  deriving DecidableEq

/-- The statuses `reply::deliver` tells apart. -/
def CloseStatus.intake : CloseStatus → Intake
  | open' => .all
  | closing .withdrawing _ => .all
  | closing .requested _ => .all
  | closing .quarantining _ => .all
  | closing .retiring true => .rejections
  | closing .retiring false => .nothing
  | closing .settled _ => .nothing
  | closing .finalized _ => .nothing
  | closing .claimed _ => .nothing

/-- `protocol::Decoded`, or an error of the source. Of a frame only the first event is read. -/
inductive Decoded where
  | frame (event : Option Event)
  | rejected (failure : Failure)
  | retain
  | input

/-- `init::Kind`. -/
inductive Refusal where
  | rejected
  | unexpected
  deriving DecidableEq

/-- What `Plan::response` finds wrong with a reply. -/
def refusal : Option Event → Option Refusal
  | some .ok => none
  | some (.error _) => some .rejected
  | _ => some .unexpected

/-- `client::Failure::protocol`, of an error of the scanner. -/
def protocolFailure : Redis.Error → Failure
  | .number _ _ => .protocol .number
  | .length _ _ => .protocol .length
  | .marker _ _ => .protocol .marker
  | .depth _ _ _ => .protocol .depth
  | .terminator _ _ _ => .protocol .terminator
  | .values _ => .protocol .values

/-! ## Connections -/

/-- A byte, with the number of commands that were queued when it was taken, one more once the
connection was ready. -/
abbrev Byte :=
  UInt8 × ℕ

/-- Bytes that are taken and not received yet, with their receipt. -/
structure Chunk where
  step : Option Step
  cutoff : Cutoff
  bytes : List Byte

/-- A connection, on the schedule of its port. -/
structure Link (n : ℕ) (β : Type) where
  schedule : Schedule n
  phase : Phase
  status : CloseStatus
  inbox : List Chunk
  staged : List Byte
  parser : State
  builder : β
  held : Bool
  commands : List Command
  history : List Byte
  opened : Option (List Byte)

namespace Link

variable {n : ℕ} {β τ ε : Type} (token : Token n)

/-- The bytes that are received and not decoded. -/
def bytes (self : Link n β) : List UInt8 :=
  self.staged.map Prod.fst

/-- The number a byte is kept with, when it is taken now. -/
def stamp (self : Link n β) : ℕ :=
  self.commands.length + if self.opened.isSome then 1 else 0

/-- A connection that has just been activated. -/
def new (schedule : Schedule n) (builder : β) : Link n β :=
  ⟨schedule, .offline, .open', [], [], .new, builder, false, [], [], none⟩

/-- `Plan::fail` and `reply::fail`. -/
def fail (cause : Failure) (self : Link n β) : Link n β :=
  { self with
    status := self.status.request
    schedule := (self.schedule.fail token cause).2 }

/-- `Plan::begin`. The command is queued, or not for a cause. -/
def begin' (command : Command) (sent : Option Failure) (self : Link n β) : Link n β :=
  let self := { self with phase := .init command.step }
  match sent with
  | none => { self with commands := self.commands ++ [command] }
  | some cause => self.fail token cause

/-- `Plan::ready`. -/
def ready (self : Link n β) : Link n β :=
  match self.schedule.markReady token with
  | (false, _) => self.fail token .unexpectedResponse
  | (true, schedule) => { self with schedule, phase := .ready, opened := some self.history }

/-- `Plan::start`. -/
def start (plan : Plan) (sent : Option Failure) (self : Link n β) : Link n β :=
  let self := { self with phase := .offline }
  match plan.first' with
  | some command => self.begin' token command sent
  | none => self.ready token

/-- `Plan::response`. -/
def response (step : Step) (event : Option Event) (self : Link n β) : Link n β :=
  match refusal event with
  | some _ => self.fail token .handshake
  | none => { self with phase := .advance step }

/-- `Plan::advance`. -/
def advance (plan : Plan) (step : Step) (input : Input) (sent : Option Failure)
    (self : Link n β) : Link n β :=
  match self.status with
  | .closing _ _ => self
  | .open' =>
    match input with
    | .empty =>
      match plan.next step with
      | some command => self.begin' token command sent
      | none => self.ready token
    | .incomplete => self.fail token .unexpectedResponse
    | .yield => self
    | .blocked => self

/-- `reply::push`. A frame that is not inserted is held. -/
def push (answer : Insert) (self : Link n β) : Link n β :=
  match self.schedule.tryReply token answer with
  | (.accepted, schedule) => { self with schedule, held := false }
  | (.blocked, schedule) => { self with schedule, held := true }
  | (.rejected cause, schedule) => fail token cause { self with schedule, held := false }

/-- `reply::deliver`. -/
def deliver (answer : Insert) (decoded : Decoded) (self : Link n β) : Link n β :=
  match self.status.intake, decoded with
  | .nothing, _ => self
  | .rejections, .rejected failure => self.fail token failure
  | .rejections, _ => self
  | .all, .frame event =>
    match self.phase with
    | .init step => self.response token step event
    | .offline => self.fail token .unexpectedResponse
    | .advance _ => self.fail token .unexpectedResponse
    | .unsolicited => self.fail token .unexpectedResponse
    | .ready => self.push token answer
  | .all, .rejected failure => self.fail token failure
  | .all, .retain =>
    self.fail token (if self.phase = .offline then .unexpectedResponse else .responseRetention)
  | .all, .input => self.fail token .input

/-! ## Input -/

/-- `Logic::receipt`, of bytes that are taken. -/
def receipt (bytes : List UInt8) (self : Link n β) : Link n β :=
  let step := match self.phase with
    | .init step => some step
    | _ => none
  let chunk := ⟨step, self.schedule.cutoff token, bytes.map fun byte => (byte, self.stamp)⟩
  { self with inbox := self.inbox ++ [chunk] }

/-- `Logic::received`, of the bytes that were taken first. -/
def received (hasPrefix : Bool) (chunk : Chunk) (rest : List Chunk) (self : Link n β) :
    Link n β :=
  { self with
    phase := self.phase.received chunk.step hasPrefix
    schedule := self.schedule.received token chunk.cutoff hasPrefix
    inbox := rest
    staged := self.staged ++ chunk.bytes
    history := self.history ++ chunk.bytes }

/-- The staged bytes without those of a frame, and the scanner after it. -/
def consume (count : ℕ) (parser : State) (builder : β) (self : Link n β) : Link n β :=
  { self with staged := self.staged.drop count, parser, builder }

/-- The first event of a frame, as `Reader::next_event` reads it. -/
def firstEvent {c : Call β τ ε} (L : c.builder.Lawful) (builder : β) (parsed : Parsed τ) :
    Option Event :=
  ((L.kinds builder parsed.nodes).map (Kind.event parsed.frame)).head?

/-- `Codec::decode` with `reply::deliver`. A frame can be retained or not. -/
def decode (c : Call β τ ε) (L : c.builder.Lawful) (retained : Bool) (answer : Insert)
    (self : Link n β) : Link n β :=
  match (c.on self.bytes).scan self.parser self.builder with
  | (.pending, parser, builder) => self.consume 0 parser builder
  | (.blocked, parser, builder) => self.consume 0 parser builder
  | (.retainCapacity, parser, builder) => self.consume 0 parser builder
  | (.complete parsed count, parser, builder) =>
    (self.consume count parser builder).deliver token answer
      (if retained then .frame (firstEvent L builder parsed) else .retain)
  | (.invalid error count, _, builder) =>
    (self.consume count .new (c.builder.reset builder)).deliver token answer
      (.rejected (protocolFailure error))
  | (.frameCapacity _ count, _, builder) =>
    (self.consume count .new (c.builder.reset builder)).deliver token answer
      (.rejected .responseFrameCapacity)
  | (.valueCapacity _ count, _, builder) =>
    (self.consume count .new (c.builder.reset builder)).deliver token answer
      (.rejected .responseValueCapacity)
  | (.source _, _, builder) =>
    (self.consume 0 .new (c.builder.reset builder)).deliver token answer .input

/-- `Codec::finish` with `reply::deliver`, at the end of the input. -/
def finish (c : Call β τ ε) (failure : Failure) (answer : Insert) (self : Link n β) :
    Link n β :=
  let reset := self.consume 0 .new (c.builder.reset self.builder)
  if self.staged = [] then reset else reset.deliver token answer (.rejected failure)

/-- `Logic::flush`. -/
def flush (plan : Plan) (input : Input) (sent : Option Failure) (self : Link n β) : Link n β :=
  match self.phase with
  | .advance step => self.advance token plan step input sent
  | .unsolicited =>
    if input = .incomplete ∧ self.status = .open' then self.fail token .unexpectedResponse
    else self
  | _ =>
    match self.schedule.tryInput token input with
    | .ok _ => self
    | .error cause => self.fail token cause

/-! ## Runs -/

/-- What the session says of the input is so : it is empty when no byte is staged, and it is
incomplete when the scanner asks for more. -/
def Told (c : Call β τ ε) (self : Link n β) : Input → Prop
  | .empty => self.staged = []
  | .incomplete => self.staged ≠ [] ∧
      ((c.on self.bytes).scan self.parser self.builder).1 = .pending
  | .yield => True
  | .blocked => True

/-- One step of the connection, of the network or of another party. -/
inductive Turn (c : Call β τ ε) (L : c.builder.Lawful) (plan : Plan) (self : Link n β) :
    Link n β → Prop
  | other {schedule : Schedule n} (h : self.schedule.Apart token schedule) :
      Turn c L plan self { self with schedule }
  | storage {builder : β} (h : L.draft builder = L.draft self.builder) :
      Turn c L plan self { self with builder }
  | closing (phase : ClosePhase) (remote : Bool) :
      Turn c L plan self { self with status := .closing phase remote }
  | receipt (bytes : List UInt8) (h : bytes ≠ []) : Turn c L plan self (self.receipt token bytes)
  | received {chunk : Chunk} {rest : List Chunk} (h : self.inbox = chunk :: rest) :
      Turn c L plan self (self.received token (decide (self.staged ≠ [])) chunk rest)
  | decode (retained : Bool) (answer : Insert) :
      Turn c L plan self (self.decode token c L retained answer)
  | finish (failure : Failure) (answer : Insert) :
      Turn c L plan self (self.finish token c failure answer)
  | settle (answer : Insert) (h : self.held = true) : Turn c L plan self (self.push token answer)
  | flush (input : Input) (sent : Option Failure) (h : self.Told c input) :
      Turn c L plan self (self.flush token plan input sent)

/-- The connections a run reaches, from one that has just been activated. -/
inductive Reached (c : Call β τ ε) (L : c.builder.Lawful) (plan : Plan) : Link n β → Prop
  | start {schedule : Schedule n} {builder : β} (hopening : schedule.Opening token)
      (hlane : schedule.responses token.index = []) (hindexed : schedule.Indexed)
      (hdraft : L.draft builder = .empty) (sent : Option Failure) :
      Reached c L plan ((new schedule builder).start token plan sent)
  | turn {self self' : Link n β} (h : Reached c L plan self) (hturn : Turn token c L plan self self') :
      Reached c L plan self'

end Link

end Cartel.Redis.Client
