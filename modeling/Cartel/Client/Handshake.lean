import Cartel.Client.Frames
import Cartel.Client.Link
import Mathlib.Logic.Relation

/-!
# The order of the handshake

`Link.Inv` ties the phase of a connection to what has come in. While it waits for a reply, the
bytes are one status OK for each command before the last, each taken after its own command was
queued, and what is staged belongs to the reply to the last one. An operation keeps it
(`Inv.turn`), so every connection a run reaches has it.

A connection that has failed, or that closes before it is ready, is `Lost`, and stays so.
-/

namespace Cartel.Redis.Client

open Scheduler Parser

variable {n : ℕ} {β τ ε : Type} {token : Token n}

/-! ## What the operations do to the schedule -/

section Schedule

variable {s : Schedule n}

/-- A phase that cannot fail belongs to no connection that is initialized or served. -/
theorem State.fail_eq_none {phase : State n} {cause : Failure} (h : phase.fail token cause = none) :
    phase ≠ .initializing token ∧ ∀ kind, phase.access ≠ some (token, kind) := by
  constructor
  · rintro rfl
    simp [State.fail] at h
  · intro kind haccess
    cases phase with
    | shared bound frontier =>
      obtain ⟨rfl, -⟩ := Prod.mk.inj (Option.some.inj haccess)
      simp [State.fail] at h
    | exclusive bound frontier =>
      obtain ⟨rfl, -⟩ := Prod.mk.inj (Option.some.inj haccess)
      simp [State.fail] at h
    | _ => cases haccess

/-- A connection that has failed is neither initialized nor served. -/
theorem fail_down (s : Schedule n) (token : Token n) (cause : Failure) :
    ¬(s.fail token cause).2.Opening token ∧ ¬(s.fail token cause).2.Serving token := by
  unfold Schedule.fail
  cases hfail : s.routes.fail token cause with
  | none =>
    have hphase : (s.routes.conns token.index).fail token cause = none := by
      unfold Routes.fail at hfail
      split at hfail
      · assumption
      · split_ifs at hfail
    obtain ⟨hopening, haccess⟩ := State.fail_eq_none hphase
    exact ⟨hopening, not_exists.mpr haccess⟩
  | some routes =>
    obtain ⟨-, rfl⟩ := Routes.fail_eq_some hfail
    dsimp only
    unfold Schedule.Opening Schedule.Serving
    rw [Schedule.conns_withdraw]
    simp [Routes.set, State.access]

/-- Only a connection that is being initialized is marked ready. Its frontier is then empty. -/
theorem markReady_spec (s : Schedule n) (token : Token n) :
    (s.markReady token).1 = false ∨
      ((s.markReady token).1 = true ∧ s.Opening token ∧ (s.markReady token).2.Serving token ∧
        ¬(s.markReady token).2.Opening token ∧ (s.Indexed → (s.markReady token).2.Indexed)) := by
  unfold Schedule.markReady Routes.markReady
  cases hphase : (s.routes.conns token.index).markReady token with
  | none => exact Or.inl rfl
  | some phase =>
    obtain ⟨hinit, rfl⟩ := State.markReady_eq_some.mp hphase
    have hconns : ∀ i, ((Schedule.publish { s with routes := { s.routes.set token.index
        (.shared token ⟨none, none⟩) with active := (s.routes.active + 1) % 2 ^ 64 } }
          token).2.routes.conns i) =
        Function.update s.routes.conns token.index (.shared token ⟨none, none⟩) i := by
      intro i
      rw [Schedule.conns_publish]
      rfl
    refine Or.inr ⟨rfl, hinit, ?_, ?_, fun hindexed i other hbound => ?_⟩
    · refine ⟨.shared, ?_⟩
      rw [hconns, Function.update_self]
      rfl
    · intro hopening
      rw [Schedule.Opening, hconns, Function.update_self] at hopening
      cases hopening
    · rw [hconns] at hbound
      by_cases hi : i = token.index
      · subst hi
        rw [Function.update_self] at hbound
        rw [Option.some.inj hbound]
      · rw [Function.update_of_ne hi] at hbound
        exact hindexed i other hbound

/-- Input changes the frontier of a connection that is served. -/
theorem received_spec (s : Schedule n) (token : Token n) (cutoff : Cutoff) (hasPrefix : Bool) :
    ((s.received token cutoff hasPrefix).Opening token → s.Opening token) ∧
      ((s.received token cutoff hasPrefix).Serving token ↔ s.Serving token) ∧
      (s.Indexed → (s.received token cutoff hasPrefix).Indexed) ∧
      (s.Serving token → ∀ frontier,
        ((s.received token cutoff hasPrefix).routes.conns token.index).frontier = some frontier →
        (cutoff = none → hasPrefix = false → frontier.first = none) ∧
          (hasPrefix = true → ∃ before, (s.routes.conns token.index).frontier = some before ∧
            frontier.first = before.first)) := by
  have hself : (s.received token cutoff hasPrefix).routes.conns token.index =
      (s.routes.conns token.index).withFrontier token fun frontier =>
        ⟨if hasPrefix then frontier.first else containsCutoff (s.responses token.index) cutoff,
          containsCutoff (s.responses token.index) cutoff⟩ := Function.update_self ..
  refine ⟨fun hopening => ?_, ?_, fun hindexed i other hbound => ?_, fun hserving frontier h => ?_⟩
  · unfold Schedule.Opening at hopening ⊢
    rw [hself] at hopening
    cases hconn : s.routes.conns token.index with
    | initializing bound =>
      rw [hconn] at hopening
      exact hopening
    | _ =>
      rw [hconn] at hopening
      cases hopening
  · unfold Schedule.Serving
    rw [hself, State.access_withFrontier]
  · by_cases hi : i = token.index
    · subst hi
      rw [hself, State.bound_withFrontier] at hbound
      exact hindexed _ _ hbound
    · have hother : (s.received token cutoff hasPrefix).routes.conns i = s.routes.conns i :=
        Function.update_of_ne hi _ _
      rw [hother] at hbound
      exact hindexed _ _ hbound
  · obtain ⟨kind, haccess⟩ := hserving
    rw [hself] at h
    cases hconn : s.routes.conns token.index with
    | shared bound before =>
      rw [hconn] at h haccess
      obtain ⟨rfl, -⟩ := Prod.mk.inj (Option.some.inj haccess)
      simp only [State.withFrontier, if_true] at h
      obtain rfl := Option.some.inj h
      refine ⟨?_, ?_⟩
      · rintro rfl rfl
        rfl
      · rintro rfl
        exact ⟨before, rfl, rfl⟩
    | exclusive bound before =>
      rw [hconn] at h haccess
      obtain ⟨rfl, -⟩ := Prod.mk.inj (Option.some.inj haccess)
      simp only [State.withFrontier, if_true] at h
      obtain rfl := Option.some.inj h
      refine ⟨?_, ?_⟩
      · rintro rfl rfl
        rfl
      · rintro rfl
        exact ⟨before, rfl, rfl⟩
    | _ =>
      rw [hconn] at haccess
      cases haccess

/-- The first cutoff of a connection is empty. -/
def Blank (s : Schedule n) (token : Token n) : Prop :=
  ∀ frontier, (s.routes.conns token.index).frontier = some frontier → frontier.first = none

theorem bound_of_serving (h : s.Serving token) :
    ∃ frontier, s.routes.bound token = some (some frontier) ∧
      (s.routes.conns token.index).frontier = some frontier := by
  obtain ⟨kind, haccess⟩ := h
  unfold Routes.bound
  rw [if_pos (State.bound_of_access haccess)]
  cases hconn : s.routes.conns token.index with
  | shared bound frontier => exact ⟨frontier, rfl, rfl⟩
  | exclusive bound frontier => exact ⟨frontier, rfl, rfl⟩
  | _ =>
    rw [hconn] at haccess
    cases haccess

/-- A frame whose cutoff is empty is refused. -/
theorem tryReply_blank (hserving : s.Serving token) (hblank : Blank s token) (answer : Insert) :
    s.tryReply token answer = (.rejected (.responseFront .empty), s) := by
  obtain ⟨frontier, hbound, hfrontier⟩ := bound_of_serving hserving
  unfold Schedule.tryReply
  rw [hbound]
  exact if_pos (by simp [hblank frontier hfrontier])

/-- A part of a frame whose cutoff is empty is refused. -/
theorem tryInput_blank (hserving : s.Serving token) (hblank : Blank s token) :
    s.tryInput token .incomplete = .error .unexpectedResponse := by
  obtain ⟨frontier, hbound, hfrontier⟩ := bound_of_serving hserving
  unfold Schedule.tryInput
  rw [hbound]
  exact if_pos ⟨rfl, by simp [hblank frontier hfrontier]⟩

/-- A reply leaves an unserved connection alone. -/
theorem tryReply_spec (s : Schedule n) (token : Token n) (answer : Insert) :
    ((s.tryReply token answer).2.Opening token → s.Opening token) ∧
      ((s.tryReply token answer).2.Serving token → s.Serving token) ∧
      (s.Indexed → (s.tryReply token answer).2.Indexed) ∧
      (s.responses token.index = [] → (s.tryReply token answer).2 = s) := by
  rcases s.tryReply_cases token answer with heq | ⟨hbound, hlane, last, heq⟩
  · rw [heq]
    exact ⟨id, id, id, fun _ => rfl⟩
  · rw [heq]
    have hself : (s.completed token last).routes.conns token.index =
        (s.routes.conns token.index).withFrontier token fun frontier =>
          ⟨if last then none else frontier.last, if last then none else frontier.last⟩ := by
      rw [Schedule.conns_completed]
      exact Function.update_self ..
    refine ⟨fun hopening => ?_, fun hserving => ?_, fun hindexed i other hb => ?_,
      fun hempty => absurd hempty hlane⟩
    · unfold Schedule.Opening at hopening ⊢
      rw [hself] at hopening
      cases hconn : s.routes.conns token.index with
      | initializing bound =>
        rw [hconn] at hopening
        exact hopening
      | _ =>
        rw [hconn] at hopening
        cases hopening
    · obtain ⟨kind, haccess⟩ := hserving
      rw [hself, State.access_withFrontier] at haccess
      exact ⟨kind, haccess⟩
    · by_cases hi : i = token.index
      · subst hi
        rw [hself, State.bound_withFrontier] at hb
        exact hindexed _ _ hb
      · have hother : (s.completed token last).routes.conns i = s.routes.conns i := by
          rw [Schedule.conns_completed]
          exact Function.update_of_ne hi _ _
        rw [hother] at hb
        exact hindexed _ _ hb

end Schedule

/-! ## The invariant -/

/-- The replies to the first commands : a status OK each, taken after its own command was queued
and before the next. -/
def answers (count : ℕ) : List Byte :=
  (List.range count).flatMap fun i => okBytes.map fun byte => (byte, i + 1)

theorem answers_succ (count : ℕ) :
    answers (count + 1) = answers count ++ okBytes.map fun byte => (byte, count + 1) := by
  unfold answers
  rw [List.range_succ, List.flatMap_append, List.flatMap_singleton]

namespace Link

/-- The bytes that are taken and not decoded, in order. -/
def waiting (self : Link n β) : List Byte :=
  self.staged ++ self.inbox.flatMap Chunk.bytes

variable (c : Call β τ ε) (L : c.builder.Lawful) (token) (plan : Plan)

/-- What holds of a connection whether it is open or not. -/
structure Base (link : Link n β) : Prop where
  indexed : link.schedule.Indexed
  lane : link.schedule.Opening token → link.schedule.responses token.index = []
  serving : link.schedule.Serving token → link.phase = .ready
  commands : link.commands = plan.commands.take link.commands.length
  opened : ∀ history, link.opened = some history →
    history = answers plan.commands.length ∧ link.commands = plan.commands
  ready : link.phase = .ready ↔ link.opened.isSome
  scanner : ∃ count, (c.on link.bytes).Suspends L count link.parser link.builder
  sorted : link.waiting.Pairwise fun byte byte' => byte.2 ≤ byte'.2
  bounded : ∀ byte ∈ link.waiting, byte.2 ≤ link.stamp
  filled : ∀ chunk ∈ link.inbox, chunk.bytes ≠ []
  cutoffs : link.schedule.Opening token ∨ link.schedule.Serving token → ∀ chunk ∈ link.inbox,
    (∃ byte ∈ chunk.bytes, byte.2 ≤ plan.commands.length) → chunk.cutoff = none
  early : link.schedule.Serving token → ∀ byte ∈ link.staged.head?,
    byte.2 ≤ plan.commands.length → Blank link.schedule token

/-- What an open connection that is being initialized has received. -/
def Progress (self : Link n β) : Prop :=
  match self.phase with
  | .init _ => self.history = answers (self.commands.length - 1) ++ self.staged ∧
      ∀ byte ∈ self.staged, byte.2 = self.commands.length
  | .advance _ => self.history = answers self.commands.length ++ self.staged
  | .unsolicited => self.staged ≠ []
  | .offline => False
  | .ready => False

/-- What holds of an open connection. -/
structure Live (link : Link n β) : Prop where
  counted : ∀ step, link.phase = .init step ∨ link.phase = .advance step →
    link.commands.length = plan.position step + 1
  steps : ∀ chunk ∈ link.inbox, ∀ step, chunk.step = some step →
    ∀ byte ∈ chunk.bytes, byte.2 = plan.position step + 1
  progress : link.schedule.Opening token → link.Progress

/-- The invariant of a connection. -/
structure Inv (link : Link n β) : Prop extends Base token c L plan link where
  live : link.status = .open' → Live token plan link

variable {c L token plan} {self : Link n β}

theorem request_ne (status : CloseStatus) : status.request ≠ .open' := by
  cases status <;> exact fun h => by cases h

/-- A connection that is not ready is not served. -/
theorem Base.not_serving (h : Base token c L plan self) (hphase : self.phase ≠ .ready) :
    ¬self.schedule.Serving token :=
  fun hserving => hphase (h.serving hserving)

theorem Base.opened_eq_none (h : Base token c L plan self) (hphase : self.phase ≠ .ready) :
    self.opened = none := by
  rcases hopened : self.opened with _ | history
  · rfl
  · exact absurd (h.ready.mpr (by rw [hopened]; rfl)) hphase

theorem Base.stamp_eq (h : Base token c L plan self) (hphase : self.phase ≠ .ready) :
    self.stamp = self.commands.length := by
  rw [stamp, h.opened_eq_none hphase]
  rfl

theorem Base.length_le (h : Base token c L plan self) :
    self.commands.length ≤ plan.commands.length := by
  have hlen := congrArg List.length h.commands
  rw [List.length_take] at hlen
  omega

/-- A failure keeps what holds of any connection, and closes this one. -/
theorem Base.fail (h : Base token c L plan self) (cause : Failure) :
    Inv token c L plan (self.fail token cause) where
  indexed := (Schedule.changed_fail token token cause).indexed h.indexed
  lane hopening := absurd hopening (fail_down _ _ cause).1
  serving hserving := absurd hserving (fail_down _ _ cause).2
  commands := h.commands
  opened := h.opened
  ready := h.ready
  scanner := h.scanner
  sorted := h.sorted
  bounded := h.bounded
  filled := h.filled
  cutoffs hup := hup.elim (fun hopening => absurd hopening (fail_down _ _ cause).1)
    fun hserving => absurd hserving (fail_down _ _ cause).2
  early hserving := absurd hserving (fail_down _ _ cause).2
  live hopen := absurd hopen (request_ne _)

/-- The scanner moves on in the staged bytes. -/
theorem Base.consume (h : Base token c L plan self) (count : ℕ) {parser : State} {builder : β}
    (hscanner : ∃ m, (c.on ((self.staged.drop count).map Prod.fst)).Suspends L m parser builder) :
    Base token c L plan (self.consume count parser builder) where
  indexed := h.indexed
  lane := h.lane
  serving := h.serving
  commands := h.commands
  opened := h.opened
  ready := h.ready
  scanner := hscanner
  sorted := h.sorted.sublist ((List.drop_sublist count _).append (.refl _))
  bounded byte hmem := h.bounded byte
    (((List.drop_sublist count _).append (.refl (self.inbox.flatMap Chunk.bytes))).subset hmem)
  filled := h.filled
  cutoffs := h.cutoffs
  early hserving byte hhead hlow := by
    -- The byte at the front before was taken no later.
    rcases hstaged : self.staged with - | ⟨before, rest⟩
    · rw [Link.consume, hstaged, List.drop_nil] at hhead
      cases hhead
    · refine h.early hserving before (by rw [hstaged]; rfl) ?_
      have hmem : byte ∈ before :: rest := by
        rw [Link.consume, hstaged] at hhead
        exact List.mem_of_mem_drop (List.mem_of_mem_head? hhead)
      rcases List.mem_cons.mp hmem with rfl | hmem
      · exact hlow
      · have hsorted := h.sorted
        rw [waiting, hstaged, List.cons_append] at hsorted
        exact ((List.pairwise_cons.mp hsorted).1 byte (List.mem_append_left _ hmem)).trans hlow

/-! ## Turns -/

/-- The next command is queued, or the connection fails. -/
theorem Base.begin' (h : Base token c L plan self) (hphase : self.phase ≠ .ready)
    {command : Command} (hcommand : plan.commands[self.commands.length]? = some command)
    (hstaged : self.staged = []) (hsteps : ∀ chunk ∈ self.inbox, ∀ step, chunk.step = some step →
      ∀ byte ∈ chunk.bytes, byte.2 = plan.position step + 1)
    (hhistory : self.schedule.Opening token → self.history = answers self.commands.length)
    (sent : Option Failure) : Inv token c L plan (self.begin' token command sent) := by
  have hserving := h.not_serving hphase
  have hopened := h.opened_eq_none hphase
  have hinit : Base token c L plan { self with phase := .init command.step } :=
    { h with
      serving := fun hs => absurd hs hserving
      ready := ⟨fun hp => (by cases hp), fun ho => (by rw [hopened] at ho; cases ho)⟩ }
  cases sent with
  | some cause => exact hinit.fail cause
  | none =>
    have hlt := (List.getElem?_eq_some_iff.mp hcommand).1
    have hlen : (self.commands ++ [command]).length = self.commands.length + 1 := by simp
    have htake : self.commands ++ [command] =
        plan.commands.take (self.commands.length + 1) := by
      rw [List.take_succ, hcommand, Option.toList_some, ← h.commands]
    refine { hinit with
      commands := ?_
      opened := fun history ho => (by cases hopened.symm.trans ho)
      bounded := fun byte hmem => (h.bounded byte hmem).trans ?_
      live := fun _ => ⟨?_, hsteps, fun hopening => ?_⟩ }
    · exact htake.trans (congrArg plan.commands.take hlen.symm)
    · rw [h.stamp_eq hphase]
      exact (Nat.le_succ _).trans (hlen.ge.trans (Nat.le_add_right _ _))
    · rintro step (hp | hp)
      · cases hp
        exact hlen.trans (congrArg (· + 1) (plan.position_eq hcommand).symm)
      · cases hp
    · refine ⟨?_, fun byte hmem => ?_⟩
      · change self.history = answers ((self.commands ++ [command]).length - 1) ++ self.staged
        rw [hlen, hstaged, List.append_nil]
        exact hhistory hopening
      · change byte ∈ self.staged at hmem
        rw [hstaged] at hmem
        cases hmem

/-- A connection with a reply to every command becomes ready, or fails. -/
theorem Base.ready' (h : Base token c L plan self) (hphase : self.phase ≠ .ready)
    (hall : plan.commands.length ≤ self.commands.length) (hstaged : self.staged = [])
    (hsteps : ∀ chunk ∈ self.inbox, ∀ step, chunk.step = some step →
      ∀ byte ∈ chunk.bytes, byte.2 = plan.position step + 1)
    (hhistory : self.schedule.Opening token → self.history = answers self.commands.length) :
    Inv token c L plan (self.ready token) := by
  have hlength : self.commands.length = plan.commands.length := le_antisymm h.length_le hall
  unfold Link.ready
  rcases hmark : self.schedule.markReady token with ⟨marked, schedule⟩
  rcases markReady_spec self.schedule token with hfalse | ⟨htrue, hopening, hserving, hclosed, hindexed⟩
  · rw [hmark] at hfalse
    obtain rfl : marked = false := hfalse
    exact h.fail _
  · rw [hmark] at htrue hserving hclosed hindexed
    obtain rfl : marked = true := htrue
    dsimp only at hserving hclosed hindexed ⊢
    exact { h with
      indexed := hindexed h.indexed
      lane := fun ho => absurd ho hclosed
      serving := fun _ => rfl
      opened := fun history ho => by
        obtain rfl := Option.some.inj ho
        refine ⟨(hhistory hopening).trans (congrArg answers hlength), ?_⟩
        rw [h.commands, hlength, List.take_length]
      ready := ⟨fun _ => rfl, fun _ => rfl⟩
      bounded := fun byte hmem => (h.bounded byte hmem).trans (by
        rw [h.stamp_eq hphase]
        exact Nat.le_add_right _ _)
      cutoffs := fun _ => h.cutoffs (Or.inl hopening)
      early := fun _ byte hhead => by
        change byte ∈ self.staged.head? at hhead
        rw [hstaged] at hhead
        cases hhead
      live := fun _ => ⟨fun step hp => (by rcases hp with hp | hp <;> cases hp), hsteps,
        fun ho => absurd ho hclosed⟩ }

/-- Bytes are taken. Before the connection is ready no order is in its lane. -/
theorem Inv.receipt (h : Inv token c L plan self) {bytes : List UInt8} (hbytes : bytes ≠ []) :
    Inv token c L plan (self.receipt token bytes) := by
  have hwaiting : (self.receipt token bytes).waiting =
      self.waiting ++ bytes.map fun byte => (byte, self.stamp) := by
    unfold waiting Link.receipt
    dsimp only
    rw [List.flatMap_append, List.flatMap_singleton, List.append_assoc]
  have hstamp : ∀ byte ∈ bytes.map fun byte => (byte, self.stamp), byte.2 = self.stamp := by
    intro byte hmem
    obtain ⟨_, -, rfl⟩ := List.mem_map.mp hmem
    rfl
  refine { h with
    sorted := ?_
    bounded := fun byte hmem => ?_
    filled := fun chunk hmem => ?_
    cutoffs := fun hup chunk hmem hlow => ?_
    live := fun hopen => ⟨(h.live hopen).counted, fun chunk hmem step hstep byte hbyte => ?_,
      (h.live hopen).progress⟩ }
  · rw [hwaiting]
    refine List.pairwise_append.mpr ⟨h.sorted, ?_, fun byte hbyte byte' hbyte' => ?_⟩
    · exact List.pairwise_of_forall_mem_list fun byte hbyte byte' hbyte' =>
        ((hstamp byte hbyte).trans (hstamp byte' hbyte').symm).le
    · rw [hstamp byte' hbyte']
      exact h.bounded byte hbyte
  · rw [hwaiting] at hmem
    rcases List.mem_append.mp hmem with hmem | hmem
    · exact h.bounded byte hmem
    · exact (hstamp byte hmem).le
  · rcases List.mem_append.mp hmem with hmem | hmem
    · exact h.filled chunk hmem
    · obtain rfl := List.mem_singleton.mp hmem
      exact fun hnil => hbytes (List.map_eq_nil_iff.mp hnil)
  · rcases List.mem_append.mp hmem with hmem | hmem
    · exact h.cutoffs hup chunk hmem hlow
    · obtain rfl := List.mem_singleton.mp hmem
      obtain ⟨byte, hbyte, hlow⟩ := hlow
      rw [hstamp byte hbyte] at hlow
      have hphase : self.phase ≠ .ready := by
        intro hphase
        obtain ⟨history, hhistory⟩ := Option.isSome_iff_exists.mp (h.ready.mp hphase)
        rw [stamp, (h.opened history hhistory).2, hhistory] at hlow
        exact Nat.not_succ_le_self _ hlow
      have hopening : self.schedule.Opening token :=
        hup.resolve_right (h.not_serving hphase)
      dsimp only
      unfold Schedule.cutoff
      rw [h.lane hopening]
      split <;> rfl
  · rcases List.mem_append.mp hmem with hmem | hmem
    · exact (h.live hopen).steps chunk hmem step hstep byte hbyte
    · obtain rfl := List.mem_singleton.mp hmem
      dsimp only at hstep
      split at hstep
      · next expected hphase =>
        obtain rfl := Option.some.inj hstep
        rw [hstamp byte hbyte, h.stamp_eq (by rw [hphase]; exact fun hp => by cases hp)]
        exact (h.live hopen).counted expected (Or.inl hphase)
      · cases hstep

/-- Bytes are received. With nothing staged they are unsolicited, if they were taken before the
command was queued. -/
theorem Inv.received (h : Inv token c L plan self) {chunk : Chunk} {rest : List Chunk}
    (hinbox : self.inbox = chunk :: rest) :
    Inv token c L plan (self.received token (decide (self.staged ≠ [])) chunk rest) := by
  obtain ⟨hopening, hserving, hindexed, hfrontier⟩ :=
    received_spec self.schedule token chunk.cutoff (decide (self.staged ≠ []))
  have hmem : chunk ∈ self.inbox := by
    rw [hinbox]
    exact List.mem_cons_self
  have hrest : ∀ {other}, other ∈ rest → other ∈ self.inbox := by
    rw [hinbox]
    exact List.mem_cons_of_mem _
  have hfilled := h.filled chunk hmem
  have hwaiting : (self.received token (decide (self.staged ≠ [])) chunk rest).waiting =
      self.waiting := by
    unfold waiting
    rw [hinbox, List.flatMap_cons, ← List.append_assoc]
    rfl
  have hphase : ∀ phase, phase ≠ .unsolicited →
      self.phase.received chunk.step (decide (self.staged ≠ [])) = phase → self.phase = phase := by
    intro phase hne heq
    unfold Phase.received at heq
    split_ifs at heq
    · exact absurd heq.symm hne
    · exact heq
  have hready : self.phase = .ready →
      self.phase.received chunk.step (decide (self.staged ≠ [])) = .ready := by
    intro hp
    rw [hp]
    exact if_neg (by simp)
  obtain ⟨count, hscanner⟩ := h.scanner
  refine { h with
    indexed := hindexed h.indexed
    lane := fun ho => h.lane (hopening ho)
    serving := fun hs => hready (h.serving (hserving.mp hs))
    ready := ⟨fun hp => h.ready.mp (hphase .ready (fun hne => by cases hne) hp),
      fun ho => hready (h.ready.mpr ho)⟩
    scanner := ⟨count, ?_⟩
    sorted := ?_
    bounded := ?_
    filled := fun other hother => h.filled other (hrest hother)
    cutoffs := fun hup other hother => h.cutoffs (hup.imp hopening hserving.mp) other (hrest hother)
    early := fun hs byte hhead hlow frontier hf => ?_
    live := fun hopen => ⟨fun step hp => (h.live hopen).counted step
      (hp.imp (hphase _ fun hne => by cases hne) (hphase _ fun hne => by cases hne)),
      fun other hother => (h.live hopen).steps other (hrest hother), fun ho => ?_⟩ }
  · have hbytes : (self.received token (decide (self.staged ≠ [])) chunk rest).bytes =
        self.bytes ++ chunk.bytes.map Prod.fst := List.map_append
    rw [hbytes]
    exact hscanner.append
  · rw [hwaiting]
    exact h.sorted
  · rw [hwaiting]
    exact h.bounded
  · replace hs := hserving.mp hs
    obtain ⟨hblank, hkept⟩ := hfrontier hs frontier hf
    rcases hstaged : self.staged with - | ⟨before, others⟩
    · have hhead' : byte ∈ (self.staged ++ chunk.bytes).head? := hhead
      rw [hstaged, List.nil_append] at hhead'
      refine hblank ?_ (by simp [hstaged])
      exact h.cutoffs (Or.inr hs) chunk hmem ⟨byte, List.mem_of_mem_head? hhead', hlow⟩
    · have hhead' : byte ∈ (self.staged ++ chunk.bytes).head? := hhead
      rw [hstaged] at hhead'
      obtain ⟨frontier', hbefore, hfirst⟩ := hkept (by simp [hstaged])
      rw [hfirst]
      refine h.early hs byte ?_ hlow frontier' hbefore
      rw [hstaged]
      exact hhead'
  · have hprogress := (h.live hopen).progress (hopening ho)
    have hcounted := (h.live hopen).counted
    unfold Progress at hprogress ⊢
    unfold Link.received
    dsimp only
    rcases hp : self.phase with - | step | step | - | -
    · rw [hp] at hprogress
      exact hprogress.elim
    · rw [hp] at hprogress
      obtain ⟨hhistory, hnumbers⟩ := hprogress
      have hnext : self.phase ≠ .ready := by
        rw [hp]
        exact fun hne => by cases hne
      by_cases hexpected : self.staged ≠ [] ∨ chunk.step = some step
      · have hkeep : Phase.received chunk.step (decide (self.staged ≠ [])) (.init step) =
            .init step := by
          refine if_neg ?_
          rcases hexpected with hstaged | hstep
          · simp [hstaged]
          · simp [hstep]
        rw [hkeep]
        refine ⟨by rw [hhistory, List.append_assoc], fun byte hbyte => ?_⟩
        rcases List.mem_append.mp hbyte with hbyte | hbyte
        · exact hnumbers byte hbyte
        · rcases hexpected with hstaged | hstep
          · -- The chunk was taken after a byte that is staged.
            obtain ⟨before, others, hcons⟩ := List.exists_cons_of_ne_nil hstaged
            have hin : byte ∈ self.inbox.flatMap Chunk.bytes :=
              List.mem_flatMap.mpr ⟨chunk, hmem, hbyte⟩
            have hge : before.2 ≤ byte.2 := by
              have hsorted := h.sorted
              rw [waiting, hcons, List.cons_append] at hsorted
              exact (List.pairwise_cons.mp hsorted).1 byte (List.mem_append_right _ hin)
            have hle := h.bounded byte (List.mem_append_right _ hin)
            rw [h.stamp_eq hnext] at hle
            have hbefore := hnumbers before (by rw [hcons]; exact List.mem_cons_self)
            change byte.2 = self.commands.length
            omega
          · exact ((h.live hopen).steps chunk hmem step hstep byte hbyte).trans
              (hcounted step (Or.inl hp)).symm
      · obtain ⟨hstaged, hstep⟩ := not_or.mp hexpected
        have hsurplus : Phase.received chunk.step (decide (self.staged ≠ [])) (.init step) =
            .unsolicited := if_pos (by simp [not_not.mp hstaged, hstep])
        rw [hsurplus]
        exact List.append_ne_nil_of_right_ne_nil _ hfilled
    · rw [hp] at hprogress
      by_cases hstaged : self.staged = []
      · have hsurplus : Phase.received chunk.step (decide (self.staged ≠ [])) (.advance step) =
            .unsolicited := if_pos (by simp [hstaged])
        rw [hsurplus]
        exact List.append_ne_nil_of_right_ne_nil _ hfilled
      · have hkeep : Phase.received chunk.step (decide (self.staged ≠ [])) (.advance step) =
            .advance step := if_neg (by simp [hstaged])
        rw [hkeep]
        dsimp only
        rw [hprogress, List.append_assoc]
    · have hkeep : Phase.received chunk.step (decide (self.staged ≠ [])) .unsolicited =
          .unsolicited := if_neg (by simp)
      rw [hkeep]
      exact List.append_ne_nil_of_right_ne_nil _ hfilled
    · rw [hp] at hprogress
      exact hprogress.elim

/-- A frame is handed to the lane, or refused. -/
theorem Inv.push (h : Inv token c L plan self) (answer : Insert) :
    Inv token c L plan (self.push token answer) := by
  obtain ⟨hopening, hserving, hindexed, hlane⟩ := tryReply_spec self.schedule token answer
  unfold Link.push
  rcases hreply : self.schedule.tryReply token answer with ⟨delivery, schedule⟩
  rw [hreply] at hopening hserving hindexed hlane
  dsimp only at hopening hserving hindexed hlane
  have hkeep : Blank self.schedule token → self.schedule.Serving token →
      delivery = .rejected (.responseFront .empty) ∧ schedule = self.schedule := by
    intro hblank hs
    rw [tryReply_blank hs hblank] at hreply
    exact ⟨(Prod.mk.inj hreply).1.symm, (Prod.mk.inj hreply).2.symm⟩
  have hbase : ∀ held, Base token c L plan { self with schedule, held } := fun held =>
    { h with
      indexed := hindexed h.indexed
      lane := fun ho => by
        have hempty := h.lane (hopening ho)
        rw [hlane hempty]
        exact hempty
      serving := fun hs => h.serving (hserving hs)
      cutoffs := fun hup => h.cutoffs (hup.imp hopening hserving)
      early := fun hs byte hhead hlow => by
        have hblank := h.early (hserving hs) byte hhead hlow
        rw [(hkeep hblank (hserving hs)).2]
        exact hblank }
  have hlive : ∀ held, self.status = .open' → Live token plan { self with schedule, held } :=
    fun held hopen => ⟨(h.live hopen).counted, (h.live hopen).steps,
      fun ho => (h.live hopen).progress (hopening ho)⟩
  cases delivery with
  | accepted => exact ⟨hbase false, hlive false⟩
  | blocked => exact ⟨hbase true, hlive true⟩
  | rejected cause => exact (hbase false).fail cause

/-- A frame, or a failure of the scanner, is delivered. While the connection waits for a reply a
frame with OK is the status OK at the front of what was staged. -/
theorem Inv.deliver {count : ℕ} {parser : State} {builder : β} (h : Inv token c L plan self)
    (hbase : Base token c L plan (self.consume count parser builder))
    (answer : Insert) {decoded : Decoded}
    (hok : decoded = .frame (some .ok) →
      (self.staged.take count).map Prod.fst = okBytes) :
    Inv token c L plan ((self.consume count parser builder).deliver token answer decoded) := by
  have hclosing : self.status.intake ≠ .all →
      Inv token c L plan (self.consume count parser builder) := fun hintake =>
    ⟨hbase, fun hopen => absurd (by
      change self.status = .open' at hopen
      rw [hopen]
      rfl) hintake⟩
  unfold Link.deliver
  rcases hintake : (self.consume count parser builder).status.intake
  · cases decoded with
    | frame event =>
      dsimp only
      rcases hp : (self.consume count parser builder).phase with - | step | step | - | -
      · exact hbase.fail _
      · dsimp only
        unfold Link.response
        rcases hrefusal : refusal event with - | kind
        · replace hp : self.phase = .init step := hp
          have hphase : self.phase ≠ .ready := by
            rw [hp]
            exact fun hne => by cases hne
          have hevent : event = some .ok := by
            unfold refusal at hrefusal
            split at hrefusal
            · rfl
            · cases hrefusal
            · cases hrefusal
          refine { hbase with
            serving := fun hs => absurd hs (h.not_serving hphase)
            ready := ⟨fun hne => (by cases hne), fun ho => absurd (h.ready.mpr ho) hphase⟩
            live := fun hopen => ⟨?_, (h.live hopen).steps, fun ho => ?_⟩ }
          · rintro other (hother | hother)
            · cases hother
            · cases hother
              exact (h.live hopen).counted step (Or.inl hp)
          · -- The status OK is the reply to the last command.
            have hprogress := (h.live hopen).progress ho
            rw [Progress, hp] at hprogress
            obtain ⟨hhistory, hnumbers⟩ := hprogress
            have hcounted := (h.live hopen).counted step (Or.inl hp)
            have hreply : self.staged.take count =
                okBytes.map fun byte => (byte, self.commands.length) := by
              rw [← hok (by rw [hevent]), List.map_map]
              refine (List.map_id _).symm.trans (List.map_congr_left fun byte hmem => ?_)
              exact Prod.ext rfl (hnumbers byte (List.mem_of_mem_take hmem))
            change self.history = answers self.commands.length ++ self.staged.drop count
            rw [hcounted] at hreply
            rw [hhistory, hcounted, Nat.add_sub_cancel, answers_succ, List.append_assoc, ← hreply,
              List.take_append_drop]
        · exact hbase.fail _
      · exact hbase.fail _
      · exact hbase.fail _
      · replace hp : self.phase = .ready := hp
        refine Inv.push ⟨hbase, fun hopen => ⟨?_, (h.live hopen).steps, fun ho => ?_⟩⟩ answer
        · rintro step (hs | hs)
          · cases hp.symm.trans hs
          · cases hp.symm.trans hs
        · have hprogress := (h.live hopen).progress ho
          rw [Progress, hp] at hprogress
          exact hprogress.elim
    | rejected failure => exact hbase.fail _
    | retain => exact hbase.fail _
    | input => exact hbase.fail _
  · have hkept := hclosing (by
      change self.status.intake = _ at hintake
      rw [hintake]
      exact fun hne => by cases hne)
    cases decoded with
    | rejected failure => exact hbase.fail _
    | _ => exact hkept
  · exact hclosing (by
      change self.status.intake = _ at hintake
      rw [hintake]
      exact fun hne => by cases hne)

/-- The scanner is reset. -/
theorem Base.reset (h : Base token c L plan self) (count : ℕ) (builder : β) :
    Base token c L plan (self.consume count .new (c.builder.reset builder)) :=
  h.consume count ⟨0, .fresh (L.reset builder)⟩

/-- The scanner stops in the middle of a frame. -/
theorem Inv.stop (h : Inv token c L plan self) {parser : State} {builder : β}
    (hscanner : ∃ m, (c.on self.bytes).Suspends L m parser builder) :
    Inv token c L plan (self.consume 0 parser builder) :=
  ⟨h.consume 0 hscanner, fun hopen =>
    ⟨(h.live hopen).counted, (h.live hopen).steps, (h.live hopen).progress⟩⟩

theorem Inv.decode (hsource : ∀ bytes, c.source.Exact bytes) (h : Inv token c L plan self)
    (retained : Bool) (answer : Insert) :
    Inv token c L plan (self.decode token c L retained answer) := by
  obtain ⟨m, hscanner⟩ := h.scanner
  have hstop := hscanner.stop
  unfold Link.decode
  rcases hscan : (c.on self.bytes).scan self.parser self.builder with ⟨scan, parser, builder⟩
  rw [hscan] at hstop
  cases scan with
  | pending => exact h.stop ⟨_, hstop trivial⟩
  | blocked => exact h.stop ⟨_, hstop trivial⟩
  | retainCapacity => exact h.stop ⟨_, hstop trivial⟩
  | complete parsed count =>
    obtain ⟨rfl, hdraft⟩ := scan_fresh (c := c.on self.bytes) L hscan
    obtain ⟨-, -, hok⟩ := frame_ok (hsource self.bytes) hscanner hscan
    refine h.deliver (h.consume count ⟨0, .fresh hdraft⟩) answer fun hdecoded => ?_
    rw [List.map_take]
    cases retained with
    | false => cases hdecoded
    | true =>
      exact hok (Decoded.frame.inj ((if_pos rfl).symm.trans hdecoded))
  | invalid error count =>
    exact h.deliver (h.reset count builder) answer fun hdecoded => by cases hdecoded
  | frameCapacity error count =>
    exact h.deliver (h.reset count builder) answer fun hdecoded => by cases hdecoded
  | valueCapacity error count =>
    exact h.deliver (h.reset count builder) answer fun hdecoded => by cases hdecoded
  | source cause => exact h.deliver (h.reset 0 builder) answer fun hdecoded => by cases hdecoded

theorem Inv.finish (h : Inv token c L plan self) (failure : Failure) (answer : Insert) :
    Inv token c L plan (self.finish token c failure answer) := by
  unfold Link.finish
  dsimp only
  split_ifs
  · exact h.stop ⟨0, .fresh (L.reset self.builder)⟩
  · exact h.deliver (h.reset 0 self.builder) answer fun hdecoded => by cases hdecoded

/-- A flush with nothing staged queues the next command, or makes the connection ready. -/
theorem Inv.advance (h : Inv token c L plan self) {step : Step} (hphase : self.phase = .advance step)
    {input : Input} (htold : self.Told c input) (sent : Option Failure) :
    Inv token c L plan (self.advance token plan step input sent) := by
  have hready : self.phase ≠ .ready := by
    rw [hphase]
    exact fun hne => by cases hne
  unfold Link.advance
  rcases hstatus : self.status with - | ⟨closing, remote⟩
  · cases input with
    | empty =>
      obtain ⟨hcounted, hsteps, hprogress⟩ := h.live hstatus
      have hcount := hcounted step (Or.inr hphase)
      have hhistory : self.schedule.Opening token → self.history = answers self.commands.length := by
        intro ho
        have hp := hprogress ho
        rw [Progress, hphase] at hp
        replace hp : self.history = answers self.commands.length ++ self.staged := hp
        rw [hp, show self.staged = [] from htold, List.append_nil]
      have hlen := h.length_le
      have hnext : plan.next step = plan.commands[self.commands.length]? := by
        rw [hcount]
        exact plan.next_eq (by omega)
      dsimp only
      rcases hcommand : plan.next step with - | command
      · rw [hcommand] at hnext
        exact h.ready' hready (List.getElem?_eq_none_iff.mp hnext.symm) htold hsteps hhistory
      · rw [hcommand] at hnext
        exact h.begin' hready hnext.symm htold hsteps hhistory sent
    | incomplete => exact h.fail _
    | yield => exact h
    | blocked => exact h
  · exact h

theorem Inv.flush (h : Inv token c L plan self) {input : Input} (htold : self.Told c input)
    (sent : Option Failure) : Inv token c L plan (self.flush token plan input sent) := by
  unfold Link.flush
  split
  · next step hphase => exact h.advance hphase htold sent
  · split_ifs
    · exact h.fail _
    · exact h
  · split
    · exact h
    · exact h.fail _

/-- Another party takes a step. -/
theorem Inv.other (h : Inv token c L plan self) {schedule : Schedule n}
    (hother : self.schedule.Apart token schedule) : Inv token c L plan { self with schedule } := by
  have hchanged := hother.conns
  exact { h with
    indexed := hchanged.indexed h.indexed
    lane := fun ho => hother.responses h.indexed (hchanged.opening ho) (h.lane (hchanged.opening ho))
    serving := fun hs => h.serving (hchanged.serving hs).1
    cutoffs := fun hup => h.cutoffs (hup.imp hchanged.opening fun hs => (hchanged.serving hs).1)
    early := fun hs byte hhead hlow frontier hf =>
      h.early (hchanged.serving hs).1 byte hhead hlow frontier ((hchanged.serving hs).2.symm.trans hf)
    live := fun hopen => ⟨(h.live hopen).counted, (h.live hopen).steps,
      fun ho => (h.live hopen).progress (hchanged.opening ho)⟩ }

theorem Inv.turn (hsource : ∀ bytes, c.source.Exact bytes) (h : Inv token c L plan self)
    {self' : Link n β} (hturn : Turn token c L plan self self') : Inv token c L plan self' := by
  cases hturn with
  | other hother => exact h.other hother
  | storage hdraft =>
    obtain ⟨count, hscanner⟩ := h.scanner
    exact { h with
      scanner := ⟨count, hscanner.storage hdraft⟩
      live := fun hopen =>
        ⟨(h.live hopen).counted, (h.live hopen).steps, (h.live hopen).progress⟩ }
  | closing phase remote => exact { h with live := fun hopen => by cases hopen }
  | receipt bytes hbytes => exact h.receipt hbytes
  | received hinbox => exact h.received hinbox
  | decode retained answer => exact h.decode hsource retained answer
  | finish failure answer => exact h.finish failure answer
  | settle answer hheld => exact h.push answer
  | flush input sent htold => exact h.flush htold sent

/-- A connection that has just been activated. -/
theorem base_new {schedule : Schedule n} {builder : β} (hopening : schedule.Opening token)
    (hlane : schedule.responses token.index = []) (hindexed : schedule.Indexed)
    (hdraft : L.draft builder = .empty) : Base token c L plan (new schedule builder) where
  indexed := hindexed
  lane _ := hlane
  serving := by
    rintro ⟨kind, haccess⟩
    have hconn : schedule.routes.conns token.index = .initializing token := hopening
    change (schedule.routes.conns token.index).access = some (token, kind) at haccess
    rw [hconn] at haccess
    cases haccess
  commands := rfl
  opened _ ho := by cases ho
  ready := ⟨fun hp => (by cases hp), fun ho => (by cases ho)⟩
  scanner := ⟨0, .fresh hdraft⟩
  sorted := .nil
  bounded _ hmem := by cases hmem
  filled _ hmem := by cases hmem
  cutoffs _ _ hmem := by cases hmem
  early _ _ hhead := by cases hhead

theorem Reached.inv (hsource : ∀ bytes, c.source.Exact bytes) (h : Reached token c L plan self) :
    Inv token c L plan self := by
  induction h with
  | @start schedule builder hopening hlane hindexed hdraft sent =>
    have hbase : Base token c L plan (new schedule builder) :=
      base_new hopening hlane hindexed hdraft
    unfold Link.start
    dsimp only
    rcases hfirst : plan.first' with - | command
    · have hnone : plan.commands.length ≤ 0 :=
        List.getElem?_eq_none_iff.mp (plan.first_eq.symm.trans hfirst)
      exact hbase.ready' (fun hp => by cases hp) hnone rfl (fun _ hmem => by cases hmem)
        fun _ => rfl
    · exact hbase.begin' (fun hp => by cases hp) (plan.first_eq.symm.trans hfirst) rfl
        (fun _ hmem => by cases hmem) (fun _ => rfl) sent
  | turn _ hturn ih => exact ih.turn hsource hturn

/-! ## Connections that are lost -/

variable (token) in
/-- The connection is not ready, and is closing or has failed. -/
def Lost (self : Link n β) : Prop :=
  self.opened = none ∧ (self.status ≠ .open' ∨
    (¬self.schedule.Opening token ∧ ¬self.schedule.Serving token))

variable (token) in
/-- A step that neither makes a connection ready nor opens it again. -/
structure Quiet (link link' : Link n β) : Prop where
  opened : link'.opened = link.opened
  status : link.status ≠ .open' → link'.status ≠ .open'
  opening : link'.schedule.Opening token → link.schedule.Opening token
  serving : link'.schedule.Serving token → link.schedule.Serving token

variable {self' : Link n β}

theorem Quiet.lost (h : Quiet token self self') (hlost : self.Lost token) : self'.Lost token :=
  ⟨h.opened.trans hlost.1, hlost.2.imp h.status fun hdown =>
    ⟨fun ho => hdown.1 (h.opening ho), fun hs => hdown.2 (h.serving hs)⟩⟩

theorem Quiet.refl (self : Link n β) : Quiet token self self :=
  ⟨rfl, id, id, id⟩

theorem Quiet.trans {self'' : Link n β} (h : Quiet token self self')
    (h' : Quiet token self' self'') : Quiet token self self'' :=
  ⟨h'.opened.trans h.opened, fun hs => h'.status (h.status hs), fun ho => h.opening (h'.opening ho),
    fun hs => h.serving (h'.serving hs)⟩

theorem quiet_fail (cause : Failure) (self : Link n β) : Quiet token self (self.fail token cause) :=
  ⟨rfl, fun _ => request_ne _, fun ho => absurd ho (fail_down _ _ cause).1,
    fun hs => absurd hs (fail_down _ _ cause).2⟩

/-- A connection that fails before it is ready is lost. -/
theorem lost_fail (cause : Failure) (hopened : self.opened = none) :
    (self.fail token cause).Lost token :=
  ⟨hopened, Or.inl (request_ne _)⟩

theorem quiet_push (answer : Insert) (self : Link n β) :
    Quiet token self (self.push token answer) := by
  obtain ⟨hopening, hserving, -, -⟩ := tryReply_spec self.schedule token answer
  unfold Link.push
  rcases hreply : self.schedule.tryReply token answer with ⟨delivery, schedule⟩
  rw [hreply] at hopening hserving
  have hquiet : ∀ held, Quiet token self { self with schedule, held } := fun _ =>
    ⟨rfl, id, hopening, hserving⟩
  cases delivery with
  | accepted => exact hquiet false
  | blocked => exact hquiet true
  | rejected cause => exact (hquiet false).trans (quiet_fail cause _)

theorem quiet_deliver (answer : Insert) (decoded : Decoded) (self : Link n β) :
    Quiet token self (self.deliver token answer decoded) := by
  unfold Link.deliver
  split
  · exact .refl self
  · exact quiet_fail _ self
  · exact .refl self
  · split
    · unfold Link.response
      split
      · exact quiet_fail _ self
      · exact ⟨rfl, id, id, id⟩
    · exact quiet_fail _ self
    · exact quiet_fail _ self
    · exact quiet_fail _ self
    · exact quiet_push answer self
  · exact quiet_fail _ self
  · exact quiet_fail _ self
  · exact quiet_fail _ self

theorem quiet_decode (retained : Bool) (answer : Insert) (self : Link n β) :
    Quiet token self (self.decode token c L retained answer) := by
  have hconsume : ∀ count parser builder, Quiet token self (self.consume count parser builder) :=
    fun _ _ _ => ⟨rfl, id, id, id⟩
  unfold Link.decode
  split
  · exact hconsume _ _ _
  · exact hconsume _ _ _
  · exact hconsume _ _ _
  · exact (hconsume _ _ _).trans (quiet_deliver _ _ _)
  · exact (hconsume _ _ _).trans (quiet_deliver _ _ _)
  · exact (hconsume _ _ _).trans (quiet_deliver _ _ _)
  · exact (hconsume _ _ _).trans (quiet_deliver _ _ _)
  · exact (hconsume _ _ _).trans (quiet_deliver _ _ _)

theorem quiet_begin (command : Command) (sent : Option Failure) (self : Link n β) :
    Quiet token self (self.begin' token command sent) := by
  cases sent with
  | none => exact ⟨rfl, id, id, id⟩
  | some cause =>
    have hinit : Quiet token self { self with phase := .init command.step } := ⟨rfl, id, id, id⟩
    exact hinit.trans (quiet_fail cause _)

theorem quiet_ready (h : ¬self.schedule.Opening token) : Quiet token self (self.ready token) := by
  unfold Link.ready
  rcases hmark : self.schedule.markReady token with ⟨marked, schedule⟩
  rcases markReady_spec self.schedule token with hfalse | ⟨-, hopening, -⟩
  · rw [hmark] at hfalse
    obtain rfl : marked = false := hfalse
    exact quiet_fail _ self
  · exact absurd hopening h

/-- A flush of a lost connection does not make it ready. -/
theorem quiet_flush (hlost : self.Lost token) (input : Input) (sent : Option Failure) :
    Quiet token self (self.flush token plan input sent) := by
  unfold Link.flush
  split
  · unfold Link.advance
    split
    · exact .refl self
    · next hopen =>
      split
      · split
        · exact quiet_begin _ sent self
        · exact quiet_ready (hlost.2.resolve_left (not_not.mpr hopen)).1
      · exact quiet_fail _ self
      · exact .refl self
      · exact .refl self
  · split_ifs
    · exact quiet_fail _ self
    · exact .refl self
  · split
    · exact .refl self
    · exact quiet_fail _ self

/-- A lost connection stays lost. -/
theorem Lost.turn (hlost : self.Lost token) (hturn : Turn token c L plan self self') :
    self'.Lost token := by
  cases hturn with
  | @other schedule hother =>
    have hchanged := hother.conns
    have hquiet : Quiet token self { self with schedule } :=
      ⟨rfl, id, hchanged.opening, fun hs => (hchanged.serving hs).1⟩
    exact hquiet.lost hlost
  | storage hdraft => exact hlost
  | closing phase remote => exact ⟨hlost.1, Or.inl fun hopen => by cases hopen⟩
  | receipt bytes hbytes => exact hlost
  | @received chunk rest hinbox =>
    obtain ⟨hopening, hserving, -, -⟩ :=
      received_spec self.schedule token chunk.cutoff (decide (self.staged ≠ []))
    have hquiet : Quiet token self (self.received token (decide (self.staged ≠ [])) chunk rest) :=
      ⟨rfl, id, hopening, hserving.mp⟩
    exact hquiet.lost hlost
  | decode retained answer => exact (quiet_decode retained answer self).lost hlost
  | finish failure answer =>
    have hreset : Quiet token self (self.consume 0 .new (c.builder.reset self.builder)) :=
      ⟨rfl, id, id, id⟩
    unfold Link.finish
    dsimp only
    split_ifs
    · exact hreset.lost hlost
    · exact (hreset.trans (quiet_deliver answer _ _)).lost hlost
  | settle answer hheld => exact (quiet_push answer self).lost hlost
  | flush input sent htold => exact (quiet_flush hlost input sent).lost hlost

/-! ## The handshake -/

variable (c plan) in
/-- What has been received is a status OK to each command before the last one queued, and a part
of a reply to that one. Every byte was taken after the command it replies to was queued, and
before the next was. -/
def Conforms (self : Link n β) : Prop :=
  ∃ count part, count < plan.commands.length ∧ self.commands = plan.commands.take (count + 1) ∧
    self.history = answers count ++ part.map (fun byte => (byte, count + 1)) ∧
    (c.on part).outcome = .pending

/-- When all input is decoded the handshake is in order, or the connection is lost. -/
theorem Inv.settled (h : Inv token c L plan self) (hopened : self.opened = none) {input : Input}
    (hinput : input = .empty ∨ input = .incomplete) (htold : self.Told c input)
    (sent : Option Failure) :
    (self.flush token plan input sent).opened ≠ none ∨
      (self.flush token plan input sent).Conforms c plan ∨
      (self.flush token plan input sent).Lost token := by
  by_cases hlost : self.Lost token
  · exact Or.inr (Or.inr ((quiet_flush hlost input sent).lost hlost))
  · have hphase : self.phase ≠ .ready := by
      intro hp
      have hsome := h.ready.mp hp
      rw [hopened] at hsome
      cases hsome
    have hserving := h.not_serving hphase
    have hopen : self.status = .open' := by
      by_contra hne
      exact hlost ⟨hopened, Or.inl hne⟩
    have hopening : self.schedule.Opening token := by
      by_contra hne
      exact hlost ⟨hopened, Or.inr ⟨hne, hserving⟩⟩
    have hnext := h.flush htold sent
    obtain ⟨hcounted, -, hprogress⟩ := h.live hopen
    replace hprogress := hprogress hopening
    unfold Progress at hprogress
    rcases hp : self.phase with - | step | step | - | -
    · rw [hp] at hprogress
      exact hprogress.elim
    · rw [hp] at hprogress
      obtain ⟨hhistory, hnumbers⟩ := hprogress
      have hcount := hcounted step (Or.inl hp)
      have hlen := h.length_le
      have hself : self.Conforms c plan := by
        refine ⟨self.commands.length - 1, self.bytes, by omega, ?_, ?_, ?_⟩
        · rw [hcount, Nat.add_sub_cancel, ← hcount]
          exact h.commands
        · have hstaged : self.staged = self.bytes.map fun byte => (byte, self.commands.length) := by
            rw [bytes, List.map_map]
            refine (List.map_id _).symm.trans (List.map_congr_left fun byte hmem => ?_)
            exact Prod.ext rfl (hnumbers byte hmem)
          rw [show self.commands.length - 1 + 1 = self.commands.length by omega, ← hstaged]
          exact hhistory
        · rcases hinput with rfl | rfl
          · rw [bytes, show self.staged = [] from htold]
            exact outcome_nil c
          · obtain ⟨m, hscanner⟩ := h.scanner
            have hview := hscanner.view_scan (by
              rw [htold.2]
              exact id)
            rw [htold.2] at hview
            exact hview.symm
      unfold Link.flush
      rw [hp]
      dsimp only
      split
      · exact Or.inr (Or.inl hself)
      · exact Or.inr (Or.inr (lost_fail _ hopened))
    · rw [hp] at hprogress
      unfold Link.flush Link.advance at hnext ⊢
      rw [hp] at hnext ⊢
      rw [hopen] at hnext ⊢
      dsimp only at hnext ⊢
      rcases hinput with rfl | rfl
      · dsimp only at hnext ⊢
        rcases hcommand : plan.next step with - | command
        · dsimp only
          unfold Link.ready
          split
          · exact Or.inr (Or.inr (lost_fail _ hopened))
          · exact Or.inl fun hnone => by cases hnone
        · cases sent with
          | none =>
            rw [hcommand] at hnext
            have hcommands := hnext.commands
            have hlen := hnext.length_le
            replace hlen : (self.commands ++ [command]).length ≤ plan.commands.length := hlen
            change self.commands ++ [command] = plan.commands.take (self.commands ++ [command]).length
              at hcommands
            rw [List.length_append, List.length_singleton] at hcommands hlen
            refine Or.inr (Or.inl ⟨self.commands.length, [], hlen, hcommands, ?_, outcome_nil c⟩)
            change self.history = _
            rw [hprogress, show self.staged = [] from htold]
            rfl
          | some cause => exact Or.inr (Or.inr (lost_fail cause hopened))
      · exact Or.inr (Or.inr (lost_fail _ hopened))
    · rw [hp] at hprogress
      rcases hinput with rfl | rfl
      · exact absurd htold hprogress
      · unfold Link.flush
        rw [hp]
        dsimp only
        rw [if_pos ⟨rfl, hopen⟩]
        exact Or.inr (Or.inr (lost_fail _ hopened))
    · exact absurd hp hphase

/-- A frame that begins before the connection was ready is refused, and so is a part of one. -/
theorem Inv.refuses (h : Inv token c L plan self) (hserving : self.schedule.Serving token)
    (hopen : self.status = .open') {byte : Byte} {rest : List Byte}
    (hstaged : self.staged = byte :: rest) (hlow : byte.2 ≤ plan.commands.length) :
    (∀ retained answer, (self.decode token c L retained answer).staged ≠ self.staged →
      ¬(self.decode token c L retained answer).schedule.Serving token) ∧
      ∀ sent, ¬(self.flush token plan .incomplete sent).schedule.Serving token := by
  have hphase := h.serving hserving
  have hblank : Blank self.schedule token := h.early hserving byte (by rw [hstaged]; rfl) hlow
  have hdown : ∀ (link : Link n β) (cause : Failure),
      ¬(link.fail token cause).schedule.Serving token := fun _ cause => (fail_down _ _ cause).2
  have hdeliver : ∀ count parser builder answer decoded,
      ¬((self.consume count parser builder).deliver token answer decoded).schedule.Serving token := by
    intro count parser builder answer decoded
    unfold Link.deliver
    rw [show (self.consume count parser builder).status = .open' from hopen,
      show (self.consume count parser builder).phase = .ready from hphase]
    cases decoded with
    | frame event =>
      dsimp only [CloseStatus.intake]
      unfold Link.push
      rw [show (self.consume count parser builder).schedule = self.schedule from rfl,
        tryReply_blank hserving hblank]
      exact hdown _ _
    | _ => exact hdown _ _
  constructor
  · intro retained answer
    unfold Link.decode
    split
    · exact fun hne => absurd rfl hne
    · exact fun hne => absurd rfl hne
    · exact fun hne => absurd rfl hne
    · exact fun _ => hdeliver _ _ _ _ _
    · exact fun _ => hdeliver _ _ _ _ _
    · exact fun _ => hdeliver _ _ _ _ _
    · exact fun _ => hdeliver _ _ _ _ _
    · exact fun _ => hdeliver _ _ _ _ _
  · intro sent
    unfold Link.flush
    rw [hphase]
    dsimp only
    rw [tryInput_blank hserving hblank]
    exact hdown _ _

/-- A connection is ready, and served, only after one status OK to each configured command, in the
order of the commands, each taken after its own command was queued and before the next, with no
byte besides. When all its input is decoded, a connection that is not ready has received such
replies to the commands before the last one, and a part of one reply to that, or it is lost. A lost
connection is never served, and a byte that was taken before the connection was ready is refused
after it. -/
theorem Reached.handshake (hsource : ∀ bytes, c.source.Exact bytes)
    (h : Reached token c L plan self) :
    (self.phase = .ready ∨ self.schedule.Serving token → self.opened.isSome) ∧
      (∀ history, self.opened = some history →
        history = answers plan.commands.length ∧ self.commands = plan.commands) ∧
      (∀ input sent, input = .empty ∨ input = .incomplete → self.Told c input →
        self.opened = none → (self.flush token plan input sent).opened ≠ none ∨
          (self.flush token plan input sent).Conforms c plan ∨
          (self.flush token plan input sent).Lost token) ∧
      (self.Lost token → ∀ later, Relation.ReflTransGen (Turn token c L plan) self later →
        later.Lost token ∧ ¬later.schedule.Serving token) ∧
      (self.schedule.Serving token → self.status = .open' → ∀ byte rest,
        self.staged = byte :: rest → byte.2 ≤ plan.commands.length →
          (∀ retained answer, (self.decode token c L retained answer).staged ≠ self.staged →
            ¬(self.decode token c L retained answer).schedule.Serving token) ∧
          ∀ sent, ¬(self.flush token plan .incomplete sent).schedule.Serving token) := by
  have hinv := h.inv hsource
  refine ⟨?_, hinv.opened, fun input sent hinput htold hopened =>
    hinv.settled hopened hinput htold sent, fun hlost later hrun => ?_,
    fun hserving hopen byte rest hstaged hlow => hinv.refuses hserving hopen hstaged hlow⟩
  · rintro (hphase | hserving)
    · exact hinv.ready.mp hphase
    · exact hinv.ready.mp (hinv.serving hserving)
  · have hlater : later.Lost token ∧ Reached token c L plan later := by
      induction hrun with
      | refl => exact ⟨hlost, h⟩
      | tail _ hturn ih => exact ⟨ih.1.turn hturn, .turn ih.2 hturn⟩
    refine ⟨hlater.1, fun hserving => ?_⟩
    have hsome := (hlater.2.inv hsource).ready.mp ((hlater.2.inv hsource).serving hserving)
    rw [hlater.1.1] at hsome
    cases hsome

/-- AUTH and SELECT. -/
def authSelect : Plan :=
  ⟨some (.password [112]), some 3, none⟩

/-- Frames of 64 bytes and 8 values. -/
def frames : Call (Draft × ℕ) (List Kind) Unit :=
  ⟨Draft.metered, .exact, ⟨64, Nat.le_of_ble_eq_true rfl, Nat.le_of_ble_eq_true rfl⟩,
    ⟨8, Nat.le_of_ble_eq_true rfl, Nat.le_of_ble_eq_true rfl⟩, []⟩

/-- The connection of a port. -/
def only : Token 1 :=
  ⟨⟨0, Nat.zero_lt_one⟩, 0⟩

/-- A connection that has queued AUTH. -/
def authenticating : Link 1 (Draft × ℕ) :=
  (new (Schedule.new.activate only true).2 (.empty, 9)).start only authSelect none

/-- The bytes are taken, received and decoded, and the connection is flushed. -/
def answered (bytes : List UInt8) (self : Link 1 (Draft × ℕ)) : Link 1 (Draft × ℕ) :=
  let self := self.receipt only bytes
  let self := self.received only (decide (self.staged ≠ []))
    (self.inbox.headD ⟨none, none, []⟩) self.inbox.tail
  (self.decode only frames Draft.metered_lawful true .stored).flush only authSelect .empty none

/-- With a status OK to AUTH and one to SELECT the connection is ready. -/
theorem Reached.handshake_select :
    ((authenticating.answered okBytes).answered okBytes).opened =
        some (answers 2) ∧
      ((authenticating.answered okBytes).answered okBytes).commands = authSelect.commands := by
  have hreached : Reached only frames Draft.metered_lawful authSelect
      ((authenticating.answered okBytes).answered okBytes) := by
    have hopening : (Schedule.new.activate only true).2.Opening only := rfl
    have hindexed : (Schedule.new.activate only true).2.Indexed := by
      intro i other hbound
      obtain rfl := Subsingleton.elim i 0
      rw [← Option.some.inj hbound]
      rfl
    have hstart : Reached only frames Draft.metered_lawful authSelect authenticating :=
      .start hopening rfl hindexed rfl none
    have hanswered : ∀ link : Link 1 (Draft × ℕ),
        Reached only frames Draft.metered_lawful authSelect link → link.inbox = [] →
        (∀ received, received = (link.receipt only okBytes).received only
          (decide ((link.receipt only okBytes).staged ≠ []))
            ((link.receipt only okBytes).inbox.headD ⟨none, none, []⟩)
            (link.receipt only okBytes).inbox.tail →
          (received.decode only frames Draft.metered_lawful true .stored).staged = []) →
        Reached only frames Draft.metered_lawful authSelect (link.answered okBytes) := by
      intro link h hinbox hstaged
      refine .turn (.turn (.turn (.turn h (.receipt okBytes (by decide))) (.received ?_))
        (.decode true .stored)) (.flush .empty none (hstaged _ rfl))
      rw [Link.receipt, hinbox]
      rfl
    exact hanswered _ (hanswered _ hstart rfl fun _ h => (by subst h; rfl)) rfl
      fun _ h => (by subst h; rfl)
  obtain ⟨-, hopened, -⟩ := hreached.handshake fun bytes => Source.exact_spec bytes
  obtain ⟨hhistory, hcommands⟩ := hopened _ rfl
  exact ⟨congrArg some hhistory, hcommands⟩

end Link

end Cartel.Redis.Client
