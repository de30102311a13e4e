import Cartel.Pool.Slot
import Cartel.Lib.Outcome
import Mathlib.Data.List.Basic

/-!
# The pipeline of a connection

Requests are queued in the request lane and drained to the wire from there. A batch of open
requests is ended by a request with a Sync of its own, or by a bare Sync that a flush puts on the
wire. What a connection has sent or queued is always a row of whole batches, and the open
requests of the one that is not ended (`Shape`).

Whether the hand-off of a request succeeds, how much a drain takes, and whether the wire takes a
Sync are outcomes of other parts.
-/

namespace Cartel.Pg.Pool

open Cartel.Lib

variable {n : ℕ} {φ : Type}

/-! ## Connections -/

/-- A frame of the wire : a request with its boundary, a piece of a COPY, its end with a Sync, or
a bare Sync. -/
inductive Item where
  | request (boundary : Boundary)
  | copyData
  | copyDoneSync
  | sync
  deriving DecidableEq

/-- A connection : its slot, the frames in its request lane, and those on the wire. -/
structure Pipeline (n : ℕ) (φ : Type) where
  slot : Slot n φ
  requests : List Item
  wire : List Item

namespace Pipeline

/-- `Requests::try_with`, of a hand-off that succeeds or not. -/
def tryWith (token : Token n) (boundary : Boundary) (handed : Bool) (self : Pipeline n φ) :
    Pipeline n φ :=
  if self.slot.ready token then
    match self.slot.tryReply boundary with
    | .error _ => self
    | .ok permit =>
      if handed then
        { self with
          slot := (permit.commit self.slot).1
          requests := self.requests ++ [.request boundary] }
      else self
  else self

/-- `Requests::try_enqueue`. -/
def tryEnqueue (token : Token n) (handed : Bool) (self : Pipeline n φ) : Pipeline n φ :=
  if self.slot.ready token && handed then
    { self with requests := self.requests ++ [.copyData] }
  else self

/-- `Requests::try_sync`. -/
def trySync (token : Token n) (handed : Bool) (self : Pipeline n φ) : Pipeline n φ :=
  if self.slot.ready token then
    match self.slot.tryFinish with
    | .error _ => self
    | .ok permit =>
      if handed then
        { self with
          slot := (permit.commit self.slot).1
          requests := self.requests ++ [.copyDoneSync] }
      else self
  else self

/-- `Shared::wake_close`, for a reconnection. -/
def reconnect (token : Token n) (cause : φ) (self : Pipeline n φ) : Pipeline n φ :=
  match self.slot.tryClose token cause .reconnect with
  | none => self
  | some (slot, _, _) => { self with slot }

/-- `Slot::egress`, whether it is open. -/
def open' (self : Pipeline n φ) : Bool :=
  match self.slot.phase with
  | .closing _ _ _ => false
  | _ => true

/-- `Requests::drain`, of so many frames. It fails for a cause when the wire rejects the next
one. -/
def drain (token : Token n) (count : ℕ) (failed : Option φ) (self : Pipeline n φ) :
    Pipeline n φ :=
  if self.slot.matches' token && self.open' then
    let drained : Pipeline n φ := { self with
      requests := self.requests.drop count
      wire := self.wire ++ self.requests.take count }
    match failed with
    | none => drained
    | some cause => drained.reconnect token cause
  else self

/-- `Requests::try_flush`, and whether it succeeds. The wire takes the Sync or not. -/
def tryFlush (token : Token n) (taken : Bool) (self : Pipeline n φ) : Pipeline n φ × Bool :=
  match self.slot.flush token with
  | none => (self, true)
  | some permit =>
    if self.requests ≠ [] then (self, true)
    else if taken then
      ({ self with slot := (permit.commit self.slot).1, wire := self.wire ++ [.sync] }, true)
    else (self, false)

/-- `Turn::try_flush`, as far as it is about Syncs. The session is ready for commands or not. -/
def flush (token : Token n) (session taken : Bool) (cause : φ) (self : Pipeline n φ) :
    Pipeline n φ :=
  if session then
    match self.tryFlush token taken with
    | (self, true) => self
    | (self, false) => self.reconnect token cause
  else self

end Pipeline

/-! ## Runs -/

/-- What happens to a connection. -/
inductive Event (φ : Type) where
  | request (boundary : Boundary) (handed : Bool)
  | copyData (handed : Bool)
  | copyFinish (handed : Bool)
  | drain (count : ℕ) (failed : Option φ)
  | flush (session taken : Bool) (cause : φ)
  | settle
  | access (access : Access)

/-- One event. -/
def Pipeline.step (token : Token n) (self : Pipeline n φ) : Event φ → Pipeline n φ
  | .request boundary handed => self.tryWith token boundary handed
  | .copyData handed => self.tryEnqueue token handed
  | .copyFinish handed => self.trySync token handed
  | .drain count failed => self.drain token count failed
  | .flush session taken cause => self.flush token session taken cause
  | .settle => { self with slot := (self.slot.settle token).1 }
  | .access access => { self with slot := (self.slot.setAccess access).getD self.slot }

/-- A run of events. -/
def Pipeline.run (token : Token n) (self : Pipeline n φ) (events : List (Event φ)) :
    Pipeline n φ :=
  events.foldl (Pipeline.step token) self

/-- A connection that has just become ready, with the replies it owes. -/
def Pipeline.start (token : Token n) (access : Access) (receiving : Bool) (batch : UInt64)
    (pending : ℕ) : Pipeline n φ :=
  ⟨⟨.ready token access receiving, .synced, batch, pending⟩, [], []⟩

/-! ## Batches -/

/-- So many open requests. -/
def opens (count : ℕ) : List Item :=
  List.replicate count (.request .open')

/-- A request with a Sync of its own that may end open requests. -/
def Closes : Boundary → Prop
  | .close | .begin | .commit => True
  | .group | .open' | .external => False

/-- The frames of a batch that is ended, but for the pieces of a COPY. -/
inductive Batch : List Item → Prop
  | group : Batch [.request .group]
  | closed (count : ℕ) {boundary : Boundary} (h : Closes boundary) :
      Batch (opens count ++ [.request boundary])
  | automatic {count : ℕ} (h : 0 < count) : Batch (opens count ++ [.sync])
  | copy : Batch [.request .external, .copyDoneSync]

/-- The frames of the batch that is not ended. -/
def Sync.rest : Sync → List Item
  | .synced => []
  | .automatic depth => opens depth.get
  | .explicit _ => [.request .external]

/-- What was sent or is queued, but for the pieces of a COPY. -/
def Pipeline.frames (self : Pipeline n φ) : List Item :=
  (self.wire ++ self.requests).filter (· ≠ .copyData)

/-- The frames are batches and a rest, which is that of the slot while it is ready. No bare Sync
is queued. -/
structure Shape (token : Token n) (conn : Pipeline n φ) : Prop where
  frames : ∃ (batches : List (List Item)) (sync : Sync),
    conn.frames = batches.flatten ++ sync.rest ∧ (∀ batch ∈ batches, Batch batch) ∧
      ∀ access receiving, conn.slot.phase = .ready token access receiving → conn.slot.sync = sync
  queued : Item.sync ∉ conn.requests

/-- A request goes on with the batch that is not ended, or ends it. -/
theorem Sync.rest_request {sync next : Sync} {boundary : Boundary}
    (h : sync.tryNext boundary = .ok next) :
    sync.rest ++ [.request boundary] = next.rest ∨
      next = .synced ∧ Batch (sync.rest ++ [.request boundary]) := by
  cases sync with
  | synced =>
    cases boundary with
    | close | begin | commit =>
      cases h
      exact .inr ⟨rfl, .closed 0 trivial⟩
    | group =>
      cases h
      exact .inr ⟨rfl, .group⟩
    | open' | external =>
      cases h
      exact .inl rfl
  | automatic depth =>
    cases boundary with
    | close | begin | commit =>
      cases h
      exact .inr ⟨rfl, .closed depth.get trivial⟩
    | group | external => cases h
    | open' =>
      rw [Sync.tryNext] at h
      rcases hsucc : depth.succ with _ | depth'
      · rw [hsucc] at h
        cases h
      · rw [hsucc] at h
        cases h
        unfold Depth.succ at hsucc
        split_ifs at hsucc
        cases hsucc
        exact .inl List.replicate_succ'.symm
  | explicit depth =>
    cases boundary with
    | close | begin | commit | group | open' | external => cases h

/-- A frame behind the others goes on with the rest or ends a batch. -/
theorem Shape.append {token : Token n} {self self' : Pipeline n φ} {item : Item}
    {sync next : Sync} (h : Shape token self)
    (hready : ∃ access receiving, self.slot.phase = .ready token access receiving)
    (hsync : self.slot.sync = sync)
    (hframes : self'.frames = self.frames ++ [item]) (hnext : self'.slot.sync = next)
    (hqueued : Item.sync ∉ self'.requests)
    (hitem : sync.rest ++ [item] = next.rest ∨ next = .synced ∧ Batch (sync.rest ++ [item])) :
    Shape token self' := by
  obtain ⟨batches, sync', heq, hbatches, hcurrent⟩ := h.frames
  obtain ⟨access, receiving, hphase⟩ := hready
  obtain rfl : sync = sync' := hsync.symm.trans (hcurrent access receiving hphase)
  refine ⟨?_, hqueued⟩
  rcases hitem with hitem | ⟨rfl, hbatch⟩
  · refine ⟨batches, next, ?_, hbatches, fun _ _ _ => hnext⟩
    rw [hframes, heq, List.append_assoc, hitem]
  · refine ⟨batches ++ [sync.rest ++ [item]], .synced, ?_, ?_, fun _ _ _ => hnext⟩
    · rw [hframes, heq, List.flatten_append, List.append_assoc]
      simp [Sync.rest]
    · intro batch hmem
      rcases List.mem_append.mp hmem with hmem | hmem
      · exact hbatches batch hmem
      · rw [List.mem_singleton.mp hmem]
        exact hbatch

/-- What leaves the frames, the Sync and the lifecycle as they are keeps the shape. -/
theorem Shape.congr {token : Token n} {self self' : Pipeline n φ} (h : Shape token self)
    (hframes : self'.frames = self.frames) (hqueued : Item.sync ∉ self'.requests)
    (hslot : ∀ access receiving, self'.slot.phase = .ready token access receiving →
      self'.slot.sync = self.slot.sync ∧
        ∃ access receiving, self.slot.phase = .ready token access receiving) :
    Shape token self' := by
  obtain ⟨batches, sync, heq, hbatches, hcurrent⟩ := h.frames
  refine ⟨⟨batches, sync, hframes.trans heq, hbatches, fun access receiving hphase => ?_⟩, hqueued⟩
  obtain ⟨hsync, access', receiving', hphase'⟩ := hslot access receiving hphase
  rw [hsync]
  exact hcurrent access' receiving' hphase'

theorem Slot.exists_ready {slot : Slot n φ} {token : Token n} :
    slot.ready token = true → ∃ access receiving, slot.phase = .ready token access receiving := by
  intro h
  unfold Slot.ready at h
  split at h
  · rename_i bound access receiving hphase
    obtain ⟨rfl, -⟩ := of_decide_eq_true h
    exact ⟨access, receiving, hphase⟩
  · cases h

/-- A connection that reconnects has nothing else changed. -/
theorem Pipeline.reconnect_spec (token : Token n) (cause : φ) (self : Pipeline n φ) :
    (self.reconnect token cause).requests = self.requests ∧
    (self.reconnect token cause).wire = self.wire ∧
    (self.reconnect token cause).slot.batch = self.slot.batch ∧
    (∀ access receiving, (self.reconnect token cause).slot.phase ≠ .ready token access receiving) ∧
    ∀ access receiving, self.slot.phase = .ready token access receiving →
      (self.reconnect token cause).slot =
        { self.slot with
          sync := .synced, pending := 0, phase := .closing token cause .reconnect } := by
  unfold reconnect Slot.tryClose
  rcases hphase : self.slot.phase with
    _ | bound | ⟨bound, access, receiving⟩ | ⟨bound, failure, old⟩
  · exact ⟨rfl, rfl, rfl, fun _ _ h => (by rw [hphase] at h; cases h), fun _ _ h => (by cases h)⟩
  · dsimp only
    by_cases hbound : bound = token
    · rw [if_pos hbound]
      exact ⟨rfl, rfl, rfl, fun _ _ h => (by cases h), fun _ _ h => (by cases h)⟩
    · rw [if_neg hbound]
      exact ⟨rfl, rfl, rfl, fun _ _ h => (by rw [hphase] at h; cases h), fun _ _ h => (by cases h)⟩
  · dsimp only
    by_cases hbound : bound = token
    · rw [if_pos hbound]
      cases access with
      | shared | reserved | held | finalizing | draining =>
        exact ⟨rfl, rfl, rfl, fun _ _ h => (by cases h), fun _ _ h => rfl⟩
    · rw [if_neg hbound]
      refine ⟨rfl, rfl, rfl, fun _ _ h => ?_, fun _ _ h => ?_⟩
      · rw [hphase] at h
        cases h
        exact hbound rfl
      · cases h
        exact absurd rfl hbound
  · dsimp only
    by_cases hbound : bound = token
    · rw [if_pos hbound]
      exact ⟨rfl, rfl, rfl, fun _ _ h => (by cases h), fun _ _ h => (by cases h)⟩
    · rw [if_neg hbound]
      exact ⟨rfl, rfl, rfl, fun _ _ h => (by rw [hphase] at h; cases h), fun _ _ h => (by cases h)⟩

theorem Slot.settle_spec (slot : Slot n φ) (token : Token n) :
    (slot.settle token).1.phase = slot.phase ∧ (slot.settle token).1.sync = slot.sync := by
  obtain ⟨phase, sync, batch, pending⟩ := slot
  unfold Slot.settle
  rcases phase with _ | bound | ⟨bound, access, receiving⟩ | ⟨bound, failure, old⟩
  · exact ⟨rfl, rfl⟩
  · exact ⟨rfl, rfl⟩
  · dsimp only
    split_ifs
    · exact ⟨rfl, rfl⟩
    · exact ⟨rfl, rfl⟩
    · exact ⟨rfl, rfl⟩
  · dsimp only
    split_ifs
    · exact ⟨rfl, rfl⟩
    · exact ⟨rfl, rfl⟩

/-- What `Requests::try_flush` comes to : nothing, a bare Sync behind everything, or a failure
that changes nothing. -/
theorem Pipeline.tryFlush_cases (token : Token n) (taken : Bool) (self : Pipeline n φ) :
    (self.tryFlush token taken = (self, true) ∧ ¬((∃ access receiving,
        self.slot.phase = .ready token access receiving) ∧
      (∃ depth, self.slot.sync = .automatic depth) ∧ self.requests = [])) ∨
    ((∃ access receiving, self.slot.phase = .ready token access receiving) ∧
      (∃ depth, self.slot.sync = .automatic depth) ∧ self.requests = [] ∧
      self.tryFlush token taken =
        if taken then
          ({ self with
              slot := { self.slot with
                sync := .synced, batch := self.slot.batch + 1, pending := self.slot.pending + 1 }
              wire := self.wire ++ [.sync] }, true)
        else (self, false)) := by
  unfold tryFlush Slot.flush
  rcases hphase : self.slot.phase with
    _ | bound | ⟨bound, access, receiving⟩ | ⟨bound, failure, old⟩
  · exact .inl ⟨rfl, fun ⟨⟨_, _, h⟩, _⟩ => (by cases h)⟩
  · exact .inl ⟨rfl, fun ⟨⟨_, _, h⟩, _⟩ => (by cases h)⟩
  · rcases hsync : self.slot.sync with _ | depth | depth
    · exact .inl ⟨rfl, fun ⟨_, ⟨_, h⟩, _⟩ => (by cases h)⟩
    · dsimp only
      by_cases hbound : bound = token
      · subst hbound
        rw [if_pos rfl]
        dsimp only
        by_cases hempty : self.requests = []
        · refine .inr ⟨⟨access, receiving, rfl⟩, ⟨depth, rfl⟩, hempty, ?_⟩
          rw [if_neg (not_not.mpr hempty)]
          rfl
        · rw [if_pos hempty]
          exact .inl ⟨rfl, fun ⟨_, _, h⟩ => hempty h⟩
      · rw [if_neg hbound]
        refine .inl ⟨rfl, fun ⟨⟨_, _, h⟩, _⟩ => ?_⟩
        cases h
        exact hbound rfl
    · exact .inl ⟨rfl, fun ⟨_, ⟨_, h⟩, _⟩ => (by cases h)⟩
  · exact .inl ⟨rfl, fun ⟨⟨_, _, h⟩, _⟩ => (by cases h)⟩

theorem Pipeline.frames_append (self : Pipeline n φ) (slot : Slot n φ) {item : Item}
    (h : item ≠ .copyData) :
    Pipeline.frames { self with slot, requests := self.requests ++ [item] } =
      self.frames ++ [item] := by
  unfold frames
  rw [← List.append_assoc, List.filter_append]
  simp [h]

theorem sync_notMem_append {requests : List Item} {item : Item} (h : Item.sync ∉ requests)
    (hitem : item ≠ .sync) : Item.sync ∉ requests ++ [item] := by
  intro hmem
  rcases List.mem_append.mp hmem with hmem | hmem
  · exact h hmem
  · exact hitem (List.mem_singleton.mp hmem).symm

theorem Permit.commit_sync (permit : Permit) (slot : Slot n φ) :
    (permit.commit slot).1.sync = permit.next ∧ (permit.commit slot).1.phase = slot.phase := by
  unfold Permit.commit
  cases permit.boundary with
  | close | begin | commit | group | open' | external => exact ⟨rfl, rfl⟩

section

variable {token : Token n} {self : Pipeline n φ}

theorem Shape.reconnect (h : Shape token self) (cause : φ) :
    Shape token (self.reconnect token cause) := by
  obtain ⟨hrequests, hwire, -, hphase, -⟩ := self.reconnect_spec token cause
  refine h.congr ?_ (hrequests ▸ h.queued) fun access receiving h' => absurd h' (hphase _ _)
  rw [Pipeline.frames, hwire, hrequests]
  rfl

theorem Shape.tryWith (h : Shape token self) (boundary : Boundary) (handed : Bool) :
    Shape token (self.tryWith token boundary handed) := by
  unfold Pipeline.tryWith
  by_cases hready : self.slot.ready token = true
  · rw [if_pos hready]
    rcases hreply : self.slot.tryReply boundary with _ | permit
    · exact h
    obtain ⟨next, hnext, hpermit⟩ := bind_eq_ok.mp hreply
    cases hpermit
    cases handed
    · exact h
    · exact h.append (Slot.exists_ready hready) rfl (self.frames_append _ (by simp))
        (Permit.commit_sync _ _).1 (sync_notMem_append h.queued (by simp)) (Sync.rest_request hnext)
  · rw [if_neg hready]
    exact h

theorem Shape.tryEnqueue (h : Shape token self) (handed : Bool) :
    Shape token (self.tryEnqueue token handed) := by
  unfold Pipeline.tryEnqueue
  split_ifs
  · refine h.congr ?_ (sync_notMem_append h.queued (by simp)) fun access receiving h' =>
      ⟨rfl, access, receiving, h'⟩
    unfold Pipeline.frames
    rw [← List.append_assoc, List.filter_append]
    simp
  · exact h

theorem Shape.trySync (h : Shape token self) (handed : Bool) :
    Shape token (self.trySync token handed) := by
  unfold Pipeline.trySync
  by_cases hready : self.slot.ready token = true
  · rw [if_pos hready]
    unfold Slot.tryFinish
    rcases hsync : self.slot.sync with _ | depth | depth
    · exact h
    · exact h
    · cases handed
      · exact h
      · exact h.append (Slot.exists_ready hready) hsync (self.frames_append _ (by simp))
          (Permit.commit_sync _ _).1 (sync_notMem_append h.queued (by simp)) (.inr ⟨rfl, .copy⟩)
  · rw [if_neg hready]
    exact h

theorem Shape.drain (h : Shape token self) (count : ℕ) (failed : Option φ) :
    Shape token (self.drain token count failed) := by
  unfold Pipeline.drain
  split_ifs
  · have hdrained : Shape token ({ self with
        requests := self.requests.drop count
        wire := self.wire ++ self.requests.take count } : Pipeline n φ) := by
      refine h.congr ?_ (fun hmem => h.queued (List.mem_of_mem_drop hmem))
        fun access receiving h' => ⟨rfl, access, receiving, h'⟩
      unfold Pipeline.frames
      rw [List.append_assoc, List.take_append_drop]
    rcases failed with _ | cause
    · exact hdrained
    · exact hdrained.reconnect cause
  · exact h

theorem Shape.flush (h : Shape token self) (session taken : Bool) (cause : φ) :
    Shape token (self.flush token session taken cause) := by
  unfold Pipeline.flush
  split_ifs
  · rcases self.tryFlush_cases token taken with
      ⟨hflush, -⟩ | ⟨hready, ⟨depth, hsync⟩, hempty, hflush⟩
    · rw [hflush]
      exact h
    · rw [hflush]
      cases taken
      · exact h.reconnect cause
      · refine h.append hready hsync ?_ rfl h.queued (.inr ⟨rfl, .automatic depth.pos⟩)
        change ((self.wire ++ [Item.sync]) ++ self.requests).filter _ = _
        rw [Pipeline.frames, hempty, List.append_nil, List.append_nil, List.filter_append]
        rfl
  · exact h

/-- An event keeps the shape. -/
theorem Shape.step (h : Shape token self) (event : Event φ) :
    Shape token (self.step token event) := by
  cases event with
  | request boundary handed => exact h.tryWith boundary handed
  | copyData handed => exact h.tryEnqueue handed
  | copyFinish handed => exact h.trySync handed
  | drain count failed => exact h.drain count failed
  | flush session taken cause => exact h.flush session taken cause
  | settle =>
    obtain ⟨hphase, hsync⟩ := self.slot.settle_spec token
    exact h.congr rfl h.queued fun access receiving h' =>
      ⟨hsync, access, receiving, hphase.symm.trans h'⟩
  | access access =>
    refine h.congr rfl h.queued fun access' receiving h' => ?_
    change ((self.slot.setAccess access).getD self.slot).phase = _ at h'
    change ((self.slot.setAccess access).getD self.slot).sync = _ ∧ _
    unfold Slot.setAccess at h' ⊢
    rcases hphase : self.slot.phase with
      _ | bound | ⟨bound, old, receiving'⟩ | ⟨bound, failure, fate⟩
    · rw [hphase] at h'
      exact absurd (hphase.symm.trans h') (by simp)
    · rw [hphase] at h'
      exact absurd (hphase.symm.trans h') (by simp)
    · rw [hphase] at h'
      cases h'
      exact ⟨rfl, old, receiving, rfl⟩
    · rw [hphase] at h'
      exact absurd (hphase.symm.trans h') (by simp)

end

theorem Shape.start (token : Token n) (access : Access) (receiving : Bool) (batch : UInt64)
    (pending : ℕ) :
    Shape token (Pipeline.start (φ := φ) token access receiving batch pending) :=
  ⟨⟨[], .synced, rfl, fun _ h => absurd h List.not_mem_nil, fun _ _ _ => rfl⟩, List.not_mem_nil⟩

theorem Shape.run {token : Token n} {self : Pipeline n φ} (h : Shape token self)
    (events : List (Event φ)) : Shape token (self.run token events) := by
  induction events generalizing self with
  | nil => exact h
  | cons event events ih => exact ih (h.step event)

/-! ## Bare Syncs -/

/-- What an event puts on the wire : queued frames, or a bare Sync of a flush when no request is
queued. -/
theorem Pipeline.step_wire {token : Token n} {self : Pipeline n φ} (h : Item.sync ∉ self.requests)
    (event : Event φ) : ∃ added, (self.step token event).wire = self.wire ++ added ∧
      (Item.sync ∈ added → added = [.sync] ∧ (∃ cause, event = .flush true true cause) ∧
        (∃ access receiving, self.slot.phase = .ready token access receiving) ∧
        (∃ depth, self.slot.sync = .automatic depth) ∧ self.requests = []) := by
  have hnone : ∀ self' : Pipeline n φ, self'.wire = self.wire →
      ∃ added, self'.wire = self.wire ++ added ∧
      (Item.sync ∈ added → added = [.sync] ∧ (∃ cause, event = .flush true true cause) ∧
        (∃ access receiving, self.slot.phase = .ready token access receiving) ∧
        (∃ depth, self.slot.sync = .automatic depth) ∧ self.requests = []) := by
    intro self' hwire
    exact ⟨[], by rw [hwire, List.append_nil], fun hmem => absurd hmem List.not_mem_nil⟩
  cases event with
  | request boundary handed =>
    refine hnone _ ?_
    change (self.tryWith token boundary handed).wire = _
    unfold tryWith
    rcases self.slot.ready token with _ | _
    · rfl
    · rcases self.slot.tryReply boundary with _ | permit
      · rfl
      · cases handed
        · rfl
        · rfl
  | copyData handed =>
    refine hnone _ ?_
    change (self.tryEnqueue token handed).wire = _
    unfold tryEnqueue
    split_ifs
    · rfl
    · rfl
  | copyFinish handed =>
    refine hnone _ ?_
    change (self.trySync token handed).wire = _
    unfold trySync
    rcases self.slot.ready token with _ | _
    · rfl
    · rcases self.slot.tryFinish with _ | permit
      · rfl
      · cases handed
        · rfl
        · rfl
  | drain count failed =>
    change ∃ added, (self.drain token count failed).wire = _ ∧ _
    unfold drain
    rcases self.slot.matches' token && self.open' with _ | _
    · exact hnone self rfl
    · have htaken : Item.sync ∉ self.requests.take count := fun hmem =>
        h (List.mem_of_mem_take hmem)
      refine ⟨self.requests.take count, ?_, fun hmem => absurd hmem htaken⟩
      rcases failed with _ | cause
      · rfl
      · exact (reconnect_spec token cause _).2.1
  | flush session taken cause =>
    change ∃ added, (self.flush token session taken cause).wire = _ ∧ _
    unfold flush
    rcases session with _ | _
    · exact hnone self rfl
    · rcases self.tryFlush_cases token taken with ⟨hflush, -⟩ | ⟨hready, hsync, hempty, hflush⟩
      · rw [hflush]
        exact hnone self rfl
      · rw [hflush]
        cases taken
        · exact hnone _ (reconnect_spec token cause self).2.1
        · exact ⟨[.sync], rfl, fun _ => ⟨rfl, ⟨cause, rfl⟩, hready, hsync, hempty⟩⟩
  | settle => exact hnone _ rfl
  | access access => exact hnone _ rfl

/-- In a run the frames are whole batches and the open requests of one that is not ended : a batch
of open requests is ended by one request with a Sync or by one bare Sync, behind all of them. A
bare Sync is only put on the wire by a flush of an automatic Sync when no request is queued. When
the wire does not take it, the flush changes nothing, and the connection is closed for a
reconnection. -/
theorem Pipeline.run_batches (token : Token n) (access : Access) (receiving : Bool) (batch : UInt64)
    (pending : ℕ) (events : List (Event φ)) :
    let self := (start token access receiving batch pending).run token events
    (∃ (batches : List (List Item)) (sync : Sync),
      self.frames = batches.flatten ++ sync.rest ∧ (∀ batch ∈ batches, Batch batch) ∧
        ∀ access receiving, self.slot.phase = .ready token access receiving →
          self.slot.sync = sync) ∧
    (∀ event, ∃ added, (self.step token event).wire = self.wire ++ added ∧
      (Item.sync ∈ added → added = [.sync] ∧ (∃ cause, event = .flush true true cause) ∧
        (∃ access receiving, self.slot.phase = .ready token access receiving) ∧
        (∃ depth, self.slot.sync = .automatic depth) ∧ self.requests = [])) ∧
    ∀ cause access receiving depth, self.slot.phase = .ready token access receiving →
      self.slot.sync = .automatic depth → self.requests = [] →
        (self.step token (.flush true true cause)).wire = self.wire ++ [.sync] ∧
        (self.step token (.flush true true cause)).slot = { self.slot with
          sync := .synced, batch := self.slot.batch + 1, pending := self.slot.pending + 1 } ∧
        self.tryFlush token false = (self, false) ∧
        self.step token (.flush true false cause) = { self with
          slot := { self.slot with
            sync := .synced, pending := 0, phase := .closing token cause .reconnect } } := by
  intro self
  have hshape : Shape token self := (Shape.start token access receiving batch pending).run events
  refine ⟨hshape.frames, fun event => step_wire hshape.queued event, ?_⟩
  intro cause access receiving depth hphase hsync hempty
  have hflush : ∀ taken, self.tryFlush token taken = if taken then
      ({ self with
          slot := { self.slot with
            sync := .synced, batch := self.slot.batch + 1, pending := self.slot.pending + 1 }
          wire := self.wire ++ [.sync] }, true)
      else (self, false) := by
    intro taken
    rcases self.tryFlush_cases token taken with ⟨-, hnot⟩ | ⟨-, -, -, hflush⟩
    · exact absurd ⟨⟨access, receiving, hphase⟩, ⟨depth, hsync⟩, hempty⟩ hnot
    · exact hflush
  have htaken : self.step token (.flush true true cause) = _ :=
    congrArg (fun result => match result with
      | (self, true) => self
      | (self, false) => Pipeline.reconnect token cause self) (hflush true)
  have hrefused : self.step token (.flush true false cause) = self.reconnect token cause :=
    congrArg (fun result => match result with
      | (self, true) => self
      | (self, false) => Pipeline.reconnect token cause self) (hflush false)
  obtain ⟨hrequests, hwire, -, -, hslot⟩ := self.reconnect_spec token cause
  rw [htaken, hrefused]
  refine ⟨rfl, rfl, hflush false, ?_⟩
  rw [← hslot access receiving hphase, ← hrequests, ← hwire]

/-- Two open requests, drained and flushed. -/
theorem Pipeline.run_flushed :
    let self : Pipeline 1 Unit := (start ⟨0, 0⟩ (.shared .initial) false 4 1).run ⟨0, 0⟩
      [.request .open' true, .request .open' true, .drain 2 none]
    (self.step ⟨0, 0⟩ (.flush true true ())).wire =
      [.request .open', .request .open', .sync] := by
  have h := (run_batches (φ := Unit) (⟨0, 0⟩ : Token 1) (.shared .initial) false 4 1
    [.request .open' true, .request .open' true, .drain 2 none]).2.2 () (.shared .initial) false
    ⟨2, Nat.two_pos, of_decide_eq_true rfl⟩ rfl rfl rfl
  exact h.1

/-- A flush that the wire does not take ends with a closed connection, whose Sync is reset. -/
theorem Pipeline.flush_refused :
    let before : Pipeline 1 Unit := (start ⟨0, 0⟩ (.shared .initial) false 4 1).run ⟨0, 0⟩
      [.request .open' true, .drain 1 none]
    let after := before.step ⟨0, 0⟩ (.flush true false ())
    before.slot.sync = .automatic .one ∧ after.slot.sync = .synced ∧
      before.slot.pending = 1 ∧ after.slot.pending = 0 :=
  ⟨rfl, rfl, rfl, rfl⟩

end Cartel.Pg.Pool
