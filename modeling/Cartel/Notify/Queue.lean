import Mathlib.Data.List.Infix
import Mathlib.Data.PNat.Basic
import Mathlib.Tactic.Common

/-!
# The queue of notices

Notifications wait in a ring of fixed capacity whose retained bytes are accounted for. A push
first takes notices from the front until the bytes of the new one are free, then one more if
the ring is full, and counts each one it takes. The front is removed without a check that there
is one : such a removal of nothing has no result here, and there is none
(`Buffer.tryPush_spec`).

What stays is the longest suffix that fits both limits (`Longest`), of the notices that were in
the queue and the new one. A notice that was taken away does not come back when others are
popped (`Reached.taken`). Wakes are left out, and so is what an allocation error carries.
-/

namespace Cartel.Pg.Notify

/-! ## Notices -/

/-- `raw::Fields` : the channel and the payload of a notification. -/
structure Fields where
  channel : List UInt8
  payload : List UInt8
  fits : channel.length + payload.length < UInt32.size

/-- `Fields::retained_len`. -/
def Fields.retainedLen (fields : Fields) : ℕ :=
  fields.channel.length + fields.payload.length

/-- `reply::Notice`. -/
structure Notice where
  text : List UInt8
  cut : ℕ
  pid : UInt32
  deriving DecidableEq

/-- `copy::Error`. -/
inductive CopyError where
  | budget
  | allocation

/-- `Notice::try_new`. Nothing is copied for a notice without bytes. -/
def Notice.tryNew (copy : Except CopyError Unit) (fields : Fields) (pid : UInt32) :
    Except CopyError Notice :=
  if fields.retainedLen = 0 then .ok ⟨[], fields.channel.length, pid⟩
  else copy.map fun _ => ⟨fields.channel ++ fields.payload, fields.channel.length, pid⟩

/-- `Notice::bytes`. -/
def Notice.bytes (notice : Notice) : ℕ :=
  notice.text.length

theorem Notice.bytes_tryNew {copy : Except CopyError Unit} {fields : Fields} {pid : UInt32}
    {notice : Notice} (h : tryNew copy fields pid = .ok notice) :
    notice.bytes = fields.retainedLen := by
  unfold tryNew at h
  split_ifs at h with hzero
  · cases h
    exact hzero.symm
  · cases copy with
    | error error => cases h
    | ok _ =>
      cases h
      exact List.length_append

/-! ## The buffer -/

/-- `crate::Error`, as far as a push causes it. -/
inductive Error where
  | notificationDropOverflow
  | storageExhausted
  deriving DecidableEq

/-- `Buffer`, with the fixed capacity of its ring. -/
structure Buffer where
  queue : List Notice
  items : ℕ+
  free : ℕ

/-- What a push leaves, and its result. -/
structure Pushed where
  buffer : Buffer
  dropped : UInt64
  result : Except Error Unit

/-- `Buffer::try_drop`. -/
def tryDrop (dropped : UInt64) : Except Error UInt64 :=
  if dropped.toNat + 1 < UInt64.size then .ok (dropped + 1) else .error .notificationDropOverflow

namespace Buffer

/-- `Buffer::try_new`. -/
def new (items : ℕ+) (bytes : ℕ) : Buffer :=
  ⟨[], items, bytes⟩

/-- `Buffer::pop`. -/
def pop (self : Buffer) : Buffer × Option Notice :=
  match self.queue with
  | [] => (self, none)
  | notice :: queue => ({ self with queue, free := self.free + notice.bytes }, some notice)

/-- The loop of `Buffer::try_push`, of a buffer with this queue. -/
def evict (bytes : ℕ) (items : ℕ+) : List Notice → ℕ → UInt64 → Option Pushed
  | [], free, dropped =>
    if free < bytes then none else some ⟨⟨[], items, free⟩, dropped, .ok ()⟩
  | prior :: queue, free, dropped =>
    if free < bytes then
      match tryDrop dropped with
      | .error error => some ⟨⟨queue, items, free + prior.bytes⟩, dropped, .error error⟩
      | .ok dropped => evict bytes items queue (free + prior.bytes) dropped
    else some ⟨⟨prior :: queue, items, free⟩, dropped, .ok ()⟩

/-- `Entry::push_back`, of a vacancy. -/
def pushBack (notice : Notice) (self : Buffer) : Buffer :=
  { self with queue := self.queue ++ [notice], free := self.free - notice.bytes }

/-- `Buffer::try_push`. -/
def tryPush (notice : Notice) (dropped : UInt64) (self : Buffer) : Option Pushed := do
  let evicted ← evict notice.bytes self.items self.queue self.free dropped
  match evicted.result with
  | .error _ => return evicted
  | .ok _ =>
    let buffer := evicted.buffer
    if buffer.queue.length < buffer.items then
      return { evicted with buffer := buffer.pushBack notice }
    else
      match buffer.queue with
      | [] => none
      | prior :: queue =>
        let buffer := { buffer with queue, free := buffer.free + prior.bytes }
        match tryDrop evicted.dropped with
        | .error error => return ⟨buffer, evicted.dropped, .error error⟩
        | .ok dropped => return ⟨buffer.pushBack notice, dropped, .ok ()⟩

end Buffer

/-! ## The queue -/

/-- `Queue`. -/
structure Queue where
  buffer : Buffer
  capacity : ℕ
  dropped : UInt64

namespace Queue

/-- `Queue::try_new`. -/
def new (items : ℕ+) (bytes : ℕ) : Queue :=
  ⟨.new items bytes, bytes, 0⟩

/-- `Queue::pop`. -/
def pop (self : Queue) : Queue × Option Notice :=
  ({ self with buffer := self.buffer.pop.1 }, self.buffer.pop.2)

/-- `Queue::try_reject`. -/
def tryReject (self : Queue) : Queue × Except Error Unit :=
  match tryDrop self.dropped with
  | .error error => (self, .error error)
  | .ok dropped => ({ self with dropped }, .ok ())

/-- `Queue::try_push`. -/
def tryPush (copy : Except CopyError Unit) (fields : Fields) (pid : UInt32) (self : Queue) :
    Option (Queue × Except Error Unit) :=
  if self.capacity < fields.retainedLen then some self.tryReject
  else
    match Notice.tryNew copy fields pid with
    | .error error =>
      match self.tryReject with
      | (self, .error error) => some (self, .error error)
      | (self, .ok _) =>
        match error with
        | .budget => some (self, .ok ())
        | .allocation => some (self, .error .storageExhausted)
    | .ok notice => do
      let pushed ← self.buffer.tryPush notice self.dropped
      return ({ self with buffer := pushed.buffer, dropped := pushed.dropped }, pushed.result)

end Queue

/-! ## What stays -/

/-- The bytes of notices. -/
def total (notices : List Notice) : ℕ :=
  (notices.map Notice.bytes).sum

@[simp] theorem total_nil : total [] = 0 := rfl

@[simp] theorem total_cons (notice : Notice) (notices : List Notice) :
    total (notice :: notices) = notice.bytes + total notices :=
  rfl

@[simp] theorem total_append (xs ys : List Notice) : total (xs ++ ys) = total xs + total ys := by
  rw [total, List.map_append, List.sum_append]
  rfl

/-- The notices respect both limits. -/
def Fits (items bytes : ℕ) (notices : List Notice) : Prop :=
  notices.length ≤ items ∧ total notices ≤ bytes

/-- The longest suffix that respects both limits. -/
structure Longest (items bytes : ℕ) (notices kept : List Notice) : Prop where
  suffix : kept <:+ notices
  fits : Fits items bytes kept
  longest : ∀ other, other <:+ notices → Fits items bytes other → other.length ≤ kept.length

/-- A suffix is the longest one if one more notice is too many. -/
theorem Longest.intro {items bytes : ℕ} {taken kept : List Notice}
    (hfits : Fits items bytes kept)
    (hnext : ∀ front last, taken = front ++ [last] → ¬Fits items bytes (last :: kept)) :
    Longest items bytes (taken ++ kept) kept := by
  refine ⟨List.suffix_append taken kept, hfits, fun other hother hother' => ?_⟩
  by_contra hlt
  rw [not_le] at hlt
  have hsuffix : kept <:+ other :=
    List.suffix_of_suffix_length_le (List.suffix_append taken kept) hother hlt.le
  obtain ⟨more, rfl⟩ := hsuffix
  obtain ⟨front, htaken⟩ := hother
  rw [← List.append_assoc, List.append_cancel_right_eq] at htaken
  have hmore : more ≠ [] := by
    rintro rfl
    exact absurd hlt (lt_irrefl _)
  obtain ⟨less, last, rfl⟩ := List.eq_nil_or_concat more |>.resolve_left hmore
  refine hnext (front ++ less) last ?_ ⟨?_, ?_⟩
  · rw [← htaken, List.concat_eq_append, List.append_assoc]
  · refine le_trans ?_ hother'.1
    simp
  · refine le_trans ?_ hother'.2
    simp

theorem tryDrop_eq_ok {dropped dropped' : UInt64} (h : tryDrop dropped = .ok dropped') :
    dropped'.toNat = dropped.toNat + 1 := by
  unfold tryDrop at h
  split_ifs at h with hlt
  cases h
  rw [UInt64.toNat_add]
  exact Nat.mod_eq_of_lt hlt

theorem tryDrop_eq_error {dropped : UInt64} {error : Error} (h : tryDrop dropped = .error error) :
    error = .notificationDropOverflow ∧ dropped.toNat + 1 = UInt64.size := by
  unfold tryDrop at h
  split_ifs at h with hlt
  cases h
  have hmax := dropped.toNat_lt
  exact ⟨rfl, le_antisymm hmax (not_lt.mp hlt)⟩

/-- What a push makes of the notices `queue` : those it takes from the front are counted, and if
the counter cannot count one more, it fails with that one taken. -/
structure Takes (queue : List Notice) (dropped : UInt64) (pushed : Pushed)
    (taken kept : List Notice) : Prop where
  split : queue = taken ++ kept
  counted : pushed.result = .ok () → pushed.dropped.toNat = dropped.toNat + taken.length
  overflow : ∀ error, pushed.result = .error error → error = .notificationDropOverflow ∧
    pushed.dropped.toNat + 1 = dropped.toNat + taken.length ∧
      pushed.dropped.toNat + 1 = UInt64.size

namespace Buffer

/-- The loop stops as soon as the bytes are free. -/
theorem evict_spec (bytes : ℕ) (items : ℕ+) : ∀ (queue : List Notice) (free : ℕ)
    (dropped : UInt64), bytes ≤ free + total queue → ∃ pushed taken,
      evict bytes items queue free dropped = some pushed ∧ pushed.buffer.items = items ∧
        pushed.buffer.free = free + total taken ∧
        Takes queue dropped pushed taken pushed.buffer.queue ∧
        (pushed.result = .ok () → bytes ≤ pushed.buffer.free) ∧
        ∀ front last, taken = front ++ [last] → free + total front < bytes
  | [], free, dropped, hroom => by
    have hfree : ¬free < bytes := not_lt.mpr hroom
    refine ⟨_, [], by rw [evict, if_neg hfree], rfl, rfl, ⟨rfl, fun _ => rfl, fun _ h => ?_⟩,
      fun _ => hroom, fun front last h => ?_⟩
    · cases h
    · simp at h
  | prior :: queue, free, dropped, hroom => by
    by_cases hfree : free < bytes
    · have hfirst : ∀ {taken : List Notice}, (∀ front last, taken = front ++ [last] →
          free + prior.bytes + total front < bytes) → ∀ front last,
            prior :: taken = front ++ [last] → free + total front < bytes := by
        rintro taken htaken (_ | ⟨first, front⟩) last h
        · exact hfree
        · obtain ⟨rfl, rfl⟩ := List.cons.inj h
          have := htaken front last rfl
          rw [total_cons]
          omega
      rw [evict, if_pos hfree]
      rcases hdrop : tryDrop dropped with error | counted
      · obtain ⟨rfl, hmax⟩ := tryDrop_eq_error hdrop
        refine ⟨_, [prior], rfl, rfl, rfl, ⟨rfl, fun h => ?_, fun error h => ?_⟩, fun h => ?_,
          hfirst fun front last h => ?_⟩
        · cases h
        · cases h
          exact ⟨rfl, rfl, hmax⟩
        · cases h
        · simp at h
      · rw [total_cons, ← Nat.add_assoc] at hroom
        obtain ⟨pushed, taken, hpushed, hitems, hfree', htakes, hok, hlast⟩ :=
          evict_spec bytes items queue (free + prior.bytes) counted hroom
        have hcount := tryDrop_eq_ok hdrop
        refine ⟨pushed, prior :: taken, hpushed, hitems, ?_, ⟨?_, fun h => ?_, fun error h => ?_⟩,
          hok, hfirst hlast⟩
        · rw [hfree', total_cons, Nat.add_assoc]
        · rw [htakes.split]
          rfl
        · rw [htakes.counted h, hcount, List.length_cons]
          omega
        · obtain ⟨herror, hnext, hmax⟩ := htakes.overflow error h
          refine ⟨herror, ?_, hmax⟩
          rw [hnext, hcount, List.length_cons]
          omega
    · refine ⟨_, [], by rw [evict, if_neg hfree], rfl, rfl, ⟨rfl, fun _ => rfl, fun _ h => ?_⟩,
        fun _ => not_lt.mp hfree, fun front last h => ?_⟩
      · cases h
      · simp at h

/-- The account is exact, and the ring holds no more than it can. -/
structure Inv (bytes : ℕ) (buffer : Buffer) : Prop where
  account : buffer.free + total buffer.queue = bytes
  room : buffer.queue.length ≤ buffer.items

/-- A push that fits the account has a result and keeps it exact. Without an overflow of the
counter the longest suffix that fits stays, with the new notice at its end. -/
theorem tryPush_spec {bytes : ℕ} {buffer : Buffer} {notice : Notice} (h : buffer.Inv bytes)
    (hbytes : notice.bytes ≤ bytes) (dropped : UInt64) : ∃ pushed taken kept,
      buffer.tryPush notice dropped = some pushed ∧ pushed.buffer.items = buffer.items ∧
        pushed.buffer.Inv bytes ∧ Takes buffer.queue dropped pushed taken kept ∧
        (∀ error, pushed.result = .error error → pushed.buffer.queue = kept) ∧
        (pushed.result = .ok () → pushed.buffer.queue = kept ++ [notice] ∧
          Longest buffer.items bytes (buffer.queue ++ [notice]) (kept ++ [notice])) := by
  obtain ⟨haccount, hroom⟩ := h
  obtain ⟨evicted, taken, hevict, hitems, hfree, htakes, hok, hlast⟩ :=
    evict_spec notice.bytes buffer.items buffer.queue buffer.free dropped
      (hbytes.trans haccount.ge)
  have hsplit := htakes.split
  have htotal : evicted.buffer.free + total evicted.buffer.queue = bytes := by
    rw [hfree, ← haccount, hsplit, total_append, Nat.add_assoc]
  have hlength : evicted.buffer.queue.length ≤ buffer.items := by
    rw [hsplit, List.length_append] at hroom
    omega
  unfold tryPush
  rw [hevict]
  change ∃ pushed taken kept, (match evicted.result with
    | .error _ => some evicted
    | .ok _ => _) = some pushed ∧ _
  rcases hresult : evicted.result with error | _
  · refine ⟨evicted, taken, _, rfl, hitems, ⟨htotal, hitems ▸ hlength⟩, htakes,
      fun _ _ => rfl, fun h => ?_⟩
    rw [hresult] at h
    cases h
  have hcount := htakes.counted hresult
  have henough := hok hresult
  dsimp only
  by_cases hvacant : evicted.buffer.queue.length < evicted.buffer.items
  · rw [if_pos hvacant]
    refine ⟨_, taken, evicted.buffer.queue, rfl, hitems, ⟨?_, ?_⟩,
      ⟨hsplit, fun _ => hcount, fun _ h => ?_⟩, fun _ h => ?_, fun _ => ⟨rfl, ?_⟩⟩
    · dsimp only [pushBack]
      rw [total_append, total_cons, total_nil]
      omega
    · dsimp only [pushBack]
      rw [List.length_append, List.length_singleton]
      omega
    · cases h
    · cases h
    · rw [hsplit, List.append_assoc]
      refine .intro ⟨?_, ?_⟩ fun front last htaken hfits => ?_
      · rw [List.length_append, List.length_singleton, ← hitems]
        exact hvacant
      · rw [total_append, total_cons, total_nil]
        omega
      · -- the last notice taken was taken for want of bytes
        have hless := hlast front last htaken
        have hfit := hfits.2
        rw [htaken, total_append, total_cons, total_nil] at hfree
        rw [total_cons, total_append, total_cons, total_nil] at hfit
        omega
  · rw [if_neg hvacant]
    rcases hqueue : evicted.buffer.queue with _ | ⟨prior, queue⟩
    · rw [hqueue] at hvacant
      exact absurd evicted.buffer.items.pos hvacant
    rw [hqueue, total_cons] at htotal
    rw [hqueue, List.length_cons] at hlength
    rw [hqueue, List.length_cons, hitems] at hvacant
    have hsplit' : buffer.queue = (taken ++ [prior]) ++ queue := by
      rw [hsplit, hqueue, List.append_assoc]
      rfl
    dsimp only
    rcases hdrop : tryDrop evicted.dropped with error | counted
    · obtain ⟨rfl, hmax⟩ := tryDrop_eq_error hdrop
      refine ⟨_, taken ++ [prior], queue, rfl, hitems, ⟨?_, ?_⟩,
        ⟨hsplit', fun h => ?_, fun error h => ?_⟩, fun _ _ => rfl, fun h => ?_⟩
      · dsimp only
        omega
      · dsimp only
        rw [hitems]
        omega
      · cases h
      · cases h
        refine ⟨rfl, ?_, hmax⟩
        rw [hcount, List.length_append, List.length_singleton]
        omega
      · cases h
    · have hcount' := tryDrop_eq_ok hdrop
      refine ⟨_, taken ++ [prior], queue, rfl, hitems, ⟨?_, ?_⟩,
        ⟨hsplit', fun _ => ?_, fun _ h => ?_⟩, fun _ h => ?_, fun _ => ⟨rfl, ?_⟩⟩
      · dsimp only [pushBack]
        rw [total_append, total_cons, total_nil]
        omega
      · dsimp only [pushBack]
        rw [List.length_append, List.length_singleton, hitems]
        exact hlength
      · dsimp only
        rw [hcount', hcount, List.length_append, List.length_singleton]
        omega
      · cases h
      · cases h
      · rw [hsplit', List.append_assoc]
        refine .intro ⟨?_, ?_⟩ fun front last htaken hfits => ?_
        · rw [List.length_append, List.length_singleton]
          exact hlength
        · rw [total_append, total_cons, total_nil]
          omega
        · -- one more notice would be one more than the ring holds
          have hfit := hfits.1
          rw [List.length_cons, List.length_append, List.length_singleton] at hfit
          omega

end Buffer

/-! ## Runs -/

/-- A queue with the notices that were pushed and popped. -/
structure World where
  queue : Queue
  pushed : List Notice
  popped : List Notice

/-- The notice that a push admits to the queue. -/
def Queue.admitted (copy : Except CopyError Unit) (fields : Fields) (pid : UInt32) (self : Queue) :
    Except CopyError (Option Notice) :=
  if self.capacity < fields.retainedLen then .ok none
  else (Notice.tryNew copy fields pid).map some

namespace World

/-- A notice is pushed. -/
def push (copy : Except CopyError Unit) (fields : Fields) (pid : UInt32) (self : World) :
    Option World := do
  let (queue, result) ← self.queue.tryPush copy fields pid
  match result, self.queue.admitted copy fields pid with
  | .ok _, .ok (some notice) => return { self with queue, pushed := self.pushed ++ [notice] }
  | _, _ => return { self with queue }

/-- A notice is popped, if there is one. -/
def pop (self : World) : World :=
  { self with queue := self.queue.pop.1, popped := self.popped ++ self.queue.pop.2.toList }

end World

/-- The worlds of a queue with these limits. -/
inductive Reached (items : ℕ+) (bytes : ℕ) : World → Prop where
  | new : Reached items bytes ⟨.new items bytes, [], []⟩
  | push {world world' : World} (copy : Except CopyError Unit) (fields : Fields) (pid : UInt32)
      (h : Reached items bytes world) (hpush : world.push copy fields pid = some world') :
      Reached items bytes world'
  | pop {world : World} (h : Reached items bytes world) : Reached items bytes world.pop

variable {items : ℕ+} {bytes : ℕ} {world world' : World}

/-- The limits are those of the queue, its account is exact, and what was popped and what is
queued was pushed, in this order. -/
structure World.Inv (items : ℕ+) (bytes : ℕ) (world : World) : Prop where
  items : world.queue.buffer.items = items
  capacity : world.queue.capacity = bytes
  buffer : world.queue.buffer.Inv bytes
  order : (world.popped ++ world.queue.buffer.queue).Sublist world.pushed

/-- A notice that is rejected is counted, and changes nothing else. -/
def Queue.Rejects (queue queue' : Queue) (result : Except Error Unit) : Prop :=
  queue'.buffer = queue.buffer ∧ queue'.capacity = queue.capacity ∧
    (queue'.dropped.toNat = queue.dropped.toNat + 1 ∨
      queue'.dropped = queue.dropped ∧ queue.dropped.toNat + 1 = UInt64.size ∧
        result = .error .notificationDropOverflow)

/-- A notice that is admitted is queued behind the longest suffix that leaves room for it, and what
it takes from the front is counted. If one cannot be counted, the push fails. -/
def Queue.Admits (items bytes : ℕ) (notice : Notice) (queue queue' : Queue)
    (result : Except Error Unit) : Prop :=
  ∃ taken kept, queue.buffer.queue = taken ++ kept ∧
    (result = .ok () → queue'.buffer.queue = kept ++ [notice] ∧
      Longest items bytes (queue.buffer.queue ++ [notice]) queue'.buffer.queue ∧
      queue'.dropped.toNat = queue.dropped.toNat + taken.length) ∧
    ∀ error, result = .error error → error = .notificationDropOverflow ∧
      queue'.buffer.queue = kept ∧ queue'.dropped.toNat + 1 = queue.dropped.toNat + taken.length ∧
        queue'.dropped.toNat + 1 = UInt64.size

namespace Queue

variable {queue queue' : Queue} {result : Except Error Unit}

theorem tryReject_spec (queue : Queue) :
    queue.Rejects queue.tryReject.1 queue.tryReject.2 := by
  unfold tryReject
  rcases hdrop : tryDrop queue.dropped with error | counted
  · obtain ⟨rfl, hmax⟩ := tryDrop_eq_error hdrop
    exact ⟨rfl, rfl, Or.inr ⟨rfl, hmax, rfl⟩⟩
  · exact ⟨rfl, rfl, Or.inl (tryDrop_eq_ok hdrop)⟩

/-- A notice is rejected or admitted, and keeps the account either way. -/
theorem tryPush_spec {items : ℕ+} {bytes : ℕ} (hitems : queue.buffer.items = items)
    (hcapacity : queue.capacity = bytes) (h : queue.buffer.Inv bytes)
    (copy : Except CopyError Unit) (fields : Fields) (pid : UInt32) :
    ∃ queue' result, queue.tryPush copy fields pid = some (queue', result) ∧
      queue'.buffer.items = items ∧ queue'.capacity = bytes ∧ queue'.buffer.Inv bytes ∧
      (∀ notice, queue.admitted copy fields pid = .ok (some notice) →
        queue.Admits items bytes notice queue' result) ∧
      ((∀ notice, queue.admitted copy fields pid ≠ .ok (some notice)) →
        queue.Rejects queue' result) := by
  have hreject : ∀ queue' result, queue.Rejects queue' result →
      queue'.buffer.items = items ∧ queue'.capacity = bytes ∧ queue'.buffer.Inv bytes :=
    fun queue' result ⟨hbuffer, hcap, _⟩ => by
      rw [hbuffer, hcap]
      exact ⟨hitems, hcapacity, h⟩
  unfold tryPush admitted
  by_cases hlarge : queue.capacity < fields.retainedLen
  · rw [if_pos hlarge, if_pos hlarge]
    have hspec := queue.tryReject_spec
    obtain ⟨hitems', hcapacity', hinv⟩ := hreject _ _ hspec
    refine ⟨_, _, rfl, hitems', hcapacity', hinv, fun _ h => ?_, fun _ => hspec⟩
    cases h
  rw [if_neg hlarge, if_neg hlarge]
  rcases hnew : Notice.tryNew copy fields pid with error | notice
  · have hspec := queue.tryReject_spec
    obtain ⟨hitems', hcapacity', hinv⟩ := hreject _ _ hspec
    rcases htry : queue.tryReject with ⟨queue', error' | _⟩
    · rw [htry] at hspec hitems' hcapacity' hinv
      refine ⟨_, _, rfl, hitems', hcapacity', hinv, fun _ h => ?_, fun _ => hspec⟩
      cases h
    · rw [htry] at hspec hitems' hcapacity' hinv
      obtain ⟨hbuffer, hcap, hcount⟩ := hspec
      have hcount' : ∀ result, queue.Rejects queue' result := by
        refine fun result => ⟨hbuffer, hcap, Or.inl (hcount.resolve_right ?_)⟩
        rintro ⟨-, -, h⟩
        cases h
      cases error with
      | budget =>
        refine ⟨_, _, rfl, hitems', hcapacity', hinv, fun _ h => ?_, fun _ => hcount' _⟩
        cases h
      | allocation =>
        refine ⟨_, _, rfl, hitems', hcapacity', hinv, fun _ h => ?_, fun _ => hcount' _⟩
        cases h
  · have hbytes : notice.bytes ≤ bytes := by
      rw [Notice.bytes_tryNew hnew, ← hcapacity]
      exact not_lt.mp hlarge
    obtain ⟨pushed, taken, kept, hpush, hitems', hinv, htakes, herror, hok⟩ :=
      Buffer.tryPush_spec h hbytes queue.dropped
    dsimp only
    rw [hpush]
    refine ⟨_, _, rfl, hitems'.trans hitems, hcapacity, hinv, fun notice' hnotice => ?_,
      fun hnone => absurd rfl (hnone notice)⟩
    obtain rfl : notice = notice' := by
      cases hnotice
      rfl
    refine ⟨taken, kept, htakes.split, fun hresult => ?_, fun error hresult => ?_⟩
    · obtain ⟨hqueue, hlongest⟩ := hok hresult
      rw [hitems] at hlongest
      exact ⟨hqueue, hqueue ▸ hlongest, htakes.counted hresult⟩
    · obtain ⟨hoverflow, hcount, hmax⟩ := htakes.overflow error hresult
      exact ⟨hoverflow, herror error hresult, hcount, hmax⟩

/-- A pop takes the front. -/
theorem pop_spec {bytes : ℕ} (h : queue.buffer.Inv bytes) :
    queue.pop.2 = queue.buffer.queue.head? ∧ queue.pop.1.buffer.queue = queue.buffer.queue.tail ∧
      queue.pop.1.dropped = queue.dropped ∧ queue.pop.1.capacity = queue.capacity ∧
      queue.pop.1.buffer.items = queue.buffer.items ∧ queue.pop.1.buffer.Inv bytes := by
  obtain ⟨⟨notices, items, free⟩, capacity, dropped⟩ := queue
  cases notices with
  | nil => exact ⟨rfl, rfl, rfl, rfl, rfl, h⟩
  | cons notice notices =>
    obtain ⟨haccount, hroom⟩ := h
    refine ⟨rfl, rfl, rfl, rfl, rfl, ?_, (Nat.le_succ _).trans hroom⟩
    exact (Nat.add_assoc free notice.bytes (total notices)).trans haccount

end Queue

theorem World.Inv.new : World.Inv items bytes ⟨.new items bytes, [], []⟩ :=
  ⟨rfl, rfl, ⟨rfl, Nat.zero_le _⟩, .refl _⟩

theorem World.Inv.push {copy : Except CopyError Unit} {fields : Fields} {pid : UInt32}
    (h : world.Inv items bytes) (hpush : world.push copy fields pid = some world') :
    world'.Inv items bytes := by
  obtain ⟨queue', result, htry, hitems, hcapacity, hinv, hadmits, hrejects⟩ :=
    Queue.tryPush_spec h.items h.capacity h.buffer copy fields pid
  have horder := h.order
  have hsame : (world.popped ++ queue'.buffer.queue).Sublist world.pushed →
      World.Inv items bytes { world with queue := queue' } := fun horder' =>
    ⟨hitems, hcapacity, hinv, horder'⟩
  unfold World.push at hpush
  rw [htry] at hpush
  by_cases hadmitted : ∃ notice, world.queue.admitted copy fields pid = .ok (some notice)
  · obtain ⟨notice, hnotice⟩ := hadmitted
    obtain ⟨taken, kept, hsplit, hok, herror⟩ := hadmits notice hnotice
    have hkept : (world.popped ++ kept).Sublist world.pushed := by
      rw [hsplit] at horder
      exact ((List.sublist_append_right taken kept).append_left world.popped).trans horder
    cases result with
    | ok value =>
      simp only [Option.bind_eq_bind, Option.bind_some, hnotice] at hpush
      obtain rfl := Option.some.inj hpush
      refine ⟨hitems, hcapacity, hinv, ?_⟩
      dsimp only
      rw [(hok rfl).1, ← List.append_assoc]
      exact hkept.append_right [notice]
    | error error =>
      obtain rfl := Option.some.inj hpush
      refine hsame ?_
      rw [(herror error rfl).2.1]
      exact hkept
  · obtain ⟨hbuffer, -, -⟩ := hrejects fun notice hnotice => hadmitted ⟨notice, hnotice⟩
    have hworld : some ({ world with queue := queue' } : World) = some world' := by
      rw [← hpush]
      rcases hnotice : world.queue.admitted copy fields pid with error | _ | notice
      · cases result <;> rfl
      · cases result <;> rfl
      · exact absurd ⟨notice, hnotice⟩ hadmitted
    obtain rfl := Option.some.inj hworld
    refine hsame ?_
    rw [hbuffer]
    exact horder

theorem World.Inv.pop (h : world.Inv items bytes) : world.pop.Inv items bytes := by
  obtain ⟨hnotice, hqueue, -, hcapacity, hitems, hinv⟩ := Queue.pop_spec h.buffer
  refine ⟨hitems.trans h.items, hcapacity.trans h.capacity, hinv, ?_⟩
  unfold World.pop
  dsimp only
  rw [hnotice, hqueue, List.append_assoc]
  have horder := h.order
  cases hhead : world.queue.buffer.queue with
  | nil => rwa [hhead] at horder
  | cons notice notices => rwa [hhead] at horder

theorem Reached.inv (h : Reached items bytes world) : world.Inv items bytes := by
  induction h with
  | new => exact .new
  | push copy fields pid _ hpush ih => exact ih.push hpush
  | pop _ ih => exact ih.pop

/-- The account of a queue is exact, and notices are popped in the order in which they came. Every
push has a result : a notice that fits the account is queued behind the longest suffix of the
queued notices with which it fits both limits, every notice that is taken for it is counted, and
one that does not fit changes nothing but the counter. -/
theorem Reached.bounded (h : Reached items bytes world) :
    world.queue.buffer.free + total world.queue.buffer.queue = bytes ∧
      world.queue.buffer.queue.length ≤ items ∧
      (world.popped ++ world.queue.buffer.queue).Sublist world.pushed ∧
      (world.queue.pop.2 = world.queue.buffer.queue.head? ∧
        world.queue.pop.1.buffer.queue = world.queue.buffer.queue.tail ∧
        world.queue.pop.1.dropped = world.queue.dropped) ∧
      ∀ copy fields pid, ∃ queue' result,
        world.queue.tryPush copy fields pid = some (queue', result) ∧
        (bytes < fields.retainedLen → world.queue.Rejects queue' result) ∧
        (fields.retainedLen ≤ bytes → ∀ error, Notice.tryNew copy fields pid = .error error →
          world.queue.Rejects queue' result) ∧
        (fields.retainedLen ≤ bytes → ∀ notice, Notice.tryNew copy fields pid = .ok notice →
          world.queue.Admits items bytes notice queue' result) := by
  have hinv := h.inv
  obtain ⟨hnotice, hqueue, hdropped, -, -, -⟩ := Queue.pop_spec hinv.buffer
  refine ⟨hinv.buffer.account, hinv.items ▸ hinv.buffer.room, hinv.order,
    ⟨hnotice, hqueue, hdropped⟩, fun copy fields pid => ?_⟩
  obtain ⟨queue', result, htry, -, -, -, hadmits, hrejects⟩ :=
    Queue.tryPush_spec hinv.items hinv.capacity hinv.buffer copy fields pid
  have hadmitted : fields.retainedLen ≤ bytes → world.queue.admitted copy fields pid =
      (Notice.tryNew copy fields pid).map some := fun hle => by
    rw [← hinv.capacity] at hle
    exact if_neg (not_lt.mpr hle)
  refine ⟨queue', result, htry, fun hlarge => hrejects fun notice => ?_,
    fun hle error herror => hrejects fun notice => ?_, fun hle notice hnew => hadmits notice ?_⟩
  · rw [← hinv.capacity] at hlarge
    rw [Queue.admitted, if_pos hlarge]
    exact fun h => by cases h
  · rw [hadmitted hle, herror]
    exact fun h => by cases h
  · rw [hadmitted hle, hnew]
    rfl

/-- A notice of one byte. -/
def Fields.byte (byte : UInt8) : Fields :=
  ⟨[byte], [], of_decide_eq_true rfl⟩

/-- A notice that is pushed with its payload fits its account, and is all there is. -/
theorem Reached.bounded_byte : ∃ world : World, Reached 2 8 world ∧
    world.queue.buffer.queue = [⟨[7], 1, 0⟩] ∧
    world.queue.buffer.free + total world.queue.buffer.queue = 8 :=
  have hpush := Reached.push (.ok ()) (.byte 7) 0 .new rfl
  ⟨_, hpush, rfl, hpush.bounded.1⟩

/-- A notice that was taken for want of room does not come back : of four notices, with room for
two, the first is taken for the third, the second and the third are popped, and the last is
queued alone, although both notices that were not popped respect the limits. -/
theorem Reached.taken : ∃ world world' : World, Reached 2 8 world ∧
    world.push (.ok ()) (.byte 4) 0 = some world' ∧
    world'.queue.buffer.queue = [⟨[4], 1, 0⟩] ∧
    world'.pushed.filter (fun notice => notice ∉ world'.popped) = [⟨[1], 1, 0⟩, ⟨[4], 1, 0⟩] ∧
    ¬Longest 2 8 (world'.pushed.filter fun notice => notice ∉ world'.popped)
      world'.queue.buffer.queue := by
  have hfirst : Reached 2 8 _ := .push (.ok ()) (.byte 1) 0 .new rfl
  have hsecond := Reached.push (.ok ()) (.byte 2) 0 hfirst rfl
  have hthird := Reached.push (.ok ()) (.byte 3) 0 hsecond rfl
  refine ⟨_, _, hthird.pop.pop, rfl, rfl, rfl, fun h => ?_⟩
  have hle := h.longest [⟨[1], 1, 0⟩, ⟨[4], 1, 0⟩] (List.suffix_refl _) ⟨le_refl 2, by decide⟩
  exact absurd hle (by decide)

end Cartel.Pg.Notify
