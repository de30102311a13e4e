import Cartel.Parser.Accept
import Cartel.Parser.Storage

/-!
# Reading a tape

A `Reader` walks a finished tape in its pool, one event at a time. On a tape that holds
the values its length says, the events are those of the values in order
(`Reader.read_eq`). With what the scanner accepts, a call of a fresh parser completes
exactly on the frames of the grammar, and reading its tape lists the value in pre-order
(`Storage.scan_complete_iff`).
-/

namespace Cartel.Redis.Parser

open Cartel.Lib

variable {n : ℕ}

/-- `storage::Cursor`. -/
structure Cursor (n : ℕ) where
  next : Fin n
  remaining : ℕ

/-- `storage::Batch`. -/
structure Batch (n : ℕ) where
  next : Fin n
  left : ℕ

/-- `Cursor::batch`, with `Cursor::children`. The addition saturates. -/
def Cursor.batch (cursor : Cursor n) (width : ℕ) : Option (Batch n) :=
  if width ≤ cursor.remaining then
    some ⟨cursor.next, min (1 + (cursor.remaining - width)) (2 ^ 32 - 1)⟩
  else none

/-- `Batch::finish`. -/
def Batch.finish (batch : Batch n) (next : Fin n) : Cursor n :=
  ⟨next, batch.left - 1⟩

/-- `storage::Tape`. -/
structure Tape (n : ℕ) where
  pool : Pool n
  tail : Fin n
  len : ℕ

namespace Tape

/-- `Tape::cursor`. -/
def cursor (tape : Tape n) : Cursor n :=
  ⟨tape.pool.next tape.tail, tape.len⟩

/-- `Tape::event`. -/
def event (tape : Tape n) (cursor : Cursor n) : Option (Kind × Cursor n) :=
  match cursor.batch 1 with
  | none => none
  | some batch => some (tape.pool.kind batch.next, batch.finish (tape.pool.next batch.next))

end Tape

/-- `frame::Reader`. -/
structure Reader (n : ℕ) where
  frame : List UInt8
  nodes : Tape n
  cursor : Cursor n

/-- `frame::Stored`. -/
structure Stored (n : ℕ) where
  frame : List UInt8
  nodes : Tape n

namespace Stored

/-- `Stored::value_count`. -/
def valueCount (stored : Stored n) : ℕ :=
  stored.nodes.len

/-- `Stored::reader`. -/
def reader (stored : Stored n) : Reader n :=
  ⟨stored.frame, stored.nodes, stored.nodes.cursor⟩

end Stored

namespace Reader

/-- `Reader::next_event`. -/
def nextEvent (reader : Reader n) : Option (Event × Reader n) :=
  match reader.nodes.event reader.cursor with
  | none => none
  | some (kind, cursor) => some (kind.event reader.frame, { reader with cursor })

/-- `Reader::remaining`. -/
def remaining (reader : Reader n) : ℕ :=
  reader.cursor.remaining

/-- `Reader::finish`. -/
def finish (reader : Reader n) : Except Error Unit :=
  if reader.cursor.remaining = 0 then .ok () else .error (.values reader.cursor.remaining)

/-- The next events, as many as asked for and there are, and the reader after them. -/
def read : ℕ → Reader n → List Event × Reader n
  | 0, reader => ([], reader)
  | k + 1, reader =>
    match reader.nextEvent with
    | none => ([], reader)
    | some (event, reader) => (event :: (read k reader).1, (read k reader).2)

/-- The events a reader has left. -/
def events (reader : Reader n) : List Event :=
  (walk reader.nodes.pool.next reader.cursor.remaining reader.cursor.next).map fun key =>
    (reader.nodes.pool.kind key).event reader.frame

theorem nextEvent_zero {reader : Reader n} (h : reader.cursor.remaining = 0) :
    reader.nextEvent = none := by
  unfold nextEvent Tape.event Cursor.batch
  rw [h]
  rfl

theorem nextEvent_succ {reader : Reader n} {m : ℕ} (h : reader.cursor.remaining = m + 1)
    (hlt : m + 1 < 2 ^ 32) :
    reader.nextEvent = some ((reader.nodes.pool.kind reader.cursor.next).event reader.frame,
      { reader with cursor := ⟨reader.nodes.pool.next reader.cursor.next, m⟩ }) := by
  have hleft : min (1 + (m + 1 - 1)) (2 ^ 32 - 1) - 1 = m := by omega
  unfold nextEvent Tape.event Cursor.batch
  rw [h, if_pos (by omega)]
  simp only [Batch.finish, hleft]

/-- Reading gives the events in order. -/
theorem read_eq : ∀ (k : ℕ) (reader : Reader n), reader.cursor.remaining < 2 ^ 32 →
    (reader.read k).1 = reader.events.take k ∧ (reader.read k).2.remaining = reader.remaining - k
  | 0, _, _ => ⟨rfl, rfl⟩
  | k + 1, reader, hlt => by
    unfold read
    cases hm : reader.cursor.remaining with
    | zero =>
      rw [nextEvent_zero hm]
      unfold events remaining
      rw [hm]
      exact ⟨rfl, by simp⟩
    | succ m =>
      obtain ⟨hevents, hremaining⟩ := read_eq k
        { reader with cursor := ⟨reader.nodes.pool.next reader.cursor.next, m⟩ }
        (by dsimp only; omega)
      rw [nextEvent_succ hm (by omega)]
      refine ⟨?_, ?_⟩
      · dsimp only
        rw [hevents]
        unfold events
        rw [hm]
        rfl
      · dsimp only
        rw [hremaining]
        unfold remaining
        dsimp only
        omega

/-- What a reader with the given events does : they come in order and then nothing, and
`finish` accepts the reader that gave them all. -/
def Lists (reader : Reader n) (events : List Event) : Prop :=
  ∀ k, (reader.read k).1 = events.take k ∧
    (reader.read k).2.remaining = events.length - k ∧
    (reader.read k).2.finish =
      if events.length ≤ k then .ok () else .error (.values (events.length - k))

theorem lists_events {reader : Reader n} (hlt : reader.cursor.remaining < 2 ^ 32) :
    reader.Lists reader.events := by
  intro k
  have hlength : reader.events.length = reader.remaining := by
    unfold events remaining
    rw [List.length_map, length_walk]
  obtain ⟨hevents, hremaining⟩ := read_eq k reader hlt
  refine ⟨hevents, hremaining.trans (by rw [hlength]), ?_⟩
  unfold finish
  rw [show (reader.read k).2.cursor.remaining = reader.events.length - k by
    rw [hlength]; exact hremaining]
  exact if_congr (by omega) rfl rfl

end Reader

/-- The tape with a tail, in a store. -/
def Tapes.stored {ι : Type} (s : Tapes n ι) (frame : List UInt8) (t : Fin n) : Stored n :=
  ⟨frame, s.pool, t, s.len (.tape t)⟩

/-- A tape that holds what its length says lists the events of its values. -/
theorem Tapes.lists_stored {ι : Type} {s : Tapes n ι} (h : s.Inv) (hexact : s.Exact)
    (frame : List UInt8) {t : Fin n} (ht : (s.tapes t).isSome)
    (hlt : s.len (.tape t) < 2 ^ 32) :
    (s.stored frame t).reader.Lists ((s.values (.tape t)).map (Kind.event frame)) := by
  obtain ⟨lists, hholds⟩ := h
  have hlen := hexact (.tape t) (by simp)
  have hread : s.read (.tape t) = s.values (.tape t) := by
    rw [hholds.read_eq (by rw [hlen, hholds.values_eq, List.length_map]), hholds.values_eq]
  have hevents : (s.stored frame t).reader.events =
      (s.values (.tape t)).map (Kind.event frame) := by
    rw [← hread]
    unfold Reader.events Tapes.read
    rw [show s.tail (.tape t) = some t from if_pos ht, List.map_map]
    rfl
  rw [← hevents]
  exact Reader.lists_events hlt

/-! ## Parsing and reading -/

namespace Storage

variable {conns : ℕ} {T ι ε : Type} [DecidableEq T] [DecidableEq ι] [Fintype ι]
  {s : Storage n conns T ι} {i : ι} {c : Call (Storage n conns T ι) (Option (Fin n)) ε}

/-- A call of a fresh parser on storage with room returns what it returns on storage that
never refuses, and leaves exact lengths. -/
theorem scan_unblocked (hc : c.builder = builder i) (hexact : s.val.tapes.Exact)
    (hfresh : s.draft i = .empty) (hroom : s.Unblocked i c.nodeMax.value) :
    (c.scan .new s).1.view (kinds (c.scan .new s).2.2) = c.outcome ∧
      (c.scan .new s).2.2.val.tapes.Exact := by
  obtain ⟨B, source, byteMax, nodeMax, bytes⟩ := c
  dsimp only at hc hroom
  subst hc
  have hroomy : s.Roomy i nodeMax.value :=
    ⟨hexact, hroom.1.trans (Nat.le_add_right _ _), hroom.2⟩
  have hruns := Call.runs_scan ⟨builder i, source, byteMax, nodeMax, bytes⟩ .new s
  rw [Call.enter_of_le _ (Nat.zero_le _) (Nat.zero_le _)] at hruns
  obtain ⟨hanswers, -, hexact'⟩ := kept_runs (roomy_keeps i nodeMax.value) hruns hroomy trivial
  have hsuspends : Call.Suspends ⟨builder i, source, byteMax, nodeMax, bytes⟩ (builder_lawful i)
      0 .new s := .fresh hfresh
  refine ⟨scan_resumed hsuspends fun hrefused => ?_, hexact'⟩
  cases hscan : (Call.scan ⟨builder i, source, byteMax, nodeMax, bytes⟩ .new s).1 with
  | blocked =>
    rw [hscan] at hanswers
    cases hanswers
  | retainCapacity =>
    rw [hscan] at hanswers
    cases hanswers
  | _ =>
    rw [hscan] at hrefused
    exact hrefused

/-- A call of a fresh parser completes on an accepted value. The tape counts its nodes, and
read event by event it lists the value. -/
theorem scan_of_accepts (hc : c.builder = builder i) (hsource : c.source.Exact c.bytes)
    (hexact : s.val.tapes.Exact) (hfresh : s.draft i = .empty)
    (hroom : s.Unblocked i c.nodeMax.value) {count : ℕ} {value : Reply}
    (haccepts : c.Accepts count value) :
    ∃ tail, (c.scan .new s).1 = .complete ⟨c.bytes.take count, some tail⟩ count ∧
      ((c.scan .new s).2.2.val.tapes.stored (c.bytes.take count) tail).valueCount = value.nodes ∧
      ((c.scan .new s).2.2.val.tapes.stored (c.bytes.take count) tail).reader.Lists
        value.listing := by
  obtain ⟨hview, hexact'⟩ := scan_unblocked hc hexact hfresh hroom
  obtain ⟨values, houtcome, hlisting⟩ := outcome_of_accepts hsource haccepts
  rw [houtcome] at hview
  generalize c.scan .new s = r at hview hexact'
  obtain ⟨scan, self, s'⟩ := r
  dsimp only at hview hexact' ⊢
  have hnodes : values.length = value.nodes := by
    rw [← Reply.length_listing, ← hlisting, List.length_map]
  have hpos := value.nodes_pos
  have hmax := haccepts.nodes
  have hlt := c.nodeMax.lt
  cases scan with
  | complete parsed consumed =>
    obtain ⟨frame, nodes⟩ := parsed
    simp only [Scan.view, Scan.complete.injEq, Parsed.mk.injEq] at hview
    obtain ⟨⟨rfl, hkinds⟩, rfl⟩ := hview
    cases nodes with
    | none =>
      obtain rfl : values = [] := hkinds.symm
      rw [List.length_nil] at hnodes
      omega
    | some tail =>
      have hvalues : s'.val.tapes.values (.tape tail) = values := hkinds
      have hlen : s'.val.tapes.len (.tape tail) = value.nodes := by
        rw [hexact' (.tape tail) (by simp), hvalues, hnodes]
      have hlive : (s'.val.tapes.tapes tail).isSome := by
        by_contra hnone
        have hlisted : s'.val.tapes.values (.tape tail) = [] := by
          have htail : s'.val.tapes.tail (.tape tail) = none := if_neg hnone
          unfold Tapes.values
          rw [htail]
        rw [hvalues] at hlisted
        rw [hlisted, List.length_nil] at hnodes
        omega
      refine ⟨tail, rfl, hlen, ?_⟩
      have hlists := Tapes.lists_stored s'.inv.tapes hexact' (c.bytes.take consumed) hlive (by omega)
      rwa [hvalues, hlisting] at hlists
  | _ => cases hview

/-- With room in the storage, a call of a fresh parser completes after `count` bytes
exactly if these are one value of the grammar within the limits. The tape then counts its
nodes, and read event by event it lists the value in pre-order. -/
theorem scan_complete_iff {ledger : Handle n ι → List Kind} (hc : c.builder = builder i)
    (hsource : c.source.Exact c.bytes) (hreached : s.val.tapes.Reached ledger)
    (hfresh : s.draft i = .empty) (hroom : s.Unblocked i c.nodeMax.value) (count : ℕ) :
    ((∃ parsed, (c.scan .new s).1 = .complete parsed count) ↔ ∃ value, c.Accepts count value) ∧
      ∀ parsed value, (c.scan .new s).1 = .complete parsed count → c.Accepts count value →
        parsed.frame = c.bytes.take count ∧ ∃ tail, parsed.nodes = some tail ∧
          ((c.scan .new s).2.2.val.tapes.stored parsed.frame tail).valueCount = value.nodes ∧
          ((c.scan .new s).2.2.val.tapes.stored parsed.frame tail).reader.Lists value.listing := by
  obtain ⟨hview, -⟩ := scan_unblocked hc hreached.exact hfresh hroom
  refine ⟨⟨?_, ?_⟩, ?_⟩
  · rintro ⟨parsed, hparsed⟩
    rw [hparsed] at hview
    exact accepts_of_outcome hsource hview.symm
  · rintro ⟨value, haccepts⟩
    obtain ⟨tail, hscan, -⟩ := scan_of_accepts hc hsource hreached.exact hfresh hroom haccepts
    exact ⟨_, hscan⟩
  · intro parsed value hparsed haccepts
    obtain ⟨tail, hscan, hcount, hlists⟩ :=
      scan_of_accepts hc hsource hreached.exact hfresh hroom haccepts
    rw [hparsed] at hscan
    simp only [Scan.complete.injEq, and_true] at hscan
    subst hscan
    exact ⟨rfl, tail, rfl, hcount, hlists⟩

/-- A port for one connection, with three nodes. -/
def fresh : Storage 3 1 ℕ Bool :=
  ⟨.new ⟨3, 1, 1⟩, .new _⟩

/-- `*1\r\n:7\r\n` on a fresh port. -/
def freshCall : Call (Storage 3 1 ℕ Bool) (Option (Fin 3)) Unit :=
  ⟨builder false, .exact, ⟨60, by decide, by decide⟩, ⟨3, by decide, by decide⟩,
    [42, 49, 13, 10, 58, 55, 13, 10]⟩

theorem scan_complete_fresh :
    (freshCall.scan .new fresh).1 = .complete ⟨freshCall.bytes, some 1⟩ 8 ∧
      ∃ value, freshCall.Accepts 8 value := by
  have hscan : (freshCall.scan .new fresh).1 = .complete ⟨freshCall.bytes, some 1⟩ 8 := rfl
  have hroom : fresh.Unblocked false freshCall.nodeMax.value := ⟨by decide, rfl⟩
  exact ⟨hscan, (scan_complete_iff (i := false) rfl (Source.exact_spec _) .new rfl hroom 8).1.mp
    ⟨_, hscan⟩⟩

end Storage

end Cartel.Redis.Parser
