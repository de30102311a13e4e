import Mathlib.Data.List.Forall2
import Cartel.Reply.Reparse

/-!
# The diagnostics of a group

A group keeps the diagnostics of its commands one behind the other in one run of bytes, and
a record of each : its position and the range of its bytes, in 32 bits. A position that was
not known is written later. The ledger reads every range again without a check.

The bytes belong to a pool of the runtime, which is a parameter (`Pool`).
-/

namespace Cartel.Pg.Reply

open Cartel.Lib Scram

/-! ## The pool -/

/-- `pool::Span` : its bytes, and `try_append`. -/
structure Pool where
  Span : Type
  bytes : Span → List UInt8
  tryAppend : Span → List UInt8 → Option Span

/-- Bytes are appended or refused, and lengths fit 32 bits. -/
structure Pool.Lawful (pool : Pool) : Prop where
  append : ∀ span payload span', pool.tryAppend span payload = some span' →
    pool.bytes span' = pool.bytes span ++ payload
  bound : ∀ span, (pool.bytes span).length < 2 ^ 32

/-! ## The records -/

/-- `Position`. -/
inductive Position where
  | command (index : ℕ)
  | sync
  | recovery
  | connection
  | unknown
  deriving DecidableEq

/-- `Record`. -/
structure Record where
  position : Position
  start : UInt32
  stop : UInt32

/-- `Records` : the published ones, the number of slots, and the one whose position is not known. -/
structure Records where
  published : List Record
  slots : ℕ
  unknown : Option ℕ

/-- `Records::clear`. -/
def Records.clear (records : Records) : Records :=
  ⟨[], records.slots, none⟩

/-- `Records::vacancy`, as far as there is one. -/
def Records.vacancy (records : Records) : Bool :=
  records.published.length < records.slots

/-- `Vacant::commit`. -/
def Records.commit (records : Records) (record : Record) : Records :=
  ⟨records.published ++ [record], records.slots,
    if record.position = .unknown then some records.published.length else records.unknown⟩

/-- `Records::resolve`, and whether a position was written. A place that is not published has
no result. -/
def Records.resolve (records : Records) (position : Position) : Option (Records × Bool) :=
  match records.unknown with
  | none => some (records, false)
  | some index =>
    records.published[index]?.map fun record =>
      (⟨records.published.set index ⟨position, record.start, record.stop⟩, records.slots, none⟩,
        true)

/-! ## The owner -/

/-- `Plan`, of a payload that was parsed. -/
structure Plan where
  payload : List UInt8
  fields : Fields
  parsed : tryParse payload = .ok fields

/-- The errors of `Active::record`. -/
inductive GroupError where
  | groupDiagnosticRecords (capacity : ℕ)
  | groupDiagnosticBytes
  deriving DecidableEq

section Model

variable {pool : Pool}

/-- `Active`. -/
structure Active (pool : Pool) where
  records : Records
  bytes : pool.Span

/-- `Owner`, with the limit of its records. -/
structure Owner (pool : Pool) where
  active : Option (Active pool)
  capacity : ℕ

/-- `Active::record`. -/
def Active.record (active : Active pool) (position : Position) (plan : Plan) (capacity : ℕ) :
    Except GroupError (Active pool) :=
  if active.records.vacancy then
    let start := UInt32.ofNat (pool.bytes active.bytes).length
    match pool.tryAppend active.bytes plan.payload with
    | none => .error .groupDiagnosticBytes
    | some bytes =>
      .ok ⟨active.records.commit ⟨position, start, .ofNat (pool.bytes bytes).length⟩, bytes⟩
  else .error (.groupDiagnosticRecords capacity)

/-- `Access::prepare`, of the records and the bytes that are free. -/
def Owner.prepare (records : Records) (bytes : pool.Span) (capacity : ℕ) : Owner pool :=
  ⟨some ⟨records.clear, bytes⟩, capacity⟩

/-- `Owner::record`. -/
def Owner.record (owner : Owner pool) (position : Position) (plan : Plan) :
    Owner pool × Except GroupError Unit :=
  match owner.active with
  | none => (owner, .ok ())
  | some active =>
    match active.record position plan owner.capacity with
    | .ok active => (⟨some active, owner.capacity⟩, .ok ())
    | .error error => (owner, .error error)

/-- `Owner::resolve`. -/
def Owner.resolve (owner : Owner pool) (position : Position) : Option (Owner pool × Bool) :=
  match owner.active with
  | none => some (owner, false)
  | some active =>
    (active.records.resolve position).map fun resolved =>
      (⟨some ⟨resolved.1, active.bytes⟩, owner.capacity⟩, resolved.2)

/-- `Ledger`. -/
abbrev Ledger :=
  Option (List Record × List UInt8)

/-- `Owner::snapshot`. -/
def Owner.snapshot (owner : Owner pool) : Owner pool × Ledger :=
  match owner.active with
  | none => (owner, none)
  | some active =>
    (⟨none, owner.capacity⟩, if active.records.published.length = 0 then none
      else some (active.records.published, pool.bytes active.bytes))

end Model

/-- `group_fields`. -/
def groupFields (payload : List UInt8) (record : Record) : Option Fields :=
  if record.start ≤ record.stop ∧ record.stop.toNat ≤ payload.length then
    fromValid (slice payload (record.start.toNat, record.stop.toNat))
  else none

/-- `Ledger::iter`. -/
def Ledger.iter : Ledger → List (Position × Option Fields)
  | none => []
  | some (records, bytes) =>
    records.map fun record => (record.position, groupFields bytes record)

/-! ## Runs -/

section Runs

variable {pool : Pool}

/-- A step of the group. -/
inductive Step where
  | record (position : Position) (plan : Plan)
  | resolve (position : Position)

/-- A step, and the fields of the diagnostic it has recorded. -/
def Owner.step (owner : Owner pool) : Step → Option (Owner pool × List Fields)
  | .record position plan =>
    match owner.record position plan with
    | (owner', .ok ()) => some (owner', if owner.active.isSome then [plan.fields] else [])
    | (owner', .error _) => some (owner', [])
  | .resolve position => (owner.resolve position).map fun resolved => (resolved.1, [])

/-- Steps one after the other. -/
def Owner.run (owner : Owner pool) : List Step → Option (Owner pool × List Fields)
  | [] => some (owner, [])
  | step :: steps => do
    let (owner, fields) ← owner.step step
    let (owner, behind) ← owner.run steps
    return (owner, fields ++ behind)

/-- The records of a group are those of the diagnostics so far. -/
structure Active.Holds (active : Active pool) (recorded : List Fields) : Prop where
  fields : List.Forall₂ (fun record fields => groupFields (pool.bytes active.bytes) record =
    some fields) active.records.published recorded
  unknown : ∀ index, active.records.unknown = some index →
    index < active.records.published.length

/-- A range stays readable when bytes are appended. -/
theorem groupFields_append {bytes more : List UInt8} {record : Record} {fields : Fields}
    (h : groupFields bytes record = some fields) :
    groupFields (bytes ++ more) record = some fields := by
  unfold groupFields at h ⊢
  split_ifs at h with hrange
  have hle : record.start.toNat ≤ record.stop.toNat := UInt32.le_iff_toNat_le.mp hrange.1
  have hslice : slice (bytes ++ more) (record.start.toNat, record.stop.toNat) =
      slice bytes (record.start.toNat, record.stop.toNat) := by
    unfold slice
    dsimp only
    rw [List.drop_append_of_le_length (by omega), List.take_append_of_le_length]
    rw [List.length_drop]
    omega
  rw [if_pos ⟨hrange.1, by rw [List.length_append]; omega⟩, hslice]
  exact h

/-- The range of a payload that was just appended. -/
theorem groupFields_self {bytes : List UInt8} {plan : Plan} (position : Position)
    (h : (bytes ++ plan.payload).length < 2 ^ 32) :
    groupFields (bytes ++ plan.payload) ⟨position, .ofNat bytes.length,
      .ofNat (bytes ++ plan.payload).length⟩ = some plan.fields := by
  rw [List.length_append] at h ⊢
  have hstart : (UInt32.ofNat bytes.length).toNat = bytes.length :=
    UInt32.toNat_ofNat_of_lt' (by rw [UInt32.size]; omega)
  have hstop : (UInt32.ofNat (bytes.length + plan.payload.length)).toNat =
      bytes.length + plan.payload.length := UInt32.toNat_ofNat_of_lt' (by rw [UInt32.size]; omega)
  have hslice : slice (bytes ++ plan.payload) (bytes.length, bytes.length + plan.payload.length) =
      plan.payload := by
    unfold slice
    dsimp only
    rw [List.drop_left, Nat.add_sub_cancel_left, List.take_length]
  have hle : UInt32.ofNat bytes.length ≤ UInt32.ofNat (bytes.length + plan.payload.length) := by
    rw [UInt32.le_iff_toNat_le, hstart, hstop]
    exact Nat.le_add_right _ _
  unfold groupFields
  dsimp only
  rw [if_pos ⟨hle, by rw [hstop, List.length_append]⟩, hstart, hstop, hslice]
  exact fromValid_eq plan.parsed

variable {active active' : Active pool} {owner : Owner pool} {recorded : List Fields}

theorem Active.Holds.record (hpool : pool.Lawful) {position : Position} {plan : Plan}
    {capacity : ℕ} (h : active.Holds recorded)
    (hrecord : active.record position plan capacity = .ok active') :
    active'.Holds (recorded ++ [plan.fields]) := by
  unfold Active.record at hrecord
  split_ifs at hrecord
  dsimp only at hrecord
  split at hrecord
  · cases hrecord
  · rename_i bytes happend
    cases hrecord
    have hbytes := hpool.append _ _ _ happend
    have hself := @groupFields_self _ plan position (hbytes ▸ hpool.bound bytes)
    refine ⟨List.rel_append ?_ ?_, fun index hindex => ?_⟩
    · dsimp only
      rw [hbytes]
      exact h.fields.imp fun _ _ => groupFields_append
    · dsimp only
      rw [hbytes]
      exact .cons hself .nil
    · unfold Records.commit at hindex ⊢
      dsimp only at hindex ⊢
      rw [List.length_append, List.length_singleton]
      split_ifs at hindex
      · cases hindex
        exact Nat.lt_succ_self _
      · exact Nat.lt_succ_of_lt (h.unknown index hindex)

theorem Active.Holds.resolve (h : active.Holds recorded) (position : Position) :
    ∃ resolved, active.records.resolve position = some resolved ∧
      (⟨resolved.1, active.bytes⟩ : Active pool).Holds recorded := by
  unfold Records.resolve
  rcases hunknown : active.records.unknown with - | index
  · exact ⟨_, rfl, h⟩
  · have hlt := h.unknown index hunknown
    dsimp only
    rw [List.getElem?_eq_getElem hlt]
    refine ⟨_, rfl, ?_, nofun⟩
    have hlength := h.fields.length_eq
    refine List.forall₂_iff_get.mpr ⟨by rw [List.length_set]; exact hlength, fun i hi hi' => ?_⟩
    have hread := (List.forall₂_iff_get.mp h.fields).2 i (by simpa using hi) hi'
    simp only [List.get_eq_getElem, List.getElem_set] at hread ⊢
    split_ifs with heq
    · subst heq
      exact hread
    · exact hread

/-- The owner records, and holds the diagnostics so far. -/
def Owner.Holds (owner : Owner pool) (recorded : List Fields) : Prop :=
  ∃ active, owner.active = some active ∧ active.Holds recorded

theorem Owner.Holds.step (hpool : pool.Lawful) (h : owner.Holds recorded) (step : Step) :
    ∃ owner' more, owner.step step = some (owner', more) ∧ owner'.Holds (recorded ++ more) := by
  obtain ⟨active, hactive, hholds⟩ := h
  rcases step with ⟨position, plan⟩ | position
  · unfold Owner.step Owner.record
    dsimp only
    rw [hactive]
    dsimp only
    rcases hrecord : active.record position plan owner.capacity with error | active'
    · exact ⟨_, _, rfl, active, hactive, (List.append_nil recorded).symm ▸ hholds⟩
    · exact ⟨_, _, rfl, active', rfl, hholds.record hpool hrecord⟩
  · obtain ⟨resolved, hresolved, hholds'⟩ := hholds.resolve position
    unfold Owner.step Owner.resolve
    dsimp only
    rw [hactive]
    dsimp only
    rw [hresolved]
    exact ⟨_, _, rfl, _, rfl, (List.append_nil recorded).symm ▸ hholds'⟩

theorem Owner.Holds.run (hpool : pool.Lawful) : ∀ (steps : List Step) {owner : Owner pool}
    {recorded : List Fields}, owner.Holds recorded →
      ∃ owner' more, owner.run steps = some (owner', more) ∧ owner'.Holds (recorded ++ more)
  | [], owner, recorded, h => ⟨owner, [], rfl, (List.append_nil recorded).symm ▸ h⟩
  | step :: steps, owner, recorded, h => by
    obtain ⟨owner', more, hstep, hholds⟩ := h.step hpool step
    obtain ⟨owner'', behind, hrun, hholds'⟩ := Owner.Holds.run hpool steps hholds
    refine ⟨owner'', more ++ behind, ?_, List.append_assoc .. ▸ hholds'⟩
    rw [Owner.run, hstep]
    change (do
      let (owner, behind) ← owner'.run steps
      return (owner, more ++ behind)) = _
    rw [hrun]
    rfl

/-- The ledger reads every diagnostic that was recorded. -/
theorem Owner.Holds.snapshot (h : owner.Holds recorded) :
    owner.snapshot.2.iter.map Prod.snd = recorded.map some := by
  obtain ⟨active, hactive, hholds⟩ := h
  have hlength := hholds.fields.length_eq
  unfold Owner.snapshot
  rw [hactive]
  dsimp only
  split_ifs with hempty
  · rw [hempty] at hlength
    rw [List.eq_nil_of_length_eq_zero hlength.symm]
    rfl
  · unfold Ledger.iter
    rw [List.map_map]
    refine List.ext_getElem (by simpa using hlength) fun i hi hi' => ?_
    have hread := (List.forall₂_iff_get.mp hholds.fields).2 i (by simpa using hi) (by simpa using hi')
    simpa using hread

/-- Diagnostics are read again as they were parsed, alone and out of a ledger. -/
theorem diagnostics (hpool : pool.Lawful) :
    (∀ payload, (∃ fields, tryParse payload = .ok fields) ↔
      ∃ list, payload = render list ∧ WellFormed list) ∧
    (∀ payload fields, tryParse payload = .ok fields →
      (∃ list, payload = render list ∧ fields.Of list) ∧ fromValid payload = some fields) ∧
    ∀ (records : Records) (bytes : pool.Span) (capacity : ℕ) (steps : List Step),
      ∃ owner recorded, (Owner.prepare records bytes capacity).run steps = some (owner, recorded) ∧
        owner.snapshot.2.iter.map Prod.snd = recorded.map some := by
  refine ⟨fun _ => tryParse_iff, fun payload fields h => ?_, fun records bytes capacity steps => ?_⟩
  · obtain ⟨list, hlist, -, hof⟩ := tryParse_eq_ok h
    exact ⟨⟨list, hlist, hof⟩, fromValid_eq h⟩
  · have hnew : (Owner.prepare records bytes capacity).Holds [] := ⟨_, rfl, .nil, nofun⟩
    obtain ⟨owner, recorded, hrun, hholds⟩ := Owner.Holds.run hpool steps hnew
    exact ⟨owner, recorded, hrun, hholds.snapshot⟩

end Runs

/-! ## A group -/

/-- A pool of bytes up to the bound. -/
def Pool.bounded : Pool where
  Span := {bytes : List UInt8 // bytes.length < 2 ^ 32}
  bytes := Subtype.val
  tryAppend span payload :=
    if h : (span.val ++ payload).length < 2 ^ 32 then some ⟨span.val ++ payload, h⟩ else none

theorem Pool.bounded_lawful : Pool.bounded.Lawful where
  append := fun span payload span' h => by
    unfold Pool.bounded at h
    dsimp only at h
    split_ifs at h
    cases h
    rfl
  bound := fun span => span.property

/-- The fields of a diagnostic with a position. -/
def missingTable : List Field :=
  [(83, ascii "ERROR"), (67, ascii "42P01"), (77, ascii "no table"), (80, ascii "15")]

theorem missingTable_wellFormed : WellFormed missingTable where
  texts := by
    unfold missingTable
    simp only [List.forall_mem_cons]
    refine ⟨?_, ?_, ?_, ?_, nofun⟩ <;>
      exact ⟨by decide, by decide, utf8Error_eq_none.mp (by decide)⟩
  distinct := by decide
  numbers := by
    have hdigits : (ascii "15").all fun byte => decide (48 ≤ byte ∧ byte ≤ 57) := by
      decide +kernel
    unfold missingTable
    simp only [List.forall_mem_cons]
    refine ⟨fun h => absurd h (by decide), fun h => absurd h (by decide),
      fun h => absurd h (by decide), fun _ => ⟨by decide, fun byte hbyte => ?_, by decide,
        by decide⟩, nofun⟩
    exact of_decide_eq_true (List.all_eq_true.mp hdigits byte hbyte)
  code := by
    have hcode : (ascii "42P01").all fun byte =>
        decide ((65 ≤ byte ∧ byte ≤ 90) ∨ (48 ≤ byte ∧ byte ≤ 57)) := by decide +kernel
    exact ⟨ascii "42P01", by decide +kernel, by decide, fun byte hbyte =>
      of_decide_eq_true (List.all_eq_true.mp hcode byte hbyte)⟩
  message := ⟨ascii "no table", by decide +kernel⟩
  severity := ⟨ascii "ERROR", by decide, Or.inr ⟨fun _ h => by
    unfold missingTable at h
    simp only [List.mem_cons, Prod.mk.injEq, List.not_mem_nil, or_false] at h
    rcases h with ⟨h, -⟩ | ⟨h, -⟩ | ⟨h, -⟩ | ⟨h, -⟩ <;> exact absurd h (by decide), by decide⟩⟩

/-- Two records of one diagnostic, and a position that is written later. -/
theorem diagnostics_missingTable : ∃ plan : Plan, plan.payload = render missingTable ∧
    ∃ owner recorded, (@Owner.prepare .bounded ⟨[], 2, none⟩ ⟨[], Nat.two_pow_pos 32⟩ 2).run
      [.record .unknown plan, .record (.command 1) plan, .resolve .sync] = some (owner, recorded) ∧
        owner.snapshot.2.iter.map Prod.snd = recorded.map some := by
  obtain ⟨hparsed, -, hruns⟩ := diagnostics Pool.bounded_lawful
  obtain ⟨fields, hfields⟩ := (hparsed _).mpr ⟨missingTable, rfl, missingTable_wellFormed⟩
  exact ⟨⟨_, fields, hfields⟩, rfl, hruns _ _ _ _⟩

end Cartel.Pg.Reply
