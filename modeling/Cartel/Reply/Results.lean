import Cartel.Reply.Group

/-!
# The rows of a group

`GroupFailure::required` takes the payloads of the outcomes one by one into an array of rows,
and puts them back at the first outcome without one. Either way one of the two containers is
forgotten : the outcomes once all rows are there, and what is left of the rows once they are
put back. What the forgotten container and the overwritten outcomes still own would be lost
(`Required.lost`), and nothing is.

The guard of an array that is filled from its front is taken as the rows so far.
-/

namespace Cartel.Pg.Reply

variable {α ρ ε δ : Type}

/-- `Outcome`. -/
inductive Outcome (α ε : Type) where
  | completed (value : α)
  | failed (error : ε)
  | interrupted (error : ε)
  | server
  | skipped
  | unobserved

/-- `results::Sync` : whether the ReadyForQuery of the group was observed. -/
inductive GroupSync where
  | complete
  | unobserved
  deriving DecidableEq

/-- `GroupFailure`, of as many outcomes as the group has commands. -/
structure GroupFailure (α ε δ : Type) where
  outcomes : List (Outcome α ε)
  diagnostics : δ
  sync : GroupSync
  syncError : Option ε
  cause : Option ε

/-- `Row`. -/
structure Row (ρ : Type) where
  payload : ρ

/-- The payload that an outcome owns. -/
def Outcome.payload : Outcome (Option ρ) ε → Option ρ
  | completed payload => payload
  | _ => none

/-- The loop of `GroupFailure::required` with the vacant places of the array, the outcomes and the
rows : all rows are there, or one is missing. -/
def gather : ℕ → List (Outcome (Option ρ) ε) → List (Row ρ) →
    Bool × List (Outcome (Option ρ) ε) × List (Row ρ)
  | 0, outcomes, rows => (true, outcomes, rows)
  | vacant + 1, outcomes, rows =>
    match outcomes[rows.length]?.bind Outcome.payload with
    | some payload =>
      gather vacant (outcomes.set rows.length (.completed none)) (rows ++ [⟨payload⟩])
    | none => (false, outcomes, rows)

/-- The restoration of the rows to the outcomes, with the payloads it overwrites and those of the
rows it does not read. -/
def restore : List (Outcome (Option ρ) ε) → List (Row ρ) → List (Outcome (Option ρ) ε) × List ρ
  | outcomes, [] => (outcomes, [])
  | [], rows => ([], rows.map Row.payload)
  | outcome :: outcomes, row :: rows =>
    let restored := restore outcomes rows
    (.completed (some row.payload) :: restored.1, outcome.payload.toList ++ restored.2)

/-- What an outcome of a failed group becomes. -/
def Outcome.row (notFound : ε) : Outcome (Option ρ) ε → Outcome (Row ρ) ε
  | completed (some payload) => completed ⟨payload⟩
  | completed none => failed notFound
  | failed error => failed error
  | interrupted error => interrupted error
  | server => server
  | skipped => skipped
  | unobserved => unobserved

/-- `GroupResult`, with the payloads that nobody owns any more. -/
structure Required (ρ ε δ : Type) where
  result : Except (GroupFailure (Row ρ) ε δ) (List (Row ρ))
  lost : List ρ

namespace GroupFailure

/-- The failure with its outcomes as rows. -/
def unmet (notFound : ε) (self : GroupFailure (Option ρ) ε δ)
    (outcomes : List (Outcome (Option ρ) ε)) : GroupFailure (Row ρ) ε δ :=
  ⟨outcomes.map (.row notFound), self.diagnostics, self.sync, self.syncError, self.cause⟩

/-- `GroupFailure::required`. -/
def required (isEmpty : δ → Bool) (notFound : ε) (self : GroupFailure (Option ρ) ε δ) :
    Required ρ ε δ :=
  if self.sync = .complete ∧ self.syncError.isNone ∧ self.cause.isNone ∧
      isEmpty self.diagnostics then
    match gather self.outcomes.length self.outcomes [] with
    | (true, outcomes, rows) => ⟨.ok rows, outcomes.filterMap Outcome.payload⟩
    | (false, outcomes, rows) =>
      let restored := restore outcomes rows
      ⟨.error (self.unmet notFound restored.1), restored.2⟩
  else ⟨.error (self.unmet notFound self.outcomes), []⟩

end GroupFailure

/-! ## The loop -/

/-- The outcomes of rows that were not taken. -/
def kept (rows : List (Row ρ)) : List (Outcome (Option ρ) ε) :=
  rows.map fun row => .completed (some row.payload)

/-- The outcomes of rows that were taken. -/
def emptied (rows : List (Row ρ)) : List (Outcome (Option ρ) ε) :=
  rows.map fun _ => .completed none

theorem payload_eq_some {outcome : Outcome (Option ρ) ε} {payload : ρ}
    (h : outcome.payload = some payload) : outcome = .completed (some payload) := by
  cases outcome with
  | completed value =>
    cases h
    rfl
  | _ => cases h

theorem filterMap_emptied (rows : List (Row ρ)) :
    (emptied rows : List (Outcome (Option ρ) ε)).filterMap Outcome.payload = [] := by
  rw [List.filterMap_eq_nil_iff]
  intro outcome houtcome
  obtain ⟨row, -, rfl⟩ := List.mem_map.mp houtcome
  rfl

/-- What was taken goes back where it was. -/
theorem restore_emptied (rows : List (Row ρ)) (rest : List (Outcome (Option ρ) ε)) :
    restore (emptied rows ++ rest) rows = (kept rows ++ rest, []) := by
  induction rows with
  | nil =>
    cases rest <;> rfl
  | cons row rows ih =>
    change (Outcome.completed (some row.payload) :: (restore (emptied rows ++ rest) rows).1,
      [] ++ (restore (emptied rows ++ rest) rows).2) = _
    rw [ih]
    rfl

/-- The loop takes the payloads of the outcomes in front of the first one without. -/
theorem gather_spec : ∀ (rest : List (Outcome (Option ρ) ε)) (rows : List (Row ρ)),
    ∃ taken behind, rest = kept taken ++ behind ∧
      (∀ outcome ∈ behind.head?, outcome.payload = none) ∧
      gather rest.length (emptied rows ++ rest) rows =
        (behind.isEmpty, emptied (rows ++ taken) ++ behind, rows ++ taken)
  | [], rows => by
    refine ⟨[], [], rfl, fun _ h => ?_, ?_⟩
    · cases h
    · rw [List.append_nil, List.append_nil, List.append_nil]
      rfl
  | outcome :: rest, rows => by
    have hlength : (emptied rows : List (Outcome (Option ρ) ε)).length = rows.length :=
      List.length_map _
    have hget : (emptied rows ++ outcome :: rest)[rows.length]? = some outcome := by
      rw [← hlength, List.getElem?_append_right (le_refl _), Nat.sub_self]
      rfl
    rw [List.length_cons, gather, hget, Option.bind_some]
    rcases hpayload : outcome.payload with _ | payload
    · refine ⟨[], outcome :: rest, rfl, fun first hfirst => ?_, ?_⟩
      · cases hfirst
        exact hpayload
      · rw [List.append_nil]
        rfl
    · obtain rfl := payload_eq_some hpayload
      have hset : (emptied rows ++ Outcome.completed (some payload) :: rest).set rows.length
          (.completed none) = emptied (rows ++ [⟨payload⟩]) ++ rest := by
        rw [← hlength, List.set_append_right _ _ (le_refl _), Nat.sub_self, emptied, emptied,
          List.map_append, List.append_assoc]
        rfl
      obtain ⟨taken, behind, hrest, hhead, hgather⟩ := gather_spec rest (rows ++ [⟨payload⟩])
      refine ⟨⟨payload⟩ :: taken, behind, ?_, hhead, ?_⟩
      · rw [hrest]
        rfl
      · dsimp only
        rw [hset, hgather, List.append_assoc]
        rfl

/-! ## The rows -/

/-- Rows are what a complete group without an error gives if every command completed with a
payload, row by row. Otherwise the failure keeps what it had, with the payloads it had, and
`NotFound` for what completed without one. No payload is lost. -/
theorem GroupFailure.required_spec (isEmpty : δ → Bool) (notFound : ε)
    (failure : GroupFailure (Option ρ) ε δ) :
    ((∃ rows, (failure.required isEmpty notFound).result = .ok rows) ↔
      failure.sync = .complete ∧ failure.syncError = none ∧ failure.cause = none ∧
        isEmpty failure.diagnostics = true ∧
        ∀ outcome ∈ failure.outcomes, ∃ payload, outcome = .completed (some payload)) ∧
    (∀ rows, (failure.required isEmpty notFound).result = .ok rows →
      failure.outcomes = rows.map fun row => .completed (some row.payload)) ∧
    (∀ failure', (failure.required isEmpty notFound).result = .error failure' →
      failure' = ⟨failure.outcomes.map (.row notFound), failure.diagnostics, failure.sync,
        failure.syncError, failure.cause⟩) ∧
    (failure.required isEmpty notFound).lost = [] := by
  obtain ⟨taken, behind, hsplit, hhead, hgather⟩ := gather_spec failure.outcomes []
  change gather _ failure.outcomes [] = (behind.isEmpty, emptied taken ++ behind, taken) at hgather
  unfold required
  by_cases hclean : failure.sync = .complete ∧ failure.syncError.isNone ∧ failure.cause.isNone ∧
      isEmpty failure.diagnostics
  · rw [if_pos hclean, hgather]
    obtain ⟨hsync, herror, hcause, hempty⟩ := hclean
    rw [Option.isNone_iff_eq_none] at herror hcause
    rcases behind with _ | ⟨outcome, behind⟩
    · rw [List.append_nil] at hsplit
      rw [List.append_nil]
      refine ⟨⟨fun _ => ⟨hsync, herror, hcause, hempty, fun outcome houtcome => ?_⟩,
        fun _ => ⟨taken, rfl⟩⟩, fun rows hrows => ?_, fun _ h => ?_, filterMap_emptied taken⟩
      · rw [hsplit] at houtcome
        obtain ⟨row, -, rfl⟩ := List.mem_map.mp houtcome
        exact ⟨row.payload, rfl⟩
      · cases hrows
        exact hsplit
      · cases h
    · have hrestore := restore_emptied taken (outcome :: behind)
      refine ⟨⟨fun ⟨_, h⟩ => (by cases h), fun ⟨_, _, _, _, hall⟩ => ?_⟩, fun _ h => ?_,
        fun failure' hfailure => ?_, ?_⟩
      · obtain ⟨payload, rfl⟩ := hall outcome (by rw [hsplit]; simp)
        cases hhead _ rfl
      · cases h
      · cases hfailure
        dsimp only [unmet]
        rw [hrestore, ← hsplit]
      · dsimp only [List.isEmpty_cons]
        rw [hrestore]
  · rw [if_neg hclean]
    refine ⟨⟨fun ⟨_, h⟩ => (by cases h), fun ⟨hsync, herror, hcause, hempty, _⟩ => ?_⟩,
      fun _ h => ?_, fun failure' hfailure => ?_, rfl⟩
    · exact absurd ⟨hsync, by rw [herror]; rfl, by rw [hcause]; rfl, hempty⟩ hclean
    · cases h
    · cases hfailure
      rfl

end Cartel.Pg.Reply
