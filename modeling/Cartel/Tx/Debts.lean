import Cartel.Tx.World
import Mathlib.Tactic.Ring

/-!
# The cleanup owed, read off its word

A `Debt` is nothing, the whole transaction, the savepoints from the top down to a target, or a
cleanup that has failed. `Debt.word` is the word that says so, and for every operation of
`Pending` there is one lemma that says what it does to the debt.
-/

namespace Cartel.Sqlite.Tx

/-- What is owed. -/
inductive Debt where
  | none
  | transaction
  | savepoint (target : Count) (phase : Phase)
  | failed
  deriving DecidableEq

namespace Debt

/-- The word for a debt. -/
def word : Debt → ℕ
  | none => Pending.none
  | transaction => Pending.tx
  | savepoint target phase => Pending.encode target.get phase
  | failed => Pending.failed

/-- The controls it takes to pay a debt, with a number of savepoints open. -/
def rounds (depth : ℕ) : Debt → ℕ
  | none => 0
  | transaction => 1
  | savepoint target .rollback => 2 * (depth - target.get) + 2
  | savepoint target .release => 2 * (depth - target.get) + 1
  | failed => 0

end Debt

theorem Count.get_lt (count : Count) : count.get < 2 ^ 62 := by
  have hle := count.le
  have hmax : maxSavepoints = 2 ^ 62 - 1 := rfl
  omega

theorem Count.prior_get (count : Count) : Depth.get count.prior = count.get - 1 := by
  unfold prior
  split
  · rfl
  · have hpos := count.pos
    simp only [Depth.get]
    omega

namespace Pending

theorem encode_rollback (count : Count) : encode count.get .rollback = 2 * count.get := by
  have hlt := count.get_lt
  simp only [encode, Nat.shiftLeft_eq, Nat.or_zero]
  omega

theorem encode_release (count : Count) : encode count.get .release = 2 * count.get + 1 := by
  have hlt := count.get_lt
  have hor := Nat.two_pow_add_eq_or_of_lt (i := 1) (show 1 < 2 ^ 1 by omega) count.get
  simp only [encode, Nat.shiftLeft_eq, tag]
  rw [Nat.mod_eq_of_lt (by omega), Nat.mul_comm, ← hor]

variable (target : Count) (phase : Phase)

theorem encode_div : encode target.get phase >>> 1 = target.get := by
  rw [Nat.shiftRight_eq_div_pow]
  cases phase
  · rw [encode_rollback]
    omega
  · rw [encode_release]
    omega

theorem encode_tag : encode target.get phase &&& tag = 0 ↔ phase = .rollback := by
  rw [tag, Nat.and_one_is_mod]
  cases phase
  · rw [encode_rollback]
    exact ⟨fun _ => rfl, fun _ => by omega⟩
  · rw [encode_release]
    exact ⟨fun h => by omega, fun h => by cases h⟩

theorem encode_bounds : 2 ≤ encode target.get phase ∧ encode target.get phase < failed := by
  have hlt := target.get_lt
  have hpos := target.pos
  have hfailed : failed = 2 ^ 64 - 1 := rfl
  cases phase
  · rw [encode_rollback]
    omega
  · rw [encode_release]
    omega

theorem encode_ne : encode target.get phase ≠ 0 ∧ encode target.get phase ≠ tx ∧
    encode target.get phase ≠ failed := by
  have hbounds := encode_bounds target phase
  have htx : tx = 1 := rfl
  omega

/-! ## What each operation does to the debt -/

theorem control_word (debt : Debt) : control debt.word =
    if debt = .none ∨ debt = .failed then Option.none else some debt.word := by
  cases debt with
  | savepoint target phase =>
    have hne := encode_ne target phase
    simp [control, Debt.word, hne.1, hne.2.2]
  | _ => rfl

theorem status_word (debt : Debt) :
    status debt.word = if debt = .none ∨ debt = .failed then .idle else .pending := by
  cases debt with
  | savepoint target phase =>
    have hne := encode_ne target phase
    simp [status, Debt.word, none, hne.1, hne.2.2]
  | _ => rfl

theorem cleanup_savepoint : cleanup (Debt.savepoint target phase).word =
    match phase with
    | .rollback => .rollbackTo
    | .release => .release := by
  have hne := encode_ne target phase
  cases phase with
  | rollback => simp [cleanup, Debt.word, hne.2.1, encode_tag]
  | release => simp [cleanup, Debt.word, hne.2.1, encode_tag]

theorem transaction_word (debt : Debt) : transaction debt.word =
    (if debt = .failed then Debt.failed else .transaction).word := by
  cases debt with
  | savepoint target phase =>
    have hne := encode_ne target phase
    simp [transaction, Debt.word, hne.2.2]
  | _ => rfl

theorem savepoint_word (debt : Debt) (depth : Count) : savepoint debt.word depth =
    (match debt with
      | .none => Debt.savepoint depth .rollback
      | .savepoint target phase =>
        .savepoint (if target.get ≤ depth.get then target else depth) phase
      | debt => debt).word := by
  cases debt with
  | savepoint target phase =>
    have hne := encode_ne target phase
    have hmin : min target.get depth.get =
        (if target.get ≤ depth.get then target else depth).get := by
      rw [min_def, apply_ite Count.get]
    have hphase : (if encode target.get phase &&& tag = 0 then Phase.rollback else .release) =
        phase := by
      cases phase <;> simp [encode_tag]
    show savepoint (encode target.get phase) depth = encode _ phase
    unfold savepoint
    rw [if_neg (show encode target.get phase ≠ none from hne.1),
      if_neg (not_or.mpr ⟨hne.2.1, hne.2.2⟩), encode_div, hphase, hmin]
  | _ => rfl

theorem complete_transaction (depth : Depth) :
    complete Debt.transaction.word depth = some (Debt.none.word, .none) := rfl

theorem complete_rollback (depth : Depth) :
    complete (Debt.savepoint target .rollback).word depth =
      some ((Debt.savepoint target .release).word, depth) := by
  have hne := encode_ne target .rollback
  simp [complete, Debt.word, hne.2.1, encode_tag, encode_div]

theorem complete_release (current : Count) :
    complete (Debt.savepoint target .release).word (some current) =
      some ((if current.get = target.get then Debt.none else .savepoint target .rollback).word,
        current.prior) := by
  have hne := encode_ne target .release
  show complete (encode target.get .release) (some current) = _
  unfold complete
  rw [if_neg hne.2.1, if_neg (by simp [encode_tag])]
  simp only [encode_div]
  split <;> rfl

end Pending

end Cartel.Sqlite.Tx
