import Mathlib.Data.PNat.Basic

/-!
# Outcomes

A step that may fail, and what is known of the parts of one that did not.
-/

namespace Cartel.Lib

variable {α β δ δ' : Type*} {x : Except δ α} {a : α}

theorem bind_eq_ok {β : Type _} {f : α → Except δ β} {b : β} :
    (x >>= f) = .ok b ↔ ∃ a, x = .ok a ∧ f a = .ok b := by
  rcases x with e | a
  · simp [bind, Except.bind]
  · simp [bind, Except.bind]

theorem bind_eq_error {β : Type _} {f : α → Except δ β} {e : δ} :
    (x >>= f) = .error e ↔ x = .error e ∨ ∃ a, x = .ok a ∧ f a = .error e := by
  rcases x with e' | a
  · simp [bind, Except.bind]
  · simp [bind, Except.bind]

theorem map_eq_ok {β : Type _} {f : α → β} {b : β} :
    x.map f = .ok b ↔ ∃ a, x = .ok a ∧ f a = b := by
  rcases x with e | a
  · simp [Except.map]
  · simp [Except.map]

theorem map_eq_error {β : Type _} {f : α → β} {e : δ} : x.map f = .error e ↔ x = .error e := by
  rcases x with e' | a
  · simp [Except.map]
  · simp [Except.map]

theorem mapError_eq_ok {f : δ → δ'} : x.mapError f = .ok a ↔ x = .ok a := by
  rcases x with e | a'
  · simp [Except.mapError]
  · simp [Except.mapError]

theorem mapError_eq_error {f : δ → δ'} {e : δ'} :
    x.mapError f = .error e ↔ ∃ e', x = .error e' ∧ f e' = e := by
  rcases x with e' | a
  · simp [Except.mapError]
  · simp [Except.mapError]

end Cartel.Lib
