import Mathlib.Data.List.Induction
import Mathlib.Tactic.Common

/-!
# Where a text leaves a language

A text is viable if some text of the language starts with it. `Automaton` is a deterministic
automaton that stops as soon as there is no way to go on : its states are the ones from which an
accepting state can be reached, and this is part of the automaton (`live`). So a text is viable
exactly when the automaton gets through it (`Automaton.viable_iff`), and the first byte that the
automaton has no step for is the first one that the language has no text for
(`Automaton.stuck`).
-/

namespace Cartel.Lib

variable {σ α : Type}

/-- Some text of the language starts with `text`. -/
def Viable (language : List α → Prop) (text : List α) : Prop :=
  ∃ rest, language (text ++ rest)

theorem Viable.of_append {language : List α → Prop} {front back : List α}
    (h : Viable language (front ++ back)) : Viable language front := by
  obtain ⟨rest, h⟩ := h
  rw [List.append_assoc] at h
  exact ⟨back ++ rest, h⟩

/-- Every start of a viable text is viable. -/
theorem Viable.take {language : List α → Prop} {text : List α} (h : Viable language text)
    (count : ℕ) : Viable language (text.take count) := by
  rw [← List.take_append_drop count text] at h
  exact h.of_append

/-- The steps over a text. -/
def runFrom (step : σ → α → Option σ) : σ → List α → Option σ
  | state, [] => some state
  | state, a :: text => (step state a).bind fun state => runFrom step state text

section

variable {step : σ → α → Option σ} {state : σ}

@[simp] theorem runFrom_nil : runFrom step state [] = some state :=
  rfl

theorem runFrom_cons (a : α) (text : List α) :
    runFrom step state (a :: text) = (step state a).bind fun state => runFrom step state text :=
  rfl

theorem runFrom_append (front back : List α) :
    runFrom step state (front ++ back) =
      (runFrom step state front).bind fun state => runFrom step state back := by
  induction front generalizing state with
  | nil => rfl
  | cons a front ih =>
    rw [List.cons_append, runFrom_cons, runFrom_cons, Option.bind_assoc]
    exact Option.bind_congr fun state _ => ih

/-- A state that is kept by each letter of a text is kept by the text. -/
theorem runFrom_stays {text : List α} (h : ∀ a ∈ text, step state a = some state) :
    runFrom step state text = some state := by
  induction text with
  | nil => rfl
  | cons a text ih =>
    rw [runFrom_cons, h a List.mem_cons_self, Option.bind_some]
    exact ih fun b hb => h b (List.mem_cons_of_mem a hb)

/-- A state that each letter of a text leads to, from itself and from where the text starts. -/
theorem runFrom_enters {last : σ} {text : List α} (hne : text ≠ [])
    (henter : ∀ a ∈ text, step state a = some last) (h : ∀ a ∈ text, step last a = some last) :
    runFrom step state text = some last := by
  cases text with
  | nil => exact absurd rfl hne
  | cons a text =>
    rw [runFrom_cons, henter a List.mem_cons_self, Option.bind_some]
    exact runFrom_stays fun b hb => h b (List.mem_cons_of_mem a hb)

end

/-- A deterministic automaton. Every state leads to an accepting one. -/
structure Automaton (σ α : Type) where
  start : σ
  step : σ → α → Option σ
  accepts : σ → Bool
  live : ∀ state, ∃ rest last, runFrom step state rest = some last ∧ accepts last = true

namespace Automaton

variable (automaton : Automaton σ α)

/-- The state after a text. -/
def run (text : List α) : Option σ :=
  runFrom automaton.step automaton.start text

/-- The texts that lead to an accepting state. -/
def Accepts (text : List α) : Prop :=
  ∃ last, automaton.run text = some last ∧ automaton.accepts last = true

variable {automaton} {language : List α → Prop} {front rest : List α} {state : σ} {a : α}

theorem run_append (h : automaton.run front = some state) (back : List α) :
    automaton.run (front ++ back) = runFrom automaton.step state back := by
  rw [run, runFrom_append, ← run, h, Option.bind_some]

/-- What holds of a state and the text that leads to it. -/
theorem run_induction (describes : σ → List α → Prop) (hstart : describes automaton.start [])
    (hstep : ∀ state front a next, describes state front → automaton.step state a = some next →
      describes next (front ++ [a])) :
    ∀ (text : List α) (state : σ), automaton.run text = some state → describes state text := by
  intro text
  induction text using List.reverseRecOn with
  | nil =>
    rintro state ⟨⟩
    exact hstart
  | append_singleton text a ih =>
    intro state h
    cases hrun : automaton.run text with
    | none =>
      rw [run, runFrom_append, ← run, hrun] at h
      cases h
    | some before =>
      rw [run_append hrun, runFrom_cons] at h
      obtain ⟨next, hnext, hlast⟩ := Option.bind_eq_some_iff.mp h
      cases hlast
      exact hstep before text a state (ih before hrun) hnext

/-- The automaton gets through the viable texts, and through no other. -/
theorem viable_iff (haccepts : ∀ text, language text ↔ automaton.Accepts text) {text : List α} :
    Viable language text ↔ (automaton.run text).isSome = true := by
  constructor
  · rintro ⟨rest, h⟩
    obtain ⟨last, hrun, -⟩ := (haccepts _).mp h
    rw [run, runFrom_append, ← run] at hrun
    obtain ⟨state, hstate, -⟩ := Option.bind_eq_some_iff.mp hrun
    rw [hstate]
    rfl
  · intro h
    obtain ⟨state, hstate⟩ := Option.isSome_iff_exists.mp h
    obtain ⟨rest, last, hrest, hlast⟩ := automaton.live state
    exact ⟨rest, (haccepts _).mpr ⟨last, by rw [run_append hstate, hrest], hlast⟩⟩

/-- A text that ends in a state is of the language if the state accepts. -/
theorem language_iff (haccepts : ∀ text, language text ↔ automaton.Accepts text)
    (h : automaton.run front = some state) :
    language front ↔ automaton.accepts state = true := by
  rw [haccepts]
  constructor
  · rintro ⟨last, hlast, haccept⟩
    rw [h] at hlast
    cases hlast
    exact haccept
  · exact fun haccept => ⟨state, h, haccept⟩

/-- The first byte without a step : what stands before it is viable, and it is not. -/
theorem stuck (haccepts : ∀ text, language text ↔ automaton.Accepts text)
    (h : automaton.run front = some state) (hstep : automaton.step state a = none) :
    Viable language front ∧ ¬Viable language (front ++ [a]) := by
  refine ⟨(viable_iff haccepts).mpr (by rw [h]; rfl), fun hviable => ?_⟩
  rw [viable_iff haccepts, run_append h, runFrom_cons, hstep] at hviable
  cases hviable

end Automaton

end Cartel.Lib
