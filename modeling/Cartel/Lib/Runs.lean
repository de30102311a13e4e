import Mathlib.Order.BoundedOrder.Lattice

/-!
# Conditions that fall apart

A list of conditions, some of them of two alternatives, that are joined without
parentheses : "and" binds tighter than "or", so that each second alternative begins a new
run of conditions (`runs`). In a distributive lattice the runs together are implied by the
conditions, and they imply them only if every run does (`sup_runs_eq_iff`).
-/

namespace Cartel.Lib

variable {α β : Type*} [DistribLattice α] [BoundedOrder α] {v : β → α}

/-- The runs of conditions behind `run`. -/
def runs (run : List β) : List (β × Option β) → List (List β)
  | [] => [run]
  | (a, none) :: rest => runs (run ++ [a]) rest
  | (a, some b) :: rest => (run ++ [a]) :: runs [b] rest

/-- What all of the conditions say together. -/
def meet (v : β → α) (run : List β) : α := (run.map v).foldr (· ⊓ ·) ⊤

/-- What a condition says. -/
def said (v : β → α) (c : β × Option β) : α := c.2.elim (v c.1) (v c.1 ⊔ v ·)

/-- What the runs say, any of them. -/
def anyRun (v : β → α) (runs : List (List β)) : α := (runs.map (meet v)).foldr (· ⊔ ·) ⊥

@[simp] theorem meet_nil : meet v [] = ⊤ := rfl

@[simp] theorem meet_cons (a : β) (run : List β) : meet v (a :: run) = v a ⊓ meet v run := rfl

@[simp] theorem meet_append (run more : List β) :
    meet v (run ++ more) = meet v run ⊓ meet v more := by
  induction run with
  | nil => simp
  | cons a run ih => simp [ih, inf_assoc]

@[simp] theorem anyRun_nil : anyRun v [] = ⊥ := rfl

@[simp] theorem anyRun_cons (run : List β) (rest : List (List β)) :
    anyRun v (run :: rest) = meet v run ⊔ anyRun v rest := rfl

theorem le_meet {a : α} {run : List β} : a ≤ meet v run ↔ ∀ b ∈ run, a ≤ v b := by
  induction run with
  | nil => simp
  | cons b run ih => simp [ih]

theorem anyRun_le {a : α} {runs : List (List β)} :
    anyRun v runs ≤ a ↔ ∀ run ∈ runs, meet v run ≤ a := by
  induction runs with
  | nil => simp
  | cons run rest ih => simp [ih]

/-- Conditions of one alternative stay one run. -/
theorem runs_of_none {run : List β} {conditions : List (β × Option β)}
    (h : ∀ c ∈ conditions, c.2 = none) :
    runs run conditions = [run ++ conditions.map Prod.fst] := by
  induction conditions generalizing run with
  | nil => simp [runs]
  | cons c rest ih =>
    obtain ⟨a, b⟩ := c
    obtain rfl : b = none := h (a, b) (by simp)
    simp [runs, ih fun c hc => h c (List.mem_cons_of_mem _ hc)]

/-- Of the run behind, only what it says counts. -/
theorem anyRun_congr {run run' : List β} (h : meet v run = meet v run')
    (conditions : List (β × Option β)) :
    anyRun v (runs run conditions) = anyRun v (runs run' conditions) := by
  induction conditions generalizing run run' with
  | nil => simp [runs, h]
  | cons c rest ih =>
    obtain ⟨a, _ | b⟩ := c
    · exact ih (by simp [h])
    · simp [runs, h]

/-- The conditions imply one of the runs. -/
theorem meet_le_anyRun (run : List β) (conditions : List (β × Option β)) :
    meet v run ⊓ meet (said v) conditions ≤ anyRun v (runs run conditions) := by
  induction conditions generalizing run with
  | nil => simp [runs]
  | cons c rest ih =>
    obtain ⟨a, _ | b⟩ := c
    · have hrest := ih (run ++ [a])
      simpa [runs, said, inf_assoc] using hrest
    · have hrest := ih [b]
      simp only [meet_cons, meet_nil, inf_top_eq] at hrest
      calc meet v run ⊓ meet (said v) ((a, some b) :: rest)
          = (meet v run ⊓ v a) ⊓ meet (said v) rest ⊔ meet v run ⊓ (v b ⊓ meet (said v) rest) := by
            simp only [meet_cons, said, Option.elim_some, inf_sup_right, inf_sup_left, inf_assoc]
        _ ≤ (meet v run ⊓ v a) ⊔ anyRun v (runs [b] rest) :=
            sup_le_sup inf_le_left (inf_le_right.trans hrest)
        _ = anyRun v (runs run ((a, some b) :: rest)) := by simp [runs]

/-- The runs say what the conditions say exactly if each run implies each condition. -/
theorem anyRun_eq_iff (v : β → α) (conditions : List (β × Option β)) :
    anyRun v (runs [] conditions) = meet (said v) conditions ↔
      ∀ run ∈ runs [] conditions, ∀ c ∈ conditions, meet v run ≤ said v c := by
  have hle := meet_le_anyRun (v := v) [] conditions
  rw [meet_nil, top_inf_eq] at hle
  constructor
  · intro h run hrun c hc
    exact le_meet.mp (anyRun_le.mp h.le run hrun) c hc
  · intro h
    exact le_antisymm (anyRun_le.mpr fun run hrun => le_meet.mpr (h run hrun)) hle

end Cartel.Lib
