import Mathlib.Data.List.Basic
import Mathlib.Tactic.Common

/-!
# Nested scopes over a store

A store has committed contents, and while scopes are open in it, contents of its own for each of
them (`Nested`). An inner scope starts with a copy of the contents around it. Released, it hands
its contents over to the scope around it; dropped, it leaves nothing behind
(`Nested.run_dropped`).

One store keeps all of this with a single copy of the contents and a stack of snapshots, the
contents around each open scope. Some of the snapshots may belong to scopes nobody refers to any
more. `Frames` picks out the others : their positions on the stack, and their contents.
-/

namespace Cartel.Lib

variable {D : Type*}

/-! ## Scopes with contents of their own -/

/-- What happens to nested scopes. -/
inductive Event (D : Type*) where
  | wrote (contents : D)
  | began
  | opened
  | released
  | reverted
  | dropped
  | committed
  | ended

/-- Committed contents, and the contents of each open scope, the innermost first. -/
structure Nested (D : Type*) where
  base : D
  frames : List D

namespace Nested

/-- The scopes after an event. An event with no scope to happen to changes nothing. -/
def follow : Nested D → Event D → Nested D
  | ⟨_, []⟩, .wrote contents => ⟨contents, []⟩
  | ⟨base, _ :: frames⟩, .wrote contents => ⟨base, contents :: frames⟩
  | ⟨base, _⟩, .began => ⟨base, [base]⟩
  | ⟨base, frame :: frames⟩, .opened => ⟨base, frame :: frame :: frames⟩
  | ⟨base, frame :: _ :: frames⟩, .released => ⟨base, frame :: frames⟩
  | ⟨base, _ :: frame :: frames⟩, .reverted => ⟨base, frame :: frame :: frames⟩
  | ⟨base, _ :: frame :: frames⟩, .dropped => ⟨base, frame :: frames⟩
  | ⟨_, frame :: _⟩, .committed => ⟨frame, []⟩
  | ⟨base, _⟩, .ended => ⟨base, []⟩
  | nested, _ => nested

/-- The scopes after some events. -/
def run (nested : Nested D) (events : List (Event D)) : Nested D :=
  events.foldl follow nested

/-- The contents the innermost scope sees. -/
def contents (nested : Nested D) : D :=
  nested.frames.headD nested.base

@[simp]
theorem run_nil (nested : Nested D) : nested.run [] = nested := rfl

@[simp]
theorem run_append (nested : Nested D) (events events' : List (Event D)) :
    nested.run (events ++ events') = (nested.run events).run events' :=
  List.foldl_append

@[simp]
theorem run_cons (nested : Nested D) (event : Event D) (events : List (Event D)) :
    nested.run (event :: events) = (nested.follow event).run events := rfl

end Nested

/-- What happens in a scope until it is closed : writes, its own reversals, and scopes inside it
from their opening to their end. -/
inductive Body : List (Event D) → Prop where
  | nil : Body []
  | wrote {events : List (Event D)} (contents : D) (h : Body events) :
      Body (.wrote contents :: events)
  | reverted {events : List (Event D)} (h : Body events) : Body (.reverted :: events)
  | released {inner events : List (Event D)} (hin : Body inner) (h : Body events) :
      Body (.opened :: inner ++ .released :: events)
  | dropped {inner events : List (Event D)} (hin : Body inner) (h : Body events) :
      Body (.opened :: inner ++ .dropped :: events)

namespace Nested

/-- What happens in a scope leaves the scopes around it as they are. -/
theorem run_body {events : List (Event D)} (h : Body events) (base around : D)
    (frames : List D) (frame : D) : ∃ frame',
      run ⟨base, frame :: around :: frames⟩ events = ⟨base, frame' :: around :: frames⟩ := by
  induction h generalizing frame around frames with
  | nil => exact ⟨frame, rfl⟩
  | wrote contents _ ih => exact ih around frames contents
  | reverted _ ih => exact ih around frames around
  | released _ _ ihin ih =>
    obtain ⟨inner, hinner⟩ := ihin frame (around :: frames) frame
    obtain ⟨frame', hframe⟩ := ih around frames inner
    refine ⟨frame', ?_⟩
    simp only [run_append, run_cons, follow, hinner, hframe]
  | dropped _ _ ihin ih =>
    obtain ⟨inner, hinner⟩ := ihin frame (around :: frames) frame
    obtain ⟨frame', hframe⟩ := ih around frames frame
    refine ⟨frame', ?_⟩
    simp only [run_append, run_cons, follow, hinner, hframe]

/-- What happens in a transaction leaves the committed contents as they are. -/
theorem run_transaction {events : List (Event D)} (h : Body events) (base frame : D) :
    ∃ frame', run ⟨base, [frame]⟩ events = ⟨base, [frame']⟩ := by
  induction h generalizing frame with
  | nil => exact ⟨frame, rfl⟩
  | wrote contents _ ih => exact ih contents
  | reverted _ ih => exact ih frame
  | released hin _ _ ih =>
    obtain ⟨inner, hinner⟩ := run_body hin base frame [] frame
    obtain ⟨frame', hframe⟩ := ih inner
    refine ⟨frame', ?_⟩
    simp only [run_append, run_cons, follow, hinner, hframe]
  | dropped hin _ _ ih =>
    obtain ⟨inner, hinner⟩ := run_body hin base frame [] frame
    obtain ⟨frame', hframe⟩ := ih frame
    refine ⟨frame', ?_⟩
    simp only [run_append, run_cons, follow, hinner, hframe]

/-- A dropped scope leaves nothing behind. -/
theorem run_dropped {events : List (Event D)} (h : Body events) {nested : Nested D}
    (hopen : nested.frames ≠ []) : nested.run (.opened :: events ++ [.dropped]) = nested := by
  rcases nested with ⟨base, _ | ⟨around, frames⟩⟩
  · exact absurd rfl hopen
  · obtain ⟨frame, hframe⟩ := run_body h base around frames around
    simp only [run_append, run_cons, follow, hframe, run_nil]

/-- A transaction that ends without a commit leaves nothing behind either. -/
theorem run_ended {events : List (Event D)} (h : Body events) {nested : Nested D}
    (hclosed : nested.frames = []) : nested.run (.began :: events ++ [.ended]) = nested := by
  rcases nested with ⟨base, frames⟩
  obtain rfl : frames = [] := hclosed
  obtain ⟨frame, hframe⟩ := run_transaction h base base
  simp only [run_append, run_cons, follow, hframe, run_nil]

end Nested

/-! ## One copy and a stack of snapshots -/

/-- Of a stack of snapshots, some with their positions from the bottom : the positions and the
contents of the scopes that are still referred to. -/
inductive Frames : List D → List ℕ → List D → Prop where
  | nil : Frames [] [] []
  | live {saves frames : List D} {depths : List ℕ} (save : D) (h : Frames saves depths frames) :
      Frames (save :: saves) ((saves.length + 1) :: depths) (save :: frames)
  | forgot {saves frames : List D} {depths : List ℕ} (save : D) (h : Frames saves depths frames) :
      Frames (save :: saves) depths frames

namespace Frames

variable {saves frames : List D} {depths : List ℕ} {save frame : D} {depth : ℕ}

theorem depth_le (h : Frames saves depths frames) : ∀ d ∈ depths, 1 ≤ d ∧ d ≤ saves.length := by
  induction h with
  | nil => exact fun d hd => absurd hd List.not_mem_nil
  | live save _ ih =>
    intro d hd
    rw [List.length_cons]
    rcases List.mem_cons.mp hd with rfl | hd
    · exact ⟨Nat.le_add_left 1 _, Nat.le_refl _⟩
    · exact ⟨(ih d hd).1, Nat.le_succ_of_le (ih d hd).2⟩
  | forgot save _ ih =>
    exact fun d hd => ⟨(ih d hd).1, Nat.le_succ_of_le (ih d hd).2⟩

theorem length_eq (h : Frames saves depths frames) : depths.length = frames.length := by
  induction h with
  | nil => rfl
  | live _ _ ih => rw [List.length_cons, List.length_cons, ih]
  | forgot _ _ ih => exact ih

/-- A scope may be forgotten : its snapshot stays on the stack. -/
theorem forget (h : Frames saves (depth :: depths) (frame :: frames)) :
    Frames saves depths frames := by
  generalize hd : depth :: depths = ds at h
  generalize hf : frame :: frames = fs at h
  induction h with
  | nil => exact absurd hd (List.cons_ne_nil _ _)
  | live save h _ =>
    obtain ⟨-, rfl⟩ := List.cons_eq_cons.mp hd
    obtain ⟨-, rfl⟩ := List.cons_eq_cons.mp hf
    exact h.forgot save
  | forgot save _ ih => exact (ih hd hf).forgot save

/-- The stack above, at and below the innermost scope. -/
theorem split (h : Frames saves (depth :: depths) (frame :: frames)) :
    ∃ upper lower, saves = upper ++ frame :: lower ∧ lower.length + 1 = depth ∧
      Frames lower depths frames := by
  generalize hd : depth :: depths = ds at h
  generalize hf : frame :: frames = fs at h
  induction h with
  | nil => exact absurd hd (List.cons_ne_nil _ _)
  | @live saves _ _ save h _ =>
    obtain ⟨rfl, rfl⟩ := List.cons_eq_cons.mp hd
    obtain ⟨rfl, rfl⟩ := List.cons_eq_cons.mp hf
    exact ⟨[], saves, rfl, rfl, h⟩
  | forgot save _ ih =>
    obtain ⟨upper, lower, rfl, hlength, hframes⟩ := ih hd hf
    exact ⟨save :: upper, lower, rfl, hlength, hframes⟩

/-- The scope at the top of the stack. -/
theorem top (h : Frames (save :: saves) ((saves.length + 1) :: depths) frames) :
    ∃ frames', frames = save :: frames' ∧ Frames saves depths frames' := by
  generalize hs : save :: saves = ss at h
  generalize hd : (saves.length + 1) :: depths = ds at h
  cases h with
  | nil => exact absurd hs (List.cons_ne_nil _ _)
  | live save' h =>
    obtain ⟨rfl, rfl⟩ := List.cons_eq_cons.mp hs
    obtain ⟨-, rfl⟩ := List.cons_eq_cons.mp hd
    exact ⟨_, rfl, h⟩
  | forgot save' h =>
    obtain ⟨rfl, rfl⟩ := List.cons_eq_cons.mp hs
    have hle := (h.depth_le (saves.length + 1) (hd ▸ List.mem_cons_self)).2
    omega

/-- A snapshot at the top that is not the innermost scope's may go. -/
theorem pop (h : Frames (save :: saves) (depth :: depths) frames)
    (hne : depth ≠ saves.length + 1) : Frames saves (depth :: depths) frames := by
  generalize hs : save :: saves = ss at h
  generalize hd : depth :: depths = ds at h
  cases h with
  | nil => exact absurd hs (List.cons_ne_nil _ _)
  | live save' h =>
    obtain ⟨rfl, rfl⟩ := List.cons_eq_cons.mp hs
    obtain ⟨rfl, rfl⟩ := List.cons_eq_cons.mp hd
    exact absurd rfl hne
  | forgot save' h =>
    obtain ⟨rfl, rfl⟩ := List.cons_eq_cons.mp hs
    exact h

end Frames

end Cartel.Lib
