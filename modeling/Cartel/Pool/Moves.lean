import Cartel.Lib.Count
import Cartel.Pool.Listing
import Cartel.Pool.Run
import Mathlib.Algebra.Order.BigOperators.Group.Finset

/-!
# What the calls of an index do

The invariant of an index : it lists what is shared and does not receive, and counts what is
ready and what blocks. Each call takes one slot to its new state, with the new priority of its
entry (`Moved`), which keeps the invariant.
-/

namespace Cartel.Pg.Pool

open Cartel.Lib

variable {n top : ℕ} {φ : Type}
variable {links : Links n} {index index' : Index n top φ} {i : Fin n} {row : Fin (top + 1)}
variable {token : Token n}

/-! ## Counted slots -/

namespace Slot

variable (slot : Slot n φ)

/-- Whether the slot is to be listed. -/
def isListed : Bool :=
  match slot.phase with
  | .ready _ (.shared _) false => true
  | _ => false

/-- Whether the slot is ready. -/
def isReady : Bool :=
  match slot.phase with
  | .ready _ _ _ => true
  | _ => false

/-- Whether the slot is reserved or held. -/
def isBlocker : Bool :=
  match slot.phase with
  | .ready _ (.reserved _) _ | .ready _ (.held _) _ => true
  | _ => false

/-- What the slot counts as ready. -/
def lives : ℕ :=
  if slot.isReady then 1 else 0

/-- What the slot counts as a blocker. -/
def blocks : ℕ :=
  if slot.isBlocker then 1 else 0

variable {slot} {slot' : Slot n φ}

theorem isListed_congr (h : slot'.phase = slot.phase) : slot'.isListed = slot.isListed := by
  rw [isListed, isListed, h]

theorem lives_congr (h : slot'.phase = slot.phase) : slot'.lives = slot.lives := by
  rw [lives, lives, isReady, isReady, h]

theorem blocks_congr (h : slot'.phase = slot.phase) : slot'.blocks = slot.blocks := by
  rw [blocks, blocks, isBlocker, isBlocker, h]

theorem isListed_iff :
    slot.isListed = true ↔
      ∃ bound sequence, slot.phase = .ready bound (.shared sequence) false := by
  unfold isListed
  split
  · next bound sequence heq => exact ⟨fun _ => ⟨bound, sequence, heq⟩, fun _ => rfl⟩
  · next hne =>
    refine iff_of_false Bool.false_ne_true ?_
    rintro ⟨bound, sequence, heq⟩
    exact absurd heq (hne bound sequence)

theorem lives_ready {bound bound' : Token n} {access access' : Access}
    {receiving receiving' : Bool} (slot' : Slot n φ)
    (h : slot.phase = .ready bound access receiving)
    (h' : slot'.phase = .ready bound' access' receiving') : slot'.lives = slot.lives := by
  simp [lives, isReady, h, h']

theorem blocks_ready {bound bound' : Token n} {access : Access} {receiving receiving' : Bool}
    (slot' : Slot n φ) (h : slot.phase = .ready bound access receiving)
    (h' : slot'.phase = .ready bound' access receiving') : slot'.blocks = slot.blocks := by
  cases access <;> simp [blocks, isBlocker, h, h']

variable (slot) (token : Token n)

theorem bind_cases : (slot.phase = .vacant ∧
      slot.bind token = ({ slot with batch := 0, phase := .handshaking token }, true)) ∨
    slot.bind token = (slot, false) := by
  unfold bind
  split
  · next heq => exact Or.inl ⟨heq, rfl⟩
  · exact Or.inr rfl

theorem tryReady_cases : (slot.phase = .handshaking token ∧
      slot.tryReady token = some { slot with phase := .ready token (.shared .initial) false }) ∨
    slot.tryReady token = none := by
  unfold tryReady
  split
  · next bound heq =>
    split_ifs with hbound
    · subst hbound
      exact Or.inl ⟨heq, by rw [heq]; rfl⟩
    · exact Or.inr rfl
  · exact Or.inr rfl

theorem tryRetire_cases : (∃ failure fate, slot.phase = .closing token failure fate ∧
      slot.tryRetire token = ({ slot with phase := .vacant }, true)) ∨
    (slot.tryRetire token).1 = slot := by
  unfold tryRetire
  split
  · next bound failure fate heq =>
    split_ifs with hbound
    · subst hbound
      exact Or.inl ⟨failure, fate, heq, rfl⟩
    · exact Or.inr rfl
  · exact Or.inr rfl
  · exact Or.inr rfl
  · exact Or.inr rfl

theorem setReceiving_cases (receiving : Bool) :
    (∃ access, slot.phase = .ready token access (!receiving) ∧
      slot.setReceiving token receiving =
        ({ slot with phase := .ready token access receiving }, true)) ∨
    slot.setReceiving token receiving = (slot, false) := by
  unfold setReceiving Lifecycle.setReceiving
  split
  · next bound access current heq =>
    split_ifs with hsame
    · exact Or.inr rfl
    · obtain ⟨hcurrent, hbound⟩ := not_or.mp hsame
      rw [not_not] at hbound
      subst hbound
      refine Or.inl ⟨access, ?_, rfl⟩
      rw [heq]
      cases current <;> cases receiving <;> simp at hcurrent ⊢
  · exact Or.inr rfl

/-- What a slot is in, where an access to it is current. -/
theorem phase_of_current : match slot.current token with
    | .shared => ∃ sequence receiving, slot.phase = .ready token (.shared sequence) receiving
    | .reserved id => id.conn = token ∧
      ∃ receiving, slot.phase = .ready token (.reserved id.generation) receiving
    | .held id => id.conn = token ∧
      ∃ receiving, slot.phase = .ready token (.held id.generation) receiving
    | .finalizing id => id.conn = token ∧
      ∃ receiving, slot.phase = .ready token (.finalizing id.generation) receiving
    | .stale | .handshaking | .draining | .closing =>
      ∀ sequence receiving, slot.phase ≠ .ready token (.shared sequence) receiving := by
  unfold current
  rcases slot.phase with _ | bound | ⟨bound, access, receiving⟩ | ⟨bound, failure, fate⟩
  · simp
  · by_cases hbound : bound = token <;> simp [hbound]
  · by_cases hbound : bound = token
    · subst hbound
      cases access <;> simp
    · simp [hbound]
  · by_cases hbound : bound = token <;> simp [hbound]

theorem finalize_cases (id : Transaction n) :
    (∃ receiving, slot.phase = .ready id.conn (.held id.generation) receiving ∧
      slot.finalize id = ({ slot with
        phase := .ready id.conn (.finalizing id.generation) receiving }, .pending id)) ∨
    slot.finalize id = (slot, .reusable id) ∨ slot.finalize id = (slot, .lost id) := by
  unfold finalize
  split
  · next bound access receiving heq =>
    split_ifs with hbound haccess
    · exact Or.inr (Or.inr rfl)
    · exact Or.inr (Or.inl rfl)
    · rw [not_not] at hbound haccess
      subst hbound haccess
      exact Or.inl ⟨receiving, heq, rfl⟩
  · exact Or.inr (Or.inr rfl)

end Slot

/-- What a closed connection counted as ready. -/
def Closed.lives : Closed n → ℕ
  | .handshaking | .closing => 0
  | .shared | .reserved _ | .held _ | .finalizing _ | .draining => 1

/-- What a closed connection counted as a blocker. -/
def Closed.blocks : Closed n → ℕ
  | .reserved _ | .held _ => 1
  | .handshaking | .shared | .finalizing _ | .draining | .closing => 0

theorem Slot.tryClose_some {slot slot' : Slot n φ} {cause failure : φ} {fate : Disposition}
    {state : Closed n} (h : slot.tryClose token cause fate = some (slot', state, failure)) :
    slot.phase.bound = some token ∧ state.lives = slot.lives ∧ state.blocks = slot.blocks ∧
      ∃ fate, slot' =
        { slot with sync := .synced, pending := 0, phase := .closing token failure fate } := by
  unfold tryClose at h
  rcases hphase : slot.phase with _ | bound | ⟨bound, access, receiving⟩ | ⟨bound, failure', old⟩
  all_goals simp only [hphase] at h
  · cases h
  · split_ifs at h with hbound
    cases h
    exact ⟨by rw [← hbound]; rfl, by simp [Closed.lives, lives, isReady, hphase],
      by simp [Closed.blocks, blocks, isBlocker, hphase], fate, rfl⟩
  · split_ifs at h with hbound
    cases access <;> cases h <;>
      exact ⟨by rw [← hbound]; rfl, by simp [Closed.lives, lives, isReady, hphase],
        by simp [Closed.blocks, blocks, isBlocker, hphase], fate, rfl⟩
  · split_ifs at h with hbound
    all_goals
      cases h
      exact ⟨by rw [← hbound]; rfl, by simp [Closed.lives, lives, isReady, hphase],
        by simp [Closed.blocks, blocks, isBlocker, hphase], _, rfl⟩

theorem Slot.tryClose_none {slot : Slot n φ} {cause : φ} {fate : Disposition}
    (h : slot.tryClose token cause fate = none) : slot.matches' token = false := by
  unfold tryClose at h
  rw [matches', decide_eq_false_iff_not]
  rcases hphase : slot.phase with _ | bound | ⟨bound, access, receiving⟩ | ⟨bound, failure', old⟩
  all_goals simp only [hphase] at h
  · exact fun h => by cases h
  · split_ifs at h with hbound
    exact fun h => hbound (Option.some.inj h)
  · split_ifs at h with hbound
    · cases access <;> cases h
    · exact fun h => hbound (Option.some.inj h)
  · split_ifs at h with hbound
    exact fun h => hbound (Option.some.inj h)

/-- The invariant of an index. -/
structure Inv (index : Index n top φ) : Prop where
  linked : Linked index
  listed : ∀ i, (index.priority i).isSome = (index.slots i).isListed
  live : index.live = ∑ i, (index.slots i).lives
  blockers : index.blockers = ∑ i, (index.slots i).blocks

/-- The index with a new slot, and a new priority of its entry. -/
structure Moved (index : Index n top φ) (i : Fin n) (slot : Slot n φ)
    (p : Option (Fin (top + 1))) (index' : Index n top φ) : Prop where
  linked : Linked index'
  slots : index'.slots = Function.update index.slots i slot
  priority : index'.priority = Function.update index.priority i p
  listed : p.isSome = slot.isListed
  live : index'.live + (index.slots i).lives = index.live + slot.lives
  blockers : index'.blockers + (index.slots i).blocks = index.blockers + slot.blocks

namespace Inv

theorem new : Inv (Index.new : Index n top φ) := by
  refine ⟨⟨⟨?_, ?_, ?_, ?_⟩, List.nodup_nil, ?_⟩, fun _ => rfl, ?_, ?_⟩
  · exact fun _ => List.nodup_nil
  · exact fun _ _ => by simp [Index.new]
  · exact fun _ => by simp [Index.new]
  · exact (Bitmap.find_eq_none.mpr fun _ _ => rfl).symm
  · exact fun _ => by simp [Index.new]
  · exact (Finset.sum_eq_zero fun _ _ => rfl).symm
  · exact (Finset.sum_eq_zero fun _ _ => rfl).symm

theorem moved {slot : Slot n φ} {p : Option (Fin (top + 1))} (h : Inv index)
    (hmoved : Moved index i slot p index') : Inv index' := by
  refine ⟨hmoved.linked, fun j => ?_, ?_, ?_⟩
  · rw [hmoved.slots, hmoved.priority]
    by_cases hj : j = i
    · subst hj
      rw [Function.update_self, Function.update_self, hmoved.listed]
    · rw [Function.update_of_ne hj, Function.update_of_ne hj, h.listed]
  · have hsum := sum_update index.slots Slot.lives i slot
    have hlive := hmoved.live
    rw [h.live] at hlive
    rw [hmoved.slots]
    omega
  · have hsum := sum_update index.slots Slot.blocks i slot
    have hblockers := hmoved.blockers
    rw [h.blockers] at hblockers
    rw [hmoved.slots]
    omega

theorem live_pos (h : Inv index) (hi : (index.slots i).lives = 1) : 0 < index.live := by
  have hle := Finset.single_le_sum (f := fun i => (index.slots i).lives)
    (fun _ _ => Nat.zero_le _) (Finset.mem_univ i)
  rw [h.live]
  omega

theorem blockers_pos (h : Inv index) (hi : (index.slots i).blocks = 1) : 0 < index.blockers := by
  have hle := Finset.single_le_sum (f := fun i => (index.slots i).blocks)
    (fun _ _ => Nat.zero_le _) (Finset.mem_univ i)
  rw [h.blockers]
  omega

/-- An entry that is not to be listed has no priority. -/
theorem unlisted (h : Inv index) (hi : (index.slots i).isListed = false) :
    index.priority i = none :=
  Option.not_isSome_iff_eq_none.mp (by rw [h.listed, hi]; exact Bool.false_ne_true)

/-- An entry that is to be listed has a priority. -/
theorem exists_priority (h : Inv index) (hi : (index.slots i).isListed = true) :
    ∃ row, index.priority i = some row :=
  Option.isSome_iff_exists.mp (by rw [h.listed, hi])

/-- An entry with a priority is of a slot that is shared, and does not receive. -/
theorem phase_of_priority (h : Inv index) (hi : index.priority i = some row) :
    ∃ bound sequence, (index.slots i).phase = .ready bound (.shared sequence) false :=
  Slot.isListed_iff.mp (by rw [← h.listed, hi]; rfl)

/-- A slot in a state that is listed and counted as before. -/
theorem set {slot : Slot n φ} (h : Inv index) (hlisted : slot.isListed = (index.slots i).isListed)
    (hlives : slot.lives = (index.slots i).lives) (hblocks : slot.blocks = (index.slots i).blocks) :
    Moved index i slot (index.priority i) (index.set i slot) :=
  ⟨h.linked.congr rfl rfl rfl rfl rfl, rfl, (Function.update_eq_self i index.priority).symm,
    (h.listed i).trans hlisted.symm, by rw [hlives]; rfl, by rw [hblocks]; rfl⟩

/-- A slot in the same phase. -/
theorem setSame {slot : Slot n φ} (h : Inv index) (hphase : slot.phase = (index.slots i).phase) :
    Moved index i slot (index.priority i) (index.set i slot) :=
  h.set (Slot.isListed_congr hphase) (Slot.lives_congr hphase) (Slot.blocks_congr hphase)

/-- A slot that is no more listed, or still not, where the counters are to be changed. -/
theorem insertRank (h : Inv index) (links : Links n) (i : Fin n) (row : Fin (top + 1))
    (slot : Slot n φ) (hold : (index.slots i).isListed = false)
    (hslot : slot.isListed = true) :
    ∃ index', (index.set i slot).insertRank links i row = some index' ∧
      index'.live = index.live ∧ index'.blockers = index.blockers ∧
      ∀ live blockers, live + (index.slots i).lives = index.live + slot.lives →
        blockers + (index.slots i).blocks = index.blockers + slot.blocks →
        Moved index i slot (some row) { index' with live, blockers } := by
  have hlinked : Linked (index.set i slot) := h.linked.congr rfl rfl rfl rfl rfl
  obtain ⟨index', hinsert, hre⟩ := hlinked.insertRank links row (h.unlisted hold)
  exact ⟨index', hinsert, hre.live, hre.blockers, fun live blockers hlive hblockers =>
    ⟨hre.linked.congr rfl rfl rfl rfl rfl, hre.slots, hre.priority, hslot.symm, hlive,
      hblockers⟩⟩

theorem remove (h : Inv index) (slot : Slot n φ) (hi : index.priority i = some row)
    (hslot : slot.isListed = false) :
    ∃ index', (index.set i slot).remove ⟨i, row⟩ = some index' ∧
      index'.live = index.live ∧ index'.blockers = index.blockers ∧
      ∀ live blockers, live + (index.slots i).lives = index.live + slot.lives →
        blockers + (index.slots i).blocks = index.blockers + slot.blocks →
        Moved index i slot none { index' with live, blockers } := by
  have hlinked : Linked (index.set i slot) := h.linked.congr rfl rfl rfl rfl rfl
  obtain ⟨index', hremove, hre⟩ := hlinked.remove hi
  exact ⟨index', hremove, hre.live, hre.blockers, fun live blockers hlive hblockers =>
    ⟨hre.linked.congr rfl rfl rfl rfl rfl, hre.slots, hre.priority, hslot.symm, hlive,
      hblockers⟩⟩

theorem unlist (h : Inv index) (i : Fin n) (slot : Slot n φ) (hslot : slot.isListed = false) :
    ∃ index', (index.set i slot).unlist (index.listed i) = some index' ∧
      index'.live = index.live ∧ index'.blockers = index.blockers ∧
      ∀ live blockers, live + (index.slots i).lives = index.live + slot.lives →
        blockers + (index.slots i).blocks = index.blockers + slot.blocks →
        Moved index i slot none { index' with live, blockers } := by
  rcases hpriority : index.priority i with _ | row
  · rw [Index.listed, hpriority]
    refine ⟨_, rfl, rfl, rfl, fun live blockers hlive hblockers =>
      ⟨h.linked.congr rfl rfl rfl rfl rfl, rfl, ?_, hslot.symm, hlive, hblockers⟩⟩
    rw [← hpriority]
    exact (Function.update_eq_self _ _).symm
  · rw [Index.listed, hpriority]
    exact h.remove slot hpriority hslot

/-! ## Transitions -/

theorem bind (h : Inv index) : Moved index token.index ((index.slots token.index).bind token).1
    (index.priority token.index) (index.bind token).1 := by
  unfold Index.bind
  rcases Slot.bind_cases (index.slots token.index) token with
    ⟨hphase, hbind⟩ | hbind
  all_goals rw [hbind]
  · refine h.set ?_ ?_ ?_
    · simp [Slot.isListed, hphase]
    · simp [Slot.lives, Slot.isReady, hphase]
    · simp [Slot.blocks, Slot.isBlocker, hphase]
  · exact h.setSame rfl

theorem tryReady (h : Inv index) (links : Links n) (token : Token n) :
    (∃ index', index.tryReady links token = some (index', true) ∧
      (index.slots token.index).phase = .handshaking token ∧
      Moved index token.index
        { index.slots token.index with phase := .ready token (.shared .initial) false }
        (some (clamp top 0)) index') ∨
    index.tryReady links token = some (index, false) := by
  rcases Slot.tryReady_cases (index.slots token.index) token with
    ⟨hphase, hready⟩ | hready
  · obtain ⟨index', hinsert, hlive, hblockers, hmoved⟩ := h.insertRank links token.index
      (clamp top 0) { index.slots token.index with phase := .ready token (.shared .initial) false }
      (by simp [Slot.isListed, hphase]) rfl
    refine Or.inl ⟨{ index' with live := index'.live + 1 }, ?_, hphase,
      hmoved (index'.live + 1) index'.blockers ?_ ?_⟩
    · simp only [Index.tryReady, hready, Index.insert, hinsert]
      rfl
    · simp [Slot.lives, Slot.isReady, hphase, hlive]
    · simp [Slot.blocks, Slot.isBlocker, hphase, hblockers]
  · exact Or.inr (by rw [Index.tryReady, hready])

theorem reserve (h : Inv index) (hi : index.priority i = some row) :
    ∃ bound sequence, (index.slots i).phase = .ready bound (.shared sequence) false ∧
      ((∃ next index', sequence.next = some next ∧
        index.reserve ⟨i, row⟩ = some (index', some ⟨i, row, ⟨bound, next⟩⟩) ∧
        Moved index i { index.slots i with phase := .ready bound (.reserved next) false } none
          index') ∨
      ∃ index', sequence.next = none ∧ index.reserve ⟨i, row⟩ = some (index', none) ∧
        Moved index i { index.slots i with phase := .ready bound .draining false } none
          index') := by
  obtain ⟨bound, sequence, hphase⟩ := h.phase_of_priority hi
  refine ⟨bound, sequence, hphase, ?_⟩
  rcases hnext : sequence.next with _ | next
  · obtain ⟨index', hremove, hlive, hblockers, hmoved⟩ := h.remove
      { index.slots i with phase := .ready bound .draining false } hi rfl
    refine Or.inr ⟨index', rfl, ?_, hmoved index'.live index'.blockers ?_ ?_⟩
    · simp only [Index.reserve, Slot.reserve, hphase, hnext, Option.bind_eq_bind,
        Option.bind_some, hremove]
      rfl
    · simp [Slot.lives, Slot.isReady, hphase, hlive]
    · simp [Slot.blocks, Slot.isBlocker, hphase, hblockers]
  · obtain ⟨index', hremove, hlive, hblockers, hmoved⟩ := h.remove
      { index.slots i with phase := .ready bound (.reserved next) false } hi rfl
    refine Or.inl ⟨next, { index' with blockers := index'.blockers + 1 }, rfl, ?_,
      hmoved index'.live (index'.blockers + 1) ?_ ?_⟩
    · simp only [Index.reserve, Slot.reserve, hphase, hnext, Option.bind_eq_bind,
        Option.bind_some, hremove]
      rfl
    · simp [Slot.lives, Slot.isReady, hphase, hlive]
    · simp [Slot.blocks, Slot.isBlocker, hphase, hblockers]

theorem release {id : Transaction n} (h : Inv index) (links : Links n) (row : Fin (top + 1))
    (hphase : (index.slots i).phase = .ready id.conn (.reserved id.generation) false) :
    ∃ index', index.release links ⟨i, row, id⟩ = some index' ∧
      Moved index i { index.slots i with
        phase := .ready id.conn (.shared id.generation.sequence) false } (some row) index' := by
  obtain ⟨index', hinsert, hlive, hblockers, hmoved⟩ := h.insertRank links i row
    { index.slots i with phase := .ready id.conn (.shared id.generation.sequence) false }
    (by simp [Slot.isListed, hphase]) rfl
  have hpos : 0 < index.blockers := h.blockers_pos (i := i) (by
    simp [Slot.blocks, Slot.isBlocker, hphase])
  refine ⟨{ index' with blockers := index'.blockers - 1 }, ?_,
    hmoved index'.live (index'.blockers - 1) ?_ ?_⟩
  · simp only [Index.release, Slot.setAccess, Lifecycle.setAccess, hphase, Option.bind_eq_bind,
      Option.bind_some, Option.pure_def, hinsert]
    rw [Index.unblock, if_neg (by omega)]
  · simp [Slot.lives, Slot.isReady, hphase, hlive]
  · simp [Slot.blocks, Slot.isBlocker, hphase, hblockers]
    omega

theorem pollReady (h : Inv index) (links : Links n) (token : Token n) (status : Status)
    (depth : ℕ) : ∃ index' answer,
    index.pollReady links token status depth = some (index', answer) ∧
      ((index' = index ∧ (status = .idle → ∀ generation receiving,
        (index.slots token.index).phase ≠ .ready token (.finalizing generation) receiving)) ∨
      (∃ generation receiving,
        (index.slots token.index).phase = .ready token (.reserved generation) receiving ∧
        Moved index token.index
          { index.slots token.index with phase := .ready token (.held generation) receiving } none
          index') ∨
      ∃ generation receiving,
        (index.slots token.index).phase = .ready token (.finalizing generation) receiving ∧
        Moved index token.index { index.slots token.index with
            phase := .ready token (.shared generation.sequence) receiving }
          (if receiving then none else some (clamp top depth)) index') := by
  have hphase := Slot.phase_of_current (index.slots token.index) token
  unfold Index.pollReady
  rcases hcurrent : (index.slots token.index).current token with _ | _ | _ | id | id | id | _ | _
  all_goals rw [hcurrent] at hphase
  case reserved =>
    obtain ⟨hconn, receiving, hphase⟩ := hphase
    cases status with
    | idle => exact ⟨index, _, rfl, Or.inl ⟨rfl, fun _ _ _ => by simp [hphase]⟩⟩
    | transaction =>
      have hlisted : (index.slots token.index).isListed = false := by
        simp [Slot.isListed, hphase]
      refine ⟨_, _, by simp only [Slot.setAccess, Lifecycle.setAccess, hphase]; rfl,
        Or.inr (Or.inl ⟨id.generation, receiving, hphase, ?_⟩)⟩
      rw [← h.unlisted hlisted]
      refine h.set (hlisted ▸ rfl) ?_ ?_
      · simp [Slot.lives, Slot.isReady, hphase]
      · simp [Slot.blocks, Slot.isBlocker, hphase]
  case finalizing =>
    obtain ⟨hconn, receiving, hphase⟩ := hphase
    cases status with
    | transaction => exact ⟨index, _, rfl, Or.inl ⟨rfl, fun h => by cases h⟩⟩
    | idle =>
      have hlisted : (index.slots token.index).isListed = false := by
        simp [Slot.isListed, hphase]
      cases receiving with
      | true =>
        refine ⟨_, _, by simp only [Slot.setAccess, Lifecycle.setAccess, hphase]; rfl,
          Or.inr (Or.inr ⟨id.generation, true, hphase, ?_⟩)⟩
        rw [if_pos rfl, ← h.unlisted hlisted]
        refine h.set (hlisted ▸ rfl) ?_ ?_
        · simp [Slot.lives, Slot.isReady, hphase]
        · simp [Slot.blocks, Slot.isBlocker, hphase]
      | false =>
        obtain ⟨index', hinsert, hlive, hblockers, hmoved⟩ := h.insertRank links
          token.index (clamp top depth) { index.slots token.index with
            phase := .ready token (.shared id.generation.sequence) false } hlisted rfl
        refine ⟨index', (.ready, some id), ?_, Or.inr (Or.inr ⟨id.generation, false, hphase,
          hmoved index'.live index'.blockers ?_ ?_⟩)⟩
        · simp only [Slot.setAccess, Lifecycle.setAccess, hphase, Index.insert,
            Lifecycle.isReceiving, Option.bind_eq_bind, Option.bind_some, Option.pure_def,
            Bool.false_eq_true, if_false, hinsert]
        · simp [Slot.lives, Slot.isReady, hphase, hlive]
        · simp [Slot.blocks, Slot.isBlocker, hphase, hblockers]
  case held =>
    obtain ⟨-, receiving, hphase⟩ := hphase
    exact ⟨index, _, rfl, Or.inl ⟨rfl, fun _ _ _ => by simp [hphase]⟩⟩
  all_goals
    refine ⟨index, _, rfl, Or.inl ⟨rfl, fun _ generation receiving hfinalizing => ?_⟩⟩
    rw [Slot.current, hfinalizing] at hcurrent
    simp at hcurrent

theorem finalize (h : Inv index) (id : Transaction n) : ∃ index' state,
    index.finalize id = some (index', state) ∧
      ((index' = index ∧ (state = .reusable id ∨ state = .lost id)) ∨
      ∃ receiving, state = .pending id ∧
        (index.slots id.conn.index).phase = .ready id.conn (.held id.generation) receiving ∧
        Moved index id.conn.index { index.slots id.conn.index with
          phase := .ready id.conn (.finalizing id.generation) receiving } none index') := by
  have hself : index.set id.conn.index (index.slots id.conn.index) = index := by
    rw [Index.set, Function.update_eq_self]
  unfold Index.finalize
  rcases Slot.finalize_cases (index.slots id.conn.index) id with
    ⟨receiving, hphase, hfinalize⟩ | hfinalize | hfinalize
  all_goals rw [hfinalize]
  · have hlisted : (index.slots id.conn.index).isListed = false := by
      simp [Slot.isListed, hphase]
    have hpos : 0 < index.blockers := h.blockers_pos (i := id.conn.index) (by
      simp [Slot.blocks, Slot.isBlocker, hphase])
    refine ⟨{ index.set id.conn.index { index.slots id.conn.index with
      phase := .ready id.conn (.finalizing id.generation) receiving } with
      blockers := index.blockers - 1 }, _, ?_, Or.inr ⟨receiving, rfl, hphase, ?_⟩⟩
    · dsimp only
      rw [Index.unblock, if_neg (show ¬(Index.set _ _ index).blockers = 0 from hpos.ne')]
      rfl
    · rw [← h.unlisted hlisted]
      refine ⟨h.linked.congr rfl rfl rfl rfl rfl, rfl, (Function.update_eq_self _ _).symm,
        by rw [h.unlisted hlisted]; rfl, ?_, ?_⟩
      · simp [Slot.lives, Slot.isReady, hphase, Index.set]
      · simp [Slot.blocks, Slot.isBlocker, hphase]
        omega
  · exact ⟨index, _, congrArg (fun index => some (index, _)) hself, Or.inl ⟨rfl, Or.inl rfl⟩⟩
  · exact ⟨index, _, congrArg (fun index => some (index, _)) hself, Or.inl ⟨rfl, Or.inr rfl⟩⟩

theorem close (h : Inv index) (token : Token n) (cause : φ) (fate : Disposition) :
    (∃ index' state failure fate',
      index.close token cause fate = some (index', some (state, failure)) ∧
      (index.slots token.index).phase.bound = some token ∧
      Moved index token.index { index.slots token.index with
        sync := .synced, pending := 0, phase := .closing token failure fate' } none index') ∨
    (index.slots token.index).matches' token = false ∧
      index.close token cause fate = some (index, none) := by
  rcases hclose : (index.slots token.index).tryClose token cause fate with
    _ | ⟨slot, state, failure⟩
  · exact Or.inr ⟨Slot.tryClose_none hclose, by rw [Index.close, hclose]⟩
  · obtain ⟨hbound, hlives, hblocks, fate', rfl⟩ := Slot.tryClose_some hclose
    obtain ⟨index', hunlist, hlive, hblockers, hmoved⟩ := h.unlist token.index
      { index.slots token.index with
        sync := .synced, pending := 0, phase := .closing token failure fate' } rfl
    have hlivepos : state.lives = 1 → index'.live ≠ 0 := fun hstate => by
      rw [hlive]
      exact (h.live_pos (hlives ▸ hstate)).ne'
    have hblockerspos : state.blocks = 1 → index'.blockers ≠ 0 := fun hstate => by
      rw [hblockers]
      exact (h.blockers_pos (hblocks ▸ hstate)).ne'
    refine Or.inl ⟨{ index' with
      live := index'.live - state.lives, blockers := index'.blockers - state.blocks }, state,
      failure, fate', ?_, hbound, hmoved _ _ ?_ ?_⟩
    · simp only [Index.close, hclose, Option.bind_eq_bind, hunlist, Option.bind_some]
      have hfall : index'.live ≠ 0 → index'.fall = some { index' with live := index'.live - 1 } :=
        fun hne => by rw [Index.fall, if_neg hne]
      have hunblock : index'.blockers ≠ 0 →
          index'.unblock = some { index' with blockers := index'.blockers - 1 } :=
        fun hne => by rw [Index.unblock, if_neg hne]
      cases state
      case reserved | held =>
        simp only [Option.bind_some, hunblock (hblockerspos rfl), Index.fall, hlivepos rfl,
          if_false]
        rfl
      case shared | finalizing | draining =>
        simp only [Option.bind_some, hfall (hlivepos rfl)]
        rfl
      case handshaking | closing => rfl
    · have hle : state.lives ≤ 1 := by cases state <;> simp [Closed.lives]
      change _ = index.live + 0
      omega
    · have hle : state.blocks ≤ 1 := by cases state <;> simp [Closed.blocks]
      change _ = index.blockers + 0
      omega

theorem reindex (h : Inv index) (links : Links n) (token : Token n) (depth : ℕ) : ∃ index' drained,
    index.reindex links token depth = some (index', drained) ∧
      ((index' = index ∧
        ∀ sequence, (index.slots token.index).phase ≠ .ready token (.shared sequence) false) ∨
      ∃ sequence, (index.slots token.index).phase = .ready token (.shared sequence) false ∧
        Moved index token.index (index.slots token.index)
          (some (clamp top (depth + (index.slots token.index).barriers))) index') := by
  have hphase := Slot.phase_of_current (index.slots token.index) token
  unfold Index.reindex
  dsimp only
  rcases hcurrent : (index.slots token.index).current token with _ | _ | _ | id | id | id | _ | _
  all_goals rw [hcurrent] at hphase
  case shared =>
    obtain ⟨sequence, receiving, hphase⟩ := hphase
    cases receiving with
    | true =>
      have hlisted : index.listed token.index = none := by
        rw [Index.listed, h.unlisted (by simp [Slot.isListed, hphase])]
        rfl
      refine ⟨index, none, by rw [Index.reprioritize, hlisted]; rfl, Or.inl ⟨rfl, ?_⟩⟩
      simp [hphase]
    | false =>
      have hlisted : (index.slots token.index).isListed = true := by
        simp [Slot.isListed, hphase]
      obtain ⟨row, hrow⟩ := h.exists_priority hlisted
      obtain ⟨index', hre, hrelisted⟩ := h.linked.reprioritizeListed links hrow
        (depth + (index.slots token.index).barriers)
      refine ⟨index', none, by rw [Index.reprioritize, Index.listed, hrow, Option.map_some]
                               simp only [hre]; rfl, Or.inr ⟨sequence, hphase, ?_⟩⟩
      exact ⟨hrelisted.linked, hrelisted.slots.trans (Function.update_eq_self _ _).symm,
        hrelisted.priority, hlisted.symm, by rw [hrelisted.live], by rw [hrelisted.blockers]⟩
  case reserved | held | finalizing =>
    obtain ⟨-, receiving, hphase⟩ := hphase
    exact ⟨index, none, rfl, Or.inl ⟨rfl, by simp [hphase]⟩⟩
  all_goals exact ⟨index, _, rfl, Or.inl ⟨rfl, fun sequence => hphase sequence false⟩⟩

theorem setReceiving (h : Inv index) (links : Links n) (token : Token n) (receiving : Bool)
    (depth : ℕ) : ∃ index' waited,
    index.setReceiving links token receiving depth = some (index', waited) ∧
      (index' = index ∨ ∃ access p,
        (index.slots token.index).phase = .ready token access (!receiving) ∧
        (p = none ∨
          p = some (clamp top (depth + (index.slots token.index).barriers))) ∧
        Moved index token.index
          { index.slots token.index with phase := .ready token access receiving } p index') := by
  unfold Index.setReceiving
  dsimp only
  rcases Slot.setReceiving_cases (index.slots token.index) token receiving with
    ⟨access, hphase, hset⟩ | hset
  · have hlives := Slot.lives_ready
      { index.slots token.index with phase := .ready token access receiving } hphase rfl
    have hblocks := Slot.blocks_ready
      { index.slots token.index with phase := .ready token access receiving } hphase rfl
    rw [hset]
    cases receiving with
    | true =>
      obtain ⟨index', hunlist, hlive, hblockers, hmoved⟩ := h.unlist token.index
        { index.slots token.index with phase := .ready token access true }
        (by cases access <;> rfl)
      refine ⟨index', false, ?_, Or.inr ⟨access, none, hphase, Or.inl rfl,
        hmoved index'.live index'.blockers (by rw [hlives, hlive]) (by rw [hblocks, hblockers])⟩⟩
      exact congrArg (fun index => index.bind fun index => some (index, false)) hunlist
    | false =>
      have hlisted : (index.slots token.index).isListed = false := by
        simp [Slot.isListed, hphase]
      by_cases hshared : ∃ sequence, access = .shared sequence
      · obtain ⟨sequence, rfl⟩ := hshared
        obtain ⟨index', hinsert, hlive, hblockers, hmoved⟩ := h.insertRank links
          token.index (clamp top (depth + (index.slots token.index).barriers))
          { index.slots token.index with phase := .ready token (.shared sequence) false }
          hlisted rfl
        refine ⟨index', true, ?_, Or.inr ⟨.shared sequence, _, hphase, Or.inr rfl,
          hmoved index'.live index'.blockers (by rw [hlives, hlive]) (by rw [hblocks, hblockers])⟩⟩
        have hcurrent : Slot.current ({ index.slots token.index with
            phase := .ready token (.shared sequence) false } : Slot n φ) token = .shared := by
          simp [Slot.current]
        rw [if_neg (by simp), if_neg (by simp), if_pos hcurrent]
        exact congrArg (fun index => index.bind fun index => some (index, true)) hinsert
      · have hnew : Slot.isListed ({ index.slots token.index with
            phase := .ready token access false } : Slot n φ) = false := by
          cases access with
          | shared sequence => exact absurd ⟨sequence, rfl⟩ hshared
          | _ => rfl
        have hcurrent : Slot.current ({ index.slots token.index with
            phase := .ready token access false } : Slot n φ) token ≠ .shared := by
          cases access with
          | shared sequence => exact absurd ⟨sequence, rfl⟩ hshared
          | _ => simp [Slot.current]
        refine ⟨_, true, by rw [if_neg (by simp), if_neg (by simp), if_neg hcurrent],
          Or.inr ⟨access, none, hphase, Or.inl rfl, ?_⟩⟩
        rw [← h.unlisted hlisted]
        exact h.set (hnew.trans hlisted.symm) hlives hblocks
  · rw [hset]
    refine ⟨index, false, ?_, Or.inl rfl⟩
    simp [Index.set]

theorem tryRetire (h : Inv index) (token : Token n) : (index.tryRetire token).1 = index ∨
    ∃ failure fate, (index.slots token.index).phase = .closing token failure fate ∧
      Moved index token.index { index.slots token.index with phase := .vacant } none
        (index.tryRetire token).1 := by
  unfold Index.tryRetire
  dsimp only
  rcases Slot.tryRetire_cases (index.slots token.index) token with
    ⟨failure, fate, hphase, hretire⟩ | hretire
  · rw [hretire]
    have hlisted : (index.slots token.index).isListed = false := by simp [Slot.isListed, hphase]
    refine Or.inr ⟨failure, fate, hphase, ?_⟩
    rw [← h.unlisted hlisted]
    refine h.set (hlisted ▸ rfl) ?_ ?_
    · simp [Slot.lives, Slot.isReady, hphase]
    · simp [Slot.blocks, Slot.isBlocker, hphase]
  · exact Or.inl (by rw [hretire, Index.set, Function.update_eq_self])

end Inv

end Cartel.Pg.Pool
