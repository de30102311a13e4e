import Cartel.Pool.Load

/-!
# Selections and what a slot admits

What is selected is the first eligible connection in the order in which a policy visits the
listed ones (`Inv.chosen_eq`). Only the selection for a group looks at what the Sync of a slot
admits : a group goes to a slot that is synced, and a synced slot admits it. The selection for a
transaction skips slots with an open pipeline, which would admit it, and takes one with an open
COPY, which does not ; the other selections look at no Sync at all. So a request is refused for
the COPY of another client, with a suitable connection listed, exactly when a slot with an open
COPY comes first (`Reached.agrees_iff`).
-/

namespace Cartel.Pg.Pool

open Cartel.Lib

variable {n top : ℕ} {φ : Type}
variable {links : Links n} {index : Index n top φ} {i : Fin n} {row : Fin (top + 1)}
variable {p : Fin n → Bool}

/-- An error for what another client has open on the connection. -/
def SyncError.isBusy : SyncError → Bool
  | .groupOpen _ | .requestCloseDuringCopy _ | .requestOpenDuringCopy _
  | .copyDuringPipeline _ => true
  | _ => false

/-- The selections without a target : `Set::select` for a boundary, and `Set::pick_begin`. -/
inductive Choice where
  | select (boundary : Boundary)
  | begin

/-- The boundary of what is selected for. -/
def Choice.boundary : Choice → Boundary
  | select boundary => boundary
  | begin => .begin

/-- Which slots are selected. -/
def Choice.eligible (choice : Choice) : Slot n φ → Bool :=
  match choice with
  | select .group => Slot.isSynced
  | select _ => fun _ => true
  | begin => Slot.canBegin

namespace Index

/-- What is selected. There is a result. -/
def chosen (policy : PickPolicy) (choice : Choice) (self : Index n top φ) :
    Option (Option (Listed n top)) :=
  match choice with
  | .select boundary => (self.pick policy boundary).map Prod.snd
  | .begin => some (self.pickBegin policy).2

/-- The listed connections in the order in which a policy visits them. -/
def visited (policy : PickPolicy) (self : Index n top φ) : List (Fin n) :=
  match policy with
  | .roundRobin => self.ring
  | .leastInflight => (List.finRange (top + 1)).flatMap self.heads

/-- A listed connection admits the boundary. -/
def Available (boundary : Boundary) (self : Index n top φ) : Prop :=
  ∃ i, (self.slots i).isListed = true ∧ ∃ permit, (self.slots i).tryReply boundary = .ok permit

/-- With a connection that admits the boundary, this one does not refuse it for what another
client has open on it. -/
def Agrees (boundary : Boundary) (self : Index n top φ) (i : Fin n) : Prop :=
  self.Available boundary →
    ∀ error, (self.slots i).tryReply boundary = .error error → error.isBusy = false

/-! ## What is selected -/

theorem find?_buckets {heads : Fin (top + 1) → List (Fin n)} (hrow : (heads row).find? p = some i)
    (hbelow : ∀ other, other < row → (heads other).find? p = none) :
    ((List.finRange (top + 1)).flatMap heads).find? p = some i := by
  obtain ⟨before, behind, hrange⟩ := List.append_of_mem (List.mem_finRange row)
  have hsorted : (List.finRange (top + 1)).Pairwise (· < ·) := List.pairwise_lt_finRange _
  rw [hrange, List.pairwise_append] at hsorted
  rw [List.find?_flatMap, List.findSome?_eq_some_iff]
  exact ⟨before, row, behind, hrange, hrow, fun other hother =>
    hbelow other (hsorted.2.2 other hother row List.mem_cons_self)⟩

theorem leastFrom_find? {eligible : Slot n φ → Bool} {rows : ℕ} {listed : Listed n top}
    (h : index.leastFrom eligible rows row = some listed) :
    (index.heads listed.rank).find? (fun i => eligible (index.slots i)) = some listed.index := by
  induction rows generalizing row with
  | zero => cases h
  | succ rows ih =>
    rw [leastFrom] at h
    split at h
    · next first hfirst =>
      cases h
      exact hfirst
    · split at h
      · cases h
      · exact ih h

theorem search_snd {before behind : List (Fin n)} :
    (search p before behind).2 = behind.find? p := by
  induction behind generalizing before with
  | nil => rfl
  | cons first behind ih =>
    rw [search]
    by_cases hfirst : p first = true
    · rw [if_pos hfirst, List.find?_cons_of_pos hfirst]
    · rw [if_neg hfirst, List.find?_cons_of_neg hfirst, ih]

end Index

/-- The first eligible bucket entry is the first of all that are visited. -/
theorem Bucketed.leastWhere_eq (h : Bucketed index) (eligible : Slot n φ → Bool) :
    (index.leastWhere eligible).map Listed.index =
      (index.visited .leastInflight).find? fun i => eligible (index.slots i) := by
  obtain ⟨hsome, hnone⟩ := Index.leastWhere_spec h eligible
  rcases hleast : index.leastWhere eligible with _ | listed
  · symm
    refine List.find?_eq_none.mpr fun i hi => ?_
    obtain ⟨row, -, hmem⟩ := List.mem_flatMap.mp hi
    rw [hnone hleast i row hmem]
    exact Bool.false_ne_true
  · obtain ⟨-, -, hfirst⟩ := hsome listed hleast
    obtain ⟨row, -, hrow⟩ := Option.bind_eq_some_iff.mp hleast
    refine (Index.find?_buckets (Index.leastFrom_find? hrow) fun other hlt => ?_).symm
    refine List.find?_eq_none.mpr fun i hi heligible => ?_
    exact absurd (hfirst i other hi heligible) (not_le.mpr hlt)

theorem Bucketed.least_eq (h : Bucketed index) :
    index.least.map (Option.map Listed.index) =
      some ((index.visited .leastInflight).find? fun _ => true) := by
  obtain ⟨listed, hlisted, hfront⟩ := Index.least_spec h
  rw [hlisted]
  refine congrArg some ?_
  unfold Index.least at hlisted
  rcases hminimum : index.minimum with _ | row
  · rw [hminimum] at hlisted
    cases hlisted
    symm
    refine List.find?_eq_none.mpr fun i hi => ?_
    obtain ⟨row, -, hmem⟩ := List.mem_flatMap.mp hi
    rw [h.minimum_eq_none.mp hminimum row] at hmem
    cases hmem
  · rw [hminimum] at hlisted
    obtain ⟨i, hhead, rfl⟩ := Option.map_eq_some_iff.mp hlisted
    have hrow : (index.heads row).find? (fun _ => true) = some i := by
      obtain ⟨tail, htail⟩ := List.head?_eq_some_iff.mp hhead
      rw [htail]
      rfl
    refine (Index.find?_buckets hrow fun other hlt => ?_).symm
    rcases hother : index.heads other with _ | ⟨j, tail⟩
    · rfl
    · have hle := (h.minimum_eq_some.mp hminimum).2 other (hother ▸ List.cons_ne_nil j tail)
      exact absurd hle (not_le.mpr hlt)

theorem Linked.listed_of_mem (h : Linked index) (hi : i ∈ index.ring) :
    (index.listed i).map Listed.index = some i := by
  obtain ⟨row, hrow⟩ := Option.isSome_iff_exists.mp ((h.mem_ring i).mp hi)
  unfold Index.listed
  rw [hrow]
  rfl

theorem Linked.nextWhere_eq (h : Linked index) (eligible : Slot n φ → Bool) :
    (index.nextWhere eligible).2.map Listed.index =
      (index.visited .roundRobin).find? fun i => eligible (index.slots i) := by
  change ((Index.search _ [] index.ring).2.bind index.listed).map _ = index.ring.find? _
  rw [Index.search_snd]
  rcases hfind : index.ring.find? (fun i => eligible (index.slots i)) with _ | i
  · rfl
  · exact h.listed_of_mem (List.mem_of_find?_eq_some hfind)

theorem Linked.next_eq (h : Linked index) :
    index.next.2.map Listed.index = (index.visited .roundRobin).find? fun _ => true := by
  unfold Index.next Index.visited
  dsimp only
  rcases hring : index.ring with _ | ⟨i, ring⟩
  · rfl
  · exact h.listed_of_mem (hring ▸ List.mem_cons_self)

/-- The first eligible connection that the policy visits is selected. -/
theorem Inv.chosen_eq (h : Inv index) (policy : PickPolicy) (choice : Choice) :
    ∃ listed, index.chosen policy choice = some listed ∧ listed.map Listed.index =
      (index.visited policy).find? fun i => choice.eligible (index.slots i) := by
  have hwhere : ∀ eligible, (index.pickWhere policy eligible).2.map Listed.index =
      (index.visited policy).find? fun i => eligible (index.slots i) := fun eligible => by
    cases policy with
    | roundRobin => exact h.linked.nextWhere_eq eligible
    | leastInflight => exact h.linked.leastWhere_eq eligible
  have hany : ∃ listed, ((match policy with
      | .roundRobin => some index.next
      | .leastInflight => index.least.map fun listed => (index, listed)).map Prod.snd) =
        some listed ∧ listed.map Listed.index =
          (index.visited policy).find? fun _ => true := by
    cases policy with
    | roundRobin => exact ⟨_, rfl, h.linked.next_eq⟩
    | leastInflight =>
      have hleast := h.linked.least_eq
      obtain ⟨listed, hlisted, heq⟩ := Option.map_eq_some_iff.mp hleast
      exact ⟨listed, by rw [hlisted]; rfl, heq⟩
  cases choice with
  | begin => exact ⟨_, rfl, hwhere Slot.canBegin⟩
  | select boundary =>
    cases boundary with
    | group => exact ⟨_, rfl, hwhere Slot.isSynced⟩
    | close | begin | commit | open' | external =>
      obtain ⟨listed, hlisted, heq⟩ := hany
      refine ⟨listed, ?_, heq⟩
      rw [← hlisted]
      cases policy <;> rfl

/-! ## What is admitted -/

namespace Slot

variable {slot : Slot n φ} {boundary : Boundary} {error : SyncError}

theorem tryReply_error (h : slot.tryReply boundary = .error error) :
    slot.sync.tryNext boundary = .error error := by
  unfold tryReply at h
  rcases hnext : slot.sync.tryNext boundary with error' | next
  · rw [hnext] at h
    cases h
    rfl
  · rw [hnext] at h
    cases h

/-- Other than a group, only an open COPY keeps a request out. -/
theorem isBusy_of_tryReply (hgroup : boundary ≠ .group) (hexternal : boundary ≠ .external)
    (h : slot.tryReply boundary = .error error) (hbusy : error.isBusy = true) :
    ∃ depth, slot.sync = .explicit depth := by
  have hnext := tryReply_error h
  cases hsync : slot.sync with
  | explicit depth => exact ⟨depth, rfl⟩
  | synced =>
    rw [hsync] at hnext
    cases boundary <;> cases hnext
  | automatic depth =>
    rw [hsync] at hnext
    cases boundary with
    | close | begin | commit => cases hnext
    | group => exact absurd rfl hgroup
    | external => exact absurd rfl hexternal
    | open' =>
      rw [Sync.tryNext] at hnext
      split at hnext
      · cases hnext
      · cases hnext
        cases hbusy

/-- An open COPY keeps every request out. -/
theorem tryReply_explicit {depth : Depth} (hexternal : boundary ≠ .external)
    (h : slot.sync = .explicit depth) :
    ∃ error, slot.tryReply boundary = .error error ∧ error.isBusy = true := by
  unfold tryReply
  rw [h]
  cases boundary with
  | close | begin | commit => exact ⟨.requestCloseDuringCopy depth, rfl, rfl⟩
  | group => exact ⟨.groupOpen depth, rfl, rfl⟩
  | open' => exact ⟨.requestOpenDuringCopy depth, rfl, rfl⟩
  | external => exact absurd rfl hexternal

theorem tryReply_group (h : slot.isSynced = true) (herror : slot.tryReply .group = .error error) :
    False := by
  have hnext := tryReply_error herror
  rw [of_decide_eq_true h] at hnext
  cases hnext

end Slot

/-- What is selected does not refuse a request that a listed connection admits, for what another
client has open on it, if and only if there is no such connection, or the first connection that
the policy visits, without those that are not eligible, has no open COPY. -/
theorem Reached.agrees_iff {state : State n top φ} (h : Reached links state) (policy : PickPolicy)
    (choice : Choice) (hexternal : choice.boundary ≠ .external) :
    (∀ listed, state.index.chosen policy choice = some (some listed) →
      state.index.Agrees choice.boundary listed.index) ↔
    (state.index.Available choice.boundary → ∀ i depth,
      ((state.index.visited policy).find? fun i => choice.eligible (state.index.slots i)) = some i →
        (state.index.slots i).sync ≠ .explicit depth) := by
  obtain ⟨listed, hchosen, hfirst⟩ := h.inv.1.chosen_eq policy choice
  rw [hchosen, ← hfirst]
  constructor
  · intro hagrees havailable i depth hi hsync
    obtain ⟨entry, rfl, rfl⟩ := Option.map_eq_some_iff.mp hi
    obtain ⟨error, herror, hbusy⟩ := Slot.tryReply_explicit hexternal hsync
    rw [hagrees entry rfl havailable error herror] at hbusy
    cases hbusy
  · intro hcopy entry hentry havailable error herror
    obtain rfl := Option.some.inj hentry
    by_contra hbusy
    rw [Bool.not_eq_false] at hbusy
    by_cases hgroup : choice = .select .group
    · subst hgroup
      have heligible := List.find?_some hfirst.symm
      exact Slot.tryReply_group heligible herror
    · have hgroup' : choice.boundary ≠ .group := by
        cases choice with
        | begin => exact fun h => by cases h
        | select boundary => exact fun h => hgroup (congrArg Choice.select h)
      obtain ⟨depth, hsync⟩ := Slot.isBusy_of_tryReply hgroup' hexternal herror hbusy
      exact hcopy havailable entry.index depth rfl hsync

/-- Of two connections that are ready one has a COPY open : both policies select it for a request
that ends a batch, and for a transaction, which the other one admits. -/
theorem Reached.copy_selected : ∃ state : State 2 4 Unit, Reached (.front 2) state ∧
    ∀ policy choice, choice = Choice.select .close ∨ choice = .begin →
      ∃ listed, state.index.chosen policy choice = some (some listed) ∧
        (state.index.slots listed.index).tryReply choice.boundary =
          .error (.requestCloseDuringCopy .one) ∧
        ¬state.index.Agrees choice.boundary listed.index := by
  have hnew : Reached (.front 2) (State.new : State 2 4 Unit) := .new
  have hbind := Reached.call (.bind (.zero 1)) hnew rfl rfl
  have hready := Reached.call (.tryReady (.zero 1)) hbind rfl rfl
  have hpick := Reached.call (.pick .roundRobin .external) hready rfl rfl
  have hcopy := Reached.call (.publish .external 1) hpick rfl rfl
  have hsecond := Reached.call (.bind ⟨1, 0⟩) hcopy rfl rfl
  have hboth := Reached.call (.tryReady ⟨1, 0⟩) hsecond rfl rfl
  have hother := Reached.call (.pick .roundRobin .close) hboth rfl rfl
  have hbusy := Reached.call (.publish .close 3) hother rfl rfl
  refine ⟨_, hbusy, fun policy choice hchoice => ⟨⟨0, 2⟩, ?_, ?_, fun hagrees => ?_⟩⟩
  · rcases hchoice with rfl | rfl <;> cases policy <;> rfl
  · rcases hchoice with rfl | rfl <;> rfl
  · rcases hchoice with rfl | rfl <;>
      exact Bool.false_ne_true (hagrees ⟨1, rfl, _, rfl⟩ _ rfl).symm

/-- Where no COPY is open, a request is not refused for one. -/
theorem Reached.agrees_idle : ∃ state : State 2 4 Unit, Reached (.front 2) state ∧
    ∀ policy listed, state.index.chosen policy .begin = some (some listed) →
      state.index.Agrees .begin listed.index := by
  have hnew : Reached (.front 2) (State.new : State 2 4 Unit) := .new
  have hbind := Reached.call (.bind (.zero 1)) hnew rfl rfl
  have hready := Reached.call (.tryReady (.zero 1)) hbind rfl rfl
  refine ⟨_, hready, fun policy => (hready.agrees_iff policy .begin fun h => by cases h).mpr
    fun _ i depth _ hcopy => ?_⟩
  obtain ⟨_ | _ | _, hi⟩ := i
  · cases hcopy
  · cases hcopy
  · omega

end Cartel.Pg.Pool
