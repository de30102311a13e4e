import Cartel.Scram.Derivations
import Cartel.Scram.Standard

/-!
# No wakeup of a derivation is lost

A step of the runtime is a ticket that is made, polled, cancelled or dropped. The tickets
that are woken and have not been polled since are remembered beside it.

The front of an entry's lane is always woken, and the front of the unassigned lane is woken
once it can be admitted (`Sys.Awake`). What a step makes possible for the tickets that wait,
it wakes the front of their lane for (`Covers`).
-/

set_option linter.unusedSectionVars false

namespace Cartel.Pg.Scram

open Cartel.Lib

variable {ω : Type} [DecidableEq ω] {compress256 : Words → List UInt8 → Words}
  {password : List UInt8}

namespace Runtime

variable {key : ω → KdfKey} {rounds : Index → ℕ} {loose : Option Index}
  {s s' t : Runtime ω} {o x : ω} {i : Index} {l : Option Index} {wakes : List ω}

/-! ## What a step opens -/

/-- A ticket that waits could go on, if it were polled. -/
def Proceeds (compress256 : Words → List UInt8 → Words) (password : List UInt8)
    (key : ω → KdfKey) (s : Runtime ω) (x : ω) : Prop :=
  match s.waiters.member x with
  | none => False
  | some none => (s.coordinator.select compress256 (key x)
      (if s.front none = none ∨ s.front none = some x then some password else none)).isSome
  | some (some i) => s.front (some i) = some x ∨ s.coordinator.computes i = false

/-- An entry is cleared, or ready, or cached. -/
def Opens (s s' : Runtime ω) : Prop :=
  ∃ i, (s.coordinator.entries i ≠ none ∧ s'.coordinator.entries i = none) ∨
    (s.coordinator.computes i = true ∧ s'.coordinator.computes i = false) ∨
    ∃ b, s'.coordinator.cached b = some i ∧ ∀ b, s.coordinator.cached b ≠ some i

/-- What a step of the ticket `o` opens for others, it wakes the front of their lane for. -/
structure Covers (key : ω → KdfKey) (s : Runtime ω) (o : ω) (wakes : List ω)
    (s' : Runtime ω) : Prop where
  stays : ∀ l x, x ∈ s'.waiters.lane l → x ≠ o →
    x ∈ s.waiters.lane l ∧ s'.waiters.member x = s.waiters.member x
  unassigned : (∀ x, s'.front none = some x → x ∈ wakes) ∨
    ((∀ x, x ≠ o → s'.front none = some x → s.front none = some x) ∧
      ∀ k admitted, s'.coordinator.Selects k admitted → s.coordinator.Selects k admitted)
  assigned : ∀ i, (∀ x, s'.front (some i) = some x → x ∈ wakes) ∨
    ((∀ x, s'.front (some i) = some x → s.front (some i) = some x) ∧
      (s.coordinator.computes i = true → s'.coordinator.computes i = true))
  self_unassigned : s'.front none = some o → o ∈ wakes ∨ ¬s'.coordinator.Selects (key o) True
  self_assigned : ∀ i, s'.front (some i) = some o → o ∈ wakes
  opens : s.Opens s' → ∀ x, s'.front none = some x → x ∈ wakes

theorem Inv.member_of_mem (h : s.Inv compress256 password key rounds loose)
    (hx : x ∈ s.waiters.lane l) : s.waiters.member x = some l := by
  rcases l with - | i
  · exact h.unassigned x hx
  · exact (h.assigned x i).mpr hx

theorem Inv.member_front (h : s.Inv compress256 password key rounds loose)
    (hfront : s.front l = some x) : s.waiters.member x = some l :=
  h.member_of_mem (Waiters.front_mem hfront)

theorem front_take (h : (s.waiters.take o).front l = some x) (hfront : s.front l ≠ some o) :
    s.front l = some x := by
  unfold front Waiters.front at *
  change (s.waiters.without o l).head? = some x at h
  unfold Waiters.without at h
  rcases hlane : s.waiters.lane l with - | ⟨y, rest⟩
  · rw [hlane] at h
    cases h
  · rw [hlane] at h hfront
    have hne : y ≠ o := fun heq => hfront (heq ▸ rfl)
    rw [List.filter_cons, if_pos (decide_eq_true hne)] at h
    exact h

theorem front_take_ne (h : (s.waiters.take o).front l = some x) : x ≠ o :=
  (Waiters.mem_without.mp (Waiters.front_mem h)).2

theorem not_opens (h : s'.coordinator = s.coordinator) : ¬s.Opens s' := by
  rintro ⟨i, hopens⟩
  rw [h] at hopens
  rcases hopens with ⟨hne, heq⟩ | ⟨htrue, hfalse⟩ | ⟨b, hb, hnot⟩
  · exact hne heq
  · rw [htrue] at hfalse
    cases hfalse
  · exact hnot b hb

/-- A step that leaves the runtime as it is. -/
theorem Inv.covers_idle (h : s.Inv compress256 password key rounds none)
    (hgone : s.waiters.member o ≠ some none)
    (hbehind : ∀ i, s.waiters.member o = some (some i) → s.front (some i) ≠ some o) :
    s.Covers key o [] s where
  stays := fun _ _ hx _ => ⟨hx, rfl⟩
  unassigned := Or.inr ⟨fun _ _ hx => hx, fun _ _ hk => hk⟩
  assigned := fun _ => Or.inr ⟨fun _ hx => hx, fun hx => hx⟩
  self_unassigned := fun hfront => absurd (h.member_front hfront) hgone
  self_assigned := fun i hfront => absurd hfront (hbehind i (h.member_front hfront))
  opens := fun hopens => absurd hopens (not_opens rfl)

theorem Inv.job_eq {j : Index} (h : s.Inv compress256 password key rounds loose)
    (hmember : s.waiters.member o = some (some i)) (hx : o ∈ s.waiters.lane (some j)) : j = i := by
  have hj := (h.assigned o j).mpr hx
  exact Option.some.inj (Option.some.inj (hj.symm.trans hmember))

/-- A lane that the ticket is not in. -/
theorem take_front_of_not_mem (ho : o ∉ s.waiters.lane l) :
    (s.waiters.take o).front l = s.front l := by
  unfold front Waiters.front
  exact congrArg List.head? (Waiters.without_of_not_mem ho)

theorem mem_toList_front (h : (s.waiters.take o).front l = some x) :
    x ∈ ((s.waiters.take o).front l).toList := by
  rw [h]
  exact List.mem_singleton_self x

theorem stays_take (hx : x ∈ (s.waiters.take o).lane l) (hne : x ≠ o) :
    x ∈ s.waiters.lane l ∧ (s.waiters.take o).member x = s.waiters.member x :=
  ⟨(Waiters.mem_without.mp hx).1, Function.update_of_ne hne ..⟩

/-- The front of the lane that a ticket leaves is woken, if the ticket was the front. -/
theorem woken_front (h : (s.waiters.take o).front l = some x) : s.front l = some x ∨
    x ∈ (if s.front l = some o then (s.waiters.take o).front l else none).toList := by
  by_cases hfront : s.front l = some o
  · rw [if_pos hfront]
    exact Or.inr (mem_toList_front h)
  · exact Or.inl (front_take h hfront)

/-- A ticket without a job leaves. -/
theorem Inv.covers_unassigned (h : s.Inv compress256 password key rounds none)
    (hmember : s.waiters.member o = some none) : s.Covers key o
      (if s.front none = some o then (s.waiters.take o).front none else none).toList
        ⟨s.waiters.take o, s.coordinator⟩ where
  stays := fun _ _ => stays_take
  unassigned := by
    by_cases hfront : s.front none = some o
    · rw [if_pos hfront]
      exact Or.inl fun x hx => mem_toList_front hx
    · exact Or.inr ⟨fun x _ hx => front_take hx hfront, fun _ _ hk => hk⟩
  assigned := fun i => Or.inr ⟨fun x hx =>
    (take_front_of_not_mem (h.not_in_lane hmember)).symm.trans hx, fun hx => hx⟩
  self_unassigned := fun hfront => absurd rfl (front_take_ne hfront)
  self_assigned := fun i hfront => absurd rfl (front_take_ne hfront)
  opens := fun hopens => absurd hopens (not_opens rfl)

/-- A ticket leaves others in the lane of its entry. -/
theorem Inv.covers_others {next : ω} (h : s.Inv compress256 password key rounds none)
    (hmember : s.waiters.member o = some (some i))
    (hnext : (s.waiters.take o).front (some i) = some next) : s.Covers key o
      (if s.front (some i) = some o then some next else none).toList
        ⟨s.waiters.take o, s.coordinator⟩ where
  stays := fun _ _ => stays_take
  unassigned := by
    have hnot : o ∉ s.waiters.lane none := fun ho => by
      rw [h.unassigned o ho] at hmember
      cases hmember
    exact Or.inr ⟨fun x _ hx => (take_front_of_not_mem hnot).symm.trans hx, fun _ _ hk => hk⟩
  assigned := fun j => by
    by_cases hj : j = i
    · subst hj
      by_cases hfront : s.front (some j) = some o
      · rw [if_pos hfront, ← hnext]
        exact Or.inl fun x hx => mem_toList_front hx
      · exact Or.inr ⟨fun x hx => front_take hx hfront, fun hx => hx⟩
    · exact Or.inr ⟨fun x hx => (take_front_of_not_mem fun ho =>
        hj (h.job_eq hmember ho)).symm.trans hx, fun hx => hx⟩
  self_unassigned := fun hfront => absurd rfl (front_take_ne hfront)
  self_assigned := fun j hfront => absurd rfl (front_take_ne hfront)
  opens := fun hopens => absurd hopens (not_opens rfl)

/-- A ticket leaves an entry, and the fronts of its lane and of the unassigned one are
woken. -/
theorem Inv.covers_opened {coordinator : Coordinator}
    (h : s.Inv compress256 password key rounds none)
    (hmember : s.waiters.member o = some (some i))
    (hnone : ∀ x, (s.waiters.take o).front none = some x → x ∈ wakes)
    (hown : ∀ x, (s.waiters.take o).front (some i) = some x → x ∈ wakes)
    (hcomputes : ∀ j, j ≠ i → s.coordinator.computes j = true → coordinator.computes j = true) :
    s.Covers key o wakes ⟨s.waiters.take o, coordinator⟩ where
  stays := fun _ _ => stays_take
  unassigned := Or.inl hnone
  assigned := fun j => by
    by_cases hj : j = i
    · subst hj
      exact Or.inl hown
    · exact Or.inr ⟨fun x hx => (take_front_of_not_mem fun ho =>
        hj (h.job_eq hmember ho)).symm.trans hx, hcomputes j hj⟩
  self_unassigned := fun hfront => absurd rfl (front_take_ne hfront)
  self_assigned := fun j hfront => absurd rfl (front_take_ne hfront)
  opens := fun _ => hnone

theorem Inv.computes_cache {j : Index} (h : s.Inv compress256 password key rounds loose)
    (hcomputes : s.coordinator.computes j = true) : (s.coordinator.cache i).computes j = true := by
  unfold Coordinator.computes at hcomputes ⊢
  rw [Coordinator.cache_entries]
  split_ifs with hsecond
  · obtain ⟨k, keys, hready⟩ := h.cached _ j hsecond
    rw [hready] at hcomputes
    cases hcomputes
  · exact hcomputes

/-- A ticket is released. -/
theorem Inv.covers_release (h : s.Inv compress256 password key rounds none) :
    s.Covers key o (s.release o).2.1.toList (s.release o).1 := by
  rcases hmember : s.waiters.member o with - | - | i
  · have hrelease : s.release o = (s, none, false) := by
      unfold Runtime.release
      rw [hmember]
    rw [hrelease]
    exact h.covers_idle (by rw [hmember]; exact nofun) (by rw [hmember]; exact nofun)
  · rw [release_unassigned hmember]
    exact h.covers_unassigned hmember
  · rcases hnext : (s.waiters.take o).front (some i) with - | next
    · obtain ⟨⟨k, state⟩, hentry, -⟩ := h.entry hmember
      rcases state with kdf | keys
      · rw [release_computing hmember hnext hentry]
        refine h.covers_opened hmember (fun x => mem_toList_front)
          (fun x hx => by rw [hnext] at hx; cases hx) fun j hj hcomputes => ?_
        unfold Coordinator.clear Coordinator.computes at *
        dsimp only
        rw [Function.update_of_ne hj]
        exact hcomputes
      · rw [release_ready hmember hnext hentry]
        exact h.covers_opened hmember (fun x => mem_toList_front)
          (fun x hx => by rw [hnext] at hx; cases hx) fun j _ => h.computes_cache
    · rw [release_others hmember hnext]
      exact h.covers_others hmember hnext

theorem computes_advanced {j : Index} {state : EntryState} (hj : j ≠ i) :
    (s.coordinator.advanced i state).computes j = s.coordinator.computes j := by
  unfold Coordinator.advanced Coordinator.computes
  dsimp only
  rw [Function.update_of_ne hj]

/-- The last slice of a derivation : those who wait for the entry are behind a front that is
woken, and so is the front of the unassigned lane. -/
theorem Inv.covers_completes {kdf : Kdf} {keys : Keys} {others : Option ω}
    (h : s.Inv compress256 password key rounds none)
    (hmember : s.waiters.member o = some (some i)) (hfront : s.front (some i) = some o)
    (hentry : s.coordinator.entries i = some ⟨key o, .computing kdf⟩)
    (ht : t = ⟨s.waiters, s.coordinator.advanced i (.ready keys)⟩)
    (hothers : others = if (t.release o).2.2 then (t.release o).1.front none else none) :
    s.Covers key o ((t.release o).2.1.toList ++ others.toList) (t.release o).1 := by
  have hentry' : t.coordinator.entries i = some ⟨key o, .ready keys⟩ := by
    rw [ht]
    exact advanced_entries hentry
  have hwaiters : t.waiters = s.waiters := by rw [ht]
  have hcomputes : ∀ j, j ≠ i → t.coordinator.computes j = s.coordinator.computes j := by
    intro j hj
    rw [ht]
    exact computes_advanced hj
  have hmember' : t.waiters.member o = some (some i) := hwaiters ▸ hmember
  have hfront' : t.front (some i) = some o := by
    unfold front
    rw [hwaiters]
    exact hfront
  rcases hnext : (t.waiters.take o).front (some i) with - | next
  · have hrelease := release_ready hmember' hnext hentry'
    rw [hrelease] at hothers ⊢
    rw [hwaiters] at hnext ⊢
    refine h.covers_opened hmember
      (fun x hx => List.mem_append_left _ (mem_toList_front hx))
      (fun x hx => by rw [hnext] at hx; cases hx) fun j hj hold => ?_
    unfold Coordinator.computes
    rw [Coordinator.cache_entries]
    split_ifs with hsecond
    · rw [ht] at hsecond
      obtain ⟨k, keys, hready⟩ := h.cached _ j hsecond
      unfold Coordinator.computes at hold
      rw [hready] at hold
      cases hold
    · exact (hcomputes j hj).trans hold
  · have hrelease := release_others hmember' hnext
    rw [hrelease] at hothers ⊢
    dsimp only at hothers ⊢
    rw [if_pos hfront'] at ⊢
    rw [if_pos rfl] at hothers
    subst hothers
    rw [hwaiters] at hnext ⊢
    refine h.covers_opened hmember
      (fun x hx => List.mem_append_right _ (mem_toList_front hx))
      (fun x hx => ?_) fun j hj hold => (hcomputes j hj).trans hold
    rw [hnext] at hx
    cases hx
    exact List.mem_append_left _ (List.mem_singleton_self _)

/-- Going further changes no key of an entry, and not which entries are being computed. -/
theorem advanced_cases {k : KdfKey} {kdf : Kdf} {c : Coordinator} (kdf' : Kdf)
    (hentry : c.entries i = some ⟨k, .computing kdf⟩) (j : Index) :
    (c.advanced i (.computing kdf')).entries j = c.entries j ∨
      ((c.advanced i (.computing kdf')).entries j = some ⟨k, .computing kdf'⟩ ∧
        c.entries j = some ⟨k, .computing kdf⟩) := by
  unfold Coordinator.advanced
  dsimp only
  by_cases hj : j = i
  · subst hj
    rw [Function.update_self, hentry]
    exact Or.inr ⟨rfl, rfl⟩
  · rw [Function.update_of_ne hj]
    exact Or.inl rfl

theorem computing_advanced {k : KdfKey} {kdf kdf' : Kdf} {c : Coordinator}
    (hentry : c.entries i = some ⟨k, .computing kdf⟩) :
    (c.advanced i (.computing kdf')).computing = c.computing := by
  unfold Coordinator.computing
  refine Finset.sum_congr rfl fun j _ => ?_
  rcases advanced_cases kdf' hentry j with h | ⟨h, h'⟩
  · rw [h]
  · rw [h, h']
    rfl

theorem selects_advanced {k k' : KdfKey} {kdf kdf' : Kdf} {c : Coordinator} {admitted : Prop}
    (hentry : c.entries i = some ⟨k, .computing kdf⟩)
    (hselects : (c.advanced i (.computing kdf')).Selects k' admitted) : c.Selects k' admitted := by
  rcases hselects with ⟨j, e, he, hkey⟩ | ⟨hadmitted, hfew, hroom⟩
  · rcases advanced_cases kdf' hentry j with h | ⟨h, h'⟩
    · exact Or.inl ⟨j, e, h ▸ he, hkey⟩
    · rw [h] at he
      cases he
      exact Or.inl ⟨j, _, h', hkey⟩
  · rw [computing_advanced hentry] at hfew
    refine Or.inr ⟨hadmitted, hfew, hroom.imp_left ?_⟩
    rintro ⟨j, hj⟩
    rcases advanced_cases kdf' hentry j with h | ⟨h, -⟩
    · exact ⟨j, h ▸ hj⟩
    · rw [h] at hj
      cases hj

theorem computes_slice {k : KdfKey} {kdf kdf' : Kdf} {c : Coordinator}
    (hentry : c.entries i = some ⟨k, .computing kdf⟩) (j : Index) :
    (c.advanced i (.computing kdf')).computes j = c.computes j := by
  unfold Coordinator.computes
  rcases advanced_cases kdf' hentry j with h | ⟨h, h'⟩
  · rw [h]
  · rw [h, h']
    rfl

/-- A slice that is not the last. -/
theorem Inv.covers_advances {kdf kdf' : Kdf} (h : s.Inv compress256 password key rounds none)
    (hmember : s.waiters.member o = some (some i))
    (hentry : s.coordinator.entries i = some ⟨key o, .computing kdf⟩) :
    s.Covers key o [o] ⟨s.waiters, s.coordinator.advanced i (.computing kdf')⟩ where
  stays := fun _ _ hx _ => ⟨hx, rfl⟩
  unassigned := Or.inr ⟨fun _ _ hx => hx, fun _ _ => selects_advanced hentry⟩
  assigned := fun j => Or.inr ⟨fun _ hx => hx, fun hj => (computes_slice hentry j).trans hj⟩
  self_unassigned := fun hfront => by
    rw [h.member_front (l := none) hfront] at hmember
    cases hmember
  self_assigned := fun _ _ => List.mem_singleton_self o
  opens := by
    rintro ⟨j, ⟨hne, heq⟩ | ⟨htrue, hfalse⟩ | ⟨b, hb, hnot⟩⟩
    · rcases advanced_cases _ hentry j with h | ⟨h, -⟩
      · exact absurd (h ▸ heq) hne
      · exact nomatch h.symm.trans heq
    · rw [computes_slice hentry j, htrue] at hfalse
      cases hfalse
    · exact absurd hb (hnot b)

/-- A ticket waits without an entry. -/
theorem Inv.covers_waits (h : s.Inv compress256 password key rounds none)
    (hmember : s.waiters.member o = some none)
    (hselect : ¬s.coordinator.Selects (key o) (s.front none = none ∨ s.front none = some o)) :
    s.Covers key o [] ⟨s.waiters.set o, s.coordinator⟩ := by
  have hset : (s.waiters.set o).front none = s.front none ∨
      (s.front none = none ∧ (s.waiters.set o).front none = some o) := by
    unfold Waiters.set front Waiters.front
    dsimp only
    rw [Function.update_self]
    split_ifs
    · exact Or.inl rfl
    · rcases s.waiters.lane none with - | ⟨y, rest⟩
      · exact Or.inr ⟨rfl, rfl⟩
      · exact Or.inl rfl
  have hlane : ∀ i, (⟨s.waiters.set o, s.coordinator⟩ : Runtime ω).front (some i) =
      s.front (some i) := fun i => congrArg List.head? Waiters.lane_set
  refine ⟨fun l x hx hne => ?_, Or.inr ⟨fun x hne hx => ?_, fun _ _ hk => hk⟩,
    fun i => Or.inr ⟨fun x hx => (hlane i).symm.trans hx, fun hi => hi⟩, fun hfront => Or.inr ?_,
    fun i hfront => ?_, fun hopens => absurd hopens (not_opens rfl)⟩
  · rcases Waiters.mem_set.mp hx with hx | ⟨heq, -⟩
    · exact ⟨hx, rfl⟩
    · exact absurd heq hne
  · rcases hset with heq | ⟨-, heq⟩
    · exact heq.symm.trans hx
    · exact absurd (Option.some.inj (heq.symm.trans hx)).symm hne
  · intro hselects
    refine hselect (hselects.imp_right fun hroom => ⟨?_, hroom.2⟩)
    rcases hset with heq | ⟨hnone, -⟩
    · exact Or.inr (heq.symm.trans hfront)
    · exact Or.inl hnone
  · rw [hlane] at hfront
    rw [h.member_front hfront] at hmember
    cases hmember

theorem front_push (hl : l ≠ some i) :
    (s.waiters.push o i).front l = (s.waiters.take o).front l :=
  congrArg List.head? (Function.update_of_ne hl ..)

theorem front_push_none : (s.waiters.push o i).front none = (s.waiters.take o).front none :=
  front_push (Option.some_ne_none i).symm

theorem stays_push (hx : x ∈ (s.waiters.push o i).lane l) (hne : x ≠ o) :
    x ∈ s.waiters.lane l ∧ (s.waiters.push o i).member x = s.waiters.member x := by
  rcases Waiters.mem_push.mp hx with ⟨hx, -⟩ | ⟨heq, -⟩
  · exact ⟨hx, Waiters.member_push_of_ne hne⟩
  · exact absurd heq hne

theorem join_wakes : (s.join o i).2 =
    (if s.front none = some o then (s.waiters.take o).front none else none).toList := by
  unfold join
  dsimp only
  split_ifs
  · exact congrArg Option.toList front_push_none
  · rfl

/-- A ticket joins others. -/
theorem Inv.covers_joins (h : s.Inv compress256 password key rounds none)
    (hmember : s.waiters.member o = some none) (hlane : s.waiters.lane (some i) ≠ []) :
    s.Covers key o (s.join o i).2 (s.join o i).1 := by
  have hnot : ∀ j, o ∉ s.waiters.lane (some j) := fun j => h.not_in_lane hmember
  have hfront : ∀ j, (s.waiters.push o i).front (some j) = s.front (some j) := by
    intro j
    by_cases hj : j = i
    · subst hj
      unfold Waiters.push front Waiters.front
      dsimp only
      rw [Function.update_self, Waiters.without_of_not_mem (hnot j), List.head?_append_of_ne_nil _ hlane]
    · rw [front_push fun heq => hj (Option.some.inj heq)]
      exact take_front_of_not_mem (hnot j)
  have hcovers := h.covers_unassigned hmember
  rw [join_wakes]
  refine ⟨fun _ _ => stays_push, ?_, fun j => Or.inr ⟨fun x hx => (hfront j).symm.trans hx,
    fun hx => hx⟩, fun hx => ?_, fun j hx => ?_, fun hopens => absurd hopens (not_opens rfl)⟩
  · have hnone := hcovers.unassigned
    unfold front at hnone ⊢
    rw [show (s.join o i).1.waiters = s.waiters.push o i from rfl, front_push_none]
    exact hnone
  · exact hcovers.self_unassigned (front_push_none.symm.trans hx)
  · have hmember' := h.member_front ((hfront j).symm.trans hx)
    rw [hmember] at hmember'
    cases hmember'

/-- A ticket starts a derivation. -/
theorem Inv.covers_starts {cached : Bool → Option Index} {kdf kdf' : Kdf}
    (h : s.Inv compress256 password key rounds none) (hmember : s.waiters.member o = some none)
    (hfront : s.front none = none ∨ s.front none = some o)
    (hroom : (s.coordinator.entries i = none ∧ cached = s.coordinator.cached) ∨
      ∃ b, s.coordinator.cached b = some i ∧ cached = s.coordinator.uncache b) :
    s.Covers key o ((s.join o i).2 ++ [o]) ⟨s.waiters.push o i,
      (s.coordinator.insert i cached ⟨key o, .computing kdf⟩).advanced i (.computing kdf')⟩ := by
  have hself : (s.waiters.push o i).front (some i) = some o := by
    unfold Waiters.front Waiters.push Waiters.without
    dsimp only
    rw [Function.update_self, h.room_lane hroom]
    rfl
  have hothers : ∀ j, j ≠ i → (s.waiters.push o i).front (some j) = s.front (some j) := by
    intro j hj
    rw [front_push fun heq => hj (Option.some.inj heq)]
    exact take_front_of_not_mem (h.not_in_lane hmember)
  have hnone : ∀ x, (s.waiters.push o i).front none = some x → x ∈ (s.join o i).2 ++ [o] := by
    intro x hx
    rw [front_push_none] at hx
    rw [join_wakes]
    rcases woken_front hx with hold | hwoken
    · rcases hfront with hempty | hfront
      · rw [hempty] at hold
        cases hold
      · exact absurd (Option.some.inj (hold.symm.trans hfront)) (front_take_ne hx)
    · exact List.mem_append_left _ hwoken
  refine ⟨fun _ _ => stays_push, Or.inl hnone, fun j => ?_, fun _ => Or.inl ?_, fun j _ => ?_,
    fun _ => hnone⟩
  · by_cases hj : j = i
    · subst hj
      refine Or.inl fun x hx => ?_
      rw [Option.some.inj (hx.symm.trans hself)]
      exact List.mem_append_right _ (List.mem_singleton_self o)
    · refine Or.inr ⟨fun x hx => (hothers j hj).symm.trans hx, fun hcomputes => ?_⟩
      unfold Coordinator.computes Coordinator.advanced Coordinator.insert at *
      dsimp only
      rw [Function.update_of_ne hj, Function.update_of_ne hj]
      exact hcomputes
  · exact List.mem_append_right _ (List.mem_singleton_self o)
  · exact List.mem_append_right _ (List.mem_singleton_self o)

/-- A poll wakes the fronts it opens something for. -/
theorem Inv.covers_turn {p : Polled ω} (h : s.Inv compress256 password key rounds none)
    (hturn : Turn compress256 password key s o p) : s.Covers key o p.wakes p.runtime := by
  cases hturn with
  | gone hmember =>
    exact h.covers_idle (by rw [hmember]; exact nofun) (by rw [hmember]; exact nofun)
  | waits hmember hselect => exact h.covers_waits hmember hselect
  | joins hmember hentry hlane => exact h.covers_joins hmember hlane
  | starts hmember hfront hfew hroom => exact h.covers_starts hmember hfront hroom
  | behind hmember hfront hentry =>
    refine h.covers_idle (by rw [hmember]; exact nofun) fun j hj => ?_
    rw [hmember] at hj
    cases hj
    exact hfront
  | advances hmember hfront hentry hmore => exact h.covers_advances hmember hentry
  | completes hmember hfront hentry hlast hkeys ht hothers =>
    exact h.covers_completes hmember hfront hentry ht hothers
  | takes hmember hentry => exact h.covers_release

/-- A ticket that is in no lane. -/
theorem covers_apart (hlane : ∀ l, o ∉ s.waiters.lane l) {w : Waiters ω}
    (hw : w.lane = s.waiters.lane) (hmember : ∀ x, x ≠ o → w.member x = s.waiters.member x) :
    s.Covers key o [] ⟨w, s.coordinator⟩ := by
  have hfront : ∀ l, (⟨w, s.coordinator⟩ : Runtime ω).front l = s.front l := fun l => by
    unfold front Waiters.front
    rw [hw]
  have hnot : ∀ l, (⟨w, s.coordinator⟩ : Runtime ω).front l ≠ some o := fun l hx =>
    hlane l (Waiters.front_mem ((hfront l).symm.trans hx))
  refine ⟨fun l x hx hne => ⟨?_, hmember x hne⟩, Or.inr ⟨fun x _ hx => (hfront none).symm.trans hx,
    fun _ _ hk => hk⟩, fun i => Or.inr ⟨fun x hx => (hfront _).symm.trans hx, fun hi => hi⟩,
    fun hx => absurd hx (hnot none), fun i hx => absurd hx (hnot _),
    fun hopens => absurd hopens (not_opens rfl)⟩
  rw [← hw]
  exact hx

theorem take_lane (hlane : ∀ l, o ∉ s.waiters.lane l) :
    (s.waiters.take o).lane = s.waiters.lane :=
  funext fun l => Waiters.without_of_not_mem (hlane l)

/-! ## Which tickets a step touches -/

theorem release_member (hx : x ≠ o) : (s.release o).1.waiters.member x = s.waiters.member x := by
  unfold release
  rcases s.waiters.member o with - | - | i
  · rfl
  · exact Function.update_of_ne hx ..
  · unfold releaseJob
    dsimp only
    rcases (s.waiters.take o).front (some i) with - | next
    · exact Function.update_of_ne hx ..
    · exact Function.update_of_ne hx ..

theorem release_self (hmember : s.waiters.member o ≠ none) :
    (s.release o).1.waiters.member o = none := by
  unfold release
  rcases hjob : s.waiters.member o with - | - | i
  · exact absurd hjob hmember
  · exact Function.update_self ..
  · unfold releaseJob
    dsimp only
    rcases (s.waiters.take o).front (some i) with - | next
    · exact Function.update_self ..
    · exact Function.update_self ..

/-- A poll leaves the jobs of the other tickets. -/
theorem Turn.member {p : Polled ω} (hturn : Turn compress256 password key s o p) (hx : x ≠ o) :
    p.runtime.waiters.member x = s.waiters.member x := by
  cases hturn with
  | gone | waits | behind | advances => rfl
  | joins | starts => exact Waiters.member_push_of_ne hx
  | completes _ _ _ _ _ ht _ =>
    rw [ht]
    exact release_member hx
  | takes => exact release_member hx

/-- A ticket with a job keeps it, or is released. -/
theorem Turn.member_self {p : Polled ω} (hturn : Turn compress256 password key s o p)
    (hmember : s.waiters.member o = some (some i)) :
    p.runtime.waiters.member o = some (some i) ∨ p.runtime.waiters.member o = none := by
  cases hturn with
  | gone | waits | behind | advances => exact Or.inl hmember
  | joins hmember' =>
    rw [hmember] at hmember'
    cases hmember'
  | starts hmember' =>
    rw [hmember] at hmember'
    cases hmember'
  | completes hmember' _ _ _ _ ht _ =>
    rw [ht]
    refine Or.inr (release_self ?_)
    rw [show (⟨s.waiters, _⟩ : Runtime ω).waiters.member o = some (some i) from hmember]
    exact Option.some_ne_none _
  | takes => exact Or.inr (release_self (hmember ▸ Option.some_ne_none _))

/-- Only the front of a lane runs rounds of its entry. -/
theorem Inv.turn_front {p : Polled ω} (h : s.Inv compress256 password key rounds none)
    (hturn : Turn compress256 password key s o p)
    (hran : s.counted rounds p.ran i ≠ rounds i) : s.front (some i) = some o ∨
      (s.waiters.lane (some i) = [] ∧ p.runtime.front (some i) = some o) := by
  have hother : ∀ j n, s.counted rounds (some (j, n)) i ≠ rounds i → i = j := by
    intro j n hne
    by_contra hij
    exact hne (Function.update_of_ne hij ..)
  cases hturn with
  | gone | waits | joins | behind | takes => exact absurd rfl hran
  | advances _ hfront | completes _ hfront =>
    rw [hother _ _ hran]
    exact Or.inl hfront
  | starts _ _ _ hroom =>
    have hi := hother _ _ hran
    subst hi
    have hlane := h.room_lane hroom
    refine Or.inr ⟨hlane, ?_⟩
    unfold front Waiters.front Waiters.push Waiters.without
    dsimp only
    rw [Function.update_self, hlane]
    rfl

end Runtime

/-! ## The system -/

/-- The runtime, the key that each ticket polls with, the rounds of each entry, and the tickets
that are woken and were not polled since. -/
structure Sys (ω : Type) where
  runtime : Runtime ω
  key : ω → KdfKey
  rounds : Index → ℕ
  woken : Set ω

/-- A step of the ticket `o`, and the connections it wakes. A ticket is cancelled before it
is dropped, unless it is in no lane. -/
inductive Sys.Step (compress256 : Words → List UInt8 → Words) (password : List UInt8)
    (s : Sys ω) : ω → List ω → Sys ω → Prop where
  | create {o : ω} (k : KdfKey) (hfree : s.runtime.waiters.member o = none) :
    Step compress256 password s o [] ⟨s.runtime.tryEntry o, Function.update s.key o k, s.rounds,
      s.woken \ {o}⟩
  | poll {o : ω} {p : Polled ω}
      (hpoll : s.runtime.poll compress256 o (s.key o) password = some p) :
    Step compress256 password s o p.wakes ⟨p.runtime, s.key, s.runtime.counted s.rounds p.ran,
      (s.woken \ {o}) ∪ {x | x ∈ p.wakes}⟩
  | cancel {o : ω} :
    Step compress256 password s o (s.runtime.cancel o).2.toList ⟨(s.runtime.cancel o).1, s.key,
      s.rounds, (s.woken \ {o}) ∪ {x | x ∈ (s.runtime.cancel o).2.toList}⟩
  | drop {o : ω} (hlane : ∀ l, o ∉ s.runtime.waiters.lane l) :
    Step compress256 password s o [] ⟨⟨s.runtime.waiters.take o, s.runtime.coordinator⟩, s.key,
      s.rounds, s.woken \ {o}⟩

/-- What steps of any tickets, in any order, lead to. -/
inductive Sys.Reached (compress256 : Words → List UInt8 → Words) (password : List UInt8) :
    Sys ω → Prop where
  | new (key : ω → KdfKey) : Reached compress256 password ⟨.new, key, fun _ => 0, ∅⟩
  | step {s s' : Sys ω} {o : ω} {wakes : List ω} (h : Reached compress256 password s)
      (hstep : s.Step compress256 password o wakes s') : Reached compress256 password s'

namespace Sys

variable {s s' : Sys ω} {o : ω} {wakes : List ω}

/-- The invariant of the runtime, at the keys and rounds beside it. -/
def Inv (compress256 : Words → List UInt8 → Words) (password : List UInt8) (s : Sys ω) : Prop :=
  s.runtime.Inv compress256 password s.key s.rounds none

/-- The front of an entry's lane is woken, and so is the front of the unassigned lane when
it can be admitted. -/
structure Awake (s : Sys ω) : Prop where
  assigned : ∀ i x, s.runtime.front (some i) = some x → x ∈ s.woken
  unassigned : ∀ x, s.runtime.front none = some x →
    s.runtime.coordinator.Selects (s.key x) True → x ∈ s.woken

theorem Inv.step (h : s.Inv compress256 password) (hstep : s.Step compress256 password o wakes s') :
    s'.Inv compress256 password := by
  cases hstep with
  | create k hfree => exact Runtime.Inv.tryEntry h hfree k
  | @poll p hpoll =>
    obtain ⟨p', hpoll', hturn⟩ := h.poll_turn o
    rw [hpoll] at hpoll'
    cases hpoll'
    exact Runtime.Inv.turn h hturn
  | cancel => exact Runtime.Inv.release h
  | drop hlane =>
    rcases hmember : s.runtime.waiters.member o with - | - | i
    · have htake : s.runtime.waiters.take o = s.runtime.waiters := by
        have hnone : Function.update s.runtime.waiters.member o none = s.runtime.waiters.member :=
          Function.update_eq_self_iff.mpr hmember.symm
        unfold Waiters.take
        rw [hnone, show s.runtime.waiters.without o = s.runtime.waiters.lane from
          Runtime.take_lane hlane]
      rw [htake]
      exact h
    · exact Runtime.Inv.take h hmember
    · exact absurd ((Runtime.Inv.assigned h o i).mp hmember) (hlane _)

/-- A step covers what it opens, keeps the keys of the other tickets, and wakes. -/
theorem Inv.covers (h : s.Inv compress256 password) (hstep : s.Step compress256 password o wakes s') :
    s.runtime.Covers s'.key o wakes s'.runtime ∧ (∀ x, x ≠ o → s'.key x = s.key x) ∧
      ∀ x, x ∈ s'.woken ↔ (x ∈ s.woken ∧ x ≠ o) ∨ x ∈ wakes := by
  cases hstep with
  | create k hfree =>
    have hlane : ∀ l, o ∉ s.runtime.waiters.lane l := fun l ho => by
      rw [Runtime.Inv.member_of_mem h ho] at hfree
      cases hfree
    refine ⟨Runtime.covers_apart hlane rfl fun x hx => Function.update_of_ne hx .., fun x hx =>
      Function.update_of_ne hx .., fun x => ?_⟩
    simp
  | @poll p hpoll =>
    obtain ⟨p', hpoll', hturn⟩ := h.poll_turn o
    rw [hpoll] at hpoll'
    cases hpoll'
    exact ⟨Runtime.Inv.covers_turn h hturn, fun _ _ => rfl, fun _ => Iff.rfl⟩
  | cancel => exact ⟨Runtime.Inv.covers_release h, fun _ _ => rfl, fun _ => Iff.rfl⟩
  | drop hlane =>
    refine ⟨Runtime.covers_apart hlane (Runtime.take_lane hlane) fun x hx =>
      Function.update_of_ne hx .., fun _ _ => rfl, fun x => ?_⟩
    simp

theorem Awake.step (hinv : s.Inv compress256 password) (h : s.Awake)
    (hstep : s.Step compress256 password o wakes s') : s'.Awake := by
  obtain ⟨hcovers, hkey, hwoken⟩ := hinv.covers hstep
  refine ⟨fun i x hx => (hwoken x).mpr ?_, fun x hx hselects => (hwoken x).mpr ?_⟩
  · by_cases hxo : x = o
    · subst hxo
      exact Or.inr (hcovers.self_assigned i hx)
    · rcases hcovers.assigned i with hwakes | ⟨hfront, -⟩
      · exact Or.inr (hwakes x hx)
      · exact Or.inl ⟨h.assigned i x (hfront x hx), hxo⟩
  · by_cases hxo : x = o
    · subst hxo
      exact Or.inr ((hcovers.self_unassigned hx).resolve_right fun hnot => hnot hselects)
    · rcases hcovers.unassigned with hwakes | ⟨hfront, hsame⟩
      · exact Or.inr (hwakes x hx)
      · rw [hkey x hxo] at hselects
        exact Or.inl ⟨h.unassigned x (hfront x hxo hx) (hsame _ _ hselects), hxo⟩

theorem Reached.inv (h : s.Reached compress256 password) : s.Inv compress256 password ∧ s.Awake := by
  induction h with
  | new key => exact ⟨Runtime.inv_new, nofun, nofun⟩
  | step _ hstep ih => exact ⟨ih.1.step hstep, ih.2.step ih.1 hstep⟩

/-! ## The scheduler -/

/-- A ticket is another one, or behind it in a lane. -/
def AtOrBehind (lane : List ω) (y x : ω) : Prop :=
  ∃ ahead rest, lane = ahead ++ y :: rest ∧ x ∈ y :: rest

/-- What holds of a state. -/
structure Sound (compress256 : Words → List UInt8 → Words) (password : List UInt8)
    (s : Sys ω) : Prop where
  /-- At most four entries are being computed. -/
  few : s.runtime.coordinator.computing ≤ 4
  /-- An entry that a ticket waits for is there with its key, and is not in the cache. -/
  owned : ∀ o i, s.runtime.waiters.member o = some (some i) →
    (∃ e, s.runtime.coordinator.entries i = some e ∧ e.key = s.key o) ∧
      ∀ b, s.runtime.coordinator.cached b ≠ some i
  /-- An entry that is being computed has a waiter. -/
  waited : ∀ i, s.runtime.coordinator.computes i = true → s.runtime.waiters.lane (some i) ≠ []
  /-- The rounds of an entry, with those that are left and the value it started from, are the
  iterations of its key. -/
  counted : ∀ i e, s.runtime.coordinator.entries i = some e →
    match e.state with
    | .computing kdf => s.rounds i + kdf.remaining + 1 = e.key.iterations.get
    | .ready _ => s.rounds i + 1 = e.key.iterations.get
  /-- No branch marked as unreachable is taken. -/
  reachable : ∀ o, (s.runtime.poll compress256 o (s.key o) password).isSome
  /-- The front of an entry's lane is woken. -/
  assigned : ∀ i x, s.runtime.front (some i) = some x → x ∈ s.woken
  /-- The front of the unassigned lane is woken if it can go on. -/
  unassigned : ∀ x, s.runtime.front none = some x →
    s.runtime.Proceeds compress256 password s.key x → x ∈ s.woken

/-- What a step of the ticket `o` does. -/
structure Keeps (compress256 : Words → List UInt8 → Words) (password : List UInt8) (s : Sys ω)
    (o : ω) (wakes : List ω) (s' : Sys ω) : Prop where
  /-- A ticket keeps its entry, and the entry its key, until the ticket is released. -/
  kept : ∀ x i, s.runtime.waiters.member x = some (some i) →
    (s'.runtime.waiters.member x = some (some i) ∧ ∃ e e', e'.key = e.key ∧
      s.runtime.coordinator.entries i = some e ∧ s'.runtime.coordinator.entries i = some e') ∨
    (x = o ∧ s'.runtime.waiters.member x = none)
  /-- Only the front of a lane runs rounds of its entry. -/
  fronted : ∀ i, s'.rounds i ≠ s.rounds i → s.runtime.front (some i) = some o ∨
    (s.runtime.waiters.lane (some i) = [] ∧ s'.runtime.front (some i) = some o)
  /-- A ticket that can go on since this step is woken by it, or is behind one that is. -/
  covered : ∀ l x, x ∈ s'.runtime.waiters.lane l → x ≠ o →
    s'.runtime.Proceeds compress256 password s'.key x →
      s.runtime.Proceeds compress256 password s.key x ∨
        ∃ y ∈ wakes, AtOrBehind (s'.runtime.waiters.lane l) y x
  /-- Once an entry is cleared, ready or cached, every ticket is woken or behind one that is. -/
  opened : s.runtime.Opens s'.runtime → ∀ l x, x ∈ s'.runtime.waiters.lane l →
    ∃ y ∈ s'.woken, AtOrBehind (s'.runtime.waiters.lane l) y x
  /-- Once a lane has lost its front, every ticket in it is woken or behind one that is. -/
  lost : ∀ l, s.runtime.front l = some o → s'.runtime.front l ≠ some o →
    ∀ x ∈ s'.runtime.waiters.lane l, ∃ y ∈ s'.woken, AtOrBehind (s'.runtime.waiters.lane l) y x

theorem atOrBehind_front {lane : List ω} {x : ω} (hx : x ∈ lane) :
    ∃ y, lane.head? = some y ∧ AtOrBehind lane y x := by
  rcases lane with - | ⟨y, rest⟩
  · cases hx
  · exact ⟨y, rfl, [], rest, rfl, hx⟩

theorem Inv.proceeds_iff {x : ω} (h : s.Inv compress256 password)
    (hx : s.runtime.waiters.member x = some none) :
    s.runtime.Proceeds compress256 password s.key x ↔ s.runtime.coordinator.Selects (s.key x)
      (s.runtime.front none = none ∨ s.runtime.front none = some x) := by
  unfold Runtime.Proceeds
  rw [hx]
  dsimp only
  rw [(Runtime.Inv.cached h).selects_iff]
  split_ifs with hfront
  · exact ⟨fun hk => hk.imp_right fun hroom => ⟨hfront, hroom.2⟩,
      fun hk => hk.imp_right fun hroom => ⟨Option.some_ne_none _, hroom.2⟩⟩
  · exact ⟨fun hk => hk.imp_right fun hroom => absurd rfl hroom.1,
      fun hk => hk.imp_right fun hroom => absurd hroom.1 hfront⟩

theorem Inv.sound (h : s.Inv compress256 password) (hawake : s.Awake) :
    s.Sound compress256 password where
  few := Runtime.Inv.few h
  owned := fun o i hmember => ⟨h.entry hmember, h.not_cached hmember⟩
  waited := fun i hcomputes => by
    unfold Coordinator.computes at hcomputes
    rcases hentry : s.runtime.coordinator.entries i with - | e
    · rw [hentry] at hcomputes
      cases hcomputes
    · rcases Runtime.Inv.kept h i (Option.some_ne_none i) (hentry ▸ Option.some_ne_none e) with
        hlane | ⟨b, hb⟩
      · exact hlane
      · obtain ⟨k, keys, hready⟩ := Runtime.Inv.cached h b i hb
        rw [hready] at hcomputes
        cases hcomputes
  counted := fun i e hentry => by
    have hran := Runtime.Inv.ran h i e hentry
    unfold Entry.Ran at hran
    rcases e with ⟨k, kdf | keys⟩
    · exact hran.2
    · exact hran.1
  reachable := fun o => by
    obtain ⟨p, hpoll, -⟩ := h.poll_turn o
    rw [hpoll]
    rfl
  assigned := hawake.assigned
  unassigned := fun x hfront hproceeds => by
    refine hawake.unassigned x hfront ?_
    rw [h.proceeds_iff (Runtime.Inv.member_front h hfront)] at hproceeds
    exact hproceeds.imp_right fun hroom => ⟨trivial, hroom.2⟩

/-- A step leaves the jobs of the other tickets. -/
theorem Inv.step_member {x : ω} (h : s.Inv compress256 password)
    (hstep : s.Step compress256 password o wakes s') (hx : x ≠ o) :
    s'.runtime.waiters.member x = s.runtime.waiters.member x := by
  cases hstep with
  | create | drop => exact Function.update_of_ne hx ..
  | @poll p hpoll =>
    obtain ⟨p', hpoll', hturn⟩ := h.poll_turn o
    rw [hpoll] at hpoll'
    cases hpoll'
    exact hturn.member hx
  | cancel => exact Runtime.release_member hx

/-- A ticket with a job keeps it and its key, or is released. -/
theorem Inv.step_self {i : Index} (h : s.Inv compress256 password)
    (hstep : s.Step compress256 password o wakes s')
    (hmember : s.runtime.waiters.member o = some (some i)) :
    (s'.runtime.waiters.member o = some (some i) ∧ s'.key o = s.key o) ∨
      s'.runtime.waiters.member o = none := by
  cases hstep with
  | create k hfree =>
    rw [hmember] at hfree
    cases hfree
  | drop hlane => exact absurd ((Runtime.Inv.assigned h o i).mp hmember) (hlane _)
  | @poll p hpoll =>
    obtain ⟨p', hpoll', hturn⟩ := h.poll_turn o
    rw [hpoll] at hpoll'
    cases hpoll'
    exact (hturn.member_self hmember).imp_left fun hjob => ⟨hjob, rfl⟩
  | cancel => exact Or.inr (Runtime.release_self (hmember ▸ Option.some_ne_none _))

/-- Two states in which a ticket waits for an entry with one key. -/
theorem Inv.same_key {x : ω} {i : Index} (h : s.Inv compress256 password)
    (h' : s'.Inv compress256 password) (hmember : s.runtime.waiters.member x = some (some i))
    (hmember' : s'.runtime.waiters.member x = some (some i)) (hkey : s'.key x = s.key x) :
    ∃ e e', e'.key = e.key ∧ s.runtime.coordinator.entries i = some e ∧
      s'.runtime.coordinator.entries i = some e' := by
  obtain ⟨e, hentry, he⟩ := Runtime.Inv.entry h hmember
  obtain ⟨e', hentry', he'⟩ := Runtime.Inv.entry h' hmember'
  exact ⟨e, e', (he'.trans hkey).trans he.symm, hentry, hentry'⟩

/-- What a step opens for a ticket that waits, a wakeup covers. -/
theorem Inv.step_covered {x : ω} {l : Option Index} (h : s.Inv compress256 password)
    (hstep : s.Step compress256 password o wakes s') (hx : x ∈ s'.runtime.waiters.lane l)
    (hxo : x ≠ o) (hproceeds : s'.runtime.Proceeds compress256 password s'.key x) :
    s.runtime.Proceeds compress256 password s.key x ∨
      ∃ y ∈ wakes, AtOrBehind (s'.runtime.waiters.lane l) y x := by
  have h' := h.step hstep
  obtain ⟨hcovers, hkey, -⟩ := h.covers hstep
  obtain ⟨hold, hmember⟩ := hcovers.stays l x hx hxo
  obtain ⟨y, hfront, hbehind⟩ := atOrBehind_front hx
  rcases l with - | i
  · rcases hcovers.unassigned with hwakes | ⟨hsame, hselects⟩
    · exact Or.inr ⟨y, hwakes y hfront, hbehind⟩
    · left
      rw [h'.proceeds_iff (Runtime.Inv.unassigned h' x hx), hkey x hxo] at hproceeds
      rw [h.proceeds_iff (Runtime.Inv.unassigned h x hold)]
      refine hselects _ _ (hproceeds.imp_right fun hroom => ⟨?_, hroom.2⟩)
      rcases hroom.1 with hnone | hsome
      · exact nomatch hfront.symm.trans hnone
      · exact Or.inr (hsame x hxo hsome)
  · rcases hcovers.assigned i with hwakes | ⟨hsame, hcomputes⟩
    · exact Or.inr ⟨y, hwakes y hfront, hbehind⟩
    · left
      have hjob := (Runtime.Inv.assigned h x i).mpr hold
      unfold Runtime.Proceeds at hproceeds ⊢
      rw [hmember, hjob] at hproceeds
      rw [hjob]
      refine hproceeds.imp (hsame x) fun hready => ?_
      rcases hcomputing : s.runtime.coordinator.computes i with - | -
      · rfl
      · rw [hcomputes hcomputing] at hready
        cases hready

theorem Inv.keeps (h : s.Inv compress256 password) (hawake : s.Awake)
    (hstep : s.Step compress256 password o wakes s') : s.Keeps compress256 password o wakes s' := by
  have h' := h.step hstep
  have hawake' := hawake.step h hstep
  obtain ⟨hcovers, hkey, hwoken⟩ := h.covers hstep
  refine ⟨fun x i hmember => ?_, fun i hran => ?_, fun l x hx hxo => h.step_covered hstep hx hxo,
    fun hopens l x hx => ?_, fun l hfront hlost x hx => ?_⟩
  · by_cases hxo : x = o
    · subst hxo
      rcases h.step_self hstep hmember with ⟨hmember', hkey'⟩ | hnone
      · exact Or.inl ⟨hmember', h.same_key h' hmember hmember' hkey'⟩
      · exact Or.inr ⟨rfl, hnone⟩
    · have hmember' := (h.step_member hstep hxo).trans hmember
      exact Or.inl ⟨hmember', h.same_key h' hmember hmember' (hkey x hxo)⟩
  · cases hstep with
    | create | cancel | drop => exact absurd rfl hran
    | @poll p hpoll =>
      obtain ⟨p', hpoll', hturn⟩ := h.poll_turn o
      rw [hpoll] at hpoll'
      cases hpoll'
      exact Runtime.Inv.turn_front h hturn hran
  · obtain ⟨y, hfront, hbehind⟩ := atOrBehind_front hx
    refine ⟨y, ?_, hbehind⟩
    rcases l with - | i
    · exact (hwoken y).mpr (Or.inr (hcovers.opens hopens y hfront))
    · exact hawake'.assigned i y hfront
  · obtain ⟨y, hfront', hbehind⟩ := atOrBehind_front hx
    refine ⟨y, ?_, hbehind⟩
    rcases l with - | i
    · have hyo : y ≠ o := by
        rintro rfl
        exact hlost hfront'
      rcases hcovers.unassigned with hwakes | ⟨hsame, -⟩
      · exact (hwoken y).mpr (Or.inr (hwakes y hfront'))
      · exact absurd (Option.some.inj ((hsame y hyo hfront').symm.trans hfront)) hyo
    · exact hawake'.assigned i y hfront'

/-- The keys that a poll passes on are those of its key. -/
theorem Inv.poll_keys {p : Polled ω} {keys : Keys} (h : s.Inv compress256 password)
    (hpoll : s.runtime.poll compress256 o (s.key o) password = some p)
    (hkeys : p.keys = some keys) :
    keys.Of compress256 (combined (sha256 compress256).hmac password (s.key o).first.toList
      ((s.key o).iterations.get - 1)) := by
  obtain ⟨p', hpoll', hturn⟩ := h.poll_turn o
  rw [hpoll] at hpoll'
  cases hpoll'
  cases hturn with
  | gone | waits | joins | starts | behind | advances => cases hkeys
  | @completes i kdf keys' _ _ _ _ hentry hlast hof _ _ =>
    cases hkeys
    obtain ⟨hcount, hready⟩ := (Runtime.Inv.complete h hentry hlast hof).ran i ⟨s.key o, .ready keys⟩
      (Runtime.advanced_entries hentry)
    rw [← hcount]
    exact hready
  | @takes i keys' _ hentry =>
    cases hkeys
    obtain ⟨hcount, hready⟩ := Runtime.Inv.ran h i ⟨s.key o, .ready keys⟩ hentry
    dsimp only at hcount
    rw [← hcount]
    exact hready

end Sys

end Cartel.Pg.Scram
