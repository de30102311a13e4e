import Mathlib.Algebra.BigOperators.Fin
import Cartel.Lib.Count
import Cartel.Scram.Coordinator

/-!
# The derivations that are shared

A ticket with a job is in the lane of its entry, and the entry is there with the ticket's
key. An entry that nobody waits for is ready and cached. So an entry being computed has a
waiter, no entry that a ticket waits for is ever cleared or given to another key, and the
branches marked as unreachable are not taken (`Inv`).

The rounds of an entry are counted beside the runtime. They are the rounds its state has
gone through, and with the value its key starts from they are the iterations of the key
once the entry is ready.
-/

set_option linter.unusedSectionVars false

namespace Cartel.Pg.Scram

open Cartel.Lib

variable {ω : Type} [DecidableEq ω] {compress256 : Words → List UInt8 → Words}

/-! ## Lanes -/

namespace Waiters

variable {w : Waiters ω} {o x : ω} {l : Option Index} {i : Index}

theorem mem_without : x ∈ w.without o l ↔ x ∈ w.lane l ∧ x ≠ o := by
  unfold without
  rw [List.mem_filter, decide_eq_true_eq]

theorem mem_push : x ∈ (w.push o i).lane l ↔
    (x ∈ w.lane l ∧ x ≠ o) ∨ (x = o ∧ l = some i) := by
  unfold push
  dsimp only
  by_cases hl : l = some i
  · subst hl
    rw [Function.update_self, List.mem_append, mem_without, List.mem_singleton]
    simp
  · rw [Function.update_of_ne hl, mem_without]
    simp [hl]

theorem member_push_self : (w.push o i).member o = some (some i) :=
  Function.update_self ..

theorem member_push_of_ne (h : x ≠ o) : (w.push o i).member x = w.member x :=
  Function.update_of_ne h ..

/-- A lane that the member neither leaves nor enters stays as it is. -/
theorem lane_push_of_ne (h : o ∉ w.lane l) (hl : l ≠ some i) : (w.push o i).lane l = w.lane l :=
  (Function.update_of_ne hl ..).trans (List.filter_eq_self.mpr fun _ hx =>
    decide_eq_true fun heq => h (heq ▸ hx))

theorem mem_set : x ∈ (w.set o).lane l ↔ x ∈ w.lane l ∨ (x = o ∧ l = none) := by
  unfold set
  dsimp only
  by_cases hl : l = none
  · subst hl
    rw [Function.update_self]
    split_ifs with ho
    · constructor
      · exact Or.inl
      · rintro (h | ⟨rfl, -⟩)
        · exact h
        · exact ho
    · simp
  · rw [Function.update_of_ne hl]
    simp [hl]

theorem lane_set : (w.set o).lane (some i) = w.lane (some i) := by
  unfold set
  dsimp only
  rw [Function.update_of_ne (Option.some_ne_none i)]

theorem nodup_without (h : (w.lane l).Nodup) : (w.without o l).Nodup :=
  h.sublist List.filter_sublist

theorem nodup_snoc {xs : List ω} (h : xs.Nodup) (ho : o ∉ xs) : (xs ++ [o]).Nodup := by
  refine List.nodup_append.mpr ⟨h, List.nodup_singleton o, fun a ha b hb => ?_⟩
  rw [List.mem_singleton.mp hb]
  exact fun heq => ho (heq ▸ ha)

theorem nodup_push (h : ∀ l, (w.lane l).Nodup) : ((w.push o i).lane l).Nodup := by
  unfold push
  dsimp only
  by_cases hl : l = some i
  · subst hl
    rw [Function.update_self]
    exact nodup_snoc (nodup_without (h _)) fun ho => (mem_without.mp ho).2 rfl
  · rw [Function.update_of_ne hl]
    exact nodup_without (h _)

theorem nodup_set (h : ∀ l, (w.lane l).Nodup) : ((w.set o).lane l).Nodup := by
  unfold set
  dsimp only
  by_cases hl : l = none
  · subst hl
    rw [Function.update_self]
    split_ifs with ho
    · exact h none
    · exact nodup_snoc (h none) ho
  · rw [Function.update_of_ne hl]
    exact h l

theorem front_eq_none : w.front l = none ↔ w.lane l = [] :=
  List.head?_eq_none_iff

theorem front_mem (h : w.front l = some o) : o ∈ w.lane l :=
  List.mem_of_head? h

/-- A lane that the member is not in stays as it is. -/
theorem without_of_not_mem (h : o ∉ w.lane l) : w.without o l = w.lane l :=
  List.filter_eq_self.mpr fun x hx => decide_eq_true fun heq => h (heq ▸ hx)

end Waiters

/-! ## Selection -/

namespace Coordinator

variable {c c' : Coordinator} {key : KdfKey} {i j : Index} {e : Entry} {kdf : Kdf} {keys : Keys}

/-- The share of an entry in those being computed. -/
def weight : Option Entry → ℕ
  | some entry => if entry.isComputing then 1 else 0
  | none => 0

/-- How many entries are being computed. -/
def computing (c : Coordinator) : ℕ :=
  ∑ i, weight (c.entries i)

theorem weight_eq : weight (c.entries i) = if c.computes i then 1 else 0 := by
  unfold weight computes
  rcases c.entries i with - | e <;> rfl

theorem isCached_iff : c.isCached i = true ↔ ∃ b, c.cached b = some i := by
  unfold isCached
  rw [Bool.or_eq_true, decide_eq_true_eq, decide_eq_true_eq, Bool.exists_bool]

theorem holds_iff : c.holds key i = true ↔ ∃ e, c.entries i = some e ∧ e.key = key := by
  unfold holds
  rcases c.entries i with - | e
  · simp
  · simp

theorem scan_cons (x : Index) (l : List Index) (empty : Option Index) (n : ℕ) :
    c.scan key (x :: l) empty n =
      if c.isCached x then c.scan key l empty n
      else if (c.entries x).isNone then c.scan key l (some x) n
      else if c.holds key x then .inl x
      else c.scan key l empty (n + weight (c.entries x)) := by
  rw [weight_eq]
  rfl

/-- What the loop of `select` has found. -/
theorem scan_inl : ∀ {l : List Index} {empty : Option Index} {n : ℕ},
    c.scan key l empty n = .inl i → c.holds key i = true
  | [], _, _, h => nomatch h
  | x :: l, empty, n, h => by
    rw [scan_cons] at h
    split_ifs at h with hcached hempty hholds
    · exact scan_inl h
    · exact scan_inl h
    · cases h
      exact hholds
    · exact scan_inl h

theorem scan_inr : ∀ {l : List Index} {empty empty' : Option Index} {n n' : ℕ},
    c.scan key l empty n = .inr (empty', n') →
      (∀ x ∈ l, c.isCached x = false → c.holds key x = false) ∧
      n' = n + (l.map fun x => if c.isCached x then 0 else weight (c.entries x)).sum ∧
      (∀ x, empty' = some x → empty = some x ∨ (c.isCached x = false ∧ c.entries x = none)) ∧
      (empty' = none → empty = none ∧ ∀ x ∈ l, c.isCached x = false → c.entries x ≠ none)
  | [], _, _, _, _, h => by
    cases h
    exact ⟨fun _ hx => (List.not_mem_nil hx).elim, rfl, fun _ => Or.inl,
      fun h => ⟨h, fun _ hx => (List.not_mem_nil hx).elim⟩⟩
  | x :: l, empty, empty', n, n', h => by
    rw [scan_cons] at h
    rw [List.forall_mem_cons, List.forall_mem_cons, List.map_cons, List.sum_cons]
    split_ifs at h with hcached hempty hholds
    · obtain ⟨hnone, hcount, hsome, hfull⟩ := scan_inr h
      rw [if_pos hcached, Nat.zero_add]
      refine ⟨⟨fun hnot => ?_, hnone⟩, hcount, hsome, fun hempty => ⟨(hfull hempty).1, fun hnot => ?_,
        (hfull hempty).2⟩⟩
      · rw [hcached] at hnot
        cases hnot
      · rw [hcached] at hnot
        cases hnot
    · have hentry := Option.isNone_iff_eq_none.mp hempty
      have hnot := Bool.eq_false_iff.mpr hcached
      obtain ⟨hnone, hcount, hsome, hfull⟩ := scan_inr h
      rw [if_neg hcached, hentry]
      refine ⟨⟨fun _ => ?_, hnone⟩, ?_, fun y hy => ?_, fun hempty => ?_⟩
      · unfold holds
        rw [hentry]
      · rw [hcount, weight, Nat.zero_add]
      · rcases hsome y hy with hx | hy'
        · cases hx
          exact Or.inr ⟨hnot, hentry⟩
        · exact Or.inr hy'
      · cases (hfull hempty).1
    · obtain ⟨hnone, hcount, hsome, hfull⟩ := scan_inr h
      rw [if_neg hcached, ← Nat.add_assoc]
      refine ⟨⟨fun _ => Bool.eq_false_iff.mpr hholds, hnone⟩, hcount, hsome, fun hempty' =>
        ⟨(hfull hempty').1, fun _ hentry => hempty ?_, (hfull hempty').2⟩⟩
      rw [hentry]
      rfl

/-- Only entries that are ready are cached. -/
def CachesReady (c : Coordinator) : Prop :=
  ∀ b i, c.cached b = some i → ∃ key keys, c.entries i = some ⟨key, .ready keys⟩

theorem CachesReady.counted (h : c.CachesReady) :
    ((List.finRange 6).map fun x => if c.isCached x then 0 else weight (c.entries x)).sum =
      c.computing := by
  have hweight : ∀ x, (if c.isCached x then 0 else weight (c.entries x)) =
      weight (c.entries x) := by
    intro x
    split_ifs with hcached
    · obtain ⟨b, hb⟩ := isCached_iff.mp hcached
      obtain ⟨key, keys, hentry⟩ := h b x hb
      rw [hentry]
      rfl
    · rfl
  unfold computing
  rw [Fin.sum_univ_def, List.map_congr_left fun x _ => hweight x]

/-- What `vacate` finds. -/
theorem vacate_eq_some {empty : Option Index} {room : Index × (Bool → Option Index)}
    (h : c.vacate empty = some room) : (empty = some room.1 ∧ room.2 = c.cached) ∨
      ∃ b, c.cached b = some room.1 ∧ room.2 = c.uncache b := by
  unfold vacate at h
  split at h
  · cases h
    exact Or.inl ⟨rfl, rfl⟩
  · split at h
    · rename_i hcached
      cases h
      exact Or.inr ⟨_, hcached, rfl⟩
    · obtain ⟨index, hcached, rfl⟩ := Option.map_eq_some_iff.mp h
      exact Or.inr ⟨_, hcached, rfl⟩

theorem vacate_eq_none {empty : Option Index} (h : c.vacate empty = none) :
    empty = none ∧ ∀ b, c.cached b = none := by
  unfold vacate at h
  split at h
  · cases h
  · split at h
    · cases h
    · rename_i hsecond
      rw [Option.map_eq_none_iff] at h
      refine ⟨rfl, fun b => ?_⟩
      rcases Bool.eq_or_eq_not b c.second with rfl | rfl
      · exact hsecond
      · exact h

/-- A cached entry of the key. -/
theorem findSome_some (h : ([false, true].findSome? fun b =>
    (c.cached b).filter (c.holds key)) = some i) : c.holds key i = true := by
  obtain ⟨b, -, hb⟩ := List.exists_of_findSome?_eq_some h
  exact (Option.filter_eq_some_iff.mp hb).2

theorem findSome_none (h : ([false, true].findSome? fun b =>
    (c.cached b).filter (c.holds key)) = none) {b : Bool} (hcached : c.cached b = some i) :
    c.holds key i = false := by
  have hb := List.findSome?_eq_none_iff.mp h b (by rcases b <;> decide)
  rw [hcached, Option.filter_some] at hb
  split_ifs at hb with hholds
  exact Bool.eq_false_iff.mpr hholds

variable {password : Option (List UInt8)}

/-- What `select` returns : an entry of the key, or a new one in a free or a cached place. -/
theorem CachesReady.select_some (h : c.CachesReady)
    (hselect : c.select compress256 key password = some (i, c')) :
    (c' = c ∧ ∃ e, c.entries i = some e ∧ e.key = key) ∨
      ∃ secret cached, password = some secret ∧ c.computing ≠ 4 ∧
        c' = c.insert i cached ⟨key, .computing (Kdf.new compress256 secret key)⟩ ∧
        ((c.entries i = none ∧ cached = c.cached) ∨
          ∃ b, c.cached b = some i ∧ cached = c.uncache b) := by
  unfold select at hselect
  split at hselect
  · rename_i index hfound
    cases hselect
    exact Or.inl ⟨rfl, holds_iff.mp (findSome_some hfound)⟩
  · split at hselect
    · rename_i index hscan
      cases hselect
      exact Or.inl ⟨rfl, holds_iff.mp (scan_inl hscan)⟩
    · rename_i empty n hscan
      obtain ⟨-, hcount, hempty, -⟩ := scan_inr hscan
      split at hselect
      · cases hselect
      · rename_i secret
        split_ifs at hselect with hfull
        obtain ⟨room, hroom, hroom'⟩ := Option.map_eq_some_iff.mp hselect
        cases hroom'
        rw [Nat.zero_add, h.counted] at hcount
        refine Or.inr ⟨secret, room.2, rfl, hcount ▸ hfull, rfl, ?_⟩
        rcases vacate_eq_some hroom with ⟨hsome, hcached⟩ | hcached
        · rcases hempty _ hsome with hnone | ⟨-, hentry⟩
          · cases hnone
          · exact Or.inl ⟨hentry, hcached⟩
        · exact Or.inr hcached

/-- The condition for `select` to find an entry. -/
def Selects (c : Coordinator) (key : KdfKey) (admitted : Prop) : Prop :=
  (∃ i e, c.entries i = some e ∧ e.key = key) ∨
    (admitted ∧ c.computing ≠ 4 ∧ ((∃ i, c.entries i = none) ∨ ∃ b i, c.cached b = some i))

theorem CachesReady.select_none (h : c.CachesReady)
    (hselect : c.select compress256 key password = none) :
    ¬c.Selects key (password ≠ none) := by
  unfold select at hselect
  split at hselect
  · cases hselect
  · rename_i hfound
    split at hselect
    · cases hselect
    · rename_i empty n hscan
      obtain ⟨hnone, hcount, -, hfull⟩ := scan_inr hscan
      rw [Nat.zero_add, h.counted] at hcount
      have hkey : ∀ x, c.holds key x = false := by
        intro x
        rcases hcached : c.isCached x with - | -
        · exact hnone x (List.mem_finRange x) hcached
        · obtain ⟨b, hb⟩ := isCached_iff.mp hcached
          exact findSome_none hfound hb
      rintro (⟨x, e, hentry, hkey'⟩ | ⟨hadmitted, hcomputing, hroom⟩)
      · have hholds := holds_iff.mpr ⟨e, hentry, hkey'⟩
        rw [hkey x] at hholds
        cases hholds
      · split at hselect
        · exact hadmitted rfl
        · split_ifs at hselect with hfour
          · exact hcomputing (hcount ▸ hfour)
          · rw [Option.map_eq_none_iff] at hselect
            obtain ⟨hempty, hcached⟩ := vacate_eq_none hselect
            rcases hroom with ⟨x, hentry⟩ | ⟨b, x, hb⟩
            · rcases hcached' : c.isCached x with - | -
              · exact (hfull hempty).2 x (List.mem_finRange x) hcached' hentry
              · obtain ⟨b, hb⟩ := isCached_iff.mp hcached'
                rw [hcached b] at hb
                cases hb
            · rw [hcached b] at hb
              cases hb

theorem CachesReady.selects_iff (h : c.CachesReady) :
    (c.select compress256 key password).isSome ↔ c.Selects key (password ≠ none) := by
  rcases hselect : c.select compress256 key password with - | ⟨index, c'⟩
  · exact iff_of_false (by simp) (h.select_none hselect)
  · refine iff_of_true rfl ?_
    rcases h.select_some hselect with ⟨-, e, hentry, hkey⟩ | ⟨secret, cached, hadmitted, hfull, -, hroom⟩
    · exact Or.inl ⟨index, e, hentry, hkey⟩
    · refine Or.inr ⟨hadmitted ▸ Option.some_ne_none secret, hfull, ?_⟩
      rcases hroom with ⟨hentry, -⟩ | ⟨b, hb, -⟩
      · exact Or.inl ⟨index, hentry⟩
      · exact Or.inr ⟨b, index, hb⟩

theorem cache_entries : (c.cache i).entries j =
    if c.cached c.second = some j then none else c.entries j := by
  unfold cache
  rcases hsecond : c.cached c.second with - | previous
  · rw [if_neg nofun]
  · dsimp only
    by_cases hj : j = previous
    · subst hj
      rw [Function.update_self, if_pos rfl]
    · rw [Function.update_of_ne hj, if_neg fun heq => hj (Option.some.inj heq).symm]

theorem cache_cached : (c.cache i).cached = Function.update c.cached c.second (some i) := by
  unfold cache
  rcases c.cached c.second with - | previous <;> rfl

/-- A cleared entry is not computed. -/
theorem computing_clear : (c.clear i).computing ≤ c.computing := by
  have hcount := sum_update c.entries weight i none
  change ∑ j, weight (Function.update c.entries i none j) ≤ ∑ j, weight (c.entries j)
  rw [show weight none = 0 from rfl] at hcount
  omega

theorem computing_cache : (c.cache i).computing ≤ c.computing := by
  unfold cache
  rcases c.cached c.second with - | previous
  · exact le_rfl
  · exact computing_clear (c := c) (i := previous)

end Coordinator

/-! ## The invariant -/

/-- What an entry has gone through after `rounds` rounds. -/
def Entry.Ran (compress256 : Words → List UInt8 → Words) (password : List UInt8) (rounds : ℕ)
    (entry : Entry) : Prop :=
  match entry.state with
  | .computing kdf => kdf.Holds compress256 password entry.key.first.toList rounds ∧
      rounds + kdf.remaining + 1 = entry.key.iterations.get
  | .ready keys => rounds + 1 = entry.key.iterations.get ∧ keys.Of compress256
      (combined (sha256 compress256).hmac password entry.key.first.toList rounds)

/-- The invariant of the runtime, for the keys of the tickets and the rounds of the entries.
The entry `loose`, if any, may be without a waiter. -/
structure Runtime.Inv (compress256 : Words → List UInt8 → Words) (password : List UInt8)
    (key : ω → KdfKey) (rounds : Index → ℕ) (loose : Option Index) (s : Runtime ω) : Prop where
  assigned : ∀ o i, s.waiters.member o = some (some i) ↔ o ∈ s.waiters.lane (some i)
  unassigned : ∀ o ∈ s.waiters.lane none, s.waiters.member o = some none
  nodup : ∀ l, (s.waiters.lane l).Nodup
  owned : ∀ i, ∀ o ∈ s.waiters.lane (some i), ∃ e, s.coordinator.entries i = some e ∧ e.key = key o
  cached : s.coordinator.CachesReady
  idle : ∀ b i, s.coordinator.cached b = some i → s.waiters.lane (some i) = []
  distinct : ∀ i, s.coordinator.cached false = some i → s.coordinator.cached true ≠ some i
  kept : ∀ i, some i ≠ loose → s.coordinator.entries i ≠ none →
    s.waiters.lane (some i) ≠ [] ∨ ∃ b, s.coordinator.cached b = some i
  few : s.coordinator.computing ≤ 4
  ran : ∀ i e, s.coordinator.entries i = some e → e.Ran compress256 password (rounds i)

namespace Runtime

variable {password : List UInt8} {key : ω → KdfKey} {rounds : Index → ℕ} {loose : Option Index}
  {s : Runtime ω} {o : ω} {i : Index}

theorem inv_new : (Runtime.new : Runtime ω).Inv compress256 password key rounds none where
  assigned := fun _ _ => iff_of_false nofun List.not_mem_nil
  unassigned := fun _ ho => (List.not_mem_nil ho).elim
  nodup := fun _ => List.nodup_nil
  owned := fun _ _ ho => (List.not_mem_nil ho).elim
  cached := fun _ _ h => nomatch h
  idle := fun _ _ h => nomatch h
  distinct := fun _ h => nomatch h
  kept := fun _ _ h => absurd rfl h
  few := (by decide : Coordinator.new.computing ≤ 4)
  ran := fun _ _ h => nomatch h

/-- A ticket is made. -/
theorem Inv.tryEntry (h : s.Inv compress256 password key rounds none)
    (hfree : s.waiters.member o = none) (k : KdfKey) :
    (s.tryEntry o).Inv compress256 password (Function.update key o k) rounds none := by
  have hlane : ∀ l, o ∉ s.waiters.lane l := by
    intro l ho
    rcases l with - | i
    · rw [h.unassigned o ho] at hfree
      cases hfree
    · rw [(h.assigned o i).mpr ho] at hfree
      cases hfree
  refine { h with assigned := fun x i => ?_, unassigned := fun x hx => ?_, owned := fun i x hx => ?_ }
  · unfold Runtime.tryEntry Waiters.write
    dsimp only
    by_cases hx : x = o
    · subst hx
      rw [Function.update_self]
      exact iff_of_false nofun (hlane _)
    · rw [Function.update_of_ne hx]
      exact h.assigned x i
  · have hne : x ≠ o := fun heq => hlane none (heq ▸ hx)
    exact (Function.update_of_ne hne _ _).trans (h.unassigned x hx)
  · have hne : x ≠ o := fun heq => hlane (some i) (heq ▸ hx)
    rw [Function.update_of_ne hne]
    exact h.owned i x hx

/-- A ticket stays unassigned. -/
theorem Inv.set (h : s.Inv compress256 password key rounds none)
    (hmember : s.waiters.member o = some none) :
    (⟨s.waiters.set o, s.coordinator⟩ : Runtime ω).Inv compress256 password key rounds none := by
  have hlane := fun i => Waiters.lane_set (w := s.waiters) (o := o) (i := i)
  refine ⟨fun x i => ?_, fun x hx => ?_, fun l => Waiters.nodup_set h.nodup, fun i x hx => ?_,
    h.cached, fun b i hb => ?_, h.distinct, fun i hi hentry => ?_, h.few, h.ran⟩
  · rw [hlane]
    exact h.assigned x i
  · rcases Waiters.mem_set.mp hx with hx | ⟨rfl, -⟩
    · exact h.unassigned x hx
    · exact hmember
  · rw [hlane] at hx
    exact h.owned i x hx
  · rw [hlane]
    exact h.idle b i hb
  · rw [hlane]
    exact h.kept i hi hentry

theorem Inv.loosen (h : s.Inv compress256 password key rounds none) :
    s.Inv compress256 password key rounds loose :=
  { h with kept := fun i _ => h.kept i (Option.some_ne_none i) }

/-- An entry that has a waiter is not loose. -/
theorem Inv.tighten (h : s.Inv compress256 password key rounds (some i))
    (hlane : s.waiters.lane (some i) ≠ []) : s.Inv compress256 password key rounds none := by
  refine { h with kept := fun j _ hentry => ?_ }
  by_cases hj : j = i
  · subst hj
    exact Or.inl hlane
  · exact h.kept j (fun heq => hj (Option.some.inj heq)) hentry

/-- A ticket leaves its lane. -/
theorem Inv.take {job : Option Index} (h : s.Inv compress256 password key rounds none)
    (hmember : s.waiters.member o = some job) :
    (⟨s.waiters.take o, s.coordinator⟩ : Runtime ω).Inv compress256 password key rounds job := by
  refine ⟨fun x i => ?_, fun x hx => ?_, fun l => Waiters.nodup_without (h.nodup l),
    fun i x hx => h.owned i x (Waiters.mem_without.mp hx).1, h.cached, fun b i hb => ?_, h.distinct,
    fun i hi hentry => ?_, h.few, h.ran⟩
  · unfold Waiters.take
    dsimp only
    rw [Waiters.mem_without]
    by_cases hx : x = o
    · subst hx
      rw [Function.update_self]
      exact iff_of_false nofun fun hx => hx.2 rfl
    · rw [Function.update_of_ne hx, h.assigned x i]
      exact (and_iff_left hx).symm
  · obtain ⟨hx, hne⟩ := Waiters.mem_without.mp hx
    exact (Function.update_of_ne hne _ _).trans (h.unassigned x hx)
  · exact List.filter_eq_nil_iff.mpr fun x hx => by
      rw [h.idle b i hb] at hx
      cases hx
  · have hnot : o ∉ s.waiters.lane (some i) := by
      intro ho
      rw [← h.assigned, hmember] at ho
      exact hi (Option.some.inj ho).symm
    change s.waiters.without o (some i) ≠ [] ∨ _
    rw [Waiters.without_of_not_mem hnot]
    exact h.kept i (Option.some_ne_none i) hentry

/-- An entry that nobody waits for is cleared, unless it is ready. -/
theorem Inv.clear (h : s.Inv compress256 password key rounds (some i))
    (hlane : s.waiters.lane (some i) = []) (hcached : ∀ b, s.coordinator.cached b ≠ some i) :
    (⟨s.waiters, s.coordinator.clear i⟩ : Runtime ω).Inv compress256 password key rounds none := by
  have hentries : ∀ j e, (s.coordinator.clear i).entries j = some e →
      j ≠ i ∧ s.coordinator.entries j = some e := by
    intro j e hentry
    unfold Coordinator.clear at hentry
    dsimp only at hentry
    by_cases hj : j = i
    · subst hj
      rw [Function.update_self] at hentry
      cases hentry
    · rw [Function.update_of_ne hj] at hentry
      exact ⟨hj, hentry⟩
  have hkeeps : ∀ j, j ≠ i → (s.coordinator.clear i).entries j = s.coordinator.entries j :=
    fun j hj => Function.update_of_ne hj _ _
  refine ⟨h.assigned, h.unassigned, h.nodup, fun j o ho => ?_, fun b j hb => ?_, h.idle, h.distinct,
    fun j _ hentry => ?_, Coordinator.computing_clear.trans h.few,
    fun j e hentry => h.ran j e (hentries j e hentry).2⟩
  · obtain ⟨e, hentry, hkey⟩ := h.owned j o ho
    refine ⟨e, (hkeeps j ?_).trans hentry, hkey⟩
    rintro rfl
    rw [hlane] at ho
    cases ho
  · obtain ⟨k, keys, hentry⟩ := h.cached b j hb
    exact ⟨k, keys, (hkeeps j fun heq => hcached b (heq ▸ hb)).trans hentry⟩
  · obtain ⟨e, he⟩ := Option.ne_none_iff_exists'.mp hentry
    obtain ⟨hne, he⟩ := hentries j e he
    exact h.kept j (fun heq => hne (Option.some.inj heq)) (he ▸ Option.some_ne_none e)

/-- No entry is cached twice. -/
theorem Inv.cached_inj (h : s.Inv compress256 password key rounds loose) {b b' : Bool}
    (hb : s.coordinator.cached b = some i) (hb' : s.coordinator.cached b' = some i) : b = b' := by
  rcases b with - | - <;> rcases b' with - | -
  · rfl
  · exact absurd hb' (h.distinct i hb)
  · exact absurd hb (h.distinct i hb')
  · rfl

/-- An entry that nobody waits for is cached if it is ready, and the one it replaces is
cleared. -/
theorem Inv.cache {k : KdfKey} {keys : Keys}
    (h : s.Inv compress256 password key rounds (some i))
    (hlane : s.waiters.lane (some i) = []) (hcached : ∀ b, s.coordinator.cached b ≠ some i)
    (hready : s.coordinator.entries i = some ⟨k, .ready keys⟩) :
    (⟨s.waiters, s.coordinator.cache i⟩ : Runtime ω).Inv compress256 password key rounds none := by
  have hcache : ∀ b j, (s.coordinator.cache i).cached b = some j →
      (b = s.coordinator.second ∧ j = i) ∨
        (b ≠ s.coordinator.second ∧ s.coordinator.cached b = some j) := by
    intro b j hb
    rw [Coordinator.cache_cached] at hb
    by_cases hsecond : b = s.coordinator.second
    · rw [hsecond, Function.update_self] at hb
      exact Or.inl ⟨hsecond, (Option.some.inj hb).symm⟩
    · rw [Function.update_of_ne hsecond] at hb
      exact Or.inr ⟨hsecond, hb⟩
  have hentries : ∀ j e, (s.coordinator.cache i).entries j = some e →
      s.coordinator.cached s.coordinator.second ≠ some j ∧ s.coordinator.entries j = some e := by
    intro j e hentry
    rw [Coordinator.cache_entries] at hentry
    split_ifs at hentry with hsecond
    exact ⟨hsecond, hentry⟩
  have hkeeps : ∀ j, s.coordinator.cached s.coordinator.second ≠ some j →
      (s.coordinator.cache i).entries j = s.coordinator.entries j := fun j hj => by
    rw [Coordinator.cache_entries, if_neg hj]
  refine ⟨h.assigned, h.unassigned, h.nodup, fun j o ho => ?_, fun b j hb => ?_, fun b j hb => ?_,
    fun j hfalse htrue => ?_, fun j _ hentry => ?_, Coordinator.computing_cache.trans h.few,
    fun j e hentry => h.ran j e (hentries j e hentry).2⟩
  · obtain ⟨e, hentry, hkey⟩ := h.owned j o ho
    refine ⟨e, (hkeeps j fun hj => ?_).trans hentry, hkey⟩
    rw [h.idle _ j hj] at ho
    cases ho
  · rcases hcache b j hb with ⟨-, rfl⟩ | ⟨hne, hb⟩
    · exact ⟨k, keys, (hkeeps j (hcached _)).trans hready⟩
    · obtain ⟨k, keys, hentry⟩ := h.cached b j hb
      exact ⟨k, keys, (hkeeps j fun hj => hne (h.cached_inj hb hj)).trans hentry⟩
  · rcases hcache b j hb with ⟨-, rfl⟩ | ⟨-, hb⟩
    · exact hlane
    · exact h.idle b j hb
  · rcases hcache _ j hfalse with ⟨heq, rfl⟩ | ⟨-, hold⟩
    · rcases hcache _ _ htrue with ⟨heq', -⟩ | ⟨-, htrue⟩
      · exact Bool.false_ne_true (heq.trans heq'.symm)
      · exact hcached _ htrue
    · rcases hcache _ j htrue with ⟨-, rfl⟩ | ⟨-, hold'⟩
      · exact hcached _ hold
      · exact h.distinct j hold hold'
  · obtain ⟨e, he⟩ := Option.ne_none_iff_exists'.mp hentry
    obtain ⟨hsecond, he⟩ := hentries j e he
    have hupdate := s.coordinator.cache_cached (i := i)
    by_cases hj : j = i
    · subst hj
      exact Or.inr ⟨s.coordinator.second, by rw [hupdate, Function.update_self]⟩
    · rcases h.kept j (fun heq => hj (Option.some.inj heq)) (he ▸ Option.some_ne_none e) with
        hlane | ⟨b, hb⟩
      · exact Or.inl hlane
      · refine Or.inr ⟨b, ?_⟩
        have hne : b ≠ s.coordinator.second := by
          rintro rfl
          exact hsecond hb
        rw [hupdate, Function.update_of_ne hne]
        exact hb

/-- Nobody waits for a free or a cached place. -/
theorem Inv.room_lane {cached : Bool → Option Index}
    (h : s.Inv compress256 password key rounds none)
    (hroom : (s.coordinator.entries i = none ∧ cached = s.coordinator.cached) ∨
      ∃ b, s.coordinator.cached b = some i ∧ cached = s.coordinator.uncache b) :
    s.waiters.lane (some i) = [] := by
  rcases hroom with ⟨hentry, -⟩ | ⟨b, hb, -⟩
  · refine List.eq_nil_iff_forall_not_mem.mpr fun o ho => ?_
    obtain ⟨e, he, -⟩ := h.owned i o ho
    rw [hentry] at he
    cases he
  · exact h.idle b i hb

/-- A derivation is put into a free or a cached place. -/
theorem Inv.insert {k : KdfKey} {cached : Bool → Option Index}
    (h : s.Inv compress256 password key rounds none) (hfew : s.coordinator.computing ≠ 4)
    (hroom : (s.coordinator.entries i = none ∧ cached = s.coordinator.cached) ∨
      ∃ b, s.coordinator.cached b = some i ∧ cached = s.coordinator.uncache b) :
    (⟨s.waiters, s.coordinator.insert i cached
      ⟨k, .computing (Kdf.new compress256 password k)⟩⟩ : Runtime ω).Inv compress256 password key
        (Function.update rounds i 0) (some i) := by
  have hcached : ∀ b j, cached b = some j → j ≠ i ∧ s.coordinator.cached b = some j := by
    intro b j hb
    rcases hroom with ⟨hentry, rfl⟩ | ⟨b', hb', rfl⟩
    · refine ⟨?_, hb⟩
      rintro rfl
      obtain ⟨k, keys, hready⟩ := h.cached b j hb
      rw [hentry] at hready
      cases hready
    · unfold Coordinator.uncache at hb
      by_cases hsame : b = b'
      · subst hsame
        rw [Function.update_self] at hb
        cases hb
      · rw [Function.update_of_ne hsame] at hb
        refine ⟨?_, hb⟩
        rintro rfl
        exact hsame (h.cached_inj hb hb')
  have hlane := h.room_lane hroom
  have hweight : Coordinator.weight (s.coordinator.entries i) = 0 := by
    rcases hroom with ⟨hentry, -⟩ | ⟨b, hb, -⟩
    · rw [hentry]
      rfl
    · obtain ⟨k, keys, hready⟩ := h.cached b i hb
      rw [hready]
      rfl
  have hkeeps : ∀ j (e : Entry), j ≠ i →
      Function.update s.coordinator.entries i (some e) j = s.coordinator.entries j :=
    fun j _ hj => Function.update_of_ne hj _ _
  have hkept : ∀ j, j ≠ i → (∃ b, s.coordinator.cached b = some j) → ∃ b, cached b = some j := by
    rintro j hj ⟨b, hb⟩
    rcases hroom with ⟨-, rfl⟩ | ⟨b', hb', rfl⟩
    · exact ⟨b, hb⟩
    · refine ⟨b, (Function.update_of_ne ?_ _ _).trans hb⟩
      rintro rfl
      exact hj (Option.some.inj (hb.symm.trans hb'))
  refine ⟨h.assigned, h.unassigned, h.nodup, fun j o ho => ?_, fun b j hb => ?_, fun b j hb => ?_,
    fun j hfalse htrue => ?_, fun j hj hentry => ?_, ?_, fun j e hentry => ?_⟩
  · obtain ⟨e, he, hkey⟩ := h.owned j o ho
    refine ⟨e, (hkeeps j _ ?_).trans he, hkey⟩
    rintro rfl
    rw [hlane] at ho
    cases ho
  · obtain ⟨hne, hb⟩ := hcached b j hb
    obtain ⟨k, keys, hready⟩ := h.cached b j hb
    exact ⟨k, keys, (hkeeps j _ hne).trans hready⟩
  · exact h.idle b j (hcached b j hb).2
  · exact h.distinct j (hcached _ j hfalse).2 (hcached _ j htrue).2
  · have hne : j ≠ i := fun heq => hj (heq ▸ rfl)
    have hold : s.coordinator.entries j ≠ none := (hkeeps j _ hne) ▸ hentry
    exact (h.kept j (Option.some_ne_none j) hold).imp_right (hkept j hne)
  · have hcount := sum_update s.coordinator.entries Coordinator.weight i
      (some ⟨k, .computing (Kdf.new compress256 password k)⟩)
    have hold := h.few
    unfold Coordinator.computing at hold hfew ⊢
    change ∑ j, Coordinator.weight (Function.update s.coordinator.entries i (some _) j) ≤ 4
    rw [hweight, show Coordinator.weight (some ⟨k, .computing (Kdf.new compress256 password k)⟩) = 1
      from rfl] at hcount
    omega
  · by_cases hj : j = i
    · subst hj
      rw [Function.update_self]
      have he : e = ⟨k, .computing (Kdf.new compress256 password k)⟩ :=
        (Option.some.inj ((Function.update_self (f := s.coordinator.entries) j _).symm.trans
          hentry)).symm
      subst he
      have hlower := k.iterations.lower
      refine ⟨Kdf.holds_new password k, ?_⟩
      change 0 + (k.iterations.get - 1) + 1 = k.iterations.get
      omega
    · rw [Function.update_of_ne hj]
      exact h.ran j e ((hkeeps j _ hj).symm.trans hentry)

/-- A ticket enters the lane of an entry that is being computed. -/
theorem Inv.join {k : KdfKey} {kdf : Kdf} (h : s.Inv compress256 password key rounds (some i))
    (hmember : s.waiters.member o = some none)
    (hentry : s.coordinator.entries i = some ⟨k, .computing kdf⟩) (hkey : k = key o) :
    (s.join o i).1.Inv compress256 password key rounds none := by
  have hcached : ∀ b, s.coordinator.cached b ≠ some i := by
    intro b hb
    obtain ⟨k, keys, hready⟩ := h.cached b i hb
    rw [hentry] at hready
    cases hready
  unfold Runtime.join
  dsimp only
  refine ⟨fun x j => ?_, fun x hx => ?_, fun l => Waiters.nodup_push h.nodup, fun j x hx => ?_,
    h.cached, fun b j hb => ?_, h.distinct, fun j _ hentry' => ?_, h.few, h.ran⟩
  · rw [Waiters.mem_push]
    by_cases hx : x = o
    · subst hx
      refine ⟨fun hjob => Or.inr ⟨rfl, ?_⟩, ?_⟩
      · rw [Waiters.member_push_self] at hjob
        exact (Option.some.inj hjob).symm
      · rintro (⟨-, hne⟩ | ⟨-, hj⟩)
        · exact absurd rfl hne
        · rw [hj]
          exact Waiters.member_push_self
    · rw [Waiters.member_push_of_ne hx, h.assigned x j]
      simp [hx]
  · rcases Waiters.mem_push.mp hx with ⟨hx, hne⟩ | ⟨-, hj⟩
    · exact (Waiters.member_push_of_ne hne).trans (h.unassigned x hx)
    · cases hj
  · rcases Waiters.mem_push.mp hx with ⟨hx, -⟩ | ⟨rfl, hj⟩
    · exact h.owned j x hx
    · cases hj
      exact ⟨_, hentry, hkey⟩
  · have hne : j ≠ i := by
      rintro rfl
      exact hcached b hb
    refine List.eq_nil_iff_forall_not_mem.mpr fun x hx => ?_
    rcases Waiters.mem_push.mp hx with ⟨hx, -⟩ | ⟨-, hj⟩
    · rw [h.idle b j hb] at hx
      cases hx
    · exact hne (Option.some.inj hj)
  · by_cases hj : j = i
    · subst hj
      exact Or.inl (List.ne_nil_of_mem (Waiters.mem_push.mpr (Or.inr ⟨rfl, rfl⟩)))
    · have hsome : some j ≠ some i := fun heq => hj (Option.some.inj heq)
      have hnot : o ∉ s.waiters.lane (some j) := by
        intro ho
        rw [← h.assigned, hmember] at ho
        cases ho
      rw [Waiters.lane_push_of_ne hnot hsome]
      exact h.kept j hsome hentry'

/-- An entry that is being computed has gone further. -/
theorem Inv.advanced {k : KdfKey} {kdf : Kdf} {state : EntryState} {count : ℕ}
    (h : s.Inv compress256 password key rounds loose)
    (hentry : s.coordinator.entries i = some ⟨k, .computing kdf⟩)
    (hran : (⟨k, state⟩ : Entry).Ran compress256 password count) :
    (⟨s.waiters, s.coordinator.advanced i state⟩ : Runtime ω).Inv compress256 password key
      (Function.update rounds i count) loose := by
  have hself : (s.coordinator.advanced i state).entries i = some ⟨k, state⟩ := by
    unfold Coordinator.advanced
    dsimp only
    rw [Function.update_self, hentry]
    rfl
  have hkeeps : ∀ j, j ≠ i →
      (s.coordinator.advanced i state).entries j = s.coordinator.entries j :=
    fun j hj => Function.update_of_ne hj ..
  have hcached : ∀ b j, s.coordinator.cached b = some j → j ≠ i := by
    rintro b j hb rfl
    obtain ⟨k, keys, hready⟩ := h.cached b j hb
    rw [hentry] at hready
    cases hready
  refine ⟨h.assigned, h.unassigned, h.nodup, fun j o ho => ?_, fun b j hb => ?_, h.idle, h.distinct,
    fun j hj hentry' => ?_, ?_, fun j e hentry' => ?_⟩
  · obtain ⟨e, he, hkey⟩ := h.owned j o ho
    by_cases hj : j = i
    · subst hj
      rw [hentry] at he
      cases he
      exact ⟨_, hself, hkey⟩
    · exact ⟨e, (hkeeps j hj).trans he, hkey⟩
  · obtain ⟨k, keys, hready⟩ := h.cached b j hb
    exact ⟨k, keys, (hkeeps j (hcached b j hb)).trans hready⟩
  · by_cases hj' : j = i
    · subst hj'
      exact h.kept j hj (hentry ▸ Option.some_ne_none _)
    · exact h.kept j hj ((hkeeps j hj') ▸ hentry')
  · have hcount := sum_update s.coordinator.entries Coordinator.weight i
      ((s.coordinator.entries i).map fun entry => ⟨entry.key, state⟩)
    have hfew := h.few
    have hle : Coordinator.weight ((s.coordinator.entries i).map fun entry => ⟨entry.key, state⟩) ≤
        1 := by
      rw [hentry]
      unfold Coordinator.weight
      dsimp only [Option.map_some]
      split_ifs
      · exact le_rfl
      · exact Nat.zero_le 1
    have hone : Coordinator.weight (s.coordinator.entries i) = 1 := by
      rw [hentry]
      rfl
    unfold Coordinator.computing at hfew ⊢
    change ∑ j, Coordinator.weight (Function.update s.coordinator.entries i _ j) ≤ 4
    omega
  · by_cases hj : j = i
    · subst hj
      rw [Function.update_self]
      have he : e = ⟨k, state⟩ := (Option.some.inj (hself.symm.trans hentry')).symm
      exact he ▸ hran
    · rw [Function.update_of_ne hj]
      exact h.ran j e ((hkeeps j hj).symm.trans hentry')

/-! ## A ticket leaves -/

theorem release_unassigned (hmember : s.waiters.member o = some none) : s.release o =
    (⟨s.waiters.take o, s.coordinator⟩,
      if s.front none = some o then (s.waiters.take o).front none else none, false) := by
  unfold release
  rw [hmember]
  rfl

theorem release_others {next : ω} (hmember : s.waiters.member o = some (some i))
    (hfront : (s.waiters.take o).front (some i) = some next) : s.release o =
      (⟨s.waiters.take o, s.coordinator⟩,
        if s.front (some i) = some o then some next else none, true) := by
  unfold release
  rw [hmember]
  unfold releaseJob
  dsimp only
  rw [hfront]

theorem release_ready {k : KdfKey} {keys : Keys} (hmember : s.waiters.member o = some (some i))
    (hfront : (s.waiters.take o).front (some i) = none)
    (hentry : s.coordinator.entries i = some ⟨k, .ready keys⟩) : s.release o =
      (⟨s.waiters.take o, s.coordinator.cache i⟩, (s.waiters.take o).front none, false) := by
  unfold release
  rw [hmember]
  unfold releaseJob
  dsimp only
  rw [hfront, hentry]

theorem release_computing {k : KdfKey} {kdf : Kdf}
    (hmember : s.waiters.member o = some (some i))
    (hfront : (s.waiters.take o).front (some i) = none)
    (hentry : s.coordinator.entries i = some ⟨k, .computing kdf⟩) : s.release o =
      (⟨s.waiters.take o, s.coordinator.clear i⟩, (s.waiters.take o).front none, false) := by
  unfold release
  rw [hmember]
  unfold releaseJob
  dsimp only
  rw [hfront, hentry]

/-- An entry that a ticket waits for is not cached. -/
theorem Inv.not_cached (h : s.Inv compress256 password key rounds loose)
    (hmember : s.waiters.member o = some (some i)) (b : Bool) :
    s.coordinator.cached b ≠ some i := by
  intro hb
  have ho := (h.assigned o i).mp hmember
  rw [h.idle b i hb] at ho
  cases ho

/-- A ticket with a job has its entry. -/
theorem Inv.entry (h : s.Inv compress256 password key rounds loose)
    (hmember : s.waiters.member o = some (some i)) :
    ∃ e, s.coordinator.entries i = some e ∧ e.key = key o :=
  h.owned i o ((h.assigned o i).mp hmember)

theorem Inv.release (h : s.Inv compress256 password key rounds none) :
    (s.release o).1.Inv compress256 password key rounds none := by
  rcases hmember : s.waiters.member o with - | - | i
  · unfold Runtime.release
    rw [hmember]
    exact h
  · rw [release_unassigned hmember]
    exact h.take hmember
  · have htake := h.take hmember
    rcases hfront : (s.waiters.take o).front (some i) with - | next
    · have hlane := Waiters.front_eq_none.mp hfront
      obtain ⟨⟨k, state⟩, hentry, -⟩ := h.entry hmember
      rcases state with kdf | keys
      · rw [release_computing hmember hfront hentry]
        exact htake.clear hlane (h.not_cached hmember)
      · rw [release_ready hmember hfront hentry]
        exact htake.cache hlane (h.not_cached hmember) hentry
    · rw [release_others hmember hfront]
      exact htake.tighten (List.ne_nil_of_mem (Waiters.front_mem hfront))

/-- An entry that is ready stays so when a ticket takes its keys. -/
theorem Inv.release_entry {k : KdfKey} {keys : Keys}
    (h : s.Inv compress256 password key rounds none)
    (hmember : s.waiters.member o = some none ∨ s.waiters.member o = some (some i))
    (hentry : s.coordinator.entries i = some ⟨k, .ready keys⟩) :
    (s.release o).1.coordinator.entries i = some ⟨k, .ready keys⟩ := by
  rcases hmember with hmember | hmember
  · rw [release_unassigned hmember]
    exact hentry
  · rcases hfront : (s.waiters.take o).front (some i) with - | next
    · rw [release_ready hmember hfront hentry]
      dsimp only
      rw [Coordinator.cache_entries, if_neg (h.not_cached hmember _)]
      exact hentry
    · rw [release_others hmember hfront]
      exact hentry

/-! ## A poll -/

/-- What a poll can do. -/
inductive Turn (compress256 : Words → List UInt8 → Words) (password : List UInt8)
    (key : ω → KdfKey) (s : Runtime ω) (o : ω) : Polled ω → Prop where
  /-- The ticket was released. -/
  | gone (hmember : s.waiters.member o = none) : Turn compress256 password key s o ⟨s, [], none, none⟩
  /-- It has no entry. -/
  | waits (hmember : s.waiters.member o = some none)
      (hselect : ¬s.coordinator.Selects (key o) (s.front none = none ∨ s.front none = some o)) :
      Turn compress256 password key s o ⟨⟨s.waiters.set o, s.coordinator⟩, [], none, none⟩
  /-- It joins others. -/
  | joins {i : Index} {kdf : Kdf} (hmember : s.waiters.member o = some none)
      (hentry : s.coordinator.entries i = some ⟨key o, .computing kdf⟩)
      (hlane : s.waiters.lane (some i) ≠ []) :
      Turn compress256 password key s o ⟨(s.join o i).1, (s.join o i).2, none, none⟩
  /-- It starts a derivation. -/
  | starts {i : Index} {cached : Bool → Option Index} (hmember : s.waiters.member o = some none)
      (hfront : s.front none = none ∨ s.front none = some o) (hfew : s.coordinator.computing ≠ 4)
      (hroom : (s.coordinator.entries i = none ∧ cached = s.coordinator.cached) ∨
        ∃ b, s.coordinator.cached b = some i ∧ cached = s.coordinator.uncache b) :
      Turn compress256 password key s o
        ⟨⟨s.waiters.push o i, (s.coordinator.insert i cached ⟨key o, .computing
            (Kdf.new compress256 password (key o))⟩).advanced i (.computing
              ((Kdf.new compress256 password (key o)).advance compress256).1)⟩,
          (s.join o i).2 ++ [o], none, some (i, 256)⟩
  /-- It is behind the front. -/
  | behind {i : Index} (hmember : s.waiters.member o = some (some i))
      (hfront : s.front (some i) ≠ some o) (hentry : s.coordinator.computes i = true) :
      Turn compress256 password key s o ⟨s, [], none, none⟩
  /-- It advances its derivation. -/
  | advances {i : Index} {kdf : Kdf} (hmember : s.waiters.member o = some (some i))
      (hfront : s.front (some i) = some o)
      (hentry : s.coordinator.entries i = some ⟨key o, .computing kdf⟩)
      (hmore : 256 < kdf.remaining) :
      Turn compress256 password key s o
        ⟨⟨s.waiters, s.coordinator.advanced i (.computing (kdf.advance compress256).1)⟩, [o], none,
          some (i, 256)⟩
  /-- It completes its derivation. -/
  | completes {i : Index} {kdf : Kdf} {keys : Keys} {t : Runtime ω} {others : Option ω}
      (hmember : s.waiters.member o = some (some i))
      (hfront : s.front (some i) = some o)
      (hentry : s.coordinator.entries i = some ⟨key o, .computing kdf⟩)
      (hlast : kdf.remaining ≤ 256)
      (hkeys : keys.Of compress256 (kdf.advance compress256).1.output.toList)
      (ht : t = ⟨s.waiters, s.coordinator.advanced i (.ready keys)⟩)
      (hothers : others = if (t.release o).2.2 then (t.release o).1.front none else none) :
      Turn compress256 password key s o
        ⟨(t.release o).1, (t.release o).2.1.toList ++ others.toList, some keys,
          some (i, kdf.remaining)⟩
  /-- It takes the keys of an entry that is ready. -/
  | takes {i : Index} {keys : Keys}
      (hmember : s.waiters.member o = some none ∨ s.waiters.member o = some (some i))
      (hentry : s.coordinator.entries i = some ⟨key o, .ready keys⟩) :
      Turn compress256 password key s o
        ⟨(s.release o).1, (s.release o).2.1.toList, some keys, none⟩

theorem finish_eq {k : KdfKey} {keys : Keys} {wakes : List ω} {ran : Option (Index × ℕ)}
    (hentry : (s.release o).1.coordinator.entries i = some ⟨k, .ready keys⟩) :
    s.finish o i wakes ran = some ⟨(s.release o).1, wakes ++ (s.release o).2.1.toList ++
      (if ran.isSome ∧ (s.release o).2.2 then (s.release o).1.front none else none).toList,
        some keys, ran⟩ := by
  unfold finish
  dsimp only
  rw [hentry]

theorem advance_behind {kdf : Kdf} {wakes : List ω} (hfront : s.front (some i) ≠ some o) :
    s.advance compress256 o i kdf wakes = some ⟨s, wakes, none, none⟩ := by
  unfold advance
  rw [if_pos hfront]

theorem advance_more {kdf : Kdf} {wakes : List ω} (hfront : s.front (some i) = some o)
    (hmore : (kdf.advance compress256).2 = none) : s.advance compress256 o i kdf wakes =
      some ⟨⟨s.waiters, s.coordinator.advanced i (.computing (kdf.advance compress256).1)⟩,
        wakes ++ [o], none, some (i, min kdf.remaining 256)⟩ := by
  unfold advance
  rw [if_neg (not_not.mpr hfront)]
  rcases hkdf : kdf.advance compress256 with ⟨next, result⟩
  rw [hkdf] at hmore
  subst hmore
  rfl

theorem advance_last {kdf : Kdf} {salted : Secret32} {wakes : List ω}
    (hfront : s.front (some i) = some o)
    (hlast : (kdf.advance compress256).2 = some salted) : s.advance compress256 o i kdf wakes =
      finish ⟨s.waiters, s.coordinator.advanced i (.ready (Keys.write compress256
        ((sha256 compress256).seed 0x36 salted.toList)
        ((sha256 compress256).seed 0x5c salted.toList)))⟩ o i wakes
          (some (i, min kdf.remaining 256)) := by
  unfold advance
  rw [if_neg (not_not.mpr hfront)]
  rcases hkdf : kdf.advance compress256 with ⟨next, result⟩
  rw [hkdf] at hlast
  subst hlast
  dsimp only
  rw [hmac_eq]

theorem advanced_entries {k : KdfKey} {state state' : EntryState}
    (hentry : s.coordinator.entries i = some ⟨k, state⟩) :
    (s.coordinator.advanced i state').entries i = some ⟨k, state'⟩ := by
  unfold Coordinator.advanced
  dsimp only
  rw [Function.update_self, hentry]
  rfl

/-- A slice that is not the last. -/
theorem Inv.slice {k : KdfKey} {kdf : Kdf} (h : s.Inv compress256 password key rounds loose)
    (hentry : s.coordinator.entries i = some ⟨k, .computing kdf⟩) (hmore : 256 < kdf.remaining) :
    (⟨s.waiters, s.coordinator.advanced i (.computing (kdf.advance compress256).1)⟩ :
      Runtime ω).Inv compress256 password key (Function.update rounds i (rounds i + 256)) loose := by
  obtain ⟨hholds, hiterations⟩ := h.ran i _ hentry
  obtain ⟨hholds', hremaining, -⟩ := hholds.advance Vector.length_toList
  rw [Nat.min_eq_right hmore.le] at hholds'
  refine h.advanced hentry ⟨hholds', ?_⟩
  dsimp only at hiterations ⊢
  omega

/-- The last slice. -/
theorem Inv.complete {k : KdfKey} {kdf : Kdf} {keys : Keys}
    (h : s.Inv compress256 password key rounds loose)
    (hentry : s.coordinator.entries i = some ⟨k, .computing kdf⟩) (hlast : kdf.remaining ≤ 256)
    (hkeys : keys.Of compress256 (kdf.advance compress256).1.output.toList) :
    (⟨s.waiters, s.coordinator.advanced i (.ready keys)⟩ : Runtime ω).Inv compress256 password key
      (Function.update rounds i (rounds i + kdf.remaining)) loose := by
  obtain ⟨hholds, hiterations⟩ := h.ran i _ hentry
  obtain ⟨hholds', -, -⟩ := hholds.advance Vector.length_toList
  rw [Nat.min_eq_left hlast] at hholds'
  rw [hholds'.output] at hkeys
  exact h.advanced hentry ⟨hiterations, hkeys⟩

/-- A poll of a ticket with a job. -/
theorem Inv.poll_job (h : s.Inv compress256 password key rounds none)
    (hmember : s.waiters.member o = some (some i)) :
    ∃ p, s.poll compress256 o (key o) password = some p ∧ Turn compress256 password key s o p := by
  obtain ⟨⟨k, state⟩, hentry, hkey⟩ := h.entry hmember
  dsimp only at hkey
  subst hkey
  have hpoll : s.poll compress256 o (key o) password = s.drive compress256 o (some i) i := by
    unfold poll
    rw [hmember]
  rw [hpoll]
  unfold drive
  rw [hentry]
  rcases state with kdf | keys
  · dsimp only [Option.isNone_some]
    rw [if_neg Bool.false_ne_true]
    dsimp only
    by_cases hfront : s.front (some i) = some o
    · obtain ⟨hholds, hiterations⟩ := h.ran i _ hentry
      obtain ⟨-, -, hresult⟩ := hholds.advance Vector.length_toList
      rcases Nat.lt_or_ge 256 kdf.remaining with hmore | hlast
      · rw [if_neg (by omega)] at hresult
        have hturn : Turn compress256 password key s o _ :=
          .advances hmember hfront hentry hmore
        rw [advance_more hfront hresult, Nat.min_eq_right hmore.le]
        exact ⟨_, rfl, hturn⟩
      · rw [if_pos hlast] at hresult
        have hkeys := @keys_write compress256 (kdf.advance compress256).1.output.toList
        rw [advance_last hfront hresult, Nat.min_eq_left hlast]
        generalize Keys.write compress256 _ _ = keys at hkeys ⊢
        rw [finish_eq ((h.complete hentry hlast hkeys).release_entry (Or.inr hmember)
          (advanced_entries hentry))]
        have hturn : Turn compress256 password key s o _ :=
          .completes hmember hfront hentry hlast hkeys rfl rfl
        simpa using hturn
    · rw [advance_behind hfront]
      refine ⟨_, rfl, .behind hmember hfront ?_⟩
      unfold Coordinator.computes
      rw [hentry]
      rfl
  · rw [finish_eq (h.release_entry (Or.inr hmember) hentry)]
    refine ⟨_, rfl, ?_⟩
    have hturn : Turn compress256 password key s o _ := .takes (Or.inr hmember) hentry
    simpa using hturn

theorem Inv.not_in_lane (h : s.Inv compress256 password key rounds loose)
    (hmember : s.waiters.member o = some none) : o ∉ s.waiters.lane (some i) := by
  intro ho
  rw [← h.assigned, hmember] at ho
  cases ho

/-- A poll of a ticket without a job, whose key has an entry. -/
theorem Inv.poll_shared {e : Entry} (h : s.Inv compress256 password key rounds none)
    (hmember : s.waiters.member o = some none) (hentry : s.coordinator.entries i = some e)
    (hkey : e.key = key o) : ∃ p, s.drive compress256 o none i = some p ∧
      Turn compress256 password key s o p := by
  obtain ⟨k, state⟩ := e
  dsimp only at hkey
  subst hkey
  have hnot := h.not_in_lane (i := i) hmember
  unfold drive
  rw [hentry]
  rcases state with kdf | keys
  · have hlane : s.waiters.lane (some i) ≠ [] := by
      rcases h.kept i (Option.some_ne_none i) (hentry ▸ Option.some_ne_none _) with hlane | ⟨b, hb⟩
      · exact hlane
      · obtain ⟨k, keys, hready⟩ := h.cached b i hb
        rw [hentry] at hready
        cases hready
    have hfront : (s.join o i).1.front (some i) ≠ some o := by
      obtain ⟨x, rest, hcons⟩ := List.exists_cons_of_ne_nil hlane
      have hpush : (s.waiters.push o i).lane (some i) = s.waiters.lane (some i) ++ [o] :=
        (Function.update_self ..).trans (congrArg (· ++ [o]) (Waiters.without_of_not_mem hnot))
      change (s.waiters.push o i).front (some i) ≠ some o
      unfold Waiters.front
      rw [hpush, hcons]
      rintro heq
      cases heq
      rw [hcons] at hnot
      exact hnot List.mem_cons_self
    exact ⟨_, advance_behind hfront, .joins hmember hentry hlane⟩
  · dsimp only
    rw [finish_eq (h.release_entry (i := i) (Or.inl hmember) hentry)]
    have hturn : Turn compress256 password key s o _ := .takes (i := i) (Or.inl hmember) hentry
    simpa using hturn

/-- A poll of a ticket without a job that is admitted to a place. -/
theorem Inv.poll_starts {cached : Bool → Option Index}
    (h : s.Inv compress256 password key rounds none) (hmember : s.waiters.member o = some none)
    (hfront : s.front none = none ∨ s.front none = some o) (hfew : s.coordinator.computing ≠ 4)
    (hroom : (s.coordinator.entries i = none ∧ cached = s.coordinator.cached) ∨
      ∃ b, s.coordinator.cached b = some i ∧ cached = s.coordinator.uncache b) :
    ∃ p, (⟨s.waiters, s.coordinator.insert i cached ⟨key o, .computing (Kdf.new compress256
      password (key o))⟩⟩ : Runtime ω).drive compress256 o none i = some p ∧
        Turn compress256 password key s o p := by
  have hentry : (s.coordinator.insert i cached ⟨key o, .computing (Kdf.new compress256
      password (key o))⟩).entries i = some ⟨key o, .computing (Kdf.new compress256 password
        (key o))⟩ := Function.update_self ..
  have hpush : (s.waiters.push o i).front (some i) = some o := by
    unfold Waiters.front Waiters.push Waiters.without
    dsimp only
    rw [Function.update_self, h.room_lane hroom]
    rfl
  obtain ⟨-, -, hresult⟩ :=
    (@Kdf.holds_new compress256 password (key o)).advance Vector.length_toList
  have hlower := (key o).iterations.lower
  have hremaining : (Kdf.new compress256 password (key o)).remaining =
      (key o).iterations.get - 1 := rfl
  rw [if_neg (by omega)] at hresult
  refine ⟨_, ?_, .starts hmember hfront hfew hroom⟩
  unfold drive
  dsimp only
  rw [hentry]
  dsimp only [Option.isNone_none]
  rw [if_pos rfl]
  refine (advance_more (s := ⟨s.waiters.push o i, _⟩) hpush hresult).trans ?_
  rw [hremaining, Nat.min_eq_right (by omega)]
  rfl

/-- No branch marked as unreachable is taken. -/
theorem Inv.poll_turn (h : s.Inv compress256 password key rounds none) (o : ω) :
    ∃ p, s.poll compress256 o (key o) password = some p ∧ Turn compress256 password key s o p := by
  rcases hmember : s.waiters.member o with - | - | i
  · refine ⟨_, ?_, .gone hmember⟩
    unfold poll
    rw [hmember]
  · unfold poll
    rw [hmember]
    dsimp only
    rcases hselect : s.coordinator.select compress256 (key o)
      (if s.front none = none ∨ s.front none = some o then some password else none) with
      - | ⟨i, coordinator⟩
    · refine ⟨_, rfl, .waits hmember fun hselects => ?_⟩
      refine h.cached.select_none hselect ?_
      split_ifs with hadmitted
      · exact hselects.imp_right fun hroom => ⟨Option.some_ne_none _, hroom.2⟩
      · exact Or.inl (hselects.resolve_right fun hroom => hadmitted hroom.1)
    · rcases h.cached.select_some hselect with ⟨rfl, e, hentry, hkey⟩ |
        ⟨secret, cached, hadmitted, hfew, rfl, hroom⟩
      · exact h.poll_shared hmember hentry hkey
      · split_ifs at hadmitted with hfront
        cases hadmitted
        exact h.poll_starts hmember hfront hfew hroom
  · exact h.poll_job hmember

/-- The rounds after a poll that ran some of an entry. A new entry starts from none. -/
def counted (s : Runtime ω) (rounds : Index → ℕ) (ran : Option (Index × ℕ)) : Index → ℕ :=
  match ran with
  | none => rounds
  | some (i, n) =>
    Function.update rounds i ((if s.coordinator.computes i then rounds i else 0) + n)

theorem computes_computing {k : KdfKey} {kdf : Kdf}
    (hentry : s.coordinator.entries i = some ⟨k, .computing kdf⟩) :
    s.coordinator.computes i = true := by
  unfold Coordinator.computes
  rw [hentry]
  rfl

theorem Inv.computes_room {cached : Bool → Option Index}
    (h : s.Inv compress256 password key rounds none)
    (hroom : (s.coordinator.entries i = none ∧ cached = s.coordinator.cached) ∨
      ∃ b, s.coordinator.cached b = some i ∧ cached = s.coordinator.uncache b) :
    s.coordinator.computes i = false := by
  unfold Coordinator.computes
  rcases hroom with ⟨hentry, -⟩ | ⟨b, hb, -⟩
  · rw [hentry]
  · obtain ⟨k, keys, hready⟩ := h.cached b i hb
    rw [hready]
    rfl

/-- A poll keeps the invariant. -/
theorem Inv.turn {p : Polled ω} (h : s.Inv compress256 password key rounds none)
    (hturn : Turn compress256 password key s o p) :
    p.runtime.Inv compress256 password key (s.counted rounds p.ran) none := by
  cases hturn with
  | gone hmember => exact h
  | waits hmember hselect => exact h.set hmember
  | joins hmember hentry hlane => exact h.loosen.join hmember hentry rfl
  | @starts i cached hmember hfront hfew hroom =>
    have hlower := (key o).iterations.lower
    have hinsert := h.insert (k := key o) hfew hroom
    have hentry : (s.coordinator.insert i cached ⟨key o, .computing (Kdf.new compress256 password
        (key o))⟩).entries i = some ⟨key o, .computing (Kdf.new compress256 password (key o))⟩ :=
      Function.update_self ..
    have hslice := (hinsert.join hmember hentry rfl).slice hentry
      (show 256 < (key o).iterations.get - 1 by omega)
    rw [Function.update_self, Function.update_idem] at hslice
    unfold counted
    dsimp only
    rw [h.computes_room hroom, if_neg Bool.false_ne_true]
    exact hslice
  | behind hmember hfront hentry => exact h
  | advances hmember hfront hentry hmore =>
    unfold counted
    dsimp only
    rw [computes_computing hentry, if_pos rfl]
    exact h.slice hentry hmore
  | completes hmember hfront hentry hlast hkeys ht hothers =>
    subst ht
    unfold counted
    dsimp only
    rw [computes_computing hentry, if_pos rfl]
    exact (h.complete hentry hlast hkeys).release
  | takes hmember hentry => exact h.release

end Runtime

end Cartel.Pg.Scram
