import Cartel.Heap.Hooks
import Mathlib.Data.List.Perm.Subperm

/-!
# Runs of a heap

A heap together with the allocations that are live, who holds on to it, and the arena in scope on
its worker. Allocations and scopes come and go in any order, and an owner writes to its payload
whenever it likes. `Inv` holds of every state such a run reaches (`Reached.inv`).
-/

namespace Cartel.Sqlite.Heap

open Cartel.Lib (load store load_congr load_store_one)
open Cartel.Lib.Dyadic (Block extent start_mem)

variable {M : Type}

/-! ## The system -/

/-- The error of `crate::Error` that entering a scope reports. -/
inductive Error where
  | localAllocatorOccupied
  deriving DecidableEq

/-- `Scope::enter`, on what `scopes::CURRENT` holds. -/
def Scope.enter (current : Option ℕ) (owner : ℕ) : Except Error (Option ℕ) :=
  if current.isSome then .error .localAllocatorOccupied else .ok (some owner)

/-- The payload bytes of the block that a request gets. -/
def Len.size (len : Len) : ℕ :=
  match len.class with
  | some order => room order.val
  | none => 0

/-- A live allocation as its owner knows it : its payload, the request that gave the block its
order, and the bytes of the payload. -/
structure Live where
  pointer : ℕ
  request : Len
  bytes : List UInt8

/-- The allocation of a payload as it stands in memory. -/
def Arena.live (arena : Arena M) (pointer : ℕ) (request : Len) : Live :=
  ⟨pointer, request, load arena.memory pointer request.size⟩

/-- A heap, its live allocations, whether the runtime holds on to it, the arena in scope on its
worker, the backing once it has been returned, and the pointer of the last call. -/
structure World (M : Type) where
  arena : Arena M
  live : List Live
  runtime : Bool
  current : Option ℕ
  returned : Option M
  reply : Option ℕ

/-- What the worker does. -/
inductive Action where
  | enter (owner : ℕ)
  | finish
  | malloc (bytes : Int32)
  | free (pointer : ℕ)
  | realloc (pointer : ℕ) (bytes : Int32)
  | fill (pointer offset : ℕ) (byte : UInt8)
  | retire

namespace World

/-- What SQLite and the runtime keep to : only a live allocation is released, resized and written
to, and the runtime lets go of a heap once its scope has ended. -/
def Allowed (world : World M) : Action → Prop
  | .enter owner => owner = world.arena.address → world.runtime = true
  | .finish => True
  | .malloc _ => True
  | .free pointer => ∃ l ∈ world.live, l.pointer = pointer
  | .realloc pointer _ => ∃ l ∈ world.live, l.pointer = pointer
  | .fill pointer offset _ => ∃ l ∈ world.live, l.pointer = pointer ∧ offset < l.bytes.length
  | .retire => world.runtime = true ∧ world.current ≠ some world.arena.address

/-- `hooks::malloc` : without the scope of this arena, nothing happens to it. -/
def malloc (world : World M) (bytes : Int32) : Option (World M) :=
  if world.current = some world.arena.address then do
    let (arena, result) ← world.arena.malloc bytes
    match result, Len.new bytes with
    | some pointer, some len =>
      return { world with
        arena := arena
        live := arena.live pointer len :: world.live
        reply := some pointer }
    | _, _ => return { world with arena := arena, reply := none }
  else some { world with reply := none }

/-- `hooks::free`. -/
def free (world : World M) (pointer : ℕ) : Option (World M) := do
  let (arena, backing) ← world.arena.dealloc pointer
  return { world with
    arena := arena
    live := world.live.filter fun l => l.pointer ≠ pointer
    returned := backing }

/-- `hooks::realloc`. -/
def realloc (world : World M) (pointer : ℕ) (bytes : Int32) : Option (World M) := do
  let (arena, result) ← world.arena.realloc pointer bytes
  match result, Len.new bytes with
  | some moved, some len =>
    return { world with
      arena := arena
      live := world.live.map fun l =>
        if l.pointer = pointer ∧ l.request.size < len.bytes then arena.live moved len else l
      reply := some moved }
  | _, _ => return { world with arena := arena, reply := none }

/-- A write to a payload. -/
def fill (world : World M) (pointer offset : ℕ) (byte : UInt8) : Option (World M) := do
  let arena ← world.arena.write (pointer + offset) [byte]
  return { world with
    arena := arena
    live := world.live.map fun l =>
      if l.pointer = pointer then { l with bytes := l.bytes.set offset byte } else l }

/-- The drop of `Retained`. -/
def retire (world : World M) : Option (World M) := do
  let (arena, backing) ← world.arena.release
  return { world with arena := arena, runtime := false, returned := backing }

/-- One action. -/
def step (world : World M) : Action → Option (World M)
  | .enter owner =>
    match Scope.enter world.current owner with
    | .ok current => some { world with current := current }
    | .error _ => some world
  | .finish => some { world with current := none }
  | .malloc bytes => world.malloc bytes
  | .free pointer => world.free pointer
  | .realloc pointer bytes => world.realloc pointer bytes
  | .fill pointer offset byte => world.fill pointer offset byte
  | .retire => world.retire

/-- The blocks of the live allocations. -/
def taken (world : World M) : Set Block :=
  {b | ∃ l ∈ world.live, ∃ order, l.request.class = some order ∧
    l.pointer = b.1 * 32 + 16 ∧ b.2 = order.val}

end World

/-- The states of a run, from a new heap of an admitted layout on. -/
inductive Reached (layout : Layout) (address : ℕ) (backing : M) : World M → Prop where
  | start {memory : ℕ → UInt8} {arena : Arena M} (hcapacity : layout.capacity < 2 ^ 31)
      (haddress : address < 2 ^ 64) (h : Arena.init address layout backing memory = some arena) :
      Reached layout address backing ⟨arena, [], true, none, none, none⟩
  | step {world world' : World M} (h : Reached layout address backing world) (action : Action)
      (hallowed : world.Allowed action) (hstep : world.step action = some world') :
      Reached layout address backing world'

/-! ## The invariant -/

/-- A live allocation stands in memory as its owner knows it. -/
structure Live.Stands (l : Live) (arena : Arena M) (i : ℕ) (order : Order) : Prop where
  pointer : l.pointer = i * 32 + 16
  request : l.request.class = some order
  headed : Headed arena i order.val
  bytes : l.bytes = arena.payload i order.val

theorem Len.size_eq {len : Len} {order : Order} (h : len.class = some order) :
    len.size = room order.val := by
  unfold Len.size
  rw [h]

theorem Len.le_size {len : Len} {order : Order} (h : len.class = some order) :
    len.bytes ≤ len.size := by
  rw [Len.size_eq h]
  exact (Len.class_eq_some_iff.mp h).1

/-- What holds in every state. -/
structure Inv (layout : Layout) (address : ℕ) (backing : M) (world : World M) : Prop where
  address_lt : address < 2 ^ 64
  address : world.arena.address = address
  units : world.arena.units = layout.units
  holds : world.returned = none → ∃ F, Holds world.arena F world.taken
  stands : ∀ l ∈ world.live, ∃ i order, l.Stands world.arena i order
  nodup : (world.live.map Live.pointer).Nodup
  references : world.arena.references = world.live.length + (if world.runtime then 1 else 0)
  owned : world.arena.references ≠ 0 → world.returned = none ∧
    world.arena.backing = some backing
  returned : world.arena.references = 0 → world.returned = some backing ∧
    world.arena.backing = none
  scope : world.current = some world.arena.address → world.runtime = true

variable {layout : Layout} {address : ℕ} {backing : M} {world world' : World M}
  {arena arena' : Arena M} {F F' L : Set Block} {i : ℕ} {order : Order} {l : Live}

theorem Layout.units_lt (h : layout.capacity < 2 ^ 31) : layout.units < 2 ^ 26 := by
  unfold Layout.capacity Layout.unitBytes at h
  omega

theorem Live.Stands.mem_taken (h : l.Stands world.arena i order) (hl : l ∈ world.live) :
    (i, order.val) ∈ world.taken :=
  ⟨l, hl, order, h.request, h.pointer, rfl⟩

/-- What is live of two allocations with one pointer is one. -/
theorem World.eq_of_pointer {live : List Live} (hnodup : (live.map Live.pointer).Nodup) {l m : Live}
    (hl : l ∈ live) (hm : m ∈ live) (h : l.pointer = m.pointer) : l = m :=
  List.inj_on_of_nodup_map hnodup hl hm h

theorem World.length_filter {live : List Live} (hnodup : (live.map Live.pointer).Nodup) {l : Live}
    (hl : l ∈ live) :
    (live.filter fun m => m.pointer ≠ l.pointer).length + 1 = live.length := by
  induction live with
  | nil => exact absurd hl List.not_mem_nil
  | cons m live ih =>
    obtain ⟨hm, hrest⟩ := List.nodup_cons.mp hnodup
    rcases List.mem_cons.mp hl with rfl | hl
    · have hall : ∀ n ∈ live, n.pointer ≠ l.pointer := fun n hn heq =>
        hm (heq ▸ List.mem_map_of_mem hn)
      rw [List.filter_cons_of_neg (by simp), List.filter_eq_self.mpr (by simpa using hall)]
      rfl
    · have hne : m.pointer ≠ l.pointer := fun heq => hm (heq ▸ List.mem_map_of_mem hl)
      rw [List.filter_cons_of_pos (by simpa using hne), List.length_cons, List.length_cons,
        ih hrest hl]

/-- A live allocation that is not touched stands as before. -/
theorem Live.Stands.frame {touched : Set ℕ} (h : l.Stands arena i order)
    (hframe : Frame touched arena arena') (hend : i + 2 ^ order.val ≤ arena.units)
    (hout : Disjoint (extent (i, order.val)) touched) : l.Stands arena' i order :=
  ⟨h.pointer, h.request, hframe.headed hend hout h.headed,
    h.bytes.trans (hframe.payload hend hout).symm⟩

theorem Live.Stands.own (h : l.Stands arena i order) (n : ℕ) (backing : Option M) :
    l.Stands (arena.own n backing) i order :=
  ⟨h.pointer, h.request, h.headed.own n backing, h.bytes⟩

namespace Inv

theorem reply (h : Inv layout address backing world) (reply : Option ℕ) :
    Inv layout address backing { world with reply := reply } :=
  ⟨h.address_lt, h.address, h.units, h.holds, h.stands, h.nodup, h.references, h.owned,
    h.returned, h.scope⟩

/-- The live allocations are as many as there are blocks for them. -/
theorem length_lt (h : Inv layout address backing world) (hreturned : world.returned = none) :
    world.live.length < 2 ^ 26 := by
  obtain ⟨F, hholds⟩ := h.holds hreturned
  have hsub : ∀ pointer ∈ world.live.map Live.pointer,
      pointer ∈ (List.range world.arena.units).map fun i => i * 32 + 16 := by
    intro pointer hmem
    obtain ⟨l, hl, rfl⟩ := List.mem_map.mp hmem
    obtain ⟨i, order, hstands⟩ := h.stands l hl
    refine List.mem_map.mpr ⟨i, List.mem_range.mpr ?_, hstands.pointer.symm⟩
    exact hholds.start_lt (Or.inr (hstands.mem_taken hl))
  have hlength := (h.nodup.subperm hsub).length_le
  rw [List.length_map, List.length_map, List.length_range] at hlength
  have := hholds.small
  omega

theorem owned_of_live (h : Inv layout address backing world) (hl : l ∈ world.live) :
    world.arena.references ≠ 0 := by
  have hpos := List.length_pos_of_mem hl
  have := h.references
  omega

theorem start {memory : ℕ → UInt8} (hcapacity : layout.capacity < 2 ^ 31)
    (haddress : address < 2 ^ 64) (h : Arena.init address layout backing memory = some arena) :
    Inv layout address backing ⟨arena, [], true, none, none, none⟩ := by
  obtain ⟨arena', F, hinit, hholds, haddr, hunits, hreferences, hbacking⟩ :=
    init_holds (Layout.units_lt hcapacity) address backing memory
  rw [h] at hinit
  obtain rfl := Option.some.inj hinit
  have htaken : World.taken ⟨arena, [], true, none, none, none⟩ = ∅ := by
    ext b
    exact ⟨fun ⟨l, hl, _⟩ => absurd hl List.not_mem_nil, fun hb => absurd hb (Set.notMem_empty b)⟩
  refine ⟨haddress, haddr, hunits, fun _ => ⟨F, htaken ▸ hholds⟩, fun l hl => absurd hl
    List.not_mem_nil, List.nodup_nil, hreferences, fun _ => ⟨rfl, hbacking⟩, fun hzero => ?_,
    fun _ => rfl⟩
  exact absurd hzero (by rw [hreferences]; decide)

theorem malloc (h : Inv layout address backing world) (bytes : Int32) :
    ∃ world', world.malloc bytes = some world' ∧ Inv layout address backing world' := by
  unfold World.malloc
  by_cases hscope : world.current = some world.arena.address
  case neg => exact ⟨_, if_neg hscope, h.reply none⟩
  rw [if_pos hscope]
  have hruntime := h.scope hscope
  have hreferences := h.references
  rw [hruntime, if_pos rfl] at hreferences
  obtain ⟨hreturned, hbacking⟩ := h.owned (by omega)
  obtain ⟨F, hholds⟩ := h.holds hreturned
  have hlength := h.length_lt hreturned
  obtain ⟨result, hmalloc, hresult⟩ := hholds.malloc (by omega) bytes
  rw [hmalloc, Option.bind_eq_bind, Option.bind_some]
  have hsame : ∃ world', (some { world with reply := none } : Option (World M)) =
      some world' ∧ Inv layout address backing world' := ⟨_, rfl, h.reply none⟩
  rcases hresult with hnone | ⟨hlen, hclass⟩ | ⟨hlen, hclass, hgets⟩
  · exact hsame
  · exact hsame
  rename_i len order
  rcases hgets with hfree | ⟨hb, hle, hholds', hnot, hheaded, hframe⟩
  · exact hsame
  rename_i one i F' b
  let arena := one.own (world.arena.references + 1) world.arena.backing
  let world' : World M := { world with
    arena := arena
    live := arena.live (i * 32 + 16) len :: world.live
    reply := some (i * 32 + 16) }
  have hend := hholds'.end_le
    (Or.inr (Or.inl rfl : (i, order.val) ∈ insert (i, order.val) world.taken))
  have hnew : (arena.live (i * 32 + 16) len).Stands arena i order :=
    ⟨rfl, hclass, hheaded.own _ _, by
      simp only [Arena.live, Arena.payload, Len.size_eq hclass]⟩
  have hold : ∀ l ∈ world.live, ∃ j k, l.Stands world.arena j k ∧ l.Stands arena j k := by
    intro l hl
    obtain ⟨j, k, hstands⟩ := h.stands l hl
    refine ⟨j, k, hstands, Live.Stands.own ?_ _ _⟩
    exact hstands.frame hframe (hholds.end_le (Or.inr (hstands.mem_taken hl)))
      (hholds.disjoint_units (hstands.mem_taken hl))
  have htaken : world'.taken = insert (i, order.val) world.taken := by
    ext c
    constructor
    · rintro ⟨l, hl, k, hrequest, hpointer, hc⟩
      rcases List.mem_cons.mp hl with rfl | hl
      · have hk : k = order := Option.some.inj (hrequest.symm.trans hclass)
        subst hk
        have hi : i * 32 + 16 = c.1 * 32 + 16 := hpointer
        exact Or.inl (Prod.ext (by omega) hc)
      · exact Or.inr ⟨l, hl, k, hrequest, hpointer, hc⟩
    · rintro (rfl | ⟨l, hl, hc⟩)
      · exact hnew.mem_taken List.mem_cons_self
      · exact ⟨l, List.mem_cons_of_mem _ hl, hc⟩
  refine ⟨world', ?_, h.address_lt, ?_, ?_, fun _ => ⟨F', ?_⟩, ?_, ?_, ?_, fun _ => ?_,
    fun hzero => ?_, fun _ => hruntime⟩
  · dsimp only
    rw [hlen]
    rfl
  · exact hframe.address.trans h.address
  · exact hframe.units.trans h.units
  · rw [htaken]
    exact hholds'.own _ _
  · intro l hl
    rcases List.mem_cons.mp hl with rfl | hl
    · exact ⟨i, order, hnew⟩
    · obtain ⟨j, k, -, hstands⟩ := hold l hl
      exact ⟨j, k, hstands⟩
  · refine List.nodup_cons.mpr ⟨fun hmem => ?_, h.nodup⟩
    obtain ⟨l, hl, hpointer⟩ := List.mem_map.mp hmem
    obtain ⟨j, k, hstands, -⟩ := hold l hl
    -- two blocks of one start share a unit
    have hij : j = i := by
      have := hstands.pointer.symm.trans hpointer
      simp only [Arena.live] at this
      omega
    subst hij
    refine hnot ?_
    have htiles := hholds'.split.tiles
    have heq := htiles.unique (Or.inr (Or.inr (hstands.mem_taken hl)))
      (Or.inr (Or.inl rfl)) (start_mem (j, k.val)) (start_mem (j, order.val))
    rw [← heq]
    exact hstands.mem_taken hl
  · simp only [world', arena, Arena.own_references, List.length_cons, hruntime, if_true]
    omega
  · exact ⟨hreturned, hbacking⟩
  · exact absurd hzero (Nat.succ_ne_zero _)

theorem free (h : Inv layout address backing world) (hl : l ∈ world.live) :
    ∃ world', world.free l.pointer = some world' ∧ Inv layout address backing world' := by
  obtain ⟨i, order, hstands⟩ := h.stands l hl
  obtain ⟨hreturned, hbacking⟩ := h.owned (h.owned_of_live hl)
  obtain ⟨F, hholds⟩ := h.holds hreturned
  have hmem := hstands.mem_taken hl
  have hi : i < world.arena.units := hholds.start_lt (Or.inr hmem)
  have haddress : world.arena.address < 2 ^ 64 := h.address ▸ h.address_lt
  have hreferences := h.references
  let live := world.live.filter fun m => m.pointer ≠ l.pointer
  have hlength : live.length + 1 = world.live.length := World.length_filter h.nodup hl
  have hsub : ∀ m ∈ live, m ∈ world.live ∧ m.pointer ≠ l.pointer := fun m hm => by
    simpa [live] using hm
  have hnodup : (live.map Live.pointer).Nodup :=
    (List.filter_sublist.map Live.pointer).nodup h.nodup
  have hapart : ∀ m ∈ live, ∃ j k, m.Stands world.arena j k ∧ (j, k.val) ∈ world.taken ∧
      (j, k.val) ≠ (i, order.val) := fun m hm => by
    obtain ⟨hm, hne⟩ := hsub m hm
    obtain ⟨j, k, hstands'⟩ := h.stands m hm
    refine ⟨j, k, hstands', hstands'.mem_taken hm, fun heq => hne ?_⟩
    rw [hstands'.pointer, hstands.pointer, (Prod.mk.inj heq).1]
  unfold World.free
  obtain ⟨n, hn⟩ : ∃ n, world.arena.references = n + 1 :=
    Nat.exists_eq_succ_of_ne_zero (h.owned_of_live hl)
  by_cases hlast : n = 0
  · -- the last owner : nothing is live and the runtime has let go
    subst hlast
    have hruntime : world.runtime = false := by
      by_contra hne
      rw [Bool.not_eq_false] at hne
      rw [hne, if_pos rfl] at hreferences
      omega
    rw [hruntime] at hreferences
    have hnil : live = [] := List.length_eq_zero_iff.mp (by
      simp only [Bool.false_eq_true, if_false] at hreferences
      omega)
    have hdealloc := hstands.headed.dealloc_last hi haddress hn hbacking
    rw [← hstands.pointer] at hdealloc
    rw [hdealloc, Option.bind_eq_bind, Option.bind_some]
    refine ⟨_, rfl, h.address_lt, h.address, h.units, fun hnone => absurd hnone (by simp), ?_, ?_,
      ?_, fun hne => absurd rfl hne, fun _ => ⟨rfl, rfl⟩, h.scope⟩
    · intro m hm
      exact absurd (show m ∈ [] from hnil ▸ (show m ∈ live from hm)) List.not_mem_nil
    · exact hnodup
    · rw [hruntime]
      exact (congrArg List.length hnil).symm
  · obtain ⟨one, F', hdealloc, hholds', hframe⟩ :=
      hholds.dealloc hmem hstands.headed haddress hn hlast
    rw [← hstands.pointer] at hdealloc
    rw [hdealloc, Option.bind_eq_bind, Option.bind_some]
    let world' : World M := ⟨one, live, world.runtime, world.current, none, world.reply⟩
    have htaken : world'.taken = world.taken \ {(i, order.val)} := by
      ext c
      constructor
      · rintro ⟨m, hm, k, hrequest, hpointer, hc⟩
        obtain ⟨hm', hne⟩ := hsub m hm
        refine ⟨⟨m, hm', k, hrequest, hpointer, hc⟩, fun heq => hne ?_⟩
        rw [hpointer, hstands.pointer, Set.mem_singleton_iff.mp heq]
      · rintro ⟨⟨m, hm, k, hrequest, hpointer, hc⟩, hne⟩
        refine ⟨m, ?_, k, hrequest, hpointer, hc⟩
        refine List.mem_filter.mpr ⟨hm, by
          simp only [ne_eq, decide_not, Bool.not_eq_eq_eq_not, Bool.not_true,
            decide_eq_false_iff_not]
          intro heq
          obtain rfl := World.eq_of_pointer h.nodup hm hl heq
          have hk : k = order := Option.some.inj (hrequest.symm.trans hstands.request)
          have := hpointer.symm.trans hstands.pointer
          exact hne (Prod.ext (by dsimp only; omega) (by rw [hc, hk]))⟩
    refine ⟨world', rfl, h.address_lt, ?_, ?_, fun _ => ⟨F', htaken ▸ hholds'⟩, ?_, hnodup, ?_,
      fun _ => ⟨rfl, ?_⟩, fun hzero => ?_, ?_⟩
    · exact hframe.address.trans h.address
    · exact hframe.units.trans h.units
    · intro m hm
      obtain ⟨j, k, hstands', hmem', hne⟩ := hapart m hm
      refine ⟨j, k, (hstands'.own n world.arena.backing).frame hframe
        (hholds.end_le (Or.inr hmem')) (hholds.apart hmem' hmem hne)⟩
    · have hcount : one.references = n := hframe.references
      rw [show world'.arena.references = n from hcount]
      simp only [world']
      omega
    · exact hframe.backing.trans hbacking
    · exact absurd (hframe.references.symm.trans hzero) hlast
    · intro hscope
      rw [show world'.arena.address = world.arena.address from hframe.address] at hscope
      exact h.scope hscope

/-- A live allocation whose block has grown. -/
theorem grown (h : Inv layout address backing world) (hreturned : world.returned = none)
    (hholds : Holds world.arena F world.taken) (hl : l ∈ world.live)
    (hstands : l.Stands world.arena i order) {len : Len} {next : Order} {j : ℕ}
    (hclass : len.class = some next)
    (hgrown : Grown world.arena arena F F' world.taken i order.val j next.val) :
    Inv layout address backing { world with
      arena := arena
      live := world.live.map fun m =>
        if m.pointer = l.pointer then arena.live (j * 32 + 16) len else m } := by
  have hmem := hstands.mem_taken hl
  let change : Live → Live := fun m =>
    if m.pointer = l.pointer then arena.live (j * 32 + 16) len else m
  let world' : World M := { world with arena := arena, live := world.live.map change }
  have hself : change l = arena.live (j * 32 + 16) len := if_pos rfl
  have hnew : (change l).Stands arena j next := by
    rw [hself]
    exact ⟨rfl, hclass, hgrown.headed, by simp only [Arena.live, Arena.payload, Len.size_eq hclass]⟩
  have hother : ∀ m ∈ world.live, m ≠ l → change m = m ∧ ∃ a k, m.Stands arena a k ∧
      (a, k.val) ∈ world.taken \ {(i, order.val)} := by
    intro m hm hne
    have hpointer : m.pointer ≠ l.pointer := fun heq =>
      hne (World.eq_of_pointer h.nodup hm hl heq)
    obtain ⟨a, k, hstands'⟩ := h.stands m hm
    have hmem' := hstands'.mem_taken hm
    have hblock : (a, k.val) ≠ (i, order.val) := fun heq => by
      rw [hstands'.pointer, hstands.pointer, (Prod.mk.inj heq).1] at hpointer
      exact hpointer rfl
    exact ⟨if_neg hpointer, a, k, hstands'.frame hgrown.frame (hholds.end_le (Or.inr hmem'))
      (hholds.apart hmem' hmem hblock), hmem', hblock⟩
  -- no other block starts where the new one does
  have hapart : ∀ m ∈ world.live, m ≠ l → m.pointer ≠ j * 32 + 16 := by
    intro m hm hne hpointer
    obtain ⟨-, a, k, hstands', hin⟩ := hother m hm hne
    have haj : a = j := by
      have := hstands'.pointer.symm.trans hpointer
      omega
    subst haj
    have heq := hgrown.holds.split.tiles.unique (Or.inr (Or.inr hin)) (Or.inr (Or.inl rfl))
      (start_mem (a, k.val)) (start_mem (a, next.val))
    exact hgrown.fresh (heq ▸ hin)
  have htaken : world'.taken = insert (j, next.val) (world.taken \ {(i, order.val)}) := by
    ext c
    constructor
    · rintro ⟨m', hm', k, hrequest, hpointer, hc⟩
      obtain ⟨m, hm, rfl⟩ := List.mem_map.mp hm'
      by_cases heq : m = l
      · subst heq
        have hk : k = next := Option.some.inj (hrequest.symm.trans hnew.request)
        have := hpointer.symm.trans hnew.pointer
        exact Or.inl (Prod.ext (by dsimp only; omega) (by rw [hc, hk]))
      · obtain ⟨hsame, a, k', hstands', hin⟩ := hother m hm heq
        rw [hsame] at hrequest hpointer
        have hk : k = k' := Option.some.inj (hrequest.symm.trans hstands'.request)
        have := hpointer.symm.trans hstands'.pointer
        have hblock : c = (a, k'.val) := Prod.ext (by dsimp only; omega) (by rw [hc, hk])
        rw [hblock]
        exact Or.inr hin
    · rintro (rfl | ⟨⟨m, hm, k, hrequest, hpointer, hc⟩, hne⟩)
      · exact hnew.mem_taken (List.mem_map_of_mem hl)
      · have heq : m ≠ l := by
          rintro rfl
          have hk : k = order := Option.some.inj (hrequest.symm.trans hstands.request)
          have := hpointer.symm.trans hstands.pointer
          exact hne (Prod.ext (by dsimp only; omega) (by rw [hc, hk]))
        refine ⟨m, List.mem_map.mpr ⟨m, hm, (hother m hm heq).1⟩, k, hrequest, hpointer, hc⟩
  refine ⟨h.address_lt, hgrown.frame.address.trans h.address, hgrown.frame.units.trans h.units,
    fun _ => ⟨F', htaken ▸ hgrown.holds⟩, ?_, ?_, ?_, fun hne => ⟨hreturned, ?_⟩,
    fun hzero => ?_, ?_⟩
  · intro m' hm'
    obtain ⟨m, hm, rfl⟩ := List.mem_map.mp hm'
    by_cases heq : m = l
    · subst heq
      exact ⟨j, next, hnew⟩
    · obtain ⟨hsame, a, k, hstands', -⟩ := hother m hm heq
      exact ⟨a, k, show (change m).Stands arena a k from hsame.symm ▸ hstands'⟩
  · rw [List.map_map]
    refine List.Nodup.map_on (fun m hm n hn heq => ?_) (List.Nodup.of_map _ h.nodup)
    have heq' : (change m).pointer = (change n).pointer := heq
    by_cases hml : m = l <;> by_cases hnl : n = l
    · rw [hml, hnl]
    · rw [hml, hself, (hother n hn hnl).1] at heq'
      exact absurd heq'.symm (hapart n hn hnl)
    · rw [hnl, hself, (hother m hm hml).1] at heq'
      exact absurd heq' (hapart m hm hml)
    · rw [(hother m hm hml).1, (hother n hn hnl).1] at heq'
      exact World.eq_of_pointer h.nodup hm hn heq'
  · rw [List.length_map]
    exact hgrown.frame.references.trans h.references
  · exact hgrown.frame.backing.trans (h.owned (h.owned_of_live hl)).2
  · exact absurd (hgrown.frame.references.symm.trans hzero) (h.owned_of_live hl)
  · intro hscope
    exact h.scope (hscope.trans (congrArg some hgrown.frame.address))

theorem realloc (h : Inv layout address backing world) (hl : l ∈ world.live) (bytes : Int32) :
    ∃ world', world.realloc l.pointer bytes = some world' ∧ Inv layout address backing world' := by
  obtain ⟨i, order, hstands⟩ := h.stands l hl
  obtain ⟨hreturned, -⟩ := h.owned (h.owned_of_live hl)
  obtain ⟨F, hholds⟩ := h.holds hreturned
  have haddress : world.arena.address < 2 ^ 64 := h.address ▸ h.address_lt
  unfold World.realloc Arena.realloc
  cases hlen : Len.new bytes with
  | none => exact ⟨_, rfl, h.reply none⟩
  | some len =>
    dsimp only
    obtain ⟨result, hresize, hresult⟩ :=
      hholds.resize (hstands.mem_taken hl) hstands.headed haddress len
    rw [hstands.pointer, hresize, Option.bind_eq_bind, Option.bind_some]
    rcases hresult with hfits | hclass | ⟨hclass, hlt, hgrows⟩
    · have hmap : (world.live.map fun m => if m.pointer = i * 32 + 16 ∧ m.request.size < len.bytes
          then world.arena.live (i * 32 + 16) len else m) = world.live := by
        refine (List.map_congr_left fun m hm => if_neg fun hboth => ?_).trans (List.map_id _)
        obtain rfl := World.eq_of_pointer h.nodup hm hl (hboth.1.trans hstands.pointer.symm)
        rw [Len.size_eq hstands.request] at hboth
        exact absurd hboth.2 (not_lt.mpr hfits)
      refine ⟨_, rfl, ?_⟩
      simp only [hmap]
      exact h.reply _
    · exact ⟨_, rfl, h.reply none⟩
    · rename_i next
      rcases hgrows with _ | ⟨-, hgrown⟩
      · exact ⟨_, rfl, h.reply none⟩
      · rename_i arena' j F'
        have hsize : room order.val < len.bytes :=
          (Len.class_eq_some_iff.mp hclass).2 order.val hlt
        have hmap : (world.live.map fun m => if m.pointer = i * 32 + 16 ∧
            m.request.size < len.bytes then arena'.live (j * 32 + 16) len else m) =
            world.live.map fun m =>
              if m.pointer = l.pointer then arena'.live (j * 32 + 16) len else m := by
          refine List.map_congr_left fun m hm => ?_
          rw [hstands.pointer]
          by_cases hpointer : m.pointer = i * 32 + 16
          · obtain rfl := World.eq_of_pointer h.nodup hm hl (hpointer.trans hstands.pointer.symm)
            rw [Len.size_eq hstands.request, if_pos ⟨hpointer, hsize⟩, if_pos hpointer]
          · rw [if_neg fun hboth => hpointer hboth.1, if_neg hpointer]
        refine ⟨_, rfl, ?_⟩
        simp only [hmap]
        exact (h.grown hreturned hholds hl hstands hclass hgrown).reply _

theorem fill (h : Inv layout address backing world) (hl : l ∈ world.live) {offset : ℕ}
    (hoffset : offset < l.bytes.length) (byte : UInt8) :
    ∃ world', world.fill l.pointer offset byte = some world' ∧
      Inv layout address backing world' := by
  obtain ⟨i, order, hstands⟩ := h.stands l hl
  obtain ⟨hreturned, hbacking⟩ := h.owned (h.owned_of_live hl)
  obtain ⟨F, hholds⟩ := h.holds hreturned
  have hmem := hstands.mem_taken hl
  have hend : i + 2 ^ order.val ≤ world.arena.units := hholds.end_le (Or.inr hmem)
  have hroom := room_add order.val
  have hcap := world.arena.capacity_eq
  rw [hstands.bytes, length_payload] at hoffset
  let arena : Arena M :=
    { world.arena with memory := store world.arena.memory (l.pointer + offset) [byte] }
  have hwrite : world.arena.write (l.pointer + offset) [byte] = some arena := by
    refine Arena.write_eq ?_
    rw [hstands.pointer, List.length_singleton]
    omega
  have hwrote := world.arena.wrote_store (l.pointer + offset) [byte]
  obtain ⟨hholds', hframe⟩ := hholds.write hmem
    (show arena.heads = world.arena.heads from rfl) hwrote fun a ha => by
    rw [Set.mem_Ico, List.length_singleton, hstands.pointer] at ha
    omega
  let change : Live → Live := fun m =>
    if m.pointer = l.pointer then { m with bytes := m.bytes.set offset byte } else m
  let world' : World M := { world with arena := arena, live := world.live.map change }
  have hpointer : ∀ m, (change m).pointer = m.pointer ∧ (change m).request = m.request := by
    intro m
    simp only [change]
    split_ifs <;> exact ⟨rfl, rfl⟩
  have htaken : world'.taken = world.taken := by
    ext c
    constructor
    · rintro ⟨m', hm', k, hrequest, hpointer', hc⟩
      obtain ⟨m, hm, rfl⟩ := List.mem_map.mp hm'
      exact ⟨m, hm, k, (hpointer m).2 ▸ hrequest, (hpointer m).1 ▸ hpointer', hc⟩
    · rintro ⟨m, hm, k, hrequest, hpointer', hc⟩
      exact ⟨change m, List.mem_map_of_mem hm, k,
        (congrArg Len.class (hpointer m).2).trans hrequest, (hpointer m).1.trans hpointer', hc⟩
  have hnames : (world.live.map change).map Live.pointer = world.live.map Live.pointer := by
    rw [List.map_map]
    exact List.map_congr_left fun m _ => (hpointer m).1
  refine ⟨world', ?_, h.address_lt, h.address, h.units, fun _ => ⟨F, htaken ▸ hholds'⟩, ?_,
    hnames ▸ h.nodup, ?_, fun hne => ⟨hreturned, hbacking⟩, fun hzero => ?_, h.scope⟩
  · unfold World.fill
    rw [hwrite]
    rfl
  · intro m' hm'
    obtain ⟨m, hm, rfl⟩ := List.mem_map.mp hm'
    by_cases heq : m.pointer = l.pointer
    · obtain rfl := World.eq_of_pointer h.nodup hm hl heq
      have hchange : change m = { m with bytes := m.bytes.set offset byte } := if_pos rfl
      rw [hchange]
      refine ⟨i, order, hstands.pointer, hstands.request, ⟨?_, ?_⟩, ?_⟩
      · rw [← hstands.headed.owner]
        refine load_congr fun d hd => hwrote.memory _ fun hin => ?_
        rw [Set.mem_Ico, hstands.pointer] at hin
        omega
      · rw [← hstands.headed.order]
        refine hwrote.memory _ fun hin => ?_
        rw [Set.mem_Ico, hstands.pointer] at hin
        omega
      · have hload : arena.payload i order.val =
            (world.arena.payload i order.val).set offset byte := by
          unfold Arena.payload
          rw [show arena.memory = store world.arena.memory (m.pointer + offset) [byte] from rfl,
            hstands.pointer, load_store_one]
        rw [show world'.arena = arena from rfl, hload, ← hstands.bytes]
    · have hchange : change m = m := if_neg heq
      rw [hchange]
      obtain ⟨a, k, hstands'⟩ := h.stands m hm
      have hmem' := hstands'.mem_taken hm
      have hblock : (a, k.val) ≠ (i, order.val) := fun hblock => heq (by
        rw [hstands'.pointer, hstands.pointer, (Prod.mk.inj hblock).1])
      exact ⟨a, k, hstands'.frame hframe (hholds.end_le (Or.inr hmem'))
        (hholds.split.tiles.disjoint (Or.inr hmem') (Or.inr hmem) hblock)⟩
  · rw [List.length_map]
    exact h.references
  · exact absurd hzero (h.owned_of_live hl)

theorem retire (h : Inv layout address backing world) (hruntime : world.runtime = true)
    (hscope : world.current ≠ some world.arena.address) :
    ∃ world', world.retire = some world' ∧ Inv layout address backing world' := by
  have hreferences := h.references
  rw [hruntime, if_pos rfl] at hreferences
  obtain ⟨hreturned, hbacking⟩ := h.owned (by omega)
  unfold World.retire
  by_cases hlast : world.live.length = 0
  · have hnil := List.length_eq_zero_iff.mp hlast
    rw [Arena.release_last (by omega) hbacking]
    refine ⟨_, rfl, h.address_lt, h.address, h.units, fun hnone => absurd hnone (by simp), ?_,
      h.nodup, ?_, fun hne => absurd rfl hne, fun _ => ⟨rfl, rfl⟩, fun heq => absurd heq hscope⟩
    · intro l hl
      rw [hnil] at hl
      exact absurd hl List.not_mem_nil
    · exact hlast.symm
  · rw [Arena.release_other hreferences hlast]
    obtain ⟨F, hholds⟩ := h.holds hreturned
    refine ⟨_, rfl, h.address_lt, h.address, h.units, fun _ => ⟨F, hholds.own _ _⟩, ?_,
      h.nodup, rfl, fun _ => ⟨rfl, hbacking⟩, fun hzero => absurd hzero hlast,
      fun heq => absurd heq hscope⟩
    intro l hl
    obtain ⟨i, order, hstands⟩ := h.stands l hl
    exact ⟨i, order, hstands.own _ _⟩

theorem enter (h : Inv layout address backing world) {owner : ℕ}
    (howner : owner = world.arena.address → world.runtime = true) :
    ∃ world', world.step (.enter owner) = some world' ∧ Inv layout address backing world' := by
  unfold World.step Scope.enter
  by_cases hsome : world.current.isSome = true
  · refine ⟨world, ?_, h⟩
    simp only [hsome, if_true]
  · refine ⟨{ world with current := some owner }, ?_, h.address_lt, h.address, h.units, h.holds,
      h.stands, h.nodup, h.references, h.owned, h.returned, fun heq => ?_⟩
    · simp only [hsome]
      rfl
    · exact howner (Option.some.inj heq)

/-- No action that is allowed goes wrong, and each keeps the invariant. -/
theorem step (h : Inv layout address backing world) {action : Action}
    (hallowed : world.Allowed action) :
    ∃ world', world.step action = some world' ∧ Inv layout address backing world' := by
  cases action with
  | enter owner => exact h.enter hallowed
  | finish =>
    exact ⟨_, rfl, h.address_lt, h.address, h.units, h.holds, h.stands, h.nodup, h.references,
      h.owned, h.returned, fun heq => absurd heq (by simp)⟩
  | malloc bytes => exact h.malloc bytes
  | free pointer =>
    obtain ⟨l, hl, rfl⟩ := hallowed
    exact h.free hl
  | realloc pointer bytes =>
    obtain ⟨l, hl, rfl⟩ := hallowed
    exact h.realloc hl bytes
  | fill pointer offset byte =>
    obtain ⟨l, hl, rfl, hoffset⟩ := hallowed
    exact h.fill hl hoffset byte
  | retire => exact h.retire hallowed.1 hallowed.2

end Inv

theorem Reached.inv (h : Reached layout address backing world) :
    Inv layout address backing world := by
  induction h with
  | start hcapacity haddress hinit => exact .start hcapacity haddress hinit
  | step h action hallowed hstep ih =>
    obtain ⟨world', hstep', hinv⟩ := ih.step hallowed
    rw [hstep] at hstep'
    obtain rfl := Option.some.inj hstep'
    exact hinv

end Cartel.Sqlite.Heap
