import Cartel.Heap.Growth

/-!
# The allocator hooks

What each hook does to an arena whose blocks are known, one result for each way it can go
(`Gets` for `malloc`, `Resizes` for `realloc`, `Holds.dealloc` for `free`).
-/

namespace Cartel.Sqlite.Heap

open Cartel.Lib (load store load_congr)
open Cartel.Lib.Dyadic (Block extent start_mem floor)

variable {M : Type} {arena arena' : Arena M} {F F' L : Set Block} {i s : ℕ} {b : Block}
  {order : Order} {len : Len}

/-! ## Owners -/

/-- The arena with another count of owners. -/
def Arena.own (arena : Arena M) (references : ℕ) (backing : Option M) : Arena M :=
  { arena with references := references, backing := backing }

@[simp] theorem Arena.own_units (arena : Arena M) (n : ℕ) (backing : Option M) :
    (arena.own n backing).units = arena.units :=
  rfl

@[simp] theorem Arena.own_address (arena : Arena M) (n : ℕ) (backing : Option M) :
    (arena.own n backing).address = arena.address :=
  rfl

@[simp] theorem Arena.own_memory (arena : Arena M) (n : ℕ) (backing : Option M) :
    (arena.own n backing).memory = arena.memory :=
  rfl

@[simp] theorem Arena.own_references (arena : Arena M) (n : ℕ) (backing : Option M) :
    (arena.own n backing).references = n :=
  rfl

@[simp] theorem Arena.own_backing (arena : Arena M) (n : ℕ) (backing : Option M) :
    (arena.own n backing).backing = backing :=
  rfl

/-- The blocks do not depend on the owners. -/
theorem Holds.own (h : Holds arena F L) (n : ℕ) (backing : Option M) :
    Holds (arena.own n backing) F L := by
  obtain ⟨lists, hlists, hF⟩ := h.lists
  exact ⟨⟨lists, ⟨hlists.small, hlists.chains, hlists.within, hlists.marked, hlists.cleared⟩, hF⟩,
    h.split⟩

theorem Headed.own {k : ℕ} (h : Headed arena i k) (n : ℕ) (backing : Option M) :
    Headed (arena.own n backing) i k :=
  ⟨h.owner, h.order⟩

theorem Arena.release_last {backing : M} (hreferences : arena.references = 1)
    (hbacking : arena.backing = some backing) :
    arena.release = some (arena.own 0 none, some backing) := by
  unfold release
  rw [hreferences, hbacking]
  rfl

theorem Arena.release_other {n : ℕ} (hreferences : arena.references = n + 1) (hn : n ≠ 0) :
    arena.release = some (arena.own n arena.backing, none) := by
  unfold release
  rw [hreferences, less_eq (Nat.le_add_left 1 n), Nat.add_sub_cancel, Option.bind_eq_bind,
    Option.bind_some, if_neg hn]
  rfl

/-! ## Reading a header -/

theorem Headed.decode (h : Headed arena i order.val) (hi : i < arena.units)
    (haddress : arena.address < 2 ^ 64) : arena.decode (i * 32 + 16) = some (i, order) := by
  have hcap := arena.capacity_eq
  have hlt := order.isLt
  have hread : arena.read (i * 32) 8 = some (word arena.address) := by
    rw [Arena.read, if_pos (by omega), h.owner]
  have hbyte : arena.read (i * 32 + 8) 1 = some [.ofNat order.val] := by
    rw [Arena.read, if_pos (by omega)]
    exact congrArg some (congrArg (fun byte => [byte]) h.order)
  have hnew : Order.new (UInt8.ofNat order.val).toNat = some order := by
    have hval : (UInt8.ofNat order.val).toNat = order.val := by
      rw [UInt8.toNat_ofNat']
      omega
    rw [hval]
    exact dif_pos hlt
  have hless : less (i * 32 + 16) headerBytes = some (i * 32) :=
    less_eq (Nat.le_add_left 16 (i * 32))
  unfold Arena.decode
  simp only [hless, hread, hbyte, Option.bind_eq_bind, Option.bind_some, ofWord_word haddress,
    ne_eq, not_true_eq_false, if_false, List.head?_cons, hnew]
  rw [show Layout.unitBytes = 32 from rfl, Nat.mul_div_cancel i (by decide)]
  rfl

/-! ## Allocating -/

/-- What a request for an order gets. -/
inductive Gets (arena : Arena M) (F L : Set Block) (order : Order) :
    Arena M × Option ℕ → Prop where
  | refused (hfree : ∀ b ∈ F, b.2 < order.val) : Gets arena F L order (arena, none)
  | got {one : Arena M} {i : ℕ} {F' : Set Block} {b : Block} (hb : b ∈ F) (hle : order.val ≤ b.2)
      (holds : Holds one F' (insert (i, order.val) L)) (notMem : (i, order.val) ∉ L)
      (headed : Headed one i order.val) (frame : Frame (units F) arena one) :
      Gets arena F L order (one.own (arena.references + 1) arena.backing, some (i * 32 + 16))

theorem Holds.allocate (h : Holds arena F L) (hreferences : arena.references + 1 < 2 ^ 64)
    (order : Order) :
    ∃ result, arena.allocate order = some result ∧ Gets arena F L order result := by
  obtain ⟨result, hreserve, hresult⟩ := h.reserve order
  unfold Arena.allocate
  rw [hreserve, Option.bind_eq_bind, Option.bind_some]
  rcases hresult with hfree | ⟨hb, hle, hsub, hholds, hnot, hframe⟩
  · exact ⟨_, rfl, .refused hfree⟩
  · rename_i one i F' b
    have hi : i < one.units := hholds.start_lt (Or.inr (Or.inl rfl))
    have hpos := Nat.two_pow_pos order.val
    obtain ⟨two, htwo, hheads, hheaded, hwrote⟩ := one.writeBlock_spec hi order
    obtain ⟨hholds', hframe'⟩ := hholds.write (Or.inl rfl) hheads hwrote fun a ha => by
      rw [Set.mem_Ico] at ha
      omega
    have hframe'' := hframe.trans (hframe'.mono (hsub.trans (extent_subset_units hb)))
    refine ⟨(two.own (arena.references + 1) arena.backing, some (i * 32 + 16)), ?_,
      .got hb hle hholds' hnot hheaded hframe''⟩
    have hfit : fit 64 (two.references + 1) = some (arena.references + 1) := by
      rw [hframe''.references]
      exact fit_eq hreferences
    have hpublish : one.publish i order =
        some (two.own (arena.references + 1) arena.backing, i * 32 + 16) := by
      unfold Arena.publish
      rw [htwo, Option.bind_eq_bind, Option.bind_some, hfit, ← hframe''.backing]
      rfl
    dsimp only
    rw [hpublish]
    rfl

/-- What `malloc` does. -/
inductive Mallocs (arena : Arena M) (F L : Set Block) (bytes : Int32) :
    Arena M × Option ℕ → Prop where
  | invalid (h : Len.new bytes = none) : Mallocs arena F L bytes (arena, none)
  | large {len : Len} (hlen : Len.new bytes = some len) (hclass : len.class = none) :
      Mallocs arena F L bytes (arena, none)
  | gets {len : Len} {order : Order} {result : Arena M × Option ℕ}
      (hlen : Len.new bytes = some len) (hclass : len.class = some order)
      (h : Gets arena F L order result) : Mallocs arena F L bytes result

theorem Holds.malloc (h : Holds arena F L) (hreferences : arena.references + 1 < 2 ^ 64)
    (bytes : Int32) :
    ∃ result, arena.malloc bytes = some result ∧ Mallocs arena F L bytes result := by
  unfold Arena.malloc
  cases hlen : Len.new bytes with
  | none => exact ⟨_, rfl, .invalid hlen⟩
  | some len =>
    dsimp only
    rw [len.order_class, Option.bind_eq_bind, Option.bind_some]
    cases hclass : len.class with
    | none => exact ⟨_, rfl, .large hlen hclass⟩
    | some order =>
      obtain ⟨result, hallocate, hresult⟩ := h.allocate hreferences order
      exact ⟨result, hallocate, .gets hlen hclass hresult⟩

/-! ## Resizing -/

/-- What resizing a block of order `order` for a request does. -/
inductive Resizes (arena : Arena M) (F L : Set Block) (s : ℕ) (order : Order) (len : Len) :
    Arena M × Option ℕ → Prop where
  | fits (h : len.bytes ≤ room order.val) :
      Resizes arena F L s order len (arena, some (s * 32 + 16))
  | large (h : len.class = none) : Resizes arena F L s order len (arena, none)
  | grows {next : Order} {result : Arena M × Option ℕ} (hclass : len.class = some next)
      (hlt : order < next) (h : Holds.Grows arena F L s order next result) :
      Resizes arena F L s order len result

theorem Holds.resize (h : Holds arena F L) (hb : (s, order.val) ∈ L)
    (hheaded : Headed arena s order.val) (haddress : arena.address < 2 ^ 64) (len : Len) :
    ∃ result, arena.resize (s * 32 + 16) len = some result ∧
      Resizes arena F L s order len result := by
  have hs := h.start_lt (Or.inr hb)
  unfold Arena.resize
  rw [hheaded.decode hs haddress, Option.bind_eq_bind, Option.bind_some, len.intoUsize_eq]
  simp only [Option.bind_eq_bind, Option.bind_some, payloadBytes_eq]
  by_cases hfits : len.bytes ≤ room order.val
  · exact ⟨(arena, some (s * 32 + 16)), by rw [if_pos hfits]; rfl, .fits hfits⟩
  rw [if_neg hfits, len.order_class, Option.bind_some]
  cases hclass : len.class with
  | none => exact ⟨_, rfl, .large hclass⟩
  | some next =>
    have hlt : order < next := by
      have hnot : ¬ next.val ≤ order.val := fun hle =>
        hfits ((Len.class_eq_some_iff.mp hclass).1.trans (room_strictMono.monotone hle))
      exact Fin.lt_def.mpr (by omega)
    obtain ⟨result, hgrow, hresult⟩ := h.grow hlt hb hheaded
    exact ⟨result, hgrow, .grows hclass hlt hresult⟩

/-! ## Releasing -/

/-- Releasing a block that is not the last owner recycles it. -/
theorem Holds.dealloc (h : Holds arena F L) (hb : (s, order.val) ∈ L)
    (hheaded : Headed arena s order.val) (haddress : arena.address < 2 ^ 64) {n : ℕ}
    (hreferences : arena.references = n + 1) (hn : n ≠ 0) :
    ∃ one F', arena.dealloc (s * 32 + 16) = some (one, none) ∧
      Holds one F' (L \ {(s, order.val)}) ∧
      Frame (units F ∪ extent (s, order.val)) (arena.own n arena.backing) one := by
  have hs := h.start_lt (Or.inr hb)
  obtain ⟨one, F', hrecycle, hholds, hframe⟩ :=
    (h.own n arena.backing).recycle (k := order.widen) (i := s) hb
  refine ⟨one, F', ?_, hholds, hframe⟩
  unfold Arena.dealloc
  rw [hheaded.decode hs haddress, Option.bind_eq_bind, Option.bind_some,
    Arena.release_other hreferences hn]
  simp only [Option.bind_eq_bind, Option.bind_some]
  rw [hrecycle]
  rfl

/-- Releasing the last owner returns the backing. -/
theorem Headed.dealloc_last (h : Headed arena s order.val) (hs : s < arena.units)
    (haddress : arena.address < 2 ^ 64) {backing : M} (hreferences : arena.references = 1)
    (hbacking : arena.backing = some backing) :
    arena.dealloc (s * 32 + 16) = some (arena.own 0 none, some backing) := by
  unfold Arena.dealloc
  rw [h.decode hs haddress, Option.bind_eq_bind, Option.bind_some,
    Arena.release_last hreferences hbacking]
  rfl

theorem Headed.size (h : Headed arena s order.val) (hs : s < arena.units)
    (haddress : arena.address < 2 ^ 64) :
    arena.size (s * 32 + 16) = some (Int.ofNat (room order.val)) := by
  unfold Arena.size
  rw [h.decode hs haddress, Option.bind_eq_bind, Option.bind_some]
  exact payloadInteger_eq order

end Cartel.Sqlite.Heap
