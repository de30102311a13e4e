import Cartel.Parser.Pool
import Mathlib.Data.List.FinRange
import Mathlib.Data.Fintype.Card

/-!
# Builders and tapes in one pool

`Tapes` is a pool with every builder and completed tape that has nodes in it. Each of
them, and the free list, is a handle with the tail of one chain. A builder's push moves a
free node to the end of its chain, a reset or a drop gives the chain back, and finishing
hands the builder's chain over to a tape.

`Tapes.Holds` is the invariant : the chains are disjoint rings and no node is outside
them. Each operation has one theorem that says what it does to the lists. Over a run
(`Tapes.Reached`) a ledger records the values each handle was given. Reading a chain by
its recorded length gives the ledger's values (`Tapes.Reached.partition`).
-/

namespace Cartel.Redis.Parser

open Cartel.Lib

/-- What `storage::Builder` knows of the pool : `tail` and `len`. -/
structure Progress (n : ℕ) where
  tail : Option (Fin n)
  len : ℕ

/-- The owners of chains. A completed tape is known by its tail. -/
inductive Handle (n : ℕ) (ι : Type) where
  | free
  | builder (i : ι)
  | tape (tail : Fin n)
  deriving DecidableEq

/-- A pool with its builders and its completed tapes. `tapes` gives the length of the
tape with a tail. -/
structure Tapes (n : ℕ) (ι : Type) where
  pool : Pool n
  builders : ι → Progress n
  tapes : Fin n → Option ℕ

namespace Tapes

variable {n : ℕ} {ι : Type}

/-- A fresh pool. -/
def new : Tapes n ι :=
  ⟨.new n, fun _ => ⟨none, 0⟩, fun _ => none⟩

variable (s : Tapes n ι)

/-- The tail of a handle's chain. -/
def tail : Handle n ι → Option (Fin n)
  | .free => s.pool.free
  | .builder i => (s.builders i).tail
  | .tape t => if (s.tapes t).isSome then some t else none

/-- The recorded length of a handle's chain. -/
def len : Handle n ι → ℕ
  | .free => 0
  | .builder i => (s.builders i).len
  | .tape t => (s.tapes t).getD 0

/-- The values met on the way from the node after the tail, as many as recorded. -/
def read (x : Handle n ι) : List Kind :=
  match s.tail x with
  | none => []
  | some t => (walk s.pool.next (s.len x) (s.pool.next t)).map s.pool.kind

/-- The values of the whole chain. -/
def values (x : Handle n ι) : List Kind :=
  match s.tail x with
  | none => []
  | some t => (walkTo s.pool.next t n (s.pool.next t)).map s.pool.kind

/-! ## The invariant -/

/-- The chains are disjoint rings, and every node is in one of them. -/
structure Holds (lists : Handle n ι → List (Fin n)) : Prop where
  rings : Rings s.pool.next s.tail lists
  covered : ∀ k, ∃ x, k ∈ lists x

variable {s} {lists : Handle n ι → List (Fin n)}

theorem Holds.nodup (h : s.Holds lists) (x : Handle n ι) : (lists x).Nodup := by
  cases ht : s.tail x with
  | none =>
    rw [h.rings.empty ht]
    exact List.nodup_nil
  | some t => exact (h.rings.ring ht).nodup

theorem Holds.length_le (h : s.Holds lists) (x : Handle n ι) : (lists x).length ≤ n := by
  simpa using (h.nodup x).length_le_card

/-- The whole chain is the list of the handle. -/
theorem Holds.values_eq (h : s.Holds lists) (x : Handle n ι) :
    s.values x = (lists x).map s.pool.kind := by
  unfold values
  cases ht : s.tail x with
  | none =>
    rw [h.rings.empty ht]
    rfl
  | some t =>
    dsimp only
    rw [(h.rings.ring ht).walkTo_eq (h.length_le x)]

/-- A chain read by its length is the list of the handle. -/
theorem Holds.read_eq (h : s.Holds lists) {x : Handle n ι} (hlen : s.len x = (lists x).length) :
    s.read x = (lists x).map s.pool.kind := by
  unfold read
  cases ht : s.tail x with
  | none =>
    rw [h.rings.empty ht]
    rfl
  | some t =>
    dsimp only
    rw [hlen, (h.rings.ring ht).walk_eq]

/-- A builder's tail is not the tail of a tape. -/
theorem Holds.tape_eq_none (h : s.Holds lists) {i : ι} {t : Fin n}
    (ht : (s.builders i).tail = some t) : s.tapes t = none := by
  by_contra hne
  have hsome : s.tail (.tape t) = some t := if_pos (Option.isSome_iff_ne_none.mpr hne)
  have hi : s.tail (.builder i) = some t := ht
  have := h.rings.disjoint (h.rings.ring hi).tail_mem (h.rings.ring hsome).tail_mem
  cases this

/-! ## The operations -/

variable [DecidableEq ι] (s)

/-- `Builder::try_push`, past the gate. No free node is `Error::Full`. -/
def tryPush (i : ι) (slot : Slot) (value : Kind) : Option (Tapes n ι) :=
  match s.pool.free with
  | none => none
  | some free =>
    let (tail, pool) := s.pool.append free (s.builders i).tail value
    some { s with pool, builders := Function.update s.builders i ⟨some tail, slot.get⟩ }

/-- `Builder::reset` and the drop of a builder. -/
def reset (i : ι) : Tapes n ι :=
  { s with
    pool := s.pool.release (s.builders i).tail
    builders := Function.update s.builders i ⟨none, 0⟩ }

/-- `Stored::finish` : the chain becomes a tape. -/
def finish (i : ι) : Tapes n ι :=
  match (s.builders i).tail with
  | none => s
  | some tail =>
    { s with
      builders := Function.update s.builders i ⟨none, 0⟩
      tapes := Function.update s.tapes tail (some (s.builders i).len) }

/-- The drop of a tape. -/
def drop (t : Fin n) : Tapes n ι :=
  { s with
    pool := s.pool.release (s.tail (.tape t))
    tapes := Function.update s.tapes t none }

variable {s}

/-! ## What the operations do to the chains -/

/-- A push takes the first free node to the end of the builder's chain. -/
theorem Holds.tryPush (h : s.Holds lists) {s' : Tapes n ι} {i : ι} {slot : Slot} {value : Kind}
    (hpush : s.tryPush i slot value = some s') :
    ∃ key rest, lists .free = key :: rest ∧
      s'.Holds (Function.update (Function.update lists .free rest) (.builder i)
        (lists (.builder i) ++ [key])) ∧
      ∀ k, s'.pool.kind k = if k = key then value else s.pool.kind k := by
  unfold Tapes.tryPush at hpush
  cases hfree : s.pool.free with
  | none => simp [hfree] at hpush
  | some free =>
    simp only [hfree, Option.some.injEq] at hpush
    subst hpush
    obtain ⟨rest, hlist, hrings⟩ : ∃ rest, lists .free = s.pool.next free :: rest ∧
        Rings (s.pool.append free (s.tail (.builder i)) value).2.next
          (tail { s with
            pool := (s.pool.append free (s.builders i).tail value).2
            builders := Function.update s.builders i ⟨some (s.pool.next free), slot.get⟩ })
          (Function.update (Function.update lists .free rest) (.builder i)
            (lists (.builder i) ++ [s.pool.next free])) := by
      refine Pool.rings_append h.rings (by simp) hfree hfree (by simp [tail]) rfl
        fun x hxi hxf => ?_
      cases x with
      | free => exact absurd rfl hxf
      | builder j =>
        have hne : j ≠ i := fun hj => hxi (by rw [hj])
        simp [tail, Function.update_of_ne hne]
      | tape t => rfl
    exact ⟨s.pool.next free, rest, hlist, ⟨hrings, covers_push h.covered (by simp) hlist⟩,
      s.pool.kind_append _ _ _⟩

/-- A reset gives the builder's chain back. -/
theorem Holds.reset (h : s.Holds lists) (i : ι) :
    (s.reset i).Holds (Function.update
      (Function.update lists .free (lists .free ++ lists (.builder i))) (.builder i) []) := by
  refine ⟨?_, covers_splice h.covered (by simp)⟩
  change Rings (s.pool.release (s.tail (.builder i))).next _ _
  refine Pool.rings_release h.rings (by simp) rfl (by simp [tail, Tapes.reset]) rfl
    fun x hxi hxf => ?_
  cases x with
  | free => exact absurd rfl hxf
  | builder j =>
    have hne : j ≠ i := fun hj => hxi (by rw [hj])
    simp [tail, Tapes.reset, Function.update_of_ne hne]
  | tape t => rfl

/-- The drop of a tape gives its chain back. -/
theorem Holds.drop (h : s.Holds lists) (t : Fin n) :
    (s.drop t).Holds (Function.update
      (Function.update lists .free (lists .free ++ lists (.tape t))) (.tape t) []) := by
  refine ⟨?_, covers_splice h.covered (by simp)⟩
  change Rings (s.pool.release (s.tail (.tape t))).next _ _
  refine Pool.rings_release h.rings (by simp) rfl (by simp [tail, Tapes.drop]) rfl
    fun x hxt hxf => ?_
  cases x with
  | free => exact absurd rfl hxf
  | builder j => rfl
  | tape u =>
    have hne : u ≠ t := fun hu => hxt (by rw [hu])
    simp [tail, Tapes.drop, Function.update_of_ne hne]

/-- Finishing hands the chain over to a tape. -/
theorem Holds.finish (h : s.Holds lists) {i : ι} {t : Fin n} (ht : (s.builders i).tail = some t) :
    (s.finish i).Holds (Function.update
      (Function.update lists (.tape t) (lists (.builder i))) (.builder i) []) := by
  have hnone : s.tail (.tape t) = none := by
    unfold tail
    simp [h.tape_eq_none ht]
  have hempty := h.rings.empty hnone
  have hfinish : s.finish i =
      { s with
        builders := Function.update s.builders i ⟨none, 0⟩
        tapes := Function.update s.tapes t (some (s.builders i).len) } := by
    unfold Tapes.finish
    rw [ht]
  rw [hfinish]
  refine ⟨?_, fun k => ?_⟩
  · refine h.rings.move (i := .builder i) (f := .tape t) (by simp) ?_ ?_ fun x hxi hxt => ?_
    · simp [tail, ht]
    · simp [tail]
    · cases x with
      | free => rfl
      | builder j =>
        have hne : j ≠ i := fun hj => hxi (by rw [hj])
        simp [tail, Function.update_of_ne hne]
      | tape u =>
        have hne : u ≠ t := fun hu => hxt (by rw [hu])
        simp [tail, Function.update_of_ne hne]
  · have hcovers := covers_splice (i := .builder i) (f := .tape t) h.covered (by simp) k
    rwa [hempty, List.nil_append] at hcovers

/-! ## Chains as lists of values -/

/-- Some lists hold. -/
def Inv (s : Tapes n ι) : Prop :=
  ∃ lists, s.Holds lists

/-- A push adds its value to the builder's chain. -/
theorem inv_tryPush (h : s.Inv) {s' : Tapes n ι} {i : ι} {slot : Slot} {value : Kind}
    (hpush : s.tryPush i slot value = some s') :
    s'.Inv ∧ ∀ x, x ≠ .free →
      s'.values x = Function.update s.values (.builder i) (s.values (.builder i) ++ [value]) x := by
  obtain ⟨lists, h⟩ := h
  obtain ⟨key, rest, hlist, h', hkind⟩ := h.tryPush hpush
  refine ⟨⟨_, h'⟩, fun x hx => ?_⟩
  have hother : ∀ x, x ≠ .free → (lists x).map s'.pool.kind = (lists x).map s.pool.kind := by
    intro x hx
    refine List.map_congr_left fun k hk => ?_
    rw [hkind, if_neg]
    rintro rfl
    exact hx (h.rings.disjoint hk (hlist ▸ List.mem_cons_self))
  rw [h'.values_eq]
  by_cases hxi : x = .builder i
  · subst hxi
    rw [Function.update_self, Function.update_self, List.map_append, hother _ (by simp),
      h.values_eq]
    simp [hkind]
  · rw [Function.update_of_ne hxi, Function.update_of_ne hx, Function.update_of_ne hxi,
      hother x hx, h.values_eq]

/-- A reset empties the builder's chain. -/
theorem inv_reset (h : s.Inv) (i : ι) :
    (s.reset i).Inv ∧ ∀ x, x ≠ .free →
      (s.reset i).values x = Function.update s.values (.builder i) [] x := by
  obtain ⟨lists, h⟩ := h
  refine ⟨⟨_, h.reset i⟩, fun x hx => ?_⟩
  have hkind : (s.reset i).pool.kind = s.pool.kind := funext fun k => s.pool.kind_release _ k
  rw [(h.reset i).values_eq, hkind]
  by_cases hxi : x = .builder i
  · subst hxi
    simp
  · rw [Function.update_of_ne hxi, Function.update_of_ne hx, Function.update_of_ne hxi,
      h.values_eq]

/-- The drop of a tape empties its chain. -/
theorem inv_drop (h : s.Inv) (t : Fin n) :
    (s.drop t).Inv ∧ ∀ x, x ≠ .free →
      (s.drop t).values x = Function.update s.values (.tape t) [] x := by
  obtain ⟨lists, h⟩ := h
  refine ⟨⟨_, h.drop t⟩, fun x hx => ?_⟩
  have hkind : (s.drop t).pool.kind = s.pool.kind := funext fun k => s.pool.kind_release _ k
  rw [(h.drop t).values_eq, hkind]
  by_cases hxt : x = .tape t
  · subst hxt
    simp
  · rw [Function.update_of_ne hxt, Function.update_of_ne hx, Function.update_of_ne hxt,
      h.values_eq]

/-- Finishing moves the builder's chain to a tape. -/
theorem inv_finish (h : s.Inv) {i : ι} {t : Fin n} (ht : (s.builders i).tail = some t) :
    (s.finish i).Inv ∧ ∀ x, (s.finish i).values x =
      Function.update (Function.update s.values (.tape t) (s.values (.builder i)))
        (.builder i) [] x := by
  obtain ⟨lists, h⟩ := h
  refine ⟨⟨_, h.finish ht⟩, fun x => ?_⟩
  have hkind : (s.finish i).pool.kind = s.pool.kind := by
    unfold Tapes.finish
    rw [ht]
  rw [(h.finish ht).values_eq, hkind]
  by_cases hxi : x = .builder i
  · subst hxi
    simp
  · rw [Function.update_of_ne hxi, Function.update_of_ne hxi]
    by_cases hxt : x = .tape t
    · subst hxt
      rw [Function.update_self, Function.update_self, h.values_eq]
    · rw [Function.update_of_ne hxt, Function.update_of_ne hxt, h.values_eq]

/-- The nodes of a fresh pool are one ring. -/
theorem ring_new {n : ℕ} {t : Fin n} (ht : t.val + 1 = n) :
    Ring (Pool.new n).next t (List.finRange n) := by
  have hn : 0 < n := by omega
  refine ⟨?_, ?_, ?_, List.nodup_finRange n⟩
  · rw [List.isChain_iff_getElem]
    intro i hi
    rw [List.length_finRange] at hi
    simp only [List.getElem_finRange, Pool.next, Pool.new, Node.vacant, Pool.after, Fin.cast_mk]
    rw [dif_neg (by omega)]
  · rw [List.getLast?_eq_getElem?, List.length_finRange, List.getElem?_eq_getElem (by simp; omega)]
    simp only [List.getElem_finRange, Fin.cast_mk, Option.some.injEq]
    exact Fin.ext (by dsimp only; omega)
  · rw [List.head?_eq_getElem?, List.getElem?_eq_getElem (by simpa using hn)]
    simp only [List.getElem_finRange, Pool.next, Pool.new, Node.vacant, Pool.after, Fin.cast_mk]
    rw [dif_pos (by omega)]

theorem inv_new : (new : Tapes n ι).Inv := by
  refine ⟨fun x => if x = .free then List.finRange n else [], ⟨fun {x t} hx => ?_,
    fun {x} hx => ?_, fun {x y k} hx hy => ?_⟩, fun k => ⟨.free, by simp⟩⟩
  · cases x with
    | free =>
      have hfree : (Pool.new n).free = some t := hx
      unfold Pool.new at hfree
      dsimp only at hfree
      split_ifs at hfree with hn
      obtain rfl := Option.some.inj hfree
      exact ring_new (by dsimp only; omega)
    | builder i => cases hx
    | tape t => cases hx
  · cases x with
    | free =>
      have hfree : (Pool.new n).free = none := hx
      unfold Pool.new at hfree
      dsimp only at hfree
      split_ifs at hfree with hn
      obtain rfl : n = 0 := by omega
      rfl
    | builder i => rfl
    | tape t => rfl
  · have free {z : Handle n ι} (hz : k ∈ if z = .free then List.finRange n else []) :
        z = .free := by
      by_contra hne
      simp [hne] at hz
    rw [free hx, free hy]

/-! ## Runs -/

/-- The runs of a fresh pool, with the values each handle was given so far. The scanner
takes a push's slot from the builder's length. -/
inductive Reached : Tapes n ι → (Handle n ι → List Kind) → Prop
  | new : Reached .new fun _ => []
  | push {s s' : Tapes n ι} {ledger : Handle n ι → List Kind} {i : ι} {slot : Slot}
      {value : Kind} : Reached s ledger → slot.get = (s.builders i).len + 1 →
      s.tryPush i slot value = some s' →
      Reached s' (Function.update ledger (.builder i) (ledger (.builder i) ++ [value]))
  | reset {s : Tapes n ι} {ledger : Handle n ι → List Kind} (i : ι) : Reached s ledger →
      Reached (s.reset i) (Function.update ledger (.builder i) [])
  | finish {s : Tapes n ι} {ledger : Handle n ι → List Kind} {i : ι} {t : Fin n} :
      Reached s ledger → (s.builders i).tail = some t →
      Reached (s.finish i) (Function.update
        (Function.update ledger (.tape t) (ledger (.builder i))) (.builder i) [])
  | drop {s : Tapes n ι} {ledger : Handle n ι → List Kind} (t : Fin n) : Reached s ledger →
      Reached (s.drop t) (Function.update ledger (.tape t) [])

/-- Values and lengths that are those of the ledger. -/
def Agrees (values : Handle n ι → List Kind) (len : Handle n ι → ℕ)
    (ledger : Handle n ι → List Kind) : Prop :=
  ∀ x, x ≠ .free → values x = ledger x ∧ len x = (ledger x).length

/-- The chains hold what the ledger says, and the lengths recorded are theirs. -/
structure Records (s : Tapes n ι) (ledger : Handle n ι → List Kind) : Prop where
  inv : s.Inv
  agrees : Agrees s.values s.len ledger

theorem Agrees.update {values : Handle n ι → List Kind} {len : Handle n ι → ℕ}
    {ledger : Handle n ι → List Kind} (h : Agrees values len ledger) (y : Handle n ι)
    (kinds : List Kind) :
    Agrees (Function.update values y kinds) (Function.update len y kinds.length)
      (Function.update ledger y kinds) := by
  intro x hx
  by_cases hxy : x = y
  · subst hxy
    simp
  · simpa [Function.update_of_ne hxy] using h x hx

omit [DecidableEq ι] in
theorem Agrees.of_eq {values values' : Handle n ι → List Kind} {len len' : Handle n ι → ℕ}
    {ledger : Handle n ι → List Kind} (h : Agrees values len ledger)
    (hvalues : ∀ x, x ≠ .free → values' x = values x) (hlen : len' = len) :
    Agrees values' len' ledger := by
  intro x hx
  rw [hvalues x hx, hlen]
  exact h x hx

theorem len_tryPush {s' : Tapes n ι} {i : ι} {slot : Slot} {value : Kind}
    (hpush : s.tryPush i slot value = some s') :
    s'.len = Function.update s.len (.builder i) slot.get := by
  unfold tryPush at hpush
  split at hpush
  · cases hpush
  · obtain rfl := Option.some.inj hpush
    funext x
    cases x with
    | free => rfl
    | builder j => by_cases hj : j = i <;> simp [len, hj]
    | tape t => rfl

theorem len_reset (s : Tapes n ι) (i : ι) :
    (s.reset i).len = Function.update s.len (.builder i) 0 := by
  funext x
  cases x with
  | free => rfl
  | builder j => by_cases hj : j = i <;> simp [len, Tapes.reset, hj]
  | tape t => rfl

theorem len_drop (s : Tapes n ι) (t : Fin n) :
    (s.drop t).len = Function.update s.len (.tape t) 0 := by
  funext x
  cases x with
  | free => rfl
  | builder j => rfl
  | tape u => by_cases hu : u = t <;> simp [len, Tapes.drop, hu]

theorem len_finish {i : ι} {t : Fin n} (ht : (s.builders i).tail = some t) :
    (s.finish i).len =
      Function.update (Function.update s.len (.tape t) (s.len (.builder i))) (.builder i) 0 := by
  unfold Tapes.finish
  rw [ht]
  funext x
  cases x with
  | free => rfl
  | builder j => by_cases hj : j = i <;> simp [len, hj]
  | tape u => by_cases hu : u = t <;> simp [len, hu]

theorem Reached.records {ledger : Handle n ι → List Kind} (h : Reached s ledger) :
    s.Records ledger := by
  induction h with
  | new => exact ⟨inv_new, fun x hx => by cases x <;> first | exact ⟨rfl, rfl⟩ | exact absurd rfl hx⟩
  | @push s s' ledger i slot value _ hslot hpush ih =>
    obtain ⟨hinv, hvalues⟩ := inv_tryPush ih.inv hpush
    obtain ⟨hi, hleni⟩ := ih.agrees (.builder i) (by simp)
    have hlen : slot.get = (ledger (.builder i) ++ [value]).length := by
      rw [hslot, List.length_append, ← hleni]
      rfl
    refine ⟨hinv, (ih.agrees.update (.builder i) (ledger (.builder i) ++ [value])).of_eq ?_ ?_⟩
    · rw [← hi]
      exact hvalues
    · rw [← hlen, len_tryPush hpush]
  | reset i _ ih =>
    obtain ⟨hinv, hvalues⟩ := inv_reset ih.inv i
    exact ⟨hinv, (ih.agrees.update (.builder i) []).of_eq hvalues (len_reset _ i)⟩
  | @finish s ledger i t _ ht ih =>
    obtain ⟨hinv, hvalues⟩ := inv_finish ih.inv ht
    obtain ⟨hi, hleni⟩ := ih.agrees (.builder i) (by simp)
    refine ⟨hinv, ((ih.agrees.update (.tape t) (ledger (.builder i))).update (.builder i) []).of_eq
      ?_ ?_⟩
    · rw [← hi]
      exact fun x _ => hvalues x
    · rw [← hleni, len_finish ht]
      rfl
  | drop t _ ih =>
    obtain ⟨hinv, hvalues⟩ := inv_drop ih.inv t
    exact ⟨hinv, (ih.agrees.update (.tape t) []).of_eq hvalues (len_drop _ t)⟩

omit [DecidableEq ι] in
/-- Reading a chain by its recorded length gives the values it was given. -/
theorem Records.read_eq {ledger : Handle n ι → List Kind} (h : s.Records ledger) {x : Handle n ι}
    (hx : x ≠ .free) : s.read x = ledger x := by
  obtain ⟨lists, hlists⟩ := h.inv
  obtain ⟨hvalues, hlen⟩ := h.agrees x hx
  rw [hlists.values_eq] at hvalues
  rw [hlists.read_eq (by rw [hlen, ← hvalues, List.length_map]), hvalues]

/-- In every run the free ring and the chains of the live builders and tapes partition the
nodes. Each chain is one ring of the recorded length that lists the values it was given, in
order. Giving a chain back changes no value of another one. -/
theorem Reached.partition {ledger : Handle n ι → List Kind} (h : Reached s ledger) :
    (∃ lists : Handle n ι → List (Fin n),
      (∀ k, ∃! x, k ∈ lists x) ∧
      (∀ x, s.tail x = none → lists x = []) ∧
      (∀ x t, s.tail x = some t → Ring s.pool.next t (lists x)) ∧
      ∀ x, x ≠ .free → s.len x = (lists x).length) ∧
    (∀ x, x ≠ .free → s.read x = ledger x) ∧
    (∀ i x, x ≠ .free → x ≠ .builder i → (s.reset i).read x = s.read x) ∧
    ∀ t x, x ≠ .free → x ≠ .tape t → (s.drop t).read x = s.read x := by
  have hrecords := h.records
  obtain ⟨lists, hlists⟩ := hrecords.inv
  refine ⟨⟨lists, fun k => ?_, fun x => hlists.rings.empty, fun x t => hlists.rings.ring,
    fun x hx => ?_⟩, fun x hx => hrecords.read_eq hx, fun i x hx hxi => ?_, fun t x hx hxt => ?_⟩
  · obtain ⟨x, hx⟩ := hlists.covered k
    exact ⟨x, hx, fun y hy => hlists.rings.disjoint hy hx⟩
  · obtain ⟨hvalues, hlen⟩ := hrecords.agrees x hx
    rw [hlen, ← hvalues, hlists.values_eq, List.length_map]
  · rw [(Reached.reset i h).records.read_eq hx, hrecords.read_eq hx, Function.update_of_ne hxi]
  · rw [(Reached.drop t h).records.read_eq hx, hrecords.read_eq hx, Function.update_of_ne hxt]

/-- Two builders push in turn into a pool of three nodes, the first one finishes, and its
tape is given back. -/
theorem partition_interleaved :
    let one : Slot := ⟨1, by decide, by decide⟩
    let two : Slot := ⟨2, by decide, by decide⟩
    let s₁ := ((new : Tapes 3 Bool).tryPush true one .ok).getD new
    let s₂ := (s₁.tryPush false one .nil).getD new
    let s₃ := ((s₂.finish true).tryPush false two .ok).getD new
    s₃.read (.tape 0) = [.ok] ∧ s₃.read (.builder false) = [.nil, .ok] ∧
      (s₃.drop 0).read (.builder false) = [.nil, .ok] := by
  intro one two s₁ s₂ s₃
  have hs₁ : (new : Tapes 3 Bool).tryPush true one .ok = some s₁ := rfl
  have hs₂ : s₁.tryPush false one .nil = some s₂ := rfl
  have hs₃ : (s₂.finish true).tryPush false two .ok = some s₃ := rfl
  have ht : (s₂.builders true).tail = some 0 := rfl
  have hreached : Reached s₃ _ :=
    .push (.finish (.push (.push .new rfl hs₁) rfl hs₂) ht) rfl hs₃
  obtain ⟨-, hread, -, hdrop⟩ := hreached.partition
  refine ⟨(hread (.tape 0) (by simp)).trans rfl, (hread (.builder false) (by simp)).trans rfl, ?_⟩
  exact (hdrop 0 (.builder false) (by simp) (by simp)).trans
    ((hread (.builder false) (by simp)).trans rfl)

end Tapes

end Cartel.Redis.Parser
