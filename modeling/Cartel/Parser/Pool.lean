import Cartel.Lib.Ring
import Cartel.Parser.Tape

/-!
# The node pool of the parser

All tapes of a port share one array of nodes. A node holds a value and the key of the
node after it. The free nodes and the nodes of each live tape form circular lists in the
array, of which only the last node's key is kept : `Pool::reserve` and `Free::append` move
the first free node to the end of a tape, `Pool::release` splices a whole tape behind the
free list. The state of a key (`Vacant`, `Occupied`) has no counterpart here, and the
cells are a function of the key, so a write is a function update.

`Store` is a pool with its builders and its completed tapes, `Store.Reached` its runs,
together with a ledger of the values each builder and each tape was given. The invariant
is `Store.Holds` : the lists of all handles are disjoint rings (`Lib.Rings`) and no node
is outside them.
-/

namespace Cartel.Redis.Parser

open Cartel.Lib

/-! ## Nodes -/

/-- `parser::Tag`. -/
inductive Tag where
  | nil
  | ok
  | status
  | error
  | integer
  | bulk
  | array
  deriving DecidableEq

/-- `parser::Node`, with its `Meta`. -/
structure Node (n : ℕ) where
  next : Fin n
  tag : Tag
  payload : UInt64

namespace Node

variable {n : ℕ}

/-- `Node::vacant`. -/
def vacant (next : Fin n) : Node n :=
  ⟨next, .nil, 0⟩

/-- `Node::new`. -/
def new (next : Fin n) : Kind → Node n
  | .nil => ⟨next, .nil, 0⟩
  | .ok => ⟨next, .ok, 0⟩
  | .status span => ⟨next, .status, span.stored⟩
  | .error span => ⟨next, .error, span.stored⟩
  | .integer value => ⟨next, .integer, value.toUInt64⟩
  | .bulk span => ⟨next, .bulk, span.stored⟩
  | .array len => ⟨next, .array, len.toUInt64⟩

/-- `Node::kind`. -/
def kind (node : Node n) : Kind :=
  match node.tag with
  | .nil => .nil
  | .ok => .ok
  | .status => .status (.fromStored node.payload)
  | .error => .error (.fromStored node.payload)
  | .integer => .integer node.payload.toInt64
  | .bulk => .bulk (.fromStored node.payload)
  | .array => .array node.payload.toUInt32

/-- `Node::with_next` and `Node::with_free`. -/
def withNext (node : Node n) (next : Fin n) : Node n :=
  { node with next := next }

@[simp] theorem new_next (next : Fin n) (value : Kind) : (new next value).next = next := by
  cases value <;> rfl

/-- A node gives back the value it was made with. -/
@[simp] theorem kind_new (next : Fin n) (value : Kind) : (new next value).kind = value := by
  cases value <;> simp [new, kind]

@[simp] theorem withNext_next (node : Node n) (next : Fin n) : (node.withNext next).next = next :=
  rfl

@[simp] theorem kind_withNext (node : Node n) (next : Fin n) :
    (node.withNext next).kind = node.kind :=
  rfl

end Node

/-! ## The pool -/

/-- `parser::Pool` with `n` nodes. `free` is the last free node. -/
structure Pool (n : ℕ) where
  nodes : Fin n → Node n
  free : Option (Fin n)

namespace Pool

variable {n : ℕ}

/-- The key after `i`, and the first one after the last. -/
def after (i : Fin n) : Fin n :=
  if h : i.val + 1 = n then ⟨0, by omega⟩ else ⟨i.val + 1, by omega⟩

/-- `Pool::try_new` : one free ring of all the nodes. -/
def new (n : ℕ) : Pool n where
  nodes i := .vacant (after i)
  free := if h : 0 < n then some ⟨n - 1, by omega⟩ else none

variable (pool : Pool n)

/-- The link of a node, `Pool::head` of a tail. -/
def next (key : Fin n) : Fin n :=
  (pool.nodes key).next

/-- The value of a node. -/
def kind (key : Fin n) : Kind :=
  (pool.nodes key).kind

/-- `Cell::set` of a node. -/
def set (key : Fin n) (node : Node n) : Pool n :=
  { pool with nodes := Function.update pool.nodes key node }

/-- The first half of `Free::append` : take the first free node. -/
def take (free : Fin n) : Pool n :=
  let key := pool.next free
  if key = free then { pool with free := none }
  else pool.set free ((pool.nodes free).withNext (pool.next key))

/-- The second half of `Free::append` : put the node after the tail of its chain. -/
def link (key : Fin n) (tail : Option (Fin n)) (value : Kind) : Pool n :=
  match tail with
  | some tail =>
    let head := pool.next tail
    let pool := pool.set key (.new head value)
    pool.set tail ((pool.nodes tail).withNext key)
  | none => pool.set key (.new key value)

/-- `Free::append`, for the free tail `free` that `Pool::reserve` gave. -/
def append (free : Fin n) (tail : Option (Fin n)) (value : Kind) : Fin n × Pool n :=
  let key := pool.next free
  (key, (pool.take free).link key tail value)

/-- `Pool::release`. -/
def release (tail : Option (Fin n)) : Pool n :=
  match tail with
  | none => pool
  | some tail =>
    match pool.free with
    | none => { pool with free := some tail }
    | some free =>
      let head := pool.next tail
      let first := pool.next free
      let pool := pool.set tail ((pool.nodes tail).withNext first)
      let pool := pool.set free ((pool.nodes free).withNext head)
      { pool with free := some tail }

@[simp] theorem set_free (key : Fin n) (node : Node n) : (pool.set key node).free = pool.free :=
  rfl

theorem next_set (key : Fin n) (node : Node n) (k : Fin n) :
    (pool.set key node).next k = if k = key then node.next else pool.next k := by
  simp only [next, set, Function.update_apply]
  split_ifs <;> rfl

theorem kind_set (key : Fin n) (node : Node n) (k : Fin n) :
    (pool.set key node).kind k = if k = key then node.kind else pool.kind k := by
  simp only [kind, set, Function.update_apply]
  split_ifs <;> rfl

theorem next_relink (key link k : Fin n) :
    (pool.set key ((pool.nodes key).withNext link)).next k =
      if k = key then link else pool.next k := by
  rw [next_set]
  rfl

/-- Relinking a node keeps every value. -/
@[simp] theorem kind_relink (key link k : Fin n) :
    (pool.set key ((pool.nodes key).withNext link)).kind k = pool.kind k := by
  rw [kind_set]
  split_ifs with h
  · rw [h]
    rfl
  · rfl

@[simp] theorem kind_take (free k : Fin n) : (pool.take free).kind k = pool.kind k := by
  unfold take
  dsimp only
  split_ifs
  · rfl
  · exact kind_relink ..

/-- Linking a node writes its value, and no other one. -/
theorem kind_link (key : Fin n) (tail : Option (Fin n)) (value : Kind) (k : Fin n) :
    (pool.link key tail value).kind k = if k = key then value else pool.kind k := by
  unfold link
  cases tail with
  | none =>
    dsimp only
    rw [kind_set, Node.kind_new]
  | some tail =>
    dsimp only
    rw [kind_relink, kind_set, Node.kind_new]

/-- `append` writes the value to the first free node, and no other value. -/
theorem kind_append (free : Fin n) (tail : Option (Fin n)) (value : Kind) (k : Fin n) :
    (pool.append free tail value).2.kind k =
      if k = pool.next free then value else pool.kind k := by
  rw [append, kind_link, kind_take]

@[simp] theorem link_free (key : Fin n) (tail : Option (Fin n)) (value : Kind) :
    (pool.link key tail value).free = pool.free := by
  unfold link
  cases tail <;> rfl

/-- Releasing a chain keeps every value. -/
@[simp] theorem kind_release (tail : Option (Fin n)) (k : Fin n) :
    (pool.release tail).kind k = pool.kind k := by
  unfold release
  cases tail with
  | none => rfl
  | some tail =>
    cases hfree : pool.free with
    | none => rfl
    | some free =>
      change ((pool.set tail ((pool.nodes tail).withNext (pool.next free))).set free _).kind k = _
      rw [kind_relink, kind_relink]

/-! ## What the operations do to the rings -/

variable {pool} {κ : Type} [DecidableEq κ] {tails tails' : κ → Option (Fin n)}
  {lists : κ → List (Fin n)} {i f : κ} {free : Fin n}

/-- Taking the first free node pops the free ring. -/
theorem rings_take (h : Rings pool.next tails lists) (hf : tails f = some free)
    (hfree : pool.free = some free) (htail : tails' f = (pool.take free).free)
    (htails : ∀ j, j ≠ f → tails' j = tails j) :
    ∃ rest, lists f = pool.next free :: rest ∧ pool.next free ∉ rest ∧
      Rings (pool.take free).next tails' (Function.update lists f rest) := by
  refine h.pop hf ?_ htails (fun hne => ?_) fun k hk => ?_
  · rw [htail, take]
    split_ifs
    · rfl
    · exact hfree
  · rw [take, if_neg hne, next_relink, if_pos rfl]
  · rw [take]
    split_ifs
    · rfl
    · rw [next_relink, if_neg hk]

/-- Linking a node of no ring pushes it. -/
theorem rings_link {key : Fin n} {value : Kind} (h : Rings pool.next tails lists)
    (hkey : ∀ j, key ∉ lists j) (htail : tails' i = some key)
    (htails : ∀ j, j ≠ i → tails' j = tails j) :
    Rings (pool.link key (tails i) value).next tails'
      (Function.update lists i (lists i ++ [key])) := by
  refine h.push hkey htail htails (fun hnone => ?_) (fun t ht => ?_) fun k hk htk => ?_
  · rw [hnone, link, next_set, if_pos rfl, Node.new_next]
  · have hne : key ≠ t := by
      rintro rfl
      exact hkey i (h.ring ht).tail_mem
    rw [ht, link, next_relink, next_relink, if_neg hne, if_pos rfl, next_set, if_pos rfl,
      Node.new_next]
    exact ⟨rfl, rfl⟩
  · cases ht : tails i with
    | none => rw [link, next_set, if_neg hk]
    | some t =>
      rw [link, next_relink, if_neg fun hkt => htk (by rw [ht, hkt]), next_set, if_neg hk]

/-- `append` moves the first free node to the end of a chain. -/
theorem rings_append {value : Kind} (h : Rings pool.next tails lists) (hne : i ≠ f)
    (hf : tails f = some free) (hfree : pool.free = some free)
    (htail : tails' i = some (pool.next free))
    (htailf : tails' f = (pool.append free (tails i) value).2.free)
    (htails : ∀ j, j ≠ i → j ≠ f → tails' j = tails j) :
    ∃ rest, lists f = pool.next free :: rest ∧
      Rings (pool.append free (tails i) value).2.next tails'
        (Function.update (Function.update lists f rest) i (lists i ++ [pool.next free])) := by
  rw [append, link_free] at htailf
  obtain ⟨rest, hlist, hnotin, htaken⟩ : ∃ rest, lists f = pool.next free :: rest ∧
      pool.next free ∉ rest ∧ Rings (pool.take free).next
        (Function.update tails f (pool.take free).free) (Function.update lists f rest) :=
    rings_take h hf hfree (Function.update_self ..) fun j hj => Function.update_of_ne hj ..
  refine ⟨rest, hlist, ?_⟩
  have hkey : ∀ j, pool.next free ∉ Function.update lists f rest j := fun j hj => by
    by_cases hjf : j = f
    · rw [hjf, Function.update_self] at hj
      exact hnotin hj
    · rw [Function.update_of_ne hjf] at hj
      exact hjf (h.disjoint hj (hlist ▸ List.mem_cons_self))
  have htaili : Function.update tails f (pool.take free).free i = tails i :=
    Function.update_of_ne hne ..
  have hlisti : Function.update lists f rest i = lists i := Function.update_of_ne hne ..
  have hlinked : Rings ((pool.take free).link (pool.next free)
      (Function.update tails f (pool.take free).free i) value).next tails' _ :=
    rings_link htaken hkey htail fun j hj => by
      by_cases hjf : j = f
      · rw [hjf, Function.update_self, htailf]
      · rw [Function.update_of_ne hjf, htails j hj hjf]
  rw [htaili, hlisti] at hlinked
  exact hlinked

/-- `release` puts a whole chain behind the free ring. -/
theorem rings_release (h : Rings pool.next tails lists) (hne : i ≠ f) (hfree : tails f = pool.free)
    (hnone : tails' i = none) (htailf : tails' f = (pool.release (tails i)).free)
    (htails : ∀ j, j ≠ i → j ≠ f → tails' j = tails j) :
    Rings (pool.release (tails i)).next tails'
      (Function.update (Function.update lists f (lists f ++ lists i)) i []) := by
  cases ht : tails i with
  | none =>
    have hlist := h.empty ht
    have hsame : Function.update (Function.update lists f (lists f ++ lists i)) i [] = lists := by
      rw [hlist, List.append_nil, Function.update_eq_self, ← hlist, Function.update_eq_self]
    have htails' : tails' = tails := funext fun j => by
      by_cases hji : j = i
      · rw [hji, hnone, ht]
      · by_cases hjf : j = f
        · rw [hjf, htailf, ht, hfree]
          rfl
        · exact htails j hji hjf
    rw [hsame, htails']
    exact h
  | some t =>
    rw [ht] at htailf
    unfold release at htailf ⊢
    dsimp only at htailf ⊢
    cases hf : pool.free with
    | none =>
      rw [hf] at htailf hfree
      rw [h.empty hfree, List.nil_append]
      exact h.move hne (htailf.trans ht.symm) hnone htails
    | some free =>
      rw [hf] at htailf hfree
      have hdiff : t ≠ free := by
        rintro rfl
        exact hne (h.disjoint (h.ring ht).tail_mem (h.ring hfree).tail_mem)
      have hnext (k : Fin n) : next { nodes := ((pool.set t ((pool.nodes t).withNext
          (pool.next free))).set free (((pool.set t ((pool.nodes t).withNext
          (pool.next free))).nodes free).withNext (pool.next t))).nodes, free := some t } k =
            if k = free then pool.next t else if k = t then pool.next free else pool.next k := by
        rw [← next_relink, ← next_relink]
        rfl
      refine h.splice hne hfree ht htailf hnone htails ?_ ?_ fun k hkt hkf => ?_
      · rw [hnext, if_neg hdiff, if_pos rfl]
      · rw [hnext, if_pos rfl]
      · rw [hnext, if_neg hkf, if_neg hkt]

end Pool

end Cartel.Redis.Parser
