import Cartel.Decode.Region

/-!
# Decoding the value tree

`Tree` is a RESP value whose nodes know the node of the tape they are stored in, and a tape
holds a tree if its chain lists the nodes of the tree in pre-order (`Holds`). The decoders
of this module work on the children of the tree. The decoders on the tape agree with them
(`Agree`) : they accept the same values with the same elements, and report the same first
fault otherwise.

Stepping to the next node of the tape is stepping to the next child only as long as no
child with children of its own was passed. So each loop is followed along the children,
where a child that is passed has no nodes below it (`Tree.items_of_value`). The pool a
decoder leaves differs from the tape's in the payloads of the numbers it accepted
(`Rewritten`), and has the same links.
-/

namespace Cartel.Redis.Decode

open Cartel.Redis.Parser

variable {n : ℕ} {P E : Type}

/-! ## Trees -/

/-- A RESP value, with the key of each node. -/
inductive Tree (n : ℕ) where
  | nil (key : Fin n)
  | ok (key : Fin n)
  | status (key : Fin n) (span : Span)
  | error (key : Fin n) (span : Span)
  | integer (key : Fin n) (value : Int64)
  | bulk (key : Fin n) (span : Span)
  | array (key : Fin n) (items : List (Tree n))

/-- What `Node::try_value` makes of a node with the value. -/
def valueOf : Kind → Except Span Value
  | .nil => .ok .nil
  | .ok => .ok .ok
  | .status span => .ok (.status span)
  | .error span => .error span
  | .integer value => .ok (.integer value)
  | .bulk span => .ok (.bulk span)
  | .array len => .ok (.array len)

namespace Tree

/-- The key of the root. -/
def key : Tree n → Fin n
  | .nil key | .ok key | .status key _ | .error key _ | .integer key _ | .bulk key _
  | .array key _ => key

/-- The kind of the root. -/
def kind : Tree n → Kind
  | .nil _ => .nil
  | .ok _ => .ok
  | .status _ span => .status span
  | .error _ span => .error span
  | .integer _ value => .integer value
  | .bulk _ span => .bulk span
  | .array _ items => .array (.ofNat items.length)

/-- The children of an array. -/
def items : Tree n → List (Tree n)
  | .array _ items => items
  | _ => []

mutual

/-- The nodes in pre-order. -/
def entries : Tree n → List (Fin n × Kind)
  | .array key items => (key, .array (.ofNat items.length)) :: entriesAll items
  | .nil key => [(key, .nil)]
  | .ok key => [(key, .ok)]
  | .status key span => [(key, .status span)]
  | .error key span => [(key, .error span)]
  | .integer key value => [(key, .integer value)]
  | .bulk key span => [(key, .bulk span)]

def entriesAll : List (Tree n) → List (Fin n × Kind)
  | [] => []
  | item :: items => entries item ++ entriesAll items

end

/-- The value of the root, or its error text. -/
def value (t : Tree n) : Except Span Value :=
  valueOf t.kind

theorem entries_eq (t : Tree n) : t.entries = (t.key, t.kind) :: entriesAll t.items := by
  cases t <;> rfl

theorem length_le_entriesAll (items : List (Tree n)) :
    items.length ≤ (entriesAll items).length := by
  induction items with
  | nil => exact le_rfl
  | cons item items ih =>
    rw [entriesAll, entries_eq, List.length_append, List.length_cons, List.length_cons]
    omega

/-- Only arrays have nodes below them. -/
theorem items_of_value {t : Tree n} {v : Value} (h : t.value = .ok v)
    (hv : ∀ len, v ≠ .array len) : t.items = [] := by
  cases t with
  | array key items => exact absurd (Except.ok.inj h).symm (hv _)
  | _ => rfl

/-! ## The decoders of the tree -/

/-- The children of an array, none for nil. -/
def children (t : Tree n) : Except Mismatch (List (Tree n)) :=
  match t.value with
  | .error span => .error (.server span)
  | .ok (.array _) => .ok t.items
  | .ok .nil => .ok []
  | .ok actual => .error (.value actual)

/-- The text of a bulk. -/
def bulkSpan (t : Tree n) : Except Mismatch Span :=
  match t.value with
  | .error span => .error (.server span)
  | .ok (.bulk span) => .ok span
  | .ok actual => .error (.value actual)

/-- The text of a bulk, nothing for nil. -/
def optionalSpan (t : Tree n) : Except Mismatch (Option Span) :=
  match t.value with
  | .error span => .error (.server span)
  | .ok .nil => .ok none
  | .ok (.bulk span) => .ok (some span)
  | .ok actual => .error (.value actual)

/-- The first groups of `width` elements. -/
def chunks {A : Type} (width : ℕ) : ℕ → List A → List (List A)
  | 0, _ => []
  | count + 1, xs => xs.take width :: chunks width count (xs.drop width)

/-- The elements two by two. -/
def pairs {A : Type} : List A → List (A × A)
  | a :: b :: rest => (a, b) :: pairs rest
  | _ => []

/-- The children of the top-level array. -/
def top (t : Tree n) : Except (Fault P) (List (Tree n)) :=
  t.children.mapError (.mismatch .array)

/-- Bulks in groups of `width`. -/
def groups (width : ℕ) (items : List (Tree n)) : Except (Fault P) (List (List Span)) :=
  if items.length % width ≠ 0 then .error (.arrayMultiple width items.length)
  else ((items.mapM bulkSpan).mapError (.mismatch .bulk)).map
    (chunks width (items.length / width))

/-- A top-level array of bulks, in groups of `width`. -/
def bulks (width : ℕ) (t : Tree n) : Except (Fault P) (List (List Span)) :=
  t.top.bind (groups width)

/-- A top-level array of optional bulks. -/
def optional (t : Tree n) : Except (Fault P) (List (Option Span)) :=
  t.top.bind fun items => (items.mapM optionalSpan).mapError (.mismatch .bulkOrNil)

variable (std : Floats P) (frame : List UInt8)

/-- The number of a node. -/
def number (t : Tree n) : Except (Fault P) UInt64 :=
  (t.value.mapError .server).bind (float std frame)

/-- A member with its score. -/
def score (pair : Tree n × Tree n) : Except (Fault P) (Span × UInt64) := do
  let member ← pair.1.bulkSpan.mapError (.mismatch .bulk)
  let bits ← pair.2.number std frame
  pure (member, bits)

/-- A top-level array of members and scores. -/
def scored (t : Tree n) : Except (Fault P) (List (Span × UInt64)) :=
  t.top.bind fun items =>
    if items.length % 2 ≠ 0 then .error (.arrayMultiple 2 items.length)
    else (pairs items).mapM (score std frame)

/-- A pair of numbers, nothing for nil. -/
def position (t : Tree n) : Except (Fault P) (Option (UInt64 × UInt64)) :=
  match t.value with
  | .error span => .error (.server span)
  | .ok .nil => .ok none
  | .ok (.array _) =>
    match t.items with
    | [first, second] => do
      let lon ← first.number std frame
      let lat ← second.number std frame
      pure (some (lon, lat))
    | items => .error (.arrayLength 2 items.length)
  | .ok actual => .error (.expected .arrayOrNil actual)

/-- A top-level array of optional coordinates. -/
def coordinates (t : Tree n) : Except (Fault P) (List (Option (UInt64 × UInt64))) :=
  t.top.bind fun items => items.mapM (position std frame)

/-- The two children of an array of two. -/
def exactPair (t : Tree n) : Except (Fault P) (Tree n × Tree n) :=
  t.top.bind fun items =>
    match items with
    | [first, second] => .ok (first, second)
    | items => .error (.arrayLength 2 items.length)

/-- A scan reply : the offset, and an array of bulks. -/
def scan (t : Tree n) : Except (Fault P) (ℕ × List (List Span)) := do
  let pair ← t.exactPair
  let offset ← scanCursor frame pair.1.value
  let items ← pair.2.top
  let keys ← groups 1 items
  pure (offset, keys)

/-- Two bulks. -/
def bulkPair (t : Tree n) : Except (Fault P) (Span × Span) := do
  let pair ← t.exactPair
  let first ← Decode.bulk pair.1.value
  let second ← Decode.bulk pair.2.value
  pure (first, second)

/-- Two numbers. -/
def coordinate (t : Tree n) : Except (Fault P) (UInt64 × UInt64) := do
  let pair ← t.exactPair
  let lon ← pair.1.number std frame
  let lat ← pair.2.number std frame
  pure (lon, lat)

mutual

/-- The first error of the tree. -/
def discard : Tree n → Except Span Unit
  | .error _ span => .error span
  | .array _ items => discardAll items
  | _ => .ok ()

def discardAll : List (Tree n) → Except Span Unit
  | [] => .ok ()
  | item :: items => (discard item).bind fun _ => discardAll items

end

/-- The nodes of the trees that are numbers. -/
def numberKeys (ts : List (Tree n)) : List (Fin n) :=
  (ts.filter fun t => (t.number std frame).isOk).map key

/-- The trees where the scores are. -/
def scores (items : List (Tree n)) : List (Tree n) :=
  (pairs items).map Prod.snd

/-- The trees where the coordinates are. -/
def axes (items : List (Tree n)) : List (Tree n) :=
  items.flatMap fun item =>
    match item.items with
    | [first, second] => [first, second]
    | _ => []

end Tree

/-! ## Tapes that hold a tree -/

/-- From `key` on, the chain has the nodes listed. -/
structure Lays (pool : Pool n) (key : Fin n) (entries : List (Fin n × Kind)) : Prop where
  walk : Lib.walk pool.next entries.length key = entries.map Prod.fst
  kinds : ∀ entry ∈ entries, pool.kind entry.1 = entry.2

/-- The tape of a tree. -/
structure Holds (tape : Tape n) (t : Tree n) : Prop where
  lays : Lays tape.pool (tape.pool.next tape.tail) t.entries
  len : tape.len = t.entries.length
  nodup : (t.entries.map Prod.fst).Nodup
  lt : tape.len < 2 ^ 32

/-- The same links and tags, and the same payloads outside of `keys`. -/
structure Rewritten (pool pool' : Pool n) (keys : List (Fin n)) : Prop where
  free : pool'.free = pool.free
  next : ∀ key, pool'.next key = pool.next key
  tag : ∀ key, (pool'.nodes key).tag = (pool.nodes key).tag
  nodes : ∀ key, key ∉ keys → pool'.nodes key = pool.nodes key

/-- Both accept, and `Q` relates what they accept, or both report the same. -/
def Agree {A B : Type} (Q : A → B → Prop) : Except E A → Except E B → Prop
  | .ok a, .ok b => Q a b
  | .error e, .error e' => e = e'
  | _, _ => False

/-- The iterator gives the elements listed, counts them down, and reads allowed nodes. -/
inductive Yields {A : Type} (next : Iter n → Option (A × Iter n)) (hint : Iter n → ℕ)
    (reads : Iter n → List (Fin n)) (allowed : Fin n → Prop) : Iter n → List A → Prop
  | done {it : Iter n} : next it = none → hint it = 0 → reads it = [] →
      Yields next hint reads allowed it []
  | item {it it' : Iter n} {a : A} {items : List A} : next it = some (a, it') →
      hint it = items.length + 1 → (∀ key ∈ reads it, allowed key) →
      Yields next hint reads allowed it' items → Yields next hint reads allowed it (a :: items)

/-! ## Steps along the tape -/

theorem tryValue_eq (node : Node n) : tryValue node = valueOf node.kind := by
  unfold tryValue Node.kind
  cases node.tag <;> rfl

/-- The payload of a bulk is its span. -/
theorem fromStored_of_kind {node : Node n} {span : Span} (h : node.kind = .bulk span) :
    .fromStored node.payload = span := by
  unfold Node.kind at h
  cases htag : node.tag <;> rw [htag] at h <;> cases h
  rfl

/-- The payload of an optional bulk is its span. -/
theorem maybeSpan_eq (node : Node n) :
    maybeSpan node =
      match node.kind with
      | .bulk span => some span
      | _ => none := by
  unfold maybeSpan Node.kind
  cases node.tag <;> rfl

section Steps

variable {pool : Pool n} {key : Fin n} {entry : Fin n × Kind} {rest : List (Fin n × Kind)}
  {cursor : Cursor n} {tape : Tape n}

theorem Lays.cons (h : Lays pool key (entry :: rest)) :
    key = entry.1 ∧ pool.kind key = entry.2 ∧ Lays pool (pool.next key) rest := by
  have hwalk := h.walk
  rw [List.length_cons, Lib.walk, List.map_cons, List.cons.injEq] at hwalk
  obtain ⟨hkey, hwalk⟩ := hwalk
  refine ⟨hkey, ?_, hwalk, fun other hother => h.kinds other (List.mem_cons_of_mem _ hother)⟩
  rw [hkey]
  exact h.kinds entry List.mem_cons_self

/-- The root of the first tree, and what follows when nothing is below it. -/
theorem Lays.item {t : Tree n} {items : List (Tree n)}
    (h : Lays pool key (Tree.entriesAll (t :: items) ++ rest)) :
    key = t.key ∧ pool.kind key = t.kind ∧
      Lays pool (pool.next key) (Tree.entriesAll t.items ++ (Tree.entriesAll items ++ rest)) := by
  rw [Tree.entriesAll, Tree.entries_eq, List.append_assoc, List.cons_append] at h
  exact h.cons

/-- A batch that is there. -/
theorem batch_eq {width : ℕ} (h : width ≤ cursor.remaining) (hlt : cursor.remaining < 2 ^ 32)
    (hwidth : 0 < width) :
    cursor.batch width = some ⟨cursor.next, cursor.remaining - width + 1⟩ := by
  have hleft : min (1 + (cursor.remaining - width)) (2 ^ 32 - 1) =
      cursor.remaining - width + 1 := by omega
  rw [Cursor.batch, if_pos h, hleft]

theorem batch_eq_none {width : ℕ} (h : cursor.remaining < width) : cursor.batch width = none :=
  if_neg (Nat.not_le.mpr h)

theorem take_eq {batch : Batch n} (h : Lays tape.pool batch.next (entry :: rest)) :
    take tape batch =
      (valueOf entry.2).map fun value => (value, batch.finish (tape.pool.next batch.next)) := by
  have hkind : (tape.pool.nodes batch.next).kind = entry.2 := h.cons.2.1
  unfold take
  dsimp only
  rw [tryValue_eq, hkind]
  rfl

/-- Taking the root of the first tree. -/
theorem take_item {t : Tree n} {items : List (Tree n)} {m : ℕ}
    (h : Lays tape.pool cursor.next (Tree.entriesAll (t :: items) ++ rest))
    (hremaining : cursor.remaining = m + 1) (hlt : m + 1 < 2 ^ 32) :
    cursor.batch 1 = some ⟨cursor.next, m + 1⟩ ∧
      take tape ⟨cursor.next, m + 1⟩ =
        t.value.map fun value => (value, ⟨tape.pool.next cursor.next, m⟩) := by
  have hbatch := @batch_eq n cursor 1 (by omega) (by omega) (by omega)
  rw [hremaining] at hbatch
  refine ⟨hbatch, ?_⟩
  rw [Tree.entriesAll, Tree.entries_eq, List.append_assoc, List.cons_append] at h
  exact @take_eq n _ _ tape ⟨cursor.next, m + 1⟩ h

end Steps

theorem eq_error_of_map {A : Type} {x : Except E A} {e : E}
    (h : x.map (fun _ => ()) = .error e) : x = .error e := by
  cases x with
  | error e' => exact congrArg Except.error (Except.error.inj h)
  | ok a => cases h

theorem eq_ok_of_map {A : Type} {x : Except E A} (h : x.map (fun _ => ()) = .ok ()) :
    ∃ a, x = .ok a := by
  cases x with
  | error e => cases h
  | ok a => exact ⟨a, rfl⟩

theorem entriesAll_append (xs ys : List (Tree n)) :
    Tree.entriesAll (xs ++ ys) = Tree.entriesAll xs ++ Tree.entriesAll ys := by
  induction xs with
  | nil => rfl
  | cons t xs ih => rw [List.cons_append, Tree.entriesAll, Tree.entriesAll, ih, List.append_assoc]

/-! ## Agreement -/

section Agreement

variable {A B A' B' : Type} {E' : Type}

theorem Agree.of_error {Q : A → B → Prop} {y : Except E B} {e : E} (h : Agree Q (.error e) y) :
    y = .error e := by
  cases y with
  | error e' => exact congrArg Except.error (Eq.symm h)
  | ok b => exact absurd h id

theorem Agree.of_ok {Q : A → B → Prop} {y : Except E B} {a : A} (h : Agree Q (.ok a) y) :
    ∃ b, y = .ok b ∧ Q a b := by
  cases y with
  | error e' => exact absurd h id
  | ok b => exact ⟨b, rfl, h⟩

theorem Agree.bind {Q : A → B → Prop} {R : A' → B' → Prop} {x : Except E A} {y : Except E B}
    {f : A → Except E A'} {g : B → Except E B'} (h : Agree Q x y)
    (hfg : ∀ a b, Q a b → Agree R (f a) (g b)) : Agree R (x.bind f) (y.bind g) := by
  cases x with
  | error e =>
    rw [h.of_error]
    rfl
  | ok a =>
    obtain ⟨b, rfl, hQ⟩ := h.of_ok
    exact hfg a b hQ

theorem Agree.mapError {Q : A → B → Prop} {x : Except E A} {y : Except E B} (h : Agree Q x y)
    (f : E → E') : Agree Q (x.mapError f) (y.mapError f) := by
  cases x with
  | error e =>
    rw [h.of_error]
    rfl
  | ok a =>
    obtain ⟨b, rfl, hQ⟩ := h.of_ok
    exact hQ

theorem Agree.refl (x : Except E A) : Agree (· = ·) x x := by
  cases x <;> rfl

theorem Agree.mono {Q R : A → B → Prop} {x : Except E A} {y : Except E B} (h : Agree Q x y)
    (hQR : ∀ a b, Q a b → R a b) : Agree R x y := by
  cases x with
  | error e =>
    rw [h.of_error]
    rfl
  | ok a =>
    obtain ⟨b, rfl, hQ⟩ := h.of_ok
    exact hQR a b hQ

/-- One more element at the front of what the second accepts. -/
theorem Agree.cons {Q R : A → List B → Prop} {x : Except E A} {ys : Except E (List B)}
    (h : Agree Q x ys) (b : B) (hQR : ∀ a bs, Q a bs → R a (b :: bs)) :
    Agree R x (ys.bind fun bs => .ok (b :: bs)) := by
  cases x with
  | error e =>
    rw [h.of_error]
    rfl
  | ok a =>
    obtain ⟨bs, rfl, hQ⟩ := h.of_ok
    exact hQR a bs hQ

end Agreement

/-- A region whose nodes start with those of the children. -/
structure Heads (tape : Tape n) (items : List (Tree n)) (r : Region n) : Prop where
  on : r.tape = tape
  remaining : r.start.remaining = items.length
  len : r.len = items.length
  lt : items.length < 2 ^ 32
  lays : ∃ rest, Lays tape.pool r.start.next (Tree.entriesAll items ++ rest) ∧
    ((Tree.entriesAll items ++ rest).map Prod.fst).Nodup

section Tops

variable {tape : Tape n} {t : Tree n} {rest : List (Fin n × Kind)}

/-- The nodes after the header of an array are its children. -/
theorem array_agree {cursor : Cursor n} (hlt : t.items.length < 2 ^ 32)
    (h : Lays tape.pool cursor.next (Tree.entriesAll t.items ++ rest))
    (hnodup : ((Tree.entriesAll t.items ++ rest).map Prod.fst).Nodup) :
    Agree (fun array items => Heads tape items (region tape array))
      (match t.value with
        | .error span => .error (.server span)
        | .ok value => array value cursor) t.children := by
  unfold Tree.children
  cases t with
  | nil key => exact ⟨rfl, rfl, rfl, Nat.two_pow_pos 32, rest, h, hnodup⟩
  | array key items =>
    have hlen : (UInt32.ofNat items.length).toNat = items.length := by
      rw [UInt32.toNat_ofNat']
      exact Nat.mod_eq_of_lt hlt
    exact ⟨rfl, hlen, hlen, hlt, rest, h, hnodup⟩
  | _ => rfl

theorem topArray_agree {batch : Batch n} (hlt : t.items.length < 2 ^ 32)
    (h : Lays tape.pool batch.next (t.entries ++ rest))
    (hnodup : ((t.entries ++ rest).map Prod.fst).Nodup) :
    Agree (fun array items => Heads tape items (region tape array)) (topArray tape batch)
      t.children := by
  rw [Tree.entries_eq, List.cons_append] at h
  rw [Tree.entries_eq, List.cons_append, List.map_cons, List.nodup_cons] at hnodup
  have hnext := @array_agree n tape t rest (batch.finish (tape.pool.next batch.next)) hlt
    h.cons.2.2 hnodup.2
  unfold topArray
  rw [take_eq h]
  cases hvalue : valueOf t.kind with
  | error span =>
    rw [show t.value = .error span from hvalue] at hnext
    exact hnext
  | ok value =>
    rw [show t.value = .ok value from hvalue] at hnext
    exact hnext

theorem Holds.items_lt (h : Holds tape t) : t.items.length < 2 ^ 32 := by
  have hlen := h.len
  have hlt := h.lt
  have hle := Tree.length_le_entriesAll t.items
  rw [Tree.entries_eq, List.length_cons] at hlen
  omega

theorem Holds.root (h : Holds tape t) : Lays tape.pool (root tape).next (t.entries ++ []) := by
  rw [List.append_nil]
  exact h.lays

theorem top_agree (h : Holds tape t) :
    Agree (fun r items => Heads tape items r) (Tape.top tape) (t.top : Except (Fault P) _) := by
  have hagree := topArray_agree h.items_lt h.root (by rw [List.append_nil]; exact h.nodup)
  unfold Tape.top Tree.top
  cases harray : topArray tape (root tape) with
  | error cause =>
    rw [harray] at hagree
    rw [hagree.of_error]
    rfl
  | ok array =>
    rw [harray] at hagree
    obtain ⟨items, hitems, hheads⟩ := hagree.of_ok
    rw [hitems]
    exact hheads

end Tops

end Cartel.Redis.Decode
