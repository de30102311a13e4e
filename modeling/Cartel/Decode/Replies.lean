import Cartel.Decode.Coordinates

/-!
# Typed replies

The decoders on the tape of a value agree with the decoders on its tree
(`decoders_agree`). A pair is read as the two nodes that follow the header : the second one
is the second child whenever the first was accepted, as it is a leaf then. The tapes are
those of the parser : what a reader lists is the tree of the reply (`holds_of_listing`).
-/

namespace Cartel.Redis.Decode

open Cartel.Redis.Parser

variable {n : ℕ} {P : Type}

/-! ## Kinds of nodes -/

namespace Tree

def isBulk : Tree n → Bool
  | .bulk .. => true
  | _ => false

def isOptional : Tree n → Bool
  | .nil _ | .bulk .. => true
  | _ => false

/-- What may be a number. -/
def isNumber : Tree n → Bool
  | .status .. | .integer .. | .bulk .. => true
  | _ => false

/-- What may be a position. -/
def isPosition : Tree n → Bool
  | .nil _ | .array .. => true
  | _ => false

/-- The nodes of the trees of one kind. -/
def Nodes (items : List (Tree n)) (kind : Tree n → Bool) (key : Fin n) : Prop :=
  ∃ t ∈ items, t.key = key ∧ kind t = true

theorem isNumber_of_number {std : Floats P} {frame : List UInt8} {t : Tree n} {bits : UInt64}
    (h : t.number std frame = .ok bits) : t.isNumber = true := by
  cases t <;> first | rfl | cases h

/-- Every decoder sees the children. -/
theorem items_of_children {t : Tree n} {items : List (Tree n)} (h : t.children = .ok items) :
    items = t.items := by
  cases t <;> cases h <;> rfl

theorem items_of_top {t : Tree n} {items : List (Tree n)}
    (h : (t.top : Except (Fault P) _) = .ok items) : items = t.items := by
  refine items_of_children ?_
  unfold top at h
  cases hchildren : t.children with
  | error cause =>
    rw [hchildren] at h
    cases h
  | ok children =>
    rw [hchildren] at h
    exact congrArg Except.ok (Except.ok.inj h)

end Tree

/-! ## Lists -/

section Replies

variable {tape : Tape n} {t : Tree n} (std : Floats P) (frame : List UInt8)

/-- The top-level array, with its children. -/
theorem top_items (h : Holds tape t) :
    Agree (fun r items => Heads tape items r ∧ items = t.items) (Tape.top tape)
      (t.top : Except (Fault P) _) := by
  have hagree := @top_agree n P tape t h
  cases htop : (Tape.top tape : Except (Fault P) _) with
  | error fault =>
    rw [htop] at hagree
    rw [hagree.of_error]
    rfl
  | ok r =>
    rw [htop] at hagree
    obtain ⟨items, hitems, hheads⟩ := hagree.of_ok
    rw [hitems]
    exact ⟨hheads, Tree.items_of_top hitems⟩

theorem groups_agree {items : List (Tree n)} {r : Region n} (h : Heads tape items r) {width : ℕ}
    (hwidth : 0 < width) :
    Agree (YieldsBulks width (Tree.Nodes items Tree.isBulk)) (Tape.leaseBulks r width)
      (Tree.groups width items : Except (Fault P) _) :=
  leaseBulks_agree h hwidth fun _ _ hmem => ⟨_, hmem, rfl, rfl⟩

theorem bulks_agree (h : Holds tape t) {width : ℕ} (hwidth : 0 < width) :
    Agree (YieldsBulks width (Tree.Nodes t.items Tree.isBulk)) (Tape.bulks tape width)
      (t.bulks width : Except (Fault P) _) := by
  refine (top_items h).bind fun r items hr => ?_
  rw [← hr.2]
  exact groups_agree hr.1 hwidth

/-- What the iterator over the optional bulks of a region gives. -/
def YieldsOptional (allowed : Fin n → Prop) (r : Region n) (spans : List (Option Span)) : Prop :=
  r.len = spans.length ∧ Yields Iter.nextOptional (fun it => it.sizeHint 1) (fun it => it.reads 1)
    allowed r.iter spans

theorem optionals_agree (h : Holds tape t) :
    Agree (YieldsOptional (Tree.Nodes t.items Tree.isOptional)) (Tape.optional tape)
      (t.optional : Except (Fault P) _) := by
  refine (top_items h).bind fun r items hr => ?_
  rw [← hr.2]
  refine (optional_agree hr.1 fun item hitem hkind => ⟨item, hitem, rfl, ?_⟩).mapError _
  rcases hkind with hnil | ⟨span, hbulk⟩
  · rw [hnil]
    rfl
  · rw [hbulk]
    rfl

/-- What the iterator over the members and scores of a region gives. -/
def YieldsScored (allowed : Fin n → Prop) (r : Region n) (xs : List (Span × UInt64)) : Prop :=
  r.len = xs.length ∧ Yields Iter.nextScored (fun it => it.sizeHint 2) (fun it => it.reads 2)
    allowed r.iter xs

/-- The members and the scores. -/
def Tree.scoredNodes (items : List (Tree n)) (key : Fin n) : Prop :=
  Tree.Nodes ((Tree.pairs items).map Prod.fst) Tree.isBulk key ∨
    Tree.Nodes (Tree.scores items) Tree.isNumber key

theorem allowed_of_scored {pool : Pool n} : ∀ {pairs : List (Tree n × Tree n)}
    {xs : List (Span × UInt64)}, List.Forall₂ (Scored std frame pool) pairs xs →
      ∀ pair ∈ pairs, pair.1.isBulk = true ∧ pair.2.isNumber = true
  | _, _, .nil => nofun
  | _, _, .cons hx hxs => by
    intro pair hpair
    rcases List.mem_cons.mp hpair with rfl | hpair
    · refine ⟨?_, Tree.isNumber_of_number hx.score.number⟩
      rw [hx.bulk]
      rfl
    · exact allowed_of_scored hxs pair hpair

theorem scored_agree (h : Holds tape t) :
    Rewritten tape.pool (Tape.scored tape std frame).2
        (Tree.numberKeys std frame (Tree.scores t.items)) ∧
      Agree (YieldsScored (Tree.scoredNodes t.items)) (Tape.scored tape std frame).1
        (t.scored std frame) := by
  have htop := @top_items n P tape t h
  unfold Tape.scored Tree.scored
  rcases hr : (Tape.top tape : Except (Fault P) _) with fault | r
  · rw [hr] at htop
    rw [htop.of_error]
    exact ⟨.refl _ _, rfl⟩
  rw [hr] at htop
  obtain ⟨items, hitems, hheads, rfl⟩ := htop.of_ok
  rw [hitems]
  obtain ⟨rest, hlays, hnodup⟩ := hheads.lays
  have hon := hheads.on
  subst hon
  dsimp only [Except.bind]
  unfold Region.scored
  rw [hheads.len]
  split_ifs with hodd
  · exact ⟨.refl _ _, rfl⟩
  have heven : t.items.length % 2 = 0 := not_not.mp hodd
  obtain ⟨hrewritten, hagree⟩ := scoredFrom_spec std frame heven hheads.remaining.ge
    hheads.remaining hheads.lt hlays hnodup
  rcases hout : scoredFrom (float std frame) r.start.remaining r.tape.pool r.start with
    ⟨result, pool⟩
  rw [hout] at hrewritten hagree
  rcases result with cause | ⟨⟩
  · rw [hagree.of_error]
    exact ⟨hrewritten, rfl⟩
  obtain ⟨xs, hxs, hall⟩ := hagree.of_ok
  rw [hxs]
  refine ⟨hrewritten, ?_, ?_⟩
  · have hlength := length_pairs heven
    have hpairs := hall.length_eq
    dsimp only
    omega
  · refine yields_scored std frame hrewritten.next heven hheads.remaining hheads.lt hlays hall ?_
    intro pair hpair
    obtain ⟨hbulk, hnumber⟩ := allowed_of_scored std frame hall pair hpair
    exact ⟨Or.inl ⟨_, List.mem_map_of_mem hpair, rfl, hbulk⟩,
      Or.inr ⟨_, List.mem_map_of_mem hpair, rfl, hnumber⟩⟩

/-- What the iterator over the coordinates of a region gives. -/
def YieldsCoordinates (allowed : Fin n → Prop) (r : Region n)
    (xs : List (Option (UInt64 × UInt64))) : Prop :=
  r.len = xs.length ∧ Yields Iter.nextCoordinate (fun it => it.sizeHint 1) Iter.readsCoordinate
    allowed r.iter xs

/-- The members, and the numbers below them. -/
def Tree.positionNodes (items : List (Tree n)) (key : Fin n) : Prop :=
  Tree.Nodes items Tree.isPosition key ∨ Tree.Nodes (Tree.axes items) Tree.isNumber key

theorem axes_of_position {items : List (Tree n)} {key : Fin n} {first second : Tree n}
    (h : Tree.array key [first, second] ∈ items) :
    first ∈ Tree.axes items ∧ second ∈ Tree.axes items :=
  ⟨List.mem_flatMap.mpr ⟨_, h, List.mem_cons_self⟩,
    List.mem_flatMap.mpr ⟨_, h, List.mem_cons_of_mem _ List.mem_cons_self⟩⟩

theorem allowed_of_positioned {pool : Pool n} {items : List (Tree n)} {t : Tree n}
    {x : Option (UInt64 × UInt64)} (ht : t ∈ items) (h : Positioned std frame pool t x) :
    Tree.positionNodes items t.key ∧ ∀ child ∈ t.items, Tree.positionNodes items child.key := by
  cases h with
  | nil htag => exact ⟨Or.inl ⟨_, ht, rfl, rfl⟩, nofun⟩
  | @array key first second lon lat htag hfirst hsecond =>
    obtain ⟨hmem, hmem'⟩ := axes_of_position ht
    refine ⟨Or.inl ⟨_, ht, rfl, rfl⟩, fun child hchild => Or.inr ?_⟩
    rcases List.mem_cons.mp hchild with rfl | hchild
    · exact ⟨_, hmem, rfl, Tree.isNumber_of_number hfirst.number⟩
    · rw [List.mem_singleton.mp hchild]
      exact ⟨_, hmem', rfl, Tree.isNumber_of_number hsecond.number⟩

theorem exists_of_forall₂ {A B : Type} {R : A → B → Prop} : ∀ {xs : List A} {ys : List B},
    List.Forall₂ R xs ys → ∀ x ∈ xs, ∃ y, R x y
  | _, _, .nil => nofun
  | _, _, .cons hx hxs => by
    intro x hmem
    rcases List.mem_cons.mp hmem with rfl | hmem
    · exact ⟨_, hx⟩
    · exact exists_of_forall₂ hxs x hmem

/-- Below a child there are fewer nodes than below the root. -/
theorem Holds.child_lt (h : Holds tape t) {item : Tree n} (hitem : item ∈ t.items) :
    item.items.length < 2 ^ 32 := by
  have hlt := h.lt
  rw [h.len, Tree.entries_eq, List.length_cons] at hlt
  obtain ⟨front, back, hsplit⟩ := List.append_of_mem hitem
  rw [hsplit, entriesAll_append, Tree.entriesAll, Tree.entries_eq, List.length_append,
    List.length_append, List.length_cons] at hlt
  have hle := Tree.length_le_entriesAll item.items
  omega

theorem coordinates_agree (h : Holds tape t) :
    Rewritten tape.pool (Tape.coordinates tape std frame).2
        (Tree.numberKeys std frame (Tree.axes t.items)) ∧
      Agree (YieldsCoordinates (Tree.positionNodes t.items)) (Tape.coordinates tape std frame).1
        (t.coordinates std frame) := by
  have htop := topArray_agree h.items_lt h.root (by rw [List.append_nil]; exact h.nodup)
  unfold Tape.coordinates coordinates Tree.coordinates Tree.top
  rcases harray : topArray tape (root tape) with cause | outer
  · rw [harray] at htop
    rw [htop.of_error]
    exact ⟨.refl _ _, rfl⟩
  rw [harray] at htop
  obtain ⟨items, hitems, hheads⟩ := htop.of_ok
  rw [hitems]
  obtain rfl := Tree.items_of_children hitems
  obtain ⟨rest, hlays, hnodup⟩ := hheads.lays
  obtain ⟨hrewritten, hagree⟩ := @coordinatesFrom_spec n P std frame tape _ _ outer.cursor rest
    (fun item hitem => h.child_lt hitem) hlays hnodup
  have hlen : outer.len = t.items.length := hheads.len
  dsimp only [Except.mapError, Except.bind]
  rw [← hlen] at hrewritten hagree
  rcases hout : coordinatesFrom tape (float std frame) outer.len tape.pool outer.cursor with
    ⟨result, pool⟩
  rw [hout] at hrewritten hagree
  rcases result with cause | ⟨⟩
  · rw [hagree.of_error]
    exact ⟨hrewritten, rfl⟩
  obtain ⟨xs, hxs, hall⟩ := hagree.of_ok
  rw [hxs]
  refine ⟨hrewritten, hlen.trans hall.length_eq, ?_⟩
  refine @yields_coordinate n P std frame tape.pool _ _ hrewritten.next _ _
    ⟨outer.cursor.next, outer.len⟩ rest hlen hheads.lt hlays hall fun item hitem => ?_
  obtain ⟨x, hx⟩ := exists_of_forall₂ hall item hitem
  exact allowed_of_positioned std frame hitem hx

/-! ## Pairs -/

theorem bind_bind {A B C E : Type} (x : Except E A) (f : A → Except E B) (g : B → Except E C) :
    (x.bind f).bind g = x.bind fun a => (f a).bind g := by
  cases x <;> rfl

/-- A batch at the two children of the top-level array. -/
structure Pairs (tape : Tape n) (t : Tree n) (batch : Batch n) (pair : Tree n × Tree n) : Prop where
  items : t.items = [pair.1, pair.2]
  lays : ∃ rest, Lays tape.pool batch.next (Tree.entriesAll [pair.1, pair.2] ++ rest) ∧
    ((Tree.entriesAll [pair.1, pair.2] ++ rest).map Prod.fst).Nodup

theorem exactPair_of_length {items : List (Tree n)}
    (hitems : t.top = (.ok items : Except (Fault P) _)) (hlen : items.length ≠ 2) :
    t.exactPair = (.error (.arrayLength 2 items.length) : Except (Fault P) _) := by
  rw [Tree.exactPair, hitems]
  rcases items with - | ⟨first, - | ⟨second, - | ⟨third, items⟩⟩⟩
  · rfl
  · rfl
  · exact absurd rfl hlen
  · rfl

theorem exactPair_agree (h : Holds tape t) :
    Agree (Pairs tape t) (Tape.exactPair tape) (t.exactPair : Except (Fault P) _) := by
  have htop := topArray_agree h.items_lt h.root (by rw [List.append_nil]; exact h.nodup)
  unfold Tape.exactPair
  rcases harray : topArray tape (root tape) with cause | array
  · rw [harray] at htop
    rw [Tree.exactPair, Tree.top, htop.of_error]
    rfl
  rw [harray] at htop
  obtain ⟨items, hitems, hheads⟩ := htop.of_ok
  have hlen : array.len = items.length := hheads.len
  have htree : (t.top : Except (Fault P) _) = .ok items := by
    rw [Tree.top, hitems]
    rfl
  dsimp only
  rw [Children.exact, hlen]
  split_ifs with hwrong
  · rw [exactPair_of_length htree hwrong]
    rfl
  obtain ⟨first, second, rfl⟩ := List.length_eq_two.mp (not_not.mp hwrong)
  rw [Tree.exactPair, htree]
  exact ⟨(Tree.items_of_children hitems).symm, hheads.lays⟩

section Pair

variable {batch : Batch n} {both : Tree n × Tree n} (h : Pairs tape t batch both)
include h

theorem Pairs.fst : (pair tape batch).1.1 = both.1.value := by
  obtain ⟨rest, hlays, -⟩ := h.lays
  obtain ⟨-, hkind, -⟩ := hlays.item
  unfold pair
  dsimp only
  rw [tryValue_eq]
  exact congrArg valueOf hkind

/-- Behind a leaf is the second child. -/
theorem Pairs.behind (hleaf : both.1.items = []) :
    ∃ rest, Lays tape.pool (tape.pool.next batch.next) (Tree.entriesAll [both.2] ++ rest) ∧
      ((Tree.entriesAll [both.2] ++ rest).map Prod.fst).Nodup := by
  obtain ⟨rest, hlays, hnodup⟩ := h.lays
  obtain ⟨-, -, hnext⟩ := hlays.item
  rw [hleaf] at hnext
  rw [Tree.entriesAll, Tree.entries_eq, hleaf, List.append_assoc, List.map_append,
    List.nodup_append] at hnodup
  exact ⟨rest, hnext, hnodup.2.1⟩

theorem Pairs.snd (hleaf : both.1.items = []) : (pair tape batch).1.2 = both.2.value := by
  obtain ⟨rest, hlays, -⟩ := h.behind hleaf
  obtain ⟨-, hkind, -⟩ := hlays.item
  unfold pair
  dsimp only
  rw [tryValue_eq]
  exact congrArg valueOf hkind

end Pair

theorem items_of_bulk {span : Span} (h : bulk t.value = (.ok span : Except (Fault P) _)) :
    t.items = [] := by
  cases t <;> first | rfl | cases h

theorem items_of_scanCursor {offset : ℕ}
    (h : scanCursor frame t.value = (.ok offset : Except (Fault P) _)) : t.items = [] := by
  cases t <;> first | rfl | cases h

theorem bulkPair_eq (h : Holds tape t) :
    Tape.bulkPair tape = (t.bulkPair : Except (Fault P) _) := by
  have hagree := @exactPair_agree n P tape t h
  unfold Tape.bulkPair Tree.bulkPair
  rcases hbatch : (Tape.exactPair tape : Except (Fault P) _) with fault | batch
  · rw [hbatch] at hagree
    rw [hagree.of_error]
    rfl
  rw [hbatch] at hagree
  obtain ⟨both, hboth, hpairs⟩ := hagree.of_ok
  rw [hboth]
  change (bulk (pair tape batch).1.1).bind _ = (bulk both.1.value).bind _
  rw [hpairs.fst]
  cases hfirst : (bulk both.1.value : Except (Fault P) _) with
  | error fault => rfl
  | ok span =>
    change (bulk (pair tape batch).1.2).bind _ = (bulk both.2.value).bind _
    rw [hpairs.snd (items_of_bulk hfirst)]

theorem coordinate_eq (h : Holds tape t) :
    Tape.coordinate tape std frame = t.coordinate std frame := by
  have hagree := @exactPair_agree n P tape t h
  unfold Tape.coordinate Tree.coordinate
  rcases hbatch : (Tape.exactPair tape : Except (Fault P) _) with fault | batch
  · rw [hbatch] at hagree
    rw [hagree.of_error]
    rfl
  rw [hbatch] at hagree
  obtain ⟨both, hboth, hpairs⟩ := hagree.of_ok
  rw [hboth]
  change ((pair tape batch).1.1.mapError Fault.server).bind _ = (both.1.number std frame).bind _
  rw [hpairs.fst, Tree.number, bind_bind]
  cases hvalue : both.1.value with
  | error span => rfl
  | ok value =>
    change (float std frame value).bind _ = (float std frame value).bind _
    cases hfloat : float std frame value with
    | error fault => rfl
    | ok bits =>
      have hnumber := (number_of_value std frame hvalue).trans hfloat
      change ((pair tape batch).1.2.mapError Fault.server).bind _ = (both.2.number std frame).bind _
      rw [hpairs.snd (items_of_number hnumber), Tree.number, bind_bind]
      rfl

/-- The bulks below the second child. -/
def Tree.keyNodes (items : List (Tree n)) (key : Fin n) : Prop :=
  ∃ second, items[1]? = some second ∧ Tree.Nodes second.items Tree.isBulk key

/-- The array behind the offset of a scan. -/
theorem scanPair_agree (h : Holds tape t) {batch : Batch n} {both : Tree n × Tree n}
    (hpairs : Pairs tape t batch both) (hleaf : both.1.items = []) :
    Agree (fun array items => Heads tape items (region tape array)) (scanPair tape batch).2
      both.2.children := by
  have hsnd := hpairs.snd hleaf
  obtain ⟨rest, hlays, hnodup⟩ := hpairs.behind hleaf
  obtain ⟨-, -, hnext⟩ := hlays.item
  rw [Tree.entriesAll, Tree.entries_eq, List.cons_append, List.cons_append, List.map_cons,
    List.nodup_cons, List.append_assoc] at hnodup
  have hmem : both.2 ∈ t.items := by
    rw [hpairs.items]
    exact List.mem_cons_of_mem _ List.mem_cons_self
  unfold scanPair
  dsimp only
  rw [hsnd]
  exact @array_agree n tape both.2 _ (pair tape batch).2 (h.child_lt hmem) hnext hnodup.2

theorem scan_agree (h : Holds tape t) :
    Agree (fun lease reply => lease.1 = reply.1 ∧
        YieldsBulks 1 (Tree.keyNodes t.items) lease.2 reply.2)
      (Tape.scan tape frame) (t.scan frame : Except (Fault P) _) := by
  have hagree := @exactPair_agree n P tape t h
  unfold Tape.scan Tape.leaseScan Tree.scan
  rcases hbatch : (Tape.exactPair tape : Except (Fault P) _) with fault | batch
  · rw [hbatch] at hagree
    rw [hagree.of_error]
    rfl
  rw [hbatch] at hagree
  obtain ⟨both, hboth, hpairs⟩ := hagree.of_ok
  rw [hboth]
  change Agree _ (((scanCursor frame (scanPair tape batch).1).bind _).bind _)
    ((scanCursor frame both.1.value).bind _)
  rw [show (scanPair tape batch).1 = both.1.value from hpairs.fst, bind_bind]
  cases hoffset : (scanCursor frame both.1.value : Except (Fault P) _) with
  | error fault => rfl
  | ok offset =>
    have harray := scanPair_agree h hpairs (items_of_scanCursor frame hoffset)
    change Agree _ ((((scanPair tape batch).2.mapError (Fault.mismatch .array)).bind _).bind _)
      ((both.2.children.mapError (Fault.mismatch .array)).bind _)
    rw [bind_bind]
    rcases hscan : (scanPair tape batch).2 with cause | array
    · rw [hscan] at harray
      rw [harray.of_error]
      rfl
    · rw [hscan] at harray
      obtain ⟨items, hitems, hheads⟩ := harray.of_ok
      rw [hitems]
      obtain rfl := Tree.items_of_children hitems
      refine (@leaseBulks_agree n P tape _ _ (Tree.keyNodes t.items) hheads 1 Nat.one_pos ?_).bind ?_
      · intro key span hmem
        refine ⟨both.2, ?_, _, hmem, rfl, rfl⟩
        rw [hpairs.items]
        rfl
      · intro keys spans hkeys
        exact ⟨rfl, hkeys⟩

/-! ## Discarding -/

/-- The first error of a list of nodes. -/
def errorFrom : List (Fin n × Kind) → Except Span Unit
  | [] => .ok ()
  | entry :: rest => (valueOf entry.2).bind fun _ => errorFrom rest

theorem errorFrom_append : ∀ xs ys : List (Fin n × Kind),
    errorFrom (xs ++ ys) = (errorFrom xs).bind fun _ => errorFrom ys
  | [], _ => rfl
  | entry :: xs, ys => by
    rw [List.cons_append, errorFrom, errorFrom, errorFrom_append xs ys, bind_bind]

mutual

theorem discard_eq : ∀ t : Tree n, t.discard = errorFrom t.entries
  | .array _ items => discardAll_eq items
  | .nil _ | .ok _ | .status .. | .error .. | .integer .. | .bulk .. => rfl

theorem discardAll_eq : ∀ items : List (Tree n),
    Tree.discardAll items = errorFrom (Tree.entriesAll items)
  | [] => rfl
  | item :: items => by
    rw [Tree.discardAll, Tree.entriesAll, errorFrom_append, discard_eq item, discardAll_eq items]

end

/-- The loop goes through the nodes, up to the first error. -/
theorem discardFrom_eq : ∀ {entries : List (Fin n × Kind)} {cursor : Cursor n},
    Lays tape.pool cursor.next entries → cursor.remaining = entries.length →
      entries.length < 2 ^ 32 → Tape.discardFrom tape entries.length cursor = errorFrom entries
  | [], _, _, _, _ => rfl
  | entry :: rest, cursor, hlays, hremaining, hlt => by
    rw [List.length_cons] at hremaining hlt
    have hbatch := @batch_eq n cursor 1 (by omega) (by omega) Nat.one_pos
    rw [hremaining, Nat.add_sub_cancel] at hbatch
    have htake := @take_eq n entry rest tape ⟨cursor.next, rest.length + 1⟩ hlays
    rw [List.length_cons, Tape.discardFrom, hbatch]
    dsimp only
    rw [htake, errorFrom]
    cases valueOf entry.2 with
    | error span => rfl
    | ok value =>
      exact @discardFrom_eq rest ⟨tape.pool.next cursor.next, rest.length⟩ hlays.cons.2.2 rfl
        (by omega)

theorem discard_agree (h : Holds tape t) : Tape.discard tape = t.discard := by
  have hlt := h.lt
  rw [h.len] at hlt
  rw [Tape.discard, h.len, discardFrom_eq h.lays h.len hlt, discard_eq]

/-! ## Decoding on the tape -/

/-- Decoding on the tape of a value is decoding on its tree. The iterators of a region give
the elements of the tree decoder, count them down, and read only nodes of the value of the
kind they are for ; and the numbers written back are the only nodes that change. -/
theorem decoders_agree (h : Holds tape t) :
    (∀ width, 0 < width → Agree (YieldsBulks width (Tree.Nodes t.items Tree.isBulk))
        (Tape.bulks tape width) (t.bulks width : Except (Fault P) _)) ∧
      Agree (YieldsOptional (Tree.Nodes t.items Tree.isOptional)) (Tape.optional tape)
        (t.optional : Except (Fault P) _) ∧
      (Agree (YieldsScored (Tree.scoredNodes t.items)) (Tape.scored tape std frame).1
          (t.scored std frame) ∧
        Rewritten tape.pool (Tape.scored tape std frame).2
          (Tree.numberKeys std frame (Tree.scores t.items))) ∧
      (Agree (YieldsCoordinates (Tree.positionNodes t.items)) (Tape.coordinates tape std frame).1
          (t.coordinates std frame) ∧
        Rewritten tape.pool (Tape.coordinates tape std frame).2
          (Tree.numberKeys std frame (Tree.axes t.items))) ∧
      Agree (fun lease reply => lease.1 = reply.1 ∧
          YieldsBulks 1 (Tree.keyNodes t.items) lease.2 reply.2)
        (Tape.scan tape frame) (t.scan frame : Except (Fault P) _) ∧
      Tape.bulkPair tape = (t.bulkPair : Except (Fault P) _) ∧
      Tape.coordinate tape std frame = t.coordinate std frame ∧
      Tape.discard tape = t.discard :=
  ⟨fun _ hwidth => bulks_agree h hwidth, optionals_agree h, (scored_agree std frame h).symm,
    (coordinates_agree std frame h).symm, scan_agree frame h, bulkPair_eq h,
    coordinate_eq std frame h, discard_agree h⟩

end Replies

/-- The tape of two zeros. -/
def zeros : Tape 3 :=
  ⟨⟨fun key => if key.val = 0 then .new (.ofNat 3 1) (.array 2)
      else if key.val = 1 then .new (.ofNat 3 2) (.integer 0)
      else .new (.ofNat 3 0) (.integer 0), none⟩, .ofNat 3 2, 3⟩

def zerosTree : Tree 3 :=
  .array (.ofNat 3 0) [.integer (.ofNat 3 1) 0, .integer (.ofNat 3 2) 0]

/-- Zero has no bits. -/
def zeroFloats : Floats Unit :=
  ⟨fun _ => none, fun _ => .error (), fun value => value.toUInt64⟩

theorem decoders_agree_zeros : Tape.coordinate zeros zeroFloats [] = .ok (0, 0) := by
  have h : Holds zeros zerosTree :=
    ⟨⟨by decide, by decide⟩, by decide, by decide, by decide⟩
  exact (decoders_agree zeroFloats [] h).2.2.2.2.2.2.1

/-! ## The tapes of the parser -/

mutual

/-- The value of a tree. -/
def Tree.reply (frame : List UInt8) : Tree n → Reply
  | .nil _ => .nil
  | .ok _ => .ok
  | .status _ span => .status (span.text frame)
  | .error _ span => .error (span.text frame)
  | .integer _ value => .integer value.toInt
  | .bulk _ span => .bulk (span.text frame)
  | .array _ items => .array (Tree.replies frame items)

def Tree.replies (frame : List UInt8) : List (Tree n) → List Reply
  | [] => []
  | item :: items => Tree.reply frame item :: Tree.replies frame items

end

theorem length_replies (frame : List UInt8) : ∀ items : List (Tree n),
    (Tree.replies frame items).length = items.length
  | [] => rfl
  | _ :: items => congrArg (· + 1) (length_replies frame items)

/-- The tree of one node. -/
def Tree.leaf (key : Fin n) : Kind → Tree n
  | .nil => .nil key
  | .ok => .ok key
  | .status span => .status key span
  | .error span => .error key span
  | .integer value => .integer key value
  | .bulk span => .bulk key span
  | .array _ => .array key []

mutual

/-- Nodes that list a value are those of a tree of it. -/
theorem tree_of_listing (frame : List UInt8) : ∀ {value : Reply} {entries : List (Fin n × Kind)},
    entries.map (fun entry => entry.2.event frame) = value.listing →
      ∃ t : Tree n, t.entries = entries ∧ t.reply frame = value
  | .array items, [], h => nomatch h
  | .array items, (key, kind) :: rest, h => by
    rw [List.map_cons, Reply.listing, List.cons.injEq] at h
    obtain ⟨children, hentries, hreplies⟩ := trees_of_listing frame h.2
    have hlen : children.length = items.length := by
      rw [← length_replies frame, hreplies]
    cases kind with
    | array len =>
      have hcount : UInt32.ofNat children.length = len := by
        rw [hlen, ← Event.array.inj h.1]
        exact UInt32.ofNat_toNat
      refine ⟨.array key children, ?_, congrArg Reply.array hreplies⟩
      rw [Tree.entries, hentries, hcount]
    | _ => exact nomatch h.1
  | .nil, entries, h | .ok, entries, h | .status _, entries, h | .error _, entries, h
  | .integer _, entries, h | .bulk _, entries, h => by
    obtain ⟨⟨key, kind⟩, rfl, hkind⟩ := List.map_eq_singleton_iff.mp h
    refine ⟨.leaf key kind, ?_⟩
    cases kind
    all_goals cases hkind
    all_goals exact ⟨rfl, rfl⟩

theorem trees_of_listing (frame : List UInt8) : ∀ {values : List Reply}
    {entries : List (Fin n × Kind)},
    entries.map (fun entry => entry.2.event frame) = Reply.listingAll values →
      ∃ items : List (Tree n), Tree.entriesAll items = entries ∧ Tree.replies frame items = values
  | [], [], _ => ⟨[], rfl, rfl⟩
  | [], _ :: _, h => nomatch h
  | value :: values, entries, h => by
    obtain ⟨front, back, rfl, hfront, hback⟩ := List.map_eq_append_iff.mp h
    obtain ⟨t, hentries, hreply⟩ := tree_of_listing frame hfront
    obtain ⟨items, hentriesAll, hreplies⟩ := trees_of_listing frame hback
    refine ⟨t :: items, ?_, ?_⟩
    · rw [Tree.entriesAll, hentries, hentriesAll]
    · rw [Tree.replies, hreply, hreplies]

end

/-- A tape of the store that lists a value holds a tree of it. -/
theorem holds_of_listing {ι : Type} {s : Tapes n ι} (hinv : s.Inv) (hexact : s.Exact)
    (frame : List UInt8) {tail : Fin n} (htail : (s.tapes tail).isSome)
    (hlt : s.len (.tape tail) < 2 ^ 32) {value : Reply}
    (hvalue : (s.values (.tape tail)).map (Kind.event frame) = value.listing) :
    ∃ t : Tree n, Holds (s.stored frame tail).nodes t ∧ t.reply frame = value := by
  obtain ⟨lists, hholds⟩ := hinv
  have hring := hholds.rings.ring (show s.tail (.tape tail) = some tail from if_pos htail)
  have hlen := hexact (.tape tail) (by simp)
  rw [hholds.values_eq, List.map_map] at hvalue
  rw [hholds.values_eq, List.length_map] at hlen
  obtain ⟨t, hentries, hreply⟩ := @tree_of_listing n frame value
    ((lists (.tape tail)).map fun key => (key, s.pool.kind key)) (by
      rw [List.map_map]
      exact hvalue)
  have hkeys : t.entries.map Prod.fst = lists (.tape tail) := by
    rw [hentries, List.map_map]
    exact List.map_id _
  have hcount : t.entries.length = (lists (.tape tail)).length := by
    rw [hentries, List.length_map]
  refine ⟨t, ⟨⟨?_, ?_⟩, ?_, ?_, hlt⟩, hreply⟩
  · rw [hkeys, hcount]
    exact hring.walk_eq
  · intro entry hentry
    rw [hentries] at hentry
    obtain ⟨key, -, rfl⟩ := List.mem_map.mp hentry
    rfl
  · rw [hcount]
    exact hlen
  · rw [hkeys]
    exact hring.nodup

end Cartel.Redis.Decode
