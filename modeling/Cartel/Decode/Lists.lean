import Cartel.Decode.Tree

/-!
# Lists of bulks, scores and coordinates

The checking loops go through the children of the top-level array. Bulks and optional bulks
are checked only (`checkFrom_eq`), scores and coordinates are written back
(`scoredFrom_spec`, `coordinatesFrom_spec`) : the pool changes in the numbers accepted so
far, and nowhere else. A region accepted holds one element after the other, so that its
iterator gives the elements the tree decoder gives (`Yields`).
-/

namespace Cartel.Redis.Decode

open Cartel.Redis.Parser

variable {n : ℕ} {P E : Type}

/-! ## Elements one by one -/

@[simp] theorem length_chunks {A : Type} (width : ℕ) : ∀ (count : ℕ) (xs : List A),
    (Tree.chunks width count xs).length = count
  | 0, _ => rfl
  | count + 1, xs => congrArg (· + 1) (length_chunks width count (xs.drop width))

theorem forall₂_of_mapM {A B : Type} {f : A → Except E B} : ∀ {xs : List A} {ys : List B},
    xs.mapM f = .ok ys → List.Forall₂ (fun x y => f x = .ok y) xs ys
  | [], ys, h => by
    cases h
    exact .nil
  | x :: xs, ys, h => by
    rw [List.mapM_cons] at h
    cases hx : f x with
    | error e =>
      rw [hx] at h
      cases h
    | ok y =>
      rw [hx] at h
      cases hxs : xs.mapM f with
      | error e =>
        rw [hxs] at h
        cases h
      | ok rest =>
        rw [hxs] at h
        cases h
        exact .cons hx (forall₂_of_mapM hxs)

theorem exists_of_mapM {A B : Type} {f : A → Except E B} {xs : List A} {ys : List B}
    (h : xs.mapM f = .ok ys) {x : A} (hx : x ∈ xs) : ∃ y, f x = .ok y := by
  have hall := forall₂_of_mapM h
  clear h
  induction hall with
  | nil => cases hx
  | cons hy _ ih =>
    rcases List.mem_cons.mp hx with rfl | hx
    · exact ⟨_, hy⟩
    · exact ih hx

/-- Elements that a function gives from where they were read. -/
theorem eq_map_of_mapM {A B : Type} {f : A → Except E B} {g : A → B} {xs : List A} {ys : List B}
    (h : xs.mapM f = .ok ys) (hg : ∀ x ∈ xs, ∀ y, f x = .ok y → g x = y) : ys = xs.map g := by
  have hall := forall₂_of_mapM h
  clear h
  induction hall with
  | nil => rfl
  | cons hy _ ih =>
    rw [List.map_cons, hg _ List.mem_cons_self _ hy,
      ← ih fun x hx => hg x (List.mem_cons_of_mem _ hx)]

/-! ## Checked regions -/

/-- What a loop does with one node. -/
def admitted (admits : Value → Bool) (t : Tree n) : Except Mismatch Unit :=
  match t.value with
  | .error span => .error (.server span)
  | .ok value => if admits value then .ok () else .error (.value value)

theorem admitted_bulk (t : Tree n) :
    t.bulkSpan.map (fun _ => ()) = admitted Value.isBulk t := by
  unfold Tree.bulkSpan admitted
  rcases t.value with span | value
  · rfl
  · cases value <;> rfl

theorem admitted_optional (t : Tree n) :
    t.optionalSpan.map (fun _ => ()) = admitted Value.isOptional t := by
  unfold Tree.optionalSpan admitted
  rcases t.value with span | value
  · rfl
  · cases value <;> rfl

/-- The nodes of trees with nothing below them. -/
theorem entriesAll_leaves {items : List (Tree n)} (h : ∀ t ∈ items, t.items = []) :
    Tree.entriesAll items = items.map fun t => (t.key, t.kind) := by
  induction items with
  | nil => rfl
  | cons t items ih =>
    rw [Tree.entriesAll, Tree.entries_eq, h t List.mem_cons_self,
      ih fun other hother => h other (List.mem_cons_of_mem _ hother)]
    rfl

section Checks

variable {tape : Tape n} {admits : Value → Bool} {A : Type} {view : Tree n → Except Mismatch A}

theorem items_of_admitted (hadmits : ∀ len, admits (.array len) = false) {t : Tree n}
    (h : admitted admits t = .ok ()) : t.items = [] := by
  unfold admitted at h
  cases hvalue : t.value with
  | error span =>
    rw [hvalue] at h
    cases h
  | ok value =>
    rw [hvalue] at h
    refine Tree.items_of_value hvalue ?_
    rintro len rfl
    simp [hadmits len] at h

theorem items_of_view (hadmits : ∀ len, admits (.array len) = false)
    (hview : ∀ t, (view t).map (fun _ => ()) = admitted admits t) {t : Tree n} {a : A}
    (h : view t = .ok a) : t.items = [] := by
  refine items_of_admitted hadmits ?_
  rw [← hview, h]
  rfl

/-- The loop takes the children in order, up to the first that is not admitted. -/
theorem checkFrom_eq (hadmits : ∀ len, admits (.array len) = false)
    (hview : ∀ t, (view t).map (fun _ => ()) = admitted admits t) :
    ∀ {items : List (Tree n)} {cursor : Cursor n} {rest : List (Fin n × Kind)},
      Lays tape.pool cursor.next (Tree.entriesAll items ++ rest) →
      cursor.remaining = items.length → items.length < 2 ^ 32 →
      checkFrom tape admits items.length cursor = (items.mapM view).map fun _ => ()
  | [], cursor, rest, _, _, _ => rfl
  | t :: items, cursor, rest, hlays, hremaining, hlt => by
    rw [List.length_cons] at hremaining hlt
    obtain ⟨hbatch, htake⟩ := take_item hlays hremaining hlt
    obtain ⟨-, -, hnext⟩ := hlays.item
    have hfirst := hview t
    unfold admitted at hfirst
    rw [List.length_cons, checkFrom, hbatch, List.mapM_cons]
    dsimp only
    rw [htake]
    cases hvalue : t.value with
    | error span =>
      rw [hvalue] at hfirst
      rw [eq_error_of_map hfirst]
      rfl
    | ok value =>
      rw [hvalue] at hfirst
      dsimp only [Except.map] at hfirst ⊢
      split_ifs at hfirst ⊢ with hadmit
      · obtain ⟨a, ha⟩ := eq_ok_of_map hfirst
        rw [items_of_view hadmits hview ha, Tree.entriesAll, List.nil_append] at hnext
        let behind : Cursor n := ⟨tape.pool.next cursor.next, items.length⟩
        have ih := checkFrom_eq hadmits hview (show Lays _ behind.next _ from hnext) rfl (by omega)
        rw [ih, ha]
        cases items.mapM view <;> rfl
      · rw [eq_error_of_map hfirst]
        rfl

end Checks

/-! ## Reading a region -/

section Regions

variable {pool : Pool n} {A : Type}

/-- Reading trees with nothing below them reads their nodes. -/
theorem readFrom_eq (view : Node n → A) : ∀ {items : List (Tree n)} {key : Fin n}
    {rest : List (Fin n × Kind)}, (∀ t ∈ items, t.items = []) →
      Lays pool key (Tree.entriesAll items ++ rest) →
      (readFrom pool view items.length key).1 = items.map (fun t => view (pool.nodes t.key)) ∧
        Lays pool (readFrom pool view items.length key).2 rest ∧
        Lib.walk pool.next items.length key = items.map Tree.key
  | [], _, _, _, h => ⟨rfl, h, rfl⟩
  | t :: items, key, rest, hleaf, h => by
    obtain ⟨rfl, -, hnext⟩ := h.item
    rw [hleaf t List.mem_cons_self, Tree.entriesAll, List.nil_append] at hnext
    obtain ⟨hviews, hrest, hwalk⟩ :=
      readFrom_eq view (fun other hother => hleaf other (List.mem_cons_of_mem _ hother)) hnext
    refine ⟨?_, hrest, ?_⟩
    · exact congrArg (view (pool.nodes t.key) :: ·) hviews
    · exact congrArg (t.key :: ·) hwalk

/-- An iterator over batches goes through the children. -/
theorem yields_batches {r : Region n} (view : Node n → A) {width : ℕ} (hwidth : 0 < width)
    {allowed : Fin n → Prop} : ∀ {count : ℕ} {items : List (Tree n)} {cursor : Cursor n}
    {rest : List (Fin n × Kind)}, items.length = count * width → cursor.remaining = items.length →
      items.length < 2 ^ 32 → (∀ t ∈ items, t.items = []) → (∀ t ∈ items, allowed t.key) →
      Lays r.tape.pool cursor.next (Tree.entriesAll items ++ rest) →
      Yields (fun it => it.batch view width) (fun it => it.sizeHint width)
        (fun it => it.reads width) allowed ⟨r, cursor⟩
        (Tree.chunks width count (items.map fun t => view (r.tape.pool.nodes t.key)))
  | 0, items, cursor, rest, hlen, hremaining, _, _, _, _ => by
    have hzero : cursor.remaining = 0 := by omega
    refine .done ?_ ?_ ?_
    · unfold Iter.batch
      rw [batch_eq_none (show cursor.remaining < width by omega)]
    · unfold Iter.sizeHint
      rw [hzero, Nat.zero_div]
    · exact if_neg (by dsimp only; omega)
  | count + 1, items, cursor, rest, hlen, hremaining, hlt, hleaf, hallowed, hlays => by
    rw [Nat.succ_mul] at hlen
    have hwide : width ≤ items.length := by omega
    have htake : (items.take width).length = width := List.length_take_of_le hwide
    have hsplit : Tree.entriesAll items ++ rest = Tree.entriesAll (items.take width) ++
        (Tree.entriesAll (items.drop width) ++ rest) := by
      rw [← List.append_assoc, ← entriesAll_append, List.take_append_drop]
    rw [hsplit] at hlays
    obtain ⟨hviews, hrest, hwalk⟩ :=
      readFrom_eq view (fun t ht => hleaf t (List.mem_of_mem_take ht)) hlays
    rw [htake] at hviews hrest hwalk
    have hbatch := @batch_eq n cursor width (by omega) (by omega) hwidth
    rw [Tree.chunks]
    let behind : Cursor n :=
      ⟨(readFrom r.tape.pool view width cursor.next).2, cursor.remaining - width⟩
    refine @Yields.item n _ _ _ _ _ _ ⟨r, behind⟩ _ _ ?_ ?_ ?_ ?_
    · unfold Iter.batch
      dsimp only
      rw [hbatch]
      dsimp only [Batch.finish]
      rw [hviews, List.map_take, Nat.add_sub_cancel]
    · rw [length_chunks]
      unfold Iter.sizeHint
      dsimp only
      rw [hremaining, hlen, ← Nat.succ_mul, Nat.mul_div_cancel _ hwidth]
    · intro key hkey
      unfold Iter.reads at hkey
      dsimp only at hkey
      rw [if_pos (show width ≤ cursor.remaining by omega), hwalk] at hkey
      obtain ⟨t, ht, rfl⟩ := List.mem_map.mp hkey
      exact hallowed t (List.mem_of_mem_take ht)
    · have hdrop : (items.drop width).length = count * width := by
        rw [List.length_drop]
        omega
      rw [← List.map_drop]
      refine yields_batches view hwidth hdrop ?_ ?_
        (fun t ht => hleaf t (List.mem_of_mem_drop ht))
        (fun t ht => hallowed t (List.mem_of_mem_drop ht)) hrest
      · change cursor.remaining - width = _
        rw [List.length_drop]
        omega
      · rw [List.length_drop]
        omega

/-- An iterator over optional bulks is one over batches of one node. -/
theorem yields_optional {allowed : Fin n → Prop} : ∀ {xs : List (Option Span)} {it : Iter n},
    Yields (fun it => it.batch maybeSpan 1) (fun it => it.sizeHint 1) (fun it => it.reads 1) allowed
      it (Tree.chunks 1 xs.length xs) →
    Yields Iter.nextOptional (fun it => it.sizeHint 1) (fun it => it.reads 1) allowed it xs
  | [], it, h => by
    cases h with
    | done hnext hhint hreads =>
      refine .done ?_ hhint hreads
      unfold Iter.nextOptional
      rw [hnext]
  | x :: xs, it, h => by
    cases h with
    | item hnext hhint hreads hrest =>
      rw [length_chunks] at hhint
      refine .item ?_ hhint hreads (yields_optional hrest)
      unfold Iter.nextOptional
      rw [hnext]
      rfl

end Regions

/-! ## Bulks -/

theorem bulkSpan_eq_ok {t : Tree n} {span : Span} (h : t.bulkSpan = .ok span) :
    t = .bulk t.key span := by
  cases t <;> cases h
  rfl

theorem optionalSpan_eq_ok {t : Tree n} {span : Option Span} (h : t.optionalSpan = .ok span) :
    (t = .nil t.key ∧ span = none) ∨ ∃ text, t = .bulk t.key text ∧ span = some text := by
  cases t <;> cases h
  · exact Or.inl ⟨rfl, rfl⟩
  · exact Or.inr ⟨_, rfl, rfl⟩

/-- The kinds of the children of a region. -/
theorem Heads.kind {tape : Tape n} {items : List (Tree n)} {r : Region n} (h : Heads tape items r)
    {t : Tree n} (ht : t ∈ items) : tape.pool.kind t.key = t.kind := by
  obtain ⟨rest, hlays, -⟩ := h.lays
  refine hlays.kinds (t.key, t.kind) (List.mem_append_left _ ?_)
  obtain ⟨front, back, rfl⟩ := List.append_of_mem ht
  rw [entriesAll_append, Tree.entriesAll, Tree.entries_eq]
  exact List.mem_append_right _ (List.mem_append_left _ List.mem_cons_self)

section Bulks

variable {tape : Tape n} {items : List (Tree n)} {r : Region n} {allowed : Fin n → Prop}

/-- What the iterator over the bulks of a region gives. -/
def YieldsBulks (width : ℕ) (allowed : Fin n → Prop) (r : Region n) (spans : List (List Span)) :
    Prop :=
  r.len = spans.length ∧ Yields (fun it => it.nextBulks width) (fun it => it.sizeHint width)
    (fun it => it.reads width) allowed r.iter spans

theorem leaseBulks_agree (h : Heads tape items r) {width : ℕ} (hwidth : 0 < width)
    (hallowed : ∀ key span, Tree.bulk key span ∈ items → allowed key) :
    Agree (YieldsBulks width allowed) (Tape.leaseBulks r width)
      (Tree.groups width items : Except (Fault P) _) := by
  obtain ⟨rest, hlays, -⟩ := h.lays
  have hcheck := checkFrom_eq (fun _ => rfl) admitted_bulk hlays h.remaining h.lt
  unfold Tape.leaseBulks Region.bulks Tree.groups
  rw [h.len, h.on, h.remaining, hcheck]
  split_ifs with hmod
  · rfl
  · cases hspans : items.mapM Tree.bulkSpan with
    | error cause => rfl
    | ok spans =>
      have hviews := eq_map_of_mapM hspans (g := fun t =>
        Span.fromStored (tape.pool.nodes t.key).payload) fun t ht span hspan => by
          refine fromStored_of_kind ((h.kind ht).trans ?_)
          rw [bulkSpan_eq_ok hspan]
          rfl
      have hbulk : ∀ t ∈ items, ∃ span, t = .bulk t.key span := by
        intro t ht
        obtain ⟨span, hspan⟩ := exists_of_mapM hspans ht
        exact ⟨span, bulkSpan_eq_ok hspan⟩
      have hcount : items.length = items.length / width * width := by
        rw [Nat.div_mul_cancel (Nat.dvd_of_mod_eq_zero (not_not.mp hmod))]
      refine ⟨(length_chunks width _ spans).symm, ?_⟩
      rw [hviews]
      refine yields_batches (r := ⟨tape, r.start, items.length / width⟩) _ hwidth hcount h.remaining
        h.lt ?_ ?_ hlays
      · intro t ht
        obtain ⟨span, hspan⟩ := hbulk t ht
        rw [hspan]
        rfl
      · intro t ht
        obtain ⟨span, hspan⟩ := hbulk t ht
        exact hallowed t.key span (hspan ▸ ht)

theorem optional_agree (h : Heads tape items r)
    (hallowed : ∀ t ∈ items, (t = .nil t.key ∨ ∃ span, t = .bulk t.key span) → allowed t.key) :
    Agree (fun r spans => r.len = spans.length ∧
        Yields Iter.nextOptional (fun it => it.sizeHint 1) (fun it => it.reads 1) allowed r.iter
          spans)
      r.optional (items.mapM Tree.optionalSpan) := by
  obtain ⟨rest, hlays, -⟩ := h.lays
  have hcheck := checkFrom_eq (fun _ => rfl) admitted_optional hlays h.remaining h.lt
  unfold Region.optional
  rw [h.on, h.remaining, hcheck]
  cases hspans : items.mapM Tree.optionalSpan with
  | error cause => rfl
  | ok spans =>
    have hcases : ∀ t ∈ items, ∃ span, (t = .nil t.key ∧ span = none) ∨
        ∃ text, t = .bulk t.key text ∧ span = some text := by
      intro t ht
      obtain ⟨span, hspan⟩ := exists_of_mapM hspans ht
      exact ⟨span, optionalSpan_eq_ok hspan⟩
    have hviews := eq_map_of_mapM hspans (g := fun t => maybeSpan (tape.pool.nodes t.key))
      fun t ht span hspan => by
        rw [maybeSpan_eq, show (tape.pool.nodes t.key).kind = t.kind from h.kind ht]
        rcases optionalSpan_eq_ok hspan with ⟨ht, rfl⟩ | ⟨text, ht, rfl⟩ <;> rw [ht] <;> rfl
    have hlen : spans.length = items.length := by rw [hviews, List.length_map]
    refine ⟨h.len.trans hlen.symm, yields_optional ?_⟩
    rw [hlen, hviews]
    have hon := h.on
    subst hon
    refine yields_batches maybeSpan Nat.one_pos (Nat.mul_one _).symm h.remaining h.lt ?_ ?_ hlays
    · intro t ht
      obtain ⟨span, ⟨ht, -⟩ | ⟨text, ht, -⟩⟩ := hcases t ht <;> rw [ht] <;> rfl
    · intro t ht
      obtain ⟨span, ⟨hnil, -⟩ | ⟨text, hbulk, -⟩⟩ := hcases t ht
      · exact hallowed t ht (Or.inl hnil)
      · exact hallowed t ht (Or.inr ⟨text, hbulk⟩)

end Bulks

/-! ## Pools with numbers written -/

section Rewriting

variable {pool pool' pool'' : Pool n} {keys keys' : List (Fin n)}

theorem Rewritten.refl (pool : Pool n) (keys : List (Fin n)) : Rewritten pool pool keys :=
  ⟨rfl, fun _ => rfl, fun _ => rfl, fun _ _ => rfl⟩

theorem Rewritten.trans (h : Rewritten pool pool' keys) (h' : Rewritten pool' pool'' keys') :
    Rewritten pool pool'' (keys ++ keys') := by
  refine ⟨h'.free.trans h.free, fun key => (h'.next key).trans (h.next key),
    fun key => (h'.tag key).trans (h.tag key), fun key hkey => ?_⟩
  rw [List.mem_append, not_or] at hkey
  exact (h'.nodes key hkey.2).trans (h.nodes key hkey.1)

theorem Rewritten.mono (h : Rewritten pool pool' keys) (hsub : keys ⊆ keys') :
    Rewritten pool pool' keys' :=
  { h with nodes := fun key hkey => h.nodes key fun hmem => hkey (hsub hmem) }

/-- Writing one number. -/
theorem rewritten_set (pool : Pool n) (key : Fin n) (bits : UInt64) :
    Rewritten pool (pool.set key (withFloat (pool.nodes key) bits)) [key] := by
  refine ⟨rfl, fun other => ?_, fun other => ?_, fun other hother => ?_⟩
  · rw [Pool.next_set]
    split_ifs with h
    · rw [h]
      rfl
    · rfl
  · unfold Pool.set
    dsimp only
    by_cases h : other = key
    · subst h
      rw [Function.update_self]
      rfl
    · rw [Function.update_of_ne h]
  · exact Function.update_of_ne (fun h => hother (List.mem_singleton.mpr h)) ..

theorem payload_set (pool : Pool n) (key : Fin n) (bits : UInt64) :
    ((pool.set key (withFloat (pool.nodes key) bits)).nodes key).payload = bits := by
  unfold Pool.set
  dsimp only
  rw [Function.update_self]
  rfl

/-- Nodes that were not written are where they were. -/
theorem Rewritten.lays (h : Rewritten pool pool' keys) {key : Fin n}
    {entries : List (Fin n × Kind)} (hlays : Lays pool key entries)
    (hkeys : ∀ entry ∈ entries, entry.1 ∉ keys) : Lays pool' key entries := by
  have hnext : pool'.next = pool.next := funext h.next
  refine ⟨by rw [hnext]; exact hlays.walk, fun entry hentry => ?_⟩
  have hkind := hlays.kinds entry hentry
  unfold Pool.kind at hkind ⊢
  rw [h.nodes entry.1 (hkeys entry hentry)]
  exact hkind

end Rewriting

/-! ## Scores -/

theorem float_array (std : Floats P) (frame : List UInt8) (len : UInt32) :
    float std frame (.array len) = .error (.expected .float (.array len)) :=
  rfl

theorem number_of_value (std : Floats P) (frame : List UInt8) {t : Tree n} {v : Value}
    (h : t.value = .ok v) : t.number std frame = float std frame v := by
  rw [Tree.number, h]
  rfl

theorem score_of_member (std : Floats P) (frame : List UInt8) {pair : Tree n × Tree n}
    {span : Span} (h : pair.1.bulkSpan = .ok span) :
    Tree.score std frame pair = (pair.2.number std frame).map fun bits => (span, bits) := by
  rw [Tree.score, h]
  cases pair.2.number std frame <;> rfl

/-- A number has no nodes below it. -/
theorem items_of_number {std : Floats P} {frame : List UInt8} {t : Tree n} {bits : UInt64}
    (h : t.number std frame = .ok bits) : t.items = [] := by
  unfold Tree.number at h
  cases hvalue : t.value with
  | error span =>
    rw [hvalue] at h
    cases h
  | ok value =>
    rw [hvalue] at h
    refine Tree.items_of_value hvalue ?_
    rintro len rfl
    cases h

/-- The roots are among the nodes. -/
theorem keys_subset : ∀ items : List (Tree n),
    items.map Tree.key ⊆ (Tree.entriesAll items).map Prod.fst
  | [] => List.Subset.refl _
  | t :: items => by
    rw [Tree.entriesAll, Tree.entries_eq, List.map_cons, List.cons_append, List.map_cons,
      List.map_append]
    exact List.cons_subset_cons _
      (List.Subset.trans (keys_subset items) (List.subset_append_right ..))

theorem scores_subset : ∀ items : List (Tree n), Tree.scores items ⊆ items
  | [] => List.Subset.refl _
  | [_] => List.nil_subset _
  | member :: score :: items => List.Subset.trans
    (List.cons_subset_cons score (scores_subset items)) (List.subset_cons_self ..)

section Numbers

variable {std : Floats P} {frame : List UInt8} {ts : List (Tree n)} {t : Tree n}

theorem numberKeys_subset : Tree.numberKeys std frame ts ⊆ ts.map Tree.key :=
  List.map_subset _ (List.filter_subset' ..)

theorem numberKeys_cons {bits : UInt64} (h : t.number std frame = .ok bits) :
    Tree.numberKeys std frame (t :: ts) = t.key :: Tree.numberKeys std frame ts := by
  unfold Tree.numberKeys
  rw [List.filter_cons_of_pos (by rw [h]; rfl), List.map_cons]

end Numbers

section Written

variable (std : Floats P) (frame : List UInt8)

/-- A number, and its bits in the node. -/
structure Numbered (pool : Pool n) (t : Tree n) (bits : UInt64) : Prop where
  number : t.number std frame = .ok bits
  payload : (pool.nodes t.key).payload = bits

/-- The nodes of a pair with the element it was read as. -/
structure Scored (pool : Pool n) (pair : Tree n × Tree n) (x : Span × UInt64) : Prop where
  bulk : pair.1 = .bulk pair.1.key x.1
  member : .fromStored (pool.nodes pair.1.key).payload = x.1
  score : Numbered std frame pool pair.2 x.2

variable {std frame}

theorem Scored.leaf {pool : Pool n} {pair : Tree n × Tree n} {x : Span × UInt64}
    (h : Scored std frame pool pair x) : pair.1.items = [] := by
  rw [h.bulk]
  rfl

end Written

theorem length_pairs {A : Type} : ∀ {xs : List A}, xs.length % 2 = 0 →
    (Tree.pairs xs).length * 2 = xs.length
  | [], _ => rfl
  | [_], h => absurd h Nat.one_ne_zero
  | _ :: _ :: xs, h => by
    rw [List.length_cons, List.length_cons] at h
    have ih := @length_pairs A xs (by omega)
    rw [Tree.pairs, List.length_cons, List.length_cons, List.length_cons]
    omega

section Scores

variable (std : Floats P) (frame : List UInt8)

/-- The loop reads the pairs in order, up to the first that is not a member with a score,
and writes the scores it read. -/
theorem scoredFrom_spec : ∀ {items : List (Tree n)} {pool : Pool n} {cursor : Cursor n}
    {rest : List (Fin n × Kind)} {rounds : ℕ}, items.length % 2 = 0 → items.length ≤ rounds →
      cursor.remaining = items.length → items.length < 2 ^ 32 →
      Lays pool cursor.next (Tree.entriesAll items ++ rest) →
      ((Tree.entriesAll items ++ rest).map Prod.fst).Nodup →
      Rewritten pool (scoredFrom (float std frame) rounds pool cursor).2
          (Tree.numberKeys std frame (Tree.scores items)) ∧
        Agree (fun _ xs => List.Forall₂
            (Scored std frame (scoredFrom (float std frame) rounds pool cursor).2)
              (Tree.pairs items) xs)
          ((scoredFrom (float std frame) rounds pool cursor).1.mapError Score.fault)
          ((Tree.pairs items).mapM (Tree.score std frame))
  | [], pool, cursor, rest, rounds, _, _, hremaining, _, _, _ => by
    have hstop : scoredFrom (float std frame) rounds pool cursor = (.ok (), pool) := by
      cases rounds with
      | zero => rfl
      | succ rounds =>
        rw [scoredFrom, batch_eq_none (by rw [hremaining]; exact Nat.two_pos)]
    rw [hstop]
    exact ⟨.refl _ _, .nil⟩
  | [_], _, _, _, _, heven, _, _, _, _, _ => absurd heven Nat.one_ne_zero
  | member :: score :: items, pool, cursor, rest, 0, _, hrounds, _, _, _, _ =>
    absurd hrounds (by simp)
  | member :: score :: items, pool, cursor, rest, rounds + 1, heven, hrounds, hremaining, hlt,
      hlays, hnodup => by
    simp only [List.length_cons] at heven hrounds hremaining hlt
    have hbatch := @batch_eq n cursor 2 (by omega) (by omega) (by omega)
    rw [hremaining] at hbatch
    obtain ⟨hkey, hkind, hnext⟩ := hlays.item
    have hmember : tryValue (pool.nodes cursor.next) = member.value := by
      rw [tryValue_eq]
      exact congrArg valueOf hkind
    rw [scoredFrom, hbatch, Tree.pairs, List.mapM_cons]
    dsimp only
    rw [hmember]
    cases hvalue : member.value with
    | error span =>
      refine ⟨.refl _ _, ?_⟩
      rw [Tree.score, Tree.bulkSpan, hvalue]
      rfl
    | ok value =>
      dsimp only
      split_ifs with hbulk
      swap
      · refine ⟨.refl _ _, ?_⟩
        rw [Tree.score, Tree.bulkSpan, hvalue]
        cases value with
        | bulk span => exact absurd rfl hbulk
        | _ => rfl
      obtain ⟨span, rfl⟩ : ∃ span, value = .bulk span := by
        cases value with
        | bulk span => exact ⟨span, rfl⟩
        | _ => cases hbulk
      have hleaf : member.items = [] := Tree.items_of_value hvalue fun len => nofun
      rw [hleaf, Tree.entriesAll, List.nil_append] at hnext
      obtain ⟨hscore, hkind', hnext'⟩ := hnext.item
      have hnumber : tryValue (pool.nodes (pool.nodes cursor.next).next) = score.value := by
        rw [tryValue_eq]
        exact congrArg valueOf hkind'
      have hspan : member.bulkSpan = .ok span := by rw [Tree.bulkSpan, hvalue]
      rw [hnumber, score_of_member std frame hspan]
      cases hvalue' : score.value with
      | error span' =>
        refine ⟨.refl _ _, ?_⟩
        rw [Tree.number, hvalue']
        rfl
      | ok value' =>
        rw [number_of_value std frame hvalue']
        dsimp only
        cases hfloat : float std frame value' with
        | error cause => exact ⟨.refl _ _, rfl⟩
        | ok bits =>
          have hleaf' := items_of_number ((number_of_value std frame hvalue').trans hfloat)
          rw [hleaf', Tree.entriesAll, List.nil_append] at hnext'
          rw [Tree.entriesAll, Tree.entriesAll, Tree.entries_eq, Tree.entries_eq score, hleaf,
            hleaf', Tree.entriesAll, List.singleton_append, List.singleton_append, List.cons_append,
            List.cons_append, List.map_cons, List.map_cons, List.nodup_cons, List.nodup_cons]
            at hnodup
          have hset := rewritten_set pool score.key bits
          have hlays' := hset.lays hnext' fun entry hentry hmem =>
            hnodup.2.1 (List.mem_map.mpr ⟨entry, hentry, List.mem_singleton.mp hmem⟩)
          rw [← hscore] at hset hlays'
          obtain ⟨hrewritten, hagree⟩ := @scoredFrom_spec items _
            ⟨pool.next (pool.next cursor.next), items.length⟩ rest rounds (by omega) (by omega) rfl
            (by omega) hlays' hnodup.2.2
          have hnumber := (number_of_value std frame hvalue').trans hfloat
          have hkeys : [pool.next cursor.next] ++ Tree.numberKeys std frame (Tree.scores items) ⊆
              Tree.numberKeys std frame (Tree.scores (member :: score :: items)) := by
            rw [hscore, Tree.scores, Tree.scores, Tree.pairs, List.map_cons,
              numberKeys_cons hnumber]
            exact List.Subset.refl _
          have hall := (hset.trans hrewritten).mono hkeys
          have hsub : Tree.numberKeys std frame (Tree.scores items) ⊆
              (Tree.entriesAll items ++ rest).map Prod.fst := by
            rw [List.map_append]
            exact List.Subset.trans (List.Subset.trans numberKeys_subset
              (List.map_subset _ (scores_subset items)))
              (List.Subset.trans (keys_subset items) (List.subset_append_left ..))
          have hbits := congrArg Node.payload
            (hrewritten.nodes (pool.next cursor.next) fun hmem => hnodup.2.1 (hsub (hscore ▸ hmem)))
          rw [payload_set] at hbits
          refine ⟨hall, hagree.cons (span, bits) fun _ xs hxs => .cons ?_ hxs⟩
          refine ⟨bulkSpan_eq_ok hspan, ?_, hnumber, hscore ▸ hbits⟩
          rw [hkey] at hkind
          have hpayload := fromStored_of_kind (hkind.trans (congrArg Tree.kind (bulkSpan_eq_ok hspan)))
          rw [← hpayload]
          refine congrArg (fun node => Span.fromStored node.payload) (hall.nodes member.key ?_)
          rw [Tree.scores, Tree.pairs, List.map_cons, numberKeys_cons hnumber]
          exact fun hmem => hnodup.1 (List.cons_subset_cons _ hsub hmem)

/-- An iterator over members and scores goes through the pairs. -/
theorem yields_scored {pool : Pool n} {r : Region n} {allowed : Fin n → Prop}
    (hlinks : ∀ key, r.tape.pool.next key = pool.next key) :
    ∀ {items : List (Tree n)} {xs : List (Span × UInt64)} {cursor : Cursor n}
      {rest : List (Fin n × Kind)}, items.length % 2 = 0 → cursor.remaining = items.length →
      items.length < 2 ^ 32 → Lays pool cursor.next (Tree.entriesAll items ++ rest) →
      List.Forall₂ (Scored std frame r.tape.pool) (Tree.pairs items) xs →
      (∀ pair ∈ Tree.pairs items, allowed pair.1.key ∧ allowed pair.2.key) →
      Yields Iter.nextScored (fun it => it.sizeHint 2) (fun it => it.reads 2) allowed ⟨r, cursor⟩ xs
  | [], xs, cursor, rest, _, hremaining, _, _, hall, _ => by
    cases hall
    refine .done ?_ ?_ ?_
    · unfold Iter.nextScored
      rw [batch_eq_none (by rw [hremaining]; exact Nat.two_pos)]
    · unfold Iter.sizeHint
      exact Nat.div_eq_of_lt (by rw [hremaining]; exact Nat.two_pos)
    · exact if_neg (by rw [hremaining]; exact Nat.not_succ_le_zero 1)
  | [_], _, _, _, heven, _, _, _, _, _ => absurd heven Nat.one_ne_zero
  | member :: score :: items, xs, cursor, rest, heven, hremaining, hlt, hlays, hall, hallowed => by
    simp only [List.length_cons] at heven hremaining hlt
    rw [Tree.pairs] at hall
    cases hall with
    | @cons _ x _ xs hx hxs =>
    obtain ⟨hkey, -, hnext⟩ := hlays.item
    rw [hx.leaf, Tree.entriesAll, List.nil_append] at hnext
    obtain ⟨hscore, -, hnext⟩ := hnext.item
    rw [items_of_number hx.score.number, Tree.entriesAll, List.nil_append] at hnext
    have hbatch := @batch_eq n cursor 2 (by omega) (by omega) (by omega)
    rw [hremaining] at hbatch
    rw [hscore, ← hlinks] at hnext
    rw [hkey, ← hlinks] at hscore
    have hlength : (Tree.pairs items).length * 2 = items.length := length_pairs (by omega)
    rw [hxs.length_eq] at hlength
    refine @Yields.item n _ _ _ _ _ _
      ⟨r, ⟨r.tape.pool.next score.key, items.length⟩⟩ x xs ?_ ?_ ?_ ?_
    · unfold Iter.nextScored
      dsimp only
      rw [hbatch, hkey]
      dsimp only
      rw [show (r.tape.pool.nodes member.key).next = score.key from hscore, hx.member,
        hx.score.payload]
      rfl
    · unfold Iter.sizeHint
      dsimp only
      omega
    · intro key hmem
      unfold Iter.reads at hmem
      dsimp only at hmem
      rw [if_pos (by omega), hkey, Lib.walk, Lib.walk, Lib.walk, hscore] at hmem
      have hpair := hallowed (member, score) List.mem_cons_self
      rcases List.mem_cons.mp hmem with rfl | hmem
      · exact hpair.1
      · rw [List.mem_singleton.mp hmem]
        exact hpair.2
    · refine yields_scored hlinks (by omega) rfl (by omega) hnext hxs ?_
      exact fun pair hpair => hallowed pair (List.mem_cons_of_mem _ hpair)

end Scores

end Cartel.Redis.Decode
