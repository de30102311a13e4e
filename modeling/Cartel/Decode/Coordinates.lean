import Cartel.Decode.Lists

/-!
# Lists of coordinates

A member is nil, or an array of two numbers that are written back as they are read. After
a member, the loop is at the next child of the top-level array, since both numbers are
leaves (`coordinatesFrom_spec`). The iterator tells a nil from an array by its tag, which
no rewriting changes (`yields_coordinate`).
-/

namespace Cartel.Redis.Decode

open Cartel.Redis.Parser

variable {n : ℕ} {P : Type} (std : Floats P) (frame : List UInt8)

/-! ## The numbers of one member -/

/-- The number of the first node, written or refused. -/
theorem number_step {pool : Pool n} {key : Fin n} {t : Tree n} {ts : List (Tree n)}
    {rest : List (Fin n × Kind)} {bits : UInt64}
    (hlays : Lays pool key (Tree.entriesAll (t :: ts) ++ rest))
    (hnodup : ((Tree.entriesAll (t :: ts) ++ rest).map Prod.fst).Nodup)
    (hnumber : t.number std frame = .ok bits) :
    Rewritten pool (pool.set key (withFloat (pool.nodes key) bits)) [t.key] ∧
      Lays (pool.set key (withFloat (pool.nodes key) bits)) (pool.next key)
        (Tree.entriesAll ts ++ rest) ∧
      t.key ∉ (Tree.entriesAll ts ++ rest).map Prod.fst ∧
      ((Tree.entriesAll ts ++ rest).map Prod.fst).Nodup := by
  obtain ⟨hkey, -, hnext⟩ := hlays.item
  have hleaf := items_of_number hnumber
  rw [hleaf, Tree.entriesAll, List.nil_append] at hnext
  rw [Tree.entriesAll, Tree.entries_eq, hleaf, Tree.entriesAll, List.singleton_append,
    List.cons_append, List.map_cons, List.nodup_cons] at hnodup
  have hset := rewritten_set pool key bits
  rw [hkey] at hset ⊢
  refine ⟨hset, hset.lays (hkey ▸ hnext) fun entry hentry hmem => ?_, hnodup⟩
  exact hnodup.1 (List.mem_map.mpr ⟨entry, hentry, List.mem_singleton.mp hmem⟩)

/-- The inner loop reads the numbers in order, up to the first that is none. -/
theorem numbersFrom_spec : ∀ {ts : List (Tree n)} {pool : Pool n} {key : Fin n}
    {rest : List (Fin n × Kind)}, Lays pool key (Tree.entriesAll ts ++ rest) →
      ((Tree.entriesAll ts ++ rest).map Prod.fst).Nodup →
      Rewritten pool (numbersFrom (float std frame) ts.length pool key).2
          (Tree.numberKeys std frame ts) ∧
        Agree (fun next all =>
            Lays (numbersFrom (float std frame) ts.length pool key).2 next rest ∧
              List.Forall₂ (Numbered std frame
                (numbersFrom (float std frame) ts.length pool key).2) ts all)
          ((numbersFrom (float std frame) ts.length pool key).1.mapError CoordError.fault)
          (ts.mapM (Tree.number std frame))
  | [], pool, key, rest, hlays, _ => ⟨.refl _ _, hlays, .nil⟩
  | t :: ts, pool, key, rest, hlays, hnodup => by
    obtain ⟨hkey, hkind, -⟩ := hlays.item
    have hvalue : tryValue (pool.nodes key) = t.value := by
      rw [tryValue_eq]
      exact congrArg valueOf hkind
    rw [List.length_cons, numbersFrom, List.mapM_cons, hvalue]
    cases hv : t.value with
    | error span =>
      refine ⟨.refl _ _, ?_⟩
      rw [Tree.number, hv]
      rfl
    | ok value =>
      have hnumber := number_of_value std frame hv
      rw [hnumber]
      dsimp only
      cases hbits : float std frame value with
      | error cause => exact ⟨.refl _ _, rfl⟩
      | ok bits =>
        rw [hbits] at hnumber
        obtain ⟨hset, hnext, hfresh, hnodup⟩ := number_step std frame hlays hnodup hnumber
        obtain ⟨hrewritten, hagree⟩ := numbersFrom_spec hnext hnodup
        have hall := hset.trans hrewritten
        rw [List.singleton_append, ← numberKeys_cons hnumber] at hall
        refine ⟨hall, hagree.cons bits fun next all hnumbers =>
          ⟨hnumbers.1, .cons ⟨hnumber, ?_⟩ hnumbers.2⟩⟩
        have hkept := congrArg Node.payload (hrewritten.nodes t.key fun hmem => hfresh ?_)
        · rw [← hkey, payload_set] at hkept
          rw [← hkey]
          exact hkept
        · rw [List.map_append]
          exact List.mem_append_left _ (keys_subset ts (numberKeys_subset hmem))

/-! ## Members -/

/-- The nodes of a member with the element it was read as. -/
inductive Positioned (pool : Pool n) : Tree n → Option (UInt64 × UInt64) → Prop
  | nil {key : Fin n} : (pool.nodes key).tag = .nil → Positioned pool (.nil key) none
  | array {key : Fin n} {first second : Tree n} {lon lat : UInt64} :
      (pool.nodes key).tag = .array → Numbered std frame pool first lon →
      Numbered std frame pool second lat →
      Positioned pool (.array key [first, second]) (some (lon, lat))

theorem tag_of_kind {pool : Pool n} {key : Fin n} {len : UInt32} (h : pool.kind key = .array len) :
    (pool.nodes key).tag = .array := by
  unfold Pool.kind Node.kind at h
  cases htag : (pool.nodes key).tag <;> rw [htag] at h <;> cases h

theorem tag_of_nil {pool : Pool n} {key : Fin n} (h : pool.kind key = .nil) :
    (pool.nodes key).tag = .nil := by
  unfold Pool.kind Node.kind at h
  cases htag : (pool.nodes key).tag <;> rw [htag] at h <;> cases h

theorem axes_append (items items' : List (Tree n)) :
    Tree.axes (items ++ items') = Tree.axes items ++ Tree.axes items' :=
  List.flatMap_append

theorem axes_subset : ∀ items : List (Tree n),
    (Tree.axes items).map Tree.key ⊆ (Tree.entriesAll items).map Prod.fst
  | [] => List.Subset.refl _
  | t :: items => by
    have ih := axes_subset items
    rw [Tree.entriesAll, Tree.entries_eq, List.cons_append, List.map_cons, List.map_append,
      Tree.axes, List.flatMap_cons, List.map_append]
    refine List.append_subset.mpr ⟨?_, ?_⟩
    · refine List.Subset.trans ?_ (List.subset_cons_of_subset _ (List.subset_append_left ..))
      refine List.Subset.trans ?_ (keys_subset t.items)
      split
      · rename_i first second hitems
        rw [hitems]
        exact List.Subset.refl _
      · exact List.nil_subset _
    · exact List.Subset.trans ih (List.subset_cons_of_subset _ (List.subset_append_right ..))

theorem numberKeys_append (ts ts' : List (Tree n)) : Tree.numberKeys std frame (ts ++ ts') =
    Tree.numberKeys std frame ts ++ Tree.numberKeys std frame ts' := by
  unfold Tree.numberKeys
  rw [List.filter_append, List.map_append]

/-- A member read stays as it is when the numbers of other members are written. -/
theorem Positioned.rewritten {pool pool' : Pool n} {keys : List (Fin n)} {t : Tree n}
    {x : Option (UInt64 × UInt64)} (h : Positioned std frame pool t x)
    (hpool : Rewritten pool pool' keys)
    (hkeys : ∀ key ∈ (Tree.axes [t]).map Tree.key, key ∉ keys) :
    Positioned std frame pool' t x := by
  cases h with
  | nil htag => exact .nil ((hpool.tag _).trans htag)
  | @array key first second lon lat htag hfirst hsecond =>
    refine .array ((hpool.tag _).trans htag) ⟨hfirst.number, ?_⟩ ⟨hsecond.number, ?_⟩
    · rw [hpool.nodes first.key (hkeys _ List.mem_cons_self)]
      exact hfirst.payload
    · rw [hpool.nodes second.key (hkeys _ (List.mem_cons_of_mem _ List.mem_cons_self))]
      exact hsecond.payload

theorem position_of_length {key : Fin n} {items : List (Tree n)} (h : items.length ≠ 2) :
    (Tree.array key items).position std frame = .error (.arrayLength 2 items.length) := by
  rcases items with - | ⟨first, - | ⟨second, - | ⟨third, items⟩⟩⟩
  · rfl
  · rfl
  · exact absurd rfl h
  · rfl

theorem position_pair (key : Fin n) (first second : Tree n) :
    (Tree.array key [first, second]).position std frame =
      ([first, second].mapM (Tree.number std frame)).map fun all => all.head?.bind fun lon =>
        all[1]?.map fun lat => (lon, lat) := by
  rw [List.mapM_cons, List.mapM_cons, List.mapM_nil]
  change (first.number std frame).bind _ = _
  cases first.number std frame with
  | error fault => rfl
  | ok lon => cases second.number std frame <;> rfl

/-- The outer loop reads the members in order, up to the first that is no position. -/
theorem coordinatesFrom_spec {tape : Tape n} : ∀ {items : List (Tree n)} {pool : Pool n}
    {cursor : Cursor n} {rest : List (Fin n × Kind)},
      (∀ t ∈ items, t.items.length < 2 ^ 32) →
      Lays pool cursor.next (Tree.entriesAll items ++ rest) →
      ((Tree.entriesAll items ++ rest).map Prod.fst).Nodup →
      Rewritten pool (coordinatesFrom tape (float std frame) items.length pool cursor).2
          (Tree.numberKeys std frame (Tree.axes items)) ∧
        Agree (fun _ xs => List.Forall₂ (Positioned std frame
            (coordinatesFrom tape (float std frame) items.length pool cursor).2) items xs)
          ((coordinatesFrom tape (float std frame) items.length pool cursor).1.mapError
            CoordError.fault)
          (items.mapM (Tree.position std frame))
  | [], pool, cursor, rest, _, _, _ => ⟨.refl _ _, .nil⟩
  | t :: items, pool, cursor, rest, hsmall, hlays, hnodup => by
    obtain ⟨hkey, hkind, hnext⟩ := hlays.item
    have htake : take { tape with pool } (children cursor 1) =
        t.value.map fun value => (value, (children cursor 1).finish (pool.next cursor.next)) := by
      have hfirst := hlays
      rw [Tree.entriesAll, Tree.entries_eq, List.cons_append, List.cons_append] at hfirst
      exact @take_eq n _ _ { tape with pool } (children cursor 1) hfirst
    rw [List.length_cons, coordinatesFrom, htake, List.mapM_cons]
    have hsmall' := hsmall t List.mem_cons_self
    replace hsmall := fun item hitem => hsmall item (List.mem_cons_of_mem _ hitem)
    cases t with
    | nil key =>
      rw [Tree.entriesAll, Tree.entries, List.singleton_append, List.cons_append, List.map_cons,
        List.nodup_cons] at hnodup
      obtain ⟨hrewritten, hagree⟩ := @coordinatesFrom_spec _ items pool
        ((children cursor 1).finish (pool.next cursor.next)) rest hsmall hnext hnodup.2
      refine ⟨hrewritten, hagree.cons none fun _ xs hxs => .cons (.nil ?_) hxs⟩
      have htag := tag_of_nil hkind
      rw [hkey] at htag
      exact (hrewritten.tag key).trans htag
    | array key its =>
      have hlen : (UInt32.ofNat its.length).toNat = its.length := by
        rw [UInt32.toNat_ofNat']
        exact Nat.mod_eq_of_lt hsmall'
      rw [show (Tree.array key its).value = .ok (.array (.ofNat its.length)) from rfl, Except.map]
      dsimp only
      rw [hlen]
      split_ifs with hwrong
      · refine ⟨.refl _ _, ?_⟩
        rw [position_of_length std frame hwrong]
        rfl
      obtain ⟨first, second, rfl⟩ := List.length_eq_two.mp (not_not.mp hwrong)
      rw [Tree.entriesAll, Tree.entries, List.cons_append, List.cons_append, List.append_assoc,
        List.map_cons, List.nodup_cons] at hnodup
      obtain ⟨hwritten, hread⟩ :=
        @numbersFrom_spec n P std frame [first, second] _ _ _ hnext hnodup.2
      have hkeys : Tree.numberKeys std frame (Tree.axes (.array key [first, second] :: items)) =
          Tree.numberKeys std frame [first, second] ++
            Tree.numberKeys std frame (Tree.axes items) := numberKeys_append ..
      rw [hkeys]
      have htag := tag_of_kind hkind
      rw [hkey] at htag
      have hposition := position_pair std frame key first second
      dsimp only [children, Batch.finish]
      rw [show [first, second].length = 2 from rfl] at hwritten hread
      rcases hout : numbersFrom (float std frame) 2 pool (pool.next cursor.next) with ⟨result, pool'⟩
      rw [hout] at hwritten hread
      rcases result with cause | next
      · rw [hread.of_error] at hposition
        rw [hposition]
        exact ⟨hwritten.mono (List.subset_append_left ..), rfl⟩
      · obtain ⟨all, hall, hnext, hnumbers⟩ := hread.of_ok
        rw [hall] at hposition
        cases hnumbers with
        | @cons _ lon _ _ hlon hnumbers =>
        cases hnumbers with
        | @cons _ lat _ _ hlat hnumbers =>
        cases hnumbers
        rw [List.map_append, List.nodup_append] at hnodup
        obtain ⟨hrewritten, hagree⟩ := @coordinatesFrom_spec _ items pool'
          ⟨next, min (1 + (min (1 + (cursor.remaining - 1)) (2 ^ 32 - 1) - 1 - 2)) (2 ^ 32 - 1) - 1⟩
          rest hsmall hnext hnodup.2.2.1
        rw [hposition]
        refine ⟨hwritten.trans hrewritten, hagree.cons (some (lon, lat)) fun _ xs hxs => .cons ?_ hxs⟩
        have hread := Positioned.array ((hwritten.tag _).trans htag) hlon hlat
        refine hread.rewritten std frame hrewritten fun other hother hmem => ?_
        refine hnodup.2.2.2 other ?_ other ?_ rfl
        · exact keys_subset [first, second] hother
        · rw [List.map_append]
          exact List.mem_append_left _ (axes_subset items (numberKeys_subset hmem))
    | _ => exact ⟨.refl _ _, rfl⟩

/-! ## Reading the region -/

/-- An iterator over coordinates goes through the members. -/
theorem yields_coordinate {pool : Pool n} {r : Region n} {allowed : Fin n → Prop}
    (hlinks : ∀ key, r.tape.pool.next key = pool.next key) :
    ∀ {items : List (Tree n)} {xs : List (Option (UInt64 × UInt64))} {cursor : Cursor n}
      {rest : List (Fin n × Kind)}, cursor.remaining = items.length → items.length < 2 ^ 32 →
      Lays pool cursor.next (Tree.entriesAll items ++ rest) →
      List.Forall₂ (Positioned std frame r.tape.pool) items xs →
      (∀ t ∈ items, allowed t.key ∧ ∀ child ∈ t.items, allowed child.key) →
      Yields Iter.nextCoordinate (fun it => it.sizeHint 1) Iter.readsCoordinate allowed
        ⟨r, cursor⟩ xs
  | [], xs, cursor, rest, hremaining, _, _, hall, _ => by
    cases hall
    refine .done ?_ ?_ ?_
    · unfold Iter.nextCoordinate
      rw [batch_eq_none (by rw [hremaining]; exact Nat.one_pos)]
    · exact (Nat.div_one _).trans hremaining
    · exact if_neg (by rw [hremaining]; exact Nat.not_succ_le_zero 0)
  | t :: items, xs, cursor, rest, hremaining, hlt, hlays, hall, hallowed => by
    rw [List.length_cons] at hremaining hlt
    cases hall with
    | @cons _ x _ xs hx hxs =>
    obtain ⟨hkey, -, hnext⟩ := hlays.item
    have hbatch := @batch_eq n cursor 1 (by omega) (by omega) (by omega)
    rw [hremaining, Nat.add_sub_cancel] at hbatch
    have hhint : cursor.remaining / 1 = xs.length + 1 := by
      rw [Nat.div_one, hremaining, hxs.length_eq]
    have hothers := fun item hitem => hallowed item (List.mem_cons_of_mem t hitem)
    have hmine := hallowed t List.mem_cons_self
    cases hx with
    | @nil key htag =>
      rw [hkey, ← hlinks] at hnext
      refine @Yields.item n _ _ _ _ _ _
        ⟨r, ⟨r.tape.pool.next key, items.length⟩⟩ none xs ?_ hhint ?_ ?_
      · unfold Iter.nextCoordinate
        dsimp only
        rw [hbatch, hkey]
        exact if_pos htag
      · intro other hother
        unfold Iter.readsCoordinate at hother
        dsimp only at hother
        rw [if_pos (by omega), hkey, show (Tree.nil key).key = key from rfl, if_pos htag] at hother
        rw [List.mem_singleton.mp hother]
        exact hmine.1
      · exact yields_coordinate hlinks rfl (by omega) hnext hxs hothers
    | @array key first second lon lat htag hlon hlat =>
      obtain ⟨hfirst, -, hnext⟩ := Lays.item hnext
      rw [items_of_number hlon.number, Tree.entriesAll, List.nil_append] at hnext
      obtain ⟨hsecond, -, hnext⟩ := hnext.item
      rw [items_of_number hlat.number] at hnext
      change Lays pool _ (Tree.entriesAll items ++ rest) at hnext
      rw [hfirst] at hsecond hnext
      rw [hsecond, ← hlinks] at hnext
      rw [hkey, ← hlinks] at hfirst
      rw [← hlinks] at hsecond
      have hnil : (r.tape.pool.nodes key).tag ≠ .nil := by
        rw [htag]
        decide
      refine @Yields.item n _ _ _ _ _ _
        ⟨r, ⟨r.tape.pool.next second.key, items.length⟩⟩ (some (lon, lat)) xs ?_ hhint ?_ ?_
      · unfold Iter.nextCoordinate
        dsimp only
        rw [hbatch, hkey]
        dsimp only
        rw [show (Tree.array key [first, second]).key = key from rfl, if_neg hnil,
          show (r.tape.pool.nodes key).next = first.key from hfirst,
          show (r.tape.pool.nodes first.key).next = second.key from hsecond, hlon.payload,
          hlat.payload]
        rfl
      · intro other hother
        unfold Iter.readsCoordinate at hother
        dsimp only at hother
        rw [if_pos (by omega), hkey, show (Tree.array key [first, second]).key = key from rfl,
          if_neg hnil, Lib.walk, Lib.walk, Lib.walk, Lib.walk,
          show r.tape.pool.next key = first.key from hfirst, hsecond] at hother
        rcases List.mem_cons.mp hother with rfl | hother
        · exact hmine.1
        · rcases List.mem_cons.mp hother with rfl | hother
          · exact hmine.2 first List.mem_cons_self
          · rw [List.mem_singleton.mp hother]
            exact hmine.2 second (List.mem_cons_of_mem _ List.mem_cons_self)
      · exact yields_coordinate hlinks rfl (by omega) hnext hxs hothers

end Cartel.Redis.Decode
