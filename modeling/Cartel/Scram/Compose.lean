import Mathlib.Data.List.TakeWhile
import Cartel.Scram.Password

/-!
# Canonical composition in place

Canonical composition takes the characters one by one (`compositionStep`) : one that is not
blocked from the last starter is joined with it if there is a composite, and kept
otherwise. The loop of the code keeps of the characters so far only the place of the last
starter and the class of the last one written, which is the largest class behind that
starter (`Composed`). The characters of a run are sorted by counting into the scratch if
they are not in order (`sortRun_spec`), and composed from where they are. What is written
never is in front of what was read, so the whole is the composition of the reordered
characters (`composeAll_eq`), as long as the scratch has room for each disordered run
(`Fits`).
-/

namespace Cartel.Pg.Scram

open Cartel.Lib

variable (T : Tables)

/-! ## Canonical composition -/

/-- A character is blocked from the last starter by one in between. -/
def Blocked (between : List Char) (ch : Char) : Prop :=
  ∃ b ∈ between, T.canonicalCombiningClass b = 0 ∨
    T.canonicalCombiningClass ch ≤ T.canonicalCombiningClass b

instance (between : List Char) (ch : Char) : Decidable (Blocked T between ch) :=
  List.decidableBEx _ _

/-- The characters behind the last starter, the last one first. -/
def behind (rev : List Char) : List Char :=
  rev.takeWhile fun ch => T.canonicalCombiningClass ch ≠ 0

/-- The last starter, with the characters before it. -/
def upTo (rev : List Char) : List Char :=
  rev.dropWhile fun ch => T.canonicalCombiningClass ch ≠ 0

/-- One step of canonical composition, on the characters so far, the last one first. -/
def compositionStep (rev : List Char) (ch : Char) : List Char :=
  match upTo T rev with
  | [] => ch :: rev
  | base :: before =>
    if Blocked T (behind T rev) ch then ch :: rev
    else
      match T.compose base ch with
      | none => ch :: rev
      | some joined => behind T rev ++ joined :: before

/-- Canonical composition. -/
def canonicalComposition (xs : List Char) : List Char :=
  (xs.foldl (compositionStep T) []).reverse

/-- What is relied on of the tables : a class is a byte, and a starter is joined to a
starter. -/
structure Tables.Lawful : Prop where
  class_lt : ∀ ch, T.canonicalCombiningClass ch < 256
  starter : ∀ base ch joined, T.canonicalCombiningClass base = 0 →
    T.compose base ch = some joined → T.canonicalCombiningClass joined = 0

/-! ## The state of the composition -/

/-- The cells written hold the characters so far. -/
structure Composed (work : Work) (rev : List Char) : Prop where
  written : work.written = rev.length
  cells : ∀ i < rev.length, work.cells.cell i = rev.reverse[i]?
  starter : work.starter = (upTo T rev).tail?.map List.length
  previous : work.previous = (rev.head?.map T.canonicalCombiningClass).getD 0
  rising : ∀ b ∈ behind T rev, T.canonicalCombiningClass b ≤ work.previous

variable {T} {work : Work} {rev : List Char}

theorem behind_append_upTo (rev : List Char) : behind T rev ++ upTo T rev = rev :=
  List.takeWhile_append_dropWhile

theorem class_behind {b : Char} (h : b ∈ behind T rev) : T.canonicalCombiningClass b ≠ 0 := by
  simpa using List.mem_takeWhile_imp h

theorem class_upTo {base : Char} {before : List Char} (h : upTo T rev = base :: before) :
    T.canonicalCombiningClass base = 0 := by
  have hhead := List.head?_dropWhile_not (fun ch => T.canonicalCombiningClass ch ≠ 0) rev
  unfold upTo at h
  rw [h] at hhead
  simpa using hhead

theorem behind_cons (ch : Char) (rev : List Char) : behind T (ch :: rev) =
    if T.canonicalCombiningClass ch = 0 then [] else ch :: behind T rev := by
  unfold behind
  rw [List.takeWhile_cons]
  split_ifs with h <;> simp_all

theorem upTo_cons (ch : Char) (rev : List Char) : upTo T (ch :: rev) =
    if T.canonicalCombiningClass ch = 0 then ch :: rev else upTo T rev := by
  unfold upTo
  rw [List.dropWhile_cons]
  split_ifs with h <;> simp_all

/-- Nothing before a starter counts. -/
theorem behind_append {between before : List Char} {base : Char}
    (hbetween : ∀ b ∈ between, T.canonicalCombiningClass b ≠ 0)
    (hbase : T.canonicalCombiningClass base = 0) :
    behind T (between ++ base :: before) = between ∧
      upTo T (between ++ base :: before) = base :: before := by
  induction between with
  | nil =>
    rw [List.nil_append, behind_cons, upTo_cons, if_pos hbase, if_pos hbase]
    exact ⟨rfl, rfl⟩
  | cons b between ih =>
    have hb := hbetween b List.mem_cons_self
    obtain ⟨hbehind, hupTo⟩ := ih fun x hx => hbetween x (List.mem_cons_of_mem _ hx)
    rw [List.cons_append, behind_cons, upTo_cons, if_neg hb, if_neg hb, hbehind, hupTo]
    exact ⟨rfl, rfl⟩

/-- The class of the last character written tells whether a character is blocked. -/
theorem Composed.blocked_iff (h : Composed T work rev) {base : Char} {before : List Char}
    (hupTo : upTo T rev = base :: before) (ch : Char) :
    Blocked T (behind T rev) ch ↔
      ¬(work.previous = 0 ∨ work.previous < T.canonicalCombiningClass ch) := by
  have hrev := behind_append_upTo (T := T) rev
  have hprevious := h.previous
  have hrising := h.rising
  unfold Blocked
  cases hbehind : behind T rev with
  | nil =>
    rw [hbehind, hupTo, List.nil_append] at hrev
    rw [← hrev] at hprevious
    have hbase : work.previous = 0 := hprevious.trans (class_upTo hupTo)
    simp [hbase]
  | cons b between =>
    rw [hbehind] at hrev hrising
    have hclass := @class_behind T rev b (by rw [hbehind]; exact List.mem_cons_self)
    rw [← hrev] at hprevious
    have hb : work.previous = T.canonicalCombiningClass b := hprevious
    constructor
    · rintro ⟨c, hc, hzero | hle⟩
      · exact absurd hzero (class_behind (by rw [hbehind]; exact hc))
      · have hc' := hrising c hc
        omega
    · intro hnot
      exact ⟨b, List.mem_cons_self, Or.inr (by omega)⟩

/-! ## One character -/

theorem Cells.read_eq {cells : Cells} {i : ℕ} (h : i < cells.cap) : cells.read i = cells.cell i :=
  if_pos h

theorem Cells.write_eq {cells : Cells} {i : ℕ} (h : i < cells.cap) (ch : Char) :
    cells.write i ch = some (cells.put i ch) :=
  if_pos h

@[simp] theorem Cells.put_self (cells : Cells) (i : ℕ) (ch : Char) :
    (cells.put i ch).cell i = some ch :=
  Function.update_self ..

theorem Cells.put_of_ne (cells : Cells) {i j : ℕ} (h : j ≠ i) (ch : Char) :
    (cells.put i ch).cell j = cells.cell j :=
  Function.update_of_ne h ..

/-- The same allocation, with the same cells from `bound` on. -/
structure Kept (bound : ℕ) (cells cells' : Cells) : Prop where
  cap : cells'.cap = cells.cap
  cell : ∀ i, bound ≤ i → cells'.cell i = cells.cell i

theorem Kept.trans {bound bound' : ℕ} {cells cells' cells'' : Cells} (h : Kept bound cells cells')
    (h' : Kept bound' cells' cells'') (hle : bound ≤ bound') : Kept bound' cells cells'' :=
  ⟨h'.cap.trans h.cap, fun i hi => (h'.cell i hi).trans (h.cell i (hle.trans hi))⟩

/-- A character that is kept. -/
theorem Composed.append (h : Composed T work rev) {ch : Char}
    (hclass : T.canonicalCombiningClass ch = 0 ∨
      work.previous ≤ T.canonicalCombiningClass ch) :
    Composed T
      ⟨work.cells.put work.written ch, work.written + 1,
        if T.canonicalCombiningClass ch = 0 then some work.written else work.starter,
        T.canonicalCombiningClass ch⟩ (ch :: rev) := by
  refine ⟨congrArg (· + 1) h.written, ?_, ?_, rfl, ?_⟩
  · intro i hi
    rw [List.length_cons] at hi
    dsimp only
    rw [List.reverse_cons]
    by_cases heq : i = work.written
    · rw [heq, Cells.put_self, List.getElem?_append_right (by simp [h.written]), h.written,
        List.length_reverse, Nat.sub_self]
      rfl
    · have hlt : i < rev.length := by
        rw [h.written] at heq
        omega
      rw [Cells.put_of_ne _ heq, h.cells i hlt,
        List.getElem?_append_left (by rwa [List.length_reverse])]
  · rw [upTo_cons, h.written, h.starter]
    split_ifs <;> rfl
  · intro b hb
    rw [behind_cons] at hb
    split_ifs at hb with hzero
    · cases hb
    · rcases List.mem_cons.mp hb with rfl | hb
      · exact le_rfl
      · exact (h.rising b hb).trans (hclass.resolve_left hzero)

/-- A character that is joined. -/
theorem Composed.joined (h : Composed T work rev) {base joined : Char} {before : List Char}
    (hupTo : upTo T rev = base :: before) (hjoined : T.canonicalCombiningClass joined = 0) :
    Composed T { work with cells := work.cells.put before.length joined }
      (behind T rev ++ joined :: before) := by
  have hrev := behind_append_upTo (T := T) rev
  rw [hupTo] at hrev
  obtain ⟨hbehind, hupTo'⟩ :=
    @behind_append T (behind T rev) before joined (fun b hb => class_behind hb) hjoined
  refine ⟨?_, ?_, ?_, ?_, ?_⟩
  · have hlength := congrArg List.length hrev
    have hwritten := h.written
    simp only [List.length_append, List.length_cons] at hlength ⊢
    omega
  · intro i hi
    have hcells := h.cells i
    rw [← hrev] at hcells
    simp only [List.length_append, List.length_cons, List.reverse_append, List.reverse_cons,
      List.append_assoc] at hi hcells ⊢
    by_cases heq : i = before.length
    · rw [heq, Cells.put_self, List.getElem?_append_right (by simp), List.length_reverse,
        Nat.sub_self]
      rfl
    · rw [Cells.put_of_ne _ heq, hcells hi]
      rcases Nat.lt_or_ge i before.length with hlt | hge
      · rw [List.getElem?_append_left (by simpa using hlt),
          List.getElem?_append_left (by simpa using hlt)]
      · have hge' : before.reverse.length ≤ i := by rwa [List.length_reverse]
        rw [List.getElem?_append_right hge', List.getElem?_append_right hge', List.length_reverse]
        obtain ⟨k, hk⟩ : ∃ k, i - before.length = k + 1 := ⟨i - before.length - 1, by omega⟩
        rw [hk]
        simp only [List.singleton_append, List.getElem?_cons_succ]
  · rw [hupTo', h.starter, hupTo]
    rfl
  · have hhead := congrArg List.head? hrev
    rw [h.previous, ← hhead]
    cases behind T rev with
    | nil =>
      change T.canonicalCombiningClass base = T.canonicalCombiningClass joined
      rw [hjoined, class_upTo hupTo]
    | cons b between => rfl
  · rw [hbehind]
    exact h.rising

theorem Composed.before_lt (h : Composed T work rev) {base : Char} {before : List Char}
    (hupTo : upTo T rev = base :: before) : before.length < work.written := by
  have hrev := congrArg List.length (behind_append_upTo (T := T) rev)
  rw [hupTo, List.length_append, List.length_cons] at hrev
  have hwritten := h.written
  omega

/-- What a character is joined to. -/
theorem Composed.join_eq (h : Composed T work rev) (hcap : work.written ≤ work.cells.cap)
    (ch : Char) :
    work.join T ch = some
      (match upTo T rev with
      | [] => none
      | base :: before =>
        if Blocked T (behind T rev) ch then none
        else (T.compose base ch).map fun joined => (before.length, joined)) := by
  unfold Work.join
  rw [h.starter]
  cases hupTo : upTo T rev with
  | nil => rfl
  | cons base before =>
    have hlt := h.before_lt hupTo
    have hrev := behind_append_upTo (T := T) rev
    have hcell := h.cells before.length (h.written ▸ hlt)
    rw [← hrev, hupTo, List.reverse_append, List.reverse_cons, List.append_assoc,
      List.getElem?_append_right (by simp), List.length_reverse, Nat.sub_self] at hcell
    dsimp only [List.tail?, Option.map_some]
    rw [if_congr (h.blocked_iff hupTo ch) rfl rfl, ite_not, Cells.read_eq (hlt.trans_le hcap), hcell]
    split_ifs <;> rfl

theorem place_of_none {ch : Char} (h : work.join T ch = some none) :
    work.place T ch = work.keep T ch := by
  unfold Work.place
  rw [h]
  rfl

theorem place_of_some {ch joined : Char} {i : ℕ} (h : work.join T ch = some (some (i, joined))) :
    work.place T ch = (work.cells.write i joined).map fun cells => { work with cells } := by
  unfold Work.place
  rw [h]
  change (work.cells.write i joined).bind _ = _
  cases work.cells.write i joined <;> rfl

/-- Placing a character is a step of the composition. It writes at most the next cell. -/
theorem place_spec (hT : T.Lawful) (h : Composed T work rev) {ch : Char}
    (hclass : T.canonicalCombiningClass ch = 0 ∨ work.previous ≤ T.canonicalCombiningClass ch)
    (hcap : work.written < work.cells.cap) :
    ∃ work', work.place T ch = some work' ∧ Composed T work' (compositionStep T rev ch) ∧
      Kept (work.written + 1) work.cells work'.cells ∧ work'.written ≤ work.written + 1 ∧
      work'.previous ≤ T.canonicalCombiningClass ch := by
  have hkeep : ∀ i c, i ≤ work.written →
      Kept (work.written + 1) work.cells (work.cells.put i c) := by
    intro i c hi
    refine ⟨rfl, fun j hj => ?_⟩
    exact Cells.put_of_ne _ (by omega) c
  have hsteady : ∃ work', work.keep T ch = some work' ∧ Composed T work' (ch :: rev) ∧
      Kept (work.written + 1) work.cells work'.cells ∧ work'.written ≤ work.written + 1 ∧
      work'.previous ≤ T.canonicalCombiningClass ch := by
    unfold Work.keep
    rw [Cells.write_eq hcap]
    exact ⟨_, rfl, h.append hclass, hkeep _ _ le_rfl, le_rfl, le_rfl⟩
  have hjoin := h.join_eq hcap.le ch
  unfold compositionStep
  cases hupTo : upTo T rev with
  | nil =>
    rw [hupTo] at hjoin
    rw [place_of_none hjoin]
    exact hsteady
  | cons base before =>
    rw [hupTo] at hjoin
    dsimp only at hjoin ⊢
    split_ifs at hjoin ⊢ with hblocked
    · rw [place_of_none hjoin]
      exact hsteady
    · cases hcompose : T.compose base ch with
      | none =>
        rw [hcompose] at hjoin
        rw [place_of_none hjoin]
        exact hsteady
      | some joined =>
        rw [hcompose] at hjoin
        have hlt := h.before_lt hupTo
        rw [place_of_some hjoin, Cells.write_eq (hlt.trans hcap)]
        refine ⟨_, rfl, h.joined hupTo (hT.starter _ _ _ (class_upTo hupTo) hcompose),
          hkeep _ _ hlt.le, Nat.le_succ _, ?_⟩
        rw [h.blocked_iff hupTo] at hblocked
        dsimp only
        omega

/-! ## A run -/

/-- What the composition does to the characters to come. -/
structure Advances (work work' : Work) (rev todo : List Char) : Prop where
  composed : Composed T work' (todo.foldl (compositionStep T) rev)
  kept : Kept (work.written + todo.length) work.cells work'.cells
  written : work'.written ≤ work.written + todo.length

/-- The characters of a settled run are composed one after the other. Writing stays behind
reading. -/
theorem composeFrom_spec (hT : T.Lawful) {source : ℕ} : ∀ {todo rev : List Char} {index : ℕ}
    {work : Work}, Composed T work rev → Settled T.canonicalCombiningClass todo →
      (∀ ch ∈ todo.head?, T.canonicalCombiningClass ch = 0 ∨
        work.previous ≤ T.canonicalCombiningClass ch) →
      (∀ j < todo.length, work.cells.cell (source + index + j) = todo[j]?) →
      work.written ≤ source + index → source + index + todo.length ≤ work.cells.cap →
      ∃ work', work.composeFrom T source todo.length index = some work' ∧
        Advances (T := T) work work' rev todo
  | [], rev, index, work, h, _, _, _, _, _ => ⟨work, rfl, h, ⟨rfl, fun _ _ => rfl⟩, le_rfl⟩
  | ch :: todo, rev, index, work, h, hsettled, hhead, hcells, hwritten, hcap => by
    rw [List.length_cons] at hcap
    have hread : work.cells.read (source + index) = some ch := by
      rw [Cells.read_eq (by omega)]
      exact hcells 0 (Nat.succ_pos _)
    obtain ⟨next, hplace, hnext, hkept, hwritten', hprevious⟩ :=
      place_spec hT h (hhead ch rfl) (by omega)
    have hrest : ∀ c ∈ todo.head?, T.canonicalCombiningClass c = 0 ∨
        next.previous ≤ T.canonicalCombiningClass c := by
      intro c hc
      cases todo with
      | nil => cases hc
      | cons d todo =>
        cases hc
        have hle := (List.isChain_cons_cons.mp hsettled).1
        omega
    have hbehind : ∀ j < todo.length, next.cells.cell (source + (index + 1) + j) = todo[j]? := by
      intro j hj
      rw [hkept.cell _ (by omega)]
      have hcell := hcells (j + 1) (Nat.succ_lt_succ hj)
      rwa [show source + index + (j + 1) = source + (index + 1) + j by omega,
        List.getElem?_cons_succ] at hcell
    have htail : Settled T.canonicalCombiningClass todo := hsettled.tail
    obtain ⟨work', hrun, hadvances⟩ := composeFrom_spec hT hnext htail hrest hbehind
      (by omega) (by rw [hkept.cap]; omega)
    refine ⟨work', ?_, hadvances.composed, ?_, ?_⟩
    · rw [List.length_cons, Work.composeFrom, hread]
      change (work.place T ch).bind _ = _
      rw [hplace]
      exact hrun
    · have hall := hadvances.kept
      refine ⟨hall.cap.trans hkept.cap, fun i hi => ?_⟩
      rw [List.length_cons] at hi
      exact (hall.cell i (by omega)).trans (hkept.cell i (by omega))
    · have hle := hadvances.written
      rw [List.length_cons]
      omega

/-! ## Sorting a run -/

section Sorting

variable {cells : Cells}

theorem countFrom_spec : ∀ {todo : List Char} {index : ℕ} {positions : ℕ → ℕ},
    (∀ j < todo.length, cells.read (index + j) = todo[j]?) →
      countFrom T cells todo.length index positions =
        some fun k => positions k + (ofRank T.canonicalCombiningClass k todo).length
  | [], _, _, _ => rfl
  | ch :: todo, index, positions, hcells => by
    have hread : cells.read index = some ch := hcells 0 (Nat.succ_pos _)
    have hrest : ∀ j < todo.length, cells.read (index + 1 + j) = todo[j]? := by
      intro j hj
      have hcell := hcells (j + 1) (Nat.succ_lt_succ hj)
      rwa [show index + (j + 1) = index + 1 + j by omega, List.getElem?_cons_succ] at hcell
    rw [List.length_cons, countFrom, hread]
    change countFrom T cells todo.length (index + 1) _ = _
    rw [countFrom_spec hrest]
    congr 1
    ext k
    unfold ofRank
    rw [List.filter_cons]
    by_cases h : k = T.canonicalCombiningClass ch
    · subst h
      rw [Function.update_self, if_pos (decide_eq_true rfl), List.length_cons]
      omega
    · rw [Function.update_of_ne h, if_neg (by simpa using Ne.symm h)]

theorem offsetsFrom_spec {rank : Char → ℕ} {run : List Char} : ∀ {rounds k offset : ℕ}
    {positions : ℕ → ℕ}, offset = (buckets rank k run).length →
      (∀ j < k, positions j = (buckets rank j run).length) →
      (∀ j, k ≤ j → positions j = (ofRank rank j run).length) →
      ∀ j < k + rounds, offsetsFrom rounds k offset positions j = (buckets rank j run).length
  | 0, _, _, _, _, hdone, _ => hdone
  | rounds + 1, k, offset, positions, hoffset, hdone, htodo => by
    intro j hj
    rw [offsetsFrom]
    refine offsetsFrom_spec ?_ ?_ ?_ j (by omega)
    · rw [buckets_succ, List.length_append, hoffset, htodo k le_rfl]
    · intro i hi
      by_cases h : i = k
      · rw [h, Function.update_self, hoffset]
      · rw [Function.update_of_ne h]
        exact hdone i (by omega)
    · intro i hi
      rw [Function.update_of_ne (by omega)]
      exact htodo i (by omega)

/-- What the scatter keeps : behind the characters done, each position is the next place of
its bucket. -/
structure Scattered (scratch : ℕ) (run done : List Char) (cells : Cells) (positions : ℕ → ℕ) :
    Prop where
  positions : ∀ k < 256, positions k = (buckets T.canonicalCombiningClass k run).length +
    (ofRank T.canonicalCombiningClass k done).length
  cells : ∀ k < 256, ∀ j < (ofRank T.canonicalCombiningClass k done).length,
    cells.cell (scratch + (buckets T.canonicalCombiningClass k run).length + j) =
      (ofRank T.canonicalCombiningClass k done)[j]?

/-- Writing one more character to its bucket. -/
theorem Scattered.step (hT : T.Lawful) {scratch : ℕ} {run done todo : List Char} {ch : Char}
    {positions : ℕ → ℕ} (h : Scattered (T := T) scratch run done cells positions)
    (hrun : run = done ++ ch :: todo) :
    positions (T.canonicalCombiningClass ch) < run.length ∧
      Scattered (T := T) scratch run (done ++ [ch])
        (cells.put (scratch + positions (T.canonicalCombiningClass ch)) ch)
        (Function.update positions (T.canonicalCombiningClass ch)
          (positions (T.canonicalCombiningClass ch) + 1)) := by
  have hclass := hT.class_lt ch
  have hlen : ∀ k, (ofRank T.canonicalCombiningClass k run).length =
      (ofRank T.canonicalCombiningClass k done).length +
        (ofRank T.canonicalCombiningClass k (ch :: todo)).length := by
    intro k
    rw [hrun, ofRank, List.filter_append, List.length_append]
    rfl
  have hroom : (ofRank T.canonicalCombiningClass (T.canonicalCombiningClass ch) done).length <
      (ofRank T.canonicalCombiningClass (T.canonicalCombiningClass ch) run).length := by
    rw [hlen, ofRank, ofRank, List.filter_cons_of_pos (by simp), List.length_cons]
    omega
  rw [h.positions _ hclass]
  refine ⟨?_, fun k hk => ?_, fun k hk j hj => ?_⟩
  · have hle := length_buckets_le T.canonicalCombiningClass (T.canonicalCombiningClass ch + 1) run
    rw [buckets_succ, List.length_append] at hle
    omega
  · rw [ofRank_snoc]
    by_cases heq : k = T.canonicalCombiningClass ch
    · subst heq
      rw [Function.update_self, if_pos rfl, List.length_append, List.length_singleton]
      omega
    · rw [Function.update_of_ne heq, if_neg (Ne.symm heq), List.append_nil]
      exact h.positions k hk
  · rw [ofRank_snoc] at hj ⊢
    by_cases heq : k = T.canonicalCombiningClass ch
    · subst heq
      rw [if_pos rfl] at hj ⊢
      rw [List.length_append, List.length_singleton] at hj
      rcases Nat.lt_or_ge j (ofRank T.canonicalCombiningClass (T.canonicalCombiningClass ch)
        done).length with hlt | hge
      · rw [Cells.put_of_ne _ (by omega), h.cells _ hk j hlt, List.getElem?_append_left hlt]
      · obtain rfl : j = (ofRank T.canonicalCombiningClass (T.canonicalCombiningClass ch)
          done).length := by omega
        rw [Nat.add_assoc, Cells.put_self, List.getElem?_append_right le_rfl, Nat.sub_self]
        rfl
    · rw [if_neg (Ne.symm heq), List.append_nil] at hj ⊢
      rw [← h.cells k hk j hj]
      refine Cells.put_of_ne _ (fun haddress => heq ?_) ch
      refine @bucket_inj _ T.canonicalCombiningClass run k _ j _ ?_ hroom ?_
      · have hk' := hlen k
        omega
      · omega

theorem scatterFrom_spec (hT : T.Lawful) {scratch cap : ℕ} {run : List Char}
    (hroom : scratch + run.length ≤ cap) :
    ∀ {todo done : List Char} {index : ℕ} {cells : Cells} {positions : ℕ → ℕ},
      run = done ++ todo → cells.cap = cap → index + todo.length ≤ scratch →
      (∀ j < todo.length, cells.cell (index + j) = todo[j]?) →
      Scattered (T := T) scratch run done cells positions →
      ∃ last positions', scatterFrom T scratch todo.length index cells positions = some last ∧
        Scattered (T := T) scratch run run last positions' ∧ last.cap = cap ∧
        ∀ i < scratch, last.cell i = cells.cell i
  | [], done, index, cells, positions, hrun, hcap, _, _, h => by
    rw [List.append_nil] at hrun
    exact ⟨cells, positions, rfl, hrun ▸ h, hcap, fun _ _ => rfl⟩
  | ch :: todo, done, index, cells, positions, hrun, hcap, hindex, hcells, h => by
    rw [List.length_cons] at hindex
    obtain ⟨hlt, hstep⟩ := h.step hT hrun
    have hread : cells.read index = some ch := by
      rw [Cells.read_eq (by omega)]
      exact hcells 0 (Nat.succ_pos _)
    have hrest : ∀ j < todo.length,
        (cells.put (scratch + positions (T.canonicalCombiningClass ch)) ch).cell (index + 1 + j) =
          todo[j]? := by
      intro j hj
      rw [Cells.put_of_ne _ (by omega)]
      have hcell := hcells (j + 1) (Nat.succ_lt_succ hj)
      rwa [show index + (j + 1) = index + 1 + j by omega, List.getElem?_cons_succ] at hcell
    have hrun' : run = done ++ [ch] ++ todo := by
      rw [hrun, List.append_assoc]
      rfl
    have hcap' : (cells.put (scratch + positions (T.canonicalCombiningClass ch)) ch).cap = cap :=
      hcap
    obtain ⟨last, positions', hscatter, hlast, hcap', hkept⟩ :=
      scatterFrom_spec hT hroom hrun' hcap' (by omega) hrest hstep
    refine ⟨last, positions', ?_, hlast, hcap', fun i hi => ?_⟩
    · rw [List.length_cons, scatterFrom, hread]
      change (cells.write (scratch + positions (T.canonicalCombiningClass ch)) ch).bind _ = _
      rw [Cells.write_eq (by omega)]
      exact hscatter
    · rw [hkept i hi]
      exact Cells.put_of_ne _ (by omega) ch

/-- The scratch holds the run, rank by rank. -/
theorem sortRun_spec (hT : T.Lawful) {cells : Cells} {scratch start : ℕ} {run : List Char}
    (hstart : start + run.length ≤ scratch) (hroom : scratch + run.length ≤ cells.cap)
    (hcells : ∀ j < run.length, cells.cell (start + j) = run[j]?) :
    ∃ last, sortRun T cells scratch start (start + run.length) = some last ∧
      last.cap = cells.cap ∧ (∀ i < scratch, last.cell i = cells.cell i) ∧
      ∀ i < run.length,
        last.cell (scratch + i) = (buckets T.canonicalCombiningClass 256 run)[i]? := by
  have hread : ∀ j < run.length, cells.read (start + j) = run[j]? := by
    intro j hj
    rw [Cells.read_eq (by omega)]
    exact hcells j hj
  have hempty : Scattered (T := T) scratch run [] cells (offsetsFrom 256 0 0 fun k =>
      0 + (ofRank T.canonicalCombiningClass k run).length) := by
    refine ⟨fun k hk => ?_, fun k _ j hj => absurd hj (Nat.not_lt_zero j)⟩
    refine @offsetsFrom_spec T.canonicalCombiningClass run 256 0 0 _ rfl ?_ ?_ k ?_
    · exact fun j hj => absurd hj (Nat.not_lt_zero j)
    · exact fun j _ => Nat.zero_add _
    · omega
  obtain ⟨last, positions, hscatter, hlast, hcap, hkept⟩ :=
    scatterFrom_spec hT hroom (List.nil_append run).symm rfl hstart hcells hempty
  refine ⟨last, ?_, hcap, hkept, fun i hi => ?_⟩
  · unfold sortRun
    rw [Nat.add_sub_cancel_left, countFrom_spec hread]
    exact hscatter
  · rw [← length_buckets fun ch (_ : ch ∈ run) => hT.class_lt ch] at hi
    obtain ⟨k, j, hk, hj, rfl⟩ := exists_bucket hi
    rw [getElem?_buckets hk hj, ← Nat.add_assoc]
    exact hlast.cells k hk j hj

end Sorting

/-! ## The end of a run -/

/-- A run, with what follows it. -/
structure Run (todo run rest : List Char) : Prop where
  split : todo = run ++ rest
  tail : ∀ ch ∈ run.tail, T.canonicalCombiningClass ch ≠ 0
  head : ∀ ch ∈ rest.head?, T.canonicalCombiningClass ch = 0

/-- The classes after `last` do not fall. -/
def Rising (last : ℕ) (run : List Char) : Prop :=
  (last :: run.map T.canonicalCombiningClass).IsChain (· ≤ ·)

instance (last : ℕ) (run : List Char) : Decidable (Rising (T := T) last run) :=
  inferInstanceAs (Decidable (List.IsChain ..))

theorem scanFrom_cons {cells : Cells} {start stop last rounds : ℕ} {ordered : Bool} {ch : Char}
    (hread : cells.read stop = some ch) :
    scanFrom T cells start (rounds + 1) stop last ordered =
      if T.canonicalCombiningClass ch = 0 ∧ stop ≠ start then some (stop, ordered)
      else scanFrom T cells start rounds (stop + 1) (T.canonicalCombiningClass ch)
        (ordered && decide (last ≤ T.canonicalCombiningClass ch)) := by
  rw [scanFrom, hread]
  rfl

theorem rising_cons {last : ℕ} {ch : Char} {run : List Char} :
    Rising (T := T) last (ch :: run) ↔
      last ≤ T.canonicalCombiningClass ch ∧
        Rising (T := T) (T.canonicalCombiningClass ch) run :=
  List.isChain_cons_cons

/-- In a run, the classes do not fall exactly if it is settled. -/
theorem rising_iff {ch : Char} {run : List Char}
    (hrun : ∀ c ∈ run, T.canonicalCombiningClass c ≠ 0) :
    Rising (T := T) (T.canonicalCombiningClass ch) run ↔
      Settled T.canonicalCombiningClass (ch :: run) := by
  induction run generalizing ch with
  | nil => exact ⟨fun _ => List.isChain_singleton _, fun _ => List.isChain_singleton _⟩
  | cons c run ih =>
    have hc := hrun c List.mem_cons_self
    have hrest := @ih c fun d hd => hrun d (List.mem_cons_of_mem _ hd)
    rw [rising_cons, hrest, Settled, Settled, List.isChain_cons_cons]
    exact and_congr_left' ⟨Or.inr, fun h => h.resolve_left hc⟩

/-- Behind the first character, a run goes on to the next starter. -/
theorem scanFrom_spec {cells : Cells} {start : ℕ} : ∀ {todo : List Char} {stop last : ℕ}
    {ordered : Bool}, start < stop → (∀ j < todo.length, cells.read (stop + j) = todo[j]?) →
      ∃ run rest, todo = run ++ rest ∧ (∀ ch ∈ run, T.canonicalCombiningClass ch ≠ 0) ∧
        (∀ ch ∈ rest.head?, T.canonicalCombiningClass ch = 0) ∧
        scanFrom T cells start todo.length stop last ordered =
          some (stop + run.length, ordered && Rising (T := T) last run)
  | [], stop, last, ordered, _, _ => by
    refine ⟨[], [], rfl, nofun, nofun, ?_⟩
    have hrising : Rising (T := T) last [] := List.isChain_singleton last
    rw [decide_eq_true hrising, Bool.and_true]
    rfl
  | ch :: todo, stop, last, ordered, hstop, hcells => by
    have hread : cells.read stop = some ch := hcells 0 (Nat.succ_pos _)
    rw [List.length_cons, scanFrom_cons hread]
    by_cases hclass : T.canonicalCombiningClass ch = 0
    · refine ⟨[], ch :: todo, rfl, nofun, ?_, ?_⟩
      · intro c hc
        cases hc
        exact hclass
      · have hrising : Rising (T := T) last [] := List.isChain_singleton last
        rw [if_pos ⟨hclass, by omega⟩, decide_eq_true hrising, Bool.and_true]
        rfl
    · have hrest : ∀ j < todo.length, cells.read (stop + 1 + j) = todo[j]? := by
        intro j hj
        have hcell := hcells (j + 1) (Nat.succ_lt_succ hj)
        rwa [show stop + (j + 1) = stop + 1 + j by omega, List.getElem?_cons_succ] at hcell
      obtain ⟨run, rest, hsplit, hrun, hhead, hscan⟩ :=
        @scanFrom_spec _ start todo (stop + 1) (T.canonicalCombiningClass ch)
          (ordered && decide (last ≤ T.canonicalCombiningClass ch)) (by omega) hrest
      refine ⟨ch :: run, rest, ?_, ?_, hhead, ?_⟩
      · rw [hsplit]
        rfl
      · intro c hc
        rcases List.mem_cons.mp hc with rfl | hc
        · exact hclass
        · exact hrun c hc
      · rw [if_neg (fun h => hclass h.1), hscan, List.length_cons, Bool.and_assoc, ← Bool.decide_and,
          decide_eq_decide.mpr rising_cons.symm, Nat.add_assoc, Nat.add_comm 1]

/-- The first run, and whether it is settled. -/
theorem scan_spec {cells : Cells} {start : ℕ} {todo : List Char} (htodo : todo ≠ [])
    (hcells : ∀ j < todo.length, cells.read (start + j) = todo[j]?) :
    ∃ run rest, Run (T := T) todo run rest ∧ run ≠ [] ∧
      scanFrom T cells start todo.length start 0 true =
        some (start + run.length, decide (Settled T.canonicalCombiningClass run)) := by
  obtain ⟨ch, todo, rfl⟩ := List.exists_cons_of_ne_nil htodo
  have hread : cells.read start = some ch := hcells 0 (Nat.succ_pos _)
  have hrest : ∀ j < todo.length, cells.read (start + 1 + j) = todo[j]? := by
    intro j hj
    have hcell := hcells (j + 1) (Nat.succ_lt_succ hj)
    rwa [show start + (j + 1) = start + 1 + j by omega, List.getElem?_cons_succ] at hcell
  obtain ⟨run, rest, rfl, hrun, hhead, hscan⟩ :=
    @scanFrom_spec T _ start todo (start + 1) (T.canonicalCombiningClass ch) true (by omega) hrest
  refine ⟨ch :: run, rest, ⟨rfl, hrun, hhead⟩, List.cons_ne_nil _ _, ?_⟩
  rw [List.length_cons, scanFrom_cons hread, if_neg (fun h => h.2 rfl),
    decide_eq_true (Nat.zero_le _), Bool.true_and, hscan, Bool.true_and, List.length_cons,
    Nat.add_assoc, Nat.add_comm 1]
  refine congrArg (fun flag => some (start + (run.length + 1), flag)) (decide_eq_decide.mpr ?_)
  exact rising_iff hrun

theorem Run.reorder_eq {todo run rest : List Char} (h : Run (T := T) todo run rest) :
    reorder T.canonicalCombiningClass todo =
      reorder T.canonicalCombiningClass run ++ reorder T.canonicalCombiningClass rest := by
  rw [h.split]
  cases rest with
  | nil => rw [List.append_nil, reorder, List.append_nil]
  | cons ch rest => exact reorder_append (h.head ch rfl) run rest

/-! ## All runs -/

/-- The scratch has room for every disordered run. -/
def Fits (scratch : ℕ) (xs : List Char) : Prop :=
  ∀ front run back, xs = front ++ run ++ back →
    (∀ ch ∈ run.tail, T.canonicalCombiningClass ch ≠ 0) →
    ¬Settled T.canonicalCombiningClass run → run.length ≤ scratch

/-- Only the cells written count. -/
theorem Composed.congr (h : Composed T work rev) {cells : Cells}
    (hcells : ∀ i < work.written, cells.cell i = work.cells.cell i) :
    Composed T { work with cells } rev :=
  { h with cells := fun i hi => (hcells i (h.written ▸ hi)).trans (h.cells i hi) }

/-- Where the work is after the characters before `stop`. -/
structure Arrives (work work' : Work) (rev run : List Char) (stop len : ℕ) : Prop where
  composed : Composed T work' ((reorder T.canonicalCombiningClass run).foldl
    (compositionStep T) rev)
  cap : work'.cells.cap = work.cells.cap
  cells : ∀ i, stop ≤ i → i < len → work'.cells.cell i = work.cells.cell i
  written : work'.written ≤ stop

section Segment

variable {len scratch start : ℕ} {run : List Char}

/-- What holds in front of a run. -/
structure Ready (work : Work) (rev run : List Char) (start len : ℕ) : Prop where
  composed : Composed T work rev
  head : ∀ ch ∈ run.head?, T.canonicalCombiningClass ch = 0 ∨ work.previous = 0
  written : work.written ≤ start
  cells : ∀ j < run.length, work.cells.cell (start + j) = run[j]?
  stop : start + run.length ≤ len
  cap : len ≤ work.cells.cap

theorem Ready.head_reorder (h : Ready (T := T) work rev run start len) :
    ∀ ch ∈ (reorder T.canonicalCombiningClass run).head?, T.canonicalCombiningClass ch = 0 ∨
      work.previous ≤ T.canonicalCombiningClass ch := by
  intro ch hch
  cases run with
  | nil => cases hch
  | cons c run =>
    rcases h.head c rfl with hzero | hprevious
    · obtain ⟨rest, hrest⟩ := reorder_cons_zero hzero run
      rw [hrest] at hch
      cases hch
      exact Or.inl hzero
    · rw [hprevious]
      exact Or.inr (Nat.zero_le _)

/-- A settled run is composed in place. -/
theorem Ready.settled (hT : T.Lawful) (h : Ready (T := T) work rev run start len)
    (hsettled : Settled T.canonicalCombiningClass run) :
    ∃ work', work.composeFrom T start run.length 0 = some work' ∧
      Arrives (T := T) work work' rev run (start + run.length) len := by
  have hhead := h.head_reorder
  rw [reorder_of_settled hsettled] at hhead
  have hstop := h.stop
  have hcap := h.cap
  obtain ⟨work', hrun, hadvances⟩ := @composeFrom_spec T hT start run rev 0 work h.composed
    hsettled hhead h.cells h.written (by omega)
  have hwritten := h.written
  have hle := hadvances.written
  refine ⟨work', hrun, ?_, hadvances.kept.cap, fun i hi _ => hadvances.kept.cell i (by omega),
    by omega⟩
  rw [reorder_of_settled hsettled]
  exact hadvances.composed

/-- A run that is not settled is sorted and composed from the scratch. -/
theorem Ready.sorted (hT : T.Lawful) (h : Ready (T := T) work rev run start len)
    (htail : ∀ ch ∈ run.tail, T.canonicalCombiningClass ch ≠ 0)
    (hroom : len + run.length ≤ work.cells.cap) :
    ∃ cells work', sortRun T work.cells len start (start + run.length) = some cells ∧
      { work with cells }.composeFrom T len run.length 0 = some work' ∧
      Arrives (T := T) work work' rev run (start + run.length) len := by
  have hhead := h.head_reorder
  have hwritten := h.written
  have hstop := h.stop
  obtain ⟨cells, hsort, hcap, hkept, hcells⟩ := sortRun_spec hT h.stop hroom h.cells
  have hcomposed := h.composed.congr fun i hi => hkept i (by omega)
  rw [buckets_eq_reorder (fun ch _ => hT.class_lt ch) htail] at hcells
  have hlen : (reorder T.canonicalCombiningClass run).length = run.length := length_reorder run
  obtain ⟨work', hrun, hadvances⟩ := @composeFrom_spec T hT len _ rev 0 { work with cells }
    hcomposed (settled_reorder run) hhead (fun j hj => hcells j (hlen ▸ hj)) (by dsimp only; omega)
    (by dsimp only; omega)
  have hle := hadvances.written
  rw [hlen] at hrun
  refine ⟨cells, work', hsort, hrun, hadvances.composed, hadvances.kept.cap.trans hcap,
    fun i hi hlt => ?_, ?_⟩
  · refine (hadvances.kept.cell i ?_).trans (hkept i hlt)
    dsimp only
    omega
  · dsimp only at hle
    omega

theorem Fits.left {scratch : ℕ} {run rest : List Char}
    (h : Fits (T := T) scratch (run ++ rest)) (htail : ∀ ch ∈ run.tail,
      T.canonicalCombiningClass ch ≠ 0) (hrun : ¬Settled T.canonicalCombiningClass run) :
    run.length ≤ scratch :=
  h [] run rest rfl htail hrun

theorem Fits.right {scratch : ℕ} {run rest : List Char}
    (h : Fits (T := T) scratch (run ++ rest)) : Fits (T := T) scratch rest := by
  rintro front other back rfl
  refine h (run ++ front) other back ?_
  simp only [List.append_assoc]

section Split

variable {todo rest : List Char} {next : Work}

theorem Ready.left (h : Ready (T := T) work rev todo start len) (hrun : Run (T := T) todo run rest) :
    Ready (T := T) work rev run start len := by
  obtain ⟨rfl, -, -⟩ := hrun
  have hstop := h.stop
  rw [List.length_append] at hstop
  refine ⟨h.composed, fun ch hch => h.head ch ?_, h.written, fun j hj => ?_, by omega, h.cap⟩
  · cases run with
    | nil => cases hch
    | cons c run => exact hch
  · rw [h.cells j (by rw [List.length_append]; omega), List.getElem?_append_left hj]

/-- Behind a run, the work is ready for the next one. -/
theorem Arrives.ready (h : Ready (T := T) work rev todo start len)
    (hrun : Run (T := T) todo run rest)
    (ha : Arrives (T := T) work next rev run (start + run.length) len) :
    Ready (T := T) next ((reorder T.canonicalCombiningClass run).foldl (compositionStep T) rev) rest
      (start + run.length) len := by
  obtain ⟨rfl, -, hhead⟩ := hrun
  have hstop := h.stop
  rw [List.length_append] at hstop
  refine ⟨ha.composed, fun ch hch => Or.inl (hhead ch hch), ha.written, fun j hj => ?_, by omega, ?_⟩
  · rw [ha.cells _ (Nat.le_add_right _ _) (by omega), Nat.add_assoc,
      h.cells _ (by rw [List.length_append]; omega),
      List.getElem?_append_right (Nat.le_add_right _ _), Nat.add_sub_cancel_left]
  · rw [ha.cap]
    exact h.cap

theorem Arrives.trans {work' : Work} {stop : ℕ} (hrun : Run (T := T) todo run rest)
    (ha : Arrives (T := T) work next rev run stop len)
    (hb : Arrives (T := T) next work'
      ((reorder T.canonicalCombiningClass run).foldl (compositionStep T) rev) rest len len) :
    Arrives (T := T) work work' rev todo len len := by
  refine ⟨?_, hb.cap.trans ha.cap, fun i hi hlt => absurd hlt (Nat.not_lt.mpr hi), hb.written⟩
  rw [hrun.reorder_eq, List.foldl_append]
  exact hb.composed

end Split

theorem runsFrom_end {orderedAll : Bool} {rounds : ℕ} (h : ¬start < len) :
    work.runsFrom T len orderedAll rounds start = some work := by
  cases rounds <;> exact if_neg h

/-- One round, for a run in order. -/
theorem runsFrom_settled {orderedAll : Bool} {rounds bound stop : ℕ} (hlt : start < len)
    (hbound : (if orderedAll then len else start) = bound)
    (hscan : scanFrom T work.cells start (len - bound) bound 0 true = some (stop, true)) :
    work.runsFrom T len orderedAll (rounds + 1) start =
      (work.composeFrom T start (stop - start) 0).bind fun next =>
        next.runsFrom T len orderedAll rounds stop := by
  rw [Work.runsFrom, if_pos hlt, hbound]
  dsimp only
  rw [hscan]
  rfl

/-- One round, for a run that has to be sorted. -/
theorem runsFrom_sorted {rounds stop : ℕ} {cells : Cells} (hlt : start < len)
    (hscan : scanFrom T work.cells start (len - start) start 0 true = some (stop, false))
    (hsort : sortRun T work.cells len start stop = some cells) :
    work.runsFrom T len false (rounds + 1) start =
      ({ work with cells }.composeFrom T len (stop - start) 0).bind fun next =>
        next.runsFrom T len false rounds stop := by
  rw [Work.runsFrom, if_pos hlt, if_neg Bool.false_ne_true]
  dsimp only
  rw [hscan]
  change (sortRun T work.cells len start stop).bind _ = _
  rw [hsort]
  rfl

/-- The loop composes what it reorders. -/
theorem runsFrom_spec (hT : T.Lawful) {orderedAll : Bool} : ∀ {rounds : ℕ}
    {todo rev : List Char} {start : ℕ} {work : Work}, todo.length ≤ rounds →
      start + todo.length = len → len + scratch ≤ work.cells.cap → Fits (T := T) scratch todo →
      (orderedAll = true → Settled T.canonicalCombiningClass todo) →
      Ready (T := T) work rev todo start len →
      ∃ work', work.runsFrom T len orderedAll rounds start = some work' ∧
        Arrives (T := T) work work' rev todo len len
  | rounds, [], rev, start, work, _, hlen, _, _, _, h => by
    rw [List.length_nil, Nat.add_zero] at hlen
    refine ⟨work, runsFrom_end (by omega), h.composed, rfl, fun _ _ _ => rfl, ?_⟩
    exact hlen ▸ h.written
  | 0, _ :: _, _, _, _, hrounds, _, _, _, _, _ => absurd hrounds (Nat.not_succ_le_zero _)
  | rounds + 1, ch :: todo, rev, start, work, hrounds, hlen, hcap, hfits, hall, h => by
    have hlt : start < len := by
      rw [List.length_cons] at hlen
      omega
    have hleft : len - start = (ch :: todo).length := by omega
    cases orderedAll with
    | true =>
      obtain ⟨next, hnext, ha⟩ := h.settled hT (hall rfl)
      refine ⟨next, ?_, hlen ▸ ha⟩
      have hscan : scanFrom T work.cells start (len - len) len 0 true = some (len, true) := by
        rw [Nat.sub_self]
        rfl
      rw [runsFrom_settled hlt (if_pos rfl) hscan, hleft, hnext]
      exact runsFrom_end (Nat.lt_irrefl len)
    | false =>
      obtain ⟨run, rest, hrun, hne, hscan⟩ := @scan_spec T work.cells start (ch :: todo)
        (List.cons_ne_nil _ _) fun j hj => (Cells.read_eq (by omega)).trans (h.cells j hj)
      rw [← hleft] at hscan
      have hsplit := congrArg List.length hrun.split
      rw [List.length_append] at hsplit
      have hpos := List.length_pos_iff.mpr hne
      rw [List.length_cons] at hrounds hsplit hlen
      rw [hrun.split] at hfits
      have hready := h.left hrun
      -- the rest is done by the same loop, from behind the run
      have hgo : ∀ next, Arrives (T := T) work next rev run (start + run.length) len →
          ∃ work', next.runsFrom T len false rounds (start + run.length) = some work' ∧
            Arrives (T := T) work work' rev (ch :: todo) len len := by
        intro next ha
        obtain ⟨work', hrest, hb⟩ := runsFrom_spec hT (show rest.length ≤ rounds by omega)
          (by omega) (by rw [ha.cap]; exact hcap) hfits.right
          (fun hfalse => absurd hfalse Bool.false_ne_true) (ha.ready h hrun)
        exact ⟨work', hrest, ha.trans hrun hb⟩
      by_cases hsettled : Settled T.canonicalCombiningClass run
      · rw [decide_eq_true hsettled] at hscan
        obtain ⟨next, hnext, ha⟩ := hready.settled hT hsettled
        rw [runsFrom_settled hlt (if_neg Bool.false_ne_true) hscan, Nat.add_sub_cancel_left, hnext]
        exact hgo next ha
      · rw [decide_eq_false hsettled] at hscan
        have hroom := hfits.left hrun.tail hsettled
        obtain ⟨cells, next, hsort, hnext, ha⟩ := hready.sorted hT hrun.tail (by omega)
        rw [runsFrom_sorted hlt hscan hsort, Nat.add_sub_cancel_left, hnext]
        exact hgo next ha

end Segment

/-! ## The whole loop -/

theorem mapM_range {f : ℕ → Option Char} {xs : List Char} (h : ∀ i < xs.length, f i = xs[i]?) :
    (List.range xs.length).mapM f = some xs := by
  have hall : ∀ n ≤ xs.length, (List.range n).mapM f = some (xs.take n) := by
    intro n hn
    induction n with
    | zero => rfl
    | succ n ih =>
      have hx : f n = some xs[n] := (h n hn).trans (List.getElem?_eq_getElem hn)
      rw [List.range_succ, List.mapM_append, ih (by omega), List.mapM_cons, List.mapM_nil, hx,
        List.take_succ_eq_append_getElem hn]
      rfl
  rw [hall _ le_rfl, List.take_length]

/-- The characters are reordered and composed within the allocation. -/
theorem composeAll_eq (hT : T.Lawful) {input : Cells} {scratch : ℕ} {xs : List Char}
    (hcells : ∀ i < xs.length, input.cell i = xs[i]?) (hcap : xs.length + scratch ≤ input.cap)
    (hfits : Fits (T := T) scratch xs)
    (hordered : input.cap = xs.length → Settled T.canonicalCombiningClass xs) :
    composeAll T input xs.length =
      some (canonicalComposition T (reorder T.canonicalCombiningClass xs)) := by
  have hready : Ready (T := T) { cells := input } [] xs 0 xs.length := by
    refine ⟨⟨rfl, fun i hi => absurd hi (Nat.not_lt_zero i), rfl, rfl, nofun⟩,
      fun _ _ => Or.inr rfl, le_rfl, fun j hj => ?_, by omega, ?_⟩
    · rw [Nat.zero_add]
      exact hcells j hj
    · dsimp only
      omega
  obtain ⟨work, hrun, ha⟩ := @runsFrom_spec T xs.length scratch hT
    (decide (input.cap = xs.length)) xs.length xs [] 0 { cells := input } le_rfl (Nat.zero_add _)
    hcap hfits (fun h => hordered (of_decide_eq_true h)) hready
  have hwritten := ha.composed.written
  have hle := ha.written
  have hcap' : work.cells.cap = input.cap := ha.cap
  unfold composeAll
  rw [hrun]
  change (List.range work.written).mapM work.cells.read = _
  rw [hwritten, ← List.length_reverse]
  refine mapM_range fun i hi => ?_
  rw [List.length_reverse] at hi
  rw [Cells.read_eq (by omega)]
  exact ha.composed.cells i hi

end Cartel.Pg.Scram
