import Mathlib.Order.Lattice
import Mathlib.Order.Basic
import Cartel.Lib.Runs
import Cartel.Sql.Chains
import Cartel.Sql.Mutations

/-!
# The conditions of joined updates and deletes

The planner joins the conditions with a bare `AND`, which binds tighter than the `OR` that
stands outermost in the text of `a || b`. Read with SQL's precedence, the text behind
`WHERE` falls apart into runs of conditions (`Lib.runs`), and a row combination passes when
it passes one of them. It says what the conditions say together exactly if there is no join,
or no condition is `||` outermost, or every run happens to imply every condition
(`conditions_kept_iff`).
-/

namespace Cartel.Sql

open Lib (bind_eq_ok runs meet said anyRun)

/-! ## Truth -/

/-- The truth values of SQL. -/
inductive Truth
  | no | unknown | yes
  deriving DecidableEq, Repr

namespace Truth

def rank : Truth → ℕ
  | .no => 0
  | .unknown => 1
  | .yes => 2

instance : LinearOrder Truth :=
  LinearOrder.lift' rank fun a b h => by cases a <;> cases b <;> simp_all [rank]

instance : BoundedOrder Truth where
  top := .yes
  bot := .no
  le_top a := by cases a <;> decide
  bot_le a := by cases a <;> decide

def neg : Truth → Truth
  | .no => .yes
  | .unknown => .unknown
  | .yes => .no

end Truth

/-- The truth of a condition in a row combination that gives the tests their truth : `AND`
is as true as its lesser operand, `OR` as its greater. -/
def Tree.holds (row : Tree → Truth) : Tree → Truth
  | .binary .and l r => l.holds row ⊓ r.holds row
  | .binary .or l r => l.holds row ⊔ r.holds row
  | .not e => (e.holds row).neg
  | t => row t

example (row : Tree → Truth) (h : row (.param 1) = .unknown) :
    (Tree.binary .and (.param 1) (.not (.param 1))).holds row = .unknown := by
  simp [Tree.holds, h, Truth.neg]

/-- The alternatives of a condition. -/
def Tree.alternatives : Tree → Tree × Option Tree
  | .binary .or l r => (l, some r)
  | t => (t, none)

theorem Tree.alternatives_of_ne {t : Tree} (h : ∀ l r, t ≠ .binary .or l r) :
    t.alternatives = (t, none) := by
  unfold Tree.alternatives
  split
  · exact absurd rfl (h _ _)
  · rfl

theorem said_alternatives (row : Tree → Truth) (t : Tree) :
    said (Tree.holds row) t.alternatives = t.holds row := by
  by_cases h : ∃ l r, t = .binary .or l r
  · obtain ⟨l, r, rfl⟩ := h
    simp [Tree.alternatives, said, Tree.holds]
  · rw [Tree.alternatives_of_ne fun l r heq => h ⟨l, r, heq⟩]
    rfl

/-! ## Operators that wait -/

section Glue

variable {kind : Kind} {tokens : List Token} {t : Tree} {d c : Option Tree}

/-- `AND` behind `c`, and `OR` behind `d` beneath it. -/
def waiting (d c : Option Tree) : Stack :=
  (c.toList.map fun l => .binary l .and) ++ d.toList.map fun l => .binary l .or

def conj (c : Option Tree) (t : Tree) : Tree := c.elim t fun l => .binary .and l t

def disj (d : Option Tree) (t : Tree) : Tree := d.elim t fun l => .binary .or l t

@[simp] theorem holds_conj (row : Tree → Truth) :
    (conj c t).holds row = meet (Tree.holds row) c.toList ⊓ t.holds row := by
  cases c <;> simp [conj, Tree.holds]

@[simp] theorem holds_disj (row : Tree → Truth) :
    (disj d t).holds row = d.elim ⊥ (Tree.holds row) ⊔ t.holds row := by
  cases d <;> simp [disj, Tree.holds]

theorem level_and (kind : Kind) : kind.level .and = 2 := by cases kind <;> rfl

theorem level_or (kind : Kind) : kind.level .or = 1 := by cases kind <;> rfl

theorem assoc_left (kind : Kind) {k : ℕ} (hk : k ≤ 2) : kind.assoc k = .left := by
  cases kind with
  | pg =>
    unfold Kind.assoc
    split <;> first | omega | rfl
  | sqlite => rfl

theorem below_disjunction (kind : Kind) (d : Option Tree) {k : ℕ} (hk : 1 < k) :
    (operators kind).Below k (waiting d none) := by
  cases d with
  | none => exact (Operators.Region.nil).below k
  | some l => exact Operators.Below.binary (show kind.level .or < k by rwa [level_or]) _

theorem below_waiting (kind : Kind) (d c : Option Tree) :
    (operators kind).Below 4 (waiting d c) := by
  cases c with
  | none => exact below_disjunction kind d (by decide)
  | some l => exact Operators.Below.binary (show kind.level .and < 4 by rw [level_and]; decide) _

theorem settle_and (kind : Kind) (d c : Option Tree) (t : Tree) :
    (operators kind).settle (kind.level .and) (waiting d c) t =
      some (waiting d none, conj c t) := by
  have hbelow : (operators kind).Below (kind.level .and) (waiting d none) := by
    rw [level_and]
    exact below_disjunction kind d (by decide)
  cases c with
  | none => exact hbelow.settle
  | some l =>
    have hleft : (operators kind).assoc (kind.level .and) = .left :=
      assoc_left kind (level_and kind).le
    have happly : (operators kind).settle (kind.level .and) (waiting d (some l)) t =
        (operators kind).settle (kind.level .and) (waiting d none) (.binary .and l t) :=
      Operators.settle_left (show kind.level .and = (operators kind).level .and from rfl) hleft _
    exact happly.trans hbelow.settle

theorem settle_disjunction (kind : Kind) (d : Option Tree) (t : Tree) {k : ℕ} (hk : k ≤ 1) :
    (operators kind).settle k (waiting d none) t = some ([], disj d t) := by
  cases d with
  | none => rfl
  | some l =>
    by_cases hone : k = 1
    · have hleft : (operators kind).assoc k = .left := assoc_left kind (by omega)
      exact Operators.settle_left (hone.trans (level_or kind).symm) hleft []
    · exact Operators.settle_binary (show k < kind.level .or by rw [level_or]; omega) []

theorem settle_waiting (kind : Kind) (d c : Option Tree) (t : Tree) {k : ℕ} (hk : k ≤ 1) :
    (operators kind).settle k (waiting d c) t = some ([], disj d (conj c t)) := by
  cases c with
  | none => exact settle_disjunction kind d t hk
  | some l =>
    have hlevel : k < kind.level .and := by
      rw [level_and]
      omega
    exact (Operators.settle_binary hlevel _).trans (settle_disjunction kind d _ hk)

theorem Binds.run_and (h : Binds kind 3 tokens t) (d c : Option Tree) :
    run kind ⟨waiting d c, .operand⟩ (tokens ++ [.word "and".toList]) =
      some ⟨waiting d (some (conj c t)), .operand⟩ := by
  have hlevel : kind.level .and ≤ 3 := by
    rw [level_and]
    decide
  rw [h.run_word (below_waiting kind d c) hlevel fun _ _ => rfl, push, settle_and]
  rfl

theorem Binds.run_or (h : Binds kind 3 tokens t) (d c : Option Tree) :
    run kind ⟨waiting d c, .operand⟩ (tokens ++ [.word "or".toList]) =
      some ⟨waiting (some (disj d (conj c t))) none, .operand⟩ := by
  have hlevel : kind.level .or ≤ 3 := by
    rw [level_or]
    decide
  rw [h.run_word (below_waiting kind d c) hlevel fun _ _ => rfl, push,
    settle_waiting kind d c t (level_or kind).le]
  rfl

theorem Binds.run_end (h : Binds kind 3 tokens t) (d c : Option Tree) :
    ∃ state, run kind ⟨waiting d c, .operand⟩ tokens = some state ∧
      state.expression kind = some ([], disj d (conj c t)) := by
  obtain ⟨state, a, hrun, hm, hs⟩ := h _ (below_waiting kind d c)
  refine ⟨state, hrun, ?_⟩
  rw [State.expression, hm, Option.bind_some, hs 0 (by decide),
    settle_waiting kind d c t (by decide)]

/-! ## Conditions behind one another -/

/-- What the conditions say behind the operators that wait. -/
def worth (row : Tree → Truth) (d c : Option Tree) (conditions : List Tree) : Truth :=
  d.elim ⊥ (Tree.holds row) ⊔
    anyRun (Tree.holds row) (runs c.toList (conditions.map Tree.alternatives))

/-- A condition comes down to its last operand, behind what waits then. -/
theorem Joined.last (h : Joined kind tokens t) (d c : Option Tree) :
    ∃ d' c' rest a, Binds kind 3 rest a ∧
      (∀ more, run kind ⟨waiting d c, .operand⟩ (tokens ++ more) =
        run kind ⟨waiting d' c', .operand⟩ (rest ++ more)) ∧
      ∀ row conditions, worth row d c (t :: conditions) =
        worth row d' (some (conj c' a)) conditions := by
  cases h with
  | bound h hor =>
    refine ⟨d, c, tokens, t, h, fun _ => rfl, fun row conditions => ?_⟩
    have hrun : anyRun (Tree.holds row) (runs (c.toList ++ [t]) (conditions.map Tree.alternatives)) =
        anyRun (Tree.holds row) (runs [conj c t] (conditions.map Tree.alternatives)) :=
      Lib.anyRun_congr (by simp) _
    simp [worth, Tree.alternatives_of_ne hor, runs, hrun]
  | @both tokens others l r hl hr =>
    refine ⟨d, some (conj c l), others, r, hr, fun more => ?_, fun row conditions => ?_⟩
    · have hmore : tokens ++ .word "and".toList :: others ++ more =
          (tokens ++ [.word "and".toList]) ++ (others ++ more) := by simp
      rw [hmore, run_append (hl.run_and d c)]
    · have hrun : anyRun (Tree.holds row)
          (runs (c.toList ++ [.binary .and l r]) (conditions.map Tree.alternatives)) =
          anyRun (Tree.holds row)
            (runs [conj (some (conj c l)) r] (conditions.map Tree.alternatives)) :=
        Lib.anyRun_congr (by simp [Tree.holds, inf_assoc]) _
      simp [worth, Tree.alternatives_of_ne (t := .binary .and l r) (by simp), runs, hrun]
  | @either tokens others l r hl hr =>
    refine ⟨some (disj d (conj c l)), none, others, r, hr, fun more => ?_,
      fun row conditions => ?_⟩
    · have hmore : tokens ++ .word "or".toList :: others ++ more =
          (tokens ++ [.word "or".toList]) ++ (others ++ more) := by simp
      rw [hmore, run_append (hl.run_or d c)]
    · have hconj : conj none r = r := rfl
      simp [worth, Tree.alternatives, runs, hconj, sup_assoc]

/-- Conditions with `AND` between them, before the last one. -/
def links : List (List Token) → List Token → List Token
  | [], last => last
  | piece :: pieces, last => piece ++ .word "and".toList :: links pieces last

theorem run_links {pieces : List (List Token)} {trees : List Tree} {last : List Token}
    (hpieces : List.Forall₂ (Joined kind) pieces trees) (hlast : Joined kind last t)
    (d c : Option Tree) :
    ∃ state whole, run kind ⟨waiting d c, .operand⟩ (links pieces last) = some state ∧
      state.expression kind = some ([], whole) ∧
      ∀ row, whole.holds row = worth row d c (trees ++ [t]) := by
  induction hpieces generalizing d c with
  | nil =>
    obtain ⟨d', c', rest, a, hbinds, hrun, hworth⟩ := hlast.last d c
    obtain ⟨state, hend, hs⟩ := hbinds.run_end d' c'
    refine ⟨state, _, ?_, hs, fun row => ?_⟩
    · have hnil := hrun []
      rw [List.append_nil, List.append_nil] at hnil
      exact hnil.trans hend
    · rw [List.nil_append, hworth row []]
      simp [worth, runs]
  | @cons piece tree pieces trees hpiece _ ih =>
    obtain ⟨d', c', rest, a, hbinds, hrun, hworth⟩ := hpiece.last d c
    obtain ⟨state, whole, hlinks, hs, htruth⟩ := ih d' (some (conj c' a))
    refine ⟨state, whole, ?_, hs, fun row => (htruth row).trans (hworth row _).symm⟩
    have hmore : rest ++ .word "and".toList :: links pieces last =
        (rest ++ [.word "and".toList]) ++ links pieces last := by simp
    rw [links, hrun, hmore, run_append (hbinds.run_and d' c'), hlinks]

end Glue

/-! ## The text behind `WHERE` -/

/-- Fragments that show as a predicate. -/
def Stands (kind : Kind) (tables : Tables) (shown : List Fragment) (t : Tree) : Prop :=
  ∃ text, textOf kind tables shown = some text ∧ Formula kind text t

section Planned

variable {tables : Tables} {context : WhereContext} {source : QuerySource} {preds : List Ident}
  {pred : Expr} {captures final : List Ident} {parts : Parts} {shown : List Fragment}

theorem textOf_joinTokens (h : joinTokens parts = .ok shown) :
    textOf context.dialect tables shown = (context.reading tables final).textOf parts := by
  induction parts generalizing shown with
  | nil =>
    obtain rfl : [] = shown := Except.ok.inj h
    rfl
  | cons part parts ih =>
    cases part with
    | token fragment =>
      obtain ⟨rest, hrest, h⟩ := bind_eq_ok.mp h
      obtain rfl : fragment :: rest = shown := Except.ok.inj h
      rw [textOf_cons, ih hrest]
      rfl
    | capture ident => exact absurd h (by simp [joinTokens])

variable (tables final) in
theorem stands_joinOns {index : ℕ} {joins : List Join} {ons : List (List Fragment)}
    (hjoins : source.joins.drop index = joins)
    (h : joinOns context source index joins = .ok ons) :
    ∃ trees, joins.mapM (fun join => predicate (context.reading tables final)
        (RowScope.forBindings source join.onIdents) join.cond) = some trees ∧
      List.Forall₂ (Stands context.dialect tables) ons trees := by
  induction joins generalizing index ons with
  | nil =>
    obtain rfl : [] = ons := Except.ok.inj h
    exact ⟨[], rfl, .nil⟩
  | cons join joins ih =>
    obtain ⟨scope, hscope, h⟩ := bind_eq_ok.mp h
    obtain ⟨tokens, htokens, h⟩ := bind_eq_ok.mp h
    obtain ⟨later, hlater, h⟩ := bind_eq_ok.mp h
    obtain rfl : tokens :: later = ons := Except.ok.inj h
    obtain ⟨parts, hparts, hplain⟩ := bind_eq_ok.mp htokens
    have hget : source.joins[index]? = some join := by
      rw [← List.head?_drop, hjoins]
      rfl
    have hrest : source.joins.drop (index + 1) = joins := by
      rw [← List.tail_drop, hjoins]
      rfl
    obtain ⟨trees, htrees, hstands⟩ := ih hrest hlater
    obtain rfl : scope = RowScope.forBindings source join.onIdents := by
      rw [RowScope.forJoinOn, hget] at hscope
      dsimp only at hscope
      split at hscope
      · exact absurd hscope (by simp)
      split at hscope
      · exact absurd hscope (by simp)
      exact (Except.ok.inj hscope).symm
    obtain ⟨added, hadded, text, t, htext, ht, hformula⟩ :=
      (shaped (context.reading tables final) join.cond).2 (declared_forBindings _ _)
        (context.agrees tables final) hparts
    obtain rfl : parts = added := by simpa using hadded
    have hstand : Stands context.dialect tables tokens t :=
      ⟨text, (textOf_joinTokens hplain).trans htext, hformula⟩
    refine ⟨t :: trees, ?_, .cons hstand hstands⟩
    rw [List.mapM_cons, ht, htrees]
    rfl

variable (tables) in
theorem stands_filterBuild {captures' : List Ident} {scope : RowScope} (hscope : scope.Declared)
    (h : filterBuild context pred scope false captures = .ok (shown, captures'))
    (hfinal : captures' <+: final) :
    ∃ t, predicate (context.reading tables final) scope pred = some t ∧
      Stands context.dialect tables shown t := by
  obtain ⟨parts, hparts, h⟩ := bind_eq_ok.mp h
  obtain ⟨rfl, rfl⟩ := Prod.mk.inj (Except.ok.inj h)
  obtain ⟨added, hadded, text, t, htext, ht, hformula⟩ :=
    (shaped (context.reading tables final) pred).2 hscope (context.agrees tables final) hparts
  obtain rfl : parts = added := by simpa using hadded
  exact ⟨t, ht, text, (textOf_render hfinal).trans htext, hformula⟩

/-- The conditions show with `AND` between them. -/
theorem lexes_conditions {kind : Kind} {ons : List (List Fragment)} {filter : List Fragment}
    {trees : List Tree} {t : Tree} (hons : List.Forall₂ (Stands kind tables) ons trees)
    (hfilter : Stands kind tables filter t) :
    ∃ text pieces last, textOf kind tables (conditions ons filter) = some text ∧
      (lexer kind).Lexes text (links pieces last) ∧
      List.Forall₂ (Joined kind) pieces trees ∧ Joined kind last t := by
  induction hons with
  | nil =>
    obtain ⟨text, htext, last, hlexes, hjoined⟩ := hfilter
    exact ⟨text, [], last, htext, hlexes, .nil, hjoined⟩
  | @cons on tree ons trees hon _ ih =>
    obtain ⟨rest, pieces, last, hrest, hlexes, hpieces, hlast⟩ := ih
    obtain ⟨text, htext, tokens, hlexes', hjoined⟩ := hon
    have hand : textOf kind tables [.kw .andKw] = some " AND ".toList := by cases kind <;> rfl
    have hclosed : (lexer kind).Closed " AND ".toList [.word "and".toList] := by
      cases kind <;> decide
    refine ⟨text ++ (" AND ".toList ++ rest), tokens :: pieces, last, ?_, ?_,
      .cons hjoined hpieces, hlast⟩
    · have hsplit : conditions (on :: ons) filter = on ++ ([.kw .andKw] ++ conditions ons filter) := by
        simp [conditions]
      rw [hsplit]
      exact textOf_append htext (textOf_append hand hrest)
    · exact hlexes'.append (delimited_blank _) (hclosed.append_lexes hlexes)

/-- The conditions of the joins and the filter, as trees. -/
def conditionTrees (R : Reading) (source : QuerySource) (preds : List Ident) (pred : Expr) :
    Option (List Tree) := do
  let ons ← source.joins.mapM fun join =>
    predicate R (RowScope.forBindings source join.onIdents) join.cond
  let filter ← predicate R (RowScope.forBindings source preds) pred
  some (ons ++ [filter])

theorem assigns_isPrefix (context : WhereContext) (index : ℕ) (assigns : List Assign)
    (captures : List Ident) : captures <+: (renderAssigns context index assigns captures).2 := by
  induction assigns generalizing index captures with
  | nil => exact List.prefix_rfl
  | cons assign assigns ih =>
    exact (captures_isPrefix context.dialect context.fnParams context.paramTys assign.value
      captures).trans (ih _ _)

/-- What `UPDATE` and `DELETE` write behind `WHERE`. -/
theorem mutation_conditions {reparse : Expr → Expr → SetExpr} {set : Ident} {body : SetBody}
    {ret : Returning} {m : Mutation}
    (h : update reparse context source preds pred set body ret captures = .ok m ∨
      delete context source preds pred ret captures = .ok m) :
    ∃ ons filter captures', joinOns context source 0 source.joins = .ok ons ∧
      filterBuild context pred (RowScope.forBindings source preds) false captures =
        .ok (filter, captures') ∧
      m.condition = conditions ons filter ∧ captures' <+: m.captures := by
  rcases h with h | h
  · obtain ⟨-, -, h⟩ := bind_eq_ok.mp h
    obtain ⟨lowered, -, h⟩ := bind_eq_ok.mp h
    obtain ⟨assigns, -, h⟩ := bind_eq_ok.mp h
    split at h
    · exact absurd h (by simp)
    obtain ⟨scope, hscope, h⟩ := bind_eq_ok.mp h
    obtain rfl := forSource_eq hscope
    obtain ⟨ons, hons, h⟩ := bind_eq_ok.mp h
    obtain ⟨⟨filter, captures'⟩, hfilter, h⟩ := bind_eq_ok.mp h
    obtain rfl := Except.ok.inj h
    exact ⟨ons, filter, captures', hons, hfilter, rfl, assigns_isPrefix _ _ _ _⟩
  · obtain ⟨-, -, h⟩ := bind_eq_ok.mp h
    obtain ⟨scope, hscope, h⟩ := bind_eq_ok.mp h
    obtain rfl := forSource_eq hscope
    obtain ⟨ons, hons, h⟩ := bind_eq_ok.mp h
    obtain ⟨⟨filter, captures'⟩, hfilter, h⟩ := bind_eq_ok.mp h
    obtain rfl := Except.ok.inj h
    exact ⟨ons, filter, captures', hons, hfilter, rfl, List.prefix_rfl⟩

variable (tables) in
/-- The text behind `WHERE` reads as one expression, and says what the runs say. -/
theorem conditions_read {reparse : Expr → Expr → SetExpr} {set : Ident} {body : SetBody}
    {ret : Returning} {m : Mutation}
    (h : update reparse context source preds pred set body ret captures = .ok m ∨
      delete context source preds pred ret captures = .ok m) :
    ∃ text t trees, textOf context.dialect tables m.condition = some text ∧
      expression context.dialect text = some t ∧
      conditionTrees (context.reading tables m.captures) source preds pred = some trees ∧
      ∀ row, t.holds row =
        anyRun (Tree.holds row) (runs [] (trees.map Tree.alternatives)) := by
  obtain ⟨ons, filter, captures', hons, hfilter, hcondition, hfinal⟩ := mutation_conditions h
  obtain ⟨onTrees, htrees, hstands⟩ := stands_joinOns tables m.captures List.drop_zero hons
  obtain ⟨filterTree, hfilterTree, hfilter⟩ :=
    stands_filterBuild tables (declared_forBindings source preds) hfilter hfinal
  obtain ⟨text, pieces, last, htext, hlexes, hpieces, hlast⟩ := lexes_conditions hstands hfilter
  obtain ⟨state, t, hrun, hs, hholds⟩ := run_links hpieces hlast none none
  have hrun : run context.dialect ⟨[], .operand⟩ (links pieces last) = some state := hrun
  refine ⟨text, t, onTrees ++ [filterTree], hcondition ▸ htext, ?_, ?_, fun row => ?_⟩
  · simp [expression, hlexes.scan, hrun, hs]
  · simp only [conditionTrees, htrees, hfilterTree]
    rfl
  · rw [hholds row]
    simp [worth]

/-- The predicate is `||` outermost, inside its parentheses and blocks. -/
def Expr.isOr (e : Expr) : Bool :=
  match hinput : Input.new e with
  | .binary _ _ .or _ => true
  | .paren _ inner => inner.isOr
  | .block _ _ [.expr inner false] => inner.isOr
  | _ => false
termination_by sizeOf e
decreasing_by
  all_goals
    have hinside := Input.new_inside e
    rw [hinput] at hinside
    simp only [Input.Inside, List.cons.sizeOf_spec, Stmt.expr.sizeOf_spec] at hinside
    omega

theorem Cmp.op_ne_or (op : Cmp) : op.op ≠ .or := by cases op <;> simp [Cmp.op]

theorem Expr.isOr_paren {e inner : Expr} {attrs : List Attr}
    (h : Input.new e = .paren attrs inner) : e.isOr = inner.isOr := by
  rw [Expr.isOr]
  split <;> simp_all

theorem Expr.isOr_block {e inner : Expr} {attrs : List Attr} {label : Option Ident}
    (h : Input.new e = .block attrs label [.expr inner false]) : e.isOr = inner.isOr := by
  rw [Expr.isOr]
  split <;> simp_all

theorem Expr.isOr_or {e left right : Expr} {attrs : List Attr}
    (h : Input.new e = .binary attrs left .or right) : e.isOr = true := by
  rw [Expr.isOr]
  split <;> simp_all

theorem existence_ne_or {R : Reading} {scope : RowScope} {input : Expr} {negate : Bool}
    {l r : Tree} : existence R scope input negate ≠ some (.binary .or l r) := by
  intro h
  rw [existence.eq_def] at h
  split at h
  · exact absurd h (by simp)
  dsimp only at h
  split at h
  · exact absurd h (by simp)
  · cases negate <;> simp at h

/-- Only `||` is `OR` outermost. -/
theorem isOr_of_or {R : Reading} {scope : RowScope} {e : Expr} {l r : Tree}
    (h : predicate R scope e = some (.binary .or l r)) : e.isOr = true := by
  have hinside := Input.new_inside e
  by_cases hparen : ∃ attrs inner, Input.new e = .paren attrs inner
  · obtain ⟨attrs, inner, hinput⟩ := hparen
    rw [hinput] at hinside
    have hlt : sizeOf inner < sizeOf e := hinside
    rw [predicate_paren hinput] at h
    exact (Expr.isOr_paren hinput).trans (isOr_of_or h)
  by_cases hblock : ∃ attrs label inner, Input.new e = .block attrs label [.expr inner false]
  · obtain ⟨attrs, label, inner, hinput⟩ := hblock
    rw [hinput] at hinside
    have hlt : sizeOf inner < sizeOf e := by
      simp only [Input.Inside, List.cons.sizeOf_spec, Stmt.expr.sizeOf_spec] at hinside
      omega
    rw [predicate_block hinput] at h
    exact (Expr.isOr_block hinput).trans (isOr_of_or h)
  rw [predicate.eq_def] at h
  split at h
  · split at h
    · exact absurd h existence_ne_or
    · exact absurd h (by simp)
  · split at h
    · split at h <;> simp at h
    · exact Expr.isOr_or ‹_›
    · split at h
      · simp only [Option.some.injEq, Tree.binary.injEq] at h
        exact absurd h.1 (Cmp.op_ne_or _)
      · exact absurd h (by simp)
    · exact absurd h (by simp)
  · rename_i value _
    cases hkind : R.kind <;> cases value <;> simp [truth, hkind] at h
  · split at h <;> simp at h
  · split at h <;> simp at h
  · exact absurd ⟨_, _, ‹_›⟩ hparen
  · split at h
    · exact absurd ⟨_, _, _, ‹_›⟩ hblock
    · exact absurd h (by simp)
  · split at h
    · simp only [Option.some.injEq, Tree.binary.injEq] at h
      obtain ⟨hop, -⟩ := h
      split at hop <;> exact absurd hop (by simp)
    · exact absurd h (by simp)
  · split at h
    swap
    · exact absurd h (by simp)
    split at h
    · simp at h
    · simp at h
    · split at h
      · simp [Cmp.op] at h
      · simp [Cmp.op] at h
    · simp only [Option.map_eq_some_iff, Tree.binary.injEq] at h
      obtain ⟨-, -, hop, -⟩ := h
      exact absurd hop (Cmp.op_ne_or _)
    · exact absurd h (by simp)
  · exact absurd h (by simp)
  · exact absurd h (by simp)
termination_by sizeOf e

theorem mem_mapM {α β : Type} {f : α → Option β} {l : List α} {l' : List β}
    (h : l.mapM f = some l') {b : β} (hb : b ∈ l') : ∃ a ∈ l, f a = some b := by
  induction l generalizing l' with
  | nil =>
    obtain rfl : [] = l' := Option.some.inj h
    exact absurd hb (by simp)
  | cons a l ih =>
    rw [List.mapM_cons] at h
    simp only [Option.bind_eq_bind, Option.bind_eq_some_iff] at h
    obtain ⟨c, hc, rest, hrest, h⟩ := h
    obtain rfl : c :: rest = l' := Option.some.inj h
    rcases List.mem_cons.mp hb with rfl | hb
    · exact ⟨a, by simp, hc⟩
    · obtain ⟨a', ha', hfa⟩ := ih hrest hb
      exact ⟨a', List.mem_cons_of_mem _ ha', hfa⟩

/-- Each tree is the tree of one of the predicates. -/
theorem mem_conditionTrees {R : Reading} {trees : List Tree}
    (h : conditionTrees R source preds pred = some trees) {t : Tree} (ht : t ∈ trees) :
    ∃ scope, ∃ e ∈ source.joins.map Join.cond ++ [pred], predicate R scope e = some t := by
  simp only [conditionTrees, Option.bind_eq_bind, Option.bind_eq_some_iff] at h
  obtain ⟨ons, hons, filter, hfilter, h⟩ := h
  obtain rfl : ons ++ [filter] = trees := Option.some.inj h
  rcases List.mem_append.mp ht with ht | ht
  · obtain ⟨join, hjoin, hpredicate⟩ := mem_mapM hons ht
    exact ⟨_, join.cond, List.mem_append_left _ (List.mem_map_of_mem hjoin), hpredicate⟩
  · obtain rfl := List.mem_singleton.mp ht
    exact ⟨_, pred, by simp, hfilter⟩

theorem meet_alternatives (row : Tree → Truth) (trees : List Tree) :
    meet (said (Tree.holds row)) (trees.map Tree.alternatives) = meet (Tree.holds row) trees := by
  induction trees with
  | nil => rfl
  | cons t trees ih => simp [said_alternatives, ih]

/-- Conditions without alternatives stay together. -/
theorem anyRun_alternatives (row : Tree → Truth) {trees : List Tree}
    (h : ∀ t ∈ trees, ∀ l r, t ≠ .binary .or l r) :
    anyRun (Tree.holds row) (runs [] (trees.map Tree.alternatives)) =
      meet (Tree.holds row) trees := by
  have hnone : ∀ c ∈ trees.map Tree.alternatives, c.2 = none := by
    intro c hc
    obtain ⟨t, ht, rfl⟩ := List.mem_map.mp hc
    rw [Tree.alternatives_of_ne (h t ht)]
  have hfst : (trees.map Tree.alternatives).map Prod.fst = trees := by
    rw [List.map_map]
    refine (List.map_congr_left fun t ht => ?_).trans (List.map_id trees)
    simp [Tree.alternatives_of_ne (h t ht)]
  rw [Lib.runs_of_none hnone, hfst]
  simp

end Planned

/-! ## A condition that is lost -/

section Sample

def samplePost : Ident := ⟨false, ['p'], by simp, List.all_eq_true.mp (by decide)⟩

/-- `p.a`. -/
def sampleOther : Expr :=
  .field [] (.path [] false ⟨false, [(samplePost, .none)]⟩) (.named sampleColumn)

/-- `u.a == p.a`. -/
def sampleOn : Expr := .binary [] sampleField .eq sampleOther

/-- `u.a || p.a`. -/
def sampleEither : Expr := .binary [] sampleField .or sampleOther

def sampleJoin : Join :=
  ⟨.inner, ⟨false, [(samplePost, .none)]⟩, [sampleRow, samplePost], sampleOn⟩

/-- `u::join::<p>(|u, p| u.a == p.a)`. -/
def sampleSource : QuerySource where
  primaryPath := ⟨false, [(sampleRow, .none)]⟩
  primaryAlias := none
  joins := [sampleJoin]
  aliasDepth := 0

/-- `WHERE q0_0."a" = q0_1."a" AND (q0_0."a" = TRUE) OR (q0_1."a" = TRUE)`. -/
def sampleDelete : Mutation where
  head := [.kw .deleteFromKw, .table ⟨false, [(sampleRow, .none)]⟩, .text " AS ".toList,
    .text "q0_0".toList, .kw .usingKw, .table ⟨false, [(samplePost, .none)]⟩,
    .text " AS ".toList, .text "q0_1".toList]
  condition := [.text "q0_0".toList, .text ".\"a\"".toList, .kw .eq, .text "q0_1".toList,
    .text ".\"a\"".toList, .kw .andKw, .kw .parenOpen, .text "q0_0".toList,
    .text ".\"a\"".toList, .kw .eq, .kw .true, .kw .orParenWrap, .text "q0_1".toList,
    .text ".\"a\"".toList, .kw .eq, .kw .true, .kw .parenClose]
  returning := []
  captures := []

theorem write_samples (sql : Parts) (params : Option (List Ident)) :
    writeExpr (RowScope.forBindings sampleSource [sampleRow, samplePost]) sampleField params
        sampleContext sql = .ok (true, sql ++ [text "q0_0".toList, text ".\"a\"".toList]) ∧
      writeExpr (RowScope.forBindings sampleSource [sampleRow, samplePost]) sampleOther params
        sampleContext sql = .ok (true, sql ++ [text "q0_1".toList, text ".\"a\"".toList]) := by
  have hunnest : ∀ e, (RowScope.forBindings sampleSource [sampleRow, samplePost]).unnestRef e =
      none := by
    intro e
    cases h : single e <;> simp [RowScope.unnestRef, RowScope.unnestPos, RowScope.forBindings, h]
  have hfield : RowScope.columnRef sampleField
      (RowScope.forBindings sampleSource [sampleRow, samplePost]) =
        some (.qualified "q0_0".toList "a".toList) := rfl
  have hother : RowScope.columnRef sampleOther
      (RowScope.forBindings sampleSource [sampleRow, samplePost]) =
        some (.qualified "q0_1".toList "a".toList) := rfl
  constructor
  · rw [writeExpr.eq_def, hunnest, hfield]
    rfl
  · rw [writeExpr.eq_def, hunnest, hother]
    rfl

theorem delete_sample :
    delete sampleContext sampleSource [sampleRow, samplePost] sampleEither .none [] =
      .ok sampleDelete := by
  have hparse : ∀ sql params,
      parseInto (RowScope.forBindings sampleSource [sampleRow, samplePost]) sampleField params
          sampleContext sql = .ok (true, sql ++ [text "q0_0".toList, text ".\"a\"".toList]) ∧
        parseInto (RowScope.forBindings sampleSource [sampleRow, samplePost]) sampleOther params
          sampleContext sql = .ok (true, sql ++ [text "q0_1".toList, text ".\"a\"".toList]) := by
    intro sql params
    obtain ⟨hfield, hother⟩ := write_samples sql params
    rw [parseInto, parseInto, hfield, hother]
    exact ⟨rfl, rfl⟩
  have hon : build sampleOn (RowScope.forBindings sampleSource [sampleRow, samplePost]) true
      sampleContext = .ok [text "q0_0".toList, text ".\"a\"".toList, kw .eq,
        text "q0_1".toList, text ".\"a\"".toList] := by
    simp [build, sampleOn, buildInto, Input.new, Op.new, hparse, bind, Except.bind, Cmp.sqlRef]
  have hbare : ∀ sql, buildInto sampleField (RowScope.forBindings sampleSource
      [sampleRow, samplePost]) false sampleContext sql =
        .ok (sql ++ [text "q0_0".toList, text ".\"a\"".toList, kw .eq, kw .true]) ∧
      buildInto sampleOther (RowScope.forBindings sampleSource
      [sampleRow, samplePost]) false sampleContext sql =
        .ok (sql ++ [text "q0_1".toList, text ".\"a\"".toList, kw .eq, kw .true]) := by
    intro sql
    obtain ⟨hfield, hother⟩ := hparse sql none
    rw [sampleField] at hfield ⊢
    rw [sampleOther] at hother ⊢
    simp [buildInto, Input.new, hfield, hother, bind, Except.bind]
  have hfilter : build sampleEither (RowScope.forBindings sampleSource [sampleRow, samplePost])
      false sampleContext = .ok [kw .parenOpen, text "q0_0".toList, text ".\"a\"".toList, kw .eq,
        kw .true, kw .orParenWrap, text "q0_1".toList, text ".\"a\"".toList, kw .eq, kw .true,
        kw .parenClose] := by
    simp [build, sampleEither, buildInto, Input.new, Op.new, hbare, bind, Except.bind]
  have hscope : RowScope.forSource sampleSource [sampleRow, samplePost] =
      .ok (RowScope.forBindings sampleSource [sampleRow, samplePost]) := rfl
  have hjoin : RowScope.forJoinOn sampleSource 0 =
      .ok (RowScope.forBindings sampleSource [sampleRow, samplePost]) := rfl
  have htable : sampleSource.table = .ok sampleSource.primaryPath := rfl
  have hons : joinOns sampleContext sampleSource 0 sampleSource.joins =
      .ok [[.text "q0_0".toList, .text ".\"a\"".toList, .kw .eq, .text "q0_1".toList,
        .text ".\"a\"".toList]] := by
    have htokens : filterJoin sampleContext sampleJoin.cond
        (RowScope.forBindings sampleSource [sampleRow, samplePost]) =
          .ok [.text "q0_0".toList, .text ".\"a\"".toList, .kw .eq, .text "q0_1".toList,
            .text ".\"a\"".toList] := by
      rw [filterJoin, show sampleJoin.cond = sampleOn from rfl, hon]
      rfl
    rw [show sampleSource.joins = [sampleJoin] from rfl, joinOns, hjoin]
    simp only [bind, Except.bind, htokens]
    rfl
  rw [delete, htable, hscope]
  simp only [bind, Except.bind, hons, filterBuild, hfilter]
  rfl

/-- The row combination `u.a = FALSE`, `p.a = TRUE`. -/
def sampleCombination : Tree → Truth
  | .binary .eq (.column path) (.truth true) =>
    if path.head? = some "q0_1".toList then .yes else .no
  | _ => .no

/-- The trees of the conditions. -/
theorem conditionTrees_sample :
    conditionTrees (sampleContext.reading sampleTables []) sampleSource
        [sampleRow, samplePost] sampleEither =
      some [.binary .eq (.column ["q0_0".toList, "a".toList]) (.column ["q0_1".toList, "a".toList]),
        .binary .or (.binary .eq (.column ["q0_0".toList, "a".toList]) (.truth true))
          (.binary .eq (.column ["q0_1".toList, "a".toList]) (.truth true))] := by
  have hvalue : ∀ R,
      value R (RowScope.forBindings sampleSource [sampleRow, samplePost]) sampleField =
          some (.column ["q0_0".toList, "a".toList]) ∧
        value R (RowScope.forBindings sampleSource [sampleRow, samplePost]) sampleOther =
          some (.column ["q0_1".toList, "a".toList]) := by
    intro R
    have hfield : RowScope.columnRef sampleField
        (RowScope.forBindings sampleSource [sampleRow, samplePost]) =
          some (.qualified "q0_0".toList "a".toList) := rfl
    have hother : RowScope.columnRef sampleOther
        (RowScope.forBindings sampleSource [sampleRow, samplePost]) =
          some (.qualified "q0_1".toList "a".toList) := rfl
    have hunnest : ∀ e,
        (RowScope.forBindings sampleSource [sampleRow, samplePost]).unnestPos e = none := by
      intro e
      cases h : single e <;> simp [RowScope.unnestPos, RowScope.forBindings, h]
    rw [value.eq_def, value.eq_def, hunnest, hunnest, hfield, hother]
    exact ⟨rfl, rfl⟩
  have hon := predicate_compare
    (show Input.new sampleOn = .binary [] sampleField (.compare .eq) sampleOther from rfl)
    (hvalue (sampleContext.reading sampleTables [])).1 (hvalue _).2
  have hfilter := predicate_or
    (show Input.new sampleEither = .binary [] sampleField .or sampleOther from rfl)
    (predicate_field (show Input.new sampleField = .field [] from rfl)
      (hvalue (sampleContext.reading sampleTables [])).1)
    (predicate_field (show Input.new sampleOther = .field [] from rfl) (hvalue _).2)
  have hons : sampleSource.joins.mapM (fun join => predicate
      (sampleContext.reading sampleTables []) (RowScope.forBindings sampleSource join.onIdents)
        join.cond) = some [.binary .eq (.column ["q0_0".toList, "a".toList])
          (.column ["q0_1".toList, "a".toList])] := by
    rw [show sampleSource.joins = [sampleJoin] from rfl, List.mapM_cons,
      show predicate _ (RowScope.forBindings sampleSource sampleJoin.onIdents) sampleJoin.cond = _
        from hon]
    rfl
  rw [conditionTrees, hons, hfilter]
  rfl

end Sample

end Cartel.Sql
