import Mathlib.Data.List.Forall2
import Cartel.Lib.Outcome
import Cartel.Sql.Pieces

/-!
# Predicates keep their structure

Whatever `writeExpr` writes for a value expression reads as one operand, and whatever
`buildInto` writes for a predicate reads as one expression : the trees `value` and
`predicate` take from the Rust syntax (`Faithful`). The proof goes by the size of the
expression, one lemma for each of its forms. A form that fails writes only behind what was
there, so a failed attempt is cut off without a trace.
-/

namespace Cartel.Sql

open Lib (bind_eq_ok)

/-- The row is bound to the alias of a source, or to none. -/
def Var.Declared (var : Var) : Prop :=
  ∀ table ∈ var.tableConst, ∃ source index, table = QuerySource.qualifier source index

/-- So is every row of the scope and of those around it. -/
def RowScope.Declared : RowScope → Prop
  | ⟨vars, _, none, _, _⟩ => ∀ var ∈ vars, var.Declared
  | ⟨vars, _, some around, _, _⟩ => (∀ var ∈ vars, var.Declared) ∧ around.Declared

/-- The context of a reading. -/
structure WhereContext.Agrees (context : WhereContext) (R : Reading) : Prop where
  params : context.fnParams = R.params
  dialect : context.dialect = R.kind
  ctes : context.cteMap = R.ctes

/-- `added` reads as the tree, in the way `P` says. -/
def Reading.Shows (R : Reading) (P : Kind → Text → Tree → Prop) (added : Parts)
    (tree : Option Tree) : Prop :=
  ∃ shown t, R.textOf added = some shown ∧ tree = some t ∧ P R.kind shown t

/-- What is written behind `sql` reads as the tree. -/
def Reading.Adds (R : Reading) (P : Kind → Text → Tree → Prop) (sql sql' : Parts)
    (tree : Option Tree) : Prop :=
  ∃ added, sql' = sql ++ added ∧ R.Shows P added tree

/-- What an attempt writes behind `sql` : an operand, or what is cut off. -/
def Reading.Tries (R : Reading) (written : Bool) (sql sql' : Parts) (tree : Option Tree) : Prop :=
  if written then R.Adds Operand sql sql' tree else ∃ added, sql' = sql ++ added

/-- The parameters an expression may capture : none, or those of the function. -/
def Known (R : Reading) (params : Option (List Ident)) : Prop :=
  params = none ∨ params = some R.params

/-- Value expressions are written as operands. -/
def Writes (R : Reading) (e : Expr) : Prop :=
  ∀ ⦃scope params context sql written sql'⦄, scope.Declared → context.Agrees R →
    Known R params → writeExpr scope e params context sql = .ok (written, sql') →
      R.Tries written sql sql' (value R scope e)

/-- Predicates are written as expressions. -/
def Builds (R : Reading) (e : Expr) : Prop :=
  ∀ ⦃scope columns context sql sql'⦄, scope.Declared → context.Agrees R →
    buildInto e scope columns context sql = .ok sql' →
      R.Adds Condition sql sql' (predicate R scope e)

/-- Predicates are written in one of the outermost forms. -/
def Forms (R : Reading) (e : Expr) : Prop :=
  ∀ ⦃scope columns context sql sql'⦄, scope.Declared → context.Agrees R →
    buildInto e scope columns context sql = .ok sql' →
      R.Adds Formula sql sql' (predicate R scope e)

/-- An expression is written as what it is read as. -/
structure Faithful (R : Reading) (e : Expr) : Prop where
  write : Writes R e
  build : Builds R e

variable {R : Reading} {scope : RowScope} {e : Expr} {params : Option (List Ident)}
  {context : WhereContext} {sql sql' : Parts} {written : Bool} {tree : Option Tree}

/-! ## Constants -/

namespace Reading

/-- A constant both dialects have. -/
theorem part_shared (R : Reading) {name : Const} {s : String}
    (h : ∀ kind, name.text kind = some s) : R.part (kw name) = some s.toList :=
  R.part_kw (h R.kind)

theorem part_open (R : Reading) : R.part (kw .parenOpen) = some "(".toList :=
  R.part_shared fun kind => by cases kind <;> rfl

theorem part_close (R : Reading) : R.part (kw .parenClose) = some ")".toList :=
  R.part_shared fun kind => by cases kind <;> rfl

theorem part_comma (R : Reading) : R.part (kw .comma) = some ", ".toList :=
  R.part_shared fun kind => by cases kind <;> rfl

/-! ## What is added -/

theorem Adds.tries (h : R.Adds Operand sql sql' tree) : R.Tries true sql sql' tree := h

theorem Tries.kept (h : R.Tries written sql sql' tree) : ∃ added, sql' = sql ++ added := by
  cases written with
  | false => exact h
  | true =>
    obtain ⟨added, hadded, -⟩ := h
    exact ⟨added, hadded⟩

theorem Tries.stop (added : Parts) : R.Tries false sql (sql ++ added) tree := ⟨added, rfl⟩

theorem Tries.none : R.Tries false sql sql tree := ⟨[], by simp⟩

/-- One more piece behind what an attempt left. -/
theorem Tries.after {added : Parts} (h : R.Tries false (sql ++ added) sql' tree) :
    R.Tries false sql sql' tree := by
  obtain ⟨more, rfl⟩ := h.kept
  exact ⟨added ++ more, by simp⟩

end Reading

/-! ## Names -/

theorem unnestRef_eq_none : scope.unnestRef e = none ↔ scope.unnestPos e = none := by
  simp [RowScope.unnestRef]

theorem RowScope.Declared.vars (h : scope.Declared) : ∀ var ∈ scope.vars, var.Declared := by
  obtain ⟨vars, aggVar, _ | around, aliasDepth, unnestCols⟩ := scope
  · exact h
  · exact h.1

/-- The column of a row in the scope itself. -/
theorem localRef_cases {column : SqlColRef} (h : scope.localRef e = some column) :
    ∃ ident : Ident, column = .bare ident.name ∨
      ∃ var ∈ scope.vars, ∃ table ∈ var.tableConst, column = .qualified table ident.name := by
  cases e with
  | field attrs base member =>
    cases attrs with
    | cons attr attrs => simp [RowScope.localRef] at h
    | nil =>
      cases member with
      | unnamed index => simp [RowScope.localRef] at h
      | named ident =>
        simp only [RowScope.localRef, Option.bind_eq_some_iff, Option.map_eq_some_iff] at h
        obtain ⟨row, -, var, hvar, rfl⟩ := h
        refine ⟨ident, ?_⟩
        cases htable : var.tableConst with
        | none => exact Or.inl rfl
        | some table => exact Or.inr ⟨var, List.mem_of_find?_eq_some hvar, table, htable, rfl⟩
  | _ => simp [RowScope.localRef] at h

/-- A column reads as the tree it stands for, whichever scope binds its row. -/
theorem shows_column (R : Reading) {column : SqlColRef} (hscope : scope.Declared)
    (h : scope.columnRef e = some column) :
    R.Shows Operand column.intoParts (some column.tree) := by
  have hlocal : ∀ scope : RowScope, scope.Declared → scope.localRef e = some column →
      R.Shows Operand column.intoParts (some column.tree) := by
    intro scope hscope hlocal
    obtain ⟨ident, rfl | ⟨var, hvar, table, htable, rfl⟩⟩ := localRef_cases hlocal
    · exact ⟨_, _, R.textOf_singleton rfl, rfl, _, lexes_ident _ ident, atom_quoted _⟩
    · obtain ⟨source, index, rfl⟩ := hscope.vars var hvar table htable
      have hoperand := operand_column (source.qualifier index) (source.qualifier_isWord index)
        (by rw [source.folded_qualifier]; exact source.keyword_qualifier index)
        (lexes_ident R.kind ident) (rfl : nameOf (.quoted ident.name) = some ident.name)
      rw [source.folded_qualifier] at hoperand
      exact ⟨_, _, R.textOf_cons rfl (R.textOf_singleton rfl), rfl, hoperand⟩
  induction scope using RowScope.columnRef.induct e with
  | case1 vars aggVar aliasDepth unnestCols => exact hlocal _ hscope h
  | case2 vars aggVar around aliasDepth unnestCols column' hcolumn =>
    rw [RowScope.columnRef, hcolumn] at h
    exact hlocal _ hscope (hcolumn.trans h)
  | case3 vars aggVar around aliasDepth unnestCols hnone ih =>
    rw [RowScope.columnRef, hnone] at h
    exact ih hscope.2 h

/-- The name of a parameter is a path. -/
theorem captured_path {ident : Ident} (h : captured params e = some ident) :
    ∃ attrs qself path, e = .path attrs qself path := by
  simp only [captured, Option.bind_eq_some_iff] at h
  obtain ⟨-, -, name, hname, -⟩ := h
  cases e with
  | path attrs qself path => exact ⟨attrs, qself, path, rfl⟩
  | _ => simp [single, plainPath] at hname

/-- An expression that is neither a column nor a parameter is written by its form. -/
theorem writes_of_form
    (h : ∀ ⦃scope params context sql written sql'⦄, scope.Declared → context.Agrees R →
      Known R params →
      scope.unnestRef e = none → scope.columnRef e = none → captured params e = none →
      captured (some R.params) e = none →
      writeExpr scope e params context sql = .ok (written, sql') →
        R.Tries written sql sql' (value R scope e)) : Writes R e := by
  intro scope params context sql written sql' hscope hcontext hparams hwrite
  by_cases hu : scope.unnestRef e = none
  swap
  · obtain ⟨pos, hpos⟩ := Option.ne_none_iff_exists'.mp (mt unnestRef_eq_none.mpr hu)
    have hcolumn : scope.unnestRef e = some ("__d.f".toList ++ decimal pos) := by
      simp [RowScope.unnestRef, hpos]
    rw [writeExpr.eq_def, hcolumn] at hwrite
    rw [value.eq_def, hpos]
    obtain ⟨rfl, rfl⟩ : true = written ∧ _ = sql' := by simpa using hwrite
    exact ⟨_, rfl, _, _, R.textOf_singleton rfl, rfl, operand_unnest R.kind pos⟩
  by_cases hc : scope.columnRef e = none
  swap
  · obtain ⟨column, hcolumn⟩ := Option.ne_none_iff_exists'.mp hc
    rw [writeExpr.eq_def, hu, hcolumn] at hwrite
    rw [value.eq_def, unnestRef_eq_none.mp hu, hcolumn]
    obtain ⟨rfl, rfl⟩ : true = written ∧ _ = sql' := by simpa using hwrite
    exact ⟨_, rfl, shows_column R hscope hcolumn⟩
  by_cases hp : captured params e = none
  swap
  · obtain ⟨ident, hident⟩ := Option.ne_none_iff_exists'.mp hp
    obtain rfl | rfl := hparams
    · exact absurd rfl hp
    rw [writeExpr.eq_def, hu, hc, hident] at hwrite
    rw [value.eq_def, unnestRef_eq_none.mp hu, hc, hident]
    obtain ⟨rfl, rfl⟩ : true = written ∧ _ = sql' := by simpa using hwrite
    exact ⟨_, rfl, _, _, R.textOf_singleton rfl, rfl, R.marks ident⟩
  by_cases hk : captured (some R.params) e = none
  swap
  · obtain ⟨ident, hident⟩ := Option.ne_none_iff_exists'.mp hk
    obtain ⟨attrs, qself, path, rfl⟩ := captured_path hident
    rw [writeExpr.eq_def, hu, hc, hp] at hwrite
    obtain ⟨rfl, rfl⟩ : false = written ∧ sql = sql' := by simpa using hwrite
    exact Reading.Tries.none
  exact h hscope hcontext hparams hu hc hp hk hwrite

/-! ## Value expressions -/

/-- A literal reads as itself. -/
theorem shows_literal (R : Reading) {attrs : List Attr} {lit : Lit} {part : Part}
    (h : literal attrs lit = some part) :
    R.Shows Operand [part] (literalTree R.kind lit) := by
  rw [literal.eq_def] at h
  split at h
  · exact absurd h (by simp)
  cases lit with
  | int lit =>
    obtain rfl : text lit.digits = part := by simpa using h
    exact ⟨_, _, R.textOf_singleton rfl, rfl, operand_number lit.isNumber⟩
  | float lit =>
    obtain rfl : text lit.digits = part := by simpa using h
    exact ⟨_, _, R.textOf_singleton rfl, rfl, operand_number lit.isNumber⟩
  | bool value =>
    obtain rfl : kw (if value then .true else .false) = part := by simpa using h
    obtain ⟨s, hs, hoperand⟩ := operand_truth R.kind value
    exact ⟨_, _, R.textOf_singleton (R.part_kw hs), rfl, hoperand⟩
  | str value =>
    obtain rfl : text (quotedString value) = part := by simpa using h
    exact ⟨_, _, R.textOf_singleton rfl, rfl, operand_string value⟩
  | other => exact absurd h (by simp)

theorem writes_binary {attrs : List Attr} {left right : Expr} {op : BinOp}
    (hl : Writes R left) (hr : Writes R right) : Writes R (.binary attrs left op right) := by
  refine writes_of_form fun scope params context sql written sql' hscope hcontext hparams
    hu hc hp hk hwrite => ?_
  rw [writeExpr.eq_def, hu, hc, hp] at hwrite
  rw [value.eq_def, unnestRef_eq_none.mp hu, hc, hk]
  dsimp only at hwrite ⊢
  cases hop : Arith.new attrs op with
  | none =>
    rw [hop] at hwrite
    obtain ⟨rfl, rfl⟩ : false = written ∧ sql = sql' := by simpa using hwrite
    exact Reading.Tries.none
  | some operator =>
    rw [hop] at hwrite
    obtain ⟨⟨written₁, sql₁⟩, hleft, hwrite⟩ := bind_eq_ok.mp hwrite
    have h₁ := hl hscope hcontext hparams hleft
    cases written₁ with
    | false =>
      obtain ⟨rfl, rfl⟩ : false = written ∧ sql₁ = sql' := by simpa using hwrite
      exact h₁.after
    | true =>
      obtain ⟨added₁, rfl, shown₁, l, hs₁, hv₁, ho₁⟩ := h₁
      obtain ⟨⟨written₂, sql₂⟩, hright, hwrite⟩ := bind_eq_ok.mp hwrite
      have h₂ := hr hscope hcontext hparams hright
      cases written₂ with
      | false =>
        obtain ⟨rfl, rfl⟩ : false = written ∧ sql₂ = sql' := by simpa using hwrite
        exact h₂.after.after.after
      | true =>
        obtain ⟨added₂, rfl, shown₂, r, hs₂, hv₂, ho₂⟩ := h₂
        obtain ⟨rfl, rfl⟩ : true = written ∧ _ = sql' := by simpa using hwrite
        rw [hv₁, hv₂]
        have hbinary := (ho₁.between (operator.between R.kind) ho₂).condition.paren
        refine ⟨kw .parenOpen :: (added₁ ++ text operator.tokens :: (added₂ ++ [kw .parenClose])),
          by simp, _, _, R.textOf_cons R.part_open (R.textOf_append hs₁ (R.textOf_cons
            (R.part_text _) (R.textOf_append hs₂ (R.textOf_singleton R.part_close)))), rfl, ?_⟩
        simpa using hbinary

theorem writes_paren {attrs : List Attr} {inner : Expr} (h : Writes R inner) :
    Writes R (.paren attrs inner) := by
  refine writes_of_form fun scope params context sql written sql' hscope hcontext hparams
    hu hc hp hk hwrite => ?_
  rw [writeExpr.eq_def, hu, hc, hp] at hwrite
  rw [value.eq_def, unnestRef_eq_none.mp hu, hc, hk]
  dsimp only at hwrite ⊢
  split at hwrite
  · obtain ⟨rfl, rfl⟩ : false = written ∧ sql = sql' := by simpa using hwrite
    exact Reading.Tries.none
  · exact h hscope hcontext hparams hwrite

theorem writes_lit {attrs : List Attr} {lit : Lit} : Writes R (.lit attrs lit) := by
  refine writes_of_form fun scope params context sql written sql' hscope hcontext hparams
    hu hc hp hk hwrite => ?_
  rw [writeExpr.eq_def, hu, hc, hp] at hwrite
  rw [value.eq_def, unnestRef_eq_none.mp hu, hc, hk]
  dsimp only at hwrite ⊢
  cases hpart : literal attrs lit with
  | none =>
    rw [hpart] at hwrite
    obtain ⟨rfl, rfl⟩ : false = written ∧ sql = sql' := by simpa using hwrite
    exact Reading.Tries.none
  | some part =>
    rw [hpart] at hwrite
    obtain ⟨rfl, rfl⟩ : true = written ∧ _ = sql' := by simpa using hwrite
    refine ⟨[part], rfl, shows_literal R hpart⟩

/-- The arguments of a call as they are written, the first with a comma before it or not. -/
def listed (begins : Bool) : List Text → Text
  | [] => []
  | shown :: texts => (if begins then shown else ", ".toList ++ shown) ++ listed false texts

theorem listed_eq_intercalate (texts : List Text) :
    listed true texts = (", ".toList).intercalate texts := by
  induction texts with
  | nil => rfl
  | cons shown texts ih =>
    cases texts with
    | nil => simp [listed, List.intercalate]
    | cons next rest =>
      have hlater : listed false (next :: rest) = ", ".toList ++ listed true (next :: rest) := by
        simp [listed]
      rw [List.intercalate_cons_cons, ← ih, List.append_assoc, ← hlater]
      rfl

theorem writes_args {args : List Expr} (h : ∀ arg ∈ args, Writes R arg) {begins : Bool}
    (hscope : scope.Declared) (hcontext : context.Agrees R) (hparams : Known R params)
    (hwrite : writeArgs scope args params context sql begins = .ok (written, sql')) :
    (∃ added, sql' = sql ++ added) ∧ (written = true → ∃ added texts trees, sql' = sql ++ added ∧
      R.textOf added = some (listed begins texts) ∧ values R scope args = some trees ∧
      List.Forall₂ (Operand R.kind) texts trees ∧ texts.length = args.length) := by
  induction args generalizing sql begins with
  | nil =>
    rw [writeArgs] at hwrite
    obtain ⟨rfl, rfl⟩ : true = written ∧ sql = sql' := by simpa using hwrite
    exact ⟨⟨[], by simp⟩, fun _ => ⟨[], [], [], by simp, rfl, by rw [values], .nil, rfl⟩⟩
  | cons arg args ih =>
    rw [writeArgs] at hwrite
    obtain ⟨⟨written₁, sql₁⟩, harg, hwrite⟩ := bind_eq_ok.mp hwrite
    have h₁ := h arg (by simp) hscope hcontext hparams harg
    obtain ⟨comma, hcomma, hshown⟩ : ∃ comma, (if begins then sql else sql ++ [kw .comma]) =
        sql ++ comma ∧ R.textOf comma = some (if begins then [] else ", ".toList) := by
      cases begins with
      | false => exact ⟨[kw .comma], rfl, R.textOf_singleton R.part_comma⟩
      | true => exact ⟨[], by simp, rfl⟩
    rw [hcomma] at h₁
    cases written₁ with
    | false =>
      obtain ⟨rfl, rfl⟩ : false = written ∧ sql₁ = sql' := by simpa using hwrite
      exact ⟨h₁.after, by simp⟩
    | true =>
      obtain ⟨added₁, rfl, shown₁, t, hs₁, hv₁, ho₁⟩ := h₁
      obtain ⟨⟨added₂, rfl⟩, hrest⟩ := ih (fun arg harg => h arg (by simp [harg])) hwrite
      refine ⟨⟨comma ++ (added₁ ++ added₂), by simp⟩, fun hwritten => ?_⟩
      obtain ⟨added, texts, trees, hadded, htexts, hvalues, hoperands, hlength⟩ := hrest hwritten
      obtain rfl := List.append_cancel_left hadded
      refine ⟨comma ++ (added₁ ++ added₂), shown₁ :: texts, t :: trees, by simp, ?_, ?_,
        .cons ho₁ hoperands, by simp [hlength]⟩
      · rw [R.textOf_append hshown (R.textOf_append hs₁ htexts)]
        cases begins <;> simp [listed]
      · rw [values, hv₁, hvalues]

theorem Function.closed (function : Function) (kind : Kind) :
    (lexer kind).Closed (function.name ++ "(".toList) [.word (folded function.name), .lparen] ∧
      keyword (folded function.name) = none ∧ folded function.name = function.name := by
  cases function <;> cases kind <;> decide

theorem Function.arity_pos (function : Function) : 0 < function.arity := by
  cases function <;> decide

theorem writes_call {attrs : List Attr} {func : Expr} {args : List Expr}
    (h : ∀ arg ∈ args, Writes R arg) : Writes R (.call attrs func args) := by
  refine writes_of_form fun scope params context sql written sql' hscope hcontext hparams
    hu hc hp hk hwrite => ?_
  rw [writeExpr.eq_def, hu, hc, hp] at hwrite
  rw [value.eq_def, unnestRef_eq_none.mp hu, hc, hk]
  dsimp only at hwrite ⊢
  cases hfunction : Function.ofCall attrs func with
  | none =>
    rw [hfunction] at hwrite
    obtain ⟨rfl, rfl⟩ : false = written ∧ sql = sql' := by simpa using hwrite
    exact Reading.Tries.none
  | some function =>
    rw [hfunction] at hwrite
    dsimp only at hwrite ⊢
    split at hwrite
    · obtain ⟨rfl, rfl⟩ : false = written ∧ sql = sql' := by simpa using hwrite
      exact Reading.Tries.none
    · rename_i harity
      obtain ⟨⟨written₁, sql₁⟩, hargs, hwrite⟩ := bind_eq_ok.mp hwrite
      obtain ⟨⟨added, rfl⟩, hall⟩ := writes_args h hscope hcontext hparams hargs
      cases written₁ with
      | false =>
        obtain ⟨rfl, rfl⟩ : false = written ∧ _ = sql' := by simpa using hwrite
        exact ⟨text (function.name ++ "(".toList) :: added, by simp⟩
      | true =>
        obtain ⟨added', texts, trees, hadded, htexts, hvalues, hoperands, hlength⟩ := hall rfl
        obtain rfl := List.append_cancel_left hadded
        obtain ⟨rfl, rfl⟩ : true = written ∧ _ = sql' := by simpa using hwrite
        obtain ⟨hclosed, hkeyword, hfolded⟩ := function.closed R.kind
        have hne : texts ≠ [] := by
          rintro rfl
          have hpos := function.arity_pos
          simp at hlength
          omega
        rw [hvalues]
        have hcall := operand_call hclosed hkeyword
          (hoperands.imp fun _ _ hoperand => hoperand.condition) hne
        rw [hfolded] at hcall
        refine ⟨text (function.name ++ "(".toList) :: (added ++ [kw .parenClose]), by simp, _, _,
          R.textOf_cons (R.part_text _) (R.textOf_append htexts (R.textOf_singleton R.part_close)),
          rfl, ?_⟩
        rw [listed_eq_intercalate]
        exact hcall

/-! ## Sources -/

/-- What a failed attempt has written is cut off. -/
theorem parse_adds (h : Writes R e) (hscope : scope.Declared) (hcontext : context.Agrees R)
    (hparams : Known R params) (hparse : parseInto scope e params context sql = .ok (written, sql')) :
    if written then R.Adds Operand sql sql' (value R scope e) else sql' = sql := by
  rw [parseInto] at hparse
  obtain ⟨⟨written₁, sql₁⟩, hwrite, hparse⟩ := bind_eq_ok.mp hparse
  have hwrote := h hscope hcontext hparams hwrite
  obtain ⟨rfl, rfl⟩ : written₁ = written ∧ _ = sql' := by simpa using hparse
  cases written₁ with
  | false =>
    obtain ⟨added, rfl⟩ := hwrote.kept
    simp
  | true => exact hwrote

/-- The name a source has in the text. -/
theorem shows_base (R : Reading) (source : QuerySource) : ∃ relation,
    R.textOf source.renderBase = some (relation ++ (" AS ".toList ++ source.qualifier 0)) ∧
      (lexer R.kind).Lexes relation (pathTokens (source.names R.tables)) ∧
        source.names R.tables ≠ [] := by
  rw [QuerySource.renderBase, QuerySource.names]
  cases source.primaryAlias with
  | none =>
    refine ⟨quoted (R.tables.name source.primaryPath).text, ?_, ?_, split_ne_nil _ _⟩
    · exact R.textOf_cons rfl (R.textOf_cons rfl (R.textOf_singleton rfl))
    · exact lexes_quoted _ (R.tables.name source.primaryPath).proper
  | some ident =>
    refine ⟨quoted ident.name, ?_, lexes_ident _ ident, by simp⟩
    exact R.textOf_cons rfl (R.textOf_cons rfl (R.textOf_singleton rfl))

/-- The rows of a source are bound to its aliases. -/
theorem forSource_eq {source : QuerySource} {idents : List Ident}
    (h : RowScope.forSource source idents = .ok scope) :
    scope = RowScope.forBindings source idents := by
  rw [RowScope.forSource.eq_def] at h
  split at h
  · exact absurd h (by simp)
  split at h
  · exact absurd h (by simp)
  · simpa using h.symm

theorem declared_forBindings (source : QuerySource) (idents : List Ident) :
    (RowScope.forBindings source idents).Declared := by
  intro var hvar table htable
  simp only [List.mem_map] at hvar
  obtain ⟨p, -, rfl⟩ := hvar
  obtain rfl : source.qualifier p.2 = table := by simpa using htable
  exact ⟨source, p.2, rfl⟩

theorem declared_bindings (source : QuerySource) (idents : List Ident) (hscope : scope.Declared) :
    ((RowScope.forBindings source idents).withOuter scope).Declared :=
  ⟨(declared_forBindings source idents).vars, hscope⟩

/-- A query of one item with a condition. -/
theorem selectText_source {item relation condition : Text} {t c : Tree} (source : QuerySource)
    (hitem : Condition R.kind item t) (hcondition : Condition R.kind condition c)
    (hrelation : (lexer R.kind).Lexes relation (pathTokens (source.names R.tables)))
    (hne : source.names R.tables ≠ []) :
    SelectText R.kind ("SELECT ".toList ++ (item ++ (" FROM ".toList ++ (relation ++
        (" AS ".toList ++ (source.qualifier 0 ++ (" WHERE ".toList ++ condition)))))))
      (source.query R.tables [t] (some c)) := by
  have hselect := selectText_where (.cons hitem .nil) (by simp) (delimited_comma _) closed_comma
    hrelation (source.qualifier_isWord 0) hne
    (by rw [source.folded_qualifier]; exact source.keyword_qualifier 0) hcondition
  rw [source.folded_qualifier] at hselect
  simpa [List.intercalate, QuerySource.query] using hselect

/-! ## Scalar subqueries -/

theorem operand_countAll (kind : Kind) : Operand kind "COUNT(*)".toList countAll := by
  refine ⟨[.word "count".toList, .lparen, .symbol "*".toList, .rparen],
    Scanner.Closed.lexes ?_, atom_count⟩
  cases kind <;> decide

theorem part_countStar (R : Reading) : R.part (kw .countStar) = some "COUNT(*)".toList :=
  R.part_shared fun kind => by cases kind <;> rfl

theorem AggregateFn.closed (function : AggregateFn) (kind : Kind) :
    (lexer kind).Closed (function.upper ++ "(".toList)
        [.word (folded function.upper), .lparen] ∧
      keyword (folded function.upper) = none ∧
        folded function.upper = function.lower.toList := by
  cases function <;> cases kind <;> decide

/-- An aggregate of one operand. -/
theorem AggregateFn.operand (function : AggregateFn) {kind : Kind} {shown : Text} {t : Tree}
    (h : Operand kind shown t) :
    Operand kind ((function.upper ++ "(".toList) ++ (shown ++ ")".toList))
      (.call function.lower.toList [t]) := by
  obtain ⟨hclosed, hkeyword, hfolded⟩ := function.closed kind
  have hcall := operand_call hclosed hkeyword (.cons h.condition .nil) (by simp)
  rw [hfolded] at hcall
  simpa [List.intercalate] using hcall

theorem adds_aggregate {source : QuerySource} {kind : Aggregate}
    (h : ∀ function arg body, kind = .column function arg body → Writes R body)
    (hscope : scope.Declared) (hcontext : context.Agrees R)
    (hinto : aggregateInto scope source kind context sql = .ok sql') :
    R.Adds Operand sql sql' (aggregate R scope source kind) := by
  cases kind with
  | count =>
    rw [aggregateInto] at hinto
    obtain rfl : _ = sql' := by simpa using hinto
    rw [aggregate]
    exact ⟨_, rfl, _, _, R.textOf_singleton (part_countStar R), rfl, operand_countAll R.kind⟩
  | column function arg body =>
    rw [aggregateInto] at hinto
    obtain ⟨⟨parsed, sql₁⟩, hparse, hinto⟩ := bind_eq_ok.mp hinto
    have hadds := parse_adds (h function arg body rfl)
      (declared_bindings source [arg] hscope) hcontext (Or.inr (by rw [hcontext.params])) hparse
    cases parsed with
    | false => exact absurd hinto (by simp)
    | true =>
      obtain ⟨added, rfl, shown, t, hshown, hvalue, hoperand⟩ := hadds
      obtain rfl : _ = sql' := by simpa using hinto
      rw [aggregate, RowScope.forPrimary, hvalue]
      exact ⟨text (function.upper ++ "(".toList) :: (added ++ [kw .parenClose]), by simp, _, _,
        R.textOf_cons (R.part_text _) (R.textOf_append hshown (R.textOf_singleton R.part_close)),
        rfl, function.operand hoperand⟩

theorem part_where (R : Reading) : R.part (kw .whereKw) = some " WHERE ".toList :=
  R.part_shared fun kind => by cases kind <;> rfl

theorem subquery_eq {func : Expr} {inputs : List Expr} {kind : Aggregate} {table : Path}
    {arg : Ident} {body : Expr} {item condition : Tree}
    (hcall : QuerySource.parseCall func inputs = .ok (table, arg, body))
    (hitem : aggregate R scope ((QuerySource.new table).nested scope.aliasDepth) kind = some item)
    (hcondition : predicate R ((RowScope.forBindings
      ((QuerySource.new table).nested scope.aliasDepth) [arg]).withOuter scope) body =
        some condition) :
    subquery R scope func inputs kind =
      some (.scalar (((QuerySource.new table).nested scope.aliasDepth).query R.tables [item]
        (some condition))) := by
  rw [subquery]
  split
  · rename_i message herror
    rw [hcall] at herror
    exact absurd herror (by simp)
  · rename_i table' arg' body' hparsed
    obtain ⟨rfl, rfl, rfl⟩ : table = table' ∧ arg = arg' ∧ body = body' := by
      simpa [hcall] using hparsed
    dsimp only
    rw [hitem, RowScope.forPrimary, hcondition]

theorem adds_scalarAgg {func : Expr} {inputs : List Expr} {kind : Aggregate}
    (hwrites : ∀ function arg body, kind = .column function arg body → Writes R body)
    (hbuilds : ∀ table arg body, QuerySource.parseCall func inputs = .ok (table, arg, body) →
      Builds R body)
    (hscope : scope.Declared) (hcontext : context.Agrees R)
    (hagg : scalarAgg scope func inputs kind context sql = .ok sql') :
    R.Adds Operand sql sql' (subquery R scope func inputs kind) := by
  rw [scalarAgg] at hagg
  split at hagg
  · exact absurd hagg (by simp)
  · rename_i table arg body hcall
    dsimp only at hagg
    split at hagg
    · rename_i sql₁ hinto
      obtain ⟨added₁, rfl, shown₁, item, hs₁, hv₁, ho₁⟩ :=
        adds_aggregate hwrites hscope hcontext hinto
      obtain ⟨sql₂, hbuild, hagg⟩ := bind_eq_ok.mp hagg
      obtain ⟨added₂, rfl, shown₂, c, hs₂, hv₂, hc₂⟩ :=
        hbuilds table arg body hcall (declared_bindings _ [arg] hscope) hcontext hbuild
      obtain rfl : _ = sql' := by simpa using hagg
      obtain ⟨relation, hbase, hlexes, hne⟩ :=
        shows_base R ((QuerySource.new table).nested scope.aliasDepth)
      have hselect := (selectText_source _ ho₁.condition hc₂ hlexes hne).scalar
      refine ⟨kw .subqueryOpen :: (added₁ ++ kw .fromKw ::
        (((QuerySource.new table).nested scope.aliasDepth).renderBase ++ kw .whereKw ::
          (added₂ ++ [kw .parenClose]))), by simp, ?_⟩
      have hopen : R.part (kw .subqueryOpen) = some "(SELECT ".toList :=
        R.part_shared fun kind => by cases kind <;> rfl
      have hfrom : R.part (kw .fromKw) = some " FROM ".toList :=
        R.part_shared fun kind => by cases kind <;> rfl
      have htext := R.textOf_cons hopen (R.textOf_append hs₁ (R.textOf_cons hfrom
        (R.textOf_append hbase (R.textOf_cons (part_where R) (R.textOf_append hs₂
          (R.textOf_singleton R.part_close))))))
      refine ⟨_, _, htext, subquery_eq hcall hv₁ hv₂, ?_⟩
      simpa using hselect
    · obtain ⟨sql₂, hbuild, hagg⟩ := bind_eq_ok.mp hagg
      exact absurd hagg (by simp)

/-- The expression names neither a column nor a parameter. -/
structure Unnamed (R : Reading) (scope : RowScope) (e : Expr) : Prop where
  unnest : scope.unnestPos e = none
  column : scope.columnRef e = none
  param : captured (some R.params) e = none

section Aggregates

variable {attrs : List Attr} {receiver : Expr} {method : Ident}
  {turbofish : Option (List GenericArg)} {args : List Expr}

theorem value_subquery {cattrs : List Attr} {func : Expr} {inputs : List Expr}
    {function : Option AggregateFn} {kind : Aggregate}
    (h : Unnamed R scope (.methodCall attrs (.call cattrs func inputs) method turbofish args))
    (hmethod : aggregateMethod attrs method turbofish = some function)
    (hshape : shape function args = .ok (some kind)) :
    value R scope (.methodCall attrs (.call cattrs func inputs) method turbofish args) =
      subquery R scope func inputs kind := by
  rw [value.eq_def, h.unnest, h.column, h.param]
  simp only [hmethod]
  split
  · rename_i kind' hshape'
    obtain rfl : kind = kind' := by simpa [hshape] using hshape'
    rfl
  · rename_i hnone
    exact absurd hshape (hnone kind)

theorem value_count (h : Unnamed R scope (.methodCall attrs receiver method turbofish args))
    (hmethod : aggregateMethod attrs method turbofish = some none)
    (hreceiver : ∀ cattrs func inputs, receiver ≠ .call cattrs func inputs) :
    value R scope (.methodCall attrs receiver method turbofish args) = some countAll := by
  rw [value.eq_def, h.unnest, h.column, h.param]
  cases receiver with
  | call cattrs func inputs => exact absurd rfl (hreceiver cattrs func inputs)
  | _ => simp only [hmethod]

theorem value_aggregate {name : AggregateFn} {arg : Expr} {t : Tree}
    (h : Unnamed R scope (.methodCall attrs receiver method turbofish [arg]))
    (hmethod : aggregateMethod attrs method turbofish = some (some name))
    (hreceiver : ∀ cattrs func inputs, receiver ≠ .call cattrs func inputs)
    (harg : value R scope arg = some t) :
    value R scope (.methodCall attrs receiver method turbofish [arg]) =
      some (.call name.lower.toList [t]) := by
  rw [value.eq_def, h.unnest, h.column, h.param]
  cases receiver with
  | call cattrs func inputs => exact absurd rfl (hreceiver cattrs func inputs)
  | _ => simp only [hmethod, harg]

/-- A scalar subquery. -/
theorem writes_subquery {cattrs : List Attr} {func : Expr} {inputs : List Expr}
    (ih : ∀ e, sizeOf e <
      sizeOf (Expr.methodCall attrs (.call cattrs func inputs) method turbofish args) →
        Faithful R e) :
    Writes R (.methodCall attrs (.call cattrs func inputs) method turbofish args) := by
  refine writes_of_form fun scope params context sql written sql' hscope hcontext hparams
    hu hc hp hk hwrite => ?_
  rw [writeExpr.eq_def, hu, hc, hp] at hwrite
  cases hmethod : aggregateMethod attrs method turbofish with
  | none =>
    simp only [hmethod] at hwrite
    obtain ⟨rfl, rfl⟩ : false = written ∧ sql = sql' := by simpa using hwrite
    exact Reading.Tries.none
  | some function =>
    simp only [hmethod] at hwrite
    split at hwrite
    · exact absurd hwrite (by simp)
    · obtain ⟨rfl, rfl⟩ : false = written ∧ sql = sql' := by simpa using hwrite
      exact Reading.Tries.none
    · rename_i kind hshape
      obtain rfl | rfl := hparams
      · obtain ⟨rfl, rfl⟩ : false = written ∧ sql = sql' := by simpa using hwrite
        exact Reading.Tries.none
      · obtain ⟨sql₁, hagg, hwrite⟩ := bind_eq_ok.mp hwrite
        obtain ⟨rfl, rfl⟩ : true = written ∧ sql₁ = sql' := by simpa using hwrite
        have hsize := shape_size hshape
        have hagrees : WhereContext.Agrees { context with fnParams := R.params } R :=
          ⟨rfl, hcontext.dialect, hcontext.ctes⟩
        rw [value_subquery ⟨unnestRef_eq_none.mp hu, hc, hk⟩ hmethod hshape]
        refine adds_scalarAgg ?_ ?_ hscope hagrees hagg
        · rintro name arg body rfl
          refine (ih body ?_).write
          simp only [Aggregate.size] at hsize
          simp only [Expr.methodCall.sizeOf_spec]
          omega
        · intro table arg body hcall
          have hbody := QuerySource.parseCall_size hcall
          refine (ih body ?_).build
          simp only [Expr.methodCall.sizeOf_spec, Expr.call.sizeOf_spec]
          omega

/-- `count` and the aggregate functions over the rows of a group. -/
theorem writes_aggregate (hargs : ∀ arg ∈ args, Writes R arg)
    (hreceiver : ∀ cattrs func inputs, receiver ≠ .call cattrs func inputs) :
    Writes R (.methodCall attrs receiver method turbofish args) := by
  refine writes_of_form fun scope params context sql written sql' hscope hcontext hparams
    hu hc hp hk hwrite => ?_
  have hunnamed : Unnamed R scope (.methodCall attrs receiver method turbofish args) :=
    ⟨unnestRef_eq_none.mp hu, hc, hk⟩
  rw [writeExpr.eq_def, hu, hc, hp] at hwrite
  cases hmethod : aggregateMethod attrs method turbofish with
  | none =>
    simp only [hmethod] at hwrite
    obtain ⟨rfl, rfl⟩ : false = written ∧ sql = sql' := by simpa using hwrite
    exact Reading.Tries.none
  | some function =>
    simp only [hmethod] at hwrite
    split at hwrite
    swap
    · obtain ⟨rfl, rfl⟩ : false = written ∧ sql = sql' := by simpa using hwrite
      exact Reading.Tries.none
    split at hwrite
    swap
    · obtain ⟨rfl, rfl⟩ : false = written ∧ sql = sql' := by simpa using hwrite
      exact Reading.Tries.none
    split at hwrite
    · obtain ⟨rfl, rfl⟩ : true = written ∧ _ = sql' := by simpa using hwrite
      rw [value_count hunnamed hmethod hreceiver]
      exact ⟨_, rfl, _, _, R.textOf_singleton (part_countStar R), rfl, operand_countAll R.kind⟩
    · obtain ⟨rfl, rfl⟩ : false = written ∧ sql = sql' := by simpa using hwrite
      exact Reading.Tries.none
    · rename_i name arg
      obtain ⟨⟨written₁, sql₁⟩, harg, hwrite⟩ := bind_eq_ok.mp hwrite
      have h₁ := hargs _ (List.mem_singleton.mpr rfl) hscope hcontext (Or.inl rfl) harg
      cases written₁ with
      | false =>
        obtain ⟨rfl, rfl⟩ : false = written ∧ sql₁ = sql' := by simpa using hwrite
        exact h₁.after
      | true =>
        obtain ⟨added, rfl, shown, t, hshown, hvalue, hoperand⟩ := h₁
        obtain ⟨rfl, rfl⟩ : true = written ∧ _ = sql' := by simpa using hwrite
        rw [value_aggregate hunnamed hmethod hreceiver hvalue]
        exact ⟨text (name.upper ++ "(".toList) :: (added ++ [kw .parenClose]), by simp, _, _,
          R.textOf_cons (R.part_text _) (R.textOf_append hshown (R.textOf_singleton R.part_close)),
          rfl, name.operand hoperand⟩
    · obtain ⟨rfl, rfl⟩ : false = written ∧ sql = sql' := by simpa using hwrite
      exact Reading.Tries.none

theorem writes_methodCall
    (ih : ∀ e, sizeOf e < sizeOf (Expr.methodCall attrs receiver method turbofish args) →
      Faithful R e) : Writes R (.methodCall attrs receiver method turbofish args) := by
  by_cases hcall : ∃ cattrs func inputs, receiver = .call cattrs func inputs
  · obtain ⟨cattrs, func, inputs, rfl⟩ := hcall
    exact writes_subquery ih
  · refine writes_aggregate (fun arg harg => (ih arg ?_).write) fun cattrs func inputs heq =>
      hcall ⟨cattrs, func, inputs, heq⟩
    have hmem := List.sizeOf_lt_of_mem harg
    simp only [Expr.methodCall.sizeOf_spec]
    omega

end Aggregates

/-- Value expressions are written as operands when their parts are faithful. -/
theorem writes_of_smaller (ih : ∀ e', sizeOf e' < sizeOf e → Faithful R e') : Writes R e := by
  cases e with
  | binary attrs left op right =>
    refine writes_binary (ih left ?_).write (ih right ?_).write <;>
      · simp only [Expr.binary.sizeOf_spec]
        omega
  | call attrs func args =>
    refine writes_call fun arg harg => (ih arg ?_).write
    have hmem := List.sizeOf_lt_of_mem harg
    simp only [Expr.call.sizeOf_spec]
    omega
  | methodCall attrs receiver method turbofish args => exact writes_methodCall ih
  | paren attrs inner =>
    refine writes_paren (ih inner ?_).write
    simp only [Expr.paren.sizeOf_spec]
    omega
  | lit attrs lit => exact writes_lit
  | _ =>
    refine writes_of_form fun scope params context sql written sql' hscope hcontext hparams
      hu hc hp hk hwrite => ?_
    rw [writeExpr.eq_def, hu, hc, hp] at hwrite
    obtain ⟨rfl, rfl⟩ : false = written ∧ sql = sql' := by simpa using hwrite
    exact Reading.Tries.none

/-! ## Captured parameters -/

/-- What could not be parsed is no column and no parameter. -/
theorem parse_missed (h : parseInto scope e params context sql = .ok (false, sql')) :
    scope.unnestPos e = none ∧ scope.columnRef e = none ∧ captured params e = none := by
  rw [parseInto] at h
  obtain ⟨⟨written, sql₁⟩, hwrite, h⟩ := bind_eq_ok.mp h
  obtain ⟨rfl, -⟩ : written = false ∧ _ = sql' := by simpa using h
  rw [writeExpr.eq_def] at hwrite
  refine ⟨?_, ?_, ?_⟩
  · by_contra hu
    obtain ⟨column, hcolumn⟩ := Option.ne_none_iff_exists'.mp (mt unnestRef_eq_none.mp hu)
    rw [hcolumn] at hwrite
    exact absurd hwrite (by simp)
  · by_contra hc
    obtain ⟨column, hcolumn⟩ := Option.ne_none_iff_exists'.mp hc
    rw [hcolumn] at hwrite
    split at hwrite <;> exact absurd hwrite (by simp)
  · by_contra hp
    obtain ⟨ident, hident⟩ := Option.ne_none_iff_exists'.mp hp
    rw [hident] at hwrite
    split at hwrite
    · exact absurd hwrite (by simp)
    · split at hwrite <;> exact absurd hwrite (by simp)

theorem resolve_captured {params : List Ident} {ident : Ident} (h : resolve params e = .ok ident) :
    captured (some params) e = some ident := by
  cases e with
  | path attrs qself path =>
    simp only [resolve] at h
    split at h
    · exact absurd h (by simp)
    split at h
    · exact absurd h (by simp)
    split at h
    · exact absurd h (by simp)
    rename_i hattrs hqself ident' hident
    split at h
    swap
    · exact absurd h (by simp)
    rename_i hany
    obtain rfl : ident' = ident := by simpa using h
    obtain ⟨leadingColon, segments⟩ := path
    simp only [Path.getIdent] at hident
    split at hident
    swap
    · exact absurd hident (by simp)
    rename_i name arguments
    split at hident
    swap
    · exact absurd hident (by simp)
    rename_i hnone
    obtain rfl : name = ident' := by simpa using hident
    have hsingle : single (.path attrs qself ⟨false, [(name, arguments)]⟩) = some name := by
      simp_all [single, plainPath]
    rw [captured, Option.bind_some, hsingle, Option.bind_some, if_pos hany]
  | _ => simp [resolve] at h

/-- A parameter, or a reference to one, shows as what `argument` says. -/
theorem resolveRef_argument {ident : Ident} (h : resolveRef R.params e = .ok ident) :
    argument R e = some (R.shown ident) := by
  cases e with
  | reference attrs inner =>
    simp only [resolveRef] at h
    simp [argument, resolve_captured h]
  | _ =>
    simp only [resolveRef] at h
    simp [argument, resolve_captured h]

/-- The names of the method operators. -/
def Method.names : List (String × Method) :=
  [("in_", .in_), ("not_in", .notIn), ("fts_match", .fts), ("like", .compare .like),
    ("ilike", .compare .ilike), ("not_like", .compare .notLike),
    ("not_ilike", .compare .notIlike), ("glob", .compare .glob),
    ("pg_contains", .compare .contains), ("pg_overlaps", .compare .overlaps),
    ("regex_match", .compare .regexMatch), ("regex_imatch", .compare .regexImatch),
    ("not_regex_match", .compare .notRegexMatch), ("not_regex_imatch", .compare .notRegexImatch),
    ("descendant_of", .compare .ltreeDescOf), ("ancestor_of", .compare .ltreeAncOf)]

/-- The first entry with the name. -/
def Ident.pick {α : Type} (name : Ident) : List (String × α) → Option α
  | [] => none
  | p :: rest => if name.is p.1 then some p.2 else name.pick rest

theorem Ident.pick_mem {α : Type} {name : Ident} {entries : List (String × α)} {a : α}
    (h : name.pick entries = some a) : ∃ s, (s, a) ∈ entries ∧ name.is s = true := by
  induction entries with
  | nil => exact absurd h (by simp [pick])
  | cons p rest ih =>
    rw [pick] at h
    split at h
    · rename_i his
      obtain rfl : p.2 = a := by simpa using h
      exact ⟨p.1, by simp, his⟩
    · obtain ⟨s, hmem, his⟩ := ih h
      exact ⟨s, by simp [hmem], his⟩

theorem Method.new_eq_pick (name : Ident) : Method.new name = name.pick Method.names := rfl

/-- The operators a backend has : SQLite only some of those of its texts. -/
theorem Method.supported {name : Ident} {method : Method} {kind : Kind}
    (h : Method.new name = some method) (hr : kind.isRejected name = false) :
    (kind = .pg ∧ method ≠ .compare .glob) ∨
      (kind = .sqlite ∧ (method = .compare .like ∨ method = .compare .notLike ∨
        method = .compare .glob)) := by
  obtain ⟨s, hmem, his⟩ := Ident.pick_mem (Method.new_eq_pick name ▸ h)
  cases kind with
  | pg =>
    refine Or.inl ⟨rfl, ?_⟩
    rintro rfl
    have hs : s = "glob" := by simpa [Method.names] using hmem
    rw [hs] at his
    exact absurd (hr.symm.trans his) (by decide)
  | sqlite =>
    refine Or.inr ⟨rfl, ?_⟩
    have hnot := List.any_eq_false.mp hr s
    simp only [Method.names, List.mem_cons, Prod.mk.injEq, List.not_mem_nil, or_false] at hmem
    rcases hmem with ⟨rfl, rfl⟩ | ⟨rfl, rfl⟩ | ⟨rfl, rfl⟩ | ⟨rfl, rfl⟩ | ⟨rfl, rfl⟩ | ⟨rfl, rfl⟩ |
      ⟨rfl, rfl⟩ | ⟨rfl, rfl⟩ | ⟨rfl, rfl⟩ | ⟨rfl, rfl⟩ | ⟨rfl, rfl⟩ | ⟨rfl, rfl⟩ |
      ⟨rfl, rfl⟩ | ⟨rfl, rfl⟩ | ⟨rfl, rfl⟩ | ⟨rfl, rfl⟩
    all_goals first
      | exact Or.inl rfl
      | exact Or.inr (Or.inl rfl)
      | exact Or.inr (Or.inr rfl)
      | exact absurd his (hnot (by decide))

/-- A method operator that is not rejected has its constant. -/
theorem Method.constant {name : Ident} {op : Cmp} {kind : Kind}
    (h : Method.new name = some (.compare op)) (hr : kind.isRejected name = false) :
    ∃ s, op.sqlRef.text kind = some s := by
  rcases Method.supported h hr with ⟨rfl, hglob⟩ | ⟨rfl, hop⟩
  · cases op
    case glob => exact absurd rfl hglob
    all_goals exact ⟨_, rfl⟩
  · simp only [Method.compare.injEq] at hop
    rcases hop with rfl | rfl | rfl <;> exact ⟨_, rfl⟩

/-- A label tree is only compared in PostgreSQL. -/
theorem Method.ltree {name : Ident} {op : Cmp} {kind : Kind}
    (h : Method.new name = some (.compare op)) (hr : kind.isRejected name = false)
    (hl : op.isLtree = true) : kind = .pg := by
  rcases Method.supported h hr with ⟨rfl, -⟩ | ⟨-, hop⟩
  · rfl
  · simp only [Method.compare.injEq] at hop
    rcases hop with rfl | rfl | rfl <;> exact absurd hl (by decide)

/-- A parameter behind an operator, with its cast. -/
theorem shows_capture (R : Reading) (op : Cmp) (ident : Ident)
    (h : op.isLtree = true → R.kind = .pg) :
    ∃ added, (∀ sql, op.capture ident sql = sql ++ added) ∧
      R.Shows Operand added (some (op.argument (R.shown ident))) := by
  rw [Cmp.argument]
  by_cases hl : op.isLtree = true
  · refine ⟨[.capture ident, kw .castLtreeSuffix], fun sql => by simp [Cmp.capture, hl], ?_⟩
    have hkind := h hl
    have hcast : R.part (kw .castLtreeSuffix) = some "::ltree".toList :=
      R.part_kw (by rw [hkind]; rfl)
    rw [if_pos hl]
    refine ⟨_, _, R.textOf_cons rfl (R.textOf_singleton hcast), rfl, ?_⟩
    have hmarks := R.marks ident
    rw [hkind] at hmarks ⊢
    exact hmarks.cast
  · refine ⟨[.capture ident], fun sql => by simp [Cmp.capture, hl], ?_⟩
    rw [if_neg hl]
    exact ⟨_, _, R.textOf_singleton rfl, rfl, R.marks ident⟩

/-- The comparisons of Rust. -/
theorem Op.compare_shared {op : BinOp} {c : Cmp} (h : Op.new op = .compare c) :
    c.isLtree = false ∧ ∃ s, ∀ kind, c.sqlRef.text kind = some s := by
  cases op <;> simp only [Op.new, Op.compare.injEq, reduceCtorEq] at h <;> subst h <;>
    exact ⟨rfl, _, fun kind => by cases kind <;> rfl⟩

/-! ## Predicates -/

section Forms

variable {attrs : List Attr} {left right inner receiver arg : Expr} {l r t : Tree} {name : Ident}
  {turbofish : Option (List GenericArg)} {args : List Expr}

theorem predicate_and (h : Input.new e = .binary attrs left .and right)
    (hl : predicate R scope left = some l) (hr : predicate R scope right = some r) :
    predicate R scope e = some (.binary .and l r) := by
  rw [predicate]
  split
  case h_2 heq =>
    obtain ⟨-, rfl, rfl, rfl⟩ := Input.binary.inj (h.symm.trans heq)
    dsimp only
    rw [hl, hr]
  all_goals
    rename_i heq
    exact absurd (h.symm.trans heq) (by simp)

theorem predicate_or (h : Input.new e = .binary attrs left .or right)
    (hl : predicate R scope left = some l) (hr : predicate R scope right = some r) :
    predicate R scope e = some (.binary .or l r) := by
  rw [predicate]
  split
  case h_2 heq =>
    obtain ⟨-, rfl, rfl, rfl⟩ := Input.binary.inj (h.symm.trans heq)
    dsimp only
    rw [hl, hr]
  all_goals
    rename_i heq
    exact absurd (h.symm.trans heq) (by simp)

theorem predicate_compare {op : Cmp} (h : Input.new e = .binary attrs left (.compare op) right)
    (hl : value R scope left = some l) (hr : value R scope right = some r) :
    predicate R scope e = some (.binary op.op l r) := by
  rw [predicate]
  split
  case h_2 heq =>
    obtain ⟨-, rfl, rfl, rfl⟩ := Input.binary.inj (h.symm.trans heq)
    dsimp only
    rw [hl, hr]
  all_goals
    rename_i heq
    exact absurd (h.symm.trans heq) (by simp)

theorem predicate_boolean {value : Bool} (h : Input.new e = .boolean attrs value) :
    predicate R scope e = some (truth R.kind value) := by
  rw [predicate]
  split
  case h_3 heq =>
    obtain ⟨-, rfl⟩ := Input.boolean.inj (h.symm.trans heq)
    rfl
  all_goals
    rename_i heq
    exact absurd (h.symm.trans heq) (by simp)

theorem predicate_field (h : Input.new e = .field attrs) (ht : value R scope e = some t) :
    predicate R scope e = some (.binary .eq t (truth R.kind true)) := by
  rw [predicate]
  split
  case h_4 heq => rw [ht]
  all_goals
    rename_i heq
    exact absurd (h.symm.trans heq) (by simp)

theorem predicate_not (h : Input.new e = .not attrs inner) (ht : value R scope inner = some t) :
    predicate R scope e = some (.binary .eq t (truth R.kind false)) := by
  rw [predicate]
  split
  case h_5 heq =>
    obtain ⟨-, rfl⟩ := Input.not.inj (h.symm.trans heq)
    rw [ht]
  all_goals
    rename_i heq
    exact absurd (h.symm.trans heq) (by simp)

theorem predicate_paren (h : Input.new e = .paren attrs inner) :
    predicate R scope e = predicate R scope inner := by
  rw [predicate]
  split
  case h_6 heq =>
    obtain ⟨-, rfl⟩ := Input.paren.inj (h.symm.trans heq)
    rfl
  all_goals
    rename_i heq
    exact absurd (h.symm.trans heq) (by simp)

theorem predicate_block {label : Option Ident}
    (h : Input.new e = .block attrs label [.expr inner false]) :
    predicate R scope e = predicate R scope inner := by
  rw [predicate]
  split
  case h_7 heq =>
    obtain ⟨-, -, rfl⟩ := Input.block.inj (h.symm.trans heq)
    rfl
  all_goals
    rename_i heq
    exact absurd (h.symm.trans heq) (by simp)

theorem predicate_null {present : Bool}
    (h : Input.new e = .null present attrs receiver turbofish args)
    (ht : value R scope receiver = some t) :
    predicate R scope e = some (.binary (if present then .isNot else .is) t .null) := by
  rw [predicate]
  split
  case h_8 heq =>
    obtain ⟨rfl, -, rfl, -, -⟩ := Input.null.inj (h.symm.trans heq)
    rw [ht]
  all_goals
    rename_i heq
    exact absurd (h.symm.trans heq) (by simp)

theorem predicate_in (h : Input.new e = .method attrs receiver name turbofish [arg] .in_)
    (hl : value R scope receiver = some l) (hr : argument R arg = some r) :
    predicate R scope e = some (.every .eq .any l r) := by
  rw [predicate]
  split
  case h_9 heq =>
    obtain ⟨-, rfl, -, -, rfl, rfl⟩ := Input.method.inj (h.symm.trans heq)
    dsimp only
    rw [hl]
    dsimp only
    rw [hr]
    rfl
  all_goals
    rename_i heq
    exact absurd (h.symm.trans heq) (by simp)

theorem predicate_notIn (h : Input.new e = .method attrs receiver name turbofish [arg] .notIn)
    (hl : value R scope receiver = some l) (hr : argument R arg = some r) :
    predicate R scope e = some (.every .ne .all l r) := by
  rw [predicate]
  split
  case h_9 heq =>
    obtain ⟨-, rfl, -, -, rfl, rfl⟩ := Input.method.inj (h.symm.trans heq)
    dsimp only
    rw [hl]
    dsimp only
    rw [hr]
    rfl
  all_goals
    rename_i heq
    exact absurd (h.symm.trans heq) (by simp)

theorem predicate_fts (h : Input.new e = .method attrs receiver name turbofish [arg] .fts)
    (hl : value R scope receiver = some l)
    (hr : value R scope arg = some r ∨ value R scope arg = none ∧ argument R arg = some r) :
    predicate R scope e = some (.binary Cmp.ftsMatch.op l r) := by
  rw [predicate]
  split
  case h_9 heq =>
    obtain ⟨-, rfl, -, -, rfl, rfl⟩ := Input.method.inj (h.symm.trans heq)
    dsimp only
    rw [hl]
    dsimp only
    rcases hr with hr | ⟨hnone, hr⟩
    · rw [hr]
    · rw [hnone]
      dsimp only
      rw [hr]
      rfl
  all_goals
    rename_i heq
    exact absurd (h.symm.trans heq) (by simp)

theorem predicate_method {op : Cmp}
    (h : Input.new e = .method attrs receiver name turbofish [arg] (.compare op))
    (hl : value R scope receiver = some l) (hr : argument R arg = some r) :
    predicate R scope e = some (.binary op.op l (op.argument r)) := by
  rw [predicate]
  split
  case h_9 heq =>
    obtain ⟨-, rfl, -, -, rfl, rfl⟩ := Input.method.inj (h.symm.trans heq)
    dsimp only
    rw [hl]
    dsimp only
    rw [hr]
    rfl
  all_goals
    rename_i heq
    exact absurd (h.symm.trans heq) (by simp)

theorem predicate_exist {negate : Bool} (h : Input.new e = .exist attrs name [inner] negate) :
    predicate R scope e = existence R scope inner negate := by
  rw [predicate]
  split
  case h_1 heq =>
    obtain ⟨-, -, rfl, rfl⟩ := Input.exist.inj (h.symm.trans heq)
    rfl
  all_goals
    rename_i heq
    exact absurd (h.symm.trans heq) (by simp)

end Forms

/-! ## Existence tests -/

theorem existence_eq {input body : Expr} {negate : Bool} {parsed : QuerySource} {ids : List Ident}
    {condition : Tree}
    (hchain : QuerySource.parseChain input R.ctes = .ok (parsed, ids, body))
    (hcondition : predicate R ((RowScope.forBindings (parsed.nested scope.aliasDepth)
      ids).withOuter scope) body = some condition) :
    existence R scope input negate =
      some (if negate then
          .not (.existence ((parsed.nested scope.aliasDepth).query R.tables
            [.number "1".toList] (some condition)))
        else .existence ((parsed.nested scope.aliasDepth).query R.tables
            [.number "1".toList] (some condition))) := by
  rw [existence]
  split
  · rename_i message herror
    exact absurd (hchain.symm.trans herror) (by simp)
  · rename_i parsed' ids' body' hparsed
    obtain ⟨rfl, rfl, rfl⟩ : parsed = parsed' ∧ ids = ids' ∧ body = body' := by
      simpa using hchain.symm.trans hparsed
    dsimp only
    rw [hcondition]

theorem adds_exists {input : Expr} {negate : Bool}
    (hbuilds : ∀ parsed ids body, QuerySource.parseChain input R.ctes = .ok (parsed, ids, body) →
      Builds R body)
    (hscope : scope.Declared) (hcontext : context.Agrees R)
    (hinto : existsInto scope input negate context sql = .ok sql') :
    R.Adds Formula sql sql' (existence R scope input negate) := by
  rw [existsInto] at hinto
  split at hinto
  · exact absurd hinto (by simp)
  rename_i parsed ids body hchain
  rw [hcontext.ctes] at hchain
  dsimp only at hinto
  split at hinto
  · exact absurd hinto (by simp)
  split at hinto
  · exact absurd hinto (by simp)
  rename_i hjoins inner hinner
  obtain rfl := forSource_eq hinner
  obtain ⟨sql₁, hbuild, hinto⟩ := bind_eq_ok.mp hinto
  obtain ⟨added, rfl, shown, c, hshown, hvalue, hc⟩ :=
    hbuilds parsed ids body hchain (declared_bindings _ ids hscope) hcontext hbuild
  obtain rfl : _ = sql' := by simpa using hinto
  obtain ⟨relation, hbase, hlexes, hne⟩ := shows_base R (parsed.nested scope.aliasDepth)
  have hone : Operand R.kind "1".toList (.number "1".toList) :=
    operand_number ⟨'1', [], .whole, rfl, by decide, rfl, rfl⟩
  have hselect := (selectText_source _ hone.condition hc hlexes hne).queryText.existence
  have htext : ∀ {opening : Text} {name : Const}, R.part (kw name) = some opening →
      R.textOf (kw name :: ((parsed.nested scope.aliasDepth).renderBase ++ kw .whereKw ::
        (added ++ [kw .parenClose]))) = _ := fun hopen =>
    R.textOf_cons hopen (R.textOf_append hbase (R.textOf_cons (part_where R)
      (R.textOf_append hshown (R.textOf_singleton R.part_close))))
  refine ⟨kw (if negate then .notExistsOpen else .existsOpen) ::
    ((parsed.nested scope.aliasDepth).renderBase ++ kw .whereKw ::
      (added ++ [kw .parenClose])), by simp, ?_⟩
  cases negate with
  | false =>
    have hopen : R.part (kw .existsOpen) = some "EXISTS (SELECT 1 FROM ".toList :=
      R.part_shared fun kind => by cases kind <;> rfl
    refine ⟨_, _, htext hopen, existence_eq hchain hvalue, ?_⟩
    have hformula := hselect.formula (by simp)
    simpa using hformula
  | true =>
    have hopen : R.part (kw .notExistsOpen) = some "NOT EXISTS (SELECT 1 FROM ".toList :=
      R.part_shared fun kind => by cases kind <;> rfl
    refine ⟨_, _, htext hopen, existence_eq hchain hvalue, ?_⟩
    simpa using hselect.not

/-! ## What predicates are put together from -/

namespace Reading

variable {P : Kind → Text → Tree → Prop} {sql₁ sql₂ : Parts} {l r : Tree} {name : Const}

theorem Adds.some (h : R.Adds P sql sql' tree) : ∃ t, tree = .some t ∧ R.Adds P sql sql' (.some t) := by
  obtain ⟨added, rfl, shown, t, hshown, rfl, hp⟩ := h
  exact ⟨t, rfl, added, rfl, shown, t, hshown, rfl, hp⟩

/-- Two operands with a constant between them. -/
theorem Adds.between {s : String} {op : Infix} (h₁ : R.Adds Operand sql sql₁ (.some l))
    (hname : name.text R.kind = .some s) (hbetween : Between R.kind s op)
    (h₂ : R.Adds Operand (sql₁ ++ [kw name]) sql₂ (.some r)) :
    R.Adds Formula sql sql₂ (.some (.binary op l r)) := by
  obtain ⟨added₁, rfl, shown₁, l', hs₁, hl, ho₁⟩ := h₁
  obtain ⟨added₂, rfl, shown₂, r', hs₂, hr, ho₂⟩ := h₂
  obtain rfl : l = l' := by simpa using hl
  obtain rfl : r = r' := by simpa using hr
  exact ⟨added₁ ++ kw name :: added₂, by simp, _, _,
    R.textOf_append hs₁ (R.textOf_cons (R.part_kw hname) hs₂), rfl, ho₁.between hbetween ho₂⟩

/-- `&&` and `||`. -/
theorem Adds.wrap {between : Text} {op : Infix}
    (hop : ∀ {left right : Text} {l r : Tree}, Condition R.kind left l → Condition R.kind right r →
      Formula R.kind ("(".toList ++ (left ++ (between ++ (right ++ ")".toList))))
        (.binary op l r))
    (hname : R.part (kw name) = .some between)
    (h₁ : R.Adds Condition (sql ++ [kw .parenOpen]) sql₁ (.some l))
    (h₂ : R.Adds Condition (sql₁ ++ [kw name]) sql₂ (.some r)) :
    R.Adds Formula sql (sql₂ ++ [kw .parenClose]) (.some (.binary op l r)) := by
  obtain ⟨added₁, rfl, shown₁, l', hs₁, hl, hc₁⟩ := h₁
  obtain ⟨added₂, rfl, shown₂, r', hs₂, hr, hc₂⟩ := h₂
  obtain rfl : l = l' := by simpa using hl
  obtain rfl : r = r' := by simpa using hr
  exact ⟨kw .parenOpen :: (added₁ ++ kw name :: (added₂ ++ [kw .parenClose])), by simp, _, _,
    R.textOf_cons R.part_open (R.textOf_append hs₁ (R.textOf_cons hname
      (R.textOf_append hs₂ (R.textOf_singleton R.part_close)))), rfl, hop hc₁ hc₂⟩

/-- A comparison with a truth value. -/
theorem Adds.truth (h : R.Adds Operand sql sql₁ (.some l)) (value : Bool) :
    R.Adds Formula sql (sql₁ ++ [kw .eq, kw (if value then .true else .false)])
      (.some (.binary .eq l (truth R.kind value))) := by
  obtain ⟨s, hs, hoperand⟩ := operand_truth R.kind value
  have hname : Const.text R.kind .eq = .some " = " := by cases R.kind <;> rfl
  refine h.between hname (between_comparison R.kind).1 ?_
  exact ⟨[kw (if value then .true else .false)], by simp, _, _, R.textOf_singleton (R.part_kw hs),
    rfl, hoperand⟩

/-- A test for `NULL`. -/
theorem Adds.test (h : R.Adds Operand sql sql₁ (.some l)) (present : Bool) :
    R.Adds Formula sql (sql₁ ++ [kw (if present then .isNotNull else .isNull)])
      (.some (.binary (if present then .isNot else .is) l .null)) := by
  obtain ⟨added, rfl, shown, l', hshown, hl, hoperand⟩ := h
  obtain rfl : l = l' := by simpa using hl
  have hname : R.part (kw (if present then .isNotNull else .isNull)) =
      .some (if present then " IS NOT NULL" else " IS NULL").toList :=
    R.part_shared fun kind => by cases present <;> cases kind <;> rfl
  exact ⟨added ++ [kw (if present then .isNotNull else .isNull)], by simp, _, _,
    R.textOf_append hshown (R.textOf_singleton hname), rfl, hoperand.test present⟩

/-- A comparison with the elements of an array. -/
theorem Adds.every (hkind : R.kind = .pg) (h : R.Adds Operand sql sql₁ (.some l)) (ident : Ident)
    (quantifier : Quantifier) :
    R.Adds Formula sql
      (sql₁ ++ [kw (if quantifier = .any then .eqAnyOpen else .neAllOpen), .capture ident,
        kw .parenClose])
      (.some (.every (if quantifier = .any then .eq else .ne) quantifier l (R.shown ident))) := by
  obtain ⟨added, rfl, shown, l', hshown, hl, hoperand⟩ := h
  obtain rfl : l = l' := by simpa using hl
  have hmarks := (R.marks ident).condition
  rw [hkind] at hoperand hmarks
  cases quantifier with
  | any =>
    have hname : R.part (kw .eqAnyOpen) = .some " = ANY(".toList := R.part_kw (by rw [hkind]; rfl)
    refine ⟨added ++ [kw .eqAnyOpen, .capture ident, kw .parenClose], by simp, _, _,
      R.textOf_append hshown (R.textOf_cons hname (R.textOf_cons rfl
        (R.textOf_singleton R.part_close))), rfl, ?_⟩
    have hevery : Formula .pg _ (.every (.ofSymbol "=".toList) .any l (R.shown ident)) :=
      hoperand.every (delimited_blank "= ANY(".toList) (by decide) hmarks
    rw [hkind]
    exact hevery
  | all =>
    have hname : R.part (kw .neAllOpen) = .some " <> ALL(".toList := R.part_kw (by rw [hkind]; rfl)
    refine ⟨added ++ [kw .neAllOpen, .capture ident, kw .parenClose], by simp, _, _,
      R.textOf_append hshown (R.textOf_cons hname (R.textOf_cons rfl
        (R.textOf_singleton R.part_close))), rfl, ?_⟩
    have hevery : Formula .pg _ (.every (.ofSymbol "<>".toList) .all l (R.shown ident)) :=
      hoperand.every (delimited_blank "<> ALL(".toList) (by decide) hmarks
    rw [hkind]
    exact hevery

end Reading

/-! ## The forms of a predicate -/

theorem Input.new_binary {attrs : List Attr} {left right : Expr} {op : Op}
    (h : Input.new e = .binary attrs left op right) : ∃ o, Op.new o = op := by
  unfold Input.new at h
  repeat' split at h
  all_goals first
    | exact ⟨_, (Input.binary.inj h).2.2.1⟩
    | exact absurd h (by simp)

theorem Input.new_method {attrs : List Attr} {receiver : Expr} {name : Ident}
    {turbofish : Option (List GenericArg)} {args : List Expr} {kind : Method}
    (h : Input.new e = .method attrs receiver name turbofish args kind) :
    Method.new name = some kind := by
  unfold Input.new at h
  repeat' split at h
  all_goals first
    | obtain ⟨-, -, rfl, -, -, rfl⟩ := Input.method.inj h
      assumption
    | exact absurd h (by simp)

section Cases

variable {columns : Bool} {attrs : List Attr} {left right inner receiver : Expr} {name : Ident}
  {turbofish : Option (List GenericArg)} {args : List Expr}

theorem forms_boolean {value : Bool} (h : Input.new e = .boolean attrs value) : Forms R e := by
  intro scope columns context sql sql' hscope hcontext hbuild
  rw [buildInto] at hbuild
  split at hbuild
  case h_3 heq =>
    obtain ⟨rfl, rfl⟩ := Input.boolean.inj (h.symm.trans heq)
    split at hbuild
    · exact absurd hbuild (by simp)
    obtain rfl : _ = sql' := by simpa using hbuild
    rw [predicate_boolean h]
    obtain ⟨s, hs, hoperand⟩ := operand_truth R.kind value
    refine ⟨_, rfl, _, _, R.textOf_singleton (R.part_kw hs), rfl, hoperand.formula ?_⟩
    cases R.kind <;> cases value <;> simp [truth]
  all_goals
    rename_i heq
    exact absurd (h.symm.trans heq) (by simp)

theorem forms_field (h : Input.new e = .field attrs) (hw : Writes R e) : Forms R e := by
  intro scope columns context sql sql' hscope hcontext hbuild
  rw [buildInto] at hbuild
  split at hbuild
  case h_4 heq =>
    split at hbuild
    · exact absurd hbuild (by simp)
    obtain ⟨⟨parsed, sql₁⟩, hparse, hbuild⟩ := bind_eq_ok.mp hbuild
    have hadds := parse_adds hw hscope hcontext (Or.inl rfl) hparse
    cases parsed with
    | false => exact absurd hbuild (by simp)
    | true =>
      obtain rfl : _ = sql' := by simpa using hbuild
      obtain ⟨t, hvalue, hadds⟩ := Reading.Adds.some hadds
      rw [predicate_field h hvalue]
      exact hadds.truth true
  all_goals
    rename_i heq
    exact absurd (h.symm.trans heq) (by simp)

theorem forms_not (h : Input.new e = .not attrs inner) (hw : Writes R inner) : Forms R e := by
  intro scope columns context sql sql' hscope hcontext hbuild
  rw [buildInto] at hbuild
  split at hbuild
  case h_5 heq =>
    obtain ⟨rfl, rfl⟩ := Input.not.inj (h.symm.trans heq)
    split at hbuild
    · exact absurd hbuild (by simp)
    obtain ⟨⟨parsed, sql₁⟩, hparse, hbuild⟩ := bind_eq_ok.mp hbuild
    have hadds := parse_adds hw hscope hcontext (Or.inl rfl) hparse
    cases parsed with
    | false => exact absurd hbuild (by simp)
    | true =>
      obtain rfl : _ = sql' := by simpa using hbuild
      obtain ⟨t, hvalue, hadds⟩ := Reading.Adds.some hadds
      rw [predicate_not h hvalue]
      exact hadds.truth false
  all_goals
    rename_i heq
    exact absurd (h.symm.trans heq) (by simp)

theorem forms_paren (h : Input.new e = .paren attrs inner) (hb : Forms R inner) :
    Forms R e := by
  intro scope columns context sql sql' hscope hcontext hbuild
  rw [buildInto] at hbuild
  split at hbuild
  case h_6 heq =>
    obtain ⟨rfl, rfl⟩ := Input.paren.inj (h.symm.trans heq)
    split at hbuild
    · exact absurd hbuild (by simp)
    rw [predicate_paren h]
    exact hb hscope hcontext hbuild
  all_goals
    rename_i heq
    exact absurd (h.symm.trans heq) (by simp)

theorem forms_block {label : Option Ident} {stmts : List Stmt}
    (h : Input.new e = .block attrs label stmts)
    (hb : ∀ inner, stmts = [.expr inner false] → Forms R inner) : Forms R e := by
  intro scope columns context sql sql' hscope hcontext hbuild
  rw [buildInto] at hbuild
  split at hbuild
  case h_7 heq =>
    obtain ⟨rfl, rfl, rfl⟩ := Input.block.inj (h.symm.trans heq)
    split at hbuild
    · exact absurd hbuild (by simp)
    split at hbuild
    · exact absurd hbuild (by simp)
    split at hbuild
    · rw [predicate_block h]
      exact hb _ rfl hscope hcontext hbuild
    all_goals exact absurd hbuild (by simp)
  all_goals
    rename_i heq
    exact absurd (h.symm.trans heq) (by simp)

theorem forms_null {present : Bool} (h : Input.new e = .null present attrs receiver turbofish args)
    (hw : Writes R receiver) : Forms R e := by
  intro scope columns context sql sql' hscope hcontext hbuild
  rw [buildInto] at hbuild
  split at hbuild
  case h_8 heq =>
    obtain ⟨rfl, rfl, rfl, rfl, rfl⟩ := Input.null.inj (h.symm.trans heq)
    split at hbuild
    · exact absurd hbuild (by simp)
    split at hbuild
    · exact absurd hbuild (by simp)
    split at hbuild
    · exact absurd hbuild (by simp)
    obtain ⟨⟨parsed, sql₁⟩, hparse, hbuild⟩ := bind_eq_ok.mp hbuild
    have hadds := parse_adds hw hscope hcontext (Or.inl rfl) hparse
    cases parsed with
    | false => exact absurd hbuild (by simp)
    | true =>
      obtain rfl : _ = sql' := by simpa using hbuild
      obtain ⟨t, hvalue, hadds⟩ := Reading.Adds.some hadds
      rw [predicate_null h hvalue]
      exact hadds.test present
  all_goals
    rename_i heq
    exact absurd (h.symm.trans heq) (by simp)

theorem forms_binary {op : Op} (h : Input.new e = .binary attrs left op right)
    (hl : Faithful R left) (hr : Faithful R right) : Forms R e := by
  intro scope columns context sql sql' hscope hcontext hbuild
  rw [buildInto] at hbuild
  split at hbuild
  case h_2 heq =>
    obtain ⟨rfl, rfl, rfl, rfl⟩ := Input.binary.inj (h.symm.trans heq)
    split at hbuild
    · exact absurd hbuild (by simp)
    cases op with
    | and =>
      obtain ⟨sql₁, hleft, hbuild⟩ := bind_eq_ok.mp hbuild
      obtain ⟨sql₂, hright, hbuild⟩ := bind_eq_ok.mp hbuild
      obtain rfl : _ = sql' := by simpa using hbuild
      obtain ⟨l, hpl, hl⟩ := Reading.Adds.some (hl.build hscope hcontext hleft)
      obtain ⟨r, hpr, hr⟩ := Reading.Adds.some (hr.build hscope hcontext hright)
      rw [predicate_and h hpl hpr]
      exact hl.wrap Condition.and (R.part_shared fun kind => by cases kind <;> rfl) hr
    | or =>
      obtain ⟨sql₁, hleft, hbuild⟩ := bind_eq_ok.mp hbuild
      obtain ⟨sql₂, hright, hbuild⟩ := bind_eq_ok.mp hbuild
      obtain rfl : _ = sql' := by simpa using hbuild
      obtain ⟨l, hpl, hl⟩ := Reading.Adds.some (hl.build hscope hcontext hleft)
      obtain ⟨r, hpr, hr⟩ := Reading.Adds.some (hr.build hscope hcontext hright)
      rw [predicate_or h hpl hpr]
      exact hl.wrap Condition.or (R.part_shared fun kind => by cases kind <;> rfl) hr
    | compare op =>
      obtain ⟨o, hop⟩ := Input.new_binary h
      obtain ⟨hplain, s, hs⟩ := Op.compare_shared hop
      obtain ⟨⟨parsed₁, sql₁⟩, hleft, hbuild⟩ := bind_eq_ok.mp hbuild
      have hadds₁ := parse_adds hl.write hscope hcontext (Or.inr (by rw [hcontext.params])) hleft
      cases parsed₁ with
      | false => exact absurd hbuild (by simp)
      | true =>
        obtain ⟨l, hvl, hadds₁⟩ := Reading.Adds.some hadds₁
        obtain ⟨⟨parsed₂, sql₂⟩, hright, hbuild⟩ := bind_eq_ok.mp hbuild
        have hadds₂ := parse_adds hr.write hscope hcontext (Or.inl rfl) hright
        cases parsed₂ with
        | true =>
          dsimp only at hbuild
          rw [if_pos rfl] at hbuild
          split at hbuild
          · exact absurd hbuild (by simp)
          obtain rfl : sql₂ = sql' := by simpa using hbuild
          obtain ⟨r, hvr, hadds₂⟩ := Reading.Adds.some hadds₂
          rw [predicate_compare h hvl hvr]
          exact hadds₁.between (hs R.kind) (Cmp.between (hs R.kind)) hadds₂
        | false =>
          obtain rfl : sql₂ = sql₁ ++ [kw op.sqlRef] := hadds₂
          obtain ⟨ident, hresolve, hbuild⟩ := bind_eq_ok.mp hbuild
          obtain rfl : _ = sql' := by simpa using hbuild
          rw [hcontext.params] at hresolve
          obtain ⟨hu, hc, -⟩ := parse_missed hright
          have hvr : value R scope right = some (R.shown ident) := by
            rw [value.eq_def, hu, hc, resolve_captured hresolve]
          obtain ⟨added, hadded, hshows⟩ := shows_capture R op ident (by simp [hplain])
          rw [predicate_compare h hvl hvr]
          refine hadds₁.between (hs R.kind) (Cmp.between (hs R.kind)) ⟨added, hadded _, ?_⟩
          simpa [Cmp.argument, hplain] using hshows
    | unsupported => exact absurd hbuild (by simp)
  all_goals
    rename_i heq
    exact absurd (h.symm.trans heq) (by simp)

/-- A reference is no value expression. -/
theorem value_reference {ident : Ident} (h : resolveRef R.params e = .ok ident)
    (hu : scope.unnestPos e = none) (hc : scope.columnRef e = none)
    (hp : captured (some R.params) e = none) : value R scope e = none := by
  rw [resolveRef.eq_def] at h
  split at h
  · rw [value.eq_def, hu, hc, hp]
  · rw [resolve_captured h] at hp
    exact absurd hp (by simp)

theorem forms_method {kind : Method}
    (h : Input.new e = .method attrs receiver name turbofish args kind)
    (hw : Writes R receiver) (hargs : ∀ arg ∈ args, Writes R arg) : Forms R e := by
  intro scope columns context sql sql' hscope hcontext hbuild
  rw [buildInto] at hbuild
  split at hbuild
  case h_9 heq =>
    obtain ⟨rfl, rfl, rfl, rfl, rfl, rfl⟩ := Input.method.inj (h.symm.trans heq)
    split at hbuild
    · exact absurd hbuild (by simp)
    split at hbuild
    · exact absurd hbuild (by simp)
    split at hbuild
    swap
    · exact absurd hbuild (by simp)
    obtain ⟨⟨parsed₁, sql₁⟩, hreceiver, hbuild⟩ := bind_eq_ok.mp hbuild
    rw [hcontext.params] at hreceiver
    have hadds := parse_adds hw hscope hcontext (Or.inr rfl) hreceiver
    cases parsed₁ with
    | false => exact absurd hbuild (by simp)
    | true =>
      obtain ⟨l, hvalue, hadds⟩ := Reading.Adds.some hadds
      dsimp only at hbuild
      rw [if_pos rfl] at hbuild
      split at hbuild
      · exact absurd hbuild (by simp)
      rename_i hrejected
      rw [Bool.not_eq_true, hcontext.dialect] at hrejected
      have hname := Input.new_method h
      have hpg : kind = .in_ ∨ kind = .notIn ∨ kind = .fts → R.kind = .pg := by
        intro hkind
        rcases Method.supported hname hrejected with ⟨hpg, -⟩ | ⟨-, hother⟩
        · exact hpg
        · rcases hkind with rfl | rfl | rfl <;> simp at hother
      cases kind with
      | in_ =>
        obtain ⟨ident, hresolve, hbuild⟩ := bind_eq_ok.mp hbuild
        obtain rfl : _ = sql' := by simpa using hbuild
        rw [hcontext.params] at hresolve
        rw [predicate_in h hvalue (resolveRef_argument hresolve)]
        exact hadds.every (hpg (Or.inl rfl)) ident .any
      | notIn =>
        obtain ⟨ident, hresolve, hbuild⟩ := bind_eq_ok.mp hbuild
        obtain rfl : _ = sql' := by simpa using hbuild
        rw [hcontext.params] at hresolve
        rw [predicate_notIn h hvalue (resolveRef_argument hresolve)]
        exact hadds.every (hpg (Or.inr (Or.inl rfl))) ident .all
      | fts =>
        have hkind := hpg (Or.inr (Or.inr rfl))
        have hconst : Cmp.ftsMatch.sqlRef.text R.kind = some " @@ " := by rw [hkind]; rfl
        obtain ⟨⟨parsed₂, sql₂⟩, hparse, hbuild⟩ := bind_eq_ok.mp hbuild
        rw [hcontext.params] at hparse
        have hadds₂ := parse_adds (hargs _ (by simp)) hscope hcontext (Or.inr rfl) hparse
        cases parsed₂ with
        | true =>
          obtain rfl : sql₂ = sql' := by simpa using hbuild
          obtain ⟨r, hvr, hadds₂⟩ := Reading.Adds.some hadds₂
          rw [predicate_fts h hvalue (Or.inl hvr)]
          exact hadds.between hconst (Cmp.between hconst) hadds₂
        | false =>
          obtain rfl : sql₂ = sql₁ ++ [kw Cmp.ftsMatch.sqlRef] := hadds₂
          obtain ⟨ident, hresolve, hbuild⟩ := bind_eq_ok.mp hbuild
          obtain rfl : _ = sql' := by simpa using hbuild
          rw [hcontext.params] at hresolve
          obtain ⟨hu, hc, hp⟩ := parse_missed hparse
          rw [predicate_fts h hvalue
            (Or.inr ⟨value_reference hresolve hu hc hp, resolveRef_argument hresolve⟩)]
          exact hadds.between hconst (Cmp.between hconst)
            ⟨[.capture ident], by simp, _, _, R.textOf_singleton rfl, rfl, R.marks ident⟩
      | compare op =>
        obtain ⟨ident, hresolve, hbuild⟩ := bind_eq_ok.mp hbuild
        obtain rfl : _ = sql' := by simpa using hbuild
        rw [hcontext.params] at hresolve
        obtain ⟨s, hs⟩ := Method.constant hname hrejected
        obtain ⟨added, hadded, hshows⟩ :=
          shows_capture R op ident fun hl => Method.ltree hname hrejected hl
        rw [predicate_method h hvalue (resolveRef_argument hresolve)]
        exact hadds.between hs (Cmp.between hs) ⟨added, hadded _, hshows⟩
  all_goals
    rename_i heq
    exact absurd (h.symm.trans heq) (by simp)

theorem forms_exist {negate : Bool} (h : Input.new e = .exist attrs name args negate)
    (hb : ∀ input ∈ args, ∀ ctes parsed ids body,
      QuerySource.parseChain input ctes = .ok (parsed, ids, body) → Builds R body) :
    Forms R e := by
  intro scope columns context sql sql' hscope hcontext hbuild
  rw [buildInto] at hbuild
  split at hbuild
  case h_1 heq =>
    obtain ⟨rfl, rfl, rfl, rfl⟩ := Input.exist.inj (h.symm.trans heq)
    split at hbuild
    · exact absurd hbuild (by simp)
    split at hbuild
    swap
    · exact absurd hbuild (by simp)
    rw [predicate_exist h]
    exact adds_exists (hb _ (by simp) R.ctes) hscope hcontext hbuild
  all_goals
    rename_i heq
    exact absurd (h.symm.trans heq) (by simp)

end Cases

theorem Forms.faithful (h : Forms R e) (hw : Writes R e) : Faithful R e := by
  refine ⟨hw, fun scope columns context sql sql' hscope hcontext hbuild => ?_⟩
  obtain ⟨added, hadded, shown, t, hshown, ht, hformula⟩ := h hscope hcontext hbuild
  exact ⟨added, hadded, shown, t, hshown, ht, hformula.condition⟩

/-- Predicates are written in their outermost form when their parts are faithful. -/
theorem forms_of_smaller (hw : Writes R e) (ih : ∀ e', sizeOf e' < sizeOf e → Faithful R e')
    (ihf : ∀ e', sizeOf e' < sizeOf e → Forms R e') :
    Forms R e := by
  have hinside := Input.new_inside e
  cases hinput : Input.new e with
  | exist attrs name args negate =>
    rw [hinput] at hinside
    refine forms_exist hinput fun input hmem ctes parsed ids body hchain => (ih body ?_).build
    have hbody := QuerySource.parseChain_size hchain
    have harg := List.sizeOf_lt_of_mem hmem
    simp only [Input.Inside] at hinside
    omega
  | binary attrs left op right =>
    rw [hinput] at hinside
    exact forms_binary hinput (ih left hinside.1) (ih right hinside.2)
  | boolean attrs value => exact forms_boolean hinput
  | field attrs => exact forms_field hinput hw
  | not attrs inner =>
    rw [hinput] at hinside
    exact forms_not hinput (ih inner hinside).write
  | paren attrs inner =>
    rw [hinput] at hinside
    exact forms_paren hinput (ihf inner hinside)
  | block attrs label stmts =>
    rw [hinput] at hinside
    refine forms_block hinput fun inner hstmts => ihf inner ?_
    subst hstmts
    simp only [Input.Inside, List.cons.sizeOf_spec, Stmt.expr.sizeOf_spec] at hinside
    omega
  | null present attrs receiver turbofish args =>
    rw [hinput] at hinside
    exact forms_null hinput (ih receiver hinside).write
  | method attrs receiver name turbofish args kind =>
    rw [hinput] at hinside
    refine forms_method hinput (ih receiver hinside.1).write fun arg hmem => (ih arg ?_).write
    have harg := List.sizeOf_lt_of_mem hmem
    have hargs := hinside.2
    omega
  | unsupportedMethod name =>
    intro scope columns context sql sql' hscope hcontext hbuild
    rw [buildInto] at hbuild
    split at hbuild <;> simp_all
  | unsupported =>
    intro scope columns context sql sql' hscope hcontext hbuild
    rw [buildInto] at hbuild
    split at hbuild <;> simp_all

/-- Every value expression is written as an operand, every predicate in its outermost form. -/
theorem shaped (R : Reading) (e : Expr) : Writes R e ∧ Forms R e := by
  have ih : ∀ e', sizeOf e' < sizeOf e → Writes R e' ∧ Forms R e' := fun e' _ => shaped R e'
  have hfaithful : ∀ e', sizeOf e' < sizeOf e → Faithful R e' := fun e' hlt =>
    (ih e' hlt).2.faithful (ih e' hlt).1
  have hw : Writes R e := writes_of_smaller hfaithful
  exact ⟨hw, forms_of_smaller hw hfaithful fun e' hlt => (ih e' hlt).2⟩
termination_by sizeOf e

/-- Every expression is written as what it is read as. -/
theorem faithful (R : Reading) (e : Expr) : Faithful R e := (shaped R e).2.faithful (shaped R e).1

end Cartel.Sql
