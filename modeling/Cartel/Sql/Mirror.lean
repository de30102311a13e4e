import Cartel.Sql.Predicate
import Cartel.Sql.Texts

/-!
# The tree of a Rust expression

What a predicate or a value expression means as SQL, read off the Rust syntax alone :
`&&` is `AND`, `!e` compares with the false value, a field is a column of the source its row
is bound to, `x.in_(v)` compares with the elements of an array, and so on. Parentheses and
blocks leave no trace. `value` and `predicate` know no text.
-/

namespace Cartel.Sql

/-- How the constants of the derived tables and the captured parameters show in a text : a
parameter shows as one operand. -/
structure Reading where
  kind : Kind
  tables : Tables
  params : List Ident
  ctes : CteMap
  mark : Ident → Text
  shown : Ident → Tree
  marks : ∀ ident, Operand kind (mark ident) (shown ident)

/-! ## Names -/

def SqlColRef.tree : SqlColRef → Tree
  | .bare column => .column [column]
  | .qualified table column => .column [table, column]

/-- The path of the relation a source reads. -/
def QuerySource.names (source : QuerySource) (tables : Tables) : List Text :=
  match source.primaryAlias with
  | some ident => [ident.name]
  | none => segments (tables.name source.primaryPath).text

/-- A query from a source. -/
def QuerySource.query (source : QuerySource) (tables : Tables) (items : List Tree)
    (condition : Option Tree) : Tree :=
  selectFrom items (source.names tables) (source.qualifier 0) condition

/-! ## Operators and literals -/

/-- SQLite writes truth values as numbers. -/
def truth : Kind → Bool → Tree
  | .pg, value => .truth value
  | .sqlite, true => .number "1".toList
  | .sqlite, false => .number "0".toList

def Cmp.op : Cmp → Infix
  | .eq => .eq
  | .ne => .ne
  | .lt => .lt
  | .gt => .gt
  | .le => .le
  | .ge => .ge
  | .like => .like false
  | .ilike => .ilike false
  | .notLike => .like true
  | .notIlike => .ilike true
  | .glob => .glob false
  | .contains => .other "@>".toList
  | .overlaps => .other "&&".toList
  | .regexMatch => .other "~".toList
  | .regexImatch => .other "~*".toList
  | .notRegexMatch => .other "!~".toList
  | .notRegexImatch => .other "!~*".toList
  | .ftsMatch => .other "@@".toList
  | .ltreeDescOf => .other "<@".toList
  | .ltreeAncOf => .other "@>".toList

def Arith.op : Arith → Infix
  | .add => .add
  | .mul => .mul

def literalTree (kind : Kind) : Lit → Option Tree
  | .int literal => some (.number literal.digits)
  | .float literal => some (.number literal.digits)
  | .bool value => some (truth kind value)
  | .str value => some (.string value)
  | .other => none

/-- The right side of a comparison with a parameter. -/
def Cmp.argument (op : Cmp) (t : Tree) : Tree := if op.isLtree then .cast t "ltree".toList else t

/-- A parameter, or a reference to one. -/
def argument (R : Reading) (e : Expr) : Option Tree :=
  match e with
  | .reference _ inner => (captured (some R.params) inner).map R.shown
  | e => (captured (some R.params) e).map R.shown

def countAll : Tree := .call "count".toList [.star]

/-! ## Expressions -/

mutual
/-- A value expression. -/
def value (R : Reading) (scope : RowScope) (e : Expr) : Option Tree :=
  match scope.unnestPos e with
  | some pos => some (.column ["__d".toList, 'f' :: decimal pos])
  | none =>
  match scope.columnRef e with
  | some column => some column.tree
  | none =>
  match captured (some R.params) e with
  | some ident => some (R.shown ident)
  | none =>
  match e with
  | .binary attrs left op right =>
    match Arith.new attrs op, value R scope left, value R scope right with
    | some operator, some l, some r => some (.binary operator.op l r)
    | _, _, _ => none
  | .call attrs func args =>
    match Function.ofCall attrs func, values R scope args with
    | some function, some args => some (.call function.name args)
    | _, _ => none
  | .paren _ expr => value R scope expr
  | .methodCall attrs receiver method turbofish args =>
    match aggregateMethod attrs method turbofish with
    | none => none
    | some function =>
      match receiver with
      | .call _ func inputs =>
        match hshape : shape function args with
        | .ok (some kind) => subquery R scope func inputs kind
        | _ => none
      | _ =>
        match function, args with
        | none, _ => some countAll
        | some function, [arg] =>
          match value R scope arg with
          | some t => some (.call function.lower.toList [t])
          | none => none
        | _, _ => none
  | .lit _ lit => literalTree R.kind lit
  | _ => none
termination_by (sizeOf e, 0)
decreasing_by
  all_goals simp_wf
  all_goals try omega
  have hsize := shape_size hshape
  exact Prod.Lex.left _ _ (by omega)

/-- The arguments of a call. -/
def values (R : Reading) (scope : RowScope) (args : List Expr) : Option (List Tree) :=
  match args with
  | [] => some []
  | arg :: args =>
    match value R scope arg, values R scope args with
    | some t, some rest => some (t :: rest)
    | _, _ => none
termination_by (sizeOf args, 0)
decreasing_by
  all_goals simp_wf
  all_goals omega

/-- What a scalar subquery computes. -/
def aggregate (R : Reading) (scope : RowScope) (source : QuerySource) (kind : Aggregate) :
    Option Tree :=
  match kind with
  | .count => some countAll
  | .column name arg body =>
    match value R ((RowScope.forPrimary source arg).withOuter scope) body with
    | some t => some (.call name.lower.toList [t])
    | none => none
termination_by (kind.size, 3)
decreasing_by
  simp_wf
  exact lex_of_le (Nat.le_refl _) (by decide)

/-- A scalar subquery. -/
def subquery (R : Reading) (scope : RowScope) (func : Expr) (inputs : List Expr)
    (kind : Aggregate) : Option Tree :=
  match hcall : QuerySource.parseCall func inputs with
  | .error _ => none
  | .ok (table, arg, body) =>
    let source := (QuerySource.new table).nested scope.aliasDepth
    match aggregate R scope source kind,
      predicate R ((RowScope.forPrimary source arg).withOuter scope) body with
    | some item, some condition => some (.scalar (source.query R.tables [item] (some condition)))
    | _, _ => none
termination_by (sizeOf inputs + kind.size, 4)
decreasing_by
  · exact lex_of_le (Nat.le_add_left _ _) (Nat.lt_succ_self 3)
  · have hsize := QuerySource.parseCall_size hcall
    exact Prod.Lex.left _ _ (by omega)

/-- An existence test. -/
def existence (R : Reading) (scope : RowScope) (input : Expr) (negate : Bool) : Option Tree :=
  match hchain : QuerySource.parseChain input R.ctes with
  | .error _ => none
  | .ok (parsed, ids, body) =>
    let source := parsed.nested scope.aliasDepth
    match predicate R ((RowScope.forBindings source ids).withOuter scope) body with
    | none => none
    | some condition =>
      let test := Tree.existence (source.query R.tables [.number "1".toList] (some condition))
      some (if negate then .not test else test)
termination_by (sizeOf input, 3)
decreasing_by
  have hsize := QuerySource.parseChain_size hchain
  exact lex_of_le hsize (Nat.lt_succ_self 2)

/-- A predicate. -/
def predicate (R : Reading) (scope : RowScope) (e : Expr) : Option Tree :=
  match hinput : Input.new e with
  | .exist _ _ args negate =>
    match args with
    | [input] => existence R scope input negate
    | _ => none
  | .binary _ left op right =>
    match op with
    | .and =>
      match predicate R scope left, predicate R scope right with
      | some l, some r => some (.binary .and l r)
      | _, _ => none
    | .or =>
      match predicate R scope left, predicate R scope right with
      | some l, some r => some (.binary .or l r)
      | _, _ => none
    | .compare op =>
      match value R scope left, value R scope right with
      | some l, some r => some (.binary op.op l r)
      | _, _ => none
    | .unsupported => none
  | .boolean _ value => some (truth R.kind value)
  | .field _ =>
    match value R scope e with
    | some t => some (.binary .eq t (truth R.kind true))
    | none => none
  | .not _ expr =>
    match value R scope expr with
    | some t => some (.binary .eq t (truth R.kind false))
    | none => none
  | .paren _ expr => predicate R scope expr
  | .block _ _ stmts =>
    match stmts with
    | [.expr inner false] => predicate R scope inner
    | _ => none
  | .null present _ receiver _ _ =>
    match value R scope receiver with
    | some t => some (.binary (if present then .isNot else .is) t .null)
    | none => none
  | .method _ receiver _ _ args kind =>
    match args with
    | [arg] =>
      match value R scope receiver, kind with
      | some l, .in_ => (argument R arg).map fun r => .every .eq .any l r
      | some l, .notIn => (argument R arg).map fun r => .every .ne .all l r
      | some l, .fts =>
        match value R scope arg with
        | some r => some (.binary Cmp.ftsMatch.op l r)
        | none => (argument R arg).map fun r => .binary Cmp.ftsMatch.op l r
      | some l, .compare op => (argument R arg).map fun r => .binary op.op l (op.argument r)
      | none, _ => none
    | _ => none
  | .unsupportedMethod _ => none
  | .unsupported => none
termination_by (sizeOf e, 2)
decreasing_by
  all_goals
    have hinside := Input.new_inside e
    rw [hinput] at hinside
    simp only [Input.Inside, List.cons.sizeOf_spec, Stmt.expr.sizeOf_spec] at hinside
    first
      | exact Prod.Lex.left _ _ (by omega)
      | exact Prod.Lex.right _ (Nat.zero_lt_succ 1)
end

end Cartel.Sql
