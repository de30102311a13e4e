import Cartel.Sql.Scope

/-!
# Predicates and value expressions

How a Rust expression is written as SQL. A value expression (`writeExpr`) is a column, a
captured parameter, `+` and `*`, a function of the dialect, an aggregate, a scalar subquery
or a literal. A predicate (`buildInto`) is made of these with `&&`, `||`, comparisons, bare
and negated boolean columns, tests for `NULL`, method operators and existence tests.
What a failed attempt has written is cut off again (`parseInto`).
-/

namespace Cartel.Sql

/-! ## Operators -/

/-- Comparison operators (`cmp::Cmp`). -/
inductive Cmp
  | eq | ne | lt | gt | le | ge
  | like | ilike | notLike | notIlike | glob | contains | overlaps
  | regexMatch | regexImatch | notRegexMatch | notRegexImatch
  | ftsMatch | ltreeDescOf | ltreeAncOf
  deriving DecidableEq, Repr

namespace Cmp

def sqlRef : Cmp → Const
  | .eq => .eq
  | .ne => .ne
  | .lt => .lt
  | .gt => .gt
  | .le => .le
  | .ge => .ge
  | .like => .like
  | .ilike => .ilike
  | .notLike => .notLike
  | .notIlike => .notIlike
  | .glob => .glob
  | .contains => .contains
  | .overlaps => .overlaps
  | .regexMatch => .regexMatch
  | .regexImatch => .regexImatch
  | .notRegexMatch => .notRegexMatch
  | .notRegexImatch => .notRegexImatch
  | .ftsMatch => .ftsMatch
  | .ltreeDescOf => .ltreeDescOf
  | .ltreeAncOf => .ltreeAncOf

/-- The operators whose parameter is cast to a label tree. -/
def isLtree : Cmp → Bool
  | .ltreeDescOf | .ltreeAncOf => true
  | _ => false

/-- `Cmp::capture`. -/
def capture (op : Cmp) (ident : Ident) (sql : Parts) : Parts :=
  if op.isLtree then sql ++ [.capture ident, kw .castLtreeSuffix] else sql ++ [.capture ident]

end Cmp

/-- `input::Op`. -/
inductive Op
  | and | or | compare (op : Cmp) | unsupported
  deriving DecidableEq, Repr

def Op.new : BinOp → Op
  | .and => .and
  | .or => .or
  | .eq => .compare .eq
  | .ne => .compare .ne
  | .lt => .compare .lt
  | .gt => .compare .gt
  | .le => .compare .le
  | .ge => .compare .ge
  | _ => .unsupported

/-- `input::Method`. -/
inductive Method
  | in_ | notIn | fts | compare (op : Cmp)
  deriving DecidableEq, Repr

def Method.new (method : Ident) : Option Method :=
  if method.is "in_" then some .in_
  else if method.is "not_in" then some .notIn
  else if method.is "fts_match" then some .fts
  else if method.is "like" then some (.compare .like)
  else if method.is "ilike" then some (.compare .ilike)
  else if method.is "not_like" then some (.compare .notLike)
  else if method.is "not_ilike" then some (.compare .notIlike)
  else if method.is "glob" then some (.compare .glob)
  else if method.is "pg_contains" then some (.compare .contains)
  else if method.is "pg_overlaps" then some (.compare .overlaps)
  else if method.is "regex_match" then some (.compare .regexMatch)
  else if method.is "regex_imatch" then some (.compare .regexImatch)
  else if method.is "not_regex_match" then some (.compare .notRegexMatch)
  else if method.is "not_regex_imatch" then some (.compare .notRegexImatch)
  else if method.is "descendant_of" then some (.compare .ltreeDescOf)
  else if method.is "ancestor_of" then some (.compare .ltreeAncOf)
  else none

/-- `Kind::is_rejected` : the operators a backend does not have. -/
def Kind.isRejected : Kind → Ident → Bool
  | .pg, method => method.is "glob"
  | .sqlite, method =>
    ["ilike", "not_ilike", "pg_contains", "pg_overlaps", "regex_match", "regex_imatch",
      "not_regex_match", "not_regex_imatch", "descendant_of", "ancestor_of", "fts_match",
      "in_", "not_in"].any method.is

/-- Arithmetic operators (`expr::Operator`). -/
inductive Arith
  | add | mul
  deriving DecidableEq, Repr

/-- `Binary::new`, on the operator of a plain expression. -/
def Arith.new (attrs : List Attr) : BinOp → Option Arith
  | .add => if attrs = [] then some .add else none
  | .mul => if attrs = [] then some .mul else none
  | _ => none

def Arith.tokens : Arith → Text
  | .add => " + ".toList
  | .mul => " * ".toList

/-- The functions of a dialect (`expr::Function`). -/
inductive Function
  | vector | query | plainQuery | rank | arrayLength | cardinality
  deriving DecidableEq, Repr

namespace Function

def new (ident : Ident) : Option Function :=
  if ident.is "to_tsvector" then some .vector
  else if ident.is "to_tsquery" then some .query
  else if ident.is "plainto_tsquery" then some .plainQuery
  else if ident.is "ts_rank" then some .rank
  else if ident.is "array_length" then some .arrayLength
  else if ident.is "cardinality" then some .cardinality
  else none

def name : Function → Text
  | .vector => "to_tsvector".toList
  | .query => "to_tsquery".toList
  | .plainQuery => "plainto_tsquery".toList
  | .rank => "ts_rank".toList
  | .arrayLength => "array_length".toList
  | .cardinality => "cardinality".toList

def arity : Function → ℕ
  | .vector | .query | .plainQuery | .cardinality => 1
  | .rank | .arrayLength => 2

/-- `Call::new`, on the callee of a plain call. -/
def ofCall (attrs : List Attr) (func : Expr) : Option Function :=
  if attrs ≠ [] then none else (Sql.function func).bind new

end Function

/-- Aggregate functions (`shape::AggregateFn`). -/
inductive AggregateFn
  | sum | avg | min | max
  deriving DecidableEq, Repr

namespace AggregateFn

def new (ident : Ident) : Option AggregateFn :=
  if ident.is "sum" then some .sum
  else if ident.is "avg" then some .avg
  else if ident.is "min" then some .min
  else if ident.is "max" then some .max
  else none

def lower : AggregateFn → String
  | .sum => "sum"
  | .avg => "avg"
  | .min => "min"
  | .max => "max"

def upper : AggregateFn → Text
  | .sum => "SUM".toList
  | .avg => "AVG".toList
  | .min => "MIN".toList
  | .max => "MAX".toList

end AggregateFn

/-- `Method::new` of value expressions : `count`, or an aggregate function. -/
def aggregateMethod (attrs : List Attr) (method : Ident)
    (turbofish : Option (List GenericArg)) : Option (Option AggregateFn) :=
  if attrs ≠ [] ∨ turbofish.isSome then none
  else if method.is "count" then some none
  else (AggregateFn.new method).map some

/-- What a scalar subquery computes (`expr::Aggregate`). -/
inductive Aggregate
  | count
  | column (function : AggregateFn) (arg : Ident) (body : Expr)

/-- `Method::shape`. -/
def shape (function : Option AggregateFn) (args : List Expr) : Result (Option Aggregate) :=
  match function with
  | none => .ok (if args.isEmpty then some .count else none)
  | some function =>
    match args with
    | [e] => do
      let (arg, body) ← e.closureOne function.lower
      return some (.column function arg body)
    | _ => .ok none

/-- The size of what is computed. -/
noncomputable def Aggregate.size : Aggregate → ℕ
  | .count => 0
  | .column _ _ body => sizeOf body

theorem shape_size {function : Option AggregateFn} {args : List Expr} {kind : Aggregate}
    (h : shape function args = .ok (some kind)) : kind.size < sizeOf args := by
  cases function with
  | none =>
    simp only [shape] at h
    split at h
    · cases h
      cases args with
      | nil => simp [Aggregate.size]
      | cons arg args =>
        simp only [Aggregate.size, List.cons.sizeOf_spec]
        omega
    · cases h
  | some function =>
    simp only [shape, bind, Except.bind] at h
    split at h
    · split at h
      · cases h
      · rename_i e _ found hfound
        obtain ⟨arg, body⟩ := found
        cases h
        have hlt := Expr.closureOne_size hfound
        simp [Aggregate.size]
        omega
    · cases h

/-- A literal as it is written (`Literal::render`). -/
def literal (attrs : List Attr) (lit : Lit) : Option Part :=
  if attrs ≠ [] then none
  else
    match lit with
    | .int literal => some (text literal.digits)
    | .float literal => some (text literal.digits)
    | .bool value => some (kw (if value then .true else .false))
    | .str value => some (text (quotedString value))
    | .other => none

/-! ## Inputs -/

/-- What kind of predicate an expression is (`input::Input`). -/
inductive Input
  | exist (attrs : List Attr) (name : Ident) (args : List Expr) (negate : Bool)
  | binary (attrs : List Attr) (left : Expr) (op : Op) (right : Expr)
  | boolean (attrs : List Attr) (value : Bool)
  | field (attrs : List Attr)
  | not (attrs : List Attr) (expr : Expr)
  | paren (attrs : List Attr) (expr : Expr)
  | block (attrs : List Attr) (label : Option Ident) (stmts : List Stmt)
  | null (present : Bool) (attrs : List Attr) (receiver : Expr)
      (turbofish : Option (List GenericArg)) (args : List Expr)
  | method (attrs : List Attr) (receiver : Expr) (name : Ident)
      (turbofish : Option (List GenericArg)) (args : List Expr) (kind : Method)
  | unsupportedMethod (name : Ident)
  | unsupported

def Input.new : Expr → Input
  | .call attrs func args =>
    match function func with
    | some name =>
      if name.is "exists" then .exist attrs name args false
      else if name.is "not_exists" then .exist attrs name args true
      else .unsupported
    | none => .unsupported
  | .binary attrs left op right => .binary attrs left (.new op) right
  | .lit attrs (.bool value) => .boolean attrs value
  | .field attrs _ _ => .field attrs
  | .unary attrs .not expr => .not attrs expr
  | .paren attrs expr => .paren attrs expr
  | .block attrs label stmts => .block attrs label stmts
  | .methodCall attrs receiver name turbofish args =>
    if name.is "is_some" then .null true attrs receiver turbofish args
    else if name.is "is_none" then .null false attrs receiver turbofish args
    else
      match Method.new name with
      | some kind => .method attrs receiver name turbofish args kind
      | none => .unsupportedMethod name
  | _ => .unsupported

/-- The parts of an input are parts of the expression. -/
def Input.Inside (e : Expr) : Input → Prop
  | .exist _ _ args _ => sizeOf args < sizeOf e
  | .binary _ left _ right => sizeOf left < sizeOf e ∧ sizeOf right < sizeOf e
  | .not _ expr | .paren _ expr => sizeOf expr < sizeOf e
  | .block _ _ stmts => sizeOf stmts < sizeOf e
  | .null _ _ receiver _ _ => sizeOf receiver < sizeOf e
  | .method _ receiver _ _ args _ => sizeOf receiver < sizeOf e ∧ sizeOf args < sizeOf e
  | _ => True

theorem Input.new_inside (e : Expr) : (Input.new e).Inside e := by
  unfold Input.new
  split
  · split
    · split
      · simp only [Inside, Expr.call.sizeOf_spec]
        omega
      · split
        · simp only [Inside, Expr.call.sizeOf_spec]
          omega
        · trivial
    · trivial
  · simp only [Inside, Expr.binary.sizeOf_spec]
    omega
  · trivial
  · trivial
  · simp [Inside]
  · simp only [Inside, Expr.paren.sizeOf_spec]
    omega
  · simp only [Inside, Expr.block.sizeOf_spec]
    omega
  · split
    · simp only [Inside, Expr.methodCall.sizeOf_spec]
      omega
    · split
      · simp only [Inside, Expr.methodCall.sizeOf_spec]
        omega
      · split
        · simp only [Inside, Expr.methodCall.sizeOf_spec]
          omega
        · trivial
  · trivial

/-! ## Columns -/

mutual
/-- `RowScope::has_column`. -/
def hasColumn (scope : RowScope) : Expr → Bool
  | .binary attrs left op right =>
    (scope.columnRef (.binary attrs left op right)).isSome ||
      (scope.unnestRef (.binary attrs left op right)).isSome ||
      ((Arith.new attrs op).isSome && (hasColumn scope left || hasColumn scope right))
  | .paren attrs expr =>
    (scope.columnRef (.paren attrs expr)).isSome || (scope.unnestRef (.paren attrs expr)).isSome ||
      (attrs.isEmpty && hasColumn scope expr)
  | .call attrs func args =>
    (scope.columnRef (.call attrs func args)).isSome ||
      (scope.unnestRef (.call attrs func args)).isSome ||
      ((Function.ofCall attrs func).isSome && anyColumn scope args)
  | .methodCall attrs receiver method turbofish args =>
    (scope.columnRef (.methodCall attrs receiver method turbofish args)).isSome ||
      (scope.unnestRef (.methodCall attrs receiver method turbofish args)).isSome ||
      ((aggregateMethod attrs method turbofish).isSome &&
        (hasColumn scope receiver || anyColumn scope args))
  | e => (scope.columnRef e).isSome || (scope.unnestRef e).isSome
def anyColumn (scope : RowScope) : List Expr → Bool
  | [] => false
  | arg :: args => hasColumn scope arg || anyColumn scope args
end

/-! ## Writing -/

/-- What a predicate is written with (`WhereContext`). -/
structure WhereContext where
  fnParams : List Ident
  paramTys : List Ty
  dialect : Kind
  cteMap : CteMap

/-- The parameter an expression names. -/
def captured (params : Option (List Ident)) (e : Expr) : Option Ident :=
  params.bind fun params => (single e).bind fun ident =>
    if params.any (·.same ident) then some ident else none

/-- A size that does not grow, with a smaller rank. -/
theorem lex_of_le {a b i j : ℕ} (h : a ≤ b) (hij : i < j) :
    Prod.Lex (· < ·) (· < ·) (a, i) (b, j) := by
  rcases Nat.lt_or_eq_of_le h with hlt | rfl
  · exact Prod.Lex.left _ _ hlt
  · exact Prod.Lex.right _ hij

mutual
/-- `RowScope::write_expr` : whether the expression could be written, and what was. -/
def writeExpr (scope : RowScope) (e : Expr) (params : Option (List Ident))
    (context : WhereContext) (sql : Parts) : Result (Bool × Parts) :=
  match scope.unnestRef e with
  | some column => .ok (true, sql ++ [text column])
  | none =>
  match scope.columnRef e with
  | some column => .ok (true, sql ++ column.intoParts)
  | none =>
  match captured params e with
  | some ident => .ok (true, sql ++ [.capture ident])
  | none =>
  match e with
  | .binary attrs left op right =>
    match Arith.new attrs op with
    | none => .ok (false, sql)
    | some operator => do
      let (written, sql) ← writeExpr scope left params context (sql ++ [kw .parenOpen])
      if written then do
        let (written, sql) ← writeExpr scope right params context (sql ++ [text operator.tokens])
        if written then .ok (true, sql ++ [kw .parenClose]) else .ok (false, sql)
      else .ok (false, sql)
  | .call attrs func args =>
    match Function.ofCall attrs func with
    | none => .ok (false, sql)
    | some function =>
      if args.length ≠ function.arity then .ok (false, sql)
      else do
        let (written, sql) ←
          writeArgs scope args params context (sql ++ [text (function.name ++ "(".toList)]) true
        if written then .ok (true, sql ++ [kw .parenClose]) else .ok (false, sql)
  | .paren attrs expr =>
    if attrs ≠ [] then .ok (false, sql) else writeExpr scope expr params context sql
  | .methodCall attrs receiver method turbofish args =>
    match aggregateMethod attrs method turbofish with
    | none => .ok (false, sql)
    | some function =>
      match receiver with
      | .call _ func inputs =>
        match hshape : shape function args with
        | .error message => .error message
        | .ok none => .ok (false, sql)
        | .ok (some kind) =>
          match params with
          | none => .ok (false, sql)
          | some params => do
            let sql ← scalarAgg scope func inputs kind { context with fnParams := params } sql
            .ok (true, sql)
      | receiver =>
        match scope.aggVar, single receiver with
        | some aggVar, some row =>
          if row.same aggVar then
            match function, args with
            | none, [] => .ok (true, sql ++ [kw .countStar])
            | none, _ => .ok (false, sql)
            | some function, [arg] => do
              let (written, sql) ←
                writeExpr scope arg none context (sql ++ [text (function.upper ++ "(".toList)])
              if written then .ok (true, sql ++ [kw .parenClose]) else .ok (false, sql)
            | some _, _ => .ok (false, sql)
          else .ok (false, sql)
        | _, _ => .ok (false, sql)
  | .lit attrs lit =>
    match literal attrs lit with
    | some part => .ok (true, sql ++ [part])
    | none => .ok (false, sql)
  | _ => .ok (false, sql)
termination_by (sizeOf e, 0)
decreasing_by
  all_goals simp_wf
  all_goals try omega
  have hsize := shape_size hshape
  exact Prod.Lex.left _ _ (by omega)

/-- The arguments of a call. -/
def writeArgs (scope : RowScope) (args : List Expr) (params : Option (List Ident))
    (context : WhereContext) (sql : Parts) (begins : Bool) : Result (Bool × Parts) :=
  match args with
  | [] => .ok (true, sql)
  | arg :: args => do
    let (written, sql) ←
      writeExpr scope arg params context (if begins then sql else sql ++ [kw .comma])
    if written then writeArgs scope args params context sql false else .ok (false, sql)
termination_by (sizeOf args, 0)
decreasing_by
  all_goals simp_wf
  all_goals omega

/-- `RowScope::parse_into` : what could not be written is cut off. -/
def parseInto (scope : RowScope) (e : Expr) (params : Option (List Ident))
    (context : WhereContext) (sql : Parts) : Result (Bool × Parts) := do
  let (parsed, written) ← writeExpr scope e params context sql
  .ok (parsed, if parsed then written else written.take sql.length)
termination_by (sizeOf e, 1)

/-- What a scalar subquery computes. -/
def aggregateInto (scope : RowScope) (source : QuerySource) (kind : Aggregate)
    (context : WhereContext) (sql : Parts) : Result Parts :=
  match kind with
  | .column name arg body => do
    let (parsed, sql) ← parseInto ((RowScope.forPrimary source arg).withOuter scope) body
      (some context.fnParams) context (sql ++ [text (name.upper ++ "(".toList)])
    if parsed then .ok (sql ++ [kw .parenClose])
    else
      .error ("scalar subquery `." ++ name.lower ++
        "(...)` body must be a column / arithmetic / function expression")
  | .count => .ok (sql ++ [kw .countStar])
termination_by (kind.size, 3)
decreasing_by
  simp_wf
  exact Prod.Lex.right _ (by decide)

/-- `RowScope::scalar_agg` : an error of the predicate goes before one of the aggregate. -/
def scalarAgg (scope : RowScope) (func : Expr) (inputs : List Expr) (kind : Aggregate)
    (context : WhereContext) (sql : Parts) : Result Parts :=
  match hcall : QuerySource.parseCall func inputs with
  | .error message => .error message
  | .ok (table, arg, body) =>
    let source := (QuerySource.new table).nested scope.aliasDepth
    let inner := (RowScope.forPrimary source arg).withOuter scope
    match aggregateInto scope source kind context (sql ++ [kw .subqueryOpen]) with
    | .ok sql => do
      let sql ← buildInto body inner true context
        (sql ++ kw .fromKw :: (source.renderBase ++ [kw .whereKw]))
      .ok (sql ++ [kw .parenClose])
    | .error message => do
      let _ ← buildInto body inner true context
        (sql ++ kw .fromKw :: (source.renderBase ++ [kw .whereKw]))
      .error message
termination_by (sizeOf inputs + kind.size, 4)
decreasing_by
  · exact lex_of_le (Nat.le_add_left _ _) (Nat.lt_succ_self 3)
  all_goals
    have hsize := QuerySource.parseCall_size hcall
    exact Prod.Lex.left _ _ (by omega)

/-- `RowScope::exists`. -/
def existsInto (scope : RowScope) (input : Expr) (negate : Bool) (context : WhereContext)
    (sql : Parts) : Result Parts :=
  match hchain : QuerySource.parseChain input context.cteMap with
  | .error message => .error message
  | .ok (parsed, ids, body) =>
    let source := parsed.nested scope.aliasDepth
    if source.joins ≠ [] then
      .error "joined source is not yet supported inside `exists(...)` / `not_exists(...)`"
    else
      match RowScope.forSource source ids with
      | .error message => .error message
      | .ok inner => do
        let sql ← buildInto body (inner.withOuter scope) true context
          (sql ++ kw (if negate then .notExistsOpen else .existsOpen) ::
            (source.renderBase ++ [kw .whereKw]))
        .ok (sql ++ [kw .parenClose])
termination_by (sizeOf input, 3)
decreasing_by
  have hsize := QuerySource.parseChain_size hchain
  exact lex_of_le hsize (Nat.lt_succ_self 2)

/-- `pred::build_into`. -/
def buildInto (e : Expr) (scope : RowScope) (columns : Bool) (context : WhereContext)
    (sql : Parts) : Result Parts :=
  match hinput : Input.new e with
  | .exist attrs name args negate =>
    if attrs ≠ [] then .error "attributes are not supported on an existence predicate"
    else
      match args with
      | [source] => existsInto scope source negate context sql
      | _ =>
        .error ("`" ++ String.ofList name.text ++
          "(...)` takes one argument: a `Table::filter(|t| ...)` source")
  | .binary attrs left op right =>
    if attrs ≠ [] then .error "attributes are not supported on a predicate operator"
    else
      match op with
      | .and => do
        let sql ← buildInto left scope columns context (sql ++ [kw .parenOpen])
        let sql ← buildInto right scope columns context (sql ++ [kw .andParenWrap])
        .ok (sql ++ [kw .parenClose])
      | .or => do
        let sql ← buildInto left scope columns context (sql ++ [kw .parenOpen])
        let sql ← buildInto right scope columns context (sql ++ [kw .orParenWrap])
        .ok (sql ++ [kw .parenClose])
      | .compare op => do
        let (parsed, sql) ← parseInto scope left (some context.fnParams) context sql
        if parsed then do
          let (parsed, sql) ← parseInto scope right none context (sql ++ [kw op.sqlRef])
          if parsed then
            if !columns && hasColumn scope left && hasColumn scope right then
              .error ("both sides reference the row scope; column-to-column compare is " ++
                "only allowed in JOIN ON clauses")
            else .ok sql
          else do
            let ident ← resolve context.fnParams right
            .ok (op.capture ident sql)
        else
          .error ("expected at least one side of the comparison to be a column / " ++
            "arithmetic / function expression")
      | .unsupported =>
        .error "predicate operator not supported; use ==, !=, <, >, <=, >=, &&, ||"
  | .boolean attrs value =>
    if attrs ≠ [] then .error "attributes are not supported on a boolean predicate"
    else .ok (sql ++ [kw (if value then .true else .false)])
  | .field attrs =>
    if attrs ≠ [] then .error "attributes are not supported on a boolean column predicate"
    else do
      let (parsed, sql) ← parseInto scope e none context sql
      if parsed then .ok (sql ++ [kw .eq, kw .true])
      else .error "boolean predicate must reference a column"
  | .not attrs expr =>
    if attrs ≠ [] then .error "attributes are not supported on a negated predicate"
    else do
      let (parsed, sql) ← parseInto scope expr none context sql
      if parsed then .ok (sql ++ [kw .eq, kw .false])
      else .error "negated boolean predicate must reference a column"
  | .paren attrs expr =>
    if attrs ≠ [] then .error "attributes are not supported on a parenthesized predicate"
    else buildInto expr scope columns context sql
  | .block attrs label stmts =>
    if attrs ≠ [] then .error "attributes are not supported on a predicate block"
    else if label.isSome then .error "labels are not supported on a predicate block"
    else
      match stmts with
      | [.expr inner false] => buildInto inner scope columns context sql
      | [.expr _ true] =>
        .error "predicate block must end with a tail expression, not a semicolon"
      | [.other] => .error "predicate block must contain a single tail expression"
      | _ => .error "predicate block must contain exactly one tail expression"
  | .null present attrs receiver turbofish args =>
    if attrs ≠ [] then .error "attributes are not supported on a null predicate"
    else if turbofish.isSome then .error "null predicates do not take generic arguments"
    else if args ≠ [] then .error "null predicates do not take arguments"
    else do
      let (parsed, sql) ← parseInto scope receiver none context sql
      if parsed then .ok (sql ++ [kw (if present then .isNotNull else .isNull)])
      else .error "null predicate receiver must be a column or column-derived expression"
  | .method attrs receiver name turbofish args kind =>
    if attrs ≠ [] then .error "attributes are not supported on a predicate method"
    else if turbofish.isSome then .error "predicate methods do not take generic arguments"
    else
      match args with
      | [arg] => do
        let (parsed, sql) ← parseInto scope receiver (some context.fnParams) context sql
        if parsed then
          if context.dialect.isRejected name then
            .error ("this backend does not support the `" ++ String.ofList name.text ++
              "` operator")
          else
            match kind with
            | .in_ => do
              let ident ← resolveRef context.fnParams arg
              .ok (sql ++ [kw .eqAnyOpen, .capture ident, kw .parenClose])
            | .notIn => do
              let ident ← resolveRef context.fnParams arg
              .ok (sql ++ [kw .neAllOpen, .capture ident, kw .parenClose])
            | .fts => do
              let (parsed, sql) ← parseInto scope arg (some context.fnParams) context
                (sql ++ [kw Cmp.ftsMatch.sqlRef])
              if parsed then .ok sql
              else do
                let ident ← resolveRef context.fnParams arg
                .ok (sql ++ [.capture ident])
            | .compare op => do
              let ident ← resolveRef context.fnParams arg
              .ok (op.capture ident (sql ++ [kw op.sqlRef]))
        else
          .error ("`." ++ String.ofList name.text ++
            "(arg)` receiver must be a column or column-derived expression")
      | _ =>
        .error ("method `." ++ String.ofList name.text ++
          "(arg)` requires exactly one argument")
  | .unsupportedMethod name =>
    .error ("method `." ++ String.ofList name.text ++ "` not supported in predicates; " ++
      "allowed: is_some / is_none / in_ / not_in / fts_match / like / ilike / not_like / " ++
      "not_ilike / glob / pg_contains / pg_overlaps / regex_match / regex_imatch / " ++
      "not_regex_match / not_regex_imatch / descendant_of / ancestor_of")
  | .unsupported =>
    .error "predicate must be a boolean column, comparison, or `&& / ||` chain"
termination_by (sizeOf e, 2)
decreasing_by
  all_goals
    have hinside := Input.new_inside e
    rw [hinput] at hinside
    simp only [Input.Inside, List.cons.sizeOf_spec, Stmt.expr.sizeOf_spec] at hinside
    first
      | exact Prod.Lex.left _ _ (by omega)
      | exact Prod.Lex.right _ (Nat.lt_succ_self 1)
end

/-- `pred::build`. -/
def build (e : Expr) (scope : RowScope) (columns : Bool) (context : WhereContext) :
    Result Parts :=
  buildInto e scope columns context []

/-- `RowScope::parse`. -/
def parse (scope : RowScope) (e : Expr) (params : Option (List Ident)) (context : WhereContext) :
    Result (Option Parts) := do
  let (parsed, sql) ← parseInto scope e params context []
  return if parsed then some sql else none

end Cartel.Sql
