import Cartel.Sql.Sets

/-!
# Updates and deletes

How `UPDATE` and `DELETE` over joined sources are planned. The condition of each join is
built over the rows up to the joined one and may not capture parameters, the filter is built
over all of them. Behind `WHERE` stand the conditions of the joins and the filter, with
`AND` between them.
-/

namespace Cartel.Sql

/-! ## Assignments -/

/-- What the body of `.update(..)` may assign with, among other expressions. -/
inductive SetExpr
  | assign (attrs : List Attr) (left right : Expr)
  | other

inductive SetStmt
  | expr (e : SetExpr) (semi : Bool)
  | other

/-- The body of `.update(..)`. -/
inductive SetBody
  | addAssign (attrs : List Attr) (left right : Expr)
  | block (attrs : List Attr) (label : Option Ident) (stmts : List SetStmt)
  | single (e : SetExpr)

structure Assign where
  column : Text
  value : Parts

/-- `ExprExt::column` : a plain column of the row. -/
def Expr.column (e : Expr) (row : Ident) : Option Text :=
  match e with
  | .field [] (.path [] false base) (.named column) =>
    base.getIdent.bind fun ident => if ident.same row then some column.name else none
  | _ => none

namespace Assign

/-- `Assign::parse_single`. -/
def parseSingle (row : Ident) (scope : RowScope) (context : WhereContext) :
    SetExpr → Result Assign
  | .other => .error "expected `t.col = <expr>` assignment"
  | .assign attrs left right =>
    if attrs ≠ [] then .error "attributes are not supported on an assignment"
    else
      match left.column row with
      | none => .error "left side of assignment must be `<row_var>.<column>`"
      | some column => do
        match ← parse scope right (some context.fnParams) context with
        | some value => .ok ⟨column, value⟩
        | none =>
          .error ("right side of assignment must be a fn-parameter, literal, or " ++
            "arithmetic/function expression")

/-- A statement of an assignment block. -/
def parseStmt (row : Ident) (scope : RowScope) (context : WhereContext) :
    SetStmt → Result Assign
  | .other => .error "assign block may only contain `t.col = expr;` statements"
  | .expr _ false => .error "an assignment block statement must end with `;`"
  | .expr e true => parseSingle row scope context e

/-- `Assign::collect`. -/
def collect (row : Ident) (scope : RowScope) (context : WhereContext) :
    SetBody → Result (List Assign)
  | .block attrs label stmts =>
    if attrs ≠ [] then .error "attributes are not supported on an assignment block"
    else if label.isSome then .error "labels are not supported on an assignment block"
    else stmts.mapM (parseStmt row scope context)
  | .single e => do
    let assign ← parseSingle row scope context e
    .ok [assign]
  | .addAssign _ _ _ => do
    let assign ← parseSingle row scope context .other
    .ok [assign]

end Assign

/-- `t.col += e` is read again as `t.col = t.col + e`. -/
def lowered (reparse : Expr → Expr → SetExpr) : SetBody → Result SetBody
  | .addAssign attrs left right =>
    if attrs ≠ [] then .error "attributes are not supported on a compound assignment"
    else .ok (.single (reparse left right))
  | body => .ok body

/-- The assignments of the `SET` clause, from `index` on. -/
def renderAssigns (context : WhereContext) :
    ℕ → List Assign → List Ident → List Fragment × List Ident
  | _, [], captures => ([], captures)
  | index, assign :: rest, captures =>
    let (value, captures) :=
      render context.dialect context.fnParams context.paramTys assign.value captures
    let (later, captures) := renderAssigns context (index + 1) rest captures
    ((if 0 < index then [.kw .comma] else []) ++
      .text (quoted assign.column ++ " = ".toList) :: (value ++ later), captures)

/-! ## Conditions -/

/-- `RowScope::for_join_on` : the rows up to the joined one. -/
def RowScope.forJoinOn (source : QuerySource) (index : ℕ) : Result RowScope :=
  match source.joins[index]? with
  | none => .error "join scope index exceeds the source"
  | some join =>
    match join.onIdents with
    | [] => .error "query source needs a row binding"
    | _ :: rows =>
      if rows.length ≠ index + 1 then
        .error "query row bindings do not match the joined sources"
      else .ok (forBindings source join.onIdents)

/-- `Sql::join_tokens` : parts that capture nothing. -/
def joinTokens : Parts → Result (List Fragment)
  | [] => .ok []
  | .token fragment :: rest => do
    let fragments ← joinTokens rest
    .ok (fragment :: fragments)
  | .capture _ :: _ =>
    .error ("JOIN ON clause must compare columns only; bound parameters belong in " ++
      "`.filter(...)`")

/-- `filter::join`. -/
def filterJoin (context : WhereContext) (e : Expr) (scope : RowScope) :
    Result (List Fragment) := do
  let parts ← build e scope true context
  joinTokens parts

/-- `join_ons`, from the join `index` on. -/
def joinOns (context : WhereContext) (source : QuerySource) :
    ℕ → List Join → Result (List (List Fragment))
  | _, [] => .ok []
  | index, join :: rest => do
    let scope ← RowScope.forJoinOn source index
    let tokens ← filterJoin context join.cond scope
    let later ← joinOns context source (index + 1) rest
    .ok (tokens :: later)

/-- `filter::build`. -/
def filterBuild (context : WhereContext) (e : Expr) (scope : RowScope) (columns : Bool)
    (captures : List Ident) : Result (List Fragment × List Ident) := do
  let parts ← build e scope columns context
  .ok (render context.dialect context.fnParams context.paramTys parts captures)

/-- The conditions of the joins and the filter. -/
def conditions (ons : List (List Fragment)) (filter : List Fragment) : List Fragment :=
  (ons.flatMap fun on => on ++ [.kw .andKw]) ++ filter

/-! ## Planning -/

/-- `shape::Returning`. -/
inductive Returning
  | none | one | first | all
  deriving DecidableEq, Repr

/-- The `RETURNING` clause of `reply::build`. -/
def Returning.clause (ret : Returning) (context : WhereContext) (source : QuerySource) :
    List Fragment :=
  match ret with
  | .none => []
  | _ =>
    [.kw .returningKw,
      match context.dialect with
      | .pg => .columnsOf source.primaryPath (source.qualifier 0)
      | .sqlite => .columns source.primaryPath]

/-- `QuerySource::render_join`. -/
def QuerySource.renderJoin (source : QuerySource) (index : ℕ) (join : Join) : Parts :=
  source.declaration (.table join.path) (index + 1)

/-- The joined sources, behind a keyword. -/
def QuerySource.renderJoins (source : QuerySource) (keyword : Const) : List Fragment :=
  if source.joins.isEmpty then []
  else
    .kw keyword :: source.joins.zipIdx.flatMap fun p =>
      (if 0 < p.2 then [.kw .comma] else []) ++ fragments (source.renderJoin p.2 p.1)

/-- `table` : what a statement changes is a table. -/
def QuerySource.table (source : QuerySource) : Result Path :=
  if source.primaryAlias.isSome then
    .error "UPDATE and DELETE require a table source, not a CTE"
  else .ok source.primaryPath

/-- A planned statement, cut behind its `WHERE` and before its `RETURNING`. -/
structure Mutation where
  head : List Fragment
  condition : List Fragment
  returning : List Fragment
  captures : List Ident

/-- The text of the statement. -/
def Mutation.sql (m : Mutation) : List Fragment :=
  m.head ++ .kw .whereKw :: (m.condition ++ m.returning)

/-- `update::build` : the filter is rendered before the assignments. -/
def update (reparse : Expr → Expr → SetExpr) (context : WhereContext) (source : QuerySource)
    (preds : List Ident) (pred : Expr) (set : Ident) (body : SetBody) (ret : Returning)
    (captures : List Ident) : Result Mutation := do
  let _ ← source.table
  let body ← lowered reparse body
  let assigns ← Assign.collect set (RowScope.forPrimary source set) context body
  if assigns.isEmpty then .error "`.update(...)` body must assign at least one column"
  else do
    let scope ← RowScope.forSource source preds
    let ons ← joinOns context source 0 source.joins
    let (filter, captures) ← filterBuild context pred scope false captures
    let (assigned, captures) := renderAssigns context 0 assigns captures
    .ok
      { head := .kw .updateKw :: (fragments source.renderBase ++
          .kw .setKw :: (assigned ++ source.renderJoins .fromKw))
        condition := conditions ons filter
        returning := ret.clause context source
        captures := captures }

/-- `update::delete`. -/
def delete (context : WhereContext) (source : QuerySource) (preds : List Ident) (pred : Expr)
    (ret : Returning) (captures : List Ident) : Result Mutation := do
  let _ ← source.table
  let scope ← RowScope.forSource source preds
  let ons ← joinOns context source 0 source.joins
  let (filter, captures) ← filterBuild context pred scope false captures
  .ok
    { head := .kw .deleteFromKw :: (fragments source.renderBase ++ source.renderJoins .usingKw)
      condition := conditions ons filter
      returning := ret.clause context source
      captures := captures }

end Cartel.Sql
