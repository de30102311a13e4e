import Cartel.Sql.Captures

/-!
# Set operations

`a.union(b).intersect(c)` is read from the outermost call in (`parseSet`), and written from
the receiver out (`buildSet`). PostgreSQL gets each branch in parentheses and one pair of
parentheses around every operation but the last, opened before the first branch and closed
behind the operation. SQLite gets no parentheses at all. The clauses behind the last branch
order and bound the whole.
-/

namespace Cartel.Sql

/-! ## Set queries -/

/-- `shape::SetOpKind`. -/
inductive SetOpKind
  | union | unionAll | intersect | intersectAll | except | exceptAll
  deriving DecidableEq, Repr

namespace SetOpKind

def sqlRef : SetOpKind → Const
  | .union => .unionKw
  | .unionAll => .unionAllKw
  | .intersect => .intersectKw
  | .intersectAll => .intersectAllKw
  | .except => .exceptKw
  | .exceptAll => .exceptAllKw

def fromMethod (name : Ident) : Option SetOpKind :=
  if name.is "union" then some .union
  else if name.is "union_all" then some .unionAll
  else if name.is "intersect" then some .intersect
  else if name.is "intersect_all" then some .intersectAll
  else if name.is "except" then some .except
  else if name.is "except_all" then some .exceptAll
  else none

end SetOpKind

structure SelectBranch where
  source : QuerySource
  predIdents : List Ident
  predicate : Expr

structure SetQuery where
  head : SelectBranch
  links : List (SetOpKind × SelectBranch)

/-- The operations of a chain with their operands, from the innermost out, and what the
innermost is called on. -/
def setLinks : Expr → Result (List (SetOpKind × Expr) × Expr)
  | .methodCall attrs receiver method turbofish args =>
    match SetOpKind.fromMethod method with
    | none => .ok ([], .methodCall attrs receiver method turbofish args)
    | some op =>
      match args with
      | [arg] => do
        let (links, current) ← setLinks receiver
        .ok (links ++ [(op, arg)], current)
      | _ =>
        .error ("`." ++ String.ofList method.text ++
          "(...)` takes one argument: another `Table::filter(|t| ...)` chain")
  | e => .ok ([], e)

def SelectBranch.parse (e : Expr) (ctes : CteMap) : Result SelectBranch := do
  let (source, ids, pred) ← QuerySource.parseChain e ctes
  .ok ⟨source, ids, pred⟩

/-- `SelectBranch::parse_set`. -/
def parseSet (e : Expr) (ctes : CteMap) : Result SetQuery := do
  let (links, current) ← setLinks e
  let head ← SelectBranch.parse current ctes
  let links ← links.mapM fun link => do
    let branch ← SelectBranch.parse link.2 ctes
    .ok (link.1, branch)
  .ok ⟨head, links⟩

/-! ## Qualifiers -/

inductive Terminator
  | one | first | all | stream
  deriving DecidableEq, Repr

/-- A clause of `.order_by(..)` or `.order_by_desc(..)`. -/
structure OrderClause where
  closure : Expr
  desc : Bool

/-- The qualifiers behind a chain (`qualify::State`). -/
structure Qualifiers where
  orderBy : List OrderClause
  limit : Option Expr
  offset : Option Expr
  distinct : Bool
  lock : Bool

/-- `qualify::Integer`. -/
inductive Bound
  | literal (value : ℕ)
  | param (ident : Ident)

/-- `Integer::parse` : a literal of 64 bits, or a parameter. -/
def Bound.parse (params : List Ident) : Expr → Result Bound
  | .lit [] (.int number) =>
    if Nat.ofDigitChars 10 number.digits 0 < 2 ^ 63 then
      .ok (.literal (Nat.ofDigitChars 10 number.digits 0))
    else .error "number too large to fit in target type"
  | .path [] false ⟨false, [(ident, .none)]⟩ =>
    if params.any (·.same ident) then .ok (.param ident)
    else .error ("`" ++ String.ofList ident.text ++ "` is not a fn parameter")
  | _ => .error "LIMIT / OFFSET argument must be a literal int or a fn parameter ident"

/-- `Integer::render`. -/
def Bound.render (context : WhereContext) (captures : List Ident) : Bound → Fragment × List Ident
  | .literal value => (.text (decimal value), captures)
  | .param ident =>
    let (captures, index) := intern captures ident
    (.text (placeholder context.dialect context.fnParams context.paramTys captures index),
      captures)

inductive Limit
  | none | one | value (bound : Bound)

/-- `Limit::new` : one row is enough for `.one()` and `.first()`. -/
def Limit.new (limit : Option Expr) (terminator : Terminator) (params : List Ident) :
    Result Limit :=
  match limit with
  | some e => do
    let bound ← Bound.parse params e
    .ok (.value bound)
  | .none =>
    .ok (match terminator with
      | .one | .first => .one
      | .all | .stream => .none)

/-- `Offset::new`. -/
def offsetNew (offset : Option Expr) (params : List Ident) : Result (Option Bound) :=
  match offset with
  | none => .ok none
  | some e => do
    let bound ← Bound.parse params e
    .ok (some bound)

/-- `Qualify::bounds`. -/
def bounds (outer : Qualifiers) (terminator : Terminator) (context : WhereContext) :
    Result (Limit × Option Bound) :=
  if outer.lock then .error "row locking is not supported on set-operation queries"
  else if outer.distinct then
    .error "DISTINCT qualifiers are not supported on set-operation queries"
  else do
    let limit ← Limit.new outer.limit terminator context.fnParams
    let offset ← offsetNew outer.offset context.fnParams
    .ok (limit, offset)

/-- `Limit::render` : SQLite has no offset without a limit. -/
def Limit.render (context : WhereContext) (captures : List Ident) (offset : Option Bound) :
    Limit → List Fragment × List Ident
  | .none =>
    if context.dialect = .sqlite ∧ offset.isSome then
      ([.kw .limitKw, .text "-1".toList], captures)
    else ([], captures)
  | .one => ([.kw .limitKw, .kw .limitOne], captures)
  | .value bound =>
    let (shown, captures) := bound.render context captures
    ([.kw .limitKw, shown], captures)

/-- `Offset::render`. -/
def offsetRender (context : WhereContext) (captures : List Ident) :
    Option Bound → List Fragment × List Ident
  | none => ([], captures)
  | some bound =>
    let (shown, captures) := bound.render context captures
    ([.kw .offsetKw, shown], captures)

/-- `Order::new` : the result of a set operation is ordered by its columns. -/
def OrderClause.column (clause : OrderClause) : Result SqlColRef :=
  match clause.closure with
  | .closure _ inputs body =>
    match inputs with
    | [input] => do
      let arg ← input.ident?
      match (RowScope.single arg).columnRef body with
      | some column => .ok column
      | none =>
        .error "set-op `.order_by(...)` body must be a single column reference like `u.col`"
    | _ => .error "set-op `.order_by(...)` closure must take one parameter"
  | _ => .error "set-op `.order_by(...)` argument must be a closure `|u| u.col`"

/-! ## Planning -/

/-- The fragments of parts that capture nothing. -/
def fragments (parts : Parts) : List Fragment :=
  parts.filterMap fun
    | .token fragment => some fragment
    | .capture _ => none

/-- `ExprExt::is_true`. -/
def isTrue : Expr → Bool
  | .lit [] (.bool value) => value
  | _ => false

/-- The condition of a branch. -/
def filterBranch (context : WhereContext) (branch : SelectBranch) (captures : List Ident) :
    Result (Option (List Fragment) × List Ident) := do
  let scope ← RowScope.forSource branch.source branch.predIdents
  if isTrue branch.predicate then .ok (none, captures)
  else do
    let parts ← build branch.predicate scope false context
    let (filter, captures) :=
      render context.dialect context.fnParams context.paramTys parts captures
    .ok (some filter, captures)

/-- A branch with its condition. -/
def branchFragments (branch : SelectBranch) (filter : Option (List Fragment)) : List Fragment :=
  .kw .setopBranchOpen :: .columns branch.source.primaryPath :: .kw .fromKw ::
    (fragments branch.source.renderBase ++
      ((filter.elim [] fun filter => .kw .whereKw :: filter) ++ [.kw .setopBranchClose]))

/-- The branches from `index` on, with the operations before them. -/
def buildBranches (context : WhereContext) (groups : ℕ) :
    ℕ → List (Option SetOpKind × SelectBranch) → List Ident → Result (List Fragment × List Ident)
  | _, [], captures => .ok ([], captures)
  | index, (op, branch) :: rest, captures => do
    let (filter, captures) ← filterBranch context branch captures
    let (later, captures) ← buildBranches context groups (index + 1) rest captures
    .ok ((op.elim [] fun op => [.kw op.sqlRef]) ++ (branchFragments branch filter ++
      ((if 0 < index ∧ index ≤ groups then [.kw .parenClose] else []) ++ later)), captures)

/-- The ordering of the result, from `index` on. -/
def buildOrder : ℕ → List OrderClause → Result (List Fragment)
  | _, [] => .ok []
  | index, clause :: rest => do
    let column ← clause.column
    let later ← buildOrder (index + 1) rest
    .ok (.kw (if index = 0 then .orderByKw else .comma) :: (fragments column.intoParts ++
      ((if clause.desc then [.kw .desc] else []) ++ later)))

/-- `validate_branch`, with the equality of paths as a parameter. -/
def validateBranch (same : Path → Path → Bool) (head : QuerySource) (branch : SelectBranch)
    (index : ℕ) : Result Unit :=
  if !same branch.source.primaryPath head.primaryPath then
    .error ("set-op branch #" ++ toString index ++ " table differs from the first branch")
  else if branch.source.joins ≠ [] then
    .error "set-op branch with joined source not supported in v0"
  else .ok ()

/-- `validate_branches`. -/
def validateBranches (same : Path → Path → Bool) (set : SetQuery) : Result Unit := do
  validateBranch same set.head.source set.head 1
  (set.links.zipIdx 2).forM fun link => validateBranch same set.head.source link.1.2 link.2

/-- The pairs of parentheses around the operations. -/
def Kind.groups (kind : Kind) (links : ℕ) : ℕ :=
  match kind with
  | .pg => links - 1
  | .sqlite => 0

/-- `set::build` : the text of a chain, and the parameters it captures behind `captures`. -/
def buildSet (same : Path → Path → Bool) (context : WhereContext) (set : SetQuery)
    (terminator : Terminator) (outer : Qualifiers) (captures : List Ident) :
    Result (List Fragment × List Ident) := do
  validateBranches same set
  let (limit, offset) ← bounds outer terminator context
  let groups := context.dialect.groups set.links.length
  let (branches, captures) ← buildBranches context groups 0
    ((none, set.head) :: set.links.map fun link => (some link.1, link.2)) captures
  let order ← buildOrder 0 outer.orderBy
  let (limited, captures) := limit.render context captures offset
  let (skipped, captures) := offsetRender context captures offset
  .ok (List.replicate groups (.kw .parenOpen) ++ (branches ++ (order ++ (limited ++ skipped))),
    captures)

end Cartel.Sql
