import Cartel.Sql.Source

/-!
# Row scopes

What a query text is made of (`Part`), and how names in a closure are resolved. A part is a
constant of the dialect, a piece of text, a constant of a table, or a captured parameter
whose number is only known when the text is rendered. A scope binds the rows of the
sources around an expression to their aliases `q<depth>_<index>`.
-/

namespace Cartel.Sql

/-! ## Constants -/

/-- The constants of `dsl::sql`. -/
inductive Const
  | parenOpen | parenClose | andParenWrap | orParenWrap
  | eq | ne | lt | gt | le | ge
  | like | ilike | notLike | notIlike | glob | contains | overlaps
  | regexMatch | regexImatch | notRegexMatch | notRegexImatch
  | ftsMatch | ltreeDescOf | ltreeAncOf | castLtreeSuffix
  | isNull | isNotNull | eqAnyOpen | neAllOpen
  | countStar | comma | true | false
  | existsOpen | notExistsOpen | subqueryOpen | fromKw | whereKw
  | unionKw | unionAllKw | intersectKw | intersectAllKw | exceptKw | exceptAllKw
  | setopBranchOpen | setopBranchClose
  | orderByKw | desc | limitKw | offsetKw | limitOne
  | andKw | updateKw | setKw | deleteFromKw | usingKw | returningKw
  deriving DecidableEq, Repr

/-- A constant in a dialect : the tokens both share, and those of one alone. -/
def Const.text : Kind → Const → Option String
  | _, .parenOpen => some "("
  | _, .parenClose => some ")"
  | _, .andParenWrap => some ") AND ("
  | _, .orParenWrap => some ") OR ("
  | _, .eq => some " = "
  | _, .ne => some " <> "
  | _, .lt => some " < "
  | _, .gt => some " > "
  | _, .le => some " <= "
  | _, .ge => some " >= "
  | _, .like => some " LIKE "
  | _, .notLike => some " NOT LIKE "
  | .pg, .ilike => some " ILIKE "
  | .pg, .notIlike => some " NOT ILIKE "
  | .sqlite, .glob => some " GLOB "
  | .pg, .contains => some " @> "
  | .pg, .overlaps => some " && "
  | .pg, .regexMatch => some " ~ "
  | .pg, .regexImatch => some " ~* "
  | .pg, .notRegexMatch => some " !~ "
  | .pg, .notRegexImatch => some " !~* "
  | .pg, .ftsMatch => some " @@ "
  | .pg, .ltreeDescOf => some " <@ "
  | .pg, .ltreeAncOf => some " @> "
  | .pg, .castLtreeSuffix => some "::ltree"
  | _, .isNull => some " IS NULL"
  | _, .isNotNull => some " IS NOT NULL"
  | .pg, .eqAnyOpen => some " = ANY("
  | .pg, .neAllOpen => some " <> ALL("
  | _, .countStar => some "COUNT(*)"
  | _, .comma => some ", "
  | .pg, .true => some "TRUE"
  | .pg, .false => some "FALSE"
  | .sqlite, .true => some "1"
  | .sqlite, .false => some "0"
  | _, .existsOpen => some "EXISTS (SELECT 1 FROM "
  | _, .notExistsOpen => some "NOT EXISTS (SELECT 1 FROM "
  | _, .subqueryOpen => some "(SELECT "
  | _, .fromKw => some " FROM "
  | _, .whereKw => some " WHERE "
  | _, .unionKw => some " UNION "
  | _, .unionAllKw => some " UNION ALL "
  | _, .intersectKw => some " INTERSECT "
  | .pg, .intersectAllKw => some " INTERSECT ALL "
  | _, .exceptKw => some " EXCEPT "
  | .pg, .exceptAllKw => some " EXCEPT ALL "
  | .pg, .setopBranchOpen => some "(SELECT "
  | .pg, .setopBranchClose => some ")"
  | .sqlite, .setopBranchOpen => some "SELECT "
  | .sqlite, .setopBranchClose => some ""
  | _, .orderByKw => some " ORDER BY "
  | _, .desc => some " DESC"
  | _, .limitKw => some " LIMIT "
  | _, .offsetKw => some " OFFSET "
  | _, .limitOne => some "1"
  | _, .andKw => some " AND "
  | _, .updateKw => some "UPDATE "
  | _, .setKw => some " SET "
  | _, .deleteFromKw => some "DELETE FROM "
  | .pg, .usingKw => some " USING "
  | _, .returningKw => some " RETURNING "
  | .sqlite, .ilike | .sqlite, .notIlike | .pg, .glob | .sqlite, .contains
  | .sqlite, .overlaps | .sqlite, .regexMatch | .sqlite, .regexImatch
  | .sqlite, .notRegexMatch | .sqlite, .notRegexImatch | .sqlite, .ftsMatch
  | .sqlite, .ltreeDescOf | .sqlite, .ltreeAncOf | .sqlite, .castLtreeSuffix
  | .sqlite, .eqAnyOpen | .sqlite, .neAllOpen | .sqlite, .intersectAllKw
  | .sqlite, .exceptAllKw | .sqlite, .usingKw => none

/-! ## Parts -/

/-- A fixed fragment : of the dialect, of the macro, or of a table
(`__CARTEL_TABLE`, `__CARTEL_SELECT_COLS`, `__cartel_select_cols`). -/
inductive Fragment
  | kw (name : Const)
  | text (text : Text)
  | table (path : Path)
  | columns (path : Path)
  | columnsOf (path : Path) (qualifier : Text)

inductive Part
  | token (fragment : Fragment)
  | capture (ident : Ident)

/-- A query text in parts (`sql::Sql`). -/
abbrev Parts := List Part

def kw (name : Const) : Part := .token (.kw name)

def text (text : Text) : Part := .token (.text text)

/-- The name of a derived table : no segment is empty. -/
structure TableName where
  text : Text
  proper : ∀ s ∈ segments text, s ≠ []

/-- The tables that were derived. -/
structure Tables where
  name : Path → TableName
  columns : Path → List Ident
  columns_ne : ∀ path, columns path ≠ []

/-- Texts with `separator` between them. -/
def joined (separator : Text) : List Text → Text
  | [] => []
  | [text] => text
  | text :: rest => text ++ (separator ++ joined separator rest)

/-- `TableSpec::columns` : the select list of a table. -/
def Tables.selectCols (tables : Tables) (path : Path) : Text :=
  joined ",".toList ((tables.columns path).map fun column => quoted column.name)

/-- `__cartel_select_cols` : the same columns behind a qualifier. -/
def Tables.qualifiedCols (tables : Tables) (path : Path) (qualifier : Text) : Text :=
  joined ",".toList ((tables.columns path).map fun column =>
    qualifier ++ '.' :: quoted column.name)

/-- The text of a fragment, when the dialect has it. -/
def Fragment.render (kind : Kind) (tables : Tables) : Fragment → Option Text
  | .kw name => (name.text kind).map String.toList
  | .text shown => some shown
  | .table path => some (quoted (tables.name path).text)
  | .columns path => some (tables.selectCols path)
  | .columnsOf path qualifier => some (tables.qualifiedCols path qualifier)

/-! ## Plain paths -/

/-- `expr::Path` : a path of plain segments. -/
def plainPath : Expr → Option (List Ident)
  | .path attrs qself path =>
    if attrs ≠ [] ∨ qself ∨ path.leadingColon ∨ path.segments.any (fun s => !s.2.isNone) then none
    else some (path.segments.map (·.1))
  | _ => none

/-- `expr::Path::single`. -/
def single (e : Expr) : Option Ident :=
  match plainPath e with
  | some [ident] => some ident
  | _ => none

/-- `expr::Path::function` : the last segment behind `Dialect`. -/
def function (e : Expr) : Option Ident :=
  (plainPath e).bind fun segments =>
    match segments.reverse with
    | f :: owner :: _ => if owner.is "Dialect" then some f else none
    | _ => none

/-! ## Scopes -/

structure Var where
  ident : Ident
  tableConst : Option Text

/-- The rows in scope, inside the rows of the queries around. -/
structure RowScope where
  vars : List Var
  aggVar : Option Ident
  outer : Option RowScope
  aliasDepth : Option ℕ
  unnestCols : List Ident

/-- A column as it is written (`SqlColRef`). -/
inductive SqlColRef
  | bare (column : Text)
  | qualified (table column : Text)
  deriving DecidableEq

/-- `SqlColRef::into_parts`. -/
def SqlColRef.intoParts : SqlColRef → Parts
  | .bare column => [Sql.text (quoted column)]
  | .qualified table column => [Sql.text table, Sql.text ('.' :: quoted column)]

namespace QuerySource

/-- `QuerySource::qualifier` : the alias of a source. -/
def qualifier (source : QuerySource) (index : ℕ) : Text :=
  'q' :: (decimal source.aliasDepth ++ '_' :: decimal index)

/-- `QuerySource::declaration`. -/
def declaration (source : QuerySource) (relation : Fragment) (index : ℕ) : Parts :=
  [.token relation, Sql.text " AS ".toList, Sql.text (source.qualifier index)]

/-- `QuerySource::render_base`. -/
def renderBase (source : QuerySource) : Parts :=
  source.declaration
    (match source.primaryAlias with
      | some ident => .text (quoted ident.name)
      | none => .table source.primaryPath) 0

end QuerySource

namespace RowScope

/-- `RowScope::for_bindings`. -/
def forBindings (source : QuerySource) (idents : List Ident) : RowScope where
  vars := idents.zipIdx.map fun p => ⟨p.1, some (source.qualifier p.2)⟩
  aggVar := none
  outer := none
  aliasDepth := some source.aliasDepth
  unnestCols := []

/-- `RowScope::single`. -/
def single (ident : Ident) : RowScope where
  vars := [⟨ident, none⟩]
  aggVar := none
  outer := none
  aliasDepth := none
  unnestCols := []

/-- `Rows::new` and its scope : one row for each source. -/
def forSource (source : QuerySource) (idents : List Ident) : Result RowScope :=
  match idents with
  | [] => .error "query source needs a row binding"
  | _ :: rows =>
    if rows.length ≠ source.joins.length then
      .error "query row bindings do not match the joined sources"
    else .ok (forBindings source idents)

/-- `RowScope::for_primary`. -/
def forPrimary (source : QuerySource) (ident : Ident) : RowScope := forBindings source [ident]

/-- `RowScope::with_outer`. -/
def withOuter (scope around : RowScope) : RowScope := { scope with outer := some around }

/-- `RowScope::with_agg`. -/
def withAgg (scope : RowScope) (agg : Ident) : RowScope := { scope with aggVar := some agg }

/-- The position of an unnested column. -/
def unnestPos (scope : RowScope) (e : Expr) : Option ℕ :=
  (Sql.single e).bind fun ident => scope.unnestCols.findIdx? fun column => column.same ident

/-- `RowScope::unnest_ref`. -/
def unnestRef (scope : RowScope) (e : Expr) : Option Text :=
  (scope.unnestPos e).map fun pos => "__d.f".toList ++ decimal pos

/-- `RowScope::local_ref`. -/
def localRef (scope : RowScope) : Expr → Option SqlColRef
  | .field [] base (.named column) =>
    (Sql.single base).bind fun ident =>
      (scope.vars.find? fun var => var.ident.same ident).map fun var =>
        match var.tableConst with
        | none => .bare column.name
        | some table => .qualified table column.name
  | _ => none

/-- `RowScope::column_ref` : the innermost scope that binds the row. -/
def columnRef (e : Expr) : RowScope → Option SqlColRef
  | ⟨vars, aggVar, none, aliasDepth, unnestCols⟩ =>
    localRef ⟨vars, aggVar, none, aliasDepth, unnestCols⟩ e
  | ⟨vars, aggVar, some around, aliasDepth, unnestCols⟩ =>
    match localRef ⟨vars, aggVar, some around, aliasDepth, unnestCols⟩ e with
    | some column => some column
    | none => around.columnRef e

end RowScope

/-! ## Rendering -/

/-- `sql::intern` : the number of a captured parameter, which is new or known. -/
def intern (captures : List Ident) (ident : Ident) : List Ident × ℕ :=
  match captures.findIdx? (·.same ident) with
  | some index => (captures, index)
  | none => (captures ++ [ident], captures.length)

/-- `Dialect::is_ltree_param`. -/
def isLtreeParam (params : List Ident) (types : List Ty) (captures : List Ident) (index : ℕ) :
    Bool :=
  match captures[index]? with
  | none => false
  | some ident =>
    match params.findIdx? (·.same ident) with
    | none => false
    | some pos =>
      match types[pos]? with
      | some (.path false _ segments) =>
        match segments.getLast? with
        | some (ident, arguments) => ident.is "Ltree" && arguments.isEmpty
        | none => false
      | _ => false

/-- `Dialect::placeholder`. -/
def placeholder (kind : Kind) (params : List Ident) (types : List Ty) (captures : List Ident)
    (index : ℕ) : Text :=
  match kind with
  | .pg =>
    if isLtreeParam params types captures index then
      '$' :: (decimal (index + 1) ++ "::ltree".toList)
    else '$' :: decimal (index + 1)
  | .sqlite => '?' :: decimal (index + 1)

/-- `Sql::render` : numbers the captures in the order of the text. -/
def render (kind : Kind) (params : List Ident) (types : List Ty) :
    Parts → List Ident → List Fragment × List Ident
  | [], captures => ([], captures)
  | .token fragment :: rest, captures =>
    let (fragments, captures) := render kind params types rest captures
    (fragment :: fragments, captures)
  | .capture ident :: rest, captures =>
    let (captures, index) := intern captures ident
    let shown := placeholder kind params types captures index
    let (fragments, captures) := render kind params types rest captures
    (.text shown :: fragments, captures)

/-- The text of rendered fragments (`Dialect::text`). -/
def textOf (kind : Kind) (tables : Tables) (fragments : List Fragment) : Option Text :=
  (fragments.mapM (Fragment.render kind tables)).map List.flatten

end Cartel.Sql
