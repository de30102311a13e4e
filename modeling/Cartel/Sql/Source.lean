import Cartel.Sql.Syntax

/-!
# Query sources

What a query reads from : `Table::filter(|t| ..)`, a chain of joins with a filter, or a
common table expression by its name. The closures of the chain name the rows, and their
bodies are predicates of the query. What a source is parsed to has a body that lies inside
the expression, or is the literal `true`.
-/

namespace Cartel.Sql

/-! ## Closures -/

/-- `ExprExt::unbrace` : a block that only holds an expression stands for it. -/
def Expr.unbrace (e : Expr) : Expr :=
  match e with
  | .block [] none [.expr inner false] => inner.unbrace
  | e => e
termination_by sizeOf e

/-- `PatExt::ident`. -/
def Pat.ident? : Pat → Result Ident
  | .ident [] false false false name => .ok name
  | _ => .error "closure param must be a plain identifier"

/-- `ExprExt::closure` : the inputs and the body of a plain closure. -/
def Expr.closure? (e : Expr) (arity : Option ℕ) (method : String) : Result (List Pat × Expr) :=
  match e with
  | .closure head inputs body =>
    if head.attrs ≠ [] then .error ("`" ++ method ++ "` closure attributes are not supported")
    else if head.lifetimes then
      .error ("`" ++ method ++ "` closure lifetime binders are not supported")
    else if head.constness then .error ("`" ++ method ++ "` closure cannot be const")
    else if head.asyncness then .error ("`" ++ method ++ "` closure cannot be async")
    else if head.capture then .error ("`" ++ method ++ "` closure cannot be move")
    else if head.output then
      .error ("`" ++ method ++ "` closure cannot declare a return type")
    else
      match arity with
      | some n =>
        if inputs.length ≠ n then
          .error ("`" ++ method ++ "` closure must take exactly " ++ toString n ++
            " parameter(s)")
        else .ok (inputs, body)
      | none => .ok (inputs, body)
  | _ => .error ("`" ++ method ++ "` argument must be a closure")

/-- `Closure::parts`. -/
def parts (closure : List Pat × Expr) : Result (List Ident × Expr) := do
  let idents ← closure.1.mapM Pat.ident?
  return (idents, closure.2.unbrace)

/-- `ExprExt::closure_n`. -/
def Expr.closureN (e : Expr) (n : ℕ) (method : String) : Result (List Ident × Expr) := do
  let closure ← e.closure? (some n) method
  parts closure

/-- `ExprExt::closure_one`. -/
def Expr.closureOne (e : Expr) (method : String) : Result (Ident × Expr) := do
  let closure ← e.closure? none method
  match closure.1 with
  | [input] =>
    let ident ← input.ident?
    return (ident, closure.2.unbrace)
  | _ => .error ("`" ++ method ++ "` closure must take exactly 1 parameter(s)")

/-- Unbracing goes into the expression. -/
theorem Expr.unbrace_le (e : Expr) : sizeOf e.unbrace ≤ sizeOf e := by
  induction e using Expr.unbrace.induct with
  | case1 inner ih =>
    rw [Expr.unbrace]
    simp only [Expr.block.sizeOf_spec, Stmt.expr.sizeOf_spec, List.cons.sizeOf_spec]
    omega
  | case2 e h =>
    have hself : e.unbrace = e := by
      rw [Expr.unbrace]
      exact h
    exact Nat.le_of_eq (congrArg sizeOf hself)

theorem Expr.closure?_size {e : Expr} {arity : Option ℕ} {method : String}
    {inputs : List Pat} {body : Expr} (h : e.closure? arity method = .ok (inputs, body)) :
    sizeOf body < sizeOf e := by
  cases e with
  | closure head pats inner =>
    simp only [Expr.closure?] at h
    have hbody : inner = body := by
      repeat' split at h
      all_goals simp_all
    subst hbody
    simp only [Expr.closure.sizeOf_spec]
    omega
  | _ => simp [Expr.closure?] at h

theorem Expr.closureN_size {e : Expr} {n : ℕ} {method : String} {idents : List Ident}
    {body : Expr} (h : e.closureN n method = .ok (idents, body)) : sizeOf body < sizeOf e := by
  simp only [Expr.closureN, bind, Except.bind] at h
  split at h
  · cases h
  · rename_i closure hclosure
    obtain ⟨inputs, inner⟩ := closure
    have hlt := Expr.closure?_size hclosure
    simp only [parts, bind, Except.bind] at h
    split at h
    · cases h
    · cases h
      exact Nat.lt_of_le_of_lt (Expr.unbrace_le inner) hlt

theorem Expr.closureOne_size {e : Expr} {method : String} {ident : Ident}
    {body : Expr} (h : e.closureOne method = .ok (ident, body)) : sizeOf body < sizeOf e := by
  simp only [Expr.closureOne, bind, Except.bind] at h
  split at h
  · cases h
  · rename_i closure hclosure
    obtain ⟨inputs, inner⟩ := closure
    have hlt := Expr.closure?_size hclosure
    split at h
    · split at h
      · cases h
      · cases h
        exact Nat.lt_of_le_of_lt (Expr.unbrace_le inner) hlt
    · cases h

/-! ## Captured parameters -/

/-- `FnParamsExt::resolve` : a value is captured by the name of a parameter. -/
def resolve (params : List Ident) (e : Expr) : Result Ident :=
  match e with
  | .path attrs qself path =>
    if attrs ≠ [] then .error "captured value must be a single ident"
    else if qself then .error "captured value must be a single ident"
    else
      match path.getIdent with
      | none => .error "captured value must be a single ident"
      | some ident =>
        if params.any (·.same ident) then .ok ident
        else
          .error ("`" ++ String.ofList ident.text ++
            "` is not a function parameter — only fn params can be captured in v0")
  | _ => .error "#[query] v0 captured value must be a single fn parameter ident"

/-- `FnParamsExt::resolve_ref` : a reference to the parameter will do. -/
def resolveRef (params : List Ident) (e : Expr) : Result Ident :=
  match e with
  | .reference _ inner => resolve params inner
  | e => resolve params e

/-! ## Joins -/

namespace Join

inductive Kind
  | inner | left | right | full | lateralInner | lateralLeft
  deriving DecidableEq, Repr

def Kind.new (name : Ident) : Option Kind :=
  if name.is "join" then some .inner
  else if name.is "left_join" then some .left
  else if name.is "right_join" then some .right
  else if name.is "full_join" then some .full
  else if name.is "lateral_join" then some .lateralInner
  else if name.is "lateral_left_join" then some .lateralLeft
  else none

def Kind.isLateral : Kind → Bool
  | .lateralInner | .lateralLeft => true
  | _ => false

def Kind.fromMethod (method : Ident) : Result Kind :=
  match Kind.new method with
  | some kind => .ok kind
  | none =>
    .error ("expected `.join` / `.left_join` / `.right_join` / `.full_join` / " ++
      "`.lateral_join` / `.lateral_left_join`, got `." ++ String.ofList method.text ++ "`")

/-- The table a turbofish names. -/
def parseTable (args : List GenericArg) : Result Path :=
  match args with
  | [.type (.path qself leadingColon segments)] =>
    if qself then .error "`.join` turbofish argument cannot use a qualified-self type"
    else .ok ⟨leadingColon, segments⟩
  | [.type .other] => .error "`.join` turbofish argument must be a plain Table path"
  | [.other] => .error "`.join` turbofish argument must be a type"
  | _ => .error "`.join` turbofish must have exactly one type argument"

/-- The table of a joining method call. -/
def parseType (turbofish : Option (List GenericArg)) : Result Path :=
  match turbofish with
  | some generic => parseTable generic
  | none =>
    .error "join must specify the joined table via turbofish: `.join::<Table>(...)`"

end Join

structure Join where
  kind : Join.Kind
  path : Path
  onIdents : List Ident
  cond : Expr

/-- `PathExt::without_last`. -/
def Path.withoutLast (p : Path) : Result Path :=
  if p.segments.dropLast = [] then
    .error "expected `Table::<method>`; missing Table path before `::<method>`"
  else .ok { p with segments := p.segments.dropLast }

/-- `Join::parse_call` : `Table1::join::<Table2>(|a, b| ..)`. -/
def Join.parseCall (func : Expr) (args : List Expr) :
    Result (Path × Path × Join.Kind × List Ident × Expr) :=
  match func with
  | .path attrs qself path =>
    if attrs ≠ [] then .error "attributes are not supported on a join path"
    else if qself then .error "a join must be called through an unqualified Table path"
    else
      match path.segments.getLast? with
      | none => .error "empty path"
      | some (ident, arguments) =>
        match Join.Kind.new ident with
        | none =>
          .error ("expected `::join` / `::left_join` / `::right_join` / `::full_join` / " ++
            "`::lateral_join` / `::lateral_left_join`, got `::" ++
            String.ofList ident.text ++ "`")
        | some kind =>
          match arguments with
          | .angle generic => do
            let joined ← Join.parseTable generic
            let primary ← path.withoutLast
            match args with
            | [arg] =>
              let (idents, body) ←
                arg.closureN (if kind.isLateral then 1 else 2) (String.ofList ident.text)
              return (primary, joined, kind, idents, body)
            | _ => .error "`join` takes exactly one closure argument"
          | _ =>
            .error ("join must specify the joined table via turbofish: " ++
              "`Table1::join::<Table2>(...)`")
  | _ => .error "expected `Table1::<join_kind>::<Table2>(...)` path"

/-! ## Sources -/

structure QuerySource where
  primaryPath : Path
  primaryAlias : Option Ident
  joins : List Join
  aliasDepth : ℕ

/-- The tables that common table expressions are known to hold. -/
abbrev CteMap := List (Text × Path)

def CteMap.get (ctes : CteMap) (name : Text) : Option Path :=
  (ctes.find? fun p => p.1 == name).map (·.2)

namespace QuerySource

def new (path : Path) : QuerySource := ⟨path, none, [], 0⟩

/-- A source inside another query. -/
def nested (source : QuerySource) (parent : Option ℕ) : QuerySource :=
  { source with aliasDepth := parent.elim 0 (· + 1) }

/-- The method calls of a chain from the outermost in, and what they are called on. -/
def chain : Expr → List (Ident × Option (List GenericArg) × List Expr) × Expr
  | .methodCall _ receiver method turbofish args =>
    ((method, turbofish, args) :: (chain receiver).1, (chain receiver).2)
  | e => ([], e)

/-- One more joined table, of `count` tables. -/
def parseJoin (count : ℕ) (call : Ident × Option (List GenericArg) × List Expr) :
    Result Join := do
  let kind ← Join.Kind.fromMethod call.1
  let joined ← Join.parseType call.2.1
  match call.2.2 with
  | [arg] =>
    let (idents, body) ← arg.closureN (if kind.isLateral then count else count + 1)
      (String.ofList call.1.text)
    return ⟨kind, joined, idents, body⟩
  | _ => .error ("`." ++ String.ofList call.1.text ++ "(...)` takes one closure argument")

def parseJoins (e : Expr) : Result QuerySource :=
  match chain e with
  | (calls, .call _ func args) => do
    let (primary, joined, kind, ids, cond) ← Join.parseCall func args
    let joins ← (calls.reverse.zipIdx 2).mapM fun p => parseJoin p.2 p.1
    return ⟨primary, none, ⟨kind, joined, ids, cond⟩ :: joins, 0⟩
  | _ =>
    .error ("join chain must start with `Table::join::<X>(...)` " ++
      "(or `left_join` / `right_join` / `full_join`)")

/-- `Table::filter(|t| ..)`. -/
def parseCall (func : Expr) (args : List Expr) : Result (Path × Ident × Expr) :=
  match func with
  | .path attrs qself path =>
    if attrs ≠ [] then .error "attributes are not supported on a `Table::filter` path"
    else if qself then .error "`filter` must be called through an unqualified Table path"
    else
      match path.segments.getLast? with
      | some (ident, _) =>
        if ident.is "filter" then do
          let table ← path.withoutLast
          match args with
          | [arg] =>
            let (ident, body) ← arg.closureOne "filter"
            return (table, ident, body)
          | _ => .error "`filter` takes exactly one closure argument"
        else .error "expected `Table::filter` (last segment must be `filter`)"
      | none => .error "expected `Table::filter` (last segment must be `filter`)"
  | _ => .error "expected path `Table::filter`"

/-- The name of the row a common table expression is read by. -/
def dummy : Ident where
  raw := false
  name := "__cte".toList
  proper := ⟨by simp, List.all_eq_true.mp (by decide)⟩

/-- The predicate of a source without a filter. -/
def always : Expr := .lit [] (.bool true)

/-- The table behind the name of a common table expression. -/
def cte (ctes : CteMap) (path : Path) : Option (Ident × Path) :=
  path.getIdent.bind fun ident => (ctes.get ident.name).map fun table => (ident, table)

/-- A filter over a source that is not a bare path. -/
def parseFilter (receiver : Expr) (arg : Expr) : Result (QuerySource × List Ident × Expr) := do
  let source ← parseJoins receiver
  let (ids, body) ← arg.closureN (1 + source.joins.length) "filter"
  return (source, ids, body)

/-- `QuerySource::parse_chain`. -/
def parseChain (e : Expr) (ctes : CteMap) : Result (QuerySource × List Ident × Expr) :=
  match e.unbrace with
  | .path attrs qself path =>
    if attrs ≠ [] then .error "attributes are not supported on a query source path"
    else if qself then
      .error "a query source must be an unqualified CTE name or Table path"
    else
      match cte ctes path with
      | some (ident, table) => .ok (⟨table, some ident, [], 0⟩, [dummy], always)
      | none =>
        .error ("expected `Table::filter(|t| ...)`, " ++
          "`Table::join::<X>(|p,u| ...).filter(|p,u| ...)`, or a CTE name")
  | .call _ func args => do
    let (table, arg, pred) ← parseCall func args
    return (new table, [arg], pred)
  | .methodCall _ receiver method _ args =>
    if method.is "filter" then
      match args with
      | [arg] =>
        match receiver with
        | .path attrs qself path =>
          if attrs ≠ [] then
            .error "attributes are not supported on a filtered query source"
          else if qself then
            .error "a filtered query source must be an unqualified CTE name or Table path"
          else
            match cte ctes path with
            | some (ident, table) => do
              let (ids, body) ← arg.closureN 1 "filter"
              return (⟨table, some ident, [], 0⟩, ids, body)
            | none => parseFilter receiver arg
        | receiver => parseFilter receiver arg
      | _ => .error "`.filter(...)` takes one closure argument"
    else
      .error ("expected `Table::filter(|t| ...)`, " ++
        "`Table::join::<X>(|p,u| ...).filter(|p,u| ...)`, or a CTE name")
  | _ =>
    .error ("expected `Table::filter(|t| ...)`, " ++
      "`Table::join::<X>(|p,u| ...).filter(|p,u| ...)`, or a CTE name")

/-! ## Bodies lie inside the expression -/

theorem parseCall_size {func : Expr} {args : List Expr} {table : Path} {ident : Ident}
    {body : Expr} (h : parseCall func args = .ok (table, ident, body)) :
    sizeOf body < sizeOf args := by
  cases func with
  | path attrs qself path =>
    simp only [parseCall] at h
    split at h
    · cases h
    split at h
    · cases h
    split at h
    · split at h
      · simp only [bind, Except.bind] at h
        split at h
        · cases h
        split at h
        · split at h
          · cases h
          · rename_i arg _ found hone
            obtain ⟨name, inner⟩ := found
            cases h
            have hlt := Expr.closureOne_size hone
            simp
            omega
        · cases h
      · cases h
    · cases h
  | _ => simp [parseCall] at h

theorem parseFilter_size {receiver arg : Expr} {source : QuerySource} {ids : List Ident}
    {body : Expr} (h : parseFilter receiver arg = .ok (source, ids, body)) :
    sizeOf body < sizeOf arg := by
  simp only [parseFilter, bind, Except.bind] at h
  split at h
  · cases h
  split at h
  · cases h
  · rename_i found hfound
    obtain ⟨names, inner⟩ := found
    cases h
    exact Expr.closureN_size hfound

theorem parseChain_size {e : Expr} {ctes : CteMap} {source : QuerySource} {ids : List Ident}
    {body : Expr} (h : parseChain e ctes = .ok (source, ids, body)) :
    sizeOf body ≤ sizeOf e := by
  refine Nat.le_trans ?_ e.unbrace_le
  simp only [parseChain] at h
  generalize e.unbrace = inner at h ⊢
  cases inner with
  | path attrs qself path =>
    simp only at h
    split at h
    · cases h
    split at h
    · cases h
    split at h
    · rename_i ident table hcte
      cases h
      obtain ⟨leading, segs⟩ := path
      cases segs with
      | nil => simp [cte, Path.getIdent] at hcte
      | cons seg rest =>
        simp [always]
        omega
    · cases h
  | call attrs func args =>
    simp only [bind, Except.bind] at h
    split at h
    · cases h
    · rename_i found hfound
      obtain ⟨table, arg, pred⟩ := found
      cases h
      have hlt := parseCall_size hfound
      simp
      omega
  | methodCall attrs receiver method turbofish args =>
    simp only at h
    split at h
    · split at h
      · rename_i arg
        have hle : sizeOf arg ≤ sizeOf (Expr.methodCall attrs receiver method turbofish [arg]) := by
          simp
          omega
        refine Nat.le_trans ?_ hle
        split at h
        · split at h
          · cases h
          split at h
          · cases h
          split at h
          · simp only [bind, Except.bind] at h
            split at h
            · cases h
            · rename_i found hfound
              obtain ⟨names, inner⟩ := found
              cases h
              exact Nat.le_of_lt (Expr.closureN_size hfound)
          · exact Nat.le_of_lt (parseFilter_size h)
        · exact Nat.le_of_lt (parseFilter_size h)
      · cases h
    · cases h
  | _ => simp at h

end QuerySource

end Cartel.Sql
