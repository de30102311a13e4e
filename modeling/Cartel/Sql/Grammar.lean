import Cartel.Lib.Precedence
import Cartel.Sql.Lexer

/-!
# Parsing SQL

The grammar of the expressions and queries the macros write, read token by token with the
operator precedences of the dialect (`Kind.level`, `Kind.assoc`). PostgreSQL has the
levels `OR`, `AND`, `NOT`, `IS`, comparisons, `LIKE`, other operators, `+`, `*`, where `IS`,
comparisons and `LIKE` do not group, and `INTERSECT` binds tighter than `UNION` and `EXCEPT`.
In SQLite `=`, `<>`, `IS` and `LIKE` are one level below `<`, everything groups from the
left, and the set operators are one level.

The stack holds the operators that wait and the regions that are open : parentheses, the
arguments of a call, the list and the clauses of a `SELECT`, and the queries themselves.
-/

namespace Cartel.Sql

/-! ## Keywords -/

inductive Keyword
  | and | or | not | is | null | like | ilike | glob | true | false | any | all | exist
  | select | source | label | condition | group | by | having
  | join | inner | left | right | full | outer | on
  | union | intersect | except | order | limit | offset
  deriving DecidableEq, Repr

def keywords : List (String × Keyword) :=
  [("and", .and), ("or", .or), ("not", .not), ("is", .is), ("null", .null), ("like", .like),
    ("ilike", .ilike), ("glob", .glob), ("true", .true), ("false", .false), ("any", .any),
    ("all", .all), ("exists", .exist), ("select", .select), ("from", .source), ("as", .label),
    ("where", .condition), ("group", .group), ("by", .by), ("having", .having),
    ("join", .join), ("inner", .inner), ("left", .left), ("right", .right), ("full", .full),
    ("outer", .outer), ("on", .on), ("union", .union), ("intersect", .intersect),
    ("except", .except), ("order", .order), ("limit", .limit), ("offset", .offset)]

/-- The keyword a folded word is. -/
def keyword (text : Text) : Option Keyword :=
  (keywords.find? fun p => p.1.toList == text).map (·.2)

/-! ## Trees -/

inductive SetOp
  | union
  | intersect
  | except
  deriving DecidableEq, Repr

/-- Binary operators. -/
inductive Infix
  | or | and
  | is | isNot
  | eq | ne | lt | gt | le | ge
  | like (negated : Bool)
  | ilike (negated : Bool)
  | glob (negated : Bool)
  | other (symbol : Text)
  | add | sub | mul | div | rem
  | set (op : SetOp) (all : Bool)
  deriving DecidableEq, Repr

inductive Quantifier
  | any
  | all
  deriving DecidableEq, Repr

/-- A relation with the name it is declared under. -/
structure Relation where
  path : List Text
  label : Option Text
  deriving DecidableEq, Repr

/-- The clauses of a `SELECT` that hold expressions. -/
inductive Clause
  | join (words : List Text) (relation : Relation)
  | condition
  | group
  | having
  deriving DecidableEq, Repr

/-- Expressions and queries. -/
inductive Tree
  | column (path : List Text)
  | param (index : ℕ)
  | number (text : Text)
  | string (text : Text)
  | truth (value : Bool)
  | null
  | star
  | binary (op : Infix) (l r : Tree)
  | not (e : Tree)
  | cast (e : Tree) (type : Text)
  | call (name : Text) (args : List Tree)
  | every (op : Infix) (quantifier : Quantifier) (l r : Tree)
  | existence (query : Tree)
  | scalar (query : Tree)
  | select (items : List Tree) (relation : Relation) (clauses : List (Clause × List Tree))

/-! ## Precedence -/

/-- How tight an operator binds. -/
def Kind.level : Kind → Infix → ℕ
  | _, .or => 1
  | _, .and => 2
  | _, .is | _, .isNot => 4
  | .pg, .eq | .pg, .ne | .pg, .lt | .pg, .gt | .pg, .le | .pg, .ge => 5
  | .pg, .like _ | .pg, .ilike _ | .pg, .glob _ => 6
  | .sqlite, .eq | .sqlite, .ne | .sqlite, .like _ | .sqlite, .ilike _ | .sqlite, .glob _ => 4
  | .sqlite, .lt | .sqlite, .gt | .sqlite, .le | .sqlite, .ge => 5
  | .pg, .other symbol => if symbol = "^".toList then 10 else 7
  | .sqlite, .other symbol =>
    if symbol = "||".toList ∨ symbol = "->".toList ∨ symbol = "->>".toList then 10 else 7
  | _, .add | _, .sub => 8
  | _, .mul | _, .div | _, .rem => 9
  | .pg, .set .intersect _ => 2
  | _, .set _ _ => 1

/-- How the operators of a level group. -/
def Kind.assoc : Kind → ℕ → Assoc
  | .pg, 4 | .pg, 5 | .pg, 6 => .neither
  | _, _ => .left

/-- The operators of a dialect : `NOT` stands between `AND` and the comparisons. -/
def operators (kind : Kind) : Operators Infix Unit Tree where
  level := kind.level
  assoc := kind.assoc
  rank := fun _ => 3
  binary := .binary
  unary := fun _ => .not

/-- The operator a symbol is. -/
def Infix.ofSymbol (symbol : Text) : Infix :=
  if symbol = "=".toList ∨ symbol = "==".toList then .eq
  else if symbol = "<>".toList ∨ symbol = "!=".toList then .ne
  else if symbol = "<".toList then .lt
  else if symbol = ">".toList then .gt
  else if symbol = "<=".toList then .le
  else if symbol = ">=".toList then .ge
  else if symbol = "+".toList then .add
  else if symbol = "-".toList then .sub
  else if symbol = "*".toList then .mul
  else if symbol = "/".toList then .div
  else if symbol = "%".toList then .rem
  else .other symbol

/-! ## States -/

/-- What the parentheses around a query make of it. -/
inductive Wrap
  | existence
  | scalar
  | group
  deriving DecidableEq, Repr

/-- A `SELECT` with the clauses read so far. -/
structure Selection where
  items : List Tree
  relation : Relation
  clauses : List (Clause × List Tree)

namespace Selection

def tree (s : Selection) : Tree := .select s.items s.relation s.clauses

/-- Ends a clause. -/
def add (s : Selection) (c : Clause) (exprs : List Tree) : Selection :=
  { s with clauses := s.clauses ++ [(c, exprs)] }

end Selection

/-- An open region. -/
inductive Mark
  | paren
  | call (name : Text) (args : List Tree)
  | every (l : Tree) (op : Infix) (quantifier : Quantifier)
  | query (wrap : Wrap)
  | items (read : List Tree)
  | clause (s : Selection) (c : Clause) (read : List Tree)

abbrev Stack := List (Pending Mark Infix Unit Tree)

/-- Where a relation goes once it is named. -/
inductive Place
  | base (items : List Tree)
  | join (s : Selection) (words : List Text)

/-- What of the name of a relation has been read. -/
inductive Naming
  | due
  | path (names : List Text)
  | dotted (names : List Text)
  | aliasDue (names : List Text)
  | aliased (names : List Text) (label : Text)

inductive Mode
  | operand
  | value (t : Tree)
  | name (path : List Text)
  | dotted (path : List Text)
  | star
  | cast (t : Tree)
  | test (l : Tree) (negated : Bool)
  | negated (l : Tree)
  | quantifier (l : Tree) (op : Infix) (quantifier : Quantifier)
  | existence
  | branch
  | combined (l : Tree) (op : SetOp)
  | result (query : Tree)
  | naming (place : Place) (naming : Naming)
  | joining (s : Selection) (words : List Text)
  | grouping (s : Selection)
  | tail (query : Tree) (tokens : List Token)

structure State where
  stack : Stack
  mode : Mode

/-! ## Steps -/

/-- Puts an operator on the stack, behind its left operand. -/
def push (kind : Kind) (stack : Stack) (l : Tree) (op : Infix) : Option State :=
  ((operators kind).settle (kind.level op) stack l).map fun p =>
    ⟨.binary p.2 op :: p.1, .operand⟩

/-- An operand is due. -/
def operandStep (kind : Kind) (stack : Stack) : Token → Option State
  | .word text =>
    match keyword text with
    | some .not => some ⟨.unary () :: stack, .operand⟩
    | some .true => some ⟨stack, .value (.truth true)⟩
    | some .false => some ⟨stack, .value (.truth false)⟩
    | some .null => some ⟨stack, .value .null⟩
    | some .exist => some ⟨stack, .existence⟩
    | some .any =>
      match kind, stack with
      | .pg, .binary l op :: rest => some ⟨rest, .quantifier l op .any⟩
      | _, _ => none
    | some .all =>
      match kind, stack with
      | .pg, .binary l op :: rest => some ⟨rest, .quantifier l op .all⟩
      | _, _ => none
    | some .select =>
      match stack with
      | .mark .paren :: rest =>
        some ⟨.mark (.items []) :: .mark (.query .scalar) :: rest, .operand⟩
      | _ => none
    | some _ => none
    | none => some ⟨stack, .name [text]⟩
  | .quoted text => some ⟨stack, .name [text]⟩
  | .number text => some ⟨stack, .value (.number text)⟩
  | .string text => some ⟨stack, .value (.string text)⟩
  | .param index => some ⟨stack, .value (.param index)⟩
  | .lparen => some ⟨.mark .paren :: stack, .operand⟩
  | .rparen =>
    match stack with
    | .mark (.call name []) :: rest => some ⟨rest, .value (.call name [])⟩
    | _ => none
  | .symbol text =>
    match stack with
    | .mark (.call _ []) :: _ => if text = "*".toList then some ⟨stack, .star⟩ else none
    | _ => none
  | _ => none

/-- A query is due. Only PostgreSQL takes parentheses around one. -/
def branchStep (kind : Kind) (stack : Stack) : Token → Option State
  | .word text =>
    if keyword text = some .select then some ⟨.mark (.items []) :: stack, .operand⟩ else none
  | .lparen => if kind = .pg then some ⟨.mark (.query .group) :: stack, .branch⟩ else none
  | _ => none

/-- A set operator follows the query. -/
def combine (kind : Kind) (stack : Stack) (query : Tree) (op : SetOp) : Option State :=
  ((operators kind).settle (kind.level (.set op false)) stack query).map fun p =>
    ⟨p.1, .combined p.2 op⟩

/-- A query is complete. -/
def resultStep (kind : Kind) (stack : Stack) (query : Tree) : Token → Option State
  | .word text =>
    match keyword text with
    | some .union => combine kind stack query .union
    | some .intersect => combine kind stack query .intersect
    | some .except => combine kind stack query .except
    | some .order | some .limit | some .offset =>
      match (operators kind).settle 0 stack query with
      | some ([], query) => some ⟨[], .tail query [.word text]⟩
      | _ => none
    | _ => none
  | .rparen =>
    match (operators kind).settle 0 stack query with
    | some (.mark (.query .existence) :: rest, query) => some ⟨rest, .value (.existence query)⟩
    | some (.mark (.query .scalar) :: rest, query) => some ⟨rest, .value (.scalar query)⟩
    | some (.mark (.query .group) :: rest, query) => some ⟨rest, .result query⟩
    | _ => none
  | .semicolon =>
    match (operators kind).settle 0 stack query with
    | some ([], query) => some ⟨[], .tail query []⟩
    | _ => none
  | _ => none

/-- A clause of a `SELECT`, or its relation, is complete. -/
def selectionStep (kind : Kind) (stack : Stack) (s : Selection) : Token → Option State
  | .word text =>
    match keyword text with
    | some .condition => some ⟨.mark (.clause s .condition []) :: stack, .operand⟩
    | some .having => some ⟨.mark (.clause s .having []) :: stack, .operand⟩
    | some .group => some ⟨stack, .grouping s⟩
    | some .join => some ⟨stack, .naming (.join s []) .due⟩
    | some .inner | some .left | some .right | some .full => some ⟨stack, .joining s [text]⟩
    | _ => resultStep kind stack s.tree (.word text)
  | token => resultStep kind stack s.tree token

/-- The expression `t` ends its region, at the given token. -/
def regionStep (kind : Kind) (stack : Stack) (t : Tree) (token : Token) : Option State :=
  match (operators kind).settle 0 stack t with
  | some (.mark .paren :: rest, t) => if token = .rparen then some ⟨rest, .value t⟩ else none
  | some (.mark (.call name args) :: rest, t) =>
    match token with
    | .rparen => some ⟨rest, .value (.call name (args ++ [t]))⟩
    | .comma => some ⟨.mark (.call name (args ++ [t])) :: rest, .operand⟩
    | _ => none
  | some (.mark (.every l op quantifier) :: rest, t) =>
    if token = .rparen then some ⟨rest, .value (.every op quantifier l t)⟩ else none
  | some (.mark (.items read) :: rest, t) =>
    match token with
    | .comma => some ⟨.mark (.items (read ++ [t])) :: rest, .operand⟩
    | .word text =>
      if keyword text = some .source then some ⟨rest, .naming (.base (read ++ [t])) .due⟩
      else none
    | _ => none
  | some (.mark (.clause s c read) :: rest, t) =>
    if c = .group ∧ token = .comma then
      some ⟨.mark (.clause s c (read ++ [t])) :: rest, .operand⟩
    else selectionStep kind rest (s.add c (read ++ [t])) token
  | _ => none

/-- An operand is complete. -/
def valueStep (kind : Kind) (stack : Stack) (t : Tree) : Token → Option State
  | .symbol text => push kind stack t (.ofSymbol text)
  | .cast => some ⟨stack, .cast t⟩
  | .word text =>
    match keyword text with
    | some .and => push kind stack t .and
    | some .or => push kind stack t .or
    | some .like => push kind stack t (.like false)
    | some .ilike => push kind stack t (.ilike false)
    | some .glob => push kind stack t (.glob false)
    | some .not => some ⟨stack, .negated t⟩
    | some .is =>
      ((operators kind).settle (kind.level .is) stack t).map fun p => ⟨p.1, .test p.2 false⟩
    | _ => regionStep kind stack t (.word text)
  | token => regionStep kind stack t token

/-- `IS` or `IS NOT` : PostgreSQL tests for `NULL`, SQLite compares with an operand. -/
def testStep (kind : Kind) (stack : Stack) (l : Tree) (negated : Bool) (token : Token) :
    Option State :=
  if token = .word "not".toList ∧ negated = false then some ⟨stack, .test l true⟩
  else
    match kind with
    | .pg =>
      if token = .word "null".toList then
        some ⟨stack, .value (.binary (if negated then .isNot else .is) l .null)⟩
      else none
    | .sqlite => operandStep kind (.binary l (if negated then .isNot else .is) :: stack) token

/-- The relation is named. -/
def placeStep (kind : Kind) (stack : Stack) (relation : Relation) :
    Place → Token → Option State
  | .base items, token => selectionStep kind stack ⟨items, relation, []⟩ token
  | .join s words, .word text =>
    if keyword text = some .on then
      some ⟨.mark (.clause s (.join words relation) []) :: stack, .operand⟩
    else none
  | .join _ _, _ => none

/-- A name of a relation, unless a keyword. -/
def nameOf : Token → Option Text
  | .quoted text => some text
  | .word text => if keyword text = none then some text else none
  | _ => none

def namingStep (kind : Kind) (stack : Stack) (place : Place) :
    Naming → Token → Option State
  | .due, token => (nameOf token).map fun name => ⟨stack, .naming place (.path [name])⟩
  | .path names, .dot => some ⟨stack, .naming place (.dotted names)⟩
  | .path names, token =>
    if token = .word "as".toList then some ⟨stack, .naming place (.aliasDue names)⟩
    else placeStep kind stack ⟨names, none⟩ place token
  | .dotted names, token =>
    (nameOf token).map fun name => ⟨stack, .naming place (.path (names ++ [name]))⟩
  | .aliasDue names, token =>
    (nameOf token).map fun name => ⟨stack, .naming place (.aliased names name)⟩
  | .aliased names label, token => placeStep kind stack ⟨names, some label⟩ place token

def step (kind : Kind) : State → Token → Option State
  | ⟨stack, .operand⟩, token => operandStep kind stack token
  | ⟨stack, .value t⟩, token => valueStep kind stack t token
  | ⟨stack, .name path⟩, .dot => some ⟨stack, .dotted path⟩
  | ⟨stack, .name path⟩, .lparen =>
    match path with
    | [name] => some ⟨.mark (.call name []) :: stack, .operand⟩
    | _ => none
  | ⟨stack, .name path⟩, token => valueStep kind stack (.column path) token
  | ⟨stack, .dotted path⟩, token =>
    (nameOf token).map fun name => ⟨stack, .name (path ++ [name])⟩
  | ⟨.mark (.call name []) :: rest, .star⟩, .rparen =>
    some ⟨rest, .value (.call name [.star])⟩
  | ⟨_, .star⟩, _ => none
  | ⟨stack, .cast t⟩, .word text => some ⟨stack, .value (.cast t text)⟩
  | ⟨_, .cast _⟩, _ => none
  | ⟨stack, .test l negated⟩, token => testStep kind stack l negated token
  | ⟨stack, .negated l⟩, .word text =>
    match keyword text with
    | some .like => push kind stack l (.like true)
    | some .ilike => push kind stack l (.ilike true)
    | some .glob => push kind stack l (.glob true)
    | _ => none
  | ⟨_, .negated _⟩, _ => none
  | ⟨stack, .quantifier l op quantifier⟩, .lparen =>
    some ⟨.mark (.every l op quantifier) :: stack, .operand⟩
  | ⟨_, .quantifier _ _ _⟩, _ => none
  | ⟨stack, .existence⟩, .lparen => some ⟨.mark (.query .existence) :: stack, .branch⟩
  | ⟨_, .existence⟩, _ => none
  | ⟨stack, .branch⟩, token => branchStep kind stack token
  | ⟨stack, .combined l op⟩, token =>
    if token = .word "all".toList then some ⟨.binary l (.set op true) :: stack, .branch⟩
    else branchStep kind (.binary l (.set op false) :: stack) token
  | ⟨stack, .result query⟩, token => resultStep kind stack query token
  | ⟨stack, .naming place naming⟩, token => namingStep kind stack place naming token
  | ⟨stack, .joining s words⟩, .word text =>
    match keyword text with
    | some .join => some ⟨stack, .naming (.join s words) .due⟩
    | some .outer => some ⟨stack, .joining s (words ++ [text])⟩
    | _ => none
  | ⟨_, .joining _ _⟩, _ => none
  | ⟨stack, .grouping s⟩, .word text =>
    if keyword text = some .by then some ⟨.mark (.clause s .group []) :: stack, .operand⟩
    else none
  | ⟨_, .grouping _⟩, _ => none
  | ⟨stack, .tail query tokens⟩, .semicolon => some ⟨stack, .tail query tokens⟩
  | ⟨stack, .tail query tokens⟩, token => some ⟨stack, .tail query (tokens ++ [token])⟩

def run (kind : Kind) (state : State) (tokens : List Token) : Option State :=
  tokens.foldlM (step kind) state

/-- The operand that is complete. -/
def Mode.value? : Mode → Option Tree
  | .value t => some t
  | .name path => some (.column path)
  | _ => none

/-- The expression of the region that ends here, and what is beneath it. -/
def State.expression (kind : Kind) (state : State) : Option (Stack × Tree) :=
  state.mode.value?.bind fun t => (operators kind).settle 0 state.stack t

/-- Reads a text that is one expression. -/
def expression (kind : Kind) (text : Text) : Option Tree :=
  match (lexer kind).scan text |>.bind (run kind ⟨[], .operand⟩) |>.bind (·.expression kind) with
  | some ([], t) => some t
  | _ => none

/-- Reads a query, and the tokens of the clauses behind it. -/
def statement (kind : Kind) (text : Text) : Option (Tree × List Token) :=
  match (lexer kind).scan text |>.bind fun tokens =>
      run kind ⟨[], .branch⟩ (tokens ++ [.semicolon]) with
  | some ⟨[], .tail query tokens⟩ => some (query, tokens)
  | _ => none

end Cartel.Sql
