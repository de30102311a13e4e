import Cartel.Sql.Sets

/-!
# Chains keep their structure

A chain of set operations reads as the left-nested tree of its receivers (`chainTree`). In
PostgreSQL every operation but the last stands in parentheses and is a query of its own,
so that `INTERSECT` takes no operand of an operation before it. In SQLite the operators are
one level and group from the left.
-/

namespace Cartel.Sql

open Lib (bind_eq_ok)
open Operators (Region settle_left settle_binary)

/-! ## The tree of a chain -/

def SetOpKind.op : SetOpKind → SetOp
  | .union | .unionAll => .union
  | .intersect | .intersectAll => .intersect
  | .except | .exceptAll => .except

def SetOpKind.all : SetOpKind → Bool
  | .union | .intersect | .except => false
  | .unionAll | .intersectAll | .exceptAll => true

/-- A branch : all columns of its table, under its condition. -/
def SelectBranch.tree (R : Reading) (branch : SelectBranch) : Option Tree :=
  let items := (R.tables.columns branch.source.primaryPath).map fun column =>
    Tree.column [column.name]
  if isTrue branch.predicate then
    some (selectFrom items (branch.source.names R.tables) (branch.source.qualifier 0) none)
  else
    match Sql.predicate R (RowScope.forBindings branch.source branch.predIdents) branch.predicate with
    | some condition => some (branch.source.query R.tables items (some condition))
    | none => none

/-- A branch, as it is written in Rust. -/
def branchTree (R : Reading) (e : Expr) : Option Tree :=
  match QuerySource.parseChain e R.ctes with
  | .ok (source, ids, pred) => SelectBranch.tree R ⟨source, ids, pred⟩
  | .error _ => none

/-- A chain, as it is written in Rust : each operation on its receiver and its argument. -/
def chainTree (R : Reading) : Expr → Option Tree
  | .methodCall attrs receiver method turbofish args =>
    match SetOpKind.fromMethod method with
    | none => branchTree R (.methodCall attrs receiver method turbofish args)
    | some op =>
      match args with
      | [arg] =>
        match chainTree R receiver, branchTree R arg with
        | some l, some r => some (.binary (.set op.op op.all) l r)
        | _, _ => none
      | _ => none
  | e => branchTree R e

/-- The tree of a parsed chain. -/
def SetQuery.tree (R : Reading) (head : Tree) : List (SetOpKind × SelectBranch) → Option Tree
  | [] => some head
  | (op, branch) :: rest =>
    (branch.tree R).bind fun t => SetQuery.tree R (.binary (.set op.op op.all) head t) rest

variable {kind : Kind} {tokens others : List Token} {l r q : Tree} {op : SetOp} {all : Bool}

/-! ## Tokens -/

/-- The token ends a chain of set operations. -/
def Token.concludes : Token → Bool
  | .rparen | .semicolon => true
  | .word text =>
    match keyword text with
    | some .order | some .limit | some .offset => true
    | _ => false
  | _ => false

/-- A chain, where a region begins : what `P` holds of finds it complete. -/
def Sequel (kind : Kind) (P : Token → Bool) (tokens : List Token) (q : Tree) : Prop :=
  ∀ stack : Stack, Region stack → ∃ state, run kind ⟨stack, .branch⟩ tokens = some state ∧
    ∀ token, P token = true → step kind state token = resultStep kind stack q token

def SetOp.word : SetOp → Text
  | .union => "union".toList
  | .intersect => "intersect".toList
  | .except => "except".toList

/-- The tokens of a set operator. -/
def setTokens (op : SetOp) (all : Bool) : List Token :=
  .word op.word :: if all then [.word "all".toList] else []

theorem Token.concludes.follows {token : Token} (h : token.concludes = true) :
    token.follows = true := by
  cases token with
  | word text =>
    simp only [Token.concludes] at h
    simp only [Token.follows]
    split at h <;> simp_all
  | _ => first | rfl | simp [Token.concludes] at h

theorem Query.sequel (h : Query kind tokens q) : Sequel kind Token.follows tokens q :=
  fun stack _ => h stack

theorem Sequel.concludes (h : Sequel kind Token.follows tokens q) :
    Sequel kind Token.concludes tokens q := by
  intro stack hr
  obtain ⟨state, hrun, hs⟩ := h stack hr
  exact ⟨state, hrun, fun token htoken => hs token (Token.concludes.follows htoken)⟩

/-- A query begins with a token that is not `ALL`. -/
theorem Query.begins (h : Query kind tokens q) :
    ∃ token rest, tokens = token :: rest ∧ token ≠ .word "all".toList := by
  obtain ⟨state, hrun, hs⟩ := h []
  cases tokens with
  | nil =>
    obtain rfl : ⟨[], .branch⟩ = state := by simpa [run] using hrun
    exact absurd (hs .semicolon rfl) (by simp [step, branchStep, resultStep, Operators.settle])
  | cons token rest =>
    refine ⟨token, rest, rfl, ?_⟩
    rintro rfl
    have hnone : step kind ⟨[], .branch⟩ (.word "all".toList) = none := rfl
    rw [run, List.foldlM_cons, hnone] at hrun
    exact absurd hrun (by simp)

theorem SetOp.resultStep_word (op : SetOp) (stack : Stack) (q : Tree) :
    resultStep kind stack q (.word op.word) = Sql.combine kind stack q op := by
  cases op with
  | union =>
    have hk : keyword (SetOp.word .union) = some .union := by decide
    simp only [resultStep, hk]
  | intersect =>
    have hk : keyword (SetOp.word .intersect) = some .intersect := by decide
    simp only [resultStep, hk]
  | except =>
    have hk : keyword (SetOp.word .except) = some .except := by decide
    simp only [resultStep, hk]

/-- One more operation, when its operator waits for nothing but the left operand. -/
theorem Sequel.combine {P P' : Token → Bool} (hl : Sequel kind P tokens l)
    (hword : P (.word op.word) = true) (hr : Query kind others r)
    (hdone : ∀ (stack : Stack) (token : Token), Region stack → P' token = true →
      token.follows = true ∧ resultStep kind (.binary l (.set op all) :: stack) r token =
        resultStep kind stack (.binary (.set op all) l r) token) :
    Sequel kind P' (tokens ++ (setTokens op all ++ others)) (.binary (.set op all) l r) := by
  intro stack hregion
  obtain ⟨state, hrun, hs⟩ := hl stack hregion
  obtain ⟨state', hrun', hs'⟩ := hr (.binary l (.set op all) :: stack)
  refine ⟨state', ?_, fun token htoken => ?_⟩
  · have hop : step kind state (.word op.word) = some ⟨stack, .combined l op⟩ := by
      rw [hs _ hword, SetOp.resultStep_word, Sql.combine, hregion.settle]
      rfl
    obtain ⟨token, rest, rfl, hnot⟩ := hr.begins
    rw [run_append hrun, setTokens, List.cons_append, run_cons hop]
    cases all with
    | true =>
      have hall : step kind ⟨stack, .combined l op⟩ (.word "all".toList) =
          some ⟨.binary l (.set op true) :: stack, .branch⟩ := by simp [step]
      rw [if_pos rfl, List.cons_append, run_cons hall]
      exact hrun'
    | false =>
      have hsame : step kind ⟨stack, .combined l op⟩ token =
          step kind ⟨.binary l (.set op false) :: stack, .branch⟩ token := if_neg hnot
      rw [if_neg (by simp), List.nil_append]
      simp only [run, List.foldlM_cons, hsame] at hrun' ⊢
      exact hrun'
  · obtain ⟨hfollows, hresult⟩ := hdone stack token hregion htoken
    rw [hs' token hfollows, hresult]

/-- What ends a chain applies the operator that waits. -/
theorem resultStep_concludes {token : Token} (h : token.concludes = true) (stack : Stack) :
    resultStep kind (.binary l (.set op all) :: stack) r token =
      resultStep kind stack (.binary (.set op all) l r) token := by
  have hsettle : (operators kind).settle 0 (.binary l (.set op all) :: stack) r =
      (operators kind).settle 0 stack (.binary (.set op all) l r) :=
    settle_binary (Infix.level_pos kind _) stack
  cases token with
  | word text =>
    simp only [Token.concludes] at h
    split at h
    · rename_i hk
      simp only [resultStep, hk, hsettle]
    · rename_i hk
      simp only [resultStep, hk, hsettle]
    · rename_i hk
      simp only [resultStep, hk, hsettle]
    · exact absurd h (by simp)
  | rparen => simp only [resultStep, hsettle]
  | semicolon => simp only [resultStep, hsettle]
  | _ => simp [Token.concludes] at h

/-- So does the next operator in SQLite. -/
theorem resultStep_sqlite {token : Token} (h : token.follows = true) (stack : Stack) :
    resultStep .sqlite (.binary l (.set op all) :: stack) r token =
      resultStep .sqlite stack (.binary (.set op all) l r) token := by
  by_cases hc : token.concludes = true
  · exact resultStep_concludes hc stack
  have hsettle : ∀ next : SetOp,
      combine .sqlite (.binary l (.set op all) :: stack) r next =
        combine .sqlite stack (.binary (.set op all) l r) next := by
    intro next
    have hlevel : Kind.level .sqlite (.set next false) = (operators .sqlite).level (.set op all) := by
      cases next <;> cases op <;> rfl
    have hleft : (operators .sqlite).settle (Kind.level .sqlite (.set next false))
        (.binary l (.set op all) :: stack) r =
        (operators .sqlite).settle (Kind.level .sqlite (.set next false)) stack
          (.binary (.set op all) l r) := settle_left hlevel (by cases next <;> rfl) stack
    rw [combine, hleft, combine]
  cases token with
  | word text =>
    simp only [Token.follows] at h
    split at h
    · rename_i hk
      simp only [resultStep, hk, hsettle]
    · rename_i hk
      simp only [resultStep, hk, hsettle]
    · rename_i hk
      simp only [resultStep, hk, hsettle]
    · rename_i hk
      exact absurd (by simp [Token.concludes, hk]) hc
    · rename_i hk
      exact absurd (by simp [Token.concludes, hk]) hc
    · rename_i hk
      exact absurd (by simp [Token.concludes, hk]) hc
    · exact absurd h (by simp)
  | rparen => exact absurd rfl hc
  | semicolon => exact absurd rfl hc
  | _ => simp [Token.follows] at h

theorem SetOp.follows_word (op : SetOp) : Token.follows (.word op.word) = true := by
  cases op <;> decide

/-- The last operation of a chain. -/
theorem Query.combine (hl : Query kind tokens l) (hr : Query kind others r) :
    Sequel kind Token.concludes (tokens ++ (setTokens op all ++ others))
      (.binary (.set op all) l r) :=
  hl.sequel.combine op.follows_word hr fun stack _ _ htoken =>
    ⟨Token.concludes.follows htoken, resultStep_concludes htoken stack⟩

/-- An operation of SQLite behind those before it. -/
theorem Sequel.combine_sqlite (hl : Sequel .sqlite Token.follows tokens l)
    (hr : Query .sqlite others r) :
    Sequel .sqlite Token.follows (tokens ++ (setTokens op all ++ others))
      (.binary (.set op all) l r) :=
  hl.combine op.follows_word hr fun stack _ _ htoken => ⟨htoken, resultStep_sqlite htoken stack⟩

/-- A chain in parentheses is a query. -/
theorem Sequel.group (h : Sequel .pg Token.concludes tokens q) :
    Query .pg (.lparen :: (tokens ++ [.rparen])) q := by
  intro stack
  obtain ⟨state, hrun, hs⟩ := h (.mark (.query .group) :: stack) (Region.mark _ _)
  have hopen : step .pg ⟨stack, .branch⟩ .lparen =
      some ⟨.mark (.query .group) :: stack, .branch⟩ := rfl
  refine ⟨⟨stack, .result q⟩, ?_, fun token _ => rfl⟩
  rw [run_cons hopen, run_append hrun]
  refine run_singleton ?_
  rw [hs .rparen rfl]
  simp [resultStep, (Region.mark _ _).settle]

/-! ## Statements -/

/-- The clauses behind the last branch. -/
def Tail (tokens : List Token) : Prop :=
  tokens = [] ∨ ∃ word rest, tokens = .word word :: rest ∧
    (Token.word word).concludes = true ∧ Token.semicolon ∉ rest

theorem run_tail {rest : List Token} (h : Token.semicolon ∉ rest) (q : Tree) (read : List Token) :
    run kind ⟨[], .tail q read⟩ (rest ++ [.semicolon]) = some ⟨[], .tail q (read ++ rest)⟩ := by
  induction rest generalizing read with
  | nil =>
    rw [List.append_nil]
    rfl
  | cons token rest ih =>
    have hstep : step kind ⟨[], .tail q read⟩ token = some ⟨[], .tail q (read ++ [token])⟩ := by
      cases token <;> first | rfl | simp at h
    rw [List.cons_append, run_cons hstep, ih fun hmem => h (List.mem_cons_of_mem _ hmem)]
    simp

/-- A chain with its clauses is a statement. -/
theorem Sequel.statement {text : Text} {tail : List Token}
    (h : Sequel kind Token.concludes tokens q) (ht : Tail tail)
    (hl : (lexer kind).Lexes text (tokens ++ tail)) :
    statement kind text = some (q, tail) := by
  obtain ⟨state, hrun, hs⟩ := h [] Region.nil
  have hall : run kind ⟨[], .branch⟩ ((tokens ++ tail) ++ [.semicolon]) =
      some ⟨[], .tail q tail⟩ := by
    rw [List.append_assoc, run_append hrun]
    rcases ht with rfl | ⟨word, rest, rfl, hword, hrest⟩
    · refine run_singleton ?_
      rw [hs .semicolon rfl]
      rfl
    · have hstep : step kind state (.word word) = some ⟨[], .tail q [.word word]⟩ := by
        rw [hs _ hword]
        simp only [Token.concludes] at hword
        split at hword
        · rename_i hk
          simp [resultStep, hk, Operators.settle]
        · rename_i hk
          simp [resultStep, hk, Operators.settle]
        · rename_i hk
          simp [resultStep, hk, Operators.settle]
        · exact absurd hword (by simp)
      rw [List.cons_append, run_cons hstep, run_tail hrest]
      rfl
  rw [Sql.statement, hl.scan, Option.bind_some, hall]

/-! ## Branches as text -/

/-- The text of a chain. -/
def SequelText (kind : Kind) (P : Token → Bool) (text : Text) (q : Tree) : Prop :=
  ∃ tokens, (lexer kind).Lexes text tokens ∧ Sequel kind P tokens q

theorem QueryText.sequel {text : Text} (h : QueryText kind text q) :
    SequelText kind Token.follows text q := by
  obtain ⟨tokens, hl, hq⟩ := h
  exact ⟨tokens, hl, hq.sequel⟩

theorem SequelText.concludes {text : Text} (h : SequelText kind Token.follows text q) :
    SequelText kind Token.concludes text q := by
  obtain ⟨tokens, hl, hq⟩ := h
  exact ⟨tokens, hl, hq.concludes⟩

/-- The constant of a set operator. -/
theorem SetOpKind.closed (op : SetOpKind) {s : String} (h : op.sqlRef.text kind = some s) :
    (lexer kind).Closed s.toList (setTokens op.op op.all) ∧ (lexer kind).Delimited s.toList := by
  have hall : (lexer kind).Closed s.toList (setTokens op.op op.all) ∧
      ∃ rest, s.toList = ' ' :: rest := by
    cases op <;> cases kind <;> cases h <;> exact ⟨by decide, _, rfl⟩
  obtain ⟨hclosed, rest, hrest⟩ := hall
  exact ⟨hclosed, by rw [hrest]; exact delimited_blank rest⟩

section Texts

variable {left right text : Text} {s : String} {link : SetOpKind}

theorem QueryText.combine (hl : QueryText kind left l) (hs : link.sqlRef.text kind = some s)
    (hr : QueryText kind right r) :
    SequelText kind Token.concludes (left ++ (s.toList ++ right))
      (.binary (.set link.op link.all) l r) := by
  obtain ⟨tokens, hlex, hq⟩ := hl
  obtain ⟨others, hlex', hq'⟩ := hr
  obtain ⟨hclosed, hdelimited⟩ := link.closed hs
  exact ⟨_, hlex.append hdelimited.append (hclosed.append_lexes hlex'), hq.combine hq'⟩

theorem SequelText.combine_sqlite (hl : SequelText .sqlite Token.follows left l)
    (hs : link.sqlRef.text .sqlite = some s) (hr : QueryText .sqlite right r) :
    SequelText .sqlite Token.follows (left ++ (s.toList ++ right))
      (.binary (.set link.op link.all) l r) := by
  obtain ⟨tokens, hlex, hq⟩ := hl
  obtain ⟨others, hlex', hq'⟩ := hr
  obtain ⟨hclosed, hdelimited⟩ := link.closed hs
  exact ⟨_, hlex.append hdelimited.append (hclosed.append_lexes hlex'), hq.combine_sqlite hq'⟩

theorem SequelText.group (h : SequelText .pg Token.concludes text q) :
    QueryText .pg ("(".toList ++ (text ++ ")".toList)) q := by
  obtain ⟨tokens, hlex, hq⟩ := h
  exact ⟨_, lexes_paren hlex, hq.group⟩

/-- PostgreSQL takes a `SELECT` in parentheses for a query. -/
theorem SelectText.group (h : SelectText .pg text q) :
    QueryText .pg ("(".toList ++ (text ++ ")".toList)) q :=
  h.queryText.sequel.concludes.group

end Texts

/-! ## Fragments -/

section Fragments

variable {tables : Tables} {context : WhereContext} {final : List Ident}

/-- The reading of a query planned in a context. -/
abbrev WhereContext.reading (context : WhereContext) (tables : Tables) (final : List Ident) :
    Reading :=
  Sql.reading context.dialect tables context.fnParams context.paramTys context.cteMap final

theorem WhereContext.agrees (context : WhereContext) (tables : Tables) (final : List Ident) :
    context.Agrees (context.reading tables final) := ⟨rfl, rfl, rfl⟩

theorem textOf_append {a b : List Fragment} {x y : Text} (ha : textOf kind tables a = some x)
    (hb : textOf kind tables b = some y) : textOf kind tables (a ++ b) = some (x ++ y) := by
  induction a generalizing x with
  | nil =>
    obtain rfl : [] = x := by simpa [textOf] using ha
    exact hb
  | cons fragment a ih =>
    rw [textOf_cons] at ha
    simp only [Option.bind_eq_some_iff, Option.map_eq_some_iff] at ha
    obtain ⟨t, ht, rest, hrest, rfl⟩ := ha
    rw [List.cons_append, textOf_cons, ht, Option.bind_some, ih hrest]
    simp

theorem textOf_nil : textOf kind tables [] = some [] := rfl

theorem textOf_kw {name : Const} {s : String} {rest : List Fragment} {shown : Text}
    (h : name.text kind = some s) (hr : textOf kind tables rest = some shown) :
    textOf kind tables (.kw name :: rest) = some (s.toList ++ shown) := by
  rw [textOf_cons, Fragment.render, h, Option.map_some, Option.bind_some, hr, Option.map_some]

/-- Parts without captures show as their fragments do. -/
theorem textOf_fragments (R : Reading) {parts : Parts}
    (h : ∀ part ∈ parts, ∃ fragment, part = .token fragment) :
    textOf R.kind R.tables (fragments parts) = R.textOf parts := by
  induction parts with
  | nil => rfl
  | cons part parts ih =>
    obtain ⟨fragment, rfl⟩ := h part (by simp)
    have hrest := ih fun part hpart => h part (by simp [hpart])
    have hcons : fragments (.token fragment :: parts) = fragment :: fragments parts := rfl
    rw [hcons, textOf_cons, hrest]
    rfl

theorem renderBase_tokens (source : QuerySource) :
    ∀ part ∈ source.renderBase, ∃ fragment, part = .token fragment := by
  intro part hpart
  simp only [QuerySource.renderBase, QuerySource.declaration, List.mem_cons, List.not_mem_nil,
    or_false] at hpart
  rcases hpart with rfl | rfl | rfl <;> exact ⟨_, rfl⟩

theorem joined_eq_intercalate (separator : Text) (texts : List Text) :
    joined separator texts = separator.intercalate texts := by
  induction texts with
  | nil => rfl
  | cons text texts ih =>
    cases texts with
    | nil => simp [joined, List.intercalate]
    | cons next rest => rw [joined, ih, List.intercalate_cons_cons, List.append_assoc]; simp

/-- The columns of a table. -/
theorem conditions_columns (kind : Kind) (columns : List Ident) :
    List.Forall₂ (Condition kind) (columns.map fun column => quoted column.name)
      (columns.map fun column => Tree.column [column.name]) := by
  induction columns with
  | nil => exact .nil
  | cons column columns ih =>
    exact .cons (Operand.condition ⟨_, lexes_ident kind column, atom_quoted _⟩) ih

/-- What stands around a branch. -/
theorem branch_wrap (kind : Kind) : ∃ o c, Const.setopBranchOpen.text kind = some o ∧
    Const.setopBranchClose.text kind = some c ∧ ∀ (shown : Text) (t : Tree),
      SelectText kind ("SELECT ".toList ++ shown) t →
        QueryText kind (o.toList ++ (shown ++ c.toList)) t := by
  cases kind with
  | pg => exact ⟨_, _, rfl, rfl, fun shown t h => by simpa using h.group⟩
  | sqlite => exact ⟨_, _, rfl, rfl, fun shown t h => by simpa using h.queryText⟩

theorem filterBranch_isPrefix {branch : SelectBranch} {filter : Option (List Fragment)}
    {captures captures' : List Ident}
    (h : filterBranch context branch captures = .ok (filter, captures')) :
    captures <+: captures' := by
  obtain ⟨scope, -, h⟩ := bind_eq_ok.mp h
  split at h
  · obtain ⟨-, rfl⟩ : none = filter ∧ captures = captures' := by simpa using h
    exact List.prefix_rfl
  · obtain ⟨parts, -, h⟩ := bind_eq_ok.mp h
    obtain ⟨-, rfl⟩ : _ = filter ∧ _ = captures' := by simpa using h
    exact captures_isPrefix _ _ _ _ _

/-- A branch shows as one query. -/
theorem shows_branch {branch : SelectBranch} {filter : Option (List Fragment)}
    {captures captures' : List Ident}
    (h : filterBranch context branch captures = .ok (filter, captures'))
    (hfinal : captures' <+: final) :
    ∃ shown t, textOf context.dialect tables (branchFragments branch filter) = some shown ∧
      branch.tree (context.reading tables final) = some t ∧ QueryText context.dialect shown t := by
  obtain ⟨scope, hscope, h⟩ := bind_eq_ok.mp h
  obtain ⟨o, c, ho, hc, hwrap⟩ := branch_wrap context.dialect
  obtain ⟨relation, hbase, hrelation, hne⟩ :=
    shows_base (context.reading tables final) branch.source
  rw [← textOf_fragments _ (renderBase_tokens branch.source)] at hbase
  have hfrom : Const.fromKw.text context.dialect = some " FROM " := by
    cases context.dialect <;> rfl
  have hclose : textOf context.dialect tables [.kw .setopBranchClose] = some c.toList := by
    rw [textOf_kw hc textOf_nil, List.append_nil]
  have hcolumns : ∀ {rest : List Fragment} {shown : Text},
      textOf context.dialect tables rest = some shown →
      textOf context.dialect tables (.columns branch.source.primaryPath :: rest) =
        some (tables.selectCols branch.source.primaryPath ++ shown) := by
    intro rest shown hrest
    rw [textOf_cons, Fragment.render, Option.bind_some, hrest, Option.map_some]
  have hitems := conditions_columns context.dialect (tables.columns branch.source.primaryPath)
  have hitems_ne : (tables.columns branch.source.primaryPath).map
      (fun column => quoted column.name) ≠ [] := by
    simpa using tables.columns_ne branch.source.primaryPath
  have hcomma : (lexer context.dialect).Closed ",".toList [.comma] := by
    cases context.dialect <;> decide
  have hkeyword : keyword (folded (branch.source.qualifier 0)) = none := by
    rw [branch.source.folded_qualifier]
    exact branch.source.keyword_qualifier 0
  rw [SelectBranch.tree]
  split at h
  · rename_i htrue
    obtain ⟨rfl, rfl⟩ : none = filter ∧ captures = captures' := by simpa using h
    have hselect := selectText_plain hitems hitems_ne (delimited_comma []) hcomma hrelation
      (branch.source.qualifier_isWord 0) hne hkeyword
    rw [branch.source.folded_qualifier, ← joined_eq_intercalate] at hselect
    rw [if_pos htrue]
    refine ⟨_, _, textOf_kw ho (hcolumns (textOf_kw hfrom (textOf_append hbase hclose))), rfl, ?_⟩
    simpa [Tables.selectCols] using hwrap _ _ hselect
  · rename_i htrue
    obtain ⟨parts, hbuild, h⟩ := bind_eq_ok.mp h
    obtain ⟨rfl, rfl⟩ : _ = filter ∧ _ = captures' := by simpa using h
    obtain rfl := forSource_eq hscope
    obtain ⟨added, hadded, shown, t, hshown, hpredicate, hcondition⟩ :=
      (faithful (context.reading tables final) branch.predicate).build
        (declared_forBindings _ _) (context.agrees tables final) hbuild
    obtain rfl : parts = added := by simpa using hadded
    rw [← textOf_render hfinal] at hshown
    have hselect := selectText_where hitems hitems_ne (delimited_comma []) hcomma hrelation
      (branch.source.qualifier_isWord 0) hne hkeyword hcondition
    rw [branch.source.folded_qualifier, ← joined_eq_intercalate] at hselect
    have hwhere : Const.whereKw.text context.dialect = some " WHERE " := by
      cases context.dialect <;> rfl
    rw [if_neg htrue, hpredicate]
    refine ⟨_, _, textOf_kw ho (hcolumns (textOf_kw hfrom (textOf_append hbase
      (textOf_append (textOf_kw hwhere hshown) hclose)))), rfl, ?_⟩
    simpa [Tables.selectCols, QuerySource.query] using hwrap _ _ hselect

/-! ## Chains as text -/

variable {groups index : ℕ} {captures captures' : List Ident} {shown : List Fragment}

/-- The operations of a chain, for the planner. -/
abbrev operations (links : List (SetOpKind × SelectBranch)) :
    List (Option SetOpKind × SelectBranch) :=
  links.map fun link => (some link.1, link.2)

theorem buildBranches_isPrefix {branches : List (Option SetOpKind × SelectBranch)}
    (h : buildBranches context groups index branches captures = .ok (shown, captures')) :
    captures <+: captures' := by
  induction branches generalizing index captures shown with
  | nil =>
    obtain ⟨-, rfl⟩ : [] = shown ∧ captures = captures' := by simpa [buildBranches] using h
    exact List.prefix_rfl
  | cons branch branches ih =>
    rw [buildBranches] at h
    obtain ⟨⟨filter, captures₁⟩, hfilter, h⟩ := bind_eq_ok.mp h
    obtain ⟨⟨later, captures₂⟩, hlater, h⟩ := bind_eq_ok.mp h
    obtain ⟨-, rfl⟩ : _ = shown ∧ captures₂ = captures' := by simpa using h
    exact (filterBranch_isPrefix hfilter).trans (ih hlater)

/-- What one operation adds to a chain. -/
theorem shows_link {link : SetOpKind × SelectBranch} {links : List (SetOpKind × SelectBranch)}
    (h : buildBranches context groups index (operations (link :: links)) captures =
      .ok (shown, captures')) (hfinal : captures' <+: final) {s : String}
    (hs : link.1.sqlRef.text context.dialect = some s) :
    ∃ branch t later captures₁,
      link.2.tree (context.reading tables final) = some t ∧ QueryText context.dialect branch t ∧
      buildBranches context groups (index + 1) (operations links) captures₁ =
        .ok (later, captures') ∧
      ∀ rest, textOf context.dialect tables later = some rest →
        textOf context.dialect tables shown = some (s.toList ++ (branch ++
          ((if 0 < index ∧ index ≤ groups then ")".toList else []) ++ rest))) := by
  rw [operations, List.map_cons, buildBranches] at h
  obtain ⟨⟨filter, captures₁⟩, hfilter, h⟩ := bind_eq_ok.mp h
  obtain ⟨⟨later, captures₂⟩, hlater, h⟩ := bind_eq_ok.mp h
  obtain ⟨rfl, rfl⟩ : _ = shown ∧ captures₂ = captures' := by simpa using h
  obtain ⟨branch, t, hbranch, htree, hquery⟩ :=
    shows_branch hfilter ((buildBranches_isPrefix hlater).trans hfinal)
  refine ⟨branch, t, later, captures₁, htree, hquery, hlater, fun rest hrest => ?_⟩
  have hclose : Const.parenClose.text context.dialect = some ")" := by
    cases context.dialect <;> rfl
  refine textOf_kw hs (textOf_append hbranch (textOf_append ?_ hrest))
  split
  · exact textOf_kw hclose textOf_nil
  · rfl

theorem shows_links_pg (hkind : context.dialect = .pg)
    {links : List (SetOpKind × SelectBranch)} (hne : links ≠ [])
    (hindex : 0 < index) (hcount : index + links.length = groups + 2)
    (h : buildBranches context groups index (operations links) captures = .ok (shown, captures'))
    (hfinal : captures' <+: final) {acc : Text} {l : Tree} (hl : QueryText context.dialect acc l)
    (hops : ∀ link ∈ links, ∃ s, link.1.sqlRef.text context.dialect = some s) :
    ∃ rest t, textOf context.dialect tables shown = some rest ∧
      SetQuery.tree (context.reading tables final) l links = some t ∧
      SequelText context.dialect Token.concludes
        (List.replicate (links.length - 1) '(' ++ (acc ++ rest)) t := by
  induction links generalizing index captures shown acc l with
  | nil => exact absurd rfl hne
  | cons link links ih =>
    obtain ⟨s, hs⟩ := hops link (by simp)
    obtain ⟨branch, r, later, captures₁, htree, hbranch, hlater, htext⟩ := shows_link h hfinal hs
    have hcombine := hl.combine hs hbranch
    rw [List.length_cons] at hcount
    by_cases hnil : links = []
    · subst hnil
      obtain ⟨rfl, -⟩ : [] = later ∧ captures₁ = captures' := by
        simpa [buildBranches] using hlater
      have hshown := htext [] rfl
      rw [if_neg (by simp at hcount; omega)] at hshown
      refine ⟨_, _, hshown, by rw [SetQuery.tree, htree]; rfl, ?_⟩
      simpa using hcombine
    · have hlength : 0 < links.length := List.length_pos_iff.mpr hnil
      rw [hkind] at hcombine
      have hgroup := hcombine.group
      rw [← hkind] at hgroup
      obtain ⟨rest, t, hrest, ht, hsequel⟩ := ih hnil (Nat.succ_pos index) (by omega) hlater
        hgroup fun link hlink => hops link (by simp [hlink])
      have hshown := htext rest hrest
      rw [if_pos ⟨hindex, by omega⟩] at hshown
      refine ⟨_, t, hshown, by rw [SetQuery.tree, htree]; exact ht, ?_⟩
      have hopen : List.replicate (List.length (link :: links) - 1) '(' =
          List.replicate (links.length - 1) '(' ++ "(".toList := by
        have hsucc : List.length (link :: links) - 1 = (links.length - 1) + 1 := by
          rw [List.length_cons]
          omega
        rw [hsucc, List.replicate_succ']
        rfl
      rw [hopen]
      simpa using hsequel

theorem shows_links_sqlite (hkind : context.dialect = .sqlite)
    {links : List (SetOpKind × SelectBranch)}
    (h : buildBranches context 0 index (operations links) captures = .ok (shown, captures'))
    (hfinal : captures' <+: final) {acc : Text} {l : Tree}
    (hl : SequelText context.dialect Token.follows acc l)
    (hops : ∀ link ∈ links, ∃ s, link.1.sqlRef.text context.dialect = some s) :
    ∃ rest t, textOf context.dialect tables shown = some rest ∧
      SetQuery.tree (context.reading tables final) l links = some t ∧
      SequelText context.dialect Token.follows (acc ++ rest) t := by
  induction links generalizing index captures shown acc l with
  | nil =>
    obtain ⟨rfl, -⟩ : [] = shown ∧ captures = captures' := by simpa [buildBranches] using h
    exact ⟨[], l, rfl, rfl, by simpa using hl⟩
  | cons link links ih =>
    obtain ⟨s, hs⟩ := hops link (by simp)
    obtain ⟨branch, r, later, captures₁, htree, hbranch, hlater, htext⟩ := shows_link h hfinal hs
    rw [hkind] at hl hs hbranch
    have hcombine := hl.combine_sqlite hs hbranch
    rw [← hkind] at hcombine
    obtain ⟨rest, t, hrest, ht, hsequel⟩ :=
      ih hlater hcombine fun link hlink => hops link (by simp [hlink])
    have hshown := htext rest hrest
    rw [if_neg (by omega)] at hshown
    refine ⟨_, t, hshown, by rw [SetQuery.tree, htree]; exact ht, ?_⟩
    simpa using hsequel

theorem textOf_opens (kind : Kind) (tables : Tables) (count : ℕ) :
    textOf kind tables (List.replicate count (.kw .parenOpen)) =
      some (List.replicate count '(') := by
  have hopen : Const.parenOpen.text kind = some "(" := by cases kind <;> rfl
  induction count with
  | zero => rfl
  | succ count ih => rw [List.replicate_succ, textOf_kw hopen ih, List.replicate_succ]; rfl

variable (tables) in
/-- The branches of a chain, with the parentheses before them. -/
theorem shows_chain {set : SetQuery}
    (h : buildBranches context (context.dialect.groups set.links.length) 0
      ((none, set.head) :: operations set.links) captures = .ok (shown, captures'))
    (hfinal : captures' <+: final)
    (hops : ∀ link ∈ set.links, ∃ s, link.1.sqlRef.text context.dialect = some s) :
    ∃ text t q, textOf context.dialect tables
        (List.replicate (context.dialect.groups set.links.length) (.kw .parenOpen) ++ shown) =
          some text ∧
      set.head.tree (context.reading tables final) = some t ∧
      SetQuery.tree (context.reading tables final) t set.links = some q ∧
      SequelText context.dialect Token.concludes text q := by
  rw [buildBranches] at h
  obtain ⟨⟨filter, captures₁⟩, hfilter, h⟩ := bind_eq_ok.mp h
  obtain ⟨⟨later, captures₂⟩, hlater, h⟩ := bind_eq_ok.mp h
  obtain ⟨rfl, rfl⟩ : _ = shown ∧ captures₂ = captures' := by simpa using h
  obtain ⟨branch, t, hbranch, htree, hquery⟩ :=
    shows_branch hfilter ((buildBranches_isPrefix hlater).trans hfinal)
  have hopens := textOf_opens context.dialect tables (context.dialect.groups set.links.length)
  have hall : ∀ rest, textOf context.dialect tables later = some rest →
      textOf context.dialect tables
        (List.replicate (context.dialect.groups set.links.length) (.kw .parenOpen) ++
          ([] ++ (branchFragments set.head filter ++ ([] ++ later)))) =
        some (List.replicate (context.dialect.groups set.links.length) '(' ++
          (branch ++ rest)) := fun rest hrest => by
    simpa using textOf_append hopens (textOf_append hbranch hrest)
  by_cases hnil : set.links = []
  · rw [hnil] at hlater hall ⊢
    obtain ⟨rfl, -⟩ : [] = later ∧ captures₁ = captures₂ := by simpa [buildBranches] using hlater
    have hzero : context.dialect.groups (List.length ([] : List (SetOpKind × SelectBranch))) = 0 := by
      cases context.dialect <;> rfl
    refine ⟨_, t, t, hall [] rfl, htree, rfl, ?_⟩
    rw [hzero]
    simpa using hquery.sequel.concludes
  · have hlength : 0 < set.links.length := List.length_pos_iff.mpr hnil
    cases hkind : context.dialect with
    | pg =>
      have hgroups : context.dialect.groups set.links.length = set.links.length - 1 := by
        rw [hkind]
        rfl
      obtain ⟨rest, q, hrest, hq, hsequel⟩ := shows_links_pg hkind hnil Nat.one_pos
        (by rw [hgroups]; omega) hlater hfinal hquery hops
      refine ⟨_, t, q, by rw [← hkind]; exact hall rest hrest, htree, hq, ?_⟩
      rw [← hkind, hgroups]
      exact hsequel
    | sqlite =>
      have hgroups : context.dialect.groups set.links.length = 0 := by
        rw [hkind]
        rfl
      rw [hgroups] at hlater hall
      obtain ⟨rest, q, hrest, hq, hsequel⟩ :=
        shows_links_sqlite hkind hlater hfinal hquery.sequel hops
      refine ⟨_, t, q, by rw [← hkind, hgroups]; exact hall rest hrest, htree, hq, ?_⟩
      rw [← hkind]
      simpa using hsequel.concludes

/-! ## The clauses behind a chain -/

/-- A text that is empty or begins with a delimiter. -/
def Follow (kind : Kind) (text : Text) (tokens : List Token) : Prop :=
  text = [] ∧ tokens = [] ∨ (lexer kind).Delimited text ∧ (lexer kind).Lexes text tokens

theorem Follow.after {text more : Text} (h : (lexer kind).Lexes text tokens)
    (hm : Follow kind more others) : (lexer kind).Lexes (text ++ more) (tokens ++ others) := by
  rcases hm with ⟨rfl, rfl⟩ | ⟨hd, hm⟩
  · simpa using h
  · exact h.append hd hm

theorem Follow.append {text more : Text} (h : Follow kind text tokens)
    (hm : Follow kind more others) : Follow kind (text ++ more) (tokens ++ others) := by
  rcases h with ⟨rfl, rfl⟩ | ⟨hd, hl⟩
  · simpa using hm
  · exact Or.inr ⟨hd.append, hm.after hl⟩

theorem Tail.append (h : Tail tokens) (hm : Tail others) : Tail (tokens ++ others) := by
  rcases h with rfl | ⟨word, rest, rfl, hword, hrest⟩
  · exact hm
  · refine Or.inr ⟨word, rest ++ others, rfl, hword, ?_⟩
    rcases hm with rfl | ⟨word', rest', rfl, hword', hrest'⟩ <;> simp_all

/-- Clauses as text. -/
def Clauses (kind : Kind) (tables : Tables) (shown : List Fragment) : Prop :=
  ∃ text tokens, textOf kind tables shown = some text ∧ Follow kind text tokens ∧ Tail tokens

theorem Clauses.append {more : List Fragment} (h : Clauses kind tables shown)
    (hm : Clauses kind tables more) : Clauses kind tables (shown ++ more) := by
  obtain ⟨text, tokens, htext, hfollow, htail⟩ := h
  obtain ⟨text', tokens', htext', hfollow', htail'⟩ := hm
  exact ⟨_, _, textOf_append htext htext', hfollow.append hfollow', htail.append htail'⟩

theorem Clauses.nil : Clauses kind tables [] :=
  ⟨[], [], rfl, Or.inl ⟨rfl, rfl⟩, Or.inl rfl⟩

/-- A keyword with what it takes. -/
theorem clauses_word {name : Const} {s : String} {words : Text} {rest : List Token}
    {fragment : Fragment} {text : Text} (hs : name.text kind = some s)
    (hblank : ∃ rest, s.toList = ' ' :: rest) (hc : (lexer kind).Closed s.toList [.word words])
    (hword : (Token.word words).concludes = true)
    (hfragment : fragment.render kind tables = some text) (hl : (lexer kind).Lexes text rest)
    (hrest : Token.semicolon ∉ rest) : Clauses kind tables [.kw name, fragment] := by
  obtain ⟨blank, hblank⟩ := hblank
  refine ⟨s.toList ++ text, .word words :: rest, ?_, Or.inr ⟨?_, hc.append_lexes hl⟩,
    Or.inr ⟨words, rest, rfl, hword, hrest⟩⟩
  · refine textOf_kw hs ?_
    rw [textOf_cons, hfragment, Option.bind_some, textOf_nil, Option.map_some, List.append_nil]
  · rw [hblank]
    exact delimited_blank _

/-- A bound reads as one number or parameter. -/
theorem lexes_bound (context : WhereContext) (tables : Tables) (captures : List Ident)
    (bound : Bound) : ∃ text rest,
      (bound.render context captures).1.render context.dialect tables = some text ∧
        (lexer context.dialect).Lexes text rest ∧ Token.semicolon ∉ rest := by
  cases bound with
  | literal value =>
    have hnumber : IsNumber (decimal value) :=
      LitInt.isNumber ⟨decimal value, decimal_ne_nil value, fun c => isDigit_of_mem_decimal⟩
    exact ⟨_, _, rfl, hnumber.lexes _, by simp⟩
  | param ident =>
    obtain ⟨rest, hl, hrest⟩ := lexes_placeholder context.dialect context.fnParams
      context.paramTys (intern captures ident).1 (intern captures ident).2
    exact ⟨_, rest, rfl, hl, hrest⟩

theorem clauses_limit (context : WhereContext) (tables : Tables) (captures : List Ident)
    (limit : Limit) (offset : Option Bound) :
    Clauses context.dialect tables (limit.render context captures offset).1 := by
  have hlimit : Const.limitKw.text context.dialect = some " LIMIT " := by
    cases context.dialect <;> rfl
  have hclosed : (lexer context.dialect).Closed " LIMIT ".toList [.word "limit".toList] := by
    cases context.dialect <;> decide
  cases limit with
  | none =>
    rw [Limit.render]
    split
    · have hminus : (lexer context.dialect).Lexes "-1".toList
          [.symbol "-".toList, .number "1".toList] :=
        ⟨[.symbol "-".toList], .number "1".toList .whole, [.number "1".toList],
          by cases context.dialect <;> decide, rfl, rfl⟩
      exact clauses_word hlimit ⟨_, rfl⟩ hclosed (by decide) rfl hminus (by simp)
    · exact Clauses.nil
  | one =>
    have hone : IsNumber "1".toList := ⟨'1', [], .whole, rfl, by decide, rfl, rfl⟩
    have hrender : (Fragment.kw .limitOne).render context.dialect tables = some "1".toList := by
      cases context.dialect <;> rfl
    exact clauses_word hlimit ⟨_, rfl⟩ hclosed (by decide) hrender (hone.lexes _) (by simp)
  | value bound =>
    obtain ⟨text, rest, htext, hl, hrest⟩ := lexes_bound context tables captures bound
    exact clauses_word hlimit ⟨_, rfl⟩ hclosed (by decide) htext hl hrest

theorem clauses_offset (context : WhereContext) (tables : Tables) (captures : List Ident)
    (offset : Option Bound) :
    Clauses context.dialect tables (offsetRender context captures offset).1 := by
  have hoffset : Const.offsetKw.text context.dialect = some " OFFSET " := by
    cases context.dialect <;> rfl
  have hclosed : (lexer context.dialect).Closed " OFFSET ".toList [.word "offset".toList] := by
    cases context.dialect <;> decide
  cases offset with
  | none => exact Clauses.nil
  | some bound =>
    obtain ⟨text, rest, htext, hl, hrest⟩ := lexes_bound context tables captures bound
    exact clauses_word hoffset ⟨_, rfl⟩ hclosed (by decide) htext hl hrest

theorem bound_isPrefix (context : WhereContext) (captures : List Ident) (bound : Bound) :
    captures <+: (bound.render context captures).2 := by
  cases bound with
  | literal value => exact List.prefix_rfl
  | param ident => exact (intern_spec captures ident).2

theorem limit_isPrefix (context : WhereContext) (captures : List Ident) (limit : Limit)
    (offset : Option Bound) : captures <+: (limit.render context captures offset).2 := by
  cases limit with
  | none =>
    rw [Limit.render]
    split <;> exact List.prefix_rfl
  | one => exact List.prefix_rfl
  | value bound => exact bound_isPrefix context captures bound

theorem offset_isPrefix (context : WhereContext) (captures : List Ident) (offset : Option Bound) :
    captures <+: (offsetRender context captures offset).2 := by
  cases offset with
  | none => exact List.prefix_rfl
  | some bound => exact bound_isPrefix context captures bound

/-- The result of a set operation is ordered by one of its columns. -/
theorem shows_order {clause : OrderClause} {column : SqlColRef} (h : clause.column = .ok column) :
    ∃ ident : Ident, column = .bare ident.name := by
  obtain ⟨closure, desc⟩ := clause
  rw [OrderClause.column.eq_def] at h
  dsimp only at h
  split at h
  swap
  · exact absurd h (by simp)
  split at h
  swap
  · exact absurd h (by simp)
  obtain ⟨arg, -, h⟩ := bind_eq_ok.mp h
  split at h
  swap
  · exact absurd h (by simp)
  rename_i found hfound
  obtain rfl : found = column := by simpa using h
  obtain ⟨ident, hbare | ⟨var, hvar, table, htable, -⟩⟩ := localRef_cases hfound
  · exact ⟨ident, hbare⟩
  · obtain rfl : var = ⟨arg, none⟩ := by simpa [RowScope.single] using hvar
    exact absurd htable (by simp)

/-- A column with its direction, before what follows. -/
theorem lexes_key {ident : Ident} (desc : Bool) {more : Text} (hm : Follow kind more others) :
    (lexer kind).Lexes (quoted ident.name ++ ((if desc then " DESC".toList else []) ++ more))
      (.quoted ident.name :: ((if desc then [.word "desc".toList] else []) ++ others)) := by
  have hname := lexes_ident kind ident
  cases desc with
  | false => exact hm.after hname
  | true =>
    have hdesc : (lexer kind).Lexes " DESC".toList [.word "desc".toList] :=
      ⟨[], .word "desc".toList, [.word "desc".toList], by cases kind <;> decide, rfl, rfl⟩
    exact hname.append (delimited_blank _) (hm.after hdesc)

theorem textOf_key {clause : OrderClause} {ident : Ident} {later : List Fragment} {more : Text}
    (hm : textOf kind tables later = some more) :
    textOf kind tables (fragments (SqlColRef.intoParts (.bare ident.name)) ++
        ((if clause.desc then [.kw .desc] else []) ++ later)) =
      some (quoted ident.name ++ ((if clause.desc then " DESC".toList else []) ++ more)) := by
  have hdesc : Const.desc.text kind = some " DESC" := by cases kind <;> rfl
  have hname : textOf kind tables (fragments (SqlColRef.intoParts (.bare ident.name))) =
      some (quoted ident.name) := by
    simp [fragments, SqlColRef.intoParts, Sql.text, textOf_cons, Fragment.render, textOf_nil]
  refine textOf_append hname (textOf_append ?_ hm)
  split
  · exact textOf_kw hdesc textOf_nil
  · rfl

theorem follow_order {clauses : List OrderClause} (h : buildOrder (index + 1) clauses = .ok shown) :
    ∃ text tokens, textOf kind tables shown = some text ∧ Follow kind text tokens ∧
      Token.semicolon ∉ tokens := by
  induction clauses generalizing index shown with
  | nil =>
    obtain rfl : [] = shown := by simpa [buildOrder] using h
    exact ⟨[], [], rfl, Or.inl ⟨rfl, rfl⟩, by simp⟩
  | cons clause clauses ih =>
    rw [buildOrder] at h
    obtain ⟨column, hcolumn, h⟩ := bind_eq_ok.mp h
    obtain ⟨later, hlater, h⟩ := bind_eq_ok.mp h
    obtain rfl : _ = shown := by simpa using h
    obtain ⟨ident, rfl⟩ := shows_order hcolumn
    obtain ⟨more, others, hmore, hfollow, hrest⟩ := ih hlater
    have hcomma : Const.comma.text kind = some ", " := by cases kind <;> rfl
    refine ⟨_, _, textOf_kw hcomma (textOf_key hmore),
      Or.inr ⟨delimited_comma _, closed_comma.append_lexes (lexes_key clause.desc hfollow)⟩, ?_⟩
    cases clause.desc <;> simp [hrest]

theorem clauses_order {clauses : List OrderClause} (h : buildOrder 0 clauses = .ok shown) :
    Clauses kind tables shown := by
  cases clauses with
  | nil =>
    obtain rfl : [] = shown := by simpa [buildOrder] using h
    exact Clauses.nil
  | cons clause clauses =>
    rw [buildOrder] at h
    obtain ⟨column, hcolumn, h⟩ := bind_eq_ok.mp h
    obtain ⟨later, hlater, h⟩ := bind_eq_ok.mp h
    obtain rfl : _ = shown := by simpa using h
    obtain ⟨ident, rfl⟩ := shows_order hcolumn
    obtain ⟨more, others, hmore, hfollow, hrest⟩ := follow_order hlater
    have horder : Const.orderByKw.text kind = some " ORDER BY " := by cases kind <;> rfl
    have hclosed : (lexer kind).Closed " ORDER BY ".toList
        [.word "order".toList, .word "by".toList] := by cases kind <;> decide
    refine ⟨_, _, textOf_kw horder (textOf_key hmore),
      Or.inr ⟨delimited_blank _, hclosed.append_lexes (lexes_key clause.desc hfollow)⟩,
      Or.inr ⟨"order".toList, _, rfl, by decide, ?_⟩⟩
    cases clause.desc <;> simp [hrest]

/-! ## The chain as it is written in Rust -/

section Mirror

variable {R : Reading} {e : Expr} {set : SetQuery}

/-- The tree of a chain whose operands are still Rust expressions. -/
def linksTree (R : Reading) (head : Tree) : List (SetOpKind × Expr) → Option Tree
  | [] => some head
  | (op, operand) :: rest =>
    (branchTree R operand).bind fun t => linksTree R (.binary (.set op.op op.all) head t) rest

theorem linksTree_append {links : List (SetOpKind × Expr)} {op : SetOpKind} {operand : Expr}
    (head : Tree) : linksTree R head (links ++ [(op, operand)]) =
      (linksTree R head links).bind fun l =>
        (branchTree R operand).map fun r => .binary (.set op.op op.all) l r := by
  induction links generalizing head with
  | nil =>
    simp only [List.nil_append, linksTree, Option.bind_some]
    cases branchTree R operand <;> rfl
  | cons link links ih =>
    obtain ⟨op', operand'⟩ := link
    simp only [List.cons_append, linksTree]
    cases branchTree R operand' with
    | none => rfl
    | some t =>
      simp only [Option.bind_some]
      exact ih _

/-- The loop over the calls of a chain keeps its tree. -/
theorem chainTree_links {links : List (SetOpKind × Expr)} {current : Expr}
    (h : setLinks e = .ok (links, current)) :
    chainTree R e = (branchTree R current).bind fun t => linksTree R t links := by
  induction e using setLinks.induct generalizing links current with
  | case1 attrs receiver method turbofish args hnone =>
    rw [setLinks, hnone] at h
    obtain ⟨rfl, rfl⟩ : [] = links ∧ _ = current := by simpa using h
    rw [chainTree, hnone]
    cases branchTree R (.methodCall attrs receiver method turbofish args) <;> rfl
  | case2 attrs receiver method turbofish op hop arg ih =>
    rw [setLinks, hop] at h
    obtain ⟨⟨links', current'⟩, hlinks, h⟩ := bind_eq_ok.mp h
    obtain ⟨rfl, rfl⟩ : links' ++ [(op, arg)] = links ∧ current' = current := by simpa using h
    rw [chainTree, hop]
    dsimp only
    rw [ih hlinks]
    cases branchTree R current' with
    | none => rfl
    | some t =>
      rw [Option.bind_some, Option.bind_some, linksTree_append]
      cases linksTree R t links' with
      | none => rfl
      | some l => cases branchTree R arg <;> rfl
  | case3 attrs receiver method turbofish args op hop hargs =>
    rw [setLinks, hop] at h
    dsimp only at h
    split at h
    · exact (hargs _ rfl).elim
    · exact absurd h (by simp)
  | case4 e hchain =>
    rw [setLinks] at h
    · obtain ⟨rfl, rfl⟩ : [] = links ∧ e = current := by simpa using h
      rw [chainTree]
      · cases branchTree R e <;> rfl
      · exact hchain
    · exact hchain

theorem branchTree_parse {branch : SelectBranch} (h : SelectBranch.parse e R.ctes = .ok branch) :
    branchTree R e = branch.tree R := by
  obtain ⟨⟨source, ids, pred⟩, hchain, h⟩ := bind_eq_ok.mp h
  obtain rfl : _ = branch := by simpa using h
  rw [branchTree, hchain]

/-- So do the operands of a chain. -/
theorem linksTree_mapM {links : List (SetOpKind × Expr)}
    {branches : List (SetOpKind × SelectBranch)}
    (h : (links.mapM fun link => do
      let branch ← SelectBranch.parse link.2 R.ctes
      .ok (link.1, branch)) = Except.ok branches) (t : Tree) :
    linksTree R t links = SetQuery.tree R t branches := by
  induction links generalizing branches t with
  | nil =>
    obtain rfl : [] = branches := Except.ok.inj h
    rfl
  | cons link links ih =>
    rw [List.mapM_cons] at h
    obtain ⟨linked, hlinked, h⟩ := bind_eq_ok.mp h
    obtain ⟨rest, hrest, h⟩ := bind_eq_ok.mp h
    obtain ⟨branch, hbranch, hlinked⟩ := bind_eq_ok.mp hlinked
    obtain rfl : (link.1, branch) = linked := by simpa using hlinked
    obtain rfl : (link.1, branch) :: rest = branches := Except.ok.inj h
    obtain ⟨op, operand⟩ := link
    rw [linksTree, SetQuery.tree, branchTree_parse hbranch]
    cases branch.tree R with
    | none => rfl
    | some r => exact ih hrest _

variable (R) in
/-- A parsed chain has the tree of its Rust expression. -/
theorem chainTree_parse (h : parseSet e R.ctes = .ok set) :
    chainTree R e = (set.head.tree R).bind fun t => SetQuery.tree R t set.links := by
  obtain ⟨⟨links, current⟩, hlinks, h⟩ := bind_eq_ok.mp h
  obtain ⟨head, hhead, h⟩ := bind_eq_ok.mp h
  obtain ⟨branches, hbranches, h⟩ := bind_eq_ok.mp h
  obtain rfl : _ = set := by simpa using h
  rw [chainTree_links hlinks, branchTree_parse hhead]
  simp only [linksTree_mapM hbranches]

end Mirror

/-! ## Texts that exist -/

theorem render_of_textOf {fragments : List Fragment} {text : Text}
    (h : textOf kind tables fragments = some text) :
    ∀ fragment ∈ fragments, ∃ t, fragment.render kind tables = some t := by
  induction fragments generalizing text with
  | nil => simp
  | cons fragment fragments ih =>
    rw [textOf_cons] at h
    simp only [Option.bind_eq_some_iff, Option.map_eq_some_iff] at h
    obtain ⟨t, ht, rest, hrest, -⟩ := h
    intro other hother
    rcases List.mem_cons.mp hother with rfl | hother
    · exact ⟨t, ht⟩
    · exact ih hrest other hother

/-- The operators of a chain stand in its text. -/
theorem operators_mem {branches : List (Option SetOpKind × SelectBranch)}
    (h : buildBranches context groups index branches captures = .ok (shown, captures'))
    {op : SetOpKind} {branch : SelectBranch} (hmem : (some op, branch) ∈ branches) :
    .kw op.sqlRef ∈ shown := by
  induction branches generalizing index captures shown with
  | nil => exact absurd hmem (by simp)
  | cons entry branches ih =>
    rw [buildBranches] at h
    obtain ⟨⟨filter, captures₁⟩, hfilter, h⟩ := bind_eq_ok.mp h
    obtain ⟨⟨later, captures₂⟩, hlater, h⟩ := bind_eq_ok.mp h
    obtain ⟨rfl, rfl⟩ : _ = shown ∧ captures₂ = captures' := by simpa using h
    rcases List.mem_cons.mp hmem with rfl | hmem
    · exact List.mem_append_left _ (by simp)
    · exact List.mem_append_right _ (List.mem_append_right _ (List.mem_append_right _
        (ih hlater hmem)))

theorem supported_of_kw {op : SetOpKind} {t : Text}
    (h : (Fragment.kw op.sqlRef).render kind tables = some t) :
    ∃ s, op.sqlRef.text kind = some s := by
  rw [Fragment.render, Option.map_eq_some_iff] at h
  obtain ⟨s, hs, -⟩ := h
  exact ⟨s, hs⟩

/-! ## Structure is kept -/

/-- What a chain is written from. -/
theorem buildSet_eq_ok {same : Path → Path → Bool} {set : SetQuery} {terminator : Terminator}
    {outer : Qualifiers}
    (h : buildSet same context set terminator outer captures = .ok (shown, captures')) :
    ∃ limit offset branches captures₁ order,
      buildBranches context (context.dialect.groups set.links.length) 0
        ((none, set.head) :: operations set.links) captures = .ok (branches, captures₁) ∧
      buildOrder 0 outer.orderBy = .ok order ∧
      shown = List.replicate (context.dialect.groups set.links.length) (.kw .parenOpen) ++
        (branches ++ (order ++ ((Limit.render context captures₁ offset limit).1 ++
          (offsetRender context (Limit.render context captures₁ offset limit).2 offset).1))) ∧
      captures' = (offsetRender context (Limit.render context captures₁ offset limit).2 offset).2 := by
  obtain ⟨-, -, h⟩ := bind_eq_ok.mp h
  obtain ⟨⟨limit, offset⟩, -, h⟩ := bind_eq_ok.mp h
  obtain ⟨⟨branches, captures₁⟩, hbranches, h⟩ := bind_eq_ok.mp h
  obtain ⟨order, horder, h⟩ := bind_eq_ok.mp h
  obtain ⟨hshown, hcaptures⟩ := Prod.mk.inj (Except.ok.inj h)
  exact ⟨limit, offset, branches, captures₁, order, hbranches, horder, hshown.symm, hcaptures.symm⟩

variable (tables) in
/-- What the fragments of a chain read as, when the dialect has its operators. -/
theorem shows_set {same : Path → Path → Bool} {e : Expr} {set : SetQuery}
    {terminator : Terminator} {outer : Qualifiers} (hset : parseSet e context.cteMap = .ok set)
    (h : buildSet same context set terminator outer captures = .ok (shown, captures'))
    (hops : ∀ link ∈ set.links, ∃ s, link.1.sqlRef.text context.dialect = some s) :
    ∃ text t tokens, textOf context.dialect tables shown = some text ∧
      chainTree (context.reading tables captures') e = some t ∧
        statement context.dialect text = some (t, tokens) := by
  obtain ⟨limit, offset, branches, captures₁, order, hbranches, horder, hshown, hcaptures⟩ :=
    buildSet_eq_ok h
  have hfinal : captures₁ <+: captures' := by
    rw [hcaptures]
    exact (limit_isPrefix _ _ _ _).trans (offset_isPrefix _ _ _)
  obtain ⟨chain, t, q, hchain, ht, hq, tokens, hlexes, hsequel⟩ :=
    shows_chain tables hbranches hfinal hops
  have hlimit := clauses_limit context tables captures₁ limit offset
  have hoffset := clauses_offset context tables (limit.render context captures₁ offset).2 offset
  obtain ⟨tail, more, htail, hfollow, hends⟩ :=
    Clauses.append (clauses_order horder) (hlimit.append hoffset)
  have htext := textOf_append hchain htail
  rw [List.append_assoc, ← hshown] at htext
  have htree : chainTree (context.reading tables captures') e = some q := by
    rw [chainTree_parse (context.reading tables captures') hset, ht]
    exact hq
  exact ⟨_, _, _, htext, htree, hsequel.statement hends (hfollow.after hlexes)⟩

/-- The operators of a chain are in its fragments. -/
theorem operators_shown {same : Path → Path → Bool} {set : SetQuery}
    {terminator : Terminator} {outer : Qualifiers}
    (h : buildSet same context set terminator outer captures = .ok (shown, captures')) :
    ∀ link ∈ set.links, .kw link.1.sqlRef ∈ shown := by
  intro link hlink
  obtain ⟨limit, offset, branches, captures₁, order, hbranches, -, hshown, -⟩ := buildSet_eq_ok h
  have hmem : (some link.1, link.2) ∈ (none, set.head) :: operations set.links :=
    List.mem_cons_of_mem _ (List.mem_map.mpr ⟨link, hlink, rfl⟩)
  rw [hshown]
  exact List.mem_append_right _ (List.mem_append_left _ (operators_mem hbranches hmem))

end Fragments

/-! ## A predicate over one row -/

section Sample

def sampleRow : Ident := ⟨false, ['u'], by simp, List.all_eq_true.mp (by decide)⟩

def sampleColumn : Ident := ⟨false, ['a'], by simp, List.all_eq_true.mp (by decide)⟩

/-- `u.a`. -/
def sampleField : Expr :=
  .field [] (.path [] false ⟨false, [(sampleRow, .none)]⟩) (.named sampleColumn)

/-- `u.a && (!u.a || true)`. -/
def samplePredicate : Expr :=
  .binary [] sampleField .and
    (.paren [] (.binary [] (.unary [] .not sampleField) .or (.lit [] (.bool true))))

def sampleScope : RowScope :=
  RowScope.forBindings (QuerySource.new ⟨false, [(sampleRow, .none)]⟩) [sampleRow]

def sampleContext : WhereContext := ⟨[], [], .pg, []⟩

def sampleTables : Tables where
  name _ := ⟨['t'], by simp [segments, split]⟩
  columns _ := [sampleColumn]
  columns_ne _ := by simp

theorem build_sample : build samplePredicate sampleScope false sampleContext =
    .ok [kw .parenOpen, text "q0_0".toList, text ".\"a\"".toList, kw .eq, kw .true,
      kw .andParenWrap, kw .parenOpen, text "q0_0".toList, text ".\"a\"".toList, kw .eq,
      kw .false, kw .orParenWrap, kw .true, kw .parenClose, kw .parenClose] := by
  have hunnest : sampleScope.unnestRef sampleField = none := rfl
  have hcolumn : sampleScope.columnRef sampleField =
      some (.qualified "q0_0".toList "a".toList) := rfl
  have hfield : ∀ sql, parseInto sampleScope sampleField none sampleContext sql =
      .ok (true, sql ++ [text "q0_0".toList, text ".\"a\"".toList]) := by
    intro sql
    rw [parseInto, writeExpr.eq_def, hunnest, hcolumn]
    rfl
  have hbare : ∀ sql, buildInto sampleField sampleScope false sampleContext sql =
      .ok (sql ++ [text "q0_0".toList, text ".\"a\"".toList, kw .eq, kw .true]) := by
    intro sql
    have hparse := hfield sql
    rw [sampleField] at hparse ⊢
    simp [buildInto, Input.new, hparse, bind, Except.bind]
  simp [build, samplePredicate, buildInto, Input.new, Op.new, hfield, hbare, bind, Except.bind]

end Sample

end Cartel.Sql
