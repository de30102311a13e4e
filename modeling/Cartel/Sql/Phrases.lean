import Cartel.Sql.Grammar

/-!
# Phrases

What the parser makes of the forms the macros write. An operand (`Atom`) is read on any
stack, whatever operators wait there. An expression (`Reads`) is read where a region
begins : behind `WHERE`, `HAVING` or `ON`, in parentheses, as an argument. A query
(`Query`) is read where a query is due. Each form of text is one of these when its parts
are.
-/

namespace Cartel.Sql

open Operators

variable {kind : Kind} {stack : Stack} {m : Mode} {t l r : Tree} {tokens others : List Token}

/-- One operand, on any stack. -/
def Atom (kind : Kind) (tokens : List Token) (t : Tree) : Prop :=
  ∀ stack, ∃ m, run kind ⟨stack, .operand⟩ tokens = some ⟨stack, m⟩ ∧ m.value? = some t

/-- One expression, where a region begins. -/
def Reads (kind : Kind) (tokens : List Token) (t : Tree) : Prop :=
  ∀ stack : Stack, Region stack → ∃ state, run kind ⟨stack, .operand⟩ tokens = some state ∧
    state.expression kind = some (stack, t)

/-- One expression behind operators of the level `k` and looser, which such operators find
complete. -/
def Binds (kind : Kind) (k : ℕ) (tokens : List Token) (t : Tree) : Prop :=
  ∀ stack : Stack, (operators kind).Below (k + 1) stack → ∃ state a,
    run kind ⟨stack, .operand⟩ tokens = some state ∧ state.mode.value? = some a ∧
      ∀ j ≤ k, (operators kind).settle j state.stack a = (operators kind).settle j stack t

/-! ## Steps -/

theorem run_append {state next : State} (h : run kind state tokens = some next)
    (others : List Token) : run kind state (tokens ++ others) = run kind next others := by
  simp only [run] at h ⊢
  rw [List.foldlM_append, h]
  rfl

theorem run_cons {state next : State} {token : Token} (h : step kind state token = some next)
    (tokens : List Token) : run kind state (token :: tokens) = run kind next tokens := by
  simp only [run, List.foldlM_cons, h]
  rfl

theorem run_nil (state : State) : run kind state [] = some state := rfl

theorem run_singleton {state next : State} {token : Token}
    (h : step kind state token = some next) : run kind state [token] = some next :=
  run_cons h []

/-- The token does not go on with a name. -/
def Token.apart : Token → Bool
  | .dot | .lparen => false
  | _ => true

/-- The token ends an expression. -/
def Token.ends : Token → Bool
  | .rparen | .comma | .semicolon => true
  | .word text =>
    match keyword text with
    | some .and | some .or | some .like | some .ilike | some .glob | some .not | some .is => false
    | _ => true
  | _ => false

theorem step_value {token : Token} (hm : m.value? = some t) (h : token.apart = true) :
    step kind ⟨stack, m⟩ token = valueStep kind stack t token := by
  cases m <;> simp only [Mode.value?, Option.some.injEq, reduceCtorEq] at hm
  · subst hm
    rfl
  · subst hm
    cases token <;> first | rfl | simp [Token.apart] at h

theorem Token.ends.apart {token : Token} (h : token.ends = true) : token.apart = true := by
  cases token <;> first | rfl | simp [Token.ends] at h

theorem valueStep_ends {token : Token} (h : token.ends = true) :
    valueStep kind stack t token = regionStep kind stack t token := by
  cases token with
  | word text =>
    simp only [Token.ends] at h
    simp only [valueStep]
    split <;> first | rfl | simp_all
  | _ => first | rfl | simp [Token.ends] at h

theorem regionStep_settled {waiting : Stack} {token : Token}
    (h : (operators kind).settle 0 waiting l = some (stack, t)) (hr : Region stack) :
    regionStep kind waiting l token = regionStep kind stack t token := by
  unfold regionStep
  rw [h, hr.settle]

/-- What ends an expression meets it settled. -/
theorem step_ends {state : State} {token : Token}
    (h : state.expression kind = some (stack, t)) (hr : Region stack) (he : token.ends = true) :
    step kind state token = regionStep kind stack t token := by
  obtain ⟨waiting, m⟩ := state
  simp only [State.expression, Option.bind_eq_some_iff] at h
  obtain ⟨l, hm, hsettle⟩ := h
  rw [step_value hm (Token.ends.apart he), valueStep_ends he, regionStep_settled hsettle hr]

/-! ## Operands -/

theorem Atom.binds (h : Atom kind tokens t) (k : ℕ) : Binds kind k tokens t := by
  intro stack _
  obtain ⟨m, hrun, hm⟩ := h stack
  exact ⟨⟨stack, m⟩, t, hrun, hm, fun _ _ => rfl⟩

theorem Binds.reads {k : ℕ} (h : Binds kind k tokens t) : Reads kind tokens t := by
  intro stack hr
  obtain ⟨state, a, hrun, hm, hs⟩ := h stack (hr.below _)
  exact ⟨state, hrun, by simp [State.expression, hm, hs 0 (Nat.zero_le _), hr.settle]⟩

theorem Atom.reads (h : Atom kind tokens t) : Reads kind tokens t := (h.binds 0).reads

theorem Reads.expression {text : Text} (hl : (lexer kind).Lexes text tokens)
    (h : Reads kind tokens t) : expression kind text = some t := by
  obtain ⟨state, hrun, hs⟩ := h [] Region.nil
  simp [Sql.expression, hl.scan, hrun, hs]

theorem atom_number (text : Text) : Atom kind [.number text] (.number text) :=
  fun _ => ⟨_, rfl, rfl⟩

theorem atom_string (text : Text) : Atom kind [.string text] (.string text) :=
  fun _ => ⟨_, rfl, rfl⟩

theorem atom_param (index : ℕ) : Atom kind [.param index] (.param index) :=
  fun _ => ⟨_, rfl, rfl⟩

theorem atom_true : Atom kind [.word "true".toList] (.truth true) := fun _ => ⟨_, rfl, rfl⟩

theorem atom_false : Atom kind [.word "false".toList] (.truth false) := fun _ => ⟨_, rfl, rfl⟩

theorem atom_quoted (name : Text) : Atom kind [.quoted name] (.column [name]) :=
  fun _ => ⟨_, rfl, rfl⟩

/-- A column of a relation. -/
theorem atom_column {relation column : Text} {token : Token} (hk : keyword relation = none)
    (hc : nameOf token = some column) :
    Atom kind [.word relation, .dot, token] (.column [relation, column]) := by
  intro stack
  have hname : step kind ⟨stack, .operand⟩ (.word relation) = some ⟨stack, .name [relation]⟩ := by
    simp [step, operandStep, hk]
  have hdot : step kind ⟨stack, .name [relation]⟩ .dot = some ⟨stack, .dotted [relation]⟩ := rfl
  have hcolumn : step kind ⟨stack, .dotted [relation]⟩ token =
      some ⟨stack, .name [relation, column]⟩ := by
    cases token <;> simp only [nameOf, reduceCtorEq, ite_eq_iff, Option.some.injEq] at hc
    · obtain ⟨hword, rfl⟩ | ⟨-, hnone⟩ := hc
      · simp [step, nameOf, hword]
      · exact absurd hnone (by simp)
    · subst hc
      rfl
  exact ⟨.name [relation, column],
    by rw [run_cons hname, run_cons hdot, run_cons hcolumn, run_nil], rfl⟩

theorem Atom.cast (h : Atom kind tokens t) (type : Text) :
    Atom kind (tokens ++ [.cast, .word type]) (.cast t type) := by
  intro stack
  obtain ⟨m, hrun, hm⟩ := h stack
  refine ⟨.value (.cast t type), ?_, rfl⟩
  have hcast : step kind ⟨stack, m⟩ .cast = some ⟨stack, .cast t⟩ := step_value hm rfl
  rw [run_append hrun, run_cons hcast]
  rfl

/-! ## Parentheses and calls -/

theorem Reads.paren (h : Reads kind tokens t) :
    Atom kind (.lparen :: (tokens ++ [.rparen])) t := by
  intro stack
  obtain ⟨state, hrun, hs⟩ := h (.mark .paren :: stack) (Region.mark _ _)
  have hopen : step kind ⟨stack, .operand⟩ .lparen = some ⟨.mark .paren :: stack, .operand⟩ := rfl
  have hclose : step kind state .rparen = _ := step_ends hs (Region.mark _ _) rfl
  refine ⟨.value t, ?_, rfl⟩
  rw [run_cons hopen, run_append hrun]
  exact run_singleton hclose

/-- Pieces with commas between them. -/
def commas : List (List Token) → List Token
  | [] => []
  | [tokens] => tokens
  | tokens :: rest => tokens ++ .comma :: commas rest

/-- The arguments of a call are read one after the other. -/
theorem run_args {name : Text} {pieces : List (List Token)} {args read : List Tree}
    (h : List.Forall₂ (Reads kind) pieces args) (hne : pieces ≠ []) (stack : Stack) :
    run kind ⟨.mark (.call name read) :: stack, .operand⟩ (commas pieces ++ [.rparen]) =
      some ⟨stack, .value (.call name (read ++ args))⟩ := by
  induction h generalizing read with
  | nil => exact absurd rfl hne
  | @cons tokens t pieces args hpiece hrest ih =>
    obtain ⟨state, hrun, hs⟩ := hpiece (.mark (.call name read) :: stack) (Region.mark _ _)
    cases hrest with
    | nil =>
      rw [commas, run_append hrun]
      exact run_singleton (step_ends hs (Region.mark _ _) rfl)
    | cons hnext hmore =>
      have hcomma : step kind state .comma =
          some ⟨.mark (.call name (read ++ [t])) :: stack, .operand⟩ :=
        step_ends hs (Region.mark _ _) rfl
      rw [commas, List.append_assoc, run_append hrun, List.cons_append, run_cons hcomma,
        ih (by simp)]
      · simp
      · simp

theorem atom_call {name : Text} {pieces : List (List Token)} {args : List Tree}
    (hk : keyword name = none) (h : List.Forall₂ (Reads kind) pieces args) (hne : pieces ≠ []) :
    Atom kind (.word name :: .lparen :: (commas pieces ++ [.rparen])) (.call name args) := by
  intro stack
  have hname : step kind ⟨stack, .operand⟩ (.word name) = some ⟨stack, .name [name]⟩ := by
    simp [step, operandStep, hk]
  have hopen : step kind ⟨stack, .name [name]⟩ .lparen =
      some ⟨.mark (.call name []) :: stack, .operand⟩ := rfl
  refine ⟨.value (.call name args), ?_, rfl⟩
  rw [run_cons hname, run_cons hopen, run_args h hne]
  rfl

theorem atom_count :
    Atom kind [.word "count".toList, .lparen, .symbol "*".toList, .rparen]
      (.call "count".toList [.star]) :=
  fun _ => ⟨_, rfl, rfl⟩

/-! ## Operators -/

/-- The tokens put the operator behind an operand, when looser operators wait. -/
def Operator (kind : Kind) (tokens : List Token) (op : Infix) : Prop :=
  ∀ (stack : Stack) (m : Mode) (l : Tree), m.value? = some l →
    (operators kind).Below (kind.level op) stack →
      run kind ⟨stack, m⟩ tokens = some ⟨.binary l op :: stack, .operand⟩

theorem push_below {op : Infix} (h : (operators kind).Below (kind.level op) stack) :
    push kind stack l op = some ⟨.binary l op :: stack, .operand⟩ := by
  simp [push, h.settle]

theorem Infix.level_pos (kind : Kind) (op : Infix) : 0 < kind.level op := by
  cases kind <;> cases op
  case pg.other symbol => simp only [Kind.level] ; split <;> simp
  case sqlite.other symbol => simp only [Kind.level] ; split <;> simp
  case pg.set op all => cases op <;> simp [Kind.level]
  all_goals simp [Kind.level]

theorem operator_symbol (kind : Kind) (symbol : Text) :
    Operator kind [.symbol symbol] (.ofSymbol symbol) := by
  intro stack m l hm hbelow
  refine run_singleton ?_
  rw [step_value hm rfl]
  exact push_below hbelow

/-- Symbols bind tighter than `NOT`. -/
theorem level_ofSymbol (kind : Kind) (symbol : Text) : 3 < kind.level (.ofSymbol symbol) := by
  have hother : 3 < kind.level (.other symbol) := by
    cases kind <;> simp only [Kind.level] <;> split <;> simp
  unfold Infix.ofSymbol
  repeat' split
  all_goals first | exact hother | (cases kind <;> simp [Kind.level])

/-- The words of an operator, with `NOT` before it. -/
theorem operator_word {text : Text} {op : Bool → Infix} (negated : Bool)
    (h : ∀ kind stack l, valueStep kind stack l (.word text) = push kind stack l (op false) ∧
      step kind ⟨stack, .negated l⟩ (.word text) = push kind stack l (op true)) :
    Operator kind (if negated then [.word "not".toList, .word text] else [.word text])
      (op negated) := by
  intro stack m l hm hbelow
  cases negated with
  | false =>
    refine run_singleton ?_
    rw [step_value hm rfl, (h kind stack l).1]
    exact push_below hbelow
  | true =>
    have hnot : step kind ⟨stack, m⟩ (.word "not".toList) = some ⟨stack, .negated l⟩ :=
      step_value hm rfl
    rw [if_pos rfl, run_cons hnot]
    refine run_singleton ?_
    rw [(h kind stack l).2]
    exact push_below hbelow

theorem Atom.binary {ops : List Token} {op : Infix} {k : ℕ} (hl : Atom kind tokens l)
    (ho : Operator kind ops op) (hk : k < kind.level op) (hr : Atom kind others r) :
    Binds kind k (tokens ++ (ops ++ others)) (.binary op l r) := by
  intro stack hbelow
  obtain ⟨m, hrun, hm⟩ := hl stack
  obtain ⟨n, hrun', hn⟩ := hr (.binary l op :: stack)
  refine ⟨⟨.binary l op :: stack, n⟩, r, ?_, hn, fun j hj => ?_⟩
  · rw [run_append hrun, run_append (ho stack m l hm (hbelow.mono hk)), hrun']
  · exact settle_binary (show j < kind.level op by omega) stack

/-- A test for `NULL`. -/
theorem Atom.test (h : Atom kind tokens l) (negated : Bool) :
    Binds kind 3 (tokens ++ .word "is".toList ::
        (if negated then [.word "not".toList, .word "null".toList] else [.word "null".toList]))
      (.binary (if negated then .isNot else .is) l .null) := by
  intro stack hbelow
  obtain ⟨m, hrun, hm⟩ := h stack
  have hlevel : kind.level .is = 4 := by cases kind <;> rfl
  have hsettle : (operators kind).settle (kind.level .is) stack l = some (stack, l) :=
    (hbelow.mono (Nat.le_of_eq hlevel.symm)).settle
  have his : step kind ⟨stack, m⟩ (.word "is".toList) = some ⟨stack, .test l false⟩ := by
    rw [step_value hm rfl]
    simp only [valueStep, show keyword "is".toList = some .is from by decide]
    rw [hsettle]
    rfl
  rw [run_append hrun, run_cons his]
  cases negated with
  | false =>
    cases kind with
    | pg => exact ⟨_, _, rfl, rfl, fun _ _ => rfl⟩
    | sqlite =>
      refine ⟨⟨.binary l .is :: stack, .value .null⟩, _, rfl, rfl, fun j hj => ?_⟩
      exact settle_binary (show j < 4 by omega) stack
  | true =>
    cases kind with
    | pg => exact ⟨_, _, rfl, rfl, fun _ _ => rfl⟩
    | sqlite =>
      refine ⟨⟨.binary l .isNot :: stack, .value .null⟩, _, rfl, rfl, fun j hj => ?_⟩
      exact settle_binary (show j < 4 by omega) stack

theorem Atom.not (h : Atom kind tokens t) :
    Binds kind 3 (.word "not".toList :: tokens) (.not t) := by
  intro stack _
  obtain ⟨m, hrun, hm⟩ := h (.unary () :: stack)
  refine ⟨⟨.unary () :: stack, m⟩, t, ?_, hm, fun j hj => settle_unary hj stack⟩
  have hnot : step kind ⟨stack, .operand⟩ (.word "not".toList) =
      some ⟨.unary () :: stack, .operand⟩ := rfl
  rw [run_cons hnot, hrun]

/-- The words of a quantifier. -/
def Quantifier.word : Quantifier → Text
  | .any => "any".toList
  | .all => "all".toList

/-- A comparison with the elements of an array. -/
theorem Atom.every {symbol : Text} (hl : Atom .pg tokens l) (quantifier : Quantifier)
    (hr : Reads .pg others r) :
    Binds .pg 3 (tokens ++ .symbol symbol :: .word quantifier.word :: .lparen ::
      (others ++ [.rparen])) (.every (.ofSymbol symbol) quantifier l r) := by
  intro stack hbelow
  obtain ⟨m, hrun, hm⟩ := hl stack
  have hsymbol := operator_symbol .pg symbol stack m l hm
    (hbelow.mono (level_ofSymbol .pg symbol))
  have hquantifier : step .pg ⟨.binary l (.ofSymbol symbol) :: stack, .operand⟩
      (.word quantifier.word) = some ⟨stack, .quantifier l (.ofSymbol symbol) quantifier⟩ := by
    cases quantifier <;> rfl
  have hopen : step .pg ⟨stack, .quantifier l (.ofSymbol symbol) quantifier⟩ .lparen =
      some ⟨.mark (.every l (.ofSymbol symbol) quantifier) :: stack, .operand⟩ := rfl
  obtain ⟨state, hrun', hs⟩ := hr (.mark (.every l (.ofSymbol symbol) quantifier) :: stack)
    (Region.mark _ _)
  refine ⟨⟨stack, .value (.every (.ofSymbol symbol) quantifier l r)⟩, _, ?_, rfl,
    fun _ _ => rfl⟩
  rw [run_append hrun, ← List.singleton_append, run_append hsymbol, run_cons hquantifier,
    run_cons hopen, run_append hrun']
  exact run_singleton (step_ends hs (Region.mark _ _) rfl)

/-! ## Predicates -/

/-- A word that goes on with an operator, behind what such an operator finds complete. -/
theorem Binds.run_word {k : ℕ} {op : Infix} {word : Text} (h : Binds kind k tokens t)
    (hbelow : (operators kind).Below (k + 1) stack) (hk : kind.level op ≤ k)
    (hword : ∀ stack t, valueStep kind stack t (.word word) = push kind stack t op) :
    run kind ⟨stack, .operand⟩ (tokens ++ [.word word]) = push kind stack t op := by
  obtain ⟨⟨waiting, m⟩, a, hrun, hm, hs⟩ := h stack hbelow
  have hsettle : (operators kind).settle (kind.level op) waiting a =
      (operators kind).settle (kind.level op) stack t := hs _ hk
  rw [run_append hrun]
  have hstep : step kind ⟨waiting, m⟩ (.word word) = push kind stack t op := by
    rw [step_value hm rfl, hword, push, hsettle, push]
  simp [run, hstep]

/-- The outermost form of a predicate. -/
inductive Joined (kind : Kind) : List Token → Tree → Prop
  | bound {tokens : List Token} {t : Tree} (h : Binds kind 3 tokens t)
      (hor : ∀ l r, t ≠ .binary .or l r) : Joined kind tokens t
  | both {tokens others : List Token} {l r : Tree} (hl : Binds kind 3 tokens l)
      (hr : Binds kind 3 others r) :
      Joined kind (tokens ++ .word "and".toList :: others) (.binary .and l r)
  | either {tokens others : List Token} {l r : Tree} (hl : Binds kind 3 tokens l)
      (hr : Binds kind 3 others r) :
      Joined kind (tokens ++ .word "or".toList :: others) (.binary .or l r)

theorem Binds.reads_word {op : Infix} {word : Text} (hl : Binds kind 3 tokens l)
    (hr : Binds kind 3 others r) (hk : kind.level op ≤ 3)
    (hword : ∀ stack t, valueStep kind stack t (.word word) = push kind stack t op) :
    Reads kind (tokens ++ .word word :: others) (.binary op l r) := by
  intro stack hregion
  have hpush := hl.run_word (hregion.below _) hk hword
  rw [push_below (hregion.below _)] at hpush
  have hbelow : (operators kind).Below 4 (.binary l op :: stack) :=
    Below.binary (show kind.level op < 4 by omega) stack
  obtain ⟨state, a, hrun, hm, hs⟩ := hr _ hbelow
  refine ⟨state, ?_, ?_⟩
  · rw [← List.singleton_append, ← List.append_assoc, run_append hpush, hrun]
  · simp only [State.expression, hm, Option.bind_some, hs 0 (Nat.zero_le _)]
    rw [settle_binary (Infix.level_pos kind op), hregion.settle]
    rfl

theorem Joined.reads (h : Joined kind tokens t) : Reads kind tokens t := by
  cases h with
  | bound h hor => exact h.reads
  | both hl hr => exact hl.reads_word hr (by cases kind <;> decide) fun _ _ => rfl
  | either hl hr => exact hl.reads_word hr (by cases kind <;> decide) fun _ _ => rfl

/-! ## Queries -/

/-- The token follows a complete query. -/
def Token.follows : Token → Bool
  | .rparen | .semicolon => true
  | .word text =>
    match keyword text with
    | some .union | some .intersect | some .except
    | some .order | some .limit | some .offset => true
    | _ => false
  | _ => false

/-- The query `q` is complete above `stack`. -/
def Complete (kind : Kind) (state : State) (stack : Stack) (q : Tree) : Prop :=
  ∀ token : Token, token.follows = true → step kind state token = resultStep kind stack q token

/-- One query, where a query is due. -/
def Query (kind : Kind) (tokens : List Token) (q : Tree) : Prop :=
  ∀ stack, ∃ state, run kind ⟨stack, .branch⟩ tokens = some state ∧ Complete kind state stack q

theorem Token.follows.ends {token : Token} (h : token.follows = true) : token.ends = true := by
  cases token with
  | word text =>
    simp only [Token.follows] at h
    simp only [Token.ends]
    split at h <;> simp_all
  | _ => first | rfl | simp [Token.follows] at h

theorem selectionStep_follows {s : Selection} {token : Token} (h : token.follows = true) :
    selectionStep kind stack s token = resultStep kind stack s.tree token := by
  cases token with
  | word text =>
    simp only [Token.follows] at h
    simp only [selectionStep]
    split <;> simp_all
  | _ => rfl

/-- The tokens of a path of quoted names. -/
theorem run_path {place : Place} {names more : List Text} (hne : more ≠ [])
    (stack : Stack) :
    run kind ⟨stack, .naming place (.dotted names)⟩ (pathTokens more) =
      some ⟨stack, .naming place (.path (names ++ more))⟩ := by
  induction more generalizing names with
  | nil => exact absurd rfl hne
  | cons name more ih =>
    have hname : step kind ⟨stack, .naming place (.dotted names)⟩ (.quoted name) =
        some ⟨stack, .naming place (.path (names ++ [name]))⟩ := rfl
    cases more with
    | nil => exact run_singleton hname
    | cons next rest =>
      have hdot : step kind ⟨stack, .naming place (.path (names ++ [name]))⟩ .dot =
          some ⟨stack, .naming place (.dotted (names ++ [name]))⟩ := rfl
      rw [pathTokens, run_cons hname, run_cons hdot, ih (by simp)]
      · simp
      · simp

theorem run_relation {place : Place} {names : List Text} {label : Text} (hne : names ≠ [])
    (hk : keyword label = none) (stack : Stack) :
    run kind ⟨stack, .naming place .due⟩
        (pathTokens names ++ [.word "as".toList, .word label]) =
      some ⟨stack, .naming place (.aliased names label)⟩ := by
  have hpath : run kind ⟨stack, .naming place .due⟩ (pathTokens names) =
      some ⟨stack, .naming place (.path names)⟩ := by
    obtain ⟨name, rest, rfl⟩ := List.exists_cons_of_ne_nil hne
    have hname : step kind ⟨stack, .naming place .due⟩ (.quoted name) =
        some ⟨stack, .naming place (.path [name])⟩ := rfl
    cases rest with
    | nil => exact run_singleton hname
    | cons next rest =>
      have hdot : step kind ⟨stack, .naming place (.path [name])⟩ .dot =
          some ⟨stack, .naming place (.dotted [name])⟩ := rfl
      rw [pathTokens, run_cons hname, run_cons hdot, run_path (by simp)]
      · rfl
      · simp
  have has : step kind ⟨stack, .naming place (.path names)⟩ (.word "as".toList) =
      some ⟨stack, .naming place (.aliasDue names)⟩ := rfl
  have hlabel : step kind ⟨stack, .naming place (.aliasDue names)⟩ (.word label) =
      some ⟨stack, .naming place (.aliased names label)⟩ := by
    simp [step, namingStep, nameOf, hk]
  rw [run_append hpath, run_cons has, run_cons hlabel, run_nil]

/-- The items of a `SELECT` are read up to `FROM`. -/
theorem run_items (read : List Tree) {pieces : List (List Token)} {items : List Tree}
    (h : List.Forall₂ (Reads kind) pieces items) (hne : pieces ≠ []) (stack : Stack) :
    run kind ⟨.mark (.items read) :: stack, .operand⟩
        (commas pieces ++ [.word "from".toList]) =
      some ⟨stack, .naming (.base (read ++ items)) .due⟩ := by
  induction h generalizing read with
  | nil => exact absurd rfl hne
  | @cons tokens t pieces items hpiece hrest ih =>
    obtain ⟨state, hrun, hs⟩ := hpiece (.mark (.items read) :: stack) (Region.mark _ _)
    cases hrest with
    | nil =>
      rw [commas, run_append hrun]
      exact run_singleton (step_ends hs (Region.mark _ _) rfl)
    | cons hnext hmore =>
      have hcomma : step kind state .comma =
          some ⟨.mark (.items (read ++ [t])) :: stack, .operand⟩ :=
        step_ends hs (Region.mark _ _) rfl
      rw [commas, List.append_assoc, run_append hrun, List.cons_append, run_cons hcomma,
        ih _ (by simp)]
      · simp
      · simp

/-- A `SELECT` from one relation. -/
def selectFrom (items : List Tree) (names : List Text) (label : Text)
    (condition : Option Tree) : Tree :=
  .select items ⟨names, some label⟩
    (condition.elim [] fun t => [(.condition, [t])])

section
variable {pieces : List (List Token)} {items : List Tree} {names : List Text} {label : Text}

theorem run_select (hitems : List.Forall₂ (Reads kind) pieces items) (hne : pieces ≠ [])
    (hnames : names ≠ []) (hk : keyword label = none) (stack : Stack) :
    run kind ⟨stack, .branch⟩ (.word "select".toList :: (commas pieces ++
        (.word "from".toList :: (pathTokens names ++ [.word "as".toList, .word label])))) =
      some ⟨stack, .naming (.base items) (.aliased names label)⟩ := by
  have hselect : step kind ⟨stack, .branch⟩ (.word "select".toList) =
      some ⟨.mark (.items []) :: stack, .operand⟩ := rfl
  have hfrom := run_items [] hitems hne stack
  rw [run_cons hselect, List.append_cons, run_append hfrom]
  exact run_relation hnames hk stack

/-- A query without conditions. -/
theorem query_plain (hitems : List.Forall₂ (Reads kind) pieces items) (hne : pieces ≠ [])
    (hnames : names ≠ []) (hk : keyword label = none) :
    Query kind (.word "select".toList :: (commas pieces ++
        (.word "from".toList :: (pathTokens names ++ [.word "as".toList, .word label]))))
      (selectFrom items names label none) := by
  intro stack
  refine ⟨_, run_select hitems hne hnames hk stack, fun token hfollows => ?_⟩
  exact selectionStep_follows hfollows

/-- A query with a condition. -/
theorem query_where (hitems : List.Forall₂ (Reads kind) pieces items) (hne : pieces ≠ [])
    (hnames : names ≠ []) (hk : keyword label = none) (h : Reads kind tokens t) :
    Query kind (.word "select".toList :: (commas pieces ++
        (.word "from".toList :: (pathTokens names ++ [.word "as".toList, .word label]))) ++
          .word "where".toList :: tokens)
      (selectFrom items names label (some t)) := by
  intro stack
  have hselect := run_select hitems hne hnames hk stack
  have hwhere : step kind ⟨stack, .naming (.base items) (.aliased names label)⟩
      (.word "where".toList) =
      some ⟨.mark (.clause ⟨items, ⟨names, some label⟩, []⟩ .condition []) :: stack, .operand⟩ :=
    rfl
  obtain ⟨state, hrun, hs⟩ := h (.mark (.clause ⟨items, ⟨names, some label⟩, []⟩ .condition []) ::
    stack) (Region.mark _ _)
  refine ⟨state, ?_, fun token hfollows => ?_⟩
  · rw [run_append hselect, run_cons hwhere, hrun]
  · rw [step_ends hs (Region.mark _ _) (Token.follows.ends hfollows)]
    have hstep : regionStep kind (.mark (.clause ⟨items, ⟨names, some label⟩, []⟩ .condition []) ::
        stack) t token = selectionStep kind stack
          (Selection.add ⟨items, ⟨names, some label⟩, []⟩ .condition ([] ++ [t])) token := by
      simp [regionStep, (Region.mark _ _).settle]
    rw [hstep]
    exact selectionStep_follows hfollows

end

/-- A query in the parentheses of an operand. -/
theorem Query.scalar {q : Tree} (h : Query kind (.word "select".toList :: tokens) q) :
    Atom kind (.lparen :: .word "select".toList :: (tokens ++ [.rparen])) (.scalar q) := by
  intro stack
  obtain ⟨state, hrun, hs⟩ := h (.mark (.query .scalar) :: stack)
  refine ⟨.value (.scalar q), ?_, rfl⟩
  have hopen : run kind ⟨stack, .operand⟩ [.lparen, .word "select".toList] =
      run kind ⟨.mark (.query .scalar) :: stack, .branch⟩ [.word "select".toList] := rfl
  have hall : run kind ⟨stack, .operand⟩ (.lparen :: .word "select".toList :: tokens) =
      some state := hrun
  rw [show Token.lparen :: .word "select".toList :: (tokens ++ [.rparen]) =
    (.lparen :: .word "select".toList :: tokens) ++ [.rparen] from rfl, run_append hall]
  refine run_singleton ?_
  rw [hs .rparen rfl]
  simp [resultStep, (Region.mark _ _).settle]

theorem Query.existence {q : Tree} (h : Query kind tokens q) :
    Atom kind (.word "exists".toList :: .lparen :: (tokens ++ [.rparen])) (.existence q) := by
  intro stack
  obtain ⟨state, hrun, hs⟩ := h (.mark (.query .existence) :: stack)
  refine ⟨.value (.existence q), ?_, rfl⟩
  have hexists : step kind ⟨stack, .operand⟩ (.word "exists".toList) =
      some ⟨stack, .existence⟩ := rfl
  have hopen : step kind ⟨stack, .existence⟩ .lparen =
      some ⟨.mark (.query .existence) :: stack, .branch⟩ := rfl
  rw [run_cons hexists, run_cons hopen, run_append hrun]
  refine run_singleton ?_
  rw [hs .rparen rfl]
  simp [resultStep, (Region.mark _ _).settle]

/-- PostgreSQL takes a query in parentheses for a query. -/
theorem Query.group {q : Tree} (h : Query .pg tokens q) :
    Query .pg (.lparen :: (tokens ++ [.rparen])) q := by
  intro stack
  obtain ⟨state, hrun, hs⟩ := h (.mark (.query .group) :: stack)
  have hopen : step .pg ⟨stack, .branch⟩ .lparen =
      some ⟨.mark (.query .group) :: stack, .branch⟩ := rfl
  refine ⟨⟨stack, .result q⟩, ?_, fun token _ => rfl⟩
  rw [run_cons hopen, run_append hrun]
  refine run_singleton ?_
  rw [hs .rparen rfl]
  simp [resultStep, (Region.mark _ _).settle]

end Cartel.Sql
