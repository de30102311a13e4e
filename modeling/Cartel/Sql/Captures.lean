import Cartel.Sql.Structure

/-!
# Captured parameters

A query numbers its captured parameters in the order in which its parts are rendered, and a
parameter that was seen keeps its number. The captures of the whole query determine how
each parameter shows (`reading`) : what a part was rendered to does not change when later
parts capture more.
-/

namespace Cartel.Sql

variable {kind : Kind} {tables : Tables} {params : List Ident} {types : List Ty} {ctes : CteMap}
  {captures final : List Ident} {ident : Ident} {index : ℕ} {parts : Parts}

/-! ## Numbers -/

/-- Interning finds the parameter, behind what was there. -/
theorem intern_spec (captures : List Ident) (ident : Ident) :
    (intern captures ident).1.findIdx? (·.same ident) = some (intern captures ident).2 ∧
      captures <+: (intern captures ident).1 := by
  rw [intern]
  cases hfound : captures.findIdx? (·.same ident) with
  | some index => exact ⟨hfound, List.prefix_rfl⟩
  | none =>
    refine ⟨?_, List.prefix_append _ _⟩
    have hself : ident.same ident = true := by simp [Ident.same]
    simp [List.findIdx?_append, hfound, List.findIdx?_cons, hself]

/-- A parameter that was seen keeps its number. -/
theorem findIdx?_of_isPrefix (h : captures.findIdx? (·.same ident) = some index)
    (hfinal : captures <+: final) : final.findIdx? (·.same ident) = some index := by
  obtain ⟨more, rfl⟩ := hfinal
  simp [List.findIdx?_append, h]

theorem placeholder_of_isPrefix (h : captures.findIdx? (·.same ident) = some index)
    (hfinal : captures <+: final) :
    placeholder kind params types final index = placeholder kind params types captures index := by
  obtain ⟨more, rfl⟩ := hfinal
  obtain ⟨hlt, -⟩ := List.findIdx?_eq_some_iff_getElem.mp h
  have hget : (captures ++ more)[index]? = captures[index]? := List.getElem?_append_left hlt
  have hltree : isLtreeParam params types (captures ++ more) index =
      isLtreeParam params types captures index := by
    rw [isLtreeParam, hget, isLtreeParam]
  cases kind with
  | pg => rw [placeholder, hltree, placeholder]
  | sqlite => rfl

theorem captures_isPrefix (kind : Kind) (params : List Ident) (types : List Ty) (parts : Parts)
    (captures : List Ident) : captures <+: (render kind params types parts captures).2 := by
  induction parts generalizing captures with
  | nil => exact List.prefix_rfl
  | cons part parts ih =>
    cases part with
    | token fragment => exact ih captures
    | capture ident => exact (intern_spec captures ident).2.trans (ih _)

/-! ## The reading of a query -/

/-- The tree of a placeholder. -/
def bound (kind : Kind) (params : List Ident) (types : List Ty) (captures : List Ident)
    (index : ℕ) : Tree :=
  match kind with
  | .pg =>
    if isLtreeParam params types captures index then .cast (.param (index + 1)) "ltree".toList
    else .param (index + 1)
  | .sqlite => .param (index + 1)

theorem operand_placeholder (kind : Kind) (params : List Ident) (types : List Ty)
    (captures : List Ident) (index : ℕ) :
    Operand kind (placeholder kind params types captures index)
      (bound kind params types captures index) := by
  cases kind with
  | pg =>
    rw [placeholder, bound]
    split
    · have hparam : Operand .pg _ _ := operand_param (index + 1)
      exact hparam.cast
    · exact operand_param (index + 1)
  | sqlite => exact operand_param (index + 1)

theorem lexes_placeholder (kind : Kind) (params : List Ident) (types : List Ty)
    (captures : List Ident) (index : ℕ) : ∃ tokens,
      (lexer kind).Lexes (placeholder kind params types captures index) tokens ∧
        Token.semicolon ∉ tokens := by
  cases kind with
  | pg =>
    rw [placeholder]
    split
    · have hcast : (lexer .pg).Lexes "::ltree".toList [.cast, .word "ltree".toList] :=
        ⟨[.cast], .word "ltree".toList, [.word "ltree".toList], by decide, rfl, rfl⟩
      exact ⟨_, (lexes_param .pg (index + 1)).append (delimited_colon _) hcast, by simp⟩
    · exact ⟨_, lexes_param .pg (index + 1), by simp⟩
  | sqlite => exact ⟨_, lexes_param .sqlite (index + 1), by simp⟩

/-- The number of a captured parameter. -/
def position (captures : List Ident) (ident : Ident) : ℕ :=
  (captures.findIdx? (·.same ident)).getD captures.length

/-- How the parameters of a query show, once all of them are captured. -/
def reading (kind : Kind) (tables : Tables) (params : List Ident) (types : List Ty)
    (ctes : CteMap) (captures : List Ident) : Reading where
  kind := kind
  tables := tables
  params := params
  ctes := ctes
  mark ident := placeholder kind params types captures (position captures ident)
  shown ident := bound kind params types captures (position captures ident)
  marks _ := operand_placeholder kind params types captures _

@[simp] theorem reading_kind :
    (reading kind tables params types ctes captures).kind = kind := rfl

@[simp] theorem reading_tables :
    (reading kind tables params types ctes captures).tables = tables := rfl

/-! ## Rendering -/

theorem textOf_cons (fragment : Fragment) (fragments : List Fragment) :
    textOf kind tables (fragment :: fragments) =
      (fragment.render kind tables).bind fun t => (textOf kind tables fragments).map (t ++ ·) := by
  rw [textOf, List.mapM_cons]
  cases fragment.render kind tables with
  | none => rfl
  | some t =>
    rw [textOf]
    cases fragments.mapM (Fragment.render kind tables) <;> rfl

/-- Rendered parts show as the captures of the whole query say. -/
theorem textOf_render (h : (render kind params types parts captures).2 <+: final) :
    textOf kind tables (render kind params types parts captures).1 =
      (reading kind tables params types ctes final).textOf parts := by
  induction parts generalizing captures with
  | nil => rfl
  | cons part parts ih =>
    cases part with
    | token fragment =>
      have hrest := ih h
      rw [render, textOf_cons, hrest]
      rfl
    | capture ident =>
      obtain ⟨hfound, -⟩ := intern_spec captures ident
      have hnow : (intern captures ident).1 <+: final :=
        (captures_isPrefix kind params types parts _).trans h
      have hrest : textOf kind tables (render kind params types parts
          (intern captures ident).1).1 =
            (reading kind tables params types ctes final).textOf parts := ih h
      have hposition : position final ident = (intern captures ident).2 := by
        rw [position, findIdx?_of_isPrefix hfound hnow]
        rfl
      have hmark : placeholder kind params types (intern captures ident).1
          (intern captures ident).2 =
          placeholder kind params types final (position final ident) := by
        rw [hposition, placeholder_of_isPrefix hfound hnow]
      rw [render, textOf_cons, hrest]
      simp only [Fragment.render, hmark]
      rfl

end Cartel.Sql
