import Cartel.Core.Queue
import Mathlib.Algebra.Order.BigOperators.Group.Finset

/-!
# The hand-off of requests

A hand-off reserves the request's side, then the reply's, and only then builds the request. In a
run of calls each lane's recorded weight is the sum of the weights of its entries, an entry has a
slot of the pool, and entries leave in the order they came (`Ordered`). A call that fails leaves
everything as it was (`tryWith_error`), but a drain keeps what the sink took before.
-/

namespace Cartel.Core

open Cartel.Lib

variable {n : ℕ} {γ τ ω : Type} [Weight ω]

/-! ## Both sides -/

/-- `Failure`. -/
inductive Failure (n : ℕ) (γ ω α : Type) where
  | reply (cause : α)
  | queue (cause : Rejection n γ ω)

/-- `handoff::Lane::try_with`, of a preparation that reserves the reply. -/
def handoffWith {ρ ι κ π α r : Type} (fair : Fair n γ)
    (prepare : ρ → ι → ρ × Except (α × ι) (π × κ)) (build : κ → π → τ × r) (index : Fin n)
    (arena : Arena n τ ω) (replies : ρ) (weight : ω) (input : ι) :
    (Arena n τ ω × ρ) × Except (Failure n γ ω α × ι) r :=
  tryWith fair .queue
    (fun replies input =>
      let (replies, result) := prepare replies input
      (replies, result.mapError fun error => (.reply error.1, error.2)))
    build index arena replies weight input

/-- `handoff::Lane::try_publish`, with `try_tagged` of the reply. -/
def tryPublish {ρ ι α r : Type} (fair : Fair n γ) (tryTagged : ρ → ρ × Except α Unit)
    (build : ι → τ × r) (index : Fin n) (arena : Arena n τ ω) (replies : ρ) (weight : ω)
    (input : ι) : (Arena n τ ω × ρ) × Except (Failure n γ ω α × ι) r :=
  handoffWith fair
    (fun replies input =>
      match tryTagged replies with
      | (replies, .ok ()) => (replies, .ok ((), input))
      | (replies, .error cause) => (replies, .error (cause, input)))
    (fun input () => build input) index arena replies weight input

/-! ## Runs -/

/-- The arenas of a run, with the entries that came to each lane and the values that left it. -/
inductive Reached (fair : Fair n γ) :
    Arena n τ ω → (Fin n → List (Entry τ ω)) → (Fin n → List τ) → Prop
  | new : Reached fair Arena.new (fun _ => []) (fun _ => [])
  | published {ρ ι κ π ε r : Type} {arena arena' : Arena n τ ω} {came : Fin n → List (Entry τ ω)}
      {left : Fin n → List τ} {convert : Rejection n γ ω → ε}
      {prepare : ρ → ι → ρ × Except (ε × ι) (π × κ)} {build : κ → π → τ × r} {index : Fin n}
      {region region' : ρ} {weight : ω} {input : ι} {proof : π} {item : κ} {output : r}
      (h : Reached fair arena came left)
      (hcall : tryWith fair convert prepare build index arena region weight input =
        ((arena', region'), .ok output))
      (hitem : (prepare region input).2 = .ok (proof, item)) :
      Reached fair arena'
        (Function.update came index (came index ++ [⟨(build item proof).1, weight⟩])) left
  | refused {ρ ι κ π ε r : Type} {arena arena' : Arena n τ ω} {came : Fin n → List (Entry τ ω)}
      {left : Fin n → List τ} {convert : Rejection n γ ω → ε}
      {prepare : ρ → ι → ρ × Except (ε × ι) (π × κ)} {build : κ → π → τ × r} {index : Fin n}
      {region region' : ρ} {weight : ω} {input : ι} {error : ε × ι}
      (h : Reached fair arena came left)
      (hcall : tryWith fair convert prepare build index arena region weight input =
        ((arena', region'), .error error)) :
      Reached fair arena' came left
  | popped {arena : Arena n τ ω} {came : Fin n → List (Entry τ ω)} {left : Fin n → List τ}
      {index : Fin n} {item : τ} {lane : Lane τ ω} (h : Reached fair arena came left)
      (hcall : popFront (arena index) = some (item, lane)) :
      Reached fair (Function.update arena index lane) came
        (Function.update left index (left index ++ [item]))
  | cleared {arena : Arena n τ ω} {came : Fin n → List (Entry τ ω)} {left : Fin n → List τ}
      {index : Fin n} {work : ℕ} {lane : Lane τ ω} {outcome : Drain} {released : List τ}
      (h : Reached fair arena came left)
      (hcall : clear work (arena index) = (lane, outcome, released)) :
      Reached fair (Function.update arena index lane) came
        (Function.update left index (left index ++ released))
  | drained {σ δ : Type} {arena : Arena n τ ω} {came : Fin n → List (Entry τ ω)}
      {left : Fin n → List τ} {sink : Sink σ τ δ} {index : Fin n} {state state' : σ}
      {lane : Lane τ ω} {taken : List τ} {result : Except δ Unit}
      (h : Reached fair arena came left)
      (hcall : drain sink (arena index) state = ((lane, state', taken), result)) :
      Reached fair (Function.update arena index lane) came
        (Function.update left index (left index ++ taken))

/-- A lane of a run : its charges are exact, and what came to it has left it or is queued. -/
structure Ordered (lane : Lane τ ω) (came : List (Entry τ ω)) (left : List τ) : Prop where
  exact' : lane.Exact
  order : ∃ gone, came = gone ++ lane.entries ∧ left = gone.map Entry.value

theorem Ordered.publish {lane : Lane τ ω} {came : List (Entry τ ω)} {left : List τ}
    (h : Ordered lane came left) {weight total : ω}
    (htotal : Weight.tryAdd lane.state weight = .ok total) (item : τ) :
    Ordered ⟨lane.entries ++ [⟨item, weight⟩], total, lane.held + 1⟩ (came ++ [⟨item, weight⟩])
      left := by
  obtain ⟨gone, hcame, hleft⟩ := h.order
  refine ⟨h.exact'.publish htotal item, gone, ?_, hleft⟩
  rw [hcame, List.append_assoc]

theorem Ordered.leave {lane lane' : Lane τ ω} {came : List (Entry τ ω)} {left out : List τ}
    (h : Ordered lane came left) (hexact : lane'.Exact)
    (hout : ∃ gone, lane.entries = gone ++ lane'.entries ∧ out = gone.map Entry.value) :
    Ordered lane' came (left ++ out) := by
  obtain ⟨gone, hcame, hleft⟩ := h.order
  obtain ⟨more, hentries, rfl⟩ := hout
  refine ⟨hexact, gone ++ more, ?_, ?_⟩
  · rw [hcame, hentries, List.append_assoc]
  · rw [hleft, List.map_append]

/-- The lanes of a run. -/
theorem Reached.ordered {fair : Fair n γ} {arena : Arena n τ ω} {came : Fin n → List (Entry τ ω)}
    {left : Fin n → List τ} (h : Reached fair arena came left) (index : Fin n) :
    Ordered (arena index) (came index) (left index) := by
  have hset : ∀ {arena : Arena n τ ω} {came : Fin n → List (Entry τ ω)} {left : Fin n → List τ}
      {i : Fin n} {lane : Lane τ ω} {out : List τ},
      (∀ index, Ordered (arena index) (came index) (left index)) → lane.Exact →
      (∃ gone, (arena i).entries = gone ++ lane.entries ∧ out = gone.map Entry.value) →
      ∀ index, Ordered (Function.update arena i lane index) (came index)
        (Function.update left i (left i ++ out) index) := by
    intro arena came left i lane out hall hexact hout index
    rcases eq_or_ne index i with rfl | hne
    · rw [Function.update_self, Function.update_self]
      exact (hall index).leave hexact hout
    · rw [Function.update_of_ne hne, Function.update_of_ne hne]
      exact hall index
  induction h generalizing index with
  | new => exact ⟨Arena.new_exact index, [], rfl, rfl⟩
  | @published _ _ _ _ _ _ arena _ came left _ prepare build i region _ weight input proof item _
      _ hcall hitem ih =>
    rcases tryWith_spec hcall with
      ⟨_, hresult, -⟩ | ⟨proof', item', total, hprepare, htotal, -, rfl, -⟩
    · cases hresult
    · rw [hprepare] at hitem
      cases hitem
      rcases eq_or_ne index i with rfl | hne
      · rw [Function.update_self, Function.update_self]
        exact (ih index).publish htotal _
      · rw [Function.update_of_ne hne, Function.update_of_ne hne]
        exact ih index
  | refused _ hcall ih =>
    rcases tryWith_spec hcall with ⟨_, -, rfl, -⟩ | ⟨_, _, _, -, -, -, -, hresult⟩
    · exact ih index
    · cases hresult
  | @popped _ _ _ i item lane _ hcall ih =>
    obtain ⟨hexact, entry, hentries, rfl⟩ := (ih i).exact'.popFront_spec.2 item lane hcall
    exact hset ih hexact ⟨[entry], hentries, rfl⟩ index
  | @cleared _ _ _ i _ _ _ _ _ hcall ih =>
    obtain ⟨hexact, -, hout⟩ := (ih i).exact'.clear_spec hcall
    exact hset ih hexact hout index
  | @drained _ _ _ _ _ _ i _ _ _ _ _ _ hcall ih =>
    obtain ⟨hexact, hout, -⟩ := (ih i).exact'.drain_spec hcall
    exact hset ih hexact hout index

theorem sum_update_le {held : Fin n → ℕ} {i : Fin n} {k m : ℕ} (hsum : ∑ j, held j ≤ m)
    (hk : k ≤ held i) : ∑ j, Function.update held i k j ≤ m := by
  refine le_trans (Finset.sum_le_sum fun j _ => ?_) hsum
  rcases eq_or_ne j i with rfl | hne
  · rw [Function.update_self]
    exact hk
  · rw [Function.update_of_ne hne]

/-- The lanes hold no more slots than the pool has. -/
theorem Reached.held_le {fair : Fair n γ} {arena : Arena n τ ω} {came : Fin n → List (Entry τ ω)}
    {left : Fin n → List τ} (h : Reached fair arena came left) :
    ∑ i, (arena i).held ≤ fair.capacity := by
  have hheld : ∀ (arena : Arena n τ ω) (i : Fin n) (lane : Lane τ ω),
      (fun j => (Function.update arena i lane j).held) =
        Function.update (fun j => (arena j).held) i lane.held := fun arena i lane => by
    funext j
    rcases eq_or_ne j i with rfl | hne
    · rw [Function.update_self, Function.update_self]
    · rw [Function.update_of_ne hne, Function.update_of_ne hne]
  have hout : ∀ {lane lane' : Lane τ ω} {came : List (Entry τ ω)} {left out : List τ},
      Ordered lane came left → lane'.Exact →
      (∃ gone, lane.entries = gone ++ lane'.entries ∧ out = gone.map Entry.value) →
      lane'.held ≤ lane.held := by
    rintro lane lane' came left out hordered hexact ⟨gone, hentries, -⟩
    rw [hexact.held, hordered.exact'.held, hentries, List.length_append]
    omega
  induction h with
  | new => simp [Arena.new]
  | @published _ _ _ _ _ _ arena _ came left _ prepare build i region _ weight input proof item _
      _ hcall hitem ih =>
    rcases tryWith_spec hcall with ⟨_, hresult, -⟩ | ⟨_, _, total, -, -, hfair, rfl, -⟩
    · cases hresult
    · have hlt := fair.lt_capacity hfair
      rw [hheld, Finset.sum_update_of_mem (Finset.mem_univ i)]
      have hsplit := Finset.sum_eq_add_sum_sdiff_singleton_of_mem (Finset.mem_univ i)
        fun j => (arena j).held
      dsimp only at hsplit ⊢
      omega
  | refused _ hcall ih =>
    rcases tryWith_spec hcall with ⟨_, -, rfl, -⟩ | ⟨_, _, _, -, -, -, -, hresult⟩
    · exact ih
    · cases hresult
  | @popped _ _ _ i item lane h hcall ih =>
    obtain ⟨hexact, entry, hentries, rfl⟩ := (h.ordered i).exact'.popFront_spec.2 item lane hcall
    rw [hheld]
    exact sum_update_le ih (hout (h.ordered i) hexact ⟨[entry], hentries, rfl⟩)
  | @cleared _ _ _ i _ _ _ _ h hcall ih =>
    obtain ⟨hexact, -, hgone⟩ := (h.ordered i).exact'.clear_spec hcall
    rw [hheld]
    exact sum_update_le ih (hout (h.ordered i) hexact hgone)
  | @drained _ _ _ _ _ _ i _ _ _ _ _ h hcall ih =>
    obtain ⟨hexact, hgone, -⟩ := (h.ordered i).exact'.drain_spec hcall
    rw [hheld]
    exact sum_update_le ih (hout (h.ordered i) hexact hgone)

/-! ## Calls that fail -/

/-- A preparation that fails leaves the region as it was and gives its input back. -/
def Restores {ρ ι κ π ε : Type} (prepare : ρ → ι → ρ × Except (ε × ι) (π × κ)) : Prop :=
  ∀ region input region' error, prepare region input = (region', .error error) →
    region' = region ∧ error.2 = input

theorem tryWith_error {ρ ι κ π ε r : Type} {fair : Fair n γ} {convert : Rejection n γ ω → ε}
    {prepare : ρ → ι → ρ × Except (ε × ι) (π × κ)} {build : κ → π → τ × r} {index : Fin n}
    {arena arena' : Arena n τ ω} {region region' : ρ} {weight : ω} {input : ι} {error : ε × ι}
    (hprepare : Restores prepare)
    (h : tryWith fair convert prepare build index arena region weight input =
      ((arena', region'), .error error)) :
    arena' = arena ∧ region' = region ∧ error.2 = input := by
  rcases tryWith_spec h with ⟨error', hresult, rfl, h⟩ | ⟨_, _, _, -, -, -, -, hresult⟩
  · cases hresult
    rcases h with ⟨rfl, hinput⟩ | h
    · exact ⟨rfl, rfl, hinput⟩
    · exact ⟨rfl, hprepare _ _ _ _ h⟩
  · cases hresult

theorem tryPush_error {fair : Fair n γ} {index : Fin n} {arena arena' : Arena n τ ω} {item : τ}
    {weight : ω} {error : Rejected n γ τ ω}
    (h : tryPush fair index arena item weight = (arena', .error error)) :
    arena' = arena ∧ error.value = item := by
  unfold tryPush at h
  rcases hcall : tryWith fair id (fun (region : Unit) (item : τ) =>
    (region, (.ok ((), item) : Except (Rejection n γ ω × τ) (Unit × τ))))
    (fun item () => (item, ())) index arena () weight item with ⟨⟨arena₁, _⟩, result⟩
  rw [hcall] at h
  obtain ⟨rfl, hresult⟩ := Prod.mk.inj h
  obtain ⟨error', rfl, rfl⟩ := mapError_eq_error.mp hresult
  obtain ⟨harena, -, hitem⟩ := tryWith_error (fun _ _ _ _ h => (by cases h)) hcall
  exact ⟨harena, hitem⟩

theorem handoffWith_error {ρ ι κ π α r : Type} {fair : Fair n γ}
    {prepare : ρ → ι → ρ × Except (α × ι) (π × κ)} {build : κ → π → τ × r} {index : Fin n}
    {arena arena' : Arena n τ ω} {replies replies' : ρ} {weight : ω} {input : ι}
    {error : Failure n γ ω α × ι} (hprepare : Restores prepare)
    (h : handoffWith fair prepare build index arena replies weight input =
      ((arena', replies'), .error error)) :
    arena' = arena ∧ replies' = replies ∧ error.2 = input := by
  refine tryWith_error (fun region input region' error h => ?_) h
  rcases hresult : prepare region input with ⟨region₁, result⟩
  rw [hresult] at h
  obtain ⟨rfl, herror⟩ := Prod.mk.inj h
  obtain ⟨cause, rfl, rfl⟩ := mapError_eq_error.mp herror
  exact hprepare _ _ _ _ hresult

theorem tryPublish_error {ρ ι α r : Type} {fair : Fair n γ} {tryTagged : ρ → ρ × Except α Unit}
    {build : ι → τ × r} {index : Fin n} {arena arena' : Arena n τ ω} {replies replies' : ρ}
    {weight : ω} {input : ι} {error : Failure n γ ω α × ι}
    (htagged : ∀ replies replies' cause, tryTagged replies = (replies', .error cause) →
      replies' = replies)
    (h : tryPublish fair tryTagged build index arena replies weight input =
      ((arena', replies'), .error error)) :
    arena' = arena ∧ replies' = replies ∧ error.2 = input := by
  refine handoffWith_error (fun replies input replies' error h => ?_) h
  rcases hresult : tryTagged replies with ⟨replies₁, cause | _⟩
  · simp only [hresult] at h
    cases h
    exact ⟨htagged _ _ _ hresult, rfl⟩
  · simp only [hresult] at h
    cases h

/-- An entry that was pushed has come to its lane. -/
theorem Reached.pushed {fair : Fair n γ} {arena arena' : Arena n τ ω}
    {came : Fin n → List (Entry τ ω)} {left : Fin n → List τ} {index : Fin n} {item : τ}
    {weight : ω}
    (h : Reached fair arena came left)
    (hcall : tryPush fair index arena item weight = (arena', .ok ())) :
    Reached fair arena' (Function.update came index (came index ++ [⟨item, weight⟩])) left := by
  unfold tryPush at hcall
  rcases hwith : tryWith fair id (fun (region : Unit) (item : τ) =>
    (region, (.ok ((), item) : Except (Rejection n γ ω × τ) (Unit × τ))))
    (fun item () => (item, ())) index arena () weight item with ⟨⟨arena₁, _⟩, result⟩
  rw [hwith] at hcall
  obtain ⟨rfl, hresult⟩ := Prod.mk.inj hcall
  rw [mapError_eq_ok.mp hresult] at hwith
  exact h.published hwith rfl

/-- In a run the recorded weight of a lane is the sum of the weights of its entries, an entry has
a slot of the pool, and entries leave in the order they came. A call that fails leaves
everything as it was. A drain gives the sink the entries in front, and one that the sink refuses
is in front again. -/
theorem Reached.spec {fair : Fair n γ} {arena : Arena n τ ω} {came : Fin n → List (Entry τ ω)}
    {left : Fin n → List τ} (h : Reached fair arena came left) :
    (∀ index, Weight.value (arena index).state =
        ((arena index).entries.map fun entry => Weight.value entry.weight).sum ∧
      (arena index).held = (arena index).entries.length ∧
      ∃ gone, came index = gone ++ (arena index).entries ∧ left index = gone.map Entry.value) ∧
    ∑ i, (arena i).held ≤ fair.capacity ∧
    (∀ index item weight arena' error,
      tryPush fair index arena item weight = (arena', .error error) →
        arena' = arena ∧ error.value = item) ∧
    (∀ (ρ ι κ π ε r : Type) (convert : Rejection n γ ω → ε)
      (prepare : ρ → ι → ρ × Except (ε × ι) (π × κ)) (build : κ → π → τ × r) (index : Fin n)
      (region : ρ) (weight : ω) (input : ι) (arena' : Arena n τ ω) (region' : ρ) (error : ε × ι),
      Restores prepare →
      tryWith fair convert prepare build index arena region weight input =
        ((arena', region'), .error error) →
          arena' = arena ∧ region' = region ∧ error.2 = input) ∧
    (∀ (ρ ι α r : Type) (tryTagged : ρ → ρ × Except α Unit) (build : ι → τ × r) (index : Fin n)
      (replies : ρ) (weight : ω) (input : ι) (arena' : Arena n τ ω) (replies' : ρ)
      (error : Failure n γ ω α × ι),
      (∀ replies replies' cause, tryTagged replies = (replies', .error cause) →
        replies' = replies) →
      tryPublish fair tryTagged build index arena replies weight input =
        ((arena', replies'), .error error) →
          arena' = arena ∧ replies' = replies ∧ error.2 = input) ∧
    ∀ (σ δ : Type) (sink : Sink σ τ δ) (index : Fin n) (state state' : σ) (lane : Lane τ ω)
      (taken : List τ) (result : Except δ Unit),
      drain sink (arena index) state = ((lane, state', taken), result) →
        (∃ gone, (arena index).entries = gone ++ lane.entries ∧ taken = gone.map Entry.value) ∧
        ∀ cause, result = .error cause → ∃ entry entries before,
          lane.entries = entry :: entries ∧
          (sink.accept before entry.value).2 = .rejected cause := by
  refine ⟨fun index => ?_, h.held_le, fun _ _ _ _ _ => tryPush_error,
    fun _ _ _ _ _ _ _ _ _ _ _ _ _ _ _ _ => tryWith_error,
    fun _ _ _ _ _ _ _ _ _ _ _ _ _ => tryPublish_error,
    fun _ _ sink index _ _ _ _ _ hcall => ((h.ordered index).exact'.drain_spec hcall).2⟩
  obtain ⟨⟨hstate, hheld⟩, horder⟩ := h.ordered index
  exact ⟨hstate, hheld, horder⟩

/-- A pool that gives out slots as long as there are any. -/
def Fair.shared (n capacity : ℕ) : Fair n Unit where
  capacity := capacity
  reserve held _ := if ∑ i, held i < capacity then .ok () else .error ()
  lt_capacity h := by
    split_ifs at h with hlt
    exact hlt

/-- A lane with an entry. -/
def Reached.one : Arena 1 ℕ UInt64 :=
  (tryPush (Fair.shared 1 2) 0 Arena.new 11 7).1

/-- A lane with two entries. -/
def Reached.two : Arena 1 ℕ UInt64 :=
  (tryPush (Fair.shared 1 2) 0 Reached.one 13 5).1

theorem Reached.two_reached : Reached (Fair.shared 1 2) Reached.two
    (Function.update (Function.update (fun _ => []) 0 ([] ++ [⟨11, 7⟩])) 0 ([⟨11, 7⟩] ++ [⟨13, 5⟩]))
    (fun _ => []) := by
  have hone : tryPush (Fair.shared 1 2) 0 Arena.new 11 (7 : UInt64) = (Reached.one, .ok ()) := rfl
  have htwo : tryPush (Fair.shared 1 2) 0 Reached.one 13 (5 : UInt64) = (Reached.two, .ok ()) := rfl
  exact (Reached.new.pushed hone).pushed htwo

/-- The lane of two entries. -/
theorem Reached.spec_two : Weight.value (Reached.two 0).state = 12 ∧
    ∑ i, (Reached.two i).held ≤ 2 :=
  ⟨(Reached.two_reached.spec.1 0).1, Reached.two_reached.spec.2.1⟩

/-- A sink that takes one entry and refuses the next. -/
def Sink.once : Sink Bool ℕ Unit where
  claim := some
  accept taken _ := (true, if taken then .rejected () else .ready)

/-- The weights take no slots of the pool, and a drain that fails has given entries away. -/
theorem Reached.handed_off : ∃ came left, Reached (Fair.shared 1 2) Reached.two came left ∧
    Weight.value (Reached.two 0).state = 12 ∧ (Reached.two 0).held = 2 ∧
    ∃ lane, drain Sink.once (Reached.two 0) false = ((lane, true, [11]), .error ()) ∧
      lane.entries ≠ (Reached.two 0).entries := by
  have hsecond : drain Sink.once (⟨[⟨13, 5⟩], 5, 1⟩ : Lane ℕ UInt64) true =
      ((⟨[⟨13, 5⟩], 5, 1⟩, true, []), .error ()) := by
    rw [drain_cons Sink.once rfl rfl]
    rfl
  refine ⟨_, _, Reached.two_reached, rfl, rfl, ⟨[⟨13, 5⟩], 5, 1⟩, ?_, fun h => (by cases h)⟩
  rw [drain_cons Sink.once rfl rfl]
  exact congrArg (fun r => ((r.1.1, r.1.2.1, 11 :: r.1.2.2), r.2)) hsecond

end Cartel.Core
