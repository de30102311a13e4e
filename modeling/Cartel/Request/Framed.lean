import Cartel.Request.Encode

/-!
# Exact framing

Every encoder frames its arguments exactly : once the length computation succeeds, its
result is the length of `wire` of the arguments, and only the buffer and egress can refuse
the frame (`Output.Framed`). The parser reads a frame back as the array of its arguments.
-/

namespace Cartel.Redis.Request

open Cartel.Lib

variable {σ ω κ φ ε : Type} {o : Output σ ω κ φ ε}

/-- A byte slice is its own bytes. -/
@[simp] theorem bytes_slice (bytes : List UInt8) : Bulk.bytes bytes = bytes :=
  List.flatten_singleton

theorem exact_slice (bytes : List UInt8) : Bulk.Exact bytes :=
  congrArg List.length (bytes_slice bytes)

theorem map_bytes_slices (slices : List (List UInt8)) : slices.map Bulk.bytes = slices := by
  induction slices with
  | nil => rfl
  | cons bytes rest ih => rw [List.map_cons, ih, bytes_slice]

theorem map_len {B : Type} [Bulk B] {payloads : List B}
    (h : ∀ payload ∈ payloads, Bulk.Exact payload) :
    payloads.map Bulk.len = (payloads.map Bulk.bytes).map List.length := by
  rw [List.map_map]
  exact List.map_congr_left fun payload hmem => (h payload hmem).symm

/-! ## Frames of any encoder -/

namespace Output

/-- Exact framing of some arguments. The length is that of the frame. An error of the length
computation is the result, the refusals of the buffer and of egress are, and nothing else
can go wrong. -/
structure Framed (o : Output σ ω κ φ ε) (args : List (List UInt8)) (kind : Sensitivity)
    (length : Except (Error κ ε) ℕ) (build : σ → Except (Error κ ε) φ) : Prop where
  length_eq : ∀ {n}, length = .ok n → n = (wire args).length
  refused : ∀ {e}, length = .error e → ∀ span, build span = .error e
  capacity : ∀ {n}, length = .ok n → ∀ {span cause}, o.tryFrom span n kind = .error cause →
    build span = .error (.capacity cause)
  written : ∀ {n}, length = .ok n → ∀ {span out}, o.tryFrom span n kind = .ok out →
    build span = (o.tryNew (wire args, kind)).mapError .egress

/-- A writer that fills the limit completes the frame. -/
theorem complete_eq {bytes : List UInt8} {encode : ω → Except (Error κ ε) ω}
    (h : o.Wrote bytes encode) {out : ω} {kind : Sensitivity}
    (hremaining : o.remaining out = bytes.length) (hparts : o.intoParts out = ([], kind)) :
    o.complete out encode = (o.tryNew (bytes, kind)).mapError .egress := by
  obtain ⟨out', hencode, hleft, hbytes⟩ := h out hremaining.ge
  have hzero : o.remaining out' = 0 := by omega
  rw [hparts, List.nil_append] at hbytes
  unfold complete
  rw [hencode]
  simp only [bind, Except.bind]
  rw [if_neg (fun hne => hne hzero), hbytes]

/-- An encoder frames exactly if what it prepares measures its arguments, and writes them. -/
theorem framed (ho : o.Lawful) {α : Type} {args : List (List UInt8)} {kind : Sensitivity}
    {prepare : Except (Error κ ε) α} (length : α → Length)
    (encode : α → ω → Except (Error κ ε) ω)
    (h : ∀ {a}, prepare = .ok a →
      (length a).get = (wire args).length ∧ o.Wrote (wire args) (encode a)) :
    o.Framed args kind (prepare.map fun a => (length a).get) fun span =>
      prepare >>= fun a => o.admitWith span (length a) kind (encode a) := by
  cases hprepare : prepare with
  | error e =>
    refine ⟨fun hn => ?_, fun he span => ?_, fun hn => ?_, fun hn => ?_⟩
    · cases hn
    · obtain rfl := Except.error.inj he
      rfl
    · cases hn
    · cases hn
  | ok a =>
    obtain ⟨hlength, hwrote⟩ := h hprepare
    refine ⟨fun hn => ?_, fun he => ?_, fun hn span cause hspan => ?_, fun hn span out hspan => ?_⟩
    · rw [← hlength]
      exact (Except.ok.inj hn).symm
    · cases he
    · obtain rfl := Except.ok.inj hn
      simp only [bind, Except.bind, admitWith, hspan, Except.mapError]
    · obtain rfl := Except.ok.inj hn
      obtain ⟨hremaining, hparts⟩ := ho.fresh hspan
      simp only [bind, Except.bind, admitWith, hspan, Except.mapError]
      exact complete_eq hwrote (hremaining.trans hlength) hparts

/-! ## The encoders -/

/-- A frame is a header and its arguments. -/
theorem wrote_wire (ho : o.Lawful) {args : List (List UInt8)} (hcount : args.length ≤ maximum)
    {write : ω → Except (Error κ ε) ω} (h : o.Wrote (args.flatMap argument) write) :
    o.Wrote (wire args) fun out => o.array out args.length >>= write :=
  (wrote_array ho hcount).bind h

theorem wrote_slices (ho : o.Lawful) {slices : List (List UInt8)}
    (h : ∀ bytes ∈ slices, bytes.length ≤ maximum) :
    o.Wrote (slices.flatMap argument) fun out => (o.bulks out slices : Except (Error κ ε) ω) := by
  have hwrote : o.Wrote ((slices.map Bulk.bytes).flatMap argument)
      fun out => (o.bulks out slices : Except (Error κ ε) ω) :=
    wrote_bulks ho fun bytes hmem =>
      ⟨exact_slice bytes, (congrArg List.length (bytes_slice bytes)).trans_le (h bytes hmem)⟩
  rwa [map_bytes_slices] at hwrote

end Output

/-- The length of a frame. -/
theorem length_wire (args : List (List UInt8)) :
    (wire args).length = 3 + numberDigits args.length + (args.flatMap argument).length := by
  rw [wire, List.length_append, length_header]

/-- A length computed for a count and the arguments is that of the frame. -/
theorem Length.get_wire {args : List (List UInt8)} {first length : Length}
    (hfirst : (array args.length : Except (Error κ ε) Length) = .ok first)
    (h : (first.bulks (args.map List.length) : Except (Error κ ε) Length) = .ok length) :
    args.length ≤ maximum ∧ (∀ arg ∈ args, arg.length ≤ maximum) ∧
      length.get = (wire args).length := by
  obtain ⟨hcount, hget⟩ := get_array hfirst
  obtain ⟨hargs, hlength⟩ := get_bulks h
  exact ⟨hcount, hargs, by rw [hlength, hget, length_wire]⟩

/-- `Encoder::encode` frames its arguments. -/
theorem encode_framed (ho : o.Lawful) (head tail : List (List UInt8)) (kind : Sensitivity) :
    o.Framed (head ++ tail) kind
      ((encodeLength head tail : Except (Error κ ε) _).map fun a => a.2.get)
      fun span => o.encode span head tail kind := by
  refine Output.framed ho Prod.snd (fun a out => do
    let out ← o.array out a.1
    o.bulks out (head ++ tail)) fun {a} ha => ?_
  obtain ⟨count, length⟩ := a
  unfold encodeLength at ha
  obtain ⟨n, hn, ha⟩ := bind_eq_ok.mp ha
  obtain ⟨-, rfl⟩ := addCount_eq_ok.mp hn
  obtain ⟨first, hfirst, ha⟩ := bind_eq_ok.mp ha
  obtain ⟨last, hlast, ha⟩ := bind_eq_ok.mp ha
  obtain ⟨rfl, rfl⟩ := Prod.mk.inj (Except.ok.inj ha)
  rw [← List.length_append] at hfirst ⊢
  obtain ⟨hcount, hargs, hget⟩ := Length.get_wire hfirst hlast
  exact ⟨hget, Output.wrote_wire ho hcount (Output.wrote_slices ho hargs)⟩

/-! ## Items of one width -/

section Items

variable {I : Type} [Arguments I]

theorem length_flatMap_values (items : List I) :
    (items.flatMap Arguments.values).length = items.length * Arguments.width I := by
  induction items with
  | nil => simp
  | cons item rest ih =>
    rw [List.flatMap_cons, List.length_append, ih, Arguments.length_values, List.length_cons,
      Nat.succ_mul, Nat.add_comm]

/-- The first traversal counts the items and measures their values. -/
theorem measure_items {declared n : ℕ} {length : Length} : ∀ {items : List I} {a : ℕ}
    {self : Length},
    (items.foldlM (measureItem declared) (a, self) : Except (Error κ ε) _) = .ok (n, length) →
      n = a + items.length ∧ (self.bulks ((items.flatMap Arguments.values).map List.length) :
        Except (Error κ ε) Length) = .ok length
  | [], a, self, h => by
    obtain ⟨rfl, rfl⟩ := Prod.mk.inj (Except.ok.inj h)
    exact ⟨rfl, rfl⟩
  | item :: rest, a, self, h => by
    rw [List.foldlM_cons] at h
    obtain ⟨⟨b, mid⟩, hitem, h⟩ := bind_eq_ok.mp h
    unfold measureItem at hitem
    obtain ⟨m, hm, hitem⟩ := bind_eq_ok.mp hitem
    obtain ⟨-, -, rfl⟩ := nextItem_eq_ok.mp hm
    obtain ⟨last, hlast, hitem⟩ := bind_eq_ok.mp hitem
    obtain ⟨rfl, rfl⟩ := Prod.mk.inj (Except.ok.inj hitem)
    obtain ⟨rfl, hrest⟩ := measure_items h
    refine ⟨by rw [List.length_cons]; omega, ?_⟩
    rw [List.flatMap_cons, List.map_append, Length.bulks_append]
    exact bind_eq_ok.mpr ⟨last, hlast, hrest⟩

/-- The second traversal counts the items and writes their values. -/
theorem write_items (ho : o.Lawful) {declared : ℕ} (hdeclared : declared < 2 ^ 64) :
    ∀ {items : List I} {a : ℕ} {out : ω}, a + items.length ≤ declared →
      (∀ value ∈ items.flatMap Arguments.values, value.length ≤ maximum) →
      ((items.flatMap Arguments.values).flatMap argument).length ≤ o.remaining out →
      ∃ out', (items.foldlM (o.writeItem declared) (a, out) : Except (Error κ ε) _) =
          .ok (a + items.length, out') ∧
        o.Writes out ((items.flatMap Arguments.values).flatMap argument) out'
  | [], a, out, _, _, _ => ⟨out, rfl, .refl out⟩
  | item :: rest, a, out, hle, hvalues, hfit => by
    rw [List.length_cons] at hle
    rw [List.flatMap_cons] at hvalues hfit ⊢
    rw [List.flatMap_append, List.length_append] at hfit
    have hslices : o.Wrote ((Arguments.values item).flatMap argument)
        fun out => (o.bulks out (Arguments.values item) : Except (Error κ ε) ω) :=
      Output.wrote_slices ho fun value hmem => hvalues value (List.mem_append_left _ hmem)
    obtain ⟨mid, hmid, hfirst⟩ := hslices out (by omega)
    have hroom : ((rest.flatMap Arguments.values).flatMap argument).length ≤ o.remaining mid := by
      have := hfirst.1
      omega
    have hcount : a + 1 + rest.length ≤ declared := by omega
    obtain ⟨out', hout, hrest⟩ := write_items ho hdeclared hcount
      (fun value hmem => hvalues value (List.mem_append_right _ hmem)) hroom
    refine ⟨out', ?_, ?_⟩
    · have hnext : (nextItem declared a : Except (Error κ ε) ℕ) = .ok (a + 1) :=
        nextItem_eq_ok.mpr ⟨by omega, by omega, rfl⟩
      have hitem : (o.writeItem declared (a, out) item : Except (Error κ ε) _) =
          .ok (a + 1, mid) := by
        unfold Output.writeItem
        exact bind_eq_ok.mpr ⟨a + 1, hnext, bind_eq_ok.mpr ⟨mid, hmid, rfl⟩⟩
      rw [List.foldlM_cons, hitem, List.length_cons]
      refine hout.trans ?_
      rw [Nat.add_assoc, Nat.add_comm 1]
    · rw [List.flatMap_append]
      exact hfirst.trans hrest

/-- `Encoder::sequence` frames the prefix and the values of the items. -/
theorem sequence_framed (ho : o.Lawful) (head : List (List UInt8)) (declared : ℕ)
    (items : List I) :
    o.Framed (head ++ items.flatMap Arguments.values) .plain
      ((sequenceLength head declared items : Except (Error κ ε) _).map fun a => a.2.get)
      fun span => o.sequence span head declared items := by
  refine Output.framed ho Prod.snd (fun a out => o.writeSequence head declared items a.1 out)
    fun {a} ha => ?_
  obtain ⟨count, length⟩ := a
  unfold sequenceLength at ha
  obtain ⟨n, hn, ha⟩ := bind_eq_ok.mp ha
  obtain ⟨first, hfirst, ha⟩ := bind_eq_ok.mp ha
  obtain ⟨measured, hmeasured, ha⟩ := bind_eq_ok.mp ha
  obtain ⟨⟨actual, last⟩, hlast, ha⟩ := bind_eq_ok.mp ha
  obtain ⟨⟨⟩, hcheck, ha⟩ := bind_eq_ok.mp ha
  obtain ⟨rfl, rfl⟩ := Prod.mk.inj (Except.ok.inj ha)
  obtain ⟨hactual, hbulks⟩ := measure_items hlast
  obtain rfl := checkItems_eq_ok.mp hcheck
  rw [Nat.zero_add] at hactual
  subst hactual
  unfold addGroupCount at hn
  split_ifs at hn with hmul
  obtain ⟨-, rfl⟩ := addCount_eq_ok.mp hn
  rw [← length_flatMap_values, ← List.length_append] at hfirst ⊢
  have hall : (first.bulks ((head ++ items.flatMap Arguments.values).map List.length) :
      Except (Error κ ε) Length) = .ok last := by
    rw [List.map_append, Length.bulks_append]
    exact bind_eq_ok.mpr ⟨measured, hmeasured, hbulks⟩
  obtain ⟨hcount, hargs, hget⟩ := Length.get_wire hfirst hall
  have hitems : items.length < 2 ^ 64 :=
    lt_of_le_of_lt (Nat.le_mul_of_pos_right _ Arguments.width_pos) hmul
  refine ⟨hget, Output.wrote_wire ho hcount ?_⟩
  rw [List.flatMap_append]
  refine Output.Wrote.bind
    (Output.wrote_slices ho fun arg hmem => hargs arg (List.mem_append_left _ hmem))
    fun out hfit => ?_
  obtain ⟨out', hout, hwrites⟩ := write_items ho hitems (Nat.zero_add items.length).le
    (fun arg hmem => hargs arg (List.mem_append_right _ hmem)) hfit
  rw [Nat.zero_add] at hout
  refine ⟨out', bind_eq_ok.mpr ⟨_, hout, ?_⟩, hwrites⟩
  exact bind_eq_ok.mpr ⟨(), checkItems_eq_ok.mpr rfl, rfl⟩

end Items

/-! ## Script calls -/

section Script

variable {A : Type} [Bulk A]

/-- The arguments of a script call. -/
def scriptArguments (script : List UInt8) (keys : List (List UInt8)) (args : List A) :
    List (List UInt8) :=
  [69, 86, 65, 76] :: script :: digits keys.length :: (keys ++ args.map Bulk.bytes)

theorem length_scriptArguments (script : List UInt8) (keys : List (List UInt8)) (args : List A) :
    (scriptArguments script keys args).length = 3 + (keys.length + args.length) := by
  simp [scriptArguments]
  omega

/-- What a script call starts with is measured as its first arguments. -/
theorem scriptStart_eq_ok {script : List UInt8} {keys args : ℕ} {length : Length}
    (h : (scriptStart script keys args : Except (Error κ ε) Length) = .ok length) :
    3 + (keys + args) < 2 ^ 64 ∧ ∃ first : Length,
      (Length.array (3 + (keys + args)) : Except (Error κ ε) Length) = .ok first ∧
      (first.bulks ([[69, 86, 65, 76], script, digits keys].map List.length) :
        Except (Error κ ε) Length) = .ok length := by
  unfold scriptStart at h
  obtain ⟨count, hcount, h⟩ := bind_eq_ok.mp h
  unfold scriptCount at hcount
  obtain ⟨variable_count, hvariable, hcount⟩ := bind_eq_ok.mp hcount
  obtain ⟨-, rfl⟩ := addCount_eq_ok.mp hvariable
  obtain ⟨hlt, rfl⟩ := addCount_eq_ok.mp hcount
  obtain ⟨first, hfirst, h⟩ := bind_eq_ok.mp h
  obtain ⟨named, hnamed, h⟩ := bind_eq_ok.mp h
  obtain ⟨scripted, hscripted, h⟩ := bind_eq_ok.mp h
  refine ⟨hlt, first, hfirst, bind_eq_ok.mpr ⟨named, hnamed, ?_⟩⟩
  refine bind_eq_ok.mpr ⟨scripted, hscripted, bind_eq_ok.mpr ⟨length, ?_, rfl⟩⟩
  rw [length_digits]
  exact h

/-- `script::length` with `script::eval` frames the call. -/
theorem eval_framed (ho : o.Lawful) (script : List UInt8) (keys : List (List UInt8))
    {args : List A} (hexact : ∀ arg ∈ args, Bulk.Exact arg) :
    o.Framed (scriptArguments script keys args) .plain
      ((scriptLength script keys args : Except (Error κ ε) Length).map Length.get)
      fun span => o.evalPrepared span script keys args := by
  refine Output.framed ho id (fun _ out => o.eval out script keys args) fun {last} hlast => ?_
  unfold scriptLength at hlast
  obtain ⟨start, hstart, hlast⟩ := bind_eq_ok.mp hlast
  obtain ⟨keyed, hkeyed, hlast⟩ := bind_eq_ok.mp hlast
  obtain ⟨hlt, first, hfirst, hstarted⟩ := scriptStart_eq_ok hstart
  have hall : (first.bulks ((scriptArguments script keys args).map List.length) :
      Except (Error κ ε) Length) = .ok last := by
    change first.bulks (([[69, 86, 65, 76], script, digits keys.length] ++
      (keys ++ args.map Bulk.bytes)).map List.length) = _
    rw [List.map_append, List.map_append, Length.bulks_append, ← map_len hexact]
    refine bind_eq_ok.mpr ⟨start, hstarted, ?_⟩
    rw [Length.bulks_append]
    exact bind_eq_ok.mpr ⟨keyed, hkeyed, hlast⟩
  rw [← length_scriptArguments script keys args] at hfirst
  obtain ⟨hcount, hargs, hget⟩ := Length.get_wire hfirst hall
  refine ⟨hget, ?_⟩
  have hslices : ∀ bytes ∈ scriptArguments script keys args,
      o.Wrote (argument bytes) fun out => (o.bulk out bytes : Except (Error κ ε) ω) := by
    intro bytes hmem
    have hwrote : o.Wrote (argument (Bulk.bytes bytes))
        fun out => (o.bulk out bytes : Except (Error κ ε) ω) :=
      Output.wrote_bulk ho (exact_slice bytes)
        ((congrArg List.length (bytes_slice bytes)).trans_le (hargs bytes hmem))
    rwa [bytes_slice] at hwrote
  have hkeys : o.Wrote (keys.flatMap argument)
      fun out => (o.bulks out keys : Except (Error κ ε) ω) :=
    Output.wrote_slices ho fun key hmem => hargs key (by simp [scriptArguments, hmem])
  have hargs' : o.Wrote ((args.map Bulk.bytes).flatMap argument)
      fun out => (o.bulks out args : Except (Error κ ε) ω) :=
    Output.wrote_bulks ho fun arg hmem => ⟨hexact arg hmem, hargs (Bulk.bytes arg) (by
      simp only [scriptArguments, List.mem_cons, List.mem_append, List.mem_map]
      exact Or.inr (Or.inr (Or.inr (Or.inr ⟨arg, hmem, rfl⟩))))⟩
  have hbody : o.Wrote ((scriptArguments script keys args).flatMap argument) fun out =>
      (o.bulk out ([69, 86, 65, 76] : List UInt8) : Except (Error κ ε) ω) >>= fun out =>
        o.bulk out script >>= fun out => o.bulk out (digits keys.length) >>= fun out =>
          o.bulks out keys >>= fun out => o.bulks out args := by
    unfold scriptArguments
    rw [List.flatMap_cons, List.flatMap_cons, List.flatMap_cons, List.flatMap_append]
    exact (hslices _ (by simp [scriptArguments])).bind
      ((hslices _ (by simp [scriptArguments])).bind
        ((hslices _ (by simp [scriptArguments])).bind (hkeys.bind hargs')))
  have hcounted : (scriptCount keys.length args.length : Except (Error κ ε) ℕ) =
      .ok (scriptArguments script keys args).length := by
    rw [length_scriptArguments]
    exact bind_eq_ok.mpr ⟨_, addCount_eq_ok.mpr ⟨by omega, rfl⟩, addCount_eq_ok.mpr ⟨hlt, rfl⟩⟩
  intro out hfit
  obtain ⟨out', hout, hwrites⟩ := Output.wrote_wire ho hcount hbody out hfit
  refine ⟨out', ?_, hwrites⟩
  unfold Output.eval
  rw [hcounted]
  exact hout

/-- With the right count, the lengths are measured one after the other. -/
theorem measure_sizes {declared : ℕ} (hdeclared : declared < 2 ^ 64) :
    ∀ {sizes : List ℕ} {a : ℕ} {self : Length}, a + sizes.length ≤ declared →
      (sizes.foldlM (measureSize declared) (a, self) : Except (Error κ ε) _) =
        (self.bulks sizes).map fun length => (a + sizes.length, length)
  | [], _, _, _ => rfl
  | size :: rest, a, self, hle => by
    rw [List.length_cons] at hle
    have hnext : (nextItem declared a : Except (Error κ ε) ℕ) = .ok (a + 1) :=
      nextItem_eq_ok.mpr ⟨by omega, by omega, rfl⟩
    rw [List.foldlM_cons, Length.bulks, List.foldlM_cons]
    unfold measureSize
    rw [hnext]
    cases hsize : (self.bulk size : Except (Error κ ε) Length) with
    | error e => rfl
    | ok mid =>
      simp only [bind, Except.bind]
      have hcount : a + 1 + rest.length ≤ declared := by omega
      refine (measure_sizes hdeclared hcount).trans ?_
      rw [List.length_cons, Nat.add_assoc, Nat.add_comm 1]
      rfl

theorem scriptLengths_eq {self : Length} {declared : ℕ} {sizes : List ℕ}
    (hlength : sizes.length = declared) (h : declared < 2 ^ 64) :
    (scriptLengths self declared sizes : Except (Error κ ε) Length) = self.bulks sizes := by
  unfold scriptLengths
  have hcheck : (checkItems declared declared : Except (Error κ ε) Unit) = .ok () :=
    checkItems_eq_ok.mpr rfl
  rw [measure_sizes h ((Nat.zero_add _).trans hlength).le, Nat.zero_add, hlength]
  cases (self.bulks sizes : Except (Error κ ε) Length) with
  | error e => rfl
  | ok length =>
    simp only [Except.map, bind, Except.bind, hcheck]

/-- `script::wire_len` computes the length of a call, or its error, from the lengths. -/
theorem wireLen_eq (script : List UInt8) (keys : List (List UInt8)) (args : List A) :
    (wireLen script keys.length (keys.map List.length) args.length (args.map Bulk.len) :
        Except (Error κ ε) ℕ) =
      (scriptLength script keys args).map Length.get := by
  unfold wireLen scriptLength
  cases hstart : (scriptStart script keys.length args.length : Except (Error κ ε) Length) with
  | error e => rfl
  | ok start =>
    obtain ⟨hlt, -⟩ := scriptStart_eq_ok hstart
    have hkeys : (scriptLengths start keys.length (keys.map List.length) :
        Except (Error κ ε) Length) = start.bulks (keys.map List.length) :=
      scriptLengths_eq (List.length_map ..) (by omega)
    simp only [bind, Except.bind]
    rw [hkeys]
    cases (start.bulks (keys.map List.length) : Except (Error κ ε) Length) with
    | error e => rfl
    | ok keyed =>
      have hargs : (scriptLengths keyed args.length (args.map Bulk.len) :
          Except (Error κ ε) Length) = keyed.bulks (args.map Bulk.len) :=
        scriptLengths_eq (List.length_map ..) (by omega)
      simp only
      rw [hargs]
      cases (keyed.bulks (args.map Bulk.len) : Except (Error κ ε) Length) with
      | error e => rfl
      | ok length => rfl

end Script

/-! ## Reading a frame back -/

open Cartel.Redis.Parser

theorem isLength_digits (n : ℕ) : IsLength (digits n) (.count n) := by
  have hcount : IsLength (digits n) (.count (decimal (digits n))) :=
    .count (digits_ne_nil n) fun _ hmem => mem_digits hmem
  rwa [show decimal (digits n) = n from foldl_digits n] at hcount

theorem encodes_argument (bytes : List UInt8) : (Reply.bulk bytes).Encodes (argument bytes) :=
  .bulk (isLength_digits bytes.length)

theorem encodesAll_arguments : ∀ args : List (List UInt8),
    Reply.EncodesAll (args.map .bulk) (args.flatMap argument)
  | [] => .nil
  | bytes :: rest => .cons (encodes_argument bytes) (encodesAll_arguments rest)

/-- A frame is the array of its arguments. -/
theorem encodes_wire (args : List (List UInt8)) :
    (Reply.array (args.map .bulk)).Encodes (wire args) := by
  refine .array ?_ (encodesAll_arguments args)
  rw [List.length_map]
  exact isLength_digits args.length

theorem nodesAll_arguments (args : List (List UInt8)) :
    Reply.nodesAll (args.map .bulk) = args.length := by
  induction args with
  | nil => rfl
  | cons bytes rest ih =>
    rw [List.map_cons, Reply.nodesAll, ih, List.length_cons, Nat.add_comm]
    rfl

theorem depthAll_arguments (args : List (List UInt8)) :
    Reply.depthAll (args.map .bulk) ≤ 1 := by
  rw [Reply.depthAll_le]
  intro value hmem
  obtain ⟨bytes, -, rfl⟩ := List.mem_map.mp hmem
  exact le_rfl

theorem listing_arguments (args : List (List UInt8)) :
    Reply.listingAll (args.map .bulk) = args.map .bulk := by
  induction args with
  | nil => rfl
  | cons bytes rest ih =>
    rw [List.map_cons, Reply.listingAll, ih]
    rfl

/-- A buffer that starts with a frame within the limits holds the array of its arguments. -/
theorem accepts_wire {β τ δ : Type} {c : Call β τ δ} {args : List (List UInt8)}
    {rest : List UInt8} (hbytes : c.bytes = wire args ++ rest)
    (hframe : (wire args).length ≤ c.byteMax.value)
    (hnodes : args.length + 1 ≤ c.nodeMax.value) :
    c.Accepts (wire args).length (.array (args.map .bulk)) := by
  have hcount : (Reply.array (args.map .bulk)).nodes ≤ c.nodeMax.value := by
    rw [Reply.nodes, nodesAll_arguments]
    omega
  refine ⟨?_, ?_, hframe, hcount, ?_, arrays_of_nodes hcount⟩
  · rw [hbytes, List.take_left]
    exact encodes_wire args
  · rw [hbytes, List.length_append]
    omega
  · exact (depthAll_arguments args).trans (by decide)

/-- Request framing is exact : for every command of the three encoders, for the length of a
script call computed from lengths, and for the parser reading a frame back. -/
theorem framing_exact (ho : o.Lawful) :
    (∀ (head tail : List (List UInt8)) (kind : Sensitivity),
      o.Framed (head ++ tail) kind
        ((encodeLength head tail : Except (Error κ ε) _).map fun a => a.2.get)
        fun span => o.encode span head tail kind) ∧
    (∀ {I : Type} [Arguments I] (head : List (List UInt8)) (declared : ℕ) (items : List I),
      o.Framed (head ++ items.flatMap Arguments.values) .plain
        ((sequenceLength head declared items : Except (Error κ ε) _).map fun a => a.2.get)
        fun span => o.sequence span head declared items) ∧
    (∀ {A : Type} [Bulk A] (script : List UInt8) (keys : List (List UInt8)) (args : List A),
      (∀ arg ∈ args, Bulk.Exact arg) →
        o.Framed (scriptArguments script keys args) .plain
          ((scriptLength script keys args : Except (Error κ ε) Length).map Length.get)
          (fun span => o.evalPrepared span script keys args) ∧
        (wireLen script keys.length (keys.map List.length) args.length (args.map Bulk.len) :
            Except (Error κ ε) ℕ) =
          (scriptLength script keys args).map Length.get) ∧
    ∀ {n conns : ℕ} {T ι δ : Type} [DecidableEq T] [DecidableEq ι] [Fintype ι]
      {s : Storage n conns T ι} {i : ι} {c : Call (Storage n conns T ι) (Option (Fin n)) δ}
      {ledger : Handle n ι → List Kind} {args : List (List UInt8)} {rest : List UInt8},
      c.builder = Storage.builder i → c.source.Exact c.bytes → s.val.tapes.Reached ledger →
      s.draft i = .empty → s.Unblocked i c.nodeMax.value → c.bytes = wire args ++ rest →
      (wire args).length ≤ c.byteMax.value → args.length + 1 ≤ c.nodeMax.value →
      ∃ tail, (c.scan .new s).1 = .complete ⟨wire args, some tail⟩ (wire args).length ∧
        ((c.scan .new s).2.2.val.tapes.stored (wire args) tail).reader.Lists
          (.array args.length :: args.map .bulk) := by
  refine ⟨encode_framed ho, sequence_framed ho, fun script keys args hexact =>
    ⟨eval_framed ho script keys hexact, wireLen_eq script keys args⟩, ?_⟩
  intro n conns T ι δ _ _ _ s i c ledger args rest hc hsource hreached hfresh hroom hbytes hframe
    hnodes
  obtain ⟨tail, hscan, -, hlists⟩ := Storage.scan_of_accepts hc hsource hreached.exact hfresh hroom
    (accepts_wire hbytes hframe hnodes)
  rw [hbytes, List.take_left] at hscan hlists
  rw [Reply.listing, List.length_map, listing_arguments] at hlists
  exact ⟨tail, hscan, hlists⟩

/-- A limit is what is left of it, the bytes in it and their sensitivity. -/
def plainOutput :
    Output Unit (ℕ × List UInt8 × Sensitivity) Unit (List UInt8 × Sensitivity) Unit where
  tryFrom _ length kind := .ok (length, [], kind)
  tryExtend out bytes :=
    if bytes.length ≤ out.1 then .ok (out.1 - bytes.length, out.2.1 ++ bytes, out.2.2)
    else .error ()
  remaining out := out.1
  intoParts out := out.2
  tryNew parts := if parts.1.isEmpty then .error () else .ok parts

theorem plainOutput_lawful : plainOutput.Lawful where
  fresh h := by
    obtain rfl := Except.ok.inj h
    exact ⟨rfl, rfl⟩
  extend bytes h := ⟨_, if_pos h, Nat.sub_add_cancel h, rfl⟩

/-- `PING`. -/
def ping : List (List UInt8) :=
  [[80, 73, 78, 71]]

/-- The frame of `PING` and one byte more, on a fresh port. -/
def pingCall : Call (Storage 3 1 ℕ Bool) (Option (Fin 3)) Unit :=
  { Storage.freshCall with bytes := wire ping ++ [43] }

theorem framing_exact_ping :
    plainOutput.encode () ping [] .plain = .ok (wire ping, .plain) ∧
      ∃ tail, (pingCall.scan .new Storage.fresh).1 = .complete ⟨wire ping, some tail⟩ 14 := by
  obtain ⟨hencode, -, -, hread⟩ := framing_exact plainOutput_lawful
  have hlength : ((encodeLength ping [] : Except (Error Unit Unit) _).map fun a => a.2.get) =
    .ok 14 := rfl
  have hroom : Storage.fresh.Unblocked false pingCall.nodeMax.value := ⟨by decide, rfl⟩
  have hwire : (wire ping).length = 14 := rfl
  obtain ⟨tail, hscan, -⟩ := hread (i := false) (c := pingCall) rfl (Source.exact_spec _) .new rfl
    hroom rfl (by decide) (by decide)
  rw [hwire] at hscan
  exact ⟨(hencode ping [] .plain).written hlength rfl, tail, hscan⟩

end Cartel.Redis.Request
