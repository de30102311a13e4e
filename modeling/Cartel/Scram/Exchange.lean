import Cartel.Lib.Outcome
import Cartel.Scram.Derive

/-!
# The exchange

The state of `Scram` : the client waits for the server-first message with its nonce,
derives the keys, waits for the server-final message with the signature it expects, and is
complete. Here are its transitions, and the message that `write_final` writes.

The functions of `base64` are a parameter (`Engine`), and so are the writer of a frame and
whether memory for a copy of a message is granted.
-/

namespace Cartel.Pg.Scram

open Cartel.Lib

/-! ## Errors -/

/-- `Base64`. -/
inductive Base64 where
  | invalidByte (index : ℕ) (byte : UInt8)
  | invalidLength (length : ℕ)
  | invalidLastSymbol (offset : ℕ) (symbol symbolValue : UInt8)
  | invalidPadding
  | outputSliceTooSmall
  deriving DecidableEq

/-- The error with its place moved. -/
def Base64.shift (base : ℕ) : Base64 → Base64
  | invalidByte index byte => .invalidByte (index + base) byte
  | invalidLength length => .invalidLength (length + base)
  | invalidLastSymbol offset symbol symbolValue =>
    .invalidLastSymbol (offset + base) symbol symbolValue
  | invalidPadding => .invalidPadding
  | outputSliceTooSmall => .outputSliceTooSmall

/-- `crate::Error`, as far as the exchange causes it. -/
inductive Error where
  | allocation
  | auth (reason : Reason)
  | protocol (reason : Reason)
  | request
  | requestEgress
  | scram (error : ServerError)
  | scramIterations (actual minimum maximum : ℕ)
  | serverFinal (reason : Reason)
  | serverFinalBase64 (error : Base64)
  | serverFirst (reason : Reason)
  | serverFirstBase64 (error : Base64)
  | unexpectedSaslMessage (typ : UInt8)
  deriving DecidableEq

/-- `general_purpose::STANDARD` : `internal_encode`, and `decode_slice` into a slice of a
length. -/
structure Engine where
  internalEncode : List UInt8 → List UInt8
  decodeSlice : List UInt8 → ℕ → Except Base64 (List UInt8)

/-! ## The state -/

/-- `Deriving`. -/
structure Deriving where
  serverFirst : Retained
  key : KdfKey
  deriving DecidableEq

/-- `State`. -/
inductive State where
  | awaitServerFirst (nonce : Vector UInt8 24)
  | derivation (keys : Deriving)
  | awaitServerFinal (signature : Secret32)
  | complete
  deriving DecidableEq

/-- `try_iterations`. -/
def tryIterations (rounds : ℕ) : Except Error Iterations :=
  if h : 4096 ≤ rounds ∧ rounds ≤ 100000 then .ok ⟨rounds, h.1, h.2⟩
  else .error (.scramIterations rounds 4096 100000)

/-- The chunks of four bytes of a text. -/
def quanta (encoded : List UInt8) : List (List UInt8) :=
  blocks 4 ((encoded.length + 3) / 4) encoded

section Model

variable (engine : Engine) (retains : ℕ → Bool) (compress256 : Words → List UInt8 → Words)

/-- The loop of `decode_base64`. -/
def decodeFrom {σ : Type} (write : σ → List UInt8 → σ) :
    ℕ → List (List UInt8) → σ → Except Error σ
  | _, [], state => .ok state
  | index, chunk :: chunks, state =>
    match if chunks = [] then none else chunk.findIdx? (· = 61) with
    | some position => .error (.serverFirst (.saltPadding (index * 4 + position)))
    | none =>
      match engine.decodeSlice chunk 3 with
      | .error error => .error (.serverFirstBase64 (error.shift (index * 4)))
      | .ok decoded => decodeFrom write (index + 1) chunks (write state decoded)

/-- `decode_base64`. -/
def decodeBase64 {σ : Type} (write : σ → List UInt8 → σ) (encoded : List UInt8) (state : σ) :
    Except Error σ :=
  decodeFrom engine write 0 (quanta encoded) state

/-- The first byte of the nonce that is not the client's. -/
def nonceMismatch (nonce expected : List UInt8) : Option Reason :=
  ((nonce.zip expected).zipIdx.find? fun item => item.1.1 ≠ item.1.2).map fun item =>
    .nonceByte item.2 item.1.1 item.1.2

/-- The check of the server's nonce. -/
def checkNonce (nonce expected : List UInt8) : Except Error Unit :=
  if nonce.length ≤ expected.length then
    .error (.serverFirst (.nonceLength nonce.length (expected.length + 1)))
  else
    match nonceMismatch nonce expected with
    | some reason => .error (.serverFirst reason)
    | none => .ok ()

/-- `Scram::begin`. -/
def begin (state : State) (password bytes : List UInt8) : Except Error State :=
  match state with
  | .awaitServerFirst expected => do
    let parsed ← (serverFirst bytes).mapError .serverFirst
    let nonce := slice parsed.input parsed.nonce
    let salt := slice parsed.input parsed.salt
    checkNonce nonce expected.toList
    let (inner, outer) := hmac compress256 password iv iv
    let first : Sha256 := ⟨inner, (Sha256.new 64).block, 64⟩
    let first ← decodeBase64 engine (·.update compress256) salt first
    let iterations ← tryIterations parsed.iterations
    if retains parsed.input.length then
      let first := first.update compress256 (bigEndian 4 1)
      let start := (first.hmac compress256 outer (.replicate 32 0)).2
      return .derivation ⟨⟨parsed.input, parsed.nonce⟩, ⟨start, iterations⟩⟩
    else .error .allocation
  | _ => .error (.protocol .duplicateServerFirst)

/-- `Scram::verify_final`. -/
def verifyFinal (state : State) (bytes : List UInt8) : Except Error State :=
  match state with
  | .awaitServerFinal expected => do
    match ← (serverFinal bytes).mapError .serverFinal with
    | .error error => .error (.scram error)
    | .verifier encoded =>
      let actual ← (engine.decodeSlice encoded 33).mapError .serverFinalBase64
      if actual.length ≠ 32 then .error (.serverFinal (.signatureLength actual.length 32))
      else if expected.toList ≠ actual then .error (.serverFinal .signatureMismatch)
      else return .complete
  | _ => .error (.protocol .finalState)

/-- `Scram::finish`. -/
def finish (state : State) : Except Error Unit :=
  if state = .complete then .ok () else .error (.protocol .authBeforeFinal)

/-- `hmac_auth_message`. -/
def hmacAuthMessage (key : Secret32) (client first server : List UInt8) : Secret32 :=
  let (inner, outer) := hmac compress256 key.toList iv iv
  let mac : Sha256 := ⟨inner, (Sha256.new 64).block, 64⟩
  let mac := [ascii "n=,r=", client, ascii ",", first, ascii ",c=biws,r=", server].foldl
    (·.update compress256) mac
  (mac.hmac compress256 outer (.replicate 32 0)).2

/-- `Deriving::write_final`, with `extend` of the writer : what is written, and the
signature that the server has to give. -/
def Deriving.writeFinal {ω ε : Type} (extend : ω → List UInt8 → Except ε ω) (state : Deriving)
    (keys : Keys) (out : ω) : Except ε (ω × Secret32) := do
  let first := state.serverFirst
  let nonce := first.nonce
  let client := nonce.take 24
  let signature := hmacAuthMessage compress256 keys.stored client first.bytes nonce
  let proof := Vector.zipWith (· ^^^ ·) signature keys.client
  let encoded : Vector UInt8 44 :=
    copyAt (.replicate 44 61) 0 (engine.internalEncode proof.toList)
  let expected := hmacAuthMessage compress256 keys.server client first.bytes nonce
  let out ← extend out (ascii "c=biws,r=")
  let out ← extend out nonce
  let out ← extend out (ascii ",p=")
  let out ← extend out encoded.toList
  return (out, expected)

end Model

/-! ## What each transition does -/

section Spec

variable {engine : Engine} {retains : ℕ → Bool} {compress256 : Words → List UInt8 → Words}

/-- The bytes that a salt stands for, quantum by quantum. -/
def Decoded (engine : Engine) (encoded bytes : List UInt8) : Prop :=
  ∃ pieces, List.Forall₂ (fun chunk piece => engine.decodeSlice chunk 3 = .ok piece)
    (quanta encoded) pieces ∧ bytes = pieces.flatten

theorem decodeFrom_eq_ok {σ : Type} {write : σ → List UInt8 → σ} :
    ∀ {index : ℕ} {chunks : List (List UInt8)} {state state' : σ},
      decodeFrom engine write index chunks state = .ok state' →
        ∃ pieces, List.Forall₂ (fun chunk piece => engine.decodeSlice chunk 3 = .ok piece)
          chunks pieces ∧ state' = pieces.foldl write state
  | _, [], _, _, h => by
    cases h
    exact ⟨[], .nil, rfl⟩
  | index, chunk :: chunks, state, state', h => by
    rw [decodeFrom] at h
    split at h
    · cases h
    · split at h
      · cases h
      · rename_i decoded hdecoded
        obtain ⟨pieces, hpieces, rfl⟩ := decodeFrom_eq_ok h
        exact ⟨decoded :: pieces, .cons hdecoded hpieces, rfl⟩

theorem nonceMismatch_eq_none {nonce expected : List UInt8} (h : nonceMismatch nonce expected = none)
    (hle : expected.length ≤ nonce.length) : nonce.take expected.length = expected := by
  unfold nonceMismatch at h
  rw [Option.map_eq_none_iff, List.find?_eq_none] at h
  refine List.ext_getElem (by rw [List.length_take]; omega) fun i hi hi' => ?_
  have hlt : i < nonce.length := by omega
  have hmem : ((nonce[i], expected[i]), i) ∈ (nonce.zip expected).zipIdx := by
    refine List.mem_iff_getElem.mpr ⟨i, by simp; omega, ?_⟩
    simp
  have hne := h _ hmem
  rw [List.getElem_take]
  simpa using hne

theorem checkNonce_eq_ok {nonce expected : List UInt8} (h : checkNonce nonce expected = .ok ()) :
    expected.length < nonce.length ∧ nonce.take expected.length = expected := by
  unfold checkNonce at h
  split_ifs at h with hle
  split at h
  · cases h
  · rename_i hmismatch
    exact ⟨Nat.lt_of_not_le hle, nonceMismatch_eq_none hmismatch (by omega)⟩

theorem tryIterations_eq_ok {rounds : ℕ} {iterations : Iterations}
    (h : tryIterations rounds = .ok iterations) : iterations.get = rounds := by
  unfold tryIterations at h
  split_ifs at h
  cases h
  rfl

theorem serverFirst_input {bytes : List UInt8} {parsed : ServerFirst}
    (h : serverFirst bytes = .ok parsed) : parsed.input = bytes := by
  unfold serverFirst at h
  obtain ⟨nonce, -, h⟩ := bind_eq_ok.mp h
  dsimp only at h
  split at h
  · cases h
  · obtain ⟨salt, -, h⟩ := bind_eq_ok.mp h
    obtain ⟨count, -, h⟩ := bind_eq_ok.mp h
    obtain ⟨iterations, -, h⟩ := bind_eq_ok.mp h
    obtain ⟨-, -, h⟩ := bind_eq_ok.mp h
    cases h
    rfl

/-- What `begin` has established : the server's nonce goes on from the client's, and the
key is the first value of PBKDF2 with the count of the message. -/
structure Begun (engine : Engine) (compress256 : Words → List UInt8 → Words)
    (password bytes : List UInt8) (client : Vector UInt8 24) (keys : Deriving) : Prop where
  parsed : ∃ parsed, serverFirst bytes = .ok parsed ∧ keys.serverFirst.range = parsed.nonce ∧
    keys.key.iterations.get = parsed.iterations ∧
    ∃ salt, Decoded engine (slice bytes parsed.salt) salt ∧
      keys.key.first.toList = pbkdf2Start (sha256 compress256).hmac password salt
  message : keys.serverFirst.bytes = bytes
  longer : 24 < keys.serverFirst.nonce.length
  agrees : keys.serverFirst.nonce.take 24 = client.toList

theorem begin_eq_ok {state state' : State} {password bytes : List UInt8}
    (h : begin engine retains compress256 state password bytes = .ok state') :
    ∃ client keys, state = .awaitServerFirst client ∧ state' = .derivation keys ∧
      Begun engine compress256 password bytes client keys := by
  unfold begin at h
  split at h
  · rename_i expected
    obtain ⟨parsed, hparsed, h⟩ := bind_eq_ok.mp h
    obtain ⟨⟨⟩, hnonce, h⟩ := bind_eq_ok.mp h
    dsimp only at h
    rw [hmac_eq] at h
    dsimp only at h
    obtain ⟨hash, hdecode, h⟩ := bind_eq_ok.mp h
    obtain ⟨iterations, hiterations, h⟩ := bind_eq_ok.mp h
    split_ifs at h
    cases h
    have hparsed := mapError_eq_ok.mp hparsed
    have hinput := serverFirst_input hparsed
    obtain ⟨pieces, hpieces, rfl⟩ := decodeFrom_eq_ok hdecode
    obtain ⟨hlonger, hagrees⟩ := checkNonce_eq_ok hnonce
    rw [Vector.length_toList] at hlonger hagrees
    refine ⟨expected, _, rfl, rfl, ⟨parsed, hparsed, rfl, tryIterations_eq_ok hiterations,
      pieces.flatten, ⟨pieces, hinput ▸ hpieces, rfl⟩, ?_⟩, hinput, hlonger, hagrees⟩
    have hkeyed := (@Sha256.absorbed_keyed compress256 password (Sha256.new 64).block).updates
      pieces
    have hstart := hkeyed.update (bigEndian 4 1)
    rw [List.append_assoc] at hstart
    exact hstart.hmac _
  · cases h

theorem verifyFinal_eq_ok {state state' : State} {bytes : List UInt8}
    (h : verifyFinal engine state bytes = .ok state') :
    ∃ signature encoded, state = .awaitServerFinal signature ∧ state' = .complete ∧
      serverFinal bytes = .ok (.verifier encoded) ∧
        engine.decodeSlice encoded 33 = .ok signature.toList := by
  unfold verifyFinal at h
  split at h
  · rename_i expected
    obtain ⟨final, hfinal, h⟩ := bind_eq_ok.mp h
    split at h
    · cases h
    · rename_i encoded
      obtain ⟨actual, hactual, h⟩ := bind_eq_ok.mp h
      split_ifs at h with hlength hequal
      cases h
      refine ⟨expected, encoded, rfl, rfl, mapError_eq_ok.mp hfinal, ?_⟩
      rw [not_not.mp hequal]
      exact mapError_eq_ok.mp hactual
  · cases h

theorem toList_hmacAuthMessage (key : Secret32) (client first server : List UInt8) :
    (hmacAuthMessage compress256 key client first server).toList =
      (sha256 compress256).hmac key.toList (authMessage client first server) := by
  have hkeyed := (@Sha256.absorbed_keyed compress256 key.toList (Sha256.new 64).block).updates
    [ascii "n=,r=", client, ascii ",", first, ascii ",c=biws,r=", server]
  unfold hmacAuthMessage
  rw [hmac_eq]
  dsimp only
  rw [hkeyed.hmac]
  unfold authMessage
  simp only [List.flatten_cons, List.flatten_nil, List.append_nil, List.append_assoc]

/-- `internal_encode` writes 43 symbols for 32 bytes. -/
def Engine.Lawful (engine : Engine) : Prop :=
  ∀ bytes, bytes.length = 32 → (engine.internalEncode bytes).length = 43

/-- The proof is the client key and the signature of the client, combined. -/
theorem toList_proof {keys : Keys} {salted auth : List UInt8} {signature : Secret32}
    (hkeys : keys.Of compress256 salted)
    (h : signature.toList = (sha256 compress256).hmac (storedKey (sha256 compress256) salted) auth) :
    (Vector.zipWith (· ^^^ ·) signature keys.client).toList =
      clientProof (sha256 compress256) salted auth := by
  rw [Vector.toList_zipWith, h, hkeys.client]
  exact List.zipWith_comm_of_comm UInt8.xor_comm

/-- The final message carries the proof of the keys, and the signature is the server's. -/
theorem Deriving.writeFinal_eq {ω ε : Type} {extend : ω → List UInt8 → Except ε ω}
    {state : Deriving} {keys : Keys} {salted : List UInt8} (hengine : engine.Lawful)
    (hkeys : keys.Of compress256 salted) (out : ω) :
    ∃ signature : Secret32,
      signature.toList = serverSignature (sha256 compress256) salted
        (authMessage (state.serverFirst.nonce.take 24) state.serverFirst.bytes
          state.serverFirst.nonce) ∧
      state.writeFinal engine compress256 extend keys out = (do
        let out ← extend out (ascii "c=biws,r=")
        let out ← extend out state.serverFirst.nonce
        let out ← extend out (ascii ",p=")
        let out ← extend out (engine.internalEncode (clientProof (sha256 compress256) salted
          (authMessage (state.serverFirst.nonce.take 24) state.serverFirst.bytes
            state.serverFirst.nonce)) ++ ascii "=")
        return (out, signature)) := by
  have hclient := @toList_hmacAuthMessage compress256 keys.stored
    (state.serverFirst.nonce.take 24) state.serverFirst.bytes state.serverFirst.nonce
  have hserver := @toList_hmacAuthMessage compress256 keys.server
    (state.serverFirst.nonce.take 24) state.serverFirst.bytes state.serverFirst.nonce
  rw [hkeys.stored] at hclient
  rw [hkeys.server] at hserver
  have hlength := hengine (clientProof (sha256 compress256) salted
    (authMessage (state.serverFirst.nonce.take 24) state.serverFirst.bytes
      state.serverFirst.nonce)) (by
        rw [← toList_proof hkeys hclient, Vector.length_toList])
  refine ⟨_, hserver, ?_⟩
  unfold Deriving.writeFinal
  dsimp only
  rw [toList_proof hkeys hclient, toList_copyAt (by omega), hlength]
  rfl

end Spec

end Cartel.Pg.Scram
