import Cartel.Scram.Standard
import Cartel.Scram.Wakes

/-!
# The values of the exchange

Whatever the pieces a text is hashed in, and however the tickets of all connections are
polled, the keys that an exchange gets are those of its password, salt and iteration count,
and its final message carries their proof (`values`).
-/

namespace Cartel.Pg.Scram

open Cartel.Lib

/-! ## Driving a derivation -/

namespace Sys

variable {ω : Type} [DecidableEq ω] {compress256 : Words → List UInt8 → Words}
  {password : List UInt8} {s : Sys ω} {o : ω}

/-- A state in which the ticket `o` is polled for its keys can be reached, with the keys that the
tickets have in `s`. -/
def Yields (compress256 : Words → List UInt8 → Words) (password : List UInt8) (key : ω → KdfKey)
    (o : ω) : Prop :=
  ∃ (s : Sys ω) (p : Polled ω) (keys : Keys), s.Reached compress256 password ∧ s.key = key ∧
    s.runtime.poll compress256 o (s.key o) password = some p ∧ p.keys = some keys

/-- The front of a lane gets its keys, if it is polled often enough. -/
theorem Reached.yields {i : Index} (n : ℕ) : ∀ {s : Sys ω} {kdf : Kdf},
    s.Reached compress256 password → s.runtime.waiters.member o = some (some i) →
      s.runtime.front (some i) = some o →
        s.runtime.coordinator.entries i = some ⟨s.key o, .computing kdf⟩ → kdf.remaining = n →
          Yields compress256 password s.key o := by
  induction n using Nat.strong_induction_on with
  | _ n ih =>
    intro s kdf h hmember hfront hentry hn
    obtain ⟨p, hpoll, hturn⟩ := h.inv.1.poll_turn o
    have hjob : ∀ {j}, s.runtime.waiters.member o = some (some j) → j = i := fun hj =>
      Option.some.inj (Option.some.inj (hj.symm.trans hmember))
    have hnot : s.runtime.waiters.member o ≠ some none := by
      rw [hmember]
      exact nofun
    cases hturn with
    | gone hnone =>
      rw [hmember] at hnone
      cases hnone
    | waits hnone | joins hnone | starts hnone => exact absurd hnone hnot
    | behind hj hbehind =>
      rw [hjob hj] at hbehind
      exact absurd hfront hbehind
    | @advances j kdf' hj _ hentry' hmore =>
      have hij := hjob hj
      subst hij
      rw [hentry] at hentry'
      cases hentry'
      have hremaining : (kdf.advance compress256).1.remaining = kdf.remaining - 256 :=
        ((Runtime.Inv.ran h.inv.1 j _ hentry).1.advance Vector.length_toList).2.1
      have hstep := h.step (.poll hpoll)
      have hyields := ih (kdf.remaining - 256) (by omega) hstep hmember hfront
        (Runtime.advanced_entries hentry) hremaining
      exact hyields
    | completes | takes => exact ⟨s, _, _, h, rfl, hpoll, rfl⟩

/-- The first ticket gets its keys, if it is polled often enough. -/
theorem yields_first (key : ω → KdfKey) (o : ω) : Yields compress256 password key o := by
  have hnew : (⟨.new, key, fun _ => 0, ∅⟩ : Sys ω).Reached compress256 password := .new key
  have hcreate := hnew.step (.create (o := o) (key o) rfl)
  have hmember : (Runtime.new.tryEntry o).waiters.member o = some none := Function.update_self ..
  obtain ⟨p, hpoll, hturn⟩ := hcreate.inv.1.poll_turn o
  have hreached := hcreate.step (.poll hpoll)
  have hnone : ∀ {i}, (Runtime.new.tryEntry o).coordinator.entries i = none := rfl
  have hkey : Function.update key o (key o) = key := Function.update_eq_self ..
  cases hturn with
  | gone hgone => exact nomatch hmember.symm.trans hgone
  | waits _ hselect =>
    have hfew : Coordinator.new.computing ≠ 4 := by decide
    exact absurd (Or.inr ⟨Or.inl rfl, hfew, Or.inl ⟨.ofNat 6 0, rfl⟩⟩) hselect
  | joins _ hentry => exact nomatch hnone.symm.trans hentry
  | @starts i cached _ _ _ _ =>
    have hentry : ((Runtime.new.tryEntry o).coordinator.insert i cached ⟨key o, .computing
        (Kdf.new compress256 password (key o))⟩).entries i = some ⟨key o, .computing
          (Kdf.new compress256 password (key o))⟩ := Function.update_self ..
    have hfront : ((Runtime.new.tryEntry o).waiters.push o i).front (some i) = some o := by
      unfold Waiters.front Waiters.push
      dsimp only
      rw [Function.update_self]
      rfl
    have hadvanced := @Runtime.advanced_entries ω _
      ⟨(Runtime.new.tryEntry o).waiters.push o i, _⟩ i _ _
        (.computing ((Kdf.new compress256 password (key o)).advance compress256).1) hentry
    rw [← hkey]
    have hyields := Reached.yields _ hreached Waiters.member_push_self hfront
      (hkey.symm ▸ hadvanced) rfl
    exact hyields
  | behind hjob | advances hjob | completes hjob => exact nomatch hmember.symm.trans hjob
  | takes _ hentry => exact nomatch hnone.symm.trans hentry

end Sys

/-! ## The values -/

section Values

variable {engine : Engine} {retains : ℕ → Bool} {compress256 : Words → List UInt8 → Words}

/-- An exchange has the values of a salted password : the keys that a poll passes on, the proof
in the final message and the signature that the server has to give. -/
structure Deriving.Carries (engine : Engine) (compress256 : Words → List UInt8 → Words)
    (password client bytes salted : List UInt8) (keys : Deriving) : Prop where
  message : keys.serverFirst.bytes = bytes
  agrees : keys.serverFirst.nonce.take 24 = client
  passed : ∀ {ω : Type} [DecidableEq ω] (s : Sys ω) (o : ω) (p : Polled ω) (k : Keys),
    s.Reached compress256 password → s.key o = keys.key →
      s.runtime.poll compress256 o (s.key o) password = some p → p.keys = some k →
        k.Of compress256 salted
  written : ∀ {ω ε : Type} (extend : ω → List UInt8 → Except ε ω) (k : Keys) (out : ω),
    k.Of compress256 salted → ∃ signature : Secret32,
      signature.toList = serverSignature (sha256 compress256) salted
        (authMessage client bytes keys.serverFirst.nonce) ∧
      keys.writeFinal engine compress256 extend k out = (do
        let out ← extend out (ascii "c=biws,r=")
        let out ← extend out keys.serverFirst.nonce
        let out ← extend out (ascii ",p=")
        let out ← extend out (engine.internalEncode (clientProof (sha256 compress256) salted
          (authMessage client bytes keys.serverFirst.nonce)) ++ ascii "=")
        return (out, signature))

/-- The key of an exchange is the one of its password, its salt and its iteration count. -/
theorem Begun.carries {password bytes : List UInt8} {client : Vector UInt8 24} {keys : Deriving}
    (hengine : engine.Lawful) (h : Begun engine compress256 password bytes client keys) :
    ∃ parsed salt, serverFirst bytes = .ok parsed ∧
      Decoded engine (slice bytes parsed.salt) salt ∧
      keys.key.iterations.get = parsed.iterations ∧
      keys.key.first.toList = pbkdf2Start (sha256 compress256).hmac password salt ∧
      keys.Carries engine compress256 password client.toList bytes
        (pbkdf2 (sha256 compress256).hmac password salt parsed.iterations) := by
  obtain ⟨parsed, hparsed, -, hiterations, salt, hdecoded, hfirst⟩ := h.parsed
  refine ⟨parsed, salt, hparsed, hdecoded, hiterations, hfirst, h.message, h.agrees, ?_, ?_⟩
  · intro ω _ s o p k hreached hkey hpoll hk
    have hkeys := hreached.inv.1.poll_keys hpoll hk
    rw [hkey, hfirst, hiterations] at hkeys
    exact hkeys
  · intro ω ε extend k out hkeys
    obtain ⟨signature, hsignature, hwritten⟩ :=
      @Deriving.writeFinal_eq _ _ _ _ extend keys k _ hengine hkeys out
    rw [h.agrees, h.message] at hsignature hwritten
    exact ⟨signature, hsignature, hwritten⟩

/-- The values of SCRAM-SHA-256 are those of the standards. -/
theorem values (hengine : engine.Lawful) :
    (∀ pieces : List (List UInt8), stateBytes
      (((pieces.foldl (·.update compress256) (Sha256.new 0)).finalize compress256).state) =
        (sha256 compress256).hash pieces.flatten) ∧
    ∀ (password bytes : List UInt8) (client : Vector UInt8 24) (keys : Deriving),
      begin engine retains compress256 (.awaitServerFirst client) password bytes =
        .ok (.derivation keys) →
          ∃ parsed salt, serverFirst bytes = .ok parsed ∧
            Decoded engine (slice bytes parsed.salt) salt ∧
            keys.key.iterations.get = parsed.iterations ∧
            keys.key.first.toList = pbkdf2Start (sha256 compress256).hmac password salt ∧
            keys.Carries engine compress256 password client.toList bytes
              (pbkdf2 (sha256 compress256).hmac password salt parsed.iterations) := by
  refine ⟨digest_pieces, fun password bytes client keys h => ?_⟩
  obtain ⟨client', keys', hclient, hkeys, hbegun⟩ := begin_eq_ok h
  cases hclient
  cases hkeys
  exact hbegun.carries hengine

end Values

/-! ## An exchange -/

theorem serverFirst_ok {bytes : List UInt8} {nonce salt count : Attribute}
    {behindNonce behindSalt behindCount : Attributes} {iterations : ℕ}
    (hnonce : (Attributes.new bytes).required 114 = .ok (nonce, behindNonce))
    (hchars : refused isNonceChar nonce.value = none)
    (hsalt : behindNonce.required 115 = .ok (salt, behindSalt))
    (hcount : behindSalt.required 105 = .ok (count, behindCount))
    (hiterations : positiveU32 count.value count.start = .ok iterations)
    (hend : behindCount.extensions = .ok ()) :
    serverFirst bytes = .ok ⟨bytes, (nonce.start, nonce.start + nonce.value.length),
      (salt.start, salt.start + salt.value.length), iterations⟩ := by
  simp only [serverFirst, hnonce, hchars, hsalt, hcount, hiterations, hend, bind, Except.bind,
    Except.mapError, pure, Except.pure]

namespace Pencil

/-- The nonce of the client. -/
def client : Vector UInt8 24 :=
  ⟨⟨ascii "rOprNGfwEbeRWgbNEkqOhvYD"⟩, rfl⟩

/-- The server-first message. -/
def message : List UInt8 :=
  ascii "r=rOprNGfwEbeRWgbNEkqOhvYDpWUa2RaTCA,s=W22ZaJ0SNY7soEsUEjb6gQ==,i=4096"

theorem serverFirst_message : serverFirst message = .ok ⟨message, (2, 36), (39, 63), 4096⟩ := by
  have hnonce : (Attributes.new message).required 114 =
      .ok (⟨114, (message.drop 2).take 34, 2⟩, ⟨some (message.drop 37), 70⟩) := by decide
  have hsalt : (⟨some (message.drop 37), 70⟩ : Attributes).required 115 =
      .ok (⟨115, (message.drop 39).take 24, 39⟩, ⟨some (message.drop 64), 70⟩) := by decide
  have hcount : (⟨some (message.drop 64), 70⟩ : Attributes).required 105 =
      .ok (⟨105, (message.drop 66).take 4, 66⟩, ⟨none, 70⟩) := by decide
  have hend : (⟨none, 70⟩ : Attributes).extensions = .ok () := by
    unfold Attributes.extensions
    rw [Attributes.extensionsFrom]
    rfl
  exact serverFirst_ok hnonce (by decide) hsalt hcount (by decide) hend

/-- The salt of the message. -/
def salt : List UInt8 :=
  [91, 109, 153, 104, 157, 18, 53, 142, 236, 160, 75, 20, 18, 54, 250, 129]

theorem decodeBase64_salt {σ : Type} (write : σ → List UInt8 → σ) (state : σ) :
    decodeBase64 Standard.engine write (slice message (39, 63)) state =
      .ok ((blocks 3 6 salt).foldl write state) := rfl

theorem begin_message : ∃ keys, begin Standard.engine (fun _ => true) Standard.compress256
    (.awaitServerFirst client) (ascii "pencil") message = .ok (.derivation keys) := by
  have hnonce : checkNonce (slice message (2, 36)) client.toList = .ok () := by decide
  have hiterations : tryIterations 4096 = .ok ⟨4096, by decide, by decide⟩ := rfl
  simp only [begin, serverFirst_message, hnonce, decodeBase64_salt, hiterations, bind, Except.bind,
    Except.mapError, pure, Except.pure, if_true]
  exact ⟨_, rfl⟩

end Pencil

/-- The keys of an exchange, and a run that passes them on. -/
theorem values_pencil : ∃ keys parsed salt,
    begin Standard.engine (fun _ => true) Standard.compress256 (.awaitServerFirst Pencil.client)
      (ascii "pencil") Pencil.message = .ok (.derivation keys) ∧
    serverFirst Pencil.message = .ok parsed ∧
    Decoded Standard.engine (slice Pencil.message parsed.salt) salt ∧
    keys.Carries Standard.engine Standard.compress256 (ascii "pencil") Pencil.client.toList
      Pencil.message (pbkdf2 (sha256 Standard.compress256).hmac (ascii "pencil") salt
        parsed.iterations) ∧
    Sys.Yields Standard.compress256 (ascii "pencil") (fun _ : ℕ => keys.key) 0 := by
  obtain ⟨keys, hbegin⟩ := Pencil.begin_message
  obtain ⟨parsed, salt, hparsed, hdecoded, -, -, hcarries⟩ :=
    (values Standard.engine_lawful).2 _ _ _ _ hbegin
  exact ⟨keys, parsed, salt, hbegin, hparsed, hdecoded, hcarries, Sys.yields_first _ 0⟩

end Cartel.Pg.Scram
