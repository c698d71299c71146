import Stra2us.Client.Cli
import Stra2us.Server.Signed

namespace Stra2us.Client

open Foundation Server

namespace Stra2usClient

section Verify

variable (hmac : Hmac) (client : Stra2usClient)

def clockDriftSeconds : Nat := 300

-- `_verify_resp`, over the two headers as they came. The timestamp is signed as it is
-- written and compared as it is read.
def verifyResp (uri : Text) (body : Bytes) (ts sig : Option Text) (now : Int) :
    Except Exn Unit :=
  match ts, sig with
  | some (c :: rest), some (d :: rest') =>
      match parseInt (c :: rest) with
      | none => .error (.python "ValueError".toList)
      | some n =>
          if (now - n).natAbs > clockDriftSeconds then .error error
          else do
            let secret ← client.secretBytes
            let valid ← compareDigest
              (hexdigest (hmac secret (utf8 uri ++ body ++ utf8 (c :: rest)))) (d :: rest')
            if valid then .ok () else .error error
  | _, _ => .error error

end Verify

section Accepted

variable {hmac : Hmac} {client : Stra2usClient} {uri : Text} {body : Bytes} {now : Int}

-- The text reads as a time the client takes for the present.
def ReadsFresh (now : Int) (tsText : Text) : Prop :=
  ∃ n, parseInt tsText = some n ∧ (now - n).natAbs ≤ clockDriftSeconds

theorem parseInt_nil : parseInt [] = none := rfl

-- A digest under the client's secret is accepted on the answers it is the digest of.
theorem verifyResp_iff {secret message : Bytes} {tsText : Text} (hideal : IdealMac hmac)
    (hsecret : fromHex client.secretHex = some secret) :
    client.verifyResp hmac uri body (some tsText) (some (hexdigest (hmac secret message))) now =
        .ok () ↔
      ReadsFresh now tsText ∧ utf8 uri ++ body ++ utf8 tsText = message := by
  have hne : hexdigest (hmac secret message) ≠ [] := by
    intro hnil
    exact hideal.nonempty _ _ (hexdigest_injective hnil)
  obtain ⟨d, rest', hsig⟩ := List.exists_cons_of_ne_nil hne
  cases tsText with
  | nil =>
      constructor
      · intro h
        cases h
      · rintro ⟨⟨n, hn, -⟩, -⟩
        rw [parseInt_nil] at hn
        cases hn
  | cons c rest =>
      have hbytes : client.secretBytes = .ok secret := by
        rw [secretBytes, hsecret]
      rw [hsig]
      unfold verifyResp
      dsimp only
      rw [← hsig]
      cases hparse : parseInt (c :: rest) with
      | none =>
          constructor
          · intro h
            cases h
          · rintro ⟨⟨n, hn, -⟩, -⟩
            rw [hparse] at hn
            cases hn
      | some n =>
          dsimp only
          by_cases hdrift : (now - n).natAbs > clockDriftSeconds
          · rw [if_pos hdrift]
            constructor
            · intro h
              cases h
            · rintro ⟨⟨n', hn', hle⟩, -⟩
              rw [hparse] at hn'
              obtain rfl := Option.some.inj hn'
              omega
          · rw [if_neg hdrift]
            simp only [hbytes, compareDigest, hexdigest_ascii, ite_true, bind, Except.bind]
            have hfresh : ReadsFresh now (c :: rest) := ⟨n, hparse, by omega⟩
            by_cases hsame : hexdigest (hmac secret (utf8 uri ++ body ++ utf8 (c :: rest))) =
                hexdigest (hmac secret message)
            · simp only [hsame, decide_true, ite_true, true_iff]
              exact ⟨hfresh, hideal.injective secret (hexdigest_injective hsame)⟩
            · simp only [hsame, decide_false, Bool.false_eq_true, ite_false]
              constructor
              · intro h
                cases h
              · rintro ⟨-, hmessage⟩
                exact absurd (by rw [hmessage]) hsame

-- An answer as the server signs it is accepted whenever its timestamp is fresh.
theorem verifyResp_signed {nonce : Int} {sig : Text}
    (hsig : signPayload hmac client.secretHex uri body nonce = .ok sig) (hne : sig ≠ [])
    (hdigits : (natText nonce.natAbs).length ≤ maxIntDigits) :
    client.verifyResp hmac uri body (some (intText nonce)) (some sig) now = .ok () ↔
      (now - nonce).natAbs ≤ clockDriftSeconds := by
  unfold signPayload calculateSignature at hsig
  cases hsecret : fromHex client.secretHex with
  | none =>
      rw [hsecret] at hsig
      cases hsig
  | some secret =>
      rw [hsecret] at hsig
      obtain rfl := Except.ok.inj hsig
      have hbytes : client.secretBytes = .ok secret := by
        rw [secretBytes, hsecret]
      have htext : intText nonce ≠ [] := by
        intro hnil
        have hread := parseInt_intText nonce hdigits
        rw [hnil, parseInt_nil] at hread
        cases hread
      obtain ⟨c, rest, hts⟩ := List.exists_cons_of_ne_nil htext
      obtain ⟨d, rest', hcons⟩ := List.exists_cons_of_ne_nil hne
      have hread := parseInt_intText nonce hdigits
      rw [hcons, hts]
      unfold verifyResp
      dsimp only
      rw [← hcons, ← hts, hread]
      dsimp only
      by_cases hdrift : (now - nonce).natAbs > clockDriftSeconds
      · rw [if_pos hdrift]
        refine iff_of_false ?_ (by omega)
        intro h
        cases h
      · rw [if_neg hdrift]
        refine iff_of_true ?_ (by omega)
        rw [signingPayload]
        simp [hbytes, compareDigest, hexdigest_ascii, bind, Except.bind]

end Accepted

end Stra2usClient

section Directions

variable {site : Site} {drift : World → World → Prop}

-- The signature on an answer is the digest of what the answer was made from.
theorem signature_of_run {w : World} {s : System Cmd Reply Call (Except Exn Answer) World}
    (hrun : Run exec (Call.program site) drift (fun _ _ => True) (.initial w) s) {i : Nat}
    {call : Call} {context : Context} {request : Request} {response : Response}
    (hdone : s.threads[i]? = some (call, .done (.ok (.device response))))
    (hcall : call.session? = some (context, request)) :
    ∃ secret, fromHex context.secretHex = some secret ∧ response.signature =
      hexdigest (site.hmac secret
        (signingPayload request.path response.body response.timestamp)) := by
  obtain ⟨response', hsame, hsigned⟩ :=
    Call.signed hcall _ _ (hrun.threads_of_initial i _ _ hdone)
  obtain rfl := Answer.device.inj hsame
  obtain ⟨secret, hsecret⟩ := Option.isSome_iff_exists.mp context.hexValid
  refine ⟨secret, hsecret, ?_⟩
  unfold SignedFor signPayload calculateSignature at hsigned
  rw [hsecret] at hsigned
  exact (Except.ok.inj hsigned).symm

-- Put together: the two directions are told apart by nothing but what they sign. The signature
-- of an answer is good for the requests whose path and body run together as the answer's do, and
-- that of a request for the answers whose URI, body and timestamp run together as the request's.
theorem directions_overlap_iff (hideal : IdealMac site.hmac) :
    (∀ w s, Run exec (Call.program site) drift (fun _ _ => True) (.initial w) s →
      ∀ (i : Nat) call context request response,
        s.threads[i]? = some (call, .done (.ok (.device response))) →
        call.session? = some (context, request) →
        ∀ w' forged, Registered context.clientId context.secretHex site.jsonDepth w' →
          verifyTimestamp w'.clock response.timestamp = true →
          Presents forged context.clientId response.timestamp response.signature →
          ((∃ verified, (verifyDeviceRequest site.hmac site.jsonDepth forged).runOn w' =
              (.ok verified, w')) ↔
            utf8 forged.path ++ forged.body = utf8 request.path ++ response.body)) ∧
    ∀ (client : Stra2usClient) r uri ts sig,
      Signs site.hmac r client.clientId client.secretHex uri ts →
      r.header? "x-signature".toList = some sig →
      ∀ uri' body' tsText now,
        client.verifyResp site.hmac uri' body' (some tsText) (some sig) now = .ok () ↔
          Stra2usClient.ReadsFresh now tsText ∧
            utf8 uri' ++ body' ++ utf8 tsText = signingPayload uri r.body ts := by
  constructor
  · intro w s hrun i call context request response hdone hcall w' forged hregistered hfresh hpresents
    obtain ⟨secret, hsecret, hsignature⟩ := signature_of_run hrun hdone hcall
    rw [hsignature] at hpresents
    rw [verified_iff hideal hregistered hsecret hfresh hpresents]
    simp only [signingPayload, List.append_cancel_right_eq]
  · intro client r uri ts sig hsigns hsig uri' body' tsText now
    obtain ⟨secret, hsecret, hsignature⟩ := hsigns.signature
    rw [hsig] at hsignature
    rw [Option.some.inj hsignature]
    exact Stra2usClient.verifyResp_iff hideal hsecret

end Directions

section Small

-- One read of a record, from its start to its answer.
def oneRead : List (Move Call World) :=
  [.start (.readKv .small ['k'] (keyRequest "GET".toList [] [])), .turn 0, .turn 0, .turn 0]

def nilAnswer : Response :=
  ⟨200, [0xc0], msgpackMt, 100,
    hexdigest (marking [0] (signingPayload "/kv/k".toList [0xc0] 100))⟩

-- A write of the record that was read, under the signature of the answer.
def reflected : Request :=
  keyRequest "POST".toList [("x-client-id".toList, ['c']), ("x-timestamp".toList, ['1', '0', '0']),
    ("x-signature".toList, nilAnswer.signature)] [0xc0]

theorem presents_reflected : Presents reflected ['c'] 100 nilAnswer.signature where
  client := rfl
  timestamp := ⟨['1', '0', '0'], rfl, rfl⟩
  signature := rfl

def heldAnswer : System Cmd Reply Call (Except Exn Answer) World :=
  (System.initial World.holding).play exec (Call.program markingSite) oneRead

theorem run_heldAnswer : Run exec (Call.program markingSite) (fun _ _ => False) (fun _ _ => True)
    (.initial World.holding) heldAnswer :=
  Run.of_free_play oneRead (by decide)

theorem answered_heldAnswer : heldAnswer.threads[0]? =
    some (.readKv .small ['k'] (keyRequest "GET".toList [] []), .done (.ok (.device nilAnswer))) := by
  rfl

-- An answer's signature goes through on a write of what was read.
theorem reflected_overlaps : ∃ verified,
    (verifyDeviceRequest markingSite.hmac 8 reflected).runOn World.holding =
      (.ok verified, World.holding) := by
  have hoverlap := (@directions_overlap_iff markingSite (fun _ _ => False) idealMac_marking).1
    World.holding heldAnswer run_heldAnswer 0 _ _ _ nilAnswer answered_heldAnswer rfl World.holding
    reflected registered_holding rfl presents_reflected
  exact hoverlap.mpr rfl

-- The client has asked to read the record at some time, and that is all it has signed.
theorem reflected_accepted :
    Run exec (Call.program markingSite) (fun _ _ => False) (fun _ _ => True)
        (.initial World.holding) heldAnswer ∧
      heldAnswer.threads[0]? = some (.readKv .small ['k'] (keyRequest "GET".toList [] []),
        .done (.ok (.device nilAnswer))) ∧
      Presents reflected ['c'] nilAnswer.timestamp nilAnswer.signature ∧
      (∀ ts, signingPayload "/kv/k".toList [] ts ≠
        signingPayload reflected.path reflected.body nilAnswer.timestamp) ∧
      ∃ verified, (verifyDeviceRequest markingSite.hmac 8 reflected).runOn World.holding =
        (.ok verified, World.holding) := by
  refine ⟨run_heldAnswer, answered_heldAnswer, presents_reflected, ?_, ?_⟩
  · intro ts hsame
    have htext : utf8 (intText ts) = 0xc0 :: utf8 (intText 100) := by
      simp only [signingPayload, List.append_nil] at hsame
      rw [List.append_assoc] at hsame
      exact List.append_cancel_left hsame
    have hdecode := utf8Decode_utf8 (intText ts)
    rw [htext] at hdecode
    cases hdecode
  · exact (verified_iff idealMac_marking registered_holding rfl rfl presents_reflected).mpr rfl

end Small

end Stra2us.Client
