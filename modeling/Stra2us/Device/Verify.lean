import Stra2us.Device.Graceful

namespace Stra2us.Device

open Foundation Server

-- What the three headers of a request come to.
structure Claims (request : Request) (clientId : Text) (timestamp : Int) (signature : Text) :
    Prop where
  client : requiredHeader request "x-client-id".toList = .ok clientId
  timestamp : ∃ text, requiredHeader request "x-timestamp".toList = .ok text ∧
    parseTimestamp text = .ok timestamp
  signature : requiredHeader request "x-signature".toList = .ok signature

section Verify

variable (hmac : Hmac) (jsonDepth : Nat) (request : Request) (w : World)

-- Of a request in time, from a client that is there: the secret is hex, the signature is
-- ASCII, and, where it is right, the ACL can be read.
def VerifyFits : Prop :=
  ∀ clientId timestamp signature, Claims request clientId timestamp signature →
    verifyTimestamp w.clock timestamp = true → truthy (w.store.get (clientSecretKey clientId)) →
      ∃ secretHex, w.store.get (clientSecretKey clientId) = some (utf8 secretHex) ∧
        (fromHex secretHex).isSome ∧ (∀ c ∈ signature, c.toNat < 128) ∧
          (verifySignature hmac secretHex request.path request.body timestamp signature = .ok true →
            ∃ acl, aclOfRecord jsonDepth (w.store.get (clientAclKey clientId)) = .ok acl)

-- The request goes through as this client's.
structure Verified (context : Context) : Prop where
  claims : ∃ timestamp signature, Claims request context.clientId timestamp signature ∧
    verifyTimestamp w.clock timestamp = true ∧
      verifySignature hmac context.secretHex request.path request.body timestamp signature = .ok true
  known : truthy (w.store.get (clientSecretKey context.clientId))
  secret : w.store.get (clientSecretKey context.clientId) = some (utf8 context.secretHex)
  acl : aclOfRecord jsonDepth (w.store.get (clientAclKey context.clientId)) = .ok context.acl

variable {hmac jsonDepth request w}

theorem graceful_requiredHeader (name : Text) : Graceful (requiredHeader request name) := by
  unfold requiredHeader
  split <;> simp

theorem graceful_parseTimestamp (text : Text) : Graceful (parseTimestamp text) := by
  unfold parseTimestamp
  split <;> simp

theorem secretOfRecord_ok {raw : Option Bytes} {secretHex : Text} :
    secretOfRecord raw = .ok secretHex ↔ truthy raw ∧ raw = some (utf8 secretHex) := by
  unfold secretOfRecord truthy
  split
  · next byte rest =>
      cases hdecode : utf8Decode (byte :: rest) with
      | some text =>
          simp only [Except.ok.injEq, true_and, Option.some.injEq]
          constructor
          · rintro rfl
            exact (utf8_of_utf8Decode hdecode).symm
          · intro h
            rw [h, utf8Decode_utf8] at hdecode
            exact (Option.some.inj hdecode).symm
      | none =>
          simp only [true_and, Option.some.injEq]
          refine iff_of_false (by simp) ?_
          intro h
          rw [h, utf8Decode_utf8] at hdecode
          cases hdecode
  · next hempty => simp

theorem graceful_secretOfRecord {raw : Option Bytes} :
    Graceful (secretOfRecord raw) ↔ (truthy raw → ∃ secretHex, raw = some (utf8 secretHex)) := by
  match raw with
  | none => exact iff_of_true (show 400 ≤ 401 ∧ 401 < 500 by omega) fun h => nomatch h
  | some [] => exact iff_of_true (show 400 ≤ 401 ∧ 401 < 500 by omega) fun h => nomatch h
  | some (byte :: rest) =>
      cases hdecode : utf8Decode (byte :: rest) with
      | some text =>
          refine iff_of_true ?_ fun _ => ⟨text, by rw [utf8_of_utf8Decode hdecode]⟩
          simp [secretOfRecord, hdecode]
      | none =>
          refine iff_of_false ?_ fun h => ?_
          · simp [secretOfRecord, hdecode]
          · obtain ⟨text, htext⟩ := h rfl
            rw [Option.some.inj htext, utf8Decode_utf8] at hdecode
            cases hdecode

theorem graceful_verifySignature {secretHex : Text} {secret : Bytes} {timestamp : Int}
    {signature : Text} (hsecret : fromHex secretHex = some secret) :
    Graceful (verifySignature hmac secretHex request.path request.body timestamp signature) ↔
      ∀ c ∈ signature, c.toNat < 128 := by
  have hall : signature.all (·.toNat < 128) = true ↔ ∀ c ∈ signature, c.toNat < 128 := by simp
  rw [← hall]
  simp only [verifySignature, signPayload, calculateSignature, hsecret, bind, Except.bind,
    compareDigest]
  by_cases hascii : signature.all (·.toNat < 128) = true
  · rw [if_pos hascii]
    exact iff_of_true trivial hascii
  · rw [if_neg hascii]
    exact iff_of_false id hascii

theorem graceful_verifiedContext {clientId secretHex : Text} {timestamp : Int} {signature : Text} :
    Graceful (verifiedContext hmac request clientId secretHex timestamp signature) ↔
      (fromHex secretHex).isSome ∧ ∀ c ∈ signature, c.toNat < 128 := by
  unfold verifiedContext
  split
  · next hnone => simp [hnone]
  · next secret hsecret =>
      rw [graceful_bind, graceful_verifySignature hsecret]
      simp only [hsecret, Option.isSome_some, true_and, and_iff_left_iff_imp]
      intro _ valid _
      cases valid with
      | true => exact trivial
      | false => exact show 400 ≤ 401 ∧ 401 < 500 by omega

theorem graceful_aclOfRecord {raw : Option Bytes} :
    Graceful (aclOfRecord jsonDepth raw) ↔ ∃ acl, aclOfRecord jsonDepth raw = .ok acl := by
  refine graceful_iff_ok fun exn hexn => ?_
  unfold aclOfRecord at hexn ⊢
  split at hexn
  · next byte rest =>
      cases hload : loadRecord jsonDepth (byte :: rest) with
      | ok acl =>
          rw [hload] at hexn
          cases hexn
      | error error => cases error <;> exact id
  · cases hexn

-- What is left of verification once the headers are read.
theorem graceful_session {clientId : Text} {timestamp : Int} {signature : Text} :
    Graceful (((do
        let currentTime ← Handler.time
        if verifyTimestamp currentTime timestamp then
          let rawSecret ← Handler.get (clientSecretKey clientId)
          let secretHex ← Handler.ofExcept (secretOfRecord rawSecret)
          let context ← Handler.ofExcept
            (verifiedContext hmac request clientId secretHex timestamp signature)
          let rawAcl ← Handler.get (clientAclKey clientId)
          let acl ← Handler.ofExcept (aclOfRecord jsonDepth rawAcl)
          pure (context acl)
        else throw (.http 401 "Request expired or replay detected".toList)) :
          Handler Context).runOn w).1 ↔
      (verifyTimestamp w.clock timestamp = true → truthy (w.store.get (clientSecretKey clientId)) →
        ∃ secretHex, w.store.get (clientSecretKey clientId) = some (utf8 secretHex) ∧
          (fromHex secretHex).isSome ∧ (∀ c ∈ signature, c.toNat < 128) ∧
            (verifySignature hmac secretHex request.path request.body timestamp signature =
              .ok true → ∃ acl, aclOfRecord jsonDepth (w.store.get (clientAclKey clientId)) =
                .ok acl)) := by
  change Graceful ((if verifyTimestamp w.clock timestamp then _ else _ : Handler Context).runOn w).1
    ↔ _
  by_cases hfresh : verifyTimestamp w.clock timestamp = true
  · rw [if_pos hfresh]
    change Graceful ((Handler.ofExcept (secretOfRecord (w.store.get (clientSecretKey clientId))) >>=
      _).runOn w).1 ↔ _
    rw [graceful_check, graceful_secretOfRecord]
    simp only [secretOfRecord_ok]
    constructor
    · rintro ⟨hdecodes, hrest⟩ - hknown
      obtain ⟨secretHex, hsecret⟩ := hdecodes hknown
      have hcontext := hrest secretHex ⟨hknown, hsecret⟩
      rw [graceful_check, graceful_verifiedContext] at hcontext
      obtain ⟨⟨hhex, hascii⟩, hacl⟩ := hcontext
      refine ⟨secretHex, hsecret, hhex, hascii, fun hvalid => ?_⟩
      obtain ⟨secret, hsome⟩ := Option.isSome_iff_exists.mp hhex
      obtain ⟨context, hcontext⟩ := @verifiedContext_of_valid hmac request clientId _ _ _ _ hsome hvalid
      have hload := hacl context hcontext
      change Graceful ((Handler.ofExcept (aclOfRecord jsonDepth
        (w.store.get (clientAclKey clientId))) >>= _).runOn w).1 at hload
      rw [graceful_check] at hload
      exact graceful_aclOfRecord.mp hload.1
    · intro hfits
      refine ⟨fun hknown => ?_, fun secretHex hsecret => ?_⟩
      · obtain ⟨secretHex, hsecret, -⟩ := hfits hfresh hknown
        exact ⟨secretHex, hsecret⟩
      · obtain ⟨secretHex', hsecret', hhex, hascii, hacl⟩ := hfits hfresh hsecret.1
        rw [hsecret.2] at hsecret'
        obtain rfl := utf8_injective (Option.some.inj hsecret')
        rw [graceful_check, graceful_verifiedContext]
        refine ⟨⟨hhex, hascii⟩, fun context hcontext => ?_⟩
        change Graceful ((Handler.ofExcept (aclOfRecord jsonDepth
          (w.store.get (clientAclKey clientId))) >>= _).runOn w).1
        rw [graceful_check, graceful_aclOfRecord]
        exact ⟨hacl (verifiedContext_ok hcontext).1, fun acl _ => trivial⟩
  · rw [if_neg hfresh]
    exact iff_of_true (show 400 ≤ 401 ∧ 401 < 500 by omega) fun h => absurd h hfresh

theorem graceful_verify :
    Graceful ((verifyDeviceRequest hmac jsonDepth request).runOn w).1 ↔
      VerifyFits hmac jsonDepth request w := by
  unfold verifyDeviceRequest
  simp only [graceful_check, graceful_requiredHeader, graceful_parseTimestamp, true_and]
  constructor
  · rintro h clientId timestamp signature ⟨hclient, ⟨text, htext, hparse⟩, hsignature⟩
    exact graceful_session.mp (h clientId hclient text htext signature hsignature timestamp hparse)
  · intro h clientId hclient text htext signature hsignature timestamp hparse
    exact graceful_session.mpr
      (h clientId timestamp signature ⟨hclient, ⟨text, htext, hparse⟩, hsignature⟩)

-- Verification hands on what the records say, and changes nothing.
theorem verified_of_runOn {context : Context} {w' : World}
    (h : (verifyDeviceRequest hmac jsonDepth request).runOn w = (.ok context, w')) :
    w' = w ∧ Verified hmac jsonDepth request w context := by
  unfold verifyDeviceRequest at h
  obtain ⟨clientId, hclient, h⟩ := runOn_check_ok h
  obtain ⟨text, htext, h⟩ := runOn_check_ok h
  obtain ⟨signature, hsignature, h⟩ := runOn_check_ok h
  obtain ⟨timestamp, hparse, h⟩ := runOn_check_ok h
  change (if verifyTimestamp w.clock timestamp then _ else _ : Handler Context).runOn w = _ at h
  by_cases hfresh : verifyTimestamp w.clock timestamp = true
  · rw [if_pos hfresh] at h
    change (Handler.ofExcept (secretOfRecord (w.store.get (clientSecretKey clientId))) >>=
      _).runOn w = _ at h
    obtain ⟨secretHex, hsecret, h⟩ := runOn_check_ok h
    obtain ⟨f, hf, h⟩ := runOn_check_ok h
    change (Handler.ofExcept (aclOfRecord jsonDepth (w.store.get (clientAclKey clientId))) >>=
      _).runOn w = _ at h
    obtain ⟨acl, hacl, h⟩ := runOn_check_ok h
    obtain ⟨hcontext, rfl⟩ := Prod.mk.inj h
    obtain rfl := Except.ok.inj hcontext
    obtain ⟨hvalid, hfields⟩ := verifiedContext_ok hf
    obtain ⟨hid, hhex, hacl'⟩ := hfields acl
    obtain ⟨hknown, hraw⟩ := secretOfRecord_ok.mp hsecret
    refine ⟨rfl, ?_, ?_, ?_, ?_⟩
    · rw [hid, hhex]
      exact ⟨timestamp, signature, ⟨hclient, ⟨text, htext, hparse⟩, hsignature⟩, hfresh, hvalid⟩
    · rw [hid]
      exact hknown
    · rw [hid, hhex]
      exact hraw
    · rw [hid, hacl']
      exact hacl
  · rw [if_neg hfresh] at h
    cases congrArg Prod.fst h

theorem runOn_of_verified {context : Context} (h : Verified hmac jsonDepth request w context) :
    (verifyDeviceRequest hmac jsonDepth request).runOn w = (.ok context, w) := by
  obtain ⟨timestamp, signature, hclaims, hfresh, hvalid⟩ := h.claims
  obtain ⟨text, htext, hparse⟩ := hclaims.timestamp
  obtain ⟨secret, hsecret⟩ := Option.isSome_iff_exists.mp context.hexValid
  obtain ⟨f, hf⟩ :=
    @verifiedContext_of_valid hmac request context.clientId _ _ _ _ hsecret hvalid
  have hrun := @verifyDeviceRequest_runOn hmac jsonDepth request w _ _ _ _ _ _ hclaims.client htext
    hclaims.signature hparse hfresh (secretOfRecord_ok.mpr ⟨h.known, h.secret⟩) h.acl
  obtain ⟨hid, hhex, hacl⟩ := (verifiedContext_ok hf).2 context.acl
  have hsame : f context.acl = context := by
    cases hcontext : f context.acl with
    | mk clientId secretHex acl hexValid =>
        rw [hcontext] at hid hhex hacl
        cases context with
        | mk clientId' secretHex' acl' hexValid' =>
            obtain rfl := hid
            obtain rfl := hhex
            obtain rfl := hacl
            rfl
  rw [hrun, hf]
  exact congrArg (fun context => (Except.ok context, w)) hsame

end Verify

end Stra2us.Device
