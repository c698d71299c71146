import Stra2us.Device.Graceful
import Stra2us.Kv.Nonce
import Stra2us.Queue.Consume
import Stra2us.Queue.Poll

namespace Stra2us.Device

open Foundation Server Queue

section Checks

variable {request : Request}

theorem graceful_storedBody : Graceful (storedBody request) := by
  unfold storedBody
  dsimp only
  split_ifs
  · split <;> simp
  · simp
  · simp

theorem graceful_strInt (n : Int) :
    Graceful (strInt n) ↔ (natText n.natAbs).length ≤ maxIntDigits := by
  unfold strInt
  split_ifs with h
  · exact iff_of_true trivial h
  · exact iff_of_false id h

theorem graceful_signedMsgpack (hmac : Hmac) (context : Context) {status : Text}
    (h : (utf8 status).length < 2 ^ 32) (w : World) :
    Graceful ((signedMsgpack hmac context request (statusValue status)).runOn w).1 := by
  obtain ⟨response, hrun, -⟩ := signedMsgpack_runOn hmac context request h w
  rw [hrun]
  trivial

theorem graceful_signedResponse (hmac : Hmac) (context : Context) (body : Bytes) (status : Nat)
    (w : World) : Graceful ((signedResponse hmac context request body status).runOn w).1 := by
  obtain ⟨response, hrun, -⟩ := signedResponse_runOn hmac context request body status w
  rw [hrun]
  trivial

theorem ok_length : (utf8 "ok".toList).length < 2 ^ 32 := by decide

theorem not_found_length : (utf8 "not_found".toList).length < 2 ^ 32 := by decide

end Checks

section Publish

variable {hmac : Hmac} {context : Context} {topic : Text} {request : Request} {ttl : Int} {w : World}

-- The expiry time of the message can be written out.
def PublishFits (context : Context) (topic : Text) (request : Request) (ttl : Int) (w : World) :
    Prop :=
  Checkable context.acl ("q/".toList ++ topic) ∧
    (checkAcl context.acl ("q/".toList ++ topic) .write = .ok () →
      (∃ body, storedBody request = .ok body) →
        (natText (w.clock + min ttl maxTtl).natAbs).length ≤ maxIntDigits)

theorem graceful_publish :
    Graceful ((publishMessage hmac context topic request ttl).runOn w).1 ↔
      PublishFits context topic request ttl w := by
  have hfields : Graceful ((publishMessage hmac context topic request ttl).runOn w).1 ↔
      Graceful (publishedFields context topic request ttl w.clock) := by
    have hrun := publishMessage_runOn hmac context topic request ttl w
    cases hpublished : publishedFields context topic request ttl w.clock with
    | error exn =>
        rw [hpublished] at hrun
        rw [hrun]
        exact graceful_error exn
    | ok fields =>
        rw [hpublished] at hrun
        obtain ⟨response, hresponse⟩ := hrun
        rw [hresponse]
        exact iff_of_true trivial trivial
  rw [hfields]
  unfold publishedFields
  rw [graceful_bind, graceful_checkAcl]
  refine and_congr_right fun _ => ?_
  constructor
  · rintro h hallowed ⟨body, hbody⟩
    have hrest := h () hallowed
    rw [graceful_bind] at hrest
    have hexp := hrest.2 body hbody
    rw [graceful_bind, graceful_strInt] at hexp
    exact hexp.1
  · rintro h ⟨⟩ hallowed
    rw [graceful_bind]
    refine ⟨graceful_storedBody, fun body hbody => ?_⟩
    rw [graceful_bind, graceful_strInt]
    exact ⟨h hallowed ⟨body, hbody⟩, fun _ _ => trivial⟩

end Publish

section Consume

variable {hmac : Hmac} {context : Context} {topic : Text} {request : Request} {envelope : Bool}
  {fuel : Nat} {now : Int} {w : World}

-- Every entry up to the first live one tells when it expires, and that one can be handed out.
def ScanFits (envelope : Bool) (now : Int) (entries : List Entry) : Prop :=
  ∃ found, firstLive now entries = .ok found ∧
    ∀ entry, found = some entry → ∃ body, messageBody envelope entry = .ok body

-- The cursor is an id, and so are the entries beyond it.
def ConsumeFits (context : Context) (topic : Text) (envelope : Bool) (w : World) : Prop :=
  Checkable context.acl ("q/".toList ++ topic) ∧
    (checkAcl context.acl ("q/".toList ++ topic) .read = .ok () →
      ∃ id, position (w.store.get (cursorKey context.clientId topic)) = some id ∧
        ScanFits envelope w.clock ((w.store.stream (queueKey topic)).after id))

theorem entryField_error {entry : Entry} {name : Text} {exn : Exn}
    (h : entryField entry name = .error exn) : exn = .python "KeyError".toList := by
  unfold entryField at h
  split at h
  · cases h
  · exact (Except.error.inj h).symm

theorem graceful_firstLive {entries : List Entry} :
    Graceful (firstLive now entries) ↔ ∃ found, firstLive now entries = .ok found := by
  induction entries with
  | nil => exact iff_of_true trivial ⟨none, rfl⟩
  | cons entry rest ih =>
      cases hexp : entryExp entry with
      | ok exp =>
          rw [firstLive_of_ok hexp]
          by_cases hle : now ≤ exp
          · rw [if_pos hle]
            exact iff_of_true trivial ⟨some entry, rfl⟩
          · rw [if_neg hle]
            exact ih
      | error exn =>
          rw [firstLive_of_error hexp]
          refine iff_of_false ?_ (by simp)
          unfold entryExp at hexp
          cases hfield : entryField entry "exp".toList with
          | error other =>
              rw [hfield] at hexp
              rw [← Except.error.inj hexp, entryField_error hfield]
              exact id
          | ok raw =>
              rw [hfield] at hexp
              simp only [bind, Except.bind] at hexp
              split at hexp
              · cases hexp
              · rw [← Except.error.inj hexp]
                exact id

theorem graceful_packOrRaise (value : Value) :
    Graceful (packOrRaise value) ↔ ∃ body, packOrRaise value = .ok body := by
  refine graceful_iff_ok fun exn h => ?_
  unfold packOrRaise at h ⊢
  split
  · next hsome =>
      rw [hsome] at h
      cases h
  · exact id

theorem graceful_envelopeValue {entry : Entry} {raw publisher : Bytes} :
    Graceful (envelopeValue entry raw publisher) ↔
      ∃ wrapped, envelopeValue entry raw publisher = .ok wrapped := by
  refine graceful_iff_ok fun exn h => ?_
  unfold envelopeValue at h ⊢
  cases hdecode : utf8Decode publisher with
  | some text =>
      rw [hdecode] at h
      cases h
  | none => exact id

theorem graceful_messageBody {entry : Entry} :
    Graceful (messageBody envelope entry) ↔ ∃ body, messageBody envelope entry = .ok body := by
  refine graceful_iff_ok fun exn h => ?_
  unfold messageBody at h ⊢
  cases hfield : entryField entry "payload".toList with
  | error other =>
      rw [entryField_error hfield]
      exact id
  | ok raw =>
      rw [hfield] at h
      cases envelope with
      | false => cases h
      | true =>
          change (envelopeValue entry raw _ >>= packOrRaise) = .error exn at h
          change ¬ Graceful (envelopeValue entry raw _ >>= packOrRaise)
          rw [graceful_bind, graceful_envelopeValue]
          rintro ⟨⟨wrapped, hwrapped⟩, hpacks⟩
          obtain ⟨body, hbody⟩ := (graceful_packOrRaise wrapped).mp (hpacks wrapped hwrapped)
          rw [hwrapped] at h
          change packOrRaise wrapped = _ at h
          rw [hbody] at h
          cases h

theorem graceful_handOut {message : Option Entry} :
    Graceful ((handOut hmac context request envelope message).runOn w).1 ↔
      ∀ entry, message = some entry → ∃ body, messageBody envelope entry = .ok body := by
  cases message with
  | none =>
      refine iff_of_true ?_ (fun entry h => nomatch h)
      unfold handOut
      rw [graceful_runOn_bind]
      exact ⟨graceful_signedResponse hmac context [] 204 w, fun _ _ _ => trivial⟩
  | some entry =>
      unfold handOut
      rw [graceful_check, graceful_messageBody]
      constructor
      · rintro ⟨hbody, -⟩ other hother
        rw [← Option.some.inj hother]
        exact hbody
      · intro h
        refine ⟨h entry rfl, fun body _ => ?_⟩
        rw [graceful_runOn_bind]
        exact ⟨graceful_signedResponse hmac context body 200 w, fun _ _ _ => trivial⟩

theorem graceful_cursorStart {stored : Option Bytes} :
    Graceful (cursorStart stored) ↔ ∃ lastId, cursorStart stored = .ok lastId := by
  refine graceful_iff_ok fun exn h => ?_
  unfold cursorStart at h ⊢
  split at h
  · cases h
  · next raw =>
      cases hdecode : utf8Decode raw with
      | some text =>
          rw [hdecode] at h
          cases h
      | none => exact id

-- Redis reads on from an id only.
theorem nextMessage_stuck {cursor lastId : Text} (h : StreamId.parse lastId = none)
    (hfuel : 0 < fuel) :
    ((nextMessage cursor topic now fuel lastId).runOn w).1 =
      .error (.python "ResponseError".toList) := by
  obtain ⟨turns, rfl⟩ := Nat.exists_eq_succ_of_ne_zero (Nat.pos_iff_ne_zero.mp hfuel)
  have hread : exec (.xread (queueKey topic) lastId batchSize) w = (none, w) := by
    simp [exec_xread, h]
  unfold Handler.runOn
  rw [run_nextMessage_succ, Prog.run_call, hread]
  rfl

theorem graceful_consume
    (hfuel : (w.store.stream (queueKey topic)).entries.length < fuel) :
    Graceful ((consumeMessage hmac context topic request envelope fuel).runOn w).1 ↔
      ConsumeFits context topic envelope w := by
  let cursor := cursorKey context.clientId topic
  have hmap : Graceful ((consumeMessage hmac context topic request envelope fuel).runOn w).1 ↔
      Graceful ((consumeTagged hmac context topic request envelope fuel).runOn w).1 := by
    unfold consumeMessage
    rw [graceful_runOn_bind]
    exact and_iff_left fun _ _ _ => trivial
  have hlength : ∀ id, ((w.store.stream (queueKey topic)).after id).length < fuel := by
    intro id
    have hle : ((w.store.stream (queueKey topic)).after id).length ≤
        (w.store.stream (queueKey topic)).entries.length := List.length_filter_le _ _
    omega
  -- the loop and the answer, once it is known where the cursor is
  have hloop : ∀ lastId, Graceful ((nextMessage cursor topic w.clock fuel lastId >>= fun message =>
      handOut hmac context request envelope message).runOn w).1 ↔
        ∃ id, StreamId.parse lastId = some id ∧
          ScanFits envelope w.clock ((w.store.stream (queueKey topic)).after id) := by
    intro lastId
    cases hparse : StreamId.parse lastId with
    | none =>
        refine iff_of_false ?_ (by simp)
        rw [graceful_runOn_bind, nextMessage_stuck hparse (by omega)]
        exact fun h => h.1
    | some id =>
        have hresult := @nextMessage_result cursor topic w.clock fuel lastId id w hparse (hlength id)
        rw [graceful_runOn_bind, hresult, graceful_firstLive]
        simp only [graceful_handOut, Option.some.injEq, exists_eq_left']
        constructor
        · rintro ⟨⟨found, hfound⟩, hrest⟩
          refine ⟨found, hfound, fun entry hentry => ?_⟩
          refine hrest found ((nextMessage cursor topic w.clock fuel lastId).runOn w).2 ?_ entry hentry
          exact Prod.ext (hresult.trans hfound) rfl
        · rintro ⟨found, hfound, hbody⟩
          refine ⟨⟨found, hfound⟩, fun message w' hrun entry hentry => ?_⟩
          rw [hrun, hfound] at hresult
          rw [Except.ok.inj hresult] at hentry
          exact hbody entry hentry
  rw [hmap]
  unfold consumeTagged ConsumeFits
  rw [graceful_check, graceful_checkAcl]
  refine and_congr_right fun _ => ?_
  constructor
  · intro h hallowed
    have hrest := h () hallowed
    change Graceful ((Handler.ofExcept (cursorStart (w.store.get cursor)) >>= _).runOn w).1 at hrest
    rw [graceful_check, graceful_cursorStart] at hrest
    obtain ⟨⟨lastId, hstart⟩, hnext⟩ := hrest
    obtain ⟨id, hparse, hfits⟩ := (hloop lastId).mp (hnext lastId hstart)
    exact ⟨id, (position_of_cursorStart hstart).trans hparse, hfits⟩
  · rintro h ⟨⟩ hallowed
    obtain ⟨id, hposition, hfits⟩ := h hallowed
    obtain ⟨lastId, hstart, hparse⟩ := cursorStart_of_position hposition
    change Graceful ((Handler.ofExcept (cursorStart (w.store.get cursor)) >>= _).runOn w).1
    rw [graceful_check, hstart]
    refine ⟨trivial, fun other hother => ?_⟩
    rw [← Except.ok.inj hother]
    exact (hloop lastId).mpr ⟨id, hparse, hfits⟩

end Consume

section Kv

variable {hmac : Hmac} {gate : Gate} {context : Context} {key : Text} {request : Request} {w : World}

-- The gate, where the body comes to it, stops the body with an error of the client's if at all.
def WriteFits (gate : Gate) (context : Context) (key : Text) (request : Request) : Prop :=
  Checkable context.acl ("kv/".toList ++ key) ∧
    (checkAcl context.acl ("kv/".toList ++ key) .write = .ok () →
      ∀ body, storedBody request = .ok body → isCatalogYamlKey key → body ≠ [] →
        Graceful (gate body))

theorem graceful_write : Graceful ((writeKv hmac gate context key request).runOn w).1 ↔
    WriteFits gate context key request := by
  have hstore : ∀ body, Graceful ((Handler.set (kvKey key) body >>= fun _ =>
      if request.header? "x-encrypted".toList = some "1".toList then
        Handler.set (encKey key) (utf8 "1".toList) >>= fun _ =>
          signedMsgpack hmac context request (statusValue "ok".toList)
      else
        Handler.delete [encKey key] >>= fun _ =>
          signedMsgpack hmac context request (statusValue "ok".toList)).runOn w).1 := by
    intro body
    let w₁ : World := { w with store := w.store.set (kvKey key) body }
    change Graceful ((if _ then _ else _ : Handler Response).runOn w₁).1
    split_ifs
    · exact graceful_signedMsgpack hmac context ok_length
        { w with store := w₁.store.set (encKey key) (utf8 "1".toList) }
    · exact graceful_signedMsgpack hmac context ok_length
        { w with store := w₁.store.delete [encKey key] }
  unfold writeKv WriteFits
  rw [graceful_check, graceful_checkAcl]
  refine and_congr_right fun _ => ?_
  constructor
  · intro h hallowed body hbody hkey hne
    have hrest := h () hallowed
    rw [graceful_check] at hrest
    have hgate := hrest.2 body hbody
    rw [if_pos ⟨hkey, hne⟩, graceful_check] at hgate
    exact hgate.1
  · rintro h ⟨⟩ hallowed
    rw [graceful_check]
    refine ⟨graceful_storedBody, fun body hbody => ?_⟩
    by_cases hgate : isCatalogYamlKey key ∧ body ≠ []
    · rw [if_pos hgate, graceful_check]
      exact ⟨h hallowed body hbody hgate.1 hgate.2, fun _ _ => hstore body⟩
    · rw [if_neg hgate]
      exact hstore body

-- The value is text or binary, short enough for the keystream, and the next nonce has four bytes.
def Encryptable (context : Context) (value : Bytes) (w : World) : Prop :=
  ∃ plaintext nonce, encryptedPlaintext value = .ok plaintext ∧ plaintext.length ≤ 8160 ∧
    (kvencNonceLua w.store (nonceKey context.clientId) w.clock).1 = some nonce ∧
      0 ≤ nonce ∧ nonce < 2 ^ 32

def ReadFits (context : Context) (key : Text) (w : World) : Prop :=
  Checkable context.acl ("kv/".toList ++ key) ∧
    (checkAcl context.acl ("kv/".toList ++ key) .read = .ok () →
      ∀ value, w.store.get (kvKey key) = some value → truthy (w.store.get (encKey key)) →
        Encryptable context value w)

theorem graceful_encryptedPlaintext (value : Bytes) :
    Graceful (encryptedPlaintext value) ↔ ∃ plaintext, encryptedPlaintext value = .ok plaintext := by
  refine graceful_iff_ok fun exn h => ?_
  unfold encryptedPlaintext at h ⊢
  split
  · exact fun h => absurd h.2 (by omega)
  · next hunpack =>
      rw [hunpack] at h
      cases h
  · next hunpack =>
      rw [hunpack] at h
      cases h
  · exact fun h => absurd h.2 (by omega)

theorem graceful_kvencBlocks {secret out : Bytes} {nonce length turns counter : Nat} :
    Graceful (kvencBlocks hmac secret nonce length turns counter out) ↔
      ∃ result, kvencBlocks hmac secret nonce length turns counter out = .ok result := by
  induction turns generalizing counter out with
  | zero => exact iff_of_false id (by simp [kvencBlocks])
  | succ turns ih =>
      unfold kvencBlocks
      by_cases hlen : out.length < length
      · simp only [hlen, ite_true]
        by_cases hover : counter + 1 > 255
        · simp only [hover, ite_true]
          exact iff_of_false id (by simp)
        · simp only [hover, ite_false]
          exact ih
      · simp only [hlen, ite_false]
        exact iff_of_true trivial ⟨out, rfl⟩

theorem graceful_kvencXor {nonce : Int} {data : Bytes} :
    Graceful (kvencXor hmac context.secretHex nonce data) ↔
      ∃ ciphertext, kvencXor hmac context.secretHex nonce data = .ok ciphertext := by
  obtain ⟨secret, hsecret⟩ := Option.isSome_iff_exists.mp context.hexValid
  unfold kvencXor kvencKeystream
  rw [hsecret]
  dsimp only
  by_cases hn : 0 ≤ nonce ∧ nonce < 2 ^ 32
  · rw [if_pos hn, graceful_bind, graceful_bind, graceful_kvencBlocks]
    cases kvencBlocks hmac secret nonce.toNat data.length 257 0 [] with
    | ok out => exact iff_of_true ⟨⟨⟨out, rfl⟩, fun _ _ => trivial⟩, fun _ _ => trivial⟩ ⟨_, rfl⟩
    | error exn => simp [bind, Except.bind]
  · rw [if_neg hn]
    exact iff_of_false id (by simp [bind, Except.bind])

theorem graceful_signedEncryptedResponse {plaintext : Bytes} {nonce : Int}
    (hdigest : ∀ key message, (hmac key message).length = 32) :
    Graceful (signedEncryptedResponse hmac context request plaintext nonce) ↔
      (0 ≤ nonce ∧ nonce < 2 ^ 32) ∧ plaintext.length ≤ 8160 := by
  rw [← @Kv.kvencXor_ok_iff hmac context.secretHex nonce plaintext
    (Kv.blocksOf32 hdigest) context.hexValid]
  unfold signedEncryptedResponse
  rw [graceful_bind, graceful_kvencXor]
  refine and_iff_left_of_imp ?_
  rintro - ciphertext hxor
  have hlength : ciphertext.length < 2 ^ 32 := by
    have hshort := ((@Kv.kvencXor_ok_iff hmac context.secretHex nonce plaintext
      (Kv.blocksOf32 hdigest) context.hexValid).mp ⟨ciphertext, hxor⟩).2
    obtain ⟨_, _, _, _, _, _, _, _, hcipher⟩ := Kv.kvencXor_eq hxor
    rw [hcipher, xorBytes, List.length_zipWith]
    omega
  obtain ⟨body, hbody⟩ := Option.isSome_iff_exists.mp
    ((@Msgpack.packs_ext kvencExtType ciphertext hlength 512).mpr rfl)
  obtain ⟨sig, hsig⟩ := signPayload_isOk hmac context request.path body nonce
  have hpack : packOrRaise (.ext kvencExtType ciphertext) = .ok body := by
    have hpackb : Msgpack.packb (.ext kvencExtType ciphertext) = some body := hbody
    rw [packOrRaise, hpackb]
  rw [hpack]
  change Graceful (signPayload hmac context.secretHex request.path body nonce >>= _)
  rw [hsig]
  trivial

-- The nonce is drawn once the plaintext is there.
theorem graceful_encrypt {value : Bytes}
    (hdigest : ∀ key message, (hmac key message).length = 32) :
    ((∃ plaintext, encryptedPlaintext value = .ok plaintext) ∧
      ∀ plaintext, encryptedPlaintext value = .ok plaintext →
        Graceful ((nextKvencNonce context.clientId >>= fun nonce =>
          Handler.ofExcept (signedEncryptedResponse hmac context request plaintext nonce)).runOn
            w).1) ↔ Encryptable context value w := by
  have hdraw : ∀ plaintext, Graceful ((nextKvencNonce context.clientId >>= fun nonce =>
      Handler.ofExcept (signedEncryptedResponse hmac context request plaintext nonce)).runOn w).1 ↔
        ∃ nonce, plaintext.length ≤ 8160 ∧
          (kvencNonceLua w.store (nonceKey context.clientId) w.clock).1 = some nonce ∧
            0 ≤ nonce ∧ nonce < 2 ^ 32 := by
    intro plaintext
    unfold nextKvencNonce Handler.time Handler.kvencNonce
    rw [Handler.runOn_bind, Handler.runOn_ask_bind, Handler.runOn_ask_bind]
    simp only [exec]
    cases (kvencNonceLua w.store (nonceKey context.clientId) w.clock).1 with
    | none => exact iff_of_false id (by simp)
    | some nonce =>
        refine (graceful_signedEncryptedResponse hdigest).trans ?_
        constructor
        · rintro ⟨hfour, hshort⟩
          exact ⟨nonce, hshort, rfl, hfour⟩
        · rintro ⟨other, hshort, hother, hfour⟩
          rw [Option.some.inj hother]
          exact ⟨hfour, hshort⟩
  simp only [hdraw]
  constructor
  · rintro ⟨⟨plaintext, hplain⟩, h⟩
    obtain ⟨nonce, hrest⟩ := h plaintext hplain
    exact ⟨plaintext, nonce, hplain, hrest⟩
  · rintro ⟨plaintext, nonce, hplain, hrest⟩
    refine ⟨⟨plaintext, hplain⟩, fun other hother => ?_⟩
    rw [hplain] at hother
    rw [← Except.ok.inj hother]
    exact ⟨nonce, hrest⟩

theorem graceful_read (hdigest : ∀ key message, (hmac key message).length = 32) :
    Graceful ((readKv hmac context key request).runOn w).1 ↔ ReadFits context key w := by
  unfold readKv ReadFits
  rw [graceful_check, graceful_checkAcl]
  simp only [runOn_get_bind]
  refine and_congr_right fun _ => ⟨fun h hallowed => ?_, fun h _ hallowed => ?_⟩
  · intro value hstored hflag
    have hrest := h () hallowed
    rw [hstored] at hrest
    dsimp only at hrest
    rw [runOn_get_bind, if_pos hflag, graceful_check, graceful_encryptedPlaintext] at hrest
    exact (graceful_encrypt hdigest).mp hrest
  · cases hstored : w.store.get (kvKey key) with
    | none => exact graceful_signedMsgpack hmac context not_found_length w
    | some value =>
        dsimp only
        rw [runOn_get_bind]
        by_cases hflag : truthy (w.store.get (encKey key)) = true
        · rw [if_pos hflag, graceful_check, graceful_encryptedPlaintext]
          exact (graceful_encrypt hdigest).mpr (h hallowed value hstored hflag)
        · rw [if_neg hflag]
          exact graceful_signedResponse hmac context value 200 w

theorem graceful_delete : Graceful ((deleteKv hmac context key request).runOn w).1 ↔
    Checkable context.acl ("kv/".toList ++ key) := by
  unfold deleteKv
  rw [graceful_check, graceful_checkAcl]
  refine and_iff_left fun _ _ => ?_
  exact graceful_signedMsgpack hmac context ok_length
    { w with store := w.store.delete [kvKey key, encKey key] }

end Kv

end Stra2us.Device
