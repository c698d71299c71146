import Stra2us.Client.Kvenc
import Stra2us.Foundation.MsgpackRaw
import Stra2us.Server.Submit

namespace Stra2us.Kv

open Foundation Server
open Msgpack (bytesOf packb unpackb)

section Plaintext

variable {body plaintext : Bytes}

theorem encryptedPlaintext_of_raw (h : unpackb true body = some (.bytes plaintext)) :
    encryptedPlaintext body = .ok plaintext := by
  unfold encryptedPlaintext
  rw [h]

-- A body without bytes of its own has no plaintext.
theorem encryptedPlaintext_none {read : Value}
    (h : ∀ other, unpackb true body = some other → bytesOf other = none)
    (hok : encryptedPlaintext body = .ok plaintext) : bytesOf read = some plaintext := by
  unfold encryptedPlaintext at hok
  split at hok
  · cases hok
  · next hread => cases h _ hread
  · next hread => cases h _ hread
  · cases hok

-- The bytes of what is stored.
theorem encryptedPlaintext_iff {value : Value}
    (hbytes : ∀ data, bytesOf value = some data → unpackb true body = some (.bytes data))
    (hnone : bytesOf value = none → ∀ other, unpackb true body = some other →
      bytesOf other = none) :
    encryptedPlaintext body = .ok plaintext ↔ bytesOf value = some plaintext := by
  cases hvalue : bytesOf value with
  | none =>
      refine iff_of_false (fun hok => ?_) (fun h => nomatch h)
      have hread := @encryptedPlaintext_none body plaintext .none (hnone hvalue) hok
      cases hread
  | some data =>
      rw [encryptedPlaintext_of_raw (hbytes data hvalue), Except.ok.injEq, Option.some.injEq]

theorem plaintext_of_packb {value : Value} (h : packb value = some body) :
    encryptedPlaintext body = .ok plaintext ↔ bytesOf value = some plaintext := by
  refine encryptedPlaintext_iff (fun data hdata => ?_) fun hnone other =>
    Msgpack.bytesOf_of_packb h hnone
  cases value with
  | str text =>
      obtain rfl := Option.some.inj hdata
      rw [Msgpack.unpackb_str h]
      rfl
  | bytes bytes =>
      obtain rfl := Option.some.inj hdata
      exact Msgpack.unpackb_bytes h
  | _ => cases hdata

-- Both write paths of a device store what can be unpacked, or nothing.
theorem plaintext_of_storedBody {request : Request} (h : storedBody request = .ok body) :
    encryptedPlaintext body = .ok plaintext ↔
      (unpackb false body).bind bytesOf = some plaintext := by
  cases hread : unpackb false body with
  | some value =>
      obtain ⟨hbytes, hnone⟩ := Msgpack.unpackb_raw hread
      exact encryptedPlaintext_iff hbytes hnone
  | none =>
      refine iff_of_false (fun hok => ?_) (fun h => nomatch h)
      unfold storedBody at h
      dsimp only at h
      split at h
      · split at h
        · next packed hpack =>
            obtain rfl := Except.ok.inj h
            obtain ⟨text, -, hpack⟩ := Option.bind_eq_some_iff.mp hpack
            rw [Msgpack.unpackb_scalar rfl hpack] at hread
            cases hread
        · cases h
      · split at h
        · cases h
        · next hempty =>
            obtain rfl := Except.ok.inj h
            have hnil : request.body = [] := by
              by_contra hne
              exact hempty ⟨hne, hread⟩
            rw [hnil] at hok
            cases hok

end Plaintext

section Reads

variable {hmac : Hmac} {context : Context} {key : Text} {request : Request} {w : World}

-- What a client reads out of an encrypted answer: the nonce comes with it as its timestamp.
def Recovers (hmac : Hmac) (secretHex : Text) (response : Response) (plaintext : Bytes) : Prop :=
  ∃ secret ciphertext, fromHex secretHex = some secret ∧
    unpackb false response.body = some (.ext kvencExtType ciphertext) ∧
      Client.kvencXor hmac secret response.timestamp ciphertext = .ok plaintext

-- The read succeeds, and the content comes out of its answer.
def ReadsBack (hmac : Hmac) (context : Context) (key : Text) (request : Request)
    (content : Option Value) (w : World) : Prop :=
  ∃ response w' plaintext, (readKv hmac context key request).runOn w = (.ok response, w') ∧
    response.status = 200 ∧ Recovers hmac context.secretHex response plaintext ∧
      content.bind bytesOf = some plaintext

-- Short of the last block of the keystream.
def Sealable (content : Option Value) : Prop :=
  ∃ plaintext, content.bind bytesOf = some plaintext ∧ plaintext.length ≤ 8160

-- The script's next nonce has four bytes.
def NonceFits (clientId : Text) (w : World) : Prop :=
  ∃ nonce, (kvencNonceLua w.store (nonceKey clientId) w.clock).1 = some nonce ∧
    0 ≤ nonce ∧ nonce < 2 ^ 32

theorem nextKvencNonce_draws (clientId : Text) (w : World) :
    (nextKvencNonce clientId).runOn w =
      ((kvencNonceLua w.store (nonceKey clientId) w.clock).1.elim
          (.error (.python "ResponseError".toList)) .ok,
        { w with store := (kvencNonceLua w.store (nonceKey clientId) w.clock).2 }) := by
  unfold nextKvencNonce Handler.time Handler.kvencNonce
  rw [Handler.runOn_ask_bind, Handler.runOn_ask_bind]
  simp only [exec]
  cases (kvencNonceLua w.store (nonceKey clientId) w.clock).1 with
  | none => rfl
  | some nonce => rfl

theorem signedEncryptedResponse_of_error {plaintext : Bytes} {nonce : Int} {exn : Exn}
    (h : kvencXor hmac context.secretHex nonce plaintext = .error exn) :
    signedEncryptedResponse hmac context request plaintext nonce = .error exn := by
  unfold signedEncryptedResponse
  rw [h]
  rfl

-- An answer under a nonce of four bytes opens to what is short enough, and is signed.
theorem signedEncryptedResponse_opens {plaintext : Bytes} {nonce : Nat} (hblocks : BlocksOf32 hmac)
    (hnonce : nonce < 2 ^ 32) (hlength : plaintext.length ≤ 8160) :
    ∃ response, signedEncryptedResponse hmac context request plaintext nonce = .ok response ∧
      response.status = 200 ∧ response.timestamp = nonce ∧
      signPayload hmac context.secretHex request.path response.body nonce =
        .ok response.signature ∧
      Recovers hmac context.secretHex response plaintext := by
  obtain ⟨secret, hsecret⟩ := Option.isSome_iff_exists.mp context.hexValid
  obtain ⟨ciphertext, hxor⟩ := (@kvencXor_ok_iff hmac context.secretHex nonce plaintext hblocks
    context.hexValid).mpr ⟨by omega, hlength⟩
  have hcipher := kvencXor_full hsecret hxor
  have hstream := @length_fullKeystream hmac secret nonce hblocks
  have hshort : ciphertext.length ≤ 8160 := by
    rw [hcipher, xorBytes, List.length_zipWith]
    omega
  obtain ⟨body, hbody⟩ := Option.isSome_iff_exists.mp
    ((@Msgpack.packs_ext kvencExtType ciphertext (by omega) 512).mpr rfl)
  have hpack : packb (.ext kvencExtType ciphertext) = some body := hbody
  obtain ⟨sig, hsig⟩ := signPayload_isOk hmac context request.path body nonce
  refine ⟨⟨200, body, msgpackMt, nonce, sig⟩, ?_, rfl, rfl, hsig, ?_⟩
  · have hraise : packOrRaise (.ext kvencExtType ciphertext) = .ok body := by
      rw [packOrRaise, hpack]
    unfold signedEncryptedResponse
    rw [hxor]
    change (packOrRaise (.ext kvencExtType ciphertext) >>= _) = _
    rw [hraise]
    change (signPayload hmac context.secretHex request.path body nonce >>= fun sig =>
      Except.ok (⟨200, body, msgpackMt, nonce, sig⟩ : Response)) = _
    rw [hsig]
    rfl
  · refine ⟨secret, ciphertext, hsecret, Msgpack.unpackb_ext (by decide) hpack, ?_⟩
    change Client.kvencXor hmac secret nonce ciphertext = .ok plaintext
    rw [Client.kvencXor_eq hblocks hnonce (by omega), hcipher, xorBytes_twice (by omega)]

-- What a read comes to where there is a flagged record.
theorem readKv_sealed {body : Bytes}
    (hacl : checkAcl context.acl ("kv/".toList ++ key) .read = .ok ())
    (hvalue : w.store.get (kvKey key) = some body)
    (hflag : truthy (w.store.get (encKey key)) = true) :
    (readKv hmac context key request).runOn w =
      (Handler.ofExcept (encryptedPlaintext body) >>= fun plaintext =>
        nextKvencNonce context.clientId >>= fun nonce =>
          Handler.ofExcept (signedEncryptedResponse hmac context request plaintext nonce)).runOn
            w := by
  rw [readKv_stored hacl hvalue, if_pos hflag]

-- A flagged record whose plaintext is short enough is served, under the next nonce.
theorem readKv_opens {body plaintext : Bytes} {nonce : Int} (hblocks : BlocksOf32 hmac)
    (hacl : checkAcl context.acl ("kv/".toList ++ key) .read = .ok ())
    (hvalue : w.store.get (kvKey key) = some body)
    (hflag : truthy (w.store.get (encKey key)) = true)
    (hplain : encryptedPlaintext body = .ok plaintext) (hlength : plaintext.length ≤ 8160)
    (hdraws : (kvencNonceLua w.store (nonceKey context.clientId) w.clock).1 = some nonce)
    (hfits : 0 ≤ nonce ∧ nonce < 2 ^ 32) :
    ∃ response w', (readKv hmac context key request).runOn w = (.ok response, w') ∧
      response.status = 200 ∧ response.timestamp = nonce ∧
      signPayload hmac context.secretHex request.path response.body nonce =
        .ok response.signature ∧
      Recovers hmac context.secretHex response plaintext := by
  obtain ⟨n, rfl⟩ := Int.eq_ofNat_of_zero_le hfits.1
  obtain ⟨response, hresponse, hopens⟩ := @signedEncryptedResponse_opens hmac context request
    plaintext n hblocks (by omega) hlength
  have hnonce := nextKvencNonce_draws context.clientId w
  rw [hdraws] at hnonce
  refine ⟨response,
    { w with store := (kvencNonceLua w.store (nonceKey context.clientId) w.clock).2 }, ?_, hopens⟩
  rw [readKv_sealed hacl hvalue hflag, hplain, Handler.runOn_ofExcept_ok_bind,
    Handler.runOn_bind_of_ok hnonce, hresponse]
  rfl

-- And one that is served has a plaintext, a nonce for it, and blocks enough.
theorem readKv_served {body : Bytes} {response : Response} {w' : World}
    (hblocks : BlocksOf32 hmac)
    (hacl : checkAcl context.acl ("kv/".toList ++ key) .read = .ok ())
    (hvalue : w.store.get (kvKey key) = some body)
    (hflag : truthy (w.store.get (encKey key)) = true)
    (hread : (readKv hmac context key request).runOn w = (.ok response, w')) :
    ∃ plaintext nonce, encryptedPlaintext body = .ok plaintext ∧ plaintext.length ≤ 8160 ∧
      (kvencNonceLua w.store (nonceKey context.clientId) w.clock).1 = some nonce ∧
        (0 ≤ nonce ∧ nonce < 2 ^ 32) := by
  rw [readKv_sealed hacl hvalue hflag] at hread
  cases hplain : encryptedPlaintext body with
  | error exn =>
      rw [hplain] at hread
      cases hread
  | ok plaintext =>
      rw [hplain, Handler.runOn_ofExcept_ok_bind, Handler.runOn_bind_ok] at hread
      obtain ⟨nonce, w₁, hnonce, hresponse⟩ := hread
      rw [nextKvencNonce_draws] at hnonce
      cases hdraws : (kvencNonceLua w.store (nonceKey context.clientId) w.clock).1 with
      | none =>
          rw [hdraws] at hnonce
          cases hnonce
      | some drawn =>
          rw [hdraws] at hnonce
          obtain rfl : drawn = nonce := Except.ok.inj (Prod.mk.inj hnonce).1
          cases hxor : kvencXor hmac context.secretHex drawn plaintext with
          | error exn =>
              rw [signedEncryptedResponse_of_error hxor] at hresponse
              cases hresponse
          | ok ciphertext =>
              obtain ⟨hfits, hlength⟩ := (@kvencXor_ok_iff hmac context.secretHex drawn plaintext
                hblocks context.hexValid).mp ⟨ciphertext, hxor⟩
              exact ⟨plaintext, drawn, rfl, hlength, rfl, hfits⟩

-- Put together: what is stored comes back exactly when it can be sealed.
theorem readsBack_iff {body : Bytes} {content : Option Value} (hblocks : BlocksOf32 hmac)
    (hacl : checkAcl context.acl ("kv/".toList ++ key) .read = .ok ())
    (hvalue : w.store.get (kvKey key) = some body)
    (hflag : truthy (w.store.get (encKey key)) = true)
    (hcontent : ∀ plaintext, encryptedPlaintext body = .ok plaintext ↔
      content.bind bytesOf = some plaintext) :
    ReadsBack hmac context key request content w ↔
      Sealable content ∧ NonceFits context.clientId w := by
  constructor
  · rintro ⟨response, w', -, hread, -⟩
    obtain ⟨plaintext, nonce, hplain, hlength, hdraws, hfits⟩ :=
      readKv_served hblocks hacl hvalue hflag hread
    exact ⟨⟨plaintext, (hcontent plaintext).mp hplain, hlength⟩, nonce, hdraws, hfits⟩
  · rintro ⟨⟨plaintext, hbytes, hlength⟩, nonce, hdraws, hfits⟩
    obtain ⟨response, w', hread, hstatus, -, -, hrecovers⟩ := @readKv_opens hmac context key request
      w body plaintext nonce hblocks hacl hvalue hflag ((hcontent plaintext).mpr hbytes) hlength
      hdraws hfits
    exact ⟨response, w', plaintext, hread, hstatus, hrecovers, hbytes⟩

end Reads

section Writes

variable {site : Site} {key app device name raw : Text} {content : Option Value} {w w' : World}

-- What an accepted write with the flag leaves.
def sealing (key : Text) (body : Bytes) (w : World) : World :=
  { w with store := (w.store.set (kvKey key) body).set (encKey key) (utf8 "1".toList) }

theorem sealing_value (key : Text) (body : Bytes) (w : World) :
    (sealing key body w).store.get (kvKey key) = some body := by
  change ((w.store.set (kvKey key) body).set (encKey key) _).get (kvKey key) = _
  rw [Store.get_set_of_ne _ (encKey_ne_kvKey key).symm, Store.get_set_self]

theorem sealing_flag (key : Text) (body : Bytes) (w : World) :
    truthy ((sealing key body w).store.get (encKey key)) = true := by
  change truthy (((w.store.set (kvKey key) body).set (encKey key) _).get (encKey key)) = true
  rw [Store.get_set_self]
  rfl

-- A device's write that goes through was allowed, and leaves what was sent.
theorem writeKv_seals {hmac : Hmac} {gate : Gate} {context : Context} {request : Request}
    {response : Response} {body : Bytes}
    (hflag : request.header? "x-encrypted".toList = some "1".toList)
    (hbody : storedBody request = .ok body)
    (hrun : (writeKv hmac gate context key request).runOn w = (.ok response, w')) :
    checkAcl context.acl ("kv/".toList ++ key) .write = .ok () ∧ w' = sealing key body w := by
  have hstored : ∀ next : Handler Response, next = (do
        Handler.set (kvKey key) body
        if request.header? "x-encrypted".toList = some "1".toList then
          Handler.set (encKey key) (utf8 "1".toList)
        else
          Handler.delete [encKey key]
        signedMsgpack hmac context request (statusValue "ok".toList)) →
      next.runOn w = (.ok response, w') → w' = sealing key body w := by
    rintro next rfl hnext
    rw [if_pos hflag] at hnext
    obtain ⟨answer, hanswer, -⟩ := signedMsgpack_runOn hmac context request
      (show (utf8 "ok".toList).length < 2 ^ 32 by decide) (sealing key body w)
    change (signedMsgpack hmac context request _).runOn (sealing key body w) = _ at hnext
    rw [hanswer] at hnext
    exact (Prod.mk.inj hnext).2.symm
  unfold writeKv at hrun
  cases hacl : checkAcl context.acl ("kv/".toList ++ key) .write with
  | error exn =>
      rw [hacl] at hrun
      cases hrun
  | ok allowed =>
      rw [hacl, hbody, Handler.runOn_ofExcept_ok_bind, Handler.runOn_ofExcept_ok_bind] at hrun
      refine ⟨rfl, ?_⟩
      by_cases hgate : isCatalogYamlKey key ∧ body ≠ []
      · rw [if_pos hgate] at hrun
        cases hpass : gate body with
        | error exn =>
            rw [hpass] at hrun
            cases hrun
        | ok passed =>
            rw [hpass, Handler.runOn_ofExcept_ok_bind] at hrun
            exact hstored _ rfl hrun
      · rw [if_neg hgate] at hrun
        exact hstored _ rfl hrun

theorem setKv_seals {username value : Text} {data : Value}
    (hvalue : coerceJson site value = .ok data)
    (hrun : (setKv site username key ⟨value, true⟩).runOn w = (.ok (), w')) :
    ∃ body, packb data = some body ∧ w' = sealing key body w := by
  unfold setKv at hrun
  rw [Handler.runOn_bind_ok] at hrun
  obtain ⟨⟨⟩, w₁, hallowed, hrun⟩ := hrun
  rw [requireAdminKv_runOn] at hallowed
  obtain rfl := (Prod.mk.inj hallowed).2
  rw [hvalue, Handler.runOn_ofExcept_ok_bind] at hrun
  cases hpack : packb data with
  | none =>
      rw [packOrRaise, hpack] at hrun
      cases hrun
  | some body =>
      rw [packOrRaise, hpack] at hrun
      exact ⟨body, rfl, (Prod.mk.inj hrun).2.symm⟩

-- A field whose records are other ones than those of the field.
def OtherField (name other : Text) : Prop :=
  other ≠ name ∧ name ≠ other ++ ":enc".toList ∧ other ≠ name ++ ":enc".toList

-- The rest of a form leaves a record that none of its fields has.
theorem writeFields_otherFields {vars : Value} {form : List (Text × Text)}
    {result : Except Exn Unit} (h : ∀ field ∈ form, OtherField name field.1)
    (hrun : (writeFields site vars app device form).runOn w = (result, w')) :
    w'.store.get (kvKey (fieldKey app device name)) =
        w.store.get (kvKey (fieldKey app device name)) ∧
      w'.store.get (encKey (fieldKey app device name)) =
        w.store.get (encKey (fieldKey app device name)) := by
  have hissues : (writeFields site vars app device form).Issues (OnlyOverwrites fun k =>
      ∃ field ∈ form, Records (fieldKey app device field.1) k) :=
    writeFields_issues site vars app device form (fun field hf => ⟨field, hf, .inl rfl⟩)
      fun field hf => ⟨field, hf, .inr rfl⟩
  have hsuffix (other : Text) : fieldKey app device other ++ ":enc".toList =
      fieldKey app device (other ++ ":enc".toList) := by
    simp [fieldKey]
  have hkeep (k : Text) (hk : Records (fieldKey app device name) k) :
      w'.store.get k = w.store.get k := by
    have hapart : ¬ ∃ field ∈ form, Records (fieldKey app device field.1) k := by
      rintro ⟨field, hf, hrecords⟩
      obtain ⟨hne, hvalue, hflag⟩ := h field hf
      refine records_apart ?_ ?_ ?_ hk hrecords
      · exact fun hsame => hne (fieldKey_inj.mp hsame).symm
      · rw [hsuffix]
        exact fun hsame => hvalue (fieldKey_inj.mp hsame)
      · rw [hsuffix]
        exact fun hsame => hflag (fieldKey_inj.mp hsame)
    have hframe := Handler.get_of_issues hissues hapart (fieldKeys_ne_nonceKey hk) w
    rw [hrun] at hframe
    exact hframe
  exact ⟨hkeep _ (.inl rfl), hkeep _ (.inr rfl)⟩

-- The last field of that name leaves the record, under the flag that the catalog declares.
theorem submitDeviceForm_seals {username answer : Text} {catalog : Option (List (Value × Value))}
    {before after : List (Text × Text)} {data : Value}
    (hmay : MaySubmit site username app device w)
    (hcatalog : (loadCatalogDict site app).runOn w = (.ok catalog, w))
    (hname : name ≠ [] ∧ '/' ∉ name)
    (hdeclared : declaredEncrypted (catalogVars catalog) name = some true)
    (hdata : decodeFormValue site raw = .ok data)
    (hlast : ∀ field ∈ after, OtherField name field.1)
    (hrun : (submitDeviceForm site username app device (before ++ (name, raw) :: after)).runOn w =
      (.ok answer, w')) :
    ∃ body, packb data = some body ∧
      w'.store.get (kvKey (fieldKey app device name)) = some body ∧
        truthy (w'.store.get (encKey (fieldKey app device name))) = true := by
  rw [submitDeviceForm_runOn hmay hcatalog, Handler.runOn_bind_ok] at hrun
  obtain ⟨⟨⟩, w₁, hfields, hanswer⟩ := hrun
  obtain rfl := (Prod.mk.inj hanswer).2
  rw [writeFields_append, Handler.runOn_bind_ok] at hfields
  obtain ⟨⟨⟩, w₂, -, hfields⟩ := hfields
  have hskip : ¬ (name = [] ∨ '/' ∈ name) := fun h => h.elim hname.1 hname.2
  rw [writeFields, if_neg hskip, Handler.runOn_bind_ok] at hfields
  obtain ⟨⟨⟩, w₃, hfield, hrest⟩ := hfields
  obtain ⟨hvalue, hflag⟩ := writeFields_otherFields hlast hrest
  cases hpack : packField site raw with
  | error exn =>
      rw [writeField_error hpack] at hfield
      cases hfield
  | ok body =>
      obtain ⟨w₄, hwritten, hstored, hsealed⟩ := @writeField_ok site (catalogVars catalog) app
        device name raw body hpack w₂
      rw [hwritten] at hfield
      obtain rfl := (Prod.mk.inj hfield).2
      refine ⟨body, ?_, hvalue.trans hstored, ?_⟩
      · unfold packField at hpack
        rw [hdata] at hpack
        change packOrRaise data = .ok body at hpack
        unfold packOrRaise at hpack
        cases hbody : packb data with
        | none =>
            rw [hbody] at hpack
            cases hpack
        | some packed =>
            rw [hbody] at hpack
            rw [Except.ok.inj hpack]
      · rw [hflag, hsealed, fieldFlag, hdeclared]
        rfl

-- The accepted writes with the flag, and the content of each as it was sent.
inductive EncryptedWrite (site : Site) : Text → Option Value → World → World → Prop
  | device {context : Context} {key : Text} {request : Request} {response : Response}
      {body : Bytes} {w w' : World}
      (flag : request.header? "x-encrypted".toList = some "1".toList)
      (stored : storedBody request = .ok body)
      (run : (writeKv site.hmac site.gate context key request).runOn w = (.ok response, w')) :
      EncryptedWrite site key (unpackb false body) w w'
  | admin {username key value : Text} {content : Value} {w w' : World}
      (coerced : coerceJson site value = .ok content)
      (run : (setKv site username key ⟨value, true⟩).runOn w = (.ok (), w')) :
      EncryptedWrite site key (some content) w w'
  | form {username app device name raw answer : Text} {catalog : Option (List (Value × Value))}
      {before after : List (Text × Text)} {content : Value} {w w' : World}
      (may : MaySubmit site username app device w)
      (loaded : (loadCatalogDict site app).runOn w = (.ok catalog, w))
      (field : name ≠ [] ∧ '/' ∉ name)
      (declared : declaredEncrypted (catalogVars catalog) name = some true)
      (decoded : decodeFormValue site raw = .ok content)
      (last : ∀ field ∈ after, OtherField name field.1)
      (run : (submitDeviceForm site username app device
        (before ++ (name, raw) :: after)).runOn w = (.ok answer, w')) :
      EncryptedWrite site (fieldKey app device name) (some content) w w'

-- Each leaves a flagged record of its content.
theorem EncryptedWrite.leaves (h : EncryptedWrite site key content w w') :
    ∃ body, w'.store.get (kvKey key) = some body ∧ truthy (w'.store.get (encKey key)) = true ∧
      ∀ plaintext, encryptedPlaintext body = .ok plaintext ↔
        content.bind bytesOf = some plaintext := by
  cases h with
  | @device context _ request response body _ _ flag stored run =>
      obtain ⟨-, rfl⟩ := writeKv_seals flag stored run
      exact ⟨body, sealing_value _ _ _, sealing_flag _ _ _, fun _ => plaintext_of_storedBody stored⟩
  | admin coerced run =>
      obtain ⟨body, hpack, rfl⟩ := setKv_seals coerced run
      exact ⟨body, sealing_value _ _ _, sealing_flag _ _ _, fun _ => plaintext_of_packb hpack⟩
  | form may loaded field declared decoded last run =>
      obtain ⟨body, hpack, hvalue, hflag⟩ :=
        submitDeviceForm_seals may loaded field declared decoded last run
      exact ⟨body, hvalue, hflag, fun _ => plaintext_of_packb hpack⟩

-- Nothing has been written over the record since.
structure Kept (key : Text) (w later : World) : Prop where
  value : later.store.get (kvKey key) = w.store.get (kvKey key)
  flag : later.store.get (encKey key) = w.store.get (encKey key)

-- What is written with the flag is read back at any later moment exactly when it is text or
-- binary of at most 8160 bytes and the reader's next nonce has four bytes.
theorem EncryptedWrite.readsBack_iff {later : World} {context : Context} {request : Request}
    (h : EncryptedWrite site key content w w') (hblocks : BlocksOf32 site.hmac)
    (hkept : Kept key w' later)
    (hacl : checkAcl context.acl ("kv/".toList ++ key) .read = .ok ()) :
    ReadsBack site.hmac context key request content later ↔
      Sealable content ∧ NonceFits context.clientId later := by
  obtain ⟨body, hvalue, hflag, hcontent⟩ := h.leaves
  refine Kv.readsBack_iff hblocks hacl (hkept.value.trans hvalue) ?_ hcontent
  rw [hkept.flag]
  exact hflag

end Writes

end Stra2us.Kv
