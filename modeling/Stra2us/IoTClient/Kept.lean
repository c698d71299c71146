import Stra2us.Client.Exchange
import Stra2us.IoTClient.Session
import Stra2us.Kv.Sealed

namespace Stra2us.IoTClient

open Foundation Server Kv Kv.Implementation

section Names

theorem toNat_latin1 (b : UInt8) : (Char.ofNat b.toNat).toNat = b.toNat :=
  @Percent.byte_forall (fun b => (Char.ofNat b.toNat).toNat = b.toNat) (by decide +kernel) b

theorem latin1_injective : Function.Injective HttpMessage.latin1 := by
  apply List.map_injective_iff.mpr
  intro a b hab
  have hsame := congrArg Char.toNat hab
  dsimp only at hsame
  rw [toNat_latin1, toNat_latin1] at hsame
  exact UInt8.toNat_inj.mp hsame

theorem latin1_enc (key : Bytes) : HttpMessage.latin1 (key ++ utf8 ":enc".toList) =
    HttpMessage.latin1 key ++ ":enc".toList := by
  have henc : HttpMessage.latin1 (utf8 ":enc".toList) = ":enc".toList := by decide
  rw [HttpMessage.latin1, List.map_append]
  exact congrArg (HttpMessage.latin1 key ++ ·) henc

end Names

section Calls

variable {service : Service} {setup : Setup} {context : Context} {w : World} {asked : Asked}
  {key : Bytes}

-- The two records of a key: its value, and the flag for an encrypted one.
def recordKeys (key : Bytes) : List Text :=
  [kvKey (HttpMessage.latin1 key), encKey (HttpMessage.latin1 key)]

-- Neither the call nor anybody before it changes a record of the key. A write to `a:enc` is one
-- to the flag of `a`.
structure Asked.Leaves (key : Bytes) (asked : Asked) : Prop where
  call : ∀ other payload, asked.op = .writeKV other payload →
    other ≠ key ∧ other ≠ key ++ utf8 ":enc".toList ∧ key ≠ other ++ utf8 ":enc".toList
  others : ∀ store, ∀ k ∈ recordKeys key, (asked.meanwhile store).get k = store.get k

namespace Service

theorem overwrites_leaves {fuel : Nat} {request : Request} {k : Text} (h : asked.Leaves key)
    (hk : k ∈ recordKeys key) : ¬ (asked.op.call fuel context request).overwrites k := by
  have hkv : ∃ rest, k = 'k' :: 'v' :: ':' :: rest := by
    simp only [recordKeys, List.mem_cons, List.not_mem_nil, or_false] at hk
    rcases hk with rfl | rfl
    · exact ⟨_, kvKey_eq _⟩
    · exact ⟨_, encKey_eq _⟩
  obtain ⟨rest, hrest⟩ := hkv
  cases hop : asked.op with
  | writeKV other payload =>
      obtain ⟨hne, hflag, hvalue⟩ := h.call other payload hop
      have hapart : kvKey (HttpMessage.latin1 other) ∉ recordKeys key ∧
          encKey (HttpMessage.latin1 other) ∉ recordKeys key := by
        simp only [recordKeys, List.mem_cons, List.not_mem_nil, or_false, not_or, kvKey_eq,
          encKey_eq, List.cons.injEq, true_and, ← latin1_enc, latin1_injective.eq_iff]
        exact ⟨⟨hne, hflag⟩, hvalue.symm, fun hsame => hne (List.append_cancel_right hsame)⟩
      rintro (rfl | rfl)
      · exact hapart.1 hk
      · exact hapart.2 hk
  | readKV => exact id
  | publishQueue => exact id
  | publishQueueTtl => exact id
  | publishText => exact id
  | consumeQueue topic envelope =>
      intro hcursor
      have hcursor : k = cursorKey context.clientId (HttpMessage.latin1 topic) := hcursor
      rw [hrest, cursorKey_eq] at hcursor
      exact absurd (List.cons.inj hcursor).1 (by decide)

theorem answer_leaves (h : asked.Leaves key) {k : Text} (hk : k ∈ recordKeys key) :
    (service.answer setup context asked w).2.store.get k = w.store.get k := by
  have hissues (request : Request) :
      (asked.op.handler service.site service.fuel context request).Issues
        (OnlyOverwrites (asked.op.call service.fuel context request).overwrites) := by
    unfold Operation.handler
    split
    · exact Call.issues service.site _
    · exact Handler.issues_throw _
  have hnonce (clientId : Text) : k ≠ nonceKey clientId := by
    simp only [recordKeys, List.mem_cons, List.not_mem_nil, or_false] at hk
    rcases hk with rfl | rfl
    · simp [kvKey_eq, nonceKey_eq]
    · simp [encKey_eq, nonceKey_eq]
  exact (Handler.get_of_issues (hissues _) (overwrites_leaves h hk) hnonce _).trans
    (h.others w.store k hk)

theorem answers_leave {asked : List Asked} (h : ∀ one ∈ asked, one.Leaves key) {k : Text}
    (hk : k ∈ recordKeys key) :
    (service.answers setup context asked w).2.store.get k = w.store.get k := by
  induction asked generalizing w with
  | nil => rfl
  | cons one rest ih =>
      rw [List.forall_mem_cons] at h
      exact (ih h.2).trans (answer_leaves h.1 hk)

theorem answers_append (first rest : List Asked) :
    service.answers setup context (first ++ rest) w =
      ((service.answers setup context first w).1 ++
        (service.answers setup context rest (service.answers setup context first w).2).1,
      (service.answers setup context rest (service.answers setup context first w).2).2) := by
  induction first generalizing w with
  | nil => rfl
  | cons one first ih =>
      rw [List.cons_append, answers]
      dsimp only
      rw [ih]
      rfl

-- Of a run of calls the last is heard as it is answered behind the others.
theorem heard_last {asked : List Asked} {last : Asked} {ts : UInt32} {responses : List Response}
    {link : Link} (hdigest : ∀ key message, (service.site.hmac key message).length = 32)
    (hsetup : setup.Printable) (hknown : setup.Known context service.site.jsonDepth w)
    (hasked : ∀ one ∈ asked ++ [last], one.Sendable service.site.hmac context)
    (hsmall : ∀ reply ∈ (service.answers setup context (asked ++ [last]) w).1,
      reply.body.length < 2 ^ 31)
    (hrun : service.run setup (asked ++ [last]) ⟨w, ts, [], []⟩ = some (responses, link)) :
    let reply := (service.answer setup context last (service.answers setup context asked w).2).1
    ∃ before, responses.getLast? = some (service.heard last reply before) ∧
      link.lastResponseTs = (reply.timestamp.map stampOf).getD before := by
  have hreplies : (service.answers setup context (asked ++ [last]) w).1 =
      (service.answers setup context asked w).1 ++
        [(service.answer setup context last (service.answers setup context asked w).2).1] := by
    rw [answers_append]
    rfl
  rw [run_answers hdigest hsetup _ hknown hasked hsmall, Option.ite_none_right_eq_some,
    Option.some.injEq, Prod.mk.injEq, hreplies] at hrun
  obtain ⟨-, rfl, rfl⟩ := hrun
  have hlength := @length_answers service setup context w asked
  refine ⟨lastStamp (service.answers setup context asked w).1 ts, ?_, ?_⟩
  · have hone : (asked ++ [last])[asked.length]? = some last := by simp
    have hreply : ((service.answers setup context asked w).1 ++
        [(service.answer setup context last (service.answers setup context asked w).2).1])[
          asked.length]? =
            some (service.answer setup context last
              (service.answers setup context asked w).2).1 := by
      rw [← hlength]
      simp
    have hlast : (service.heardAll (asked ++ [last])
        ((service.answers setup context asked w).1 ++
          [(service.answer setup context last (service.answers setup context asked w).2).1])
        ts).length - 1 = asked.length := by
      rw [length_heardAll, List.length_append, List.length_append, hlength]
      simp
    rw [List.getLast?_eq_getElem?, hlast, heardAll_at hone hreply, ← hlength, List.take_left]
  · unfold lastStamp
    rw [List.foldl_append]
    rfl

-- An answer with a time to it, as it is heard.
theorem heard_stamped {body : Bytes} {t : Int} (before : UInt32) :
    service.heard asked ⟨200, body, some t⟩ before =
      ⟨200, asked.call.kept body, if asked.call.hasOutLen then some body.length else none,
        stampOf t⟩ := by
  have hwrites := service.writes asked.now ⟨200, body, some t⟩ (by simp)
  have hstatus : (service.write asked.now ⟨200, body, some t⟩).statusCode = 200 := by
    rw [hwrites.status]
    rfl
  unfold heard
  rw [hstatus]
  rfl

section Answers

variable {payload value : Bytes}

theorem header_absent (op : Operation) (sig : Bytes) (ts : UInt32) :
    (op.request setup (hexdigest sig) ts).header? "x-encrypted".toList = none := by
  rw [Request.header?, request_headers (digest_ascii sig)]
  split <;> rfl

theorem storedBody_call {op : Operation} {sig : Bytes} {ts : UInt32}
    (hkind : op.contentType = "application/x-msgpack")
    (hpayload : op.payload ≠ [] → Msgpack.unpackb false op.payload ≠ none) :
    storedBody (op.request setup (hexdigest sig) ts) = .ok op.payload := by
  have htype : ((op.request setup (hexdigest sig) ts).header? "content-type".toList).getD [] =
      if op.payload.length > 0 then msgpackMt else [] := by
    rw [Request.header?, request_headers (digest_ascii sig), hkind]
    split <;> rfl
  have hbody : (op.request setup (hexdigest sig) ts).body = op.payload := rfl
  unfold storedBody
  dsimp only
  rw [htype, hbody, if_neg (by split <;> decide), if_neg fun h => hpayload h.1 h.2]

-- What is written stands under the key without a flag.
theorem answer_write (hop : asked.op = .writeKV key payload)
    (hacl : checkAcl context.acl ("kv/".toList ++ HttpMessage.latin1 key) .write = .ok ())
    (hcatalog : isCatalogYamlKey (HttpMessage.latin1 key) = false)
    (hpayload : payload ≠ [] → Msgpack.unpackb false payload ≠ none) :
    (service.answer setup context asked w).2.store.get (kvKey (HttpMessage.latin1 key)) =
        some payload ∧
      (service.answer setup context asked w).2.store.get (encKey (HttpMessage.latin1 key)) =
        none := by
  obtain ⟨op, call, ts, now, meanwhile⟩ := asked
  obtain rfl : op = .writeKV key payload := hop
  let asked : Asked := ⟨.writeKV key payload, call, ts, now, meanwhile⟩
  have hbody := @storedBody_call setup (.writeKV key payload)
    ((Operation.writeKV key payload).digest service.site.hmac
      ((fromHex context.secretHex).getD []) ts) ts rfl hpayload
  obtain ⟨response, hrun, -⟩ := @Client.Stra2usClient.writeKv_replies _ (asked.found w)
    service.site.hmac context _ service.site.gate _ hacl hbody hcatalog (header_absent _ _ _)
  have hworld : (service.answer setup context asked w).2 =
      Client.Stra2usClient.written (HttpMessage.latin1 key) payload (asked.found w) := by
    change ((Answer.device <$> writeKv _ _ _ _ _).runOn (asked.found w)).2 = _
    rw [Handler.runOn_map]
    exact congrArg Prod.snd hrun
  rw [hworld]
  constructor
  · refine (Store.get_delete _ _ _).trans ((if_neg ?_).trans (Store.get_set_self _ _ _))
    simp [kvKey_eq, encKey_eq]
  · exact (Store.get_delete _ _ _).trans (if_pos (List.mem_singleton_self _))

-- And what stands there without a flag is read.
theorem answer_read (hop : asked.op = .readKV key)
    (hacl : checkAcl context.acl ("kv/".toList ++ HttpMessage.latin1 key) .read = .ok ())
    (hvalue : (asked.found w).store.get (kvKey (HttpMessage.latin1 key)) = some value)
    (hflag : (asked.found w).store.get (encKey (HttpMessage.latin1 key)) = none) :
    (service.answer setup context asked w).1 = ⟨200, value, some asked.now⟩ := by
  obtain ⟨op, call, ts, now, meanwhile⟩ := asked
  obtain rfl : op = .readKV key := hop
  let asked : Asked := ⟨.readKV key, call, ts, now, meanwhile⟩
  obtain ⟨response, hrun, hreplies, hbody⟩ := @Client.Stra2usClient.readKv_replies _
    (asked.found w) service.site.hmac context _ value hacl hvalue hflag
  change service.reply ((Answer.device <$> readKv _ _ _ _).runOn (asked.found w)).1 = _
  rw [Handler.runOn_map, hrun]
  change sent response.status response.body (some response.timestamp) = _
  rw [hreplies.status, hreplies.time, hbody]
  rfl

end Answers

section Sealed

variable {hmac : Hmac} {client : IoTClient} {request : Request} {plaintext stored : Bytes}
  {nonce : Int}

theorem extHeader_short {n : Nat} {header : Bytes} (hn : n < 2 ^ 16)
    (h : Msgpack.extHeader n = some header) : header.length ≤ 3 := by
  unfold Msgpack.extHeader at h
  split at h
  iterate 5
    · obtain rfl := Option.some.inj h
      simp
  split at h
  · obtain rfl := Option.some.inj h
    simp
  · obtain rfl := Option.some.inj h
    simp

-- What the server seals under the time of the last response, the client opens in its buffer.
theorem opens_sealed {secret : Secret} {response : Server.Response} {memory : Bytes} {maxLen : Nat}
    (hdigest : ∀ key message, (hmac key message).length = 32)
    (hclient : client.secretHex = secret.text) (hcontext : context.secretHex = secret.text)
    (hsealed : signedEncryptedResponse hmac context request plaintext
      client.lastResponseTs.toNat = .ok response)
    (hroom : plaintext.length + 4 ≤ maxLen) :
    ∃ rest, client.decryptKVResponseIfEncrypted hmac
        ⟨written maxLen 0 response.body memory, response.body.length⟩ =
      some (true, ⟨plaintext ++ rest, plaintext.length⟩) := by
  obtain ⟨ciphertext, hcipher, hpack, -, -⟩ := signedEncryptedResponse_body hsealed
  obtain ⟨header, hheader, hbody⟩ := packb_ext hpack
  have hsecret : client.secretBytes = some secret.bytes := by
    have hread := @Implementation.secretBytes_text secret client.lastResponseTs
    rwa [← hclient] at hread
  rw [hcontext] at hcipher
  have hlength : plaintext.length ≤ 8160 :=
    ((kvencXor_ok_iff hmac (blocksOf32 hdigest) (by rw [secret.reads]; rfl)).mp ⟨_, hcipher⟩).2
  have hmasked := kvencXor_full secret.reads hcipher
  have hstream := @length_fullKeystream hmac secret.bytes client.lastResponseTs.toNat
    (blocksOf32 hdigest)
  have hsame : ciphertext.length = plaintext.length := by
    rw [hmasked]
    simp only [xorBytes, List.length_zipWith]
    omega
  have hback : xorBytes ciphertext
      (fullKeystream hmac secret.bytes client.lastResponseTs.toNat) = plaintext := by
    rw [hmasked]
    exact xorBytes_twice (by omega)
  have hfits : response.body.length ≤ maxLen := by
    have hshort := extHeader_short (by omega) hheader
    rw [hbody, List.length_append, List.length_cons]
    omega
  obtain ⟨rest, hdecrypt⟩ := @decrypt_body hmac client secret.bytes header ciphertext
    (memory.drop response.body.length) hdigest hsecret hheader (by omega)
  rw [hback, hsame] at hdecrypt
  refine ⟨rest, ?_⟩
  rw [written_zero hfits]
  rw [← hbody] at hdecrypt
  exact hdecrypt

theorem toNat_stampOf {t : Int} (h : 0 ≤ t ∧ t < 2 ^ 31) : ((stampOf t).toNat : Int) = t := by
  unfold stampOf clampLong intMax
  rw [UInt32.toNat_ofNat']
  omega

-- What the server has when a call comes in behind others.
def reached (service : Service) (setup : Setup) (context : Context) (first : List Asked)
    (asked : Asked) (w : World) : World :=
  asked.found (service.answers setup context first w).2

theorem answer_sealed (hblocks : BlocksOf32 service.site.hmac) (hop : asked.op = .readKV key)
    (hacl : checkAcl context.acl ("kv/".toList ++ HttpMessage.latin1 key) .read = .ok ())
    (hvalue : (asked.found w).store.get (kvKey (HttpMessage.latin1 key)) = some stored)
    (hflag : truthy ((asked.found w).store.get (encKey (HttpMessage.latin1 key))) = true)
    (hplain : encryptedPlaintext stored = .ok plaintext) (hlength : plaintext.length ≤ 8160)
    (hdraws : (kvencNonceLua (asked.found w).store (nonceKey context.clientId) asked.now).1 =
      some nonce) (hnonce : 0 ≤ nonce ∧ nonce < 2 ^ 32) :
    ∃ request response, signedEncryptedResponse service.site.hmac context request plaintext nonce =
        .ok response ∧
      (service.answer setup context asked w).1 = ⟨200, response.body, some nonce⟩ := by
  obtain ⟨op, call, ts, now, meanwhile⟩ := asked
  obtain rfl : op = .readKV key := hop
  let asked : Asked := ⟨.readKV key, call, ts, now, meanwhile⟩
  let request := (Operation.readKV key).request setup
    ((Operation.readKV key).signature service.site.hmac context ts) ts
  obtain ⟨n, rfl⟩ := Int.eq_ofNat_of_zero_le hnonce.1
  obtain ⟨response, hsealed, hstatus, htime, -, -⟩ := @signedEncryptedResponse_opens
    service.site.hmac context request plaintext n hblocks (by omega) hlength
  refine ⟨request, response, hsealed, ?_⟩
  have hdrawn := nextKvencNonce_draws context.clientId (asked.found w)
  have hclock : (asked.found w).clock = now := rfl
  rw [hclock, hdraws] at hdrawn
  have hrun : ((readKv service.site.hmac context (HttpMessage.latin1 key) request).runOn
      (asked.found w)).1 = .ok response := by
    rw [readKv_sealed hacl hvalue hflag, hplain, Handler.runOn_ofExcept_ok_bind,
      Handler.runOn_bind_of_ok hdrawn, hsealed]
    rfl
  change service.reply ((Answer.device <$> readKv _ _ _ _).runOn (asked.found w)).1 = _
  rw [Handler.runOn_map]
  change service.reply (Except.map Answer.device
    ((readKv service.site.hmac context (HttpMessage.latin1 key) request).runOn
      (asked.found w)).1) = _
  rw [hrun]
  change sent response.status response.body (some response.timestamp) = _
  rw [hstatus, htime]
  rfl

-- A device that reads an encrypted key is left with the plaintext at the front of its buffer, once
-- it decrypts under the time that the answer came with.
theorem reads_sealed {first : List Asked} {read : Asked} {memory : Bytes} {ts : UInt32}
    {responses : List Response} {link : Link}
    (hdigest : ∀ key message, (service.site.hmac key message).length = 32)
    (hsetup : setup.Printable) (hknown : setup.Known context service.site.jsonDepth w)
    (hasked : ∀ one ∈ first ++ [read], one.Sendable service.site.hmac context)
    (hsmall : ∀ reply ∈ (service.answers setup context (first ++ [read]) w).1,
      reply.body.length < 2 ^ 31)
    (hread : read.op = .readKV key)
    (hacl : checkAcl context.acl ("kv/".toList ++ HttpMessage.latin1 key) .read = .ok ())
    (hvalue : (service.reached setup context first read w).store.get
      (kvKey (HttpMessage.latin1 key)) = some stored)
    (hflag : truthy ((service.reached setup context first read w).store.get
      (encKey (HttpMessage.latin1 key))) = true)
    (hplain : encryptedPlaintext stored = .ok plaintext) (hlength : plaintext.length ≤ 8160)
    (hdraws : (kvencNonceLua (service.reached setup context first read w).store
      (nonceKey context.clientId) read.now).1 = some nonce) (hnonce : 0 ≤ nonce ∧ nonce < 2 ^ 31)
    (hmemory : read.call.memory = some memory) (hout : read.call.hasOutLen = true)
    (hroom : plaintext.length + 4 ≤ read.call.maxLen)
    (hrun : service.run setup (first ++ [read]) ⟨w, ts, [], []⟩ = some (responses, link)) :
    ∃ buffer : Buffer, responses.getLast? =
        some ⟨200, some buffer.memory, some buffer.len, link.lastResponseTs⟩ ∧
      ∃ rest, { setup.client with lastResponseTs := link.lastResponseTs
          }.decryptKVResponseIfEncrypted service.site.hmac buffer =
        some (true, ⟨plaintext ++ rest, plaintext.length⟩) := by
  obtain ⟨before, hlast, hlink⟩ := heard_last hdigest hsetup hknown hasked hsmall hrun
  obtain ⟨request, response, hsealed, hanswer⟩ := @answer_sealed service setup context
    (service.answers setup context first w).2 read key plaintext stored nonce
    (blocksOf32 hdigest) hread hacl hvalue hflag hplain hlength hdraws ⟨hnonce.1, by omega⟩
  obtain ⟨secret, hclient, hcontext⟩ := hknown.secret
  rw [hanswer] at hlast hlink
  have hstamp : link.lastResponseTs = stampOf nonce := hlink
  rw [heard_stamped, hout, ← hstamp, Call.kept, if_pos hout, hmemory] at hlast
  refine ⟨⟨written read.call.maxLen 0 response.body memory, response.body.length⟩, hlast, ?_⟩
  have hnonce' : ((link.lastResponseTs.toNat : Nat) : Int) = nonce := by
    rw [hstamp]
    exact toNat_stampOf hnonce
  rw [← hnonce'] at hsealed
  exact @opens_sealed context service.site.hmac
    { setup.client with lastResponseTs := link.lastResponseTs } request plaintext secret response
    memory read.call.maxLen hdigest hclient hcontext hsealed hroom

def World.sealing : World where
  store := (World.known.store.set (kvKey ['k']) [0xa2, 0x68, 0x69]).set (encKey ['k']) [0x31]
  clock := 100
  redisMs := 0

theorem known_sealing : Setup.small.Known Context.device Service.small.site.jsonDepth
    World.sealing where
  secret := known_small.secret
  clientId := known_small.clientId
  stored := by
    refine (Store.get_set_of_ne _ (by decide) _).trans ?_
    exact (Store.get_set_of_ne _ (by decide) _).trans known_small.stored
  acl := by
    have hget : World.sealing.store.get (clientAclKey Context.device.clientId) =
        World.known.store.get (clientAclKey Context.device.clientId) :=
      (Store.get_set_of_ne _ (by decide) _).trans (Store.get_set_of_ne _ (by decide) _)
    have hloaded := known_small.acl
    rwa [← hget] at hloaded

theorem reads_sealing : ∃ responses link,
    Service.small.run Setup.small
        [⟨.readKV (utf8 ['k']), ⟨some (List.replicate 8 0), true, 8, by simp⟩, 100, 100, id⟩]
        ⟨World.sealing, 0, [], []⟩ = some (responses, link) ∧
      ∃ buffer : Buffer, responses.getLast? =
          some ⟨200, some buffer.memory, some buffer.len, link.lastResponseTs⟩ ∧
        ∃ rest, { zeroClient with lastResponseTs := link.lastResponseTs
            }.decryptKVResponseIfEncrypted echo buffer =
          some (true, ⟨[0x68, 0x69] ++ rest, 2⟩) := by
  let read : Asked :=
    ⟨.readKV (utf8 ['k']), ⟨some (List.replicate 8 0), true, 8, by simp⟩, 100, 100, id⟩
  have hsendable : ∀ one ∈ [read], one.Sendable Service.small.site.hmac Context.device := by
    intro one hone
    obtain rfl := List.mem_singleton.mp hone
    exact sendable_small ⟨List.forall_mem_singleton.mpr (by decide), by decide⟩ rfl
  have hanswers : ∀ reply ∈ (Service.small.answers Setup.small Context.device [read]
      World.sealing).1, reply.status ≠ 204 ∧ reply.body.length < 2 ^ 31 := by
    decide
  obtain ⟨responses, link, hrun⟩ :=
    exists_run length_echo printable_small known_sealing hsendable hanswers 0
  refine ⟨responses, link, hrun, ?_⟩
  exact @reads_sealed Service.small Setup.small Context.device World.sealing (utf8 ['k'])
    [0x68, 0x69] [0xa2, 0x68, 0x69] 100 [] read (List.replicate 8 0) 0 responses link length_echo
    printable_small known_sealing hsendable
    (fun reply hreply => (hanswers reply hreply).2) rfl
    (by decide) (by decide) (by decide) rfl (by decide) (by decide)
    (by decide) rfl rfl (by decide) hrun

end Sealed

end Service

end Calls

end Stra2us.IoTClient
