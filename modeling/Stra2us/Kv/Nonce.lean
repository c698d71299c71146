import Stra2us.Kv.Keystream
import Stra2us.Server.Footprint
import Stra2us.Server.Trace

namespace Stra2us.Kv

open Foundation Server

-- The nonce an event handed to a client, where it is the script's answer.
def handedBy (clientId : Text) (event : Event Cmd Reply) : Option Int :=
  match event with
  | ⟨_, .kvencNonce key _, some nonce⟩ => if key = nonceKey clientId then some nonce else none
  | _ => none

def handedNonces (clientId : Text) (history : List (Event Cmd Reply)) : List Int :=
  history.filterMap (handedBy clientId)

-- Between two commands anything may happen to the clocks and to the store, as long
-- as the nonce records stay.
def KeepsNonces (w w' : World) : Prop :=
  ∀ clientId, w'.store.get (nonceKey clientId) = w.store.get (nonceKey clientId)

def SparesNonces (cmd : Cmd) : Prop :=
  ∀ clientId, ¬ cmd.overwrites (nonceKey clientId)

theorem nonceKey_injective : Function.Injective nonceKey := by
  intro a b h
  exact List.append_cancel_left h

theorem lastNonce_congr {store store' : Store} {key : Text}
    (h : store'.get key = store.get key) : lastNonce store' key = lastNonce store key := by
  simp [lastNonce, h]

@[simp] theorem lastNonce_set_intText (store : Store) (key : Text) (n : Int) :
    lastNonce (store.set key (utf8 (intText n))) key = some n := by
  simp [lastNonce]

section Lua

-- The script answers a nonce beyond the last one and records it.
theorem kvencNonceLua_some {store : Store} {key : Text} {now nonce : Int}
    (h : (kvencNonceLua store key now).1 = some nonce) :
    (∃ last, lastNonce store key = some last ∧ last < nonce) ∧
      lastNonce (kvencNonceLua store key now).2 key = some nonce := by
  unfold kvencNonceLua at h ⊢
  cases hl : lastNonce store key with
  | none => simp [hl] at h
  | some last =>
      simp only [hl, Option.some.injEq] at h ⊢
      refine ⟨⟨last, rfl, ?_⟩, ?_⟩
      · split at h <;> omega
      · rw [lastNonce_set_intText, h]

theorem kvencNonceLua_none {store : Store} {key : Text} {now : Int}
    (h : (kvencNonceLua store key now).1 = none) : (kvencNonceLua store key now).2 = store := by
  unfold kvencNonceLua at h ⊢
  cases hl : lastNonce store key with
  | none => simp
  | some last => simp [hl] at h

theorem get_kvencNonceLua_of_ne {store : Store} {key other : Text} (h : other ≠ key) (now : Int) :
    (kvencNonceLua store key now).2.get other = store.get other := by
  unfold kvencNonceLua
  cases lastNonce store key with
  | none => rfl
  | some last => exact Store.get_set_of_ne store h _

end Lua

section Invariant

variable (clientId : Text)

-- What one command does to a client's record: it stays, or the script moves it up
-- to the nonce that is handed out.
theorem exec_lastNonce (cmd : Cmd) (w : World) (thread : Nat) (h : SparesNonces cmd) :
    (handedBy clientId ⟨thread, cmd, (exec cmd w).1⟩ = none ∧
      lastNonce (exec cmd w).2.store (nonceKey clientId) =
        lastNonce w.store (nonceKey clientId)) ∨
    ∃ nonce last, handedBy clientId ⟨thread, cmd, (exec cmd w).1⟩ = some nonce ∧
      lastNonce w.store (nonceKey clientId) = some last ∧ last < nonce ∧
      lastNonce (exec cmd w).2.store (nonceKey clientId) = some nonce := by
  cases cmd with
  | time => exact Or.inl ⟨rfl, rfl⟩
  | get key => exact Or.inl ⟨rfl, rfl⟩
  | set key value =>
      refine Or.inl ⟨rfl, lastNonce_congr (Store.get_set_of_ne _ ?_ _)⟩
      rintro rfl
      exact h clientId rfl
  | delete keys =>
      refine Or.inl ⟨rfl, lastNonce_congr ?_⟩
      have hk : nonceKey clientId ∉ keys := h clientId
      simp [Store.get_delete, hk]
  | xadd key fields => exact Or.inl ⟨rfl, rfl⟩
  | xread key last count => exact Or.inl ⟨rfl, rfl⟩
  | expire key seconds => exact Or.inl ⟨rfl, lastNonce_congr (Store.get_expire _ _ _ _)⟩
  | kvencNonce key now =>
      cases hr : (kvencNonceLua w.store key now).1 with
      | none =>
          refine Or.inl ⟨by simp [handedBy, exec, hr], ?_⟩
          simp [exec, kvencNonceLua_none hr]
      | some nonce =>
          by_cases hk : nonceKey clientId = key
          · subst hk
            obtain ⟨⟨last, hlast, hlt⟩, hnew⟩ := kvencNonceLua_some hr
            exact Or.inr ⟨nonce, last, by simp [handedBy, exec, hr], hlast, hlt, hnew⟩
          · refine Or.inl ⟨by simp [handedBy, exec, hr, Ne.symm hk], ?_⟩
            exact lastNonce_congr (get_kvencNonceLua_of_ne hk now)

-- The nonces handed out so far increase, and the record is at least the latest.
def NoncesOrdered (store : Store) (history : List (Event Cmd Reply)) : Prop :=
  (handedNonces clientId history).Pairwise (· < ·) ∧
    ∀ nonce ∈ handedNonces clientId history,
      ∃ last, lastNonce store (nonceKey clientId) = some last ∧ nonce ≤ last

theorem noncesOrdered_turn {w : World} {history : List (Event Cmd Reply)} (thread : Nat)
    (cmd : Cmd) (hcmd : SparesNonces cmd) (h : NoncesOrdered clientId w.store history) :
    NoncesOrdered clientId (exec cmd w).2.store
      (history ++ [⟨thread, cmd, (exec cmd w).1⟩]) := by
  obtain ⟨hpair, hle⟩ := h
  rcases exec_lastNonce clientId cmd w thread hcmd with ⟨hnone, hsame⟩ | ⟨nonce, last, hsome, hlast, hlt, hnew⟩
  · have hh : handedNonces clientId (history ++ [⟨thread, cmd, (exec cmd w).1⟩]) =
        handedNonces clientId history := by
      simp [handedNonces, hnone]
    rw [NoncesOrdered, hh, hsame]
    exact ⟨hpair, hle⟩
  · have hh : handedNonces clientId (history ++ [⟨thread, cmd, (exec cmd w).1⟩]) =
        handedNonces clientId history ++ [nonce] := by
      simp [handedNonces, hsome]
    have hbelow : ∀ m ∈ handedNonces clientId history, m < nonce := by
      intro m hm
      obtain ⟨last', hl, hml⟩ := hle m hm
      rw [hlast] at hl
      obtain rfl := Option.some.inj hl
      omega
    rw [NoncesOrdered, hh, hnew]
    constructor
    · rw [List.pairwise_append]
      refine ⟨hpair, List.pairwise_singleton _ _, ?_⟩
      intro m hm n hn
      rw [List.mem_singleton.mp hn]
      exact hbelow m hm
    · intro m hm
      refine ⟨nonce, rfl, ?_⟩
      rcases List.mem_append.mp hm with hm | hm
      · exact (hbelow m hm).le
      · rw [List.mem_singleton.mp hm]

-- No request of the interface replaces or removes a nonce record.
theorem Call.sparesNonces (site : Site) (call : Call) :
    (call.program site).Issues SparesNonces := by
  refine (call.issues site).mono ?_
  intro cmd hcmd clientId hover
  have hkey := hcmd.within _ hover
  cases call <;>
    simp [Call.overwrites, nonceKey_eq, cursorKey_eq, kvKey_eq, encKey_eq, queueKey_eq,
      clientSecretKey_eq, clientAclKey_eq, deviceToAppKey_eq, adminAclKey_eq] at hkey

end Invariant

section Responses

variable (site : Site)

-- Request `i` has been answered with an encrypted record for this client, and these
-- inputs of the HMAC made up the keystream.
structure ServedEncrypted (s : System Cmd Reply Call (Except Exn Answer) World) (i : Nat)
    (context : Context) (nonce blocks : Nat) (response : Response) : Prop where
  handed : ∃ now, (⟨i, .kvencNonce (nonceKey context.clientId) now, some (nonce : Int)⟩ :
    Event Cmd Reply) ∈ s.history
  nonce_lt : nonce < 2 ^ 32
  blocks_le : blocks ≤ 255
  encrypted : ∃ secret plaintext, fromHex context.secretHex = some secret ∧
    plaintext.length ≤ ((keystreamInputs nonce blocks).flatMap (site.hmac secret)).length ∧
    Msgpack.packb (.ext kvencExtType (xorBytes plaintext
      (((keystreamInputs nonce blocks).flatMap (site.hmac secret)).take plaintext.length))) =
        some response.body

theorem signedEncryptedResponse_body {hmac : Hmac} {context : Context} {request : Request}
    {plaintext : Bytes} {nonce : Int} {response : Response}
    (h : signedEncryptedResponse hmac context request plaintext nonce = .ok response) :
    ∃ ciphertext, kvencXor hmac context.secretHex nonce plaintext = .ok ciphertext ∧
      Msgpack.packb (.ext kvencExtType ciphertext) = some response.body ∧
      response.timestamp = nonce ∧
      signPayload hmac context.secretHex request.path response.body nonce =
        .ok response.signature := by
  unfold signedEncryptedResponse at h
  cases hx : kvencXor hmac context.secretHex nonce plaintext with
  | error exn => rw [hx] at h; cases h
  | ok ciphertext =>
      rw [hx] at h
      cases hp : Msgpack.packb (.ext kvencExtType ciphertext) with
      | none => simp [packOrRaise, hp, bind, Except.bind] at h
      | some body =>
          cases hs : signPayload hmac context.secretHex request.path body nonce with
          | error exn => simp [packOrRaise, hp, hs, bind, Except.bind] at h
          | ok sig =>
              simp only [packOrRaise, hp, hs, bind, Except.bind, Except.ok.injEq] at h
              subst h
              exact ⟨ciphertext, rfl, hp, rfl, hs⟩

theorem kvencXor_eq {hmac : Hmac} {secretHex : Text} {nonce : Int} {data ciphertext : Bytes}
    (h : kvencXor hmac secretHex nonce data = .ok ciphertext) :
    ∃ secret n blocks, fromHex secretHex = some secret ∧ nonce = (n : Nat) ∧ n < 2 ^ 32 ∧
      blocks ≤ 255 ∧ data.length ≤ ((keystreamInputs n blocks).flatMap (hmac secret)).length ∧
      ciphertext =
        xorBytes data (((keystreamInputs n blocks).flatMap (hmac secret)).take data.length) := by
  unfold kvencXor at h
  cases hk : kvencKeystream hmac secretHex nonce data.length with
  | error exn => rw [hk] at h; cases h
  | ok keystream =>
      rw [hk] at h
      obtain ⟨secret, n, blocks, hsecret, hnonce, hn, hblocks, hkeystream, hlength⟩ :=
        kvencKeystream_eq hmac data.length hk
      refine ⟨secret, n, blocks, hsecret, hnonce, hn, hblocks, ?_, ?_⟩
      · rw [hkeystream, List.length_take] at hlength
        omega
      · rw [← Except.ok.inj h, hkeystream]

variable {site} {w : World} {s : System Cmd Reply Call (Except Exn Answer) World}

theorem run_noncesOrdered
    (hrun : Run exec (Call.program site) KeepsNonces (fun _ _ => True) (.initial w) s)
    (clientId : Text) : NoncesOrdered clientId s.world.store s.history := by
  refine hrun.world (fun world history => NoncesOrdered clientId world.store history)
    (Call.sparesNonces site) ?_ ?_ ?_
  · exact ⟨List.Pairwise.nil, by simp [handedNonces]⟩
  · intro w history i cmd hcmd h
    exact noncesOrdered_turn clientId i cmd hcmd h
  · intro w w' history hd h
    rw [NoncesOrdered, lastNonce_congr (hd clientId)]
    exact h

-- One nonce is handed to a client by one event only.
theorem event_unique {clientId : Text} {history : List (Event Cmd Reply)}
    (h : (handedNonces clientId history).Pairwise (· < ·)) {a b : Event Cmd Reply}
    (ha : a ∈ history) (hb : b ∈ history) {nonce : Int} (hna : handedBy clientId a = some nonce)
    (hnb : handedBy clientId b = some nonce) : a = b := by
  rw [handedNonces, List.pairwise_filterMap, List.pairwise_iff_getElem] at h
  obtain ⟨i, hi, rfl⟩ := List.getElem_of_mem ha
  obtain ⟨j, hj, rfl⟩ := List.getElem_of_mem hb
  rcases Nat.lt_trichotomy i j with hlt | rfl | hgt
  · exact absurd (h i j hi hj hlt nonce hna nonce hnb) (lt_irrefl _)
  · rfl
  · exact absurd (h j i hj hi hgt nonce hnb nonce hna) (lt_irrefl _)

-- The answer to a read that saw the flag was made under the nonce that the read drew.
theorem encrypted_of_flag
    (hrun : Run exec (Call.program site) KeepsNonces (fun _ _ => True) (.initial w) s)
    {i : Nat} {context : Context} {key : Text} {request : Request} {response : Response}
    (hdone : s.threads[i]? =
      some (.readKv context key request, .done (.ok (.device response))))
    {thread : Nat} {flag : Option Bytes} (hflag : truthy flag)
    (hread : (⟨thread, .get (encKey key), flag⟩ : Event Cmd Reply) ∈ s.eventsOf i) :
    ∃ now nonce plaintext, (⟨i, .kvencNonce (nonceKey context.clientId) now, some nonce⟩ :
        Event Cmd Reply) ∈ s.history ∧
      signedEncryptedResponse site.hmac context request plaintext nonce = .ok response := by
  have hafter := hrun.threads_of_initial i _ _ hdone
  obtain ⟨answer, hreturns, hanswer⟩ := Handler.returns_map_ok.mp
    (show Handler.Returns (Answer.device <$> readKv site.hmac context key request)
      (s.eventsOf i) (.ok (.device response)) from hafter)
  obtain rfl := Answer.device.inj hanswer
  have htrace := readKv_trace hreturns
  have hkeys : encKey key ≠ kvKey key := by
    intro he
    have := congrArg List.length he
    simp [encKey] at this
  generalize hevents : s.eventsOf i = events at htrace hread
  cases htrace with
  | missing a b ts _ hbody => simp [hkeys] at hread
  | plain a b c ts value flag' _ hflag' hbody =>
      simp only [List.mem_cons, Event.mk.injEq, Cmd.get.injEq, hkeys, false_and, and_false,
        false_or, reduceCtorEq, List.not_mem_nil, or_false, true_and] at hread
      rw [eq_of_heq hread.2, hflag'] at hflag
      cases hflag
  | encrypted a b c d now nonce value plaintext flag' _ hflag' hplain hresponse =>
      have hevent : (⟨d, .kvencNonce (nonceKey context.clientId) now, some nonce⟩ :
          Event Cmd Reply) ∈ s.eventsOf i := by simp [hevents]
      have hd : d = i := by
        have := (List.mem_filter.mp hevent).2
        simpa using this
      subst hd
      exact ⟨now, nonce, plaintext, (List.mem_filter.mp hevent).1, hresponse⟩

theorem servedEncrypted_of_flag
    (hrun : Run exec (Call.program site) KeepsNonces (fun _ _ => True) (.initial w) s)
    {i : Nat} {context : Context} {key : Text} {request : Request} {response : Response}
    (hdone : s.threads[i]? =
      some (.readKv context key request, .done (.ok (.device response))))
    {thread : Nat} {flag : Option Bytes} (hflag : truthy flag)
    (hread : (⟨thread, .get (encKey key), flag⟩ : Event Cmd Reply) ∈ s.eventsOf i) :
    ∃ nonce blocks, ServedEncrypted site s i context nonce blocks response := by
  obtain ⟨now, nonce, plaintext, hevent, hresponse⟩ := encrypted_of_flag hrun hdone hflag hread
  obtain ⟨ciphertext, hcipher, hbody, -, -⟩ := signedEncryptedResponse_body hresponse
  obtain ⟨secret, n, blocks, hsecret, rfl, hn, hblocks, henough, rfl⟩ := kvencXor_eq hcipher
  exact ⟨n, blocks, ⟨now, hevent⟩, hn, hblocks, secret, plaintext, hsecret, henough, hbody⟩

-- Two reads of one flagged record in the same second, command by command.
def twoReads : List (Move Call World) :=
  let read := Call.readKv .small ['a'] ⟨"GET".toList, "/kv/a".toList, [], []⟩
  [.start read, .start read, .turn 0, .turn 1, .turn 0, .turn 1, .turn 0, .turn 1, .turn 1, .turn 0]

def flaggedWorld : World where
  store := (Store.empty.set (kvKey ['a']) [0xa1, 0x78]).set (encKey ['a']) (utf8 ['1'])
  clock := 100
  redisMs := 0

end Responses

end Stra2us.Kv
