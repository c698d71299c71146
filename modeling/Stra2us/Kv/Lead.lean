import Stra2us.Client.Response
import Stra2us.Device.Graceful
import Stra2us.Foundation.Tickets
import Stra2us.Kv.Ciphers
import Stra2us.Kv.Nonce

namespace Stra2us.Kv

open Foundation Server Client Device

-- The clock as it was read for a nonce that an event handed to a client.
def readingOf (clientId : Text) (event : Event Cmd Reply) : Option Int :=
  match event with
  | ⟨_, .kvencNonce key now, some _⟩ => if key = nonceKey clientId then some now else none
  | _ => none

def readings (clientId : Text) (history : List (Event Cmd Reply)) : List Int :=
  history.filterMap (readingOf clientId)

section Record

variable {clientId : Text} {last : Int}

theorem kvencNonceLua_eq {store : Store} {key : Text} (h : lastNonce store key = some last)
    (now : Int) : (kvencNonceLua store key now).1 = some (nextTicket last now) ∧
      lastNonce (kvencNonceLua store key now).2 key = some (nextTicket last now) := by
  have hnext : (if last ≥ now then last + 1 else now) = nextTicket last now := by
    unfold nextTicket
    split <;> omega
  unfold kvencNonceLua
  rw [h]
  simp [hnext]

-- A command leaves the record alone, or it draws the next ticket.
theorem exec_ticket (cmd : Cmd) (w : World) (thread : Nat) (hspares : SparesNonces cmd)
    (hlast : lastNonce w.store (nonceKey clientId) = some last) :
    (handedBy clientId ⟨thread, cmd, (exec cmd w).1⟩ = none ∧
      readingOf clientId ⟨thread, cmd, (exec cmd w).1⟩ = none ∧
      lastNonce (exec cmd w).2.store (nonceKey clientId) = some last) ∨
    ∃ now, handedBy clientId ⟨thread, cmd, (exec cmd w).1⟩ = some (nextTicket last now) ∧
      readingOf clientId ⟨thread, cmd, (exec cmd w).1⟩ = some now ∧
      lastNonce (exec cmd w).2.store (nonceKey clientId) = some (nextTicket last now) := by
  have hother (hnone : readingOf clientId ⟨thread, cmd, (exec cmd w).1⟩ = none)
      (hhanded : handedBy clientId ⟨thread, cmd, (exec cmd w).1⟩ = none) :
      lastNonce (exec cmd w).2.store (nonceKey clientId) = some last := by
    rcases exec_lastNonce clientId cmd w thread hspares with ⟨-, hsame⟩ | ⟨_, _, hsome, -⟩
    · rw [hsame, hlast]
    · rw [hhanded] at hsome
      cases hsome
  cases cmd with
  | kvencNonce key now =>
      by_cases hk : key = nonceKey clientId
      · subst hk
        obtain ⟨hreply, hnew⟩ := kvencNonceLua_eq hlast now
        refine Or.inr ⟨now, ?_, ?_, hnew⟩
        · simp [handedBy, exec, hreply]
        · simp [readingOf, exec, hreply]
      · have hhanded : handedBy clientId ⟨thread, .kvencNonce key now,
            (exec (.kvencNonce key now) w).1⟩ = none := by
          cases hreply : (kvencNonceLua w.store key now).1 with
          | none => simp [handedBy, exec, hreply]
          | some nonce => simp [handedBy, exec, hreply, hk]
        have hnone : readingOf clientId ⟨thread, .kvencNonce key now,
            (exec (.kvencNonce key now) w).1⟩ = none := by
          cases hreply : (kvencNonceLua w.store key now).1 with
          | none => simp [readingOf, exec, hreply]
          | some nonce => simp [readingOf, exec, hreply, hk]
        exact Or.inl ⟨hhanded, hnone, hother hnone hhanded⟩
  | time => exact Or.inl ⟨rfl, rfl, hother rfl rfl⟩
  | get key => exact Or.inl ⟨rfl, rfl, hother rfl rfl⟩
  | set key value => exact Or.inl ⟨rfl, rfl, hother rfl rfl⟩
  | delete keys => exact Or.inl ⟨rfl, rfl, hother rfl rfl⟩
  | xadd key fields => exact Or.inl ⟨rfl, rfl, hother rfl rfl⟩
  | xread key from_ count => exact Or.inl ⟨rfl, rfl, hother rfl rfl⟩
  | expire key seconds => exact Or.inl ⟨rfl, rfl, hother rfl rfl⟩

-- The record is the last ticket drawn, and every nonce was the last ticket when it was handed out.
structure Drawn (clientId : Text) (last : Int) (store : Store) (history : List (Event Cmd Reply)) :
    Prop where
  record : lastNonce store (nonceKey clientId) =
    some (lastTicket last (readings clientId history))
  handed : ∀ before event after nonce, history = before ++ event :: after →
    handedBy clientId event = some nonce →
      nonce = lastTicket last (readings clientId (before ++ [event]))
  latest : readings clientId history = [] ∨
    lastTicket last (readings clientId history) ∈ handedNonces clientId history

theorem drawn_turn {w : World} {history : List (Event Cmd Reply)} (thread : Nat) (cmd : Cmd)
    (hspares : SparesNonces cmd) (h : Drawn clientId last w.store history) :
    Drawn clientId last (exec cmd w).2.store
      (history ++ [⟨thread, cmd, (exec cmd w).1⟩]) := by
  have hsnoc (event : Event Cmd Reply) : readings clientId (history ++ [event]) =
      readings clientId history ++ (readingOf clientId event).toList := by
    cases hreading : readingOf clientId event with
    | none => simp [readings, hreading]
    | some now => simp [readings, hreading]
  rcases exec_ticket cmd w thread hspares h.record with
    ⟨hhanded, hreading, hsame⟩ | ⟨now, hhanded, hreading, hnew⟩
  · have hreadings := hsnoc ⟨thread, cmd, (exec cmd w).1⟩
    rw [hreading, Option.toList_none, List.append_nil] at hreadings
    refine ⟨?_, ?_, ?_⟩
    · rw [hreadings, hsame]
    · intro before event after nonce hsplit hnonce
      rcases split_snoc hsplit with ⟨-, -, rfl⟩ | ⟨rest, -, hbefore⟩
      · rw [hhanded] at hnonce
        cases hnonce
      · exact h.handed before event rest nonce hbefore hnonce
    · rw [hreadings]
      exact h.latest.imp_right fun hmem => by
        rw [handedNonces, List.filterMap_append]
        exact List.mem_append_left _ hmem
  · have hreadings := hsnoc ⟨thread, cmd, (exec cmd w).1⟩
    rw [hreading, Option.toList_some] at hreadings
    have hticket : lastTicket last (readings clientId
        (history ++ [⟨thread, cmd, (exec cmd w).1⟩])) =
          nextTicket (lastTicket last (readings clientId history)) now := by
      rw [hreadings, lastTicket_snoc]
    refine ⟨?_, ?_, .inr ?_⟩
    · rw [hticket, hnew]
    · intro before event after nonce hsplit hnonce
      rcases split_snoc hsplit with ⟨-, rfl, rfl⟩ | ⟨rest, -, hbefore⟩
      · rw [hhanded] at hnonce
        rw [hticket]
        exact (Option.some.inj hnonce).symm
      · exact h.handed before event rest nonce hbefore hnonce
    · rw [hticket, handedNonces, List.filterMap_append]
      exact List.mem_append_right _ (List.mem_filterMap.mpr ⟨_, List.mem_singleton_self _, hhanded⟩)

end Record

section Run

variable {site : Site} {w : World} {s : System Cmd Reply Call (Except Exn Answer) World}
  {clientId : Text} {last : Int}

theorem run_drawn {drift : World → World → Prop}
    (hrun : Run exec (Call.program site) drift (fun _ _ => True) (.initial w) s)
    (hdrift : ∀ w w', drift w w' → KeepsNonces w w')
    (hlast : lastNonce w.store (nonceKey clientId) = some last) :
    Drawn clientId last s.world.store s.history := by
  refine hrun.world (fun world history => Drawn clientId last world.store history)
    (Call.sparesNonces site) ?_ ?_ ?_
  · exact ⟨hlast, by simp, .inl rfl⟩
  · intro w history i cmd hspares h
    exact drawn_turn i cmd hspares h
  · intro w w' history hmoved h
    exact ⟨(lastNonce_congr (hdrift w w' hmoved clientId)).trans h.record, h.handed, h.latest⟩

-- The record at the start, and each draw since, is no further ahead of this time than the window
-- lets it be, less one second for every draw that came after it.
def KeepsPace (last : Int) (readings : List Int) (time : Int) : Prop :=
  last + readings.length ≤ time + Stra2usClient.clockDriftSeconds ∧
    ∀ before now after, readings = before ++ now :: after →
      now + after.length ≤ time + Stra2usClient.clockDriftSeconds

theorem lastTicket_keepsPace {readings : List Int} {time : Int} :
    lastTicket last readings ≤ time + Stra2usClient.clockDriftSeconds ↔
      KeepsPace last readings time :=
  lastTicket_le_iff

-- An answer that is not kept too long is accepted exactly when its nonce has kept pace.
theorem accepted_iff {hmac : Hmac} {context : Context} {request : Request} {plaintext : Bytes}
    {nonce now time : Int} {response : Response} {client : Stra2usClient}
    (hdigest : ∀ key message, (hmac key message).length = 32)
    (hresponse : signedEncryptedResponse hmac context request plaintext nonce = .ok response)
    (hclient : client.secretHex = context.secretHex) (hnow : now ≤ nonce)
    (hlate : time ≤ now + Stra2usClient.clockDriftSeconds) (hsoon : now ≤ time) :
    client.verifyResp hmac request.path response.body (some (intText response.timestamp))
        (some response.signature) time = .ok () ↔
      nonce ≤ time + Stra2usClient.clockDriftSeconds := by
  obtain ⟨ciphertext, hcipher, -, htimestamp, hsig⟩ := signedEncryptedResponse_body hresponse
  obtain ⟨secret, n, -, hsecret, rfl, hn, -⟩ := kvencXor_eq hcipher
  have hne : response.signature ≠ [] := by
    unfold signPayload calculateSignature at hsig
    rw [hsecret] at hsig
    intro hnil
    have hempty := congrArg List.length
      (@hexdigest_injective _ [] ((Except.ok.inj hsig).trans hnil))
    rw [hdigest] at hempty
    cases hempty
  have hdigits : (natText (n : Int).natAbs).length ≤ maxIntDigits := by
    have hten := (Nat.length_toDigits_le_iff (b := 10) (n := n) (k := 10) (by omega) (by omega)).mpr
      (by omega)
    simp only [Int.natAbs_natCast, natText, maxIntDigits]
    omega
  rw [← hclient] at hsig
  rw [htimestamp, Stra2usClient.verifyResp_signed hsig hne hdigits]
  omega

-- However the requests interleave and whatever the clock does, a nonce leads a time by no more
-- than the window exactly when the draws up to it have kept pace with that time, and the answer
-- made under it is accepted exactly then.
theorem nonce_lead_iff (hdigest : ∀ key message, (site.hmac key message).length = 32)
    (hrun : Run exec (Call.program site) KeepsNonces (fun _ _ => True) (.initial w) s)
    (hlast : lastNonce w.store (nonceKey clientId) = some last) :
    (∀ before event after nonce, s.history = before ++ event :: after →
      handedBy clientId event = some nonce → ∀ time : Int,
        (nonce ≤ time + 300 ↔ KeepsPace last (readings clientId (before ++ [event])) time)) ∧
    ∀ i context key request response thread flag, context.clientId = clientId →
      s.threads[i]? = some (.readKv context key request, .done (.ok (.device response))) →
      truthy flag → (⟨thread, .get (encKey key), flag⟩ : Event Cmd Reply) ∈ s.eventsOf i →
      ∃ before now nonce after,
        s.history = before ++ ⟨i, .kvencNonce (nonceKey clientId) now, some nonce⟩ :: after ∧
        ∀ client : Stra2usClient, client.secretHex = context.secretHex →
          ∀ time, now ≤ time → time ≤ now + 300 →
            (client.verifyResp site.hmac request.path response.body
                (some (intText response.timestamp)) (some response.signature) time = .ok () ↔
              KeepsPace last (readings clientId
                (before ++ [⟨i, .kvencNonce (nonceKey clientId) now, some nonce⟩])) time) := by
  have hdrawn := run_drawn hrun (fun _ _ h => h) hlast
  constructor
  · intro before event after nonce hsplit hhanded time
    rw [hdrawn.handed before event after nonce hsplit hhanded]
    exact lastTicket_keepsPace
  · intro i context key request response thread flag hcontext hdone hflag hread
    obtain ⟨now, nonce, plaintext, hevent, hresponse⟩ := encrypted_of_flag hrun hdone hflag hread
    rw [hcontext] at hevent
    obtain ⟨before, after, hsplit⟩ := List.append_of_mem hevent
    refine ⟨before, now, nonce, after, hsplit, ?_⟩
    intro client hclient time hsoon hlate
    have hnonce := hdrawn.handed before _ after nonce hsplit (by simp [handedBy])
    have hreading : readings clientId
        (before ++ [⟨i, .kvencNonce (nonceKey clientId) now, some nonce⟩]) =
          readings clientId before ++ [now] := by
      simp [readings, readingOf]
    have hnow : now ≤ nonce := by
      rw [hnonce, hreading, lastTicket_snoc]
      exact le_max_left _ _
    rw [accepted_iff hdigest hresponse hclient hnow hlate hsoon, ← lastTicket_keepsPace,
      ← hnonce]

end Run

section Burst

def readOfA : Call :=
  .readKv .small ['a'] ⟨"GET".toList, "/kv/a".toList, [], []⟩

structure Flagged (record : Int) (w : World) : Prop where
  clock : w.clock = 100
  value : w.store.get (kvKey ['a']) = some [0xa1, 0x78]
  flag : w.store.get (encKey ['a']) = some (utf8 ['1'])
  record : lastNonce w.store (nonceKey ['c']) = some record

theorem nextKvencNonce_runOn {clientId : Text} {last : Int} {w : World}
    (hlast : lastNonce w.store (nonceKey clientId) = some last) :
    (nextKvencNonce clientId).runOn w = (.ok (nextTicket last w.clock),
      { w with store := (kvencNonceLua w.store (nonceKey clientId) w.clock).2 }) := by
  have hreply := (kvencNonceLua_eq hlast w.clock).1
  unfold nextKvencNonce Handler.time Handler.kvencNonce
  rw [Handler.runOn_ask_bind, Handler.runOn_ask_bind]
  simp only [exec]
  rw [hreply]
  rfl

-- A read of a flagged record changes the store by its draw alone.
theorem readKv_world {hmac : Hmac} {context : Context} {key : Text} {request : Request}
    {value plaintext : Bytes} {flag : Option Bytes} {last : Int} {w : World}
    (hacl : checkAcl context.acl ("kv/".toList ++ key) .read = .ok ())
    (hvalue : w.store.get (kvKey key) = some value) (hflag : w.store.get (encKey key) = flag)
    (htrue : truthy flag = true) (hplain : encryptedPlaintext value = .ok plaintext)
    (hlast : lastNonce w.store (nonceKey context.clientId) = some last) :
    ((readKv hmac context key request).runOn w).2 =
      { w with store := (kvencNonceLua w.store (nonceKey context.clientId) w.clock).2 } := by
  unfold readKv
  rw [hacl, Handler.runOn_ofExcept_ok_bind, runOn_get_bind, hvalue]
  dsimp only
  rw [runOn_get_bind, hflag, if_pos htrue, hplain, Handler.runOn_ofExcept_ok_bind,
    Handler.runOn_bind_of_ok (nextKvencNonce_runOn hlast), Handler.runOn_ofExcept]

theorem flagged_read {record : Int} {w : World} (h : Flagged record w) :
    Flagged (nextTicket record 100) ((readOfA.program .small).run exec w).2 := by
  have hnew := (kvencNonceLua_eq h.record w.clock).2
  have hother (key : Text) (hkey : key ≠ nonceKey ['c']) :
      (kvencNonceLua w.store (nonceKey ['c']) w.clock).2.get key = w.store.get key :=
    get_kvencNonceLua_of_ne hkey w.clock
  have hworld : ((readOfA.program .small).run exec w).2 =
      { w with store := (kvencNonceLua w.store (nonceKey ['c']) w.clock).2 } := by
    have hread := @readKv_world Site.small.hmac .small ['a']
      ⟨"GET".toList, "/kv/a".toList, [], []⟩ _ [0x78] _ _ w rfl h.value h.flag rfl rfl h.record
    have hmap := Handler.runOn_map (readKv Site.small.hmac .small ['a']
      ⟨"GET".toList, "/kv/a".toList, [], []⟩) Answer.device w
    exact (congrArg Prod.snd hmap).trans hread
  rw [hworld]
  exact ⟨h.clock, (hother _ (by decide)).trans h.value, (hother _ (by decide)).trans h.flag,
    hnew.trans (by rw [h.clock])⟩

def Forward (w w' : World) : Prop :=
  KeepsNonces w w' ∧ w.clock ≤ w'.clock

theorem burst (n : Nat) : ∃ s,
    Run exec (Call.program .small) Forward (fun _ _ => True) (.initial flaggedWorld) s ∧
      Flagged (100 + n) s.world := by
  induction n with
  | zero =>
      have hinitial : Run exec (Call.program .small) Forward (fun _ _ => True)
          (.initial flaggedWorld) (.initial flaggedWorld) := .refl
      obtain ⟨s, hrun, hworld⟩ := hinitial.serve readOfA
      refine ⟨s, hrun, ?_⟩
      have hread := @flagged_read 0 flaggedWorld ⟨rfl, rfl, rfl, rfl⟩
      rw [hworld]
      exact hread
  | succ n ih =>
      obtain ⟨s, hrun, hflagged⟩ := ih
      obtain ⟨s', hrun', hworld⟩ := hrun.serve readOfA
      have hread := flagged_read hflagged
      have hnext : nextTicket (100 + n) 100 = 100 + ((n + 1 : Nat) : Int) := by
        unfold nextTicket
        omega
      rw [hnext] at hread
      refine ⟨s', hrun', ?_⟩
      rw [hworld]
      exact hread

-- One client, and more reads in a second than the window has.
theorem burst_outruns_clock : ∃ s,
    Run exec (Call.program .small) Forward (fun _ _ => True) (.initial flaggedWorld) s ∧
      ∃ nonce ∈ handedNonces ['c'] s.history, s.world.clock + 300 < nonce := by
  obtain ⟨s, hrun, hflagged⟩ := burst 301
  refine ⟨s, hrun, 401, ?_, by rw [hflagged.clock]; omega⟩
  have hdrawn := run_drawn hrun (fun _ _ h => h.1)
    (show lastNonce flaggedWorld.store (nonceKey ['c']) = some 0 from rfl)
  have hrecord := hflagged.record.symm.trans hdrawn.record
  rcases hdrawn.latest with hnone | hmem
  · rw [hnone] at hrecord
    cases hrecord
  · rwa [← Option.some.inj hrecord] at hmem

def echoSite : Site :=
  { Site.small with hmac := Implementation.echo }

def twoReadsEnd : System Cmd Reply Call (Except Exn Answer) World :=
  (System.initial flaggedWorld).play exec (Call.program echoSite) twoReads

theorem run_twoReadsEnd : Run exec (Call.program echoSite) KeepsNonces (fun _ _ => True)
    (.initial flaggedWorld) twoReadsEnd :=
  Run.of_free_play twoReads (by decide)

def secondDraw : Event Cmd Reply :=
  ⟨0, .kvencNonce (nonceKey ['c']) 100, some 101⟩

set_option maxRecDepth 10000 in
theorem history_twoReadsEnd :
    twoReadsEnd.history = twoReadsEnd.history.take 7 ++ secondDraw :: [] := by
  rfl

set_option maxRecDepth 10000 in
theorem readings_twoReadsEnd :
    readings ['c'] (twoReadsEnd.history.take 7 ++ [secondDraw]) = [100, 100] := by
  rfl

-- The second of two reads in one second is one second ahead.
theorem nonce_lead_twoReads : (101 : Int) ≤ 100 + 300 ↔ KeepsPace 0 [100, 100] 100 := by
  have hlead := (@nonce_lead_iff echoSite flaggedWorld twoReadsEnd ['c'] 0
    Implementation.length_echo run_twoReadsEnd rfl).1 (twoReadsEnd.history.take 7) secondDraw []
      101 history_twoReadsEnd rfl 100
  rwa [readings_twoReadsEnd] at hlead

end Burst

end Stra2us.Kv
