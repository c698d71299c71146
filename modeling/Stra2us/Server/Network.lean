import Stra2us.Acl.Provision
import Stra2us.Server.Signed

namespace Stra2us.Server

open Foundation Handler

section Serve

variable (server : HttpServer) (site : Site)

-- A request as it came in, with a bound on the batches a consume may go through.
structure Arrival where
  request : HttpRequest
  fuel : Nat

structure Served where
  context : Context
  call : Call
  answer : Answer

-- A device request is routed, verified and handled.
def serve (arrival : Arrival) : Handler Served :=
  match server.scope arrival.request with
  | none => throw (.http 400 "Invalid HTTP request received.".toList)
  | some scope =>
      match route arrival.request.method scope.path with
      | none => throw (.http 404 "Not Found".toList)
      | some target => do
          let request := server.request arrival.request scope
          let context ← verifyDeviceRequest site.hmac site.jsonDepth request
          let call ← Handler.ofExcept (target.call server arrival.fuel scope.query request context)
          let answer ← call.handler site
          pure ⟨context, call, answer⟩

def Arrival.program (arrival : Arrival) : Prog Cmd Reply (Except Exn Served) :=
  (serve server site arrival).run

end Serve

section Verified

variable {hmac : Hmac} {jsonDepth : Nat} {request : Request} {events : List (Event Cmd Reply)}
  {context : Context}

theorem requiredHeader_ok {name value : Text} (h : requiredHeader request name = .ok value) :
    request.header? name = some value := by
  unfold requiredHeader at h
  split at h
  · rename_i heq
    rw [heq, Except.ok.inj h]
  · cases h

-- A request that is verified carries the digest of its path, its body and a fresh timestamp.
theorem verifyDeviceRequest_returns
    (h : Returns (verifyDeviceRequest hmac jsonDepth request) events (.ok context)) :
    ∃ thread now ts secret, (⟨thread, .time, now⟩ : Event Cmd Reply) ∈ events ∧
      verifyTimestamp now ts = true ∧ fromHex context.secretHex = some secret ∧
      request.header? "x-signature".toList =
        some (hexdigest (hmac secret (signingPayload request.path request.body ts))) := by
  obtain ⟨clientId, -, hclient⟩ := returns_ofExcept_bind_ok.mp h
  obtain ⟨timestampStr, -, htimestamp⟩ := returns_ofExcept_bind_ok.mp hclient
  obtain ⟨signature, hsignature, hheaders⟩ := returns_ofExcept_bind_ok.mp htimestamp
  obtain ⟨ts, -, hparsed⟩ := returns_ofExcept_bind_ok.mp hheaders
  obtain ⟨thread, now, afterTime, rfl, htime⟩ := returns_ask_bind_ok.mp hparsed
  cases hfresh : verifyTimestamp now ts with
  | false =>
      simp only [hfresh, Bool.false_eq_true, ite_false] at htime
      cases (returns_throw.mp htime).2
  | true =>
      simp only [hfresh, ite_true] at htime
      obtain ⟨_, raw, afterGet, rfl, hget⟩ := returns_ask_bind_ok.mp htime
      obtain ⟨secretHex, -, hraw⟩ := returns_ofExcept_bind_ok.mp hget
      obtain ⟨make, hmake, hsigned⟩ := returns_ofExcept_bind_ok.mp hraw
      obtain ⟨_, rawAcl, afterAcl, rfl, hacl⟩ := returns_ask_bind_ok.mp hsigned
      obtain ⟨acl, -, hloaded⟩ := returns_ofExcept_bind_ok.mp hacl
      obtain rfl := Except.ok.inj (returns_pure.mp hloaded).2
      obtain ⟨hvalid, hfields⟩ := verifiedContext_ok hmake
      obtain ⟨secret, hsecret⟩ := Option.isSome_iff_exists.mp (make acl).hexValid
      refine ⟨thread, now, ts, secret, by simp, hfresh, hsecret, ?_⟩
      rw [(hfields acl).2.1] at hsecret
      rw [requiredHeader_ok hsignature]
      unfold verifySignature signPayload calculateSignature compareDigest at hvalid
      simp only [hsecret, bind, Except.bind] at hvalid
      split at hvalid
      · rw [of_decide_eq_true (Except.ok.inj hvalid)]
      · cases hvalid

end Verified

section Unforgeable

variable {server : HttpServer} {site : Site} {asks : HttpRequest → Text → Int → Prop}
  {secret : Bytes} {drift : World → World → Prop}

-- Where a digest under the client's secret can come from: the client has asked for something
-- under this URI at this time, or it has been answered.
def Known (asks : HttpRequest → Text → Int → Prop) (secret : Bytes)
    (s : System Cmd Reply Arrival (Except Exn Served) World) (message : Bytes) : Prop :=
  (∃ asked uri ts, asks asked uri ts ∧ signingPayload uri asked.body ts = message) ∨
    ∃ (j : Nat) (arrival : Arrival) (served : Served) (request : Request) (response : Response),
      s.threads[j]? = some (arrival, .done (.ok served)) ∧
      served.call.session? = some (served.context, request) ∧
      served.answer = .device response ∧ fromHex served.context.secretHex = some secret ∧
      signingPayload request.path response.body response.timestamp = message

-- Anybody may send anything, but for a digest that has not been made yet.
def Unforged (hmac : Hmac) (asks : HttpRequest → Text → Int → Prop) (secret : Bytes)
    (s s' : System Cmd Reply Arrival (Except Exn Served) World) : Prop :=
  ∀ (i : Nat) (arrival : Arrival) (p : Prog Cmd Reply (Except Exn Served)) (message : Bytes),
    s.threads[i]? = none → s'.threads[i]? = some (arrival, p) →
    arrival.request.header? "x-signature".toList = some (hexdigest (hmac secret message)) →
    Known asks secret s message

-- An answer that was given stays given.
theorem Known.step {s s' : System Cmd Reply Arrival (Except Exn Served) World} {message : Bytes}
    (hs : Step exec (Arrival.program server site) drift s s') (h : Known asks secret s message) :
    Known asks secret s' message := by
  rcases h with hasked | ⟨j, arrival, served, request, response, hj, hrest⟩
  · exact .inl hasked
  · refine .inr ⟨j, arrival, served, request, response, ?_, hrest⟩
    cases hs with
    | start arrival' =>
        have hlt : j < s.threads.length := (List.getElem?_eq_some_iff.mp hj).1
        rw [System.start, List.getElem?_append_left hlt]
        exact hj
    | turn i arrival' cmd next hi =>
        have hne : i ≠ j := by
          rintro rfl
          rw [hi] at hj
          cases hj
        rw [System.turn, List.getElem?_set_ne hne]
        exact hj
    | drift world hd => exact hj

-- In every run a request has the digests it carries from somebody who made them.
theorem known_of_run {w : World} {s : System Cmd Reply Arrival (Except Exn Served) World}
    (hrun : Run exec (Arrival.program server site) drift (Unforged site.hmac asks secret)
      (.initial w) s) :
    ∀ (i : Nat) arrival p message, s.threads[i]? = some (arrival, p) →
      arrival.request.header? "x-signature".toList = some (hexdigest (site.hmac secret message)) →
      Known asks secret s message := by
  refine hrun.invariant (fun s => ∀ (i : Nat) arrival p message,
    s.threads[i]? = some (arrival, p) →
    arrival.request.header? "x-signature".toList = some (hexdigest (site.hmac secret message)) →
    Known asks secret s message) ?_ ?_
  · intro i arrival p message hi
    cases hi
  · intro a b hs hunforged ih i arrival p message hi hsignature
    apply Known.step hs
    cases hold : a.threads[i]? with
    | none => exact hunforged i arrival p message hold hi hsignature
    | some thread =>
        obtain ⟨arrival', p'⟩ := thread
        have hsame : arrival' = arrival := by
          cases hs with
          | start started =>
              have hlt : i < a.threads.length := (List.getElem?_eq_some_iff.mp hold).1
              rw [System.start, List.getElem?_append_left hlt, hold] at hi
              exact (Prod.mk.inj (Option.some.inj hi)).1
          | turn j started cmd next hj =>
              by_cases hne : j = i
              · subst hne
                have hlt : j < a.threads.length := (List.getElem?_eq_some_iff.mp hold).1
                rw [System.turn, List.getElem?_set_self hlt] at hi
                rw [hold] at hj
                rw [(Prod.mk.inj (Option.some.inj hj)).1]
                exact (Prod.mk.inj (Option.some.inj hi)).1
              · rw [System.turn, List.getElem?_set_ne hne, hold] at hi
                exact (Prod.mk.inj (Option.some.inj hi)).1
          | drift world hd =>
              rw [hold] at hi
              exact (Prod.mk.inj (Option.some.inj hi)).1
        rw [← hsame] at hsignature
        exact ih i arrival' p' message hold hsignature

-- The thread serves this request and has got past verification as this client.
structure Verified (server : HttpServer) (site : Site)
    (s : System Cmd Reply Arrival (Except Exn Served) World) (i : Nat) (arrival : Arrival)
    (scope : Scope) (context : Context) : Prop where
  thread : ∃ p, s.threads[i]? = some (arrival, p)
  routed : server.scope arrival.request = some scope
  passed : ∃ events rest, s.eventsOf i = events ++ rest ∧
    Returns (verifyDeviceRequest site.hmac site.jsonDepth
      (server.request arrival.request scope)) events (.ok context)

-- Whoever is answered has been verified.
theorem verified_of_served {condition : System Cmd Reply Arrival (Except Exn Served) World →
      System Cmd Reply Arrival (Except Exn Served) World → Prop} {w : World}
    {s : System Cmd Reply Arrival (Except Exn Served) World}
    (hrun : Run exec (Arrival.program server site) drift condition (.initial w) s) {i : Nat}
    {arrival : Arrival} {served : Served}
    (hi : s.threads[i]? = some (arrival, .done (.ok served))) :
    ∃ scope, Verified server site s i arrival scope served.context := by
  have hreturns : Returns (serve server site arrival) (s.eventsOf i) (.ok served) :=
    hrun.threads_of_initial i arrival _ hi
  unfold serve at hreturns
  cases hscope : server.scope arrival.request with
  | none =>
      rw [hscope] at hreturns
      cases (returns_throw.mp hreturns).2
  | some scope =>
      rw [hscope] at hreturns
      dsimp only at hreturns
      cases hroute : route arrival.request.method scope.path with
      | none =>
          rw [hroute] at hreturns
          cases (returns_throw.mp hreturns).2
      | some target =>
          rw [hroute] at hreturns
          obtain ⟨events, rest, context, hevents, hverify, hcalled⟩ := returns_bind_ok.mp hreturns
          obtain ⟨call, -, hhandled⟩ := returns_ofExcept_bind_ok.mp hcalled
          obtain ⟨_, _, answer, -, -, hpure⟩ := returns_bind_ok.mp hhandled
          have hserved := Except.ok.inj (returns_pure.mp hpure).2
          refine ⟨scope, ⟨_, hi⟩, hscope, events, rest, hevents, ?_⟩
          rw [hserved]
          exact hverify

end Unforgeable

section Small

-- A request on the record, under the client's signature for it.
def keyArrival (method : Text) : Arrival where
  request := ⟨method, utf8 "/kv/k".toList, [("x-client-id".toList, ['c']),
    ("x-timestamp".toList, ['1', '0', '0']), ("x-signature".toList,
      hexdigest (marking [0] (signingPayload "/kv/k".toList [] 100)))], []⟩
  fuel := 0

-- The client has asked to read the record.
def asksRead (asked : HttpRequest) (uri : Text) (ts : Int) : Prop :=
  asked = (keyArrival "GET".toList).request ∧ uri = "/kv/k".toList ∧ ts = 100

theorem unforged_start (w : World) (method : Text) (p : Prog Cmd Reply (Except Exn Served)) :
    Unforged marking asksRead [0] (.initial w)
      ((System.initial w).start (keyArrival method) p) := by
  intro i arrival p message _ hnew hsignature
  obtain ⟨rfl, -⟩ := Prod.mk.inj (List.mem_singleton.mp (List.mem_of_getElem? hnew))
  have hsame := idealMac_marking.injective [0] (hexdigest_injective (Option.some.inj hsignature))
  exact .inl ⟨_, _, _, ⟨rfl, rfl, rfl⟩, hsame⟩

theorem unforged_of_length (s s' : System Cmd Reply Arrival (Except Exn Served) World)
    (h : s'.threads.length = s.threads.length) : Unforged marking asksRead [0] s s' := by
  intro i arrival p message hold hnew
  have hlength := List.getElem?_eq_none_iff.mp hold
  rw [← h, ← List.getElem?_eq_none_iff, hnew] at hlength
  cases hlength

def anyAcl : Value :=
  permissionsAcl [permission ['*'] "rw".toList]

-- The client may do anything.
def World.trusting : World where
  store := World.holding.store.set (clientAclKey ['c'])
    ((dumpRecord markingSite anyAcl).toOption.getD [])
  clock := World.holding.clock
  redisMs := World.holding.redisMs

theorem acl_trusting : aclOfRecord 8 (World.trusting.store.get (clientAclKey ['c'])) =
    .ok anyAcl := by
  have htextual : Json.Textual markingSite.jsonDepth anyAcl := by
    apply Acl.textual_permissionsAcl
    intro perm hperm
    obtain rfl := List.mem_singleton.mp hperm
    exact Acl.textual_permission _ _ _
  obtain ⟨text, hdumps, hloads⟩ := htextual.loads_dumps
  have hget : World.trusting.store.get (clientAclKey ['c']) = some (utf8 text) := by
    refine (Store.get_set_self _ _ _).trans ?_
    rw [dumpRecord, hdumps]
    rfl
  have hrecord : loadRecord markingSite.jsonDepth (utf8 text) = .ok anyAcl := by
    simp only [loadRecord, utf8Decode_utf8, hloads]
  rw [hget]
  cases hbytes : utf8 text with
  | nil =>
      rw [hbytes] at hrecord
      cases hrecord
  | cons byte rest =>
      rw [hbytes] at hrecord
      change (loadRecord markingSite.jsonDepth (byte :: rest)).mapError jsonExn = _
      rw [hrecord]
      rfl

def World.emptied : World where
  store := World.trusting.store.delete [kvKey ['k'], encKey ['k']]
  clock := World.trusting.clock
  redisMs := World.trusting.redisMs

theorem delete_trusting : ∃ served response request,
    (Arrival.program .standard markingSite (keyArrival "DELETE".toList)).run exec World.trusting =
        (.ok served, World.emptied) ∧
      served.context.clientId = ['c'] ∧ fromHex served.context.secretHex = some [0] ∧
      served.call = .deleteKv served.context ['k'] request ∧
      served.answer = .device response := by
  let request : Request :=
    ⟨"DELETE".toList, "/kv/k".toList, (keyArrival []).request.headers, []⟩
  let context : Context := ⟨['c'], ['0', '0'], anyAcl, rfl⟩
  have hstored : secretOfRecord (World.trusting.store.get (clientSecretKey ['c'])) =
      .ok ['0', '0'] := by
    have hget : World.trusting.store.get (clientSecretKey ['c']) = some (utf8 ['0', '0']) :=
      (Store.get_set_of_ne _ (by decide) _).trans registered_holding.secret
    rw [hget]
    rfl
  have hverify : (verifyDeviceRequest marking 8 request).runOn World.trusting =
      (.ok context, World.trusting) :=
    (@verifyDeviceRequest_runOn marking 8 request World.trusting ['c'] ['1', '0', '0']
      (hexdigest (marking [0] (signingPayload "/kv/k".toList [] 100))) ['0', '0'] 100 anyAcl
      rfl rfl rfl rfl rfl hstored acl_trusting).trans rfl
  obtain ⟨response, hanswer, -⟩ := signedMsgpack_runOn marking context request
    (show (utf8 "ok".toList).length < 2 ^ 32 by decide)
    World.emptied
  have hdelete : (deleteKv marking context ['k'] request).runOn World.trusting =
      (.ok response, World.emptied) :=
    hanswer
  refine ⟨⟨context, .deleteKv context ['k'] request, .device response⟩, response, request, ?_,
    rfl, rfl, rfl, rfl⟩
  change (verifyDeviceRequest marking 8 request >>= fun context =>
    Handler.ofExcept (Except.ok (.deleteKv context ['k'] request)) >>= fun call =>
      call.handler markingSite >>= fun answer =>
        (pure ⟨context, call, answer⟩ : Handler Served)).runOn World.trusting = _
  rw [Handler.runOn_bind_of_ok hverify]
  change ((Answer.device <$> deleteKv marking context ['k'] request) >>= fun answer =>
    (pure ⟨context, .deleteKv context ['k'] request, answer⟩ : Handler Served)).runOn
      World.trusting = _
  rw [Handler.runOn_bind, Handler.runOn_map, hdelete]
  rfl

end Small

end Stra2us.Server
