import Stra2us.Server.Wire

namespace Stra2us.Client

open Foundation Server

-- The command-line client; where its requests are sent does not enter into them.
structure Stra2usClient where
  clientId : Text
  secretHex : Text

namespace Stra2usClient

def error : Exn := .python "Stra2usError".toList

section Requests

variable (hmac : Hmac) (client : Stra2usClient)

def secretBytes : Except Exn Bytes :=
  match fromHex client.secretHex with
  | some secret => .ok secret
  | none => .error error

def sign (uri : Text) (body : Bytes) (ts : Int) : Except Exn Text := do
  let secret ← client.secretBytes
  let tsText ← strInt ts
  .ok (hexdigest (hmac secret (utf8 uri ++ body ++ utf8 tsText)))

def request (method uri : Text) (body : Bytes) (contentType : Option Text)
    (extraHeaders : List (Text × Text)) (ts : Int) : Except Exn HttpRequest := do
  let sig ← client.sign hmac uri body ts
  let tsText ← strInt ts
  .ok ⟨method, utf8 uri,
    [("x-client-id".toList, client.clientId), ("x-timestamp".toList, tsText),
      ("x-signature".toList, sig)] ++
      (contentType.map fun ct => ("content-type".toList, ct)).toList ++ extraHeaders, body⟩

def kvUri (key : Text) : Text :=
  "/kv/".toList ++ Percent.quotePath key

def queueUri (topic : Text) (ttl : Option Int) : Except Exn Text :=
  match ttl with
  | none => .ok ("/q/".toList ++ Percent.quotePath topic)
  | some n => do
      let ttlText ← strInt n
      .ok ("/q/".toList ++ Percent.quotePath topic ++ "?ttl=".toList ++ ttlText)

def putRequest (key : Text) (value : Value) (encrypted : Bool) (ts : Int) :
    Except Exn HttpRequest := do
  let body ← packOrRaise value
  client.request hmac "POST".toList (kvUri key) body (some msgpackMt)
    (if encrypted then [("x-encrypted".toList, "1".toList)] else []) ts

def getRequest (key : Text) (ts : Int) : Except Exn HttpRequest :=
  client.request hmac "GET".toList (kvUri key) [] none [] ts

def deleteRequest (key : Text) (ts : Int) : Except Exn HttpRequest :=
  client.request hmac "DELETE".toList (kvUri key) [] none [] ts

def postQueueRequest (topic : Text) (payload : Value) (ttl : Option Int) (ts : Int) :
    Except Exn HttpRequest := do
  let body ← packOrRaise payload
  let uri ← queueUri topic ttl
  client.request hmac "POST".toList uri body (some msgpackMt) [] ts

end Requests

-- What the four methods can be asked for.
inductive Ask
  | put (key : Text) (value : Value) (encrypted : Bool)
  | get (key : Text)
  | delete (key : Text)
  | postQueue (topic : Text) (payload : Value) (ttl : Option Int)

namespace Ask

def request (hmac : Hmac) (client : Stra2usClient) (ts : Int) : Ask → Except Exn HttpRequest
  | .put key value encrypted => client.putRequest hmac key value encrypted ts
  | .get key => client.getRequest hmac key ts
  | .delete key => client.deleteRequest hmac key ts
  | .postQueue topic payload ttl => client.postQueueRequest hmac topic payload ttl ts

-- Where the request is meant to go.
def route : Ask → Route
  | .put key _ _ => .writeKv key
  | .get key => .readKv key
  | .delete key => .deleteKv key
  | .postQueue topic _ _ => .publish topic

def name : Ask → Text
  | .put key _ _ => key
  | .get key => key
  | .delete key => key
  | .postQueue topic _ _ => topic

-- The name goes into the path as it is, and nothing follows it.
def Plain (ask : Ask) : Prop :=
  (∀ c ∈ ask.name, Percent.isPathChar c) ∧
    match ask with
    | .postQueue _ _ ttl => ttl = none
    | _ => True

end Ask

section Agreement

variable {server : HttpServer} {hmac : Hmac} {jsonDepth : Nat} {w : World}
  {client : Stra2usClient} {ts : Int} {r : HttpRequest}

-- Every request is signed over the URI it is sent to.
theorem request_signs {method uri : Text} {body : Bytes} {contentType : Option Text}
    {extraHeaders : List (Text × Text)}
    (h : client.request hmac method uri body contentType extraHeaders ts = .ok r) :
    Signs hmac r client.clientId client.secretHex uri ts ∧ r.method = method ∧
      r.target = utf8 uri ∧ r.body = body := by
  unfold request sign secretBytes at h
  cases hhex : fromHex client.secretHex with
  | none => simp only [hhex, bind, Except.bind] at h; cases h
  | some secret =>
      by_cases hdigits : (natText ts.natAbs).length ≤ maxIntDigits
      · simp only [hhex, strInt, if_pos hdigits, bind, Except.bind, Except.ok.injEq] at h
        subst h
        exact ⟨⟨rfl, rfl, ⟨secret, hhex, rfl⟩, hdigits⟩, rfl, rfl, rfl⟩
      · simp only [hhex, strInt, if_neg hdigits, bind, Except.bind] at h
        cases h

theorem takeWhile_of_target {text : Text} (h : ∀ c ∈ text, Percent.isTargetChar c)
    (rest : Text) : (text ++ '?' :: rest).takeWhile (· ≠ '?') = text ∧
      text.takeWhile (· ≠ '?') = text := by
  have hall : ∀ c ∈ text, (decide (c ≠ '?')) = true := by
    intro c hc
    have hchar := h c hc
    simp only [Percent.isTargetChar, Bool.and_eq_true, decide_eq_true_eq] at hchar
    simpa using hchar.2
  constructor
  · rw [List.takeWhile_append_of_pos hall]
    simp
  · exact List.takeWhile_eq_self_iff.mpr hall

theorem visible_of_target {text : Text} (h : ∀ c ∈ text, Percent.isTargetChar c) :
    ∀ c ∈ text, 0x21 ≤ c.toNat ∧ c.toNat ≤ 0x7e := by
  intro c hc
  have hchar := h c hc
  simp only [Percent.isTargetChar, Bool.and_eq_true, decide_eq_true_eq] at hchar
  exact hchar.1

-- A signed path is accepted when none of its characters was changed by the encoding.
theorem accepts_path_iff {path : Text} {target : Route} (hideal : IdealMac hmac)
    (hregistered : Registered client.clientId client.secretHex jsonDepth w)
    (hfresh : verifyTimestamp w.clock ts = true)
    (hsigns : Signs hmac r client.clientId client.secretHex (Percent.quotePath path) ts)
    (htarget : r.target = utf8 (Percent.quotePath path)) :
    Accepts server hmac jsonDepth w r client.clientId target ↔
      route r.method path = some target ∧ ∀ c ∈ path, Percent.isPathChar c := by
  have hchars := Percent.isTargetChar_quotePath path
  have hscope := scope_of_visible server htarget (visible_of_target hchars)
  rw [(takeWhile_of_target hchars []).2, Percent.unquote_quotePath] at hscope
  rw [accepts_iff hideal hregistered hfresh hsigns hscope]
  refine and_congr_right fun _ => ?_
  constructor
  · intro hpath
    apply (Percent.quotePath_eq_self_iff path).mp
    -- the server's path is no longer than the one that was meant
    have hpre := server.urlPath_prefix path
    change server.urlPath path = Percent.quotePath path at hpath
    rw [hpath] at hpre
    exact hpre.eq_of_length_le (Percent.length_quotePath path)
  · intro hplain
    have hquery : '?' ∉ path := fun hmem => absurd (hplain _ hmem) (by decide)
    have hfragment : '#' ∉ path := fun hmem => absurd (hplain _ hmem) (by decide)
    rw [(Percent.quotePath_eq_self_iff path).mpr hplain]
    exact server.urlPath_plain path hquery hfragment

-- A query is signed by the client and left out by the server.
theorem not_accepts_query {path query : Text} {target : Route} (hideal : IdealMac hmac)
    (hregistered : Registered client.clientId client.secretHex jsonDepth w)
    (hfresh : verifyTimestamp w.clock ts = true)
    (hquery : ∀ c ∈ query, 0x21 ≤ c.toNat ∧ c.toNat ≤ 0x7e)
    (hsigns : Signs hmac r client.clientId client.secretHex
      (Percent.quotePath path ++ '?' :: query) ts)
    (htarget : r.target = utf8 (Percent.quotePath path ++ '?' :: query)) :
    ¬ Accepts server hmac jsonDepth w r client.clientId target := by
  have hchars := Percent.isTargetChar_quotePath path
  have hvisible : ∀ c ∈ Percent.quotePath path ++ '?' :: query,
      0x21 ≤ c.toNat ∧ c.toNat ≤ 0x7e := by
    intro c hc
    rcases List.mem_append.mp hc with hc | hc
    · exact visible_of_target hchars c hc
    · rcases List.mem_cons.mp hc with rfl | hc
      · decide
      · exact hquery c hc
  have hscope := scope_of_visible server htarget hvisible
  rw [(takeWhile_of_target hchars query).1, Percent.unquote_quotePath] at hscope
  rw [accepts_iff hideal hregistered hfresh hsigns hscope]
  rintro ⟨-, hpath⟩
  have hlen := (server.urlPath_prefix path).length_le
  have hlonger := Percent.length_quotePath path
  change server.urlPath path = _ at hpath
  rw [hpath, List.length_append, List.length_cons] at hlen
  omega

theorem pathParam_append {pre name : Text} (h : '\n' ∉ name) :
    pathParam pre (pre ++ name) = some name := by
  simp [pathParam, h]

theorem newline_not_mem {name : Text} (h : ∀ c ∈ name, Percent.isPathChar c) : '\n' ∉ name :=
  fun hmem => absurd (h _ hmem) (by decide)

theorem route_kv {method key : Text} (h : ∀ c ∈ key, Percent.isPathChar c) :
    route method ("/kv/".toList ++ key) =
      if method = "POST".toList then some (.writeKv key)
      else if method = "GET".toList then some (.readKv key)
      else if method = "DELETE".toList then some (.deleteKv key)
      else none := by
  have hq : pathParam "/q/".toList ("/kv/".toList ++ key) = none := by
    unfold pathParam
    rw [if_neg]
    intro hpre
    have hsecond := hpre.getElem (show 1 < 3 by omega)
    simp at hsecond
  unfold route
  rw [hq, pathParam_append (newline_not_mem h)]

theorem route_queue {method topic : Text} (h : ∀ c ∈ topic, Percent.isPathChar c) :
    route method ("/q/".toList ++ topic) =
      if method = "POST".toList then some (.publish topic)
      else if method = "GET".toList then some (.consume topic)
      else none := by
  unfold route
  rw [pathParam_append (newline_not_mem h)]

theorem utf8_prefix_quote {pre : Text} (h : ∀ c ∈ pre, Percent.isPathChar c) (name : Text) :
    pre ++ Percent.quotePath name = Percent.quotePath (pre ++ name) := by
  rw [Percent.quotePath_append, (Percent.quotePath_eq_self_iff pre).mpr h]

theorem isPathChar_append {pre name : Text} (hpre : ∀ c ∈ pre, Percent.isPathChar c) :
    (∀ c ∈ pre ++ name, Percent.isPathChar c) ↔ ∀ c ∈ name, Percent.isPathChar c := by
  simp only [List.mem_append]
  constructor
  · intro h c hc
    exact h c (.inr hc)
  · rintro h c (hc | hc)
    · exact hpre c hc
    · exact h c hc

theorem isPathChar_kv : ∀ c ∈ "/kv/".toList, Percent.isPathChar c :=
  List.all_eq_true.mp (by decide)

theorem isPathChar_q : ∀ c ∈ "/q/".toList, Percent.isPathChar c :=
  List.all_eq_true.mp (by decide)

theorem isTargetChar_ttl : ∀ c ∈ "ttl=".toList, Percent.isTargetChar c :=
  List.all_eq_true.mp (by decide)

theorem visible_strInt {n : Int} {text : Text} (h : strInt n = .ok text) :
    ∀ c ∈ text, 0x21 ≤ c.toNat ∧ c.toNat ≤ 0x7e := by
  have hdigit : ∀ m : Nat, ∀ c ∈ natText m, 0x21 ≤ c.toNat ∧ c.toNat ≤ 0x7e := by
    intro m c hc
    have hisDigit := Char.isDigit_iff_toNat.mp (isDigit_of_mem_natText hc)
    simp at hisDigit
    omega
  unfold strInt at h
  split at h
  · obtain rfl := Except.ok.inj h
    intro c hc
    cases n with
    | ofNat m => exact hdigit m c hc
    | negSucc m =>
        rcases List.mem_cons.mp hc with rfl | hc
        · decide
        · exact hdigit (m + 1) c hc
  · cases h

-- A request for a key goes to that key when the key needs no encoding.
theorem accepts_kv_iff {method key : Text} {target : Route} (hideal : IdealMac hmac)
    (hregistered : Registered client.clientId client.secretHex jsonDepth w)
    (hfresh : verifyTimestamp w.clock ts = true)
    (hsigns : Signs hmac r client.clientId client.secretHex (kvUri key) ts)
    (htarget : r.target = utf8 (kvUri key)) (hmethod : r.method = method)
    (hroute : (∀ c ∈ key, Percent.isPathChar c) →
      route method ("/kv/".toList ++ key) = some target) :
    Accepts server hmac jsonDepth w r client.clientId target ↔
      ∀ c ∈ key, Percent.isPathChar c := by
  unfold kvUri at hsigns htarget
  rw [utf8_prefix_quote isPathChar_kv] at hsigns htarget
  rw [accepts_path_iff hideal hregistered hfresh hsigns htarget, hmethod,
    isPathChar_append isPathChar_kv]
  constructor
  · rintro ⟨-, hplain⟩
    exact hplain
  · intro hplain
    exact ⟨hroute hplain, hplain⟩

-- Put together: a request goes through exactly when the name needs no encoding and no
-- expiry is asked for.
theorem accepts_iff_plain (ask : Ask) (hideal : IdealMac hmac)
    (hregistered : Registered client.clientId client.secretHex jsonDepth w)
    (hfresh : verifyTimestamp w.clock ts = true) (hrequest : ask.request hmac client ts = .ok r) :
    Accepts server hmac jsonDepth w r client.clientId ask.route ↔ ask.Plain := by
  cases ask with
  | put key value encrypted =>
      unfold Ask.request putRequest at hrequest
      cases hpack : packOrRaise value with
      | error exn => simp only [hpack, bind, Except.bind] at hrequest; cases hrequest
      | ok body =>
          simp only [hpack, bind, Except.bind] at hrequest
          obtain ⟨hsigns, hmethod, htarget, -⟩ := request_signs hrequest
          rw [accepts_kv_iff hideal hregistered hfresh hsigns htarget hmethod]
          · simp [Ask.Plain, Ask.name]
          · intro hplain
            rw [route_kv hplain, if_pos rfl]
            rfl
  | get key =>
      obtain ⟨hsigns, hmethod, htarget, -⟩ := request_signs hrequest
      rw [accepts_kv_iff hideal hregistered hfresh hsigns htarget hmethod]
      · simp [Ask.Plain, Ask.name]
      · intro hplain
        rw [route_kv hplain, if_neg (by decide), if_pos rfl]
        rfl
  | delete key =>
      obtain ⟨hsigns, hmethod, htarget, -⟩ := request_signs hrequest
      rw [accepts_kv_iff hideal hregistered hfresh hsigns htarget hmethod]
      · simp [Ask.Plain, Ask.name]
      · intro hplain
        rw [route_kv hplain, if_neg (by decide), if_neg (by decide), if_pos rfl]
        rfl
  | postQueue topic payload ttl =>
      unfold Ask.request postQueueRequest at hrequest
      cases hpack : packOrRaise payload with
      | error exn => simp only [hpack, bind, Except.bind] at hrequest; cases hrequest
      | ok body =>
          simp only [hpack, bind, Except.bind] at hrequest
          cases ttl with
          | none =>
              obtain ⟨hsigns, hmethod, htarget, -⟩ := request_signs hrequest
              rw [utf8_prefix_quote isPathChar_q] at hsigns htarget
              rw [accepts_path_iff hideal hregistered hfresh hsigns htarget, hmethod,
                isPathChar_append isPathChar_q]
              constructor
              · rintro ⟨-, hplain⟩
                exact ⟨hplain, rfl⟩
              · rintro ⟨hplain, -⟩
                refine ⟨?_, hplain⟩
                dsimp only [Ask.name] at hplain
                rw [route_queue hplain, if_pos rfl]
                rfl
          | some n =>
              cases htext : strInt n with
              | error exn => simp only [queueUri, htext, bind, Except.bind] at hrequest; cases hrequest
              | ok text =>
                  simp only [queueUri, htext, bind, Except.bind] at hrequest
                  obtain ⟨hsigns, hmethod, htarget, -⟩ := request_signs hrequest
                  have huri : "/q/".toList ++ Percent.quotePath topic ++ "?ttl=".toList ++ text =
                      Percent.quotePath ("/q/".toList ++ topic) ++ '?' :: ("ttl=".toList ++ text) := by
                    rw [← utf8_prefix_quote isPathChar_q, List.append_assoc _ _ text]
                    rfl
                  rw [huri] at hsigns htarget
                  have hquery : ∀ c ∈ "ttl=".toList ++ text, 0x21 ≤ c.toNat ∧ c.toNat ≤ 0x7e := by
                    intro c hc
                    rcases List.mem_append.mp hc with hc | hc
                    · exact visible_of_target isTargetChar_ttl c hc
                    · exact visible_strInt htext c hc
                  constructor
                  · intro haccepts
                    exact absurd haccepts
                      (not_accepts_query hideal hregistered hfresh hquery hsigns htarget)
                  · rintro ⟨-, hnone⟩
                    cases hnone

end Agreement

section Small

def small : Stra2usClient := ⟨['c'], ['0', '0']⟩

theorem registered_small : Registered small.clientId small.secretHex 8 World.knowing :=
  registered_knowing

-- A plain key goes through.
theorem accepts_plain_get :
    ∃ r, small.getRequest marking ['k'] 100 = .ok r ∧
      Accepts .standard marking 8 .knowing r ['c'] (.readKv ['k']) := by
  obtain ⟨r, hr⟩ : ∃ r, small.getRequest marking ['k'] 100 = .ok r := ⟨_, rfl⟩
  refine ⟨r, hr, ?_⟩
  apply (accepts_iff_plain (.get ['k']) idealMac_marking registered_small
    (show verifyTimestamp World.knowing.clock 100 = true by decide) hr).mpr
  exact ⟨List.all_eq_true.mp (by decide), trivial⟩

-- A blank in a key is signed as it is encoded, and an expiry is signed with the path.
theorem rejects_blank_and_ttl :
    (∃ r, small.getRequest marking ['a', ' ', 'b'] 100 = .ok r ∧
      ¬ Accepts .standard marking 8 .knowing r ['c'] (.readKv ['a', ' ', 'b'])) ∧
    ∃ r, small.postQueueRequest marking ['t'] (.int 1) (some 60) 100 = .ok r ∧
      ¬ Accepts .standard marking 8 .knowing r ['c'] (.publish ['t']) := by
  have hfresh : verifyTimestamp World.knowing.clock 100 = true := by decide
  constructor
  · obtain ⟨r, hr⟩ : ∃ r, small.getRequest marking ['a', ' ', 'b'] 100 = .ok r := ⟨_, rfl⟩
    refine ⟨r, hr, ?_⟩
    intro haccepts
    obtain ⟨hsigns, -, htarget, -⟩ := request_signs hr
    have hsigned : Signs marking r small.clientId small.secretHex
      (Percent.quotePath "/kv/a b".toList) 100 := hsigns
    have hplain := ((accepts_path_iff idealMac_marking registered_small hfresh hsigned
      htarget).mp haccepts).2
    exact absurd (hplain ' ' (by decide)) (by decide)
  · obtain ⟨r, hr⟩ : ∃ r, small.postQueueRequest marking ['t'] (.int 1) (some 60) 100 = .ok r :=
      ⟨_, rfl⟩
    refine ⟨r, hr, ?_⟩
    have hrequest : small.request marking "POST".toList "/q/t?ttl=60".toList [1]
      (some msgpackMt) [] 100 = .ok r := hr
    obtain ⟨hsigns, -, htarget, -⟩ := request_signs hrequest
    have hsigned : Signs marking r small.clientId small.secretHex
      (Percent.quotePath "/q/t".toList ++ '?' :: "ttl=60".toList) 100 := hsigns
    have hquery : ∀ c ∈ "ttl=60".toList, Percent.isTargetChar c :=
      List.all_eq_true.mp (by decide)
    exact not_accepts_query idealMac_marking registered_small hfresh (visible_of_target hquery)
      hsigned htarget

end Small

end Stra2usClient

end Stra2us.Client
