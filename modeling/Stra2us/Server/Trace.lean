import Stra2us.Foundation.Conduct
import Stra2us.Server.Footprint

namespace Stra2us.Server

open Foundation

namespace Handler

variable {α β : Type}

-- The handler, given the replies of these events, has ended with this result.
def Returns (handler : Handler α) (events : List (Event Cmd Reply)) (result : Except Exn α) :
    Prop :=
  After handler.run events (.done result)

@[simp] theorem returns_pure {value : α} {events : List (Event Cmd Reply)}
    {result : Except Exn α} :
    Returns (pure value) events result ↔ events = [] ∧ result = .ok value := by
  simp only [Returns, run_pure, after_done, Prog.done.injEq]

@[simp] theorem returns_throw {exn : Exn} {events : List (Event Cmd Reply)}
    {result : Except Exn α} :
    Returns (throw exn) events result ↔ events = [] ∧ result = .error exn := by
  simp only [Returns, run_throw, after_done, Prog.done.injEq]

@[simp] theorem returns_ofExcept {value : Except Exn α} {events : List (Event Cmd Reply)}
    {result : Except Exn α} :
    Returns (ofExcept value) events result ↔ events = [] ∧ result = value := by
  simp only [Returns, run_ofExcept, after_done, Prog.done.injEq]

theorem returns_ask {cmd : Cmd} {events : List (Event Cmd Reply)}
    {result : Except Exn (Reply cmd)} :
    Returns (ask cmd) events result ↔
      ∃ thread reply, events = [⟨thread, cmd, reply⟩] ∧ result = .ok reply := by
  simp only [Returns, run_ask, after_call_done, after_done, Prog.done.injEq]
  constructor
  · rintro ⟨thread, reply, rest, rfl, rfl, h⟩
    exact ⟨thread, reply, rfl, h⟩
  · rintro ⟨thread, reply, rfl, h⟩
    exact ⟨thread, reply, [], rfl, rfl, h⟩

-- A sequence succeeds when both parts do.
theorem returns_bind_ok {handler : Handler α} {f : α → Handler β}
    {events : List (Event Cmd Reply)} {value : β} :
    Returns (handler >>= f) events (.ok value) ↔
      ∃ first second mid, events = first ++ second ∧ Returns handler first (.ok mid) ∧
        Returns (f mid) second (.ok value) := by
  have hrun : (handler >>= f).run = handler.run >>= ExceptT.bindCont f := rfl
  simp only [Returns, hrun, after_bind_done]
  constructor
  · rintro ⟨first, second, result, rfl, hp, hf⟩
    cases result with
    | ok mid => exact ⟨first, second, mid, rfl, hp, hf⟩
    | error exn =>
        have hd : After (Prog.done (Except.error exn : Except Exn β) : Prog Cmd Reply _) second
            (.done (.ok value)) := hf
        cases (after_done.mp hd).2
  · rintro ⟨first, second, mid, rfl, hp, hf⟩
    exact ⟨first, second, .ok mid, rfl, hp, hf⟩

theorem returns_map_ok {handler : Handler α} {f : α → β} {events : List (Event Cmd Reply)}
    {value : β} :
    Returns (f <$> handler) events (.ok value) ↔
      ∃ mid, Returns handler events (.ok mid) ∧ value = f mid := by
  have hmap : f <$> handler = handler >>= fun mid => pure (f mid) := rfl
  rw [hmap, returns_bind_ok]
  constructor
  · rintro ⟨first, second, mid, rfl, hp, hf⟩
    obtain ⟨rfl, he⟩ := returns_pure.mp hf
    exact ⟨mid, by simpa using hp, Except.ok.inj he⟩
  · rintro ⟨mid, hp, rfl⟩
    exact ⟨events, [], mid, by simp, hp, returns_pure.mpr ⟨rfl, rfl⟩⟩

-- A computation without commands leaves no trace when it succeeds.
theorem returns_ofExcept_bind_ok {result : Except Exn α} {f : α → Handler β}
    {events : List (Event Cmd Reply)} {value : β} :
    Returns (ofExcept result >>= f) events (.ok value) ↔
      ∃ mid, result = .ok mid ∧ Returns (f mid) events (.ok value) := by
  rw [returns_bind_ok]
  constructor
  · rintro ⟨first, second, mid, rfl, hp, hf⟩
    obtain ⟨rfl, he⟩ := returns_ofExcept.mp hp
    exact ⟨mid, he.symm, hf⟩
  · rintro ⟨mid, rfl, hf⟩
    exact ⟨[], events, mid, rfl, returns_ofExcept.mpr ⟨rfl, rfl⟩, hf⟩

theorem returns_ask_bind_ok {cmd : Cmd} {f : Reply cmd → Handler β}
    {events : List (Event Cmd Reply)} {value : β} :
    Returns (ask cmd >>= f) events (.ok value) ↔
      ∃ thread reply rest, events = ⟨thread, cmd, reply⟩ :: rest ∧
        Returns (f reply) rest (.ok value) := by
  rw [returns_bind_ok]
  constructor
  · rintro ⟨first, second, mid, rfl, hp, hf⟩
    obtain ⟨thread, reply, rfl, he⟩ := returns_ask.mp hp
    obtain rfl := Except.ok.inj he
    exact ⟨thread, mid, second, rfl, hf⟩
  · rintro ⟨thread, reply, rest, rfl, hf⟩
    exact ⟨[⟨thread, cmd, reply⟩], rest, reply, rfl, returns_ask.mpr ⟨thread, reply, rfl, rfl⟩, hf⟩

section Obeys

variable {φ : Type} {conduct : Conduct Cmd Reply φ} {ends : φ → Except Exn β → Prop}

def Obeys (conduct : Conduct Cmd Reply φ) (ends : φ → Except Exn α → Prop) (phase : φ)
    (handler : Handler α) : Prop :=
  Prog.Obeys conduct ends phase handler.run

-- What is left to do after the first part ended with this result.
def continues (conduct : Conduct Cmd Reply φ) (ends : φ → Except Exn β → Prop)
    (f : α → Handler β) (phase : φ) : Except Exn α → Prop
  | .ok value => Obeys conduct ends phase (f value)
  | .error exn => ends phase (.error exn)

theorem obeys_bind {handler : Handler α} {f : α → Handler β} {phase : φ}
    (h : Obeys conduct (continues conduct ends f) phase handler) :
    Obeys conduct ends phase (handler >>= f) := by
  apply Prog.Obeys.bind
  refine Prog.Obeys.mono h ?_
  intro phase result hr
  cases result with
  | ok value => exact hr
  | error exn => exact hr

theorem obeys_ofExcept_bind {result : Except Exn α} {f : α → Handler β} {phase : φ}
    (hok : ∀ value, result = .ok value → Obeys conduct ends phase (f value))
    (herror : ∀ exn, ends phase (.error exn)) :
    Obeys conduct ends phase (ofExcept result >>= f) := by
  cases result with
  | ok value => exact hok value rfl
  | error exn => exact herror exn

theorem obeys_ask_bind {cmd : Cmd} {f : Reply cmd → Handler β} {phase : φ}
    (hmay : conduct.may phase cmd)
    (hf : ∀ reply, Obeys conduct ends (conduct.next phase cmd reply) (f reply)) :
    Obeys conduct ends phase (ask cmd >>= f) :=
  ⟨hmay, hf⟩

end Obeys

end Handler

open Handler

section Answers

variable {hmac : Hmac} {context : Context} {request : Request}
  {events : List (Event Cmd Reply)} {response : Response}

theorem signedResponse_returns {body : Bytes} {status : Nat}
    (h : Returns (signedResponse hmac context request body status) events (.ok response)) :
    ∃ thread ts, events = [⟨thread, .time, ts⟩] ∧ response.body = body ∧
      response.status = status ∧ response.timestamp = ts ∧
      signPayload hmac context.secretHex request.path body ts = .ok response.signature := by
  obtain ⟨thread, ts, rest, rfl, htime⟩ := returns_ask_bind_ok.mp h
  obtain ⟨sig, hsig, hpure⟩ := returns_ofExcept_bind_ok.mp htime
  obtain ⟨rfl, he⟩ := returns_pure.mp hpure
  obtain rfl := Except.ok.inj he
  exact ⟨thread, ts, rfl, rfl, rfl, rfl, hsig⟩

theorem signedMsgpack_returns {obj : Value}
    (h : Returns (signedMsgpack hmac context request obj) events (.ok response)) :
    ∃ thread ts, events = [⟨thread, .time, ts⟩] ∧ Msgpack.packb obj = some response.body := by
  obtain ⟨body, hbody, hsigned⟩ := returns_ofExcept_bind_ok.mp h
  obtain ⟨thread, ts, rfl, rfl, -⟩ := signedResponse_returns hsigned
  refine ⟨thread, ts, rfl, ?_⟩
  unfold packOrRaise at hbody
  split at hbody
  · rename_i bytes hpack
    rw [hpack, Except.ok.inj hbody]
  · cases hbody

-- The three ways a read comes to an answer, with the commands it took.
inductive ReadTrace (hmac : Hmac) (context : Context) (key : Text) (request : Request) :
    List (Event Cmd Reply) → Response → Prop
  | missing (a b : Nat) (ts : Int) (response : Response)
      (hbody : Msgpack.packb (statusValue "not_found".toList) = some response.body) :
      ReadTrace hmac context key request
        [⟨a, .get (kvKey key), none⟩, ⟨b, .time, ts⟩] response
  | plain (a b c : Nat) (ts : Int) (value : Bytes) (flag : Option Bytes) (response : Response)
      (hflag : truthy flag = false) (hbody : response.body = value) :
      ReadTrace hmac context key request
        [⟨a, .get (kvKey key), some value⟩, ⟨b, .get (encKey key), flag⟩, ⟨c, .time, ts⟩] response
  | encrypted (a b c d : Nat) (now nonce : Int) (value plaintext : Bytes) (flag : Option Bytes)
      (response : Response) (hflag : truthy flag)
      (hplain : encryptedPlaintext value = .ok plaintext)
      (hresponse : signedEncryptedResponse hmac context request plaintext nonce = .ok response) :
      ReadTrace hmac context key request
        [⟨a, .get (kvKey key), some value⟩, ⟨b, .get (encKey key), flag⟩, ⟨c, .time, now⟩,
          ⟨d, .kvencNonce (nonceKey context.clientId) now, some nonce⟩] response

theorem nextKvencNonce_returns {clientId : Text} {nonce : Int}
    (h : Returns (nextKvencNonce clientId) events (.ok nonce)) :
    ∃ c d now, events =
      [⟨c, .time, now⟩, ⟨d, .kvencNonce (nonceKey clientId) now, some nonce⟩] := by
  obtain ⟨c, now, afterTime, rfl, htime⟩ := returns_ask_bind_ok.mp h
  obtain ⟨d, reply, afterLua, rfl, hlua⟩ := returns_ask_bind_ok.mp htime
  cases reply with
  | none =>
      obtain ⟨-, he⟩ := returns_throw.mp hlua
      cases he
  | some n =>
      obtain ⟨rfl, he⟩ := returns_pure.mp hlua
      obtain rfl := Except.ok.inj he
      exact ⟨c, d, now, rfl⟩

theorem readKv_trace {key : Text}
    (h : Returns (readKv hmac context key request) events (.ok response)) :
    ReadTrace hmac context key request events response := by
  obtain ⟨-, -, hacl⟩ := returns_ofExcept_bind_ok.mp h
  obtain ⟨a, reply, afterGet, rfl, hget⟩ := returns_ask_bind_ok.mp hacl
  cases reply with
  | none =>
      obtain ⟨b, ts, rfl, hbody⟩ := signedMsgpack_returns hget
      exact ReadTrace.missing a b ts response hbody
  | some value =>
      obtain ⟨b, flag, afterFlag, rfl, hread⟩ := returns_ask_bind_ok.mp hget
      cases hflag : truthy flag with
      | false =>
          simp only [hflag, Bool.false_eq_true, ite_false] at hread
          obtain ⟨c, ts, rfl, hbody, -⟩ := signedResponse_returns hread
          exact ReadTrace.plain a b c ts value flag response hflag hbody
      | true =>
          simp only [hflag, ite_true] at hread
          obtain ⟨plaintext, hplain, hserve⟩ := returns_ofExcept_bind_ok.mp hread
          obtain ⟨first, second, nonce, rfl, hnonce, hlast⟩ := returns_bind_ok.mp hserve
          obtain ⟨c, d, now, rfl⟩ := nextKvencNonce_returns hnonce
          obtain ⟨rfl, hresponse⟩ := returns_ofExcept.mp hlast
          exact ReadTrace.encrypted a b c d now nonce value plaintext flag response hflag hplain
            hresponse.symm

end Answers

end Stra2us.Server
