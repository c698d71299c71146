import Stra2us.Foundation.Base64
import Stra2us.Foundation.Repr
import Stra2us.Foundation.Tickets
import Stra2us.Server.Wire

namespace Stra2us.AdminAuth

open Foundation Server

section Tokens

-- Every float is below two to this power.
def floatRange : Nat := 1024

-- What `int(time.time())` can be: the clock is no earlier than the epoch and a float.
structure Clock where
  seconds : Nat
  isFloat : seconds < 2 ^ floatRange

variable (py : Interpreter) (hmac : Hmac) (sessionSecret : Bytes)

def sessionDuration : Nat := 24 * 3600

-- `f"{username}:{exp}".encode()`
def tokenPayload (username exp : Value) : Option Bytes := do
  let name ← py.format username
  let until_ ← py.format exp
  some (utf8 (name ++ ':' :: until_))

def Clock.expiry (clock : Clock) : Nat :=
  clock.seconds + sessionDuration

def tokenDict (username : Value) (exp : Int) (signature : Text) : List (Value × Value) :=
  [(.str "u".toList, username), (.str "e".toList, .int exp), (.str "s".toList, .str signature)]

def generateSessionToken (clock : Clock) (username : Value) : Option Text := do
  let exp : Int := clock.expiry
  let payload ← tokenPayload py username (.int exp)
  let signature := hexdigest (hmac sessionSecret payload)
  let document ←
    (Json.dumpsValue (py.jsonDepth + 1) (.dict (tokenDict username exp signature))).toOption
  some (Base64.encode (utf8 document))

def readToken (token : Text) : Option (List (Value × Value)) := do
  let raw ← Base64.decode token
  let document ← utf8Decode raw
  match Json.loads py.jsonDepth document with
  | .ok (.dict pairs) => some pairs
  | _ => none

def tokenField (pairs : List (Value × Value)) (name : String) : Value :=
  (Value.lookup pairs name.toList).getD .none

-- Whatever is raised on the way makes the token invalid.
def verifySessionToken (clock : Clock) (token : Text) : Option Value := do
  let tokenDict ← readToken py token
  let username := tokenField tokenDict "u"
  let exp := tokenField tokenDict "e"
  let signature := tokenField tokenDict "s"
  if username.truthy = false ∨ exp.truthy = false ∨ signature.truthy = false then none
  else do
    let until_ ← Interpreter.intOf exp
    if (clock.seconds : Int) > until_ then none
    else do
      let expectedPayload ← tokenPayload py username exp
      let expectedSig := hexdigest (hmac sessionSecret expectedPayload)
      match signature with
      | .str signature =>
          match compareDigest expectedSig signature with
          | .ok true => some username
          | _ => none
      | _ => none

end Tokens

section History

variable (py : Interpreter) (hmac : Hmac) (sessionSecret : Bytes)

-- What happens under one secret, in whatever order.
inductive SessionEvent
  | generated (clock : Clock) (username : Value)
  | presented (clock : Clock) (token : Text)

-- The message has been given to the digest by a token that was asked for.
def Signed (events : List SessionEvent) (message : Bytes) : Prop :=
  ∃ clock username, SessionEvent.generated clock username ∈ events ∧
    tokenPayload py username (.int clock.expiry) = some message

-- A message with a digest for it, as the token brings them.
def Brings (token : Text) (message : Bytes) (signature : Text) : Prop :=
  ∃ pairs, readToken py token = some pairs ∧
    tokenPayload py (tokenField pairs "u") (tokenField pairs "e") = some message ∧
    tokenField pairs "s" = .str signature

-- Anybody presents anything, but no digest of a message that has not been signed.
inductive History : List SessionEvent → Prop
  | start : History []
  | generated {events : List SessionEvent} (clock : Clock) (username : Value)
      (h : History events) : History (events ++ [.generated clock username])
  | presented {events : List SessionEvent} (clock : Clock) (token : Text) (h : History events)
      (unforged : ∀ message, Brings py token message (hexdigest (hmac sessionSecret message)) →
        Signed py events message) :
      History (events ++ [.presented clock token])

end History

section Sound

variable {py : Interpreter} {hmac : Hmac} {sessionSecret : Bytes}

theorem add_sessionDuration_lt {seconds k : Nat} (h : seconds < 2 ^ k) (hk : 17 ≤ k) :
    seconds + sessionDuration < 10 ^ (k + 1) := by
  have hduration : sessionDuration ≤ 2 ^ 17 := by decide
  have hsmall : 2 ^ 17 ≤ 2 ^ k := Nat.pow_le_pow_right (by omega) hk
  have hbase : 2 ^ (k + 1) ≤ 10 ^ (k + 1) := Nat.pow_le_pow_left (by omega) (k + 1)
  have hdouble : 2 ^ (k + 1) = 2 ^ k * 2 := Nat.pow_succ ..
  omega

theorem length_natText_of_lt {n k : Nat} (h : n < 10 ^ (k + 1)) (hk : k + 1 ≤ maxIntDigits) :
    (natText n).length ≤ maxIntDigits :=
  (Nat.length_toDigits_le_iff (by omega) (by decide)).mpr
    (lt_of_lt_of_le h (Nat.pow_le_pow_right (by omega) hk))

theorem Clock.length_natText_expiry (clock : Clock) :
    (natText clock.expiry).length ≤ maxIntDigits :=
  length_natText_of_lt (add_sessionDuration_lt clock.isFloat (by decide)) (by decide)

theorem format_expiry (clock : Clock) :
    py.format (.int clock.expiry) = some (natText clock.expiry) :=
  Interpreter.format_int_iff.mpr ⟨clock.length_natText_expiry, rfl⟩

-- The expiry of what was signed has no colon, and nothing that counts as an expiry has one.
theorem tokenPayload_inj {issued : Clock} {username other exp : Value} {until_ : Int}
    {message : Bytes} (hsigned : tokenPayload py username (.int issued.expiry) = some message)
    (hpayload : tokenPayload py other exp = some message)
    (huntil : Interpreter.intOf exp = some until_) :
    (∃ name, py.format username = some name ∧ py.format other = some name) ∧
      until_ = issued.expiry := by
  unfold tokenPayload at hsigned hpayload
  rw [format_expiry] at hsigned
  obtain ⟨name, hname, hrest⟩ := Option.bind_eq_some_iff.mp hsigned
  obtain ⟨otherName, hother, hotherRest⟩ := Option.bind_eq_some_iff.mp hpayload
  obtain ⟨till, htill, hlast⟩ := Option.bind_eq_some_iff.mp hotherRest
  have htext : otherName ++ ':' :: till = name ++ ':' :: natText issued.expiry :=
    utf8_injective ((Option.some.inj hlast).trans (Option.some.inj hrest).symm)
  have hdigits : ':' ∉ natText issued.expiry := fun h =>
    absurd (isDigit_of_mem_natText h) (by decide)
  have hcolon : ':' ∉ till := Interpreter.colon_notMem_format huntil htill
  obtain ⟨rfl, rfl⟩ := append_cons_inj_of_notMem hcolon hdigits htext
  exact ⟨⟨_, hname, hother⟩,
    Interpreter.intOf_of_natText huntil issued.length_natText_expiry htill⟩

-- What a token is accepted for.
theorem accepted {clock : Clock} {token : Text} {u : Value}
    (h : verifySessionToken py hmac sessionSecret clock token = some u) :
    ∃ exp message until_, Brings py token message (hexdigest (hmac sessionSecret message)) ∧
      tokenPayload py u exp = some message ∧ Interpreter.intOf exp = some until_ ∧
      (clock.seconds : Int) ≤ until_ := by
  unfold verifySessionToken at h
  obtain ⟨pairs, hpairs, h⟩ := Option.bind_eq_some_iff.mp h
  dsimp only at h
  split_ifs at h with htruthy
  obtain ⟨until_, huntil, h⟩ := Option.bind_eq_some_iff.mp h
  split_ifs at h with hexpired
  obtain ⟨message, hmessage, h⟩ := Option.bind_eq_some_iff.mp h
  split at h
  · rename_i signature hsignature
    split at h
    · rename_i hcompare
      obtain rfl := Option.some.inj h
      have hsame : hexdigest (hmac sessionSecret message) = signature := by
        unfold compareDigest at hcompare
        split_ifs at hcompare
        simpa using hcompare
      exact ⟨_, message, until_, ⟨pairs, hpairs, hmessage, hsame ▸ hsignature⟩, hmessage, huntil,
        by omega⟩
    · nomatch h
  · nomatch h

theorem Signed.append {events more : List SessionEvent} {message : Bytes}
    (h : Signed py events message) : Signed py (events ++ more) message := by
  obtain ⟨clock, username, hmem, hpayload⟩ := h
  exact ⟨clock, username, List.mem_append_left more hmem, hpayload⟩

-- Whoever brings a digest in a history has it from a token asked for before.
theorem History.signed {events before after : List SessionEvent} {clock : Clock} {token : Text}
    {message : Bytes} (h : History py hmac sessionSecret events)
    (hevents : events = before ++ .presented clock token :: after)
    (hbrings : Brings py token message (hexdigest (hmac sessionSecret message))) :
    Signed py before message := by
  induction h generalizing after with
  | start => simp at hevents
  | generated issued username h ih =>
      rcases split_snoc hevents with ⟨-, -, hlast⟩ | ⟨rest, -, hrest⟩
      · nomatch hlast
      · exact ih hrest
  | presented other shown h unforged ih =>
      rcases split_snoc hevents with ⟨-, hbefore, hlast⟩ | ⟨rest, -, hrest⟩
      · obtain ⟨-, rfl⟩ := SessionEvent.presented.inj hlast
        exact hbefore ▸ unforged message hbrings
      · exact ih hrest

theorem accepted_was_generated {events before after : List SessionEvent} {clock : Clock}
    {token : Text} {u : Value} (h : History py hmac sessionSecret events)
    (hevents : events = before ++ .presented clock token :: after)
    (haccepted : verifySessionToken py hmac sessionSecret clock token = some u) :
    ∃ issued username name, .generated issued username ∈ before ∧
      py.format username = some name ∧ py.format u = some name ∧
      clock.seconds ≤ issued.expiry := by
  obtain ⟨exp, message, until_, hbrings, hpayload, huntil, hle⟩ := accepted haccepted
  obtain ⟨issued, username, hmem, hsigned⟩ := h.signed hevents hbrings
  obtain ⟨⟨name, hname, hother⟩, hexpiry⟩ := tokenPayload_inj hsigned hpayload huntil
  exact ⟨issued, username, name, hmem, hname, hother, by omega⟩

end Sound

section Complete

variable {py : Interpreter} {hmac : Hmac} {sessionSecret : Bytes}

theorem length_hexdigest (bytes : Bytes) : (hexdigest bytes).length = 2 * bytes.length := by
  unfold hexdigest
  induction bytes with
  | nil => rfl
  | cons byte bytes ih =>
      rw [List.flatMap_cons, List.length_append, ih]
      simp only [List.length_cons, List.length_nil]
      omega

section Fields

variable (username : Value) (exp : Int) (signature : Text)

theorem tokenField_u : tokenField (tokenDict username exp signature) "u" = username := rfl

theorem tokenField_e : tokenField (tokenDict username exp signature) "e" = .int exp := rfl

theorem tokenField_s : tokenField (tokenDict username exp signature) "s" = .str signature := rfl

end Fields

theorem document_tokenDict {depth : Nat} (hdepth : 0 < depth) (clock : Clock)
    (username signature : Text) :
    Json.Document depth (.dict (tokenDict (.str username) clock.expiry signature)) := by
  obtain ⟨inner, rfl⟩ := Nat.exists_eq_succ_of_ne_zero (Nat.pos_iff_ne_zero.mp hdepth)
  unfold tokenDict
  refine .dict ?_ ?_ ?_
  · intro pair hpair
    simp only [List.mem_cons, List.not_mem_nil, or_false] at hpair
    rcases hpair with rfl | rfl | rfl <;> exact trivial
  · simp
  · intro pair hpair
    simp only [List.mem_cons, List.not_mem_nil, or_false] at hpair
    rcases hpair with rfl | rfl | rfl
    · exact .string trivial
    · exact .int clock.length_natText_expiry
    · exact .string trivial

theorem tokenPayload_str (clock : Clock) (username : Text) :
    tokenPayload py (.str username) (.int clock.expiry) =
      some (utf8 (username ++ ':' :: natText clock.expiry)) := by
  unfold tokenPayload
  rw [format_expiry]
  rfl

-- A token is read as what was put into it.
theorem generateSessionToken_str (clock : Clock) (username : Text) :
    ∃ token, generateSessionToken py hmac sessionSecret clock (.str username) = some token ∧
      readToken py token = some (tokenDict (.str username) clock.expiry (hexdigest
        (hmac sessionSecret (utf8 (username ++ ':' :: natText clock.expiry))))) := by
  obtain ⟨document, hdumps, hloads⟩ := (document_tokenDict py.jsonDepth_pos clock username
    (hexdigest (hmac sessionSecret
      (utf8 (username ++ ':' :: natText clock.expiry))))).loads_dumps
  refine ⟨Base64.encode (utf8 document), ?_, ?_⟩
  · unfold generateSessionToken
    dsimp only
    rw [tokenPayload_str]
    dsimp only [bind, Option.bind]
    rw [hdumps]
    rfl
  · unfold readToken
    rw [Base64.decode_encode]
    dsimp only [bind, Option.bind]
    rw [utf8Decode_utf8]
    dsimp only
    rw [hloads]

theorem verify_generated (hdigest : ∀ key message, (hmac key message).length = 32)
    {issued clock : Clock} {username token : Text} (hname : username ≠ [])
    (hgenerated : generateSessionToken py hmac sessionSecret issued (.str username) = some token)
    (hclock : clock.seconds ≤ issued.expiry) :
    verifySessionToken py hmac sessionSecret clock token = some (.str username) := by
  obtain ⟨made, hmade, hread⟩ := @generateSessionToken_str py hmac sessionSecret issued username
  obtain rfl := Option.some.inj (hmade.symm.trans hgenerated)
  generalize hmessage : utf8 (username ++ ':' :: natText issued.expiry) = message at hread
  have hpayload : tokenPayload py (.str username) (.int issued.expiry) = some message := by
    rw [tokenPayload_str, hmessage]
  have hsignature : hexdigest (hmac sessionSecret message) ≠ [] := by
    intro hnil
    have hlength := congrArg List.length hnil
    rw [length_hexdigest, hdigest] at hlength
    nomatch hlength
  have hpositive : 0 < issued.expiry := Nat.add_pos_right _ (by decide)
  have hcompare : compareDigest (hexdigest (hmac sessionSecret message))
      (hexdigest (hmac sessionSecret message)) = .ok true := by
    simp [compareDigest, hexdigest_ascii]
  have hin : ¬ ((clock.seconds : Int) > issued.expiry) := by omega
  have htruthy : ¬ ((Value.str username).truthy = false ∨
      (Value.int issued.expiry).truthy = false ∨
      (Value.str (hexdigest (hmac sessionSecret message))).truthy = false) := by
    simp only [Value.truthy, decide_eq_false_iff_not, not_not]
    rintro (hnil | hzero | hnil)
    · exact hname hnil
    · omega
    · exact hsignature hnil
  unfold verifySessionToken
  rw [hread, Option.bind_eq_bind, Option.bind_some]
  dsimp only
  rw [tokenField_u, tokenField_e, tokenField_s, if_neg htruthy]
  dsimp only [Interpreter.intOf]
  rw [Option.bind_eq_bind, Option.bind_some, if_neg hin, hpayload]
  dsimp only [bind, Option.bind]
  rw [hcompare]

-- A token that was asked for brings no digest but the one it was made with.
theorem History.presented_generated {events : List SessionEvent} {issued : Clock}
    {username token : Text} (h : History py hmac sessionSecret events)
    (hmem : .generated issued (.str username) ∈ events)
    (hgenerated : generateSessionToken py hmac sessionSecret issued (.str username) = some token)
    (clock : Clock) : History py hmac sessionSecret (events ++ [.presented clock token]) := by
  obtain ⟨made, hmade, hread⟩ := @generateSessionToken_str py hmac sessionSecret issued username
  obtain rfl := Option.some.inj (hmade.symm.trans hgenerated)
  refine h.presented clock _ ?_
  intro message hbrings
  obtain ⟨pairs, hpairs, hpayload, -⟩ := hbrings
  obtain rfl := Option.some.inj (hread.symm.trans hpairs)
  exact ⟨issued, .str username, hmem, hpayload⟩

end Complete

-- Whatever cookies are presented, one is accepted only for a name that a token was asked for
-- and no later than that token's expiry, and the tokens given out are accepted until then.
theorem session_tokens_sound_and_complete (py : Interpreter) (hmac : Hmac) (sessionSecret : Bytes)
    (hdigest : ∀ key message, (hmac key message).length = 32) :
    (∀ {events before after clock token u}, History py hmac sessionSecret events →
      events = before ++ .presented clock token :: after →
      verifySessionToken py hmac sessionSecret clock token = some u →
      ∃ issued username name, .generated issued username ∈ before ∧
        py.format username = some name ∧ py.format u = some name ∧
        clock.seconds ≤ issued.expiry) ∧
    ∀ (issued : Clock) (username : Text), username ≠ [] →
      ∃ token, generateSessionToken py hmac sessionSecret issued (.str username) = some token ∧
        ∀ clock : Clock, clock.seconds ≤ issued.expiry →
          verifySessionToken py hmac sessionSecret clock token = some (.str username) := by
  constructor
  · intro events before after clock token u h hevents haccepted
    exact accepted_was_generated h hevents haccepted
  · intro issued username hname
    obtain ⟨token, hgenerated, -⟩ :=
      @generateSessionToken_str py hmac sessionSecret issued username
    exact ⟨token, hgenerated, fun clock hclock =>
      verify_generated hdigest hname hgenerated hclock⟩

section Sample

def sampleInterpreter : Interpreter where
  jsonDepth := 994
  jsonDepth_pos := by omega
  reprDepth := 994
  printable := fun _ => true

def epoch : Clock where
  seconds := 0
  isFloat := Nat.two_pow_pos floatRange

-- The digest of this one message under this one secret.
def sampleHmac : Hmac := fun key message =>
  if key = utf8 "secret".toList ∧ message = utf8 "alice:86400".toList then
    [35, 165, 247, 221, 233, 23, 98, 119, 103, 220, 96, 89, 169, 53, 250, 180, 131, 130, 48, 74, 90,
      84, 112, 163, 21, 215, 197, 76, 147, 168, 212, 99]
  else List.replicate 32 0

theorem length_sampleHmac (key message : Bytes) : (sampleHmac key message).length = 32 := by
  unfold sampleHmac
  split_ifs
  · rfl
  · exact List.length_replicate

theorem session_token_for_alice :
    ∃ token u, History sampleInterpreter sampleHmac (utf8 "secret".toList)
        ([.generated epoch (.str "alice".toList)] ++ [.presented epoch token]) ∧
      verifySessionToken sampleInterpreter sampleHmac (utf8 "secret".toList) epoch token = some u ∧
      ∃ issued username name, SessionEvent.generated issued username ∈
          [SessionEvent.generated epoch (.str "alice".toList)] ∧
        sampleInterpreter.format username = some name ∧ sampleInterpreter.format u = some name ∧
        epoch.seconds ≤ issued.expiry := by
  have hboth := session_tokens_sound_and_complete sampleInterpreter sampleHmac
    (utf8 "secret".toList) length_sampleHmac
  obtain ⟨token, hgenerated, hverified⟩ := hboth.2 epoch "alice".toList (by decide)
  have haccepted := hverified epoch (Nat.zero_le _)
  have hasked : History sampleInterpreter sampleHmac (utf8 "secret".toList)
      ([] ++ [.generated epoch (.str "alice".toList)]) := .generated _ _ .start
  have hhistory := hasked.presented_generated (by simp) hgenerated epoch
  exact ⟨token, _, hhistory, haccepted, hboth.1 hhistory rfl haccepted⟩

end Sample

end Stra2us.AdminAuth
