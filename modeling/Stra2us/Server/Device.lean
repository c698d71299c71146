import Stra2us.Foundation.Msgpack
import Stra2us.Server.Dependencies

namespace Stra2us.Server

open Foundation

def kvKey (key : Text) : Text := "kv:".toList ++ key

def encKey (key : Text) : Text := kvKey key ++ ":enc".toList

def queueKey (topic : Text) : Text := "q:".toList ++ topic

def cursorKey (consumerId topic : Text) : Text :=
  "cursor:".toList ++ consumerId ++ ":q:".toList ++ topic

def nonceKey (clientId : Text) : Text := "kvenc:nonce:".toList ++ clientId

def isCatalogYamlKey (key : Text) : Bool :=
  match key.splitOn '/' with
  | [stash, app] => stash = "_catalog".toList ∧ app ≠ []
  | _ => false

-- The catalog gate of the write path. It runs before anything is stored and either
-- lets the body through or raises.
abbrev Gate := Bytes → Except Exn Unit

section Responses

variable (hmac : Hmac)

def msgpackMt : Text := "application/x-msgpack".toList

def signedResponse (context : Context) (request : Request) (body : Bytes) (statusCode : Nat) :
    Handler Response := do
  let ts ← Handler.time
  let sig ← Handler.ofExcept (signPayload hmac context.secretHex request.path body ts)
  pure ⟨statusCode, body, msgpackMt, ts, sig⟩

def packOrRaise (value : Value) : Except Exn Bytes :=
  match Msgpack.packb value with
  | some bytes => .ok bytes
  | none => .error (.python "ValueError".toList)

def signedMsgpack (context : Context) (request : Request) (obj : Value) : Handler Response := do
  let body ← Handler.ofExcept (packOrRaise obj)
  signedResponse hmac context request body 200

def statusValue (status : Text) : Value :=
  .dict [(.str "status".toList, .str status)]

def nextKvencNonce (clientId : Text) : Handler Int := do
  let now ← Handler.time
  match ← Handler.kvencNonce (nonceKey clientId) now with
  | some nonce => pure nonce
  | none => throw (.python "ResponseError".toList)

-- The nonce stands in for the timestamp of the answer.
def signedEncryptedResponse (context : Context) (request : Request) (plaintext : Bytes)
    (nonce : Int) : Except Exn Response := do
  let ciphertext ← kvencXor hmac context.secretHex nonce plaintext
  let body ← packOrRaise (.ext kvencExtType ciphertext)
  let sig ← signPayload hmac context.secretHex request.path body nonce
  .ok ⟨200, body, msgpackMt, nonce, sig⟩

end Responses

-- What both write paths store: a text body is wrapped, any other must be MessagePack.
def storedBody (request : Request) : Except Exn Bytes :=
  let contentType := (request.header? "content-type".toList).getD []
  if "text/plain".toList <:+: contentType then
    match (utf8Decode request.body).bind fun text => Msgpack.packb (.str text) with
    | some body => .ok body
    | none => .error (.http 400 "Invalid UTF-8 payload".toList)
  else if request.body ≠ [] ∧ Msgpack.unpackb false request.body = none then
    .error (.http 400 "Invalid MessagePack payload".toList)
  else .ok request.body

section Queue

variable (hmac : Hmac)

def maxTtl : Int := 604800

def strInt (n : Int) : Except Exn Text :=
  if (natText n.natAbs).length ≤ maxIntDigits then .ok (intText n)
  else .error (.python "ValueError".toList)

def publishMessage (context : Context) (topic : Text) (request : Request) (ttl : Int) :
    Handler Response := do
  let ttl := if ttl > maxTtl then maxTtl else ttl
  Handler.ofExcept (checkAcl context.acl ("q/".toList ++ topic) .write)
  let body ← Handler.ofExcept (storedBody request)
  let now ← Handler.time
  let exp ← Handler.ofExcept (strInt (now + ttl))
  let _ ← Handler.xadd (queueKey topic)
    [("payload".toList, body), ("exp".toList, utf8 exp),
      ("client_id".toList, utf8 context.clientId)]
  Handler.expire (queueKey topic) 604800
  signedMsgpack hmac context request (statusValue "ok".toList)

def entryField? (entry : Entry) (name : Text) : Option Bytes :=
  (entry.fields.find? fun field => field.1 = name).map Prod.snd

def entryField (entry : Entry) (name : Text) : Except Exn Bytes :=
  match entryField? entry name with
  | some value => .ok value
  | none => .error (.python "KeyError".toList)

def entryExp (entry : Entry) : Except Exn Int := do
  let raw ← entryField entry "exp".toList
  match (utf8Decode raw).bind parseInt with
  | some exp => .ok exp
  | none => .error (.python "ValueError".toList)

-- The pass over one batch: the last id looked at, and the first entry still live.
def scanBatch (currentTime : Int) : Text → List Entry → Except Exn (Text × Option Entry)
  | lastId, [] => .ok (lastId, none)
  | _, entry :: rest => do
      let exp ← entryExp entry
      if currentTime ≤ exp then .ok (entry.id.text, some entry)
      else scanBatch currentTime entry.id.text rest

def batchSize : Nat := 50

-- The polling loop; the cursor is stored once a batch, at the entry that is handed
-- out or at the end of a batch that had all expired.
def nextMessage (cursor topic : Text) (currentTime : Int) : Nat → Text → Handler (Option Entry)
  | 0, _ => throw .outOfFuel
  | fuel + 1, lastId => do
      match ← Handler.xread (queueKey topic) lastId batchSize with
      | none => throw (.python "ResponseError".toList)
      | some [] => pure none
      | some records => do
          let (lastId, live) ← Handler.ofExcept (scanBatch currentTime lastId records)
          Handler.set cursor (utf8 lastId)
          match live with
          | some entry => pure (some entry)
          | none => nextMessage cursor topic currentTime fuel lastId

-- One turn of the loop, command by command.
theorem run_nextMessage_succ (cursor topic : Text) (currentTime : Int) (fuel : Nat)
    (lastId : Text) :
    (nextMessage cursor topic currentTime (fuel + 1) lastId).run =
      .call (.xread (queueKey topic) lastId batchSize) fun reply =>
        match reply with
        | none => .done (.error (.python "ResponseError".toList))
        | some [] => .done (.ok none)
        | some (entry :: rest) =>
            match scanBatch currentTime lastId (entry :: rest) with
            | .error exn => .done (.error exn)
            | .ok (newId, live) =>
                .call (.set cursor (utf8 newId)) fun _ =>
                  match live with
                  | some found => .done (.ok (some found))
                  | none => (nextMessage cursor topic currentTime fuel newId).run := by
  refine congrArg (Prog.call _) (funext fun reply => ?_)
  match reply with
  | none => rfl
  | some [] => rfl
  | some (entry :: rest) =>
      change (Handler.ofExcept (scanBatch currentTime lastId (entry :: rest)) >>= _).run = _
      dsimp only
      cases scanBatch currentTime lastId (entry :: rest) with
      | error exn => rfl
      | ok scanned =>
          obtain ⟨newId, live⟩ := scanned
          cases live with
          | none => rfl
          | some found => rfl

def envelopeValue (entry : Entry) (rawPayload publisherId : Bytes) : Except Exn Value := do
  let data := (Msgpack.unpackb false rawPayload).getD (.bytes rawPayload)
  match utf8Decode publisherId with
  | none => .error (.python "UnicodeDecodeError".toList)
  | some publisher =>
      .ok (.dict [(.str "data".toList, data), (.str "client_id".toList, .str publisher),
        (.str "received_at".toList, .int (entry.id.ms / 1000 : Nat))])

def messageBody (envelope : Bool) (entry : Entry) : Except Exn Bytes := do
  let rawPayload ← entryField entry "payload".toList
  if envelope then
    let publisherId := (entryField? entry "client_id".toList).getD (utf8 "unknown".toList)
    let wrapped ← envelopeValue entry rawPayload publisherId
    packOrRaise wrapped
  else .ok rawPayload

def cursorStart (stored : Option Bytes) : Except Exn Text :=
  match stored with
  | none => .ok "0-0".toList
  | some raw =>
      match utf8Decode raw with
      | some text => .ok text
      | none => .error (.python "UnicodeDecodeError".toList)

-- The answer comes with the entry it carries, which is not on the wire.
def handOut (context : Context) (request : Request) (envelope : Bool) (message : Option Entry) :
    Handler (Option Entry × Response) := do
  match message with
  | none => do
      let response ← signedResponse hmac context request [] 204
      pure (none, response)
  | some entry => do
      let body ← Handler.ofExcept (messageBody envelope entry)
      let response ← signedResponse hmac context request body 200
      pure (some entry, response)

def consumeTagged (context : Context) (topic : Text) (request : Request) (envelope : Bool)
    (fuel : Nat) : Handler (Option Entry × Response) := do
  Handler.ofExcept (checkAcl context.acl ("q/".toList ++ topic) .read)
  let cursor := cursorKey context.clientId topic
  let stored ← Handler.get cursor
  let lastId ← Handler.ofExcept (cursorStart stored)
  let currentTime ← Handler.time
  let message ← nextMessage cursor topic currentTime fuel lastId
  handOut hmac context request envelope message

def consumeMessage (context : Context) (topic : Text) (request : Request) (envelope : Bool)
    (fuel : Nat) : Handler Response := do
  let tagged ← consumeTagged hmac context topic request envelope fuel
  pure tagged.2

end Queue

section Kv

variable (hmac : Hmac) (gate : Gate)

def writeKv (context : Context) (key : Text) (request : Request) : Handler Response := do
  Handler.ofExcept (checkAcl context.acl ("kv/".toList ++ key) .write)
  let body ← Handler.ofExcept (storedBody request)
  if isCatalogYamlKey key ∧ body ≠ [] then
    Handler.ofExcept (gate body)
  Handler.set (kvKey key) body
  if request.header? "x-encrypted".toList = some "1".toList then
    Handler.set (encKey key) (utf8 "1".toList)
  else
    Handler.delete [encKey key]
  signedMsgpack hmac context request (statusValue "ok".toList)

def encryptedPlaintext (value : Bytes) : Except Exn Bytes :=
  match Msgpack.unpackb true value with
  | none => .error (.http 500 "Encrypted record: stored value is not msgpack".toList)
  | some (.bytes data) => .ok data
  | some (.str text) => .ok (utf8 text)
  | some _ => .error (.http 500 "Encrypted record: stored value is not str/bin".toList)

def readKv (context : Context) (key : Text) (request : Request) : Handler Response := do
  Handler.ofExcept (checkAcl context.acl ("kv/".toList ++ key) .read)
  match ← Handler.get (kvKey key) with
  | none => signedMsgpack hmac context request (statusValue "not_found".toList)
  | some value => do
      let flag ← Handler.get (encKey key)
      if truthy flag then
        let plaintext ← Handler.ofExcept (encryptedPlaintext value)
        let nonce ← nextKvencNonce context.clientId
        Handler.ofExcept (signedEncryptedResponse hmac context request plaintext nonce)
      else signedResponse hmac context request value 200

def deleteKv (context : Context) (key : Text) (request : Request) : Handler Response := do
  Handler.ofExcept (checkAcl context.acl ("kv/".toList ++ key) .write)
  Handler.delete [kvKey key, encKey key]
  signedMsgpack hmac context request (statusValue "ok".toList)

end Kv

end Stra2us.Server
