import Stra2us.Server.Device

namespace Stra2us.Server

open Foundation

-- What one deployment fixes: the digest, the depth at which nested JSON is given up,
-- the break-glass users, the YAML loader and the catalog gate built on it.
structure Site where
  hmac : Hmac
  jsonDepth : Nat
  rescueUsers : List Text
  safeLoad : Text → Except Exn Value
  gate : Gate

structure KvPayload where
  value : Text
  encrypted : Bool

section Records

variable (site : Site)

-- A value is JSON where it parses as such, and otherwise the text itself.
def coerceJson (raw : Text) : Except Exn Value :=
  match Json.loads site.jsonDepth raw with
  | .ok value => .ok value
  | .error .value | .error .digits => .ok (.str raw)
  | .error .recursion => .error (.python "RecursionError".toList)

def setFlag (key : Text) (encrypted : Bool) : Handler Unit :=
  if encrypted then Handler.set (encKey key) (utf8 "1".toList)
  else Handler.delete [encKey key]

def setKv (username key : Text) (payload : KvPayload) : Handler Unit := do
  requireAdminKv site.jsonDepth site.rescueUsers username key .write
  let data ← Handler.ofExcept (coerceJson site payload.value)
  let packed ← Handler.ofExcept (packOrRaise data)
  Handler.set (kvKey key) packed
  setFlag key payload.encrypted

def adminDeleteKv (username key : Text) : Handler Unit := do
  requireAdminKv site.jsonDepth site.rescueUsers username key .write
  Handler.delete [kvKey key, encKey key]

def deleteQueue (username topic : Text) : Handler Unit := do
  requireAdminQueue site.jsonDepth site.rescueUsers username topic .write
  Handler.delete [queueKey topic]

end Records

section Clients

variable (site : Site)

def reservedClientIds : List Text := ["public".toList]

def rejectIfReserved (clientId : Text) : Except Exn Unit :=
  if clientId ∈ reservedClientIds then
    .error (.http 400 ("Client id '".toList ++ clientId ++
      "' is reserved as a namespace under each app. Reserved: ['public'].".toList))
  else .ok ()

def dumpRecord (value : Value) : Except Exn Bytes :=
  match Json.dumpsValue (site.jsonDepth + 1) value with
  | .ok text => .ok (utf8 text)
  | .error e => .error (jsonExn e)

-- The secret is drawn at random; here it comes with the call.
def createClient (username clientId secret : Text) : Handler Unit := do
  requireAdminSuperuser site.jsonDepth site.rescueUsers username
  Handler.ofExcept (rejectIfReserved clientId)
  Handler.set (clientSecretKey clientId) (utf8 secret)
  let acl ← Handler.ofExcept (dumpRecord site (permissionsAcl []))
  Handler.set (clientAclKey clientId) acl

def deviceToAppKey (clientId : Text) : Text :=
  "device_to_app:".toList ++ clientId

def checkProvision (clientId app : Text) : Except Exn Unit := do
  rejectIfReserved clientId
  if strip clientId = [] then .error (.http 400 "client_id is required".toList)
  else if strip app = [] then .error (.http 400 "app is required".toList)
  else if '/' ∈ app ∨ '/' ∈ clientId then
    .error (.http 400 "app and client_id must not contain '/'".toList)
  else .ok ()

-- A client that exists keeps its secret.
def provisionDevice (username clientId app secret : Text) : Handler Unit := do
  requireAdminSuperuser site.jsonDepth site.rescueUsers username
  Handler.ofExcept (checkProvision clientId app)
  let existing ← Handler.get (clientSecretKey clientId)
  if existing = none then
    Handler.set (clientSecretKey clientId) (utf8 secret)
  let acl ← Handler.ofExcept (dumpRecord site (permissionsAcl
    [permission (app ++ '/' :: clientId) "rw".toList,
      permission (app ++ "/public".toList) "rw".toList]))
  Handler.set (clientAclKey clientId) acl
  Handler.set (deviceToAppKey clientId) (utf8 app)

def updateAcl (username clientId : Text) (permissions : List (Text × Text)) : Handler Unit := do
  requireAdminSuperuser site.jsonDepth site.rescueUsers username
  let existing ← Handler.get (clientSecretKey clientId)
  if truthy existing then
    let acl ← Handler.ofExcept (dumpRecord site
      (permissionsAcl (permissions.map aclPermission)))
    Handler.set (clientAclKey clientId) acl
  else throw (.http 404 "Client not found".toList)

def revokeClient (username clientId : Text) : Handler Unit := do
  requireAdminSuperuser site.jsonDepth site.rescueUsers username
  Handler.delete [clientSecretKey clientId]
  Handler.delete [clientAclKey clientId]
  Handler.delete [deviceToAppKey clientId]

def updateAdminUserAcl (username target : Text) (permissions : List (Text × Text)) :
    Handler Unit := do
  requireAdminSuperuser site.jsonDepth site.rescueUsers username
  if strip target = [] then throw (.http 400 "username is required".toList)
  let acl ← Handler.ofExcept (dumpRecord site
    (permissionsAcl (permissions.map aclPermission)))
  Handler.set (adminAclKey target) acl

def deleteAdminUserAcl (username target : Text) : Handler Unit := do
  requireAdminSuperuser site.jsonDepth site.rescueUsers username
  Handler.delete [adminAclKey target]

structure ClientBackupEntry where
  clientId : Text
  secret : Text
  acl : Value

def restoreEach (force : Bool) : List ClientBackupEntry → Handler Unit
  | [] => pure ()
  | client :: rest => do
      Handler.ofExcept (rejectIfReserved client.clientId)
      let existing ← Handler.get (clientSecretKey client.clientId)
      if truthy existing ∧ ¬ force then restoreEach force rest
      else
        Handler.set (clientSecretKey client.clientId) (utf8 client.secret)
        let acl ← Handler.ofExcept (dumpRecord site client.acl)
        Handler.set (clientAclKey client.clientId) acl
        restoreEach force rest

def restoreKeys (username : Text) (force : Bool) (clients : List ClientBackupEntry) :
    Handler Unit := do
  requireAdminSuperuser site.jsonDepth site.rescueUsers username
  restoreEach site force clients

end Clients

end Stra2us.Server
