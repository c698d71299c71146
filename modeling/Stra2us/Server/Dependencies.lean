import Stra2us.Foundation.Numerals
import Stra2us.Server.Security

namespace Stra2us.Server

open Foundation

inductive Mode
  | read
  | write
deriving DecidableEq, Repr

def catalogStashPrefix : Text := "_catalog/".toList

-- A path of the catalog stash is also governed as the app it belongs to.
def aclCandidatePaths (resourcePath : Text) : List Text :=
  if catalogStashPrefix <+: resourcePath then
    let aliased := resourcePath.drop catalogStashPrefix.length
    if aliased ≠ [] then [resourcePath, aliased] else [resourcePath]
  else [resourcePath]

def stripResourceType (requestedResource : Text) : Text :=
  if "q/".toList <+: requestedResource then requestedResource.drop 2
  else if "kv/".toList <+: requestedResource then requestedResource.drop 3
  else requestedResource

-- Any prefix that is no string fails on `prefix + "/"`.
def prefixMatches : Value → Text → Except Exn Bool
  | .str pre, path =>
      .ok (pre = "*".toList ∨ path = pre ∨ pre ++ "/".toList <+: path)
  | .surrogates _, _ => .ok false
  | _, _ => .error (.python "TypeError".toList)

def anyMatches (pre : Value) : List Text → Except Exn Bool
  | [] => .ok false
  | path :: rest => do
      if ← prefixMatches pre path then .ok true else anyMatches pre rest

def getField (value : Value) (key : Text) : Except Exn (Option Value) :=
  match value with
  | .dict pairs => .ok (Value.lookup pairs key)
  | _ => .error (.python "AttributeError".toList)

def iterate : Value → Except Exn (List Value)
  | .list items => .ok items
  | .dict pairs => .ok (pairs.map Prod.fst)
  | .str text => .ok (text.map fun c => .str [c])
  | .surrogates units => .ok (units.map fun u => .surrogates [u])
  | .bytes data => .ok (data.map fun b => .int b.toNat)
  | _ => .error (.python "TypeError".toList)

def isText (value : Value) (text : Text) : Bool :=
  match value with
  | .str t => t = text
  | _ => false

-- The first permission that covers a candidate path decides.
def checkPermissions (requestedResource : Text) (candidates : List Text) (mode : Mode) :
    List Value → Except Exn Unit
  | [] => .error (.http 403
      ("Forbidden: No permission for '".toList ++ requestedResource ++ "'".toList))
  | perm :: rest => do
      let pre := (← getField perm "prefix".toList).getD (.str [])
      let access := (← getField perm "access".toList).getD (.str "r".toList)
      if ← anyMatches pre candidates then
        if mode = .write ∧ ¬ isText access "rw".toList then
          .error (.http 403 "Forbidden: Write access denied".toList)
        else .ok ()
      else checkPermissions requestedResource candidates mode rest

def checkAcl (acl : Value) (requestedResource : Text) (mode : Mode) : Except Exn Unit := do
  let candidates := aclCandidatePaths (stripResourceType requestedResource)
  let permissions := (← getField acl "permissions".toList).getD (.list [])
  let items ← iterate permissions
  checkPermissions requestedResource candidates mode items

section Records

variable (jsonDepth : Nat)

def jsonExn : Json.Error → Exn
  | .value => .python "JSONDecodeError".toList
  | .digits => .python "ValueError".toList
  | .recursion => .python "RecursionError".toList

-- A stored record. Bytes that are no UTF-8 fail as a malformed document does.
def loadRecord (raw : Bytes) : Except Json.Error Value :=
  match utf8Decode raw with
  | some text => Json.loads jsonDepth text
  | none => .error .value

end Records

def clientSecretKey (clientId : Text) : Text :=
  "client:".toList ++ clientId ++ ":secret".toList

def clientAclKey (clientId : Text) : Text :=
  "client:".toList ++ clientId ++ ":acl".toList

-- A Redis reply counts as true when it is there and not empty.
def truthy (reply : Option Bytes) : Bool :=
  match reply with
  | some (_ :: _) => true
  | _ => false

-- What verification hands to a handler. A secret that verified a signature is hex.
structure Context where
  clientId : Text
  secretHex : Text
  acl : Value
  hexValid : (fromHex secretHex).isSome

section Verify

variable (hmac : Hmac) (jsonDepth : Nat)

-- A header that is missing or empty stops the request.
def requiredHeader (request : Request) (name : Text) : Except Exn Text :=
  match request.header? name with
  | some (c :: rest) => .ok (c :: rest)
  | _ => .error (.http 401 "Not authenticated".toList)

def defaultAcl : Value :=
  .dict [(.str "read_write".toList, .str "*".toList)]

def aclOfRecord (raw : Option Bytes) : Except Exn Value :=
  match raw with
  | some (byte :: rest) => (loadRecord jsonDepth (byte :: rest)).mapError jsonExn
  | _ => .ok defaultAcl

def secretOfRecord (raw : Option Bytes) : Except Exn Text :=
  match raw with
  | some (byte :: rest) =>
      match utf8Decode (byte :: rest) with
      | some secretHex => .ok secretHex
      | none => .error (.python "UnicodeDecodeError".toList)
  | _ => .error (.http 401 "Invalid Client ID".toList)

def parseTimestamp (timestampStr : Text) : Except Exn Int :=
  match parseInt timestampStr with
  | some timestamp => .ok timestamp
  | none => .error (.http 400 "Invalid X-Timestamp format".toList)

-- With a secret that is no hex string the signature cannot even be computed.
def verifiedContext (request : Request) (clientId secretHex : Text) (timestamp : Int)
    (signature : Text) : Except Exn (Value → Context) :=
  match hhex : fromHex secretHex with
  | none => .error (.python "ValueError".toList)
  | some _ => do
      let valid ← verifySignature hmac secretHex request.path request.body timestamp signature
      if valid then .ok fun acl => ⟨clientId, secretHex, acl, by simp [hhex]⟩
      else .error (.http 401 "Invalid Signature".toList)

def verifyDeviceRequest (request : Request) : Handler Context := do
  let clientId ← Handler.ofExcept (requiredHeader request "x-client-id".toList)
  let timestampStr ← Handler.ofExcept (requiredHeader request "x-timestamp".toList)
  let signature ← Handler.ofExcept (requiredHeader request "x-signature".toList)
  let timestamp ← Handler.ofExcept (parseTimestamp timestampStr)
  let currentTime ← Handler.time
  if verifyTimestamp currentTime timestamp then
    let rawSecret ← Handler.get (clientSecretKey clientId)
    let secretHex ← Handler.ofExcept (secretOfRecord rawSecret)
    let context ← Handler.ofExcept
      (verifiedContext hmac request clientId secretHex timestamp signature)
    let rawAcl ← Handler.get (clientAclKey clientId)
    let acl ← Handler.ofExcept (aclOfRecord jsonDepth rawAcl)
    pure (context acl)
  else throw (.http 401 "Request expired or replay detected".toList)

end Verify

section Admins

variable (jsonDepth : Nat) (rescueUsers : List Text)

def adminAclKey (username : Text) : Text :=
  "admin_acls:".toList ++ username

def permissionsAcl (permissions : List Value) : Value :=
  .dict [(.str "permissions".toList, .list permissions)]

def permission (pre access : Text) : Value :=
  .dict [(.str "prefix".toList, .str pre), (.str "access".toList, .str access)]

-- An entry of an ACL update: a prefix and its access.
def aclPermission (entry : Text × Text) : Value :=
  permission entry.1 entry.2

def rescueAcl : Value :=
  permissionsAcl [permission "*".toList "rw".toList]

-- Without a record only a rescue user may do anything; a malformed one denies all.
def adminAclOfRecord (username : Text) (raw : Option Bytes) : Except Exn Value :=
  if truthy raw then
    match loadRecord jsonDepth (raw.getD []) with
    | .ok acl => .ok acl
    | .error .value | .error .digits => .ok (permissionsAcl [])
    | .error .recursion => .error (.python "RecursionError".toList)
  else if username ∈ rescueUsers then .ok rescueAcl
  else .ok (permissionsAcl [])

def loadAdminAcl (username : Text) : Handler Value := do
  let raw ← Handler.get (adminAclKey username)
  Handler.ofExcept (adminAclOfRecord jsonDepth rescueUsers username raw)

def getAdminContext (username : Text) : Handler Value := do
  if username = [] then throw (.http 401 "Admin session required".toList)
  loadAdminAcl jsonDepth rescueUsers username

def requireAdminKv (username key : Text) (mode : Mode) : Handler Unit := do
  let acl ← getAdminContext jsonDepth rescueUsers username
  Handler.ofExcept (checkAcl acl ("kv/".toList ++ key) mode)

def requireAdminQueue (username topic : Text) (mode : Mode) : Handler Unit := do
  let acl ← getAdminContext jsonDepth rescueUsers username
  Handler.ofExcept (checkAcl acl ("q/".toList ++ topic) mode)

def isFieldText (value : Option Value) (text : Text) : Bool :=
  match value with
  | some value => isText value text
  | none => false

def hasWildcard : List Value → Except Exn Bool
  | [] => .ok false
  | perm :: rest => do
      let pre ← getField perm "prefix".toList
      let access ← getField perm "access".toList
      if isFieldText pre "*".toList && isFieldText access "rw".toList then .ok true
      else hasWildcard rest

def checkSuperuser (acl : Value) : Except Exn Unit := do
  let permissions := (← getField acl "permissions".toList).getD (.list [])
  let items ← iterate permissions
  if ← hasWildcard items then .ok ()
  else .error (.http 403 "Forbidden: requires superuser ACL (*:rw)".toList)

def requireAdminSuperuser (username : Text) : Handler Unit := do
  let acl ← getAdminContext jsonDepth rescueUsers username
  Handler.ofExcept (checkSuperuser acl)

end Admins

end Stra2us.Server
