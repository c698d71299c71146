import Stra2us.Server.Admin

namespace Stra2us.Server

open Foundation

section Form

variable (site : Site)

def decodeFormValue (raw : Text) : Except Exn Value :=
  if raw = [] then .ok (.str []) else coerceJson site raw

-- Anything wrong with the stashed document reads as no catalog.
def catalogOfRecord (raw : Option Bytes) : Except Exn (Option (List (Value × Value))) :=
  match raw.bind (Msgpack.unpackb false) with
  | some (.str text) =>
      match site.safeLoad text with
      | .ok (.dict pairs) => .ok (some pairs)
      | .ok _ => .ok none
      | .error (.python name) =>
          if name = "YAMLError".toList then .ok none else .error (.python name)
      | .error exn => .error exn
  | _ => .ok none

def catalogKey (app : Text) : Text :=
  kvKey ("_catalog/".toList ++ app)

def loadCatalogDict (app : Text) : Handler (Option (List (Value × Value))) := do
  let raw ← Handler.get (catalogKey app)
  Handler.ofExcept (catalogOfRecord site raw)

-- `(catalog or {}).get("vars") or {}`, which need not be a mapping.
def catalogVars (catalog : Option (List (Value × Value))) : Value :=
  match Value.lookup (catalog.getD []) "vars".toList with
  | some vars => if vars.truthy then vars else .dict []
  | none => .dict []

-- What the catalog says of a field: nothing, or whether it is encrypted.
def declaredEncrypted (vars : Value) (name : Text) : Option Bool :=
  match vars with
  | .dict pairs =>
      match Value.lookup pairs name with
      | some (.dict var) =>
          some (match Value.lookup var "encrypted".toList with
            | some flag => flag.truthy
            | none => false)
      | _ => none
  | _ => none

def fieldKey (app device name : Text) : Text :=
  app ++ '/' :: device ++ '/' :: name

-- A field the catalog does not know keeps the flag it has.
def writeField (vars : Value) (app device name raw : Text) : Handler Unit := do
  let decoded ← Handler.ofExcept (decodeFormValue site raw)
  let packed ← Handler.ofExcept (packOrRaise decoded)
  let key := fieldKey app device name
  Handler.set (kvKey key) packed
  match declaredEncrypted vars name with
  | some encrypted => setFlag key encrypted
  | none => do
      let wasEncrypted ← Handler.get (encKey key)
      if truthy wasEncrypted then Handler.set (encKey key) (utf8 "1".toList)

def writeFields (vars : Value) (app device : Text) : List (Text × Text) → Handler Unit
  | [] => pure ()
  | (name, raw) :: rest => do
      if name = [] ∨ '/' ∈ name then writeFields vars app device rest
      else
        writeField site vars app device name raw
        writeFields vars app device rest

-- The answer is where the browser is sent next.
def submitDeviceForm (username app device : Text) (form : List (Text × Text)) :
    Handler Text := do
  let acl ← getAdminContext site.jsonDepth site.rescueUsers username
  match checkAcl acl ("kv/".toList ++ app ++ '/' :: device) .write with
  | .error (.http _ _) => pure "/app/".toList
  | .error exn => throw exn
  | .ok () => do
      let catalog ← loadCatalogDict site app
      writeFields site (catalogVars catalog) app device form
      pure ("/app/".toList ++ app ++ '/' :: device)

end Form

end Stra2us.Server
