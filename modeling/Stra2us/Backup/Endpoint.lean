import Stra2us.Backup.Apply
import Stra2us.Server.Sequential

namespace Stra2us.Backup

open Foundation Server

-- What a restore is refused for. All but the last are answered with 400.
inductive RestoreError
  | format (error : FormatError)
  | wrongKind (kind : DumpKind)
  | invalidApp
  | otherApp (found : Value)
  | raised (exn : Exn)

def RestoreError.ofParse : ParseError → RestoreError
  | .format error => .format error
  | .python name => .raised (.python name)

section Accept

variable (strOf : Value → Str)

-- The envelope in a body, where the body is JSON at all.
def envelopeOf (body : Except Exn Value) : Except RestoreError BackupEnvelope := do
  let document ← body.mapError .raised
  (BackupEnvelope.fromJson strOf document).mapError .ofParse

def acceptWhole (body : Except Exn Value) : Except RestoreError BackupEnvelope := do
  let env ← envelopeOf strOf body
  if env.dumpKind = .whole then .ok env
  else .error (.wrongKind env.dumpKind)

-- The app in the path decides. An envelope that names another one is refused.
def acceptPerApp (app : Text) (body : Except Exn Value) : Except RestoreError BackupEnvelope := do
  if strip app = [] ∨ '/' ∈ app then .error .invalidApp
  else
    let env ← envelopeOf strOf body
    match env.app with
    | .none => .ok env
    | found => if isText found app then .ok env else .error (.otherApp found)

end Accept

-- What a deployment adds for its restores: `str()` of a value that is no string, and the
-- ids Redis takes.
structure RestoreSite where
  site : Site
  strOf : Value → Str
  parseId : Text → Option IdRequest

section Endpoints

variable (d : RestoreSite)

def RestoreSite.restoring (force : Bool) (filter : Option Text) (w : World) : Restoring where
  jsonDepth := d.site.jsonDepth
  parseId := d.parseId
  nowMs := w.redisMs.toNat
  forceOverwrite := force
  appFilter := filter

-- The session is checked before the body is read.
def restoreAccepted (username : Text) (force : Bool) (filter : Option Text)
    (accepted : Except RestoreError BackupEnvelope) (w : World) :
    Except RestoreError Result × World :=
  match (requireAdminSuperuser d.site.jsonDepth d.site.rescueUsers username).runOn w with
  | (.error exn, w') => (.error (.raised exn), w')
  | (.ok (), w') =>
      match accepted with
      | .error error => (.error error, w')
      | .ok env =>
          let applied := applyEnvelope (d.restoring force filter w') env w'.store
          (applied.1.mapError .raised, { w' with store := applied.2 })

def restoreWhole (username : Text) (force : Bool) (body : Except Exn Value) :
    World → Except RestoreError Result × World :=
  restoreAccepted d username force none (acceptWhole d.strOf body)

def restorePerApp (username app : Text) (force : Bool) (body : Except Exn Value) :
    World → Except RestoreError Result × World :=
  restoreAccepted d username force (some app) (acceptPerApp d.strOf app body)

end Endpoints

end Stra2us.Backup
