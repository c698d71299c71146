import Stra2us.Backup.Endpoint
import Stra2us.Backup.Records
import Stra2us.Foundation.Machine
import Stra2us.Server.Api
import Stra2us.Server.Lookup
import Stra2us.Server.Submit

namespace Stra2us.Admin

open Foundation Server Backup

-- A deployment with its restores, and with how Redis matches a glob pattern.
structure Deployment extends RestoreSite where
  glob : Text → Text → Bool

-- What may happen to a server: a request is handled, or time goes by.
inductive Operation
  | call (request : Call)
  | restoreWhole (username : Text) (force : Bool) (body : Except Exn Value)
  | restorePerApp (username app : Text) (force : Bool) (body : Except Exn Value)
  | lookup (order : List Text) (name : Text)
  | clock (seconds : Int) (redisMs : UInt64)

def Operation.apply (d : Deployment) : Operation → World → World
  | .call request, w => ((request.handler d.site).runOn w).2
  | .restoreWhole username force body, w => (Backup.restoreWhole d.toRestoreSite username force body w).2
  | .restorePerApp username app force body, w =>
      (Backup.restorePerApp d.toRestoreSite username app force body w).2
  | .lookup order name, w => (lookupDevice d.glob order name w).2
  | .clock seconds redisMs, w => { w with clock := seconds, redisMs := redisMs }

def World.empty : World := ⟨.empty, 0, 0⟩

-- Every restore is the restore of an envelope, once it is let in.
structure Restore where
  username : Text
  force : Bool
  filter : Option Text
  accepted : Except RestoreError BackupEnvelope

def Operation.restore? (d : Deployment) : Operation → Option Restore
  | .restoreWhole username force body => some ⟨username, force, none, acceptWhole d.strOf body⟩
  | .restorePerApp username app force body =>
      some ⟨username, force, some app, acceptPerApp d.strOf app body⟩
  | _ => none

section Restores

variable (d : Deployment)

-- The restore applies this envelope, under this configuration.
def Restore.Applies (r : Restore) (w : World) (cfg : Restoring) (env : BackupEnvelope) : Prop :=
  superuserIn d.site.jsonDepth d.site.rescueUsers r.username w.store = .ok () ∧
    r.accepted = .ok env ∧ cfg = d.restoring r.force r.filter w

variable {d} {op : Operation} {r : Restore} {w : World}

theorem apply_restore (h : op.restore? d = some r) :
    op.apply d w = (restoreAccepted d.toRestoreSite r.username r.force r.filter r.accepted w).2 := by
  cases op with
  | restoreWhole username force body =>
      obtain rfl := Option.some.inj h
      rfl
  | restorePerApp username app force body =>
      obtain rfl := Option.some.inj h
      rfl
  | call request => cases h
  | lookup order name => cases h
  | clock seconds redisMs => cases h

-- A restore that is let in applies its envelope; any other leaves everything as it is.
theorem restore_cases (h : op.restore? d = some r) :
    (∃ cfg env, r.Applies d w cfg env ∧
      op.apply d w = { w with store := (applyEnvelope cfg env w.store).2 }) ∨
    (∀ cfg env, ¬ r.Applies d w cfg env) ∧ op.apply d w = w := by
  rw [apply_restore h]
  unfold restoreAccepted
  rw [requireAdminSuperuser_runOn]
  cases hsuper : superuserIn d.site.jsonDepth d.site.rescueUsers r.username w.store with
  | error exn =>
      refine .inr ⟨?_, rfl⟩
      rintro cfg env ⟨hok, -⟩
      rw [hsuper] at hok
      cases hok
  | ok value =>
      cases haccepted : r.accepted with
      | error error =>
          refine .inr ⟨?_, rfl⟩
          rintro cfg env ⟨-, hok, -⟩
          rw [haccepted] at hok
          cases hok
      | ok env => exact .inl ⟨_, env, ⟨hsuper, haccepted, rfl⟩, rfl⟩

end Restores

-- A deployment small enough to follow by hand, with one break-glass user.
def Deployment.small : Deployment where
  site := { Site.small with rescueUsers := [['r']] }
  strOf := fun _ => .text []
  parseId text := (StreamId.parse text).map .exact
  glob := fun _ _ => true

end Stra2us.Admin
