import Stra2us.Foundation.Interleave
import Stra2us.Server.Form

namespace Stra2us.Server

open Foundation

inductive Answer
  | device (response : Response)
  | admin
  | redirect (url : Text)

-- One request past its authentication by the device or the admin session, with the
-- inputs its handler reads.
inductive Call
  | publish (context : Context) (topic : Text) (request : Request) (ttl : Int)
  | consume (context : Context) (topic : Text) (request : Request) (envelope : Bool) (fuel : Nat)
  | writeKv (context : Context) (key : Text) (request : Request)
  | readKv (context : Context) (key : Text) (request : Request)
  | deleteKv (context : Context) (key : Text) (request : Request)
  | setKv (username key : Text) (payload : KvPayload)
  | adminDeleteKv (username key : Text)
  | deleteQueue (username topic : Text)
  | submitForm (username app device : Text) (form : List (Text × Text))
  | createClient (username clientId secret : Text)
  | provisionDevice (username clientId app secret : Text)
  | updateAcl (username clientId : Text) (permissions : List (Text × Text))
  | revokeClient (username clientId : Text)
  | updateAdminUserAcl (username target : Text) (permissions : List (Text × Text))
  | deleteAdminUserAcl (username target : Text)
  | restoreKeys (username : Text) (force : Bool) (clients : List ClientBackupEntry)

def Call.handler (site : Site) : Call → Handler Answer
  | .publish context topic request ttl =>
      Answer.device <$> publishMessage site.hmac context topic request ttl
  | .consume context topic request envelope fuel =>
      Answer.device <$> consumeMessage site.hmac context topic request envelope fuel
  | .writeKv context key request =>
      Answer.device <$> Server.writeKv site.hmac site.gate context key request
  | .readKv context key request => Answer.device <$> Server.readKv site.hmac context key request
  | .deleteKv context key request =>
      Answer.device <$> Server.deleteKv site.hmac context key request
  | .setKv username key payload => (fun _ => .admin) <$> Server.setKv site username key payload
  | .adminDeleteKv username key => (fun _ => .admin) <$> Server.adminDeleteKv site username key
  | .deleteQueue username topic => (fun _ => .admin) <$> Server.deleteQueue site username topic
  | .submitForm username app device form =>
      Answer.redirect <$> submitDeviceForm site username app device form
  | .createClient username clientId secret =>
      (fun _ => .admin) <$> Server.createClient site username clientId secret
  | .provisionDevice username clientId app secret =>
      (fun _ => .admin) <$> Server.provisionDevice site username clientId app secret
  | .updateAcl username clientId permissions =>
      (fun _ => .admin) <$> Server.updateAcl site username clientId permissions
  | .revokeClient username clientId =>
      (fun _ => .admin) <$> Server.revokeClient site username clientId
  | .updateAdminUserAcl username target permissions =>
      (fun _ => .admin) <$> Server.updateAdminUserAcl site username target permissions
  | .deleteAdminUserAcl username target =>
      (fun _ => .admin) <$> Server.deleteAdminUserAcl site username target
  | .restoreKeys username force clients =>
      (fun _ => .admin) <$> Server.restoreKeys site username force clients

def Call.program (site : Site) (call : Call) : Prog Cmd Reply (Except Exn Answer) :=
  (call.handler site).run

-- The same requests with the entry that a consume hands out.
def Call.taggedHandler (site : Site) : Call → Handler (Option Entry × Answer)
  | .consume context topic request envelope fuel =>
      (fun tagged => (tagged.1, Answer.device tagged.2)) <$>
        consumeTagged site.hmac context topic request envelope fuel
  | call => (fun answer => (none, answer)) <$> call.handler site

def Call.tagged (site : Site) (call : Call) : Prog Cmd Reply (Except Exn (Option Entry × Answer)) :=
  (call.taggedHandler site).run

theorem Call.snd_taggedHandler (site : Site) (call : Call) :
    Prod.snd <$> call.taggedHandler site = call.handler site := by
  cases call with
  | consume context topic request envelope fuel =>
      simp only [taggedHandler, handler, consumeMessage, map_eq_pure_bind, bind_assoc, pure_bind]
  | _ => simp only [taggedHandler, map_eq_pure_bind, bind_assoc, pure_bind, bind_pure]

-- A deployment and a client small enough to follow by hand.
def Site.small : Site where
  hmac := fun _ message => message
  jsonDepth := 8
  rescueUsers := []
  safeLoad := fun _ => .error (.python "YAMLError".toList)
  gate := fun _ => .ok ()

def Context.small : Context where
  clientId := ['c']
  secretHex := ['0', '0']
  acl := rescueAcl
  hexValid := by decide

end Stra2us.Server
