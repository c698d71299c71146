import Stra2us.Foundation.Routing

namespace Stra2us.Http

open Foundation Routing

-- The handlers of the admin API.
inductive AdminApi
  | getRelease
  | listVisibleClients
  | listKeys
  | listAdminsForDevice
  | createClient
  | provisionDevice
  | updateAcl
  | revokeClient
  | listAdminUsers
  | updateAdminUserAcl
  | deleteAdminUserAcl
  | securityWarnings
  | getMe
  | getStats
  | peekQueue
  | scanKv
  | listCatalogDevices
  | peekKv
  | setKv
  | deleteKv
  | deleteQueue
  | getLogs
  | backupKeys
  | restoreKeys
  | backupWhole
  | backupPerApp
  | restoreWhole
  | restorePerApp
  | getPerfLog
  | streamMonitor
  | dumpHeartbeats
deriving DecidableEq, Repr

inductive Endpoint
  | docs
  | cspReport
  | admin (handler : AdminApi)
  | publishMessage
  | consumeMessage
  | writeKv
  | readKv
  | deleteKv
  | adminLogout
  | adminStatic
  | appStatic
  | serveAsset
  | serveTheme
  | submitDeviceForm
  | landing
  | devicePage
  | lookupDevice
  | oauthLogin
  | oauthCallback
  | oauthUnauthorized
  | healthCheck
  | readRoot
deriving DecidableEq, Repr

section Routes

variable {η : Type}

def route (methods : List String) (template : String) (handler : η) : Route η :=
  ⟨some (methods.map String.toList), template.toList, handler⟩

def get (template : String) (handler : η) : Route η := route ["GET"] template handler

def post (template : String) (handler : η) : Route η := route ["POST"] template handler

def put (template : String) (handler : η) : Route η := route ["PUT"] template handler

def delete (template : String) (handler : η) : Route η := route ["DELETE"] template handler

-- What lies under a mount is left to it, whatever the method.
def mount (template : String) (handler : η) : Route η :=
  ⟨none, template.toList ++ "/{path:path}".toList, handler⟩

end Routes

-- What the framework serves of itself.
def docsRoutes : List (Route Endpoint) :=
  [route ["GET", "HEAD"] "/openapi.json" .docs, route ["GET", "HEAD"] "/docs" .docs,
    route ["GET", "HEAD"] "/docs/oauth2-redirect" .docs, route ["GET", "HEAD"] "/redoc" .docs]

def cspRouter : List (Route Endpoint) :=
  [post "/api/_csp_report" .cspReport]

def adminRouter : List (Route AdminApi) :=
  [get "/release" .getRelease,
    get "/visible_clients" .listVisibleClients,
    get "/keys" .listKeys,
    get "/keys/{client_id}/admins" .listAdminsForDevice,
    post "/keys" .createClient,
    post "/provision_device" .provisionDevice,
    put "/keys/{client_id}/acl" .updateAcl,
    delete "/keys/{client_id}" .revokeClient,
    get "/admin_users" .listAdminUsers,
    put "/admin_users/{username}/acl" .updateAdminUserAcl,
    delete "/admin_users/{username}/acl" .deleteAdminUserAcl,
    get "/security_warnings" .securityWarnings,
    get "/me" .getMe,
    get "/stats" .getStats,
    get "/peek/q/{topic:path}" .peekQueue,
    get "/kv_scan" .scanKv,
    get "/catalog/{app}/devices" .listCatalogDevices,
    get "/peek/kv/{key:path}" .peekKv,
    post "/kv/{key:path}" .setKv,
    delete "/kv/{key:path}" .deleteKv,
    delete "/q/{topic:path}" .deleteQueue,
    get "/logs" .getLogs,
    get "/keys/backup" .backupKeys,
    post "/keys/restore" .restoreKeys,
    get "/backup" .backupWhole,
    get "/backup/app/{app}" .backupPerApp,
    post "/restore" .restoreWhole,
    post "/restore/app/{app}" .restorePerApp,
    get "/perf_log" .getPerfLog,
    get "/stream/q/{topic:path}" .streamMonitor,
    get "/dump_heartbeats/{client_id}" .dumpHeartbeats]

def deviceRouter : List (Route Endpoint) :=
  [post "/q/{topic:path}" .publishMessage,
    get "/q/{topic:path}" .consumeMessage,
    post "/kv/{key:path}" .writeKv,
    get "/kv/{key:path}" .readKv,
    delete "/kv/{key:path}" .deleteKv]

-- Of two decorators on one handler the lower one registers first.
def appRouter : List (Route Endpoint) :=
  [get "/app/" .landing,
    get "/app" .landing,
    get "/app/{app}/{device}/" .devicePage,
    get "/app/{app}/{device}" .devicePage,
    get "/api/app/lookup_device" .lookupDevice]

def oauthRouter : List (Route Endpoint) :=
  [get "/oauth/google/login" .oauthLogin,
    get "/oauth/google/callback" .oauthCallback,
    get "/oauth/unauthorized" .oauthUnauthorized]

def underPrefix (pre : Text) (r : Route AdminApi) : Route Endpoint :=
  ⟨r.methods, pre ++ r.template, .admin r.handler⟩

-- Everything in the order of its registration.
def table : List (Route Endpoint) :=
  docsRoutes ++ cspRouter ++ adminRouter.map (underPrefix "/api/admin".toList) ++ deviceRouter ++
    [get "/admin/logout" .adminLogout, mount "/admin" .adminStatic,
      mount "/app/_static" .appStatic] ++
    [get "/app/{app}/_assets/{filename}" .serveAsset] ++
    [get "/app/{app}/_theme.css" .serveTheme] ++
    [post "/app/{app}/{device}" .submitDeviceForm] ++ appRouter ++ oauthRouter ++
    [get "/health" .healthCheck, get "/" .readRoot]

section Kinds

-- Open to everybody by design.
def Endpoint.isPublic : Endpoint → Bool
  | .docs | .cspReport => true
  | .publishMessage | .consumeMessage | .writeKv | .readKv | .deleteKv => true
  | .adminLogout | .appStatic | .serveAsset | .serveTheme => true
  | .oauthLogin | .oauthCallback | .oauthUnauthorized => true
  | .healthCheck | .readRoot => true
  | _ => false

-- Files of the image.
def Endpoint.isStatic : Endpoint → Bool
  | .adminStatic | .appStatic | .landing => true
  | _ => false

-- Handlers that want the admin context before anything else.
def Endpoint.wantsAdmin : Endpoint → Bool
  | .admin _ | .devicePage | .submitDeviceForm => true
  | _ => false

-- All but one of what is not open are files or look for the admin themselves.
theorem kind_cases (e : Endpoint) :
    e.isPublic = true ∨ e.isStatic = true ∨ e.wantsAdmin = true ∨ e = .lookupDevice := by
  cases e with
  | lookupDevice => exact .inr (.inr (.inr rfl))
  | admin handler => exact .inr (.inr (.inl rfl))
  | devicePage => exact .inr (.inr (.inl rfl))
  | submitDeviceForm => exact .inr (.inr (.inl rfl))
  | landing => exact .inr (.inl rfl)
  | adminStatic => exact .inr (.inl rfl)
  | _ => exact .inl rfl

-- That one has one path.
theorem path_of_lookupDevice {method path : Text}
    (h : dispatch table method path = .handled .lookupDevice) :
    path = "/api/app/lookup_device".toList ∨ path = "/api/app/lookup_device\n".toList := by
  obtain ⟨r, hr, hhandler, hpath, -⟩ := route_of_handled h
  have honly : table.filter (fun r => r.handler = .lookupDevice) =
      [get "/api/app/lookup_device" .lookupDevice] := rfl
  have hmem : r ∈ table.filter fun r => r.handler = .lookupDevice :=
    List.mem_filter.mpr ⟨hr, decide_eq_true hhandler⟩
  rw [honly] at hmem
  obtain rfl := List.mem_singleton.mp hmem
  have hcompiled : compilePath "/api/app/lookup_device".toList =
      [.literal "/api/app/lookup_device".toList] := by decide +kernel
  change matchesParts (compilePath "/api/app/lookup_device".toList) path = true at hpath
  rw [hcompiled] at hpath
  exact matchesParts_literal hpath

end Kinds

end Stra2us.Http
