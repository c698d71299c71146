import Stra2us.Client.Catalog
import Stra2us.Client.Cli
import Stra2us.Server.Submit

namespace Stra2us.Client

open Foundation Server

section Set

inductive SetError
  | notInCatalog (key : Text)
  | catalog (e : CatalogError)
  | valueRequired
deriving DecidableEq, Repr

def appScopeKeyword : Text := "app".toList

def parseTarget (target : Text) : VarScope × Option Text :=
  if target = appScopeKeyword then (.app, none) else (.device, some target)

def validateScope (var : Var) (scope : VarScope) (key : Text) : Except CatalogError Unit :=
  if scope ∈ var.scope then .ok () else .error (.notValidAt key scope var.scope)

-- What `stra2us set` asks its client for. The flag on the command line only decides what
-- is printed.
def cmdSet (cat : Catalog) (target key : Text) (value : Option Text) (unset : Bool) :
    Except SetError Stra2usClient.Ask :=
  let (scope, device) := parseTarget target
  match cat.vars.get? key with
  | none => .error (.notInCatalog key)
  | some var =>
      match validateScope var scope key with
      | .error e => .error (.catalog e)
      | .ok () =>
          if unset then .ok (.put (kvPath cat.app key device) (.str []) var.encrypted)
          else
            match value with
            | none => .error .valueRequired
            | some raw =>
                match coerceValue var raw key with
                | .error e => .error (.catalog e)
                | .ok value => .ok (.put (kvPath cat.app key device) value var.encrypted)

variable {cat : Catalog} {target name raw : Text} {ask : Stra2usClient.Ask}

theorem cmdSet_ok (h : cmdSet cat target name (some raw) false = .ok ask) :
    ∃ var v, cat.vars.get? name = some var ∧ coerceValue var raw name = .ok v ∧
      ask = .put (kvPath cat.app name (parseTarget target).2) v var.encrypted := by
  unfold cmdSet at h
  dsimp only at h
  split at h
  · cases h
  · rename_i var hvar
    split at h
    · cases h
    · rw [if_neg (by decide)] at h
      split at h
      · cases h
      · rename_i v hcoerce
        exact ⟨var, v, hvar, hcoerce, (Except.ok.inj h).symm⟩

-- Only a device of the name of the keyword is addressed elsewhere.
theorem kvPath_target (app target key : Text) :
    kvPath app key (parseTarget target).2 = fieldKey app target key ↔
      target ≠ appScopeKeyword := by
  unfold parseTarget
  split
  · rename_i happ
    simp only [ne_eq, happ, not_true_eq_false, iff_false]
    intro h
    have hsplit : app ++ ("/public/".toList ++ key) =
        app ++ ('/' :: appScopeKeyword ++ '/' :: key) := by
      rw [← List.append_assoc, ← List.append_assoc]
      exact h
    have hpublic := List.append_cancel_left hsplit
    injection hpublic with _ h
    injection h with h _
    exact absurd h (by decide)
  · rename_i hdevice
    simp only [ne_eq, hdevice, not_false_eq_true, iff_true]
    rfl

end Set

section Write

variable {hmac : Hmac} {gate : Gate} {context : Context} {key : Text} {request : Request}
  {w w' : World} {response : Response}

theorem storedBody_msgpack (hct : request.header? "content-type".toList = some msgpackMt)
    {body : Bytes} (h : storedBody request = .ok body) : body = request.body := by
  have hplain : ¬ "text/plain".toList <:+: msgpackMt := by decide
  unfold storedBody at h
  rw [hct] at h
  dsimp only [Option.getD_some] at h
  rw [if_neg hplain] at h
  split at h
  · cases h
  · exact (Except.ok.inj h).symm

theorem storeFlagged_runOn (body : Bytes) (w : World) :
    ∃ response w', (Handler.set (kvKey key) body >>= fun _ =>
        if request.header? "x-encrypted".toList = some "1".toList then
          Handler.set (encKey key) (utf8 "1".toList) >>= fun _ =>
            signedMsgpack hmac context request (statusValue "ok".toList)
        else
          Handler.delete [encKey key] >>= fun _ =>
            signedMsgpack hmac context request (statusValue "ok".toList)).runOn w =
        (.ok response, w') ∧ w'.store.get (kvKey key) = some body ∧
      truthy (w'.store.get (encKey key)) =
        decide (request.header? "x-encrypted".toList = some "1".toList) := by
  have hne : kvKey key ≠ encKey key := (encKey_ne_kvKey key).symm
  have hshort : (utf8 "ok".toList).length < 2 ^ 32 := by decide
  let w₁ : World := { w with store := w.store.set (kvKey key) body }
  have hvalue : w₁.store.get (kvKey key) = some body := Store.get_set_self _ _ _
  by_cases hflag : request.header? "x-encrypted".toList = some "1".toList
  · let w₂ : World := { w with store := w₁.store.set (encKey key) (utf8 "1".toList) }
    obtain ⟨response, hrun, -⟩ := signedMsgpack_runOn hmac context request hshort w₂
    simp only [hflag, ite_true, decide_true]
    refine ⟨response, w₂, hrun, (Store.get_set_of_ne _ hne _).trans hvalue, ?_⟩
    have hset : w₂.store.get (encKey key) = some (utf8 "1".toList) := Store.get_set_self _ _ _
    rw [hset]
    rfl
  · let w₂ : World := { w with store := w₁.store.delete [encKey key] }
    obtain ⟨response, hrun, -⟩ := signedMsgpack_runOn hmac context request hshort w₂
    simp only [hflag, ite_false, decide_false]
    refine ⟨response, w₂, hrun, ?_, ?_⟩
    · change (w₁.store.delete [encKey key]).get (kvKey key) = _
      rw [Store.get_delete, if_neg (by simpa using hne)]
      exact hvalue
    · change truthy ((w₁.store.delete [encKey key]).get (encKey key)) = false
      rw [Store.get_delete, if_pos (by simp)]
      rfl

-- A write that was answered has stored its body and its flag.
theorem writeKv_stores (h : (writeKv hmac gate context key request).runOn w = (.ok response, w')) :
    ∃ body, storedBody request = .ok body ∧ w'.store.get (kvKey key) = some body ∧
      truthy (w'.store.get (encKey key)) =
        decide (request.header? "x-encrypted".toList = some "1".toList) := by
  unfold writeKv at h
  obtain ⟨_, w₁, -, h⟩ := Handler.runOn_bind_ok.mp h
  obtain ⟨body, w₂, hbody, h⟩ := Handler.runOn_bind_ok.mp h
  have hstored := (Prod.mk.inj hbody).1
  refine ⟨body, hstored, ?_⟩
  have hrest : ∃ w₃, (Handler.set (kvKey key) body >>= fun _ =>
      if request.header? "x-encrypted".toList = some "1".toList then
        Handler.set (encKey key) (utf8 "1".toList) >>= fun _ =>
          signedMsgpack hmac context request (statusValue "ok".toList)
      else
        Handler.delete [encKey key] >>= fun _ =>
          signedMsgpack hmac context request (statusValue "ok".toList)).runOn w₃ =
      (.ok response, w') := by
    dsimp only at h
    by_cases hgate : isCatalogYamlKey key ∧ body ≠ []
    · rw [if_pos hgate] at h
      obtain ⟨_, w₃, -, h⟩ := Handler.runOn_bind_ok.mp h
      exact ⟨w₃, h⟩
    · rw [if_neg hgate] at h
      exact ⟨w₂, h⟩
  obtain ⟨w₃, hrest⟩ := hrest
  obtain ⟨response', w₄, hrun, hvalue, hflag⟩ := @storeFlagged_runOn hmac context key request body w₃
  obtain rfl := (Prod.mk.inj (hrun.symm.trans hrest)).2
  exact ⟨hvalue, hflag⟩

end Write

section Sent

variable {hmac : Hmac} {client : Stra2usClient} {ts : Int} {sent : HttpRequest}

theorem request_headers {method uri : Text} {body : Bytes} {contentType : Option Text}
    {extraHeaders : List (Text × Text)}
    (h : client.request hmac method uri body contentType extraHeaders ts = .ok sent) :
    ∃ tsText sig, sent.headers = [("x-client-id".toList, client.clientId),
      ("x-timestamp".toList, tsText), ("x-signature".toList, sig)] ++
        (contentType.map fun ct => ("content-type".toList, ct)).toList ++ extraHeaders := by
  unfold Stra2usClient.request at h
  cases hsign : client.sign hmac uri body ts with
  | error exn =>
      rw [hsign] at h
      cases h
  | ok sig =>
      cases hts : strInt ts with
      | error exn =>
          rw [hsign, hts] at h
          cases h
      | ok tsText =>
          rw [hsign, hts] at h
          exact ⟨tsText, sig, by rw [← Except.ok.inj h]⟩

-- A put is sent as MessagePack, with the header when it is to be encrypted.
theorem put_sent {key : Text} {value : Value} {encrypted : Bool}
    (h : client.putRequest hmac key value encrypted ts = .ok sent) {request : Request}
    (hheaders : request.headers = sent.headers) :
    packOrRaise value = .ok sent.body ∧
      request.header? "content-type".toList = some msgpackMt ∧
      decide (request.header? "x-encrypted".toList = some "1".toList) = encrypted := by
  unfold Stra2usClient.putRequest at h
  cases hpack : packOrRaise value with
  | error exn =>
      rw [hpack] at h
      cases h
  | ok body =>
      rw [hpack] at h
      change client.request hmac "POST".toList (Stra2usClient.kvUri key) body (some msgpackMt)
        (if encrypted then [("x-encrypted".toList, "1".toList)] else []) ts = .ok sent at h
      obtain ⟨-, -, -, hbody⟩ := Stra2usClient.request_signs h
      obtain ⟨tsText, sig, hsent⟩ := request_headers h
      rw [hsent] at hheaders
      refine ⟨by rw [hbody], ?_, ?_⟩
      · rw [Request.header?, hheaders]
        rfl
      · rw [Request.header?, hheaders]
        cases encrypted with
        | true => rfl
        | false => rfl

end Sent

section Agreement

variable {hmac : Hmac} {gate : Gate} {client : Stra2usClient} {cat : Catalog}
  {target name raw : Text} {ask : Stra2usClient.Ask} {w w' : World}

-- `stra2us set` went through: the server has taken the write it asked for.
def SetStores (hmac : Hmac) (gate : Gate) (client : Stra2usClient) (cat : Catalog)
    (target name raw : Text) (ask : Stra2usClient.Ask) (w w' : World) : Prop :=
  cmdSet cat target name (some raw) false = .ok ask ∧
    ∃ ts sent context request response, ask.request hmac client ts = .ok sent ∧
      request.headers = sent.headers ∧ request.body = sent.body ∧
      (writeKv hmac gate context ask.name request).runOn w = (.ok response, w')

theorem stored_of_set (h : SetStores hmac gate client cat target name raw ask w w') :
    ∃ var v, cat.vars.get? name = some var ∧ coerceValue var raw name = .ok v ∧
      ask.name = kvPath cat.app name (parseTarget target).2 ∧ Msgpack.isScalar v ∧
      stored w'.store ask.name = (some v, var.encrypted) := by
  obtain ⟨hset, ts, sent, context, request, response, hrequest, hheaders, hbody, hwrite⟩ := h
  obtain ⟨var, v, hvar, hcoerce, rfl⟩ := cmdSet_ok hset
  obtain ⟨hpack, hct, henc⟩ := put_sent hrequest hheaders
  obtain ⟨body, hstored, hvalue, hflag⟩ := writeKv_stores hwrite
  have hscalar := isScalar_of_coerceValue hcoerce
  refine ⟨var, v, hvar, hcoerce, rfl, hscalar, ?_⟩
  have hread : Msgpack.unpackb false sent.body = some v := by
    unfold packOrRaise at hpack
    split at hpack
    · rename_i bytes hbytes
      rw [← Except.ok.inj hpack]
      exact Msgpack.unpackb_scalar hscalar hbytes
    · cases hpack
  rw [stored, hvalue, hflag, henc, storedBody_msgpack hct hstored, hbody]
  exact congrArg (·, var.encrypted) hread

theorem unpackb_packField {site : Site} {packed : Bytes} {v : Value}
    (hpack : packField site raw = .ok packed) (hscalar : Msgpack.isScalar v) :
    Msgpack.unpackb false packed = some v ↔ decodeFormValue site raw = .ok v := by
  unfold packField at hpack
  cases hdecode : decodeFormValue site raw with
  | error exn =>
      rw [hdecode] at hpack
      cases hpack
  | ok decoded =>
      rw [hdecode] at hpack
      change packOrRaise decoded = .ok packed at hpack
      unfold packOrRaise at hpack
      split at hpack
      · rename_i bytes hbytes
        obtain rfl := Except.ok.inj hpack
        constructor
        · intro hread
          rw [Msgpack.eq_of_unpackb_scalar hbytes hread hscalar]
        · intro heq
          obtain rfl := Except.ok.inj heq
          exact Msgpack.unpackb_scalar hscalar hbytes
      · cases hpack

theorem isFieldName_of_isVarName {name : Text} (h : isVarName name) : isFieldName name := by
  refine ⟨?_, ?_, ?_⟩
  · rintro rfl
    cases h
  · intro hmem
    exact absurd (mem_varName h hmem) (by decide)
  · intro hmem
    exact absurd (mem_varName h hmem) (by decide)

-- The form was taken and has left the record that the command line left.
def FormAgrees (site : Site) (username : Text) (cat : Catalog) (device name : Text)
    (form : List (Text × Text)) (ask : Stra2usClient.Ask) (w w' : World) : Prop :=
  ask.name = fieldKey cat.app device name ∧
    ∃ answer w'', (submitDeviceForm site username cat.app device form).runOn w =
      (.ok answer, w'') ∧ stored w''.store ask.name = stored w'.store ask.name

-- Put together: the two write paths agree on a variable when its device is not named like
-- the application scope, its text is JSON of its type, the stashed document declares its
-- flag as the validated catalog does, and every field posted with it goes through.
theorem form_agrees_with_set_iff {site : Site} {username device : Text} {var : Var}
    {before after : List (Text × Text)} {catalog : Option (List (Value × Value))}
    (hvar : cat.vars.get? name = some var)
    (hset : SetStores hmac gate client cat device name raw ask w w')
    (hmay : MaySubmit site username cat.app device w)
    (hcatalog : (loadCatalogDict site cat.app).runOn w = (.ok catalog, w))
    (hnames : ∀ field ∈ before ++ (name, raw) :: after, isVarName field.1)
    (hothers : ∀ field ∈ before ++ after, field.1 ≠ name) :
    FormAgrees site username cat device name (before ++ (name, raw) :: after) ask w w' ↔
      device ≠ appScopeKeyword ∧ ReadsAlike site.jsonDepth var.type raw ∧
        fieldFlag (catalogVars catalog) name
          (w.store.get (encKey (fieldKey cat.app device name))) = var.encrypted ∧
        ∀ field ∈ before ++ (name, raw) :: after, GoesThrough site field.2 := by
  obtain ⟨var', v, hvar', hcoerce, hname, hscalar, hstored⟩ := stored_of_set hset
  obtain rfl := Option.some.inj (hvar.symm.trans hvar')
  have hfields : ∀ field ∈ before ++ (name, raw) :: after, isFieldName field.1 :=
    fun field hf => isFieldName_of_isVarName (hnames field hf)
  have hrun := @submitDeviceForm_runOn site username cat.app device
    (before ++ (name, raw) :: after) w catalog hmay hcatalog
  unfold FormAgrees
  rw [hname, kvPath_target, hrun, ← hname, hstored]
  refine and_congr_right fun hdevice => ?_
  have hkey : ask.name = fieldKey cat.app device name :=
    hname.trans ((kvPath_target cat.app device name).mpr hdevice)
  rw [hkey]
  -- a form that is answered has stored all of its fields
  have hwritten : (∃ answer w'', (writeFields site (catalogVars catalog) cat.app device
        (before ++ (name, raw) :: after) >>= fun _ =>
          pure ("/app/".toList ++ cat.app ++ '/' :: device)).runOn w = (.ok answer, w'') ∧
        stored w''.store (fieldKey cat.app device name) = (some v, var.encrypted)) ↔
      ∃ w'', (writeFields site (catalogVars catalog) cat.app device
        (before ++ (name, raw) :: after)).runOn w = (.ok (), w'') ∧
        stored w''.store (fieldKey cat.app device name) = (some v, var.encrypted) := by
    constructor
    · rintro ⟨answer, w'', h, hsame⟩
      obtain ⟨_, w₁, hfields, hpure⟩ := Handler.runOn_bind_ok.mp h
      obtain rfl := (Prod.mk.inj hpure).2
      exact ⟨w₁, hfields, hsame⟩
    · rintro ⟨w'', h, hsame⟩
      exact ⟨_, w'', Handler.runOn_bind_ok.mpr ⟨(), w'', h, rfl⟩, hsame⟩
  rw [hwritten, ← decodeFormValue_coerced hcoerce]
  constructor
  · rintro ⟨w'', h, hsame⟩
    obtain ⟨packed, hpack, hleft⟩ := writeFields_stores hfields hothers h
    rw [hleft] at hsame
    obtain ⟨hread, hflag⟩ := Prod.mk.inj hsame
    exact ⟨(unpackb_packField hpack hscalar).mp hread, hflag, (writeFields_ok hfields w).mp ⟨w'', h⟩⟩
  · rintro ⟨hread, hflag, hthrough⟩
    obtain ⟨w'', h⟩ := (@writeFields_ok site (catalogVars catalog) cat.app device _ hfields w).mpr hthrough
    obtain ⟨packed, hpack, hleft⟩ := writeFields_stores hfields hothers h
    refine ⟨w'', h, ?_⟩
    rw [hleft, hflag, (unpackb_packField hpack hscalar).mpr hread]

end Agreement

section Small

def titleCatalog (type : VarType) : Catalog :=
  ⟨['l'], .ofList [(['n'], ⟨type, [.device], none, [], false⟩)]⟩

def formSite : Site :=
  { Site.small with rescueUsers := [['r']] }

theorem maySubmit_knowing : MaySubmit formSite ['r'] ['l'] ['d'] World.knowing :=
  ⟨rescueAcl, rfl, by decide⟩

theorem padded_five : ReadsAlike 8 .int ['5'] :=
  ⟨['5'], 5, ⟨[], [], by simp, by simp, rfl⟩,
    .numeral ⟨false, ['5'], [], [], by decide, by simp, by simp⟩ (by decide) (by decide)⟩

theorem five_goesThrough : GoesThrough formSite ['5'] := by
  have hdecode : decodeFormValue formSite ['5'] = .ok (.int 5) := rfl
  obtain ⟨packed, hpack⟩ : ∃ packed, packOrRaise (.int 5) = .ok packed := ⟨_, rfl⟩
  refine ⟨packed, ?_⟩
  rw [packField, hdecode]
  exact hpack

-- A whole number is stored alike.
theorem five_agrees :
    ∃ ask w', SetStores marking (fun _ => .ok ()) Stra2usClient.small (titleCatalog .int) ['d']
        ['n'] ['5'] ask World.knowing w' ∧
      FormAgrees formSite ['r'] (titleCatalog .int) ['d'] ['n'] [(['n'], ['5'])] ask
        World.knowing w' := by
  obtain ⟨w', hset⟩ : ∃ w', SetStores marking (fun _ => .ok ()) Stra2usClient.small
      (titleCatalog .int) ['d'] ['n'] ['5'] (.put ['l', '/', 'd', '/', 'n'] (.int 5) false)
      World.knowing w' :=
    ⟨_, rfl, 100, _, Context.small, ⟨[], [], _, _⟩, _, rfl, rfl, rfl, rfl⟩
  refine ⟨_, w', hset, ?_⟩
  refine (@form_agrees_with_set_iff _ _ _ _ _ _ _ _ _ formSite ['r'] ['d']
    ⟨.int, [.device], none, [], false⟩ [] [] none rfl hset maySubmit_knowing rfl ?_
    (by simp)).mpr ⟨by decide, padded_five, rfl, ?_⟩
  · intro field hfield
    obtain rfl := List.mem_singleton.mp hfield
    decide
  · intro field hfield
    obtain rfl := List.mem_singleton.mp hfield
    exact five_goesThrough

-- A string of digits is a string for the command line and a number for the form.
theorem digits_disagree :
    ∃ ask w', SetStores marking (fun _ => .ok ()) Stra2usClient.small (titleCatalog .string) ['d']
        ['n'] ['5'] ask World.knowing w' ∧ MaySubmit formSite ['r'] ['l'] ['d'] World.knowing ∧
      ¬ FormAgrees formSite ['r'] (titleCatalog .string) ['d'] ['n'] [(['n'], ['5'])] ask
        World.knowing w' := by
  obtain ⟨w', hset⟩ : ∃ w', SetStores marking (fun _ => .ok ()) Stra2usClient.small
      (titleCatalog .string) ['d'] ['n'] ['5'] (.put ['l', '/', 'd', '/', 'n'] (.str ['5']) false)
      World.knowing w' :=
    ⟨_, rfl, 100, _, Context.small, ⟨[], [], _, _⟩, _, rfl, rfl, rfl, rfl⟩
  refine ⟨_, w', hset, maySubmit_knowing, ?_⟩
  rintro ⟨-, answer, w'', hform, hsame⟩
  obtain ⟨w₁, hrun, hleft⟩ : ∃ w₁, (submitDeviceForm formSite ['r'] ['l'] ['d']
      [(['n'], ['5'])]).runOn World.knowing = (.ok "/app/l/d".toList, w₁) ∧
        stored w₁.store ['l', '/', 'd', '/', 'n'] = (some (.int 5), false) := ⟨_, rfl, rfl⟩
  obtain ⟨_, _, hvar, hcoerce, -, -, hset'⟩ := stored_of_set hset
  obtain rfl := (Prod.mk.inj (hrun.symm.trans hform)).2
  change stored w₁.store ['l', '/', 'd', '/', 'n'] = _ at hsame
  rw [hset', hleft] at hsame
  obtain rfl : _ = _ := Option.some.inj hvar
  have hv := Option.some.inj (Prod.mk.inj hsame).1
  subst hv
  cases hcoerce

end Small

end Stra2us.Client
