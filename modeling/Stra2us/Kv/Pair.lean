import Stra2us.Server.Trace

namespace Stra2us.Kv

open Foundation Server

-- A record as the store keeps it: the value, and beside it the flag that says it is
-- to be served encrypted.
structure Pair where
  value : Option Bytes
  flag : Option Bytes
deriving DecidableEq

def pairOf (key : Text) (store : Store) : Pair :=
  ⟨store.get (kvKey key), store.get (encKey key)⟩

def flagOn : Bytes := utf8 "1".toList

-- How far a request has come with the two records of one key. A form carries the
-- catalog record it has read.
inductive Phase
  | idle (catalog : Option (Option Bytes))
  | wrote (catalog : Option (Option Bytes)) (value : Bytes)
  | kept (catalog : Option (Option Bytes)) (value : Bytes)
  | asked
  | missing
  | read (value : Bytes)
  | seen (value : Bytes) (flag : Option Bytes)
deriving DecidableEq

namespace Phase

-- The value is stored and the flag is not yet.
def halfWritten : Phase → Bool
  | .wrote _ _ => true
  | .kept _ _ => true
  | _ => false

-- The value has been read and the flag has not yet.
def halfRead : Phase → Bool
  | .read _ => true
  | _ => false

-- The catalog record that has been read, if any.
def catalog : Phase → Option (Option Bytes)
  | .idle catalog => catalog
  | .wrote catalog _ => catalog
  | .kept catalog _ => catalog
  | _ => none

def closed (phase : Phase) : Prop :=
  phase.halfWritten = false ∧ phase.halfRead = false

end Phase

-- A command that changes one of the two records.
def Changes (key : Text) (cmd : Cmd) : Prop :=
  cmd.overwrites (kvKey key) ∨ cmd.overwrites (encKey key)

-- One that changes or reads one of them.
def Touches (key : Text) (cmd : Cmd) : Prop :=
  Changes key cmd ∨ cmd = .get (kvKey key) ∨ cmd = .get (encKey key)

instance (key : Text) (cmd : Cmd) : Decidable (Changes key cmd) :=
  inferInstanceAs (Decidable (_ ∨ _))

instance (key : Text) (cmd : Cmd) : Decidable (Touches key cmd) :=
  inferInstanceAs (Decidable (_ ∨ _))

section Calls

variable (site : Site) (key : Text)

-- The record a form reads its catalog from.
def catalogRecord : Call → Option Text
  | .submitForm _ app _ _ => some (catalogKey app)
  | _ => none

-- The request is to store this value with this flag, or with the flag it finds.
def Plans (call : Call) (catalog : Option (Option Bytes)) (value : Bytes) (flag : Option Bool) :
    Prop :=
  match call with
  | .writeKv _ k request =>
      k = key ∧ storedBody request = .ok value ∧
        flag = some (decide (request.header? "x-encrypted".toList = some "1".toList))
  | .setKv _ k payload =>
      k = key ∧ (∃ data, coerceJson site payload.value = .ok data ∧ packOrRaise data = .ok value) ∧
        flag = some payload.encrypted
  | .submitForm _ app device form =>
      ∃ field ∈ form, fieldKey app device field.1 = key ∧
        (∃ data, decodeFormValue site field.2 = .ok data ∧ packOrRaise data = .ok value) ∧
        ∃ record vars, catalog = some record ∧ catalogOfRecord site record = .ok vars ∧
          flag = declaredEncrypted (catalogVars vars) field.1
  | _ => False

def Deletes : Call → Prop
  | .deleteKv _ k _ => k = key
  | .adminDeleteKv _ k => k = key
  | _ => False

def start : Call → Phase
  | .readKv _ k _ => if k = key then .asked else .idle none
  | _ => .idle none

def next (call : Call) : Phase → (cmd : Cmd) → Reply cmd → Phase
  | .idle none, .get k, reply =>
      if catalogRecord call = some k then .idle (some reply) else .idle none
  | .idle catalog, .set k value, _ => if k = kvKey key then .wrote catalog value else .idle catalog
  | .wrote catalog _, .set _ _, _ => .idle catalog
  | .wrote catalog _, .delete _, _ => .idle catalog
  | .wrote catalog value, .get _, reply =>
      if truthy reply then .kept catalog value else .idle catalog
  | .kept catalog _, .set _ _, _ => .idle catalog
  | .asked, .get k, reply =>
      if k = kvKey key then
        match reply with
        | none => .missing
        | some value => .read value
      else .asked
  | .read value, .get k, reply => if k = encKey key then .seen value reply else .read value
  | phase, _, _ => phase

def may (call : Call) : Phase → Cmd → Prop
  | .idle _, cmd =>
      ¬ Changes key cmd ∨ (∃ value, cmd = .set (kvKey key) value) ∨
        Deletes key call ∧ cmd = .delete [kvKey key, encKey key]
  | .wrote catalog value, cmd =>
      (cmd = .set (encKey key) flagOn ∧ Plans site key call catalog value (some true)) ∨
        (cmd = .delete [encKey key] ∧ Plans site key call catalog value (some false)) ∨
        (cmd = .get (encKey key) ∧ Plans site key call catalog value none)
  | .kept catalog value, cmd =>
      cmd = .set (encKey key) flagOn ∧ Plans site key call catalog value none
  | _, cmd => ¬ Changes key cmd

def conduct (call : Call) : Conduct Cmd Reply Phase :=
  ⟨next key call, may site key call⟩

def Elsewhere (k : Text) : Prop :=
  k ≠ kvKey key ∧ k ≠ encKey key

-- A form may have fields of several keys.
def About : Call → Prop
  | .writeKv _ k _ => k = key
  | .readKv _ k _ => k = key
  | .deleteKv _ k _ => k = key
  | .setKv _ k _ => k = key
  | .adminDeleteKv _ k => k = key
  | .submitForm _ app device form => ∀ field ∈ form, fieldKey app device field.1 = key ∨
      Elsewhere key (kvKey (fieldKey app device field.1)) ∧
        Elsewhere key (encKey (fieldKey app device field.1))
  | _ => False

-- The request is about the key, or leaves its two records alone.
def Minds (call : Call) : Prop :=
  About key call ∨ ∀ k, call.overwrites k → Elsewhere key k

end Calls

section Obeys

open Handler

variable {site : Site} {key : Text} {call : Call} {catalog : Option (Option Bytes)}

theorem changes_set {k : Text} {value : Bytes} :
    Changes key (.set k value) ↔ k = kvKey key ∨ k = encKey key := Iff.rfl

theorem not_changes_of_only {cmd : Cmd} (h : OnlyOverwrites (Elsewhere key) cmd) :
    ¬ Changes key cmd := by
  intro hc
  rcases hc with hc | hc
  · exact (h.within _ hc).1 rfl
  · exact (h.within _ hc).2 rfl

-- What each command does to a request that is on its way, where it does anything.
section Steps

variable {value : Bytes} {k : Text} {reply : Option Bytes}

@[simp] theorem next_idle_set (done : Unit) :
    (conduct site key call).next (.idle catalog) (.set k value) done =
      if k = kvKey key then .wrote catalog value else .idle catalog := by
  cases catalog with
  | none => rfl
  | some record => rfl

@[simp] theorem next_idle_get : (conduct site key call).next (.idle none) (.get k) reply =
    if catalogRecord call = some k then .idle (some reply) else .idle none := rfl

@[simp] theorem next_wrote_get :
    (conduct site key call).next (.wrote catalog value) (.get k) reply =
      if truthy reply then .kept catalog value else .idle catalog := rfl

@[simp] theorem next_asked_get : (conduct site key call).next .asked (.get k) reply =
    if k = kvKey key then reply.elim .missing .read else .asked := by
  cases reply with
  | none => rfl
  | some value => rfl

@[simp] theorem next_read_get : (conduct site key call).next (.read value) (.get k) reply =
    if k = encKey key then .seen value reply else .read value := rfl

-- A request that has its answer stays where it is.
@[simp] theorem next_missing (cmd : Cmd) (reply : Reply cmd) :
    (conduct site key call).next .missing cmd reply = .missing := by
  cases cmd <;> rfl

@[simp] theorem next_seen {flag : Option Bytes} (cmd : Cmd) (reply : Reply cmd) :
    (conduct site key call).next (.seen value flag) cmd reply = .seen value flag := by
  cases cmd <;> rfl

end Steps

@[simp] theorem next_set_value (value : Bytes) (reply : Unit) :
    (conduct site key call).next (.idle catalog) (.set (kvKey key) value) reply =
      .wrote catalog value := by
  simp

-- Only a form that reads its catalog for the first time gets anywhere from idle
-- without changing the records.
theorem next_idle {cmd : Cmd} (h : ¬ Changes key cmd) (reply : Reply cmd) :
    ∃ c, (conduct site key call).next (.idle catalog) cmd reply = .idle c ∧
      (catalog.isSome ∨ catalogRecord call = none → c = catalog) := by
  cases cmd with
  | set k value =>
      have hk : k ≠ kvKey key := fun hk => h (Or.inl hk)
      refine ⟨catalog, ?_, fun _ => rfl⟩
      simp [hk]
  | get k =>
      cases catalog with
      | some record => exact ⟨some record, rfl, fun _ => rfl⟩
      | none =>
          by_cases hk : catalogRecord call = some k
          · refine ⟨some reply, by simp [hk], ?_⟩
            intro hc
            simp [hk] at hc
          · exact ⟨none, by simp [hk], fun _ => rfl⟩
  | _ => exact ⟨catalog, by cases catalog <;> rfl, fun _ => rfl⟩

-- A catalog is in hand only after the record was read.
theorem catalog_next (phase : Phase) (cmd : Cmd) (reply : Reply cmd) :
    ((conduct site key call).next phase cmd reply).catalog = phase.catalog ∨
      ∃ k record, catalogRecord call = some k ∧
        ((conduct site key call).next phase cmd reply).catalog = some record ∧
        ∀ thread, (⟨thread, cmd, reply⟩ : Event Cmd Reply) = ⟨thread, .get k, record⟩ := by
  cases phase with
  | idle catalog =>
      cases cmd with
      | get k =>
          cases catalog with
          | some record => exact Or.inl rfl
          | none =>
              by_cases hk : catalogRecord call = some k
              · exact Or.inr ⟨k, reply, hk, by simp [hk, Phase.catalog], fun _ => rfl⟩
              · exact Or.inl (by simp [hk])
      | set k value =>
          left
          by_cases hk : k = kvKey key <;> simp [hk, Phase.catalog]
      | _ => left; cases catalog <;> rfl
  | wrote catalog value =>
      left
      cases cmd with
      | get k => by_cases ht : truthy reply <;> simp [ht, Phase.catalog]
      | _ => rfl
  | kept catalog value =>
      left
      cases cmd <;> rfl
  | asked =>
      left
      cases cmd with
      | get k =>
          by_cases hk : k = kvKey key
          · cases reply <;> simp [hk, Phase.catalog]
          · simp [hk, Phase.catalog]
      | _ => rfl
  | read value =>
      left
      cases cmd with
      | get k => by_cases hk : k = encKey key <;> simp [hk, Phase.catalog]
      | _ => rfl
  | _ =>
      left
      cases cmd <;> rfl

theorem catalog_read {phase : Phase} (hphase : phase.catalog = none)
    (events : List (Event Cmd Reply)) {record : Option Bytes} {k : Text}
    (hrecord : ((conduct site key call).phase phase events).catalog = some record)
    (hk : catalogRecord call = some k) : ∃ thread, ⟨thread, .get k, record⟩ ∈ events := by
  induction events using List.reverseRecOn with
  | nil =>
      rw [Conduct.phase, List.foldl_nil, hphase] at hrecord
      cases hrecord
  | append_singleton events event ih =>
      rw [Conduct.phase_snoc] at hrecord
      rcases catalog_next ((conduct site key call).phase phase events) event.cmd event.reply with
        hsame | ⟨k', record', hk', hnew, hevent⟩
      · rw [hsame] at hrecord
        obtain ⟨thread, hmem⟩ := ih hrecord
        exact ⟨thread, List.mem_append_left _ hmem⟩
      · rw [hnew] at hrecord
        obtain rfl := Option.some.inj hrecord
        rw [hk] at hk'
        obtain rfl := Option.some.inj hk'
        exact ⟨event.thread, by rw [← hevent event.thread]; simp⟩

theorem idle_of_issues {α : Type} {handler : Handler α}
    (h : Handler.Issues (OnlyOverwrites (Elsewhere key)) handler) :
    Obeys (conduct site key call) (fun phase _ => ∃ c, phase = .idle c ∧
      (catalog.isSome ∨ catalogRecord call = none → c = catalog)) (.idle catalog) handler := by
  unfold Obeys
  unfold Handler.Issues at h
  generalize handler.run = p at h
  induction p generalizing catalog with
  | done value => exact ⟨catalog, rfl, fun _ => rfl⟩
  | call cmd rest ih =>
      have hquiet := not_changes_of_only h.1
      refine ⟨Or.inl hquiet, ?_⟩
      intro reply
      obtain ⟨c, hc, hkeep⟩ : ∃ c, (conduct site key call).next (.idle catalog) cmd reply = .idle c ∧
          (catalog.isSome ∨ catalogRecord call = none → c = catalog) := next_idle hquiet reply
      rw [hc]
      refine (ih reply (h.2 reply)).mono ?_
      rintro phase value ⟨c', rfl, hc'⟩
      refine ⟨c', rfl, ?_⟩
      intro hcase
      obtain rfl := hkeep hcase
      exact hc' hcase

theorem closed_idle : (Phase.idle catalog).closed := ⟨rfl, rfl⟩

-- The rest of a request that has done with the two records.
theorem closes_of_issues {α : Type} {handler : Handler α}
    (h : Handler.Issues (OnlyOverwrites (Elsewhere key)) handler) :
    Obeys (conduct site key call) (fun phase _ => phase.closed) (.idle catalog) handler := by
  refine Prog.Obeys.mono (idle_of_issues h) ?_
  rintro phase value ⟨c, rfl, -⟩
  exact closed_idle

-- The request ends with the two records belonging together.
def Closes {α : Type} (site : Site) (key : Text) (call : Call) (phase : Phase)
    (handler : Handler α) : Prop :=
  Obeys (conduct site key call) (fun phase _ => phase.closed) phase handler

theorem closes_map {α β : Type} {phase : Phase} {handler : Handler α} {f : α → β}
    (h : Closes site key call phase handler) : Closes site key call phase (f <$> handler) := by
  apply obeys_bind
  refine Prog.Obeys.mono h ?_
  intro phase result hclosed
  cases result with
  | ok value => exact hclosed
  | error exn => exact hclosed

-- Storing the flag of a value just written, as both write paths do it.
theorem setFlag_closes {α : Type} {value : Bytes} {encrypted : Bool} {f : Unit → Handler α}
    (hplan : Plans site key call catalog value (some encrypted))
    (hf : ∀ reply, Closes site key call (.idle catalog) (f reply)) :
    Closes site key call (.wrote catalog value) (setFlag key encrypted >>= f) := by
  cases encrypted with
  | true => exact obeys_ask_bind (Or.inl ⟨rfl, hplan⟩) hf
  | false => exact obeys_ask_bind (Or.inr (Or.inl ⟨rfl, hplan⟩)) hf

theorem writeKv_closes (context : Context) (request : Request) :
    Closes site key (.writeKv context key request) (.idle none)
      (writeKv site.hmac site.gate context key request) := by
  refine obeys_ofExcept_bind (fun _ _ => ?_) fun _ => closed_idle
  refine obeys_ofExcept_bind (fun body hbody => ?_) fun _ => closed_idle
  have hanswer : ∀ reply : Unit, Closes site key (.writeKv context key request) (.idle none)
      (signedMsgpack site.hmac context request (statusValue "ok".toList)) :=
    fun _ => closes_of_issues (signedMsgpack_issues site.hmac context request _)
  have hrest : Closes site key (.writeKv context key request) (.idle none) (do
      Handler.set (kvKey key) body
      if request.header? "x-encrypted".toList = some "1".toList then
        Handler.set (encKey key) (utf8 "1".toList)
      else
        Handler.delete [encKey key]
      signedMsgpack site.hmac context request (statusValue "ok".toList)) := by
    refine obeys_ask_bind (Or.inr (Or.inl ⟨body, rfl⟩)) fun reply => ?_
    rw [next_set_value]
    by_cases hx : request.header? "x-encrypted".toList = some "1".toList
    · rw [if_pos hx]
      exact obeys_ask_bind (Or.inl ⟨rfl, rfl, hbody, by rw [decide_eq_true hx]⟩) hanswer
    · rw [if_neg hx]
      exact obeys_ask_bind (Or.inr (Or.inl ⟨rfl, rfl, hbody, by rw [decide_eq_false hx]⟩)) hanswer
  by_cases hc : isCatalogYamlKey key ∧ body ≠ []
  · simp only [hc, ne_eq, not_false_eq_true, and_self, ite_true]
    exact obeys_ofExcept_bind (fun _ _ => hrest) fun _ => closed_idle
  · simp only [hc, ite_false]
    exact hrest

-- Whoever is let in, nothing has been touched yet.
theorem requireAdmin_closes {α : Type} {username : Text} {mode : Mode} {path : Text}
    {f : Unit → Handler α} (hcatalog : catalogRecord call = none)
    (hf : Closes site key call (.idle none) (f ())) :
    Closes site key call (.idle none)
      (requireAdminKv site.jsonDepth site.rescueUsers username path mode >>= f) := by
  apply obeys_bind
  refine Prog.Obeys.mono (idle_of_issues (requireAdminKv_issues site username path mode)) ?_
  rintro phase result ⟨c, rfl, hc⟩
  obtain rfl := hc (Or.inr hcatalog)
  cases result with
  | ok value => exact hf
  | error exn => exact closed_idle

theorem setKv_closes (username : Text) (payload : KvPayload) :
    Closes site key (.setKv username key payload) (.idle none) (setKv site username key payload) := by
  refine requireAdmin_closes rfl ?_
  refine obeys_ofExcept_bind (fun data hdata => ?_) fun _ => closed_idle
  refine obeys_ofExcept_bind (fun packed hpacked => ?_) fun _ => closed_idle
  refine obeys_ask_bind (Or.inr (Or.inl ⟨packed, rfl⟩)) fun reply => ?_
  rw [next_set_value]
  have hplan : Plans site key (.setKv username key payload) none packed (some payload.encrypted) :=
    ⟨rfl, ⟨data, hdata, hpacked⟩, rfl⟩
  have hset : Closes site key (.setKv username key payload) (.wrote none packed)
      (setFlag key payload.encrypted >>= fun _ => pure ()) :=
    setFlag_closes hplan fun _ => closed_idle
  rw [bind_pure_unit] at hset
  exact hset

theorem delete_closes {α : Type} {f : Unit → Handler α} (hdelete : Deletes key call)
    (hf : ∀ reply, Closes site key call (.idle none) (f reply)) :
    Closes site key call (.idle none) (Handler.delete [kvKey key, encKey key] >>= f) :=
  obeys_ask_bind (Or.inr (Or.inr ⟨hdelete, rfl⟩)) hf

theorem deleteKv_closes (context : Context) (request : Request) :
    Closes site key (.deleteKv context key request) (.idle none)
      (deleteKv site.hmac context key request) := by
  refine obeys_ofExcept_bind (fun _ _ => ?_) fun _ => closed_idle
  exact delete_closes rfl fun _ =>
    closes_of_issues (signedMsgpack_issues site.hmac context request _)

theorem adminDeleteKv_closes (username : Text) :
    Closes site key (.adminDeleteKv username key) (.idle none) (adminDeleteKv site username key) := by
  refine requireAdmin_closes rfl ?_
  have hdelete : Closes site key (.adminDeleteKv username key) (.idle none)
      (Handler.delete [kvKey key, encKey key] >>= fun _ => pure ()) :=
    delete_closes rfl fun _ => closed_idle
  rw [bind_pure_unit] at hdelete
  exact hdelete

-- A read that has what it came for changes nothing any more.
theorem closes_of_resting {α : Type} {handler : Handler α} {phase : Phase}
    (hmay : ∀ cmd, ¬ Changes key cmd → (conduct site key call).may phase cmd)
    (hnext : ∀ cmd reply, (conduct site key call).next phase cmd reply = phase)
    (hclosed : phase.closed) (h : Handler.Issues (OnlyOverwrites (Elsewhere key)) handler) :
    Closes site key call phase handler := by
  refine Prog.Obeys.mono (Prog.Issues.obeys h
    (fun cmd hcmd => hmay cmd (not_changes_of_only hcmd)) fun cmd reply _ => hnext cmd reply) ?_
  rintro ended result rfl
  exact hclosed

theorem not_changes_get (k : Text) : ¬ Changes key (.get k) := by
  rintro (h | h) <;> exact h

theorem readKv_closes (context : Context) (request : Request) :
    Closes site key (.readKv context key request) .asked (readKv site.hmac context key request) := by
  refine obeys_ofExcept_bind (fun _ _ => ?_) fun _ => ⟨rfl, rfl⟩
  refine obeys_ask_bind (not_changes_get _) fun reply => ?_
  cases reply with
  | none =>
      have hphase : (conduct site key (.readKv context key request)).next .asked
          (.get (kvKey key)) none = .missing := by simp
      rw [hphase]
      exact closes_of_resting (fun _ h => h) (fun _ _ => rfl) ⟨rfl, rfl⟩
        (signedMsgpack_issues site.hmac context request _)
  | some value =>
      have hphase : (conduct site key (.readKv context key request)).next .asked
          (.get (kvKey key)) (some value) = .read value := by simp
      rw [hphase]
      refine obeys_ask_bind (not_changes_get _) fun flag => ?_
      have hseen : (conduct site key (.readKv context key request)).next (.read value)
          (.get (encKey key)) flag = .seen value flag := by simp
      rw [hseen]
      refine closes_of_resting (fun _ h => h) (fun _ _ => rfl) ⟨rfl, rfl⟩ ?_
      by_cases hf : truthy flag
      · simp only [hf, ite_true]
        refine issues_bind (issues_ofExcept _) fun plaintext => ?_
        exact issues_bind (nextKvencNonce_issues _) fun _ => issues_ofExcept _
      · simp only [hf]
        exact signedResponse_issues site.hmac context request _ _

-- A field of the key comes with the catalog that was read before it.
theorem writeField_closes {α : Type} {vars : Option (List (Value × Value))}
    {app device name raw : Text} {record : Option Bytes} {f : Unit → Handler α}
    (hkey : fieldKey app device name = key)
    (hplan : ∀ data packed, decodeFormValue site raw = .ok data → packOrRaise data = .ok packed →
      Plans site key call (some record) packed (declaredEncrypted (catalogVars vars) name))
    (hf : Closes site key call (.idle (some record)) (f ())) :
    Closes site key call (.idle (some record))
      (writeField site (catalogVars vars) app device name raw >>= f) := by
  unfold writeField
  simp only [bind_assoc]
  refine obeys_ofExcept_bind (fun data hdata => ?_) fun _ => closed_idle
  refine obeys_ofExcept_bind (fun packed hpacked => ?_) fun _ => closed_idle
  have hp := hplan data packed hdata hpacked
  rw [hkey]
  refine obeys_ask_bind (Or.inr (Or.inl ⟨packed, rfl⟩)) fun reply => ?_
  rw [next_set_value]
  cases hdeclared : declaredEncrypted (catalogVars vars) name with
  | some encrypted =>
      rw [hdeclared] at hp
      exact setFlag_closes hp fun _ => hf
  | none =>
      rw [hdeclared] at hp
      simp only [bind_assoc]
      refine obeys_ask_bind (Or.inr (Or.inr ⟨rfl, hp⟩)) fun flag => ?_
      by_cases ht : truthy flag
      · have hphase : (conduct site key call).next (.wrote (some record) packed)
            (.get (encKey key)) flag = .kept (some record) packed := by simp [ht]
        rw [hphase, if_pos ht]
        exact obeys_ask_bind ⟨rfl, hp⟩ fun _ => hf
      · have hphase : (conduct site key call).next (.wrote (some record) packed)
            (.get (encKey key)) flag = .idle (some record) := by simp [ht]
        rw [hphase, if_neg ht]
        exact hf

theorem writeFields_closes {username app device : Text} {form : List (Text × Text)}
    {vars : Option (List (Value × Value))} {record : Option Bytes}
    (habout : About key (.submitForm username app device form))
    (hcatalog : catalogOfRecord site record = .ok vars) (fields : List (Text × Text))
    (hfields : ∀ field ∈ fields, field ∈ form) :
    Closes site key (.submitForm username app device form) (.idle (some record))
      (writeFields site (catalogVars vars) app device fields) := by
  induction fields with
  | nil => exact closed_idle
  | cons field rest ih =>
      have hrest := ih fun f hf => hfields f (List.mem_cons_of_mem _ hf)
      have hmem : field ∈ form := hfields field (by simp)
      obtain ⟨name, raw⟩ := field
      unfold writeFields
      by_cases hskip : name = [] ∨ '/' ∈ name
      · rw [if_pos hskip]
        exact hrest
      · rw [if_neg hskip]
        rcases habout _ hmem with hkey | ⟨hvalue, hflag⟩
        · refine writeField_closes hkey ?_ hrest
          intro data packed hdata hpacked
          exact ⟨(name, raw), hmem, hkey, ⟨data, hdata, hpacked⟩, record, vars, rfl, hcatalog, rfl⟩
        · -- a field of another key
          apply obeys_bind
          refine Prog.Obeys.mono
            (idle_of_issues (writeField_issues site _ app device name raw hvalue hflag)) ?_
          rintro phase result ⟨c, rfl, hc⟩
          obtain rfl := hc (Or.inl rfl)
          cases result with
          | ok value => exact hrest
          | error exn => exact closed_idle

theorem submitForm_closes {username app device : Text} {form : List (Text × Text)}
    (habout : About key (.submitForm username app device form)) :
    Closes site key (.submitForm username app device form) (.idle none)
      (submitDeviceForm site username app device form) := by
  have hquiet : (conduct site key (.submitForm username app device form)).next (.idle none)
      (.get (adminAclKey username)) = fun _ => .idle none := by
    have hne : catalogKey app ≠ adminAclKey username := by
      rw [catalogKey, kvKey_eq, adminAclKey_eq]
      simp
    funext reply
    simp [catalogRecord, hne]
  have hissues : Handler.Issues (fun cmd => cmd = .get (adminAclKey username))
      (getAdminContext site.jsonDepth site.rescueUsers username) :=
    getAdminContext_issues site username rfl
  apply obeys_bind
  refine Prog.Obeys.mono (Prog.Issues.obeys hissues ?_ ?_) ?_
  · rintro cmd rfl
    exact Or.inl (not_changes_get _)
  · rintro cmd reply rfl
    exact congrFun hquiet reply
  rintro phase result rfl
  cases result with
  | error exn => exact closed_idle
  | ok acl =>
      dsimp only [continues]
      cases checkAcl acl ("kv/".toList ++ app ++ '/' :: device) .write with
      | error exn =>
          cases exn with
          | http status detail => exact closed_idle
          | python name => exact closed_idle
          | outOfFuel => exact closed_idle
      | ok _ =>
          simp only [loadCatalogDict, bind_assoc]
          refine obeys_ask_bind (Or.inl (not_changes_get _)) fun record => ?_
          have hphase : (conduct site key (.submitForm username app device form)).next
              (.idle none) (.get (catalogKey app)) record = .idle (some record) := by
            simp [catalogRecord]
          rw [hphase]
          refine obeys_ofExcept_bind (fun vars hvars => ?_) fun _ => closed_idle
          exact closes_map (writeFields_closes habout hvars form fun _ h => h)

-- Every request, on the key or elsewhere, keeps to the conduct.
theorem program_closes (h : Minds key call) :
    (call.program site).Obeys (conduct site key call) (fun phase _ => phase.closed)
      (start key call) := by
  change Closes site key call (start key call) (call.handler site)
  rcases h with habout | helsewhere
  · cases call with
    | writeKv context k request =>
        obtain rfl : k = key := habout
        exact closes_map (writeKv_closes context request)
    | readKv context k request =>
        obtain rfl : k = key := habout
        rw [start, if_pos rfl]
        exact closes_map (readKv_closes context request)
    | deleteKv context k request =>
        obtain rfl : k = key := habout
        exact closes_map (deleteKv_closes context request)
    | setKv username k payload =>
        obtain rfl : k = key := habout
        exact closes_map (setKv_closes username payload)
    | adminDeleteKv username k =>
        obtain rfl : k = key := habout
        exact closes_map (adminDeleteKv_closes username)
    | submitForm username app device form =>
        exact closes_map (submitForm_closes habout)
    | _ => exact habout.elim
  · have hissues : (call.handler site).Issues (OnlyOverwrites (Elsewhere key)) := by
      refine (Call.issues site call).mono ?_
      intro cmd hcmd
      exact ⟨fun k hk => helsewhere k (hcmd.within k hk), hcmd.nonce⟩
    by_cases hread : start key call = .idle none
    · rw [hread]
      exact closes_of_issues hissues
    · cases call with
      | readKv context k request =>
          by_cases hk : k = key
          · subst hk
            rw [start, if_pos rfl]
            exact closes_map (readKv_closes context request)
          · rw [start, if_neg hk] at hread
            exact absurd rfl hread
      | _ => exact absurd rfl hread

end Obeys

end Stra2us.Kv
