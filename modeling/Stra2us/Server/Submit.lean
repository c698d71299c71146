import Stra2us.Kv.Frame
import Stra2us.Server.Sequential

namespace Stra2us.Server

open Foundation

section Frame

variable {α : Type} {keys : Text → Prop} {key : Text}

theorem get_of_onlyOverwrites {cmd : Cmd} {w : World} (h : OnlyOverwrites keys cmd)
    (hkeys : ¬ keys key) (hnonce : ∀ clientId, key ≠ nonceKey clientId) :
    (exec cmd w).2.store.get key = w.store.get key := by
  cases cmd with
  | set k value =>
      apply Store.get_set_of_ne
      rintro rfl
      exact hkeys (h.within _ rfl)
  | delete ks =>
      have hnot : key ∉ ks := fun hmem => hkeys (h.within _ hmem)
      change (w.store.delete ks).get key = _
      rw [Store.get_delete, if_neg hnot]
  | xadd k fields => exact Store.get_xadd _ _ _ _ _
  | expire k seconds => exact Store.get_expire _ _ _ _
  | kvencNonce k now =>
      obtain ⟨clientId, rfl⟩ := h.nonce
      change (kvencNonceLua w.store (nonceKey clientId) now).2.get key = _
      unfold kvencNonceLua
      split
      · rfl
      · exact Store.get_set_of_ne _ (hnonce clientId) _
  | _ => rfl

-- A handler leaves the keys it cannot overwrite as they are.
theorem Handler.get_of_issues {handler : Handler α} (h : handler.Issues (OnlyOverwrites keys))
    (hkeys : ¬ keys key) (hnonce : ∀ clientId, key ≠ nonceKey clientId) (w : World) :
    (handler.runOn w).2.store.get key = w.store.get key := by
  apply Prog.Issues.run (fun before after : World => after.store.get key = before.store.get key) h
  · intro world
    rfl
  · intro a b c hab hbc
    exact hbc.trans hab
  · intro cmd world hcmd
    exact get_of_onlyOverwrites hcmd hkeys hnonce

end Frame

-- A record as a reader finds it: the value it unpacks to, and whether it is flagged.
def stored (store : Store) (key : Text) : Option Value × Bool :=
  ((store.get (kvKey key)).bind (Msgpack.unpackb false), truthy (store.get (encKey key)))

section Fields

variable (site : Site)

def packField (raw : Text) : Except Exn Bytes :=
  (decodeFormValue site raw).bind packOrRaise

-- The flag that writing the field leaves, from the one that was there.
def fieldFlag (vars : Value) (name : Text) (flag : Option Bytes) : Bool :=
  (declaredEncrypted vars name).getD (truthy flag)

def GoesThrough (raw : Text) : Prop :=
  ∃ packed, packField site raw = .ok packed

variable {site} {vars : Value} {app device name raw : Text} {w : World}

theorem setFlag_runOn (key : Text) (encrypted : Bool) (w : World) :
    ∃ w', (setFlag key encrypted).runOn w = (.ok (), w') ∧
      truthy (w'.store.get (encKey key)) = encrypted ∧
      w'.store.get (kvKey key) = w.store.get (kvKey key) := by
  have hne : kvKey key ≠ encKey key := (encKey_ne_kvKey key).symm
  cases encrypted with
  | true =>
      refine ⟨_, rfl, ?_, Store.get_set_of_ne _ hne _⟩
      change truthy ((w.store.set (encKey key) (utf8 "1".toList)).get (encKey key)) = true
      rw [Store.get_set_self]
      rfl
  | false =>
      refine ⟨_, rfl, ?_, ?_⟩
      · change truthy ((w.store.delete [encKey key]).get (encKey key)) = false
        rw [Store.get_delete, if_pos (by simp)]
        rfl
      · change (w.store.delete [encKey key]).get (kvKey key) = _
        rw [Store.get_delete, if_neg (by simpa using hne)]

theorem keepFlag_runOn (key : Text) (w : World) :
    ∃ w', (Handler.get (encKey key) >>= fun wasEncrypted =>
        if truthy wasEncrypted then Handler.set (encKey key) (utf8 "1".toList)
        else pure ()).runOn w = (.ok (), w') ∧
      truthy (w'.store.get (encKey key)) = truthy (w.store.get (encKey key)) ∧
      w'.store.get (kvKey key) = w.store.get (kvKey key) := by
  have hne : kvKey key ≠ encKey key := (encKey_ne_kvKey key).symm
  change ∃ w', (if truthy (w.store.get (encKey key)) then
      Handler.set (encKey key) (utf8 "1".toList) else pure ()).runOn w = (.ok (), w') ∧ _
  by_cases h : truthy (w.store.get (encKey key))
  · rw [if_pos h]
    refine ⟨_, rfl, ?_, Store.get_set_of_ne _ hne _⟩
    change truthy ((w.store.set (encKey key) (utf8 "1".toList)).get (encKey key)) = _
    rw [Store.get_set_self, h]
    rfl
  · rw [if_neg h]
    exact ⟨w, rfl, rfl, rfl⟩

-- A field that goes through is stored as it is packed, with its flag.
theorem writeField_ok {packed : Bytes} (h : packField site raw = .ok packed) (w : World) :
    ∃ w', (writeField site vars app device name raw).runOn w = (.ok (), w') ∧
      w'.store.get (kvKey (fieldKey app device name)) = some packed ∧
      truthy (w'.store.get (encKey (fieldKey app device name))) =
        fieldFlag vars name (w.store.get (encKey (fieldKey app device name))) := by
  unfold packField at h
  cases hdecode : decodeFormValue site raw with
  | error exn =>
      rw [hdecode] at h
      cases h
  | ok decoded =>
      rw [hdecode] at h
      change packOrRaise decoded = .ok packed at h
      unfold writeField fieldFlag
      simp only [hdecode, h, Handler.runOn_ofExcept_ok_bind]
      generalize fieldKey app device name = key
      have hne : encKey key ≠ kvKey key := encKey_ne_kvKey key
      let w₁ : World := { w with store := w.store.set (kvKey key) packed }
      have hvalue : w₁.store.get (kvKey key) = some packed := Store.get_set_self _ _ _
      have hflag : w₁.store.get (encKey key) = w.store.get (encKey key) :=
        Store.get_set_of_ne _ hne _
      cases declaredEncrypted vars name with
      | some encrypted =>
          obtain ⟨w', hrun, henc, hkeep⟩ := setFlag_runOn key encrypted w₁
          exact ⟨w', hrun, hkeep.trans hvalue, henc⟩
      | none =>
          obtain ⟨w', hrun, henc, hkeep⟩ := keepFlag_runOn key w₁
          refine ⟨w', hrun, hkeep.trans hvalue, ?_⟩
          rw [henc, hflag]
          rfl

theorem writeField_error {exn : Exn} (h : packField site raw = .error exn) (w : World) :
    (writeField site vars app device name raw).runOn w = (.error exn, w) := by
  unfold packField at h
  unfold writeField
  cases hdecode : decodeFormValue site raw with
  | error e =>
      rw [hdecode] at h
      obtain rfl := Except.error.inj h
      rfl
  | ok decoded =>
      rw [hdecode] at h
      change packOrRaise decoded = .error exn at h
      simp only [h, Handler.runOn_ofExcept_ok_bind]
      rfl

theorem writeFields_append (before after : List (Text × Text)) :
    writeFields site vars app device (before ++ after) =
      (writeFields site vars app device before >>= fun _ =>
        writeFields site vars app device after) := by
  induction before with
  | nil => rfl
  | cons field before ih =>
      obtain ⟨name, raw⟩ := field
      rw [List.cons_append, writeFields, writeFields]
      split
      · exact ih
      · rw [ih, bind_assoc]

-- The names of a form's fields are those of variables.
def isFieldName (name : Text) : Prop :=
  name ≠ [] ∧ '/' ∉ name ∧ ':' ∉ name

theorem writeFields_cons {rest : List (Text × Text)} (h : isFieldName name) :
    writeFields site vars app device ((name, raw) :: rest) =
      (writeField site vars app device name raw >>= fun _ =>
        writeFields site vars app device rest) := by
  rw [writeFields, if_neg]
  rintro (hempty | hslash)
  · exact h.1 hempty
  · exact h.2.1 hslash

theorem writeFields_ok {form : List (Text × Text)} (hnames : ∀ field ∈ form, isFieldName field.1)
    (w : World) :
    (∃ w', (writeFields site vars app device form).runOn w = (.ok (), w')) ↔
      ∀ field ∈ form, GoesThrough site field.2 := by
  induction form generalizing w with
  | nil => simp [writeFields]
  | cons field rest ih =>
      obtain ⟨name, raw⟩ := field
      have hrest := ih fun f hf => hnames f (List.mem_cons_of_mem _ hf)
      rw [writeFields_cons (hnames (name, raw) (by simp))]
      simp only [List.forall_mem_cons]
      cases hpack : packField site raw with
      | error exn =>
          rw [Handler.runOn_bind_of_error (writeField_error hpack w)]
          constructor
          · rintro ⟨w', h⟩
            cases h
          · rintro ⟨⟨packed, h⟩, -⟩
            rw [hpack] at h
            cases h
      | ok packed =>
          obtain ⟨w₁, hrun, -, -⟩ := writeField_ok hpack w
          rw [Handler.runOn_bind_of_ok hrun, hrest w₁]
          constructor
          · intro h
            exact ⟨⟨packed, hpack⟩, h⟩
          · intro h
            exact h.2

theorem fieldKey_inj {other : Text} :
    fieldKey app device name = fieldKey app device other ↔ name = other := by
  simp [fieldKey]

theorem encKey_fieldKey (other : Text) :
    encKey (fieldKey app device other) = kvKey (fieldKey app device (other ++ ":enc".toList)) := by
  rw [Kv.encKey_eq_kvKey]
  simp [fieldKey]

-- The records of two fields share no key.
theorem fieldKeys_apart {other key : Text} (hname : isFieldName name) (hother : isFieldName other)
    (hne : other ≠ name)
    (hkey : key = kvKey (fieldKey app device name) ∨ key = encKey (fieldKey app device name)) :
    ¬ (key = kvKey (fieldKey app device other) ∨ key = encKey (fieldKey app device other)) := by
  have hcolon : ∀ text : Text, ':' ∈ text ++ ":enc".toList := by simp
  rintro (hk | hk)
  · rcases hkey with h | h
    · have hsame := kvKey_injective (h.symm.trans hk)
      exact hne (fieldKey_inj.mp hsame).symm
    · rw [encKey_fieldKey] at h
      have hsame := kvKey_injective (h.symm.trans hk)
      exact hother.2.2 (fieldKey_inj.mp hsame ▸ hcolon name)
  · rcases hkey with h | h
    · rw [encKey_fieldKey] at hk
      have hsame := kvKey_injective (h.symm.trans hk)
      exact hname.2.2 (fieldKey_inj.mp hsame ▸ hcolon other)
    · have hsame := encKey_injective (h.symm.trans hk)
      exact hne (fieldKey_inj.mp hsame).symm

theorem fieldKeys_ne_nonceKey {key : Text}
    (hkey : key = kvKey (fieldKey app device name) ∨ key = encKey (fieldKey app device name))
    (clientId : Text) : key ≠ nonceKey clientId := by
  intro h
  rcases hkey with rfl | rfl
  · exact Kv.nonceKey_ne_kvKey clientId _ h.symm
  · rw [encKey_fieldKey] at h
    exact Kv.nonceKey_ne_kvKey clientId _ h.symm

-- Other fields leave the record alone.
theorem writeFields_frame {form : List (Text × Text)} (hname : isFieldName name)
    (hnames : ∀ field ∈ form, isFieldName field.1) (hother : ∀ field ∈ form, field.1 ≠ name)
    (w : World) {key : Text}
    (hkey : key = kvKey (fieldKey app device name) ∨ key = encKey (fieldKey app device name)) :
    ((writeFields site vars app device form).runOn w).2.store.get key = w.store.get key := by
  have hissues : (writeFields site vars app device form).Issues (OnlyOverwrites fun k =>
      ∃ field ∈ form, k = kvKey (fieldKey app device field.1) ∨
        k = encKey (fieldKey app device field.1)) :=
    writeFields_issues site vars app device form (fun field hf => ⟨field, hf, .inl rfl⟩)
      fun field hf => ⟨field, hf, .inr rfl⟩
  apply Handler.get_of_issues hissues
  · rintro ⟨field, hf, hk⟩
    exact fieldKeys_apart hname (hnames field hf) (hother field hf) hkey hk
  · exact fieldKeys_ne_nonceKey hkey

theorem stored_frame {form : List (Text × Text)} (hname : isFieldName name)
    (hnames : ∀ field ∈ form, isFieldName field.1) (hother : ∀ field ∈ form, field.1 ≠ name)
    {w w' : World} {result : Except Exn Unit}
    (h : (writeFields site vars app device form).runOn w = (result, w')) :
    w'.store.get (kvKey (fieldKey app device name)) =
        w.store.get (kvKey (fieldKey app device name)) ∧
      w'.store.get (encKey (fieldKey app device name)) =
        w.store.get (encKey (fieldKey app device name)) := by
  have hvalue := @writeFields_frame site vars app device name form hname hnames hother w _ (.inl rfl)
  have hflag := @writeFields_frame site vars app device name form hname hnames hother w _ (.inr rfl)
  rw [h] at hvalue hflag
  exact ⟨hvalue, hflag⟩

-- A form leaves at each of its fields the value that is packed for it, with its flag, if all
-- of its fields go through.
theorem writeFields_stores {before after : List (Text × Text)}
    (hnames : ∀ field ∈ before ++ (name, raw) :: after, isFieldName field.1)
    (hother : ∀ field ∈ before ++ after, field.1 ≠ name) {w w' : World}
    (h : (writeFields site vars app device (before ++ (name, raw) :: after)).runOn w =
      (.ok (), w')) :
    ∃ packed, packField site raw = .ok packed ∧
      stored w'.store (fieldKey app device name) = (Msgpack.unpackb false packed,
        fieldFlag vars name (w.store.get (encKey (fieldKey app device name)))) := by
  have hname := hnames (name, raw) (by simp)
  have hbefore : ∀ field ∈ before, isFieldName field.1 ∧ field.1 ≠ name := fun field hf =>
    ⟨hnames field (by simp [hf]), hother field (by simp [hf])⟩
  have hafter : ∀ field ∈ after, isFieldName field.1 ∧ field.1 ≠ name := fun field hf =>
    ⟨hnames field (by simp [hf]), hother field (by simp [hf])⟩
  rw [writeFields_append, Handler.runOn_bind_ok] at h
  obtain ⟨_, w₁, hfirst, h⟩ := h
  rw [writeFields_cons hname, Handler.runOn_bind_ok] at h
  obtain ⟨_, w₂, hfield, hlast⟩ := h
  have hframe₁ := stored_frame hname (fun f hf => (hbefore f hf).1) (fun f hf => (hbefore f hf).2)
    hfirst
  have hframe₂ := stored_frame hname (fun f hf => (hafter f hf).1) (fun f hf => (hafter f hf).2)
    hlast
  cases hpack : packField site raw with
  | error exn =>
      rw [writeField_error hpack] at hfield
      cases hfield
  | ok packed =>
      obtain ⟨w₃, hrun, hvalue, hflag⟩ := @writeField_ok site vars app device name raw packed hpack w₁
      rw [hrun] at hfield
      obtain rfl := (Prod.mk.inj hfield).2
      refine ⟨packed, rfl, ?_⟩
      simp only [stored, hframe₂.1, hframe₂.2, hvalue, hflag, hframe₁.2]
      rfl

end Fields

section Form

variable {site : Site} {username app device : Text} {form : List (Text × Text)} {w : World}

-- The user may write under the device.
def MaySubmit (site : Site) (username app device : Text) (w : World) : Prop :=
  ∃ acl, (getAdminContext site.jsonDepth site.rescueUsers username).runOn w = (.ok acl, w) ∧
    checkAcl acl ("kv/".toList ++ app ++ '/' :: device) .write = .ok ()

theorem submitDeviceForm_runOn {catalog : Option (List (Value × Value))}
    (hmay : MaySubmit site username app device w)
    (hcatalog : (loadCatalogDict site app).runOn w = (.ok catalog, w)) :
    (submitDeviceForm site username app device form).runOn w =
      (writeFields site (catalogVars catalog) app device form >>= fun _ =>
        pure ("/app/".toList ++ app ++ '/' :: device)).runOn w := by
  obtain ⟨acl, hcontext, hcheck⟩ := hmay
  unfold submitDeviceForm
  rw [Handler.runOn_bind_of_ok hcontext]
  simp only [hcheck]
  rw [Handler.runOn_bind_of_ok hcatalog]

end Form

end Stra2us.Server
