import Stra2us.Admin.Requests
import Stra2us.Backup.Atomicity

namespace Stra2us.Admin

open Foundation Server Backup

section Vouched

variable (jsonDepth : Nat)

-- One of the permissions is for this prefix.
def NamesPrefix (acl : Value) (pre : Text) : Prop :=
  ∃ pairs perms fields, acl = .dict pairs ∧
    Value.lookup pairs "permissions".toList = some (.list perms) ∧ .dict fields ∈ perms ∧
      Value.lookup fields "prefix".toList = some (.str pre)

def Carries (raw : Bytes) (pre : Text) : Prop :=
  ∃ acl, aclOfRecord jsonDepth (some raw) = .ok acl ∧ NamesPrefix acl pre

-- There is a client by this name, with an ACL for a device of the app, and neither of the two
-- names is a reserved one.
structure Vouched (s : Store) (name app : Text) : Prop where
  client : ∃ secret, s.get (clientSecretKey name) = some secret
  shaped : ∃ raw, s.get (clientAclKey name) = some raw ∧ Carries jsonDepth raw (app ++ '/' :: name)
  app_free : app ≠ "_catalog".toList
  name_free : name ∉ reservedClientIds

end Vouched

section Names

-- The first two parts of a key that has more.
def partsOf (key : Text) : Option (Text × Text) :=
  match key.splitOn '/' with
  | app :: device :: _ :: _ => some (app, device)
  | _ => none

def Seen (s : Store) (name app : Text) : Prop :=
  ∃ key, s.has (kvKey key) = true ∧ partsOf key = some (app, name)

-- The apps that a lookup may find: what the index says, and where it says nothing, what a key
-- is named after.
def Finds (s : Store) (name app : Text) : Prop :=
  s.get (deviceToAppKey name) = some (utf8 app) ∨
    (s.get (deviceToAppKey name) = none ∧ Seen s name app)

def LooksUp (name : Text) : Prop :=
  name ≠ [] ∧ '/' ∉ name

def Sound (jsonDepth : Nat) (s : Store) : Prop :=
  ∀ name app, LooksUp name → Finds s name app → Vouched jsonDepth s name app

def LookupConsistent (d : Deployment) (w : World) : Prop :=
  ∀ order name app, (lookupDevice d.glob order name w).1 = .ok app →
    Vouched d.site.jsonDepth w.store name app

-- A key that no lookup falls back to, or that names a device of the app it is under.
def KeyVouched (jsonDepth : Nat) (s : Store) (key : Text) : Prop :=
  ∀ app name, partsOf key = some (app, name) → LooksUp name →
    s.get (deviceToAppKey name) = none → Vouched jsonDepth s name app

theorem partsOf_eq {key app name : Text} (h : appOfKey name (kvKey key) = some app) :
    partsOf key = some (app, name) := by
  have htail : ((kvKey key).dropWhile (· ≠ ':')).drop 1 = key := by
    rw [kvKey_eq]
    rfl
  unfold appOfKey at h
  rw [htail] at h
  unfold partsOf
  generalize key.splitOn '/' = parts at h ⊢
  match parts, h with
  | a :: b :: c :: rest, h =>
      change (if b = name then some a else none) = some app at h
      change some (a, b) = some (app, name)
      by_cases hname : b = name
      · rw [if_pos hname] at h
        rw [← hname, Option.some.inj h]
      · rw [if_neg hname] at h
        cases h

-- What comes after the last slash does not count.
theorem partsOf_flag (key : Text) : partsOf (flagOf key) = partsOf key := by
  have hflag : '/' ∉ ":enc".toList := by decide
  have hfree (text : Text) (h : '/' ∉ text) : '/' ∉ text ++ ":enc".toList := by
    rw [List.mem_append, not_or]
    exact ⟨h, hflag⟩
  unfold partsOf flagOf
  by_cases hkey : '/' ∈ key
  · obtain ⟨app, rest, rfl, happ⟩ := List.eq_append_cons_of_mem hkey
    rw [List.append_assoc, List.cons_append, List.splitOn_append_cons_self_of_not_mem happ,
      List.splitOn_append_cons_self_of_not_mem happ]
    by_cases hrest : '/' ∈ rest
    · obtain ⟨device, more, rfl, hdevice⟩ := List.eq_append_cons_of_mem hrest
      rw [List.append_assoc, List.cons_append, List.splitOn_append_cons_self_of_not_mem hdevice,
        List.splitOn_append_cons_self_of_not_mem hdevice]
      obtain ⟨a, as, ha⟩ := List.exists_cons_of_ne_nil (List.splitOn_ne_nil '/' more)
      obtain ⟨b, bs, hb⟩ :=
        List.exists_cons_of_ne_nil (List.splitOn_ne_nil '/' (more ++ ":enc".toList))
      rw [ha, hb]
    · rw [List.splitOn_eq_singleton hrest, List.splitOn_eq_singleton (hfree rest hrest)]
  · rw [List.splitOn_eq_singleton hkey, List.splitOn_eq_singleton (hfree key hkey)]

-- A pattern with letters in front matches keys that begin with these.
def GlobLiteral (glob : Text → Text → Bool) : Prop :=
  ∀ name key, glob (lookupPattern name) key = true → "kv:".toList <+: key

theorem consistent_of_sound {d : Deployment} {w : World} (hglob : GlobLiteral d.glob)
    (h : Sound d.site.jsonDepth w.store) : LookupConsistent d w := by
  intro order name app hlookup
  unfold lookupDevice at hlookup
  split at hlookup
  · cases hlookup
  · next hname =>
      rw [not_or] at hname
      refine h name app hname ?_
      split at hlookup
      · next raw hindex =>
          split at hlookup
          · next found hdecode =>
              obtain rfl := Except.ok.inj hlookup
              exact .inl (by rw [hindex, utf8_of_utf8Decode hdecode])
          · cases hlookup
      · next hindex =>
          split at hlookup
          · next found hfound =>
              obtain rfl := Except.ok.inj hlookup
              obtain ⟨key, hkey, hparts⟩ := List.exists_of_findSome?_eq_some hfound
              obtain ⟨-, hboth⟩ := List.mem_filter.mp hkey
              rw [Bool.and_eq_true] at hboth
              obtain ⟨rest, rfl⟩ := hglob name key hboth.1
              exact .inr ⟨hindex, rest, hboth.2, partsOf_eq hparts⟩
          · cases hlookup

end Names

section Steps

variable {jsonDepth : Nat} {s s' : Store} {name app key : Text}

-- The three records that a lookup, and what vouches for it, go by.
def SameClient (s s' : Store) (name : Text) : Prop :=
  s'.get (clientSecretKey name) = s.get (clientSecretKey name) ∧
    s'.get (clientAclKey name) = s.get (clientAclKey name) ∧
      s'.get (deviceToAppKey name) = s.get (deviceToAppKey name)

theorem Vouched.congr (h : Vouched jsonDepth s name app) (hsame : SameClient s s' name) :
    Vouched jsonDepth s' name app where
  client := by
    rw [hsame.1]
    exact h.client
  shaped := by
    rw [hsame.2.1]
    exact h.shaped
  app_free := h.app_free
  name_free := h.name_free

-- A step that changes what there is of some clients, and that brings no key but a vouched one.
theorem Sound.step (h : Sound jsonDepth s) (changed : Text → Prop)
    (hsame : ∀ name, ¬ changed name → SameClient s s' name)
    (hkeys : ∀ key, s'.has (kvKey key) = true → s.has (kvKey key) = true ∨
      KeyVouched jsonDepth s' key)
    (hchanged : ∀ name app, changed name → LooksUp name → Finds s' name app →
      Vouched jsonDepth s' name app) : Sound jsonDepth s' := by
  intro name app hname hfinds
  by_cases hin : changed name
  · exact hchanged name app hin hname hfinds
  · have hclient := hsame name hin
    rcases hfinds with hindex | ⟨hindex, key, hhas, hparts⟩
    · rw [hclient.2.2] at hindex
      exact (h name app hname (.inl hindex)).congr hclient
    · rcases hkeys key hhas with hbefore | hvouched
      · have hnone := hclient.2.2.symm.trans hindex
        exact (h name app hname (.inr ⟨hnone, key, hbefore, hparts⟩)).congr hclient
      · exact hvouched app name hparts hname hindex

-- One that changes no client.
theorem Sound.step_keys (h : Sound jsonDepth s) (hsame : ∀ name, SameClient s s' name)
    (hkeys : ∀ key, s'.has (kvKey key) = true → s.has (kvKey key) = true ∨
      KeyVouched jsonDepth s key) : Sound jsonDepth s' := by
  refine h.step (fun _ => False) (fun name _ => hsame name) (fun key hhas => ?_)
    fun _ _ hin => hin.elim
  rcases hkeys key hhas with hbefore | hvouched
  · exact .inl hbefore
  · refine .inr fun app name hparts hname hindex => ?_
    exact (hvouched app name hparts hname ((hsame name).2.2.symm.trans hindex)).congr (hsame name)

theorem sound_empty : Sound jsonDepth .empty := by
  rintro name app - (hindex | ⟨-, key, hhas, -⟩)
  · cases hindex
  · cases hhas

end Steps

end Stra2us.Admin
