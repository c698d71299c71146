import Stra2us.Admin.Requests
import Stra2us.Foundation.Batch

namespace Stra2us.Admin

open Foundation Server

-- A pair of records written over and over, where one that counts as there may be kept.
section Pairs

def putPair (force : Bool) (old : Option Bytes × Option Bytes) (new : Bytes × Option Bytes) :
    Option Bytes × Option Bytes :=
  if truthy old.1 ∧ ¬ force then old else (some new.1, new.2)

theorem putPair_forced (old : Option Bytes × Option Bytes) (new : Bytes × Option Bytes) :
    putPair true old new = (some new.1, new.2) := by
  simp [putPair]

theorem truthy_some {raw : Bytes} : truthy (some raw) = true ↔ raw ≠ [] := by
  cases raw with
  | nil => simp [truthy]
  | cons byte rest => simp [truthy]

variable {force : Bool} {old : Option Bytes × Option Bytes}

theorem foldl_putPair_kept (h : truthy old.1 = true ∧ force = false)
    (news : List (Bytes × Option Bytes)) : news.foldl (putPair force) old = old := by
  induction news with
  | nil => rfl
  | cons new rest ih =>
      have hkept : putPair force old new = old := by
        unfold putPair
        rw [if_pos ⟨h.1, by simp [h.2]⟩]
      rw [List.foldl_cons, hkept, ih]

-- Without force the first that is not empty stays.
theorem truthy_foldl_putPair (h : truthy old.1 = false) (news : List (Bytes × Option Bytes)) :
    truthy (news.foldl (putPair false) old).1 = true ↔ ∃ new ∈ news, new.1 ≠ [] := by
  induction news generalizing old with
  | nil => simp [h]
  | cons new rest ih =>
      have hput : putPair false old new = (some new.1, new.2) := by
        simp [putPair, h]
      rw [List.foldl_cons, hput]
      by_cases hempty : new.1 = []
      · have hfalse : truthy (some new.1) = false := by
          rw [hempty]
          rfl
        rw [@ih (some new.1, new.2) hfalse]
        simp [hempty]
      · have htrue : truthy (some new.1) = true := truthy_some.mpr hempty
        rw [foldl_putPair_kept ⟨htrue, rfl⟩]
        exact ⟨fun _ => ⟨new, by simp, hempty⟩, fun _ => htrue⟩

-- Nothing changes when the old pair is kept, or when the last new one is it again.
theorem foldl_putPair_same_iff (news : List (Bytes × Option Bytes)) :
    news.foldl (putPair force) old = old ↔
      news = [] ∨ (force = false ∧ truthy old.1 = true) ∨
        ∃ last, news.getLast? = some last ∧ old = (some last.1, last.2) ∧
          (force = false → ∀ new ∈ news, new.1 = []) := by
  by_cases hkept : truthy old.1 = true ∧ force = false
  · rw [foldl_putPair_kept hkept]
    simp [hkept.1, hkept.2]
  · have hnot : ¬ (force = false ∧ truthy old.1 = true) := fun h => hkept h.symm
    induction news using List.reverseRecOn with
    | nil => simp
    | append_singleton news new _ =>
        have hlast : (news ++ [new]).getLast? = some new := List.getLast?_concat
        have hsome : news ++ [new] ≠ [] := by simp
        simp only [List.foldl_append, List.foldl_cons, List.foldl_nil, hlast, hsome, hnot, false_or,
          Option.some.injEq, exists_eq_left']
        cases force with
        | true =>
            rw [putPair_forced]
            simp [eq_comm]
        | false =>
            have hold : truthy old.1 = false := by simpa using hkept
            have hmid := truthy_foldl_putPair hold news
            by_cases hfilled : ∃ n ∈ news, n.1 ≠ []
            · have htrue := hmid.mpr hfilled
              have hkeep : putPair false (news.foldl (putPair false) old) new =
                  news.foldl (putPair false) old := foldl_putPair_kept ⟨htrue, rfl⟩ [new]
              rw [hkeep]
              constructor
              · intro hsame
                rw [hsame, hold] at htrue
                cases htrue
              · rintro ⟨-, hempty⟩
                obtain ⟨n, hn, hne⟩ := hfilled
                exact absurd (hempty rfl n (List.mem_append_left _ hn)) hne
            · have hput : putPair false (news.foldl (putPair false) old) new = (some new.1, new.2) := by
                unfold putPair
                rw [if_neg fun h => hfilled (hmid.mp h.1)]
              rw [hput]
              constructor
              · rintro rfl
                refine ⟨rfl, fun _ n hn => ?_⟩
                rcases List.mem_append.mp hn with hn | hn
                · by_contra hne
                  exact hfilled ⟨n, hn, hne⟩
                · rw [List.mem_singleton.mp hn]
                  by_contra hne
                  rw [truthy_some.mpr hne] at hold
                  cases hold
              · rintro ⟨rfl, -⟩
                rfl

end Pairs

section Restore

variable (site : Site) (force : Bool)

-- One entry: refused, passed over, or written.
def restoreEntry (client : ClientBackupEntry) (w : World) : Except Exn Unit × World :=
  match rejectIfReserved client.clientId with
  | .error exn => (.error exn, w)
  | .ok () =>
      if truthy (w.store.get (clientSecretKey client.clientId)) ∧ ¬ force then (.ok (), w)
      else putAcl site client.clientId client.acl
        (World.put w (clientSecretKey client.clientId) (utf8 client.secret))

theorem restoreEach_batch (clients : List ClientBackupEntry) (w : World) :
    (restoreEach site force clients).runOn w = batch (restoreEntry site force) clients w := by
  induction clients generalizing w with
  | nil => rfl
  | cons client rest ih =>
      rw [restoreEach, batch, restoreEntry]
      cases hreject : rejectIfReserved client.clientId with
      | error exn => rfl
      | ok value =>
          rw [Handler.runOn_ofExcept_ok_bind]
          change (if truthy (w.store.get (clientSecretKey client.clientId)) = true ∧ ¬ force = true
            then _ else _ : Handler Unit).runOn w = _
          dsimp only
          by_cases hkept : truthy (w.store.get (clientSecretKey client.clientId)) = true ∧
              ¬ force = true
          · rw [if_pos hkept, if_pos hkept]
            exact ih w
          · rw [if_neg hkept, if_neg hkept, putAcl]
            cases hdump : dumpRecord site client.acl with
            | error exn => rfl
            | ok raw => exact ih _

-- The two records of a client.
def clientPair (s : Store) (id : Text) : Option Bytes × Option Bytes :=
  (s.get (clientSecretKey id), s.get (clientAclKey id))

def entryPair (client : ClientBackupEntry) : Bytes × Option Bytes :=
  (utf8 client.secret, (dumpRecord site client.acl).toOption)

variable {site force} {client : ClientBackupEntry} {w : World}

theorem clientPair_restoreEntry (h : (restoreEntry site force client w).1 = .ok ()) (id : Text) :
    clientPair (restoreEntry site force client w).2.store id =
      if client.clientId = id then putPair force (clientPair w.store id) (entryPair site client)
      else clientPair w.store id := by
  unfold restoreEntry at h ⊢
  cases hreject : rejectIfReserved client.clientId with
  | error exn =>
      rw [hreject] at h
      cases h
  | ok value =>
      rw [hreject] at h
      dsimp only at h ⊢
      by_cases hkept : truthy (w.store.get (clientSecretKey client.clientId)) = true ∧ ¬ force = true
      · rw [if_pos hkept]
        by_cases hid : client.clientId = id
        · subst hid
          have hstays : truthy (clientPair w.store client.clientId).1 = true ∧ ¬ force = true := hkept
          rw [if_pos rfl, putPair, if_pos hstays]
        · rw [if_neg hid]
      · rw [if_neg hkept] at h ⊢
        unfold putAcl at h ⊢
        cases hdump : dumpRecord site client.acl with
        | error exn =>
            rw [hdump] at h
            cases h
        | ok raw =>
            dsimp only
            by_cases hid : client.clientId = id
            · subst hid
              have hgoes : ¬ (truthy (clientPair w.store client.clientId).1 = true ∧ ¬ force = true) :=
                hkept
              rw [if_pos rfl, putPair, if_neg hgoes]
              simp [clientPair, entryPair, hdump, Except.toOption]
            · have hid' : id ≠ client.clientId := fun h => hid h.symm
              simp [clientPair, hid, hid']

theorem clientPair_batch {clients : List ClientBackupEntry}
    (h : (batch (restoreEntry site force) clients w).1 = .ok ()) (id : Text) :
    clientPair (batch (restoreEntry site force) clients w).2.store id =
      ((clients.filter (·.clientId = id)).map (entryPair site)).foldl (putPair force)
        (clientPair w.store id) := by
  induction clients generalizing w with
  | nil => rfl
  | cons client rest ih =>
      cases hstep : (restoreEntry site force client w).1 with
      | error exn =>
          rw [batch_cons_error hstep] at h
          cases h
      | ok value =>
          rw [batch_cons_ok hstep] at h ⊢
          rw [ih h, clientPair_restoreEntry hstep]
          by_cases hid : client.clientId = id
          · simp [hid]
          · simp [hid]

-- Every client named before the first reserved one is passed over, or the last entry
-- for it is what is stored.
def Unharmed (site : Site) (force : Bool) (s : Store) (clients : List ClientBackupEntry) : Prop :=
  let before := clients.takeWhile (·.clientId ∉ reservedClientIds)
  ∀ client ∈ before,
    (force = false ∧ truthy (s.get (clientSecretKey client.clientId)) = true) ∨
    ∃ last, (before.filter (·.clientId = client.clientId)).getLast? = some last ∧
      clientPair s client.clientId = (some (utf8 last.secret), (dumpRecord site last.acl).toOption) ∧
      (force = false → ∀ own ∈ before, own.clientId = client.clientId → own.secret = [])

theorem rejectIfReserved_error_iff {id : Text} :
    (∃ exn, rejectIfReserved id = .error exn) ↔ id ∈ reservedClientIds := by
  unfold rejectIfReserved
  by_cases h : id ∈ reservedClientIds
  · rw [if_pos h]
    exact ⟨fun _ => h, fun _ => ⟨_, rfl⟩⟩
  · rw [if_neg h]
    exact ⟨fun ⟨_, hexn⟩ => (nomatch hexn), fun hmem => absurd hmem h⟩

theorem free_of_restoreEntry (h : (restoreEntry site force client w).1 = .ok ()) :
    client.clientId ∉ reservedClientIds := by
  intro hreserved
  obtain ⟨exn, hexn⟩ := rejectIfReserved_error_iff.mpr hreserved
  rw [restoreEntry, hexn] at h
  cases h

theorem free_of_batch {clients : List ClientBackupEntry}
    (h : (batch (restoreEntry site force) clients w).1 = .ok ()) :
    ∀ client ∈ clients, client.clientId ∉ reservedClientIds := by
  induction clients generalizing w with
  | nil => exact fun client hclient => (nomatch hclient)
  | cons client rest ih =>
      cases hstep : (restoreEntry site force client w).1 with
      | error exn =>
          rw [batch_cons_error hstep] at h
          cases h
      | ok value =>
          rw [batch_cons_ok hstep] at h
          exact List.forall_mem_cons.mpr ⟨free_of_restoreEntry hstep, ih h⟩

-- The only other failure of an entry is that its ACL nests too deep.
theorem reserved_of_restoreEntry {id : Text} {exn : Exn} (hid : rejectIfReserved id = .error exn)
    (h : (restoreEntry site force client w).1 = .error exn) :
    client.clientId ∈ reservedClientIds ∧ (restoreEntry site force client w).2 = w := by
  unfold restoreEntry at h ⊢
  cases hreject : rejectIfReserved client.clientId with
  | error exn => exact ⟨rejectIfReserved_error_iff.mp ⟨exn, hreject⟩, rfl⟩
  | ok value =>
      rw [hreject] at h
      dsimp only at h
      by_cases hkept : truthy (w.store.get (clientSecretKey client.clientId)) = true ∧ ¬ force = true
      · rw [if_pos hkept] at h
        cases h
      · rw [if_neg hkept] at h
        unfold putAcl dumpRecord at h
        unfold rejectIfReserved at hid
        split_ifs at hid
        obtain rfl := Except.error.inj hid
        cases hdump : Json.dumpsValue (site.jsonDepth + 1) client.acl with
        | ok text =>
            rw [hdump] at h
            cases h
        | error e =>
            rw [hdump] at h
            cases e <;> cases h

-- A request that is rejected for a reserved id did the entries in front of it, no more.
theorem batch_rejected {clients : List ClientBackupEntry} {id : Text} {exn : Exn}
    (hid : rejectIfReserved id = .error exn)
    (h : (batch (restoreEntry site force) clients w).1 = .error exn) :
    let before := clients.takeWhile (·.clientId ∉ reservedClientIds)
    (batch (restoreEntry site force) before w).1 = .ok () ∧
      (batch (restoreEntry site force) clients w).2 = (batch (restoreEntry site force) before w).2 := by
  obtain ⟨before, client, ⟨⟨after, rfl⟩, hbefore⟩, hbad, hstate⟩ := exists_reaches_of_error h
  obtain ⟨hreserved, hsame⟩ := reserved_of_restoreEntry hid hbad
  have hfree := free_of_batch hbefore
  have htake : (before ++ client :: after).takeWhile (·.clientId ∉ reservedClientIds) = before := by
    rw [List.takeWhile_append_of_pos (by simpa using hfree), List.takeWhile_cons_of_neg (by simpa using hreserved),
      List.append_nil]
  intro front
  have hfront : front = before := htake
  rw [hfront]
  exact ⟨hbefore, hstate.trans hsame⟩

-- Where a request is rejected for a reserved id, the records of the clients are as they
-- were exactly when the entries in front of it say nothing new.
theorem restoreKeys_rejected_iff {username id : Text} {clients : List ClientBackupEntry} {exn : Exn}
    (hmay : MayManage site username w) (hid : rejectIfReserved id = .error exn)
    (hrejected : ((restoreKeys site username force clients).runOn w).1 = .error exn) :
    (∀ other, clientPair ((restoreKeys site username force clients).runOn w).2.store other =
      clientPair w.store other) ↔ Unharmed site force w.store clients := by
  unfold restoreKeys at hrejected ⊢
  rw [manage_of_ok hmay, restoreEach_batch] at hrejected ⊢
  obtain ⟨hdone, hstate⟩ := batch_rejected hid hrejected
  unfold Unharmed
  simp only [hstate, clientPair_batch hdone, foldl_putPair_same_iff, List.map_eq_nil_iff,
    List.getLast?_map, Option.map_eq_some_iff]
  have hempty {secret : Text} : utf8 secret = [] ↔ secret = [] :=
    ⟨fun h => utf8_injective (h.trans utf8_nil.symm), fun h => by rw [h, utf8_nil]⟩
  constructor
  · intro h client hclient
    have hown : client ∈ (clients.takeWhile (·.clientId ∉ reservedClientIds)).filter
        (·.clientId = client.clientId) := List.mem_filter.mpr ⟨hclient, decide_eq_true rfl⟩
    rcases h client.clientId with hnone | hkept | ⟨last, ⟨entry, hentry, rfl⟩, hpair, hsecrets⟩
    · rw [hnone] at hown
      cases hown
    · exact .inl hkept
    · refine .inr ⟨entry, hentry, hpair, fun hforce own hmem hid => ?_⟩
      refine hempty.mp (hsecrets hforce (entryPair site own) (List.mem_map_of_mem ?_))
      exact List.mem_filter.mpr ⟨hmem, decide_eq_true hid⟩
  · intro h other
    by_cases hnamed : ∃ client ∈ clients.takeWhile (·.clientId ∉ reservedClientIds),
        client.clientId = other
    · obtain ⟨client, hclient, rfl⟩ := hnamed
      rcases h client hclient with hkept | ⟨entry, hentry, hpair, hsecrets⟩
      · exact .inr (.inl hkept)
      · refine .inr (.inr ⟨entryPair site entry, ⟨entry, hentry, rfl⟩, hpair, ?_⟩)
        intro hforce new hnew
        obtain ⟨own, hmem, rfl⟩ := List.mem_map.mp hnew
        obtain ⟨hown, hid⟩ := List.mem_filter.mp hmem
        exact hempty.mpr (hsecrets hforce own hown (of_decide_eq_true hid))
    · refine .inl (List.filter_eq_nil_iff.mpr fun client hclient hid => ?_)
      exact hnamed ⟨client, hclient, of_decide_eq_true hid⟩

def reservedEntry : ClientBackupEntry := ⟨"public".toList, "00".toList, .dict []⟩

def newEntry : ClientBackupEntry := ⟨['d'], "00".toList, .dict []⟩

def reservedError : Exn :=
  .http 400 ("Client id '".toList ++ "public".toList ++
    "' is reserved as a namespace under each app. Reserved: ['public'].".toList)

def managedSite : Site :=
  { Site.small with rescueUsers := [['r']] }

theorem mayManage_rescued : MayManage managedSite ['r'] World.empty := by
  rfl

theorem restoreKeys_rejected_first :
    clientPair ((restoreKeys managedSite ['r'] true [reservedEntry, newEntry]).runOn
      World.empty).2.store ['d'] = clientPair World.empty.store ['d'] := by
  have hid : rejectIfReserved "public".toList = .error reservedError := rfl
  refine (restoreKeys_rejected_iff mayManage_rescued hid rfl).mpr ?_ ['d']
  intro client hclient
  cases hclient

-- An entry in front of the reserved one is there when the request is rejected.
theorem newEntry_restored :
    MayManage managedSite ['r'] World.empty ∧
      rejectIfReserved "public".toList = .error reservedError ∧
      ((restoreKeys managedSite ['r'] false [newEntry, reservedEntry]).runOn World.empty).1 =
        .error reservedError ∧
      clientPair ((restoreKeys managedSite ['r'] false [newEntry, reservedEntry]).runOn
        World.empty).2.store ['d'] ≠ clientPair World.empty.store ['d'] := by
  refine ⟨mayManage_rescued, rfl, rfl, ?_⟩
  decide

end Restore

end Stra2us.Admin
