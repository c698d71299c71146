import Stra2us.Acl.Matching
import Stra2us.Admin.Monitor
import Stra2us.Foundation.Capped

namespace Stra2us.Admin

open Foundation Server

section Rows

variable (acl : Value) (clientId : List Text)

def decodeField (raw : Bytes) : Except Exn Text :=
  match utf8Decode raw with
  | some text => .ok text
  | none => .error (.python "UnicodeDecodeError".toList)

-- `METHOD /q/<topic>` and `METHOD /kv/<key>`; other actions are not scoped.
def logResourceFromAction (action : Text) : Option Text :=
  match action.dropWhile (· ≠ ' ') with
  | [] => none
  | _ :: path =>
      if "/q/".toList <+: path then some ("q/".toList ++ path.drop "/q/".length)
      else if "/kv/".toList <+: path then some ("kv/".toList ++ path.drop "/kv/".length)
      else none

structure LogRow where
  timestamp : Int
  clientId : Text
  action : Text
  status : Text
deriving DecidableEq, Repr

def logClient (entry : Entry) : Except Exn Text :=
  decodeField ((entryField? entry "client_id".toList).getD (utf8 "unknown".toList))

def isAsked (cid : Text) : Bool :=
  decide (clientId = [] ∨ cid ∈ clientId)

-- A refusal is caught, another failure of the check is not.
def mayRead (resource : Text) : Except Exn Bool :=
  match checkAcl acl resource .read with
  | .ok () => .ok true
  | .error (.http _ _) => .ok false
  | .error exn => .error exn

-- Whether the caller may read what the action is about.
def passesAcl (action : Text) : Except Exn Bool :=
  match logResourceFromAction action with
  | none => .ok true
  | some resource => mayRead acl resource

def logAction (entry : Entry) : Except Exn Text :=
  decodeField ((entryField? entry "action".toList).getD [])

def logTimestamp (entry : Entry) : Except Exn Int :=
  match bytesInt ((entryField? entry "timestamp".toList).getD (utf8 ['0'])) with
  | some timestamp => .ok timestamp
  | none => .error (.python "ValueError".toList)

def makeRow (entry : Entry) (cid action : Text) : Except Exn LogRow := do
  let timestamp ← logTimestamp entry
  let status ← decodeField ((entryField? entry "status".toList).getD [])
  .ok ⟨timestamp, cid, action, status⟩

def logRow (entry : Entry) : Except Exn (Option LogRow) := do
  let cid ← logClient entry
  if isAsked clientId cid then
    let action ← logAction entry
    if ← passesAcl acl action then
      let row ← makeRow entry cid action
      .ok (some row)
    else .ok none
  else .ok none

-- A row with the entry it was made of.
def logEntry (entry : Entry) : Except Exn (Option (Entry × LogRow)) := do
  let row? ← logRow acl clientId entry
  .ok (row?.map fun row => (entry, row))

end Rows

section Fetch

def anyWildcard : List Value → Except Exn Bool
  | [] => .ok false
  | perm :: rest => do
      if isFieldText (← getField perm "prefix".toList) "*".toList then .ok true
      else anyWildcard rest

def aclPermissions (acl : Value) : Except Exn (List Value) := do
  iterate ((← getField acl "permissions".toList).getD (.list []))

def isWildcard (acl : Value) : Except Exn Bool := do
  anyWildcard (← aclPermissions acl)

-- More is fetched for a scoped admin, of which the check may drop most.
def fetchCount (wildcard : Bool) (limit : Int) : Int :=
  if wildcard then limit else min (limit * 10) 5000

def fetchedLogs (wildcard : Bool) (log : Stream) (limit : Int) : List Entry :=
  xrevrange log none (fetchCount wildcard limit).toNat

def getLogs (acl : Value) (log : Stream) (limit : Int) (clientId : Option (List Text)) :
    Except Exn (List (Entry × LogRow)) := do
  let wildcard ← isWildcard acl
  Capped.collect (logEntry acl (clientId.getD [])) limit (fetchedLogs wildcard log limit) []

end Fetch

section Shown

variable {acl : Value} {clientId : List Text} {entry : Entry}

def Shows (acl : Value) (clientId : List Text) (entry : Entry) : Prop :=
  ∃ row, logRow acl clientId entry = .ok (some row)

-- The entry ends the request with an exception.
def Breaks (acl : Value) (clientId : List Text) (entry : Entry) : Prop :=
  ∃ exn, logRow acl clientId entry = .error exn

theorem breaks_logEntry : Capped.Breaks (logEntry acl clientId) entry ↔
    Breaks acl clientId entry := by
  unfold Capped.Breaks Breaks logEntry
  cases logRow acl clientId entry with
  | error exn => simp [bind, Except.bind]
  | ok row? => simp [bind, Except.bind]

theorem made?_logEntry {pair : Entry × LogRow} : Capped.made? (logEntry acl clientId) entry =
    some pair ↔ pair.1 = entry ∧ logRow acl clientId entry = .ok (some pair.2) := by
  unfold Capped.made? logEntry
  cases logRow acl clientId entry with
  | error exn => simp [bind, Except.bind]
  | ok row? =>
      cases row? with
      | none => simp [bind, Except.bind]
      | some row =>
          obtain ⟨first, second⟩ := pair
          simp [bind, Except.bind, eq_comm]

theorem isSome_made?_logEntry :
    (Capped.made? (logEntry acl clientId) entry).isSome ↔ Shows acl clientId entry := by
  rw [Option.isSome_iff_exists]
  simp only [made?_logEntry]
  constructor
  · rintro ⟨pair, -, hrow⟩
    exact ⟨pair.2, hrow⟩
  · rintro ⟨row, hrow⟩
    exact ⟨(entry, row), rfl, hrow⟩

end Shown

section Wildcard

variable {acl : Value} {clientId : List Text} {entry : Entry}

theorem prefixText_not_http {pre : Value} {status : Nat} {detail : Text} :
    Acl.prefixText pre ≠ .error (.http status detail) := by
  intro h
  cases pre with
  | _ => nomatch h

-- Where the wildcard stands among the permissions the check never comes to refuse.
theorem checkPermissions_wildcard {requested path : Text} {status : Nat} {detail : Text}
    {perms : List Value} (h : anyWildcard perms = .ok true) :
    checkPermissions requested (aclCandidatePaths path) .read perms ≠
      .error (.http status detail) := by
  induction perms with
  | nil => nomatch h
  | cons perm rest ih =>
      cases perm with
      | dict pairs =>
          rw [Acl.checkPermissions_dict]
          have hbefore : Acl.permPrefix (.dict pairs) =
              Acl.prefixText ((Value.lookup pairs "prefix".toList).getD (.str [])) := rfl
          have hwild : (if isFieldText (Value.lookup pairs "prefix".toList) "*".toList then .ok true
              else anyWildcard rest : Except Exn Bool) = .ok true := h
          cases hpre : Acl.permPrefix (.dict pairs) with
          | error exn =>
              intro hhttp
              have hexn : exn = .http status detail := Except.error.inj hhttp
              exact prefixText_not_http (hbefore.symm.trans (hexn ▸ hpre))
          | ok text? =>
              dsimp only [Except.bind]
              by_cases hcovers : text?.any fun text => decide (Acl.Covers text path)
              · rw [if_pos hcovers]
                exact fun hhttp => nomatch hhttp
              · rw [if_neg hcovers]
                apply ih
                by_cases hstar : isFieldText (Value.lookup pairs "prefix".toList) "*".toList
                · exfalso
                  apply hcovers
                  cases hfield : Value.lookup pairs "prefix".toList with
                  | none =>
                      rw [hfield] at hstar
                      nomatch hstar
                  | some value =>
                      rw [hfield] at hstar hbefore
                      cases value with
                      | str text =>
                          have htext : text = "*".toList := of_decide_eq_true hstar
                          rw [hbefore] at hpre
                          obtain rfl := Except.ok.inj hpre
                          exact decide_eq_true (.inl (.inl htext))
                      | _ => nomatch hstar
                · rwa [if_neg hstar] at hwild
      | _ => nomatch h

theorem passesAcl_wildcard (hwild : isWildcard acl = .ok true) (action : Text) :
    passesAcl acl action ≠ .ok false := by
  obtain ⟨perms, hperms, hany⟩ : ∃ perms, aclPermissions acl = .ok perms ∧
      anyWildcard perms = .ok true := by
    unfold isWildcard at hwild
    cases hperms : aclPermissions acl with
    | error exn =>
        rw [hperms] at hwild
        nomatch hwild
    | ok perms =>
        rw [hperms] at hwild
        exact ⟨perms, rfl, hwild⟩
  unfold passesAcl mayRead
  cases logResourceFromAction action with
  | none => exact fun h => nomatch h
  | some resource =>
      have hcheck : checkAcl acl resource .read = checkPermissions resource
          (aclCandidatePaths (stripResourceType resource)) .read perms := by
        unfold aclPermissions at hperms
        unfold checkAcl
        cases hfield : getField acl "permissions".toList with
        | error exn =>
            rw [hfield] at hperms
            nomatch hperms
        | ok field =>
            rw [hfield] at hperms
            dsimp only [bind, Except.bind] at hperms ⊢
            rw [hperms]
      dsimp only
      cases hresult : checkAcl acl resource .read with
      | ok => exact fun h => nomatch h
      | error exn =>
          cases exn with
          | http status detail => exact absurd (hcheck ▸ hresult) (checkPermissions_wildcard hany)
          | _ => exact fun h => nomatch h

-- The client the entry is of is one that is asked for.
def IsAsked (clientId : List Text) (entry : Entry) : Prop :=
  ∃ cid, logClient entry = .ok cid ∧ isAsked clientId cid

theorem isAsked_of_shows (h : Shows acl clientId entry) : IsAsked clientId entry := by
  obtain ⟨row, hrow⟩ := h
  unfold logRow at hrow
  cases hcid : logClient entry with
  | error exn =>
      rw [hcid] at hrow
      nomatch hrow
  | ok cid =>
      rw [hcid] at hrow
      by_cases hasked : isAsked clientId cid
      · exact ⟨cid, hcid, hasked⟩
      · simp [bind, Except.bind, hasked] at hrow

theorem shows_wildcard (hwild : isWildcard acl = .ok true) (hgood : ¬ Breaks acl clientId entry)
    (hasked : IsAsked clientId entry) : Shows acl clientId entry := by
  obtain ⟨cid, hcid, hin⟩ := hasked
  cases hrow : logRow acl clientId entry with
  | error exn => exact absurd ⟨exn, hrow⟩ hgood
  | ok row? =>
      cases row? with
      | some row => exact ⟨row, hrow⟩
      | none =>
          exfalso
          unfold logRow at hrow
          simp only [hcid, hin, if_true, bind, Except.bind] at hrow
          cases haction : logAction entry with
          | error exn => simp [haction] at hrow
          | ok action =>
              cases hpasses : passesAcl acl action with
              | error exn => simp [haction, hpasses] at hrow
              | ok passes =>
                  cases passes with
                  | false => exact passesAcl_wildcard hwild action hpasses
                  | true =>
                      cases hmade : makeRow entry cid action with
                      | error exn => simp [haction, hpasses, hmade] at hrow
                      | ok row => simp [haction, hpasses, hmade] at hrow

end Wildcard

section Runs

variable {narrow wild : Value} {log : Stream} {limit : Int} {clientId : Option (List Text)}

-- What the scoped admin is shown the other one is shown too, or has a full page of what is no
-- older.
def ShowsNoFewer (narrow wild : Value) (log : Stream) (limit : Int)
    (clientId : Option (List Text)) : Prop :=
  ∀ logs, getLogs narrow log limit clientId = .ok logs → ∀ entry ∈ logs.map Prod.fst,
    ∃ page, getLogs wild log limit clientId = .ok page ∧
      (entry ∈ page.map Prod.fst ∨
        (page.length : Int) = limit ∧ ∀ other ∈ page.map Prod.fst, entry.id ≤ other.id)

-- The scoped admin has no page, or one without a row.
def HasNoRows (acl : Value) (log : Stream) (limit : Int) (clientId : List Text) : Prop :=
  Capped.Stops (logEntry acl clientId) (fetchedLogs false log limit) limit.toNat ∨
    ∀ entry ∈ fetchedLogs false log limit, ¬ Shows acl clientId entry

-- The newest entries are all asked for, or the older ones fetched have nothing to show.
def NothingOlder (narrow : Value) (log : Stream) (limit : Int) (clientId : List Text) : Prop :=
  (∀ entry ∈ fetchedLogs true log limit, IsAsked clientId entry) ∨
    ∀ entry ∈ (fetchedLogs false log limit).drop limit.toNat, ¬ Shows narrow clientId entry

theorem mem_made_fst {acl : Value} {asked : List Text} {records : List Entry} {entry : Entry} :
    entry ∈ (Capped.made (logEntry acl asked) records).map Prod.fst ↔
      entry ∈ records ∧ Shows acl asked entry := by
  simp only [Capped.made, List.mem_map, List.mem_filterMap, made?_logEntry]
  constructor
  · rintro ⟨pair, ⟨other, hin, hsame, hshown⟩, rfl⟩
    exact ⟨hsame ▸ hin, pair.2, hsame ▸ hshown⟩
  · rintro ⟨hin, row, hshown⟩
    exact ⟨(entry, row), ⟨entry, hin, rfl, hshown⟩, rfl⟩

theorem getLogs_ok_iff {acl : Value} {wildcard : Bool} (hacl : isWildcard acl = .ok wildcard)
    (hlimit : 1 ≤ limit) {logs : List (Entry × LogRow)} :
    getLogs acl log limit clientId = .ok logs ↔
      ¬ Capped.Stops (logEntry acl (clientId.getD [])) (fetchedLogs wildcard log limit)
          limit.toNat ∧
        logs = (Capped.made (logEntry acl (clientId.getD []))
          (fetchedLogs wildcard log limit)).take limit.toNat := by
  have hempty : (([] : List (Entry × LogRow)).length : Int) < limit := by
    rw [List.length_nil]
    omega
  unfold getLogs
  rw [hacl]
  exact Capped.collect_ok_iff hempty

theorem length_made_lt {acl : Value} {asked : List Text} {records : List Entry} {entry : Entry}
    (hin : entry ∈ records) (h : ¬ Shows acl asked entry) :
    (Capped.made (logEntry acl asked) records).length < records.length := by
  refine lt_of_le_of_ne (Capped.length_made_le _) ?_
  intro hall
  exact h (isSome_made?_logEntry.mp (List.filterMap_length_eq_length.mp hall entry hin))

-- The older ones that only the scoped admin's window has.
theorem older_of_drop {entry other : Entry} (hold : entry ∈ (fetchedLogs false log limit).drop
    limit.toNat) (hnew : other ∈ fetchedLogs true log limit) : entry.id < other.id := by
  have hsorted : log.entries.reverse.Pairwise fun a b => b.id < a.id :=
    List.pairwise_reverse.mpr log.sorted
  rw [← List.take_append_drop limit.toNat log.entries.reverse] at hsorted
  refine (List.pairwise_append.mp hsorted).2.2 other hnew entry ?_
  unfold fetchedLogs xrevrange at hold
  dsimp only at hold
  rw [List.drop_take] at hold
  exact (List.take_prefix _ _).sublist.subset hold

theorem take_fetched (h : (fetchedLogs false log limit).drop limit.toNat ≠ []) :
    (fetchedLogs false log limit).take limit.toNat = fetchedLogs true log limit ∧
      (fetchedLogs true log limit).length = limit.toNat := by
  have hlong := List.length_pos_of_ne_nil h
  unfold fetchedLogs xrevrange at hlong ⊢
  dsimp only at hlong ⊢
  rw [List.length_drop, List.length_take] at hlong
  have hcount : fetchCount true limit = limit := rfl
  rw [List.take_take, List.length_take, hcount]
  exact ⟨by rw [Nat.min_eq_left (by omega)], by omega⟩

theorem mem_fetched_cases {entry : Entry} (h : entry ∈ fetchedLogs false log limit) :
    entry ∈ fetchedLogs true log limit ∨
      entry ∈ (fetchedLogs false log limit).drop limit.toNat := by
  rw [← List.take_append_drop limit.toNat (fetchedLogs false log limit)] at h
  refine (List.mem_append.mp h).imp_left ?_
  intro hin
  unfold fetchedLogs xrevrange at hin ⊢
  dsimp only at hin ⊢
  rw [List.take_take] at hin
  exact List.take_subset_take_left _ (Nat.min_le_left _ _) hin

theorem not_stops_wild {acl : Value} {asked : List Text} :
    ¬ Capped.Stops (logEntry acl asked) (fetchedLogs true log limit) limit.toNat ↔
      ∀ entry ∈ fetchedLogs true log limit, ¬ Breaks acl asked entry := by
  have hlength : (fetchedLogs true log limit).length ≤ limit.toNat := List.length_take_le _ _
  constructor
  · intro h entry hin hbreaks
    obtain ⟨front, rest, hsplit⟩ := List.append_of_mem hin
    refine h ⟨front, entry, rest, hsplit, breaks_logEntry.mpr hbreaks, ?_⟩
    have hrows : (Capped.made (logEntry acl asked) front).length ≤ front.length := Capped.length_made_le _
    rw [hsplit, List.length_append, List.length_cons] at hlength
    omega
  · rintro h ⟨front, entry, rest, hsplit, hbreaks, -⟩
    exact h entry (by rw [hsplit]; simp) (breaks_logEntry.mp hbreaks)

-- An older row is reached when the newest entries do not fill the page.
theorem older_shown {acl : Value} {asked : List Text} {entry older : Entry}
    (hin : entry ∈ fetchedLogs true log limit) (hnot : ¬ Shows acl asked entry)
    (hold : older ∈ (fetchedLogs false log limit).drop limit.toNat)
    (hshows : Shows acl asked older) :
    ∃ e ∈ (fetchedLogs false log limit).drop limit.toNat,
      e ∈ ((Capped.made (logEntry acl asked) (fetchedLogs false log limit)).take limit.toNat).map Prod.fst := by
  obtain ⟨htake, hlength⟩ := take_fetched (List.ne_nil_of_mem hold)
  have hfew := length_made_lt hin hnot
  have hrows : Capped.made (logEntry acl asked) (fetchedLogs false log limit) =
      Capped.made (logEntry acl asked) (fetchedLogs true log limit) ++
        Capped.made (logEntry acl asked) ((fetchedLogs false log limit).drop limit.toNat) := by
    rw [← htake]
    unfold Capped.made
    rw [← List.filterMap_append, List.take_append_drop]
  have hsome : older ∈ (Capped.made (logEntry acl asked)
      ((fetchedLogs false log limit).drop limit.toNat)).map Prod.fst :=
    mem_made_fst.mpr ⟨hold, hshows⟩
  cases hmore : Capped.made (logEntry acl asked) ((fetchedLogs false log limit).drop limit.toNat) with
  | nil =>
      rw [hmore] at hsome
      nomatch hsome
  | cons first others =>
      have hfirst : first.1 ∈ (Capped.made (logEntry acl asked)
          ((fetchedLogs false log limit).drop limit.toNat)).map Prod.fst := by
        rw [hmore]
        simp
      refine ⟨first.1, (mem_made_fst.mp hfirst).1, List.mem_map_of_mem ?_⟩
      rw [hrows, hmore, List.take_append]
      have hroom : limit.toNat - (Capped.made (logEntry acl asked) (fetchedLogs true log limit)).length ≠ 0 := by
        omega
      obtain ⟨left, hleft⟩ := Nat.exists_eq_succ_of_ne_zero hroom
      rw [hleft, List.take_succ_cons]
      simp

-- The scoped admin is shown more only when older rows are among what was fetched for it, and
-- another client's entries among the newest.
theorem showsNoFewer_iff (hnarrow : isWildcard narrow = .ok false)
    (hwild : isWildcard wild = .ok true) (hlimit : 1 ≤ limit) :
    ShowsNoFewer narrow wild log limit clientId ↔
      HasNoRows narrow log limit (clientId.getD []) ∨
        (∀ entry ∈ fetchedLogs true log limit, ¬ Breaks wild (clientId.getD []) entry) ∧
          NothingOlder narrow log limit (clientId.getD []) := by
  have hscope (logs : List (Entry × LogRow)) : getLogs narrow log limit clientId = .ok logs ↔ _ :=
    getLogs_ok_iff hnarrow hlimit
  have hall (logs : List (Entry × LogRow)) : getLogs wild log limit clientId = .ok logs ↔ _ :=
    getLogs_ok_iff hwild hlimit
  have hlength : (fetchedLogs true log limit).length ≤ limit.toNat := List.length_take_le _ _
  generalize hasked : clientId.getD [] = asked at *
  constructor
  · intro h
    refine or_iff_not_imp_left.mpr ?_
    intro hrows
    obtain ⟨hgoes, hsome⟩ := not_or.mp hrows
    simp only [not_forall, not_not] at hsome
    obtain ⟨seen, hseen, hshows⟩ := hsome
    have hlogs := (hscope _).mpr ⟨hgoes, rfl⟩
    have hpage (entry : Entry) := h _ hlogs entry
    -- the page has a first row, so the other admin has a page too
    have hgood : ¬ Capped.Stops (logEntry wild asked) (fetchedLogs true log limit) limit.toNat := by
      have hin : seen ∈ (Capped.made (logEntry narrow asked) (fetchedLogs false log limit)).map Prod.fst :=
        mem_made_fst.mpr ⟨hseen, hshows⟩
      cases hfirst : Capped.made (logEntry narrow asked) (fetchedLogs false log limit) with
      | nil =>
          rw [hfirst] at hin
          nomatch hin
      | cons first others =>
          obtain ⟨count, hcount⟩ : ∃ count, limit.toNat = count + 1 := ⟨limit.toNat - 1, by omega⟩
          obtain ⟨page, hok, -⟩ := hpage first.1 (by rw [hfirst, hcount]; simp)
          exact ((hall page).mp hok).1
    refine ⟨not_stops_wild.mp hgood, ?_⟩
    by_contra hneither
    obtain ⟨hother, hold⟩ := not_or.mp hneither
    simp only [not_forall, not_not] at hother hold
    obtain ⟨entry, hin, hnot⟩ := hother
    obtain ⟨older, holder, holderShows⟩ := hold
    have hhidden (acl : Value) : ¬ Shows acl asked entry := fun hs => hnot (isAsked_of_shows hs)
    obtain ⟨reached, hreached, hshown⟩ := older_shown hin (hhidden narrow) holder holderShows
    obtain ⟨page, hok, hcases⟩ := hpage reached hshown
    obtain ⟨-, rfl⟩ := (hall page).mp hok
    rcases hcases with hmem | ⟨hfull, -⟩
    · have hrow := List.map_subset Prod.fst (List.take_subset limit.toNat _) hmem
      exact lt_irrefl _ (older_of_drop hreached (mem_made_fst.mp hrow).1)
    · have hfew := length_made_lt hin (hhidden wild)
      rw [List.length_take] at hfull
      omega
  · rintro hcond logs hlogs entry hentry
    obtain ⟨hgoes, rfl⟩ := (hscope logs).mp hlogs
    have hrow := mem_made_fst.mp (List.map_subset Prod.fst (List.take_subset limit.toNat _) hentry)
    rcases hcond with hstops | ⟨hgood, hnothing⟩
    · rcases hstops with hstops | hnone
      · exact absurd hstops hgoes
      · exact absurd hrow.2 (hnone entry hrow.1)
    · have hshort : (Capped.made (logEntry wild asked) (fetchedLogs true log limit)).length ≤ limit.toNat :=
        le_trans (Capped.length_made_le _) hlength
      refine ⟨Capped.made (logEntry wild asked) (fetchedLogs true log limit), (hall _).mpr
        ⟨not_stops_wild.mpr hgood, (List.take_of_length_le hshort).symm⟩, ?_⟩
      rcases mem_fetched_cases hrow.1 with hnew | hold
      · refine .inl (mem_made_fst.mpr ⟨hnew, ?_⟩)
        exact shows_wildcard hwild (hgood entry hnew) (isAsked_of_shows hrow.2)
      · rcases hnothing with hfilled | hempty
        · refine .inr ⟨?_, ?_⟩
          · have heach : ∀ e ∈ fetchedLogs true log limit, (Capped.made? (logEntry wild asked) e).isSome := by
              intro e he
              exact isSome_made?_logEntry.mpr (shows_wildcard hwild (hgood e he) (hfilled e he))
            have hexact := List.filterMap_length_eq_length.mpr heach
            have hcount := (take_fetched (List.ne_nil_of_mem hold)).2
            unfold Capped.made
            omega
          · intro other hother
            exact (older_of_drop hold (mem_made_fst.mp hother).1).le
        · exact absurd hrow.2 (hempty entry hold)

def hit (seq : Nat) (client : Bytes) : Entry :=
  ⟨⟨0, seq⟩, [("client_id".toList, client), ("action".toList, utf8 "GET /kv/a/x".toList),
    ("timestamp".toList, [49]), ("status".toList, utf8 "Hit (200)".toList)]⟩

-- A hit of client `a`, then one of client `b`.
def hits : Stream where
  entries := [hit 1 [97], hit 2 [98]]
  last := ⟨0, 2⟩
  expireAt := none
  sorted := List.pairwise_pair.mpr (show (⟨0, 1⟩ : StreamId) < ⟨0, 2⟩ by decide)
  le_last := by
    intro entry he
    simp only [List.mem_cons, List.not_mem_nil, or_false] at he
    rcases he with rfl | rfl
    · exact show (⟨0, 1⟩ : StreamId) ≤ ⟨0, 2⟩ by decide
    · exact le_refl _

def readerAcl : Value :=
  permissionsAcl [permission ['a'] ['r']]

theorem showsNoFewer_hits :
    isWildcard readerAcl = .ok false ∧ isWildcard rescueAcl = .ok true ∧
      ShowsNoFewer readerAcl rescueAcl hits 2 (some [['a']]) := by
  refine ⟨rfl, rfl, (showsNoFewer_iff rfl rfl (by decide)).mpr (.inr ⟨?_, .inr ?_⟩)⟩
  · have hrow (entry : Entry) (hin : entry ∈ [hit 2 [98], hit 1 [97]]) :
        (logRow rescueAcl [['a']] entry).isOk := by
      simp only [List.mem_cons, List.not_mem_nil, or_false] at hin
      rcases hin with rfl | rfl
      · decide +kernel
      · decide +kernel
    rintro entry hin ⟨exn, hexn⟩
    have hok := hrow entry hin
    rw [show logRow rescueAcl [['a']] entry = .error exn from hexn] at hok
    nomatch hok
  · exact fun entry hin => nomatch hin

-- The wildcard admin's window of one holds the other client's hit only.
theorem wildcard_misses_row : ¬ ∀ (narrow wild : Value) (log : Stream) (limit : Int)
    (clientId : Option (List Text)), isWildcard narrow = .ok false → isWildcard wild = .ok true →
      1 ≤ limit → ShowsNoFewer narrow wild log limit clientId := by
  intro hall
  have hnarrow : getLogs readerAcl hits 1 (some [['a']]) =
      .ok [(hit 1 [97], ⟨1, ['a'], "GET /kv/a/x".toList, "Hit (200)".toList⟩)] := by
    decide +kernel
  have hwild : getLogs rescueAcl hits 1 (some [['a']]) = .ok [] := by decide +kernel
  obtain ⟨page, hpage, hcases⟩ := hall readerAcl rescueAcl hits 1 (some [['a']]) rfl rfl
    (by decide) _ hnarrow (hit 1 [97]) (by simp)
  rw [hwild] at hpage
  obtain rfl := Except.ok.inj hpage
  rcases hcases with hmem | ⟨hfull, -⟩
  · nomatch hmem
  · simp at hfull

end Runs

end Stra2us.Admin
