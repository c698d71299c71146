import Stra2us.Backup.Grants

namespace Stra2us.Backup

open Foundation Server

section Sieve

variable {cfg : Restoring}

-- The filter lets the entry through.
def Item.keeps (cfg : Restoring) (item : Item) : Bool :=
  match (item.task cfg).refused with
  | .ok false => true
  | _ => false

theorem keeps_of_refused {item : Item} {refused : Bool}
    (h : (item.task cfg).refused = .ok refused) : item.keeps cfg = !refused := by
  unfold Item.keeps
  rw [h]
  cases refused with
  | true => rfl
  | false => rfl

-- What a step does to the store depends on the store alone.
theorem Task.run_congr {task : Task} {force : Bool} {s t : State} (h : s.store = t.store) :
    (task.run force s).1 = (task.run force t).1 ∧
      (task.run force s).2.store = (task.run force t).2.store := by
  rcases task.run_cases with hrefused | ⟨exn, hstopped⟩ | ⟨name, haccepts⟩
  · rw [Task.run_rejected hrefused, Task.run_rejected hrefused]
    exact ⟨rfl, h⟩
  · rw [Task.run_stopped hstopped, Task.run_stopped hstopped]
    exact ⟨rfl, h⟩
  · by_cases hskips : task.Skips force name s.store
    · rw [Task.run_skipped haccepts hskips, Task.run_skipped haccepts (h ▸ hskips)]
      exact ⟨rfl, h⟩
    · have hs := Task.run_written haccepts hskips
      have ht := Task.run_written (s := t) haccepts (h ▸ hskips)
      rw [hs.1, hs.2.1, ht.1, ht.2.1, h]
      exact ⟨rfl, rfl⟩

-- A restore comes to the same when the entries it turns away are left out.
theorem batch_filter_keeps {items : List Item}
    (hrefused : ∀ item ∈ items, ∃ refused, (item.task cfg).refused = .ok refused) {s t : State}
    (h : s.store = t.store) :
    (batch (restoreItem cfg) items s).1 = (batch (restoreItem cfg) (items.filter (Item.keeps cfg)) t).1 ∧
      (batch (restoreItem cfg) items s).2.store =
        (batch (restoreItem cfg) (items.filter (Item.keeps cfg)) t).2.store := by
  induction items generalizing s t with
  | nil => exact ⟨rfl, h⟩
  | cons item rest ih =>
      have hrest := fun other hother => hrefused other (List.mem_cons_of_mem item hother)
      obtain ⟨refused, hcheck⟩ := hrefused item List.mem_cons_self
      cases refused with
      | true =>
          have hok : (restoreItem cfg item s).1 = .ok () :=
            congrArg Prod.fst (Task.run_rejected hcheck)
          have hsame : (restoreItem cfg item s).2.store = t.store :=
            (congrArg (fun r => r.2.store) (Task.run_rejected hcheck)).trans h
          rw [batch_cons_ok hok, List.filter_cons_of_neg (by simp [keeps_of_refused hcheck])]
          exact ih hrest hsame
      | false =>
          have hstep : (restoreItem cfg item s).1 = (restoreItem cfg item t).1 ∧
              (restoreItem cfg item s).2.store = (restoreItem cfg item t).2.store :=
            Task.run_congr h
          rw [List.filter_cons_of_pos (by simp [keeps_of_refused hcheck])]
          cases hresult : (restoreItem cfg item t).1 with
          | ok value =>
              rw [batch_cons_ok (hstep.1.trans hresult), batch_cons_ok hresult]
              exact ih hrest hstep.2
          | error exn =>
              rw [batch_cons_error (hstep.1.trans hresult), batch_cons_error hresult]
              exact ⟨rfl, hstep.2⟩

theorem rejected_note (item : Item) (outcome : Outcome) (result : Result) :
    ((item.task cfg).note outcome result).rejectedOutsideAppFilter =
      result.rejectedOutsideAppFilter := by
  cases item <;> rfl

theorem rejected_restoreItem {item : Item} (h : item.keeps cfg = true) (s : State) :
    (restoreItem cfg item s).2.result.rejectedOutsideAppFilter =
      s.result.rejectedOutsideAppFilter := by
  unfold restoreItem
  rcases (item.task cfg).run_cases with hrefused | ⟨exn, hstopped⟩ | ⟨name, haccepts⟩
  · rw [keeps_of_refused hrefused] at h
    cases h
  · rw [Task.run_stopped hstopped]
  · unfold Task.run
    rw [haccepts.1, haccepts.2]
    dsimp only
    by_cases hskips : (item.task cfg).present name s.store = true ∧ ¬ cfg.forceOverwrite = true
    · rw [if_pos hskips]
      exact rejected_note item _ _
    · rw [if_neg hskips]
      cases (item.task cfg).write name ((item.task cfg).present name s.store) s.store with
      | mk result store =>
          cases result with
          | ok value => exact rejected_note item _ _
          | error exn => rfl

theorem rejected_batch {items : List Item} (h : ∀ item ∈ items, item.keeps cfg = true) (s : State) :
    (batch (restoreItem cfg) items s).2.result.rejectedOutsideAppFilter =
      s.result.rejectedOutsideAppFilter :=
  batch_keeps (fun a b : State => b.result.rejectedOutsideAppFilter =
      a.result.rejectedOutsideAppFilter) (fun _ => rfl)
    (fun a b c (hab : b.result.rejectedOutsideAppFilter = a.result.rejectedOutsideAppFilter)
      (hbc : c.result.rejectedOutsideAppFilter = b.result.rejectedOutsideAppFilter) =>
        hbc.trans hab) (fun item hitem s => rejected_restoreItem (h item hitem) s) s

end Sieve

section Sections

variable {cfg : Restoring} {app : Text} {s : Store} {depth : Nat}

-- The entries but for the activity log.
def BackupEnvelope.records (env : BackupEnvelope) : List Item :=
  env.clients.entries.map (fun entry => .client entry.1 entry.2) ++
  env.adminAcls.entries.map (fun entry => .adminAcl entry.1 entry.2) ++
  env.kv.entries.map (fun entry => .kv entry.1 entry.2) ++
  env.queues.entries.map (fun entry => .queue entry.1 entry.2) ++
  env.deviceToApp.entries.map (fun entry => .deviceToApp entry.1 entry.2)

theorem items_eq (env : BackupEnvelope) :
    env.items = env.records ++ (env.activityLog.map Item.activityLog).toList := rfl

theorem refuses_forApp (happ : app ≠ []) (belongs : Text → Except Exn Bool) :
    (cfg.forApp app).refuses belongs = (belongs app).map (!·) :=
  refuses_of_filter rfl happ belongs

theorem keeps_of_belongs {item : Item} {b : Bool} (happ : app ≠ [])
    (belongs : Text → Except Exn Bool)
    (hrefused : (item.task (cfg.forApp app)).refused = (cfg.forApp app).refuses belongs)
    (hbelongs : belongs app = .ok b) :
    (item.task (cfg.forApp app)).refused = .ok (!b) ∧ item.keeps (cfg.forApp app) = b := by
  have hcheck : (item.task (cfg.forApp app)).refused = .ok (!b) := by
    rw [hrefused, refuses_forApp happ, hbelongs]
    rfl
  exact ⟨hcheck, by rw [keeps_of_refused hcheck, Bool.not_not]⟩

-- A section that is filtered when it is collected has the entries that are let through later.
theorem map_collectEach_filter {β : Type} {all own : Text → Except Exn (Option β)}
    {names : List Text} {d e : Dict Str β} {p : Item → Bool} {f : Str × β → Item}
    (hnodup : names.Nodup) (hd : collectEach all names = .ok d) (he : collectEach own names = .ok e)
    (h : ∀ name ∈ names, taken own name = (taken all name).filter (p ∘ f)) :
    e.entries.map f = (d.entries.map f).filter p := by
  rw [List.filter_map, entries_collectEach hnodup hd, entries_collectEach hnodup he,
    List.filter_filterMap]
  exact congrArg (List.map f) (List.filterMap_congr h)

theorem clients_filter (happ : app ≠ []) {all own : Dict Str ClientRecord}
    (hall : collectClients depth s none = .ok all)
    (hown : collectClients depth s (some app) = .ok own) :
    own.entries.map (fun entry => Item.client entry.1 entry.2) =
      (all.entries.map fun entry => Item.client entry.1 entry.2).filter
        (Item.keeps (cfg.forApp app)) := by
  apply map_collectEach_filter (nodup_scanStrings s _ _) hall hown
  intro name hname
  obtain ⟨found, hfound⟩ := collectEach_ok hall name hname
  obtain ⟨found', hfound'⟩ := collectEach_ok hown name hname
  obtain ⟨secret, acl, keep, hsecret, hacl, hkeep, rfl⟩ := collectClient_ok_iff.mp hfound
  obtain ⟨secret', acl', keep', hsecret', hacl', hkeep', rfl⟩ := collectClient_ok_iff.mp hfound'
  obtain rfl := Except.ok.inj (hsecret.symm.trans hsecret')
  obtain rfl := Except.ok.inj (hacl.symm.trans hacl')
  obtain rfl : true = keep := Except.ok.inj hkeep
  have hkeeps : (Item.client (.text name) ⟨.text secret, acl⟩).keeps (cfg.forApp app) = keep' :=
    (keeps_of_belongs happ (clientMatchesApp acl) rfl hkeep').2
  simp only [taken, hfound, hfound', if_true, Option.filter_some, Function.comp, hkeeps]
  cases keep' <;> rfl

theorem adminAcls_filter (happ : app ≠ []) {all own : Dict Str Value}
    (hall : collectAdminAcls depth s none = .ok all)
    (hown : collectAdminAcls depth s (some app) = .ok own) :
    own.entries.map (fun entry => Item.adminAcl entry.1 entry.2) =
      (all.entries.map fun entry => Item.adminAcl entry.1 entry.2).filter
        (Item.keeps (cfg.forApp app)) := by
  apply map_collectEach_filter (nodup_scanStrings s _ _) hall hown
  intro name hname
  have hkeeps {acl : Value} {b : Bool} (h : adminAclMatchesApp acl app = .ok b) :
      (Item.adminAcl (.text name) acl).keeps (cfg.forApp app) = b :=
    (keeps_of_belongs happ (adminAclMatchesApp acl) rfl h).2
  obtain ⟨found, hfound⟩ := collectEach_ok hall name hname
  obtain ⟨found', hfound'⟩ := collectEach_ok hown name hname
  cases found with
  | none =>
      cases found' with
      | none => simp [taken, hfound, hfound']
      | some acl =>
          obtain ⟨raw, hraw, hloads, -⟩ := collectAdminAcl_ok_iff.mp hfound'
          have htaken : collectAdminAcl depth s none name = .ok (some acl) :=
            collectAdminAcl_ok_iff.mpr ⟨raw, hraw, hloads, rfl⟩
          rw [hfound] at htaken
          cases htaken
  | some acl =>
      obtain ⟨raw, hraw, hloads, -⟩ := collectAdminAcl_ok_iff.mp hfound
      cases found' with
      | some acl' =>
          obtain ⟨raw', hraw', hloads', hmatches⟩ := collectAdminAcl_ok_iff.mp hfound'
          obtain rfl := Option.some.inj (hraw.symm.trans hraw')
          obtain rfl := Except.ok.inj (hloads.symm.trans hloads')
          simp only [taken, hfound, hfound', Option.filter_some, Function.comp, hkeeps hmatches,
            if_true]
      | none =>
          have hnot : adminAclMatchesApp acl app ≠ .ok true := by
            intro hmatches
            have htaken : collectAdminAcl depth s (some app) name = .ok (some acl) :=
              collectAdminAcl_ok_iff.mpr ⟨raw, hraw, hloads, hmatches⟩
            rw [hfound'] at htaken
            cases htaken
          have hdrops : (Item.adminAcl (.text name) acl).keeps (cfg.forApp app) = false := by
            cases hmatches : adminAclMatchesApp acl app with
            | ok b =>
                cases b with
                | true => exact absurd hmatches hnot
                | false => exact hkeeps hmatches
            | error exn =>
                have hcheck : ((Item.adminAcl (.text name) acl).task (cfg.forApp app)).refused =
                    .error exn := by
                  refine (refuses_forApp happ (adminAclMatchesApp acl)).trans ?_
                  rw [hmatches]
                  rfl
                unfold Item.keeps
                rw [hcheck]
          simp only [taken, hfound, hfound', Option.filter_some, Function.comp, hdrops,
            Bool.false_eq_true, if_false]

theorem device_filter (happ : app ≠ []) {all own : Dict Str Str}
    (hall : collectDeviceToApp s none = .ok all) (hown : collectDeviceToApp s (some app) = .ok own) :
    own.entries.map (fun entry => Item.deviceToApp entry.1 entry.2) =
      (all.entries.map fun entry => Item.deviceToApp entry.1 entry.2).filter
        (Item.keeps (cfg.forApp app)) := by
  apply map_collectEach_filter (nodup_scanStrings s _ _) hall hown
  intro name hname
  obtain ⟨found, hfound⟩ := collectEach_ok hall name hname
  obtain ⟨val, hval, hsome⟩ := bind_ok_iff.mp hfound
  have hfound' : collectDevice s (some app) name =
      .ok (if (some app).all (val = ·) then some (.text val) else none) :=
    bind_ok_iff.mpr ⟨val, hval, rfl⟩
  have hall' : found = some (.text val) := (Except.ok.inj hsome).symm
  have hbelongs : (Item.deviceToApp (.text name) (.text val)).keeps (cfg.forApp app) =
      decide (val = app) := by
    refine (keeps_of_belongs happ (fun filter => .ok ((Str.text val).isText filter)) rfl ?_).2
    simp [Str.isText]
  simp only [taken, hfound, hall', hfound', Option.filter_some, Function.comp, hbelongs,
    Option.all_some]
  by_cases hval : val = app
  · simp [hval]
  · simp [hval]

theorem entries_ofList_text {β : Type} {names : List Text} (h : names.Nodup) (f : Text → β) :
    (Dict.ofList (names.map fun name => (Str.text name, f name))).entries =
      names.map fun name => (Str.text name, f name) := by
  apply Dict.entries_ofList
  have hfst : (names.map fun name => (Str.text name, f name)).map Prod.fst = names.map Str.text := by
    simp
  rw [hfst]
  exact h.map fun _ _ heq => Str.text.inj heq

theorem kv_filter (happ : app ≠ []) :
    (collectKv s (some app)).entries.map (fun entry => Item.kv entry.1 entry.2) =
      ((collectKv s none).entries.map fun entry => Item.kv entry.1 entry.2).filter
        (Item.keeps (cfg.forApp app)) := by
  have hnodup := nodup_scanStrings s "kv:".toList []
  have hkeeps (key : Text) (record : KvRecord) : (Item.kv (.text key) record).keeps (cfg.forApp app) =
      kvKeyBelongsToApp (.text key) app :=
    (keeps_of_belongs happ (fun app => .ok (kvKeyBelongsToApp (.text key) app)) rfl rfl).2
  unfold collectKv
  dsimp only
  rw [entries_ofList_text (hnodup.filter _), entries_ofList_text (hnodup.filter _), List.map_map,
    List.map_map, List.filter_map, List.filter_filter]
  refine congrArg (List.map _) (List.filter_congr fun key _ => ?_)
  simp only [Function.comp, hkeeps, Option.all_some, Option.all_none, and_true, Bool.decide_and,
    Bool.decide_eq_true]
  exact Bool.and_comm _ _

theorem queues_filter (happ : app ≠ []) :
    (collectQueues s (some app)).entries.map (fun entry => Item.queue entry.1 entry.2) =
      ((collectQueues s none).entries.map fun entry => Item.queue entry.1 entry.2).filter
        (Item.keeps (cfg.forApp app)) := by
  have hnodup := nodup_scanStreams s "q:".toList
  have hkeeps (topic : Text) (entries : List StreamEntry) :
      (Item.queue (.text topic) entries).keeps (cfg.forApp app) =
        queueTopicBelongsToApp (.text topic) app :=
    (keeps_of_belongs happ (fun app => .ok (queueTopicBelongsToApp (.text topic) app)) rfl rfl).2
  unfold collectQueues
  dsimp only
  rw [entries_ofList_text (hnodup.filter _), entries_ofList_text (hnodup.filter _), List.map_map,
    List.map_map, List.filter_map, List.filter_filter]
  refine congrArg (List.map _) (List.filter_congr fun topic _ => ?_)
  simp [Function.comp, hkeeps]

end Sections

section PerApp

variable {cfg : Restoring} {app : Text} {s : Store} {whole own : BackupEnvelope}
  {includeLogs includeLogs' : Bool} {exportedAt exportedAt' : Text}

theorem records_filter (happ : app ≠ [])
    (hwhole : collectWholeEnvelope cfg.jsonDepth s includeLogs exportedAt = .ok whole)
    (hown : collectPerAppEnvelope cfg.jsonDepth s app includeLogs' exportedAt' = .ok own) :
    own.records = whole.records.filter (Item.keeps (cfg.forApp app)) := by
  obtain ⟨clients, adminAcls, deviceToApp, hclients, hadmins, hdevices, rfl⟩ :=
    collectWhole_ok_iff.mp hwhole
  obtain ⟨clients', adminAcls', deviceToApp', log, hclients', hadmins', hdevices', -, rfl⟩ :=
    collectPerApp_ok_iff.mp hown
  unfold BackupEnvelope.records
  simp only [List.filter_append]
  rw [clients_filter happ hclients hclients', adminAcls_filter happ hadmins hadmins',
    kv_filter happ, queues_filter happ, device_filter happ hdevices hdevices']

theorem refused_iff (happ : app ≠ []) {item : Item} (belongs : Text → Except Exn Bool)
    (hrefused : (item.task (cfg.forApp app)).refused = (cfg.forApp app).refuses belongs) :
    (∃ refused, (item.task (cfg.forApp app)).refused = .ok refused) ↔ ∃ b, belongs app = .ok b := by
  rw [hrefused, refuses_forApp happ]
  cases belongs app with
  | ok b => simp [Except.map]
  | error exn => simp [Except.map]

def Judged (cfg : Restoring) (app : Text) (items : List Item) : Prop :=
  ∀ item ∈ items, ∃ refused, (item.task (cfg.forApp app)).refused = .ok refused

theorem collectClients_of_judged (happ : app ≠ []) {all : Dict Str ClientRecord}
    (hall : collectClients cfg.jsonDepth s none = .ok all) :
    (∃ own, collectClients cfg.jsonDepth s (some app) = .ok own) ↔
      Judged cfg app (all.entries.map fun entry => .client entry.1 entry.2) := by
  have hnodup := nodup_scanStrings s "client:".toList ":secret".toList
  constructor
  · rintro ⟨own, hown⟩ item hitem
    obtain ⟨⟨key, record⟩, hmem, rfl⟩ := List.mem_map.mp hitem
    obtain ⟨name, hname, rfl, hfound⟩ := (mem_collectEach hnodup hall).mp hmem
    obtain ⟨found', hfound'⟩ := collectEach_ok hown name hname
    obtain ⟨secret, acl, keep, -, hacl, -, hrecord⟩ := collectClient_ok_iff.mp hfound
    obtain ⟨secret', acl', keep', -, hacl', hkeep', -⟩ := collectClient_ok_iff.mp hfound'
    obtain rfl := Except.ok.inj (hacl.symm.trans hacl')
    refine (refused_iff happ (clientMatchesApp record.acl) rfl).mpr ⟨keep', ?_⟩
    split_ifs at hrecord
    obtain rfl := Option.some.inj hrecord
    exact hkeep'
  · intro hjudged
    refine ⟨_, collectEach_eq fun name hname => ?_⟩
    obtain ⟨found, hfound⟩ := collectEach_ok hall name hname
    obtain ⟨secret, acl, keep, hsecret, hacl, hkeep, rfl⟩ := collectClient_ok_iff.mp hfound
    obtain rfl : true = keep := Except.ok.inj hkeep
    have hitem : Item.client (.text name) ⟨.text secret, acl⟩ ∈
        all.entries.map fun entry => Item.client entry.1 entry.2 :=
      List.mem_map.mpr ⟨(.text name, ⟨.text secret, acl⟩),
        (mem_collectEach hnodup hall).mpr ⟨name, hname, rfl, hfound⟩, rfl⟩
    obtain ⟨b, hb⟩ := (refused_iff happ (clientMatchesApp acl) rfl).mp (hjudged _ hitem)
    exact ⟨_, collectClient_ok_iff.mpr ⟨secret, acl, b, hsecret, hacl, hb, rfl⟩⟩

theorem collectAdminAcls_of_judged (happ : app ≠ []) {all : Dict Str Value}
    (hall : collectAdminAcls cfg.jsonDepth s none = .ok all) :
    (∃ own, collectAdminAcls cfg.jsonDepth s (some app) = .ok own) ↔
      Judged cfg app (all.entries.map fun entry => .adminAcl entry.1 entry.2) := by
  have hnodup := nodup_scanStrings s "admin_acls:".toList []
  constructor
  · rintro ⟨own, hown⟩ item hitem
    obtain ⟨⟨key, acl⟩, hmem, rfl⟩ := List.mem_map.mp hitem
    obtain ⟨name, hname, rfl, hfound⟩ := (mem_collectEach hnodup hall).mp hmem
    obtain ⟨raw, hraw, hloads, -⟩ := collectAdminAcl_ok_iff.mp hfound
    refine (refused_iff happ (adminAclMatchesApp acl) rfl).mpr ?_
    exact (collectAdminAcl_returns_iff hraw hloads).mp (collectEach_ok hown name hname)
  · intro hjudged
    refine ⟨_, collectEach_eq fun name hname => ?_⟩
    obtain ⟨found, hfound⟩ := collectEach_ok hall name hname
    cases found with
    | none => exact ⟨none, collectAdminAcl_skips hfound⟩
    | some acl =>
        obtain ⟨raw, hraw, hloads, -⟩ := collectAdminAcl_ok_iff.mp hfound
        have hitem : Item.adminAcl (.text name) acl ∈
            all.entries.map fun entry => Item.adminAcl entry.1 entry.2 :=
          List.mem_map.mpr ⟨(.text name, acl),
            (mem_collectEach hnodup hall).mpr ⟨name, hname, rfl, hfound⟩, rfl⟩
        refine (collectAdminAcl_returns_iff hraw hloads).mpr ?_
        exact (refused_iff happ (adminAclMatchesApp acl) rfl).mp (hjudged _ hitem)

-- The activity log comes last and is nobody else's business.
theorem peek_of_records (env : BackupEnvelope) (store : Store) {key : Text}
    (hkey : key ≠ activityLogKey) : (applyEnvelope cfg env store).2.peek key =
      (batch (restoreItem cfg) env.records (.start store)).2.store.peek key := by
  change (batch (restoreItem cfg) env.items (.start store)).2.store.peek key = _
  rw [items_eq]
  cases hrun : (batch (restoreItem cfg) env.records (.start store)).1 with
  | error exn => rw [batch_append_error hrun]
  | ok value =>
      rw [batch_append_ok hrun]
      refine peek_batch cfg ?_ _
      intro item hitem slot hslot
      obtain ⟨entries, hlog⟩ : ∃ entries, item = .activityLog entries := by
        cases hactivity : env.activityLog with
        | none => simp [hactivity] at hitem
        | some entries => exact ⟨entries, by simpa [hactivity] using hitem⟩
      subst hlog
      obtain rfl := List.mem_singleton.mp hslot
      exact hkey.symm

-- The restore judges every entry exactly when the dump of the app, without the log, comes about.
theorem collectPerApp_iff_judged (happ : app ≠ []) (exportedAt' : Text)
    (hwhole : collectWholeEnvelope cfg.jsonDepth s includeLogs exportedAt = .ok whole) :
    (∃ own, collectPerAppEnvelope cfg.jsonDepth s app false exportedAt' = .ok own) ↔
      Judged cfg app whole.records := by
  obtain ⟨clients, adminAcls, deviceToApp, hclients, hadmins, hdevices, rfl⟩ :=
    collectWhole_ok_iff.mp hwhole
  have hsplit : Judged cfg app (BackupEnvelope.mk .whole .none (.str exportedAt) clients adminAcls
      (collectKv s none) (collectQueues s none)
      (if includeLogs then some (collectStream s activityLogKey) else none) deviceToApp).records ↔
        Judged cfg app (clients.entries.map fun entry => .client entry.1 entry.2) ∧
          Judged cfg app (adminAcls.entries.map fun entry => .adminAcl entry.1 entry.2) := by
    have hfree {β : Type} (d : Dict Str β) (f : Str × β → Item)
        (h : ∀ entry, ∃ b, ((f entry).task (cfg.forApp app)).refused = .ok b) :
        Judged cfg app (d.entries.map f) := by
      intro item hitem
      obtain ⟨entry, -, rfl⟩ := List.mem_map.mp hitem
      exact h entry
    have hkv := hfree (collectKv s none) (fun entry => .kv entry.1 entry.2) fun entry =>
      (refused_iff happ (fun app => .ok (kvKeyBelongsToApp entry.1 app)) rfl).mpr ⟨_, rfl⟩
    have hqueues := hfree (collectQueues s none) (fun entry => .queue entry.1 entry.2) fun entry =>
      (refused_iff happ (fun app => .ok (queueTopicBelongsToApp entry.1 app)) rfl).mpr ⟨_, rfl⟩
    have hdevice := hfree deviceToApp (fun entry => .deviceToApp entry.1 entry.2) fun entry =>
      (refused_iff happ (fun filter => .ok (entry.2.isText filter)) rfl).mpr ⟨_, rfl⟩
    unfold Judged BackupEnvelope.records at *
    simp only [List.forall_mem_append]
    exact ⟨fun h => h.1.1.1, fun h => ⟨⟨⟨h, hkv⟩, hqueues⟩, hdevice⟩⟩
  rw [hsplit, ← collectClients_of_judged happ hclients, ← collectAdminAcls_of_judged happ hadmins]
  constructor
  · rintro ⟨own, hown⟩
    obtain ⟨clients', adminAcls', -, -, hclients', hadmins', -⟩ := collectPerApp_ok_iff.mp hown
    exact ⟨⟨clients', hclients'⟩, adminAcls', hadmins'⟩
  · rintro ⟨⟨clients', hclients'⟩, adminAcls', hadmins'⟩
    obtain ⟨deviceToApp', hdevices'⟩ : ∃ own, collectDeviceToApp s (some app) = .ok own := by
      refine ⟨_, collectEach_eq fun name hname => ?_⟩
      obtain ⟨found, hfound⟩ := collectEach_ok hdevices name hname
      obtain ⟨val, hval, -⟩ := bind_ok_iff.mp hfound
      exact ⟨_, bind_ok_iff.mpr ⟨val, hval, rfl⟩⟩
    exact ⟨_, collectPerApp_ok_iff.mpr
      ⟨clients', adminAcls', deviceToApp', none, hclients', hadmins', hdevices', rfl, rfl⟩⟩

theorem judged_of_collected (happ : app ≠ [])
    (hwhole : collectWholeEnvelope cfg.jsonDepth s includeLogs exportedAt = .ok whole)
    (hown : collectPerAppEnvelope cfg.jsonDepth s app includeLogs' exportedAt' = .ok own) :
    Judged cfg app whole.records := by
  obtain ⟨clients, adminAcls, deviceToApp, log, hclients, hadmins, hdevices, -, -⟩ :=
    collectPerApp_ok_iff.mp hown
  have hlog : collectOwnLog s clients false = .ok none := rfl
  rw [← collectPerApp_iff_judged happ exportedAt' hwhole]
  simp only [collectPerApp_ok_iff]
  exact ⟨_, clients, adminAcls, deviceToApp, none, hclients, hadmins, hdevices, hlog, rfl⟩

theorem keeps_of_own (happ : app ≠ [])
    (hwhole : collectWholeEnvelope cfg.jsonDepth s includeLogs exportedAt = .ok whole)
    (hown : collectPerAppEnvelope cfg.jsonDepth s app includeLogs' exportedAt' = .ok own) :
    ∀ item ∈ own.items, item.keeps (cfg.forApp app) = true := by
  intro item hitem
  rw [items_eq, records_filter happ hwhole hown, List.mem_append] at hitem
  rcases hitem with hrecord | hlog
  · exact (List.mem_filter.mp hrecord).2
  · cases hactivity : own.activityLog with
    | none => simp [hactivity] at hlog
    | some entries =>
        obtain rfl : item = .activityLog entries := by simpa [hactivity] using hlog
        rfl

-- Put together: restoring the dump of an app turns nothing away and leaves, but for the
-- activity log, what the restore of the whole dump for that app leaves; and where that goes
-- through, the dump of the app comes about and goes through.
theorem perApp_restores_as_whole (cfg : Restoring) (s : Store) (happ : app ≠ [])
    (hwhole : collectWholeEnvelope cfg.jsonDepth s includeLogs exportedAt = .ok whole)
    (target : Store) :
    (∀ includeLogs' exportedAt' own,
      collectPerAppEnvelope cfg.jsonDepth s app includeLogs' exportedAt' = .ok own →
        (restoreItems (cfg.forApp app) own.items target).2.result.rejectedOutsideAppFilter = [] ∧
        ∀ key, key ≠ activityLogKey →
          (applyEnvelope (cfg.forApp app) own target).2.peek key =
            (applyEnvelope (cfg.forApp app) whole target).2.peek key) ∧
    ((∃ result, (applyEnvelope (cfg.forApp app) whole target).1 = .ok result) →
      ∀ exportedAt', ∃ own,
        collectPerAppEnvelope cfg.jsonDepth s app false exportedAt' = .ok own ∧
          ∃ result, (applyEnvelope (cfg.forApp app) own target).1 = .ok result) := by
  constructor
  · intro includeLogs' exportedAt' own hown
    refine ⟨rejected_batch (keeps_of_own happ hwhole hown) _, ?_⟩
    intro key hkey
    have hsieve := batch_filter_keeps (judged_of_collected happ hwhole hown) (s := .start target) rfl
    rw [peek_of_records own target hkey, peek_of_records whole target hkey,
      records_filter happ hwhole hown, hsieve.2]
  · intro hdone exportedAt'
    have hfits := completes_iff_fits.mp hdone
    have hjudged : Judged cfg app whole.records := by
      intro item hitem
      rcases hfits item (List.mem_append_left _ hitem) with hrefused | ⟨name, haccepts, -⟩
      · exact ⟨true, hrefused⟩
      · exact ⟨false, haccepts.1⟩
    obtain ⟨own, hown⟩ := (collectPerApp_iff_judged happ exportedAt' hwhole).mpr hjudged
    refine ⟨own, hown, completes_iff_fits.mpr ?_⟩
    intro item hitem
    have hlog : own.activityLog = none := by
      obtain ⟨_, _, _, log, -, -, -, hlog, rfl⟩ := collectPerApp_ok_iff.mp hown
      exact (Except.ok.inj hlog).symm
    rw [items_eq, hlog, Option.map_none, Option.toList_none, List.append_nil, records_filter happ hwhole hown] at hitem
    exact hfits item (List.mem_append_left _ (List.mem_filter.mp hitem).1)

def twoApps : Store :=
  (Store.empty.set (kvKey ['a']) []).set (kvKey ['b']) []

theorem twoApps_restore :
    ∃ own, collectPerAppEnvelope 8 twoApps ['a'] false [] = .ok own ∧
      ∃ result, (applyEnvelope (Restoring.forced.forApp ['a']) own .empty).1 = .ok result := by
  obtain ⟨whole, hwhole, hdone⟩ : ∃ whole, collectWholeEnvelope 8 twoApps false [] = .ok whole ∧
      ∃ result, (applyEnvelope (Restoring.forced.forApp ['a']) whole .empty).1 = .ok result :=
    ⟨_, rfl, _, rfl⟩
  exact (perApp_restores_as_whole .forced twoApps (List.cons_ne_nil 'a' []) hwhole .empty).2 hdone []

end PerApp

end Stra2us.Backup
