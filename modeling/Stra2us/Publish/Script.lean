import Stra2us.Publish.Session

namespace Stra2us.Publish

open Foundation Server

section Advance

variable {fates rest : List Fate} {plan plan' : List (Text × Content)}

theorem advance_nil (fates : List Fate) : advance fates [] = ([], some fates) := by
  cases fates with
  | nil => rfl
  | cons fate fates => rfl

-- Either the first write goes through, or it is the last one that anything is done for.
theorem advance_cons (fates : List Fate) (key : Text) (content : Content)
    (plan : List (Text × Content)) :
    (∃ rest bytes, fates = .works :: .works :: rest ∧ Msgpack.packb content.toValue = some bytes ∧
      advance fates ((key, content) :: plan) =
        ((key, bytes) :: (advance rest plan).1, (advance rest plan).2)) ∨
    (∃ writes, advance fates ((key, content) :: plan) = (writes, none) ∧
      ∀ write ∈ writes, write.1 = key ∧ Msgpack.packb content.toValue = some write.2) := by
  cases fates with
  | nil => exact .inr ⟨[], rfl, by simp⟩
  | cons fate fates =>
      simp only [advance]
      cases hpack : Msgpack.packb content.toValue with
      | none => exact .inr ⟨[], rfl, by simp⟩
      | some bytes =>
          cases fate with
          | refused => exact .inr ⟨[], rfl, by simp⟩
          | unheard => exact .inr ⟨[(key, bytes)], rfl, by simp⟩
          | works =>
              cases fates with
              | nil => exact .inr ⟨[(key, bytes)], rfl, by simp⟩
              | cons again rest =>
                  cases again with
                  | refused => exact .inr ⟨[(key, bytes)], rfl, by simp⟩
                  | unheard => exact .inr ⟨[(key, bytes)], rfl, by simp⟩
                  | works => exact .inl ⟨rest, bytes, rfl, rfl, rfl⟩

-- What is written is part of the plan.
theorem mem_advance {write : Text × Bytes} (h : write ∈ (advance fates plan).1) :
    ∃ content, (write.1, content) ∈ plan ∧ Msgpack.packb content.toValue = some write.2 := by
  induction plan generalizing fates with
  | nil =>
      rw [advance_nil] at h
      cases h
  | cons put plan ih =>
      obtain ⟨key, content⟩ := put
      rcases advance_cons fates key content plan with
        ⟨rest, bytes, -, hpack, hadvance⟩ | ⟨writes, hadvance, hwrites⟩
      · rw [hadvance] at h
        rcases List.mem_cons.mp h with rfl | hrest
        · exact ⟨content, List.mem_cons_self, hpack⟩
        · obtain ⟨other, hmem, hother⟩ := ih hrest
          exact ⟨other, List.mem_cons_of_mem _ hmem, hother⟩
      · rw [hadvance] at h
        obtain ⟨hkey, hpack⟩ := hwrites write h
        exact ⟨content, by rw [hkey]; exact List.mem_cons_self, hpack⟩

-- All of a plan that gets through is written.
theorem advance_all (h : (advance fates plan).2 = some rest) {key : Text} {content : Content}
    (hmem : (key, content) ∈ plan) :
    ∃ bytes, Msgpack.packb content.toValue = some bytes ∧ (key, bytes) ∈ (advance fates plan).1 := by
  induction plan generalizing fates with
  | nil => cases hmem
  | cons put plan ih =>
      obtain ⟨first, content'⟩ := put
      rcases advance_cons fates first content' plan with
        ⟨fates', bytes, -, hpack, hadvance⟩ | ⟨writes, hadvance, -⟩
      · rw [hadvance] at h ⊢
        rcases List.mem_cons.mp hmem with hsame | hmem
        · obtain ⟨rfl, rfl⟩ := Prod.mk.inj hsame
          exact ⟨bytes, hpack, List.mem_cons_self⟩
        · obtain ⟨found, hfound, hwritten⟩ := ih h hmem
          exact ⟨found, hfound, List.mem_cons_of_mem _ hwritten⟩
      · rw [hadvance] at h
        cases h

theorem advance_append_some (h : (advance fates plan).2 = some rest) :
    advance fates (plan ++ plan') =
      ((advance fates plan).1 ++ (advance rest plan').1, (advance rest plan').2) := by
  induction plan generalizing fates with
  | nil =>
      rw [advance_nil] at h
      obtain rfl := Option.some.inj h
      rw [advance_nil]
      rfl
  | cons put plan ih =>
      obtain ⟨key, content⟩ := put
      rcases advance_cons fates key content plan with
        ⟨fates', bytes, rfl, hpack, hadvance⟩ | ⟨writes, hadvance, -⟩
      · rw [hadvance] at h ⊢
        have hrest : advance (.works :: .works :: fates') ((key, content) :: (plan ++ plan')) =
            ((key, bytes) :: (advance fates' (plan ++ plan')).1,
              (advance fates' (plan ++ plan')).2) := by
          simp only [advance, hpack]
        rw [List.cons_append, hrest, ih h]
        rfl
      · rw [hadvance] at h
        cases h

theorem advance_append_none (h : (advance fates plan).2 = none) :
    advance fates (plan ++ plan') = advance fates plan := by
  induction plan generalizing fates with
  | nil =>
      rw [advance_nil] at h
      cases h
  | cons put plan ih =>
      obtain ⟨key, content⟩ := put
      have hsame : (∀ rest', fates ≠ .works :: .works :: rest') ∨
          Msgpack.packb content.toValue = none →
          advance fates ((key, content) :: (plan ++ plan')) =
            advance fates ((key, content) :: plan) := by
        intro hstop
        cases fates with
        | nil => rfl
        | cons fate fates =>
            simp only [advance]
            cases hpack : Msgpack.packb content.toValue with
            | none => rfl
            | some bytes =>
                cases fate with
                | refused => rfl
                | unheard => rfl
                | works =>
                    cases fates with
                    | nil => rfl
                    | cons again rest' =>
                        cases again with
                        | refused => rfl
                        | unheard => rfl
                        | works =>
                            rcases hstop with hstop | hstop
                            · exact absurd rfl (hstop rest')
                            · rw [hpack] at hstop
                              cases hstop
      rw [List.cons_append]
      by_cases hthrough : ∃ rest', fates = .works :: .works :: rest'
      · obtain ⟨rest', rfl⟩ := hthrough
        cases hpack : Msgpack.packb content.toValue with
        | none => exact hsame (.inr hpack)
        | some bytes =>
            simp only [advance, hpack] at h ⊢
            rw [ih h]
      · exact hsame (.inl fun rest' heq => hthrough ⟨rest', heq⟩)

end Advance

section Writes

variable {s : Store} {writes : List (Text × Bytes)} {key : Text}

theorem writeAll_append (s : Store) (before after : List (Text × Bytes)) :
    writeAll s (before ++ after) = writeAll (writeAll s before) after :=
  List.foldl_append

-- Where a record comes from.
theorem get_writeAll_cases (s : Store) (writes : List (Text × Bytes)) (key : Text) :
    (writeAll s writes).get (kvKey key) = s.get (kvKey key) ∨
      ((writeAll s writes).get (kvKey key) = none ∧
        ∃ write ∈ writes, key = write.1 ++ ":enc".toList) ∨
      ∃ bytes, (key, bytes) ∈ writes ∧ (writeAll s writes).get (kvKey key) = some bytes := by
  induction writes generalizing s with
  | nil => exact .inl rfl
  | cons write writes ih =>
      have hcons : writeAll s (write :: writes) = writeAll (written s write.1 write.2) writes := rfl
      have hwritten := get_written s write.1 key write.2
      rw [hcons]
      rcases ih (written s write.1 write.2) with hsame | ⟨hnone, other, hother, hflag⟩ |
        ⟨bytes, hmem, hget⟩
      · rw [hsame, hwritten]
        by_cases hkey : key = write.1
        · refine .inr (.inr ⟨write.2, ?_, if_pos hkey⟩)
          rw [hkey]
          exact List.mem_cons_self
        · rw [if_neg hkey]
          by_cases hflag : key = write.1 ++ ":enc".toList
          · exact .inr (.inl ⟨if_pos hflag, write, List.mem_cons_self, hflag⟩)
          · exact .inl (if_neg hflag)
      · exact .inr (.inl ⟨hnone, other, List.mem_cons_of_mem _ hother, hflag⟩)
      · exact .inr (.inr ⟨bytes, List.mem_cons_of_mem _ hmem, hget⟩)

-- A record that no write is about stays as it was.
theorem get_writeAll_of_ne
    (h : ∀ write ∈ writes, key ≠ write.1 ∧ key ≠ write.1 ++ ":enc".toList) :
    (writeAll s writes).get (kvKey key) = s.get (kvKey key) := by
  induction writes generalizing s with
  | nil => rfl
  | cons write writes ih =>
      obtain ⟨hne, hflag⟩ := h write List.mem_cons_self
      refine (ih fun other hother => h other (List.mem_cons_of_mem _ hother)).trans ?_
      rw [get_written, if_neg hne, if_neg hflag]

-- One that is written, always with the same bytes, has them.
theorem get_writeAll_of_mem {bytes : Bytes} (hmem : (key, bytes) ∈ writes)
    (hsame : ∀ write ∈ writes, write.1 = key → write.2 = bytes)
    (hflag : ∀ write ∈ writes, key ≠ write.1 ++ ":enc".toList) :
    (writeAll s writes).get (kvKey key) = some bytes := by
  induction writes generalizing s with
  | nil => cases hmem
  | cons write writes ih =>
      have hrest : ∀ other ∈ writes, key ≠ other.1 ++ ":enc".toList :=
        fun other hother => hflag other (List.mem_cons_of_mem _ hother)
      by_cases hlater : (key, bytes) ∈ writes
      · exact ih hlater (fun other hother => hsame other (List.mem_cons_of_mem _ hother)) hrest
      · have hfirst : write = (key, bytes) := by
          rcases List.mem_cons.mp hmem with hfirst | hin
          · exact hfirst.symm
          · exact absurd hin hlater
        have hnever : ∀ other ∈ writes, key ≠ other.1 ∧ key ≠ other.1 ++ ":enc".toList := by
          intro other hother
          refine ⟨?_, hrest other hother⟩
          rintro rfl
          have hbytes := hsame other (List.mem_cons_of_mem _ hother) rfl
          rw [← hbytes] at hlater
          exact hlater hother
        refine (get_writeAll_of_ne hnever).trans ?_
        rw [get_written, hfirst, if_pos rfl]

end Writes

section Index

variable {s : Store} {app : Text}

-- The listing that a publish goes by.
def listingRead (fate : Fate) (s : Store) (app : Text) : List Text :=
  match (if fate = .works then fetch s (indexKey app) else .error stra2usError) with
  | .ok (some value) =>
      match Content.ofValue value with
      | some (.listing names) => names
      | _ => []
  | _ => []

theorem fetch_error {key : Text} {exn : Exn} (h : fetch s key = .error exn) :
    exn = stra2usError := by
  unfold fetch at h
  split at h
  · cases h
  · split at h
    · exact (Except.error.inj h).symm
    · cases h

theorem existingIndex_playOn (fate : Fate) (fates : List Fate) (s : Store) :
    (existingIndex app).playOn (fate :: fates) s =
      (some (.ok (listingRead fate s app), fates), s) := by
  unfold existingIndex listingRead
  rw [Publisher.playOn_ask_cons]
  simp only [answer]
  cases hreply : (if fate = .works then fetch s (indexKey app) else .error stra2usError) with
  | error exn =>
      have hexn : exn = stra2usError := by
        split at hreply
        · exact fetch_error hreply
        · exact (Except.error.inj hreply).symm
      dsimp only
      rw [if_pos hexn]
      rfl
  | ok observed =>
      cases observed with
      | none => rfl
      | some value =>
          dsimp only
          cases hvalue : Content.ofValue value with
          | none => rfl
          | some content =>
              cases content with
              | listing names => rfl
              | _ => rfl

end Index

section Collect

variable {app : Text}

def dropKeys (app : Text) (names : List Text) : List Text :=
  names.flatMap fun filename => [bytesKey app filename, metaKey app filename]

def removeAll (s : Store) (keys : List Text) : Store :=
  keys.foldl removed s

theorem get_removeAll (s : Store) (keys : List Text) (key : Text) :
    (removeAll s keys).get (kvKey key) =
      if key ∈ keys ∨ ∃ k ∈ keys, key = k ++ ":enc".toList then none else s.get (kvKey key) := by
  induction keys generalizing s with
  | nil => simp [removeAll]
  | cons first rest ih =>
      refine (ih _).trans ?_
      rw [get_removed]
      by_cases hfirst : key = first ∨ key = first ++ ":enc".toList
      · have hpos : key ∈ first :: rest ∨ ∃ k ∈ first :: rest, key = k ++ ":enc".toList := by
          rcases hfirst with rfl | hflag
          · exact .inl List.mem_cons_self
          · exact .inr ⟨first, List.mem_cons_self, hflag⟩
        rw [if_pos hfirst, if_pos hpos, ite_self]
      · rw [if_neg hfirst]
        have hiff : (key ∈ first :: rest ∨ ∃ k ∈ first :: rest, key = k ++ ":enc".toList) ↔
            (key ∈ rest ∨ ∃ k ∈ rest, key = k ++ ":enc".toList) := by
          have hne : key ≠ first := fun h => hfirst (.inl h)
          have hflag : key ≠ first ++ ":enc".toList := fun h => hfirst (.inr h)
          simp only [List.mem_cons, hne, false_or, exists_eq_or_imp, hflag]
        simp only [hiff]

theorem get_removed_cases {s : Store} {k key : Text} :
    (removed s k).get (kvKey key) = s.get (kvKey key) ∨
      ((removed s k).get (kvKey key) = none ∧ (key = k ∨ key = k ++ ":enc".toList)) := by
  rw [get_removed]
  by_cases h : key = k ∨ key = k ++ ":enc".toList
  · exact .inr ⟨if_pos h, h⟩
  · exact .inl (if_neg h)

-- What deleting the dropped files touches, however far it gets.
theorem collect_cases (names : List Text) (fates : List Fate) (s : Store) (key : Text) :
    (((collect app names).playOn fates s).2).get (kvKey key) = s.get (kvKey key) ∨
      ((((collect app names).playOn fates s).2).get (kvKey key) = none ∧
        ∃ k ∈ dropKeys app names, key = k ∨ key = k ++ ":enc".toList) := by
  induction names generalizing fates s with
  | nil => exact .inl rfl
  | cons filename names ih =>
      have hbytes : bytesKey app filename ∈ dropKeys app (filename :: names) := by simp [dropKeys]
      have hmeta : metaKey app filename ∈ dropKeys app (filename :: names) := by simp [dropKeys]
      have hstep : ∀ {s s' : Store} {k : Text}, k ∈ dropKeys app (filename :: names) →
          (s'.get (kvKey key) = (removed s k).get (kvKey key) ∨
            (s'.get (kvKey key) = none ∧
              ∃ k ∈ dropKeys app (filename :: names), key = k ∨ key = k ++ ":enc".toList)) →
          (s'.get (kvKey key) = s.get (kvKey key) ∨
            (s'.get (kvKey key) = none ∧
              ∃ k ∈ dropKeys app (filename :: names), key = k ∨ key = k ++ ":enc".toList)) := by
        intro s s' k hk hs'
        rcases hs' with hs' | hs'
        · rw [hs']
          rcases @get_removed_cases s k key with hsame | ⟨hnone, hwhich⟩
          · exact .inl hsame
          · exact .inr ⟨hnone, k, hk, hwhich⟩
        · exact .inr hs'
      unfold collect
      cases fates with
      | nil => exact .inl rfl
      | cons fate fates =>
          rw [Publisher.playOn_ask_cons]
          cases fate with
          | refused => exact .inl rfl
          | unheard => exact hstep hbytes (.inl rfl)
          | works =>
              cases fates with
              | nil => exact hstep hbytes (.inl rfl)
              | cons again fates =>
                  refine hstep hbytes ?_
                  change (((Publisher.ask (.delete (metaKey app filename)) >>= _).playOn
                    (again :: fates) (removed s (bytesKey app filename))).2.get (kvKey key) = _) ∨ _
                  rw [Publisher.playOn_ask_cons]
                  cases again with
                  | refused => exact .inl rfl
                  | unheard => exact hstep hmeta (.inl rfl)
                  | works =>
                      refine hstep hmeta ?_
                      rcases ih fates (removed (removed s (bytesKey app filename))
                        (metaKey app filename)) with hsame | ⟨hnone, k, hk, hwhich⟩
                      · exact .inl hsame
                      · refine .inr ⟨hnone, k, ?_, hwhich⟩
                        rw [dropKeys, List.flatMap_cons]
                        exact List.mem_append_right _ hk

theorem collect_done {names : List Text} {fates rest : List Fate} {s s' : Store}
    (h : (collect app names).playOn fates s = (some (.ok (), rest), s')) :
    s' = removeAll s (dropKeys app names) := by
  induction names generalizing fates s with
  | nil => exact (Prod.mk.inj h).2.symm
  | cons filename names ih =>
      unfold collect at h
      cases fates with
      | nil => cases h
      | cons fate fates =>
          rw [Publisher.playOn_ask_cons] at h
          cases fate with
          | refused => cases h
          | unheard => cases h
          | works =>
              cases fates with
              | nil => cases h
              | cons again fates =>
                  change (Publisher.ask (.delete (metaKey app filename)) >>= _).playOn
                    (again :: fates) (removed s (bytesKey app filename)) = _ at h
                  rw [Publisher.playOn_ask_cons] at h
                  cases again with
                  | refused => cases h
                  | unheard => cases h
                  | works => exact ih h

end Collect

section Script

-- The writes of a publish, in their order.
def uploads (app : Text) (assets : List LoadedAsset) : List (Text × Content) :=
  assets.flatMap fun a => [(bytesKey app a.filename, .bytes a.bytesPayload),
    (metaKey app a.filename, .sidecar a.contentType a.sha256Hex a.sizeBytes)]

def listingOf (assets : List LoadedAsset) : List Text :=
  sorted (assets.map LoadedAsset.filename)

def commits (app : Text) (assets : List LoadedAsset) (yamlText : Text) : List (Text × Content) :=
  [(yamlKey app, .yaml yamlText), (indexKey app, .listing (listingOf assets))]

def script (app : Text) (assets : List LoadedAsset) (yamlText : Text) : List (Text × Content) :=
  uploads app assets ++ commits app assets yamlText

theorem uploadAssets_eq (app : Text) (assets : List LoadedAsset) :
    uploadAssets app assets = putAll (uploads app assets) := by
  induction assets with
  | nil => rfl
  | cons a rest ih =>
      rw [uploadAssets, ih]
      rfl

theorem publishAssets_eq (app : Text) (assets : List LoadedAsset) (yamlText : Text) :
    publishAssets app assets yamlText = (existingIndex app >>= fun oldListing =>
      putAll (script app assets yamlText) >>= fun _ =>
        collect app (dropped oldListing (listingOf assets)) >>= fun _ =>
          pure ⟨assets.length, dropped oldListing (listingOf assets)⟩) := by
  rw [publishAssets, uploadAssets_eq]
  simp only [script, putAll_append, commits, putAll, bind_assoc, pure_bind]
  rfl

variable {app : Text} {assets : List LoadedAsset} {yamlText : Text} {fates : List Fate}
  {s : Store}

-- A publish that does not get through its writes leaves those it did.
theorem publish_stopped {fate : Fate} (h : (advance fates (script app assets yamlText)).2 = none) :
    Publisher.Stops ((publishAssets app assets yamlText).playOn (fate :: fates) s).1 ∧
      ((publishAssets app assets yamlText).playOn (fate :: fates) s).2 =
        writeAll s (advance fates (script app assets yamlText)).1 := by
  rw [publishAssets_eq, Publisher.playOn_bind_of_ok (existingIndex_playOn fate fates s)]
  obtain ⟨hstore, -, hstops⟩ := putAll_playOn (script app assets yamlText) fates s
  rw [← hstore]
  exact Publisher.playOn_bind_of_stops (hstops h)

-- One that does goes on to delete what was dropped.
theorem publish_collects {fate : Fate} {rest : List Fate}
    (h : (advance fates (script app assets yamlText)).2 = some rest) :
    (publishAssets app assets yamlText).playOn (fate :: fates) s =
      (collect app (dropped (listingRead fate s app) (listingOf assets)) >>= fun _ =>
        pure ⟨assets.length, dropped (listingRead fate s app) (listingOf assets)⟩ :
          Publisher PublishResult).playOn rest
            (writeAll s (advance fates (script app assets yamlText)).1) := by
  obtain ⟨hstore, hdone, -⟩ := putAll_playOn (script app assets yamlText) fates s
  rw [publishAssets_eq, Publisher.playOn_bind_of_ok (existingIndex_playOn fate fates s)]
  refine Publisher.playOn_bind_of_ok (Prod.ext (hdone rest h) hstore)

theorem collects_store (names : List Text) (result : PublishResult) (fates : List Fate)
    (s : Store) :
    ((collect app names >>= fun _ => pure result : Publisher PublishResult).playOn fates s).2 =
      ((collect app names).playOn fates s).2 := by
  cases hplay : (collect app names).playOn fates s with
  | mk outcome s' =>
      by_cases hstops : Publisher.Stops outcome
      · have hstops' : Publisher.Stops ((collect app names).playOn fates s).1 := by
          rw [hplay]
          exact hstops
        rw [(Publisher.playOn_bind_of_stops hstops').2, hplay]
      · unfold Publisher.Stops at hstops
        push Not at hstops
        obtain ⟨value, rest, rfl⟩ := hstops
        rw [Publisher.playOn_bind_of_ok hplay]
        rfl

-- What a publish that came to its end has done.
theorem publish_done {result : PublishResult} {left : List Fate} {s' : Store}
    (h : (publishAssets app assets yamlText).playOn fates s = (some (.ok result, left), s')) :
    ∃ fate rest, fates.head? = some fate ∧
      (advance fates.tail (script app assets yamlText)).2 = some rest ∧
      s' = removeAll (writeAll s (advance fates.tail (script app assets yamlText)).1)
        (dropKeys app (dropped (listingRead fate s app) (listingOf assets))) := by
  cases fates with
  | nil =>
      rw [publishAssets_eq] at h
      cases h
  | cons fate fates =>
      cases hadvance : (advance fates (script app assets yamlText)).2 with
      | none =>
          obtain ⟨hstops, -⟩ := @publish_stopped app assets yamlText fates s fate hadvance
          rw [h] at hstops
          exact absurd rfl (hstops result left)
      | some rest =>
          refine ⟨fate, rest, rfl, hadvance, ?_⟩
          rw [publish_collects hadvance] at h
          cases hplay : (collect app (dropped (listingRead fate s app) (listingOf assets))).playOn
              rest (writeAll s (advance fates (script app assets yamlText)).1) with
          | mk outcome s'' =>
              have hstore := @collects_store app
                (dropped (listingRead fate s app) (listingOf assets))
                ⟨assets.length, dropped (listingRead fate s app) (listingOf assets)⟩ rest
                (writeAll s (advance fates (script app assets yamlText)).1)
              rw [h, hplay] at hstore
              by_cases hstops : Publisher.Stops outcome
              · have hstops' := @Publisher.playOn_bind_of_stops _ PublishResult _ (fun _ => pure
                  ⟨assets.length, dropped (listingRead fate s app) (listingOf assets)⟩) _ _
                    (by rw [hplay]; exact hstops)
                rw [h] at hstops'
                exact absurd rfl (hstops'.1 result left)
              · unfold Publisher.Stops at hstops
                push Not at hstops
                obtain ⟨value, rest', rfl⟩ := hstops
                dsimp only at hstore
                rw [hstore]
                exact collect_done hplay

end Script

end Stra2us.Publish
