import Stra2us.Admin.Logs
import Stra2us.Foundation.Glob
import Stra2us.Server.Unambiguous
import Mathlib.Data.Char
import Mathlib.Data.List.Lex

namespace Stra2us.Admin

open Foundation Server

section Handler

variable (store : Store) (acl : Value)

structure ScanItem where
  key : Text
  bytes : Nat
deriving DecidableEq, Repr

structure ScanReply where
  pre : Text
  count : Nat
  truncated : Bool
  items : List ScanItem
deriving DecidableEq, Repr

def scanPattern (pre : Text) : Bytes :=
  utf8 (kvKey pre ++ ['*'])

-- KEYS: all keys that match, in any order.
def IsKeysReply (pattern : Bytes) (rawKeys : List Text) : Prop :=
  rawKeys.Perm (store.strings.keys.filter fun key => globMatch pattern (utf8 key))

-- What is behind the first colon.
def keyName (key : Text) : Text :=
  (key.dropWhile (· ≠ ':')).drop 1

def strlen (key : Text) : Nat :=
  ((store.get key).getD []).length

def itemOf (key : Text) : ScanItem :=
  ⟨keyName key, strlen store key⟩

def scanItem (key : Text) : Except Exn (Option ScanItem) := do
  if ← mayRead acl ("kv/".toList ++ keyName key) then .ok (some (itemOf store key)) else .ok none

def scanKv (rawKeys : List Text) (pre : Text) (limit : Int) : Except Exn ScanReply := do
  let found ← Capped.collect (scanItem store acl) limit rawKeys []
  let items := found.mergeSort fun a b => decide (a.key ≤ b.key)
  .ok ⟨pre, items.length, decide (limit ≤ items.length), items⟩

end Handler

section Records

variable (store : Store) (acl : Value)

-- The flag of another record.
def IsSidecar (name : Text) : Prop :=
  ∃ owner, name = owner ++ ":enc".toList ∧ kvKey owner ∈ store.strings.keys

def Readable (key : Text) : Prop :=
  mayRead acl ("kv/".toList ++ keyName key) = .ok true

instance (key : Text) : Decidable (Readable acl key) :=
  inferInstanceAs (Decidable (_ = _))

def IsRecord (pre key : Text) : Prop :=
  kvKey pre <+: key ∧ ¬ IsSidecar store (keyName key) ∧ Readable acl key

def Matches (pre key : Text) : Prop :=
  globMatch (scanPattern pre) (utf8 key) = true

instance (pre key : Text) : Decidable (Matches pre key) :=
  inferInstanceAs (Decidable (_ = _))

open Classical in
noncomputable def recordsOf (pre : Text) : List Text :=
  store.strings.keys.filter fun key => decide (IsRecord store acl pre key)

def matchedOf (pre : Text) : List Text :=
  store.strings.keys.filter fun key => decide (Matches pre key ∧ Readable acl key)

-- The first `limit` of the records there are when there are more, else all of them, in
-- whatever order the keys come.
def ScansExactly (pre : Text) (limit : Int) : Prop :=
  ∀ rawKeys, IsKeysReply store (scanPattern pre) rawKeys →
    ∃ reply, scanKv store acl rawKeys pre limit = .ok reply ∧
      let records := (recordsOf store acl pre).map (itemOf store)
      if limit < records.length then
        (∀ item ∈ reply.items, item ∈ records) ∧ reply.items.Nodup ∧
          (reply.items.length : Int) = limit ∧ reply.truncated = true
      else reply.items.Perm records

end Records

section Found

variable {store : Store} {acl : Value} {pre key : Text}

theorem keyName_kvKey (name : Text) : keyName (kvKey name) = name := by
  simp [keyName, kvKey]

theorem kvKey_of_prefix {name : Text} (h : kvKey name <+: key) : ∃ other, key = kvKey other := by
  obtain ⟨rest, rfl⟩ := h
  exact ⟨name ++ rest, by simp [kvKey]⟩

theorem itemOf_injective {a b : Text} (h : itemOf store (kvKey a) = itemOf store (kvKey b)) :
    kvKey a = kvKey b := by
  have hname : keyName (kvKey a) = keyName (kvKey b) := congrArg ScanItem.key h
  rw [keyName_kvKey, keyName_kvKey] at hname
  rw [hname]

theorem isPlain_kv : ∀ byte ∈ utf8 "kv:".toList, Glob.IsPlain byte := by
  have hbytes : utf8 "kv:".toList = [107, 118, 58] := by decide
  rw [hbytes]
  simp [Glob.IsPlain]

theorem kvKey_of_matches (h : Matches pre key) : ∃ name, key = kvKey name := by
  have hpattern : scanPattern pre = utf8 "kv:".toList ++ utf8 (pre ++ ['*']) := by
    rw [scanPattern, kvKey, List.append_assoc, utf8_append]
  unfold Matches at h
  rw [hpattern] at h
  obtain ⟨rest, hsplit, -⟩ := (Glob.globMatch_append isPlain_kv).mp h
  obtain ⟨name, hname, -⟩ := prefix_of_utf8 hsplit
  exact ⟨name, hname⟩

-- Without special characters in the prefix the pattern is the prefix.
theorem matches_of_plain (h : ∀ byte ∈ utf8 pre, Glob.IsPlain byte) :
    Matches pre key ↔ kvKey pre <+: key := by
  have hplain : ∀ byte ∈ utf8 (kvKey pre), Glob.IsPlain byte := by
    intro byte hbyte
    rw [kvKey, utf8_append, List.mem_append] at hbyte
    exact hbyte.elim (isPlain_kv byte) (h byte)
  have hpattern : scanPattern pre = utf8 (kvKey pre) ++ [42] := by
    rw [scanPattern, utf8_append]
    rfl
  unfold Matches
  rw [hpattern, Glob.globMatch_append hplain]
  simp only [Glob.globMatch_star, and_true]
  constructor
  · rintro ⟨rest, hsplit⟩
    obtain ⟨name, rfl, -⟩ := prefix_of_utf8 hsplit
    exact List.prefix_append _ _
  · rintro ⟨name, rfl⟩
    exact ⟨utf8 name, utf8_append _ _⟩

theorem breaks_scanItem : Capped.Breaks (scanItem store acl) key ↔
    ∃ exn, mayRead acl ("kv/".toList ++ keyName key) = .error exn := by
  unfold Capped.Breaks scanItem
  cases mayRead acl ("kv/".toList ++ keyName key) with
  | error exn => simp [bind, Except.bind]
  | ok readable => cases readable <;> simp [bind, Except.bind]

theorem made_scanItem (keys : List Text) : Capped.made (scanItem store acl) keys =
    (keys.filter fun key => Readable acl key).map (itemOf store) := by
  have hone (key : Text) : Capped.made? (scanItem store acl) key =
      if Readable acl key then some (itemOf store key) else none := by
    unfold Capped.made? scanItem
    by_cases hread : Readable acl key
    · rw [if_pos hread, show mayRead acl ("kv/".toList ++ keyName key) = .ok true from hread]
      rfl
    · rw [if_neg hread]
      unfold Readable at hread
      cases hmay : mayRead acl ("kv/".toList ++ keyName key) with
      | error exn => rfl
      | ok readable =>
          cases readable with
          | false => rfl
          | true => exact absurd hmay hread
  induction keys with
  | nil => rfl
  | cons key rest ih =>
      unfold Capped.made at ih ⊢
      rw [List.filterMap_cons, hone, ih]
      by_cases hread : Readable acl key
      · simp [hread]
      · simp [hread]

-- What the reply lists, in the order in which it was found.
theorem scanKv_ok {rawKeys : List Text} {limit : Int} :
    (∃ reply, scanKv store acl rawKeys pre limit = .ok reply) ↔
      ¬ Capped.Stops (scanItem store acl) rawKeys (max 1 limit).toNat := by
  unfold scanKv
  cases hfound : Capped.collect (scanItem store acl) limit rawKeys [] with
  | error exn =>
      constructor
      · intro hreply
        nomatch hreply
      · intro hgoes
        rw [Capped.collect_first_iff.mpr ⟨hgoes, rfl⟩] at hfound
        nomatch hfound
  | ok found =>
      simp only [bind, Except.bind, Except.ok.injEq, exists_eq', true_iff]
      exact (Capped.collect_first_iff.mp hfound).1

theorem scanKv_items {rawKeys : List Text} {limit : Int} {reply : ScanReply}
    (h : scanKv store acl rawKeys pre limit = .ok reply) :
    reply.items.Perm (((rawKeys.filter fun key => Readable acl key).take (max 1 limit).toNat).map
      (itemOf store)) ∧ reply.truncated = decide (limit ≤ reply.items.length) := by
  unfold scanKv at h
  cases hfound : Capped.collect (scanItem store acl) limit rawKeys [] with
  | error exn =>
      rw [hfound] at h
      nomatch h
  | ok found =>
      rw [hfound] at h
      obtain rfl := Except.ok.inj h
      obtain ⟨-, rfl⟩ := Capped.collect_first_iff.mp hfound
      rw [made_scanItem, ← List.map_take]
      exact ⟨List.mergeSort_perm _ _, rfl⟩

end Found

section Exact

variable {store : Store} {acl : Value} {pre key : Text} {limit : Int}

-- The pattern reads the prefix as it stands as far as the store can tell, finds no flag, and
-- nothing it finds breaks the check.
structure ReadsLiterally (store : Store) (acl : Value) (pre : Text) (limit : Int) : Prop where
  unbroken : ∀ key ∈ store.strings.keys, Matches pre key → ∀ exn,
    mayRead acl ("kv/".toList ++ keyName key) ≠ .error exn
  sound : ∀ key ∈ store.strings.keys, Matches pre key → Readable acl key →
    kvKey pre <+: key ∧ ¬ IsSidecar store (keyName key)
  enough : (∀ key ∈ recordsOf store acl pre, Matches pre key) ∨
    limit < (recordsOf store acl pre).length ∧ limit ≤ (matchedOf store acl pre).length
  positive : 1 ≤ limit ∨ limit = 0 ∧ matchedOf store acl pre = []

theorem mem_recordsOf :
    key ∈ recordsOf store acl pre ↔ key ∈ store.strings.keys ∧ IsRecord store acl pre key := by
  simp [recordsOf]

theorem mem_matchedOf : key ∈ matchedOf store acl pre ↔
    key ∈ store.strings.keys ∧ Matches pre key ∧ Readable acl key := by
  simp [matchedOf]

theorem nodup_recordsOf : (recordsOf store acl pre).Nodup :=
  store.strings.keys_nodup.filter _

theorem filter_reply_perm {rawKeys : List Text} (h : IsKeysReply store (scanPattern pre) rawKeys) :
    (rawKeys.filter fun key => Readable acl key).Perm (matchedOf store acl pre) := by
  have hfilter := h.filter fun key => decide (Readable acl key)
  rw [List.filter_filter] at hfilter
  have hsame : (store.strings.keys.filter fun key =>
      decide (Readable acl key) && globMatch (scanPattern pre) (utf8 key)) =
      matchedOf store acl pre := by
    apply List.filter_congr
    intro key _
    rw [Bool.eq_iff_iff]
    simp [Matches, and_comm]
  rwa [hsame] at hfilter

-- Any key that matches may come first.
theorem exists_first (hin : key ∈ store.strings.keys) (h : Matches pre key) :
    ∃ rest, IsKeysReply store (scanPattern pre) (key :: rest) := by
  have hlisted : key ∈ store.strings.keys.filter fun key =>
      globMatch (scanPattern pre) (utf8 key) := List.mem_filter.mpr ⟨hin, h⟩
  exact ⟨_, (List.perm_cons_erase hlisted).symm⟩

theorem mem_recordsOf_of_item (hkey : ∃ name, key = kvKey name)
    (h : itemOf store key ∈ (recordsOf store acl pre).map (itemOf store)) :
    key ∈ recordsOf store acl pre := by
  obtain ⟨name, rfl⟩ := hkey
  obtain ⟨other, hother, hsame⟩ := List.mem_map.mp h
  obtain ⟨otherName, rfl⟩ := kvKey_of_prefix (mem_recordsOf.mp hother).2.1
  exact itemOf_injective hsame ▸ hother

theorem ScansExactly.items_subset (h : ScansExactly store acl pre limit) {rawKeys : List Text}
    (hraw : IsKeysReply store (scanPattern pre) rawKeys) :
    ∃ reply, scanKv store acl rawKeys pre limit = .ok reply ∧
      ∀ item ∈ reply.items, item ∈ (recordsOf store acl pre).map (itemOf store) := by
  obtain ⟨reply, hok, hlist⟩ := h rawKeys hraw
  refine ⟨reply, hok, ?_⟩
  dsimp only at hlist
  split_ifs at hlist
  · exact hlist.1
  · exact fun item hitem => hlist.subset hitem

theorem ScansExactly.readsLiterally (h : ScansExactly store acl pre limit) :
    ReadsLiterally store acl pre limit := by
  obtain ⟨reply, hok, hlist⟩ := h _ (List.Perm.refl _)
  obtain ⟨hitems, -⟩ := scanKv_items hok
  have hperm := @filter_reply_perm store acl pre _ (List.Perm.refl _ : IsKeysReply store
    (scanPattern pre) _)
  have hlength := hitems.length_eq
  rw [List.length_map, List.length_take, hperm.length_eq] at hlength
  dsimp only at hlist
  rw [List.length_map] at hlist
  refine ⟨?_, ?_, ?_, ?_⟩
  · intro key hin hmatches exn hexn
    obtain ⟨rest, hraw⟩ := exists_first hin hmatches
    obtain ⟨answer, hanswer, -⟩ := h.items_subset hraw
    refine scanKv_ok.mp ⟨answer, hanswer⟩ ⟨[], key, rest, rfl, breaks_scanItem.mpr ⟨exn, hexn⟩, ?_⟩
    rw [Capped.made, List.filterMap_nil, List.length_nil]
    omega
  · intro key hin hmatches hread
    obtain ⟨rest, hraw⟩ := exists_first hin hmatches
    obtain ⟨answer, hanswer, hsubset⟩ := h.items_subset hraw
    obtain ⟨count, hcount⟩ : ∃ count, (max 1 limit).toNat = count + 1 :=
      ⟨(max 1 limit).toNat - 1, by omega⟩
    have hfirst : itemOf store key ∈ answer.items := by
      apply (scanKv_items hanswer).1.symm.subset
      rw [List.filter_cons_of_pos (by simpa using hread), hcount]
      simp
    have hrecord := mem_recordsOf_of_item (kvKey_of_matches hmatches) (hsubset _ hfirst)
    obtain ⟨hstart, hflag, -⟩ := (mem_recordsOf.mp hrecord).2
    exact ⟨hstart, hflag⟩
  · split_ifs at hlist with hmore
    · exact .inr ⟨hmore, by omega⟩
    · refine .inl ?_
      intro key hrecord
      have hitem := hlist.symm.subset (List.mem_map_of_mem (f := itemOf store) hrecord)
      obtain ⟨other, hother, hsame⟩ := List.mem_map.mp (hitems.subset hitem)
      have hmatched := (mem_matchedOf.mp (hperm.subset (List.mem_of_mem_take hother))).2.1
      obtain ⟨name, rfl⟩ := kvKey_of_matches hmatched
      obtain ⟨recordName, rfl⟩ := kvKey_of_prefix (mem_recordsOf.mp hrecord).2.1
      exact itemOf_injective hsame ▸ hmatched
  · by_cases hpos : 1 ≤ limit
    · exact .inl hpos
    · have hone : (max 1 limit).toNat = 1 := by omega
      have hzero : reply.items.length = 0 ∧ limit = 0 := by
        split_ifs at hlist with hmore
        · omega
        · have hall := hlist.length_eq
          rw [List.length_map] at hall
          omega
      exact .inr ⟨hzero.2, List.eq_nil_of_length_eq_zero (by omega)⟩

theorem ReadsLiterally.scansExactly (h : ReadsLiterally store acl pre limit) :
    ScansExactly store acl pre limit := by
  intro rawKeys hraw
  have hperm := @filter_reply_perm store acl pre _ hraw
  have hsubset : ∀ key ∈ matchedOf store acl pre, key ∈ recordsOf store acl pre := by
    intro key hkey
    obtain ⟨hin, hmatches, hread⟩ := mem_matchedOf.mp hkey
    obtain ⟨hstart, hflag⟩ := h.sound key hin hmatches hread
    exact mem_recordsOf.mpr ⟨hin, hstart, hflag, hread⟩
  obtain ⟨reply, hok⟩ := (@scanKv_ok store acl pre _ _).mpr (show ¬ Capped.Stops (scanItem store acl)
      rawKeys (max 1 limit).toNat by
    rintro ⟨front, key, rest, rfl, hbreaks, -⟩
    obtain ⟨exn, hexn⟩ := breaks_scanItem.mp hbreaks
    obtain ⟨hin, hmatches⟩ := List.mem_filter.mp (hraw.subset (List.mem_append_right front
      List.mem_cons_self))
    exact h.unbroken key hin hmatches exn hexn)
  obtain ⟨hitems, htruncated⟩ := scanKv_items hok
  have hlength := hitems.length_eq
  rw [List.length_map, List.length_take, hperm.length_eq] at hlength
  refine ⟨reply, hok, ?_⟩
  dsimp only
  rw [List.length_map]
  have htaken : ∀ key ∈ (rawKeys.filter fun key => Readable acl key).take (max 1 limit).toNat,
      key ∈ recordsOf store acl pre := by
    intro key hkey
    exact hsubset key (hperm.subset (List.mem_of_mem_take hkey))
  have hinjective : ∀ a ∈ recordsOf store acl pre, ∀ b ∈ recordsOf store acl pre,
      itemOf store a = itemOf store b → a = b := by
    intro a ha b hb hsame
    obtain ⟨aName, rfl⟩ := kvKey_of_prefix (mem_recordsOf.mp ha).2.1
    obtain ⟨bName, rfl⟩ := kvKey_of_prefix (mem_recordsOf.mp hb).2.1
    exact itemOf_injective hsame
  have hmatchedNodup : (matchedOf store acl pre).Nodup := store.strings.keys_nodup.filter _
  split_ifs with hmore
  · have hcount : (reply.items.length : Int) = limit := by
      rcases h.positive with hpos | ⟨hzero, hnone⟩
      · have hmany : limit ≤ (matchedOf store acl pre).length := by
          rcases h.enough with hall | ⟨-, hmany⟩
          · have hle := (nodup_recordsOf.subperm fun key hkey => mem_matchedOf.mpr
              ⟨(mem_recordsOf.mp hkey).1, hall key hkey, (mem_recordsOf.mp hkey).2.2.2⟩).length_le
            omega
          · exact hmany
        omega
      · rw [hnone, List.length_nil] at hlength
        omega
    refine ⟨?_, ?_, hcount, ?_⟩
    · intro item hitem
      obtain ⟨key, hkey, rfl⟩ := List.mem_map.mp (hitems.subset hitem)
      exact List.mem_map_of_mem (htaken key hkey)
    · refine hitems.nodup_iff.mpr (List.Nodup.map_on ?_ ?_)
      · intro a ha b hb hsame
        exact hinjective a (htaken a ha) b (htaken b hb) hsame
      · exact (hperm.nodup_iff.mpr hmatchedNodup).sublist (List.take_sublist _ _)
    · rw [htruncated, hcount, decide_eq_true (le_refl limit)]
  · have hall := h.enough.resolve_right fun hless => hmore hless.1
    have hsame : matchedOf store acl pre = recordsOf store acl pre := by
      apply List.filter_congr
      intro key hin
      rw [decide_eq_decide]
      constructor
      · intro hfound
        exact (mem_recordsOf.mp (hsubset key (mem_matchedOf.mpr ⟨hin, hfound⟩))).2
      · intro hrecord
        exact ⟨hall key (mem_recordsOf.mpr ⟨hin, hrecord⟩), hrecord.2.2⟩
    have hfew : (rawKeys.filter fun key => Readable acl key).length ≤ (max 1 limit).toNat := by
      rw [hperm.length_eq, hsame]
      omega
    rw [List.take_of_length_le hfew] at hitems
    exact hitems.trans ((hsame ▸ hperm).map _)

-- The scan is exact when the pattern means no more and no less than the prefix.
theorem scansExactly_iff : ScansExactly store acl pre limit ↔ ReadsLiterally store acl pre limit :=
  ⟨ScansExactly.readsLiterally, ReadsLiterally.scansExactly⟩

-- A flag is listed as a record, and a question mark stands for any character.
theorem scan_lists_flag_and_other :
    ¬ ScansExactly ((Store.empty.set (kvKey ['a']) [1]).set (kvKey "a:enc".toList) [49]) rescueAcl
      ['a'] 500 ∧
    ¬ ScansExactly (Store.empty.set (kvKey "ab".toList) [1]) rescueAcl "a?".toList 500 := by
  constructor
  · intro h
    have hflag := h.readsLiterally.sound (kvKey "a:enc".toList) (by decide) (by decide) (by decide)
    exact hflag.2 ⟨['a'], rfl, by decide⟩
  · intro h
    have hother := h.readsLiterally.sound (kvKey "ab".toList) (by decide) (by decide) (by decide)
    exact absurd hother.1 (by decide)

end Exact

end Stra2us.Admin
