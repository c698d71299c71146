import Mathlib.Data.List.Nodup

namespace Stra2us.Foundation

-- A map that keeps the order in which its keys came in.
structure Dict (κ α : Type) where
  entries : List (κ × α)
  nodup : (entries.map Prod.fst).Nodup

namespace Dict

variable {κ α β : Type}

def empty : Dict κ α := ⟨[], List.nodup_nil⟩

def mapValues (f : α → β) (d : Dict κ α) : Dict κ β where
  entries := d.entries.map fun entry => (entry.1, f entry.2)
  nodup := by
    rw [List.map_map]
    exact d.nodup

def filter (p : κ × α → Bool) (d : Dict κ α) : Dict κ α where
  entries := d.entries.filter p
  nodup := d.nodup.sublist (List.filter_sublist.map Prod.fst)

theorem ext_entries {d e : Dict κ α} (h : d.entries = e.entries) : d = e := by
  cases d
  cases e
  cases h
  rfl

-- One value to a key.
theorem eq_of_mem {d : Dict κ α} {key : κ} {a b : α} (ha : (key, a) ∈ d.entries)
    (hb : (key, b) ∈ d.entries) : a = b := by
  have hinj := List.inj_on_of_nodup_map d.nodup ha hb rfl
  exact (Prod.mk.inj hinj).2

section Insert

variable [DecidableEq κ]

-- A key that is there keeps its place and takes the new value.
def insertEntry (key : κ) (value : α) : List (κ × α) → List (κ × α)
  | [] => [(key, value)]
  | (k, v) :: rest => if k = key then (k, value) :: rest else (k, v) :: insertEntry key value rest

theorem mem_map_fst_insertEntry {key k : κ} {value : α} {entries : List (κ × α)} :
    k ∈ (insertEntry key value entries).map Prod.fst ↔ k = key ∨ k ∈ entries.map Prod.fst := by
  induction entries with
  | nil => simp [insertEntry]
  | cons entry rest ih =>
      unfold insertEntry
      split
      · rename_i h
        subst h
        simp
      · rw [List.map_cons, List.mem_cons, ih, List.map_cons, List.mem_cons]
        tauto

theorem nodup_insertEntry {key : κ} {value : α} {entries : List (κ × α)}
    (h : (entries.map Prod.fst).Nodup) : ((insertEntry key value entries).map Prod.fst).Nodup := by
  induction entries with
  | nil => simp [insertEntry]
  | cons entry rest ih =>
      rw [List.map_cons, List.nodup_cons] at h
      unfold insertEntry
      split
      · rw [List.map_cons, List.nodup_cons]
        exact h
      · rename_i hne
        rw [List.map_cons, List.nodup_cons, mem_map_fst_insertEntry, not_or]
        exact ⟨⟨hne, h.1⟩, ih h.2⟩

def get? (d : Dict κ α) (key : κ) : Option α :=
  (d.entries.find? fun entry => entry.1 = key).map Prod.snd

def insert (d : Dict κ α) (key : κ) (value : α) : Dict κ α :=
  ⟨insertEntry key value d.entries, nodup_insertEntry d.nodup⟩

def ofList (entries : List (κ × α)) : Dict κ α :=
  entries.foldl (fun d entry => d.insert entry.1 entry.2) empty

theorem insertEntry_fresh {key : κ} {value : α} {entries : List (κ × α)}
    (h : key ∉ entries.map Prod.fst) : insertEntry key value entries = entries ++ [(key, value)] := by
  induction entries with
  | nil => rfl
  | cons entry rest ih =>
      rw [List.map_cons, List.mem_cons, not_or] at h
      have hne : ¬ entry.1 = key := fun heq => h.1 heq.symm
      unfold insertEntry
      rw [if_neg hne, ih h.2]
      rfl

theorem entries_foldl_insert {entries : List (κ × α)} (d : Dict κ α)
    (h : ((d.entries ++ entries).map Prod.fst).Nodup) :
    (entries.foldl (fun d entry => d.insert entry.1 entry.2) d).entries = d.entries ++ entries := by
  induction entries generalizing d with
  | nil => simp
  | cons entry rest ih =>
      have hfresh : entry.1 ∉ d.entries.map Prod.fst := by
        intro hmem
        rw [List.map_append, List.nodup_append] at h
        exact h.2.2 entry.1 hmem entry.1 (by simp) rfl
      have hinsert : (d.insert entry.1 entry.2).entries = d.entries ++ [entry] :=
        insertEntry_fresh hfresh
      have hsplit : d.entries ++ entry :: rest = (d.insert entry.1 entry.2).entries ++ rest := by
        rw [hinsert, List.append_assoc]
        rfl
      rw [hsplit] at h ⊢
      exact ih _ h

-- Keys that are all different come to stand as they were given.
theorem entries_ofList {entries : List (κ × α)} (h : (entries.map Prod.fst).Nodup) :
    (ofList entries).entries = entries := by
  have hfold : (ofList entries).entries = (empty : Dict κ α).entries ++ entries :=
    entries_foldl_insert empty h
  exact hfold

theorem mem_insertEntry {key : κ} {value : α} {entries : List (κ × α)} {entry : κ × α}
    (h : entry ∈ insertEntry key value entries) : entry = (key, value) ∨ entry ∈ entries := by
  induction entries with
  | nil => exact .inl (List.mem_singleton.mp h)
  | cons first rest ih =>
      unfold insertEntry at h
      split at h
      · rename_i hkey
        rcases List.mem_cons.mp h with rfl | hrest
        · exact .inl (Prod.ext hkey rfl)
        · exact .inr (List.mem_cons_of_mem _ hrest)
      · rcases List.mem_cons.mp h with rfl | hrest
        · exact .inr List.mem_cons_self
        · exact (ih hrest).imp_right (List.mem_cons_of_mem _)

theorem mem_entries_ofList {entries : List (κ × α)} {entry : κ × α}
    (h : entry ∈ (ofList entries).entries) : entry ∈ entries := by
  have hfold (given : List (κ × α)) (d : Dict κ α) (hin : entry ∈ (given.foldl
      (fun d entry => d.insert entry.1 entry.2) d).entries) :
      entry ∈ d.entries ∨ entry ∈ given := by
    induction given generalizing d with
    | nil => exact .inl hin
    | cons first rest ih =>
        rcases ih (d.insert first.1 first.2) hin with hold | hnew
        · rcases mem_insertEntry hold with rfl | hbefore
          · exact .inr List.mem_cons_self
          · exact .inl hbefore
        · exact .inr (List.mem_cons_of_mem _ hnew)
  exact (hfold entries empty h).resolve_left fun hnone => nomatch hnone

theorem mem_keys_ofList {entries : List (κ × α)} {key : κ} :
    key ∈ (ofList entries).entries.map Prod.fst ↔ key ∈ entries.map Prod.fst := by
  have hfold (d : Dict κ α) : key ∈ (entries.foldl
      (fun d entry => d.insert entry.1 entry.2) d).entries.map Prod.fst ↔
      key ∈ d.entries.map Prod.fst ∨ key ∈ entries.map Prod.fst := by
    induction entries generalizing d with
    | nil => simp
    | cons first rest ih =>
        have hinsert : key ∈ (d.insert first.1 first.2).entries.map Prod.fst ↔
            key = first.1 ∨ key ∈ d.entries.map Prod.fst := mem_map_fst_insertEntry
        rw [List.foldl_cons, ih, hinsert, List.map_cons, List.mem_cons]
        tauto
  exact (hfold empty).trans (or_iff_right fun hnone => nomatch hnone)

@[simp] theorem ofList_entries (d : Dict κ α) : ofList d.entries = d :=
  ext_entries (entries_ofList d.nodup)

end Insert

end Dict

end Stra2us.Foundation
