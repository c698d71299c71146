import Stra2us.Foundation.Text
import Mathlib.Data.Prod.Lex
import Mathlib.Data.List.Sort

namespace Stra2us.Foundation

-- Entry ids of a stream are ordered by time first, then by sequence number.
structure StreamId where
  ms : Nat
  seq : Nat
deriving DecidableEq, Repr

namespace StreamId

def key (id : StreamId) : Nat ×ₗ Nat :=
  toLex (id.ms, id.seq)

theorem key_injective : Function.Injective key := by
  rintro ⟨a, b⟩ ⟨c, d⟩ h
  simpa [key] using h

instance : LinearOrder StreamId :=
  LinearOrder.lift' key key_injective

theorem lt_iff {a b : StreamId} : a < b ↔ a.ms < b.ms ∨ a.ms = b.ms ∧ a.seq < b.seq := by
  change a.key < b.key ↔ _
  simp [key, Prod.Lex.toLex_lt_toLex]

def zero : StreamId := ⟨0, 0⟩

theorem zero_le (id : StreamId) : zero ≤ id := by
  apply le_of_not_gt
  rw [lt_iff]
  simp [zero]

-- The id Redis picks: the clock, or the last id stepped once when the clock is behind.
def next (last : StreamId) (nowMs : Nat) : StreamId :=
  if last.ms < nowMs then ⟨nowMs, 0⟩ else ⟨last.ms, last.seq + 1⟩

theorem lt_next (last : StreamId) (nowMs : Nat) : last < last.next nowMs := by
  rw [lt_iff, next]
  split
  · exact Or.inl ‹_›
  · exact Or.inr ⟨rfl, Nat.lt_succ_self _⟩

def text (id : StreamId) : Text :=
  natText id.ms ++ '-' :: natText id.seq

def parse (text : Text) : Option StreamId :=
  match text.dropWhile (· ≠ '-') with
  | _ :: seq => do
      let ms ← decimalNat (text.takeWhile (· ≠ '-'))
      let seq ← decimalNat seq
      some ⟨ms, seq⟩
  | [] => none

@[simp] theorem parse_text (id : StreamId) : parse id.text = some id := by
  have hall : ∀ c ∈ natText id.ms, (decide (c ≠ '-')) = true := by
    intro c hc
    have hd := isDigit_of_mem_natText hc
    have : c ≠ '-' := by rintro rfl; exact absurd hd (by decide)
    simpa using this
  have htake : id.text.takeWhile (· ≠ '-') = natText id.ms := by
    rw [text, List.takeWhile_append_of_pos hall]
    simp
  have hdrop : id.text.dropWhile (· ≠ '-') = '-' :: natText id.seq := by
    rw [text, List.dropWhile_append_of_pos hall]
    simp
  simp only [parse, htake, hdrop, decimalNat_natText]
  rfl

theorem text_injective : Function.Injective text := by
  intro a b h
  have hp := congrArg parse h
  simpa using hp

end StreamId

structure Entry where
  id : StreamId
  fields : List (Text × Bytes)
deriving DecidableEq, Repr

-- Ids grow along the stream and never pass the last one handed out, so a new id
-- above the last one is new.
structure Stream where
  entries : List Entry
  last : StreamId
  expireAt : Option Nat
  sorted : entries.Pairwise fun a b => a.id < b.id
  le_last : ∀ entry ∈ entries, entry.id ≤ last

namespace Stream

def empty : Stream where
  entries := []
  last := .zero
  expireAt := none
  sorted := List.Pairwise.nil
  le_last := by simp

def push (s : Stream) (id : StreamId) (h : s.last < id) (fields : List (Text × Bytes)) :
    Stream where
  entries := s.entries ++ [⟨id, fields⟩]
  last := id
  expireAt := s.expireAt
  sorted := by
    apply List.pairwise_append.mpr
    refine ⟨s.sorted, List.pairwise_singleton _ _, ?_⟩
    intro a ha b hb
    simp only [List.mem_singleton] at hb
    subst hb
    exact lt_of_le_of_lt (s.le_last a ha) h
  le_last := by
    intro entry he
    simp only [List.mem_append, List.mem_singleton] at he
    rcases he with he | rfl
    · exact (lt_of_le_of_lt (s.le_last entry he) h).le
    · exact le_refl _

def withExpiry (s : Stream) (deadline : Nat) : Stream :=
  { s with expireAt := some deadline }

@[simp] theorem entries_empty : empty.entries = [] := rfl

@[simp] theorem entries_push (s : Stream) (id : StreamId) (h : s.last < id)
    (fields : List (Text × Bytes)) :
    (s.push id h fields).entries = s.entries ++ [⟨id, fields⟩] := rfl

@[simp] theorem last_push (s : Stream) (id : StreamId) (h : s.last < id)
    (fields : List (Text × Bytes)) : (s.push id h fields).last = id := rfl

@[simp] theorem entries_withExpiry (s : Stream) (deadline : Nat) :
    (s.withExpiry deadline).entries = s.entries := rfl

@[simp] theorem last_withExpiry (s : Stream) (deadline : Nat) :
    (s.withExpiry deadline).last = s.last := rfl

-- What XREAD can see from a position: the entries with greater ids.
def after (s : Stream) (id : StreamId) : List Entry :=
  s.entries.filter fun entry => id < entry.id

theorem mem_after {s : Stream} {id : StreamId} {entry : Entry} :
    entry ∈ s.after id ↔ entry ∈ s.entries ∧ id < entry.id := by
  simp [after]

theorem after_sorted (s : Stream) (id : StreamId) :
    (s.after id).Pairwise fun a b => a.id < b.id :=
  s.sorted.sublist List.filter_sublist

theorem after_push (s : Stream) (id next : StreamId) (h : s.last < next)
    (fields : List (Text × Bytes)) :
    (s.push next h fields).after id =
      s.after id ++ if id < next then [⟨next, fields⟩] else [] := by
  simp only [after, entries_push, List.filter_append]
  congr 1
  by_cases hlt : id < next <;> simp [hlt]

@[simp] theorem after_withExpiry (s : Stream) (deadline : Nat) (id : StreamId) :
    (s.withExpiry deadline).after id = s.after id := rfl

-- Along a sorted list the entries beyond one of its own ids are those after it.
theorem filter_gt_of_sorted {before rest : List Entry} {entry : Entry}
    (h : (before ++ entry :: rest).Pairwise fun a b => a.id < b.id) :
    (before ++ entry :: rest).filter (fun e => entry.id < e.id) = rest := by
  obtain ⟨hb, hr, hc⟩ := List.pairwise_append.mp h
  obtain ⟨he, hr⟩ := List.pairwise_cons.mp hr
  have hbefore : before.filter (fun e => entry.id < e.id) = [] := by
    apply List.filter_eq_nil_iff.mpr
    intro e hm
    simpa using (hc e hm entry (by simp)).le
  have hrest : rest.filter (fun e => entry.id < e.id) = rest := by
    apply List.filter_eq_self.mpr
    intro e hm
    simpa using he e hm
  simp [List.filter_append, hbefore, hrest]

-- Reading on from an entry of what was left drops it and everything before it.
theorem after_of_split {s : Stream} {id : StreamId} {before rest : List Entry} {entry : Entry}
    (h : s.after id = before ++ entry :: rest) : s.after entry.id = rest := by
  have hsorted := s.after_sorted id
  rw [h] at hsorted
  have hlt : id < entry.id := by
    have hm : entry ∈ s.after id := by simp [h]
    exact (mem_after.mp hm).2
  calc
    s.after entry.id = (s.after id).filter (fun e => entry.id < e.id) := by
      simp only [after, List.filter_filter]
      apply List.filter_congr
      intro e _
      by_cases hgt : entry.id < e.id
      · simp [hgt, hlt.trans hgt]
      · simp [hgt]
    _ = rest := by rw [h]; exact filter_gt_of_sorted hsorted

-- Raising the bound adds the entries between the old bound and the new one.
theorem filter_le_append {entries : List Entry} {a b : StreamId}
    (hs : entries.Pairwise fun x y => x.id < y.id) (hab : a ≤ b) :
    entries.filter (fun e => e.id ≤ b) =
      entries.filter (fun e => e.id ≤ a) ++ entries.filter fun e => a < e.id ∧ e.id ≤ b := by
  induction entries with
  | nil => rfl
  | cons entry rest ih =>
      obtain ⟨hhead, hrest⟩ := List.pairwise_cons.mp hs
      by_cases hle : entry.id ≤ a
      · have hb : entry.id ≤ b := hle.trans hab
        have hgt : ¬ a < entry.id := not_lt.mpr hle
        simp [hle, hb, hgt, ih hrest]
      · -- everything from here on is above the old bound
        have hgt : ∀ e ∈ entry :: rest, a < e.id := by
          intro e he
          rcases List.mem_cons.mp he with rfl | he
          · exact lt_of_not_ge hle
          · exact (lt_of_not_ge hle).trans (hhead e he)
        have hnone : (entry :: rest).filter (fun e => e.id ≤ a) = [] := by
          apply List.filter_eq_nil_iff.mpr
          intro e he
          simpa using hgt e he
        rw [hnone, List.nil_append]
        apply List.filter_congr
        intro e he
        simp [hgt e he]

-- A prefix of a sorted list is what lies at or below its last id.
theorem filter_le_last {first rest : List Entry} {entry : Entry}
    (hs : (first ++ rest).Pairwise fun x y => x.id < y.id) (hlast : first.getLast? = some entry) :
    (first ++ rest).filter (fun e => e.id ≤ entry.id) = first := by
  obtain ⟨init, rfl⟩ := List.getLast?_eq_some_iff.mp hlast
  obtain ⟨hfirst, -, hcross⟩ := List.pairwise_append.mp hs
  obtain ⟨-, -, hinit⟩ := List.pairwise_append.mp hfirst
  have hkeep : (init ++ [entry]).filter (fun e => e.id ≤ entry.id) = init ++ [entry] := by
    apply List.filter_eq_self.mpr
    intro e he
    rcases List.mem_append.mp he with he | he
    · simpa using (hinit e he entry (by simp)).le
    · simp [List.mem_singleton.mp he]
  have hdrop : rest.filter (fun e => e.id ≤ entry.id) = [] := by
    apply List.filter_eq_nil_iff.mpr
    intro e he
    simpa using hcross entry (by simp) e he
  rw [List.filter_append, hkeep, hdrop, List.append_nil]

end Stream

end Stra2us.Foundation
