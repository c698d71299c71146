import Stra2us.Foundation.Stream
import Mathlib.Data.List.AList

namespace Stra2us.Foundation

-- Keys of string values and keys of streams come from separate families, so each
-- kind has its own map.
structure Store where
  strings : AList fun _ : Text => Bytes
  streams : AList fun _ : Text => Stream

namespace Store

def empty : Store := ⟨∅, ∅⟩

def get (s : Store) (key : Text) : Option Bytes :=
  s.strings.lookup key

def set (s : Store) (key : Text) (value : Bytes) : Store :=
  { s with strings := s.strings.insert key value }

def erase (s : Store) (key : Text) : Store where
  strings := s.strings.erase key
  streams := s.streams.erase key

def delete (s : Store) (keys : List Text) : Store :=
  keys.foldl erase s

def stream? (s : Store) (key : Text) : Option Stream :=
  s.streams.lookup key

def stream (s : Store) (key : Text) : Stream :=
  (s.stream? key).getD .empty

def setStream (s : Store) (key : Text) (stream : Stream) : Store :=
  { s with streams := s.streams.insert key stream }

def has (s : Store) (key : Text) : Bool :=
  (s.get key).isSome || (s.stream? key).isSome

-- XADD with an id of the server's own choice.
def xadd (s : Store) (nowMs : Nat) (key : Text) (fields : List (Text × Bytes)) :
    StreamId × Store :=
  let old := s.stream key
  let id := old.last.next nowMs
  (id, s.setStream key (old.push id (StreamId.lt_next _ _) fields))

-- XREAD from a position, at most `count` entries.
def xread (s : Store) (key : Text) (id : StreamId) (count : Nat) : List Entry :=
  ((s.stream key).after id).take count

def expire (s : Store) (key : Text) (deadline : Nat) : Store :=
  match s.stream? key with
  | some stream => s.setStream key (stream.withExpiry deadline)
  | none => s

section Strings

@[simp] theorem get_empty (key : Text) : empty.get key = none := rfl

@[simp] theorem get_set_self (s : Store) (key : Text) (value : Bytes) :
    (s.set key value).get key = some value := by
  simp [get, set]

theorem get_set_of_ne (s : Store) {key other : Text} (h : other ≠ key) (value : Bytes) :
    (s.set key value).get other = s.get other := by
  simp [get, set, AList.lookup_insert_ne h]

theorem get_set (s : Store) (key other : Text) (value : Bytes) :
    (s.set key value).get other = if other = key then some value else s.get other := by
  by_cases h : other = key
  · subst h; simp
  · simp [h, get_set_of_ne s h]

@[simp] theorem get_erase_self (s : Store) (key : Text) : (s.erase key).get key = none := by
  simp [get, erase]

theorem get_erase_of_ne (s : Store) {key other : Text} (h : other ≠ key) :
    (s.erase key).get other = s.get other := by
  simp [get, erase, AList.lookup_erase_ne h]

theorem get_delete (s : Store) (keys : List Text) (key : Text) :
    (s.delete keys).get key = if key ∈ keys then none else s.get key := by
  induction keys generalizing s with
  | nil => simp [delete]
  | cons head tail ih =>
      have ht := ih (s.erase head)
      simp only [delete, List.foldl_cons] at ht ⊢
      rw [ht]
      by_cases hk : key = head
      · subst hk; simp
      · simp [hk, get_erase_of_ne s hk]

@[simp] theorem get_setStream (s : Store) (key other : Text) (stream : Stream) :
    (s.setStream key stream).get other = s.get other := rfl

@[simp] theorem get_xadd (s : Store) (nowMs : Nat) (key other : Text)
    (fields : List (Text × Bytes)) : (s.xadd nowMs key fields).2.get other = s.get other := rfl

@[simp] theorem get_expire (s : Store) (key other : Text) (deadline : Nat) :
    (s.expire key deadline).get other = s.get other := by
  unfold expire
  split <;> rfl

end Strings

section Streams

@[simp] theorem stream?_empty (key : Text) : empty.stream? key = none := rfl

@[simp] theorem stream?_set (s : Store) (key other : Text) (value : Bytes) :
    (s.set key value).stream? other = s.stream? other := rfl

@[simp] theorem stream_set (s : Store) (key other : Text) (value : Bytes) :
    (s.set key value).stream other = s.stream other := rfl

@[simp] theorem stream?_setStream_self (s : Store) (key : Text) (stream : Stream) :
    (s.setStream key stream).stream? key = some stream := by
  simp [stream?, setStream]

theorem stream?_setStream_of_ne (s : Store) {key other : Text} (h : other ≠ key)
    (stream : Stream) : (s.setStream key stream).stream? other = s.stream? other := by
  simp [stream?, setStream, AList.lookup_insert_ne h]

@[simp] theorem stream_setStream_self (s : Store) (key : Text) (stream : Stream) :
    (s.setStream key stream).stream key = stream := by
  simp [Store.stream]

theorem stream_setStream_of_ne (s : Store) {key other : Text} (h : other ≠ key)
    (stream : Stream) : (s.setStream key stream).stream other = s.stream other := by
  simp [Store.stream, stream?_setStream_of_ne s h]

theorem stream?_erase_of_ne (s : Store) {key other : Text} (h : other ≠ key) :
    (s.erase key).stream? other = s.stream? other := by
  simp [stream?, erase, AList.lookup_erase_ne h]

@[simp] theorem stream?_erase_self (s : Store) (key : Text) :
    (s.erase key).stream? key = none := by
  simp [stream?, erase]

theorem stream?_delete (s : Store) (keys : List Text) (key : Text) :
    (s.delete keys).stream? key = if key ∈ keys then none else s.stream? key := by
  induction keys generalizing s with
  | nil => simp [delete]
  | cons head tail ih =>
      have ht := ih (s.erase head)
      simp only [delete, List.foldl_cons] at ht ⊢
      rw [ht]
      by_cases hk : key = head
      · subst hk; simp
      · simp [hk, stream?_erase_of_ne s hk]

theorem stream?_xadd (s : Store) (nowMs : Nat) (key other : Text) (fields : List (Text × Bytes)) :
    (s.xadd nowMs key fields).2.stream? other = if other = key then
      some ((s.stream key).push ((s.stream key).last.next nowMs) (StreamId.lt_next _ _) fields)
    else s.stream? other := by
  by_cases h : other = key
  · subst h
    simp [xadd]
  · simp [xadd, h, stream?_setStream_of_ne s h]

theorem stream?_expire (s : Store) (key other : Text) (deadline : Nat) :
    (s.expire key deadline).stream? other = if other = key then
      (s.stream? key).map fun stream => stream.withExpiry deadline
    else s.stream? other := by
  unfold expire
  cases hstream : s.stream? key with
  | none =>
      by_cases h : other = key
      · subst h
        simp [hstream]
      · simp [h]
  | some stream =>
      by_cases h : other = key
      · subst h
        simp
      · simp [h, stream?_setStream_of_ne s h]

theorem stream_xadd_self (s : Store) (nowMs : Nat) (key : Text) (fields : List (Text × Bytes)) :
    (s.xadd nowMs key fields).2.stream key =
      (s.stream key).push ((s.stream key).last.next nowMs) (StreamId.lt_next _ _) fields := by
  simp [xadd]

theorem stream_xadd_of_ne (s : Store) (nowMs : Nat) {key other : Text} (h : other ≠ key)
    (fields : List (Text × Bytes)) :
    (s.xadd nowMs key fields).2.stream other = s.stream other := by
  simp [xadd, stream_setStream_of_ne s h]

@[simp] theorem entries_expire (s : Store) (key other : Text) (deadline : Nat) :
    ((s.expire key deadline).stream other).entries = (s.stream other).entries := by
  unfold expire
  split
  · rename_i stream h
    by_cases ho : other = key
    · subst ho
      simp [Store.stream, h]
    · rw [stream_setStream_of_ne s ho]
  · rfl

@[simp] theorem last_expire (s : Store) (key other : Text) (deadline : Nat) :
    ((s.expire key deadline).stream other).last = (s.stream other).last := by
  unfold expire
  split
  · rename_i stream h
    by_cases ho : other = key
    · subst ho
      simp [Store.stream, h]
    · rw [stream_setStream_of_ne s ho]
  · rfl

theorem after_expire (s : Store) (key other : Text) (deadline : Nat) (id : StreamId) :
    ((s.expire key deadline).stream other).after id = (s.stream other).after id := by
  simp [Stream.after]

end Streams

-- All there is to see at a key.
def peek (s : Store) (key : Text) : Option Bytes × Option Stream :=
  (s.get key, s.stream? key)

section Peek

theorem peek_set_of_ne (s : Store) {key other : Text} (h : other ≠ key) (value : Bytes) :
    (s.set key value).peek other = s.peek other := by
  simp [peek, get_set_of_ne s h]

theorem peek_set_self (s : Store) (key : Text) (value : Bytes) :
    (s.set key value).peek key = (some value, s.stream? key) := by
  simp [peek]

theorem peek_delete_of_not_mem (s : Store) {keys : List Text} {other : Text} (h : other ∉ keys) :
    (s.delete keys).peek other = s.peek other := by
  simp [peek, get_delete, stream?_delete, h]

theorem peek_delete_self (s : Store) (key : Text) : (s.delete [key]).peek key = (none, none) := by
  simp [peek, get_delete, stream?_delete]

theorem peek_setStream_of_ne (s : Store) {key other : Text} (h : other ≠ key) (stream : Stream) :
    (s.setStream key stream).peek other = s.peek other := by
  simp [peek, stream?_setStream_of_ne s h]

theorem peek_setStream_self (s : Store) (key : Text) (stream : Stream) :
    (s.setStream key stream).peek key = (s.get key, some stream) := by
  simp [peek]

end Peek

end Store

end Stra2us.Foundation
