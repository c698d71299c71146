import Mathlib.Data.List.Basic

namespace Stra2us.Foundation

-- A stream made of numbered blocks, and data masked with it element by element.

variable {α : Type} (block : Nat → List α) (op : α → α → α)

def blocksFrom : (counter count : Nat) → List α
  | _, 0 => []
  | counter, count + 1 => block counter ++ blocksFrom (counter + 1) count

section Stream

variable {block} {width : Nat}

theorem blocksFrom_add (counter m n : Nat) :
    blocksFrom block counter (m + n) =
      blocksFrom block counter m ++ blocksFrom block (counter + m) n := by
  induction m generalizing counter with
  | zero => simp [blocksFrom]
  | succ m ih =>
      rw [Nat.add_right_comm, blocksFrom, blocksFrom, ih, List.append_assoc]
      congr 3
      omega

theorem blocksFrom_succ (counter count : Nat) :
    blocksFrom block counter (count + 1) =
      blocksFrom block counter count ++ block (counter + count) := by
  rw [blocksFrom_add]
  simp [blocksFrom]

theorem length_blocksFrom (hwidth : ∀ i, (block i).length = width) (counter count : Nat) :
    (blocksFrom block counter count).length = count * width := by
  induction count generalizing counter with
  | zero => simp [blocksFrom]
  | succ count ih =>
      rw [blocksFrom, List.length_append, hwidth, ih, Nat.succ_mul, Nat.add_comm]

-- The first blocks of a longer stream are those of a shorter one.
theorem blocksFrom_le (counter : Nat) {m n : Nat} (h : m ≤ n) :
    blocksFrom block counter m <+: blocksFrom block counter n := by
  obtain ⟨rest, rfl⟩ := Nat.exists_eq_add_of_le h
  exact ⟨_, (blocksFrom_add counter m rest).symm⟩

end Stream

section Mask

variable {op} {data stream stream' : List α}

-- What is beyond the data in the stream is not looked at.
theorem zipWith_longer (hbefore : stream <+: stream') (hlength : data.length ≤ stream.length) :
    List.zipWith op data stream' = List.zipWith op data stream := by
  obtain ⟨rest, rfl⟩ := hbefore
  induction data generalizing stream with
  | nil => simp
  | cons a data ih =>
      cases stream with
      | nil => simp at hlength
      | cons b stream => simp [ih (by simpa using hlength)]

-- Each part of the stream masks the part of the data that it stands over.
theorem zipWith_append_right (front rest : List α) :
    List.zipWith op data (front ++ rest) =
      List.zipWith op (data.take front.length) front ++
        List.zipWith op (data.drop front.length) rest := by
  induction front generalizing data with
  | nil => simp
  | cons a front ih =>
      cases data with
      | nil => simp
      | cons b data => simp [ih]

theorem zipWith_twice (hop : ∀ a b, op (op a b) b = a) (hlength : data.length ≤ stream.length) :
    List.zipWith op (List.zipWith op data stream) stream = data := by
  induction data generalizing stream with
  | nil => simp
  | cons a data ih =>
      cases stream with
      | nil => simp at hlength
      | cons b stream => simp [hop, ih (by simpa using hlength)]

end Mask

end Stra2us.Foundation
