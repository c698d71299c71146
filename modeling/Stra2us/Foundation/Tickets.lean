import Mathlib.Data.List.Basic

namespace Stra2us.Foundation

-- Tickets that follow a clock: each is the reading it is drawn at, or one past the last when
-- the clock has not got beyond that.

def nextTicket (last now : Int) : Int :=
  max now (last + 1)

def lastTicket (last : Int) (readings : List Int) : Int :=
  readings.foldl nextTicket last

theorem lastTicket_snoc (last : Int) (readings : List Int) (now : Int) :
    lastTicket last (readings ++ [now]) = nextTicket (lastTicket last readings) now := by
  simp [lastTicket, List.foldl_append]

-- The last ticket is ahead of a bound by as much as some earlier reading was, and one more for
-- each ticket drawn since.
theorem lastTicket_le_iff {last bound : Int} {readings : List Int} :
    lastTicket last readings ≤ bound ↔
      last + readings.length ≤ bound ∧
        ∀ before now after, readings = before ++ now :: after → now + after.length ≤ bound := by
  induction readings generalizing last with
  | nil => simp [lastTicket]
  | cons first readings ih =>
      have hstep : lastTicket last (first :: readings) =
          lastTicket (nextTicket last first) readings := rfl
      rw [hstep, ih, List.length_cons]
      unfold nextTicket
      constructor
      · rintro ⟨hstart, hlater⟩
        refine ⟨by omega, ?_⟩
        intro before now after heq
        rcases List.cons_eq_append_iff.mp heq with ⟨rfl, hcons⟩ | ⟨before', rfl, hrest⟩
        · obtain ⟨rfl, rfl⟩ := List.cons.inj hcons
          omega
        · exact hlater before' now after hrest
      · rintro ⟨hstart, hlater⟩
        have hfirst := hlater [] first readings rfl
        refine ⟨by omega, ?_⟩
        intro before now after heq
        exact hlater (first :: before) now after (by rw [heq, List.cons_append])

-- An element of a grown list is the new one or stood there before.
theorem split_snoc {α : Type} {front before after : List α} {event last : α}
    (h : front ++ [last] = before ++ event :: after) :
    (after = [] ∧ before = front ∧ event = last) ∨
      ∃ rest, after = rest ++ [last] ∧ front = before ++ event :: rest := by
  rcases List.eq_nil_or_concat after with rfl | ⟨rest, tail, rfl⟩
  · obtain ⟨rfl, hlast⟩ := List.append_inj' h rfl
    exact .inl ⟨rfl, rfl, (List.cons.inj hlast).1.symm⟩
  · rw [List.concat_eq_append, ← List.cons_append, ← List.append_assoc] at h
    obtain ⟨rfl, hlast⟩ := List.append_inj' h rfl
    refine .inr ⟨rest, ?_, rfl⟩
    rw [List.concat_eq_append, (List.cons.inj hlast).1]

end Stra2us.Foundation
