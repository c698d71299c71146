import Stra2us.Foundation.Text
import Mathlib.Data.List.Infix

namespace Stra2us.Foundation

-- Glob patterns over bytes: `*`, `?`, sets in brackets, and a backslash before what is meant
-- as it stands.

inductive GlobToken
  | many
  | one (negated : Bool) (ranges : List (UInt8 × UInt8))
deriving DecidableEq, Repr

namespace Glob

section Patterns

def inRange (byte : UInt8) (range : UInt8 × UInt8) : Bool :=
  (range.1 ≤ byte && byte ≤ range.2) || (range.2 ≤ byte && byte ≤ range.1)

def literal (byte : UInt8) : GlobToken :=
  .one false [(byte, byte)]

-- Between brackets what the set holds so far goes along. At the end of the pattern it counts
-- as closed.
def tokens : Option (Bool × List (UInt8 × UInt8)) → Bytes → List GlobToken
  | none, [] => []
  | some (negated, ranges), [] => [.one negated ranges]
  | none, byte :: rest =>
      if byte = 42 then .many :: tokens none rest
      else if byte = 63 then .one true [] :: tokens none rest
      else if byte = 91 then
        match rest with
        | [] => tokens (some (false, [])) []
        | first :: after =>
            if first = 94 then tokens (some (true, [])) after
            else tokens (some (false, [])) (first :: after)
      else if byte = 92 then
        match rest with
        | [] => [literal 92]
        | escaped :: after => literal escaped :: tokens none after
      else literal byte :: tokens none rest
  | some (negated, ranges), byte :: rest =>
      match rest with
      | [] => if byte = 93 then [.one negated ranges] else [.one negated (ranges ++ [(byte, byte)])]
      | next :: after =>
          if byte = 92 then tokens (some (negated, ranges ++ [(next, next)])) after
          else if byte = 93 then .one negated ranges :: tokens none (next :: after)
          else
            match after with
            | [] => tokens (some (negated, ranges ++ [(byte, byte)])) [next]
            | last :: others =>
                if next = 45 then tokens (some (negated, ranges ++ [(byte, last)])) others
                else tokens (some (negated, ranges ++ [(byte, byte)])) (next :: last :: others)

def matchTokens : List GlobToken → Bytes → Bool
  | [], text => text.isEmpty
  | .many :: rest, text => text.tails.any (matchTokens rest)
  | .one negated ranges :: rest, text =>
      match text with
      | [] => false
      | byte :: text => (ranges.any (inRange byte) != negated) && matchTokens rest text

end Patterns

end Glob

def globMatch (pattern text : Bytes) : Bool :=
  Glob.matchTokens (Glob.tokens none pattern) text

namespace Glob

section Literals

-- Neither `*` nor `?`, nor what opens a set or an escape.
def IsPlain (byte : UInt8) : Prop :=
  byte ≠ 42 ∧ byte ≠ 63 ∧ byte ≠ 91 ∧ byte ≠ 92

instance (byte : UInt8) : Decidable (IsPlain byte) :=
  inferInstanceAs (Decidable (_ ∧ _))

theorem tokens_plain {byte : UInt8} {rest : Bytes} (h : IsPlain byte) :
    tokens none (byte :: rest) = literal byte :: tokens none rest := by
  obtain ⟨hstar, hany, hset, hescape⟩ := h
  rw [tokens.eq_def]
  dsimp only
  rw [if_neg hstar, if_neg hany, if_neg hset, if_neg hescape]

theorem inRange_self {byte other : UInt8} : inRange byte (other, other) = true ↔ byte = other := by
  simp only [inRange, Bool.or_eq_true, Bool.and_eq_true, decide_eq_true_eq]
  constructor
  · rintro (⟨hle, hge⟩ | ⟨hle, hge⟩)
    · exact UInt8.le_antisymm hge hle
    · exact UInt8.le_antisymm hge hle
  · rintro rfl
    exact .inl ⟨UInt8.le_refl _, UInt8.le_refl _⟩

theorem matchTokens_literal {byte : UInt8} {rest : List GlobToken} {text : Bytes} :
    matchTokens (literal byte :: rest) text = true ↔
      ∃ after, text = byte :: after ∧ matchTokens rest after = true := by
  cases text with
  | nil => simp [literal, matchTokens]
  | cons first after =>
      have hany : ([(byte, byte)].any (inRange first) != false) = inRange first (byte, byte) := by
        simp
      simp only [literal, matchTokens, hany, Bool.and_eq_true, inRange_self, List.cons.injEq]
      constructor
      · rintro ⟨rfl, hrest⟩
        exact ⟨after, ⟨rfl, rfl⟩, hrest⟩
      · rintro ⟨_, ⟨rfl, rfl⟩, hrest⟩
        exact ⟨rfl, hrest⟩

-- A plain start of the pattern is a start of what it matches.
theorem globMatch_append {front pattern text : Bytes} (h : ∀ byte ∈ front, IsPlain byte) :
    globMatch (front ++ pattern) text = true ↔
      ∃ rest, text = front ++ rest ∧ globMatch pattern rest = true := by
  induction front generalizing text with
  | nil => simp
  | cons byte front ih =>
      unfold globMatch
      rw [List.cons_append, tokens_plain (h byte (by simp)), matchTokens_literal]
      have hrest (after : Bytes) := @ih after fun other hother => h other (by simp [hother])
      constructor
      · rintro ⟨after, rfl, hafter⟩
        obtain ⟨rest, rfl, hmatch⟩ := (hrest after).mp hafter
        exact ⟨rest, rfl, hmatch⟩
      · rintro ⟨rest, rfl, hmatch⟩
        exact ⟨front ++ rest, rfl, (hrest _).mpr ⟨rest, rfl, hmatch⟩⟩

theorem globMatch_star (text : Bytes) : globMatch [42] text = true := by
  have htokens : tokens none [42] = [.many] := rfl
  unfold globMatch
  rw [htokens]
  simp only [matchTokens, List.any_eq_true]
  exact ⟨[], (List.mem_tails [] text).mpr List.nil_suffix, rfl⟩

end Literals

end Glob

end Stra2us.Foundation
