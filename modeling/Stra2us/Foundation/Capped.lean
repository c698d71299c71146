import Mathlib.Data.List.Basic
import Mathlib.Data.Int.Order.Basic

namespace Stra2us.Foundation

namespace Capped

section Loop

variable {α β ε : Type} (make : α → Except ε (Option β)) (limit : Int)

-- What is made of the items one by one, until there is enough of it.
def collect : List α → List β → Except ε (List β)
  | [], found => .ok found
  | item :: rest, found =>
      match make item with
      | .error exn => .error exn
      | .ok none => collect rest found
      | .ok (some new) =>
          if limit ≤ (found ++ [new]).length then .ok (found ++ [new])
          else collect rest (found ++ [new])

def made? (item : α) : Option β :=
  match make item with
  | .ok new? => new?
  | .error _ => none

def made (items : List α) : List β :=
  items.filterMap (made? make)

def Breaks (item : α) : Prop :=
  ∃ exn, make item = .error exn

-- An item that breaks comes before so much has been made.
def Stops (items : List α) (count : Nat) : Prop :=
  ∃ front item rest, items = front ++ item :: rest ∧ Breaks make item ∧
    (made make front).length < count

end Loop

section Result

variable {α β ε : Type} {make : α → Except ε (Option β)} {limit : Int}

theorem made_append (front rest : List α) :
    made make (front ++ rest) = made make front ++ made make rest :=
  List.filterMap_append

theorem length_made_le (items : List α) : (made make items).length ≤ items.length :=
  List.length_filterMap_le _ _

theorem not_stops_nil {count : Nat} : ¬ Stops make [] count := by
  rintro ⟨front, item, rest, hnil, -, -⟩
  exact nomatch (List.append_eq_nil_iff.mp hnil.symm).2

theorem not_stops_zero {items : List α} : ¬ Stops make items 0 := by
  rintro ⟨_, _, _, -, -, hcount⟩
  exact Nat.not_lt_zero _ hcount

theorem stops_cons {item : α} {rest : List α} {count : Nat} :
    Stops make (item :: rest) count ↔ 0 < count ∧ Breaks make item ∨
      Stops make rest (count - (made make [item]).length) := by
  have hsum (front : List α) : (made make (item :: front)).length =
      (made make [item]).length + (made make front).length := by
    rw [← List.length_append, ← made_append, List.singleton_append]
  constructor
  · rintro ⟨front, broken, after, hsplit, hbreaks, hcount⟩
    cases front with
    | nil =>
        obtain ⟨rfl, rfl⟩ := List.cons_eq_cons.mp hsplit
        exact .inl ⟨Nat.zero_lt_of_lt hcount, hbreaks⟩
    | cons first front =>
        obtain ⟨rfl, rfl⟩ := List.cons_eq_cons.mp hsplit
        refine .inr ⟨front, broken, after, rfl, hbreaks, ?_⟩
        rw [hsum] at hcount
        omega
  · rintro (⟨hpos, hbreaks⟩ | ⟨front, broken, after, rfl, hbreaks, hcount⟩)
    · exact ⟨[], item, rest, rfl, hbreaks, hpos⟩
    · refine ⟨item :: front, broken, after, rfl, hbreaks, ?_⟩
      rw [hsum]
      omega

-- The first of all that can be made, unless an item breaks before there is enough.
theorem collect_ok_iff {items : List α} {found all : List β} (h : (found.length : Int) < limit) :
    collect make limit items found = .ok all ↔
      ¬ Stops make items (limit.toNat - found.length) ∧
        all = (found ++ made make items).take limit.toNat := by
  induction items generalizing found with
  | nil =>
      have htake : (found ++ made make []).take limit.toNat = found := by
        rw [made, List.filterMap_nil, List.append_nil]
        exact List.take_of_length_le (by omega)
      rw [htake, and_iff_right not_stops_nil]
      exact ⟨fun heq => (Except.ok.inj heq).symm, fun heq => congrArg Except.ok heq.symm⟩
  | cons item rest ih =>
      have hpos : 0 < limit.toNat - found.length := by omega
      have hsplit : made make (item :: rest) = made make [item] ++ made make rest :=
        made_append [item] rest
      rw [stops_cons, hsplit]
      unfold collect
      cases hmake : make item with
      | error exn =>
          have hbreaks : Breaks make item := ⟨exn, hmake⟩
          simp [hbreaks, hpos]
      | ok new? =>
          have hgood : ¬ Breaks make item := by
            rintro ⟨exn, hexn⟩
            rw [hmake] at hexn
            nomatch hexn
          have hnew : made? make item = new? := by rw [made?, hmake]
          cases new? with
          | none =>
              have hone : made make [item] = [] := List.filterMap_cons_none hnew
              rw [hone]
              simp only [hgood, and_false, false_or, List.length_nil, Nat.sub_zero,
                List.nil_append]
              exact ih h
          | some new =>
              have hone : made make [item] = [new] := List.filterMap_cons_some hnew
              have hlength : (found ++ [new]).length = found.length + 1 := by simp
              rw [hone, ← List.append_assoc]
              simp only [hgood, and_false, false_or, List.length_singleton]
              by_cases hfull : limit ≤ (found ++ [new]).length
              · have hexact : limit.toNat = (found ++ [new]).length := by omega
                have hover : limit.toNat - found.length - 1 = 0 := by omega
                rw [if_pos hfull, hover, hexact, List.take_left, and_iff_right not_stops_zero]
                exact ⟨fun heq => (Except.ok.inj heq).symm, fun heq => congrArg Except.ok heq.symm⟩
              · rw [if_neg hfull, Nat.sub_sub, ← hlength]
                exact ih (by omega)

-- The first of all is in before anything is compared.
theorem collect_max_one {items : List α} :
    collect make limit items [] = collect make (max 1 limit) items [] := by
  induction items with
  | nil => rfl
  | cons item rest ih =>
      unfold collect
      split
      · rfl
      · exact ih
      · rename_i new _
        have hone : (([] ++ [new] : List β).length : Int) = 1 := rfl
        by_cases hle : limit ≤ 1
        · rw [max_eq_left hle, hone, if_pos hle, if_pos (le_refl _)]
        · rw [max_eq_right (by omega)]

theorem collect_first_iff {items : List α} {all : List β} :
    collect make limit items [] = .ok all ↔ ¬ Stops make items (max 1 limit).toNat ∧
      all = (made make items).take (max 1 limit).toNat := by
  have hempty : (([] : List β).length : Int) < max 1 limit := by
    rw [List.length_nil]
    omega
  rw [collect_max_one]
  exact collect_ok_iff hempty

end Result

end Capped

end Stra2us.Foundation
