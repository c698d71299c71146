import Mathlib.Data.List.Chain
import Mathlib.Data.List.Forall2
import Stra2us.Foundation.Json

namespace Stra2us.Foundation.Json

-- Documents of texts, lists and objects with distinct names, no deeper than this.
def Textual : Nat → Value → Prop
  | _, .str _ => True
  | depth + 1, .list items => ∀ item ∈ items, Textual depth item
  | depth + 1, .dict pairs =>
      ∃ members : List (Text × Value), pairs = members.map (fun m => (.str m.1, m.2)) ∧
        (members.map Prod.fst).Nodup ∧ ∀ m ∈ members, Textual depth m.2
  | _, _ => False

section Units

theorem hexDigit?_hexLower {n : Nat} (h : n < 16) : hexDigit? (hexLower n) = some n := by
  have hall : ∀ m : Fin 16, hexDigit? (hexLower m) = some m.val := by decide
  exact hall ⟨n, h⟩

theorem hex4_hexLower {a b c d : Nat} (ha : a < 16) (hb : b < 16) (hc : c < 16) (hd : d < 16)
    (rest : Text) : hex4 (hexLower a :: hexLower b :: hexLower c :: hexLower d :: rest) =
      some (((a * 16 + b) * 16 + c) * 16 + d, rest) := by
  simp only [hex4, hexDigit?_hexLower ha, hexDigit?_hexLower hb, hexDigit?_hexLower hc,
    hexDigit?_hexLower hd, Option.bind_eq_bind, Option.bind_some]

-- The digits of an escape, without its lead-in.
def unitDigits (unit : Nat) : Text :=
  [hexLower (unit / 4096 % 16), hexLower (unit / 256 % 16), hexLower (unit / 16 % 16),
    hexLower (unit % 16)]

theorem escapeUnit_append (unit : Nat) (rest : Text) :
    escapeUnit unit ++ rest = '\\' :: 'u' :: (unitDigits unit ++ rest) := rfl

theorem hex4_unitDigits {unit : Nat} (h : unit < 0x10000) (rest : Text) :
    hex4 (unitDigits unit ++ rest) = some (unit, rest) := by
  have hlt (n : Nat) : n % 16 < 16 := Nat.mod_lt _ (by omega)
  have hsum : ((unit / 4096 % 16 * 16 + unit / 256 % 16) * 16 + unit / 16 % 16) * 16 + unit % 16 =
      unit := by omega
  have hread := hex4_hexLower (hlt (unit / 4096)) (hlt (unit / 256)) (hlt (unit / 16)) (hlt unit) rest
  rw [hsum] at hread
  exact hread

-- No escape of a low surrogate comes next.
def NoLow (text : Text) : Prop :=
  ∀ after low rest, text = '\\' :: 'u' :: after → hex4 after = some (low, rest) → isLow low = false

theorem scanEscapedUnit_single {unit : Nat} (h : unit < 0x10000) {rest : Text}
    (hrest : isHigh unit = true → NoLow rest) :
    scanEscapedUnit (unitDigits unit ++ rest) = some (unit, rest) := by
  unfold scanEscapedUnit
  rw [hex4_unitDigits h]
  simp only [Option.bind_eq_bind, Option.bind_some]
  by_cases hhigh : isHigh unit = true
  · rw [if_pos hhigh]
    split
    · rename_i after
      cases hfound : hex4 after with
      | none => rfl
      | some found =>
          have hlow := hrest hhigh after found.1 found.2 rfl hfound
          simp [hlow]
    · rfl
  · rw [if_neg hhigh]

theorem scanEscapedUnit_pair {high low : Nat} (hhigh : high < 0x10000) (hlow : low < 0x10000)
    (hfirst : isHigh high = true) (hsecond : isLow low = true) (rest : Text) :
    scanEscapedUnit (unitDigits high ++ (escapeUnit low ++ rest)) =
      some (joinPair high low, rest) := by
  unfold scanEscapedUnit
  rw [hex4_unitDigits hhigh, escapeUnit_append]
  simp only [Option.bind_eq_bind, Option.bind_some, hfirst, ite_true]
  rw [hex4_unitDigits hlow]
  simp only [hsecond, ite_true]

theorem scanUnits_escaped {fuel unit : Nat} {text rest : Text}
    (h : scanEscapedUnit text = some (unit, rest)) :
    scanUnits (fuel + 1) ('\\' :: 'u' :: text) =
      (scanUnits fuel rest).map fun found => (unit :: found.1, found.2) := by
  simp only [scanUnits, h]
  cases scanUnits fuel rest <;> rfl

theorem scanUnits_simple {fuel : Nat} {c : Char} (plain : Char) (hc : c ≠ 'u')
    (h : simpleEscape c = some plain) (rest : Text) :
    scanUnits (fuel + 1) ('\\' :: c :: rest) =
      (scanUnits fuel rest).map fun found => (plain.toNat :: found.1, found.2) := by
  rw [scanUnits.eq_5 _ _ _ (by simpa using hc), h]
  cases scanUnits fuel rest <;> rfl

theorem scanUnits_plain {fuel : Nat} {c : Char} (hlow : 32 ≤ c.toNat) (hquote : c ≠ '"')
    (hslash : c ≠ '\\') (rest : Text) :
    scanUnits (fuel + 1) (c :: rest) =
      (scanUnits fuel rest).map fun found => (c.toNat :: found.1, found.2) := by
  rw [scanUnits.eq_6 _ _ _ (by simpa using hquote) (fun _ h => absurd h hslash)
    (fun _ _ h => absurd h hslash)]
  rw [if_neg (by simp only [hslash, or_false]; omega)]
  cases scanUnits fuel rest <;> rfl

theorem isHigh_of_surrogates {n : Nat} (h : n < 0x100000) : isHigh (0xd800 + n / 0x400) = true := by
  simp only [isHigh, Bool.and_eq_true, decide_eq_true_eq]
  omega

theorem isLow_of_surrogates (n : Nat) : isLow (0xdc00 + n % 0x400) = true := by
  simp only [isLow, Bool.and_eq_true, decide_eq_true_eq]
  omega

theorem joinPair_surrogates (n : Nat) :
    joinPair (0xd800 + n / 0x400) (0xdc00 + n % 0x400) = 0x10000 + n := by
  unfold joinPair
  omega

theorem isHigh_toNat (c : Char) : isHigh c.toNat = false := by
  simp only [isHigh, Bool.and_eq_false_iff, decide_eq_false_iff_not]
  rcases c.valid with h | h
  · left
    change ¬ 0xd800 ≤ c.val.toNat
    omega
  · right
    change ¬ c.val.toNat ≤ 0xdbff
    omega

theorem toNat_lt (c : Char) : c.toNat < 0x110000 := by
  change c.val.toNat < 0x110000
  rcases c.valid with h | h
  · omega
  · exact h.2

theorem toNat_ofNat {n : Nat} (h : n < 127) : (Char.ofNat n).toNat = n := by
  have hall : ∀ m : Fin 127, (Char.ofNat m.val).toNat = m.val := by decide
  exact hall ⟨n, h⟩

-- One code point is read back from what is written for it.
theorem scanUnits_escapeCodePoint {n : Nat} (hn : n < 0x110000) (fuel : Nat) {rest : Text}
    (hrest : isHigh n = true → NoLow rest) :
    scanUnits (fuel + 1) (escapeCodePoint n ++ rest) =
      (scanUnits fuel rest).map fun found => (n :: found.1, found.2) := by
  unfold escapeCodePoint
  split_ifs with hquote hslash h3 h4 h5 h6 h7 hplain hbasic
  · rw [hquote]
    exact scanUnits_simple '"' (by decide) rfl rest
  · rw [hslash]
    exact scanUnits_simple '\\' (by decide) rfl rest
  · rw [h3]
    exact scanUnits_simple '\n' (by decide) rfl rest
  · rw [h4]
    exact scanUnits_simple '\r' (by decide) rfl rest
  · rw [h5]
    exact scanUnits_simple '\t' (by decide) rfl rest
  · rw [h6]
    exact scanUnits_simple '\x0c' (by decide) rfl rest
  · rw [h7]
    exact scanUnits_simple '\x08' (by decide) rfl rest
  · have hback := toNat_ofNat (n := n) (by omega)
    have hread := @scanUnits_plain fuel (Char.ofNat n) (by omega) (fun heq => hquote (by
      rw [← hback, heq]; rfl)) (fun heq => hslash (by rw [← hback, heq]; rfl)) rest
    rw [hback] at hread
    exact hread
  · exact scanUnits_escaped (scanEscapedUnit_single hbasic hrest)
  · obtain ⟨m, rfl⟩ : ∃ m, n = 0x10000 + m := ⟨n - 0x10000, by omega⟩
    rw [Nat.add_sub_cancel_left, List.append_assoc, escapeUnit_append]
    rw [← joinPair_surrogates m]
    apply scanUnits_escaped
    exact scanEscapedUnit_pair (by omega) (by omega) (isHigh_of_surrogates (by omega))
      (isLow_of_surrogates m) rest

-- What is written for a code point that is no low surrogate does not read as one.
theorem noLow_escapeCodePoint {n : Nat} (hn : n < 0x110000) (h : isLow n = false) (rest : Text) :
    NoLow (escapeCodePoint n ++ rest) := by
  intro after low behind htext hfound
  have hunit {n : Nat} {more : Text} (hlt : n < 0x10000) (hnot : isLow n = false)
      (heq : escapeUnit n ++ more = '\\' :: 'u' :: after) : isLow low = false := by
    rw [escapeUnit_append] at heq
    obtain rfl := (List.cons.inj (List.cons.inj heq).2).2
    rw [hex4_unitDigits hlt] at hfound
    rw [← (Prod.mk.inj (Option.some.inj hfound)).1]
    exact hnot
  unfold escapeCodePoint at htext
  split_ifs at htext with hquote hslash h3 h4 h5 h6 h7 hplain hbasic
  · cases htext
  · cases htext
  · cases htext
  · cases htext
  · cases htext
  · cases htext
  · cases htext
  · have hslashed := congrArg Char.toNat (List.cons.inj htext).1
    rw [toNat_ofNat (by omega)] at hslashed
    exact absurd hslashed hslash
  · exact hunit hbasic h htext
  · rw [List.append_assoc] at htext
    refine hunit (n := 0xd800 + (n - 0x10000) / 0x400) ?_ ?_ htext
    · omega
    · simp only [isLow, Bool.and_eq_false_iff, decide_eq_false_iff_not]
      omega

-- Between the units of a string no high surrogate stands in front of a low one.
def Unpaired (units : List Nat) : Prop :=
  units.IsChain fun unit next => ¬ (isHigh unit = true ∧ isLow next = true)

theorem scanUnits_units {units : List Nat} (hrange : ∀ unit ∈ units, unit < 0x110000)
    (hpairs : Unpaired units) {fuel : Nat} (h : units.length < fuel) (rest : Text) :
    scanUnits fuel (units.flatMap escapeCodePoint ++ '"' :: rest) = .ok (units, rest) := by
  induction units generalizing fuel with
  | nil =>
      obtain ⟨fuel, rfl⟩ : ∃ n, fuel = n + 1 := ⟨fuel - 1, by simp at h; omega⟩
      rfl
  | cons unit units ih =>
      obtain ⟨fuel, rfl⟩ : ∃ n, fuel = n + 1 := ⟨fuel - 1, by omega⟩
      have hlt : units.length < fuel := by
        simpa using h
      have hnext : isHigh unit = true → NoLow (units.flatMap escapeCodePoint ++ '"' :: rest) := by
        intro hhigh
        cases units with
        | nil =>
            intro after low behind htext
            cases htext
        | cons next units =>
            have hlow : isLow next = false := by
              have hpair := (List.isChain_cons_cons.mp hpairs).1
              cases hnext : isLow next with
              | false => rfl
              | true => exact absurd ⟨hhigh, hnext⟩ hpair
            rw [List.flatMap_cons, List.append_assoc]
            exact noLow_escapeCodePoint (hrange next (by simp)) hlow _
      have hrest := ih (fun u hu => hrange u (List.mem_cons_of_mem _ hu)) (List.isChain_of_isChain_cons hpairs) hlt
      rw [List.flatMap_cons, List.append_assoc,
        scanUnits_escapeCodePoint (hrange unit List.mem_cons_self) fuel hnext, hrest]
      rfl

theorem stringOfUnits_text (text : Text) : stringOfUnits (text.map Char.toNat) = .str text := by
  have hnone : (text.map Char.toNat).any isSurrogate = false := by
    rw [List.any_eq_false]
    intro unit hunit
    obtain ⟨c, -, rfl⟩ := List.mem_map.mp hunit
    simp only [isSurrogate, Bool.and_eq_true, decide_eq_true_eq, not_and]
    change 0xd800 ≤ c.val.toNat → ¬ c.val.toNat ≤ 0xdfff
    rcases c.valid with h | h
    · omega
    · omega
  have hback : (text.map Char.toNat).map Char.ofNat = text := by
    rw [List.map_map]
    exact List.map_id'' (fun c => Char.ofNat_toNat c) text
  simp only [stringOfUnits, hnone, hback]
  rfl

theorem length_le_flatMap (units : List Nat) :
    units.length ≤ (units.flatMap escapeCodePoint).length := by
  induction units with
  | nil => exact Nat.zero_le _
  | cons unit units ih =>
      have hpos : 0 < (escapeCodePoint unit).length := by
        unfold escapeCodePoint
        split_ifs <;> simp [escapeUnit]
      simp only [List.flatMap_cons, List.length_cons, List.length_append]
      omega

theorem scanString_units {units : List Nat} (hrange : ∀ unit ∈ units, unit < 0x110000)
    (hpairs : Unpaired units) (rest : Text) :
    scanString (units.flatMap escapeCodePoint ++ '"' :: rest) =
      .ok (stringOfUnits units, rest) := by
  have hfuel : units.length < (units.flatMap escapeCodePoint ++ '"' :: rest).length + 1 := by
    have := length_le_flatMap units
    rw [List.length_append]
    omega
  unfold scanString
  rw [scanUnits_units hrange hpairs hfuel]
  rfl

theorem unpaired_text (text : Text) : Unpaired (text.map Char.toNat) := by
  induction text with
  | nil => exact List.IsChain.nil
  | cons c text ih =>
      cases text with
      | nil => exact List.IsChain.singleton _
      | cons d text =>
          refine List.isChain_cons_cons.mpr ⟨fun h => ?_, ih⟩
          rw [isHigh_toNat] at h
          exact absurd h.1 (by decide)

theorem scanString_text (text rest : Text) :
    scanString ((text.map Char.toNat).flatMap escapeCodePoint ++ '"' :: rest) =
      .ok (.str text, rest) := by
  have hrange : ∀ unit ∈ text.map Char.toNat, unit < 0x110000 := by
    intro unit hunit
    obtain ⟨c, -, rfl⟩ := List.mem_map.mp hunit
    exact toNat_lt c
  rw [scanString_units hrange (unpaired_text text), stringOfUnits_text]

end Units

end Stra2us.Foundation.Json
