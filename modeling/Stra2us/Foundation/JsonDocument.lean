import Stra2us.Foundation.Batch
import Stra2us.Foundation.FloatText
import Stra2us.Foundation.JsonText

namespace Stra2us.Foundation.Json

section Values

-- A string of a document that is no text holds a surrogate; a pair of them would be one
-- code point.
structure Lone (units : List Nat) : Prop where
  any_isSurrogate : units.any isSurrogate = true
  lt_limit : ∀ unit ∈ units, unit < 0x110000
  unpaired : Unpaired units

def IsString : Value → Prop
  | .str _ => True
  | .surrogates units => Lone units
  | _ => False

-- The values that documents come to, no deeper than this.
inductive Document : Nat → Value → Prop
  | none {depth : Nat} : Document depth .none
  | bool {depth : Nat} (b : Bool) : Document depth (.bool b)
  | int {depth : Nat} {n : Int} (h : (natText n.natAbs).length ≤ maxIntDigits) :
      Document depth (.int n)
  | float {depth : Nat} {x : Binary64} (h : x.isNan = true → x = .nan) : Document depth (.float x)
  | string {depth : Nat} {value : Value} (h : IsString value) : Document depth value
  | list {depth : Nat} {items : List Value} (h : ∀ item ∈ items, Document depth item) :
      Document (depth + 1) (.list items)
  | dict {depth : Nat} {pairs : List (Value × Value)} (hkeys : ∀ pair ∈ pairs, IsString pair.1)
      (hdistinct : (pairs.map Prod.fst).Nodup) (h : ∀ pair ∈ pairs, Document depth pair.2) :
      Document (depth + 1) (.dict pairs)

theorem Document.items {depth : Nat} {items : List Value} (h : Document depth (.list items)) :
    ∃ inner, ∀ item ∈ items, Document inner item := by
  cases h with
  | string h => exact absurd h id
  | list h => exact ⟨_, h⟩

theorem Document.pairs {depth : Nat} {pairs : List (Value × Value)}
    (h : Document depth (.dict pairs)) :
    ∃ inner, (∀ pair ∈ pairs, IsString pair.1) ∧ (pairs.map Prod.fst).Nodup ∧
      ∀ pair ∈ pairs, Document inner pair.2 := by
  cases h with
  | string h => exact absurd h id
  | dict hkeys hdistinct h => exact ⟨_, hkeys, hdistinct, h⟩

theorem Document.mono {depth depth' : Nat} {value : Value} (h : Document depth value)
    (hle : depth ≤ depth') : Document depth' value := by
  induction h generalizing depth' with
  | none => exact .none
  | bool b => exact .bool b
  | int h => exact .int h
  | float h => exact .float h
  | string h => exact .string h
  | list h ih =>
      obtain ⟨inner, rfl⟩ := Nat.exists_eq_add_of_le' (show 1 ≤ depth' by omega)
      exact .list fun item hitem => ih item hitem (by omega)
  | dict hkeys hdistinct h ih =>
      obtain ⟨inner, rfl⟩ := Nat.exists_eq_add_of_le' (show 1 ≤ depth' by omega)
      exact .dict hkeys hdistinct fun pair hpair => ih pair hpair (by omega)

end Values

section Spelling

def SpellsString (text : Text) (value : Value) : Prop :=
  ∃ body, text = '"' :: body ∧ ∀ rest, scanString (body ++ rest) = .ok (value, rest)

inductive SpellsAtom : Text → Value → Prop
  | none : SpellsAtom "null".toList .none
  | bool (b : Bool) : SpellsAtom (boolText b) (.bool b)
  | int {text : Text} {n : Int} (h : IntLiteral text n) : SpellsAtom text (.int n)
  | float {text : Text} {x : Binary64} (h : FloatLiteral text x) : SpellsAtom text (.float x)
  | string {text : Text} {value : Value} (h : SpellsString text value) : SpellsAtom text value

def arrayText (gap : Text) (texts : List Text) : Text :=
  '[' :: (joinWith (',' :: gap) texts ++ [']'])

def objectText (gap : Text) (texts : List Text) : Text :=
  '{' :: (joinWith (',' :: gap) texts ++ ['}'])

def memberText (gap name body : Text) : Text :=
  name ++ ':' :: (gap ++ body)

-- How a document is written, with this gap behind commas and colons.
def Spells (gap : Text) : Nat → Text → Value → Prop
  | 0, text, value => SpellsAtom text value
  | depth + 1, text, value => SpellsAtom text value ∨
      (∃ texts items, text = arrayText gap texts ∧ value = .list items ∧
        List.Forall₂ (Spells gap depth) texts items) ∨
      ∃ texts pairs, text = objectText gap texts ∧ value = .dict pairs ∧
        (pairs.map Prod.fst).Nodup ∧
        List.Forall₂ (fun text pair => ∃ name body, text = memberText gap name body ∧
          SpellsString name pair.1 ∧ Spells gap depth body pair.2) texts pairs

end Spelling

section Reading

-- What is written for a value starts neither with white space nor with what closes a bracket.
def Begins (text : Text) : Prop :=
  ∃ c rest, text = c :: rest ∧ isWs c = false ∧ c ≠ ']' ∧ c ≠ '\uFEFF'

theorem Begins.skipWs {text : Text} (h : Begins text) (rest : Text) :
    skipWs (text ++ rest) = text ++ rest := by
  obtain ⟨c, text, rfl, hws, -⟩ := h
  simp [Json.skipWs, hws]

theorem Begins.length_pos {text : Text} (h : Begins text) : 0 < text.length := by
  obtain ⟨c, body, rfl, -⟩ := h
  exact Nat.succ_pos _

-- A text is read as this item up to what may end a number.
def Reads (inner : Text → Except Error (Value × Text)) (text : Text) (item : Value) : Prop :=
  Begins text ∧ ∀ rest, EndsNumber rest → inner (text ++ rest) = .ok (item, rest)

theorem begins_joinWith {sep text : Text} (h : Begins text) (texts : List Text) :
    Begins (joinWith sep (text :: texts)) := by
  obtain ⟨c, body, rfl, hc⟩ := h
  cases texts with
  | nil => exact ⟨c, body, rfl, hc⟩
  | cons second others =>
      exact ⟨c, body ++ sep ++ joinWith sep (second :: others), by simp [joinWith], hc⟩

-- What stands between two items is passed over.
theorem skipWs_gap {gap text : Text} (hgap : ∀ c ∈ gap, isWs c) (h : Begins text) (rest : Text) :
    skipWs (gap ++ (text ++ rest)) = text ++ rest := by
  have hskip : skipWs (gap ++ (text ++ rest)) = skipWs (text ++ rest) := by
    unfold Json.skipWs
    rw [List.dropWhile_append_of_pos hgap]
  rw [hskip, h.skipWs]

theorem endsNumber_cons {c : Char} (hdigit : c.isDigit = false) (hpoint : c ≠ '.') (he : c ≠ 'e')
    (hE : c ≠ 'E') (rest : Text) : EndsNumber (c :: rest) := by
  intro d hd
  obtain rfl := Option.some.inj hd
  exact ⟨hdigit, hpoint, he, hE⟩

theorem endsNumber_comma (rest : Text) : EndsNumber (',' :: rest) :=
  endsNumber_cons (by decide) (by decide) (by decide) (by decide) rest

theorem endsNumber_bracket (rest : Text) : EndsNumber (']' :: rest) :=
  endsNumber_cons (by decide) (by decide) (by decide) (by decide) rest

theorem endsNumber_brace (rest : Text) : EndsNumber ('}' :: rest) :=
  endsNumber_cons (by decide) (by decide) (by decide) (by decide) rest

theorem joinWith_cons_cons (sep text second : Text) (others : List Text) :
    joinWith sep (text :: second :: others) = text ++ sep ++ joinWith sep (second :: others) := rfl

theorem length_le_joinWith {sep : Text} {texts : List Text} (h : ∀ text ∈ texts, Begins text) :
    texts.length ≤ (joinWith sep texts).length := by
  induction texts with
  | nil => exact Nat.zero_le _
  | cons text texts ih =>
      have hpos := (h text (by simp)).length_pos
      cases texts with
      | nil => exact hpos
      | cons second others =>
          have hrest := ih fun t ht => h t (List.mem_cons_of_mem _ ht)
          rw [joinWith_cons_cons, List.length_append, List.length_append]
          simp only [List.length_cons] at hrest ⊢
          omega

variable {inner : Text → Except Error (Value × Text)} {gap : Text}

section Items

theorem scanItems_last {text rest : Text} {item : Value} (fuel : Nat)
    (h : Reads inner text item) :
    scanItems inner (fuel + 1) (text ++ ']' :: rest) = .ok ([item], rest) := by
  simp only [scanItems, h.2 _ (endsNumber_bracket rest), bind, Except.bind]
  rfl

theorem scanItems_more {text more rest : Text} {item : Value} (fuel : Nat)
    (hgap : ∀ c ∈ gap, isWs c) (h : Reads inner text item) (hmore : Begins more) :
    scanItems inner (fuel + 1) (text ++ ',' :: (gap ++ (more ++ rest))) =
      (scanItems inner fuel (more ++ rest)).map fun found => (item :: found.1, found.2) := by
  have hcomma (after : Text) : skipWs (',' :: after) = ',' :: after := rfl
  simp only [scanItems, h.2 _ (endsNumber_comma _), bind, Except.bind, hcomma,
    skipWs_gap hgap hmore]
  cases scanItems inner fuel (more ++ rest) <;> rfl

theorem joinWith_append (text second : Text) (others : List Text) (rest : Text) :
    joinWith (',' :: gap) (text :: second :: others) ++ rest =
      text ++ ',' :: (gap ++ (joinWith (',' :: gap) (second :: others) ++ rest)) := by
  simp [joinWith]

theorem scanItems_join {texts : List Text} {items : List Value} (hgap : ∀ c ∈ gap, isWs c)
    (h : List.Forall₂ (Reads inner) texts items) (hne : texts ≠ []) {fuel : Nat}
    (hfuel : texts.length ≤ fuel) (rest : Text) :
    scanItems inner fuel (joinWith (',' :: gap) texts ++ ']' :: rest) = .ok (items, rest) := by
  induction h generalizing fuel with
  | nil => exact absurd rfl hne
  | @cons text item texts items hhead htail ih =>
      obtain ⟨fuel, rfl⟩ : ∃ n, fuel = n + 1 := ⟨fuel - 1, by simp at hfuel; omega⟩
      cases htail with
      | nil => exact scanItems_last fuel hhead
      | @cons second _ others _ hsecond hothers =>
          have hrest := ih (by simp) (by simpa using hfuel)
          rw [joinWith_append, scanItems_more fuel hgap hhead (begins_joinWith hsecond.1 others),
            hrest]
          rfl

theorem scanArray_begins {text : Text} (h : Begins text) (rest : Text) :
    scanArray inner (text ++ rest) = (do
      let (items, rest) ← scanItems inner ((text ++ rest).length + 1) (text ++ rest)
      .ok (.list items, rest)) := by
  unfold scanArray
  rw [h.skipWs]
  obtain ⟨c, body, rfl, -, hclose, -⟩ := h
  split
  · rename_i heq
    exact absurd (List.cons.inj heq).1 hclose
  · rfl

theorem scanArray_join {texts : List Text} {items : List Value} (hgap : ∀ c ∈ gap, isWs c)
    (h : List.Forall₂ (Reads inner) texts items) (rest : Text) :
    scanArray inner (joinWith (',' :: gap) texts ++ ']' :: rest) = .ok (.list items, rest) := by
  cases h with
  | nil => rfl
  | @cons text item texts items hhead htail =>
      have hboth : List.Forall₂ (Reads inner) (text :: texts) (item :: items) :=
        .cons hhead htail
      have hall : ∀ t ∈ text :: texts, Begins t := ((List.forall₂_and_left _ _).mp hboth).1
      have hlen : (text :: texts).length ≤ (joinWith (',' :: gap) (text :: texts)).length :=
        length_le_joinWith hall
      rw [scanArray_begins (begins_joinWith hhead.1 texts),
        scanItems_join hgap hboth (by simp) (by rw [List.length_append]; omega)]
      rfl

end Items

section Members

theorem memberText_append {name body : Text} (rest : Text) :
    memberText gap ('"' :: name) body ++ rest =
      '"' :: (name ++ ':' :: (gap ++ (body ++ rest))) := by
  simp [memberText]

theorem sameKey_eq {a b : Value} (h : sameKey a b = true) : a = b := by
  cases a <;> cases b <;> simp_all [sameKey]

theorem objectSet_fresh {key value : Value} {pairs : List (Value × Value)}
    (h : key ∉ pairs.map Prod.fst) : objectSet key value pairs = pairs ++ [(key, value)] := by
  induction pairs with
  | nil => rfl
  | cons pair pairs ih =>
      rw [List.map_cons, List.mem_cons, not_or] at h
      have hne : sameKey pair.1 key = false := by
        cases hsame : sameKey pair.1 key with
        | false => rfl
        | true => exact absurd (sameKey_eq hsame).symm h.1
      rw [objectSet, hne, ih h.2]
      rfl

-- A member as it is written, and what it is read as.
def ReadsMember (inner : Text → Except Error (Value × Text)) (gap text : Text)
    (pair : Value × Value) : Prop :=
  ∃ name body, text = memberText gap name body ∧ SpellsString name pair.1 ∧
    Reads inner body pair.2

theorem ReadsMember.begins {text : Text} {pair : Value × Value} (h : ReadsMember inner gap text pair) :
    Begins text := by
  obtain ⟨_, body, rfl, ⟨name, rfl, -⟩, -⟩ := h
  exact ⟨'"', _, rfl, by decide, by decide, by decide⟩

theorem scanMembers_last {text rest : Text} {pair : Value × Value} (fuel : Nat)
    (pairs : List (Value × Value)) (hgap : ∀ c ∈ gap, isWs c) (h : ReadsMember inner gap text pair) :
    scanMembers inner (fuel + 1) pairs (text ++ '}' :: rest) =
      .ok (objectSet pair.1 pair.2 pairs, rest) := by
  obtain ⟨_, body, rfl, ⟨name, rfl, hname⟩, hbody⟩ := h
  rw [memberText_append]
  have hcolon (after : Text) : skipWs (':' :: after) = ':' :: after := rfl
  have hclose : skipWs ('}' :: rest) = '}' :: rest := rfl
  simp only [scanMembers, hname, bind, Except.bind, hcolon, skipWs_gap hgap hbody.1,
    hbody.2 _ (endsNumber_brace rest), hclose]

theorem scanMembers_more {text more rest : Text} {pair : Value × Value} (fuel : Nat)
    (pairs : List (Value × Value)) (hgap : ∀ c ∈ gap, isWs c) (h : ReadsMember inner gap text pair)
    (hmore : Begins more) :
    scanMembers inner (fuel + 1) pairs (text ++ ',' :: (gap ++ (more ++ rest))) =
      scanMembers inner fuel (objectSet pair.1 pair.2 pairs) (more ++ rest) := by
  obtain ⟨_, body, rfl, ⟨name, rfl, hname⟩, hbody⟩ := h
  rw [memberText_append]
  have hcolon (after : Text) : skipWs (':' :: after) = ':' :: after := rfl
  have hcomma (after : Text) : skipWs (',' :: after) = ',' :: after := rfl
  simp only [scanMembers, hname, bind, Except.bind, hcolon, skipWs_gap hgap hbody.1,
    hbody.2 _ (endsNumber_comma _), hcomma, skipWs_gap hgap hmore]

theorem scanMembers_join {texts : List Text} {pairs : List (Value × Value)}
    (hgap : ∀ c ∈ gap, isWs c) (h : List.Forall₂ (ReadsMember inner gap) texts pairs)
    (hne : texts ≠ []) (before : List (Value × Value))
    (hnodup : ((before ++ pairs).map Prod.fst).Nodup) (fuel : Nat)
    (hfuel : texts.length ≤ fuel) (rest : Text) :
    scanMembers inner fuel before (joinWith (',' :: gap) texts ++ '}' :: rest) =
      .ok (before ++ pairs, rest) := by
  induction h generalizing fuel before with
  | nil => exact absurd rfl hne
  | @cons text pair texts pairs hhead htail ih =>
      obtain ⟨fuel, rfl⟩ : ∃ n, fuel = n + 1 := ⟨fuel - 1, by simp at hfuel; omega⟩
      have hfresh : pair.1 ∉ before.map Prod.fst := by
        intro hmem
        rw [List.map_append, List.nodup_append] at hnodup
        exact hnodup.2.2 pair.1 hmem pair.1 (by simp) rfl
      have hsplit : before ++ pair :: pairs = (before ++ [(pair.1, pair.2)]) ++ pairs := by simp
      cases htail with
      | nil =>
          rw [hsplit, List.append_nil, ← objectSet_fresh hfresh]
          exact scanMembers_last fuel _ hgap hhead
      | @cons second _ others _ hsecond hothers =>
          rw [hsplit] at hnodup ⊢
          have hrest := ih (by simp) _ hnodup fuel (by simpa using hfuel)
          rw [joinWith_append, scanMembers_more fuel _ hgap hhead
            (begins_joinWith hsecond.begins others), objectSet_fresh hfresh, hrest]

theorem scanObject_begins {text : Text} (h : ∃ body, text = '"' :: body) (rest : Text) :
    scanObject inner (text ++ rest) = (do
      let (pairs, rest) ← scanMembers inner ((text ++ rest).length + 1) [] (text ++ rest)
      .ok (.dict pairs, rest)) := by
  obtain ⟨body, rfl⟩ := h
  rfl

theorem scanObject_join {texts : List Text} {pairs : List (Value × Value)}
    (hgap : ∀ c ∈ gap, isWs c) (h : List.Forall₂ (ReadsMember inner gap) texts pairs)
    (hnodup : (pairs.map Prod.fst).Nodup) (rest : Text) :
    scanObject inner (joinWith (',' :: gap) texts ++ '}' :: rest) = .ok (.dict pairs, rest) := by
  cases h with
  | nil => rfl
  | @cons text pair texts pairs hhead htail =>
      have hall : ∀ t ∈ text :: texts, Begins t := by
        have hbegins : List.Forall₂ (fun (t : Text) (_ : Value × Value) => Begins t ∧ True)
            (text :: texts) (pair :: pairs) :=
          (List.Forall₂.cons hhead htail).imp fun _ _ hmember => ⟨hmember.begins, trivial⟩
        exact ((List.forall₂_and_left _ _).mp hbegins).1
      have hlen : (text :: texts).length ≤ (joinWith (',' :: gap) (text :: texts)).length :=
        length_le_joinWith hall
      have hquote : ∃ body, joinWith (',' :: gap) (text :: texts) = '"' :: body := by
        obtain ⟨_, body, rfl, ⟨name, rfl, -⟩, -⟩ := hhead
        cases texts with
        | nil => exact ⟨_, rfl⟩
        | cons second others => exact ⟨_, rfl⟩
      have hmembers := scanMembers_join hgap (.cons hhead htail) (by simp) [] hnodup
        ((joinWith (',' :: gap) (text :: texts) ++ '}' :: rest).length + 1)
        (by rw [List.length_append]; omega) rest
      rw [scanObject_begins hquote, hmembers]
      rfl

end Members

theorem begins_of_all {text : Text} (h : text ≠ [])
    (hall : ∀ c ∈ text.head?, isWs c = false ∧ c ≠ ']' ∧ c ≠ '\uFEFF') : Begins text := by
  obtain ⟨c, body, rfl⟩ := List.exists_cons_of_ne_nil h
  exact ⟨c, body, rfl, hall c rfl⟩

theorem Numeral.begins (x : Numeral) : Begins x.text := by
  obtain ⟨c, text, hunsigned, hdigit⟩ := x.head?_unsigned
  have hrange := isDigit_range hdigit
  have hc : isWs c = false ∧ c ≠ ']' ∧ c ≠ '\uFEFF' := by
    refine ⟨?_, ne_of_isDigit hdigit (by decide), ne_of_isDigit hdigit (by decide)⟩
    simp only [isWs, Bool.or_eq_false_iff, decide_eq_false_iff_not]
    exact ⟨⟨⟨ne_of_isDigit hdigit (by decide), ne_of_isDigit hdigit (by decide)⟩,
      ne_of_isDigit hdigit (by decide)⟩, ne_of_isDigit hdigit (by decide)⟩
  rw [Numeral.text, hunsigned]
  cases x.negative with
  | true => exact ⟨'-', _, rfl, by decide, by decide, by decide⟩
  | false => exact ⟨c, text, rfl, hc⟩

theorem FloatLiteral.begins {text : Text} {x : Binary64} (h : FloatLiteral text x) :
    Begins text := by
  cases h with
  | numeral x _ => exact x.begins
  | nan => exact ⟨'N', _, rfl, by decide, by decide, by decide⟩
  | infinity negative =>
      cases negative with
      | true => exact ⟨'-', _, rfl, by decide, by decide, by decide⟩
      | false => exact ⟨'I', _, rfl, by decide, by decide, by decide⟩

theorem SpellsAtom.begins {text : Text} {value : Value} (h : SpellsAtom text value) :
    Begins text := by
  cases h with
  | none => exact ⟨'n', _, rfl, by decide, by decide, by decide⟩
  | bool b =>
      cases b with
      | true => exact ⟨'t', _, rfl, by decide, by decide, by decide⟩
      | false => exact ⟨'f', _, rfl, by decide, by decide, by decide⟩
  | int h =>
      cases h with
      | numeral x _ _ => exact x.begins
  | float h => exact h.begins
  | string h =>
      obtain ⟨body, rfl, -⟩ := h
      exact ⟨'"', body, rfl, by decide, by decide, by decide⟩

theorem SpellsAtom.reads {text : Text} {value : Value} (h : SpellsAtom text value)
    (inner : Option (Text → Except Error (Value × Text))) : Reads (scanHead inner) text value := by
  refine ⟨h.begins, fun rest hrest => ?_⟩
  cases h with
  | none => rfl
  | bool b => exact scanHead_bool b rest
  | int h => exact scanHead_int h hrest
  | float h => exact scanHead_float h hrest
  | string h =>
      obtain ⟨body, rfl, hbody⟩ := h
      exact hbody rest

-- What is spelled is read, whatever stands behind it.
theorem Spells.reads {depth : Nat} {text : Text} {value : Value} (hgap : ∀ c ∈ gap, isWs c)
    (h : Spells gap depth text value) : Reads (scanOnce depth) text value := by
  induction depth generalizing text value with
  | zero => exact SpellsAtom.reads h none
  | succ depth ih =>
      rcases h with hatom | ⟨texts, items, rfl, rfl, hall⟩ | ⟨texts, pairs, rfl, rfl, hnodup, hall⟩
      · exact hatom.reads _
      · refine ⟨⟨'[', _, rfl, by decide, by decide, by decide⟩, fun rest _ => ?_⟩
        have hsplit : arrayText gap texts ++ rest =
            '[' :: (joinWith (',' :: gap) texts ++ ']' :: rest) := by
          simp [arrayText]
        rw [hsplit]
        exact scanArray_join hgap (hall.imp fun _ _ hitem => ih hitem) rest
      · refine ⟨⟨'{', _, rfl, by decide, by decide, by decide⟩, fun rest _ => ?_⟩
        have hsplit : objectText gap texts ++ rest =
            '{' :: (joinWith (',' :: gap) texts ++ '}' :: rest) := by
          simp [objectText]
        rw [hsplit]
        refine scanObject_join hgap (hall.imp ?_) hnodup rest
        rintro _ pair ⟨name, body, rfl, hname, hbody⟩
        exact ⟨name, body, rfl, hname, ih hbody⟩

-- Put together: what is spelled is the document it is loaded as, with white space around it.
theorem Spells.loads {depth : Nat} {body text : Text} {value : Value}
    (hgap : ∀ c ∈ gap, isWs c) (h : Spells gap depth body value) (hpadded : Padded body text) :
    loads depth text = .ok value := by
  obtain ⟨before, after, hbefore, hafter, rfl⟩ := hpadded
  obtain ⟨hbegins, hreads⟩ := h.reads hgap
  have hread := hreads after (endsNumber_ws hafter)
  have hskip : skipWs (before ++ body ++ after) = body ++ after := by
    rw [List.append_assoc]
    exact skipWs_gap hbefore hbegins after
  have hmark : (before ++ body ++ after).head? ≠ some '\uFEFF' := by
    intro hsome
    cases before with
    | nil =>
        obtain ⟨c, rest, rfl, -, -, hc⟩ := hbegins
        exact hc (Option.some.inj hsome)
    | cons first before =>
        have hfirst := hbefore first (by simp)
        rw [Option.some.inj hsome] at hfirst
        exact absurd hfirst (by decide)
  have hend : skipWs after = [] := List.dropWhile_eq_nil_iff.mpr hafter
  rw [loads_eq hmark, hskip, hread]
  change (if skipWs after = [] then Except.ok value else Except.error Error.value) = Except.ok value
  rw [if_pos hend]

end Reading

section Dumping

theorem spellsString_quoteUnits {units : List Nat} (hrange : ∀ unit ∈ units, unit < 0x110000)
    (hpairs : Unpaired units) : SpellsString (quoteUnits units) (stringOfUnits units) := by
  refine ⟨units.flatMap escapeCodePoint ++ ['"'], rfl, fun rest => ?_⟩
  rw [List.append_assoc]
  exact scanString_units hrange hpairs rest

theorem spellsString_text (text : Text) :
    SpellsString (quoteUnits (text.map Char.toNat)) (.str text) := by
  refine ⟨(text.map Char.toNat).flatMap escapeCodePoint ++ ['"'], rfl, fun rest => ?_⟩
  rw [List.append_assoc]
  exact scanString_text text rest

theorem Lone.stringOfUnits {units : List Nat} (h : Lone units) :
    stringOfUnits units = .surrogates units :=
  if_pos h.any_isSurrogate

def keyText : Value → Except Error Text
  | .str text => .ok (quoteUnits (text.map Char.toNat))
  | .surrogates units => .ok (quoteUnits units)
  | _ => .error .value

-- Every string is written so that it is read back.
theorem exists_keyText {key : Value} (h : IsString key) :
    ∃ name, keyText key = .ok name ∧ SpellsString name key := by
  cases key with
  | str text => exact ⟨_, rfl, spellsString_text text⟩
  | surrogates units =>
      have hspells := spellsString_quoteUnits h.lt_limit h.unpaired
      rw [Lone.stringOfUnits h] at hspells
      exact ⟨_, rfl, hspells⟩
  | _ => exact absurd h id

theorem spells_atom {gap text : Text} {value : Value} (depth : Nat) (h : SpellsAtom text value) :
    Spells gap depth text value := by
  cases depth with
  | zero => exact h
  | succ depth => exact .inl h

theorem dumpsValue_list (depth : Nat) (items : List Value) :
    dumpsValue (depth + 1) (.list items) = (do
      let parts ← items.mapM (dumpsValue depth)
      .ok (arrayText [' '] parts)) := rfl

def dumpsMember (depth : Nat) (pair : Value × Value) : Except Error Text := do
  let name ← keyText pair.1
  let body ← dumpsValue depth pair.2
  .ok (memberText [' '] name body)

theorem dumpsValue_dict (depth : Nat) (pairs : List (Value × Value)) :
    dumpsValue (depth + 1) (.dict pairs) = (do
      let parts ← pairs.mapM (dumpsMember depth)
      .ok (objectText [' '] parts)) := by
  have hsep : ": ".toList = [':', ' '] := by decide
  have hmember (name body : Text) : name ++ ": ".toList ++ body = memberText [' '] name body := by
    simp [memberText, hsep]
  have heach : pairs.mapM (dumpsMember depth) = pairs.mapM fun pair => (do
      let name ←
        match pair.1 with
        | .str text => Except.ok (quoteUnits (text.map Char.toNat))
        | .surrogates units => Except.ok (quoteUnits units)
        | _ => Except.error Error.value
      let body ← dumpsValue depth pair.2
      Except.ok (name ++ ": ".toList ++ body) : Except Error Text) := by
    congr 1
    apply funext
    intro pair
    obtain ⟨key, value⟩ := pair
    simp only [hmember]
    cases key with
    | _ => rfl
  rw [heach]
  rfl

-- A document is written so that it is read back.
theorem Document.exists_dumps {depth : Nat} {value : Value} (h : Document depth value) :
    ∃ text, dumpsValue (depth + 1) value = .ok text ∧ Spells [' '] depth text value := by
  induction h with
  | none => exact ⟨_, rfl, spells_atom _ .none⟩
  | bool b =>
      cases b with
      | true => exact ⟨_, rfl, spells_atom _ (.bool true)⟩
      | false => exact ⟨_, rfl, spells_atom _ (.bool false)⟩
  | int h => exact ⟨_, if_pos h, spells_atom _ (.int (intLiteral_intText h))⟩
  | float h => exact ⟨_, rfl, spells_atom _ (.float (floatLiteral_floatText _ h))⟩
  | @string _ value h =>
      cases value with
      | str text => exact ⟨_, rfl, spells_atom _ (.string (spellsString_text text))⟩
      | surrogates units =>
          have hspells := spellsString_quoteUnits h.lt_limit h.unpaired
          rw [Lone.stringOfUnits h] at hspells
          exact ⟨_, rfl, spells_atom _ (.string hspells)⟩
      | _ => exact absurd h id
  | @list depth items h ih =>
      obtain ⟨texts, htexts, hall⟩ := exists_mapM_forall₂ ih
      refine ⟨arrayText [' '] texts, ?_, .inr (.inl ⟨texts, items, rfl, rfl, hall⟩)⟩
      rw [dumpsValue_list, htexts]
      rfl
  | @dict depth pairs hkeys hdistinct h ih =>
      have hmembers : ∀ pair ∈ pairs, ∃ text, dumpsMember (depth + 1) pair = .ok text ∧
          ∃ name body, text = memberText [' '] name body ∧ SpellsString name pair.1 ∧
            Spells [' '] depth body pair.2 := by
        intro pair hpair
        obtain ⟨name, hname, hspells⟩ := exists_keyText (hkeys pair hpair)
        obtain ⟨body, hbody, hreads⟩ := ih pair hpair
        refine ⟨memberText [' '] name body, ?_, name, body, rfl, hspells, hreads⟩
        rw [dumpsMember, hname, hbody]
        rfl
      obtain ⟨texts, htexts, hall⟩ := exists_mapM_forall₂ hmembers
      refine ⟨objectText [' '] texts, ?_, .inr (.inr ⟨texts, pairs, rfl, rfl, hdistinct, hall⟩)⟩
      rw [dumpsValue_dict, htexts]
      rfl

-- What is dumped for a document is loaded as it again.
theorem Document.loads_dumps {depth : Nat} {value : Value} (h : Document depth value) :
    ∃ text, dumpsValue (depth + 1) value = .ok text ∧ loads depth text = .ok value := by
  obtain ⟨text, hdumps, hspells⟩ := h.exists_dumps
  have hspace : ∀ c ∈ [' '], isWs c = true := by
    simp [isWs]
  exact ⟨text, hdumps, hspells.loads hspace ⟨[], [], by simp, by simp, by simp⟩⟩

theorem Textual.document {depth : Nat} {value : Value} (h : Textual depth value) :
    Document depth value := by
  induction depth generalizing value with
  | zero =>
      cases value with
      | str text => exact .string trivial
      | _ => exact absurd h id
  | succ depth ih =>
      cases value with
      | str text => exact .string trivial
      | list items => exact .list fun item hitem => ih (h item hitem)
      | dict pairs =>
          obtain ⟨members, rfl, hnodup, hall⟩ := h
          refine .dict ?_ ?_ ?_
          · intro pair hpair
            obtain ⟨m, -, rfl⟩ := List.mem_map.mp hpair
            exact trivial
          · have hnames : (members.map fun m => (Value.str m.1, m.2)).map Prod.fst =
                (members.map Prod.fst).map Value.str := by
              simp
            rw [hnames]
            exact hnodup.map fun a b heq => Value.str.inj heq
          · intro pair hpair
            obtain ⟨m, hm, rfl⟩ := List.mem_map.mp hpair
            exact ih (hall m hm)
      | _ => exact absurd h id

theorem Textual.loads_dumps {depth : Nat} {value : Value} (h : Textual depth value) :
    ∃ text, dumpsValue (depth + 1) value = .ok text ∧ loads depth text = .ok value :=
  h.document.loads_dumps

end Dumping

end Stra2us.Foundation.Json
