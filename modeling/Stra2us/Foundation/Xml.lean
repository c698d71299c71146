import Stra2us.Foundation.Text

namespace Stra2us.Foundation

structure QName where
  uri : Option Text
  name : Text
deriving DecidableEq, Repr

-- Elements beside each other, each with the text before its first child and the text behind it.
inductive Forest (ν : Type)
  | nil
  | cons (tag : ν) (attrib : List (ν × Text)) (text : Text) (children : Forest ν) (tail : Text)
      (rest : Forest ν)
deriving DecidableEq, Repr

namespace Forest

variable {ν μ : Type}

def size : Forest ν → Nat
  | .nil => 0
  | .cons _ _ _ children _ rest => 1 + children.size + rest.size

-- What holds of every element: its tag, its attributes, its text and what is behind it.
def All (p : ν → List (ν × Text) → Text → Text → Prop) : Forest ν → Prop
  | .nil => True
  | .cons tag attrib text children tail rest =>
      p tag attrib text tail ∧ children.All p ∧ rest.All p

def map (f : ν → List (ν × Text) → μ × List (μ × Text)) (g : Text → Text) : Forest ν → Forest μ
  | .nil => .nil
  | .cons tag attrib text children tail rest =>
      .cons (f tag attrib).1 (f tag attrib).2 (g text) (children.map f g) (g tail) (rest.map f g)

theorem All.imp {p q : ν → List (ν × Text) → Text → Text → Prop}
    (h : ∀ tag attrib text tail, p tag attrib text tail → q tag attrib text tail) {f : Forest ν}
    (hf : f.All p) : f.All q := by
  induction f with
  | nil => trivial
  | cons tag attrib text children tail rest ihChildren ihRest =>
      exact ⟨h _ _ _ _ hf.1, ihChildren hf.2.1, ihRest hf.2.2⟩

theorem all_and {p q : ν → List (ν × Text) → Text → Text → Prop} {f : Forest ν} :
    f.All (fun tag attrib text tail => p tag attrib text tail ∧ q tag attrib text tail) ↔
      f.All p ∧ f.All q := by
  induction f with
  | nil => simp [All]
  | cons tag attrib text children tail rest ihChildren ihRest =>
      simp only [All, ihChildren, ihRest]
      tauto

end Forest

namespace Xml

section Write

def escapeTextChar (c : Char) : Text :=
  if c = '&' then "&amp;".toList
  else if c = '<' then "&lt;".toList
  else if c = '>' then "&gt;".toList
  else [c]

def escapeAttribChar (c : Char) : Text :=
  if c = '&' then "&amp;".toList
  else if c = '<' then "&lt;".toList
  else if c = '>' then "&gt;".toList
  else if c = '"' then "&quot;".toList
  else if c = '\r' then "&#13;".toList
  else if c = '\n' then "&#10;".toList
  else if c = '\t' then "&#09;".toList
  else [c]

def writeAttrib : List (Text × Text) → Text
  | [] => []
  | (name, value) :: rest =>
      ' ' :: name ++ ("=\"".toList ++ (value.flatMap escapeAttribChar ++ '"' :: writeAttrib rest))

-- An element without content is closed in its tag.
def write : Forest Text → Text
  | .nil => []
  | .cons tag attrib text children tail rest =>
      '<' :: tag ++ (writeAttrib attrib ++
        ((if text = [] ∧ children.size = 0 then " />".toList
          else '>' :: (text.flatMap escapeTextChar ++
            (write children ++ ("</".toList ++ (tag ++ ['>']))))) ++
        (tail.flatMap escapeTextChar ++ write rest)))

end Write

section Scan

def isNameChar (c : Char) : Bool :=
  c.isAlphanum || c = '-' || c = '_' || c = '.' || c = ':'

-- What stands behind an ampersand.
def readRef : Text → Option (Char × Text)
  | 'a' :: 'm' :: 'p' :: ';' :: rest => some ('&', rest)
  | 'l' :: 't' :: ';' :: rest => some ('<', rest)
  | 'g' :: 't' :: ';' :: rest => some ('>', rest)
  | 'q' :: 'u' :: 'o' :: 't' :: ';' :: rest => some ('"', rest)
  | '#' :: '1' :: '3' :: ';' :: rest => some ('\r', rest)
  | '#' :: '1' :: '0' :: ';' :: rest => some ('\n', rest)
  | '#' :: '0' :: '9' :: ';' :: rest => some ('\t', rest)
  | _ => none

-- Characters up to the one that ends them.
def scanChars (stop : Char) : Nat → Text → Option (Text × Text)
  | 0, _ => none
  | _ + 1, [] => some ([], [])
  | fuel + 1, c :: rest =>
      if c = stop then some ([], c :: rest)
      else if c = '&' then do
        let (d, rest) ← readRef rest
        let (text, rest) ← scanChars stop fuel rest
        some (d :: text, rest)
      else do
        let (text, rest) ← scanChars stop fuel rest
        some (c :: text, rest)

-- A name, an equals sign and a value in quotes.
def scanPair (text : Text) : Option ((Text × Text) × Text) :=
  match text.dropWhile isNameChar with
  | '=' :: '"' :: quoted => do
      let (value, after) ← scanChars '"' (quoted.length + 1) quoted
      some ((text.takeWhile isNameChar, value), after.drop 1)
  | _ => none

def scanAttrib : Nat → Text → Option (List (Text × Text) × Text)
  | 0, text => some ([], text)
  | fuel + 1, text =>
      if text.head? = some ' ' ∧ (text.drop 1).head?.any isNameChar then do
        let (pair, after) ← scanPair (text.drop 1)
        let (more, after) ← scanAttrib fuel after
        some (pair :: more, after)
      else some ([], text)

-- Whether the element ends with its tag.
def readTagEnd : Text → Option (Bool × Text)
  | ' ' :: '/' :: '>' :: after => some (true, after)
  | '>' :: after => some (false, after)
  | _ => none

def dropText (front text : Text) : Option Text :=
  if front <+: text then some (text.drop front.length) else none

-- What is between the tags of an element, and its end tag.
def scanContent (inner : Text → Option (Forest Text × Text)) (tag text : Text) :
    Option ((Text × Forest Text) × Text) := do
  let (before, after) ← scanChars '<' (text.length + 1) text
  let (children, after) ← inner after
  let after ← dropText ("</".toList ++ (tag ++ ['>'])) after
  some ((before, children), after)

-- From behind the opening bracket, with the text behind the element and all that follows it.
def scanElement (inner : Text → Option (Forest Text × Text)) (text : Text) :
    Option (Forest Text × Text) := do
  let tag := text.takeWhile isNameChar
  let (attrib, after) ← scanAttrib text.length (text.dropWhile isNameChar)
  let (closed, after) ← readTagEnd after
  let (content, after) ←
    if closed then some (([], .nil), after) else scanContent inner tag after
  let (tail, after) ← scanChars '<' (after.length + 1) after
  let (rest, after) ← inner after
  some (.cons tag attrib content.1 content.2 tail rest, after)

-- Elements up to the end tag of the one they are in.
def scanForest : Nat → Text → Option (Forest Text × Text)
  | 0, _ => none
  | fuel + 1, text =>
      if text = [] ∨ "</".toList <+: text then some (.nil, text)
      else if text.head? = some '<' then scanElement (scanForest fuel) (text.drop 1)
      else none

def scan (text : Text) : Option (Forest Text) :=
  match scanForest (text.length + 1) text with
  | some (forest, []) => some forest
  | _ => none

end Scan

section Characters

-- Each character stands for itself or is written as a reference.
def Escapes (stop : Char) (escape : Char → Text) : Prop :=
  ∀ c, (escape c = [c] ∧ c ≠ stop ∧ c ≠ '&') ∨
    ∃ ref, escape c = '&' :: ref ∧ ∀ rest, readRef (ref ++ rest) = some (c, rest)

theorem escapes_text : Escapes '<' escapeTextChar := by
  intro c
  unfold escapeTextChar
  split_ifs with hamp hlt hgt
  · exact .inr ⟨"amp;".toList, rfl, fun rest => hamp ▸ rfl⟩
  · exact .inr ⟨"lt;".toList, rfl, fun rest => hlt ▸ rfl⟩
  · exact .inr ⟨"gt;".toList, rfl, fun rest => hgt ▸ rfl⟩
  · exact .inl ⟨rfl, hlt, hamp⟩

theorem escapes_attrib : Escapes '"' escapeAttribChar := by
  intro c
  unfold escapeAttribChar
  split_ifs with hamp hlt hgt hquote hcr hlf htab
  · exact .inr ⟨"amp;".toList, rfl, fun rest => hamp ▸ rfl⟩
  · exact .inr ⟨"lt;".toList, rfl, fun rest => hlt ▸ rfl⟩
  · exact .inr ⟨"gt;".toList, rfl, fun rest => hgt ▸ rfl⟩
  · exact .inr ⟨"quot;".toList, rfl, fun rest => hquote ▸ rfl⟩
  · exact .inr ⟨"#13;".toList, rfl, fun rest => hcr ▸ rfl⟩
  · exact .inr ⟨"#10;".toList, rfl, fun rest => hlf ▸ rfl⟩
  · exact .inr ⟨"#09;".toList, rfl, fun rest => htab ▸ rfl⟩
  · exact .inl ⟨rfl, hquote, hamp⟩

variable {stop : Char} {escape : Char → Text}

theorem Escapes.length_le (h : Escapes stop escape) (text : Text) :
    text.length ≤ (text.flatMap escape).length := by
  induction text with
  | nil => exact Nat.le_refl 0
  | cons c rest ih =>
      have hone : 1 ≤ (escape c).length := by
        rcases h c with ⟨heq, -⟩ | ⟨ref, heq, -⟩
        · rw [heq]
          exact Nat.le_refl 1
        · rw [heq, List.length_cons]
          omega
      rw [List.flatMap_cons, List.length_append, List.length_cons]
      omega

theorem scanChars_escape (h : Escapes stop escape) (hstop : stop ≠ '&') {text after : Text}
    {fuel : Nat} (hafter : after = [] ∨ after.head? = some stop) (hfuel : text.length < fuel) :
    scanChars stop fuel (text.flatMap escape ++ after) = some (text, after) := by
  induction text generalizing fuel with
  | nil =>
      obtain ⟨left, rfl⟩ : ∃ left, fuel = left + 1 := ⟨fuel - 1, by omega⟩
      cases after with
      | nil => rfl
      | cons c rest =>
          have hc : c = stop := by simpa using hafter
          rw [List.flatMap_nil, List.nil_append]
          unfold scanChars
          rw [if_pos hc]
  | cons c rest ih =>
      obtain ⟨left, rfl⟩ : ∃ left, fuel = left + 1 := ⟨fuel - 1, by omega⟩
      have hrest := @ih left (by rw [List.length_cons] at hfuel; omega)
      rw [List.flatMap_cons, List.append_assoc]
      rcases h c with ⟨heq, hne, hamp⟩ | ⟨ref, heq, href⟩
      · rw [heq, List.singleton_append]
        unfold scanChars
        rw [if_neg hne, if_neg hamp, hrest]
        rfl
      · rw [heq, List.cons_append]
        unfold scanChars
        rw [if_neg hstop.symm, if_pos rfl, href]
        dsimp only [bind, Option.bind]
        rw [hrest]

end Characters

section RoundTrip

def IsName (name : Text) : Prop :=
  name ≠ [] ∧ ∀ c ∈ name, isNameChar c

def Named : Forest Text → Prop :=
  Forest.All fun tag attrib _ _ => IsName tag ∧ ∀ a ∈ attrib, IsName a.1

-- What may stand behind a name.
def EndsName (text : Text) : Prop :=
  ∃ c rest, text = c :: rest ∧ isNameChar c = false

theorem takeWhile_name {name after : Text} (h : ∀ c ∈ name, isNameChar c) (hafter : EndsName after) :
    (name ++ after).takeWhile isNameChar = name := by
  obtain ⟨c, rest, rfl, hc⟩ := hafter
  rw [List.takeWhile_append_of_pos h, List.takeWhile_cons_of_neg (by simp [hc]), List.append_nil]

theorem dropWhile_name {name after : Text} (h : ∀ c ∈ name, isNameChar c) (hafter : EndsName after) :
    (name ++ after).dropWhile isNameChar = after := by
  obtain ⟨c, rest, rfl, hc⟩ := hafter
  rw [List.dropWhile_append_of_pos h, List.dropWhile_cons_of_neg (by simp [hc])]

-- What ends a start tag.
def EndsTag (text : Text) : Prop :=
  (∃ rest, text = '>' :: rest) ∨ ∃ rest, text = ' ' :: '/' :: rest

theorem scanAttrib_of_endsTag {fuel : Nat} {after : Text} (h : EndsTag after) :
    scanAttrib fuel after = some ([], after) := by
  cases fuel with
  | zero => rfl
  | succ fuel =>
      rcases h with ⟨rest, rfl⟩ | ⟨rest, rfl⟩
      · rfl
      · rfl

theorem scanPair_write {name value after : Text} (h : ∀ c ∈ name, isNameChar c) :
    scanPair (name ++ ("=\"".toList ++ (value.flatMap escapeAttribChar ++ '"' :: after))) =
      some ((name, value), after) := by
  have hends : EndsName ("=\"".toList ++ (value.flatMap escapeAttribChar ++ '"' :: after)) :=
    ⟨_, _, rfl, rfl⟩
  have hlength := escapes_attrib.length_le value
  have hfuel : value.length < (value.flatMap escapeAttribChar ++ '"' :: after).length + 1 := by
    rw [List.length_append]
    omega
  have hvalue : scanChars '"' _ (value.flatMap escapeAttribChar ++ '"' :: after) =
      some (value, '"' :: after) :=
    scanChars_escape escapes_attrib (by decide) (.inr rfl) hfuel
  unfold scanPair
  rw [dropWhile_name h hends, takeWhile_name h hends]
  exact congrArg (fun read => read.bind fun (value, after) => some ((name, value), after.drop 1))
    hvalue

theorem scanAttrib_write {attrib : List (Text × Text)} (h : ∀ a ∈ attrib, IsName a.1)
    {after : Text} (hafter : EndsTag after) {fuel : Nat} (hfuel : attrib.length ≤ fuel) :
    scanAttrib fuel (writeAttrib attrib ++ after) = some (attrib, after) := by
  induction attrib generalizing fuel with
  | nil => exact scanAttrib_of_endsTag hafter
  | cons a more ih =>
      obtain ⟨name, value⟩ := a
      obtain ⟨left, rfl⟩ : ∃ left, fuel = left + 1 :=
        ⟨fuel - 1, by rw [List.length_cons] at hfuel; omega⟩
      obtain ⟨hne, hchars⟩ := h (name, value) (by simp)
      have hleft : more.length ≤ left := by
        rw [List.length_cons] at hfuel
        omega
      have hmore := ih (fun b hb => h b (by simp [hb])) hleft
      have htext : writeAttrib ((name, value) :: more) ++ after =
          ' ' :: (name ++ ("=\"".toList ++ (value.flatMap escapeAttribChar ++
            '"' :: (writeAttrib more ++ after)))) := by
        simp [writeAttrib]
      have hhead : ((name ++ ("=\"".toList ++ (value.flatMap escapeAttribChar ++
          '"' :: (writeAttrib more ++ after)))).head?.any isNameChar) = true := by
        obtain ⟨c, others, rfl⟩ := List.exists_cons_of_ne_nil hne
        exact hchars c (by simp)
      rw [htext]
      unfold scanAttrib
      rw [if_pos ⟨rfl, hhead⟩, List.drop_one, List.tail_cons, scanPair_write hchars]
      dsimp only [bind, Option.bind]
      rw [hmore]

theorem length_writeAttrib (attrib : List (Text × Text)) :
    attrib.length ≤ (writeAttrib attrib).length := by
  induction attrib with
  | nil => exact Nat.le_refl 0
  | cons a more ih =>
      obtain ⟨name, value⟩ := a
      simp only [writeAttrib, List.length_cons, List.length_append, List.cons_append]
      omega

theorem size_le_length_write (forest : Forest Text) : forest.size ≤ (write forest).length := by
  induction forest with
  | nil => exact Nat.le_refl 0
  | cons tag attrib text children tail rest ihChildren ihRest =>
      simp only [write, Forest.size, List.length_append, List.length_cons, List.cons_append]
      split_ifs with hempty
      · omega
      · simp only [List.length_cons, List.length_append]
        omega

-- What may stand behind the last of some elements.
def EndsForest (text : Text) : Prop :=
  text = [] ∨ ∃ rest, text = '<' :: '/' :: rest

theorem head?_write_append {forest : Forest Text} {after : Text} (h : EndsForest after) :
    write forest ++ after = [] ∨ (write forest ++ after).head? = some '<' := by
  cases forest with
  | nil =>
      rcases h with rfl | ⟨rest, rfl⟩
      · exact .inl rfl
      · exact .inr rfl
  | cons tag attrib text children tail rest => exact .inr rfl

theorem dropText_append (front rest : Text) : dropText front (front ++ rest) = some rest := by
  unfold dropText
  rw [if_pos (List.prefix_append _ _), List.drop_left]

-- What is behind the attributes of an element.
def writeBody (tag text : Text) (children : Forest Text) : Text :=
  if text = [] ∧ children.size = 0 then " />".toList
  else '>' :: (text.flatMap escapeTextChar ++ (write children ++ ("</".toList ++ (tag ++ ['>']))))

theorem write_cons (tag : Text) (attrib : List (Text × Text)) (text : Text)
    (children : Forest Text) (tail : Text) (rest : Forest Text) (after : Text) :
    write (.cons tag attrib text children tail rest) ++ after =
      '<' :: (tag ++ (writeAttrib attrib ++ (writeBody tag text children ++
        (tail.flatMap escapeTextChar ++ (write rest ++ after))))) := by
  simp [write, writeBody]

theorem endsTag_writeBody (tag text : Text) (children : Forest Text) (after : Text) :
    EndsTag (writeBody tag text children ++ after) := by
  unfold writeBody
  split_ifs
  · exact .inr ⟨_, rfl⟩
  · exact .inl ⟨_, rfl⟩

theorem endsName_writeAttrib {attrib : List (Text × Text)} {after : Text} (h : EndsTag after) :
    EndsName (writeAttrib attrib ++ after) := by
  cases attrib with
  | nil =>
      rcases h with ⟨rest, rfl⟩ | ⟨rest, rfl⟩
      · exact ⟨_, _, rfl, rfl⟩
      · exact ⟨_, _, rfl, rfl⟩
  | cons a more => exact ⟨_, _, rfl, rfl⟩

theorem scanChars_tail (tail : Text) {forest : Forest Text} {after : Text}
    (hafter : EndsForest after) :
    scanChars '<' ((tail.flatMap escapeTextChar ++ (write forest ++ after)).length + 1)
      (tail.flatMap escapeTextChar ++ (write forest ++ after)) =
        some (tail, write forest ++ after) := by
  refine scanChars_escape escapes_text (by decide) (head?_write_append hafter) ?_
  have hlength := escapes_text.length_le tail
  rw [List.length_append]
  omega

theorem readTagEnd_writeBody (tag text : Text) (children : Forest Text) (after : Text) :
    readTagEnd (writeBody tag text children ++ after) =
      if text = [] ∧ children.size = 0 then some (true, after)
      else some (false, text.flatMap escapeTextChar ++
        (write children ++ ("</".toList ++ (tag ++ ['>']) ++ after))) := by
  unfold writeBody
  split_ifs
  · rfl
  · simp [readTagEnd]

theorem scanContent_write {inner : Text → Option (Forest Text × Text)} (tag text : Text)
    {children : Forest Text} {after : Text}
    (hinner : inner (write children ++ ("</".toList ++ (tag ++ ['>']) ++ after)) =
      some (children, "</".toList ++ (tag ++ ['>']) ++ after)) :
    scanContent inner tag (text.flatMap escapeTextChar ++
      (write children ++ ("</".toList ++ (tag ++ ['>']) ++ after))) =
        some ((text, children), after) := by
  have hends : EndsForest ("</".toList ++ (tag ++ ['>']) ++ after) := .inr ⟨_, rfl⟩
  unfold scanContent
  rw [scanChars_tail text hends]
  dsimp only [bind, Option.bind]
  rw [hinner]
  dsimp only
  rw [dropText_append]

theorem size_eq_zero {forest : Forest Text} (h : forest.size = 0) : forest = .nil := by
  cases forest with
  | nil => rfl
  | cons => simp [Forest.size] at h

theorem scanForest_write {forest : Forest Text} (h : Named forest) {after : Text}
    (hafter : EndsForest after) {fuel : Nat} (hfuel : forest.size < fuel) :
    scanForest fuel (write forest ++ after) = some (forest, after) := by
  induction forest generalizing after fuel with
  | nil =>
      obtain ⟨left, rfl⟩ : ∃ left, fuel = left + 1 := ⟨fuel - 1, by omega⟩
      have hends : after = [] ∨ "</".toList <+: after := by
        rcases hafter with rfl | ⟨rest, rfl⟩
        · exact .inl rfl
        · exact .inr (List.prefix_append _ _)
      exact if_pos hends
  | cons tag attrib text children tail rest ihChildren ihRest =>
      obtain ⟨⟨⟨htag, htagChars⟩, hattrib⟩, hchildren, hrest⟩ := h
      obtain ⟨left, rfl⟩ : ∃ left, fuel = left + 1 := ⟨fuel - 1, by omega⟩
      simp only [Forest.size] at hfuel
      have hbody := endsTag_writeBody tag text children
        (tail.flatMap escapeTextChar ++ (write rest ++ after))
      have hname := @endsName_writeAttrib attrib _ hbody
      have hclose : EndsForest ("</".toList ++ (tag ++ ['>']) ++
          (tail.flatMap escapeTextChar ++ (write rest ++ after))) := .inr ⟨_, rfl⟩
      have hroom : attrib.length ≤ (tag ++ (writeAttrib attrib ++ (writeBody tag text children ++
          (tail.flatMap escapeTextChar ++ (write rest ++ after))))).length := by
        have hlength := length_writeAttrib attrib
        simp only [List.length_append]
        omega
      have hattribs := scanAttrib_write hattrib hbody hroom
      have hopen : ¬ ('<' :: (tag ++ (writeAttrib attrib ++ (writeBody tag text children ++
          (tail.flatMap escapeTextChar ++ (write rest ++ after))))) = [] ∨ "</".toList <+:
            '<' :: (tag ++ (writeAttrib attrib ++ (writeBody tag text children ++
              (tail.flatMap escapeTextChar ++ (write rest ++ after)))))) := by
        obtain ⟨c, others, rfl⟩ := List.exists_cons_of_ne_nil htag
        have hc := htagChars c (by simp)
        rintro (hnil | ⟨more, hmore⟩)
        · nomatch hnil
        · have hslash : '/' = c := by
            have hsecond := congrArg (fun l => (l.drop 1).head?) hmore
            exact Option.some.inj hsecond
          rw [← hslash] at hc
          nomatch hc
      rw [write_cons]
      unfold scanForest
      rw [if_neg hopen, List.head?_cons, if_pos rfl, List.drop_one, List.tail_cons]
      unfold scanElement
      rw [takeWhile_name htagChars hname, dropWhile_name htagChars hname, hattribs]
      dsimp only [bind, Option.bind]
      rw [readTagEnd_writeBody]
      have htail := @scanChars_tail tail rest _ hafter
      have hmore := @ihRest hrest _ hafter left (by omega)
      by_cases hempty : text = [] ∧ children.size = 0
      · rw [if_pos hempty]
        obtain ⟨rfl, hsize⟩ := hempty
        obtain rfl := size_eq_zero hsize
        dsimp only
        rw [if_pos rfl]
        rw [htail]
        dsimp only
        rw [hmore]
      · rw [if_neg hempty]
        dsimp only
        rw [if_neg Bool.false_ne_true,
          scanContent_write tag text (@ihChildren hchildren _ hclose left (by omega))]
        dsimp only
        rw [htail]
        dsimp only
        rw [hmore]

theorem scan_write {forest : Forest Text} (h : Named forest) :
    scan (write forest) = some forest := by
  have hsize := size_le_length_write forest
  have hfuel : forest.size < (write forest).length + 1 := by omega
  have hscan := @scanForest_write forest h [] (.inl rfl) _ hfuel
  rw [List.append_nil] at hscan
  unfold scan
  rw [hscan]

theorem write_injective {f g : Forest Text} (hf : Named f) (hg : Named g)
    (h : write f = write g) : f = g := by
  have hscan := scan_write hf
  rw [h, scan_write hg] at hscan
  exact (Option.some.inj hscan).symm

end RoundTrip

end Xml

end Stra2us.Foundation
