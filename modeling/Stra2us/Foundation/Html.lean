import Stra2us.Foundation.Text

namespace Stra2us.Foundation.Html

section Escape

def escapeChar (c : Char) : Text :=
  if c = '&' then "&amp;".toList
  else if c = '<' then "&lt;".toList
  else if c = '>' then "&gt;".toList
  else if c = '"' then "&quot;".toList
  else if c = Char.ofNat 39 then "&#x27;".toList
  else [c]

-- Escaped with both kinds of quotes.
def escape (text : Text) : Text :=
  text.flatMap escapeChar

end Escape

section Tokens

-- A tag with its attributes in order. Of a name that comes twice the first one counts.
structure Tag where
  closing : Bool
  name : Text
  attributes : List (Text × Text)
deriving DecidableEq, Repr

def Tag.push (tag : Tag) (name value : Text) : Tag :=
  if name ∈ tag.attributes.map Prod.fst then tag
  else { tag with attributes := tag.attributes ++ [(name, value)] }

inductive Token
  | char (c : Char)
  | tag (tag : Tag)
deriving DecidableEq, Repr

-- The states of the tokenizer. What the machine below does not go on with ends in `stuck`:
-- comments, unquoted values, raw text and references it does not know.
inductive State
  | data
  | rcdata (name : Text)
  | rcdataLess (name : Text)
  | rcdataEndOpen (name : Text)
  | rcdataEndName (name buffer : Text)
  | tagOpen
  | endTagOpen
  | tagName (tag : Tag)
  | beforeAttribute (tag : Tag)
  | attributeName (tag : Tag) (name : Text)
  | afterName (tag : Tag) (name : Text)
  | beforeValue (tag : Tag) (name : Text)
  | value (quote : Char) (tag : Tag) (name value : Text)
  | afterValue (tag : Tag)
  | selfClosing (tag : Tag)
  | reference (back : State) (buffer : Text)
  | stuck
deriving DecidableEq

end Tokens

section Machine

def isSpace (c : Char) : Bool :=
  c = ' ' || c = '\n' || c = '\t' || c = Char.ofNat 12

-- A NUL is replaced, in an attribute and in text that holds no markup.
def clean (c : Char) : Char :=
  if c = Char.ofNat 0 then Char.ofNat 0xfffd else c

def references : List (Text × Char) :=
  [("amp".toList, '&'), ("lt".toList, '<'), ("gt".toList, '>'), ("quot".toList, '"'),
    ("#x27".toList, Char.ofNat 39), ("mdash".toList, Char.ofNat 0x2014)]

def readReference (buffer : Text) : Option Char :=
  (references.find? fun entry => entry.1 = buffer).map Prod.snd

-- Elements whose content is text with references, and those whose content is none of them.
def isRcdata (name : Text) : Bool :=
  name = "textarea".toList || name = "title".toList

def isRawText (name : Text) : Bool :=
  name ∈ ["script", "style", "xmp", "iframe", "noembed", "noframes", "noscript",
    "plaintext"].map String.toList

def finish (tag : Tag) : State × List Token :=
  (if tag.closing then .data
    else if isRcdata tag.name then .rcdata tag.name
    else if isRawText tag.name then .stuck
    else .data,
    [.tag tag])

-- Where a reference leads back to.
def resume (d : Char) : State → State × List Token
  | .data => (.data, [.char d])
  | .rcdata name => (.rcdata name, [.char d])
  | .value quote tag name value => (.value quote tag name (value ++ [d]), [])
  | _ => (.stuck, [])

def stepRcdata (name : Text) (c : Char) : State × List Token :=
  if c = '&' then (.reference (.rcdata name) [], [])
  else if c = '<' then (.rcdataLess name, [])
  else (.rcdata name, [.char (clean c)])

-- What looked like an end tag was text.
def backToText (name before : Text) (c : Char) : State × List Token :=
  ((stepRcdata name c).1, before.map .char ++ (stepRcdata name c).2)

def stepBeforeAttribute (tag : Tag) (c : Char) : State × List Token :=
  if isSpace c then (.beforeAttribute tag, [])
  else if c = '/' then (.selfClosing tag, [])
  else if c = '>' then finish tag
  else (.attributeName tag [clean c.toLower], [])

def step : State → Char → State × List Token
  | .data, c =>
      if c = '&' then (.reference .data [], [])
      else if c = '<' then (.tagOpen, [])
      else (.data, [.char c])
  | .rcdata name, c => stepRcdata name c
  | .rcdataLess name, c =>
      if c = '/' then (.rcdataEndOpen name, []) else backToText name ['<'] c
  | .rcdataEndOpen name, c =>
      if c.isAlpha then (.rcdataEndName name [c], []) else backToText name ['<', '/'] c
  | .rcdataEndName name buffer, c =>
      let appropriate := buffer.map Char.toLower = name
      if appropriate ∧ isSpace c then (.beforeAttribute ⟨true, name, []⟩, [])
      else if appropriate ∧ c = '/' then (.selfClosing ⟨true, name, []⟩, [])
      else if appropriate ∧ c = '>' then finish ⟨true, name, []⟩
      else if c.isAlpha then (.rcdataEndName name (buffer ++ [c]), [])
      else backToText name ('<' :: '/' :: buffer) c
  | .tagOpen, c =>
      if c = '/' then (.endTagOpen, [])
      else if c.isAlpha then (.tagName ⟨false, [c.toLower], []⟩, [])
      else (.stuck, [])
  | .endTagOpen, c =>
      if c.isAlpha then (.tagName ⟨true, [c.toLower], []⟩, []) else (.stuck, [])
  | .tagName tag, c =>
      if isSpace c then (.beforeAttribute tag, [])
      else if c = '/' then (.selfClosing tag, [])
      else if c = '>' then finish tag
      else (.tagName { tag with name := tag.name ++ [clean c.toLower] }, [])
  | .beforeAttribute tag, c => stepBeforeAttribute tag c
  | .attributeName tag name, c =>
      if isSpace c then (.afterName tag name, [])
      else if c = '/' then (.selfClosing (tag.push name []), [])
      else if c = '>' then finish (tag.push name [])
      else if c = '=' then (.beforeValue tag name, [])
      else (.attributeName tag (name ++ [clean c.toLower]), [])
  | .afterName tag name, c =>
      if isSpace c then (.afterName tag name, [])
      else if c = '/' then (.selfClosing (tag.push name []), [])
      else if c = '=' then (.beforeValue tag name, [])
      else if c = '>' then finish (tag.push name [])
      else (.attributeName (tag.push name []) [clean c.toLower], [])
  | .beforeValue tag name, c =>
      if isSpace c then (.beforeValue tag name, [])
      else if c = '"' ∨ c = Char.ofNat 39 then (.value c tag name [], [])
      else (.stuck, [])
  | .value quote tag name value, c =>
      if c = quote then (.afterValue (tag.push name value), [])
      else if c = '&' then (.reference (.value quote tag name value) [], [])
      else (.value quote tag name (value ++ [clean c]), [])
  | .afterValue tag, c =>
      if isSpace c then (.beforeAttribute tag, [])
      else if c = '/' then (.selfClosing tag, [])
      else if c = '>' then finish tag
      else stepBeforeAttribute tag c
  | .selfClosing tag, c =>
      if c = '>' then finish tag else stepBeforeAttribute tag c
  | .reference back buffer, c =>
      if c = ';' then
        match readReference buffer with
        | some d => resume d back
        | none => (.stuck, [])
      else if c.isAlphanum || c = '#' then (.reference back (buffer ++ [c]), [])
      else (.stuck, [])
  | .stuck, _ => (.stuck, [])

def run : State → Text → State × List Token
  | s, [] => (s, [])
  | s, c :: rest =>
      ((run (step s c).1 rest).1, (step s c).2 ++ (run (step s c).1 rest).2)

-- Line ends are made equal before anything else.
def normalizeNewlines : Text → Text
  | [] => []
  | '\r' :: '\n' :: rest => '\n' :: normalizeNewlines rest
  | '\r' :: rest => '\n' :: normalizeNewlines rest
  | c :: rest => c :: normalizeNewlines rest

-- The tokens of a text that ends outside of every tag.
def tokenize (text : Text) : Option (List Token) :=
  match run .data (normalizeNewlines text) with
  | (.data, tokens) => some tokens
  | _ => none

end Machine

section Newlines

variable {text before rest : Text} {c : Char}

theorem normalizeNewlines_cons (hc : c ≠ '\r') (rest : Text) :
    normalizeNewlines (c :: rest) = c :: normalizeNewlines rest := by
  rw [normalizeNewlines]
  · rintro rest rfl
    exact absurd rfl hc
  · rintro rfl
    exact absurd rfl hc

theorem normalizeNewlines_cr (h : rest.head? ≠ some '\n') :
    normalizeNewlines ('\r' :: rest) = '\n' :: normalizeNewlines rest := by
  cases rest with
  | nil => rfl
  | cons d rest =>
      rw [normalizeNewlines]
      rintro rest heq
      obtain ⟨rfl, -⟩ := List.cons.inj heq
      exact absurd rfl h

-- A text that is followed by no line feed can be taken by itself.
theorem normalizeNewlines_append (h : rest.head? ≠ some '\n') (text : Text) :
    normalizeNewlines (text ++ rest) = normalizeNewlines text ++ normalizeNewlines rest := by
  induction text using normalizeNewlines.induct with
  | case1 => rfl
  | case2 text ih => simpa [normalizeNewlines] using ih
  | case3 text htext ih =>
      have hne : text.head? ≠ some '\n' := by
        intro hhead
        cases text with
        | nil => cases hhead
        | cons d text => exact htext text (by rw [Option.some.inj hhead])
      rw [normalizeNewlines_cr hne, List.cons_append, normalizeNewlines_cr, ih, List.cons_append]
      cases text with
      | nil => exact h
      | cons d text => exact hne
  | case4 c text hcr hc ih =>
      rw [normalizeNewlines_cons hc, List.cons_append, normalizeNewlines_cons hc, ih,
        List.cons_append]

theorem normalizeNewlines_plain (h : '\r' ∉ before) (rest : Text) :
    normalizeNewlines (before ++ rest) = before ++ normalizeNewlines rest := by
  induction before with
  | nil => rfl
  | cons c before ih =>
      rw [List.mem_cons, not_or] at h
      rw [List.cons_append, normalizeNewlines_cons (fun hc => h.1 hc.symm), ih h.2,
        List.cons_append]

theorem escape_cons (c : Char) (text : Text) : escape (c :: text) = escapeChar c ++ escape text :=
  rfl

theorem escapeChar_cr : escapeChar '\r' = ['\r'] := by decide

theorem escapeChar_lf : escapeChar '\n' = ['\n'] := by decide

theorem cr_notMem_escapeChar (hc : c ≠ '\r') : '\r' ∉ escapeChar c := by
  unfold escapeChar
  split_ifs
  · decide
  · decide
  · decide
  · decide
  · decide
  · simpa using hc.symm

theorem head?_escapeChar (hc : c ≠ '\n') (rest : Text) :
    (escapeChar c ++ rest).head? ≠ some '\n' := by
  unfold escapeChar
  split_ifs
  · simp
  · simp
  · simp
  · simp
  · simp
  · simpa using hc

theorem head?_escape (h : text.head? ≠ some '\n') : (escape text).head? ≠ some '\n' := by
  cases text with
  | nil => decide
  | cons c text => exact head?_escapeChar (fun hc => h (by rw [hc]; rfl)) (escape text)

theorem normalizeNewlines_escape (text : Text) :
    normalizeNewlines (escape text) = escape (normalizeNewlines text) := by
  induction text using normalizeNewlines.induct with
  | case1 => rfl
  | case2 text ih =>
      simp only [escape_cons, escapeChar_cr, escapeChar_lf, List.singleton_append,
        normalizeNewlines, ih]
  | case3 text htext ih =>
      have hne : text.head? ≠ some '\n' := by
        intro hhead
        cases text with
        | nil => cases hhead
        | cons d text => exact htext text (by rw [Option.some.inj hhead])
      rw [escape_cons, escapeChar_cr, List.singleton_append,
        normalizeNewlines_cr (head?_escape hne), ih, normalizeNewlines_cr hne, escape_cons,
        escapeChar_lf, List.singleton_append]
  | case4 c text hcr hc ih =>
      rw [escape_cons, normalizeNewlines_plain (cr_notMem_escapeChar hc), ih,
        normalizeNewlines_cons hc, escape_cons]

end Newlines

section Runs

variable {s : State} {tag : Tag} {name value text : Text}

theorem run_append (s : State) (a b : Text) :
    run s (a ++ b) = ((run (run s a).1 b).1, (run s a).2 ++ (run (run s a).1 b).2) := by
  induction a generalizing s with
  | nil => rfl
  | cons c a ih => rw [List.cons_append, run, ih, run, List.append_assoc]

theorem run_append_of {t : State} {out : List Token} {a : Text} (h : run s a = (t, out))
    (b : Text) : run s (a ++ b) = ((run t b).1, out ++ (run t b).2) := by
  rw [run_append, h]

theorem run_cons_of {t : State} {c : Char} (h : step s c = (t, [])) (text : Text) :
    run s (c :: text) = run t text := by
  rw [run, h, List.nil_append]

-- Names are written in small letters, digits and hyphens.
def isNameChar (c : Char) : Bool :=
  c.isLower || c.isDigit || c = '-'

def isName : Text → Bool
  | [] => false
  | c :: rest => c.isLower && rest.all isNameChar

theorem isNameChar_lt {c : Char} (h : isNameChar c) : c.toNat < 128 := by
  unfold isNameChar at h
  rw [Bool.or_eq_true, Bool.or_eq_true, decide_eq_true_eq] at h
  rcases h with (h | h) | rfl
  · have hle : c.toNat ≤ 122 := by simpa [UInt32.le_iff_toNat_le] using (Bool.and_eq_true_iff.mp h).2
    omega
  · have hle : c.toNat ≤ 57 := by simpa [UInt32.le_iff_toNat_le] using (Bool.and_eq_true_iff.mp h).2
    omega
  · decide

-- Decided for each of the small characters.
theorem nameChar_plain {c : Char} (h : isNameChar c) : isSpace c = false ∧ c ≠ '/' ∧ c ≠ '>' ∧
    c ≠ '=' ∧ clean c.toLower = c := by
  have hall : ∀ n : Fin 128, isNameChar (Char.ofNat n) → isSpace (Char.ofNat n) = false ∧
      Char.ofNat n ≠ '/' ∧ Char.ofNat n ≠ '>' ∧ Char.ofNat n ≠ '=' ∧
      clean (Char.ofNat n).toLower = Char.ofNat n := by decide +kernel
  have hc := hall ⟨c.toNat, isNameChar_lt h⟩
  rw [Char.ofNat_toNat] at hc
  exact hc h

theorem isNameChar_of_isLower {c : Char} (h : c.isLower) : isNameChar c := by
  simp [isNameChar, h]

theorem isAlpha_of_isLower {c : Char} (h : c.isLower) : c.isAlpha := by
  change (c.isUpper || c.isLower) = true
  rw [h, Bool.or_true]

theorem run_tagName (h : ∀ c ∈ name, isNameChar c) (tag : Tag) :
    run (.tagName tag) name = (.tagName { tag with name := tag.name ++ name }, []) := by
  induction name generalizing tag with
  | nil => rw [List.append_nil]; rfl
  | cons c name ih =>
      obtain ⟨hspace, hslash, hclose, -, hclean⟩ := nameChar_plain (h c List.mem_cons_self)
      have hstep : step (.tagName tag) c = (.tagName { tag with name := tag.name ++ [c] }, []) := by
        simp [step, hspace, hslash, hclose, hclean]
      rw [run_cons_of hstep, ih fun d hd => h d (List.mem_cons_of_mem _ hd)]
      simp

theorem run_attributeName {more : Text} (h : ∀ c ∈ more, isNameChar c) (tag : Tag) (name : Text) :
    run (.attributeName tag name) more = (.attributeName tag (name ++ more), []) := by
  induction more generalizing name with
  | nil => rw [List.append_nil]; rfl
  | cons c more ih =>
      obtain ⟨hspace, hslash, hclose, hequals, hclean⟩ := nameChar_plain (h c List.mem_cons_self)
      have hstep : step (.attributeName tag name) c = (.attributeName tag (name ++ [c]), []) := by
        simp [step, hspace, hslash, hclose, hequals, hclean]
      rw [run_cons_of hstep, ih fun d hd => h d (List.mem_cons_of_mem _ hd)]
      simp

-- What a character that is escaped stands for in each of the three places.
theorem run_escapeChar_data (c : Char) : run .data (escapeChar c) = (.data, [.char c]) := by
  unfold escapeChar
  split_ifs with hamp hlt hgt hquote hapostrophe
  · subst hamp; decide
  · subst hlt; decide
  · subst hgt; decide
  · subst hquote; decide
  · subst hapostrophe; decide
  · simp [run, step, hamp, hlt]

theorem run_escapeChar_rcdata (name : Text) (c : Char) :
    run (.rcdata name) (escapeChar c) = (.rcdata name, [.char (clean c)]) := by
  unfold escapeChar
  split_ifs with hamp hlt hgt hquote hapostrophe
  · subst hamp; rfl
  · subst hlt; rfl
  · subst hgt; rfl
  · subst hquote; rfl
  · subst hapostrophe; rfl
  · simp [run, step, stepRcdata, hamp, hlt]

theorem run_escapeChar_value (tag : Tag) (name value : Text) (c : Char) :
    run (.value '"' tag name value) (escapeChar c) =
      (.value '"' tag name (value ++ [clean c]), []) := by
  unfold escapeChar
  split_ifs with hamp hlt hgt hquote hapostrophe
  · subst hamp; rfl
  · subst hlt; rfl
  · subst hgt; rfl
  · subst hquote; rfl
  · subst hapostrophe; rfl
  · simp [run, step, hamp, hquote]

theorem run_escape_data (text : Text) :
    run .data (escape text) = (.data, text.map .char) := by
  induction text with
  | nil => rfl
  | cons c text ih =>
      rw [escape_cons, run_append_of (run_escapeChar_data c), ih]
      rfl

theorem run_escape_rcdata (name text : Text) :
    run (.rcdata name) (escape text) = (.rcdata name, text.map (.char ∘ clean)) := by
  induction text with
  | nil => rfl
  | cons c text ih =>
      rw [escape_cons, run_append_of (run_escapeChar_rcdata name c), ih]
      rfl

theorem run_escape_value (tag : Tag) (name value text : Text) :
    run (.value '"' tag name value) (escape text) =
      (.value '"' tag name (value ++ text.map clean), []) := by
  induction text generalizing value with
  | nil => simp [escape, run]
  | cons c text ih =>
      rw [escape_cons, run_append_of (run_escapeChar_value tag name value c), ih]
      simp

end Runs

section Attributes

variable {s : State} {tag : Tag} {a : Text × Option Text} {attributes : List (Text × Option Text)}

-- An attribute without a value stands by its name alone.
def writeAttribute (a : Text × Option Text) : Text :=
  ' ' :: (a.1 ++ match a.2 with
    | none => []
    | some value => "=\"".toList ++ (escape value ++ ['"']))

def normalizeAttribute (a : Text × Option Text) : Text × Option Text :=
  (a.1, a.2.map normalizeNewlines)

-- The value a browser has for the attribute.
def shown (text : Text) : Text :=
  (normalizeNewlines text).map clean

def shownAttribute (a : Text × Option Text) : Text × Text :=
  (a.1, shown (a.2.getD []))

-- The tag as it would be if it ended here.
def ending : State → Option Tag
  | .tagName tag => some tag
  | .afterValue tag => some tag
  | .attributeName tag name => some (tag.push name [])
  | _ => none

theorem step_close (h : ending s = some tag) : step s '>' = finish tag := by
  cases s with
  | tagName other => obtain rfl := Option.some.inj h; rfl
  | afterValue other => obtain rfl := Option.some.inj h; rfl
  | attributeName other name => obtain rfl := Option.some.inj h; rfl
  | _ => cases h

theorem run_close (h : ending s = some tag) (rest : Text) : run s ('>' :: rest) =
    ((run (finish tag).1 rest).1, .tag tag :: (run (finish tag).1 rest).2) := by
  rw [run, step_close h]
  rfl

-- A blank and the first letter begin the next attribute.
theorem run_begin {c : Char} (h : ending s = some tag) (hc : isNameChar c) (rest : Text) :
    run s (' ' :: c :: rest) = run (.attributeName tag [c]) rest := by
  obtain ⟨hspace, hslash, hclose, hequals, hclean⟩ := nameChar_plain hc
  have hbefore (other : Tag) : step (.beforeAttribute other) c = (.attributeName other [c], []) := by
    simp [step, stepBeforeAttribute, hspace, hslash, hclose, hclean]
  cases s with
  | tagName other =>
      obtain rfl := Option.some.inj h
      rw [run_cons_of (t := .beforeAttribute other) rfl, run_cons_of (hbefore other)]
  | afterValue other =>
      obtain rfl := Option.some.inj h
      rw [run_cons_of (t := .beforeAttribute other) rfl, run_cons_of (hbefore other)]
  | attributeName other name =>
      obtain rfl := Option.some.inj h
      have hafter : step (.afterName other name) c =
          (.attributeName (other.push name []) [c], []) := by
        simp [step, hspace, hslash, hclose, hequals, hclean]
      rw [run_cons_of (t := .afterName other name) rfl, run_cons_of hafter]
  | _ => cases h

theorem isName_cons {name : Text} (h : isName name) :
    ∃ c rest, name = c :: rest ∧ c.isLower ∧ ∀ d ∈ name, isNameChar d := by
  cases name with
  | nil => cases h
  | cons c rest =>
      obtain ⟨hc, hrest⟩ := Bool.and_eq_true_iff.mp h
      refine ⟨c, rest, rfl, hc, List.forall_mem_cons.mpr ⟨isNameChar_of_isLower hc, ?_⟩⟩
      exact List.all_eq_true.mp hrest

theorem run_writeAttribute (h : ending s = some tag) (ha : isName a.1) :
    ∃ t, run s (writeAttribute a) = (t, []) ∧
      ending t = some (tag.push a.1 ((a.2.getD []).map clean)) := by
  obtain ⟨name, value⟩ := a
  obtain ⟨c, rest, rfl, -, hname⟩ := isName_cons ha
  rw [List.forall_mem_cons] at hname
  have hrun : run (.attributeName tag [c]) rest = (.attributeName tag (c :: rest), []) :=
    run_attributeName hname.2 tag [c]
  unfold writeAttribute
  rw [List.cons_append, run_begin h hname.1]
  cases value with
  | none =>
      refine ⟨.attributeName tag (c :: rest), ?_, rfl⟩
      rw [List.append_nil, hrun]
  | some value =>
      refine ⟨.afterValue (tag.push (c :: rest) (value.map clean)), ?_, rfl⟩
      have hopen : run (.attributeName tag (c :: rest)) ("=\"".toList ++ (escape value ++ ['"'])) =
          run (.value '"' tag (c :: rest) []) (escape value ++ ['"']) := rfl
      rw [run_append_of hrun, hopen, run_append_of (run_escape_value _ _ _ _)]
      simp [run, step]

theorem run_writeAttributes (h : ending s = some tag) (ha : ∀ a ∈ attributes, isName a.1) :
    ∃ t, run s (attributes.flatMap writeAttribute) = (t, []) ∧
      ending t = some (attributes.foldl
        (fun tag a => tag.push a.1 ((a.2.getD []).map clean)) tag) := by
  induction attributes generalizing s tag with
  | nil => exact ⟨s, rfl, h⟩
  | cons a attributes ih =>
      rw [List.forall_mem_cons] at ha
      obtain ⟨t, hrun, ht⟩ := run_writeAttribute h ha.1
      obtain ⟨u, hrest, hu⟩ := ih ht ha.2
      refine ⟨u, ?_, hu⟩
      rw [List.flatMap_cons, run_append_of hrun, hrest]
      rfl

theorem foldl_push (hnodup : (tag.attributes.map Prod.fst ++ attributes.map Prod.fst).Nodup) :
    attributes.foldl (fun tag a => tag.push a.1 ((a.2.getD []).map clean)) tag =
      { tag with attributes := tag.attributes ++
          attributes.map fun a => (a.1, (a.2.getD []).map clean) } := by
  induction attributes generalizing tag with
  | nil => simp
  | cons a attributes ih =>
      have hfresh : a.1 ∉ tag.attributes.map Prod.fst := by
        intro hmem
        exact (List.nodup_append.mp hnodup).2.2 _ hmem _ (by simp) rfl
      have hpush : tag.push a.1 ((a.2.getD []).map clean) =
          { tag with attributes := tag.attributes ++ [(a.1, (a.2.getD []).map clean)] } :=
        if_neg hfresh
      rw [List.foldl_cons, hpush, ih]
      · simp
      · simpa using hnodup

theorem cr_notMem_name {name : Text} (h : isName name) : '\r' ∉ name := by
  obtain ⟨c, rest, -, -, hname⟩ := isName_cons h
  intro hmem
  exact absurd (hname _ hmem) (by decide)

theorem normalizeNewlines_writeAttribute (ha : isName a.1) (rest : Text) :
    normalizeNewlines (writeAttribute a ++ rest) =
      writeAttribute (normalizeAttribute a) ++ normalizeNewlines rest := by
  obtain ⟨name, value⟩ := a
  cases value with
  | none =>
      have hplain : '\r' ∉ writeAttribute (name, none) := by
        simpa [writeAttribute] using cr_notMem_name ha
      exact normalizeNewlines_plain hplain rest
  | some value =>
      have hplain : '\r' ∉ ' ' :: (name ++ "=\"".toList) := by
        simpa using cr_notMem_name ha
      have hsplit : writeAttribute (name, some value) ++ rest =
          ' ' :: (name ++ "=\"".toList) ++ (escape value ++ '"' :: rest) := by
        simp [writeAttribute]
      rw [hsplit, normalizeNewlines_plain hplain, normalizeNewlines_append (by simp),
        normalizeNewlines_escape, normalizeNewlines_cons (by decide)]
      simp [writeAttribute, normalizeAttribute]

theorem normalizeNewlines_writeAttributes (ha : ∀ a ∈ attributes, isName a.1) (rest : Text) :
    normalizeNewlines (attributes.flatMap writeAttribute ++ rest) =
      (attributes.map normalizeAttribute).flatMap writeAttribute ++ normalizeNewlines rest := by
  induction attributes with
  | nil => rfl
  | cons a attributes ih =>
      rw [List.forall_mem_cons] at ha
      rw [List.flatMap_cons, List.append_assoc, normalizeNewlines_writeAttribute ha.1, ih ha.2,
        List.map_cons, List.flatMap_cons, List.append_assoc]

end Attributes

section Pieces

-- Markup in pieces that all end with a tag: text and a tag behind it, finished markup and the
-- end tag behind it, or an area of text.
inductive Piece
  | tag (before : Text) (closing : Bool) (name : Text) (attributes : List (Text × Option Text))
  | raw (markup : Text) (tokens : List Token) (name : Text)
  | area (attributes : List (Text × Option Text)) (content : Text)

def areaName : Text := "textarea".toList

def writeTag (closing : Bool) (name : Text) (attributes : List (Text × Option Text)) : Text :=
  '<' :: ((if closing then ['/'] else []) ++ (name ++ (attributes.flatMap writeAttribute ++ ['>'])))

namespace Piece

def write : Piece → Text
  | tag before closing name attributes => escape before ++ writeTag closing name attributes
  | raw markup _ name => markup ++ writeTag true name []
  | area attributes content =>
      writeTag false areaName attributes ++ (escape content ++ writeTag true areaName [])

def tokens : Piece → List Token
  | tag before closing name attributes =>
      (normalizeNewlines before).map .char ++ [.tag ⟨closing, name, attributes.map shownAttribute⟩]
  | raw _ tokens name => tokens ++ [.tag ⟨true, name, []⟩]
  | area attributes content =>
      .tag ⟨false, areaName, attributes.map shownAttribute⟩ ::
        ((shown content).map .char ++ [.tag ⟨true, areaName, []⟩])

end Piece

def GoodAttributes (attributes : List (Text × Option Text)) : Prop :=
  (∀ a ∈ attributes, isName a.1) ∧ (attributes.map Prod.fst).Nodup

-- Markup that is read on its own and leaves nothing open.
def Fragment (markup : Text) (tokens : List Token) : Prop :=
  tokenize markup = some tokens

def Piece.WellFormed : Piece → Prop
  | tag _ closing name attributes =>
      isName name ∧ GoodAttributes attributes ∧
        (closing = false → isRcdata name = false ∧ isRawText name = false)
  | raw markup tokens name => isName name ∧ Fragment markup tokens
  | area attributes _ => GoodAttributes attributes

variable {attributes : List (Text × Option Text)} {name : Text} {closing : Bool} {s : State}

theorem goodAttributes_nil : GoodAttributes [] :=
  ⟨by simp, List.nodup_nil⟩

theorem normalizeNewlines_writeTag (hname : isName name) (ha : ∀ a ∈ attributes, isName a.1)
    (rest : Text) : normalizeNewlines (writeTag closing name attributes ++ rest) =
      writeTag closing name (attributes.map normalizeAttribute) ++ normalizeNewlines rest := by
  have hplain : '\r' ∉ '<' :: ((if closing then ['/'] else []) ++ name) := by
    cases closing with
    | true => simpa using cr_notMem_name hname
    | false => simpa using cr_notMem_name hname
  have hsplit : writeTag closing name attributes ++ rest =
      '<' :: ((if closing then ['/'] else []) ++ name) ++
        (attributes.flatMap writeAttribute ++ '>' :: rest) := by
    simp [writeTag]
  rw [hsplit, normalizeNewlines_plain hplain, normalizeNewlines_writeAttributes ha,
    normalizeNewlines_cons (by decide)]
  simp [writeTag]

theorem run_open (hname : isName name) (rest : Text) :
    run .data ('<' :: ((if closing then ['/'] else []) ++ (name ++ rest))) =
      run (.tagName ⟨closing, name, []⟩) rest := by
  obtain ⟨c, more, rfl, hlower, hall⟩ := isName_cons hname
  rw [List.forall_mem_cons] at hall
  have halpha := isAlpha_of_isLower hlower
  have hslash := (nameChar_plain hall.1).2.1
  have hsmall : c.toLower = c := by
    have hclean := (nameChar_plain hall.1).2.2.2.2
    unfold clean at hclean
    split at hclean
    · rw [← hclean] at hlower
      exact absurd hlower (by decide)
    · exact hclean
  have hmore (tag : Tag) := run_tagName hall.2 tag
  rw [run_cons_of (t := .tagOpen) rfl, List.cons_append]
  cases closing with
  | true =>
      have hfirst : step .endTagOpen c = (.tagName ⟨true, [c], []⟩, []) := by
        simp [step, halpha, hsmall]
      rw [if_pos rfl, List.singleton_append, run_cons_of (t := .endTagOpen) rfl,
        run_cons_of hfirst, run_append_of (hmore _)]
      rfl
  | false =>
      have hfirst : step .tagOpen c = (.tagName ⟨false, [c], []⟩, []) := by
        simp [step, halpha, hsmall, hslash]
      rw [if_neg Bool.false_ne_true, List.nil_append, run_cons_of hfirst, run_append_of (hmore _)]
      rfl

theorem goodAttributes_normalized (h : GoodAttributes attributes) :
    GoodAttributes (attributes.map normalizeAttribute) := by
  have hfst : (attributes.map normalizeAttribute).map Prod.fst = attributes.map Prod.fst := by
    rw [List.map_map]
    rfl
  refine ⟨?_, hfst ▸ h.2⟩
  intro a ha
  obtain ⟨b, hb, rfl⟩ := List.mem_map.mp ha
  exact h.1 b hb

theorem shownAttribute_eq (attributes : List (Text × Option Text)) :
    ((attributes.map normalizeAttribute).map fun a => (a.1, (a.2.getD []).map clean)) =
      attributes.map shownAttribute := by
  rw [List.map_map]
  refine List.map_congr_left fun a _ => ?_
  obtain ⟨name, value⟩ := a
  cases value with
  | none => rfl
  | some value => rfl

-- A tag is read from anywhere outside of tags, as the one it was written from.
theorem run_writeTag (hname : isName name) (ha : GoodAttributes attributes) (rest : Text) :
    run .data (normalizeNewlines (writeTag closing name attributes ++ rest)) =
      ((run (finish ⟨closing, name, attributes.map shownAttribute⟩).1 (normalizeNewlines rest)).1,
        .tag ⟨closing, name, attributes.map shownAttribute⟩ ::
          (run (finish ⟨closing, name, attributes.map shownAttribute⟩).1
            (normalizeNewlines rest)).2) := by
  have hgood := goodAttributes_normalized ha
  obtain ⟨t, hrun, ht⟩ := run_writeAttributes (s := .tagName ⟨closing, name, []⟩) rfl hgood.1
  rw [foldl_push (by simpa using hgood.2), List.nil_append, shownAttribute_eq] at ht
  have hsplit (after : Text) :
      writeTag closing name (attributes.map normalizeAttribute) ++ after =
      '<' :: ((if closing then ['/'] else []) ++ (name ++
        ((attributes.map normalizeAttribute).flatMap writeAttribute ++ '>' :: after))) := by
    simp [writeTag]
  rw [normalizeNewlines_writeTag hname ha.1, hsplit, run_open hname, run_append_of hrun,
    run_close ht]
  rfl

theorem run_endArea (rest : Text) : run (.rcdata areaName) (writeTag true areaName [] ++ rest) =
    ((run .data rest).1, .tag ⟨true, areaName, []⟩ :: (run .data rest).2) := rfl

theorem finish_closing (name : Text) (attributes : List (Text × Text)) :
    (finish ⟨true, name, attributes⟩).1 = .data := rfl

theorem finish_plain {attributes : List (Text × Text)} (hrcdata : isRcdata name = false)
    (hraw : isRawText name = false) : (finish ⟨false, name, attributes⟩).1 = .data := by
  simp [finish, hrcdata, hraw]

-- One piece, with whatever follows it.
theorem run_write {p : Piece} (hp : p.WellFormed) (rest : Text) :
    run .data (normalizeNewlines (p.write ++ rest)) =
      ((run .data (normalizeNewlines rest)).1,
        p.tokens ++ (run .data (normalizeNewlines rest)).2) := by
  cases p with
  | tag before closing name attributes =>
      obtain ⟨hname, ha, hplain⟩ := hp
      have hdata : (finish ⟨closing, name, attributes.map shownAttribute⟩).1 = .data := by
        cases closing with
        | true => exact finish_closing name _
        | false => exact finish_plain (hplain rfl).1 (hplain rfl).2
      have hhead : (writeTag closing name attributes ++ rest).head? ≠ some '\n' := by
        simp [writeTag]
      rw [Piece.write, List.append_assoc, normalizeNewlines_append hhead,
        normalizeNewlines_escape, run_append_of (run_escape_data _), run_writeTag hname ha, hdata]
      simp [Piece.tokens]
  | raw markup tokens name =>
      obtain ⟨hname, hfragment⟩ := hp
      have hrun : run .data (normalizeNewlines markup) = (.data, tokens) := by
        unfold Fragment tokenize at hfragment
        split at hfragment
        · rename_i other heq
          rw [heq, Option.some.inj hfragment]
        · cases hfragment
      have hhead : (writeTag true name [] ++ rest).head? ≠ some '\n' := by
        simp [writeTag]
      rw [Piece.write, List.append_assoc, normalizeNewlines_append hhead, run_append_of hrun,
        run_writeTag hname goodAttributes_nil]
      simp [Piece.tokens, finish]
  | area attributes content =>
      have hname : isName areaName := by decide
      have hhead : (writeTag true areaName [] ++ rest).head? ≠ some '\n' := by
        simp [writeTag]
      have hend : normalizeNewlines (escape content ++ (writeTag true areaName [] ++ rest)) =
          escape (normalizeNewlines content) ++
            (writeTag true areaName [] ++ normalizeNewlines rest) := by
        rw [normalizeNewlines_append hhead, normalizeNewlines_escape,
          normalizeNewlines_writeTag hname (by simp)]
        rfl
      rw [Piece.write, List.append_assoc, List.append_assoc, run_writeTag hname hp, hend]
      have harea : (finish ⟨false, areaName, attributes.map shownAttribute⟩).1 =
          .rcdata areaName := rfl
      rw [harea, run_append_of (run_escape_rcdata areaName _), run_endArea]
      simp [Piece.tokens, shown]

theorem run_pieces {pieces : List Piece} (h : ∀ p ∈ pieces, p.WellFormed) (rest : Text) :
    run .data (normalizeNewlines (pieces.flatMap Piece.write ++ rest)) =
      ((run .data (normalizeNewlines rest)).1,
        pieces.flatMap Piece.tokens ++ (run .data (normalizeNewlines rest)).2) := by
  induction pieces with
  | nil => rfl
  | cons p pieces ih =>
      rw [List.forall_mem_cons] at h
      rw [List.flatMap_cons, List.append_assoc, run_write h.1, ih h.2, List.flatMap_cons,
        List.append_assoc]

-- What is written in pieces is read back as what was meant.
theorem tokenize_pieces {pieces : List Piece} (h : ∀ p ∈ pieces, p.WellFormed) :
    tokenize (pieces.flatMap Piece.write) = some (pieces.flatMap Piece.tokens) := by
  have hrun := run_pieces h []
  rw [List.append_nil] at hrun
  unfold tokenize
  rw [hrun]
  simp [normalizeNewlines, run]

end Pieces

end Stra2us.Foundation.Html
