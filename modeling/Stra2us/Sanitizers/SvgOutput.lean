import Stra2us.Sanitizers.Svg

namespace Stra2us.Sanitizers

open Foundation

section Serialize

def rawAttrib (attrib : List (QName × Text)) : List (Text × Text) :=
  attrib.map fun a => (a.1.name, a.2)

def raw : Forest QName → Forest Text :=
  Forest.map (fun tag attrib => (tag.name, rawAttrib attrib)) id

-- The one namespace is declared on the root and stands without a prefix.
def rawDocument (d : Document) : Forest Text :=
  .cons d.tag.name (("xmlns".toList, svgNs) :: rawAttrib d.attrib) d.text (raw d.children) [] .nil

def tostring (d : Document) : Text :=
  Xml.write (rawDocument d)

end Serialize

section Parser

def isXmlChar (c : Char) : Bool :=
  c = '\t' || c = '\n' || c = '\r' || (0x20 ≤ c.toNat && c.toNat ≠ 0xfffe && c.toNat ≠ 0xffff)

def Legal : Forest QName → Prop :=
  Forest.All fun _ attrib text tail =>
    (∀ c ∈ text, isXmlChar c) ∧ (∀ c ∈ tail, isXmlChar c) ∧ ∀ a ∈ attrib, ∀ c ∈ a.2, isXmlChar c

-- What an XML reader makes of the ends of lines.
def lineEnds : Text → Text
  | '\r' :: '\n' :: rest => '\n' :: lineEnds rest
  | c :: rest => (if c = '\r' then '\n' else c) :: lineEnds rest
  | [] => []

def readDocument (d : Document) : Document :=
  ⟨d.tag, d.attrib, lineEnds d.text, d.children.map Prod.mk lineEnds⟩

def IsXmlns (a : QName × Text) : Prop :=
  a.1.name = "xmlns".toList

def NoXmlns : Forest QName → Prop :=
  Forest.All fun _ attrib _ _ => ∀ a ∈ attrib, ¬ IsXmlns a

def NoReturns : Forest QName → Prop :=
  Forest.All fun _ _ text tail => '\r' ∉ text ∧ '\r' ∉ tail

def EmittedAttrib (attrib : List (QName × Text)) : Prop :=
  (∀ a ∈ attrib, a.1.uri = none ∧
    (a.1.name ∈ allowedAttrs ∨ lowerCase a.1.name = "href".toList ∧ hrefOk a.2)) ∧
  (attrib.map Prod.fst).Nodup

-- What the walk puts out.
def Emitted : Forest QName → Prop :=
  Forest.All fun tag attrib _ _ =>
    tag.uri = some svgNs ∧ tag.name ∈ allowedTags ∧ EmittedAttrib attrib

-- The parser reads what the serializer writes, up to the ends of lines. An attribute without a
-- prefix that is called `xmlns` is always a declaration and never comes out as an attribute.
structure StandardParser (parse : Bytes → Option Document) : Prop where
  plain : ∀ d, Emitted d.forest → Legal d.forest → NoXmlns d.forest →
    parse (utf8 (tostring d)) = some (readDocument d)
  declared : ∀ d again, Emitted d.forest → parse (utf8 (tostring d)) = some again →
    NoXmlns again.forest

def sanitizeSvg (parse : Bytes → Option Document) (frames : Nat) (source : Bytes) :
    Option (Except SvgError Bytes) :=
  (parse source).map fun d => (sanitizeTree frames d).map fun out => utf8 (tostring out)

end Parser

section Attributes

variable {tagLocal : Text}

theorem checkAttr_some {attr : QName} {value kept : Text}
    (h : checkAttr tagLocal attr value = .ok (some kept)) : kept = value ∧
      (attr.name ∈ allowedAttrs ∨ lowerCase attr.name = "href".toList ∧ hrefOk value) ∧
      ∀ other, checkAttr other (emitName attr.name) value = .ok (some value) := by
  unfold checkAttr at h ⊢
  dsimp only [emitName] at h ⊢
  split_ifs at h with hon hstyle hhref hok hallowed
  · nomatch Except.ok.inj h
  · obtain rfl := Option.some.inj (Except.ok.inj h)
    refine ⟨rfl, .inr ⟨hhref, hok⟩, fun other => ?_⟩
    rw [if_neg hon, if_neg hstyle, if_pos hhref, if_pos hok]
  · obtain rfl := Option.some.inj (Except.ok.inj h)
    refine ⟨rfl, .inl hallowed, fun other => ?_⟩
    rw [if_neg hon, if_neg hstyle, if_neg hhref, if_pos hallowed]
  · nomatch Except.ok.inj h

theorem checkAttr_xmlns (value : Text) {attr : QName} (h : attr.name = "xmlns".toList) :
    checkAttr tagLocal attr value = .ok (some value) := by
  unfold checkAttr
  dsimp only
  rw [h]
  rfl

theorem mem_keepAttribs {attrib : List (QName × Text)} {kept : List (Text × Text)}
    (h : keepAttribs tagLocal attrib = .ok kept) {pair : Text × Text} :
    pair ∈ kept ↔ ∃ a ∈ attrib, a.1.name = pair.1 ∧
      checkAttr tagLocal a.1 a.2 = .ok (some pair.2) := by
  induction attrib generalizing kept with
  | nil =>
      obtain rfl := Except.ok.inj h
      simp
  | cons a rest ih =>
      obtain ⟨attr, value⟩ := a
      rw [keepAttribs] at h
      cases hcheck : checkAttr tagLocal attr value with
      | error e =>
          rw [hcheck] at h
          cases h
      | ok kept? =>
          cases hrest : keepAttribs tagLocal rest with
          | error e =>
              rw [hcheck, hrest] at h
              cases h
          | ok others =>
              rw [hcheck, hrest] at h
              obtain rfl := Except.ok.inj h
              rw [List.mem_append, ih hrest, List.exists_mem_cons_iff, hcheck]
              obtain ⟨name, read⟩ := pair
              cases kept? with
              | none => simp
              | some found => simp [eq_comm]

theorem mem_cleanAttribs {attrib cleaned : List (QName × Text)}
    (h : cleanAttribs tagLocal attrib = .ok cleaned) :
    ∃ kept, keepAttribs tagLocal attrib = .ok kept ∧
      cleaned = (Dict.ofList kept).entries.map fun pair => (emitName pair.1, pair.2) := by
  unfold cleanAttribs at h
  cases hkept : keepAttribs tagLocal attrib with
  | error e =>
      rw [hkept] at h
      nomatch h
  | ok kept =>
      rw [hkept] at h
      exact ⟨kept, rfl, (Except.ok.inj h).symm⟩

end Attributes

section Cleaned

variable {tagLocal : Text} {attrib cleaned : List (QName × Text)}

theorem cleaned_emitted (h : cleanAttribs tagLocal attrib = .ok cleaned) :
    EmittedAttrib cleaned := by
  obtain ⟨kept, hkept, rfl⟩ := mem_cleanAttribs h
  constructor
  · intro a ha
    obtain ⟨pair, hpair, rfl⟩ := List.mem_map.mp ha
    obtain ⟨source, -, hname, hcheck⟩ := (mem_keepAttribs hkept).mp (Dict.mem_entries_ofList hpair)
    obtain ⟨hvalue, hkind, -⟩ := checkAttr_some hcheck
    refine ⟨rfl, ?_⟩
    dsimp only [emitName]
    rw [← hname, hvalue]
    exact hkind
  · have hnodup := (Dict.ofList kept).nodup.map (f := emitName) fun a b hab => by
      simpa [emitName] using hab
    rw [List.map_map] at hnodup ⊢
    exact hnodup

theorem cleaned_again (h : cleanAttribs tagLocal attrib = .ok cleaned) (other : Text) :
    cleanAttribs other cleaned = .ok cleaned := by
  obtain ⟨kept, hkept, rfl⟩ := mem_cleanAttribs h
  have heach (pairs : List (Text × Text))
      (hpairs : ∀ pair ∈ pairs, checkAttr other (emitName pair.1) pair.2 = .ok (some pair.2)) :
      keepAttribs other (pairs.map fun pair => (emitName pair.1, pair.2)) = .ok pairs := by
    induction pairs with
    | nil => rfl
    | cons pair rest ih =>
        rw [List.map_cons, keepAttribs, hpairs pair (by simp),
          ih fun p hp => hpairs p (by simp [hp])]
        rfl
  have hall := heach (Dict.ofList kept).entries (by
    intro pair hpair
    obtain ⟨source, -, hname, hcheck⟩ := (mem_keepAttribs hkept).mp (Dict.mem_entries_ofList hpair)
    obtain ⟨hvalue, -, hagain⟩ := checkAttr_some hcheck
    rw [← hname, hvalue]
    exact hagain other)
  unfold cleanAttribs
  rw [hall]
  change Except.ok _ = Except.ok _
  rw [Dict.ofList_entries]

theorem cleaned_xmlns (h : cleanAttribs tagLocal attrib = .ok cleaned) :
    (∀ a ∈ attrib, ¬ IsXmlns a) ↔ ∀ a ∈ cleaned, ¬ IsXmlns a := by
  obtain ⟨kept, hkept, rfl⟩ := mem_cleanAttribs h
  have hnames : (∃ a ∈ attrib, IsXmlns a) ↔ "xmlns".toList ∈ kept.map Prod.fst := by
    rw [List.mem_map]
    constructor
    · rintro ⟨a, ha, hname⟩
      exact ⟨("xmlns".toList, a.2), (mem_keepAttribs hkept).mpr ⟨a, ha, hname,
        checkAttr_xmlns a.2 hname⟩, rfl⟩
    · rintro ⟨pair, hpair, hname⟩
      obtain ⟨a, ha, hsame, -⟩ := (mem_keepAttribs hkept).mp hpair
      exact ⟨a, ha, hsame.trans hname⟩
  rw [← Dict.mem_keys_ofList, List.mem_map] at hnames
  constructor
  · rintro hnone a ha hname
    obtain ⟨pair, hpair, rfl⟩ := List.mem_map.mp ha
    obtain ⟨b, hb, hxmlns⟩ := hnames.mpr ⟨pair, hpair, hname⟩
    exact hnone b hb hxmlns
  · rintro hnone a ha hname
    obtain ⟨pair, hpair, hxmlns⟩ := hnames.mp ⟨a, ha, hname⟩
    exact hnone _ (List.mem_map_of_mem hpair) hxmlns

theorem cleaned_values (h : cleanAttribs tagLocal attrib = .ok cleaned) :
    ∀ a ∈ cleaned, ∃ b ∈ attrib, b.2 = a.2 := by
  obtain ⟨kept, hkept, rfl⟩ := mem_cleanAttribs h
  intro a ha
  obtain ⟨pair, hpair, rfl⟩ := List.mem_map.mp ha
  obtain ⟨source, hsource, -, hcheck⟩ := (mem_keepAttribs hkept).mp (Dict.mem_entries_ofList hpair)
  exact ⟨source, hsource, (checkAttr_some hcheck).1.symm⟩

end Cleaned

section Kept

variable {frames : Nat} {forest walked : Forest QName}

-- What holds of every element whose ancestors are all allowed.
def Kept (p : List (QName × Text) → Text → Text → Prop) : Forest QName → Prop
  | .nil => True
  | .cons tag attrib text children tail rest =>
      (tag.name ∈ allowedTags → p attrib text tail ∧ Kept p children) ∧ Kept p rest

theorem kept_of_all {p : List (QName × Text) → Text → Text → Prop}
    (h : forest.All fun _ attrib text tail => p attrib text tail) : Kept p forest := by
  induction forest with
  | nil => trivial
  | cons tag attrib text children tail rest ihChildren ihRest =>
      exact ⟨fun _ => ⟨h.1, ihChildren h.2.1⟩, ihRest h.2.2⟩

theorem walk_induct {motive : Forest QName → Forest QName → Prop}
    (h : walk frames forest = .ok walked) (hnil : motive .nil .nil)
    (hdropped : ∀ tag attrib text children tail rest others, tag.name ∉ allowedTags →
      motive rest others → motive (.cons tag attrib text children tail rest) others)
    (hkept : ∀ tag attrib text children tail rest cleaned inside others,
      tag.name ∈ allowedTags → cleanAttribs tag.name attrib = .ok cleaned →
      motive children inside → motive rest others →
      motive (.cons tag attrib text children tail rest)
        (.cons ⟨some svgNs, tag.name⟩ cleaned text inside tail others)) :
    motive forest walked := by
  induction forest generalizing frames walked with
  | nil =>
      have hwalked : walked = .nil := by
        cases frames <;> exact (Except.ok.inj h).symm
      exact hwalked ▸ hnil
  | cons tag attrib text children tail rest ihChildren ihRest =>
      cases frames with
      | zero => nomatch h
      | succ frames =>
          by_cases htag : HazardTag tag
          · obtain ⟨e, -, herror⟩ := @walk_hazardTag frames tag attrib text children tail rest htag
            rw [herror] at h
            nomatch h
          · by_cases hallowed : tag.name ∈ allowedTags
            · obtain ⟨cleaned, inside, others, hclean, hinside, hothers, rfl⟩ :=
                walk_kept_ok hallowed h
              exact hkept _ _ _ _ _ _ _ _ _ hallowed hclean (ihChildren hinside) (ihRest hothers)
            · rw [walk_dropped htag hallowed] at h
              exact hdropped _ _ _ _ _ _ _ hallowed (ihRest h)

theorem walk_emitted (h : walk frames forest = .ok walked) : Emitted walked := by
  refine walk_induct (motive := fun _ walked => Emitted walked) h trivial ?_ ?_
  · intro _ _ _ _ _ _ _ _ hrest
    exact hrest
  · intro _ _ _ _ _ _ _ _ _ hallowed hclean hinside hothers
    exact ⟨⟨rfl, hallowed, cleaned_emitted hclean⟩, hinside, hothers⟩

-- What cleaning carries over holds of all that is put out when it holds of all that is kept.
theorem walk_all {p q : List (QName × Text) → Text → Text → Prop}
    (h : walk frames forest = .ok walked)
    (hcarried : ∀ tagLocal attrib cleaned text tail, cleanAttribs tagLocal attrib = .ok cleaned →
      p attrib text tail → q cleaned text tail) (hall : Kept p forest) :
    walked.All fun _ attrib text tail => q attrib text tail := by
  have hmotive := walk_induct (motive := fun forest walked => Kept p forest →
    walked.All fun _ attrib text tail => q attrib text tail) h (fun _ => trivial)
  refine hmotive ?_ ?_ hall
  · intro _ _ _ _ _ _ _ _ hrest hkept
    exact hrest hkept.2
  · intro _ _ _ _ _ _ _ _ _ hallowed hclean hinside hothers hkept
    obtain ⟨hhere, hchildren⟩ := hkept.1 hallowed
    exact ⟨hcarried _ _ _ _ _ hclean hhere, hinside hchildren, hothers hkept.2⟩

theorem kept_of_walk_all {p q : List (QName × Text) → Text → Text → Prop}
    (h : walk frames forest = .ok walked)
    (hcarried : ∀ tagLocal attrib cleaned text tail, cleanAttribs tagLocal attrib = .ok cleaned →
      q cleaned text tail → p attrib text tail)
    (hall : walked.All fun _ attrib text tail => q attrib text tail) : Kept p forest := by
  have hmotive := walk_induct (motive := fun forest walked =>
    walked.All (fun _ attrib text tail => q attrib text tail) → Kept p forest) h (fun _ => trivial)
  refine hmotive ?_ ?_ hall
  · intro _ _ _ _ _ _ _ hdropped hrest hout
    exact ⟨fun hallowed => absurd hallowed hdropped, hrest hout⟩
  · intro _ _ _ _ _ _ _ _ _ _ hclean hinside hothers hout
    exact ⟨fun _ => ⟨hcarried _ _ _ _ _ hclean hout.1, hinside hout.2.1⟩, hothers hout.2.2⟩

-- The walk leaves alone what it has put out.
theorem walk_again (h : walk frames forest = .ok walked) : walk frames walked = .ok walked := by
  induction forest generalizing frames walked with
  | nil =>
      have hwalked : walked = .nil := by
        cases frames <;> exact (Except.ok.inj h).symm
      rw [hwalked]
      cases frames <;> rfl
  | cons tag attrib text children tail rest ihChildren ihRest =>
      cases frames with
      | zero => nomatch h
      | succ frames =>
          by_cases htag : HazardTag tag
          · obtain ⟨e, -, herror⟩ := @walk_hazardTag frames tag attrib text children tail rest htag
            rw [herror] at h
            nomatch h
          · by_cases hallowed : tag.name ∈ allowedTags
            · obtain ⟨cleaned, inside, others, hclean, hinside, hothers, rfl⟩ :=
                walk_kept_ok hallowed h
              have hagain : (⟨some svgNs, tag.name⟩ : QName).name ∈ allowedTags := hallowed
              rw [walk_kept hagain]
              dsimp only
              rw [cleaned_again hclean, ihChildren hinside, ihRest hothers]
              rfl
            · rw [walk_dropped htag hallowed] at h
              exact ihRest h

end Kept

section Reading

theorem return_notMem_lineEnds (text : Text) : '\r' ∉ lineEnds text := by
  induction text using lineEnds.induct with
  | case1 rest ih => simpa [lineEnds] using ih
  | case2 c rest hpair ih =>
      rw [lineEnds.eq_2 _ _ hpair, List.mem_cons, not_or]
      refine ⟨?_, ih⟩
      split_ifs with hc
      · decide
      · exact fun h => hc h.symm
  | case3 => simp [lineEnds]

theorem lineEnds_eq {text : Text} (h : '\r' ∉ text) : lineEnds text = text := by
  induction text using lineEnds.induct with
  | case1 rest ih => simp at h
  | case2 c rest hpair ih =>
      rw [List.mem_cons, not_or] at h
      rw [lineEnds.eq_2 _ _ hpair, if_neg (fun hc => h.1 hc.symm), ih h.2]
  | case3 => rfl

theorem map_lineEnds_eq {forest : Forest QName} (h : NoReturns forest) :
    forest.map Prod.mk lineEnds = forest := by
  induction forest with
  | nil => rfl
  | cons tag attrib text children tail rest ihChildren ihRest =>
      obtain ⟨⟨htext, htail⟩, hchildren, hrest⟩ := h
      rw [Forest.map, lineEnds_eq htext, lineEnds_eq htail, ihChildren hchildren, ihRest hrest]

theorem noReturns_map (forest : Forest QName) : NoReturns (forest.map Prod.mk lineEnds) := by
  induction forest with
  | nil => trivial
  | cons tag attrib text children tail rest ihChildren ihRest =>
      exact ⟨⟨return_notMem_lineEnds text, return_notMem_lineEnds tail⟩, ihChildren, ihRest⟩

theorem noReturns_readDocument (d : Document) : NoReturns (readDocument d).forest :=
  ⟨⟨return_notMem_lineEnds d.text, by simp⟩, noReturns_map d.children, trivial⟩

theorem readDocument_eq {d : Document} (h : NoReturns d.forest) : readDocument d = d := by
  obtain ⟨⟨htext, -⟩, hchildren, -⟩ := h
  unfold readDocument
  rw [lineEnds_eq htext, map_lineEnds_eq hchildren]

end Reading

section Names

theorem isNameChar_of_toLower {c d : Char} (hd : d.isLower) (h : c.toLower = d) :
    Xml.isNameChar c := by
  have halpha : c.isAlphanum := by
    unfold Char.toLower at h
    split_ifs at h with hupper
    · have hc : c.isUpper = true := decide_eq_true hupper
      have hsplit : c.isAlphanum = ((c.isUpper || c.isLower) || c.isDigit) := rfl
      rw [hsplit, hc, Bool.true_or, Bool.true_or]
    · have hsplit : c.isAlphanum = ((c.isUpper || c.isLower) || c.isDigit) := rfl
      rw [hsplit, h, hd, Bool.or_true, Bool.true_or]
  simp [Xml.isNameChar, halpha]

theorem isName_of_lowerCase {name lower : Text} (h : lowerCase name = lower) (hne : lower ≠ [])
    (hlower : ∀ c ∈ lower, c.isLower) : Xml.IsName name := by
  subst h
  refine ⟨fun hnil => hne (by rw [hnil]; rfl), fun c hc => ?_⟩
  exact isNameChar_of_toLower (hlower _ (List.mem_map_of_mem hc)) rfl

theorem isName_of_all {names : List Text}
    (h : names.all (fun name => !name.isEmpty && name.all Xml.isNameChar) = true) :
    ∀ name ∈ names, Xml.IsName name := by
  intro name hname
  have hone := List.all_eq_true.mp h name hname
  simp only [Bool.and_eq_true, Bool.not_eq_true', List.isEmpty_eq_false_iff,
    List.all_eq_true] at hone
  exact hone

theorem isName_of_emitted {attrib : List (QName × Text)} (h : EmittedAttrib attrib) :
    ∀ a ∈ rawAttrib attrib, Xml.IsName a.1 := by
  intro a ha
  obtain ⟨b, hb, rfl⟩ := List.mem_map.mp ha
  rcases (h.1 b hb).2 with hallowed | ⟨hhref, -⟩
  · exact @isName_of_all allowedAttrs (by decide) _ hallowed
  · exact isName_of_lowerCase hhref (by decide) (by simp)

theorem named_raw {forest : Forest QName} (h : Emitted forest) : Xml.Named (raw forest) := by
  induction forest with
  | nil => trivial
  | cons tag attrib text children tail rest ihChildren ihRest =>
      obtain ⟨⟨-, htag, hattrib⟩, hchildren, hrest⟩ := h
      exact ⟨⟨@isName_of_all allowedTags (by decide) _ htag,
        isName_of_emitted hattrib⟩, ihChildren hchildren, ihRest hrest⟩

theorem named_rawDocument {d : Document} (h : Emitted d.forest) : Xml.Named (rawDocument d) := by
  obtain ⟨⟨htag, hattrib⟩, hchildren, -⟩ := named_raw h
  refine ⟨⟨htag, ?_⟩, hchildren, trivial⟩
  intro a ha
  rcases List.mem_cons.mp ha with rfl | ha
  · exact @isName_of_all ["xmlns".toList] (by decide) _ (List.mem_singleton.mpr rfl)
  · exact hattrib a ha

theorem emit_rawAttrib {attrib : List (QName × Text)} (h : EmittedAttrib attrib) :
    (rawAttrib attrib).map (fun pair => (emitName pair.1, pair.2)) = attrib := by
  rw [rawAttrib, List.map_map, List.map_congr_left, List.map_id attrib]
  intro a ha
  obtain ⟨⟨uri, name⟩, value⟩ := a
  obtain rfl : uri = none := (h.1 _ ha).1
  rfl

theorem rawAttrib_injective {a b : List (QName × Text)} (ha : EmittedAttrib a)
    (hb : EmittedAttrib b) (h : rawAttrib a = rawAttrib b) : a = b := by
  rw [← emit_rawAttrib ha, ← emit_rawAttrib hb, h]

theorem raw_injective {f g : Forest QName} (hf : Emitted f) (hg : Emitted g)
    (h : raw f = raw g) : f = g := by
  induction f generalizing g with
  | nil =>
      cases g with
      | nil => rfl
      | cons => nomatch h
  | cons tag attrib text children tail rest ihChildren ihRest =>
      cases g with
      | nil => nomatch h
      | cons tag' attrib' text' children' tail' rest' =>
          obtain ⟨⟨huri, -, hattrib⟩, hchildren, hrest⟩ := hf
          obtain ⟨⟨huri', -, hattrib'⟩, hchildren', hrest'⟩ := hg
          obtain ⟨hname, hraw, htext, hinside, htail, hothers⟩ := Forest.cons.inj h
          obtain rfl : tag = tag' := by
            cases tag
            cases tag'
            simp_all
          obtain rfl := rawAttrib_injective hattrib hattrib' hraw
          obtain rfl := ihChildren hchildren hchildren' hinside
          obtain rfl := ihRest hrest hrest' hothers
          rw [show text = text' from htext, show tail = tail' from htail]

theorem tostring_injective {d e : Document} (hd : Emitted d.forest) (he : Emitted e.forest)
    (h : tostring d = tostring e) : d = e := by
  have hwhole := Xml.write_injective (named_rawDocument hd) (named_rawDocument he) h
  obtain ⟨hname, hattrib, htext, hchildren, -, -⟩ := Forest.cons.inj hwhole
  have hraw : raw d.forest = raw e.forest := by
    change Forest.cons d.tag.name (rawAttrib d.attrib) d.text (raw d.children) [] .nil =
      Forest.cons e.tag.name (rawAttrib e.attrib) e.text (raw e.children) [] .nil
    rw [hname, (List.cons.inj hattrib).2, htext, hchildren]
  obtain ⟨htag, hattribs, htexts, hinside, -, -⟩ := Forest.cons.inj (raw_injective hd he hraw)
  exact Document.ext htag hattribs htexts hinside

end Names

section FixedPoint

variable {parse : Bytes → Option Document} {frames : Nat} {d out : Document}

-- Read again, the output is made of allowed elements and attributes only, and comes out the same.
def FixedPoint (parse : Bytes → Option Document) (frames : Nat) (out : Document) : Prop :=
  ∃ again, parse (utf8 (tostring out)) = some again ∧
    again.forest.All (fun tag attrib _ _ => tag.uri = some svgNs ∧ tag.name ∈ allowedTags ∧
      ∀ a ∈ attrib, a.1.uri = none ∧
        (a.1.name ∈ allowedAttrs ∨ lowerCase a.1.name = "href".toList ∧ "#".toList <+: a.2)) ∧
    sanitizeSvg parse frames (utf8 (tostring out)) = some (.ok (utf8 (tostring out)))

-- No element that is kept has an attribute with the local name `xmlns` or a carriage return in
-- its text or behind it.
def Tame : Forest QName → Prop :=
  Kept fun attrib text tail => (∀ a ∈ attrib, ¬ IsXmlns a) ∧ '\r' ∉ text ∧ '\r' ∉ tail

theorem sanitizeTree_ok (h : sanitizeTree frames d = .ok out) :
    walk frames d.forest = .ok out.forest := by
  unfold sanitizeTree at h
  split_ifs at h with hroot
  cases hwalk : walk frames d.forest with
  | error e =>
      rw [hwalk] at h
      nomatch h
  | ok walked =>
      cases frames with
      | zero => nomatch hwalk
      | succ frames =>
          obtain ⟨cleaned, inside, others, -, -, hothers, rfl⟩ :=
            walk_kept_ok (svg_allowed (not_not.mp hroot)) hwalk
          obtain rfl : others = .nil := (Except.ok.inj hothers).symm
          rw [hwalk] at h
          obtain rfl := Except.ok.inj h
          rfl

theorem sanitizeTree_again (h : sanitizeTree frames d = .ok out) :
    sanitizeTree frames out = .ok out := by
  have hwalk := walk_again (sanitizeTree_ok h)
  have hroot : out.tag.name = "svg".toList := by
    have hok := sanitizeTree_ok h
    unfold sanitizeTree at h
    split_ifs at h with hroot
    cases frames with
    | zero => nomatch hok
    | succ frames =>
        obtain ⟨_, _, _, -, -, -, hout⟩ := walk_kept_ok (svg_allowed (not_not.mp hroot)) hok
        rw [(Forest.cons.inj hout).1]
        exact not_not.mp hroot
  unfold sanitizeTree
  rw [if_neg (not_not.mpr hroot), hwalk]
  rfl

theorem tame_iff (h : sanitizeTree frames d = .ok out) :
    Tame d.forest ↔ NoXmlns out.forest ∧ NoReturns out.forest := by
  have hwalk := sanitizeTree_ok h
  have hsplit : NoXmlns out.forest ∧ NoReturns out.forest ↔ out.forest.All
      fun _ attrib text tail => (∀ a ∈ attrib, ¬ IsXmlns a) ∧ '\r' ∉ text ∧ '\r' ∉ tail :=
    Forest.all_and.symm
  rw [hsplit]
  constructor
  · refine walk_all hwalk ?_
    rintro tagLocal attrib cleaned text tail hclean ⟨hxmlns, hreturns⟩
    exact ⟨(cleaned_xmlns hclean).mp hxmlns, hreturns⟩
  · refine kept_of_walk_all hwalk ?_
    rintro tagLocal attrib cleaned text tail hclean ⟨hxmlns, hreturns⟩
    exact ⟨(cleaned_xmlns hclean).mpr hxmlns, hreturns⟩

theorem legal_out (hlegal : Legal d.forest) (h : sanitizeTree frames d = .ok out) :
    Legal out.forest := by
  refine walk_all (sanitizeTree_ok h) ?_ (kept_of_all hlegal)
  rintro tagLocal attrib cleaned text tail hclean ⟨htext, htail, hvalues⟩
  refine ⟨htext, htail, fun a ha => ?_⟩
  obtain ⟨b, hb, hsame⟩ := cleaned_values hclean a ha
  exact hsame ▸ hvalues b hb

-- An attribute that comes out as a namespace declaration and a carriage return in a text are
-- all that is in the way.
theorem fixedPoint_iff (hparse : StandardParser parse) (hlegal : Legal d.forest)
    (haccept : sanitizeTree frames d = .ok out) : FixedPoint parse frames out ↔ Tame d.forest := by
  have hemitted := walk_emitted (sanitizeTree_ok haccept)
  rw [tame_iff haccept]
  constructor
  · rintro ⟨again, hread, -, hsame⟩
    have hbytes : ∃ out', sanitizeTree frames again = .ok out' ∧ tostring out' = tostring out := by
      unfold sanitizeSvg at hsame
      rw [hread, Option.map_some] at hsame
      cases hagain : sanitizeTree frames again with
      | error e =>
          rw [hagain] at hsame
          nomatch hsame
      | ok out' =>
          rw [hagain] at hsame
          exact ⟨out', rfl, utf8_injective (Except.ok.inj (Option.some.inj hsame))⟩
    obtain ⟨out', hagain, htext⟩ := hbytes
    have hwalk := sanitizeTree_ok hagain
    obtain rfl := tostring_injective (walk_emitted hwalk) hemitted htext
    have hxmlns : NoXmlns out'.forest := by
      refine walk_all hwalk ?_ (kept_of_all (hparse.declared out' again hemitted hread))
      exact fun _ _ _ _ _ hclean hnone => (cleaned_xmlns hclean).mp hnone
    refine ⟨hxmlns, ?_⟩
    -- without declarations in the way the parser gives the tree back, with its line ends
    obtain rfl := Option.some.inj (hread.symm.trans
      (hparse.plain out' hemitted (legal_out hlegal haccept) hxmlns))
    refine walk_all hwalk ?_ (kept_of_all (noReturns_readDocument out'))
    exact fun _ _ _ _ _ _ hnone => hnone
  · rintro ⟨hxmlns, hreturns⟩
    have hread := hparse.plain out hemitted (legal_out hlegal haccept) hxmlns
    rw [readDocument_eq hreturns] at hread
    refine ⟨out, hread, ?_, ?_⟩
    · refine Forest.All.imp ?_ hemitted
      rintro tag attrib text tail ⟨huri, htag, hattrib, -⟩
      refine ⟨huri, htag, fun a ha => ⟨(hattrib a ha).1, (hattrib a ha).2.imp_right ?_⟩⟩
      rintro ⟨hhref, hok⟩
      refine ⟨hhref, ?_⟩
      simp only [hrefOk, Bool.and_eq_true, decide_eq_true_eq] at hok
      exact hok.1.1
    · unfold sanitizeSvg
      rw [hread, Option.map_some, sanitizeTree_again haccept]
      rfl

end FixedPoint

section Reader

-- A reader of the documents that are written here.

def declaredNs (ns : Option Text) (attrib : List (Text × Text)) : Option Text :=
  match attrib.lookup "xmlns".toList with
  | some [] => none
  | some uri => some uri
  | none => ns

def readAttrib (attrib : List (Text × Text)) : List (QName × Text) :=
  (attrib.filter fun pair => pair.1 ≠ "xmlns".toList).map fun pair => (emitName pair.1, pair.2)

def resolve : Option Text → Forest Text → Forest QName
  | _, .nil => .nil
  | ns, .cons tag attrib text children tail rest =>
      .cons ⟨declaredNs ns attrib, tag⟩ (readAttrib attrib) (lineEnds text)
        (resolve (declaredNs ns attrib) children) (lineEnds tail) (resolve ns rest)

def uniqueAttribs : Forest Text → Bool
  | .nil => true
  | .cons _ attrib _ children _ rest =>
      decide (attrib.map Prod.fst).Nodup && uniqueAttribs children && uniqueAttribs rest

def readXml (source : Bytes) : Option Document := do
  let text ← utf8Decode source
  let scanned ← Xml.scan text
  if uniqueAttribs scanned then
    match resolve none scanned with
    | .cons tag attrib text children [] .nil => some ⟨tag, attrib, text, children⟩
    | _ => none
  else none

theorem readAttrib_raw {attrib : List (QName × Text)} (h : EmittedAttrib attrib)
    (hxmlns : ∀ a ∈ attrib, ¬ IsXmlns a) : readAttrib (rawAttrib attrib) = attrib := by
  have hall : (rawAttrib attrib).filter (fun pair => pair.1 ≠ "xmlns".toList) =
      rawAttrib attrib := by
    apply List.filter_eq_self.mpr
    intro pair hpair
    obtain ⟨a, ha, rfl⟩ := List.mem_map.mp hpair
    exact decide_eq_true (hxmlns a ha)
  rw [readAttrib, hall, emit_rawAttrib h]

theorem declaredNs_raw {ns : Option Text} {attrib : List (QName × Text)}
    (hxmlns : ∀ a ∈ attrib, ¬ IsXmlns a) : declaredNs ns (rawAttrib attrib) = ns := by
  have hnone : (rawAttrib attrib).lookup "xmlns".toList = none := by
    apply List.lookup_eq_none_iff.mpr
    intro pair hpair
    obtain ⟨a, ha, rfl⟩ := List.mem_map.mp hpair
    exact bne_iff_ne.mpr fun hname => hxmlns a ha hname.symm
  rw [declaredNs, hnone]

theorem resolve_raw {forest : Forest QName} (h : Emitted forest) (hxmlns : NoXmlns forest) :
    resolve (some svgNs) (raw forest) = forest.map Prod.mk lineEnds := by
  induction forest with
  | nil => rfl
  | cons tag attrib text children tail rest ihChildren ihRest =>
      obtain ⟨⟨huri, -, hattrib⟩, hchildren, hrest⟩ := h
      obtain ⟨hhere, hinside, hothers⟩ := hxmlns
      obtain ⟨uri, name⟩ := tag
      obtain rfl : uri = some svgNs := huri
      have hrec : resolve (some svgNs) (raw (.cons ⟨some svgNs, name⟩ attrib text children tail
          rest)) = .cons ⟨declaredNs (some svgNs) (rawAttrib attrib), name⟩
            (readAttrib (rawAttrib attrib)) (lineEnds text)
            (resolve (declaredNs (some svgNs) (rawAttrib attrib)) (raw children)) (lineEnds tail)
            (resolve (some svgNs) (raw rest)) := rfl
      rw [hrec, declaredNs_raw hhere, readAttrib_raw hattrib hhere, ihChildren hchildren hinside,
        ihRest hrest hothers]
      rfl

theorem nodup_rawAttrib {attrib : List (QName × Text)} (h : EmittedAttrib attrib) :
    ((rawAttrib attrib).map Prod.fst).Nodup := by
  have hnames : ((rawAttrib attrib).map Prod.fst).map emitName = attrib.map Prod.fst := by
    conv_rhs => rw [← emit_rawAttrib h]
    rw [List.map_map, List.map_map]
    rfl
  exact List.Nodup.of_map emitName (hnames ▸ h.2)

theorem uniqueAttribs_raw {forest : Forest QName} (h : Emitted forest) :
    uniqueAttribs (raw forest) = true := by
  induction forest with
  | nil => rfl
  | cons tag attrib text children tail rest ihChildren ihRest =>
      obtain ⟨⟨-, -, hattrib⟩, hchildren, hrest⟩ := h
      change (decide ((rawAttrib attrib).map Prod.fst).Nodup && uniqueAttribs (raw children) &&
        uniqueAttribs (raw rest)) = true
      rw [decide_eq_true (nodup_rawAttrib hattrib), ihChildren hchildren, ihRest hrest]
      rfl

theorem noXmlns_resolve (ns : Option Text) (forest : Forest Text) :
    NoXmlns (resolve ns forest) := by
  induction forest generalizing ns with
  | nil => trivial
  | cons tag attrib text children tail rest ihChildren ihRest =>
      refine ⟨fun a ha hname => ?_, ihChildren _, ihRest _⟩
      obtain ⟨pair, hpair, rfl⟩ := List.mem_map.mp ha
      exact of_decide_eq_true (List.mem_filter.mp hpair).2 hname

theorem resolve_rawDocument {d : Document} (h : Emitted d.forest) (hxmlns : NoXmlns d.forest) :
    resolve none (rawDocument d) = (readDocument d).forest := by
  obtain ⟨⟨huri, -, hattrib⟩, hchildren, -⟩ := h
  obtain ⟨hhere, hinside, -⟩ := hxmlns
  have hns : declaredNs none (("xmlns".toList, svgNs) :: rawAttrib d.attrib) = some svgNs := rfl
  have hread : readAttrib (("xmlns".toList, svgNs) :: rawAttrib d.attrib) = d.attrib := by
    have hdrop : (("xmlns".toList, svgNs) :: rawAttrib d.attrib).filter
        (fun pair => pair.1 ≠ "xmlns".toList) =
        (rawAttrib d.attrib).filter fun pair => pair.1 ≠ "xmlns".toList :=
      List.filter_cons_of_neg (by simp)
    rw [readAttrib, hdrop]
    exact readAttrib_raw hattrib hhere
  have hrec : resolve none (rawDocument d) =
      .cons ⟨declaredNs none (("xmlns".toList, svgNs) :: rawAttrib d.attrib), d.tag.name⟩
        (readAttrib (("xmlns".toList, svgNs) :: rawAttrib d.attrib)) (lineEnds d.text)
        (resolve (declaredNs none (("xmlns".toList, svgNs) :: rawAttrib d.attrib))
          (raw d.children)) [] .nil := rfl
  rw [hrec, hns, hread, resolve_raw hchildren hinside, ← huri]
  rfl

theorem uniqueAttribs_rawDocument {d : Document} (h : Emitted d.forest)
    (hxmlns : NoXmlns d.forest) : uniqueAttribs (rawDocument d) = true := by
  obtain ⟨⟨-, -, hattrib⟩, hchildren, -⟩ := h
  have hfresh : "xmlns".toList ∉ (rawAttrib d.attrib).map Prod.fst := by
    intro hin
    obtain ⟨pair, hpair, hname⟩ := List.mem_map.mp hin
    obtain ⟨a, ha, rfl⟩ := List.mem_map.mp hpair
    exact hxmlns.1 a ha hname
  have hnodup : ((("xmlns".toList, svgNs) :: rawAttrib d.attrib).map Prod.fst).Nodup :=
    List.nodup_cons.mpr ⟨hfresh, nodup_rawAttrib hattrib⟩
  change (decide ((("xmlns".toList, svgNs) :: rawAttrib d.attrib).map Prod.fst).Nodup &&
    uniqueAttribs (raw d.children) && true) = true
  rw [decide_eq_true hnodup, uniqueAttribs_raw hchildren]
  rfl

theorem standardParser_readXml : StandardParser readXml where
  plain d hemitted _ hxmlns := by
    unfold readXml tostring
    rw [utf8Decode_utf8]
    dsimp only [bind, Option.bind]
    rw [Xml.scan_write (named_rawDocument hemitted)]
    dsimp only
    rw [if_pos (uniqueAttribs_rawDocument hemitted hxmlns), resolve_rawDocument hemitted hxmlns]
    rfl
  declared d again hemitted h := by
    unfold readXml tostring at h
    rw [utf8Decode_utf8] at h
    dsimp only [bind, Option.bind] at h
    rw [Xml.scan_write (named_rawDocument hemitted)] at h
    dsimp only at h
    split_ifs at h
    split at h
    · rename_i tag attrib text children hresolve
      obtain rfl := Option.some.inj h
      have hnone := noXmlns_resolve none (rawDocument d)
      rw [hresolve] at hnone
      exact hnone
    · nomatch h

-- A circle with a reference, some text and a filter that is dropped.
def sample : Document :=
  svgOf (.cons ⟨some svgNs, "g".toList⟩ [(⟨none, "id".toList⟩, "a".toList)] "x & y".toList
    (bare "filter" .nil (.cons ⟨some svgNs, "use".toList⟩ [(⟨some "u".toList, "href".toList⟩,
      "#a".toList)] [] .nil [] .nil)) "z".toList .nil)

def cleanSample : Document :=
  svgOf (.cons ⟨some svgNs, "g".toList⟩ [(⟨none, "id".toList⟩, "a".toList)] "x & y".toList
    (.cons ⟨some svgNs, "use".toList⟩ [(⟨none, "href".toList⟩, "#a".toList)] [] .nil [] .nil)
      "z".toList .nil)

theorem fixedPoint_sample : StandardParser readXml ∧ Legal sample.forest ∧
    sanitizeTree 900 sample = .ok cleanSample ∧ FixedPoint readXml 900 cleanSample := by
  have hlegal : Legal sample.forest := by
    simp [Legal, sample, svgOf, bare, Document.forest, Forest.All, isXmlChar]
  have haccept : sanitizeTree 900 sample = .ok cleanSample := by decide
  refine ⟨standardParser_readXml, hlegal, haccept,
    (fixedPoint_iff standardParser_readXml hlegal haccept).mpr ?_⟩
  simp [Tame, sample, svgOf, bare, Document.forest, Kept, IsXmlns, allowedTags]

-- An attribute `u:xmlns` on the root.
def clashing (attr : QName) : Document :=
  ⟨⟨some svgNs, "svg".toList⟩, [(attr, ['v'])], [], .nil⟩

-- The declaration on the root comes twice.
theorem xmlns_attribute_written_twice : ¬ ∀ (parse : Bytes → Option Document) (frames : Nat)
    (d out : Document), StandardParser parse → Legal d.forest →
      sanitizeTree frames d = .ok out → FixedPoint parse frames out := by
  intro hall
  have hlegal : Legal (clashing ⟨some "u".toList, "xmlns".toList⟩).forest := by
    simp [Legal, clashing, Document.forest, Forest.All, isXmlChar]
  have haccept : sanitizeTree 900 (clashing ⟨some "u".toList, "xmlns".toList⟩) =
      .ok (clashing (emitName "xmlns".toList)) := by decide
  have hnone : readXml (utf8 (tostring (clashing (emitName "xmlns".toList)))) = none := by
    unfold readXml tostring
    rw [utf8Decode_utf8]
    dsimp only [bind, Option.bind]
    rw [Xml.scan_write (named_rawDocument (walk_emitted (sanitizeTree_ok haccept)))]
    rfl
  have hfixed := hall readXml 900 _ _ standardParser_readXml hlegal haccept
  unfold FixedPoint at hfixed
  rw [hnone] at hfixed
  obtain ⟨again, hread, -⟩ := hfixed
  cases hread

end Reader

end Stra2us.Sanitizers
