import Stra2us.Foundation.Text

namespace Stra2us.Foundation.Css

-- A rule for the elements with one value of one attribute.
structure Rule where
  key : Text
  value : Text
  declarations : List (Text × Text)
deriving DecidableEq, Repr

section Read

-- Characters that stand for themselves in names and values: none that begins a string, an
-- escape, a comment, a function, a block or an at-rule.
def isPlain (c : Char) : Bool :=
  c.isAlphanum || c = '-' || c = '_' || c = '#'

def isBlank (c : Char) : Bool :=
  c = ' ' || c = '\n'

-- The text before the first such character, and the text behind it.
def cut (c : Char) (text : Text) : Option (Text × Text) :=
  if c ∈ text then some (text.takeWhile (· ≠ c), (text.dropWhile (· ≠ c)).drop 1) else none

def IsWord (text : Text) : Prop :=
  text ≠ [] ∧ ∀ c ∈ text, isPlain c

instance (text : Text) : Decidable (IsWord text) :=
  decidable_of_iff (text ≠ [] ∧ text.all isPlain) (by simp [IsWord])

def readDeclaration (text : Text) : Option (Text × Text) := do
  let (name, value) ← cut ':' text
  if IsWord (trim isBlank name) ∧ IsWord (trim isBlank value) then
    some (trim isBlank name, trim isBlank value)
  else none

-- Each declaration ends in a semicolon.
def readDeclarations : Nat → Text → Option (List (Text × Text))
  | 0, _ => none
  | fuel + 1, text =>
      if text.all isBlank then some []
      else do
        let (first, rest) ← cut ';' text
        let declaration ← readDeclaration first
        let more ← readDeclarations fuel rest
        some (declaration :: more)

def readSelector (text : Text) : Option (Text × Text) := do
  let (front, rest) ← cut '[' text
  let (key, rest) ← cut '=' rest
  let (gap, rest) ← cut '"' rest
  let (value, rest) ← cut '"' rest
  if front = [] ∧ gap = [] ∧ rest = [']'] ∧ IsWord key ∧ IsWord value then some (key, value)
  else none

def readRules : Nat → Text → Option (List Rule)
  | 0, _ => none
  | fuel + 1, text =>
      if text.all isBlank then some []
      else do
        let (front, rest) ← cut '{' text
        let (key, value) ← readSelector (trim isBlank front)
        let (block, rest) ← cut '}' rest
        let declarations ← readDeclarations (block.length + 1) block
        let rules ← readRules fuel rest
        some (⟨key, value, declarations⟩ :: rules)

-- A sheet of such rules and nothing else.
def read (text : Text) : Option (List Rule) :=
  readRules (text.length + 1) text

end Read

section Write

def writeDeclaration (declaration : Text × Text) : Text :=
  "\n  ".toList ++ (declaration.1 ++ (": ".toList ++ (declaration.2 ++ ";".toList)))

def Rule.write (rule : Rule) : Text :=
  "[".toList ++ (rule.key ++ ("=\"".toList ++ (rule.value ++ ("\"] \x7b".toList ++
    (rule.declarations.flatMap writeDeclaration ++ "\n\x7d\n".toList)))))

structure Rule.WellFormed (rule : Rule) : Prop where
  key : IsWord rule.key
  value : IsWord rule.value
  declarations : ∀ d ∈ rule.declarations, IsWord d.1 ∧ IsWord d.2

variable {c : Char} {before rest text : Text}

theorem cut_append (h : c ∉ before) : cut c (before ++ c :: rest) = some (before, rest) := by
  have hbefore : ∀ d ∈ before, decide (d ≠ c) = true := by
    intro d hd
    have hne : d ≠ c := fun heq => h (heq ▸ hd)
    simpa using hne
  have hstop : ∀ d ∈ (c :: rest).head?, decide (d ≠ c) = false := by simp
  unfold cut
  rw [if_pos (by simp), takeWhile_append_of_stop hbefore hstop,
    dropWhile_append_of_stop hbefore hstop]
  rfl

theorem IsWord.notMem (h : IsWord text) (hc : isPlain c = false) : c ∉ text := by
  intro hmem
  have hplain := h.2 c hmem
  rw [hc] at hplain
  nomatch hplain

theorem not_blank_of_plain (h : isPlain c) : isBlank c = false := by
  by_contra hblank
  simp only [isBlank, Bool.not_eq_false, Bool.or_eq_true, decide_eq_true_eq] at hblank
  rcases hblank with rfl | rfl
  · nomatch h
  · nomatch h

theorem IsWord.trim_blank (h : IsWord text) (hbefore : ∀ d ∈ before, isBlank d)
    (hrest : ∀ d ∈ rest, isBlank d) : trim isBlank (before ++ text ++ rest) = text := by
  apply trim_around hbefore hrest
  · intro d hd
    exact not_blank_of_plain (h.2 d (List.mem_of_head? hd))
  · intro d hd
    exact not_blank_of_plain (h.2 d (List.mem_of_getLast? hd))

theorem readDeclaration_write {name value : Text} (hname : IsWord name) (hvalue : IsWord value) :
    readDeclaration ("\n  ".toList ++ (name ++ (": ".toList ++ value))) = some (name, value) := by
  have hcolon : ':' ∉ "\n  ".toList ++ name := by
    rw [List.mem_append, not_or]
    exact ⟨by decide, hname.notMem rfl⟩
  have hcut : cut ':' ("\n  ".toList ++ (name ++ (": ".toList ++ value))) =
      some ("\n  ".toList ++ name, " ".toList ++ value) := by
    have hsplit : "\n  ".toList ++ (name ++ (": ".toList ++ value)) =
        ("\n  ".toList ++ name) ++ ':' :: (" ".toList ++ value) := by
      rw [List.append_assoc]
      rfl
    rw [hsplit, cut_append hcolon]
  have hleft : trim isBlank ("\n  ".toList ++ name) = name := by
    have htrim := hname.trim_blank (by simp [isBlank] : ∀ d ∈ "\n  ".toList, isBlank d)
      (by simp : ∀ d ∈ ([] : Text), isBlank d)
    rwa [List.append_nil] at htrim
  have hright : trim isBlank (" ".toList ++ value) = value := by
    have htrim := hvalue.trim_blank (by simp [isBlank] : ∀ d ∈ " ".toList, isBlank d)
      (by simp : ∀ d ∈ ([] : Text), isBlank d)
    rwa [List.append_nil] at htrim
  unfold readDeclaration
  rw [hcut]
  dsimp only [bind, Option.bind]
  rw [hleft, hright, if_pos ⟨hname, hvalue⟩]

theorem readDeclarations_write {declarations : List (Text × Text)}
    (h : ∀ d ∈ declarations, IsWord d.1 ∧ IsWord d.2) {fuel : Nat}
    (hfuel : declarations.length < fuel) :
    readDeclarations fuel (declarations.flatMap writeDeclaration ++ ['\n']) =
      some declarations := by
  induction declarations generalizing fuel with
  | nil =>
      obtain ⟨left, rfl⟩ : ∃ left, fuel = left + 1 := ⟨fuel - 1, by omega⟩
      rfl
  | cons d more ih =>
      obtain ⟨left, rfl⟩ : ∃ left, fuel = left + 1 := ⟨fuel - 1, by omega⟩
      obtain ⟨hname, hvalue⟩ := h d (by simp)
      have hleft : more.length < left := by
        rw [List.length_cons] at hfuel
        omega
      have hsplit : (d :: more).flatMap writeDeclaration ++ ['\n'] =
          ("\n  ".toList ++ (d.1 ++ (": ".toList ++ d.2))) ++
            ';' :: (more.flatMap writeDeclaration ++ ['\n']) := by
        simp [writeDeclaration]
      have hend : ';' ∉ "\n  ".toList ++ (d.1 ++ (": ".toList ++ d.2)) := by
        simp only [List.mem_append, not_or]
        exact ⟨by decide, hname.notMem rfl, by decide, hvalue.notMem rfl⟩
      have hblank : ¬ ((("\n  ".toList ++ (d.1 ++ (": ".toList ++ d.2))) ++
          ';' :: (more.flatMap writeDeclaration ++ ['\n'])).all isBlank = true) := by
        rw [List.all_eq_true]
        intro hall
        exact absurd (hall ';' (by simp)) (by decide)
      rw [hsplit]
      unfold readDeclarations
      rw [if_neg hblank, cut_append hend]
      dsimp only [bind, Option.bind]
      rw [readDeclaration_write hname hvalue]
      dsimp only
      rw [ih (fun e he => h e (by simp [he])) hleft]

theorem readSelector_write {key value : Text} (hkey : IsWord key) (hvalue : IsWord value) :
    readSelector ("[".toList ++ (key ++ ("=\"".toList ++ (value ++ "\"]".toList)))) =
      some (key, value) := by
  have hequals : '=' ∉ key := hkey.notMem rfl
  have hquote : '"' ∉ value := hvalue.notMem rfl
  have hcutKey : cut '=' (key ++ ("=\"".toList ++ (value ++ "\"]".toList))) =
      some (key, '"' :: (value ++ "\"]".toList)) := cut_append hequals
  have hcutValue : cut '"' (value ++ "\"]".toList) = some (value, [']']) := cut_append hquote
  have hcutOpen : cut '[' ("[".toList ++ (key ++ ("=\"".toList ++ (value ++ "\"]".toList)))) =
      some ([], key ++ ("=\"".toList ++ (value ++ "\"]".toList))) := cut_append List.not_mem_nil
  have hcutGap : cut '"' ('"' :: (value ++ "\"]".toList)) = some ([], value ++ "\"]".toList) :=
    cut_append List.not_mem_nil
  unfold readSelector
  rw [hcutOpen]
  dsimp only [bind, Option.bind]
  rw [hcutKey]
  dsimp only
  rw [hcutGap]
  dsimp only
  rw [hcutValue]
  dsimp only
  rw [if_pos ⟨rfl, rfl, rfl, hkey, hvalue⟩]

theorem notMem_writeDeclarations {declarations : List (Text × Text)}
    (h : ∀ d ∈ declarations, IsWord d.1 ∧ IsWord d.2) (hc : isPlain c = false)
    (hglue : c ∉ "\n : ;".toList) : c ∉ declarations.flatMap writeDeclaration := by
  intro hmem
  obtain ⟨d, hd, hin⟩ := List.mem_flatMap.mp hmem
  obtain ⟨hname, hvalue⟩ := h d hd
  have hnot := hname.notMem hc
  have hnotValue := hvalue.notMem hc
  simp only [writeDeclaration, List.mem_append] at hin
  rcases hin with hin | hin | hin | hin | hin
  · exact hglue (by revert hin; simp; tauto)
  · exact hnot hin
  · exact hglue (by revert hin; simp; tauto)
  · exact hnotValue hin
  · exact hglue (by revert hin; simp; tauto)

theorem length_le_writeDeclarations (declarations : List (Text × Text)) :
    declarations.length ≤ (declarations.flatMap writeDeclaration).length := by
  induction declarations with
  | nil => exact Nat.le_refl _
  | cons d more ih =>
      have hone : 1 ≤ (writeDeclaration d).length := by
        simp [writeDeclaration]
      rw [List.flatMap_cons, List.length_append, List.length_cons]
      omega

-- A written rule is read as that rule, with nothing before or after it.
theorem read_write {rule : Rule} (h : rule.WellFormed) : read rule.write = some [rule] := by
  obtain ⟨hkey, hvalue, hdeclarations⟩ := h
  have hsplit : rule.write = ("[".toList ++ (rule.key ++ ("=\"".toList ++ (rule.value ++
      "\"]".toList))) ++ " ".toList) ++ '{' :: (rule.declarations.flatMap writeDeclaration ++
        ['\n']) ++ '}' :: ['\n'] := by
    simp [Rule.write]
  have hbrace : '{' ∉ "[".toList ++ (rule.key ++ ("=\"".toList ++ (rule.value ++
      "\"]".toList))) ++ " ".toList := by
    simp only [List.mem_append, not_or]
    exact ⟨⟨by decide, hkey.notMem rfl, by decide, hvalue.notMem rfl, by decide⟩, by decide⟩
  have hclose : '}' ∉ rule.declarations.flatMap writeDeclaration ++ ['\n'] := by
    rw [List.mem_append, not_or]
    exact ⟨notMem_writeDeclarations hdeclarations rfl (by decide), by decide⟩
  have htrim : trim isBlank ("[".toList ++ (rule.key ++ ("=\"".toList ++ (rule.value ++
      "\"]".toList))) ++ " ".toList) =
        "[".toList ++ (rule.key ++ ("=\"".toList ++ (rule.value ++ "\"]".toList))) := by
    have htrim := @trim_around isBlank [] ("[".toList ++ (rule.key ++ ("=\"".toList ++
      (rule.value ++ "\"]".toList)))) " ".toList (by simp) (by simp [isBlank])
        (by simp [isBlank]) (by simp [List.getLast?_append, List.getLast?_cons, isBlank])
    exact htrim
  have hdecls : readDeclarations ((rule.declarations.flatMap writeDeclaration ++ ['\n']).length + 1)
      (rule.declarations.flatMap writeDeclaration ++ ['\n']) = some rule.declarations := by
    apply readDeclarations_write hdeclarations
    have hlength := length_le_writeDeclarations rule.declarations
    rw [List.length_append]
    omega
  have hblank : ¬ (rule.write.all isBlank = true) := by
    rw [List.all_eq_true]
    intro hall
    exact absurd (hall '[' (by simp [Rule.write])) (by decide)
  obtain ⟨left, hleft⟩ : ∃ left, rule.write.length = left + 1 := by
    refine ⟨rule.write.length - 1, ?_⟩
    rw [hsplit]
    simp only [List.length_append, List.length_cons]
    omega
  unfold read readRules
  rw [if_neg hblank, hleft, hsplit, List.append_assoc, List.cons_append, cut_append hbrace]
  dsimp only [bind, Option.bind]
  rw [htrim, readSelector_write hkey hvalue]
  dsimp only
  rw [cut_append hclose]
  dsimp only
  rw [hdecls]
  rfl

end Write

end Stra2us.Foundation.Css
