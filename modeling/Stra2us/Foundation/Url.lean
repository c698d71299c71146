import Mathlib.Data.List.DropRight
import Mathlib.Data.List.TakeWhile
import Stra2us.Foundation.Text

namespace Stra2us.Foundation.Url

-- How a browser resolves a reference against a base of scheme https. The names of the
-- states are those of the URL standard; what becomes of the path is left out, since the
-- states behind the authority do not fail.

-- The port is missing where it is the default one.
structure Origin (Host : Type) where
  host : Host
  port : Option Nat
deriving DecidableEq

section Characters

def isSlash (c : Char) : Bool :=
  c = '/' || c = '\\'

-- What ends an authority.
def isEnd (c : Char) : Bool :=
  isSlash c || c = '?' || c = '#'

def isControlOrSpace (c : Char) : Bool :=
  decide (c.toNat ≤ 0x20)

def isTabOrNewline (c : Char) : Bool :=
  c = '\t' || c = '\n' || c = '\r'

def cleaned (input : Text) : Text :=
  ((input.dropWhile isControlOrSpace).rdropWhile isControlOrSpace).filter
    fun c => !isTabOrNewline c

def isSchemeChar (c : Char) : Bool :=
  c.isAlphanum || c = '+' || c = '-' || c = '.'

def hasScheme : Text → Bool
  | c :: rest => c.isAlpha && (rest.dropWhile isSchemeChar).head? = some ':'
  | [] => false

end Characters

section States

variable {Host : Type} (parseHost : Text → Option Host)

def defaultPort : Nat := 443

def digitsValue (digits : Text) : Nat :=
  digits.foldl (fun value c => value * 10 + (c.toNat - 48)) 0

def portEnd (host : Host) (digits : Text) : Option (Origin Host) :=
  if digits = [] then some ⟨host, none⟩
  else if digitsValue digits > 0xffff then none
  else if digitsValue digits = defaultPort then some ⟨host, none⟩
  else some ⟨host, some (digitsValue digits)⟩

def portState (host : Host) : Text → Text → Option (Origin Host)
  | buffer, [] => portEnd host buffer
  | buffer, c :: rest =>
      if c.isDigit then portState host (buffer ++ [c]) rest
      else if isEnd c then portEnd host buffer
      else none

def hostEnd (buffer : Text) : Option (Origin Host) :=
  if buffer = [] then none else (parseHost buffer).map (⟨·, none⟩)

-- A colon between brackets belongs to the host.
def bracketed (inside : Bool) (c : Char) : Bool :=
  if c = '[' then true else if c = ']' then false else inside

def hostState : Text → Bool → Text → Option (Origin Host)
  | buffer, _, [] => hostEnd parseHost buffer
  | buffer, inside, c :: rest =>
      if c = ':' && !inside then
        if buffer = [] then none
        else (parseHost buffer).bind fun host => portState host [] rest
      else if isEnd c then hostEnd parseHost buffer
      else hostState (buffer ++ [c]) (bracketed inside c) rest

-- At the end of the authority the host state starts again behind the last `@`.
def authorityEnd (buffer : Text) (atSignSeen : Bool) (rest : Text) : Option (Origin Host) :=
  if atSignSeen && buffer = [] then none else hostState parseHost [] false (buffer ++ rest)

def authorityState : Text → Bool → Text → Option (Origin Host)
  | buffer, atSignSeen, [] => authorityEnd parseHost buffer atSignSeen []
  | buffer, atSignSeen, c :: rest =>
      if c = '@' then authorityState [] true rest
      else if isEnd c then authorityEnd parseHost buffer atSignSeen (c :: rest)
      else authorityState (buffer ++ [c]) atSignSeen rest

def specialAuthorityIgnoreSlashes : Text → Option (Origin Host)
  | [] => authorityState parseHost [] false []
  | c :: rest =>
      if isSlash c then specialAuthorityIgnoreSlashes rest
      else authorityState parseHost [] false (c :: rest)

variable (schemed : Text → Option (Origin Host)) (base : Origin Host)

def relativeSlash : Text → Option (Origin Host)
  | [] => some base
  | c :: rest => if isSlash c then specialAuthorityIgnoreSlashes parseHost rest else some base

-- A reference with a scheme of its own is left to `schemed`.
def resolve (input : Text) : Option (Origin Host) :=
  if hasScheme (cleaned input) then schemed (cleaned input)
  else
    match cleaned input with
    | [] => some base
    | c :: rest => if isSlash c then relativeSlash parseHost base rest else some base

end States

section Authorities

-- No colon outside of brackets.
def colonFree : Bool → Text → Bool
  | _, [] => true
  | inside, c :: rest => !(c = ':' && !inside) && colonFree (bracketed inside c) rest

def portText : Option Text → Text
  | none => []
  | some digits => ':' :: digits

-- `userinfo@host:port`, and what comes behind it.
structure Authority where
  userinfo : Text
  host : Text
  port : Option Text
  tail : Text
  userinfo_at : userinfo = [] ∨
    ∃ name, userinfo = name ++ ['@'] ∧ ∀ c ∈ name, isEnd c = false
  plain : ∀ c ∈ host ++ portText port, isEnd c = false ∧ c ≠ '@'
  host_colonFree : colonFree false host = true
  host_closed : port ≠ none → host.foldl bracketed false = false
  tail_end : ∀ c, tail.head? = some c → isEnd c = true

namespace Authority

def text (a : Authority) : Text :=
  a.userinfo ++ (a.host ++ portText a.port ++ a.tail)

-- No port, or digits that name one; the default one goes without saying.
def portNumber (a : Authority) : Option (Option Nat) :=
  match a.port with
  | none => some none
  | some digits =>
      if digits.all Char.isDigit then
        if digits = [] then some none
        else if digitsValue digits > 0xffff then none
        else if digitsValue digits = defaultPort then some none
        else some (some (digitsValue digits))
      else none

end Authority

-- The text starts with an authority that names this origin.
def Names {Host : Type} (parseHost : Text → Option Host) (origin : Origin Host) (input : Text) :
    Prop :=
  ∃ a : Authority, a.text = input ∧ a.host ≠ [] ∧
    parseHost a.host = some origin.host ∧ a.portNumber = some origin.port

end Authorities

section Splitting

-- By induction: the last `@` splits, or there is none.
theorem exists_userinfo (input : Text) (h : ∀ c ∈ input, isEnd c = false) :
    ∃ userinfo rest, input = userinfo ++ rest ∧ '@' ∉ rest ∧
      (userinfo = [] ∨ ∃ name, userinfo = name ++ ['@'] ∧ ∀ c ∈ name, isEnd c = false) := by
  induction input with
  | nil => exact ⟨[], [], rfl, List.not_mem_nil, .inl rfl⟩
  | cons c input ih =>
      have hrest : ∀ d ∈ input, isEnd d = false := fun d hd => h d (List.mem_cons_of_mem c hd)
      obtain ⟨userinfo, rest, rfl, hat, hname | ⟨name, rfl, hname⟩⟩ := ih hrest
      · subst hname
        by_cases hc : c = '@'
        · subst hc
          exact ⟨['@'], rest, rfl, hat, .inr ⟨[], rfl, fun d hd => by cases hd⟩⟩
        · refine ⟨[], c :: rest, rfl, ?_, .inl rfl⟩
          rw [List.mem_cons, not_or]
          exact ⟨fun heq => hc heq.symm, hat⟩
      · refine ⟨c :: (name ++ ['@']), rest, rfl, hat, .inr ⟨c :: name, rfl, ?_⟩⟩
        intro d hd
        rcases List.mem_cons.mp hd with rfl | hd
        · exact h d List.mem_cons_self
        · exact hname d hd

theorem exists_port (inside : Bool) (input : Text) :
    ∃ host port, input = host ++ portText port ∧ colonFree inside host = true ∧
      (port ≠ none → host.foldl bracketed inside = false) := by
  induction input generalizing inside with
  | nil => exact ⟨[], none, rfl, rfl, fun h => absurd rfl h⟩
  | cons c input ih =>
      by_cases hc : (c = ':' && !inside) = true
      · rw [Bool.and_eq_true, decide_eq_true_iff, Bool.not_eq_true'] at hc
        obtain ⟨rfl, rfl⟩ := hc
        exact ⟨[], some input, rfl, rfl, fun _ => rfl⟩
      · obtain ⟨host, port, rfl, hfree, hclosed⟩ := ih (bracketed inside c)
        refine ⟨c :: host, port, rfl, ?_, hclosed⟩
        rw [Bool.not_eq_true] at hc
        rw [colonFree, hc, hfree]
        rfl

theorem exists_authority (input : Text) : ∃ a : Authority, a.text = input := by
  have hplain : ∀ c ∈ input.takeWhile fun c => !isEnd c, isEnd c = false := by
    intro c hc
    have := List.mem_takeWhile_imp hc
    rwa [Bool.not_eq_true'] at this
  obtain ⟨userinfo, rest, hsplit, hat, huserinfo⟩ := exists_userinfo _ hplain
  obtain ⟨host, port, rfl, hfree, hclosed⟩ := exists_port false rest
  refine ⟨⟨userinfo, host, port, input.dropWhile fun c => !isEnd c, huserinfo, ?_, hfree, hclosed,
    ?_⟩, ?_⟩
  · intro c hc
    refine ⟨hplain c ?_, fun heq => hat (heq ▸ hc)⟩
    rw [hsplit]
    exact List.mem_append_right userinfo hc
  · intro c hc
    have := List.head?_dropWhile_not (fun c => !isEnd c) input
    rw [hc] at this
    simpa using this
  · change userinfo ++ (host ++ portText port ++ input.dropWhile fun c => !isEnd c) = input
    rw [← List.append_assoc, ← hsplit, List.takeWhile_append_dropWhile]

end Splitting

section Reading

variable {Host : Type} {parseHost : Text → Option Host} {origin : Origin Host}

theorem not_isDigit_of_isEnd {c : Char} (h : isEnd c = true) : c.isDigit = false := by
  unfold isEnd isSlash at h
  simp only [Bool.or_eq_true, decide_eq_true_iff] at h
  rcases h with ((rfl | rfl) | rfl) | rfl <;> rfl

theorem portState_digits (host : Host) (buffer digits : Text) {tail : Text}
    (hdigits : digits.all Char.isDigit = true) (htail : ∀ c, tail.head? = some c → isEnd c = true) :
    portState host buffer (digits ++ tail) = portEnd host (buffer ++ digits) := by
  induction digits generalizing buffer with
  | nil =>
      rw [List.nil_append, List.append_nil]
      cases tail with
      | nil => rfl
      | cons c tail =>
          have hend := htail c rfl
          rw [portState, not_isDigit_of_isEnd hend, if_neg Bool.false_ne_true, if_pos hend]
  | cons c digits ih =>
      rw [List.all_cons, Bool.and_eq_true] at hdigits
      rw [List.cons_append, portState, if_pos hdigits.1, ih (buffer ++ [c]) hdigits.2,
        List.append_assoc, List.singleton_append]

theorem portState_letter (host : Host) (buffer digits tail : Text)
    (hdigits : digits.all Char.isDigit = false) (hplain : ∀ c ∈ digits, isEnd c = false) :
    portState host buffer (digits ++ tail) = none := by
  induction digits generalizing buffer with
  | nil => cases hdigits
  | cons c digits ih =>
      rw [List.cons_append, portState]
      by_cases hc : c.isDigit = true
      · rw [List.all_cons, hc, Bool.true_and] at hdigits
        rw [if_pos hc]
        exact ih (buffer ++ [c]) hdigits fun d hd => hplain d (List.mem_cons_of_mem c hd)
      · rw [if_neg hc, hplain c List.mem_cons_self, if_neg Bool.false_ne_true]

theorem portState_port (a : Authority) {digits : Text} (hport : a.port = some digits)
    (host : Host) :
    portState host [] (digits ++ a.tail) = a.portNumber.map (⟨host, ·⟩) := by
  unfold Authority.portNumber
  rw [hport]
  dsimp only
  cases hdigits : digits.all Char.isDigit with
  | true =>
      rw [portState_digits host [] digits hdigits a.tail_end, List.nil_append, portEnd, if_pos rfl]
      split_ifs <;> rfl
  | false =>
      have hplain : ∀ c ∈ digits, isEnd c = false := by
        intro c hc
        apply (a.plain c _).1
        rw [hport]
        exact List.mem_append_right a.host (List.mem_cons_of_mem ':' hc)
      rw [portState_letter host [] digits a.tail hdigits hplain]
      rfl

-- By induction on what is read of the host.
theorem hostState_append (buffer : Text) (inside : Bool) (text rest : Text)
    (hfree : colonFree inside text = true) (hplain : ∀ c ∈ text, isEnd c = false) :
    hostState parseHost buffer inside (text ++ rest) =
      hostState parseHost (buffer ++ text) (text.foldl bracketed inside) rest := by
  induction text generalizing buffer inside with
  | nil => rw [List.nil_append, List.append_nil, List.foldl_nil]
  | cons c text ih =>
      rw [colonFree, Bool.and_eq_true, Bool.not_eq_true'] at hfree
      rw [List.cons_append, hostState, hfree.1, if_neg Bool.false_ne_true,
        hplain c List.mem_cons_self, if_neg Bool.false_ne_true,
        ih (buffer ++ [c]) (bracketed inside c) hfree.2
          fun d hd => hplain d (List.mem_cons_of_mem c hd),
        List.append_assoc, List.singleton_append, List.foldl_cons]

theorem hostState_tail (buffer : Text) (inside : Bool) {tail : Text}
    (htail : ∀ c, tail.head? = some c → isEnd c = true) :
    hostState parseHost buffer inside tail = hostEnd parseHost buffer := by
  cases tail with
  | nil => rfl
  | cons c tail =>
      have hend := htail c rfl
      have hcolon : c ≠ ':' := by
        rintro rfl
        cases hend
      rw [hostState, decide_eq_false hcolon, Bool.false_and, if_neg Bool.false_ne_true, if_pos hend]

-- What the machine makes of an authority behind its user information.
def Authority.read (parseHost : Text → Option Host) (a : Authority) : Option (Origin Host) :=
  if a.host = [] then none
  else (parseHost a.host).bind fun host => a.portNumber.map (⟨host, ·⟩)

theorem hostState_authority (a : Authority) :
    hostState parseHost [] false (a.host ++ portText a.port ++ a.tail) = a.read parseHost := by
  have hplain : ∀ c ∈ a.host, isEnd c = false :=
    fun c hc => (a.plain c (List.mem_append_left _ hc)).1
  rw [List.append_assoc, hostState_append [] false a.host _ a.host_colonFree hplain,
    List.nil_append, Authority.read]
  cases hport : a.port with
  | none =>
      rw [portText, List.nil_append, hostState_tail _ _ a.tail_end, hostEnd, Authority.portNumber,
        hport]
      by_cases hhost : a.host = []
      · rw [if_pos hhost, if_pos hhost]
      · rw [if_neg hhost, if_neg hhost]
        cases parseHost a.host with
        | none => rfl
        | some host => rfl
  | some digits =>
      have hclosed := a.host_closed (by rw [hport]; exact Option.some_ne_none digits)
      rw [portText, hclosed, List.cons_append, hostState]
      simp only [portState_port a hport]
      rfl

theorem authorityState_plain (buffer : Text) (atSignSeen : Bool) {text rest : Text}
    (hplain : ∀ c ∈ text, isEnd c = false ∧ c ≠ '@') :
    authorityState parseHost buffer atSignSeen (text ++ rest) =
      authorityState parseHost (buffer ++ text) atSignSeen rest := by
  induction text generalizing buffer with
  | nil => rw [List.nil_append, List.append_nil]
  | cons c text ih =>
      obtain ⟨hend, hat⟩ := hplain c List.mem_cons_self
      rw [List.cons_append, authorityState, if_neg hat, hend, if_neg Bool.false_ne_true,
        ih (buffer ++ [c]) fun d hd => hplain d (List.mem_cons_of_mem c hd),
        List.append_assoc, List.singleton_append]

theorem authorityState_name (buffer : Text) (atSignSeen : Bool) {name rest : Text}
    (hname : ∀ c ∈ name, isEnd c = false) :
    authorityState parseHost buffer atSignSeen (name ++ '@' :: rest) =
      authorityState parseHost [] true rest := by
  induction name generalizing buffer atSignSeen with
  | nil => rw [List.nil_append, authorityState, if_pos rfl]
  | cons c name ih =>
      have hrest : ∀ d ∈ name, isEnd d = false := fun d hd => hname d (List.mem_cons_of_mem c hd)
      rw [List.cons_append, authorityState, hname c List.mem_cons_self, if_neg Bool.false_ne_true]
      by_cases hat : c = '@'
      · rw [if_pos hat, ih [] true hrest]
      · rw [if_neg hat, ih (buffer ++ [c]) atSignSeen hrest]

theorem authorityState_tail (buffer : Text) (atSignSeen : Bool) {tail : Text}
    (htail : ∀ c, tail.head? = some c → isEnd c = true) :
    authorityState parseHost buffer atSignSeen tail =
      authorityEnd parseHost buffer atSignSeen tail := by
  cases tail with
  | nil => rfl
  | cons c tail =>
      have hend := htail c rfl
      have hat : c ≠ '@' := by
        rintro rfl
        cases hend
      rw [authorityState, if_neg hat, if_pos hend]

theorem authorityEnd_authority (a : Authority) (atSignSeen : Bool) :
    authorityEnd parseHost (a.host ++ portText a.port) atSignSeen a.tail =
      a.read parseHost := by
  rw [authorityEnd, hostState_authority]
  by_cases hempty : a.host ++ portText a.port = []
  · have hhost := (List.append_eq_nil_iff.mp hempty).1
    rw [Authority.read, if_pos hhost, ite_self]
  · rw [decide_eq_false hempty, Bool.and_false, if_neg Bool.false_ne_true]

theorem authorityState_text (a : Authority) :
    authorityState parseHost [] false a.text = a.read parseHost := by
  have hrest : ∀ atSignSeen, authorityState parseHost [] atSignSeen
      (a.host ++ portText a.port ++ a.tail) = a.read parseHost := by
    intro atSignSeen
    rw [authorityState_plain [] atSignSeen a.plain, List.nil_append,
      authorityState_tail _ _ a.tail_end, authorityEnd_authority]
  unfold Authority.text
  rcases a.userinfo_at with huser | ⟨name, huser, hname⟩
  · rw [huser, List.nil_append, hrest]
  · rw [huser, List.append_assoc, List.singleton_append, authorityState_name [] false hname, hrest]

theorem Authority.read_eq_some (a : Authority) :
    a.read parseHost = some origin ↔
      a.host ≠ [] ∧ parseHost a.host = some origin.host ∧ a.portNumber = some origin.port := by
  unfold Authority.read
  by_cases hhost : a.host = []
  · rw [if_pos hhost]
    exact iff_of_false (fun h => by cases h) fun h => h.1 hhost
  · rw [if_neg hhost, Option.bind_eq_some_iff]
    constructor
    · rintro ⟨host, hparse, hport⟩
      obtain ⟨port, hnumber, rfl⟩ := Option.map_eq_some_iff.mp hport
      exact ⟨hhost, hparse, hnumber⟩
    · rintro ⟨-, hparse, hnumber⟩
      exact ⟨origin.host, hparse, by rw [hnumber]; rfl⟩

-- The machine reads an origin exactly where the grammar finds it.
theorem authorityState_iff (input : Text) :
    authorityState parseHost [] false input = some origin ↔ Names parseHost origin input := by
  constructor
  · intro hstate
    obtain ⟨a, rfl⟩ := exists_authority input
    rw [authorityState_text] at hstate
    exact ⟨a, rfl, a.read_eq_some.mp hstate⟩
  · rintro ⟨a, rfl, hnames⟩
    rw [authorityState_text]
    exact a.read_eq_some.mpr hnames

theorem specialAuthorityIgnoreSlashes_eq (input : Text) :
    specialAuthorityIgnoreSlashes parseHost input =
      authorityState parseHost [] false (input.dropWhile isSlash) := by
  induction input with
  | nil => rfl
  | cons c input ih =>
      rw [specialAuthorityIgnoreSlashes, List.dropWhile_cons]
      by_cases hc : isSlash c = true
      · rw [if_pos hc, if_pos hc, ih]
      · rw [if_neg hc, if_neg hc]

end Reading

section Resolution

variable {Host : Type} {parseHost : Text → Option Host} {schemed : Text → Option (Origin Host)}
  {base : Origin Host} {input : Text}

theorem hasScheme_slash {c : Char} (hc : isSlash c = true) (rest : Text) :
    hasScheme (c :: rest) = false := by
  unfold isSlash at hc
  simp only [Bool.or_eq_true, decide_eq_true_iff] at hc
  rcases hc with rfl | rfl <;> rfl

theorem cleaned_of_printable (h : ∀ c ∈ input, isControlOrSpace c = false) :
    cleaned input = input := by
  have hleft : input.dropWhile isControlOrSpace = input := by
    rw [List.dropWhile_eq_self_iff]
    intro hl
    rw [h _ (List.getElem_mem hl)]
    exact Bool.false_ne_true
  have hright : input.rdropWhile isControlOrSpace = input := by
    rw [List.rdropWhile_eq_self_iff]
    intro hl
    rw [h _ (List.getLast_mem hl)]
    exact Bool.false_ne_true
  unfold cleaned
  rw [hleft, hright, List.filter_eq_self]
  intro c hc
  have hspace := h c hc
  rw [Bool.not_eq_true']
  unfold isTabOrNewline
  unfold isControlOrSpace at hspace
  rw [decide_eq_false_iff_not] at hspace
  have hne : c ≠ '\t' ∧ c ≠ '\n' ∧ c ≠ '\r' := by
    refine ⟨?_, ?_, ?_⟩ <;> rintro rfl <;> exact hspace (by decide)
  simp [hne.1, hne.2.1, hne.2.2]

-- One slash keeps the base's origin.
theorem resolve_path {rest : Text} (hprintable : ∀ c ∈ '/' :: rest, isControlOrSpace c = false)
    (hrest : ∀ c, rest.head? = some c → isSlash c = false) :
    resolve parseHost schemed base ('/' :: rest) = some base := by
  unfold resolve
  rw [cleaned_of_printable hprintable, hasScheme_slash rfl, if_neg Bool.false_ne_true]
  dsimp only
  rw [if_pos (show isSlash '/' = true from rfl)]
  cases rest with
  | nil => rfl
  | cons c rest => rw [relativeSlash, hrest c rfl, if_neg Bool.false_ne_true]

-- Two go on to an authority.
theorem resolve_network {rest : Text}
    (hprintable : ∀ c ∈ '/' :: '/' :: rest, isControlOrSpace c = false) :
    resolve parseHost schemed base ('/' :: '/' :: rest) = some base ↔
      Names parseHost base (rest.dropWhile isSlash) := by
  unfold resolve
  rw [cleaned_of_printable hprintable, hasScheme_slash rfl, if_neg Bool.false_ne_true]
  dsimp only
  have hslash : isSlash '/' = true := rfl
  rw [if_pos hslash, relativeSlash, if_pos hslash, specialAuthorityIgnoreSlashes_eq, authorityState_iff]

end Resolution

end Stra2us.Foundation.Url
