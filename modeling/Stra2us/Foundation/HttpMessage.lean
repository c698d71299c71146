import Stra2us.Foundation.Text
import Mathlib.Algebra.BigOperators.Group.List.Basic

namespace Stra2us.Foundation.HttpMessage

-- A request of HTTP/1.1, as a server reads it off a connection that stays open.
structure Message where
  method : Bytes
  target : Bytes
  headers : List (Bytes × Bytes)
  body : Bytes
deriving DecidableEq, Repr

section Grammar

def lower (b : UInt8) : UInt8 :=
  if 65 ≤ b ∧ b ≤ 90 then b + 32 else b

def isVisible (b : UInt8) : Bool :=
  33 ≤ b && b ≤ 126

def isBlank (b : UInt8) : Bool :=
  b = 32 || b = 9

-- The bytes of a name: letters, digits and fifteen marks.
def isToken (b : UInt8) : Bool :=
  (48 ≤ b && b ≤ 57) || (65 ≤ b && b ≤ 90) || (97 ≤ b && b ≤ 122) ||
    b ∈ utf8 "!#$%&'*+-.^_|~".toList || b = 96

-- The bytes of a value; a control byte other than the tab is refused.
def isField (b : UInt8) : Bool :=
  isBlank b || (33 ≤ b && b ≠ 127)

def crlf : Bytes := [13, 10]

def version : Bytes := utf8 "HTTP/1.1".toList

def contentLength : Bytes := utf8 "content-length".toList

def transferEncoding : Bytes := utf8 "transfer-encoding".toList

-- A header's bytes are taken for the characters of the same numbers.
def latin1 (bytes : Bytes) : Text :=
  bytes.map fun b => Char.ofNat b.toNat

end Grammar

section Read

-- A line ends at its first carriage return, which a line feed follows.
def cutLine (bytes : Bytes) : Option (Bytes × Bytes) :=
  match bytes.dropWhile (· ≠ 13) with
  | 13 :: 10 :: rest => some (bytes.takeWhile (· ≠ 13), rest)
  | _ => none

def readRequestLine (line : Bytes) : Option (Bytes × Bytes) :=
  let method := line.takeWhile (· ≠ 32)
  let behind := (line.dropWhile (· ≠ 32)).drop 1
  let target := behind.takeWhile (· ≠ 32)
  if behind.dropWhile (· ≠ 32) = 32 :: version ∧ method ≠ [] ∧ method.all isToken ∧
      target ≠ [] ∧ target.all isVisible then some (method, target)
  else none

def trimBlanks (value : Bytes) : Bytes :=
  ((value.dropWhile isBlank).reverse.dropWhile isBlank).reverse

def readHeader (line : Bytes) : Option (Bytes × Bytes) :=
  match line.takeWhile isToken, line.dropWhile isToken with
  | first :: name, 58 :: value =>
      let value := trimBlanks value
      if value.all isField then some ((first :: name).map lower, value) else none
  | _, _ => none

-- The headers up to the empty line.
def readHeaders : Nat → Bytes → Option (List (Bytes × Bytes) × Bytes)
  | 0, _ => none
  | fuel + 1, bytes =>
      match cutLine bytes with
      | none => none
      | some ([], rest) => some ([], rest)
      | some (line, rest) => do
          let header ← readHeader line
          let (headers, rest) ← readHeaders fuel rest
          some (header :: headers, rest)

-- How long the body is: nothing is said of it, or one decimal number. No body comes in chunks.
def bodyLength (headers : List (Bytes × Bytes)) : Option Nat :=
  if headers.any fun header => header.1 = transferEncoding then none
  else
    match (headers.filter fun header => header.1 = contentLength).map Prod.snd with
    | [] => some 0
    | [value] => decimalNat (latin1 value)
    | _ => none

-- One request, and what stands behind it.
def read (bytes : Bytes) : Option (Message × Bytes) := do
  let (line, rest) ← cutLine bytes
  let (method, target) ← readRequestLine line
  let (headers, rest) ← readHeaders (rest.length + 1) rest
  let length ← bodyLength headers
  if length ≤ rest.length then some (⟨method, target, headers, rest.take length⟩, rest.drop length)
  else none

end Read

section Write

def headerLine (header : Bytes × Bytes) : Bytes :=
  header.1 ++ utf8 ": ".toList ++ header.2 ++ crlf

def Message.write (m : Message) : Bytes :=
  m.method ++ 32 :: (m.target ++ 32 :: (version ++ crlf)) ++
    (m.headers.map headerLine).flatten ++ crlf ++ m.body

-- The names as they are looked up.
def Message.lowered (m : Message) : Message :=
  { m with headers := m.headers.map fun header => (header.1.map lower, header.2) }

structure WritableHeader (header : Bytes × Bytes) : Prop where
  named : header.1 ≠ []
  name : ∀ b ∈ header.1, isToken b
  value : ∀ b ∈ header.2, isField b
  first : ∀ b ∈ header.2.head?, isBlank b = false
  last : ∀ b ∈ header.2.getLast?, isBlank b = false

structure Message.Writable (m : Message) : Prop where
  method_ne : m.method ≠ []
  method : ∀ b ∈ m.method, isToken b
  target_ne : m.target ≠ []
  target : ∀ b ∈ m.target, isVisible b
  headers : ∀ header ∈ m.headers, WritableHeader header
  whole : bodyLength m.lowered.headers = some m.body.length

end Write

section Lines

theorem cutLine_append {line : Bytes} (hline : 13 ∉ line) (rest : Bytes) :
    cutLine (line ++ crlf ++ rest) = some (line, rest) := by
  have hall : ∀ b ∈ line, decide (b ≠ 13) = true := by
    intro b hb
    simp only [ne_eq, decide_not, Bool.not_eq_eq_eq_not, Bool.not_true, decide_eq_false_iff_not]
    exact fun h => hline (h ▸ hb)
  have hdrop : (line ++ crlf ++ rest).dropWhile (· ≠ 13) = 13 :: 10 :: rest := by
    rw [List.append_assoc, List.dropWhile_append_of_pos hall]
    rfl
  have htake : (line ++ crlf ++ rest).takeWhile (· ≠ 13) = line := by
    rw [List.append_assoc, List.takeWhile_append_of_pos hall]
    simp [crlf]
  unfold cutLine
  rw [hdrop, htake]
  rfl

theorem isToken_ne {b c : UInt8} (h : isToken b) (hc : isToken c = false) : b ≠ c := by
  rintro rfl
  rw [h] at hc
  cases hc

theorem isVisible_ne {b c : UInt8} (h : isVisible b) (hc : isVisible c = false) : b ≠ c := by
  rintro rfl
  rw [h] at hc
  cases hc

theorem isField_ne {b c : UInt8} (h : isField b) (hc : isField c = false) : b ≠ c := by
  rintro rfl
  rw [h] at hc
  cases hc

theorem takeWhile_space {front : Bytes} (hfront : 32 ∉ front) (rest : Bytes) :
    (front ++ 32 :: rest).takeWhile (· ≠ 32) = front ∧
      (front ++ 32 :: rest).dropWhile (· ≠ 32) = 32 :: rest := by
  have hall : ∀ b ∈ front, decide (b ≠ 32) = true := by
    intro b hb
    simp only [ne_eq, decide_not, Bool.not_eq_eq_eq_not, Bool.not_true, decide_eq_false_iff_not]
    exact fun h => hfront (h ▸ hb)
  rw [List.takeWhile_append_of_pos hall, List.dropWhile_append_of_pos hall]
  simp

theorem readRequestLine_write {m : Message} (h : m.Writable) :
    readRequestLine (m.method ++ 32 :: (m.target ++ 32 :: version)) =
      some (m.method, m.target) := by
  have hmethod : 32 ∉ m.method := fun hb => isToken_ne (h.method 32 hb) (c := 32) (by decide) rfl
  have htarget : 32 ∉ m.target :=
    fun hb => isVisible_ne (h.target 32 hb) (c := 32) (by decide) rfl
  obtain ⟨htake, hdrop⟩ := takeWhile_space hmethod (m.target ++ 32 :: version)
  obtain ⟨htake', hdrop'⟩ := takeWhile_space htarget version
  have hbehind : (32 :: (m.target ++ 32 :: version)).drop 1 = m.target ++ 32 :: version := rfl
  unfold readRequestLine
  rw [htake, hdrop, hbehind]
  dsimp only
  rw [htake', hdrop', if_pos]
  exact ⟨rfl, h.method_ne, List.all_eq_true.mpr h.method, h.target_ne,
    List.all_eq_true.mpr h.target⟩

-- Blanks around a value that neither begins nor ends with one are taken off again.
theorem trimBlanks_blank {value : Bytes} (hfirst : ∀ b ∈ value.head?, isBlank b = false)
    (hlast : ∀ b ∈ value.getLast?, isBlank b = false) : trimBlanks (32 :: value) = value := by
  have hfront : (32 :: value).dropWhile isBlank = value := by
    rw [List.dropWhile_cons_of_pos (by decide)]
    cases value with
    | nil => rfl
    | cons b value => exact List.dropWhile_cons_of_neg (by simp [hfirst b rfl])
  have hback : value.reverse.dropWhile isBlank = value.reverse := by
    cases hrev : value.reverse with
    | nil => rfl
    | cons b more =>
        have hb : b ∈ value.getLast? := by
          rw [List.getLast?_eq_head?_reverse, hrev]
          rfl
        exact List.dropWhile_cons_of_neg (by simp [hlast b hb])
  rw [trimBlanks, hfront, hback, List.reverse_reverse]

theorem readHeader_write {header : Bytes × Bytes} (h : WritableHeader header) :
    readHeader (header.1 ++ utf8 ": ".toList ++ header.2) =
      some (header.1.map lower, header.2) := by
  obtain ⟨name, value⟩ := header
  have hcolon : utf8 ": ".toList = [58, 32] := by decide
  have hsplit : name ++ utf8 ": ".toList ++ value = name ++ 58 :: 32 :: value := by
    rw [hcolon, List.append_assoc]
    rfl
  have htake : (name ++ 58 :: 32 :: value).takeWhile isToken = name := by
    rw [List.takeWhile_append_of_pos h.name, List.takeWhile_cons_of_neg (by decide),
      List.append_nil]
  have hdrop : (name ++ 58 :: 32 :: value).dropWhile isToken = 58 :: 32 :: value := by
    rw [List.dropWhile_append_of_pos h.name, List.dropWhile_cons_of_neg (by decide)]
  obtain ⟨first, more, hname⟩ := List.exists_cons_of_ne_nil h.named
  dsimp only at hname
  unfold readHeader
  dsimp only
  rw [hsplit, htake, hdrop, hname]
  have htrim : trimBlanks (32 :: value) = value := trimBlanks_blank h.first h.last
  change (if (trimBlanks (32 :: value)).all isField then _ else _) = _
  rw [htrim, if_pos (List.all_eq_true.mpr h.value)]

theorem WritableHeader.line {header : Bytes × Bytes} (h : WritableHeader header) :
    13 ∉ header.1 ++ utf8 ": ".toList ++ header.2 ∧
      header.1 ++ utf8 ": ".toList ++ header.2 ≠ [] := by
  constructor
  · simp only [List.mem_append, not_or]
    refine ⟨⟨fun hb => isToken_ne (h.name 13 hb) (c := 13) (by decide) rfl, by decide⟩, ?_⟩
    exact fun hb => isField_ne (h.value 13 hb) (c := 13) (by decide) rfl
  · simp [h.named]

-- By induction on the headers: each is read from the front of the rest.
theorem readHeaders_write {headers : List (Bytes × Bytes)}
    (h : ∀ header ∈ headers, WritableHeader header) {fuel : Nat} (hfuel : headers.length < fuel)
    (rest : Bytes) :
    readHeaders fuel ((headers.map headerLine).flatten ++ crlf ++ rest) =
      some (headers.map fun header => (header.1.map lower, header.2), rest) := by
  induction headers generalizing fuel with
  | nil =>
      cases fuel with
      | zero => omega
      | succ fuel =>
          have hcut := @cutLine_append [] (by simp) rest
          rw [List.nil_append] at hcut
          unfold readHeaders
          rw [List.map_nil, List.flatten_nil, List.nil_append, hcut]
          rfl
  | cons header headers ih =>
      cases fuel with
      | zero => omega
      | succ fuel =>
          obtain ⟨hline, hne⟩ := (h header List.mem_cons_self).line
          have hrest := @ih (fun other hother => h other (List.mem_cons_of_mem _ hother)) fuel
            (by rw [List.length_cons] at hfuel; omega)
          have hcut := cutLine_append hline
            ((headers.map headerLine).flatten ++ crlf ++ rest)
          have hbytes : ((header :: headers).map headerLine).flatten ++ crlf ++ rest =
              header.1 ++ utf8 ": ".toList ++ header.2 ++ crlf ++
                ((headers.map headerLine).flatten ++ crlf ++ rest) := by
            simp [headerLine]
          obtain ⟨first, more, hcons⟩ := List.exists_cons_of_ne_nil hne
          have hread := readHeader_write (h header List.mem_cons_self)
          rw [hcons] at hcut hread
          unfold readHeaders
          rw [hbytes, hcons, hcut]
          dsimp only
          rw [hread, hrest]
          rfl

end Lines

section RoundTrip

-- What is written is read as itself, and nothing of what stands behind it is.
theorem read_write {m : Message} (h : m.Writable) (rest : Bytes) :
    read (m.write ++ rest) = some (m.lowered, rest) := by
  have hline : 13 ∉ m.method ++ 32 :: (m.target ++ 32 :: version) := by
    simp only [List.mem_append, List.mem_cons, not_or]
    refine ⟨fun hb => isToken_ne (h.method 13 hb) (c := 13) (by decide) rfl, by decide,
      fun hb => isVisible_ne (h.target 13 hb) (c := 13) (by decide) rfl, by decide, by decide⟩
  let behind := (m.headers.map headerLine).flatten ++ crlf ++ (m.body ++ rest)
  have hbytes : m.write ++ rest =
      m.method ++ 32 :: (m.target ++ 32 :: version) ++ crlf ++ behind := by
    simp [Message.write, behind]
  have hfuel : m.headers.length < behind.length + 1 := by
    have hle : m.headers.length ≤ ((m.headers.map headerLine).flatten).length := by
      rw [List.length_flatten, List.map_map]
      have hsum := List.length_le_sum_of_one_le (m.headers.map (List.length ∘ headerLine)) (by
        intro n hn
        obtain ⟨header, -, rfl⟩ := List.mem_map.mp hn
        simp only [Function.comp_apply, headerLine, crlf, List.length_append, List.length_cons]
        omega)
      rwa [List.length_map] at hsum
    simp only [behind, List.length_append]
    omega
  have hheaders := readHeaders_write h.headers hfuel (m.body ++ rest)
  unfold read
  rw [hbytes, cutLine_append hline behind]
  simp only [Option.bind_eq_bind, Option.bind_some]
  rw [readRequestLine_write h]
  simp only [Option.bind_some]
  rw [hheaders]
  simp only [Option.bind_some]
  have hwhole : bodyLength (m.headers.map fun header => (header.1.map lower, header.2)) =
      some m.body.length := h.whole
  rw [hwhole]
  simp only [Option.bind_some]
  rw [if_pos (by simp), List.take_left, List.drop_left]
  rfl

end RoundTrip

end Stra2us.Foundation.HttpMessage
