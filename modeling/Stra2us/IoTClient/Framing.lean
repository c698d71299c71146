import Stra2us.IoTClient.Reader

namespace Stra2us.IoTClient

open Foundation Server

section Response

def isTokenByte (b : UInt8) : Bool :=
  33 ≤ b && b ≤ 126 && b ≠ 58

def isContentLength (name : Bytes) : Bool :=
  name.map toLower = utf8 "content-length".toList

-- A number in decimal digits with blanks around it.
def SaysLength (value : Bytes) (n : Nat) : Prop :=
  ∃ before digits after, value = before ++ digits ++ after ∧ (∀ b ∈ before, b = 32 ∨ b = 9) ∧
    (∀ b ∈ after, b = 32 ∨ b = 9) ∧ digits ≠ [] ∧ (∀ b ∈ digits, isDigitByte b) ∧
    digitsValue digits = n

-- A complete response: it says how long its body is, or is a 204, which has none.
structure HttpResponse where
  statusDigits : Bytes
  reason : Bytes
  headers : List (Bytes × Bytes)
  body : Bytes
  threeDigits : statusDigits.length = 3
  digits : ∀ b ∈ statusDigits, isDigitByte b
  reasonLine : 10 ∉ reason
  named : ∀ header ∈ headers, header.1 ≠ []
  names : ∀ header ∈ headers, ∀ b ∈ header.1, isTokenByte b
  values : ∀ header ∈ headers, 10 ∉ header.2
  lengths : ∀ header ∈ headers, isContentLength header.1 → SaysLength header.2 body.length
  framed : (∃ header ∈ headers, isContentLength header.1) ∨
    digitsValue statusDigits = 204 ∧ body = []

namespace HttpResponse

def statusCode (response : HttpResponse) : Nat :=
  digitsValue response.statusDigits

def statusLine (response : HttpResponse) : Bytes :=
  utf8 "HTTP/1.1 ".toList ++ response.statusDigits ++ 32 :: response.reason ++ [13, 10]

def headerLine (header : Bytes × Bytes) : Bytes :=
  header.1 ++ 58 :: header.2 ++ [13, 10]

def lines (response : HttpResponse) : List Bytes :=
  response.statusLine :: response.headers.map headerLine

def bytes (response : HttpResponse) : Bytes :=
  response.lines.flatten ++ [13, 10] ++ response.body

-- However its bytes come in, the loop is left behind the last of them with the status.
def FramedRight (response : HttpResponse) : Prop :=
  ∀ (call : Call) (lastResponseTs : UInt32) (socket : List (Option UInt8)) (next : Bytes),
    bytesOf socket = response.bytes ++ next →
      ∃ consumed rest r, socket = consumed ++ rest ∧ bytesOf consumed = response.bytes ∧
        readLoop call (.start call.memory lastResponseTs) socket = some (.left r rest) ∧
        r.statusCode = response.statusCode

end HttpResponse

end Response

section Numbers

theorem toInt_digits {before digits tail : Bytes} (hbefore : ∀ b ∈ before, isBlankByte b)
    (hne : digits ≠ []) (hdigits : ∀ b ∈ digits, isDigitByte b)
    (htail : ∀ b ∈ tail.head?, isDigitByte b = false) :
    toInt (before ++ digits ++ tail) = clampLong (digitsValue digits) := by
  obtain ⟨first, more, rfl⟩ := List.exists_cons_of_ne_nil hne
  have hfirst := hdigits first (by simp)
  have hrange : 48 ≤ first.toNat ∧ first.toNat ≤ 57 := by
    unfold isDigitByte at hfirst
    rw [Bool.and_eq_true, decide_eq_true_eq, decide_eq_true_eq, UInt8.le_iff_toNat_le,
      UInt8.le_iff_toNat_le] at hfirst
    exact hfirst
  have hne (b : UInt8) (hb : b.toNat < 48) : first ≠ b := by
    rintro rfl
    omega
  have hblank : isBlankByte first = false := by
    unfold isBlankByte
    rw [Bool.or_eq_false_iff, Bool.and_eq_false_iff, decide_eq_false_iff_not,
      decide_eq_false_iff_not, decide_eq_false_iff_not, UInt8.le_iff_toNat_le,
      UInt8.le_iff_toNat_le]
    refine ⟨.inr ?_, hne 32 (by decide)⟩
    simp only [UInt8.reduceToNat]
    omega
  have hdrop : (before ++ first :: more ++ tail).dropWhile isBlankByte = first :: more ++ tail := by
    rw [List.append_assoc, List.dropWhile_append_of_pos hbefore, List.cons_append,
      List.dropWhile_cons_of_neg (by rw [hblank]; decide)]
  have htake : (first :: more ++ tail).takeWhile isDigitByte = first :: more := by
    rw [List.takeWhile_append_of_pos hdigits]
    cases tail with
    | nil => simp
    | cons b rest =>
        rw [List.takeWhile_cons_of_neg (by rw [htail b rfl]; decide), List.append_nil]
  unfold toInt
  rw [hdrop]
  split
  · rename_i heq
    exact absurd (List.cons.inj heq).1 (hne 45 (by decide))
  · rename_i heq
    exact absurd (List.cons.inj heq).1 (hne 43 (by decide))
  · rw [htake]

theorem clampLong_small {n : Nat} (h : n ≤ intMax) : clampLong n = n := by
  unfold clampLong
  omega

theorem clampLong_large {n : Nat} (h : intMax ≤ n) : clampLong n = intMax := by
  unfold clampLong
  omega

end Numbers

section Lines

variable {response : HttpResponse} {header : Bytes × Bytes}

theorem toLower_colon {b : UInt8} : toLower b = 58 ↔ b = 58 := by
  have hall : ∀ n : Fin 256, toLower (UInt8.ofNat n) = 58 ↔ UInt8.ofNat n = 58 := by decide +kernel
  simpa using hall ⟨b.toNat, b.toNat_lt⟩

-- Up to the first colon both sides are the name.
theorem startsWith_name {name rest : Bytes} {known : String} (hname : 58 ∉ name)
    (hknown : 58 ∉ utf8 known.toList) :
    (utf8 known.toList ++ [58]).isPrefixOf (name ++ 58 :: rest) = true ↔
      name = utf8 known.toList := by
  have hfront (front tail : Bytes) (h : 58 ∉ front) :
      (front ++ 58 :: tail).takeWhile (· ≠ 58) = front := by
    rw [List.takeWhile_append_of_pos]
    · simp
    · intro b hb
      have hne : b ≠ 58 := fun heq => h (heq ▸ hb)
      simpa using hne
  rw [List.isPrefixOf_iff_prefix]
  constructor
  · rintro ⟨tail, htail⟩
    rw [List.append_assoc, List.singleton_append] at htail
    have hboth := congrArg (List.takeWhile (· ≠ 58)) htail
    rw [hfront _ _ hknown, hfront _ _ hname] at hboth
    exact hboth.symm
  · rintro rfl
    exact ⟨rest, by simp⟩

theorem colon_notMem_name (hname : ∀ b ∈ header.1, isTokenByte b) :
    58 ∉ header.1.map toLower := by
  intro hmem
  obtain ⟨b, hb, heq⟩ := List.mem_map.mp hmem
  rw [toLower_colon] at heq
  have htoken := hname b hb
  rw [heq] at htoken
  exact absurd htoken (by decide)

theorem isDigitByte_range {b : UInt8} (h : isDigitByte b) : 48 ≤ b.toNat ∧ b.toNat ≤ 57 := by
  unfold isDigitByte at h
  rw [Bool.and_eq_true, decide_eq_true_eq, decide_eq_true_eq, UInt8.le_iff_toNat_le,
    UInt8.le_iff_toNat_le] at h
  exact h

theorem toLower_small {b : UInt8} (h : b.toNat < 65) : toLower b = b := by
  unfold toLower
  rw [if_neg]
  rintro ⟨hle, -⟩
  rw [UInt8.le_iff_toNat_le] at hle
  simp only [UInt8.reduceToNat] at hle
  omega

theorem map_toLower_small {bytes : Bytes} (h : ∀ b ∈ bytes, b.toNat < 65) :
    bytes.map toLower = bytes := by
  rw [List.map_congr_left fun b hb => toLower_small (h b hb), List.map_id']

theorem toInt_lengthValue {value : Bytes} {n : Nat} (h : SaysLength value n) :
    toInt ((value ++ [13, 10]).map toLower) = clampLong n := by
  obtain ⟨before, digits, after, rfl, hbefore, hafter, hne, hdigits, rfl⟩ := h
  have hows {bytes : Bytes} (h : ∀ b ∈ bytes, b = 32 ∨ b = 9) : ∀ b ∈ bytes, b.toNat < 65 := by
    intro b hb
    rcases h b hb with rfl | rfl
    · decide
    · decide
  have hsmall : ∀ b ∈ before ++ digits ++ after ++ [13, 10], b.toNat < 65 := by
    intro b hb
    simp only [List.mem_append, List.mem_cons, List.not_mem_nil, or_false] at hb
    rcases hb with ((hb | hb) | hb) | rfl | rfl
    · exact hows hbefore b hb
    · have hrange := isDigitByte_range (hdigits b hb)
      omega
    · exact hows hafter b hb
    · decide
    · decide
  have hblank : ∀ b ∈ before, isBlankByte b := by
    intro b hb
    rcases hbefore b hb with rfl | rfl
    · rfl
    · rfl
  have hstop : ∀ b ∈ (after ++ [13, 10]).head?, isDigitByte b = false := by
    intro b hb
    cases after with
    | nil =>
        obtain rfl := Option.some.inj hb
        rfl
    | cons first rest =>
        obtain rfl := Option.some.inj hb
        rcases hafter first (by simp) with rfl | rfl
        · rfl
        · rfl
  rw [map_toLower_small hsmall, List.append_assoc]
  exact toInt_digits hblank hne hdigits hstop

-- What one header says, read behind any other.
theorem lengthAfter_header {n : Nat} (hname : ∀ b ∈ header.1, isTokenByte b)
    (hlength : isContentLength header.1 → SaysLength header.2 n) (before : Int) :
    lengthAfter before (HttpResponse.headerLine header) =
      if isContentLength header.1 then clampLong n else before := by
  have hline : (HttpResponse.headerLine header).map toLower =
      header.1.map toLower ++ 58 :: (header.2 ++ [13, 10]).map toLower := by
    unfold HttpResponse.headerLine
    rw [List.append_assoc, List.map_append]
    rfl
  have hknown : utf8 "content-length:".toList = utf8 "content-length".toList ++ [58] := by
    decide
  have hstarts : startsWith ((HttpResponse.headerLine header).map toLower) "content-length:" =
      isContentLength header.1 := by
    unfold startsWith isContentLength
    rw [hline, hknown, Bool.eq_iff_iff,
      startsWith_name (colon_notMem_name hname) (by decide), decide_eq_true_eq]
  unfold lengthAfter
  dsimp only
  rw [hstarts]
  by_cases hcontent : isContentLength header.1 = true
  · have hname' : header.1.map toLower = utf8 "content-length".toList := of_decide_eq_true hcontent
    have hfifteen : (utf8 "content-length".toList ++ [58]).length = 15 := by decide
    have hdrop : ((HttpResponse.headerLine header).map toLower).drop 15 =
        (header.2 ++ [13, 10]).map toLower := by
      have hsplit : header.1.map toLower ++ 58 :: (header.2 ++ [13, 10]).map toLower =
          (utf8 "content-length".toList ++ [58]) ++ (header.2 ++ [13, 10]).map toLower := by
        rw [hname', List.append_assoc, List.singleton_append]
      rw [hline, hsplit, ← hfifteen, List.drop_left]
    rw [if_pos hcontent, if_pos hcontent, hdrop]
    exact toInt_lengthValue (hlength hcontent)
  · rw [if_neg hcontent, if_neg hcontent]

theorem foldl_lengthAfter {n : Nat} (headers : List (Bytes × Bytes))
    (hnames : ∀ header ∈ headers, ∀ b ∈ header.1, isTokenByte b)
    (hlengths : ∀ header ∈ headers, isContentLength header.1 → SaysLength header.2 n)
    (before : Int) :
    (headers.map HttpResponse.headerLine).foldl lengthAfter before =
      if headers.any fun header => isContentLength header.1 then clampLong n else before := by
  induction headers generalizing before with
  | nil => rfl
  | cons header headers ih =>
      rw [List.forall_mem_cons] at hnames hlengths
      rw [List.map_cons, List.foldl_cons, ih hnames.2 hlengths.2,
        lengthAfter_header hnames.1 hlengths.1, List.any_cons]
      cases isContentLength header.1 with
      | true => simp
      | false =>
          rw [Bool.false_or]
          rfl

theorem lengthAfter_statusLine (response : HttpResponse) (before : Int) :
    lengthAfter before response.statusLine = before := by
  have hfirst : ∃ rest, response.statusLine.map toLower = 104 :: rest := ⟨_, rfl⟩
  obtain ⟨rest, hrest⟩ := hfirst
  have hstarts : startsWith (response.statusLine.map toLower) "content-length:" = false := by
    rw [hrest]
    rfl
  unfold lengthAfter
  dsimp only
  rw [hstarts]
  rfl

theorem announcedLength_lines (response : HttpResponse) :
    announcedLength response.lines =
      if response.headers.any fun header => isContentLength header.1 then
        clampLong response.body.length else -1 := by
  unfold announcedLength HttpResponse.lines
  rw [List.foldl_cons, lengthAfter_statusLine,
    foldl_lengthAfter response.headers response.names response.lengths]

theorem isLine_header (hne : header.1 ≠ []) (hname : ∀ b ∈ header.1, isTokenByte b)
    (hvalue : 10 ∉ header.2) : IsLine (HttpResponse.headerLine header) where
  ends := by
    refine ⟨header.1 ++ 58 :: header.2 ++ [13], by simp [HttpResponse.headerLine], ?_⟩
    have hname' : 10 ∉ header.1 := by
      intro hmem
      exact absurd (hname 10 hmem) (by decide)
    simp [hname', hvalue]
  notBlank := by
    obtain ⟨first, more, hfirst⟩ := List.exists_cons_of_ne_nil hne
    have htoken := hname first (by rw [hfirst]; simp)
    have hcons : HttpResponse.headerLine header =
        first :: (more ++ 58 :: header.2 ++ [13, 10]) := by
      simp [HttpResponse.headerLine, hfirst]
    unfold isBlankLine
    rw [hcons, Bool.or_eq_false_iff, decide_eq_false_iff_not, decide_eq_false_iff_not]
    constructor
    · intro heq
      rw [(List.cons.inj heq).1] at htoken
      exact absurd htoken (by decide)
    · intro heq
      rw [(List.cons.inj heq).1] at htoken
      exact absurd htoken (by decide)

theorem isLine_statusLine (response : HttpResponse) : IsLine response.statusLine where
  ends := by
    refine ⟨utf8 "HTTP/1.1 ".toList ++ response.statusDigits ++ 32 :: response.reason ++ [13],
      by simp [HttpResponse.statusLine], ?_⟩
    have hversion : 10 ∉ utf8 "HTTP/1.1 ".toList := by decide
    have hdigits : 10 ∉ response.statusDigits := by
      intro hmem
      exact absurd (response.digits 10 hmem) (by decide)
    intro hmem
    simp only [List.mem_append, List.mem_cons, List.not_mem_nil, or_false] at hmem
    rcases hmem with ((hmem | hmem) | hmem | hmem) | hmem
    · exact hversion hmem
    · exact hdigits hmem
    · exact absurd hmem (by decide)
    · exact response.reasonLine hmem
    · exact absurd hmem (by decide)
  notBlank := rfl

theorem isLine_lines (response : HttpResponse) : ∀ line ∈ response.lines, IsLine line := by
  intro line hline
  rcases List.mem_cons.mp hline with rfl | hline
  · exact isLine_statusLine response
  · obtain ⟨header, hheader, rfl⟩ := List.mem_map.mp hline
    exact isLine_header (response.named header hheader) (response.names header hheader)
      (response.values header hheader)

end Lines

section Status

theorem indexOf_append {b : UInt8} {front tail : Bytes} (hb : b ≠ 0) (hzero : 0 ∉ front)
    (hfront : b ∉ front) : indexOf b (front ++ b :: tail) = some front.length := by
  have hseen : (front ++ b :: tail).takeWhile (· ≠ 0) =
      front ++ b :: tail.takeWhile (· ≠ 0) := by
    rw [List.takeWhile_append_of_pos]
    · simp [hb]
    · intro d hd
      have hne : d ≠ 0 := fun heq => hzero (heq ▸ hd)
      simpa using hne
  have htake : (front ++ b :: tail.takeWhile (· ≠ 0)).takeWhile (· ≠ b) = front := by
    rw [List.takeWhile_append_of_pos]
    · simp
    · intro d hd
      have hne : d ≠ b := fun heq => hfront (heq ▸ hd)
      simpa using hne
  unfold indexOf
  simp only [hseen, htake]
  rw [if_pos (by simp)]

theorem digitsValue_three {digits : Bytes} (h : digits.length = 3)
    (hdigits : ∀ b ∈ digits, isDigitByte b) : digitsValue digits ≤ 999 := by
  match digits, h with
  | [a, b, c], _ =>
      have ha := isDigitByte_range (hdigits a (by simp))
      have hb := isDigitByte_range (hdigits b (by simp))
      have hc := isDigitByte_range (hdigits c (by simp))
      simp only [digitsValue, List.foldl_cons, List.foldl_nil]
      omega

theorem parseStatus_statusLine (response : HttpResponse) (before : Int) :
    parseStatus response.statusLine before = response.statusCode := by
  have hdigits (b : UInt8) (hb : isDigitByte b = false) : b ∉ response.statusDigits := by
    intro hmem
    rw [response.digits b hmem] at hb
    cases hb
  have hversion : utf8 "HTTP/1.1 ".toList = utf8 "HTTP/1.1".toList ++ [32] := by decide
  have height : (utf8 "HTTP/1.1".toList).length = 8 := by decide
  have hline : response.statusLine = utf8 "HTTP/1.1".toList ++
      32 :: (response.statusDigits ++ 32 :: (response.reason ++ [13, 10])) := by
    rw [HttpResponse.statusLine, hversion]
    simp only [List.append_assoc, List.cons_append, List.nil_append]
  have hfirst : indexOf 32 response.statusLine = some 8 := by
    rw [hline, indexOf_append (by decide) (by decide) (by decide), height]
  have hpart : response.statusLine.drop (8 + 1) =
      response.statusDigits ++ 32 :: (response.reason ++ [13, 10]) := by
    rw [hline, ← height, ← List.drop_drop, List.drop_left]
    rfl
  have hsecond := @indexOf_append 32 response.statusDigits (response.reason ++ [13, 10])
    (by decide) (hdigits 0 (by decide)) (hdigits 32 (by decide))
  have hne : response.statusDigits ≠ [] := by
    intro hnil
    have hthree := response.threeDigits
    rw [hnil] at hthree
    cases hthree
  have hvalue := @toInt_digits [] response.statusDigits [] (by simp) hne response.digits (by simp)
  have hsmall := digitsValue_three response.threeDigits response.digits
  rw [List.nil_append, List.append_nil,
    clampLong_small (by unfold intMax; omega)] at hvalue
  unfold parseStatus
  rw [hfirst]
  dsimp only
  rw [hpart, hsecond]
  dsimp only
  rw [List.take_left, hvalue]
  rfl

theorem statusCode_foldl {r : Reader} (hfirst : r.isFirstLine = false) (lines : List Bytes) :
    (lines.foldl nextLine r).statusCode = r.statusCode ∧
      (lines.foldl nextLine r).isFirstLine = false := by
  induction lines generalizing r with
  | nil => exact ⟨rfl, hfirst⟩
  | cons line lines ih =>
      obtain ⟨hstatus, hagain⟩ := @ih (nextLine r line) isFirstLine_nextLine
      rw [statusCode_nextLine, hfirst] at hstatus
      exact ⟨hstatus, hagain⟩

end Status

section Exit

variable {call : Call} {lastResponseTs : UInt32}

-- Behind the head and its blank line the reader knows the status and what was said of the length.
theorem feed_response (call : Call) (lastResponseTs : UInt32) (response : HttpResponse)
    (rest : Bytes) :
    ∃ r, r.isBody = true ∧ r.readHead = 0 ∧ Fits call r ∧
      r.contentLength = announcedLength response.lines ∧ r.statusCode = response.statusCode ∧
      feed call (.start call.memory lastResponseTs) (response.lines.flatten ++ [13, 10] ++ rest) =
        if announcedLength response.lines = 0 then some (.left r rest) else feed call r rest := by
  obtain ⟨r, hbody, hhead, hbuffer, hlength, hstatus, hfeed⟩ :=
    feed_head call lastResponseTs (isLine_lines response)
      (show isBlankLine [13, 10] = true from rfl) rest
  refine ⟨r, hbody, hhead, fits_of_buffer hbuffer, hlength, ?_, hfeed⟩
  have hrest := @statusCode_foldl (nextLine (.start call.memory lastResponseTs)
    response.statusLine) isFirstLine_nextLine (response.headers.map HttpResponse.headerLine)
  rw [statusCode_nextLine] at hrest
  change _ = (if true = true then parseStatus _ _ else _) ∧ _ at hrest
  rw [if_pos rfl, parseStatus_statusLine] at hrest
  exact (hstatus (List.cons_ne_nil _ _)).trans hrest.1

theorem takeIn_statusCode (r : Reader) (bytes : Bytes) :
    (bytes.foldl (takeIn call) r).statusCode = r.statusCode := by
  induction bytes generalizing r with
  | nil => rfl
  | cons c bytes ih => exact ih (takeIn call r c)

-- A length that fits: the loop is left at the end of the body.
theorem feed_exact {response : HttpResponse}
    (hheader : response.headers.any fun header => isContentLength header.1)
    (hsmall : response.body.length ≤ intMax) (call : Call) (lastResponseTs : UInt32)
    (next : Bytes) :
    ∃ r : Reader, r.statusCode = response.statusCode ∧
      feed call (.start call.memory lastResponseTs) (response.bytes ++ next) =
        some (.left r next) := by
  obtain ⟨r, hbody, hhead, hfits, hlength, hstatus, hfeed⟩ :=
    feed_response call lastResponseTs response (response.body ++ next)
  have hannounced : announcedLength response.lines = response.body.length := by
    rw [announcedLength_lines, if_pos hheader, clampLong_small hsmall]
  have hbytes : response.bytes ++ next =
      response.lines.flatten ++ [13, 10] ++ (response.body ++ next) := by
    rw [HttpResponse.bytes, List.append_assoc]
  rw [hannounced] at hlength hfeed
  rw [hbytes, hfeed]
  by_cases hempty : response.body = []
  · refine ⟨r, hstatus, ?_⟩
    rw [hempty]
    rfl
  · have hpos := List.length_pos_of_ne_nil hempty
    refine ⟨response.body.foldl (takeIn call) r, (takeIn_statusCode _ _).trans hstatus, ?_⟩
    rw [if_neg (by omega)]
    exact feed_announced hbody hfits hempty (by rw [hlength, hhead, Nat.zero_add])
      (by omega) next

-- A length that an `int` does not hold: the loop is left before the end.
theorem feed_clamped {response : HttpResponse}
    (hheader : response.headers.any fun header => isContentLength header.1)
    (hlarge : intMax < response.body.length) (call : Call) (lastResponseTs : UInt32) :
    ∃ r rest, rest ≠ [] ∧
      feed call (.start call.memory lastResponseTs) response.bytes = some (.left r rest) := by
  obtain ⟨r, hbody, hhead, hfits, hlength, hstatus, hfeed⟩ :=
    feed_response call lastResponseTs response response.body
  have hannounced : announcedLength response.lines = intMax := by
    rw [announcedLength_lines, if_pos hheader, clampLong_large (Nat.le_of_lt hlarge)]
  have htaken : (response.body.take intMax).length = intMax := by
    rw [List.length_take]
    omega
  have hpos : 0 < intMax := by decide
  rw [hannounced] at hlength hfeed
  refine ⟨(response.body.take intMax).foldl (takeIn call) r, response.body.drop intMax, ?_, ?_⟩
  · rw [List.ne_nil_iff_length_pos, List.length_drop]
    omega
  · rw [HttpResponse.bytes, hfeed, if_neg (by omega)]
    have hroom : r.readHead + (response.body.take intMax).length ≤ intMax := by
      rw [hhead, htaken]
      omega
    have hexit := feed_announced hbody hfits (List.ne_nil_iff_length_pos.mpr (by omega))
      (by rw [hlength, hhead, Nat.zero_add, htaken]) hroom (response.body.drop intMax)
    rwa [List.take_append_drop] at hexit

theorem bytesOf_some (bytes : Bytes) : bytesOf (bytes.map some) = bytes := by
  simp [bytesOf]

-- No length: the loop goes on behind the response.
theorem readLoop_silent {response : HttpResponse}
    (hheader : (response.headers.any fun header => isContentLength header.1) = false)
    (hbody : response.body = []) (call : Call) (lastResponseTs : UInt32) :
    ∃ r, readLoop call (.start call.memory lastResponseTs) (response.bytes.map some) =
      some (.waiting r) := by
  obtain ⟨r, -, -, -, -, -, hfeed⟩ := feed_response call lastResponseTs response response.body
  have hannounced : announcedLength response.lines = -1 := by
    rw [announcedLength_lines, hheader]
    rfl
  rw [hannounced, if_neg (by decide)] at hfeed
  obtain ⟨-, hwaiting, -⟩ :=
    readLoop_feed call (.start call.memory lastResponseTs) (response.bytes.map some)
  refine ⟨r, hwaiting r ?_⟩
  rw [bytesOf_some, HttpResponse.bytes, hfeed, hbody]
  rfl

def noBuffer : Call where
  memory := none
  hasOutLen := false
  maxLen := 0
  fits := by
    intro object h
    cases h

-- The loop is left on the response exactly when it says its length, and an `int` holds it.
theorem framedRight_iff (response : HttpResponse) :
    response.FramedRight ↔ (∃ header ∈ response.headers, isContentLength header.1) ∧
      response.body.length < 2 ^ 31 := by
  have hany : (∃ header ∈ response.headers, isContentLength header.1) ↔
      response.headers.any fun header => isContentLength header.1 := by
    rw [List.any_eq_true]
  have hmax : response.body.length < 2 ^ 31 ↔ response.body.length ≤ intMax := by
    unfold intMax
    omega
  rw [hany, hmax]
  constructor
  · intro h
    have hself : bytesOf (response.bytes.map some) = response.bytes ++ [] := by
      rw [bytesOf_some, List.append_nil]
    obtain ⟨consumed, rest, r, hsocket, hconsumed, hrun, -⟩ := h noBuffer 0 _ [] hself
    rw [List.append_nil] at hself
    by_cases hheader : response.headers.any fun header => isContentLength header.1
    · refine ⟨hheader, ?_⟩
      by_contra hlarge
      obtain ⟨r', bytes, hne, hfeed⟩ := feed_clamped hheader (by omega) noBuffer 0
      obtain ⟨-, -, hleft⟩ :=
        readLoop_feed noBuffer (.start noBuffer.memory 0) (response.bytes.map some)
      rw [hself] at hleft
      obtain ⟨consumed', rest', hsocket', hrest', hrun'⟩ := hleft r' bytes hfeed
      rw [hrun'] at hrun
      obtain ⟨-, rfl⟩ := Run.left.inj (Option.some.inj hrun)
      have hall := congrArg bytesOf hsocket
      rw [hself, bytesOf, List.filterMap_append, ← bytesOf, ← bytesOf, hconsumed, hrest'] at hall
      exact hne (List.append_right_eq_self.mp hall.symm)
    · have hnone := Bool.eq_false_iff.mpr hheader
      have hbody : response.body = [] := by
        rcases response.framed with hframed | hframed
        · exact absurd (hany.mp hframed) hheader
        · exact hframed.2
      obtain ⟨r', hwaiting⟩ := readLoop_silent hnone hbody noBuffer 0
      rw [hwaiting] at hrun
      cases hrun
  · rintro ⟨hheader, hsmall⟩ call lastResponseTs socket next hsocket
    obtain ⟨r, hstatus, hfeed⟩ := feed_exact hheader hsmall call lastResponseTs next
    rw [← hsocket] at hfeed
    obtain ⟨-, -, hleft⟩ := readLoop_feed call (.start call.memory lastResponseTs) socket
    obtain ⟨consumed, rest, rfl, hrest, hrun⟩ := hleft r next hfeed
    refine ⟨consumed, rest, r, rfl, ?_, hrun, hstatus⟩
    rw [bytesOf, List.filterMap_append, ← bytesOf, ← bytesOf, hrest] at hsocket
    exact List.append_cancel_right hsocket

-- The answer of an empty queue.
def noContent : HttpResponse where
  statusDigits := utf8 "204".toList
  reason := utf8 "No Content".toList
  headers := [(utf8 "server".toList, utf8 " uvicorn".toList)]
  body := []
  threeDigits := by decide +kernel
  digits := by decide +kernel
  reasonLine := by decide +kernel
  named := by decide +kernel
  names := by decide +kernel
  values := by decide +kernel
  lengths := by
    intro header hheader hlength
    obtain rfl := List.mem_singleton.mp hheader
    exact absurd hlength (by decide +kernel)
  framed := .inr ⟨by decide, rfl⟩

theorem noContent_not_framedRight : ¬ noContent.FramedRight := by
  intro h
  obtain ⟨consumed, rest, r, -, -, hrun, -⟩ := h noBuffer 0 (noContent.bytes.map some) []
    (by rw [bytesOf_some, List.append_nil])
  obtain ⟨r', hwaiting⟩ := @readLoop_silent noContent (by decide) rfl noBuffer 0
  rw [hwaiting] at hrun
  cases hrun

end Exit

end Stra2us.IoTClient
