import Stra2us.Server.Wire

namespace Stra2us.Server

open Foundation

section Decimal

-- A number that another's text ends in differs from it by a power of ten above its digits.
theorem natText_suffix {m n : Nat} {front : Text} (h : natText n = front ++ natText m) :
    n = m ∨ m + 10 ^ (natText m).length ≤ n := by
  have hvalue := congrArg (fun text => Nat.ofDigitChars 10 text 0) h
  simp only [natText, Nat.ofDigitChars_append, Nat.ofDigitChars_ten_toDigits] at hvalue
  rw [Nat.ofDigitChars_eq_ofDigitChars_zero, Nat.ofDigitChars_ten_toDigits] at hvalue
  cases hlead : Nat.ofDigitChars 10 front 0 with
  | zero =>
      left
      rw [hlead] at hvalue
      omega
  | succ lead =>
      right
      rw [hlead, Nat.mul_succ] at hvalue
      simp only [natText]
      omega

theorem length_natText {n digits : Nat} (hdigits : 0 < digits) (h : 10 ^ digits ≤ n) :
    digits < (natText n).length := by
  have hle := @Nat.length_toDigits_le_iff 10 n digits (by omega) hdigits
  unfold natText
  omega

theorem natText_ascii {n : Nat} {c : Char} (h : c ∈ natText n) : c.toNat < 128 := by
  have hrange := Char.isDigit_iff_toNat.mp (isDigit_of_mem_natText h)
  have hlast : '9'.toNat = 57 := rfl
  omega

theorem charOfNat_asciiByte {c : Char} (h : c.toNat < 128) :
    Char.ofNat (UInt8.ofNat c.toNat).toNat = c := by
  have hbyte : (UInt8.ofNat c.toNat).toNat = c.toNat := by
    simp only [UInt8.toNat_ofNat']
    omega
  rw [hbyte, Char.ofNat_toNat]

-- In ASCII the bytes end in another text's bytes only where the text ends in that text.
theorem ascii_suffix {text rest : Text} {front : Bytes} (htext : ∀ c ∈ text, c.toNat < 128)
    (hrest : ∀ c ∈ rest, c.toNat < 128) (h : utf8 text = front ++ utf8 rest) :
    ∃ before, text = before ++ rest := by
  have hread (chars : Text) (hchars : ∀ c ∈ chars, c.toNat < 128) :
      (utf8 chars).map (fun byte => Char.ofNat byte.toNat) = chars := by
    rw [utf8_of_ascii hchars, List.map_map]
    exact (List.map_congr_left fun c hc => charOfNat_asciiByte (hchars c hc)).trans
      (List.map_id _)
  refine ⟨front.map fun byte => Char.ofNat byte.toNat, ?_⟩
  rw [← hread text htext, h, List.map_append, hread rest hrest]

-- Three digits are enough to tell apart times that are less than a thousand seconds apart.
theorem timestamp_of_suffix {m n : Nat} {front : Bytes} (hm : 100 ≤ m) (hnear : n < m + 1000)
    (h : utf8 (natText n) = front ++ utf8 (natText m)) : n = m := by
  obtain ⟨before, hbefore⟩ :=
    ascii_suffix (fun c hc => natText_ascii hc) (fun c hc => natText_ascii hc) h
  rcases natText_suffix hbefore with heq | hfar
  · exact heq
  · have hlength : 2 < (natText m).length := length_natText (by omega) (by omega)
    have hpow : 10 ^ 3 ≤ 10 ^ (natText m).length := Nat.pow_le_pow_right (by omega) hlength
    omega

end Decimal

section Prefix

-- A text is the start of another when its bytes are.
theorem prefix_of_utf8 {text extended : Text} {rest : Bytes}
    (h : utf8 extended = utf8 text ++ rest) :
    ∃ moved, extended = text ++ moved ∧ rest = utf8 moved := by
  have hbytes : text.utf8Encode ++ rest.toByteArray = extended.utf8Encode := by
    rw [← toByteArray_utf8, ← toByteArray_utf8, h, List.toByteArray_append]
  obtain ⟨moved, rfl⟩ := List.isPrefix_of_utf8Encode_append_eq_utf8Encode _ hbytes
  refine ⟨moved, rfl, ?_⟩
  rw [utf8_append] at h
  exact (List.append_cancel_left h).symm

-- Two texts run into what follows them alike exactly when one is the other and a start of what
-- follows that.
theorem utf8_append_eq_iff {path path' : Text} {body body' : Bytes} :
    utf8 path ++ body = utf8 path' ++ body' ↔
      ∃ moved, path = path' ++ moved ∧ body' = utf8 moved ++ body ∨
        path' = path ++ moved ∧ body = utf8 moved ++ body' := by
  constructor
  · intro h
    rcases List.append_eq_append_iff.mp h with ⟨rest, hpath, hbody⟩ | ⟨rest, hpath, hbody⟩
    · obtain ⟨moved, hmoved, rfl⟩ := prefix_of_utf8 hpath
      exact ⟨moved, .inr ⟨hmoved, hbody⟩⟩
    · obtain ⟨moved, hmoved, rfl⟩ := prefix_of_utf8 hpath
      exact ⟨moved, .inl ⟨hmoved, hbody⟩⟩
  · rintro ⟨moved, ⟨rfl, rfl⟩ | ⟨rfl, rfl⟩⟩
    · rw [utf8_append, List.append_assoc]
    · rw [utf8_append, List.append_assoc]

end Prefix

-- What a device request is verified by, apart from its secret and its signature.
@[ext]
structure SigningInput where
  path : Text
  body : Bytes
  timestamp : Int
deriving DecidableEq, Repr

namespace SigningInput

def hashed (input : SigningInput) : Bytes :=
  signingPayload input.path input.body input.timestamp

-- It comes in on a device path and while the clock lets its timestamp through.
structure Presentable (clock : Int) (input : SigningInput) : Prop where
  routed : "/kv/".toList <+: input.path ∨ "/q/".toList <+: input.path
  fresh : verifyTimestamp clock input.timestamp = true

-- A part of a path stands at the start of the other body.
def Moved (a b : SigningInput) : Prop :=
  ∃ moved, a.path = b.path ++ moved ∧ b.body = utf8 moved ++ a.body

variable {clock : Int} {a b : SigningInput}

theorem timestamp_eq {front front' : Bytes} (hclock : 400 ≤ clock) (ha : a.Presentable clock)
    (hb : b.Presentable clock)
    (h : front ++ utf8 (intText a.timestamp) = front' ++ utf8 (intText b.timestamp)) :
    a.timestamp = b.timestamp := by
  have hfresh : (clock - a.timestamp).natAbs ≤ 300 := of_decide_eq_true ha.fresh
  have hfresh' : (clock - b.timestamp).natAbs ≤ 300 := of_decide_eq_true hb.fresh
  obtain ⟨m, hm⟩ := Int.eq_ofNat_of_zero_le (show 0 ≤ a.timestamp by omega)
  obtain ⟨n, hn⟩ := Int.eq_ofNat_of_zero_le (show 0 ≤ b.timestamp by omega)
  rw [hm, hn] at h ⊢
  -- The text on the shorter side is what the longer one ends in.
  rcases List.append_eq_append_iff.mp h with ⟨rest, -, hsuffix⟩ | ⟨rest, -, hsuffix⟩
  · rw [timestamp_of_suffix (by omega) (by omega) hsuffix]
  · rw [timestamp_of_suffix (by omega) (by omega) hsuffix]

theorem Moved.eq_of_length (h : a.Moved b) (htime : a.timestamp = b.timestamp)
    (hlength : a.path.length = b.path.length ∨ a.body.length = b.body.length) : a = b := by
  obtain ⟨moved, hpath, hbody⟩ := h
  have hnil : moved = [] := by
    have hpath' := congrArg List.length hpath
    have hbody' := congrArg List.length hbody
    rw [List.length_append] at hpath' hbody'
    rcases hlength with hlength | hlength
    · exact List.eq_nil_of_length_eq_zero (by omega)
    · apply utf8_injective
      exact List.eq_nil_of_length_eq_zero (by omega)
  rw [hnil, List.append_nil] at hpath
  rw [hnil, utf8_nil, List.nil_append] at hbody
  exact SigningInput.ext hpath hbody.symm htime

-- Nothing but the place where the path ends and the body begins is left open by what is hashed.
theorem hashed_eq_iff (hclock : 400 ≤ clock) (ha : a.Presentable clock)
    (hb : b.Presentable clock) :
    (a.hashed = b.hashed ↔ a.timestamp = b.timestamp ∧ (a.Moved b ∨ b.Moved a)) ∧
      (a.path.length = b.path.length ∨ a.body.length = b.body.length →
        a.hashed = b.hashed → a = b) := by
  have hiff : a.hashed = b.hashed ↔ a.timestamp = b.timestamp ∧ (a.Moved b ∨ b.Moved a) := by
    have hconcat := @utf8_append_eq_iff a.path b.path a.body b.body
    rw [exists_or] at hconcat
    unfold hashed signingPayload Moved
    rw [← hconcat]
    constructor
    · intro h
      have htime := timestamp_eq hclock ha hb h
      rw [htime] at h
      exact ⟨htime, List.append_cancel_right h⟩
    · rintro ⟨htime, hconcat⟩
      rw [htime, hconcat]
  refine ⟨hiff, ?_⟩
  intro hlength h
  obtain ⟨htime, hmoved⟩ := hiff.mp h
  rcases hmoved with hmoved | hmoved
  · exact hmoved.eq_of_length htime hlength
  · exact (hmoved.eq_of_length htime.symm (by omega)).symm

-- Two writes of one record, in each order of their paths.
def longPath : SigningInput := ⟨"/kv/ab".toList, [], 1700000000⟩

def longBody : SigningInput := ⟨"/kv/a".toList, utf8 ['b'], 1700000000⟩

theorem longPath_hashed : longPath.hashed = longBody.hashed ↔
    longPath.timestamp = longBody.timestamp ∧
      (longPath.Moved longBody ∨ longBody.Moved longPath) :=
  (@hashed_eq_iff 1700000000 longPath longBody (by decide) ⟨.inl (by decide), rfl⟩
    ⟨.inl (by decide), rfl⟩).1

-- A path runs into its body, and before the clock has three digits to spare a body runs into
-- its timestamp.
theorem inputs_run_together :
    (longPath.Presentable 1700000000 ∧ longBody.Presentable 1700000000 ∧
      longPath.hashed = longBody.hashed ∧ longPath ≠ longBody) ∧
    ∃ early early' : SigningInput, early.Presentable 100 ∧ early'.Presentable 100 ∧
      early.hashed = early'.hashed ∧ early.timestamp ≠ early'.timestamp := by
  refine ⟨⟨⟨.inl (by decide), rfl⟩, ⟨.inl (by decide), rfl⟩, rfl, by decide⟩, ?_⟩
  exact ⟨⟨"/kv/a".toList, utf8 ['1'], 0⟩, ⟨"/kv/a".toList, [], 10⟩, ⟨.inl (by decide), rfl⟩,
    ⟨.inl (by decide), rfl⟩, rfl, by decide⟩

end SigningInput

end Stra2us.Server
