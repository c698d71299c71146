import Stra2us.Foundation.Msgpack
namespace Stra2us.Foundation.Msgpack

-- The bytes of a text or of a binary value.
def bytesOf : Value → Option Bytes
  | .str text => some (utf8 text)
  | .bytes data => some data
  | _ => none

-- What the two modes read of the same input: the same bytes, or neither of them any.
def Agree (plain raw : Option (Value × Bytes)) : Prop :=
  ∀ value rest, plain = some (value, rest) →
    (∀ data, bytesOf value = some data → raw = some (.bytes data, rest)) ∧
      (bytesOf value = none → ∀ other left, raw = some (other, left) → bytesOf other = none)

theorem agree_none (raw : Option (Value × Bytes)) : Agree none raw := by
  intro value rest h
  cases h

theorem agree_of_none {plain raw : Option (Value × Bytes)}
    (hplain : ∀ value rest, plain = some (value, rest) → bytesOf value = none)
    (hraw : ∀ value rest, raw = some (value, rest) → bytesOf value = none) : Agree plain raw := by
  intro value rest h
  refine ⟨fun data hdata => ?_, fun _ => hraw⟩
  rw [hplain value rest h] at hdata
  cases hdata

theorem agree_bin (n : Nat) (bytes : Bytes) : Agree (decodeBin n bytes) (decodeBin n bytes) := by
  intro value rest h
  refine ⟨fun data hdata => ?_, fun hnone => ?_⟩
  · unfold decodeBin at h ⊢
    cases htake : takeBytes n bytes with
    | none =>
        rw [htake] at h
        cases h
    | some taken =>
        rw [htake] at h
        obtain ⟨rfl, rfl⟩ := Prod.mk.inj (Option.some.inj h)
        obtain rfl := Option.some.inj hdata
        rfl
  · intro other left hother
    rw [h] at hother
    obtain ⟨rfl, -⟩ := Prod.mk.inj (Option.some.inj hother)
    exact hnone

theorem agree_str (n : Nat) (bytes : Bytes) :
    Agree (decodeStr false n bytes) (decodeStr true n bytes) := by
  intro value rest h
  unfold decodeStr at h ⊢
  cases htake : takeBytes n bytes with
  | none =>
      rw [htake] at h
      cases h
  | some taken =>
      rw [htake] at h
      change (makeStr false taken.1).bind (fun value => some (value, taken.2)) = _ at h
      obtain ⟨made, hmade, hvalue⟩ := Option.bind_eq_some_iff.mp h
      obtain ⟨rfl, rfl⟩ := Prod.mk.inj (Option.some.inj hvalue)
      obtain ⟨text, htext, rfl⟩ := Option.map_eq_some_iff.mp hmade
      refine ⟨fun data hdata => ?_, fun hnone => ?_⟩
      · obtain rfl := Option.some.inj hdata
        change some (Value.bytes taken.1, taken.2) = _
        rw [utf8_of_utf8Decode htext]
      · cases hnone


-- An array, a map or an extension holds no bytes of its own.
theorem bytesOf_of_array {inner : Option (Bytes → Option (Value × Bytes))} {n : Nat}
    {bytes rest : Bytes} {value : Value} (h : decodeArray inner n bytes = some (value, rest)) :
    bytesOf value = none := by
  simp only [decodeArray, Option.bind_eq_bind, Option.bind_eq_some_iff] at h
  obtain ⟨_, -, _, -, hvalue⟩ := h
  rw [← (Prod.mk.inj (Option.some.inj hvalue)).1]
  rfl

theorem bytesOf_of_map {inner : Option (Bytes → Option (Value × Bytes))} {n : Nat}
    {bytes rest : Bytes} {value : Value} (h : decodeMap inner n bytes = some (value, rest)) :
    bytesOf value = none := by
  simp only [decodeMap, Option.bind_eq_bind, Option.bind_eq_some_iff] at h
  obtain ⟨_, -, _, -, hvalue⟩ := h
  rw [← (Prod.mk.inj (Option.some.inj hvalue)).1]
  rfl

theorem bytesOf_of_ext {n : Nat} {bytes rest : Bytes} {value : Value}
    (h : decodeExt n bytes = some (value, rest)) : bytesOf value = none := by
  simp only [decodeExt, Option.bind_eq_bind, Option.bind_eq_some_iff] at h
  obtain ⟨_, -, _, -, made, hmake, hvalue⟩ := h
  rw [← (Prod.mk.inj (Option.some.inj hvalue)).1]
  unfold makeExt at hmake
  split at hmake
  · rw [← Option.some.inj hmake]
    rfl
  split at hmake
  · obtain ⟨seconds, nanoseconds, rfl⟩ := makeTimestamp_eq hmake
    rfl
  · cases hmake

theorem agree_array (inner inner' : Option (Bytes → Option (Value × Bytes))) (n : Nat)
    (bytes : Bytes) : Agree (decodeArray inner n bytes) (decodeArray inner' n bytes) :=
  agree_of_none (fun _ _ => bytesOf_of_array) fun _ _ => bytesOf_of_array

theorem agree_map (inner inner' : Option (Bytes → Option (Value × Bytes))) (n : Nat)
    (bytes : Bytes) : Agree (decodeMap inner n bytes) (decodeMap inner' n bytes) :=
  agree_of_none (fun _ _ => bytesOf_of_map) fun _ _ => bytesOf_of_map

theorem agree_ext (n : Nat) (bytes : Bytes) : Agree (decodeExt n bytes) (decodeExt n bytes) :=
  agree_of_none (fun _ _ => bytesOf_of_ext) fun _ _ => bytesOf_of_ext

theorem agree_sized (width : Nat) (bytes : Bytes) {plain raw : Nat → Bytes → Option (Value × Bytes)}
    (h : ∀ n rest, Agree (plain n rest) (raw n rest)) :
    Agree ((readUint width bytes).bind fun (n, rest) => plain n rest)
      ((readUint width bytes).bind fun (n, rest) => raw n rest) := by
  cases readUint width bytes with
  | none => exact agree_none _
  | some sized => exact h sized.1 sized.2

theorem agree_number {α : Type} (read : Option α) (f : α → Value × Bytes)
    (hf : ∀ a, bytesOf (f a).1 = none) : Agree (read.map f) (read.map f) := by
  have hnone (value : Value) (rest : Bytes) (h : read.map f = some (value, rest)) :
      bytesOf value = none := by
    obtain ⟨a, -, ha⟩ := Option.map_eq_some_iff.mp h
    have hvalue := hf a
    rw [ha] at hvalue
    exact hvalue
  exact agree_of_none hnone hnone

theorem agree_one {value : Value} {rest : Bytes} (h : bytesOf value = none) :
    Agree (some (value, rest)) (some (value, rest)) := by
  have hnone (other : Value) (left : Bytes) (hsame : some (value, rest) = some (other, left)) :
      bytesOf other = none := by
    rw [← (Prod.mk.inj (Option.some.inj hsame)).1]
    exact h
  exact agree_of_none hnone hnone

theorem agree_head (inner inner' : Option (Bytes → Option (Value × Bytes))) (bytes : Bytes) :
    Agree (decodeHead false inner bytes) (decodeHead true inner' bytes) := by
  cases bytes with
  | nil => exact agree_none _
  | cons byte rest =>
      unfold decodeHead
      dsimp only
      by_cases hfix : byte.toNat < 0x80
      · rw [if_pos hfix, if_pos hfix]
        exact agree_one rfl
      rw [if_neg hfix, if_neg hfix]
      by_cases hmap : byte.toNat < 0x90
      · rw [if_pos hmap, if_pos hmap]
        exact agree_map _ _ _ _
      rw [if_neg hmap, if_neg hmap]
      by_cases harray : byte.toNat < 0xa0
      · rw [if_pos harray, if_pos harray]
        exact agree_array _ _ _ _
      rw [if_neg harray, if_neg harray]
      by_cases hstr : byte.toNat < 0xc0
      · rw [if_pos hstr, if_pos hstr]
        exact agree_str _ _
      rw [if_neg hstr, if_neg hstr]
      by_cases hneg : byte.toNat ≥ 0xe0
      · rw [if_pos hneg, if_pos hneg]
        exact agree_one rfl
      rw [if_neg hneg, if_neg hneg]
      split
      any_goals exact agree_one rfl
      any_goals exact agree_number _ _ fun _ => rfl
      any_goals exact agree_ext _ _
      any_goals refine agree_sized _ _ fun n left => ?_
      any_goals exact agree_bin _ _
      any_goals exact agree_ext _ _
      any_goals exact agree_str _ _
      any_goals exact agree_array _ _ _ _
      any_goals exact agree_map _ _ _ _
      exact agree_none _

-- The raw mode reads the bytes of a text or binary value, and nothing of the kind otherwise.
theorem unpackb_raw {value : Value} {bytes : Bytes} (h : unpackb false bytes = some value) :
    (∀ data, bytesOf value = some data → unpackb true bytes = some (.bytes data)) ∧
      (bytesOf value = none → ∀ other, unpackb true bytes = some other → bytesOf other = none) := by
  obtain ⟨inner, hplain⟩ := decodeHead_of_unpackb h
  obtain ⟨inner', hinner⟩ := decodeValue_eq_head true maxDecodeDepth
  obtain ⟨hdata, hnone⟩ := agree_head inner inner' bytes value [] hplain
  constructor
  · intro data hbytes
    rw [unpackb, hinner, hdata data hbytes]
  · intro hvalue other hother
    unfold unpackb at hother
    rw [hinner] at hother
    split at hother
    · rename_i read hread
      obtain rfl := Option.some.inj hother
      exact hnone hvalue _ _ hread
    · cases hother

-- What is packed without bytes of its own is read without any, in either mode.
theorem bytesOf_of_packb {raw : Bool} {value read : Value} {bytes : Bytes}
    (h : packb value = some bytes) (hnone : bytesOf value = none)
    (hread : unpackb raw bytes = some read) : bytesOf read = none := by
  obtain ⟨inner, hdecode⟩ := decodeHead_of_unpackb hread
  have hext {code : Nat} {data : Bytes} (hencode : encodeExt code data = some bytes) :
      bytesOf read = none := by
    simp only [encodeExt, Option.bind_eq_bind, Option.bind_eq_some_iff,
      Option.some.injEq] at hencode
    obtain ⟨header, hheader, rfl⟩ := hencode
    rw [decodeHead_ext hheader] at hdecode
    exact bytesOf_of_ext hdecode
  cases value with
  | str text => cases hnone
  | bytes data => cases hnone
  | none =>
      obtain rfl := Option.some.inj h
      rw [← (Prod.mk.inj (Option.some.inj hdecode)).1]
      rfl
  | bool b =>
      cases b with
      | true =>
          obtain rfl := Option.some.inj h
          rw [← (Prod.mk.inj (Option.some.inj hdecode)).1]
          rfl
      | false =>
          obtain rfl := Option.some.inj h
          rw [← (Prod.mk.inj (Option.some.inj hdecode)).1]
          rfl
  | int n =>
      have hint := @decodeHead_int raw inner n bytes h []
      rw [List.append_nil, hdecode] at hint
      rw [(Prod.mk.inj (Option.some.inj hint)).1]
      rfl
  | float x =>
      obtain rfl := Option.some.inj h
      have hfloat := @decodeHead_float raw inner x []
      rw [List.append_nil, hdecode] at hfloat
      rw [(Prod.mk.inj (Option.some.inj hfloat)).1]
      rfl
  | list items =>
      simp only [packb, encodeValue, Option.bind_eq_bind, Option.bind_eq_some_iff,
        Option.some.injEq] at h
      obtain ⟨header, hheader, bodies, -, rfl⟩ := h
      rw [decodeHead_array hheader] at hdecode
      exact bytesOf_of_array hdecode
  | dict pairs =>
      simp only [packb, encodeValue, Option.bind_eq_bind, Option.bind_eq_some_iff,
        Option.some.injEq] at h
      obtain ⟨header, hheader, bodies, -, rfl⟩ := h
      rw [decodeHead_map hheader] at hdecode
      exact bytesOf_of_map hdecode
  | ext code data => exact hext h
  | timestamp seconds nanoseconds =>
      simp only [packb, encodeValue, encodeTimestamp] at h
      split at h
      · split at h
        · exact hext h
        · exact hext h
      · exact hext h
  | _ => cases h

-- An extension is read back.
theorem unpackb_ext {code : Nat} {data bytes : Bytes} (hcode : code < 128)
    (h : packb (.ext code data) = some bytes) : unpackb false bytes = some (.ext code data) := by
  apply unpackb_of_decodeHead
  intro inner
  simp only [packb, encodeValue, encodeExt, Option.bind_eq_bind, Option.bind_eq_some_iff,
    Option.some.injEq] at h
  obtain ⟨header, hheader, rfl⟩ := h
  have hbyte : UInt8.ofNat code :: data = beBytes 1 code ++ data := by
    simp [beBytes, Nat.mod_eq_of_lt (show code < 256 by omega)]
  have hall : takeBytes data.length data = some (data, []) := by
    have htake := takeBytes_append data []
    rwa [List.append_nil] at htake
  rw [decodeHead_ext hheader, hbyte]
  simp [decodeExt, readUint_beBytes 1 code (by omega), hall, makeExt, hcode]

end Stra2us.Foundation.Msgpack
