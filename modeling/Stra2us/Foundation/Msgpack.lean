import Stra2us.Foundation.BigEndian
import Stra2us.Foundation.Value

namespace Stra2us.Foundation

-- A single widened to a double; a signalling NaN comes out quiet.
def Binary64.ofSingle (single : Nat) : Binary64 :=
  let sign := single / 2 ^ 31 % 2
  let exponent := single / 2 ^ 23 % 256
  let fraction := single % 2 ^ 23
  let wide :=
    if exponent = 255 then
      2047 * 2 ^ 52 + if fraction = 0 then 0 else (fraction * 2 ^ 29) ||| 2 ^ 51
    else if exponent = 0 then
      if fraction = 0 then 0
      else
        let top := Nat.log2 fraction
        (top + 874) * 2 ^ 52 + (fraction - 2 ^ top) * 2 ^ (52 - top)
    else (exponent + 896) * 2 ^ 52 + fraction * 2 ^ 29
  ⟨UInt64.ofNat (sign * 2 ^ 63 + wide)⟩

namespace Msgpack

section Decode

def takeBytes (n : Nat) (bytes : Bytes) : Option (Bytes × Bytes) :=
  if n ≤ bytes.length then some (bytes.take n, bytes.drop n) else none

def readUint (width : Nat) (bytes : Bytes) : Option (Nat × Bytes) :=
  (takeBytes width bytes).map fun (head, rest) => (beNat head, rest)

def readInt (width : Nat) (bytes : Bytes) : Option (Int × Bytes) :=
  (takeBytes width bytes).map fun (head, rest) => (beInt head, rest)

-- In raw mode strings are left as their bytes.
def makeStr (raw : Bool) (data : Bytes) : Option Value :=
  if raw then some (.bytes data) else (utf8Decode data).map .str

def makeTimestamp (data : Bytes) : Option Value :=
  let checked (seconds : Int) (nanoseconds : Nat) : Option Value :=
    if nanoseconds < 10 ^ 9 then some (.timestamp seconds nanoseconds) else none
  match data.length with
  | 4 => checked (beNat data) 0
  | 8 => checked (beNat data % 2 ^ 34 : Nat) (beNat data / 2 ^ 34)
  | 12 => checked (beInt (data.drop 4)) (beNat (data.take 4))
  | _ => none

def makeExt (code : Nat) (data : Bytes) : Option Value :=
  if code < 128 then some (.ext code data)
  else if code = 255 then makeTimestamp data
  else none

def isKey : Value → Bool
  | .str _ | .bytes _ => true
  | _ => false

def sameKey : Value → Value → Bool
  | .str a, .str b => a = b
  | .bytes a, .bytes b => a = b
  | _, _ => false

-- A repeated key keeps its first place and takes the later value.
def dictSet (key value : Value) : List (Value × Value) → List (Value × Value)
  | [] => [(key, value)]
  | (name, old) :: rest =>
      if sameKey name key then (name, value) :: rest else (name, old) :: dictSet key value rest

def decodeStr (raw : Bool) (n : Nat) (bytes : Bytes) : Option (Value × Bytes) := do
  let (data, rest) ← takeBytes n bytes
  let value ← makeStr raw data
  some (value, rest)

def decodeBin (n : Nat) (bytes : Bytes) : Option (Value × Bytes) := do
  let (data, rest) ← takeBytes n bytes
  some (.bytes data, rest)

def decodeExt (n : Nat) (bytes : Bytes) : Option (Value × Bytes) := do
  let (code, rest) ← readUint 1 bytes
  let (data, rest) ← takeBytes n rest
  let value ← makeExt code data
  some (value, rest)

def decodeItems (inner : Bytes → Option (Value × Bytes)) :
    Nat → Bytes → Option (List Value × Bytes)
  | 0, bytes => some ([], bytes)
  | n + 1, bytes => do
      let (item, rest) ← inner bytes
      let (items, rest) ← decodeItems inner n rest
      some (item :: items, rest)

def decodePairs (inner : Bytes → Option (Value × Bytes)) :
    Nat → List (Value × Value) → Bytes → Option (List (Value × Value) × Bytes)
  | 0, pairs, bytes => some (pairs, bytes)
  | n + 1, pairs, bytes => do
      let (key, rest) ← inner bytes
      if isKey key then
        let (value, rest) ← inner rest
        decodePairs inner n (dictSet key value pairs) rest
      else none

def decodeArray (inner : Option (Bytes → Option (Value × Bytes))) (n : Nat) (bytes : Bytes) :
    Option (Value × Bytes) := do
  let inner ← inner
  let (items, rest) ← decodeItems inner n bytes
  some (.list items, rest)

def decodeMap (inner : Option (Bytes → Option (Value × Bytes))) (n : Nat) (bytes : Bytes) :
    Option (Value × Bytes) := do
  let inner ← inner
  let (pairs, rest) ← decodePairs inner n [] bytes
  some (.dict pairs, rest)

-- One value from the front of the input; `inner` reads what a container holds and
-- is missing once the nesting limit is reached.
def decodeHead (raw : Bool) (inner : Option (Bytes → Option (Value × Bytes))) :
    Bytes → Option (Value × Bytes)
  | [] => none
  | byte :: rest =>
      let b := byte.toNat
      if b < 0x80 then some (.int b, rest)
      else if b < 0x90 then decodeMap inner (b - 0x80) rest
      else if b < 0xa0 then decodeArray inner (b - 0x90) rest
      else if b < 0xc0 then decodeStr raw (b - 0xa0) rest
      else if b ≥ 0xe0 then some (.int (b - 256), rest)
      else match b with
        | 0xc0 => some (.none, rest)
        | 0xc2 => some (.bool false, rest)
        | 0xc3 => some (.bool true, rest)
        | 0xc4 => (readUint 1 rest).bind fun (n, rest) => decodeBin n rest
        | 0xc5 => (readUint 2 rest).bind fun (n, rest) => decodeBin n rest
        | 0xc6 => (readUint 4 rest).bind fun (n, rest) => decodeBin n rest
        | 0xc7 => (readUint 1 rest).bind fun (n, rest) => decodeExt n rest
        | 0xc8 => (readUint 2 rest).bind fun (n, rest) => decodeExt n rest
        | 0xc9 => (readUint 4 rest).bind fun (n, rest) => decodeExt n rest
        | 0xca => (readUint 4 rest).map fun (n, rest) => (.float (.ofSingle n), rest)
        | 0xcb => (readUint 8 rest).map fun (n, rest) => (.float ⟨UInt64.ofNat n⟩, rest)
        | 0xcc => (readUint 1 rest).map fun (n, rest) => (.int n, rest)
        | 0xcd => (readUint 2 rest).map fun (n, rest) => (.int n, rest)
        | 0xce => (readUint 4 rest).map fun (n, rest) => (.int n, rest)
        | 0xcf => (readUint 8 rest).map fun (n, rest) => (.int n, rest)
        | 0xd0 => (readInt 1 rest).map fun (n, rest) => (.int n, rest)
        | 0xd1 => (readInt 2 rest).map fun (n, rest) => (.int n, rest)
        | 0xd2 => (readInt 4 rest).map fun (n, rest) => (.int n, rest)
        | 0xd3 => (readInt 8 rest).map fun (n, rest) => (.int n, rest)
        | 0xd4 => decodeExt 1 rest
        | 0xd5 => decodeExt 2 rest
        | 0xd6 => decodeExt 4 rest
        | 0xd7 => decodeExt 8 rest
        | 0xd8 => decodeExt 16 rest
        | 0xd9 => (readUint 1 rest).bind fun (n, rest) => decodeStr raw n rest
        | 0xda => (readUint 2 rest).bind fun (n, rest) => decodeStr raw n rest
        | 0xdb => (readUint 4 rest).bind fun (n, rest) => decodeStr raw n rest
        | 0xdc => (readUint 2 rest).bind fun (n, rest) => decodeArray inner n rest
        | 0xdd => (readUint 4 rest).bind fun (n, rest) => decodeArray inner n rest
        | 0xde => (readUint 2 rest).bind fun (n, rest) => decodeMap inner n rest
        | 0xdf => (readUint 4 rest).bind fun (n, rest) => decodeMap inner n rest
        | _ => none

def decodeValue (raw : Bool) : Nat → Bytes → Option (Value × Bytes)
  | 0 => decodeHead raw none
  | depth + 1 => decodeHead raw (some (decodeValue raw depth))

-- Containers nest up to this deep in what is read.
def maxDecodeDepth : Nat := 1024

-- Nothing may follow the value.
def unpackb (raw : Bool) (bytes : Bytes) : Option Value :=
  match decodeValue raw maxDecodeDepth bytes with
  | some (value, []) => some value
  | _ => none

end Decode

section Encode

def encodeInt (n : Int) : Option Bytes :=
  if n < -2 ^ 63 then none
  else if n < -2 ^ 31 then some (0xd3 :: intBytes 8 n)
  else if n < -2 ^ 15 then some (0xd2 :: intBytes 4 n)
  else if n < -2 ^ 7 then some (0xd1 :: intBytes 2 n)
  else if n < -32 then some (0xd0 :: intBytes 1 n)
  else if n < 0 then some [UInt8.ofNat (n + 256).toNat]
  else if n < 2 ^ 7 then some [UInt8.ofNat n.toNat]
  else if n < 2 ^ 8 then some (0xcc :: beBytes 1 n.toNat)
  else if n < 2 ^ 16 then some (0xcd :: beBytes 2 n.toNat)
  else if n < 2 ^ 32 then some (0xce :: beBytes 4 n.toNat)
  else if n < 2 ^ 64 then some (0xcf :: beBytes 8 n.toNat)
  else none

def strHeader (n : Nat) : Option Bytes :=
  if n < 32 then some [UInt8.ofNat (0xa0 + n)]
  else if n < 2 ^ 8 then some (0xd9 :: beBytes 1 n)
  else if n < 2 ^ 16 then some (0xda :: beBytes 2 n)
  else if n < 2 ^ 32 then some (0xdb :: beBytes 4 n)
  else none

def binHeader (n : Nat) : Option Bytes :=
  if n < 2 ^ 8 then some (0xc4 :: beBytes 1 n)
  else if n < 2 ^ 16 then some (0xc5 :: beBytes 2 n)
  else if n < 2 ^ 32 then some (0xc6 :: beBytes 4 n)
  else none

def arrayHeader (n : Nat) : Option Bytes :=
  if n < 16 then some [UInt8.ofNat (0x90 + n)]
  else if n < 2 ^ 16 then some (0xdc :: beBytes 2 n)
  else if n < 2 ^ 32 then some (0xdd :: beBytes 4 n)
  else none

def mapHeader (n : Nat) : Option Bytes :=
  if n < 16 then some [UInt8.ofNat (0x80 + n)]
  else if n < 2 ^ 16 then some (0xde :: beBytes 2 n)
  else if n < 2 ^ 32 then some (0xdf :: beBytes 4 n)
  else none

def extHeader (n : Nat) : Option Bytes :=
  match n with
  | 1 => some [0xd4]
  | 2 => some [0xd5]
  | 4 => some [0xd6]
  | 8 => some [0xd7]
  | 16 => some [0xd8]
  | n =>
      if n < 2 ^ 8 then some (0xc7 :: beBytes 1 n)
      else if n < 2 ^ 16 then some (0xc8 :: beBytes 2 n)
      else if n < 2 ^ 32 then some (0xc9 :: beBytes 4 n)
      else none

def encodeExt (code : Nat) (data : Bytes) : Option Bytes := do
  let header ← extHeader data.length
  some (header ++ UInt8.ofNat code :: data)

def encodeTimestamp (seconds : Int) (nanoseconds : Nat) : Option Bytes :=
  if 0 ≤ seconds ∧ seconds < 2 ^ 34 then
    if nanoseconds = 0 ∧ seconds < 2 ^ 32 then encodeExt 255 (beBytes 4 seconds.toNat)
    else encodeExt 255 (beBytes 8 (nanoseconds * 2 ^ 34 + seconds.toNat))
  else encodeExt 255 (beBytes 4 nanoseconds ++ intBytes 8 seconds)

-- The packer enters one level for each container and refuses to enter more.
def encodeValue : Nat → Value → Option Bytes
  | 0, _ => none
  | limit + 1, value =>
      match value with
      | .none => some [0xc0]
      | .bool false => some [0xc2]
      | .bool true => some [0xc3]
      | .int n => encodeInt n
      | .float x => some (0xcb :: beBytes 8 x.bits.toNat)
      | .str text => (strHeader (utf8 text).length).map (· ++ utf8 text)
      | .bytes data => (binHeader data.length).map (· ++ data)
      | .list items => do
          let header ← arrayHeader items.length
          let bodies ← items.mapM (encodeValue limit)
          some (header ++ bodies.flatten)
      | .dict pairs => do
          let header ← mapHeader pairs.length
          let bodies ← pairs.mapM fun (key, value) => do
            let key ← encodeValue limit key
            let value ← encodeValue limit value
            some (key ++ value)
          some (header ++ bodies.flatten)
      | .ext code data => encodeExt code data
      | .timestamp seconds nanoseconds => encodeTimestamp seconds nanoseconds
      | .surrogates _ => none
      | .foreign _ _ => none

def maxEncodeDepth : Nat := 511

def packb (value : Value) : Option Bytes :=
  encodeValue (maxEncodeDepth + 1) value

end Encode

section RoundTrip

theorem takeBytes_append (data rest : Bytes) :
    takeBytes data.length (data ++ rest) = some (data, rest) := by
  simp [takeBytes]

theorem takeBytes_beBytes (width n : Nat) (rest : Bytes) :
    takeBytes width (beBytes width n ++ rest) = some (beBytes width n, rest) := by
  have h := takeBytes_append (beBytes width n) rest
  rwa [length_beBytes] at h

theorem readUint_beBytes (width n : Nat) (h : n < 256 ^ width) (rest : Bytes) :
    readUint width (beBytes width n ++ rest) = some (n, rest) := by
  simp [readUint, takeBytes_beBytes, beNat_beBytes width n h]

theorem readInt_intBytes (width : Nat) (n : Int) (hw : 0 < width)
    (hlo : -(2 : Int) ^ (8 * width - 1) ≤ n) (hhi : n < (2 : Int) ^ (8 * width - 1))
    (rest : Bytes) : readInt width (intBytes width n ++ rest) = some (n, rest) := by
  have hb := beInt_intBytes width n hw hlo hhi
  unfold intBytes at hb ⊢
  simp [readInt, takeBytes_beBytes, hb]

-- A string of any header form reads back as its bytes, with what follows left over.
theorem decodeHead_str {raw : Bool} {inner : Option (Bytes → Option (Value × Bytes))}
    {data header : Bytes} (h : strHeader data.length = some header) (rest : Bytes) :
    decodeHead raw inner (header ++ (data ++ rest)) =
      (makeStr raw data).map fun value => (value, rest) := by
  have hstr : decodeStr raw data.length (data ++ rest) =
      (makeStr raw data).map fun value => (value, rest) := by
    simp only [decodeStr, takeBytes_append, Option.bind_eq_bind, Option.bind_some]
    cases makeStr raw data <;> rfl
  unfold strHeader at h
  split at h
  · rename_i hlen
    obtain rfl := Option.some.inj h
    have hb : (UInt8.ofNat (0xa0 + data.length)).toNat = 0xa0 + data.length := by
      rw [UInt8.toNat_ofNat']
      omega
    simp only [List.cons_append, List.nil_append, decodeHead, hb]
    rw [if_neg (by omega), if_neg (by omega), if_neg (by omega), if_pos (by omega),
      Nat.add_sub_cancel_left, hstr]
  · split at h
    · obtain rfl := Option.some.inj h
      simp [decodeHead, readUint_beBytes 1 data.length (by omega), hstr]
    · split at h
      · obtain rfl := Option.some.inj h
        simp [decodeHead, readUint_beBytes 2 data.length (by omega), hstr]
      · split at h
        · obtain rfl := Option.some.inj h
          simp [decodeHead, readUint_beBytes 4 data.length (by omega), hstr]
        · cases h

theorem decodeHead_bin {raw : Bool} {inner : Option (Bytes → Option (Value × Bytes))}
    {data header : Bytes} (h : binHeader data.length = some header) (rest : Bytes) :
    decodeHead raw inner (header ++ (data ++ rest)) = some (.bytes data, rest) := by
  have hbin : decodeBin data.length (data ++ rest) = some (.bytes data, rest) := by
    simp [decodeBin, takeBytes_append]
  unfold binHeader at h
  split at h
  · obtain rfl := Option.some.inj h
    simp [decodeHead, readUint_beBytes 1 data.length (by omega), hbin]
  · split at h
    · obtain rfl := Option.some.inj h
      simp [decodeHead, readUint_beBytes 2 data.length (by omega), hbin]
    · split at h
      · obtain rfl := Option.some.inj h
        simp [decodeHead, readUint_beBytes 4 data.length (by omega), hbin]
      · cases h

theorem decodeHead_readInt {raw : Bool} {inner : Option (Bytes → Option (Value × Bytes))}
    {tag : UInt8} {width : Nat} {n : Int} (rest : Bytes)
    (htag : ∀ bytes, decodeHead raw inner (tag :: bytes) =
      (readInt width bytes).map fun found => (.int found.1, found.2)) (hw : 0 < width)
    (hlo : -(2 : Int) ^ (8 * width - 1) ≤ n) (hhi : n < (2 : Int) ^ (8 * width - 1)) :
    decodeHead raw inner (tag :: intBytes width n ++ rest) = some (.int n, rest) := by
  rw [List.cons_append, htag, readInt_intBytes width n hw hlo hhi]
  rfl

theorem decodeHead_readUint {raw : Bool} {inner : Option (Bytes → Option (Value × Bytes))}
    {tag : UInt8} {width : Nat} {n : Int} (rest : Bytes)
    (htag : ∀ bytes, decodeHead raw inner (tag :: bytes) =
      (readUint width bytes).map fun found => (.int found.1, found.2)) (hn : 0 ≤ n)
    (hlt : n.toNat < 256 ^ width) :
    decodeHead raw inner (tag :: beBytes width n.toNat ++ rest) = some (.int n, rest) := by
  rw [List.cons_append, htag, readUint_beBytes width n.toNat hlt, Option.map_some,
    Int.toNat_of_nonneg hn]

-- Whichever of its forms an integer takes.
theorem decodeHead_int {raw : Bool} {inner : Option (Bytes → Option (Value × Bytes))} {n : Int}
    {bytes : Bytes} (h : encodeInt n = some bytes) (rest : Bytes) :
    decodeHead raw inner (bytes ++ rest) = some (.int n, rest) := by
  have hsmall : ∀ m : Nat, m < 256 → (UInt8.ofNat m).toNat = m := by
    intro m hm
    rw [UInt8.toNat_ofNat']
    omega
  unfold encodeInt at h
  split at h
  · cases h
  split at h
  · obtain rfl := Option.some.inj h
    exact decodeHead_readInt rest (fun _ => rfl) (by omega) (by omega) (by omega)
  split at h
  · obtain rfl := Option.some.inj h
    exact decodeHead_readInt rest (fun _ => rfl) (by omega) (by omega) (by omega)
  split at h
  · obtain rfl := Option.some.inj h
    exact decodeHead_readInt rest (fun _ => rfl) (by omega) (by omega) (by omega)
  split at h
  · obtain rfl := Option.some.inj h
    exact decodeHead_readInt rest (fun _ => rfl) (by omega) (by omega) (by omega)
  split at h
  · obtain rfl := Option.some.inj h
    have hbyte := hsmall (n + 256).toNat (by omega)
    simp only [List.cons_append, List.nil_append, decodeHead, hbyte]
    rw [if_neg (by omega), if_neg (by omega), if_neg (by omega), if_neg (by omega),
      if_pos (by omega), Int.toNat_of_nonneg (by omega), Int.add_sub_cancel]
  split at h
  · obtain rfl := Option.some.inj h
    have hbyte := hsmall n.toNat (by omega)
    simp only [List.cons_append, List.nil_append, decodeHead, hbyte]
    rw [if_pos (by omega), Int.toNat_of_nonneg (by omega)]
  split at h
  · obtain rfl := Option.some.inj h
    exact decodeHead_readUint rest (fun _ => rfl) (by omega) (by omega)
  split at h
  · obtain rfl := Option.some.inj h
    exact decodeHead_readUint rest (fun _ => rfl) (by omega) (by omega)
  split at h
  · obtain rfl := Option.some.inj h
    exact decodeHead_readUint rest (fun _ => rfl) (by omega) (by omega)
  split at h
  · obtain rfl := Option.some.inj h
    exact decodeHead_readUint rest (fun _ => rfl) (by omega) (by omega)
  · cases h

theorem decodeHead_float {raw : Bool} {inner : Option (Bytes → Option (Value × Bytes))}
    (x : Binary64) (rest : Bytes) :
    decodeHead raw inner (0xcb :: beBytes 8 x.bits.toNat ++ rest) = some (.float x, rest) := by
  have hlt := x.bits.toNat_lt
  have hread := readUint_beBytes 8 x.bits.toNat (by omega) rest
  have hhead : decodeHead raw inner (0xcb :: (beBytes 8 x.bits.toNat ++ rest)) =
    (readUint 8 (beBytes 8 x.bits.toNat ++ rest)).map fun found =>
      (.float ⟨UInt64.ofNat found.1⟩, found.2) := rfl
  rw [List.cons_append, hhead, hread, Option.map_some, UInt64.ofNat_toNat]

theorem decodeHead_array {raw : Bool} {inner : Option (Bytes → Option (Value × Bytes))} {n : Nat}
    {header : Bytes} (h : arrayHeader n = some header) (rest : Bytes) :
    decodeHead raw inner (header ++ rest) = decodeArray inner n rest := by
  unfold arrayHeader at h
  split at h
  · rename_i hlen
    obtain rfl := Option.some.inj h
    have hbyte : (UInt8.ofNat (0x90 + n)).toNat = 0x90 + n := by
      rw [UInt8.toNat_ofNat']
      omega
    simp only [List.cons_append, List.nil_append, decodeHead, hbyte]
    rw [if_neg (by omega), if_neg (by omega), if_pos (by omega), Nat.add_sub_cancel_left]
  split at h
  · obtain rfl := Option.some.inj h
    simp [decodeHead, readUint_beBytes 2 n (by omega)]
  split at h
  · obtain rfl := Option.some.inj h
    simp [decodeHead, readUint_beBytes 4 n (by omega)]
  · cases h

theorem decodeHead_map {raw : Bool} {inner : Option (Bytes → Option (Value × Bytes))} {n : Nat}
    {header : Bytes} (h : mapHeader n = some header) (rest : Bytes) :
    decodeHead raw inner (header ++ rest) = decodeMap inner n rest := by
  unfold mapHeader at h
  split at h
  · rename_i hlen
    obtain rfl := Option.some.inj h
    have hbyte : (UInt8.ofNat (0x80 + n)).toNat = 0x80 + n := by
      rw [UInt8.toNat_ofNat']
      omega
    simp only [List.cons_append, List.nil_append, decodeHead, hbyte]
    rw [if_neg (by omega), if_pos (by omega), Nat.add_sub_cancel_left]
  split at h
  · obtain rfl := Option.some.inj h
    simp [decodeHead, readUint_beBytes 2 n (by omega)]
  split at h
  · obtain rfl := Option.some.inj h
    simp [decodeHead, readUint_beBytes 4 n (by omega)]
  · cases h

theorem decodeHead_ext {raw : Bool} {inner : Option (Bytes → Option (Value × Bytes))} {n : Nat}
    {header : Bytes} (h : extHeader n = some header) (rest : Bytes) :
    decodeHead raw inner (header ++ rest) = decodeExt n rest := by
  unfold extHeader at h
  split at h
  · obtain rfl := Option.some.inj h
    rfl
  · obtain rfl := Option.some.inj h
    rfl
  · obtain rfl := Option.some.inj h
    rfl
  · obtain rfl := Option.some.inj h
    rfl
  · obtain rfl := Option.some.inj h
    rfl
  split at h
  · obtain rfl := Option.some.inj h
    simp [decodeHead, readUint_beBytes 1 n (by omega)]
  split at h
  · obtain rfl := Option.some.inj h
    simp [decodeHead, readUint_beBytes 2 n (by omega)]
  split at h
  · obtain rfl := Option.some.inj h
    simp [decodeHead, readUint_beBytes 4 n (by omega)]
  · cases h

theorem decodeValue_eq_head (raw : Bool) (depth : Nat) :
    ∃ inner, decodeValue raw depth = decodeHead raw inner := by
  cases depth with
  | zero => exact ⟨none, rfl⟩
  | succ depth => exact ⟨some (decodeValue raw depth), rfl⟩

theorem unpackb_str {raw : Bool} {text : Text} {bytes : Bytes}
    (h : packb (.str text) = some bytes) : unpackb raw bytes = makeStr raw (utf8 text) := by
  obtain ⟨inner, hinner⟩ := decodeValue_eq_head raw maxDecodeDepth
  simp only [packb, encodeValue] at h
  obtain ⟨header, hh, rfl⟩ := Option.map_eq_some_iff.mp h
  have hd : decodeHead raw inner (header ++ (utf8 text ++ [])) = _ := decodeHead_str hh []
  rw [List.append_nil] at hd
  rw [unpackb, hinner, hd]
  cases makeStr raw (utf8 text) <;> rfl

theorem unpackb_bytes {raw : Bool} {data bytes : Bytes} (h : packb (.bytes data) = some bytes) :
    unpackb raw bytes = some (.bytes data) := by
  obtain ⟨inner, hinner⟩ := decodeValue_eq_head raw maxDecodeDepth
  simp only [packb, encodeValue] at h
  obtain ⟨header, hh, rfl⟩ := Option.map_eq_some_iff.mp h
  have hd : decodeHead raw inner (header ++ (data ++ [])) = _ := decodeHead_bin hh []
  rw [List.append_nil] at hd
  rw [unpackb, hinner, hd]

end RoundTrip

section Scalars

def isScalar : Value → Bool
  | .bool _ | .int _ | .float _ | .str _ => true
  | _ => false

variable {raw : Bool} {value : Value} {bytes : Bytes}

-- What is read of an array, a map or an extension is one.
theorem decodeArray_kind {inner : Option (Bytes → Option (Value × Bytes))} {n : Nat}
    {rest : Bytes} (h : decodeArray inner n bytes = some (value, rest)) :
    isScalar value = false := by
  simp only [decodeArray, Option.bind_eq_bind, Option.bind_eq_some_iff] at h
  obtain ⟨_, -, _, -, hvalue⟩ := h
  rw [← (Prod.mk.inj (Option.some.inj hvalue)).1]
  rfl

theorem decodeMap_kind {inner : Option (Bytes → Option (Value × Bytes))} {n : Nat}
    {rest : Bytes} (h : decodeMap inner n bytes = some (value, rest)) :
    isScalar value = false := by
  simp only [decodeMap, Option.bind_eq_bind, Option.bind_eq_some_iff] at h
  obtain ⟨_, -, _, -, hvalue⟩ := h
  rw [← (Prod.mk.inj (Option.some.inj hvalue)).1]
  rfl

theorem makeTimestamp_eq {data : Bytes} (h : makeTimestamp data = some value) :
    ∃ seconds nanoseconds, value = .timestamp seconds nanoseconds := by
  have hchecked : ∀ (seconds : Int) (nanoseconds : Nat),
      (if nanoseconds < 10 ^ 9 then some (Value.timestamp seconds nanoseconds) else none) =
        some value → ∃ seconds nanoseconds, value = .timestamp seconds nanoseconds := by
    intro seconds nanoseconds hc
    split at hc
    · exact ⟨_, _, (Option.some.inj hc).symm⟩
    · cases hc
  unfold makeTimestamp at h
  split at h
  · exact hchecked _ _ h
  · exact hchecked _ _ h
  · exact hchecked _ _ h
  · cases h

theorem makeExt_kind {code : Nat} {data : Bytes} (h : makeExt code data = some value) :
    isScalar value = false := by
  unfold makeExt at h
  split at h
  · rw [← Option.some.inj h]
    rfl
  split at h
  · obtain ⟨seconds, nanoseconds, rfl⟩ := makeTimestamp_eq h
    rfl
  · cases h

theorem decodeExt_kind {n : Nat} {rest : Bytes} (h : decodeExt n bytes = some (value, rest)) :
    isScalar value = false := by
  simp only [decodeExt, Option.bind_eq_bind, Option.bind_eq_some_iff] at h
  obtain ⟨_, -, _, -, _, hmake, hvalue⟩ := h
  rw [← (Prod.mk.inj (Option.some.inj hvalue)).1]
  exact makeExt_kind hmake

theorem decodeHead_of_unpackb (h : unpackb raw bytes = some value) :
    ∃ inner, decodeHead raw inner bytes = some (value, []) := by
  obtain ⟨inner, hinner⟩ := decodeValue_eq_head raw maxDecodeDepth
  refine ⟨inner, ?_⟩
  unfold unpackb at h
  rw [hinner] at h
  split at h
  · rename_i hdecode
    rw [hdecode, Option.some.inj h]
  · cases h

theorem unpackb_of_decodeHead
    (h : ∀ inner, decodeHead raw inner bytes = some (value, [])) : unpackb raw bytes = some value := by
  obtain ⟨inner, hinner⟩ := decodeValue_eq_head raw maxDecodeDepth
  rw [unpackb, hinner, h inner]

theorem encodeExt_kind {code : Nat} {data : Bytes} (h : encodeExt code data = some bytes)
    (hread : unpackb raw bytes = some value) : isScalar value = false := by
  obtain ⟨inner, hdecode⟩ := decodeHead_of_unpackb hread
  simp only [encodeExt, Option.bind_eq_bind, Option.bind_eq_some_iff, Option.some.injEq] at h
  obtain ⟨header, hheader, rfl⟩ := h
  rw [decodeHead_ext hheader] at hdecode
  exact decodeExt_kind hdecode

-- A scalar is read back as it was.
theorem unpackb_scalar (hscalar : isScalar value) (h : packb value = some bytes) :
    unpackb false bytes = some value := by
  cases value with
  | bool b =>
      cases b with
      | true =>
          obtain rfl := Option.some.inj h
          exact unpackb_of_decodeHead fun _ => rfl
      | false =>
          obtain rfl := Option.some.inj h
          exact unpackb_of_decodeHead fun _ => rfl
  | int n =>
      apply unpackb_of_decodeHead
      intro inner
      have hdecode := @decodeHead_int false inner n bytes h []
      rwa [List.append_nil] at hdecode
  | float x =>
      apply unpackb_of_decodeHead
      intro inner
      obtain rfl := Option.some.inj h
      have hdecode := @decodeHead_float false inner x []
      rwa [List.append_nil] at hdecode
  | str text => rw [unpackb_str h, makeStr, if_neg (by decide), utf8Decode_utf8, Option.map_some]
  | _ => cases hscalar

-- Nothing else is read back as a scalar.
theorem eq_of_unpackb_scalar {read : Value} (h : packb value = some bytes)
    (hread : unpackb false bytes = some read) (hscalar : isScalar read) : value = read := by
  have hsame : ∀ v, isScalar v → packb v = some bytes → v = read := by
    intro v hv hpack
    rw [unpackb_scalar hv hpack] at hread
    exact Option.some.inj hread
  have hnone : isScalar read = false → value = read := by
    intro hnot
    rw [hscalar] at hnot
    cases hnot
  cases value with
  | bool b => exact hsame _ rfl h
  | int n => exact hsame _ rfl h
  | float x => exact hsame _ rfl h
  | str text => exact hsame _ rfl h
  | none =>
      apply hnone
      obtain ⟨inner, hdecode⟩ := decodeHead_of_unpackb hread
      obtain rfl := Option.some.inj h
      rw [← (Prod.mk.inj (Option.some.inj hdecode)).1]
      rfl
  | bytes data =>
      apply hnone
      rw [unpackb_bytes h] at hread
      rw [← Option.some.inj hread]
      rfl
  | list items =>
      apply hnone
      obtain ⟨inner, hdecode⟩ := decodeHead_of_unpackb hread
      simp only [packb, encodeValue, Option.bind_eq_bind, Option.bind_eq_some_iff,
        Option.some.injEq] at h
      obtain ⟨header, hheader, bodies, -, rfl⟩ := h
      rw [decodeHead_array hheader] at hdecode
      exact decodeArray_kind hdecode
  | dict pairs =>
      apply hnone
      obtain ⟨inner, hdecode⟩ := decodeHead_of_unpackb hread
      simp only [packb, encodeValue, Option.bind_eq_bind, Option.bind_eq_some_iff,
        Option.some.injEq] at h
      obtain ⟨header, hheader, bodies, -, rfl⟩ := h
      rw [decodeHead_map hheader] at hdecode
      exact decodeMap_kind hdecode
  | ext code data => exact hnone (encodeExt_kind h hread)
  | timestamp seconds nanoseconds =>
      apply hnone
      simp only [packb, encodeValue, encodeTimestamp] at h
      split at h
      · split at h
        · exact encodeExt_kind h hread
        · exact encodeExt_kind h hread
      · exact encodeExt_kind h hread
  | surrogates units => cases h
  | foreign type text => cases h

end Scalars

end Msgpack

end Stra2us.Foundation
