import Stra2us.Foundation.Msgpack

namespace Stra2us.Foundation

namespace Msgpack

-- The value has at most this many levels, itself the first.
def nestsWithin : Nat → Value → Bool
  | 0, _ => false
  | n + 1, .list items => items.all (nestsWithin n)
  | n + 1, .dict pairs => pairs.all fun pair => nestsWithin n pair.1 && nestsWithin n pair.2
  | _ + 1, _ => true

-- Nothing but its nesting keeps the value from being packed.
def Packs (value : Value) : Prop :=
  ∀ n, (encodeValue n value).isSome ↔ nestsWithin n value

section Scalars

theorem packs_scalar {value : Value} (henc : ∀ n, (encodeValue (n + 1) value).isSome)
    (hnest : ∀ n, nestsWithin (n + 1) value = true) : Packs value := by
  intro n
  cases n with
  | zero => simp [encodeValue, nestsWithin]
  | succ n => simp [henc n, hnest n]

theorem encodeInt_isSome {n : Int} (hlo : -2 ^ 63 ≤ n) (hhi : n < 2 ^ 64) :
    (encodeInt n).isSome := by
  unfold encodeInt
  rw [if_neg (by omega)]
  repeat' split
  all_goals rfl

theorem packs_int {n : Int} (hlo : -2 ^ 63 ≤ n) (hhi : n < 2 ^ 64) : Packs (.int n) :=
  packs_scalar (fun _ => encodeInt_isSome hlo hhi) fun _ => rfl

theorem strHeader_isSome {n : Nat} (h : n < 2 ^ 32) : (strHeader n).isSome := by
  unfold strHeader
  repeat' split
  all_goals rfl

theorem binHeader_isSome {n : Nat} (h : n < 2 ^ 32) : (binHeader n).isSome := by
  unfold binHeader
  repeat' split
  all_goals rfl

theorem arrayHeader_isSome {n : Nat} (h : n < 2 ^ 32) : (arrayHeader n).isSome := by
  unfold arrayHeader
  repeat' split
  all_goals rfl

theorem mapHeader_isSome {n : Nat} (h : n < 2 ^ 32) : (mapHeader n).isSome := by
  unfold mapHeader
  repeat' split
  all_goals rfl

theorem extHeader_isSome {n : Nat} (h : n < 2 ^ 32) : (extHeader n).isSome := by
  unfold extHeader
  repeat' split
  all_goals rfl

theorem packs_str {text : Text} (h : (utf8 text).length < 2 ^ 32) : Packs (.str text) :=
  packs_scalar (fun n => by simpa [encodeValue] using strHeader_isSome h) fun _ => rfl

theorem packs_bytes {data : Bytes} (h : data.length < 2 ^ 32) : Packs (.bytes data) :=
  packs_scalar (fun n => by simpa [encodeValue] using binHeader_isSome h) fun _ => rfl

theorem encodeExt_isSome {code : Nat} {data : Bytes} (h : data.length < 2 ^ 32) :
    (encodeExt code data).isSome := by
  obtain ⟨header, hh⟩ := Option.isSome_iff_exists.mp (extHeader_isSome h)
  simp [encodeExt, hh]

theorem packs_ext {code : Nat} {data : Bytes} (h : data.length < 2 ^ 32) :
    Packs (.ext code data) :=
  packs_scalar (fun _ => encodeExt_isSome h) fun _ => rfl

theorem packs_timestamp (seconds : Int) (nanoseconds : Nat) :
    Packs (.timestamp seconds nanoseconds) := by
  refine packs_scalar (fun n => ?_) fun _ => rfl
  simp only [encodeValue, encodeTimestamp]
  split
  · split <;> exact encodeExt_isSome (by simp)
  · exact encodeExt_isSome (by simp [intBytes])

end Scalars

section Containers

theorem mapM_isSome {β : Type} {f : Value → Option β} {items : List Value} :
    (items.mapM f).isSome ↔ ∀ item ∈ items, (f item).isSome := by
  induction items with
  | nil => simp
  | cons item rest ih =>
      cases hf : f item with
      | none => simp [List.mapM_cons, hf]
      | some b =>
          cases hr : rest.mapM f with
          | none =>
              rw [hr] at ih
              simpa [List.mapM_cons, hf, hr] using ih
          | some bs =>
              rw [hr] at ih
              simpa [List.mapM_cons, hf, hr] using ih

theorem mapM_pairs_isSome {f : Value × Value → Option Bytes} {pairs : List (Value × Value)} :
    (pairs.mapM f).isSome ↔ ∀ pair ∈ pairs, (f pair).isSome := by
  induction pairs with
  | nil => simp
  | cons pair rest ih =>
      cases hf : f pair with
      | none => simp [List.mapM_cons, hf]
      | some b =>
          cases hr : rest.mapM f with
          | none =>
              rw [hr] at ih
              simpa [List.mapM_cons, hf, hr] using ih
          | some bs =>
              rw [hr] at ih
              simpa [List.mapM_cons, hf, hr] using ih

theorem packs_list {items : List Value} (h : items.length < 2 ^ 32)
    (hitems : ∀ item ∈ items, Packs item) : Packs (.list items) := by
  intro n
  cases n with
  | zero => simp [encodeValue, nestsWithin]
  | succ n =>
      obtain ⟨header, hh⟩ := Option.isSome_iff_exists.mp (arrayHeader_isSome h)
      have hmap : (items.mapM (encodeValue n)).isSome ↔ items.all (nestsWithin n) := by
        rw [mapM_isSome, List.all_eq_true]
        exact forall₂_congr fun item hi => hitems item hi n
      simp only [encodeValue, hh, nestsWithin]
      rw [← hmap]
      cases items.mapM (encodeValue n) <;> simp

theorem packs_dict {pairs : List (Value × Value)} (h : pairs.length < 2 ^ 32)
    (hpairs : ∀ pair ∈ pairs, Packs pair.1 ∧ Packs pair.2) : Packs (.dict pairs) := by
  intro n
  cases n with
  | zero => simp [encodeValue, nestsWithin]
  | succ n =>
      obtain ⟨header, hh⟩ := Option.isSome_iff_exists.mp (mapHeader_isSome h)
      have hpair : ∀ pair ∈ pairs, (do
          let key ← encodeValue n pair.1
          let value ← encodeValue n pair.2
          some (key ++ value) : Option Bytes).isSome ↔
            (nestsWithin n pair.1 && nestsWithin n pair.2) = true := by
        intro pair hp
        rw [Bool.and_eq_true, ← (hpairs pair hp).1 n, ← (hpairs pair hp).2 n]
        cases encodeValue n pair.1 <;> cases encodeValue n pair.2 <;> simp
      have hmap : (pairs.mapM fun pair => (do
          let key ← encodeValue n pair.1
          let value ← encodeValue n pair.2
          some (key ++ value) : Option Bytes)).isSome ↔
            pairs.all fun pair => nestsWithin n pair.1 && nestsWithin n pair.2 := by
        rw [mapM_pairs_isSome, List.all_eq_true]
        exact forall₂_congr hpair
      simp only [encodeValue, hh, nestsWithin]
      rw [← hmap]
      cases pairs.mapM fun pair => (do
          let key ← encodeValue n pair.1
          let value ← encodeValue n pair.2
          some (key ++ value) : Option Bytes) <;> simp

end Containers

section Decoded

theorem length_of_takeBytes {n : Nat} {bytes data rest : Bytes}
    (h : takeBytes n bytes = some (data, rest)) : data.length = n := by
  unfold takeBytes at h
  split at h
  · simp only [Option.some.injEq, Prod.mk.injEq] at h
    rw [← h.1, List.length_take]
    omega
  · cases h

theorem beNat_lt (bytes : Bytes) : beNat bytes < 256 ^ bytes.length := by
  induction bytes using List.reverseRecOn with
  | nil => simp [beNat]
  | append_singleton init byte ih =>
      rw [beNat_append_singleton, List.length_append, List.length_singleton, pow_succ]
      have := byte.toNat_lt
      omega

theorem lt_of_readUint {width n : Nat} {bytes rest : Bytes}
    (h : readUint width bytes = some (n, rest)) : n < 256 ^ width := by
  unfold readUint at h
  cases ht : takeBytes width bytes with
  | none => simp [ht] at h
  | some taken =>
      obtain ⟨head, rest'⟩ := taken
      simp only [ht, Option.map_some, Option.some.injEq, Prod.mk.injEq] at h
      rw [← h.1, ← length_of_takeBytes ht]
      exact beNat_lt head

theorem bounds_of_readInt {width : Nat} {n : Int} {bytes rest : Bytes} (hw : width ≤ 8)
    (h : readInt width bytes = some (n, rest)) : -2 ^ 63 ≤ n ∧ n < 2 ^ 63 := by
  unfold readInt at h
  cases ht : takeBytes width bytes with
  | none => simp [ht] at h
  | some taken =>
      obtain ⟨head, rest'⟩ := taken
      simp only [ht, Option.map_some, Option.some.injEq, Prod.mk.injEq] at h
      have hlen := length_of_takeBytes ht
      have hlt := beNat_lt head
      have hpow : (256 : Nat) ^ width = 2 ^ (8 * width) := by
        rw [show (256 : Nat) = 2 ^ 8 by norm_num, ← pow_mul]
      rw [hlen, hpow] at hlt
      have hwide : (2 : Int) ^ (8 * width) ≤ 2 ^ 64 := pow_le_pow_right₀ (by norm_num) (by omega)
      have hhalf : (2 : Nat) ^ (8 * width - 1) ≤ 2 ^ 63 :=
        Nat.pow_le_pow_right (by norm_num) (by omega)
      have hltInt : (beNat head : Int) < 2 ^ (8 * width) := by exact_mod_cast hlt
      rw [← h.1, beInt, hlen]
      split
      · omega
      · rename_i hge
        rcases Nat.eq_zero_or_pos width with rfl | hpos
        · simp only [Nat.mul_zero, pow_zero] at hlt hge
          omega
        · have hdouble : (2 : Int) ^ (8 * width) = 2 * 2 ^ (8 * width - 1) := by
            rw [← pow_succ', show 8 * width - 1 + 1 = 8 * width by omega]
          have hge' : (2 : Int) ^ (8 * width - 1) ≤ beNat head := by
            exact_mod_cast Nat.le_of_not_lt hge
          omega

theorem decodeStr_packs {raw : Bool} {n : Nat} {bytes rest : Bytes} {value : Value}
    (hn : n < 2 ^ 32) (h : decodeStr raw n bytes = some (value, rest)) : Packs value := by
  unfold decodeStr at h
  cases ht : takeBytes n bytes with
  | none => simp [ht] at h
  | some taken =>
      obtain ⟨data, rest'⟩ := taken
      have hlen := length_of_takeBytes ht
      cases raw with
      | true =>
          simp only [ht, makeStr, ite_true, Option.bind_eq_bind, Option.bind_some,
            Option.some.injEq, Prod.mk.injEq] at h
          rw [← h.1]
          exact packs_bytes (by omega)
      | false =>
          cases hd : utf8Decode data with
          | none => simp [ht, makeStr, hd] at h
          | some text =>
              simp only [ht, makeStr, hd, Bool.false_eq_true, ite_false, Option.map_some,
                Option.bind_eq_bind, Option.bind_some, Option.some.injEq, Prod.mk.injEq] at h
              rw [← h.1]
              exact packs_str (by rw [utf8_of_utf8Decode hd]; omega)

theorem decodeBin_packs {n : Nat} {bytes rest : Bytes} {value : Value} (hn : n < 2 ^ 32)
    (h : decodeBin n bytes = some (value, rest)) : Packs value := by
  unfold decodeBin at h
  cases ht : takeBytes n bytes with
  | none => simp [ht] at h
  | some taken =>
      have hlen := length_of_takeBytes ht
      simp only [ht, Option.bind_eq_bind, Option.bind_some, Option.some.injEq,
        Prod.mk.injEq] at h
      rw [← h.1]
      exact packs_bytes (by omega)

theorem makeExt_packs {code : Nat} {data : Bytes} {value : Value} (hlen : data.length < 2 ^ 32)
    (h : makeExt code data = some value) : Packs value := by
  unfold makeExt at h
  split at h
  · rw [← Option.some.inj h]
    exact packs_ext hlen
  · split at h
    · obtain ⟨seconds, nanoseconds, rfl⟩ := makeTimestamp_eq h
      exact packs_timestamp seconds nanoseconds
    · cases h

theorem decodeExt_packs {n : Nat} {bytes rest : Bytes} {value : Value} (hn : n < 2 ^ 32)
    (h : decodeExt n bytes = some (value, rest)) : Packs value := by
  unfold decodeExt at h
  cases hc : readUint 1 bytes with
  | none => simp [hc] at h
  | some read =>
      obtain ⟨code, rest'⟩ := read
      cases ht : takeBytes n rest' with
      | none => simp [hc, ht] at h
      | some taken =>
          obtain ⟨data, rest''⟩ := taken
          have hlen := length_of_takeBytes ht
          cases hm : makeExt code data with
          | none => simp [hc, ht, hm] at h
          | some made =>
              simp only [hc, ht, hm, Option.bind_eq_bind, Option.bind_some, Option.some.injEq,
                Prod.mk.injEq] at h
              rw [← h.1]
              exact makeExt_packs (by omega) hm

variable {inner : Bytes → Option (Value × Bytes)}

theorem decodeItems_packs
    (hinner : ∀ bytes value rest, inner bytes = some (value, rest) → Packs value)
    {n : Nat} {bytes rest : Bytes} {items : List Value}
    (h : decodeItems inner n bytes = some (items, rest)) :
    items.length = n ∧ ∀ item ∈ items, Packs item := by
  induction n generalizing bytes items rest with
  | zero =>
      simp only [decodeItems, Option.some.injEq, Prod.mk.injEq] at h
      simp [← h.1]
  | succ n ih =>
      unfold decodeItems at h
      cases hi : inner bytes with
      | none => simp [hi] at h
      | some first =>
          obtain ⟨item, rest'⟩ := first
          cases hr : decodeItems inner n rest' with
          | none => simp [hi, hr] at h
          | some more =>
              obtain ⟨items', rest''⟩ := more
              simp only [hi, hr, Option.bind_eq_bind, Option.bind_some, Option.some.injEq,
                Prod.mk.injEq] at h
              obtain ⟨hlen, hall⟩ := ih hr
              rw [← h.1]
              refine ⟨by simp [hlen], ?_⟩
              intro x hx
              rcases List.mem_cons.mp hx with rfl | hx
              · exact hinner _ _ _ hi
              · exact hall x hx

-- Setting a key adds at most one pair and brings in no other values.
theorem dictSet_packs {key value : Value} {pairs : List (Value × Value)} (hkey : Packs key)
    (hvalue : Packs value) (hpairs : ∀ pair ∈ pairs, Packs pair.1 ∧ Packs pair.2) :
    (dictSet key value pairs).length ≤ pairs.length + 1 ∧
      ∀ pair ∈ dictSet key value pairs, Packs pair.1 ∧ Packs pair.2 := by
  induction pairs with
  | nil => simp [dictSet, hkey, hvalue]
  | cons head rest ih =>
      obtain ⟨name, old⟩ := head
      have hhead := hpairs (name, old) (by simp)
      have hrest := ih fun pair hp => hpairs pair (List.mem_cons_of_mem _ hp)
      unfold dictSet
      split
      · refine ⟨by simp, ?_⟩
        intro pair hp
        rcases List.mem_cons.mp hp with rfl | hp
        · exact ⟨hhead.1, hvalue⟩
        · exact hpairs pair (List.mem_cons_of_mem _ hp)
      · refine ⟨by simpa using hrest.1, ?_⟩
        intro pair hp
        rcases List.mem_cons.mp hp with rfl | hp
        · exact hhead
        · exact hrest.2 pair hp

theorem decodePairs_packs
    (hinner : ∀ bytes value rest, inner bytes = some (value, rest) → Packs value)
    {n : Nat} {bytes rest : Bytes} {before pairs : List (Value × Value)}
    (hbefore : ∀ pair ∈ before, Packs pair.1 ∧ Packs pair.2)
    (h : decodePairs inner n before bytes = some (pairs, rest)) :
    pairs.length ≤ before.length + n ∧ ∀ pair ∈ pairs, Packs pair.1 ∧ Packs pair.2 := by
  induction n generalizing bytes before with
  | zero =>
      simp only [decodePairs, Option.some.injEq, Prod.mk.injEq] at h
      rw [← h.1]
      exact ⟨by omega, hbefore⟩
  | succ n ih =>
      unfold decodePairs at h
      cases hk : inner bytes with
      | none => simp [hk] at h
      | some read =>
          obtain ⟨key, rest'⟩ := read
          cases hkey : isKey key with
          | false => simp [hk, hkey] at h
          | true =>
              cases hv : inner rest' with
              | none => simp [hk, hkey, hv] at h
              | some read' =>
                  obtain ⟨value, rest''⟩ := read'
                  simp only [hk, hkey, hv, ite_true, Option.bind_eq_bind, Option.bind_some] at h
                  have hset := dictSet_packs (hinner _ _ _ hk) (hinner _ _ _ hv) hbefore
                  obtain ⟨hlen, hall⟩ := ih hset.2 h
                  have := hset.1
                  exact ⟨by omega, hall⟩

theorem decodeArray_packs {inner : Option (Bytes → Option (Value × Bytes))}
    (hinner : ∀ f, inner = some f → ∀ bytes value rest, f bytes = some (value, rest) → Packs value)
    {n : Nat} {bytes rest : Bytes} {value : Value} (hn : n < 2 ^ 32)
    (h : decodeArray inner n bytes = some (value, rest)) : Packs value := by
  unfold decodeArray at h
  cases inner with
  | none => simp at h
  | some f =>
      cases hi : decodeItems f n bytes with
      | none => simp [hi] at h
      | some read =>
          simp only [hi, Option.bind_eq_bind, Option.bind_some, Option.some.injEq,
            Prod.mk.injEq] at h
          obtain ⟨hlen, hall⟩ := decodeItems_packs (hinner f rfl) hi
          rw [← h.1]
          exact packs_list (by omega) hall

theorem decodeMap_packs {inner : Option (Bytes → Option (Value × Bytes))}
    (hinner : ∀ f, inner = some f → ∀ bytes value rest, f bytes = some (value, rest) → Packs value)
    {n : Nat} {bytes rest : Bytes} {value : Value} (hn : n < 2 ^ 32)
    (h : decodeMap inner n bytes = some (value, rest)) : Packs value := by
  unfold decodeMap at h
  cases inner with
  | none => simp at h
  | some f =>
      cases hi : decodePairs f n [] bytes with
      | none => simp [hi] at h
      | some read =>
          simp only [hi, Option.bind_eq_bind, Option.bind_some, Option.some.injEq,
            Prod.mk.injEq] at h
          obtain ⟨hlen, hall⟩ := decodePairs_packs (hinner f rfl) (by simp) hi
          rw [← h.1]
          exact packs_dict (by simp only [List.length_nil] at hlen; omega) hall

theorem packs_of_bind_readUint {width : Nat} {bytes rest : Bytes} {value : Value}
    {f : Nat × Bytes → Option (Value × Bytes)} (hw : width ≤ 4)
    (hf : ∀ n rest' rest, n < 2 ^ 32 → f (n, rest') = some (value, rest) → Packs value)
    (h : (readUint width bytes).bind f = some (value, rest)) : Packs value := by
  cases hr : readUint width bytes with
  | none => simp [hr] at h
  | some read =>
      obtain ⟨n, rest'⟩ := read
      simp only [hr, Option.bind_some] at h
      have hlt := lt_of_readUint hr
      have hle : 256 ^ width ≤ 256 ^ 4 := Nat.pow_le_pow_right (by norm_num) hw
      exact hf n rest' rest (by omega) h

theorem packs_of_map_readUint {width : Nat} {bytes rest : Bytes} {value : Value} (hw : width ≤ 8)
    (h : ((readUint width bytes).map fun read => (Value.int read.1, read.2)) =
      some (value, rest)) : Packs value := by
  cases hr : readUint width bytes with
  | none => simp [hr] at h
  | some read =>
      obtain ⟨n, rest'⟩ := read
      simp only [hr, Option.map_some, Option.some.injEq, Prod.mk.injEq] at h
      have hlt := lt_of_readUint hr
      have hle : 256 ^ width ≤ 256 ^ 8 := Nat.pow_le_pow_right (by norm_num) hw
      rw [← h.1]
      exact packs_int (by omega) (by omega)

theorem packs_of_map_readInt {width : Nat} {bytes rest : Bytes} {value : Value} (hw : width ≤ 8)
    (h : ((readInt width bytes).map fun read => (Value.int read.1, read.2)) =
      some (value, rest)) : Packs value := by
  cases hr : readInt width bytes with
  | none => simp [hr] at h
  | some read =>
      obtain ⟨n, rest'⟩ := read
      simp only [hr, Option.map_some, Option.some.injEq, Prod.mk.injEq] at h
      have hb := bounds_of_readInt hw hr
      rw [← h.1]
      exact packs_int (by omega) (by omega)

theorem packs_float (x : Binary64) : Packs (.float x) :=
  packs_scalar (fun _ => rfl) fun _ => rfl

theorem packs_of_map_float {width : Nat} {bytes rest : Bytes} {value : Value}
    {f : Nat → Binary64}
    (h : ((readUint width bytes).map fun read => (Value.float (f read.1), read.2)) =
      some (value, rest)) : Packs value := by
  cases hr : readUint width bytes with
  | none => simp [hr] at h
  | some read =>
      simp only [hr, Option.map_some, Option.some.injEq, Prod.mk.injEq] at h
      rw [← h.1]
      exact packs_float _

theorem decodeHead_packs {raw : Bool} {inner : Option (Bytes → Option (Value × Bytes))}
    (hinner : ∀ f, inner = some f → ∀ bytes value rest, f bytes = some (value, rest) → Packs value)
    {bytes rest : Bytes} {value : Value}
    (h : decodeHead raw inner bytes = some (value, rest)) : Packs value := by
  cases bytes with
  | nil => cases h
  | cons byte tail =>
      have hb := byte.toNat_lt
      simp only [decodeHead] at h
      by_cases h80 : byte.toNat < 0x80
      · simp only [h80, ite_true, Option.some.injEq, Prod.mk.injEq] at h
        rw [← h.1]
        exact packs_int (by omega) (by omega)
      rw [if_neg h80] at h
      by_cases h90 : byte.toNat < 0x90
      · rw [if_pos h90] at h
        exact decodeMap_packs hinner (by omega) h
      rw [if_neg h90] at h
      by_cases ha0 : byte.toNat < 0xa0
      · rw [if_pos ha0] at h
        exact decodeArray_packs hinner (by omega) h
      rw [if_neg ha0] at h
      by_cases hc0 : byte.toNat < 0xc0
      · rw [if_pos hc0] at h
        exact decodeStr_packs (by omega) h
      rw [if_neg hc0] at h
      by_cases he0 : byte.toNat ≥ 0xe0
      · simp only [he0, ite_true, Option.some.injEq, Prod.mk.injEq] at h
        rw [← h.1]
        exact packs_int (by omega) (by omega)
      rw [if_neg he0] at h
      split at h
      all_goals first
        | exact packs_of_map_readUint (by omega) h
        | exact packs_of_map_readInt (by omega) h
        | exact packs_of_map_float h
        | exact packs_of_map_float (f := fun n => ⟨UInt64.ofNat n⟩) h
        | exact packs_of_bind_readUint (by omega) (fun _ _ _ hn hd => decodeBin_packs hn hd) h
        | exact packs_of_bind_readUint (by omega) (fun _ _ _ hn hd => decodeStr_packs hn hd) h
        | exact packs_of_bind_readUint (by omega) (fun _ _ _ hn hd => decodeExt_packs hn hd) h
        | exact packs_of_bind_readUint (by omega)
            (fun _ _ _ hn hd => decodeArray_packs hinner hn hd) h
        | exact packs_of_bind_readUint (by omega)
            (fun _ _ _ hn hd => decodeMap_packs hinner hn hd) h
        | exact decodeExt_packs (by omega) h
        | (simp only [Option.some.injEq, Prod.mk.injEq] at h
           rw [← h.1]
           exact packs_scalar (fun _ => rfl) fun _ => rfl)
        | cases h

theorem decodeValue_packs {raw : Bool} {depth : Nat} {bytes rest : Bytes} {value : Value}
    (h : decodeValue raw depth bytes = some (value, rest)) : Packs value := by
  induction depth generalizing bytes rest value with
  | zero => exact decodeHead_packs (by simp) h
  | succ depth ih =>
      refine decodeHead_packs ?_ h
      intro f hf bytes value rest hd
      obtain rfl := Option.some.inj hf
      exact ih hd

-- What unpacks packs again, if it does not nest too deeply.
theorem unpackb_packs {raw : Bool} {bytes : Bytes} {value : Value}
    (h : unpackb raw bytes = some value) : Packs value := by
  unfold unpackb at h
  split at h
  · rename_i v hd
    rw [← Option.some.inj h]
    exact decodeValue_packs hd
  · cases h

end Decoded

end Msgpack

end Stra2us.Foundation
