import Stra2us.Foundation.Msgpack

namespace Stra2us.Foundation

namespace Msgpack

section Plain

-- The value is read back from in front of anything, by a reader of this depth.
def ReadsBack (depth : Nat) (value : Value) : Prop :=
  ∀ limit bytes rest, encodeValue limit value = some bytes →
    decodeValue false depth (bytes ++ rest) = some (value, rest)

variable {depth : Nat}

theorem readsBack_of_head {value : Value}
    (h : ∀ inner limit bytes rest, encodeValue limit value = some bytes →
      decodeHead false inner (bytes ++ rest) = some (value, rest)) : ReadsBack depth value := by
  intro limit bytes rest hencode
  obtain ⟨inner, hinner⟩ := decodeValue_eq_head false depth
  rw [hinner]
  exact h inner limit bytes rest hencode

theorem readsBack_str (text : Text) : ReadsBack depth (.str text) := by
  apply readsBack_of_head
  intro inner limit bytes rest hencode
  cases limit with
  | zero => cases hencode
  | succ limit =>
      obtain ⟨header, hheader, rfl⟩ := Option.map_eq_some_iff.mp hencode
      rw [List.append_assoc, decodeHead_str hheader, makeStr, if_neg (by decide), utf8Decode_utf8]
      rfl

theorem readsBack_bytes (data : Bytes) : ReadsBack depth (.bytes data) := by
  apply readsBack_of_head
  intro inner limit bytes rest hencode
  cases limit with
  | zero => cases hencode
  | succ limit =>
      obtain ⟨header, hheader, rfl⟩ := Option.map_eq_some_iff.mp hencode
      rw [List.append_assoc, decodeHead_bin hheader]

theorem readsBack_int (n : Int) : ReadsBack depth (.int n) := by
  apply readsBack_of_head
  intro inner limit bytes rest hencode
  cases limit with
  | zero => cases hencode
  | succ limit => exact decodeHead_int hencode rest

-- What is packed with so many levels left is read back by a reader of this depth.
def ReadsFrom (depth limit : Nat) (value : Value) : Prop :=
  ∀ bytes rest, encodeValue limit value = some bytes →
    decodeValue false depth (bytes ++ rest) = some (value, rest)

theorem decodeItems_readsFrom {items : List Value} {limit : Nat} {bodies : List Bytes}
    (h : ∀ item ∈ items, ReadsFrom depth limit item)
    (hbodies : items.mapM (encodeValue limit) = some bodies) (rest : Bytes) :
    decodeItems (decodeValue false depth) items.length (bodies.flatten ++ rest) =
      some (items, rest) := by
  induction items generalizing bodies with
  | nil =>
      obtain rfl := Option.some.inj hbodies
      rfl
  | cons item items ih =>
      rw [List.mapM_cons] at hbodies
      simp only [Option.bind_eq_bind, Option.bind_eq_some_iff, Option.pure_def,
        Option.some.injEq] at hbodies
      obtain ⟨body, hbody, others, hothers, rfl⟩ := hbodies
      have hfirst := h item List.mem_cons_self body (others.flatten ++ rest) hbody
      have hrest := ih (fun other hother => h other (List.mem_cons_of_mem _ hother)) hothers
      rw [List.flatten_cons, List.append_assoc, List.length_cons, decodeItems]
      simp only [Option.bind_eq_bind, hfirst, hrest, Option.bind_some]

theorem readsFrom_list {limit : Nat} {items : List Value}
    (h : ∀ item ∈ items, ReadsFrom depth limit item) :
    ReadsFrom (depth + 1) (limit + 1) (.list items) := by
  intro bytes rest hencode
  simp only [encodeValue, Option.bind_eq_bind, Option.bind_eq_some_iff,
    Option.some.injEq] at hencode
  obtain ⟨header, hheader, bodies, hbodies, rfl⟩ := hencode
  rw [decodeValue, List.append_assoc, decodeHead_array hheader, decodeArray]
  simp only [Option.bind_eq_bind, Option.bind_some, decodeItems_readsFrom h hbodies rest]

theorem readsBack_list {items : List Value} (h : ∀ item ∈ items, ReadsBack depth item) :
    ReadsBack (depth + 1) (.list items) := by
  intro limit
  cases limit with
  | zero =>
      intro bytes rest hencode
      cases hencode
  | succ limit => exact readsFrom_list fun item hitem => h item hitem limit

theorem dictSet_new {name : Text} {value : Value} {pairs : List (Value × Value)}
    (h : ∀ pair ∈ pairs, ∃ other, pair.1 = .str other ∧ other ≠ name) :
    dictSet (.str name) value pairs = pairs ++ [(.str name, value)] := by
  induction pairs with
  | nil => rfl
  | cons pair pairs ih =>
      obtain ⟨key, old⟩ := pair
      obtain ⟨other, hkey, hne⟩ := h _ List.mem_cons_self
      dsimp only at hkey
      rw [hkey, dictSet, sameKey, if_neg (by simpa using hne),
        ih fun p hp => h p (List.mem_cons_of_mem _ hp)]
      rfl

-- The fields of a record, under names of their own.
def fieldPairs (fields : List (Text × Value)) : List (Value × Value) :=
  fields.map fun field => (.str field.1, field.2)

theorem decodePairs_readsFrom {fields done : List (Text × Value)} {limit : Nat}
    {bodies : List Bytes} (hnames : ((done ++ fields).map Prod.fst).Nodup)
    (h : ∀ field ∈ fields, ReadsFrom depth limit field.2)
    (hbodies : (fieldPairs fields).mapM (fun pair => do
      let key ← encodeValue limit pair.1
      let value ← encodeValue limit pair.2
      some (key ++ value)) = some bodies) (rest : Bytes) :
    decodePairs (decodeValue false depth) fields.length (fieldPairs done)
        (bodies.flatten ++ rest) = some (fieldPairs (done ++ fields), rest) := by
  induction fields generalizing bodies done with
  | nil =>
      obtain rfl := Option.some.inj hbodies
      rw [List.append_nil]
      rfl
  | cons field fields ih =>
      obtain ⟨name, value⟩ := field
      rw [fieldPairs, List.map_cons, List.mapM_cons] at hbodies
      simp only [Option.bind_eq_bind, Option.bind_eq_some_iff, Option.pure_def,
        Option.some.injEq] at hbodies
      obtain ⟨body, ⟨key, hkey, encoded, hvalue, rfl⟩, others, hothers, rfl⟩ := hbodies
      have hfirst := @readsBack_str depth name limit key (encoded ++ (others.flatten ++ rest)) hkey
      have hsecond := h (name, value) List.mem_cons_self encoded (others.flatten ++ rest)
        hvalue
      have hnew : dictSet (.str name) value (fieldPairs done) =
          fieldPairs (done ++ [(name, value)]) := by
        rw [dictSet_new]
        · simp [fieldPairs]
        · intro pair hpair
          obtain ⟨old, hold, rfl⟩ := List.mem_map.mp hpair
          refine ⟨old.1, rfl, ?_⟩
          rw [List.map_append, List.map_cons, List.nodup_middle, List.nodup_cons] at hnames
          rintro rfl
          exact hnames.1 (List.mem_append_left _ (List.mem_map.mpr ⟨old, hold, rfl⟩))
      have happend : done ++ (name, value) :: fields = done ++ [(name, value)] ++ fields := by
        rw [List.append_assoc]
        rfl
      have hrest := ih (by rw [← happend]; exact hnames)
        (fun other hother => h other (List.mem_cons_of_mem _ hother)) hothers
      rw [happend, List.flatten_cons, List.append_assoc, List.append_assoc, List.length_cons,
        decodePairs]
      simp only [Option.bind_eq_bind, hfirst, hsecond, Option.bind_some, isKey, ite_true, hnew]
      exact hrest

theorem readsFrom_dict {limit : Nat} {fields : List (Text × Value)}
    (hnames : (fields.map Prod.fst).Nodup)
    (h : ∀ field ∈ fields, ReadsFrom depth limit field.2) :
    ReadsFrom (depth + 1) (limit + 1) (.dict (fieldPairs fields)) := by
  intro bytes rest hencode
  simp only [encodeValue, Option.bind_eq_bind, Option.bind_eq_some_iff,
    Option.some.injEq] at hencode
  obtain ⟨header, hheader, bodies, hbodies, rfl⟩ := hencode
  have hpairs := @decodePairs_readsFrom depth fields [] limit bodies hnames h hbodies rest
  have hlength : (fieldPairs fields).length = fields.length := List.length_map _
  rw [decodeValue, List.append_assoc, decodeHead_map hheader, decodeMap, hlength]
  simp only [Option.bind_eq_bind, Option.bind_some]
  change ((decodePairs (decodeValue false depth) fields.length (fieldPairs [])
    (bodies.flatten ++ rest)).bind fun found => some (Value.dict found.1, found.2)) = _
  rw [hpairs]
  rfl

theorem readsBack_dict {fields : List (Text × Value)} (hnames : (fields.map Prod.fst).Nodup)
    (h : ∀ field ∈ fields, ReadsBack depth field.2) :
    ReadsBack (depth + 1) (.dict (fieldPairs fields)) := by
  intro limit
  cases limit with
  | zero =>
      intro bytes rest hencode
      cases hencode
  | succ limit => exact readsFrom_dict hnames fun field hfield => h field hfield limit

theorem unpackb_of_readsBack {value : Value} {bytes : Bytes}
    (h : ReadsBack maxDecodeDepth value) (hpack : packb value = some bytes) :
    unpackb false bytes = some value := by
  have hread := h (maxEncodeDepth + 1) bytes [] hpack
  rw [List.append_nil] at hread
  rw [unpackb, hread]

end Plain

end Msgpack

end Stra2us.Foundation
