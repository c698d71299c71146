import Stra2us.Server.Submit

namespace Stra2us.Server

open Foundation

-- `type(value).__name__`
def typeName : Value → Text
  | .none => "NoneType".toList
  | .bool _ => "bool".toList
  | .int _ => "int".toList
  | .float _ => "float".toList
  | .str _ | .surrogates _ => "str".toList
  | .bytes _ => "bytes".toList
  | .list _ => "list".toList
  | .dict _ => "dict".toList
  | .ext _ _ => "ExtType".toList
  | .timestamp _ _ => "Timestamp".toList
  | .foreign type _ => type

-- The text of the loader's error, cut off in the answer, is left out. What comes after the
-- shape, the schema and the lint table, is one check of the mapping here.
def validateCatalogYamlUpload (safeLoad : Text → Except Exn Value)
    (checkCatalog : List (Value × Value) → Except Exn Unit) : Gate := fun packedBody =>
  match Msgpack.unpackb false packedBody with
  | none => .error (.http 400 "catalog upload: payload is not valid msgpack".toList)
  | some (.str text) =>
      match safeLoad text with
      | .error exn =>
          if exn = .python "YAMLError".toList then
            .error (.http 400 "catalog upload: malformed YAML".toList)
          else .error exn
      | .ok (.dict pairs) => checkCatalog pairs
      | .ok doc => .error (.http 400 ("catalog upload: top-level must be a mapping (got ".toList ++
          typeName doc ++ [')']))
  | some value => .error (.http 400 ("catalog upload: payload must be a YAML string (got ".toList ++
      typeName value ++ [')']))

-- What a command of a handler sets under a key is as `puts` says.
structure SetsOnly (puts : Text → Bytes → Prop) (cmd : Cmd) : Prop where
  values : ∀ key value, cmd = .set key value → puts key value
  nonce : cmd.namesNonce

section Sets

variable {α : Type} {puts : Text → Bytes → Prop} {good : Text → Bytes → Prop}

theorem setsOnly_of_onlyOverwrites {keys : Text → Prop} {cmd : Cmd} (h : OnlyOverwrites keys cmd)
    (hputs : ∀ key value, keys key → puts key value) : SetsOnly puts cmd where
  values := by
    rintro key value rfl
    exact hputs key value (h.within key rfl)
  nonce := h.nonce

theorem issues_setsOnly {key : Text} {value : Bytes} (h : puts key value) :
    Handler.Issues (SetsOnly puts) (Handler.set key value) := by
  refine Handler.issues_ask ⟨?_, trivial⟩
  intro k v heq
  obtain ⟨rfl, rfl⟩ := Cmd.set.inj heq
  exact h

-- Records that are good stay so under a handler that sets good ones only. No nonce is one.
theorem get_of_setsOnly {handler : Handler α} (h : handler.Issues (SetsOnly good))
    (hnonce : ∀ clientId value, good (nonceKey clientId) value) {w : World}
    (hgood : ∀ key value, w.store.get key = some value → good key value) {key : Text}
    {value : Bytes} (hget : (handler.runOn w).2.store.get key = some value) : good key value := by
  let keeps (w w' : World) : Prop :=
    (∀ key value, w.store.get key = some value → good key value) →
      ∀ key value, w'.store.get key = some value → good key value
  have hrun : keeps w (handler.runOn w).2 := by
    refine Prog.Issues.run keeps h (fun _ hw => hw) (fun a b c hab hbc ha => hbc (hab ha)) ?_ w
    intro cmd w hcmd hw key value hget
    cases cmd with
    | set k v =>
        change (w.store.set k v).get key = some value at hget
        rw [Store.get_set] at hget
        by_cases hkey : key = k
        · rw [if_pos hkey] at hget
          obtain rfl := Option.some.inj hget
          rw [hkey]
          exact hcmd.values k v rfl
        · rw [if_neg hkey] at hget
          exact hw key value hget
    | delete keys =>
        change (w.store.delete keys).get key = some value at hget
        rw [Store.get_delete] at hget
        split at hget
        · cases hget
        · exact hw key value hget
    | xadd k fields =>
        change (w.store.xadd _ k fields).2.get key = some value at hget
        rw [Store.get_xadd] at hget
        exact hw key value hget
    | expire k seconds =>
        change (w.store.expire k _).get key = some value at hget
        rw [Store.get_expire] at hget
        exact hw key value hget
    | kvencNonce k now =>
        obtain ⟨clientId, rfl⟩ := hcmd.nonce
        by_cases hkey : key = nonceKey clientId
        · rw [hkey]
          exact hnonce clientId value
        · refine hw key value (hget.symm.trans ?_).symm
          change (kvencNonceLua w.store (nonceKey clientId) now).2.get key = _
          unfold kvencNonceLua
          split
          · rfl
          · exact Store.get_set_of_ne _ hkey _
    | time => exact hw key value hget
    | get k => exact hw key value hget
    | xread k last count => exact hw key value hget
  exact hrun hgood key value hget

end Sets

end Stra2us.Server
