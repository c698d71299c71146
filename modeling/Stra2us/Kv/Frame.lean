import Stra2us.Acl.Matching
import Stra2us.Server.Uses

namespace Stra2us.Kv

open Foundation Server

-- The requests that write one key: its value and its flag.
def Writes (key : Text) : Call → Prop
  | .writeKv _ k _ => k = key
  | .deleteKv _ k _ => k = key
  | .setKv _ k _ => k = key
  | .adminDeleteKv _ k => k = key
  | _ => False

-- Whatever is written under one key, a read of the other one answers as it would have
-- without it, at any later moment.
def Framed (key other : Text) : Prop :=
  ∀ (site : Site) (call : Call) (w : World), Writes key call →
    ∀ (context : Context) (request : Request) (clock : Int) (redisMs : UInt64),
      ((readKv site.hmac context other request).runOn
        { ((call.handler site).runOn w).2 with clock := clock, redisMs := redisMs }).1 =
      ((readKv site.hmac context other request).runOn
        { w with clock := clock, redisMs := redisMs }).1

section Footprints

variable {key other : Text}

def Records (key : Text) (k : Text) : Prop :=
  k = kvKey key ∨ k = encKey key

theorem Writes.uses {call : Call} (h : Writes key call) (site : Site) :
    (call.handler site).Uses (fun _ => True) (Records key) := by
  cases call with
  | writeKv context k request =>
      obtain rfl : k = key := h
      exact Handler.issues_map (writeKv_uses site.hmac context request site.gate (.inl rfl)
        (.inr rfl))
  | deleteKv context k request =>
      obtain rfl : k = key := h
      exact Handler.issues_map (deleteKv_uses site.hmac context request (.inl rfl) (.inr rfl))
  | setKv username k payload =>
      obtain rfl : k = key := h
      exact Handler.issues_map (setKv_uses site trivial payload (.inl rfl) (.inr rfl))
  | adminDeleteKv username k =>
      obtain rfl : k = key := h
      exact Handler.issues_map (adminDeleteKv_uses site trivial (.inl rfl) (.inr rfl))
  | _ => exact h.elim

theorem encKey_eq_kvKey (key : Text) : encKey key = kvKey (key ++ ":enc".toList) :=
  List.append_assoc _ _ _

theorem nonceKey_ne_kvKey (clientId key : Text) : nonceKey clientId ≠ kvKey key := by
  rw [nonceKey_eq, kvKey_eq]
  intro h
  injection h with _ h
  injection h with _ h
  injection h with h _
  exact absurd h (by decide)

-- The records of two keys that are not told apart by the suffix do not meet.
theorem records_apart (hne : other ≠ key) (hvalue : other ≠ key ++ ":enc".toList)
    (hflag : key ≠ other ++ ":enc".toList) {k : Text} (h : Records other k) : ¬ Records key k := by
  rintro (rfl | rfl)
  · rcases h with h | h
    · exact hne (kvKey_injective h).symm
    · rw [encKey_eq_kvKey] at h
      exact hflag (kvKey_injective h)
  · rcases h with h | h
    · rw [encKey_eq_kvKey] at h
      exact hvalue (kvKey_injective h).symm
    · exact hne (encKey_injective h).symm

theorem framed_of_apart (hne : other ≠ key) (hvalue : other ≠ key ++ ":enc".toList)
    (hflag : key ≠ other ++ ":enc".toList) : Framed key other := by
  intro site call w hwrites context request clock redisMs
  have hread : (readKv site.hmac context other request).Uses
      (fun k => Records other k ∨ k = nonceKey context.clientId)
      (fun k => k = nonceKey context.clientId) :=
    readKv_uses site.hmac context request (.inl (.inl rfl)) (.inl (.inr rfl)) (.inr rfl) rfl
  have hframe := (hwrites.uses site).frame w
  have hapart : ∀ k, (Records other k ∨ k = nonceKey context.clientId) → ¬ Records key k := by
    rintro k (hk | rfl)
    · exact records_apart hne hvalue hflag hk
    · rintro (h | h)
      · exact nonceKey_ne_kvKey _ _ h
      · rw [encKey_eq_kvKey] at h
        exact nonceKey_ne_kvKey _ _ h
  have hagree : Agree (fun k => Records other k ∨ k = nonceKey context.clientId)
      { ((call.handler site).runOn w).2 with clock := clock, redisMs := redisMs }
      { w with clock := clock, redisMs := redisMs } :=
    ⟨fun k hk => hframe.get k (hapart k hk), fun k hk => hframe.stream k (hapart k hk), rfl, rfl⟩
  exact (hread.agree hagree).1

end Footprints

section Reads

variable {hmac : Hmac} {context : Context} {key : Text} {request : Request} {w : World}

theorem readKv_missing (hacl : checkAcl context.acl ("kv/".toList ++ key) .read = .ok ())
    (hvalue : w.store.get (kvKey key) = none) :
    (readKv hmac context key request).runOn w =
      (signedMsgpack hmac context request (statusValue "not_found".toList)).runOn w := by
  unfold readKv
  rw [hacl, Handler.runOn_ofExcept_ok_bind]
  change (Handler.ask (.get (kvKey key)) >>= _).runOn w = _
  rw [Handler.runOn_ask_bind]
  dsimp only [exec_get]
  rw [hvalue]

theorem readKv_stored {value : Bytes}
    (hacl : checkAcl context.acl ("kv/".toList ++ key) .read = .ok ())
    (hvalue : w.store.get (kvKey key) = some value) :
    (readKv hmac context key request).runOn w =
      if truthy (w.store.get (encKey key)) then
        (do
          let plaintext ← Handler.ofExcept (encryptedPlaintext value)
          let nonce ← nextKvencNonce context.clientId
          Handler.ofExcept (signedEncryptedResponse hmac context request plaintext nonce) :
          Handler Response).runOn w
      else (signedResponse hmac context request value 200).runOn w := by
  unfold readKv
  rw [hacl, Handler.runOn_ofExcept_ok_bind]
  change (Handler.ask (.get (kvKey key)) >>= _).runOn w = _
  rw [Handler.runOn_ask_bind]
  dsimp only [exec_get]
  rw [hvalue]
  change (if truthy (w.store.get (encKey key)) then _ else _ : Handler Response).runOn w = _
  by_cases hflag : truthy (w.store.get (encKey key))
  · rw [if_pos hflag, if_pos hflag]
  · rw [if_neg hflag, if_neg hflag]

end Reads

section Interference

variable {key other : Text}

theorem deleteKv_runOn_small (w : World) :
    ((Call.handler .small (.deleteKv .small key ⟨[], [], [], []⟩)).runOn w).2 =
      { w with store := w.store.delete [kvKey key, encKey key] } := by
  have hacl : checkAcl Context.small.acl ("kv/".toList ++ key) .write = .ok () :=
    Acl.allowed_wildcard (.kv key) .write
  change ((Answer.device <$> deleteKv Site.small.hmac .small key _).runOn w).2 = _
  rw [Handler.runOn_map]
  unfold deleteKv
  rw [hacl]
  change ((signedMsgpack _ _ _ _).runOn _).2 = _
  obtain ⟨response, hrun, -⟩ := signedMsgpack_runOn Site.small.hmac Context.small
    ⟨[], [], [], []⟩ (show (utf8 "ok".toList).length < 2 ^ 32 by decide)
    { w with store := w.store.delete [kvKey key, encKey key] }
  exact congrArg Prod.snd hrun

def bare : Request := ⟨[], [], [], []⟩

theorem read_allowed : checkAcl Context.small.acl ("kv/".toList ++ other) .read = .ok () :=
  Acl.allowed_wildcard (.kv other) .read

theorem signedMsgpack_body {status : Text} {body : Bytes}
    (h : Msgpack.packb (statusValue status) = some body) (w : World) :
    ∃ response, (signedMsgpack Site.small.hmac .small bare (statusValue status)).runOn w =
      (.ok response, w) ∧ response.body = body := by
  obtain ⟨response, hrun, hbody, -⟩ :=
    signedResponse_runOn Site.small.hmac Context.small bare body 200 w
  refine ⟨response, ?_, hbody⟩
  unfold signedMsgpack
  simp only [packOrRaise, h]
  exact hrun

-- A value that is removed under another key's name is missed.
theorem not_framed_of_value (h : Records key (kvKey other)) : ¬ Framed key other := by
  intro hframed
  obtain ⟨missing, hpack⟩ := packb_statusValue (show (utf8 "not_found".toList).length < 2 ^ 32 by
    decide)
  let w : World := ⟨Store.empty.set (kvKey other) (0 :: missing), 0, 0⟩
  have hread := hframed .small (.deleteKv .small key bare) w rfl .small bare 0 0
  have hafter : ((Call.handler .small (.deleteKv .small key bare)).runOn w).2 = _ :=
    deleteKv_runOn_small w
  have hstored : w.store.get (kvKey other) = some (0 :: missing) := Store.get_set_self _ _ _
  have hflag : ¬ truthy (w.store.get (encKey other)) := by
    have hnone : w.store.get (encKey other) = none := by
      rw [Store.get_set_of_ne _ (encKey_ne_kvKey other), Store.get_empty]
    rw [hnone]
    exact fun h => nomatch h
  have hgone : (w.store.delete [kvKey key, encKey key]).get (kvKey other) = none := by
    rw [Store.get_delete, if_pos (by simpa [Records] using h)]
  obtain ⟨before, hbefore, hbody, -⟩ :=
    signedResponse_runOn Site.small.hmac Context.small bare (0 :: missing) 200 w
  obtain ⟨after, hmissed, hnobody⟩ := signedMsgpack_body hpack
    { w with store := w.store.delete [kvKey key, encKey key] }
  rw [hafter, readKv_missing read_allowed hgone] at hread
  change _ = ((readKv Site.small.hmac .small other bare).runOn w).1 at hread
  rw [readKv_stored read_allowed hstored, if_neg hflag, hbefore] at hread
  change ((signedMsgpack Site.small.hmac .small bare _).runOn
    { w with store := w.store.delete [kvKey key, encKey key] }).1 = _ at hread
  rw [hmissed] at hread
  obtain rfl := Except.ok.inj hread
  rw [hbody] at hnobody
  exact absurd (congrArg List.length hnobody) (by simp)

-- A flag that is removed under another key's name leaves the value in plaintext.
theorem not_framed_of_flag (hvalue : ¬ Records key (kvKey other))
    (h : Records key (encKey other)) : ¬ Framed key other := by
  intro hframed
  let w : World :=
    ⟨(Store.empty.set (kvKey other) [0xc0]).set (encKey other) (utf8 "1".toList), 0, 0⟩
  have hread := hframed .small (.deleteKv .small key bare) w rfl .small bare 0 0
  have hafter : ((Call.handler .small (.deleteKv .small key bare)).runOn w).2 = _ :=
    deleteKv_runOn_small w
  have hstored : w.store.get (kvKey other) = some [0xc0] := by
    rw [Store.get_set_of_ne _ (encKey_ne_kvKey other).symm, Store.get_set_self]
  have hflag : truthy (w.store.get (encKey other)) := by
    rw [Store.get_set_self]
    decide
  have hkept : (w.store.delete [kvKey key, encKey key]).get (kvKey other) = some [0xc0] := by
    rw [Store.get_delete, if_neg (by simpa [Records] using hvalue), hstored]
  have hgone : ¬ truthy ((w.store.delete [kvKey key, encKey key]).get (encKey other)) := by
    rw [Store.get_delete, if_pos (by simpa [Records] using h)]
    exact fun h => nomatch h
  obtain ⟨after, hplain, -⟩ := signedResponse_runOn Site.small.hmac Context.small bare [0xc0] 200
    { w with store := w.store.delete [kvKey key, encKey key] }
  rw [hafter, readKv_stored read_allowed hkept, if_neg hgone] at hread
  change ((signedResponse Site.small.hmac .small bare [0xc0] 200).runOn
    { w with store := w.store.delete [kvKey key, encKey key] }).1 =
    ((readKv Site.small.hmac .small other bare).runOn w).1 at hread
  rw [hplain, readKv_stored read_allowed hstored, if_pos hflag] at hread
  -- nil is neither a string nor bytes, so the flagged record cannot be served
  cases hread

-- Put together: the two keys must differ, also by the suffix that marks a flag.
theorem framed_iff (key other : Text) : Framed key other ↔
    other ≠ key ∧ other ≠ key ++ ":enc".toList ∧ key ≠ other ++ ":enc".toList := by
  constructor
  · intro hframed
    have hvalue : ¬ Records key (kvKey other) := fun h => not_framed_of_value h hframed
    have hflag : ¬ Records key (encKey other) := fun h => not_framed_of_flag hvalue h hframed
    refine ⟨?_, ?_, ?_⟩
    · rintro rfl
      exact hvalue (.inl rfl)
    · rintro rfl
      exact hvalue (.inr (encKey_eq_kvKey key).symm)
    · rintro rfl
      exact hflag (.inl (encKey_eq_kvKey other))
  · rintro ⟨hne, hvalue, hflag⟩
    exact framed_of_apart hne hvalue hflag

-- An encrypted write under one key makes a key of the flag's name appear.
theorem write_appears_elsewhere :
    let w : World := ⟨.empty, 100, 7⟩
    let write : Call := .writeKv .small ['a'] ⟨[], [], [("x-encrypted".toList, ['1'])], []⟩
    let read := readKv Site.small.hmac .small "a:enc".toList bare
    ((read.runOn w).1.toOption.map Response.body) = Msgpack.packb (statusValue "not_found".toList) ∧
      ((read.runOn ((write.handler .small).runOn w).2).1.toOption.map Response.body) =
        some (utf8 ['1']) := by
  decide +kernel

end Interference

end Stra2us.Kv
