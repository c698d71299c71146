import Stra2us.Acl.Matching
import Stra2us.Queue.Consume
import Stra2us.Server.Uses

namespace Stra2us.Queue

open Foundation Server

-- One id ends where the other goes on with the separator, so that the rest of it can be
-- taken for the beginning of a topic.
def Nested (a b : Text) : Prop :=
  b = a ++ ":q".toList ∨ a ++ ":q:".toList <+: b

section Keys

variable {a b x y : Text}

theorem cursorKey_split (a x : Text) :
    cursorKey a x = "cursor:".toList ++ (a ++ (':' :: 'q' :: ':' :: x)) := by
  have hsep : ":q:".toList = [':', 'q', ':'] := by decide
  unfold cursorKey
  rw [hsep, List.append_assoc, List.append_assoc]
  rfl

theorem cursorKey_cancel : cursorKey a x = cursorKey b y ↔
    a ++ (':' :: 'q' :: ':' :: x) = b ++ (':' :: 'q' :: ':' :: y) := by
  rw [cursorKey_split, cursorKey_split, List.append_cancel_left_eq]

theorem nested_of_append {u : Text} (h : ':' :: 'q' :: ':' :: x = u ++ ':' :: 'q' :: ':' :: y)
    (hne : u ≠ []) : Nested a (a ++ u) := by
  match u with
  | [] => exact absurd rfl hne
  | [c] =>
      simp only [List.cons_append, List.nil_append, List.cons.injEq] at h
      exact absurd h.2.1 (by decide)
  | [c, d] =>
      simp only [List.cons_append, List.nil_append, List.cons.injEq] at h
      obtain ⟨rfl, rfl, -⟩ := h
      exact .inl rfl
  | c :: d :: e :: rest =>
      simp only [List.cons_append, List.cons.injEq] at h
      obtain ⟨rfl, rfl, rfl, -⟩ := h
      exact .inr ⟨rest, List.append_assoc a _ rest⟩

-- Two cursors share a record only when one of the ids is nested in the other.
theorem nested_of_cursorKey (h : cursorKey a x = cursorKey b y) (hne : (a, x) ≠ (b, y)) :
    Nested a b ∨ Nested b a := by
  rw [cursorKey_cancel] at h
  rcases List.append_eq_append_iff.mp h with ⟨u, rfl, hu⟩ | ⟨u, rfl, hu⟩
  · refine .inl (nested_of_append hu ?_)
    rintro rfl
    simp only [List.nil_append, List.cons.injEq, true_and] at hu
    exact hne (by rw [List.append_nil, hu])
  · refine .inr (nested_of_append hu ?_)
    rintro rfl
    simp only [List.nil_append, List.cons.injEq, true_and] at hu
    exact hne (by rw [List.append_nil, hu])

theorem cursorKey_of_nested (h : Nested a b) : ∃ x y, cursorKey a x = cursorKey b y ∧ x ≠ y := by
  rcases h with rfl | ⟨rest, rfl⟩
  · refine ⟨['q', ':'], [], ?_, List.cons_ne_nil _ _⟩
    rw [cursorKey_cancel, List.append_assoc]
    rfl
  · refine ⟨rest ++ [':', 'q', ':'], [], ?_, by simp⟩
    rw [cursorKey_cancel, List.append_assoc, List.append_assoc]
    rfl

end Keys

-- What the consumer would be answered on the topic next.
def SameNext (site : Site) (consumer topic : Text) (w v : World) : Prop :=
  ∀ (context : Context) (request : Request) (envelope : Bool) (fuel : Nat),
    context.clientId = consumer →
      ((consumeMessage site.hmac context topic request envelope fuel).runOn w).1 =
        ((consumeMessage site.hmac context topic request envelope fuel).runOn v).1

-- Time goes by without a request.
def TimePasses (w v : World) : Prop :=
  v.store = w.store

-- In every run from an empty store, no command of a consume on behalf of one of these
-- clients changes what another pair of a client and a topic would be answered next.
def Isolated (ids : Text → Prop) : Prop :=
  ∀ (site : Site) (clock : Int) (redisMs : UInt64)
    (s : System Cmd Reply Call (Except Exn Answer) World),
    Run exec (Call.program site) TimePasses (fun _ _ => True)
      (.initial ⟨.empty, clock, redisMs⟩) s →
    ∀ (i : Nat) (context : Context) (topic : Text) (request : Request) (envelope : Bool)
      (fuel : Nat) (cmd : Cmd) (next : Reply cmd → Prog Cmd Reply (Except Exn Answer)),
      s.threads[i]? = some (.consume context topic request envelope fuel, .call cmd next) →
      ids context.clientId → ∀ consumer other, ids consumer →
        (context.clientId, topic) ≠ (consumer, other) →
          SameNext site consumer other s.world (exec cmd s.world).2

section Apart

theorem queueKey_ne_cursorKey (topic consumer other : Text) :
    queueKey topic ≠ cursorKey consumer other := by
  intro h
  injection h with h _
  exact absurd h (by decide)

-- A command that writes one cursor leaves every other cursor's next message.
theorem sameNext_of_uses {site : Site} {cmd : Cmd} {cursor consumer topic : Text}
    (h : cmd.Uses (fun _ => True) fun key => key = cursor)
    (hne : cursorKey consumer topic ≠ cursor) (hqueue : queueKey topic ≠ cursor) (w : World) :
    SameNext site consumer topic w (exec cmd w).2 := by
  rintro context request envelope fuel rfl
  have huses : (consumeMessage site.hmac context topic request envelope fuel).Uses
      (fun key => key = cursorKey context.clientId topic ∨ key = queueKey topic)
      (fun key => key = cursorKey context.clientId topic) :=
    consumeMessage_uses site.hmac context request envelope fuel (.inl rfl) rfl (.inr rfl)
  refine ((huses.agree ((h.frame w).mono ?_)).1).symm
  rintro key (rfl | rfl)
  · exact hne
  · exact hqueue

theorem isolated_of_not_nested {ids : Text → Prop}
    (h : ∀ a b, ids a → ids b → ¬ Nested a b) : Isolated ids := by
  intro site clock redisMs s hrun i context topic request envelope fuel cmd next hi hid consumer
    other hconsumer hne
  have hprogram : ((Call.consume context topic request envelope fuel).program site).Issues
      (Cmd.Uses (fun _ => True) fun key => key = cursorKey context.clientId topic) :=
    Handler.issues_map
      (consumeMessage_uses site.hmac context request envelope fuel trivial rfl trivial)
  have hcmd := ((hrun.threads_of_initial i _ _ hi).issues hprogram).1
  refine sameNext_of_uses hcmd ?_ (queueKey_ne_cursorKey _ _ _) s.world
  intro hsame
  rcases nested_of_cursorKey hsame.symm hne with hn | hn
  · exact h _ _ hid hconsumer hn
  · exact h _ _ hconsumer hid hn

end Apart

section Meeting

variable {a b x y : Text}

def named (clientId : Text) : Context :=
  { Context.small with clientId := clientId }

def request (body : Bytes) : Request := ⟨[], [], [], body⟩

def fields : List (Text × Bytes) :=
  [("payload".toList, [1]), ("exp".toList, utf8 "160".toList), ("client_id".toList, utf8 ['p'])]

def first : Entry := ⟨StreamId.zero.next 7, fields⟩

theorem publishedFields_named (topic : Text) :
    publishedFields (named ['p']) topic (request [1]) 60 100 = .ok fields := by
  have hacl : checkAcl (named ['p']).acl ("q/".toList ++ topic) .write = .ok () :=
    Acl.allowed_wildcard (.queue topic) .write
  unfold publishedFields
  rw [hacl]
  rfl

-- Two topics with one message each, put there by two publishes.
def stocked (x y : Text) : World :=
  appendEntry x fields (appendEntry y fields ⟨.empty, 100, 7⟩)

theorem publish_run (topic : Text) {w : World} (h : w.clock = 100) :
    (((Call.publish (named ['p']) topic (request [1]) 60).program .small).run exec w).2 =
      appendEntry topic fields w := by
  have hpublish := publishMessage_runOn Site.small.hmac (named ['p']) topic (request [1]) 60 w
  rw [h, publishedFields_named] at hpublish
  obtain ⟨response, hrun⟩ := hpublish
  change ((Answer.device <$> publishMessage Site.small.hmac _ topic _ 60).runOn w).2 = _
  rw [Handler.runOn_map, hrun]

theorem exists_stocked (x y : Text) :
    ∃ s : System Cmd Reply Call (Except Exn Answer) World,
      Run exec (Call.program .small) TimePasses (fun _ _ => True) (.initial ⟨.empty, 100, 7⟩) s ∧
        s.world = stocked x y := by
  have hstart : Run exec (Call.program .small) TimePasses (fun _ _ => True)
      (.initial ⟨.empty, 100, 7⟩) (.initial ⟨.empty, 100, 7⟩) := Relation.ReflTransGen.refl
  obtain ⟨s, hrun, hworld⟩ :=
    hstart.serve (Call.publish (named ['p']) y (request [1]) 60)
  obtain ⟨s', hrun', hworld'⟩ :=
    Run.serve hrun (Call.publish (named ['p']) x (request [1]) 60)
  refine ⟨s', hrun', ?_⟩
  have hfirst : s.world = appendEntry y fields ⟨.empty, 100, 7⟩ := by
    rw [hworld]
    exact publish_run y rfl
  rw [hworld', hfirst]
  exact publish_run x rfl

theorem stream?_appendEntry (topic other : Text) (w : World) (h : queueKey other ≠ queueKey topic) :
    (appendEntry topic fields w).store.stream? (queueKey other) =
      w.store.stream? (queueKey other) := by
  change ((w.store.xadd _ (queueKey topic) fields).2.expire (queueKey topic) _).stream? _ = _
  rw [Store.stream?_expire, if_neg h, Store.stream?_xadd, if_neg h]

theorem entries_appendEntry (topic : Text) {w : World}
    (h : w.store.stream? (queueKey topic) = none) (hms : w.redisMs = 7) :
    ((appendEntry topic fields w).store.stream (queueKey topic)).entries = [first] := by
  have hempty : w.store.stream (queueKey topic) = .empty := by
    simp [Store.stream, h]
  change (((w.store.xadd _ (queueKey topic) fields).2.expire (queueKey topic) _).stream _).entries
    = _
  rw [Store.entries_expire, Store.stream_xadd_self, Stream.entries_push, hempty, hms]
  rfl

theorem get_appendEntry (topic key : Text) (w : World) :
    (appendEntry topic fields w).store.get key = w.store.get key := by
  change ((w.store.xadd _ (queueKey topic) fields).2.expire (queueKey topic) _).get key = _
  rw [Store.get_expire, Store.get_xadd]

theorem queueKey_ne (hne : x ≠ y) : queueKey x ≠ queueKey y :=
  fun h => hne (List.append_cancel_left h)

theorem entries_stocked (hne : x ≠ y) :
    ((stocked x y).store.stream (queueKey x)).entries = [first] ∧
      ((stocked x y).store.stream (queueKey y)).entries = [first] := by
  constructor
  · apply entries_appendEntry x
    · rw [stream?_appendEntry y x _ (queueKey_ne hne)]
      rfl
    · rfl
  · have hkept := stream?_appendEntry x y (appendEntry y fields ⟨.empty, 100, 7⟩)
      (queueKey_ne hne.symm)
    have hfirst : ((appendEntry y fields ⟨.empty, 100, 7⟩).store.stream (queueKey y)).entries =
        [first] := entries_appendEntry y rfl rfl
    rw [← hfirst]
    simp only [Store.stream, stocked, hkept]

theorem sound_first : Sound first :=
  sound_of_published (publishedFields_named []) (by decide)

-- A consumer that starts from the beginning takes the message, one whose cursor stands
-- on it finds nothing.
theorem consume_stocked {clientId topic : Text} {w : World} (hclock : w.clock = 100)
    (hentries : (w.store.stream (queueKey topic)).entries = [first])
    (h : w.store.get (cursorKey clientId topic) = none) :
    ∃ response, (consumeMessage Site.small.hmac (named clientId) topic (request []) false 2).runOn w =
      (.ok response, { w with
        store := w.store.set (cursorKey clientId topic) (utf8 first.id.text) }) ∧
      response.status = 200 := by
  have hacl : checkAcl (named clientId).acl ("q/".toList ++ topic) .read = .ok () :=
    Acl.allowed_wildcard (.queue topic) .read
  have hlive : live w.clock first = true := by
    rw [hclock]
    decide
  have hpending : (w.store.stream (queueKey topic)).after .zero = [first] := by
    unfold Stream.after
    rw [hentries]
    decide
  have hposition : position (w.store.get (cursorKey (named clientId).clientId topic)) =
      some .zero := by
    rw [show (named clientId).clientId = clientId from rfl, h]
    rfl
  have hconsume : ∃ response, (consumeMessage Site.small.hmac (named clientId) topic (request [])
      false 2).runOn w = _ ∧ _ := consumeMessage_runOn Site.small.hmac hacl hposition hpending
    (by simpa using sound_first) (by simp)
    (fun entry hentry => by
      obtain rfl : first = entry := by simpa [hlive] using hentry
      exact (messageBody_plain sound_first).imp fun _ hbody => hbody.1)
  obtain ⟨response, hrun, hanswer⟩ := hconsume
  refine ⟨response, ?_, ?_⟩
  · rw [hrun]
    simp only [Feed.passed, hlive, ite_true]
    rfl
  · simp only [List.find?_cons, hlive] at hanswer
    exact hanswer.1

theorem consume_nothing {clientId topic : Text} {w : World}
    (hentries : (w.store.stream (queueKey topic)).entries = [first])
    (h : w.store.get (cursorKey clientId topic) = some (utf8 first.id.text)) :
    ∃ response w', (consumeMessage Site.small.hmac (named clientId) topic (request []) false 2).runOn
      w = (.ok response, w') ∧ response.status = 204 := by
  have hacl : checkAcl (named clientId).acl ("q/".toList ++ topic) .read = .ok () :=
    Acl.allowed_wildcard (.queue topic) .read
  have hpending : (w.store.stream (queueKey topic)).after first.id = [] := by
    unfold Stream.after
    rw [hentries]
    decide
  have hposition : position (w.store.get (cursorKey (named clientId).clientId topic)) =
      some first.id := by
    rw [show (named clientId).clientId = clientId from rfl, h, position_text]
  have hconsume : ∃ response, (consumeMessage Site.small.hmac (named clientId) topic (request [])
      false 2).runOn w = _ ∧ _ := consumeMessage_runOn Site.small.hmac hacl hposition hpending
    (by simp) (by simp) (by simp)
  obtain ⟨response, hrun, hanswer⟩ := hconsume
  exact ⟨response, _, hrun, hanswer⟩

theorem SameNext.trans {site : Site} {consumer topic : Text} {u v w : World}
    (h : SameNext site consumer topic u v) (h' : SameNext site consumer topic v w) :
    SameNext site consumer topic u w :=
  fun context request envelope fuel hid =>
    (h context request envelope fuel hid).trans (h' context request envelope fuel hid)

-- A consume of the one client takes the message of the other along.
theorem not_isolated_of_nested {ids : Text → Prop} (ha : ids a) (hb : ids b)
    (h : Nested a b) : ¬ Isolated ids := by
  intro hisolated
  obtain ⟨x, y, hkey, hne⟩ := cursorKey_of_nested h
  obtain ⟨s, hrun, hworld⟩ := exists_stocked x y
  obtain ⟨hx, hy⟩ := entries_stocked hne
  set call : Call := .consume (named a) x (request []) false 2
  have hstart := hrun.tail ⟨Step.start s call, trivial⟩
  have hkeeps : SameNext .small b y s.world ((call.program .small).run exec s.world).2 := by
    have hi : (s.start call (call.program .small)).threads[s.threads.length]? =
        some (call, call.program .small) := by
      simp [System.start]
    refine Run.keeps hstart hi (SameNext .small b y) (fun _ _ _ _ _ _ => rfl)
      (fun _ _ _ h h' => h.trans h') ?_
    intro s' hrun' cmd next hi
    exact hisolated .small 100 7 s' hrun' _ _ x _ _ _ cmd next hi ha b y hb (by simp [hne])
  have hnone : (stocked x y).store.get (cursorKey a x) = none := by
    rw [stocked, get_appendEntry, get_appendEntry, Store.get_empty]
  obtain ⟨taken, htaken, -⟩ := consume_stocked rfl hx hnone
  have hafter : ((call.program .small).run exec (stocked x y)).2 = { stocked x y with
        store := (stocked x y).store.set (cursorKey a x) (utf8 first.id.text) } := by
    change ((Answer.device <$> consumeMessage Site.small.hmac _ x _ false 2).runOn _).2 = _
    rw [Handler.runOn_map, htaken]
  rw [hworld, hafter] at hkeeps
  rw [hkey] at hnone
  obtain ⟨before, hbefore, hok⟩ := consume_stocked rfl hy hnone
  let w : World := { stocked x y with
    store := (stocked x y).store.set (cursorKey a x) (utf8 first.id.text) }
  have hcursor : w.store.get (cursorKey b y) = some (utf8 first.id.text) := by
    rw [← hkey, Store.get_set_self]
  obtain ⟨after, w', hlater, hempty⟩ := consume_nothing (show (w.store.stream _).entries = _ from hy)
    hcursor
  have hsame := hkeeps (named b) (request []) false 2 rfl
  change ((consumeMessage Site.small.hmac (named b) y (request []) false 2).runOn _).1 =
    ((consumeMessage Site.small.hmac (named b) y (request []) false 2).runOn _).1 at hsame
  rw [hbefore, hlater] at hsame
  obtain rfl := Except.ok.inj hsame
  rw [hok] at hempty
  cases hempty

end Meeting

-- Put together: consumers are kept apart when none of their ids is nested in another.
theorem isolated_iff (ids : Text → Prop) :
    Isolated ids ↔ ∀ a b, ids a → ids b → ¬ Nested a b := by
  constructor
  · intro h a b ha hb hn
    exact not_isolated_of_nested ha hb hn h
  · exact isolated_of_not_nested

-- Both ids are accepted, and the one's messages go with the other's.
theorem nested_ids_meet :
    checkProvision ['c'] ['a'] = .ok () ∧ checkProvision "c:q:t".toList ['a'] = .ok () ∧
      ¬ Isolated (fun id => id = ['c'] ∨ id = "c:q:t".toList) := by
  refine ⟨by decide, by decide, ?_⟩
  exact not_isolated_of_nested (.inl rfl) (.inr rfl) (.inr ⟨['t'], by decide⟩)

end Stra2us.Queue
