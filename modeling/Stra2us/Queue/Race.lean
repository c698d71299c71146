import Stra2us.Foundation.Cell
import Stra2us.Queue.Cursor
import Stra2us.Server.Footprint
import Stra2us.Server.Trace

namespace Stra2us.Queue

open Foundation Server

-- The second cursor is at a later id than the first.
def Beyond (a b : Option Bytes) : Prop :=
  ∃ i j, position a = some i ∧ position b = some j ∧ i < j

theorem Beyond.trans {a b c : Option Bytes} (hab : Beyond a b) (hbc : Beyond b c) : Beyond a c := by
  obtain ⟨i, j, hi, hj, hij⟩ := hab
  obtain ⟨j', k, hj', hk, hjk⟩ := hbc
  rw [hj] at hj'
  obtain rfl := Option.some.inj hj'
  exact ⟨i, k, hi, hk, hij.trans hjk⟩

theorem Beyond.irrefl {a : Option Bytes} : ¬ Beyond a a := by
  rintro ⟨i, j, hi, hj, hij⟩
  rw [hi] at hj
  obtain rfl := Option.some.inj hj
  exact lt_irrefl _ hij

section Cursor

variable (cursor : Text)

-- The cursor record as the commands see it.
def cursorCell : Cell exec (Option Bytes) where
  stored w := w.store.get cursor
  learns
    | .get key, reply => if key = cursor then some reply else none
    | .set key value, _ => if key = cursor then some (some value) else none
    | .delete keys, _ => if cursor ∈ keys then some none else none
    | _, _ => none
  writes
    | .set key value => if key = cursor then some (some value) else none
    | .delete keys => if cursor ∈ keys then some none else none
    | _ => none
  scope cmd := match cmd with
    | .kvencNonce key _ => key ≠ cursor
    | _ => True
  stored_write := by
    intro cmd v w _ hv
    cases cmd with
    | set key value =>
        by_cases hk : key = cursor
        · subst hk
          simpa using hv
        · simp [hk] at hv
    | delete keys =>
        by_cases hk : cursor ∈ keys
        · simpa [hk, Store.get_delete] using hv
        · simp [hk] at hv
    | _ => cases hv
  stored_keep := by
    intro cmd w hscope hv
    cases cmd with
    | set key value =>
        by_cases hk : key = cursor
        · simp [hk] at hv
        · exact Store.get_set_of_ne _ (Ne.symm hk) _
    | delete keys =>
        by_cases hk : cursor ∈ keys
        · simp [hk] at hv
        · simp [Store.get_delete, hk]
    | expire key seconds => exact Store.get_expire _ _ _ _
    | kvencNonce key now =>
        change (kvencNonceLua w.store key now).2.get cursor = _
        unfold kvencNonceLua
        cases lastNonce w.store key with
        | none => rfl
        | some last => exact Store.get_set_of_ne _ (Ne.symm hscope) _
    | time => rfl
    | get key => rfl
    | xadd key fields => rfl
    | xread key last count => rfl

-- What Redis can answer: a batch lies beyond the id it was asked from.
def possible : (cmd : Cmd) → Reply cmd → Prop
  | .xread _ last _, some entries =>
      ∃ id, StreamId.parse last = some id ∧ ∀ entry ∈ entries, id < entry.id
  | _, _ => True

theorem possible_exec (cmd : Cmd) (w : World) : possible cmd (exec cmd w).1 := by
  cases cmd with
  | xread key last count =>
      rw [exec_xread]
      cases hp : StreamId.parse last with
      | none => trivial
      | some id =>
          refine ⟨id, hp, ?_⟩
          intro entry he
          exact (Stream.mem_after.mp (List.mem_of_mem_take he)).2
  | _ => trivial

variable {cursor}

theorem writes_of_onlyOverwrites {keys : Text → Prop} {consumerId topic : Text} {cmd : Cmd}
    (h : OnlyOverwrites keys cmd) (hkeys : ¬ keys (cursorKey consumerId topic)) :
    (cursorCell (cursorKey consumerId topic)).scope cmd ∧
      (cursorCell (cursorKey consumerId topic)).writes cmd = none := by
  cases cmd with
  | set key value =>
      have hk : key ≠ cursorKey consumerId topic := fun hk => hkeys (h.within _ hk)
      exact ⟨trivial, by simp [cursorCell, hk]⟩
  | delete ks =>
      have hk : cursorKey consumerId topic ∉ ks := fun hk => hkeys (h.within _ hk)
      exact ⟨trivial, by simp [cursorCell, hk]⟩
  | kvencNonce key now =>
      obtain ⟨clientId, rfl⟩ := h.nonce
      exact ⟨by simp [cursorCell, nonceKey_eq, cursorKey_eq], rfl⟩
  | _ => exact ⟨trivial, rfl⟩

-- Commands that leave the cursor alone ascend from anything.
theorem ascends_of_issues {α : Type} {consumerId topic : Text} {handler : Handler α}
    {keys : Text → Prop} (h : handler.Issues (OnlyOverwrites keys))
    (hkeys : ¬ keys (cursorKey consumerId topic)) (seen : Option (Option Bytes)) :
    (cursorCell (cursorKey consumerId topic)).Ascends Beyond possible handler.run seen :=
  Cell.Ascends.of_issues (h.mono fun _ hc => writes_of_onlyOverwrites hc hkeys) seen

theorem ascends_bind {α β : Type} {handler : Handler α} {f : α → Handler β}
    {seen : Option (Option Bytes)}
    (h : (cursorCell cursor).Ascends Beyond possible handler.run seen)
    (hf : ∀ value seen', (cursorCell cursor).Ascends Beyond possible (f value).run seen') :
    (cursorCell cursor).Ascends Beyond possible (handler >>= f).run seen := by
  refine Cell.Ascends.bind h ?_
  intro result seen'
  cases result with
  | ok value => exact hf value seen'
  | error exn => trivial

-- The scan ends on an entry of its batch, and on the live one where there is one.
theorem scanBatch_last {now : Int} {lastId newId : Text} {entries : List Entry}
    {live : Option Entry} (h : scanBatch now lastId entries = .ok (newId, live)) :
    (entries = [] ∧ newId = lastId ∧ live = none) ∨
      ∃ entry ∈ entries, newId = entry.id.text ∧ ∀ e, live = some e → e = entry := by
  induction entries generalizing lastId with
  | nil =>
      simp only [scanBatch, Except.ok.injEq, Prod.mk.injEq] at h
      exact Or.inl ⟨rfl, h.1.symm, h.2.symm⟩
  | cons entry rest ih =>
      right
      unfold scanBatch at h
      cases hexp : entryExp entry with
      | error exn =>
          rw [hexp] at h
          cases h
      | ok exp =>
          rw [hexp] at h
          simp only [bind, Except.bind] at h
          by_cases hle : now ≤ exp
          · simp only [hle, ite_true, Except.ok.injEq, Prod.mk.injEq] at h
            refine ⟨entry, by simp, h.1.symm, ?_⟩
            intro e he
            rw [← h.2] at he
            exact (Option.some.inj he).symm
          · simp only [hle, ite_false] at h
            rcases ih h with ⟨rfl, hnew, hlive⟩ | ⟨e, he, hnew, hlive⟩
            · exact ⟨entry, by simp, hnew, by simp [hlive]⟩
            · exact ⟨e, List.mem_cons_of_mem _ he, hnew, hlive⟩

-- Every turn of the polling loop stores an id beyond the one it read from.
theorem nextMessage_ascends (topic : Text) (now : Int) (fuel : Nat) {lastId : Text}
    {seen : Option Bytes} (hseen : position seen = StreamId.parse lastId) :
    (cursorCell cursor).Ascends Beyond possible
      (nextMessage cursor topic now fuel lastId).run (some seen) := by
  induction fuel generalizing lastId seen with
  | zero => trivial
  | succ fuel ih =>
      rw [run_nextMessage_succ]
      refine ⟨trivial, by simp [cursorCell], ?_⟩
      intro reply hreply
      match reply with
      | none => trivial
      | some [] => trivial
      | some (entry :: rest) =>
          obtain ⟨id, hid, hbeyond⟩ := hreply
          cases hscan : scanBatch now lastId (entry :: rest) with
          | error exn =>
              simp only [hscan]
              trivial
          | ok scanned =>
              obtain ⟨newId, live⟩ := scanned
              simp only [hscan]
              obtain ⟨e, he, hnew, -⟩ := (scanBatch_last hscan).resolve_left (by simp)
              subst hnew
              have hsaw : (cursorCell cursor).seenAfter (.set cursor (utf8 e.id.text)) ()
                  (some seen) = some (some (utf8 e.id.text)) := by
                simp [Cell.seenAfter, cursorCell]
              refine ⟨trivial, ?_, ?_⟩
              · intro v hv
                have hv' : some (utf8 e.id.text) = v := by simpa [cursorCell] using hv
                subst hv'
                exact ⟨seen, rfl, id, e.id, hseen.trans hid, by simp, hbeyond e he⟩
              · intro _ _
                cases live with
                | some _ => trivial
                | none => exact hsaw ▸ ih (by simp)

variable (hmac : Hmac)

theorem consumeTagged_ascends (context : Context) (topic : Text) (request : Request)
    (envelope : Bool) (fuel : Nat) :
    (cursorCell (cursorKey context.clientId topic)).Ascends Beyond possible
      (consumeTagged hmac context topic request envelope fuel).run none := by
  set cursor := cursorKey context.clientId topic
  unfold consumeTagged
  cases checkAcl context.acl ("q/".toList ++ topic) .read with
  | error exn => trivial
  | ok _ =>
      refine ⟨trivial, by simp [cursorCell], ?_⟩
      intro stored _
      have hsaw : (cursorCell cursor).seenAfter (.get cursor) stored none = some stored := by
        simp [Cell.seenAfter, cursorCell]
      change (cursorCell cursor).Ascends Beyond possible
        (Handler.ofExcept (cursorStart stored) >>= _).run
          ((cursorCell cursor).seenAfter (.get cursor) stored none)
      rw [hsaw]
      cases hstart : cursorStart stored with
      | error exn => trivial
      | ok lastId =>
          have hposition : position stored = StreamId.parse lastId := position_of_cursorStart hstart
          refine ⟨trivial, by simp [cursorCell], ?_⟩
          intro now _
          refine ascends_bind (nextMessage_ascends topic now fuel hposition) ?_
          intro message seen'
          have hquiet : Handler.Issues (OnlyOverwrites fun _ => False)
              (handOut hmac context request envelope message) :=
            handOut_issues hmac context request envelope message
          exact ascends_of_issues hquiet id seen'

theorem tagged_ascends (site : Site) (consumerId topic : Text) (call : Call) :
    (cursorCell (cursorKey consumerId topic)).Ascends Beyond possible (call.tagged site) none := by
  by_cases hown : call.overwrites (cursorKey consumerId topic)
  · cases call with
    | consume context topic' request envelope fuel =>
        have hkey : cursorKey consumerId topic = cursorKey context.clientId topic' := hown
        rw [hkey]
        refine ascends_bind (β := Option Entry × Answer)
          (consumeTagged_ascends site.hmac context topic' request envelope fuel) ?_
        intro value seen'
        trivial
    | _ =>
        simp [Call.overwrites, cursorKey_eq, kvKey_eq, encKey_eq, queueKey_eq, clientSecretKey_eq,
          clientAclKey_eq, deviceToAppKey_eq, adminAclKey_eq] at hown
  · have hissues : Handler.Issues (OnlyOverwrites call.overwrites) (call.handler site) :=
      call.issues site
    have htagged : Handler.Issues (OnlyOverwrites call.overwrites) (call.taggedHandler site) := by
      cases call with
      | consume context topic' request envelope fuel =>
          exact Handler.issues_map
            (consumeTagged_issues site.hmac context request topic' envelope fuel rfl)
      | _ => exact Handler.issues_map hissues
    exact ascends_of_issues htagged hown none

end Cursor

section Deliveries

-- Request `i` is a consume of this client on this topic that has returned the entry.
def Delivered (clientId topic : Text)
    (s : System Cmd Reply Call (Except Exn (Option Entry × Answer)) World) (i : Nat)
    (entry : Entry) : Prop :=
  ∃ context request envelope fuel response,
    s.threads[i]? = some (.consume context topic request envelope fuel,
      .done (.ok (some entry, .device response))) ∧ context.clientId = clientId

theorem nextMessage_stores {cursor topic : Text} {now : Int} {fuel : Nat} {lastId : Text}
    {events : List (Event Cmd Reply)} {entry : Entry}
    (h : Handler.Returns (nextMessage cursor topic now fuel lastId) events (.ok (some entry))) :
    ∃ thread, (⟨thread, .set cursor (utf8 entry.id.text), ()⟩ : Event Cmd Reply) ∈ events := by
  induction fuel generalizing lastId events with
  | zero =>
      obtain ⟨-, he⟩ := Handler.returns_throw.mp h
      cases he
  | succ fuel ih =>
      unfold Handler.Returns at h
      rw [run_nextMessage_succ, after_call_done] at h
      obtain ⟨a, reply, rest, rfl, hnext⟩ := h
      match reply with
      | none => cases (after_done.mp hnext).2
      | some [] => cases (after_done.mp hnext).2
      | some (head :: tail) =>
          cases hscan : scanBatch now lastId (head :: tail) with
          | error exn =>
              simp only [hscan] at hnext
              cases (after_done.mp hnext).2
          | ok scanned =>
              obtain ⟨newId, live⟩ := scanned
              simp only [hscan, after_call_done] at hnext
              obtain ⟨b, _, rest', rfl, hlast⟩ := hnext
              cases live with
              | none =>
                  obtain ⟨thread, hmem⟩ := ih hlast
                  exact ⟨thread, by simp [hmem]⟩
              | some found =>
                  have hfound : found = entry := by
                    have he := (after_done.mp hlast).2
                    simpa using he.symm
                  subst hfound
                  obtain ⟨e, -, rfl, hlive⟩ := (scanBatch_last hscan).resolve_left (by simp)
                  exact ⟨b, by simp [hlive found rfl]⟩

theorem handOut_entry {hmac : Hmac} {context : Context} {request : Request} {envelope : Bool}
    {message : Option Entry} {events : List (Event Cmd Reply)}
    {tagged : Option Entry × Response}
    (h : Handler.Returns (handOut hmac context request envelope message) events (.ok tagged)) :
    tagged.1 = message := by
  cases message with
  | none =>
      obtain ⟨_, _, response, -, -, hpure⟩ := Handler.returns_bind_ok.mp h
      rw [Except.ok.inj (Handler.returns_pure.mp hpure).2]
  | some entry =>
      obtain ⟨body, -, hsigned⟩ := Handler.returns_ofExcept_bind_ok.mp h
      obtain ⟨_, _, response, -, -, hpure⟩ := Handler.returns_bind_ok.mp hsigned
      rw [Except.ok.inj (Handler.returns_pure.mp hpure).2]

-- A consume that returned an entry has stored its id.
theorem consumeTagged_stores {hmac : Hmac} {context : Context} {topic : Text} {request : Request}
    {envelope : Bool} {fuel : Nat} {events : List (Event Cmd Reply)} {entry : Entry}
    {response : Response}
    (h : Handler.Returns (consumeTagged hmac context topic request envelope fuel) events
      (.ok (some entry, response))) :
    ∃ thread, (⟨thread, .set (cursorKey context.clientId topic) (utf8 entry.id.text), ()⟩ :
      Event Cmd Reply) ∈ events := by
  obtain ⟨-, -, hacl⟩ := Handler.returns_ofExcept_bind_ok.mp h
  obtain ⟨a, stored, rest, rfl, hget⟩ := Handler.returns_ask_bind_ok.mp hacl
  obtain ⟨lastId, -, hstart⟩ := Handler.returns_ofExcept_bind_ok.mp hget
  obtain ⟨b, now, rest', rfl, htime⟩ := Handler.returns_ask_bind_ok.mp hstart
  obtain ⟨first, second, message, rfl, hnext, hout⟩ := Handler.returns_bind_ok.mp htime
  obtain rfl : some entry = message := handOut_entry hout
  obtain ⟨thread, hmem⟩ := nextMessage_stores hnext
  exact ⟨thread, by simp [hmem]⟩

variable {site : Site} {clientId topic : Text} {w : World}
  {s s' : System Cmd Reply Call (Except Exn (Option Entry × Answer)) World}

-- Between two commands anything else may happen, as long as the cursor record stays.
def KeepsCursor (cursor : Text) (w w' : World) : Prop :=
  w'.store.get cursor = w.store.get cursor

theorem Delivered.stored
    {condition : System Cmd Reply Call (Except Exn (Option Entry × Answer)) World →
      System Cmd Reply Call (Except Exn (Option Entry × Answer)) World → Prop}
    (hrun : Run exec (Call.tagged site) (KeepsCursor (cursorKey clientId topic)) condition
      (.initial w) s) {i : Nat} {entry : Entry} (h : Delivered clientId topic s i entry) :
    (⟨i, .set (cursorKey clientId topic) (utf8 entry.id.text), ()⟩ : Event Cmd Reply) ∈
      s.history := by
  obtain ⟨context, request, envelope, fuel, response, hthread, rfl⟩ := h
  have hafter := hrun.threads_of_initial i _ _ hthread
  obtain ⟨tagged, hreturns, htagged⟩ := Handler.returns_map_ok.mp
    (show Handler.Returns ((fun tagged => (tagged.1, Answer.device tagged.2)) <$>
      consumeTagged site.hmac context topic request envelope fuel) (s.eventsOf i)
      (.ok (some entry, .device response)) from hafter)
  simp only [Prod.mk.injEq, Answer.device.injEq] at htagged
  obtain ⟨hentry, -⟩ := htagged
  obtain ⟨delivered, answer⟩ := tagged
  subst hentry
  obtain ⟨thread, hmem⟩ := consumeTagged_stores hreturns
  obtain ⟨hhistory, hthread⟩ := List.mem_filter.mp hmem
  have : thread = i := by simpa using hthread
  rwa [this] at hhistory

-- When each store of the cursor finds it where the request last saw or put it, no
-- entry goes out twice and the cursor only moves to later ids, whatever else runs.
theorem consume_once_of_held
    (hrun : Run exec (Call.tagged site) (KeepsCursor (cursorKey clientId topic))
      (cursorCell (cursorKey clientId topic)).Held (.initial w) s)
    (hrest : Run exec (Call.tagged site) (KeepsCursor (cursorKey clientId topic))
      (cursorCell (cursorKey clientId topic)).Held s s') :
    (∀ i j entry entry', Delivered clientId topic s i entry → Delivered clientId topic s j entry' →
      entry.id = entry'.id → i = j) ∧
    (s'.world.store.get (cursorKey clientId topic) = s.world.store.get (cursorKey clientId topic) ∨
      Beyond (s.world.store.get (cursorKey clientId topic))
        (s'.world.store.get (cursorKey clientId topic))) := by
  set cursor := cursorKey clientId topic with hcursor
  have hprogram : ∀ call : Call, (cursorCell cursor).Ascends Beyond possible (call.tagged site) none :=
    tagged_ascends site clientId topic
  have htrans : ∀ a b c, Beyond a b → Beyond b c → Beyond a c := fun _ _ _ => Beyond.trans
  have hdrift : ∀ w w', KeepsCursor cursor w w' → (cursorCell cursor).stored w' =
    (cursorCell cursor).stored w := fun _ _ h => h
  constructor
  · intro i j entry entry' hi hj hid
    have hpair := (Cell.written_pairwise _ hprogram possible_exec htrans hdrift hrun).1
    have hei := hi.stored hrun
    have hej := hj.stored hrun
    rw [← hid] at hej
    rw [Cell.written, List.pairwise_filterMap, List.pairwise_iff_getElem] at hpair
    have hwrites : ∀ thread, (cursorCell cursor).writes
        (⟨thread, .set cursor (utf8 entry.id.text), ()⟩ : Event Cmd Reply).cmd =
          some (some (utf8 entry.id.text)) := by
      intro thread
      simp [cursorCell]
    obtain ⟨a, ha, hea⟩ := List.getElem_of_mem hei
    obtain ⟨b, hb, heb⟩ := List.getElem_of_mem hej
    rcases Nat.lt_trichotomy a b with hlt | rfl | hgt
    · exact absurd (hpair a b ha hb hlt _ (hea ▸ hwrites i) _ (heb ▸ hwrites j)) Beyond.irrefl
    · rw [hea] at heb
      exact congrArg Event.thread heb
    · exact absurd (hpair b a hb ha hgt _ (heb ▸ hwrites j) _ (hea ▸ hwrites i)) Beyond.irrefl
  · exact Cell.stored_ascends _ hprogram possible_exec htrans hdrift hrun hrest

-- A topic with two live messages, and consumes of one client on it.
def message (id : StreamId) : Entry :=
  ⟨id, [("payload".toList, [0xc0]), ("exp".toList, utf8 "900".toList),
    ("client_id".toList, utf8 ['p'])]⟩

def twoMessages : World where
  store := ((Store.empty.xadd 7 (queueKey ['t']) (message .zero).fields).2.xadd 8
    (queueKey ['t']) (message .zero).fields).2
  clock := 100
  redisMs := 9

def consume : Call :=
  .consume .small ['t'] ⟨"GET".toList, "/q/t".toList, [], []⟩ false 3

def oneAfterAnother : List (Move Call World) :=
  [.start consume, .turn 0, .turn 0, .turn 0, .turn 0, .turn 0,
    .start consume, .turn 1, .turn 1, .turn 1, .turn 1, .turn 1]

set_option maxRecDepth 10000 in
theorem consume_once_of_oneAfterAnother :
    let s := (System.initial twoMessages).play exec (Call.tagged .small) oneAfterAnother
    Delivered ['c'] ['t'] s 0 (message ⟨7, 0⟩) ∧ Delivered ['c'] ['t'] s 1 (message ⟨8, 0⟩) ∧
      (∀ i j entry entry', Delivered ['c'] ['t'] s i entry → Delivered ['c'] ['t'] s j entry' →
        entry.id = entry'.id → i = j) := by
  refine ⟨⟨_, _, _, _, _, rfl, rfl⟩, ⟨_, _, _, _, _, rfl, rfl⟩, ?_⟩
  have hrun : Run exec (Call.tagged .small) (KeepsCursor (cursorKey ['c'] ['t']))
      (cursorCell (cursorKey ['c'] ['t'])).Held (.initial twoMessages) _ :=
    Run.of_checkPlay (Cell.held_move _) oneAfterAnother (by decide)
  exact (consume_once_of_held hrun Relation.ReflTransGen.refl).1

-- The first consume reads the cursor, two others take both messages, and only then
-- does the first go on: it hands out the first message again and sets the cursor back.
def overtaken : List (Move Call World) :=
  [.start consume, .turn 0, .start consume, .turn 1, .turn 1, .turn 1, .turn 1, .turn 1,
    .start consume, .turn 2, .turn 2, .turn 2, .turn 2, .turn 2]

def late : List (Move Call World) :=
  [.turn 0, .turn 0, .turn 0, .turn 0]

set_option maxRecDepth 10000 in
theorem consume_twice : ∃ s s',
    Run exec (Call.tagged .small) (KeepsCursor (cursorKey ['c'] ['t'])) (fun _ _ => True)
      (.initial twoMessages) s ∧
    Run exec (Call.tagged .small) (KeepsCursor (cursorKey ['c'] ['t'])) (fun _ _ => True) s s' ∧
    Delivered ['c'] ['t'] s' 0 (message ⟨7, 0⟩) ∧ Delivered ['c'] ['t'] s' 1 (message ⟨7, 0⟩) ∧
    Beyond (s'.world.store.get (cursorKey ['c'] ['t']))
      (s.world.store.get (cursorKey ['c'] ['t'])) := by
  refine ⟨_, _, Run.of_free_play overtaken (by decide), Run.of_free_play late (by decide),
    ⟨_, _, _, _, _, rfl, rfl⟩, ⟨_, _, _, _, _, rfl, rfl⟩, ?_⟩
  exact ⟨⟨7, 0⟩, ⟨8, 0⟩, by decide, by decide, by decide⟩

end Deliveries

end Stra2us.Queue
