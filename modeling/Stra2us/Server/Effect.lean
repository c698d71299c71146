import Stra2us.Foundation.Program
import Stra2us.Foundation.Store
import Stra2us.Foundation.Value

namespace Stra2us.Server

open Foundation

-- What a handler asks of the world outside: the worker's clock, and single Redis
-- commands. The nonce script runs inside Redis as one command.
inductive Cmd
  | time
  | get (key : Text)
  | set (key : Text) (value : Bytes)
  | delete (keys : List Text)
  | xadd (key : Text) (fields : List (Text × Bytes))
  | xread (key : Text) (last : Text) (count : Nat)
  | expire (key : Text) (seconds : Nat)
  | kvencNonce (key : Text) (now : Int)
deriving DecidableEq

-- XREAD and the script answer nothing where Redis would answer an error.
abbrev Reply : Cmd → Type
  | .time => Int
  | .get _ => Option Bytes
  | .set _ _ => Unit
  | .delete _ => Unit
  | .xadd _ _ => StreamId
  | .xread _ _ _ => Option (List Entry)
  | .expire _ _ => Unit
  | .kvencNonce _ _ => Option Int

-- The worker's clock shows whole seconds; Redis stamps entries from its own.
structure World where
  store : Store
  clock : Int
  redisMs : UInt64

def lastNonce (store : Store) (key : Text) : Option Int :=
  match store.get key with
  | none => some 0
  | some raw => (utf8Decode raw).bind decimalInt

-- `_KVENC_NONCE_LUA`: the larger of the clock and one past the last nonce, stored
-- back. Lua numbers are exact in the range a clock and its successors can reach.
def kvencNonceLua (store : Store) (key : Text) (now : Int) : Option Int × Store :=
  match lastNonce store key with
  | none => (none, store)
  | some last =>
      let nonce := if last ≥ now then last + 1 else now
      (some nonce, store.set key (utf8 (intText nonce)))

def exec : (cmd : Cmd) → World → Reply cmd × World
  | .time, w => (w.clock, w)
  | .get key, w => (w.store.get key, w)
  | .set key value, w => ((), { w with store := w.store.set key value })
  | .delete keys, w => ((), { w with store := w.store.delete keys })
  | .xadd key fields, w =>
      let added := w.store.xadd w.redisMs.toNat key fields
      (added.1, { w with store := added.2 })
  | .xread key last count, w =>
      ((StreamId.parse last).map fun id => w.store.xread key id count, w)
  | .expire key seconds, w =>
      ((), { w with store := w.store.expire key (w.redisMs.toNat + 1000 * seconds) })
  | .kvencNonce key now, w =>
      let result := kvencNonceLua w.store key now
      (result.1, { w with store := result.2 })

@[simp] theorem exec_time (w : World) : exec .time w = (w.clock, w) := rfl

@[simp] theorem exec_get (key : Text) (w : World) : exec (.get key) w = (w.store.get key, w) := rfl

@[simp] theorem exec_set (key : Text) (value : Bytes) (w : World) :
    exec (.set key value) w = ((), { w with store := w.store.set key value }) := rfl

@[simp] theorem exec_delete (keys : List Text) (w : World) :
    exec (.delete keys) w = ((), { w with store := w.store.delete keys }) := rfl

@[simp] theorem exec_xread (key last : Text) (count : Nat) (w : World) :
    exec (.xread key last count) w =
      ((StreamId.parse last).map fun id => w.store.xread key id count, w) := rfl

-- `http` is an HTTPException, `python` an uncaught exception by its class name, and
-- `outOfFuel` marks a loop cut off by the model.
inductive Exn
  | http (status : Nat) (detail : Text)
  | python (name : Text)
  | outOfFuel
deriving DecidableEq, Repr

abbrev Handler (α : Type) : Type :=
  ExceptT Exn (Prog Cmd Reply) α

namespace Handler

def ask (cmd : Cmd) : Handler (Reply cmd) :=
  ExceptT.lift (Prog.perform cmd)

def ofExcept {α : Type} (result : Except Exn α) : Handler α :=
  ExceptT.mk (Prog.done result)

def time : Handler Int := ask .time

def get (key : Text) : Handler (Option Bytes) := ask (.get key)

def set (key : Text) (value : Bytes) : Handler Unit := ask (.set key value)

def delete (keys : List Text) : Handler Unit := ask (.delete keys)

def xadd (key : Text) (fields : List (Text × Bytes)) : Handler StreamId := ask (.xadd key fields)

def xread (key last : Text) (count : Nat) : Handler (Option (List Entry)) :=
  ask (.xread key last count)

def expire (key : Text) (seconds : Nat) : Handler Unit := ask (.expire key seconds)

def kvencNonce (key : Text) (now : Int) : Handler (Option Int) := ask (.kvencNonce key now)

variable {α β : Type}

@[simp] theorem run_ask (cmd : Cmd) :
    (ask cmd).run = .call cmd fun reply => .done (.ok reply) := rfl

@[simp] theorem run_ask_bind (cmd : Cmd) (f : Reply cmd → Handler β) :
    (ask cmd >>= f).run = .call cmd fun reply => (f reply).run := rfl

@[simp] theorem run_time_bind (f : Int → Handler β) :
    (time >>= f).run = .call .time fun reply => (f reply).run := rfl

@[simp] theorem run_get_bind (key : Text) (f : Option Bytes → Handler β) :
    (get key >>= f).run = .call (.get key) fun reply => (f reply).run := rfl

@[simp] theorem run_set_bind (key : Text) (value : Bytes) (f : Unit → Handler β) :
    (set key value >>= f).run = .call (.set key value) fun reply => (f reply).run := rfl

@[simp] theorem run_delete_bind (keys : List Text) (f : Unit → Handler β) :
    (delete keys >>= f).run = .call (.delete keys) fun reply => (f reply).run := rfl

@[simp] theorem run_xadd_bind (key : Text) (fields : List (Text × Bytes))
    (f : StreamId → Handler β) :
    (xadd key fields >>= f).run = .call (.xadd key fields) fun reply => (f reply).run := rfl

@[simp] theorem run_xread_bind (key last : Text) (count : Nat)
    (f : Option (List Entry) → Handler β) :
    (xread key last count >>= f).run =
      .call (.xread key last count) fun reply => (f reply).run := rfl

@[simp] theorem run_expire_bind (key : Text) (seconds : Nat) (f : Unit → Handler β) :
    (expire key seconds >>= f).run = .call (.expire key seconds) fun reply => (f reply).run := rfl

@[simp] theorem run_kvencNonce_bind (key : Text) (now : Int) (f : Option Int → Handler β) :
    (kvencNonce key now >>= f).run =
      .call (.kvencNonce key now) fun reply => (f reply).run := rfl

@[simp] theorem run_ofExcept (result : Except Exn α) :
    (ofExcept result).run = .done result := rfl

@[simp] theorem run_ofExcept_ok_bind (value : α) (f : α → Handler β) :
    (ofExcept (.ok value) >>= f).run = (f value).run := rfl

@[simp] theorem run_ofExcept_error_bind (exn : Exn) (f : α → Handler β) :
    (ofExcept (.error exn) >>= f).run = .done (.error exn) := rfl

@[simp] theorem run_throw (exn : Exn) : (throw exn : Handler α).run = .done (.error exn) := rfl

@[simp] theorem run_pure (value : α) : (pure value : Handler α).run = .done (.ok value) := rfl

end Handler

-- Header names are in lower case, as the framework hands them on.
structure Request where
  method : Text
  path : Text
  headers : List (Text × Text)
  body : Bytes
deriving DecidableEq, Repr

def Request.header? (request : Request) (name : Text) : Option Text :=
  (request.headers.find? fun header => header.1 = name).map Prod.snd

structure Response where
  status : Nat
  body : Bytes
  mediaType : Text
  timestamp : Int
  signature : Text
deriving DecidableEq, Repr

end Stra2us.Server
