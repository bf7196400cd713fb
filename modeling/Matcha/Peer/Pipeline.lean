import Mathlib.Data.List.Basic

/-! # The duplex pipeline as a system of goroutines

`duplexPipeline` of `net/tcp/peer/pipeline.go` with `pipelineChannel` of `channel.go`. A run is a
list of actions, each one atomic step of one goroutine; an input resolves what the code leaves
open (what `conn.Read` returns, which ready case a `select` takes, what a handler does). -/
namespace Matcha.Peer

inductive PipelineState where
  | new | ready | running | shutdown
  deriving DecidableEq, Repr

def dataChanSize : Nat := 10

def cmdChanSize : Nat := 2

/-- A buffered Go channel. -/
structure Chan (α : Type) where
  cap : Nat
  buf : List α
  closed : Bool
  deriving DecidableEq, Repr

def makeChan {α : Type} (cap : Nat) : Chan α := ⟨cap, [], false⟩

inductive Sent (α : Type) where
  | blocked
  | panics
  | ok (c : Chan α)
  deriving DecidableEq, Repr

namespace Chan

variable {α : Type} (c : Chan α)

/-- `c <- x`: a closed channel panics, a full one blocks. -/
def send (x : α) : Sent α :=
  if c.closed then .panics else if c.buf.length < c.cap then .ok { c with buf := c.buf ++ [x] }
  else .blocked

/-- `<-c`: the oldest value, or the zero value (`none`) once closed and drained; `none`
blocks. -/
def recv : Option (Option α × Chan α) :=
  match c.buf with
  | x :: xs => some (some x, { c with buf := xs })
  | [] => if c.closed then some (none, c) else none

def close : Option (Chan α) := if c.closed then none else some { c with closed := true }

variable {c} {c' : Chan α}

theorem send_ok {x : α} (h : c.send x = .ok c') : c' = { c with buf := c.buf ++ [x] } := by
  unfold send at h
  split at h
  · cases h
  · split at h <;> cases h; rfl

theorem recv_some {x : α} (h : c.recv = some (some x, c')) : c.buf = x :: c'.buf ∧ c'.closed = c.closed := by
  unfold recv at h
  split at h
  · cases h; simp_all
  · split at h <;> cases h

theorem recv_none (h : c.recv = some (none, c')) : c' = c ∧ c.buf = [] ∧ c.closed := by
  unfold recv at h
  split at h
  · cases h
  · split at h <;> cases h; simp_all

theorem close_some (h : c.close = some c') : c' = { c with closed := true } := by
  unfold close at h
  split at h <;> cases h; rfl

theorem send_closed {x : α} (h : c.send x = .ok c') : c'.closed = c.closed := by
  rw [send_ok h]

theorem recv_closed {x : Option α} (h : c.recv = some (x, c')) : c'.closed = c.closed := by
  cases x with
  | some x => exact (recv_some h).2
  | none => rw [(recv_none h).1]

theorem bind_recv_closed {o : Option (Chan α)} {x : Option α} (h : o.bind recv = some (x, c')) :
    (some c').any (·.closed) = o.any (·.closed) := by
  cases o with
  | none => cases h
  | some c => exact recv_closed h

end Chan

/-- The callback of a `SendFuture` call: a caller's own, or the one `Send` makes to fill its
result channel `r`. Each call's callback has its own number. -/
inductive Callback where
  | user (id : Nat)
  | result (r : Nat)
  deriving DecidableEq, Repr

inductive SendError where
  | pipelineClosed | invalidChannel | encode | write
  deriving DecidableEq, Repr

/-- `OutboundEntity`; `id` is not in the source: it numbers the pushes, to follow an entry. -/
structure OutboundEntity where
  id : Nat
  data : Nat
  callback : Option Callback
  deriving DecidableEq, Repr

inductive Worker where
  | reader | inbound | outbound
  deriving DecidableEq, Repr

inductive Handler where
  | activate | read (m : Option Nat) | error | inactivate
  deriving DecidableEq, Repr

inductive Event where
  /-- A `ChannelHandler` method begins in a worker. -/
  | begin (h : Handler) (w : Worker)
  /-- `ChannelActivate` returned. -/
  | activated
  | pushIn (m : Nat)
  | pushOut (id : Nat)
  | write (id : Nat)
  | callback (cb : Callback) (err : Option SendError)
  /-- A `Stop` call returned, having found the pipeline in `found`. -/
  | stopped (found : PipelineState)
  /-- An `IsRunning` call returned `result`. -/
  | isRunning (result : Bool)
  | panic
  deriving DecidableEq, Repr

inductive ChannelCall where
  | send (msg : Option Nat)
  | sendFuture (msg : Option Nat) (withCallback : Bool)
  | close
  | isConnected
  deriving DecidableEq, Repr

inductive ApiCall where
  | init | start | stop | isRunning | sync
  | send (msg : Option Nat)
  | sendFuture (msg : Option Nat) (withCallback : Bool)
  | channel (c : ChannelCall)
  deriving DecidableEq, Repr

/-- Where `SendFuture` returns to: its caller, or `Send`, which then waits on result
channel `r`. -/
inductive After where
  | done
  | wait (r : Nat)
  deriving DecidableEq, Repr

inductive Locked where
  | init | start | stop
  deriving DecidableEq, Repr

/-- The code that runs under `stateMutex.RLock()`: `IsRunning`, `SendFuture` past its nil
check, and the `IsRunning` of `pipelineChannel.Send` and `SendFuture`. -/
inductive ReadLocked where
  | isRunning
  | sendFuture (msg : Nat) (cb : Option Callback) (after : After)
  | channelSend (msg : Option Nat)
  | channelSendFuture (msg : Option Nat) (cb : Option Callback)
  deriving DecidableEq, Repr

inductive Resume where
  | ret
  | push (msg : Nat) (cb : Option Callback) (after : After)
  deriving DecidableEq, Repr

inductive CallPc where
  | lock (op : Locked)
  | awaitReaders (op : Locked)
  | rlock (op : ReadLocked)
  | initBody
  | startBody
  | stopCheck
  | stopCloseOut
  | stopJoinInbound
  | stopJoinOutbound
  | stopCloseConn
  | stopJoinReader
  | stopFinish
  | isRunningRead
  /-- `stateWaitGroup.Wait()` in `Sync`. -/
  | syncWait
  | sendFuture (msg : Option Nat) (cb : Option Callback) (after : After)
  | sfCheck (msg : Nat) (cb : Option Callback) (after : After)
  | sfPush (msg : Nat) (cb : Option Callback) (after : After)
  | sendMake (msg : Option Nat)
  | sendWait (r : Nat)
  | chSendRead (msg : Option Nat)
  | chSfRead (msg : Option Nat) (cb : Option Callback)
  | invoke (cb : Callback) (err : Option SendError) (k : Resume)
  | closeResult (r : Nat) (k : Resume)
  deriving DecidableEq, Repr

def Locked.body : Locked → CallPc
  | .init => .initBody
  | .start => .startBody
  | .stop => .stopCheck

def ReadLocked.body : ReadLocked → CallPc
  | .isRunning => .isRunningRead
  | .sendFuture m cb after => .sfCheck m cb after
  | .channelSend msg => .chSendRead msg
  | .channelSendFuture msg cb => .chSfRead msg cb

def Resume.next : Resume → Option CallPc
  | .ret => none
  | .push m cb after => some (.sfPush m cb after)

def After.next : After → Option CallPc
  | .done => none
  | .wait r => some (.sendWait r)

inductive ReaderPc where
  | start | activating | activateError | reading | draining | pushing (m : Nat) | decodeError
  | inactivating | inactivateError | exited
  deriving DecidableEq, Repr

inductive InboundPc where
  | selecting | reading (m : Option Nat) | readError | exited
  deriving DecidableEq, Repr

inductive OutboundPc where
  | selecting | encoding (e : OutboundEntity) | encodeError (cb : Option Callback) | exited
  deriving DecidableEq, Repr

inductive Role where
  | reader (pc : ReaderPc)
  | inbound (pc : InboundPc)
  | outbound (pc : OutboundPc)
  | caller
  deriving DecidableEq, Repr

def Role.exited : Role → Bool
  | .reader .exited | .inbound .exited | .outbound .exited => true
  | _ => false

/-- A goroutine: its role, and the call it is in (a handler's call of the channel, a worker's
call of a callback, or a caller's call); the call runs first. -/
structure Thread where
  role : Role
  call : Option CallPc
  deriving DecidableEq, Repr

def startedWorkers : List Thread :=
  [⟨.reader .start, none⟩, ⟨.inbound .selecting, none⟩, ⟨.outbound .selecting, none⟩]

def Thread.exited (th : Thread) : Bool := th.call.isNone && th.role.exited

def joined (ths : List Thread) (w : Nat) : Bool := ths[w]?.any Thread.exited

structure RWMutex where
  /-- The goroutine that announced itself as writer, or holds the lock. -/
  writer : Option Nat
  readers : Nat
  deriving DecidableEq, Repr

/-- The fields of `duplexPipeline` that its goroutines share, with the trace. -/
structure Pipeline where
  state : PipelineState
  stateMutex : RWMutex
  stateWaitGroup : Nat
  inboundDataC : Option (Chan Nat)
  outboundDataC : Option (Chan OutboundEntity)
  inboundHandlerStopC : Option (Chan Unit)
  outboundHandlerStopC : Option (Chan Unit)
  connClosed : Bool
  connReadHandler : Option Nat
  inboundHandler : Option Nat
  outboundHandler : Option Nat
  /-- The result channels that `Send` calls made, by number. -/
  results : List (Chan (Option SendError))
  /-- Pushes into `inboundDataC`, outbound entries and callbacks made so far: the next
  fresh numbers. -/
  inCount : Nat
  outCount : Nat
  cbCount : Nat
  panicked : Bool
  trace : List Event
  deriving DecidableEq, Repr

/-- A pipeline as `InitPipeline` builds it before `Init`. -/
def newPipeline : Pipeline :=
  ⟨.new, ⟨none, 0⟩, 0, none, none, none, none, false, none, none, none, [], 0, 0, 0, false, []⟩

inductive Input where
  /-- What happens when nothing goes wrong. -/
  | go
  /-- The read, the decode, the encode or the handler fails. -/
  | fail
  /-- Which ready case a `select` takes; whether the decoder returns a value; whether the
  write succeeds. -/
  | pick (b : Bool)
  /-- A handler calls the channel. -/
  | call (c : ChannelCall)
  deriving DecidableEq, Repr

abbrev Outcome := Option (Pipeline × Thread × List Thread)

namespace Pipeline

variable (p : Pipeline)

def log (e : Event) : Pipeline := { p with trace := p.trace ++ [e] }

def unlock : Pipeline := { p with stateMutex := { p.stateMutex with writer := none } }

def runlock : Pipeline :=
  { p with stateMutex := { p.stateMutex with readers := p.stateMutex.readers - 1 } }

def crash : Pipeline := { p.log .panic with panicked := true }

def newCallback (withCallback : Bool) : Option Callback :=
  if withCallback then some (.user p.cbCount) else none

def channelEntry : ChannelCall → CallPc
  | .send msg => .rlock (.channelSend msg)
  | .sendFuture msg b => .rlock (.channelSendFuture msg (p.newCallback b))
  | .close => .lock .stop
  | .isConnected => .rlock .isRunning

def entry : ApiCall → CallPc
  | .init => .lock .init
  | .start => .lock .start
  | .stop => .lock .stop
  | .isRunning => .rlock .isRunning
  | .sync => .syncWait
  | .send msg => .sendMake msg
  | .sendFuture msg b => .sendFuture msg (p.newCallback b) .done
  | .channel c => p.channelEntry c

/-- One step of a call of goroutine `t`, `ths` being all goroutines: the pipeline, where the
call goes on (`none`: it returned) and the goroutines it starts; `none` when it blocks. -/
def stepCall (ths : List Thread) (t : Nat) : CallPc → Option (Pipeline × Option CallPc × List Thread)
  | .lock op =>
    if p.stateMutex.writer = none then
      some ({ p with stateMutex := { p.stateMutex with writer := some t } }, some (.awaitReaders op), [])
    else none
  | .awaitReaders op => if p.stateMutex.readers = 0 then some (p, some op.body, []) else none
  | .rlock op =>
    if p.stateMutex.writer = none then
      some ({ p with stateMutex := { p.stateMutex with readers := p.stateMutex.readers + 1 } },
        some op.body, [])
    else none
  | .initBody =>
    if p.state = .new then
      some (({ p with
        inboundDataC := some (makeChan dataChanSize), outboundDataC := some (makeChan dataChanSize)
        inboundHandlerStopC := some (makeChan cmdChanSize)
        outboundHandlerStopC := some (makeChan cmdChanSize), state := .ready } : Pipeline).unlock,
        none, [])
    else some (p.unlock, none, [])
  | .startBody =>
    if p.state = .ready then
      some (({ p with
        connReadHandler := some ths.length, inboundHandler := some (ths.length + 1)
        outboundHandler := some (ths.length + 2), state := .running
        stateWaitGroup := p.stateWaitGroup + 1 } : Pipeline).unlock, none, startedWorkers)
    else some (p.unlock, none, [])
  | .stopCheck =>
    if p.state = .running then
      match p.inboundHandlerStopC.bind Chan.close with
      | some c => some ({ p with inboundHandlerStopC := some c }, some .stopCloseOut, [])
      | none => some (p.crash, some .stopCheck, [])
    else some ((p.unlock.log (.stopped p.state)), none, [])
  | .stopCloseOut =>
    match p.outboundHandlerStopC.bind Chan.close with
    | some c => some ({ p with outboundHandlerStopC := some c }, some .stopJoinInbound, [])
    | none => some (p.crash, some .stopCloseOut, [])
  | .stopJoinInbound =>
    match p.inboundHandler with
    | some w => if joined ths w then some (p, some .stopJoinOutbound, []) else none
    | none => some (p.crash, some .stopJoinInbound, [])
  | .stopJoinOutbound =>
    match p.outboundHandler with
    | some w => if joined ths w then some (p, some .stopCloseConn, []) else none
    | none => some (p.crash, some .stopJoinOutbound, [])
  | .stopCloseConn => some ({ p with connClosed := true }, some .stopJoinReader, [])
  | .stopJoinReader =>
    match p.connReadHandler with
    | some w => if joined ths w then some (p, some .stopFinish, []) else none
    | none => some (p.crash, some .stopJoinReader, [])
  | .stopFinish =>
    match p.inboundDataC.bind Chan.close, p.outboundDataC.bind Chan.close with
    | some ci, some co =>
      some ((({ p with
        inboundDataC := some ci, outboundDataC := some co, state := .shutdown
        stateWaitGroup := p.stateWaitGroup - 1, connReadHandler := none, inboundHandler := none
        outboundHandler := none } : Pipeline).unlock.log (.stopped .running)), none, [])
    | _, _ => some (p.crash, some .stopFinish, [])
  | .isRunningRead => some ((p.log (.isRunning (p.state = .running))).runlock, none, [])
  | .syncWait => if p.stateWaitGroup = 0 then some (p, none, []) else none
  | .sendFuture msg cb after =>
    match msg with
    | none => some (p, after.next, [])
    | some m => some (p, some (.rlock (.sendFuture m cb after)), [])
  | .sfCheck m cb after =>
    match cb with
    | some c =>
      if p.state ≠ .running then some (p, some (.invoke c (some .pipelineClosed) (.push m cb after)), [])
      else some (p, some (.sfPush m cb after), [])
    | none => some (p, some (.sfPush m cb after), [])
  | .sfPush m cb after =>
    match p.outboundDataC with
    | none => some (p.runlock, after.next, [])
    | some c =>
      match c.send ⟨p.outCount, m, cb⟩ with
      | .blocked => none
      | .panics => some (p.crash, some (.sfPush m cb after), [])
      | .ok c =>
        some (({ p with outboundDataC := some c, outCount := p.outCount + 1 }.log
          (.pushOut p.outCount)).runlock, after.next, [])
  | .sendMake msg =>
    some ({ p with results := p.results ++ [makeChan 1] },
      some (.sendFuture msg (some (.result p.results.length)) (.wait p.results.length)), [])
  | .sendWait r =>
    match p.results[r]?.bind Chan.recv with
    | some (_, c) => some ({ p with results := p.results.set r c }, none, [])
    | none => none
  | .chSendRead msg =>
    if p.state = .running then some (p.runlock, some (.sendMake msg), [])
    else some (p.runlock, none, [])
  | .chSfRead msg cb =>
    if p.state = .running then some (p.runlock, some (.sendFuture msg cb .done), [])
    else some (p.runlock, cb.map fun c => .invoke c (some .invalidChannel) .ret, [])
  | .invoke (.user n) err k => some (p.log (.callback (.user n) err), k.next, [])
  | .invoke (.result r) err k =>
    match p.results[r]? with
    | some c =>
      match c.send err with
      | .blocked => none
      | .panics => some (p.crash, some (.invoke (.result r) err k), [])
      | .ok c =>
        some ({ p with results := p.results.set r c }.log (.callback (.result r) err),
          some (.closeResult r k), [])
    | none => none
  | .closeResult r k =>
    match p.results[r]?.bind Chan.close with
    | some c => some ({ p with results := p.results.set r c }, k.next, [])
    | none => some (p.crash, some (.closeResult r k), [])

def moveTo (r : Role) : Outcome := some (p, ⟨r, none⟩, [])

/-- A handler method of the worker in role `r` in progress: it returns (`go`, or `fail` with
an error where it returns one), or calls the channel. -/
def stepHandler (r : Role) (i : Input) (onReturn onError : Outcome) : Outcome :=
  match i with
  | .go => onReturn
  | .fail => onError
  | .call c => some ({ p with cbCount := p.cbCount + 1 }, ⟨r, some (p.channelEntry c)⟩, [])
  | .pick _ => none

/-- One step of the reader, `handleConnRead`. -/
def stepReader (pc : ReaderPc) (i : Input) : Outcome :=
  match pc with
  | .start => if i = .go then (p.log (.begin .activate .reader)).moveTo (.reader .activating) else none
  | .activating => p.stepHandler (.reader .activating) i
      ((p.log .activated).moveTo (.reader .reading))
      (((p.log .activated).log (.begin .error .reader)).moveTo (.reader .activateError))
  | .activateError => p.stepHandler (.reader .activateError) i (p.moveTo (.reader .reading)) none
  | .reading =>
    match i with
    | .go => if p.connClosed then none else p.moveTo (.reader .draining)
    | .fail => some (p.log (.begin .inactivate .reader), ⟨.reader .inactivating, none⟩,
        [⟨.caller, some (.lock .stop)⟩])
    | _ => none
  | .draining =>
    match i with
    | .pick true => { p with inCount := p.inCount + 1 }.moveTo (.reader (.pushing p.inCount))
    | .pick false => p.moveTo (.reader .reading)
    | .fail => (p.log (.begin .error .reader)).moveTo (.reader .decodeError)
    | _ => none
  | .pushing m =>
    match i, p.inboundDataC with
    | .go, some c =>
      match c.send m with
      | .blocked => none
      | .panics => some (p.crash, ⟨.reader (.pushing m), none⟩, [])
      | .ok c => ({ p with inboundDataC := some c }.log (.pushIn m)).moveTo (.reader .draining)
    | _, _ => none
  | .decodeError => p.stepHandler (.reader .decodeError) i (p.moveTo (.reader .draining)) none
  | .inactivating => p.stepHandler (.reader .inactivating) i (p.moveTo (.reader .exited))
      ((p.log (.begin .error .reader)).moveTo (.reader .inactivateError))
  | .inactivateError => p.stepHandler (.reader .inactivateError) i (p.moveTo (.reader .exited)) none
  | .exited => none

/-- One step of the inbound worker, `handleInbound`. -/
def stepInbound (pc : InboundPc) (i : Input) : Outcome :=
  match pc with
  | .selecting =>
    match i with
    | .pick true =>
      match p.inboundDataC.bind Chan.recv with
      | some (m, c) =>
        ({ p with inboundDataC := some c }.log (.begin (.read m) .inbound)).moveTo
          (.inbound (.reading m))
      | none => none
    | .pick false =>
      match p.inboundHandlerStopC.bind Chan.recv with
      | some (_, c) => { p with inboundHandlerStopC := some c }.moveTo (.inbound .exited)
      | none => none
    | _ => none
  | .reading m => p.stepHandler (.inbound (.reading m)) i (p.moveTo (.inbound .selecting))
      ((p.log (.begin .error .inbound)).moveTo (.inbound .readError))
  | .readError => p.stepHandler (.inbound .readError) i (p.moveTo (.inbound .selecting)) none
  | .exited => none

def finishEntry (cb : Option Callback) (err : Option SendError) : Outcome :=
  some (p, ⟨.outbound .selecting, cb.map fun c => .invoke c err .ret⟩, [])

/-- One step of the outbound worker, `handleOutbound`. -/
def stepOutbound (pc : OutboundPc) (i : Input) : Outcome :=
  match pc with
  | .selecting =>
    match i with
    | .pick true =>
      match p.outboundDataC.bind Chan.recv with
      | some (some e, c) => { p with outboundDataC := some c }.moveTo (.outbound (.encoding e))
      | some (none, c) =>
        ({ p with outboundDataC := some c }.log (.begin .error .outbound)).moveTo
          (.outbound (.encodeError none))
      | none => none
    | .pick false =>
      match p.outboundHandlerStopC.bind Chan.recv with
      | some (_, c) => { p with outboundHandlerStopC := some c }.moveTo (.outbound .exited)
      | none => none
    | _ => none
  | .encoding e =>
    match i with
    | .pick ok => (p.log (.write e.id)).finishEntry e.callback (if ok then none else some .write)
    | .fail => (p.log (.begin .error .outbound)).moveTo (.outbound (.encodeError e.callback))
    | _ => none
  | .encodeError cb =>
    p.stepHandler (.outbound (.encodeError cb)) i (p.finishEntry cb (some .encode)) none
  | .exited => none

def stepThread (ths : List Thread) (t : Nat) (th : Thread) (i : Input) : Outcome :=
  match th.call, th.role with
  | some c, r =>
    if i = .go then (p.stepCall ths t c).map fun (p', c', new) => (p', ⟨r, c'⟩, new) else none
  | none, .reader pc => p.stepReader pc i
  | none, .inbound pc => p.stepInbound pc i
  | none, .outbound pc => p.stepOutbound pc i
  | none, .caller => none

end Pipeline

structure System where
  pipeline : Pipeline
  threads : List Thread
  deriving DecidableEq, Repr

inductive Action where
  /-- A new goroutine calls the API. -/
  | spawn (c : ApiCall)
  /-- Goroutine `t` steps, `i` resolving its choice. -/
  | step (t : Nat) (i : Input)
  deriving DecidableEq, Repr

namespace System

def init : System := ⟨newPipeline, []⟩

/-- One atomic step; `none` when the action is not enabled. -/
def step (σ : System) : Action → Option System
  | .spawn c =>
    if σ.pipeline.panicked then none
    else some ⟨{ σ.pipeline with cbCount := σ.pipeline.cbCount + 1 },
      σ.threads ++ [⟨.caller, some (σ.pipeline.entry c)⟩]⟩
  | .step t i =>
    if σ.pipeline.panicked then none else
    match σ.threads[t]? with
    | some th => (σ.pipeline.stepThread σ.threads t th i).map fun (p, th', new) =>
        ⟨p, σ.threads.set t th' ++ new⟩
    | none => none

def run : System → List Action → Option System
  | σ, [] => some σ
  | σ, a :: as => (σ.step a).bind (run · as)

def Reachable (σ : System) : Prop := ∃ as, run init as = some σ

end System

end Matcha.Peer
