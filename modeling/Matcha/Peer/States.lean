import Matcha.Peer.Lifecycle

/-! # The order of the lifecycle, its channels, its wait group and `Sync`

What `Init`, `Start` and `Stop` write (`Pipeline.life`) changes in five kinds of step only, and
the lifecycle's order follows from that over every interleaving. -/
namespace Matcha.Peer

/-- What `Init`, `Start` and `Stop` write: the state, the wait group's counter, and for each of
the four channels whether it was made, and then whether it was closed. -/
structure Life where
  state : PipelineState
  stateWaitGroup : Nat
  inStop : Option Bool
  outStop : Option Bool
  inData : Option Bool
  outData : Option Bool
  deriving DecidableEq, Repr

def Pipeline.life (p : Pipeline) : Life :=
  ⟨p.state, p.stateWaitGroup, p.inboundHandlerStopC.map (·.closed),
    p.outboundHandlerStopC.map (·.closed), p.inboundDataC.map (·.closed),
    p.outboundDataC.map (·.closed)⟩

def CallPc.closedIn : CallPc → Bool
  | .stopCloseOut | .stopJoinInbound | .stopJoinOutbound | .stopCloseConn | .stopJoinReader
  | .stopFinish => true
  | _ => false

def CallPc.closedOut : CallPc → Bool
  | .stopJoinInbound | .stopJoinOutbound | .stopCloseConn | .stopJoinReader | .stopFinish => true
  | _ => false

/-- Every `IsRunning` the step reports returned whether the pipeline was running. -/
def RunningLog (p p' : Pipeline) : Prop :=
  ∀ b, Event.isRunning b ∈ p'.trace → Event.isRunning b ∈ p.trace ∨ b = decide (p.state = .running)

/-- What one step of a goroutine in state `th` does to `Pipeline.life`. -/
inductive LifeStep (p p' : Pipeline) (th th' : Thread) (new : List Thread) : Prop where
  /-- Nothing; the goroutine is as far in `Stop` as it was, and starts none that is in it. -/
  | keep (life : p'.life = p.life)
      (closedIn : th'.call.any CallPc.closedIn = th.call.any CallPc.closedIn)
      (closedOut : th'.call.any CallPc.closedOut = th.call.any CallPc.closedOut)
      (spawned : ∀ x ∈ new, x.call.any CallPc.closedIn = false)
  | init (call : th.call = some .initBody) (state : p.state = .new)
      (life : p'.life = ⟨.ready, p.stateWaitGroup, some false, some false, some false, some false⟩)
      (thread : th'.call = none) (spawned : new = [])
  | start (call : th.call = some .startBody) (state : p.state = .ready)
      (life : p'.life = { p.life with state := .running, stateWaitGroup := p.stateWaitGroup + 1 })
      (thread : th'.call = none) (spawned : new = startedWorkers)
  | closeIn (call : th.call = some .stopCheck) (state : p.state = .running)
      (wasOpen : p.life.inStop = some false) (life : p'.life = { p.life with inStop := some true })
      (thread : th'.call = some .stopCloseOut) (spawned : new = [])
  | closeOut (call : th.call = some .stopCloseOut) (wasOpen : p.life.outStop = some false)
      (life : p'.life = { p.life with outStop := some true })
      (thread : th'.call = some .stopJoinInbound) (spawned : new = [])
  | finish (call : th.call = some .stopFinish) (inOpen : p.life.inData = some false)
      (outOpen : p.life.outData = some false)
      (life : p'.life = { p.life with
        state := .shutdown
        stateWaitGroup := p.stateWaitGroup - 1
        inData := some true
        outData := some true })
      (thread : th'.call = none) (spawned : new = [])

section Steps

variable {p p' : Pipeline} {ths : List Thread} {t : Nat} {r : Role} {th' : Thread}
  {new : List Thread}

@[simp] theorem Pipeline.life_stateWaitGroup : p.life.stateWaitGroup = p.stateWaitGroup := rfl

@[simp] theorem Pipeline.life_log (e : Event) : (p.log e).life = p.life := rfl
@[simp] theorem Pipeline.life_unlock : p.unlock.life = p.life := rfl
@[simp] theorem Pipeline.life_runlock : p.runlock.life = p.life := rfl
@[simp] theorem Pipeline.life_crash : p.crash.life = p.life := rfl

@[simp] theorem CallPc.lock_closedIn (op : Locked) : (CallPc.lock op).closedIn = false := rfl

@[simp] theorem CallPc.invoke_closedIn (cb : Callback) (err : Option SendError) (k : Resume) :
    (CallPc.invoke cb err k).closedIn = false := rfl

@[simp] theorem Locked.body_closedIn (op : Locked) : op.body.closedIn = false := by
  cases op <;> rfl

@[simp] theorem ReadLocked.body_closedIn (op : ReadLocked) : op.body.closedIn = false := by
  cases op <;> rfl

@[simp] theorem Locked.body_closedOut (op : Locked) : op.body.closedOut = false := by
  cases op <;> rfl

@[simp] theorem ReadLocked.body_closedOut (op : ReadLocked) : op.body.closedOut = false := by
  cases op <;> rfl

@[simp] theorem After.next_closedIn (a : After) : a.next.any CallPc.closedIn = false := by
  cases a <;> rfl

@[simp] theorem Resume.next_closedIn (k : Resume) : k.next.any CallPc.closedIn = false := by
  cases k <;> rfl

@[simp] theorem After.next_closedOut (a : After) : a.next.any CallPc.closedOut = false := by
  cases a <;> rfl

@[simp] theorem Resume.next_closedOut (k : Resume) : k.next.any CallPc.closedOut = false := by
  cases k <;> rfl

theorem RunningLog.refl (p : Pipeline) : RunningLog p p := fun _ h => .inl h

@[simp] theorem Pipeline.channelEntry_closedIn (p : Pipeline) (c : ChannelCall) :
    (p.channelEntry c).closedIn = false := by
  cases c <;> rfl

@[simp] theorem Pipeline.entry_closedIn (p : Pipeline) (c : ApiCall) :
    (p.entry c).closedIn = false := by
  cases c
  case channel c => exact p.channelEntry_closedIn c
  all_goals rfl

theorem CallPc.closedOut_eq_false {c : CallPc} (h : c.closedIn = false) : c.closedOut = false := by
  cases c <;> simp_all [closedIn, closedOut]

@[simp] theorem Pipeline.entry_closedOut (p : Pipeline) (c : ApiCall) :
    (p.entry c).closedOut = false :=
  CallPc.closedOut_eq_false (p.entry_closedIn c)

theorem LifeStep.worker (hl : p'.life = p.life) (hc : ∀ pc, th'.call = some pc → pc.closedIn = false)
    (hn : ∀ x ∈ new, x.call.any CallPc.closedIn = false) : LifeStep p p' ⟨r, none⟩ th' new := by
  refine .keep hl ?_ ?_ hn <;> cases h : th'.call
  all_goals first | rfl | simpa using hc _ h | simpa using CallPc.closedOut_eq_false (hc _ h)

end Steps

/-- Some goroutine is past the close of `inboundHandlerStopC`, of `outboundHandlerStopC`. -/
def stoppingIn (ths : List Thread) : Bool := ths.any (·.call.any CallPc.closedIn)

def stoppingOut (ths : List Thread) : Bool := ths.any (·.call.any CallPc.closedOut)

/-- What `Pipeline.life` is, given the goroutines: nothing is made before `Init`; the wait group
counts the running pipeline; a stop channel is closed once the pipeline is shut down or some
`Stop` is past its close; a data channel, once the pipeline is shut down. -/
structure Life.Sound (l : Life) (ths : List Thread) : Prop where
  fresh : l.state = .new → l = ⟨.new, 0, none, none, none, none⟩
  waitGroup : l.stateWaitGroup = if l.state = .running then 1 else 0
  inStop : l.state ≠ .new → l.inStop = some (decide (l.state = .shutdown) || stoppingIn ths)
  outStop : l.state ≠ .new → l.outStop = some (decide (l.state = .shutdown) || stoppingOut ths)
  inData : l.state ≠ .new → l.inData = some (decide (l.state = .shutdown))
  outData : l.state ≠ .new → l.outData = some (decide (l.state = .shutdown))

theorem Life.Sound.congr {l : Life} {ths ths' : List Thread} (h : l.Sound ths)
    (hin : stoppingIn ths' = stoppingIn ths) (hout : stoppingOut ths' = stoppingOut ths) :
    l.Sound ths' :=
  ⟨h.fresh, h.waitGroup, hin ▸ h.inStop, hout ▸ h.outStop, h.inData, h.outData⟩

theorem Life.Sound.init : System.init.pipeline.life.Sound System.init.threads :=
  ⟨fun _ => rfl, rfl, fun h => absurd rfl h, fun h => absurd rfl h, fun h => absurd rfl h,
    fun h => absurd rfl h⟩

theorem System.run_append {σ : System} (as bs : List Action) :
    σ.run (as ++ bs) = (σ.run as).bind (·.run bs) := by
  induction as generalizing σ with
  | nil => rfl
  | cons a as ih =>
    simp only [List.cons_append, System.run]
    cases σ.step a with
    | none => rfl
    | some σ₁ => exact ih

end Matcha.Peer
