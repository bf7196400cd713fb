import Mathlib.Data.List.Basic

/-! # The pipeline client

`pipelineClient` of package `tcp` with the watcher goroutine each `Start` spawns; each locked call
is one atomic step, and the pipelines are seen from the client only. -/
namespace Matcha.Tcp

inductive ClientError where
  | clientNotRunning
  | new (text : String)
  deriving DecidableEq, Repr

inductive SendResult where
  /-- `channel.Send(data)` on pipeline `p`'s channel. -/
  | delegated (p : Nat)
  | error (e : ClientError)
  deriving DecidableEq, Repr

inductive SendFutureResult where
  /-- `SendFuture(data, callback)` on pipeline `p`'s channel. -/
  | delegated (p : Nat)
  /-- `callback(e)`. -/
  | callback (e : ClientError)
  /-- `c.pipeline.GetChannel()` on a nil pipeline: the caller panics. -/
  | nilPipeline
  deriving DecidableEq, Repr

structure PipelineClient where
  /-- The number of the client's pipeline; `none` for nil. -/
  pipeline : Option Nat
  running : Bool
  waitGroup : Nat
  /-- For each pipeline the client made: it still runs. -/
  pipelines : List Bool
  deriving DecidableEq, Repr

namespace PipelineClient

variable (c : PipelineClient)

def newPipelineClient : PipelineClient := ⟨none, false, 0, []⟩

/-- `Start`, under the lock. `ok`: dialing, `InitPipeline` and the pipeline's `Start` succeed;
otherwise the first error is returned and nothing changes. It returns the pipeline whose
watcher it starts. -/
def start (ok : Bool) : PipelineClient × Option Nat :=
  if c.running then (c, none)
  else if !ok then (c, none)
  else
    let p := c.pipelines.length
    ({ c with
      pipelines := c.pipelines ++ [true]
      pipeline := some p
      running := true
      waitGroup := c.waitGroup + 1 }, some p)

def isRunning : Bool := c.running

/-- `misc.LifecycleCheckRun(c.pipeline)` and then `misc.LifecycleStop(c.pipeline)`. -/
def stopPipeline : PipelineClient :=
  match c.pipeline with
  | some p => if c.pipelines[p]? = some true then { c with pipelines := c.pipelines.set p false }
    else c
  | none => c

def stop : PipelineClient :=
  if !c.running then c
  else { c.stopPipeline with pipeline := none, running := false, waitGroup := c.waitGroup - 1 }

def send : SendResult :=
  match c.running, c.pipeline with
  | true, some p => .delegated p
  | _, _ => .error .clientNotRunning

/-- `SendFuture`; `callback`: the callback is not nil. -/
def sendFuture (callback : Bool) : SendFutureResult :=
  if !c.running && callback then .callback (.new "client is not running")
  else
    match c.pipeline with
    | some p => .delegated p
    | none => .nilPipeline

/-- `running` goes with a pipeline, and the wait group counts the running client. -/
structure Inv : Prop where
  pipeline : c.running = c.pipeline.isSome
  waitGroup : c.waitGroup = if c.running then 1 else 0

variable {c}

theorem inv_new : newPipelineClient.Inv := ⟨rfl, rfl⟩

theorem inv_start (hi : c.Inv) (ok : Bool) : (c.start ok).1.Inv := by
  unfold start
  split; · exact hi
  split; · exact hi
  rename_i hr _
  have hw := hi.waitGroup
  simp only [hr, Bool.false_eq_true, ↓reduceIte] at hw
  exact ⟨rfl, by simp [hw]⟩

theorem inv_stop (hi : c.Inv) : c.stop.Inv := by
  unfold stop
  split
  · exact hi
  · have hw := hi.waitGroup
    rename_i hr
    simp only [Bool.not_eq_true', Bool.not_eq_false] at hr
    simp only [hr, ↓reduceIte] at hw
    exact ⟨rfl, by simp [hw]⟩

theorem send_sendFuture (hi : c.Inv) :
    (c.running = true → ∃ p, c.pipeline = some p ∧ c.send = .delegated p ∧
      ∀ cb, c.sendFuture cb = .delegated p) ∧
    (c.running = false → c.send = .error .clientNotRunning ∧
      c.sendFuture true = .callback (.new "client is not running") ∧
      c.sendFuture false = .nilPipeline) := by
  have hp := hi.pipeline
  constructor
  · intro hr
    obtain ⟨p, hp'⟩ := Option.isSome_iff_exists.mp (hp ▸ hr)
    exact ⟨p, hp', by simp [send, hr, hp'], fun cb => by simp [sendFuture, hr, hp']⟩
  · intro hr
    have hn : c.pipeline = none := by simpa [hr] using hp
    exact ⟨by simp [send, hr], by simp [sendFuture, hr], by simp [sendFuture, hr, hn]⟩

end PipelineClient

inductive WatcherPc where
  /-- In `pipeline.Sync()`, until pipeline `p` stops. -/
  | sync (p : Nat)
  /-- At `misc.LifecycleCheckRun(c)`. -/
  | check
  /-- At `misc.LifecycleStop(c)`. -/
  | stop
  | done
  deriving DecidableEq, Repr

structure ClientSystem where
  client : PipelineClient
  watchers : List WatcherPc
  deriving DecidableEq, Repr

inductive ClientAction where
  | start (ok : Bool)
  | stop
  /-- Pipeline `p` stops on its own. -/
  | pipelineStops (p : Nat)
  | watcher (w : Nat)
  deriving DecidableEq, Repr

namespace ClientSystem

open PipelineClient

def init : ClientSystem := ⟨newPipelineClient, []⟩

def step (σ : ClientSystem) : ClientAction → Option ClientSystem
  | .start ok =>
    let (c, p) := σ.client.start ok
    some ⟨c, σ.watchers ++ p.toList.map .sync⟩
  | .stop => some { σ with client := σ.client.stop }
  | .pipelineStops p =>
    if σ.client.pipelines[p]? = some true then
      some { σ with client := { σ.client with pipelines := σ.client.pipelines.set p false } }
    else none
  | .watcher w =>
    match σ.watchers[w]? with
    | some (.sync p) =>
      if σ.client.pipelines[p]? = some false then some { σ with watchers := σ.watchers.set w .check }
      else none
    | some .check =>
      some { σ with watchers := σ.watchers.set w (if σ.client.isRunning then .stop else .done) }
    | some .stop => some ⟨σ.client.stop, σ.watchers.set w .done⟩
    | _ => none

def run : ClientSystem → List ClientAction → Option ClientSystem
  | σ, [] => some σ
  | σ, a :: as => (σ.step a).bind (run · as)

theorem step_inv {σ σ' : ClientSystem} (hi : σ.client.Inv) {a : ClientAction}
    (h : σ.step a = some σ') : σ'.client.Inv := by
  cases a with
  | start ok => cases h; exact inv_start hi ok
  | stop => cases h; exact inv_stop hi
  | pipelineStops p =>
    simp only [step] at h
    split at h <;> cases h
    exact ⟨hi.pipeline, hi.waitGroup⟩
  | watcher w =>
    simp only [step] at h
    split at h
    · split at h <;> cases h
      exact hi
    · cases h; exact hi
    · cases h; exact inv_stop hi
    · cases h

theorem run_inv {σ σ' : ClientSystem} (as : List ClientAction) (hi : σ.client.Inv)
    (h : σ.run as = some σ') : σ'.client.Inv := by
  induction as generalizing σ with
  | nil => cases h; exact hi
  | cons a as ih =>
    obtain ⟨σ₁, h₁, h₂⟩ := Option.bind_eq_some.mp h
    exact ih (step_inv hi h₁) h₂

/-- In every reachable state `running` holds exactly when there is a pipeline, the wait group's
counter is one exactly then, and `Send` and `SendFuture` delegate to the pipeline of a running
client. On a client that is not running `Send` returns `ClientNotRunningError` and `SendFuture`
with a callback reports a new error with its text; without a callback it calls `GetChannel` on
the nil pipeline. -/
theorem pipelineClient_sendFuture_without_callback_derefs_nil {as : List ClientAction}
    {σ : ClientSystem} (h : init.run as = some σ) :
    (σ.client.running = σ.client.pipeline.isSome ∧
      σ.client.waitGroup = if σ.client.running then 1 else 0) ∧
    (σ.client.running = true → ∃ p, σ.client.pipeline = some p ∧
      σ.client.send = .delegated p ∧ ∀ cb, σ.client.sendFuture cb = .delegated p) ∧
    (σ.client.running = false → σ.client.send = .error .clientNotRunning ∧
      σ.client.sendFuture true = .callback (.new "client is not running") ∧
      σ.client.sendFuture false = .nilPipeline) := by
  have hi := run_inv as inv_new h
  exact ⟨⟨hi.pipeline, hi.waitGroup⟩, send_sendFuture hi⟩

/-- A client that was started and whose pipeline then stopped: the watcher stops the client,
and a `SendFuture` without a callback then dereferences the nil pipeline. -/
theorem pipelineClient_sendFuture_without_callback_derefs_nil_after_watcher :
    ∃ σ, init.run [.start true, .pipelineStops 0, .watcher 0, .watcher 0, .watcher 0] = some σ ∧
      σ.client.running = false ∧ σ.client.sendFuture false = .nilPipeline :=
  have h := @pipelineClient_sendFuture_without_callback_derefs_nil
    [.start true, .pipelineStops 0, .watcher 0, .watcher 0, .watcher 0] _ rfl
  ⟨_, rfl, rfl, (h.2.2 rfl).2.2⟩

end ClientSystem

end Matcha.Tcp
