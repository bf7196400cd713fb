import Mathlib.Data.List.Count

/-! # The parallel acceptor

`parallelAcceptor` of package `bind` as a system of its callers and accept workers; each section
under `stateMutex` is one atomic step, and `workerCounter` is a `uint8`, kept modulo 256. -/
namespace Matcha.Bind

structure AcceptorProp where
  parallelism : UInt8
  /-- `Listener != nil`. -/
  listener : Bool
  /-- `AcceptCallback != nil`. -/
  acceptCallback : Bool

/-- Where an accept worker is: in its accept loop, past a failed accept and waiting for the
lock in its deferred function, or gone. -/
inductive AcceptWorker where
  | accepting
  | exiting
  | exited
  deriving DecidableEq, Repr

structure ParallelAcceptor where
  prop : AcceptorProp
  running : Bool
  stateWaitGroup : Nat
  workerCounter : Nat
  /-- `Stop` closed the listener. -/
  listenerClosed : Bool
  /-- The workers spawned so far. -/
  workers : List AcceptWorker
  /-- The calls of `Start` that reached `stateWaitGroup.Add(1)`, and of `stateWaitGroup.Done`
  (not in the source: they count events). -/
  starts : Nat
  dones : Nat

namespace ParallelAcceptor

def newParallelAcceptor (prop : AcceptorProp) : ParallelAcceptor :=
  ⟨prop, false, 0, 0, false, [], 0, 0⟩

/-- The loop of `Start`: each round spawns a worker and counts it. -/
def spawnWorkers : Nat → ParallelAcceptor → ParallelAcceptor
  | 0, pa => pa
  | n + 1, pa =>
    spawnWorkers n { pa with
      workers := pa.workers ++ [.accepting]
      workerCounter := (pa.workerCounter + 1) % 256 }

variable (pa : ParallelAcceptor)

/-- `Start`, under the lock; it returns the acceptor and its error. -/
def start : ParallelAcceptor × Option String :=
  if !pa.prop.listener then (pa, some "listener is nil")
  else if !pa.prop.acceptCallback then (pa, some "callback is nil")
  else if pa.running then (pa, none)
  else
    let pa' := spawnWorkers pa.prop.parallelism.toNat
      { pa with stateWaitGroup := pa.stateWaitGroup + 1, starts := pa.starts + 1 }
    ({ pa' with running := true }, none)

def isRunning : Bool := pa.running

def stop : ParallelAcceptor := if pa.running then { pa with listenerClosed := true } else pa

/-- The deferred function of a worker, under the lock: `workerCounter -= 1`, and the last worker
clears `running` and calls `stateWaitGroup.Done()`. -/
def workerExit : ParallelAcceptor :=
  let pa' := { pa with workerCounter := (pa.workerCounter + 255) % 256 }
  if pa'.workerCounter = 0 then
    { pa' with running := false, stateWaitGroup := pa'.stateWaitGroup - 1, dones := pa'.dones + 1 }
  else pa'

def failAccept (i : Nat) : ParallelAcceptor := { pa with workers := pa.workers.set i .exiting }

def exitWorker (i : Nat) : ParallelAcceptor :=
  workerExit { pa with workers := pa.workers.set i .exited }

def countLive (ws : List AcceptWorker) : Nat := ws.countP (· != AcceptWorker.exited)

def live : Nat := countLive pa.workers

@[simp] theorem countLive_append (ws ws' : List AcceptWorker) :
    countLive (ws ++ ws') = countLive ws + countLive ws' := List.countP_append _ _ _

@[simp] theorem countLive_replicate_accepting (n : Nat) :
    countLive (List.replicate n .accepting) = n := by
  simp [countLive, List.countP_replicate]

theorem countLive_set {ws : List AcceptWorker} {i : Nat} {w : AcceptWorker}
    (hw : ws[i]? = some w) (w' : AcceptWorker) :
    countLive (ws.set i w') =
      countLive ws - (if w != .exited then 1 else 0) + (if w' != .exited then 1 else 0) := by
  obtain ⟨hi, rfl⟩ := List.getElem?_eq_some_iff.mp hw
  exact List.countP_set _ _ _ _ hi

theorem countLive_pos {ws : List AcceptWorker} {i : Nat} {w : AcceptWorker}
    (hw : ws[i]? = some w) (h : w ≠ .exited) : 0 < countLive ws := by
  obtain ⟨hi, hw'⟩ := List.getElem?_eq_some_iff.mp hw
  exact List.countP_pos_iff.mpr ⟨_, List.getElem_mem hi, by simp [hw', h]⟩

theorem countLive_set_exiting {ws : List AcceptWorker} {i : Nat}
    (hw : ws[i]? = some .accepting) : countLive (ws.set i .exiting) = countLive ws := by
  have := countLive_pos hw (by decide)
  rw [countLive_set hw]; simp; omega

theorem countLive_set_exited {ws : List AcceptWorker} {i : Nat}
    (hw : ws[i]? = some .exiting) : countLive (ws.set i .exited) + 1 = countLive ws := by
  have := countLive_pos hw (by decide)
  rw [countLive_set hw]; simp; omega

theorem spawnWorkers_eq (n : Nat) {pa : ParallelAcceptor} (hc : pa.workerCounter < 256) :
    spawnWorkers n pa = { pa with
      workers := pa.workers ++ List.replicate n .accepting
      workerCounter := (pa.workerCounter + n) % 256 } := by
  induction n generalizing pa with
  | zero => simp [spawnWorkers, Nat.mod_eq_of_lt hc]
  | succ n ih =>
    rw [spawnWorkers, ih (Nat.mod_lt _ (by omega))]
    simp only [List.append_assoc, List.singleton_append, List.replicate_succ, mk.injEq, true_and,
      and_true]
    omega

/-- What holds between the steps, for a `Parallelism` of at least one. -/
structure Inv : Prop where
  counter : pa.workerCounter = pa.live
  running : pa.running = decide (0 < pa.live)
  waitGroup : pa.stateWaitGroup = if pa.running then 1 else 0
  dones : pa.dones + (if pa.running then 1 else 0) = pa.starts
  bound : pa.live ≤ pa.prop.parallelism.toNat
  positive : 0 < pa.prop.parallelism.toNat

variable {pa}

theorem inv_new {prop : AcceptorProp} (hp : 0 < prop.parallelism.toNat) :
    (newParallelAcceptor prop).Inv :=
  ⟨rfl, rfl, rfl, rfl, Nat.zero_le _, hp⟩

theorem inv_start (hi : pa.Inv) : pa.start.1.Inv := by
  unfold start
  split; · exact hi
  split; · exact hi
  split; · exact hi
  rename_i hr
  have hl : countLive pa.workers = 0 := by have := hi.running; simp_all [live]
  have hP : pa.prop.parallelism.toNat < 256 := pa.prop.parallelism.val.isLt
  have hc := hi.counter
  have hw := hi.waitGroup
  have hd := hi.dones
  simp only [hr, Bool.false_eq_true, ↓reduceIte, live] at hc hw hd
  rw [spawnWorkers_eq _ (by dsimp only; omega)]
  have hlive : countLive (pa.workers ++ List.replicate pa.prop.parallelism.toNat .accepting) =
      pa.prop.parallelism.toNat := by
    rw [countLive_append, countLive_replicate_accepting, hl, Nat.zero_add]
  refine ⟨?_, ?_, ?_, ?_, ?_, hi.positive⟩ <;> simp only [live, hlive]
  · show (pa.workerCounter + _) % 256 = _
    rw [hc, hl, Nat.zero_add, Nat.mod_eq_of_lt hP]
  · simp [hi.positive]
  · simp [hw]
  · simp [← hd]
  · exact Nat.le_refl _

theorem start_running (hl : pa.prop.listener = true) (hc : pa.prop.acceptCallback = true) :
    pa.start.1.running = true := by
  unfold start
  simp only [hl, hc, Bool.not_true, Bool.false_eq_true, ↓reduceIte]
  split
  · assumption
  · rfl

theorem inv_stop (hi : pa.Inv) : pa.stop.Inv := by
  unfold stop; split
  · exact ⟨hi.1, hi.2, hi.3, hi.4, hi.5, hi.6⟩
  · exact hi

theorem inv_failAccept {i : Nat} (hw : pa.workers[i]? = some .accepting) (hi : pa.Inv) :
    (pa.failAccept i).Inv := by
  have hl : (pa.failAccept i).live = pa.live := countLive_set_exiting hw
  exact ⟨hl ▸ hi.1, hl ▸ hi.2, hi.3, hi.4, hl ▸ hi.5, hi.6⟩

theorem inv_exitWorker {i : Nat} (hw : pa.workers[i]? = some .exiting) (hi : pa.Inv) :
    (pa.exitWorker i).Inv ∧ (pa.exitWorker i).live + 1 = pa.live ∧
      ((pa.exitWorker i).live = 0 ∧ (pa.exitWorker i).dones = pa.dones + 1 ∧
          pa.stateWaitGroup = 1 ∨
        0 < (pa.exitWorker i).live ∧ (pa.exitWorker i).dones = pa.dones) := by
  have hl := countLive_set_exited hw
  have hr : pa.running = true := by rw [hi.running]; simp only [live]; simp; omega
  have hc := hi.counter
  have hg := hi.waitGroup
  have hd := hi.dones
  have hb := hi.bound
  simp only [hr, ↓reduceIte, live] at hc hg hd hb
  have hm : (pa.workerCounter + 255) % 256 = countLive (pa.workers.set i .exited) := by
    have : pa.prop.parallelism.toNat < 256 := pa.prop.parallelism.val.isLt
    omega
  unfold exitWorker workerExit
  simp only [hm]
  split
  · rename_i h0
    refine ⟨⟨rfl, ?_, ?_, ?_, ?_, hi.positive⟩, hl, .inl ⟨h0, rfl, hg⟩⟩
    · show false = decide (0 < countLive (pa.workers.set i .exited))
      simp [h0]
    · show pa.stateWaitGroup - 1 = if false = true then 1 else 0
      simp [hg]
    · show pa.dones + 1 + (if false = true then 1 else 0) = pa.starts
      simp [hd]
    · show countLive (pa.workers.set i .exited) ≤ pa.prop.parallelism.toNat
      omega
  · rename_i h0
    refine ⟨⟨rfl, ?_, ?_, ?_, ?_, hi.positive⟩, hl, .inr ⟨Nat.pos_of_ne_zero h0, rfl⟩⟩
    · show pa.running = decide (0 < countLive (pa.workers.set i .exited))
      simp [hr]; omega
    · show pa.stateWaitGroup = if pa.running = true then 1 else 0
      simp [hr, hg]
    · show pa.dones + (if pa.running = true then 1 else 0) = pa.starts
      simp [hr, hd]
    · show countLive (pa.workers.set i .exited) ≤ pa.prop.parallelism.toNat
      omega

end ParallelAcceptor

inductive AcceptorCall where
  | start
  | stop
  | isRunning
  | sync
  deriving DecidableEq, Repr

structure AcceptorSystem where
  acceptor : ParallelAcceptor
  /-- For each caller: it is blocked in `Sync`. -/
  syncing : List Bool

inductive AcceptorAction where
  | spawn
  /-- Caller `t`, between calls, calls the acceptor. -/
  | call (t : Nat) (c : AcceptorCall)
  /-- `stateWaitGroup.Wait()` of caller `t` returns: the counter is zero. -/
  | syncReturn (t : Nat)
  | acceptFail (i : Nat)
  | workerExit (i : Nat)
  deriving DecidableEq, Repr

namespace AcceptorSystem

open ParallelAcceptor

def init (prop : AcceptorProp) : AcceptorSystem := ⟨newParallelAcceptor prop, []⟩

def step (σ : AcceptorSystem) : AcceptorAction → Option AcceptorSystem
  | .spawn => some { σ with syncing := σ.syncing ++ [false] }
  | .call t c =>
    if σ.syncing[t]? = some false then
      match c with
      | .start => some { σ with acceptor := σ.acceptor.start.1 }
      | .stop => some { σ with acceptor := σ.acceptor.stop }
      | .isRunning => some σ
      | .sync => some { σ with syncing := σ.syncing.set t true }
    else none
  | .syncReturn t =>
    if σ.syncing[t]? = some true ∧ σ.acceptor.stateWaitGroup = 0 then
      some { σ with syncing := σ.syncing.set t false }
    else none
  | .acceptFail i =>
    if σ.acceptor.workers[i]? = some .accepting then
      some { σ with acceptor := σ.acceptor.failAccept i }
    else none
  | .workerExit i =>
    if σ.acceptor.workers[i]? = some .exiting then
      some { σ with acceptor := σ.acceptor.exitWorker i }
    else none

def run : AcceptorSystem → List AcceptorAction → Option AcceptorSystem
  | σ, [] => some σ
  | σ, a :: as => (σ.step a).bind (run · as)

theorem step_call {σ σ' : AcceptorSystem} {t : Nat} {c : AcceptorCall}
    (h : σ.step (.call t c) = some σ') :
    σ'.acceptor = match c with
      | .start => σ.acceptor.start.1
      | .stop => σ.acceptor.stop
      | .isRunning | .sync => σ.acceptor := by
  simp only [step] at h
  split at h
  · cases c <;> cases h <;> rfl
  · cases h

theorem step_syncReturn {σ σ' : AcceptorSystem} {t : Nat} (h : σ.step (.syncReturn t) = some σ') :
    σ.acceptor.stateWaitGroup = 0 ∧ σ'.acceptor = σ.acceptor := by
  simp only [step] at h
  split at h
  · cases h; exact ⟨(by assumption : _ ∧ _).2, rfl⟩
  · cases h

theorem step_acceptFail {σ σ' : AcceptorSystem} {i : Nat} (h : σ.step (.acceptFail i) = some σ') :
    σ.acceptor.workers[i]? = some .accepting ∧ σ'.acceptor = σ.acceptor.failAccept i := by
  simp only [step] at h
  split at h
  · cases h; exact ⟨by assumption, rfl⟩
  · cases h

theorem step_workerExit {σ σ' : AcceptorSystem} {i : Nat} (h : σ.step (.workerExit i) = some σ') :
    σ.acceptor.workers[i]? = some .exiting ∧ σ'.acceptor = σ.acceptor.exitWorker i := by
  simp only [step] at h
  split at h
  · cases h; exact ⟨by assumption, by dsimp only⟩
  · cases h

theorem step_inv {σ σ' : AcceptorSystem} (hi : σ.acceptor.Inv) {a : AcceptorAction}
    (h : σ.step a = some σ') : σ'.acceptor.Inv := by
  cases a with
  | spawn => cases h; exact hi
  | call t c =>
    rw [step_call h]
    cases c
    · exact inv_start hi
    · exact inv_stop hi
    · exact hi
    · exact hi
  | syncReturn t => rw [(step_syncReturn h).2]; exact hi
  | acceptFail i =>
    obtain ⟨hw, he⟩ := step_acceptFail h
    rw [he]; exact inv_failAccept hw hi
  | workerExit i =>
    obtain ⟨hw, he⟩ := step_workerExit h
    rw [he]; exact (inv_exitWorker hw hi).1

theorem run_inv {σ σ' : AcceptorSystem} (as : List AcceptorAction) (hi : σ.acceptor.Inv)
    (h : σ.run as = some σ') : σ'.acceptor.Inv := by
  induction as generalizing σ with
  | nil => cases h; exact hi
  | cons a as ih =>
    obtain ⟨σ₁, h₁, h₂⟩ := Option.bind_eq_some.mp h
    exact ih (step_inv hi h₁) h₂

/-- For a `Parallelism` of at least one, in every reachable state: `workerCounter` counts the
workers not gone, `running` holds exactly while one is left, the wait group's counter is one
exactly then, and `Done` has been called once per `Start` but a running one's. A `Start` that
passes its nil checks leaves the acceptor running; the exit of a worker calls `Done`, from a
count of one, exactly when it is the last; and `Sync` returns only when every worker is gone and
every `Start` has had its `Done`. -/
theorem parallelAcceptor_counts_workers (prop : AcceptorProp) (hp : 0 < prop.parallelism.toNat)
    {as : List AcceptorAction} {σ : AcceptorSystem} (h : (init prop).run as = some σ) :
    σ.acceptor.workerCounter = σ.acceptor.live ∧
    σ.acceptor.running = decide (0 < σ.acceptor.live) ∧
    σ.acceptor.stateWaitGroup = (if σ.acceptor.running then 1 else 0) ∧
    σ.acceptor.dones + (if σ.acceptor.running then 1 else 0) = σ.acceptor.starts ∧
    (∀ t σ', σ.step (.call t .start) = some σ' → σ.acceptor.prop.listener = true →
      σ.acceptor.prop.acceptCallback = true → σ'.acceptor.running = true) ∧
    (∀ i σ', σ.step (.workerExit i) = some σ' → σ'.acceptor.live + 1 = σ.acceptor.live ∧
      (σ'.acceptor.live = 0 ∧ σ'.acceptor.dones = σ.acceptor.dones + 1 ∧
          σ.acceptor.stateWaitGroup = 1 ∨
        0 < σ'.acceptor.live ∧ σ'.acceptor.dones = σ.acceptor.dones)) ∧
    (∀ t σ', σ.step (.syncReturn t) = some σ' →
      σ.acceptor.live = 0 ∧ σ.acceptor.dones = σ.acceptor.starts) := by
  have hi := run_inv as (inv_new hp) h
  refine ⟨hi.counter, hi.running, hi.waitGroup, hi.dones, fun t σ' hs hl hc => ?_,
    fun i σ' hs => ?_, fun t σ' hs => ?_⟩
  · rw [step_call hs]; exact start_running hl hc
  · obtain ⟨hw, he⟩ := step_workerExit hs
    rw [he]; exact (inv_exitWorker hw hi).2
  · have hr : σ.acceptor.running = false := by
      have hg := hi.waitGroup
      rw [(step_syncReturn hs).1] at hg
      split at hg <;> simp_all
    have hd := hi.dones
    have hr' := hi.running
    simp only [hr, Bool.false_eq_true, ↓reduceIte, Nat.add_zero] at hd hr'
    exact ⟨by simpa using hr'.symm, hd⟩

theorem parallelAcceptor_counts_workers_after_one_exit :
    ∃ σ, (init ⟨2, true, true⟩).run [.spawn, .call 0 .start, .acceptFail 0, .workerExit 0] =
        some σ ∧
      σ.acceptor.workerCounter = σ.acceptor.live ∧ σ.acceptor.running = decide (0 < σ.acceptor.live) :=
  have h := @parallelAcceptor_counts_workers ⟨2, true, true⟩ (by decide)
    [.spawn, .call 0 .start, .acceptFail 0, .workerExit 0] _ rfl
  ⟨_, rfl, h.1, h.2.1⟩

end AcceptorSystem

end Matcha.Bind
