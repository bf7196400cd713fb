import Matcha.Task.Corn

/-! # The fixed-time scheduler

`fixedTimeScheduler` of package `task` as a system of its callers, the goroutine its `Start`
makes and the task goroutines; each locked call is one atomic step, and a timer may fire at any
step. -/
namespace Matcha.Task

inductive FixedTimePolicy where
  | fixedRate
  | fixedDelay
  deriving DecidableEq, Repr

inductive SchedulerPc where
  /-- At its `select`, with a timer made. -/
  | selecting
  /-- In `executor.Join()` on task goroutine `i`. -/
  | joining (i : Nat)
  /-- Returned, after `close(s.commandChan)`. -/
  | exited
  deriving DecidableEq, Repr

/-- `fixedTimeScheduler` with its goroutines. `commands` and `chanClosed` are `commandChan`'s
buffer (of capacity one) and whether it is closed; `schedulerPc` is the goroutine of `Start`
(`none` before there is one); `tasks` holds, for each task goroutine started, whether it still
runs the task; `panicked` is a panic of any of the goroutines. -/
structure FixedTimeScheduler where
  policy : FixedTimePolicy
  /-- `Task != nil`. -/
  hasTask : Bool
  state : State
  commands : Nat
  chanClosed : Bool
  schedulerPc : Option SchedulerPc
  tasks : List Bool
  panicked : Bool
  deriving DecidableEq, Repr

namespace FixedTimeScheduler

def newFixedTimeScheduler (policy : FixedTimePolicy) (hasTask : Bool) : FixedTimeScheduler :=
  ⟨policy, hasTask, .new, 0, false, none, [], false⟩

def newFixedDelayScheduler (hasTask : Bool) : FixedTimeScheduler :=
  newFixedTimeScheduler .fixedDelay hasTask

def newFixedRateScheduler (hasTask : Bool) : FixedTimeScheduler :=
  newFixedTimeScheduler .fixedRate hasTask

variable (s : FixedTimeScheduler)

/-- `Start`, under the lock: a new `commandChan`, and the goroutine at its first `select`, on
`time.NewTimer(0)`. -/
def start : FixedTimeScheduler × Option CornError :=
  if s.state ≠ .new then (s, none)
  else if !s.hasTask then (s, some .noTask)
  else
    ({ s with commands := 0, chanClosed := false, schedulerPc := some .selecting,
              state := .running }, none)

/-- `Stop`, under the lock; `none` while its send has to wait for room in `commandChan`. A send
on a closed channel panics. -/
def stop : Option FixedTimeScheduler :=
  if s.state = .running then
    if s.chanClosed then some { s with panicked := true }
    else if s.commands < 1 then some { s with commands := s.commands + 1, state := .finish }
    else none
  else some s

def isRunning : Bool := s.state == .running

/-- The timer case of the `select`: `executeTaskWithFixedTimePolicy` starts a task goroutine and,
under the fixed-delay policy, joins it; under the fixed-rate policy the loop goes on at once to
`time.NewTimer(s.FixedTime)` and its next `select`. -/
def fire : FixedTimeScheduler :=
  { s with
    tasks := s.tasks ++ [true]
    schedulerPc := some (match s.policy with
      | .fixedDelay => .joining s.tasks.length
      | .fixedRate => .selecting) }

/-- The command case of the `select` (a closed channel is ready too): `timer.Stop()`,
`close(s.commandChan)`, return. Closing a closed channel panics. -/
def receive : FixedTimeScheduler :=
  { s with
    commands := s.commands - 1
    chanClosed := true
    panicked := s.panicked || s.chanClosed
    schedulerPc := some .exited }

end FixedTimeScheduler

inductive SchedulerAction where
  | start
  | stop
  | isRunning
  /-- The goroutine's timer has fired and its `select` takes it. -/
  | fire
  /-- The goroutine's `select` takes the command. -/
  | receive
  /-- `Join` returns: the task goroutine it waits on is done. -/
  | joined
  /-- Task goroutine `i`'s statement returns. -/
  | taskReturn (i : Nat)
  deriving DecidableEq, Repr

namespace FixedTimeScheduler

def step (s : FixedTimeScheduler) : SchedulerAction → Option FixedTimeScheduler
  | .start => some s.start.1
  | .stop => s.stop
  | .isRunning => some s
  | .fire => if s.schedulerPc = some .selecting then some s.fire else none
  | .receive =>
    if s.schedulerPc = some .selecting ∧ (0 < s.commands ∨ s.chanClosed = true) then
      some s.receive
    else none
  | .joined =>
    match s.schedulerPc with
    | some (.joining i) =>
      if s.tasks[i]? = some false then some { s with schedulerPc := some .selecting } else none
    | _ => none
  | .taskReturn i =>
    if s.tasks[i]? = some true then some { s with tasks := s.tasks.set i false } else none

def run : FixedTimeScheduler → List SchedulerAction → Option FixedTimeScheduler
  | s, [] => some s
  | s, a :: as => (s.step a).bind (run · as)

theorem run_append {s s' : FixedTimeScheduler} {as bs : List SchedulerAction}
    (h : s.run as = some s') : s.run (as ++ bs) = s'.run bs := by
  induction as generalizing s with
  | nil => cases h; rfl
  | cons a as ih =>
    obtain ⟨s₁, h₁, h₂⟩ := Option.bind_eq_some.mp h
    simp [run, h₁, ih h₂]

variable (s : FixedTimeScheduler)

/-- What holds between the steps. Before `Start` there is no goroutine; while running, the
channel is empty and open and the goroutine has not returned; after `Stop` the command waits in
the channel until the goroutine takes it, closes the channel and returns. Under the fixed-delay
policy every task goroutine still running the task is the one the goroutine joins. -/
structure Inv : Prop where
  no_panic : s.panicked = false
  new : s.state = .new → s.schedulerPc = none ∧ s.tasks = [] ∧ s.chanClosed = false
  running : s.state = .running →
    s.commands = 0 ∧ s.chanClosed = false ∧ s.schedulerPc ≠ none ∧ s.schedulerPc ≠ some .exited
  finish : s.state = .finish →
    s.commands = 1 ∧ s.chanClosed = false ∧ s.schedulerPc ≠ none ∧
        s.schedulerPc ≠ some .exited ∨
      s.commands = 0 ∧ s.chanClosed = true ∧ s.schedulerPc = some .exited
  joining : ∀ i, s.schedulerPc = some (.joining i) → i < s.tasks.length
  delay : s.policy = .fixedDelay → ∀ i, s.tasks[i]? = some true →
    s.schedulerPc = some (.joining i)

variable {s}

theorem inv_new (policy : FixedTimePolicy) (hasTask : Bool) :
    (newFixedTimeScheduler policy hasTask).Inv :=
  ⟨rfl, fun _ => ⟨rfl, rfl, rfl⟩, nofun, nofun, nofun, fun _ _ h => by simp [newFixedTimeScheduler] at h⟩

theorem inv_start (hi : s.Inv) : s.start.1.Inv := by
  unfold start
  split
  · exact hi
  split
  · exact hi
  · next hn _ =>
    obtain ⟨-, ht, -⟩ := hi.new (not_not.mp hn)
    refine ⟨hi.no_panic, nofun, fun _ => ⟨rfl, rfl, nofun, nofun⟩, nofun, nofun, ?_⟩
    intro _ i h
    simp [ht] at h

theorem inv_stop {s' : FixedTimeScheduler} (hi : s.Inv) (h : s.stop = some s') : s'.Inv := by
  unfold stop at h
  split at h
  · next hr =>
    obtain ⟨hc, ho, hn, he⟩ := hi.running hr
    simp only [ho, Bool.false_eq_true, ↓reduceIte, hc, Nat.zero_lt_one, Option.some.injEq] at h
    subst h
    exact { hi with
      new := nofun
      running := nofun
      finish := fun _ => .inl ⟨rfl, rfl, hn, he⟩ }
  · cases h
    exact hi

theorem fire_schedulerPc :
    s.policy = .fixedRate ∧ s.fire.schedulerPc = some .selecting ∨
      s.policy = .fixedDelay ∧ s.fire.schedulerPc = some (.joining s.tasks.length) := by
  unfold fire
  cases s.policy <;> simp

theorem inv_fire (hi : s.Inv) (hs : s.schedulerPc = some .selecting) : s.fire.Inv := by
  have hnew : s.state ≠ .new := fun h => by simp [(hi.new h).1] at hs
  have hpc : s.fire.schedulerPc ≠ none ∧ s.fire.schedulerPc ≠ some .exited := by
    rcases @fire_schedulerPc s with ⟨-, h⟩ | ⟨-, h⟩ <;> simp [h]
  refine ⟨hi.no_panic, fun h => absurd h hnew, fun h => ?_, fun h => ?_, fun i h => ?_, ?_⟩
  · obtain ⟨hc, ho, -⟩ := hi.running h
    exact ⟨hc, ho, hpc⟩
  · rcases hi.finish h with ⟨hc, ho, -⟩ | ⟨-, -, he⟩
    · exact .inl ⟨hc, ho, hpc⟩
    · simp [he] at hs
  · rcases @fire_schedulerPc s with ⟨-, h'⟩ | ⟨-, h'⟩ <;> rw [h'] at h
    · cases h
    · cases h
      simp [fire]
  · intro hp i h
    rcases @fire_schedulerPc s with ⟨hp', -⟩ | ⟨-, h'⟩
    · exact absurd (hp.symm.trans hp') nofun
    rw [h']
    rcases Nat.lt_or_ge i s.tasks.length with hlt | hge
    · rw [fire, List.getElem?_append_left hlt] at h
      simp [hi.delay hp i h] at hs
    · rw [fire, List.getElem?_append_right hge] at h
      obtain ⟨hlt, -⟩ := List.getElem?_eq_some_iff.mp h
      simp only [List.length_singleton] at hlt
      rw [show i = s.tasks.length by omega]

theorem inv_receive (hi : s.Inv) (hs : s.schedulerPc = some .selecting)
    (hc : 0 < s.commands ∨ s.chanClosed = true) : s.receive.Inv := by
  have hfin : s.state = .finish := by
    cases hst : s.state
    · simp [(hi.new hst).1] at hs
    · obtain ⟨hc₀, ho, -⟩ := hi.running hst
      simp [hc₀, ho] at hc
    · rfl
  rcases hi.finish hfin with ⟨hc₁, ho, -⟩ | ⟨-, -, he⟩
  · refine ⟨by simp [receive, hi.no_panic, ho], fun h => by simp [receive, hfin] at h,
      fun h => by simp [receive, hfin] at h, fun _ => .inr ⟨by simp [receive, hc₁], rfl, rfl⟩,
      nofun, fun hp i h => ?_⟩
    simp [hi.delay hp i h] at hs
  · simp [he] at hs

theorem inv_joined {i : Nat} (hi : s.Inv) (hs : s.schedulerPc = some (.joining i))
    (ht : s.tasks[i]? = some false) : { s with schedulerPc := some .selecting }.Inv := by
  have hnew : s.state ≠ .new := fun h => by simp [(hi.new h).1] at hs
  refine ⟨hi.no_panic, fun h => absurd h hnew, fun h => ?_, fun h => ?_, nofun, fun hp j h => ?_⟩
  · obtain ⟨hc, ho, -⟩ := hi.running h
    exact ⟨hc, ho, nofun, nofun⟩
  · rcases hi.finish h with ⟨hc, ho, -⟩ | ⟨-, -, he⟩
    · exact .inl ⟨hc, ho, nofun, nofun⟩
    · simp [he] at hs
  · have hj := hi.delay hp j h
    rw [hs, Option.some.injEq, SchedulerPc.joining.injEq] at hj
    subst hj
    simp [ht] at h

theorem inv_taskReturn {i : Nat} (hi : s.Inv) (ht : s.tasks[i]? = some true) :
    { s with tasks := s.tasks.set i false }.Inv := by
  refine { hi with new := fun h => ?_, joining := fun j h => ?_, delay := fun hp j h => ?_ }
  · simp [(hi.new h).2.1] at ht
  · simpa using hi.joining j h
  · by_cases hij : i = j
    · subst hij
      simp [List.getElem?_set_self (List.getElem?_eq_some_iff.mp ht).1] at h
    · rw [List.getElem?_set_ne hij] at h
      exact hi.delay hp j h

theorem step_inv {s' : FixedTimeScheduler} (hi : s.Inv) {a : SchedulerAction}
    (h : s.step a = some s') : s'.Inv := by
  cases a with
  | start => cases h; exact inv_start hi
  | stop => exact inv_stop hi h
  | isRunning => cases h; exact hi
  | fire =>
    simp only [step] at h
    split at h
    · cases h; exact inv_fire hi ‹_›
    · cases h
  | receive =>
    simp only [step] at h
    split at h
    · next hc => cases h; exact inv_receive hi hc.1 hc.2
    · cases h
  | joined =>
    simp only [step] at h
    split at h
    · next i hs =>
      split at h
      · cases h; exact inv_joined hi hs ‹_›
      · cases h
    · cases h
  | taskReturn i =>
    simp only [step] at h
    split at h
    · cases h; exact inv_taskReturn hi ‹_›
    · cases h

theorem run_inv {s' : FixedTimeScheduler} (as : List SchedulerAction) (hi : s.Inv)
    (h : s.run as = some s') : s'.Inv := by
  induction as generalizing s with
  | nil => cases h; exact hi
  | cons a as ih =>
    obtain ⟨s₁, h₁, h₂⟩ := Option.bind_eq_some.mp h
    exact ih (step_inv hi h₁) h₂

theorem stop_completes (hi : s.Inv) : ∃ s', s.stop = some s' ∧ s'.panicked = false := by
  unfold stop
  split
  · next hr =>
    obtain ⟨hc, ho, -⟩ := hi.running hr
    simp [hc, ho, hi.no_panic]
  · exact ⟨s, rfl, hi.no_panic⟩

/-- In every run, by any number of callers interleaved in any order with the goroutine and the
task goroutines: nothing panics, every call of `Stop` completes (its send neither waits nor
meets a closed channel), and the channel is closed only by the goroutine's return after a
`Stop`. -/
theorem fixedTimeScheduler_stop_safe (policy : FixedTimePolicy) (hasTask : Bool)
    {as : List SchedulerAction} {s : FixedTimeScheduler}
    (h : (newFixedTimeScheduler policy hasTask).run as = some s) :
    s.panicked = false ∧ (∃ s', s.step .stop = some s' ∧ s'.panicked = false) ∧
      (s.chanClosed = true → s.state = .finish ∧ s.schedulerPc = some .exited) := by
  have hi := run_inv as (inv_new policy hasTask) h
  refine ⟨hi.no_panic, stop_completes hi, fun hc => ?_⟩
  cases hst : s.state
  · simp [(hi.new hst).2.2] at hc
  · simp [(hi.running hst).2.1] at hc
  · rcases hi.finish hst with ⟨-, ho, -⟩ | ⟨-, -, he⟩
    · simp [ho] at hc
    · exact ⟨rfl, he⟩

theorem fixedTimeScheduler_stop_safe_after_stop :
    ∃ s, (newFixedRateScheduler true).run [.start, .fire, .stop, .receive] = some s ∧
      s.panicked = false ∧ (∃ s', s.step .stop = some s' ∧ s'.panicked = false) ∧
      (s.chanClosed = true → s.state = .finish ∧ s.schedulerPc = some .exited) :=
  ⟨_, rfl, @fixedTimeScheduler_stop_safe .fixedRate true [.start, .fire, .stop, .receive] _ rfl⟩

theorem stop_finish {s' : FixedTimeScheduler} (hi : s.Inv) (hs : s.state ≠ .new)
    (h : s.stop = some s') : s'.state = .finish := by
  unfold stop at h
  split at h
  · next hr =>
    obtain ⟨hc, ho, -⟩ := hi.running hr
    simp only [ho, Bool.false_eq_true, ↓reduceIte, hc, Nat.zero_lt_one, Option.some.injEq] at h
    rw [← h]
  · cases h
    cases hst : s.state <;> simp_all

theorem receive_exits (hi : s.Inv) (hf : s.state = .finish)
    (hs : s.schedulerPc = some .selecting) :
    s.step .receive = some s.receive ∧ s.receive.schedulerPc = some .exited ∧
      s.receive.chanClosed = true ∧ s.receive.panicked = false := by
  rcases hi.finish hf with ⟨hc, ho, -⟩ | ⟨-, -, he⟩
  · simp [step, hs, hc, receive, ho, hi.no_panic]
  · simp [he] at hs

theorem exits_of_finish (hi : s.Inv) (hf : s.state = .finish) :
    ∃ bs s', s.run bs = some s' ∧ s'.schedulerPc = some .exited ∧ s'.chanClosed = true ∧
      s'.panicked = false := by
  rcases hi.finish hf with ⟨-, -, hn, he⟩ | ⟨-, hc, he⟩
  · obtain ⟨pc, hpc⟩ := Option.ne_none_iff_exists'.mp hn
    cases pc with
    | selecting =>
      obtain ⟨h₁, h₂⟩ := receive_exits hi hf hpc
      exact ⟨[.receive], _, by simp [run, h₁], h₂⟩
    | exited => exact absurd hpc he
    | joining i =>
      have hjoin : ∀ {t : FixedTimeScheduler}, t.Inv → t.state = .finish →
          t.schedulerPc = some (.joining i) → t.tasks[i]? = some false →
          ∃ bs t', t.run bs = some t' ∧ t'.schedulerPc = some .exited ∧ t'.chanClosed = true ∧
            t'.panicked = false := by
        intro t ht htf htp hti
        have hstep : t.step .joined = some { t with schedulerPc := some .selecting } := by
          simp [step, htp, hti]
        obtain ⟨h₁, h₂⟩ := receive_exits (step_inv ht hstep) htf rfl
        exact ⟨[.joined, .receive], _, by simp [run, hstep, h₁], h₂⟩
      have hlen := hi.joining i hpc
      cases hb : s.tasks[i] with
      | false => exact hjoin hi hf hpc (by simp [hlen, hb])
      | true =>
        have hstep : s.step (.taskReturn i) = some { s with tasks := s.tasks.set i false } := by
          simp [step, hlen, hb]
        obtain ⟨bs, t', h₁, h₂⟩ := hjoin (step_inv hi hstep) hf hpc (by simp [hlen])
        exact ⟨.taskReturn i :: bs, t', by simp [run, hstep, h₁], h₂⟩
  · exact ⟨[], s, rfl, he, hc, hi.no_panic⟩

/-- In every reachable state of a started scheduler, `Stop` and then the steps of the goroutine
(and the return of the task goroutine it joins, under the fixed-delay policy) bring the goroutine
to take the command, close the channel and return: the shutdown never deadlocks. -/
theorem fixedTimeScheduler_stop_returns (policy : FixedTimePolicy) (hasTask : Bool)
    {as : List SchedulerAction} {s : FixedTimeScheduler}
    (h : (newFixedTimeScheduler policy hasTask).run as = some s) (hs : s.state ≠ .new) :
    ∃ bs s', s.run (.stop :: bs) = some s' ∧ s'.schedulerPc = some .exited ∧
      s'.chanClosed = true ∧ s'.panicked = false := by
  have hi := run_inv as (inv_new policy hasTask) h
  obtain ⟨s₁, h₁, -⟩ := stop_completes hi
  obtain ⟨bs, s', h₂, h₃⟩ := exits_of_finish (inv_stop hi h₁) (stop_finish hi hs h₁)
  exact ⟨bs, s', by simp [run, step, h₁, h₂], h₃⟩

theorem fixedTimeScheduler_stop_returns_after_fire :
    (newFixedDelayScheduler true).run [.start, .fire] =
        some ⟨.fixedDelay, true, .running, 0, false, some (.joining 0), [true], false⟩ ∧
      State.running ≠ .new ∧
      ∃ bs s', (FixedTimeScheduler.mk .fixedDelay true .running 0 false (some (.joining 0)) [true]
        false).run (.stop :: bs) = some s' ∧ s'.schedulerPc = some .exited ∧
        s'.chanClosed = true ∧ s'.panicked = false :=
  ⟨rfl, nofun, @fixedTimeScheduler_stop_returns .fixedDelay true [.start, .fire] _ rfl nofun⟩

theorem step_policy {s' : FixedTimeScheduler} {a : SchedulerAction} (h : s.step a = some s') :
    s'.policy = s.policy := by
  cases a <;> simp only [step, start, stop, fire, receive] at h <;> (repeat' split at h) <;>
    (try cases h) <;> rfl

theorem run_policy {s' : FixedTimeScheduler} (as : List SchedulerAction) (h : s.run as = some s') :
    s'.policy = s.policy := by
  induction as generalizing s with
  | nil => cases h; rfl
  | cons a as ih =>
    obtain ⟨s₁, h₁, h₂⟩ := Option.bind_eq_some.mp h
    rw [ih h₂, step_policy h₁]

/-- Under the fixed-delay policy, in every run, two task goroutines never run the task at once,
and the one that runs it is the one the goroutine joins: executions never overlap. -/
theorem fixedDelayScheduler_runs_one_task (hasTask : Bool) {as : List SchedulerAction}
    {s : FixedTimeScheduler} (h : (newFixedDelayScheduler hasTask).run as = some s) {i j : Nat}
    (hi : s.tasks[i]? = some true) (hj : s.tasks[j]? = some true) :
    i = j ∧ s.schedulerPc = some (.joining i) := by
  have hinv := run_inv as (inv_new .fixedDelay hasTask) h
  have hp : s.policy = .fixedDelay := run_policy as h
  have hpi := hinv.delay hp i hi
  rw [hinv.delay hp j hj, Option.some.injEq, SchedulerPc.joining.injEq] at hpi
  exact ⟨hpi.symm, hinv.delay hp i hi⟩

theorem fixedDelayScheduler_runs_one_task_after_fire :
    (newFixedDelayScheduler true).run [.start, .fire] =
        some ⟨.fixedDelay, true, .running, 0, false, some (.joining 0), [true], false⟩ ∧
      (0 = 0 ∧ some (SchedulerPc.joining 0) = some (.joining 0)) :=
  ⟨rfl, @fixedDelayScheduler_runs_one_task true [.start, .fire] _ rfl 0 0 rfl rfl⟩

/-- Under the fixed-rate policy the goroutine does not wait: two task goroutines may run the task
at once. -/
example : ((newFixedRateScheduler true).run [.start, .fire, .fire]).map (·.tasks) =
    some [true, true] := by
  decide

end FixedTimeScheduler

end Matcha.Task
