import Matcha.Peer.Pipeline

/-! # The lifecycle invariant of the pipeline

What holds in every reachable system: who holds `stateMutex`, which workers exist in each state,
and what a `Stop` that found the pipeline running has done. -/
namespace Matcha.Peer

/-- The call holds `stateMutex` for writing. -/
def CallPc.exclusive : CallPc → Bool
  | .awaitReaders _ | .initBody | .startBody | .stopCheck | .stopCloseOut | .stopJoinInbound
  | .stopJoinOutbound | .stopCloseConn | .stopJoinReader | .stopFinish => true
  | _ => false

def Thread.exclusive (th : Thread) : Bool := th.call.any CallPc.exclusive

def Role.worker : Role → Option Worker
  | .reader _ => some .reader
  | .inbound _ => some .inbound
  | .outbound _ => some .outbound
  | .caller => none

def kindAt (ths : List Thread) (t : Nat) : Option Worker := ths[t]?.bind (·.role.worker)

def Pipeline.dataClosed (p : Pipeline) : Bool :=
  p.inboundDataC.any (·.closed) || p.outboundDataC.any (·.closed)

/-- The `Join()` of the worker `w` points at returns. -/
def Joined (ths : List Thread) (w : Option Nat) : Prop := w.any (joined ths) = true

/-- What a `Stop` call at `pc` has established: it found the pipeline running, and the workers
whose `Join()` it has passed have returned. -/
def stopReady (p : Pipeline) (ths : List Thread) : CallPc → Prop
  | .stopCloseOut | .stopJoinInbound => p.state = .running
  | .stopJoinOutbound => p.state = .running ∧ Joined ths p.inboundHandler
  | .stopCloseConn | .stopJoinReader =>
    p.state = .running ∧ Joined ths p.inboundHandler ∧ Joined ths p.outboundHandler
  | .stopFinish =>
    p.state = .running ∧ Joined ths p.inboundHandler ∧ Joined ths p.outboundHandler ∧
      Joined ths p.connReadHandler
  | _ => True

/-- The lifecycle invariant. -/
structure Inv (σ : System) : Prop where
  mutex : ∀ t th, σ.threads[t]? = some th → th.exclusive → σ.pipeline.stateMutex.writer = some t
  idle : σ.pipeline.state = .new ∨ σ.pipeline.state = .ready → ∀ th ∈ σ.threads, th.role = .caller
  unique : ∀ t u k, kindAt σ.threads t = some k → kindAt σ.threads u = some k → t = u
  handlers : σ.pipeline.state = .running →
    σ.pipeline.connReadHandler.bind (kindAt σ.threads) = some .reader ∧
    σ.pipeline.inboundHandler.bind (kindAt σ.threads) = some .inbound ∧
    σ.pipeline.outboundHandler.bind (kindAt σ.threads) = some .outbound
  stopping : ∀ th ∈ σ.threads, ∀ pc, th.call = some pc → stopReady σ.pipeline σ.threads pc
  shutdown : σ.pipeline.state = .shutdown → ∀ th ∈ σ.threads, th.role.worker.isSome → th.exited
  closed : σ.pipeline.dataClosed → σ.pipeline.state = .shutdown

@[simp] theorem Role.worker_eq_none {r : Role} : r.worker = none ↔ r = .caller := by
  cases r <;> simp [Role.worker]

theorem stopReady_of_not_exclusive {p ths} {pc : CallPc} (h : pc.exclusive = false) :
    stopReady p ths pc := by
  cases pc <;> simp_all [stopReady, CallPc.exclusive]

section Update

variable {ths : List Thread} {t : Nat} {th th' : Thread} {new : List Thread}

theorem mem_update {x : Thread} (h : x ∈ ths.set t th' ++ new) : x = th' ∨ x ∈ ths ∨ x ∈ new := by
  rcases List.mem_append.mp h with h | h
  · rcases List.mem_or_eq_of_mem_set h with h | h
    · exact .inr (.inl h)
    · exact .inl h
  · exact .inr (.inr h)

theorem getElem?_update (ht : ths[t]? = some th) (th' : Thread) (new : List Thread) (v : Nat) :
    (v = t ∧ (ths.set t th' ++ new)[v]? = some th') ∨
    (v ≠ t ∧ (ths.set t th' ++ new)[v]? = ths[v]? ∧ v < ths.length) ∨
    (ths.length ≤ v ∧ (ths.set t th' ++ new)[v]? = new[v - ths.length]?) := by
  have htl := (List.getElem?_eq_some_iff.mp ht).1
  by_cases hv : v < ths.length
  · rw [List.getElem?_append_left (by simpa using hv)]
    by_cases hvt : v = t
    · subst hvt; exact .inl ⟨rfl, List.getElem?_set_self htl⟩
    · exact .inr (.inl ⟨hvt, List.getElem?_set_ne (Ne.symm hvt), hv⟩)
  · have hl : (ths.set t th').length ≤ v := by simp; omega
    rw [List.getElem?_append_right hl, List.length_set]
    exact .inr (.inr ⟨by omega, rfl⟩)

theorem kindAt_update (ht : ths[t]? = some th) (hk : th'.role.worker = th.role.worker)
    (hn : ∀ x ∈ new, x.role = .caller) : kindAt (ths.set t th' ++ new) = kindAt ths := by
  funext v
  rcases getElem?_update ht th' new v with ⟨rfl, h⟩ | ⟨-, h, -⟩ | ⟨hl, h⟩
  · simp [kindAt, h, ht, hk]
  · simp [kindAt, h]
  · rw [kindAt, kindAt, h, List.getElem?_eq_none hl]
    cases hx : new[v - ths.length]? with
    | none => rfl
    | some x => simp [hn x (List.getElem?_mem hx), Role.worker]

/-- The goroutines that have returned stay where they are. -/
def KeepsExited (ths ths' : List Thread) : Prop :=
  ∀ (v : Nat) (x : Thread), ths[v]? = some x → x.exited → ths'[v]? = some x

theorem Joined.mono {ths' : List Thread} (hk : KeepsExited ths ths') {w : Option Nat}
    (hw : Joined ths w) : Joined ths' w := by
  obtain _ | v := w
  · exact absurd hw (by simp [Joined])
  obtain ⟨x, hxv, hex⟩ : ∃ x, ths[v]? = some x ∧ x.exited := by
    cases h : ths[v]? <;> simp_all [Joined, joined]
  simp [Joined, joined, hk v x hxv hex, hex]

theorem stopReady_mono {ths' : List Thread} (hk : KeepsExited ths ths') {p : Pipeline}
    {pc : CallPc} (h : stopReady p ths pc) : stopReady p ths' pc := by
  have hj : ∀ {w : Option Nat}, Joined ths w → Joined ths' w := fun hw => hw.mono hk
  cases pc <;> simp only [stopReady] at h ⊢
  all_goals first
    | trivial
    | exact h
    | exact ⟨h.1, hj h.2⟩
    | exact ⟨h.1, hj h.2.1, hj h.2.2⟩
    | exact ⟨h.1, hj h.2.1, hj h.2.2.1, hj h.2.2.2⟩

theorem keepsExited_update (ht : ths[t]? = some th) (hx : th.exited = false) :
    KeepsExited ths (ths.set t th' ++ new) := by
  intro v x hxv hex
  rcases getElem?_update ht th' new v with ⟨rfl, -⟩ | ⟨-, h, -⟩ | ⟨hl, -⟩
  · rw [ht] at hxv; cases hxv; simp_all
  · rwa [h]
  · simp [List.getElem?_eq_none hl] at hxv

theorem keepsExited_append : KeepsExited ths (ths ++ new) := fun v _ hv _ => by
  rw [List.getElem?_append_left (List.getElem?_eq_some_iff.mp hv).1, hv]

theorem stopReady_update (ht : ths[t]? = some th) (hx : th.exited = false) {p : Pipeline}
    {pc : CallPc} (h : stopReady p ths pc) : stopReady p (ths.set t th' ++ new) pc :=
  stopReady_mono (keepsExited_update ht hx) h

end Update


/-- How a goroutine's step moves the writer of `stateMutex`: not at all, by `Lock()` when no
goroutine holds it, or by the unlock of the goroutine inside `Init`, `Start` or `Stop`. -/
def MutexStep (p p' : Pipeline) (t : Nat) (th th' : Thread) : Prop :=
  (p'.stateMutex.writer = p.stateMutex.writer ∧ th'.exclusive = th.exclusive) ∨
  (p.stateMutex.writer = none ∧ p'.stateMutex.writer = some t) ∨
  (th.exclusive ∧ p'.stateMutex.writer = none ∧ th'.exclusive = false)

/-- A step that leaves the lifecycle alone, but for `Init`'s move from `new` to `ready`. -/
structure Calm (p p' : Pipeline) (ths : List Thread) (th th' : Thread) (new : List Thread) :
    Prop where
  state : p'.state = p.state ∨ (p.state = .new ∧ p'.state = .ready)
  reader : p'.connReadHandler = p.connReadHandler
  inbound : p'.inboundHandler = p.inboundHandler
  outbound : p'.outboundHandler = p.outboundHandler
  closed : p'.dataClosed → p.dataClosed
  kind : th'.role.worker = th.role.worker
  stop : (∀ pc, th.call = some pc → stopReady p ths pc) →
    ∀ pc, th'.call = some pc → stopReady p' ths pc
  spawned : ∀ x ∈ new, x.role = .caller ∧ x.exclusive = false

/-- The body of `Start` in a ready pipeline. -/
structure Starts (p p' : Pipeline) (ths : List Thread) (th th' : Thread) (new : List Thread) :
    Prop where
  call : th.call = some .startBody
  ready : p.state = .ready
  state : p'.state = .running
  reader : p'.connReadHandler = some ths.length
  inbound : p'.inboundHandler = some (ths.length + 1)
  outbound : p'.outboundHandler = some (ths.length + 2)
  closed : p'.dataClosed = p.dataClosed
  thread : th' = ⟨th.role, none⟩
  spawned : new = startedWorkers

/-- The last step of a `Stop` that found the pipeline running. -/
structure Finishes (p' : Pipeline) (th th' : Thread) (new : List Thread) : Prop where
  call : th.call = some .stopFinish
  state : p'.state = .shutdown
  thread : th' = ⟨th.role, none⟩
  spawned : new = []

/-- The step changes none of the lifecycle fields of the pipeline. -/
structure Quiet (p p' : Pipeline) : Prop where
  state : p'.state = p.state
  writer : p'.stateMutex.writer = p.stateMutex.writer
  reader : p'.connReadHandler = p.connReadHandler
  inbound : p'.inboundHandler = p.inboundHandler
  outbound : p'.outboundHandler = p.outboundHandler
  closed : p'.dataClosed = p.dataClosed

@[simp] theorem CallPc.invoke_exclusive (cb : Callback) (err : Option SendError) (k : Resume) :
    (CallPc.invoke cb err k).exclusive = false := rfl

@[simp] theorem Locked.body_exclusive (op : Locked) : op.body.exclusive = true := by cases op <;> rfl

@[simp] theorem ReadLocked.body_exclusive (op : ReadLocked) : op.body.exclusive = false := by
  cases op <;> rfl

@[simp] theorem Pipeline.channelEntry_exclusive (p : Pipeline) (c : ChannelCall) :
    (p.channelEntry c).exclusive = false := by
  cases c <;> rfl

@[simp] theorem Pipeline.entry_exclusive (p : Pipeline) (c : ApiCall) :
    (p.entry c).exclusive = false := by
  cases c
  case channel c => exact p.channelEntry_exclusive c
  all_goals rfl

theorem Resume.next_exclusive (k : Resume) : ∀ pc, k.next = some pc → pc.exclusive = false := by
  cases k <;> simp [Resume.next, CallPc.exclusive]

theorem After.next_exclusive (a : After) : ∀ pc, a.next = some pc → pc.exclusive = false := by
  cases a <;> simp [After.next, CallPc.exclusive]

section Kinds

variable {p p' : Pipeline} {ths : List Thread} {t : Nat} {r : Role} {th' : Thread}
  {new : List Thread}

theorem Quiet.worker (hq : Quiet p p') (hk : th'.role.worker = r.worker)
    (hc : ∀ pc, th'.call = some pc → pc.exclusive = false)
    (hn : ∀ x ∈ new, x.role = .caller ∧ x.exclusive = false) :
    MutexStep p p' t ⟨r, none⟩ th' ∧ Calm p p' ths ⟨r, none⟩ th' new := by
  refine ⟨.inl ⟨hq.writer, ?_⟩, ⟨.inl hq.state, hq.reader, hq.inbound, hq.outbound, by simp [hq.closed],
    hk, fun _ pc h => stopReady_of_not_exclusive (hc pc h), hn⟩⟩
  cases h : th'.call <;> simp_all [Thread.exclusive]

theorem Quiet.call {c : CallPc} {c' : Option CallPc} (hq : Quiet p p') (hc : c.exclusive = false)
    (hc' : ∀ pc, c' = some pc → pc.exclusive = false) :
    MutexStep p p' t ⟨r, some c⟩ ⟨r, c'⟩ ∧ Calm p p' ths ⟨r, some c⟩ ⟨r, c'⟩ [] := by
  refine ⟨.inl ⟨hq.writer, ?_⟩, ⟨.inl hq.state, hq.reader, hq.inbound, hq.outbound, by simp [hq.closed],
    rfl, fun _ pc h => stopReady_of_not_exclusive (hc' pc h), by simp⟩⟩
  cases h : c' <;> simp_all [Thread.exclusive]

theorem Quiet.stop {c c' : CallPc} (hq : Quiet p p') (hc : c.exclusive) (hc' : c'.exclusive)
    (hs : stopReady p ths c → stopReady p' ths c') :
    MutexStep p p' t ⟨r, some c⟩ ⟨r, some c'⟩ ∧ Calm p p' ths ⟨r, some c⟩ ⟨r, some c'⟩ [] :=
  ⟨.inl ⟨hq.writer, by simp_all [Thread.exclusive]⟩, ⟨.inl hq.state, hq.reader, hq.inbound,
    hq.outbound, by simp [hq.closed], rfl, fun h pc hpc => by cases hpc; exact hs (h c rfl),
    by simp⟩⟩

theorem stopReady_body (op : Locked) : stopReady p ths op.body := by cases op <;> trivial

theorem stepReader_cases {pc : ReaderPc} {i : Input} (h : p.stepReader pc i = some (p', th', new)) :
    MutexStep p p' t ⟨.reader pc, none⟩ th' ∧ Calm p p' ths ⟨.reader pc, none⟩ th' new := by
  cases pc <;> cases i <;>
    simp only [Pipeline.stepReader, Pipeline.stepHandler, Pipeline.moveTo, reduceCtorEq, if_false,
      if_true] at h
  all_goals (repeat' split at h) <;> simp only [Option.some.injEq, Prod.mk.injEq, reduceCtorEq] at h
  all_goals obtain ⟨rfl, rfl, rfl⟩ := h
  all_goals try have := Chan.send_closed (by assumption)
  all_goals refine Quiet.worker ?_ rfl (by simp) (by simp [Thread.exclusive, CallPc.exclusive])
  all_goals first
    | exact ⟨rfl, rfl, rfl, rfl, rfl, rfl⟩
    | exact ⟨rfl, rfl, rfl, rfl, rfl, by simp_all [Pipeline.dataClosed, Pipeline.log]⟩

theorem stepInbound_cases {pc : InboundPc} {i : Input}
    (h : p.stepInbound pc i = some (p', th', new)) :
    MutexStep p p' t ⟨.inbound pc, none⟩ th' ∧ Calm p p' ths ⟨.inbound pc, none⟩ th' new := by
  cases pc <;> cases i <;>
    simp only [Pipeline.stepInbound, Pipeline.stepHandler, Pipeline.moveTo, reduceCtorEq] at h
  all_goals (repeat' split at h) <;> simp only [Option.some.injEq, Prod.mk.injEq, reduceCtorEq] at h
  all_goals obtain ⟨rfl, rfl, rfl⟩ := h
  all_goals try have := Chan.bind_recv_closed (by assumption)
  all_goals refine Quiet.worker ?_ rfl (by simp) (by simp)
  all_goals first
    | exact ⟨rfl, rfl, rfl, rfl, rfl, rfl⟩
    | exact ⟨rfl, rfl, rfl, rfl, rfl, by simp_all [Pipeline.dataClosed, Pipeline.log]⟩

theorem stepOutbound_cases {pc : OutboundPc} {i : Input}
    (h : p.stepOutbound pc i = some (p', th', new)) :
    MutexStep p p' t ⟨.outbound pc, none⟩ th' ∧ Calm p p' ths ⟨.outbound pc, none⟩ th' new := by
  cases pc <;> cases i <;>
    simp only [Pipeline.stepOutbound, Pipeline.stepHandler, Pipeline.moveTo, Pipeline.finishEntry,
      reduceCtorEq] at h
  all_goals (repeat' split at h) <;> simp only [Option.some.injEq, Prod.mk.injEq, reduceCtorEq] at h
  all_goals obtain ⟨rfl, rfl, rfl⟩ := h
  all_goals try have := Chan.bind_recv_closed (by assumption)
  all_goals refine Quiet.worker ?_ rfl (by simp) (by simp)
  all_goals first
    | exact ⟨rfl, rfl, rfl, rfl, rfl, rfl⟩
    | exact ⟨rfl, rfl, rfl, rfl, rfl, by simp_all [Pipeline.dataClosed, Pipeline.log]⟩

def CallKinds (p p' : Pipeline) (ths : List Thread) (t : Nat) (th th' : Thread)
    (new : List Thread) : Prop :=
  MutexStep p p' t th th' ∧
    (Calm p p' ths th th' new ∨ Starts p p' ths th th' new ∨ Finishes p' th th' new)

theorem unlock_call {c : CallPc} (hc : c.exclusive)
    (hs : p'.state = p.state ∨ (p.state = .new ∧ p'.state = .ready))
    (hw : p'.stateMutex.writer = none) (hr : p'.connReadHandler = p.connReadHandler)
    (hi : p'.inboundHandler = p.inboundHandler) (ho : p'.outboundHandler = p.outboundHandler)
    (hcl : p'.dataClosed → p.dataClosed) :
    CallKinds p p' ths t ⟨r, some c⟩ ⟨r, none⟩ [] :=
  ⟨.inr (.inr ⟨hc, hw, rfl⟩), .inl ⟨hs, hr, hi, ho, hcl, rfl, (fun _ _ h => by cases h), by simp⟩⟩

theorem stepCall_cases {c : CallPc} {c' : Option CallPc}
    (h : p.stepCall ths t c = some (p', c', new)) :
    CallKinds p p' ths t ⟨r, some c⟩ ⟨r, c'⟩ new := by
  cases c <;> (try cases ‹Callback›) <;> simp only [Pipeline.stepCall] at h
  all_goals (repeat' split at h) <;> simp only [Option.some.injEq, Prod.mk.injEq, reduceCtorEq] at h
  all_goals obtain ⟨rfl, rfl, rfl⟩ := h
  case lock.isTrue hw =>
    exact ⟨.inr (.inl ⟨hw, rfl⟩),
      .inl ⟨.inl rfl, rfl, rfl, rfl, id, rfl, (fun _ _ h => by cases h; trivial), by simp⟩⟩
  case initBody.isTrue hs =>
    exact unlock_call rfl (.inr ⟨hs, rfl⟩) rfl rfl rfl rfl
      (by simp [Pipeline.dataClosed, Pipeline.unlock, makeChan])
  case startBody.isTrue hs =>
    exact ⟨.inr (.inr ⟨rfl, rfl, rfl⟩), .inr (.inl ⟨rfl, hs, rfl, rfl, rfl, rfl, rfl, rfl, rfl⟩)⟩
  case stopFinish.h_1 =>
    exact ⟨.inr (.inr ⟨rfl, rfl, rfl⟩), .inr (.inr ⟨rfl, rfl, rfl, rfl⟩)⟩
  case awaitReaders.isTrue op _ =>
    exact .imp_right .inl (Quiet.stop ⟨rfl, rfl, rfl, rfl, rfl, rfl⟩ rfl (op.body_exclusive)
      fun _ => stopReady_body op)
  all_goals try have := Chan.send_closed (by assumption)
  all_goals first
    | exact unlock_call rfl (.inl rfl) rfl rfl rfl rfl id
    | refine .imp_right .inl (Quiet.call ⟨rfl, rfl, rfl, rfl, rfl, ?_⟩ rfl ?_)
    | refine .imp_right .inl (Quiet.stop ⟨rfl, rfl, rfl, rfl, rfl, rfl⟩ rfl rfl ?_)
  all_goals first
    | rfl
    | exact id
    | exact After.next_exclusive _
    | exact Resume.next_exclusive _
    | (intro pc h; cases h <;> first | rfl | simp)
    | simp
    | exact fun _ => trivial
    | exact fun _ => ‹_›
    | (intro h; simp_all [stopReady, Joined])
    | simp_all [Pipeline.dataClosed, Pipeline.log, Pipeline.runlock]

theorem stepThread_cases {th : Thread} {i : Input}
    (h : p.stepThread ths t th i = some (p', th', new)) : CallKinds p p' ths t th th' new := by
  obtain ⟨r, _ | c⟩ := th
  · cases r <;> simp only [Pipeline.stepThread] at h
    · exact .imp_right .inl (stepReader_cases h)
    · exact .imp_right .inl (stepInbound_cases h)
    · exact .imp_right .inl (stepOutbound_cases h)
    · cases h
  · simp only [Pipeline.stepThread] at h
    split at h
    · obtain ⟨⟨p'', c', new'⟩, hc, he⟩ := Option.map_eq_some'.mp h
      cases he
      exact stepCall_cases hc
    · cases h

theorem CallKinds.state {th : Thread} (hk : CallKinds p p' ths t th th' new) :
    p'.state = p.state ∨ (p.state = .new ∧ p'.state = .ready) ∨
      (p.state = .ready ∧ p'.state = .running) ∨ p'.state = .shutdown := by
  rcases hk.2 with hc | hc | hc
  · exact hc.state.imp_right .inl
  · exact .inr (.inr (.inl ⟨hc.ready, hc.state⟩))
  · exact .inr (.inr (.inr hc.state))

end Kinds

section Keep

variable {p p' : Pipeline} {ths : List Thread} {t : Nat} {th th' : Thread} {new : List Thread}

theorem mutex_update
    (hm : ∀ v x, ths[v]? = some x → x.exclusive → p.stateMutex.writer = some v)
    (ht : ths[t]? = some th) (hs : MutexStep p p' t th th') (hn : ∀ x ∈ new, x.exclusive = false)
    (v : Nat) (x : Thread) (hv : (ths.set t th' ++ new)[v]? = some x) (hx : x.exclusive) :
    p'.stateMutex.writer = some v := by
  rcases getElem?_update ht th' new v with ⟨rfl, h⟩ | ⟨hvt, h, -⟩ | ⟨-, h⟩
  · rw [h] at hv
    cases hv
    rcases hs with ⟨hw, he⟩ | ⟨-, hw⟩ | ⟨-, -, he⟩
    · rw [hw]; exact hm _ _ ht (he ▸ hx)
    · exact hw
    · simp [he] at hx
  · rw [h] at hv
    have hwv := hm v x hv hx
    rcases hs with ⟨hw, -⟩ | ⟨hw, -⟩ | ⟨he, -, -⟩
    · rw [hw]; exact hwv
    · simp [hwv] at hw
    · exact absurd (Option.some.inj (hwv.symm.trans (hm _ _ ht he))) hvt
  · rw [h] at hv
    simp [hn x (List.getElem?_mem hv)] at hx

theorem stopReady_calm (hc : Calm p p' ths th th' new) {pc : CallPc} (h : stopReady p ths pc) :
    stopReady p' ths pc := by
  have hr : p.state = .running → p'.state = .running := fun hr => by
    rcases hc.state with h | ⟨h, -⟩ <;> simp_all
  cases pc <;> simp only [stopReady, hc.reader, hc.inbound, hc.outbound] at h ⊢
  all_goals first | trivial | exact hr h | exact ⟨hr h.1, h.2⟩

theorem Inv.calm (hi : Inv ⟨p, ths⟩) (ht : ths[t]? = some th) (hx : th.exited = false)
    (hs : MutexStep p p' t th th') (hc : Calm p p' ths th th' new) :
    Inv ⟨p', ths.set t th' ++ new⟩ := by
  have hk := kindAt_update ht hc.kind fun x hx => (hc.spawned x hx).1
  have hth : th ∈ ths := List.getElem?_mem ht
  have hst : ∀ q, p'.state = q → q ≠ .ready → p.state = q := fun q hq hr => by
    rcases hc.state with h | ⟨-, h⟩
    · rw [← h, hq]
    · exact absurd (hq.symm.trans h) hr
  refine ⟨mutex_update hi.mutex ht hs fun x hx => (hc.spawned x hx).2, ?_, ?_, ?_, ?_, ?_, ?_⟩
  · intro hs' x hx'
    have hold : p.state = .new ∨ p.state = .ready := by
      rcases hc.state with h | ⟨h, -⟩
      · rwa [← h]
      · exact .inl h
    rcases mem_update hx' with rfl | h | h
    · rw [← Role.worker_eq_none, hc.kind, Role.worker_eq_none]
      exact hi.idle hold th hth
    · exact hi.idle hold x h
    · exact (hc.spawned x h).1
  · simpa only [hk] using hi.unique
  · intro hr
    simpa only [hc.reader, hc.inbound, hc.outbound, hk] using hi.handlers (hst .running hr (by decide))
  · intro x hx' pc hpc
    rcases mem_update hx' with rfl | h | h
    · exact stopReady_update ht hx (hc.stop (hi.stopping th hth) pc hpc)
    · exact stopReady_update ht hx (stopReady_calm hc (hi.stopping x h pc hpc))
    · have := (hc.spawned x h).2
      simp only [Thread.exclusive, hpc, Option.any_some] at this
      exact stopReady_of_not_exclusive this
  · intro hsd x hx' hw
    have hold := hi.shutdown (hst .shutdown hsd (by decide))
    rcases mem_update hx' with rfl | h | h
    · simp [hold th hth (hc.kind ▸ hw)] at hx
    · exact hold x h hw
    · simp [(hc.spawned x h).1, Role.worker] at hw
  · intro hcl
    have := hi.closed (hc.closed hcl)
    rcases hc.state with h | ⟨h, -⟩
    · exact h.trans this
    · simp [h] at this

theorem stopReady_of_not_running {p₀ : Pipeline} {ths₀ : List Thread} {pc : CallPc}
    (h : stopReady p₀ ths₀ pc) (hr : p₀.state ≠ .running) : stopReady p ths pc := by
  cases pc <;> simp_all [stopReady]

theorem kindAt_started {j j' : Nat} {k : Worker} (hj : kindAt startedWorkers j = some k)
    (hj' : kindAt startedWorkers j' = some k) : j = j' := by
  cases k <;> rcases j with _ | _ | _ | j <;> rcases j' with _ | _ | _ | j' <;>
    simp_all [kindAt, startedWorkers, Role.worker]

theorem Inv.start (hi : Inv ⟨p, ths⟩) (ht : ths[t]? = some th) (hs : MutexStep p p' t th th')
    (h : Starts p p' ths th th' new) : Inv ⟨p', ths.set t th' ++ new⟩ := by
  obtain ⟨-, hready, hrun, hr, hin, hout, hcl, rfl, rfl⟩ := h
  have hcallers : ∀ x ∈ ths, x.role = .caller := hi.idle (.inr hready)
  have htc : th.role = .caller := hcallers th (List.getElem?_mem ht)
  -- only the three new goroutines run workers
  have hk : ∀ v k, kindAt (ths.set t ⟨th.role, none⟩ ++ startedWorkers) v = some k →
      ths.length ≤ v ∧ kindAt startedWorkers (v - ths.length) = some k := by
    intro v k hv
    rcases getElem?_update ht ⟨th.role, none⟩ startedWorkers v with ⟨rfl, h⟩ | ⟨-, h, -⟩ | ⟨hl, h⟩
    · rw [kindAt, h] at hv
      simp [htc, Role.worker] at hv
    · rw [kindAt, h] at hv
      obtain ⟨x, hx, hxk⟩ := Option.bind_eq_some.mp hv
      simp [hcallers x (List.getElem?_mem hx), Role.worker] at hxk
    · exact ⟨hl, by rwa [kindAt, ← h]⟩
  have hnew : ∀ j, kindAt (ths.set t ⟨th.role, none⟩ ++ startedWorkers) (ths.length + j) =
      kindAt startedWorkers j :=
    fun j => by
      rw [kindAt, kindAt, List.getElem?_append_right (by simp), List.length_set, Nat.add_sub_cancel_left]
  refine ⟨mutex_update hi.mutex ht hs (by simp [startedWorkers, Thread.exclusive]), ?_, ?_, ?_, ?_, ?_, ?_⟩
  · simp [hrun]
  · intro v u k hv hu
    obtain ⟨hlv, hv⟩ := hk v k hv
    obtain ⟨hlu, hu⟩ := hk u k hu
    have := kindAt_started hv hu
    omega
  · intro _
    refine ⟨?_, ?_, ?_⟩
    · simpa [hr] using hnew 0
    · simpa [hin] using hnew 1
    · simpa [hout] using hnew 2
  · intro x hx pc hpc
    rcases mem_update hx with rfl | h | h
    · cases hpc
    · exact stopReady_of_not_running (hi.stopping x h pc hpc) (by simp [hready])
    · simp [startedWorkers] at h; rcases h with rfl | rfl | rfl <;> cases hpc
  · simp [hrun]
  · intro hc
    have := hi.closed (hcl ▸ hc)
    simp [hready] at this

theorem exited_of_joined (hi : Inv ⟨p, ths⟩) {w : Option Nat} {k : Worker}
    (hk : w.bind (kindAt ths) = some k) (hj : Joined ths w) {v : Nat} {x : Thread}
    (hv : ths[v]? = some x) (hx : x.role.worker = some k) : x.exited := by
  obtain ⟨u, rfl, hku⟩ := Option.bind_eq_some.mp hk
  have : v = u := hi.unique v u k (by simp [kindAt, hv, hx]) hku
  subst this
  simpa [Joined, joined, hv] using hj

theorem Inv.finish (hi : Inv ⟨p, ths⟩) (ht : ths[t]? = some th) (hs : MutexStep p p' t th th')
    (h : Finishes p' th th' new) : Inv ⟨p', ths.set t th' ++ new⟩ := by
  obtain ⟨hcall, hsd, rfl, rfl⟩ := h
  have hth := List.getElem?_mem ht
  obtain ⟨hrun, hji, hjo, hjr⟩ := hi.stopping th hth .stopFinish hcall
  obtain ⟨hkr, hki, hko⟩ := hi.handlers hrun
  have hall : ∀ (v : Nat) (x : Thread), ths[v]? = some x → x.role.worker.isSome → x.exited := by
    intro v x hv hw
    obtain ⟨k, hk⟩ := Option.isSome_iff_exists.mp hw
    cases k
    · exact exited_of_joined hi hkr hjr hv hk
    · exact exited_of_joined hi hki hji hv hk
    · exact exited_of_joined hi hko hjo hv hk
  have hthx : th.exited = false := by simp [Thread.exited, hcall]
  refine ⟨mutex_update hi.mutex ht hs (by simp), ?_, ?_, ?_, ?_, ?_, ?_⟩
  · simp [hsd]
  · have hk : kindAt (ths.set t ⟨th.role, none⟩ ++ []) = kindAt ths := kindAt_update ht rfl (by simp)
    simpa only [hk] using hi.unique
  · simp [hsd]
  · intro x hx pc hpc
    obtain ⟨v, hv⟩ := List.mem_iff_getElem?.mp hx
    rcases getElem?_update ht ⟨th.role, none⟩ [] v with ⟨-, h⟩ | ⟨hvt, h, -⟩ | ⟨-, h⟩
    · rw [h] at hv; cases hv; cases hpc
    · rw [h] at hv
      cases hpe : pc.exclusive
      · exact stopReady_of_not_exclusive hpe
      · have hwv := hi.mutex v x hv (by simp [Thread.exclusive, hpc, hpe])
        have hwt := hi.mutex t th ht (by simp [Thread.exclusive, hcall, CallPc.exclusive])
        exact absurd (Option.some.inj (hwv.symm.trans hwt)) hvt
    · rw [h] at hv; simp at hv
  · intro _ x hx hw
    obtain ⟨v, hv⟩ := List.mem_iff_getElem?.mp hx
    rcases getElem?_update ht ⟨th.role, none⟩ [] v with ⟨-, h⟩ | ⟨-, h, -⟩ | ⟨-, h⟩
    · rw [h] at hv; cases hv
      simp [hall t th ht hw] at hthx
    · exact hall v x (h ▸ hv) hw
    · rw [h] at hv; simp at hv
  · simp [hsd]

theorem Inv.spawn (hi : Inv ⟨p, ths⟩) (c : ApiCall) :
    Inv ⟨{ p with cbCount := p.cbCount + 1 }, ths ++ [⟨.caller, some (p.entry c)⟩]⟩ := by
  have hx : ∀ (v : Nat) (x : Thread), (ths ++ [⟨.caller, some (p.entry c)⟩])[v]? = some x →
      ths[v]? = some x ∨ x = ⟨.caller, some (p.entry c)⟩ := by
    intro v x hv
    by_cases hl : v < ths.length
    · rw [List.getElem?_append_left hl] at hv; exact .inl hv
    · rw [List.getElem?_append_right (by omega)] at hv
      exact .inr (List.mem_singleton.mp (List.getElem?_mem hv))
  have hk : kindAt (ths ++ [⟨.caller, some (p.entry c)⟩]) = kindAt ths := by
    funext v
    by_cases hl : v < ths.length
    · rw [kindAt, kindAt, List.getElem?_append_left hl]
    · rw [kindAt, kindAt, List.getElem?_append_right (by omega), List.getElem?_eq_none (l := ths) (by omega)]
      cases h : [(⟨.caller, some (p.entry c)⟩ : Thread)][v - ths.length]? with
      | none => rfl
      | some x => simp [List.mem_singleton.mp (List.getElem?_mem h), Role.worker]
  refine ⟨?_, ?_, ?_, ?_, ?_, ?_, ?_⟩
  · intro v x hv he
    rcases hx v x hv with h | rfl
    · exact hi.mutex v x h he
    · simp [Thread.exclusive] at he
  · intro hs x hm
    rcases List.mem_append.mp hm with h | h
    · exact hi.idle hs x h
    · simp at h; rw [h]
  · simpa only [hk] using hi.unique
  · simpa only [hk] using hi.handlers
  · intro x hm pc hpc
    rcases List.mem_append.mp hm with h | h
    · exact stopReady_mono keepsExited_append (hi.stopping x h pc hpc)
    · simp at h; subst h; cases hpc; exact stopReady_of_not_exclusive (by simp)
  · intro hs x hm hw
    rcases List.mem_append.mp hm with h | h
    · exact hi.shutdown hs x h hw
    · simp at h; subst h; simp [Role.worker] at hw
  · exact hi.closed

end Keep

theorem stepThread_of_exited {p : Pipeline} {ths : List Thread} {t : Nat} {th : Thread}
    {i : Input} (h : th.exited) : p.stepThread ths t th i = none := by
  obtain ⟨r, _ | c⟩ := th
  · rcases r with (_ | _ | _ | _ | _ | _ | _ | _ | _ | _) | (_ | _ | _ | _) | (_ | _ | _ | _) | _ <;>
      first | rfl | simp [Thread.exited, Role.exited] at h
  · simp [Thread.exited] at h

theorem System.step_some {σ σ' : System} {a : Action} (h : σ.step a = some σ') :
    (∃ c, σ' = ⟨{ σ.pipeline with cbCount := σ.pipeline.cbCount + 1 },
      σ.threads ++ [⟨.caller, some (σ.pipeline.entry c)⟩]⟩) ∨
    ∃ t th i p' th' new, σ.threads[t]? = some th ∧ th.exited = false ∧
      σ.pipeline.stepThread σ.threads t th i = some (p', th', new) ∧
      σ' = ⟨p', σ.threads.set t th' ++ new⟩ := by
  cases a with
  | spawn c =>
    simp only [System.step] at h
    split at h
    · cases h
    · cases h; exact .inl ⟨c, rfl⟩
  | step t i =>
    simp only [System.step] at h
    split at h
    · cases h
    split at h
    · rename_i th ht
      obtain ⟨⟨p', th', new⟩, hs, he⟩ := Option.map_eq_some'.mp h
      have hx : th.exited = false := by
        cases hx : th.exited
        · rfl
        · simp [stepThread_of_exited hx] at hs
      exact .inr ⟨t, th, i, p', th', new, ht, hx, hs, he.symm⟩
    · cases h

theorem Inv.step {σ σ' : System} {a : Action} (hi : Inv σ) (h : σ.step a = some σ') : Inv σ' := by
  rcases System.step_some h with ⟨c, rfl⟩ | ⟨t, th, i, p', th', new, ht, hx, hs, rfl⟩
  · exact hi.spawn c
  · obtain ⟨hm, hc | hc | hc⟩ := stepThread_cases hs
    · exact hi.calm ht hx hm hc
    · exact hi.start ht hm hc
    · exact hi.finish ht hm hc

theorem Inv.init : Inv System.init :=
  ⟨by simp [System.init], by simp [System.init], by simp [System.init, kindAt],
    by simp [System.init, newPipeline], by simp [System.init], by simp [System.init, newPipeline],
    by simp [System.init, newPipeline, Pipeline.dataClosed]⟩

theorem Inv.run {σ σ' : System} {as : List Action} (hi : Inv σ) (h : σ.run as = some σ') :
    Inv σ' := by
  induction as generalizing σ with
  | nil => cases h; exact hi
  | cons a as ih =>
    obtain ⟨σ₁, h₁, h₂⟩ := Option.bind_eq_some.mp h
    exact ih (hi.step h₁) h₂

/-- In a shut-down pipeline only callers step: the workers have returned. -/
theorem Inv.caller_of_shutdown {σ : System} {t : Nat} {th : Thread} (hi : Inv σ)
    (hs : σ.pipeline.state = .shutdown) (ht : σ.threads[t]? = some th) (hx : th.exited = false) :
    th.role = .caller := by
  cases hr : th.role.worker with
  | none => simpa using hr
  | some k => simp [hi.shutdown hs th (List.getElem?_mem ht) (by simp [hr])] at hx

/-- The lifecycle invariant holds in every reachable system. -/
theorem System.Reachable.inv {σ : System} (h : σ.Reachable) : Inv σ :=
  let ⟨_, h⟩ := h
  Inv.init.run h

end Matcha.Peer
