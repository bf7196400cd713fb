import Matcha.Peer.Shutdown

/-! # The outbound path

`SendFuture` pushes an entry with its callback into `outboundDataC`; the outbound worker writes it
and invokes the callback. A callback is held by one goroutine or one queued entry at a time. -/
namespace Matcha.Peer

def Resume.owned : Resume → List Callback
  | .ret => []
  | .push _ cb _ => cb.toList

/-- The callbacks a call holds: the one it will push, or invoke with an error other than the
closed-pipeline error. -/
def CallPc.owned : CallPc → List Callback
  | .rlock (.sendFuture _ cb _) | .rlock (.channelSendFuture _ cb) | .sendFuture _ cb _
  | .sfCheck _ cb _ | .sfPush _ cb _ | .chSfRead _ cb => cb.toList
  | .invoke cb err k => (if err = some .pipelineClosed then [] else [cb]) ++ k.owned
  | .closeResult _ k => k.owned
  | _ => []

def CallPc.unchecked : CallPc → List Callback
  | .rlock (.sendFuture _ cb _) | .rlock (.channelSendFuture _ cb) | .sendFuture _ cb _
  | .sfCheck _ cb _ | .chSfRead _ cb => cb.toList
  | .invoke cb err _ => if err = some .pipelineClosed then [cb] else []
  | _ => []

def Role.owned : Role → List Callback
  | .outbound (.encoding e) => e.callback.toList
  | .outbound (.encodeError cb) => cb.toList
  | _ => []

def Thread.owned (th : Thread) : List Callback :=
  th.role.owned ++ (th.call.map CallPc.owned).getD []

def Thread.unchecked (th : Thread) : List Callback := (th.call.map CallPc.unchecked).getD []

def Role.held : Role → List Nat
  | .outbound (.encoding e) => [e.id]
  | _ => []

def Thread.held (th : Thread) : List Nat := th.role.held

def outQueue (p : Pipeline) : List OutboundEntity := (p.outboundDataC.map (·.buf)).getD []

def outIds (p : Pipeline) : List Nat := (outQueue p).map (·.id)

def pushesOut (tr : List Event) : List Nat := tr.filterMap fun
  | .pushOut n => some n
  | _ => none

/-- The entries written to the connection, in order. -/
def writes (tr : List Event) : List Nat := tr.filterMap fun
  | .write n => some n
  | _ => none

/-- The callbacks invoked with the closed-pipeline error (`closed`), or with another. -/
def invoked (closed : Bool) (tr : List Event) : List Callback := tr.filterMap fun
  | .callback cb err => if decide (err = some .pipelineClosed) = closed then some cb else none
  | _ => none

/-- Where each callback can still be invoked from, with another error than the closed-pipeline
error, and the invocations with such an error so far. -/
def owners (p : Pipeline) (ths : List Thread) : List Callback :=
  ths.flatMap Thread.owned ++ (outQueue p).filterMap (·.callback) ++ invoked false p.trace

/-- The callbacks that `SendFuture`'s state check may still invoke with the closed-pipeline
error, and its invocations so far. -/
def tickets (p : Pipeline) (ths : List Thread) : List Callback :=
  ths.flatMap Thread.unchecked ++ invoked true p.trace

/-- No call has got callback `x` yet: the counters that number the callbacks have not reached
it. -/
def Pipeline.fresh (p : Pipeline) : Callback → Bool
  | .user n => p.cbCount ≤ n
  | .result r => p.results.length ≤ r

def created (p p' : Pipeline) (x : Callback) : Nat := if p.fresh x && !p'.fresh x then 1 else 0

def Event.outPlain : Event → Bool
  | .pushOut _ | .write _ | .callback _ _ => false
  | _ => true

/-- What one step of a goroutine in state `th` does to the callbacks and the outbound queue;
`H` stands for the entry another goroutine is encoding. -/
structure OutStep (p p' : Pipeline) (th th' : Thread) (new : List Thread) : Prop where
  fresh : ∀ x, p'.fresh x → p.fresh x
  own : ∀ x, (owners p' (th' :: new)).count x ≤ (owners p [th]).count x + created p p' x
  check : ∀ x, (tickets p' (th' :: new)).count x ≤ (tickets p [th]).count x + created p p' x
  range : pushesOut p.trace = List.range p.outCount →
    pushesOut p'.trace = List.range p'.outCount
  order : ∀ H, (th.role.worker = some .outbound → H = []) →
    List.Sublist (writes p.trace ++ H ++ th.held ++ outIds p) (pushesOut p.trace) →
    List.Sublist (writes p'.trace ++ H ++ th'.held ++ outIds p') (pushesOut p'.trace)
  grow : th.role.worker ≠ some .outbound → p.state ≠ .new → outQueue p <+: outQueue p'
  held : th.role.worker ≠ some .outbound → th'.held = []
  spawned : ∀ x ∈ new, x.held = []

theorem Thread.held_of_not_outbound {th : Thread} (h : th.role.worker ≠ some .outbound) :
    th.held = [] := by
  obtain ⟨r, c⟩ := th
  rcases r with _ | _ | (_ | _ | _ | _) | _ <;> first | rfl | simp [Role.worker] at h

@[simp] theorem count_owners (p : Pipeline) (ths : List Thread) (x : Callback) :
    (owners p ths).count x = (ths.flatMap Thread.owned).count x +
      ((outQueue p).filterMap (·.callback)).count x + (invoked false p.trace).count x := by
  simp only [owners, List.count_append]

@[simp] theorem count_tickets (p : Pipeline) (ths : List Thread) (x : Callback) :
    (tickets p ths).count x =
      (ths.flatMap Thread.unchecked).count x + (invoked true p.trace).count x := by
  simp only [tickets, List.count_append]

@[simp] theorem After.owned_next (a : After) : (a.next.map CallPc.owned).getD [] = [] := by
  cases a <;> rfl

@[simp] theorem After.unchecked_next (a : After) : (a.next.map CallPc.unchecked).getD [] = [] := by
  cases a <;> rfl

@[simp] theorem Resume.owned_next (k : Resume) : (k.next.map CallPc.owned).getD [] = k.owned := by
  cases k <;> rfl

@[simp] theorem Resume.unchecked_next (k : Resume) :
    (k.next.map CallPc.unchecked).getD [] = [] := by
  cases k <;> rfl

section Local

variable {p p' : Pipeline} {th th' : Thread} {new : List Thread}

theorem outPlain_trace (htr : ∃ es, p'.trace = p.trace ++ es ∧ ∀ e ∈ es, e.outPlain) :
    (∀ b, invoked b p'.trace = invoked b p.trace) ∧ pushesOut p'.trace = pushesOut p.trace ∧
      writes p'.trace = writes p.trace := by
  obtain ⟨es, h, hes⟩ := htr
  refine ⟨fun b => ?_, ?_, ?_⟩ <;>
    simp only [invoked, pushesOut, writes, h, List.filterMap_append, List.append_right_eq_self,
      List.filterMap_eq_nil_iff] <;>
    intro e he <;> have := hes e he <;> cases e <;> simp_all [Event.outPlain]

theorem OutStep.quiet (ho : List.Sublist th'.owned th.owned)
    (hu : List.Sublist th'.unchecked th.unchecked) (hh : List.Sublist th'.held th.held)
    (hn : ∀ x ∈ new, x.owned = [] ∧ x.unchecked = [] ∧ x.held = [])
    (hq : outQueue p' = outQueue p) (htr : ∃ es, p'.trace = p.trace ++ es ∧ ∀ e ∈ es, e.outPlain)
    (hcb : p'.cbCount = p.cbCount) (hr : p'.results.length = p.results.length)
    (hc : p'.outCount = p.outCount) : OutStep p p' th th' new := by
  obtain ⟨hi, hp, hw⟩ := outPlain_trace htr
  have hf : p'.fresh = p.fresh := by
    funext x; cases x <;> simp [Pipeline.fresh, hcb, hr]
  have hnil : new.flatMap Thread.owned = [] ∧ new.flatMap Thread.unchecked = [] := by
    simp only [List.flatMap_eq_nil_iff]
    exact ⟨fun x hx => (hn x hx).1, fun x hx => (hn x hx).2.1⟩
  refine ⟨fun x h => hf ▸ h, fun x => ?_, fun x => ?_, fun h => by rwa [hp, hc], fun H _ h => ?_,
    fun _ _ => hq ▸ List.prefix_refl _,
    fun h => List.eq_nil_of_sublist_nil (Thread.held_of_not_outbound h ▸ hh),
    fun x hx => (hn x hx).2.2⟩
  · have := ho.count_le x
    simp [hnil, hq, hi]
    omega
  · have := hu.count_le x
    simp [hnil, hi]
    omega
  · rw [hw, outIds, hq, hp]
    exact (((List.Sublist.refl _).append hh).append (.refl _)).trans h

theorem OutStep.call {r : Role} {c : CallPc} {c' : Option CallPc}
    (ho : List.Sublist ((c'.map CallPc.owned).getD []) c.owned)
    (hu : List.Sublist ((c'.map CallPc.unchecked).getD []) c.unchecked)
    (hq : outQueue p' = outQueue p)
    (htr : p'.trace = p.trace ∨ ∃ e, p'.trace = p.trace ++ [e] ∧ e.outPlain)
    (hcb : p'.cbCount = p.cbCount) (hr : p'.results.length = p.results.length)
    (hc : p'.outCount = p.outCount) : OutStep p p' ⟨r, some c⟩ ⟨r, c'⟩ [] :=
  .quiet (ho.append_left _) hu (.refl _) (by simp) hq
    (htr.elim (fun h => ⟨[], by simp [h], by simp⟩) fun ⟨e, h, he⟩ => ⟨[e], h, by simpa using he⟩)
    hcb hr hc

theorem OutStep.invoke {r : Role} {cb : Callback} {err : Option SendError} {k : Resume}
    {c' : Option CallPc} (ho : (c'.map CallPc.owned).getD [] = k.owned)
    (hu : (c'.map CallPc.unchecked).getD [] = []) (hq : outQueue p' = outQueue p)
    (htr : p'.trace = p.trace ++ [.callback cb err]) (hcb : p'.cbCount = p.cbCount)
    (hr : p'.results.length = p.results.length) (hc : p'.outCount = p.outCount) :
    OutStep p p' ⟨r, some (.invoke cb err k)⟩ ⟨r, c'⟩ [] := by
  have hf : p'.fresh = p.fresh := by
    funext x; cases x <;> simp [Pipeline.fresh, hcb, hr]
  refine ⟨fun x h => hf ▸ h, fun x => ?_, fun x => ?_, fun h => ?_, fun H _ h => ?_,
    fun _ _ => hq ▸ List.prefix_refl _, fun h => Thread.held_of_not_outbound h, by simp⟩
  · have hI : invoked false p'.trace =
        invoked false p.trace ++ (if err = some .pipelineClosed then [] else [cb]) := by
      by_cases he : err = some .pipelineClosed <;> simp [htr, invoked, he]
    simp only [count_owners, List.flatMap_cons, List.flatMap_nil, List.append_nil, Thread.owned,
      CallPc.owned, ho, hq, hI, List.count_append, Option.map_some', Option.getD_some]
    omega
  · have hI : invoked true p'.trace =
        invoked true p.trace ++ (if err = some .pipelineClosed then [cb] else []) := by
      by_cases he : err = some .pipelineClosed <;> simp [htr, invoked, he]
    simp only [count_tickets, List.flatMap_cons, List.flatMap_nil, List.append_nil,
      Thread.unchecked, CallPc.unchecked, hu, hI, List.count_append, Option.map_some',
      Option.getD_some, List.count_nil]
    omega
  · simpa [htr, pushesOut, hc] using h
  · simpa [htr, pushesOut, writes, outIds, hq, Thread.held] using h

theorem outQueue_close {co : Chan OutboundEntity} (h : p.outboundDataC.bind Chan.close = some co) :
    co.buf = outQueue p := by
  obtain ⟨c, hc, hcl⟩ := Option.bind_eq_some.mp h
  simp [outQueue, hc, Chan.close_some hcl]

theorem stepCall_out {ths : List Thread} {t : Nat} {r : Role} {c : CallPc}
    {c' : Option CallPc} (h : p.stepCall ths t c = some (p', c', new)) :
    OutStep p p' ⟨r, some c⟩ ⟨r, c'⟩ new := by
  cases c <;> (try cases ‹Callback›) <;> simp only [Pipeline.stepCall] at h
  all_goals (repeat' split at h) <;> simp only [Option.some.injEq, Prod.mk.injEq, reduceCtorEq] at h
  all_goals obtain ⟨rfl, rfl, rfl⟩ := h
  case awaitReaders.isTrue op _ =>
    cases op <;> exact .call (List.nil_sublist _) (List.nil_sublist _) rfl (.inl rfl) rfl rfl rfl
  case rlock.isTrue op _ =>
    cases op <;> exact .call (.refl _) (.refl _) rfl (.inl rfl) rfl rfl rfl
  case chSfRead.isFalse msg cb _ =>
    cases cb <;> exact .call (by simp [CallPc.owned, Resume.owned]) (by simp [CallPc.unchecked]) rfl (.inl rfl)
      rfl rfl rfl
  case startBody.isTrue =>
    exact .quiet (.refl _) (.refl _) (.refl _) (by simp [startedWorkers, Thread.owned, Thread.unchecked,
      Thread.held, Role.owned, Role.held]) rfl ⟨[], (List.append_nil _).symm, by simp⟩ rfl rfl rfl
  case stopFinish.h_1 ci co hci hco =>
    exact .call (.refl _) (.refl _) (by simp [outQueue, Pipeline.log, Pipeline.unlock,
      outQueue_close hco]) (.inr ⟨_, rfl, rfl⟩) rfl rfl rfl
  case invoke.user n err k =>
    exact .invoke (by simp) (by simp) rfl rfl rfl rfl rfl
  case invoke.result.h_1.h_3 r err k _ _ _ _ =>
    exact .invoke (by simp [CallPc.owned]) (by simp [CallPc.unchecked]) rfl rfl rfl
      (by simp [Pipeline.log]) rfl
  case initBody.isTrue hs =>
    refine ⟨fun _ h => h, fun x => ?_, fun x => ?_, id, fun H _ h => ?_, fun _ h => absurd hs h,
      fun h => Thread.held_of_not_outbound h, by simp⟩
    · simp [Thread.owned, CallPc.owned, outQueue, makeChan, Pipeline.unlock]
      omega
    · simp [Thread.unchecked, CallPc.unchecked, Pipeline.unlock]
    · simp only [outIds, outQueue, makeChan, Pipeline.unlock, Option.map_some', Option.getD_some,
        List.map_nil, List.append_nil]
      exact (List.sublist_append_left _ _).trans h
  case sendMake msg =>
    have hc : ∀ x, ([Callback.result p.results.length].count x) ≤
        created p { p with results := p.results ++ [makeChan 1] } x := fun x => by
      cases x <;> simp [created, Pipeline.fresh, List.count_singleton]
      split <;> simp_all
    refine ⟨fun x h => ?_, fun x => ?_, fun x => ?_, id, fun _ _ h => h,
      fun _ _ => List.prefix_refl _, fun h => Thread.held_of_not_outbound h, by simp⟩
    · cases x <;> simp_all [Pipeline.fresh]
      omega
    · have := hc x
      simp [Thread.owned, CallPc.owned, outQueue]
      omega
    · have := hc x
      simp [Thread.unchecked, CallPc.unchecked]
      omega
  case sfPush.h_2.h_3 =>
    rename_i m cb after _ c₀ hc₀ _ c'' hs
    have hq : outQueue (({ p with outboundDataC := some c'', outCount := p.outCount + 1 }.log
        (.pushOut p.outCount)).runlock) = outQueue p ++ [⟨p.outCount, m, cb⟩] := by
      simp [outQueue, hc₀, Chan.send_ok hs, Pipeline.log, Pipeline.runlock]
    refine ⟨fun _ h => h, fun x => ?_, fun x => ?_, fun h => ?_, fun H _ h => ?_,
      fun _ _ => hq ▸ List.prefix_append _ _, fun h => Thread.held_of_not_outbound h, by simp⟩
    · simp only [count_owners, hq]
      cases cb <;> simp [Thread.owned, CallPc.owned, Pipeline.log, Pipeline.runlock, invoked]
      omega
    · simp [Thread.unchecked, CallPc.unchecked, Pipeline.log, Pipeline.runlock, invoked]
    · simp [Pipeline.log, Pipeline.runlock, pushesOut, List.range_succ, ← h]
    · have := h.append (List.Sublist.refl [p.outCount])
      rw [outIds, hq]
      simpa only [outIds, Pipeline.log, Pipeline.runlock, pushesOut, writes, Thread.held,
        List.filterMap_append, List.filterMap_cons, List.filterMap_nil, List.map_append,
        List.map_cons, List.map_nil, List.append_assoc] using this
  all_goals
    refine .call ?_ ?_ rfl ?_ rfl ?_ rfl <;>
      first
        | exact .refl _
        | exact List.nil_sublist _
        | exact .inl rfl
        | exact .inr ⟨_, rfl, rfl⟩
        | simp [CallPc.owned, CallPc.unchecked]

theorem channelEntry_fresh (c : ChannelCall) (x : Callback) :
    (p.channelEntry c).owned.count x ≤ created p { p with cbCount := p.cbCount + 1 } x ∧
      (p.channelEntry c).unchecked.count x ≤ created p { p with cbCount := p.cbCount + 1 } x := by
  cases c
  case sendFuture msg b =>
    cases b <;> cases x <;> simp [Pipeline.channelEntry, Pipeline.newCallback, CallPc.owned,
      CallPc.unchecked, created, Pipeline.fresh, List.count_singleton]
    split <;> simp_all
  all_goals simp [Pipeline.channelEntry, CallPc.owned, CallPc.unchecked]

theorem OutStep.handlerCall {r : Role} (c : ChannelCall) :
    OutStep p { p with cbCount := p.cbCount + 1 } ⟨r, none⟩ ⟨r, some (p.channelEntry c)⟩ [] := by
  refine ⟨fun x h => ?_, fun x => ?_, fun x => ?_, id, fun _ _ h => h,
    fun _ _ => List.prefix_refl _, fun h => Thread.held_of_not_outbound h, by simp⟩
  · cases x <;> simp_all [Pipeline.fresh]
    omega
  · have := (channelEntry_fresh (p := p) c x).1
    simp [Thread.owned, outQueue]
    omega
  · have := (channelEntry_fresh (p := p) c x).2
    simp [Thread.unchecked]
    omega

theorem stepReader_out {pc : ReaderPc} {i : Input} (h : p.stepReader pc i = some (p', th', new)) :
    OutStep p p' ⟨.reader pc, none⟩ th' new := by
  cases pc <;> cases i <;>
    simp only [Pipeline.stepReader, Pipeline.stepHandler, Pipeline.moveTo, reduceCtorEq, if_false,
      if_true] at h
  all_goals (repeat' split at h) <;> simp only [Option.some.injEq, Prod.mk.injEq, reduceCtorEq] at h
  all_goals obtain ⟨rfl, rfl, rfl⟩ := h
  all_goals first
    | exact .handlerCall _
    | refine .quiet (List.nil_sublist _) (List.nil_sublist _) (.refl _) ?_ rfl ?_ rfl rfl rfl
      · first
          | exact fun _ h => absurd h (List.not_mem_nil _)
          | simp [Thread.owned, Thread.unchecked, Thread.held, Role.owned, Role.held, CallPc.owned,
              CallPc.unchecked]
      first
        | exact ⟨[], (List.append_nil _).symm, by simp⟩
        | exact ⟨_, rfl, by simp [Event.outPlain]⟩
        | exact ⟨_, List.append_assoc _ _ _, by simp [Event.outPlain]⟩

theorem stepInbound_out {pc : InboundPc} {i : Input}
    (h : p.stepInbound pc i = some (p', th', new)) :
    OutStep p p' ⟨.inbound pc, none⟩ th' new := by
  cases pc <;> cases i <;>
    simp only [Pipeline.stepInbound, Pipeline.stepHandler, Pipeline.moveTo, reduceCtorEq] at h
  all_goals (repeat' split at h) <;> simp only [Option.some.injEq, Prod.mk.injEq, reduceCtorEq] at h
  all_goals obtain ⟨rfl, rfl, rfl⟩ := h
  all_goals first
    | exact .handlerCall _
    | refine .quiet (List.nil_sublist _) (List.nil_sublist _) (.refl _) (by simp) rfl ?_ rfl rfl rfl
      first
        | exact ⟨[], (List.append_nil _).symm, by simp⟩
        | exact ⟨_, rfl, by simp [Event.outPlain]⟩

theorem OutStep.write {e : OutboundEntity} {err : Option SendError}
    (herr : err ≠ some .pipelineClosed) :
    OutStep p (p.log (.write e.id)) ⟨.outbound (.encoding e), none⟩
      ⟨.outbound .selecting, e.callback.map fun c => .invoke c err .ret⟩ [] := by
  obtain ⟨id, data, cb⟩ := e
  refine ⟨fun _ h => h, fun x => ?_, fun x => ?_, fun h => ?_, fun H hH h => ?_,
    fun h => absurd rfl h, fun h => absurd rfl h, by simp⟩
  · cases cb <;> simp [Thread.owned, Role.owned, CallPc.owned, Resume.owned, herr, outQueue,
      Pipeline.log, invoked]
  · cases cb <;> simp [Thread.unchecked, CallPc.unchecked, herr, Pipeline.log, invoked]
  · simpa [Pipeline.log, pushesOut] using h
  · simpa [hH rfl, Pipeline.log, pushesOut, writes, Thread.held, Role.held, outIds, outQueue]
      using h

theorem OutStep.take {e : OutboundEntity} {c : Chan OutboundEntity}
    (hc : p.outboundDataC.bind Chan.recv = some (some e, c)) :
    OutStep p { p with outboundDataC := some c } ⟨.outbound .selecting, none⟩
      ⟨.outbound (.encoding e), none⟩ [] := by
  obtain ⟨c₀, hc₀, hr⟩ := Option.bind_eq_some.mp hc
  have hq : outQueue p = e :: c.buf := by simp [outQueue, hc₀, (Chan.recv_some hr).1]
  obtain ⟨n, data, cb⟩ := e
  refine ⟨fun _ h => h, fun x => ?_, fun x => ?_, id, fun H hH h => ?_,
    fun h => absurd rfl h, fun h => absurd rfl h, by simp⟩
  · simp only [count_owners, hq]
    cases cb <;> simp [Thread.owned, Role.owned, outQueue, List.count_cons]
    omega
  · simp [Thread.unchecked]
  · rw [outIds, hq] at h
    simpa [hH rfl, Thread.held, Role.held, outIds, outQueue] using h

theorem stepOutbound_out {pc : OutboundPc} {i : Input}
    (h : p.stepOutbound pc i = some (p', th', new)) :
    OutStep p p' ⟨.outbound pc, none⟩ th' new := by
  cases pc <;> cases i <;>
    simp only [Pipeline.stepOutbound, Pipeline.stepHandler, Pipeline.moveTo, Pipeline.finishEntry,
      reduceCtorEq] at h
  all_goals (repeat' split at h) <;> simp only [Option.some.injEq, Prod.mk.injEq, reduceCtorEq] at h
  all_goals obtain ⟨rfl, rfl, rfl⟩ := h
  case selecting.pick.h_1.h_1 =>
    rename_i hc
    exact .take hc
  case selecting.pick.h_1.h_2 =>
    rename_i c hc
    obtain ⟨c₀, hc₀, hr⟩ := Option.bind_eq_some.mp hc
    exact .quiet (.refl _) (.refl _) (.refl _) (by simp)
      (by simp [outQueue, Pipeline.log, hc₀, (Chan.recv_none hr).1]) ⟨_, rfl, by simp [Event.outPlain]⟩
      rfl rfl rfl
  case encoding.pick.isTrue => exact .write (by simp)
  case encoding.pick.isFalse => exact .write (by simp)
  case encodeError.go cb =>
    cases cb <;> exact .quiet (by simp [Thread.owned, Role.owned, CallPc.owned, Resume.owned])
      (by simp [Thread.unchecked, CallPc.unchecked]) (List.nil_sublist _) (by simp) rfl
      ⟨[], (List.append_nil _).symm, by simp⟩ rfl rfl rfl
  all_goals first
    | exact .handlerCall _
    | refine .quiet (.refl _) (.refl _) (List.nil_sublist _) (by simp) rfl ?_ rfl rfl rfl
      first
        | exact ⟨[], (List.append_nil _).symm, by simp⟩
        | exact ⟨_, rfl, by simp [Event.outPlain]⟩

end Local

section Lists

variable {α : Type} {f : Thread → List α} {ths : List Thread} {t : Nat} {th th' : Thread}
  {new : List Thread}

theorem count_flatMap_update [BEq α] (ht : ths[t]? = some th) (th' : Thread) (new : List Thread)
    (x : α) :
    ((ths.set t th' ++ new).flatMap f).count x + (f th).count x =
      (ths.flatMap f).count x + (f th').count x + (new.flatMap f).count x := by
  induction ths generalizing t with
  | nil => simp at ht
  | cons y ys ih =>
    cases t with
    | zero =>
      simp only [List.getElem?_cons_zero, Option.some.injEq] at ht
      subst ht
      simp only [List.set_cons_zero, List.cons_append, List.flatMap_cons, List.count_append,
        List.flatMap_append]
      omega
    | succ t =>
      have := ih (t := t) (by simpa using ht)
      simp only [List.set_cons_succ, List.cons_append, List.flatMap_cons, List.count_append] at this ⊢
      omega

theorem flatMap_update_of_nil (ht : ths[t]? = some th) (h : f th = []) (h' : f th' = [])
    (hn : ∀ y ∈ new, f y = []) : (ths.set t th' ++ new).flatMap f = ths.flatMap f := by
  rw [List.flatMap_append, List.flatMap_eq_nil_iff.mpr hn, List.append_nil]
  induction ths generalizing t with
  | nil => simp at ht
  | cons y ys ih =>
    cases t with
    | zero => simp_all
    | succ t => simp_all

theorem flatMap_of_single (ht : ths[t]? = some th)
    (ho : ∀ v y, ths[v]? = some y → v ≠ t → f y = []) : ths.flatMap f = f th := by
  induction ths generalizing t with
  | nil => simp at ht
  | cons y ys ih =>
    cases t with
    | zero =>
      simp only [List.getElem?_cons_zero, Option.some.injEq] at ht
      subst ht
      have : ys.flatMap f = [] := List.flatMap_eq_nil_iff.mpr fun z hz => by
        obtain ⟨v, hv⟩ := List.mem_iff_getElem?.mp hz
        exact ho (v + 1) z (by simpa using hv) (by omega)
      simp [this]
    | succ t =>
      have hy : f y = [] := ho 0 y (by simp) (by omega)
      simp [hy, ih (t := t) (by simpa using ht) fun v z hz hv => ho (v + 1) z (by simpa using hz)
        (by omega)]

end Lists

/-- The callbacks are held once each, and the entries reach `conn.Write` in push order. -/
structure Outbound (σ : System) : Prop where
  own : ∀ x, (owners σ.pipeline σ.threads).count x ≤ 1
  check : ∀ x, (tickets σ.pipeline σ.threads).count x ≤ 1
  fresh : ∀ x, σ.pipeline.fresh x →
    (owners σ.pipeline σ.threads).count x = 0 ∧ (tickets σ.pipeline σ.threads).count x = 0
  range : pushesOut σ.pipeline.trace = List.range σ.pipeline.outCount
  order : List.Sublist (writes σ.pipeline.trace ++ σ.threads.flatMap Thread.held ++ outIds σ.pipeline)
    (pushesOut σ.pipeline.trace)

section System

variable {p p' : Pipeline} {ths : List Thread} {t : Nat} {th th' : Thread} {new : List Thread}

theorem created_le (p p' : Pipeline) (x : Callback) : created p p' x ≤ 1 := by
  unfold created; split <;> omega

theorem fresh_of_created {x : Callback} (h : 0 < created p p' x) : p.fresh x := by
  unfold created at h; split at h <;> simp_all

theorem created_of_fresh {x : Callback} (h : p'.fresh x) : created p p' x = 0 := by
  simp [created, h]

theorem count_step {w w' l l' : Nat} {x : Callback} (hf : ∀ x, p'.fresh x → p.fresh x)
    (hl : l' ≤ l + created p p' x) (hw : w' + l = w + l') (hle : w ≤ 1)
    (h0 : p.fresh x → w = 0) : w' ≤ 1 ∧ (p'.fresh x → w' = 0) := by
  refine ⟨?_, fun h => ?_⟩
  · rcases Nat.eq_zero_or_pos (created p p' x) with hc | hc
    · omega
    · have := h0 (fresh_of_created hc); have := created_le p p' x; omega
  · have := h0 (hf x h); have := created_of_fresh (p := p) h; omega

theorem Outbound.update (hi : Inv ⟨p, ths⟩) (ho : Outbound ⟨p, ths⟩) (ht : ths[t]? = some th)
    (hs : OutStep p p' th th' new) : Outbound ⟨p', ths.set t th' ++ new⟩ := by
  have hown : ∀ x, (owners p' (ths.set t th' ++ new)).count x ≤ 1 ∧
      (p'.fresh x → (owners p' (ths.set t th' ++ new)).count x = 0) := fun x =>
    count_step hs.fresh (hs.own x)
      (by have := count_flatMap_update (f := Thread.owned) ht th' new x
          simp only [count_owners, List.flatMap_cons, List.flatMap_nil, List.append_nil,
            List.count_append] at this ⊢
          omega) (ho.own x) fun h => (ho.fresh x h).1
  have hchk : ∀ x, (tickets p' (ths.set t th' ++ new)).count x ≤ 1 ∧
      (p'.fresh x → (tickets p' (ths.set t th' ++ new)).count x = 0) := fun x =>
    count_step hs.fresh (hs.check x)
      (by have := count_flatMap_update (f := Thread.unchecked) ht th' new x
          simp only [count_tickets, List.flatMap_cons, List.flatMap_nil, List.append_nil,
            List.count_append] at this ⊢
          omega) (ho.check x) fun h => (ho.fresh x h).2
  refine ⟨fun x => (hown x).1, fun x => (hchk x).1, fun x h => ⟨(hown x).2 h, (hchk x).2 h⟩,
    hs.range ho.range, ?_⟩
  show List.Sublist (writes p'.trace ++ (ths.set t th' ++ new).flatMap Thread.held ++ outIds p')
    (pushesOut p'.trace)
  by_cases hw : th.role.worker = some .outbound
  · -- the outbound worker: no other goroutine holds an entry
    have hk : kindAt ths t = some .outbound := by simp [kindAt, ht, hw]
    have hother : ∀ v y, ths[v]? = some y → v ≠ t → y.held = [] := fun v y hv hvt => by
      by_contra hne
      obtain ⟨r, c⟩ := y
      rcases r with _ | _ | (_ | _ | _ | _) | _ <;> simp [Thread.held, Role.held] at hne
      exact hvt (hi.unique v t .outbound (by simp [kindAt, hv, Role.worker]) hk)
    have h₀ := ho.order
    rw [flatMap_of_single ht hother] at h₀
    have ht' : (ths.set t th' ++ new)[t]? = some th' := by
      rcases getElem?_update ht th' new t with ⟨-, h⟩ | ⟨h, -⟩ | ⟨hl, -⟩
      · exact h
      · exact absurd rfl h
      · have := (List.getElem?_eq_some_iff.mp ht).1; omega
    have hother' : ∀ v y, (ths.set t th' ++ new)[v]? = some y → v ≠ t → y.held = [] :=
      fun v y hv hvt => by
        rcases getElem?_update ht th' new v with ⟨h, -⟩ | ⟨-, h, -⟩ | ⟨-, h⟩
        · exact absurd h hvt
        · rw [h] at hv; exact hother v y hv hvt
        · rw [h] at hv; exact hs.spawned y (List.getElem?_mem hv)
    rw [flatMap_of_single ht' hother']
    simpa using hs.order [] (fun _ => rfl) (by simpa using h₀)
  · -- another goroutine: what the outbound worker holds is left alone
    rw [flatMap_update_of_nil ht (Thread.held_of_not_outbound hw) (hs.held hw) hs.spawned]
    have := hs.order (ths.flatMap Thread.held) (fun h => absurd h hw)
      (by simpa [Thread.held_of_not_outbound hw] using ho.order)
    simpa [hs.held hw] using this

theorem entry_fresh (p : Pipeline) (c : ApiCall) (x : Callback) :
    (p.entry c).owned.count x ≤ created p { p with cbCount := p.cbCount + 1 } x ∧
      (p.entry c).unchecked.count x ≤ created p { p with cbCount := p.cbCount + 1 } x := by
  cases c
  case channel c => exact channelEntry_fresh (p := p) c x
  case sendFuture msg b =>
    cases b <;> cases x <;> simp [Pipeline.entry, Pipeline.newCallback, CallPc.owned,
      CallPc.unchecked, created, Pipeline.fresh, List.count_singleton]
    split <;> simp_all
  all_goals simp [Pipeline.entry, CallPc.owned, CallPc.unchecked]

theorem Outbound.spawn (ho : Outbound ⟨p, ths⟩) (c : ApiCall) :
    Outbound ⟨{ p with cbCount := p.cbCount + 1 }, ths ++ [⟨.caller, some (p.entry c)⟩]⟩ := by
  set p' : Pipeline := { p with cbCount := p.cbCount + 1 } with hp'
  set ths' := ths ++ [⟨.caller, some (p.entry c)⟩] with hths'
  have hf : ∀ x, p'.fresh x → p.fresh x := fun x h => by
    cases x <;> simp_all [Pipeline.fresh]; omega
  have key : ∀ x, (owners p' ths').count x = (owners p ths).count x + (p.entry c).owned.count x ∧
      (tickets p' ths').count x = (tickets p ths).count x + (p.entry c).unchecked.count x :=
    fun x => by
      simp [hp', hths', Thread.owned, Thread.unchecked, Role.owned, outQueue]
      omega
  have hown : ∀ x, (owners p' ths').count x ≤ 1 ∧ (p'.fresh x → (owners p' ths').count x = 0) :=
    fun x => count_step (l := 0) hf (by simpa using (entry_fresh p c x).1)
      (by rw [(key x).1]; dsimp only; omega) (ho.own x) fun h => (ho.fresh x h).1
  have hchk : ∀ x, (tickets p' ths').count x ≤ 1 ∧ (p'.fresh x → (tickets p' ths').count x = 0) :=
    fun x => count_step (l := 0) hf (by simpa using (entry_fresh p c x).2)
      (by rw [(key x).2]; dsimp only; omega) (ho.check x) fun h => (ho.fresh x h).2
  exact ⟨fun x => (hown x).1, fun x => (hchk x).1, fun x h => ⟨(hown x).2 h, (hchk x).2 h⟩,
    ho.range, by simpa [hths', Thread.held, Role.held] using ho.order⟩

theorem stepThread_out {i : Input} (h : p.stepThread ths t th i = some (p', th', new)) :
    OutStep p p' th th' new := by
  obtain ⟨r, _ | c⟩ := th
  · cases r <;> simp only [Pipeline.stepThread] at h
    · exact stepReader_out h
    · exact stepInbound_out h
    · exact stepOutbound_out h
    · cases h
  · simp only [Pipeline.stepThread] at h
    split at h
    · obtain ⟨⟨p'', c', new'⟩, hc, he⟩ := Option.map_eq_some'.mp h
      cases he
      exact stepCall_out hc
    · cases h

theorem Outbound.step {σ σ' : System} {a : Action} (hi : Inv σ) (ho : Outbound σ)
    (h : σ.step a = some σ') : Outbound σ' := by
  rcases System.step_some h with ⟨c, rfl⟩ | ⟨t, th, i, p', th', new, ht, -, hs, rfl⟩
  · exact ho.spawn c
  · exact ho.update hi ht (stepThread_out hs)

theorem Outbound.init : Outbound System.init :=
  ⟨fun x => by simp [System.init, newPipeline, outQueue, invoked],
    fun x => by simp [System.init, newPipeline, invoked],
    fun x _ => by simp [System.init, newPipeline, outQueue, invoked], rfl, by simp [System.init,
      newPipeline, writes, outIds, outQueue, pushesOut]⟩

theorem Outbound.run {σ σ' : System} {as : List Action} (hi : Inv σ) (ho : Outbound σ)
    (h : σ.run as = some σ') : Outbound σ' := by
  induction as generalizing σ with
  | nil => cases h; exact ho
  | cons a as ih =>
    obtain ⟨σ₁, h₁, h₂⟩ := Option.bind_eq_some.mp h
    exact ih (hi.step h₁) (ho.step hi h₁) h₂

theorem System.Reachable.outbound {σ : System} (h : σ.Reachable) : Outbound σ :=
  let ⟨_, h⟩ := h
  Outbound.init.run Inv.init h

end System

/-- After `boot`, a caller's `SendFuture` of message 1 with a callback (goroutine 5) pushes its
entry, and the outbound worker takes it, writes it and invokes the callback. -/
def sendAndWrite : List Action :=
  boot ++ [.spawn (.sendFuture (some 1) true), .step 5 .go, .step 5 .go, .step 5 .go, .step 5 .go,
    .step 4 (.pick true), .step 4 (.pick true), .step 4 .go]

/-- Writing entry `e` logs the write and leaves the outbound worker about to invoke `e`'s
callback with the result of `conn.Write`; a caller's callback is invoked at its next step. -/
theorem step_write {σ σ₁ : System} {t : Nat} {e : OutboundEntity} {ok : Bool}
    (ht : σ.threads[t]? = some ⟨.outbound (.encoding e), none⟩)
    (h : σ.step (.step t (.pick ok)) = some σ₁) :
    σ₁.pipeline.trace = σ.pipeline.trace ++ [.write e.id] ∧
      σ₁.threads[t]? = some ⟨.outbound .selecting,
        e.callback.map fun c => .invoke c (if ok then none else some .write) .ret⟩ ∧
      ∀ n, e.callback = some (.user n) → ∃ σ₂, σ₁.step (.step t .go) = some σ₂ ∧
        σ₂.pipeline.trace =
          σ₁.pipeline.trace ++ [.callback (.user n) (if ok then none else some .write)] := by
  simp only [System.step, ht] at h
  split at h
  · cases h
  rename_i hp
  simp only [Pipeline.stepThread, Pipeline.stepOutbound, Pipeline.finishEntry, Option.map_some',
    Option.some.injEq] at h
  subst h
  have hlen := (List.getElem?_eq_some_iff.mp ht).1
  refine ⟨rfl, by simp [hlen], fun n hn => ?_⟩
  simp [System.step, Pipeline.log, hp, hlen, hn, Pipeline.stepThread, Pipeline.stepCall,
    Resume.next]

section Shut

variable {σ σ' : System}

/-- In a shut-down pipeline nothing takes from `outboundDataC`, and no callback that was
given out gains a check. -/
theorem shutdown_queue_step (hi : Inv σ) (hs : σ.pipeline.state = .shutdown) {a : Action}
    (h : σ.step a = some σ') : σ'.pipeline.state = .shutdown ∧
      outQueue σ.pipeline <+: outQueue σ'.pipeline ∧
      ∀ x, σ.pipeline.fresh x = false → σ'.pipeline.fresh x = false ∧
        (tickets σ'.pipeline σ'.threads).count x ≤ (tickets σ.pipeline σ.threads).count x := by
  rcases System.step_some h with ⟨c, rfl⟩ | ⟨t, th, i, p', th', new, ht, hx, hst, rfl⟩
  · refine ⟨hs, List.prefix_refl _, fun x hx => ⟨?_, ?_⟩⟩
    · cases x <;> simp_all [Pipeline.fresh]; omega
    · have := (entry_fresh σ.pipeline c x).2
      simp [created, hx] at this
      simp [Thread.unchecked, this]
  · have hw := hi.caller_of_shutdown hs ht hx
    have ho := stepThread_out hst
    refine ⟨?_, ho.grow (by simp [hw, Role.worker]) (by simp [hs]), fun x hx => ⟨?_, ?_⟩⟩
    · rcases (stepThread_cases hst).state with h' | ⟨h', -⟩ | ⟨h', -⟩ | h' <;> simp_all
    · cases hf : p'.fresh x
      · rfl
      · simp [ho.fresh x hf] at hx
    · have := ho.check x
      have := count_flatMap_update (f := Thread.unchecked) ht th' new x
      simp only [created, hx, Bool.false_and, Bool.false_eq_true, if_false, count_tickets,
        List.flatMap_cons, List.flatMap_nil, List.append_nil, List.count_append] at *
      omega

theorem shutdown_queue_run (hi : Inv σ) (hs : σ.pipeline.state = .shutdown) {as : List Action}
    (h : σ.run as = some σ') : outQueue σ.pipeline <+: outQueue σ'.pipeline ∧
      ∀ x, σ.pipeline.fresh x = false →
        (tickets σ'.pipeline σ'.threads).count x ≤ (tickets σ.pipeline σ.threads).count x := by
  induction as generalizing σ with
  | nil => cases h; exact ⟨List.prefix_refl _, fun _ _ => le_rfl⟩
  | cons a as ih =>
    obtain ⟨σ₁, h₁, h₂⟩ := Option.bind_eq_some.mp h
    obtain ⟨hs₁, hq₁, hc₁⟩ := shutdown_queue_step hi hs h₁
    obtain ⟨hq₂, hc₂⟩ := ih (hi.step h₁) hs₁ h₂
    exact ⟨hq₁.trans hq₂, fun x hx => (hc₂ x (hc₁ x hx).1).trans (hc₁ x hx).2⟩

end Shut

theorem mem_invoked {tr : List Event} {x : Callback} {err : Option SendError}
    (he : .callback x err ∈ tr) : x ∈ invoked (decide (err = some .pipelineClosed)) tr :=
  List.mem_filterMap.mpr ⟨_, he, by simp⟩

/-- After `boot`, a caller's `SendFuture` of message 1 with a callback (goroutine 5) pushes its
entry; a caller's `Stop` (goroutine 6) closes both stop channels, the outbound worker takes its
stop signal although the entry is queued, and `Stop` returns as in `stopWithQueuedMessage` (the
reader's detached `Stop` is goroutine 7). -/
def callbackLostAtStop : List Action :=
  boot ++ [.spawn (.sendFuture (some 1) true), .step 5 .go, .step 5 .go, .step 5 .go, .step 5 .go,
   .spawn .stop, .step 6 .go, .step 6 .go, .step 6 .go, .step 6 .go,
   .step 3 (.pick false), .step 6 .go, .step 4 (.pick false), .step 6 .go, .step 6 .go,
   .step 2 (.pick false), .step 2 .fail, .step 2 .go, .step 6 .go, .step 6 .go]

/-- The callback of the pushed entry is never invoked, whatever the goroutines do next: the entry
stays in the closed queue, which holds the callback's only owner, and no check remains. -/
theorem sendFuture_callback_never_invoked :
    ∃ σ n, System.init.run callbackLostAtStop = some σ ∧ .pushOut 0 ∈ σ.pipeline.trace ∧
      .stopped .running ∈ σ.pipeline.trace ∧
      ∀ as σ', σ.run as = some σ' → ∀ err, .callback (.user n) err ∉ σ'.pipeline.trace := by
  refine ⟨_, 2, rfl, by decide, by decide, fun as σ' h err he => ?_⟩
  have hσ := (show System.init.run callbackLostAtStop = some _ from rfl)
  have hi := Inv.init.run hσ
  have ho := Outbound.run hi (Outbound.init.run Inv.init hσ) h
  obtain ⟨hq, hc⟩ := shutdown_queue_run hi rfl h
  have hq₁ : 1 ≤ ((outQueue σ'.pipeline).filterMap (·.callback)).count (.user 2) :=
    le_trans (by decide) ((hq.sublist.filterMap _).count_le _)
  have hown := ho.own (.user 2)
  have hchk := (hc (.user 2) (by decide)).trans (by decide : _ ≤ 0)
  have hin := List.count_pos_iff.mpr (mem_invoked he)
  simp only [count_owners, count_tickets] at hown hchk
  cases hd : decide (err = some .pipelineClosed) <;> rw [hd] at hin <;> omega

/-- Over every run the entries reach `conn.Write` in push order, each at most once, and a
callback is invoked at most once with the closed-pipeline error and at most once with another;
writing an entry invokes its callback with the result of the write. But the callback of an
entry still queued at `Stop` is never invoked. -/
theorem writes_ordered_callbacks_at_most_once :
    (∀ σ : System, σ.Reachable →
      List.Sublist (writes σ.pipeline.trace) (pushesOut σ.pipeline.trace) ∧
      pushesOut σ.pipeline.trace = List.range σ.pipeline.outCount ∧
      (∀ x, (invoked false σ.pipeline.trace).count x ≤ 1 ∧
        (invoked true σ.pipeline.trace).count x ≤ 1) ∧
      ∀ t e ok σ₁, σ.threads[t]? = some ⟨.outbound (.encoding e), none⟩ →
        σ.step (.step t (.pick ok)) = some σ₁ →
        σ₁.pipeline.trace = σ.pipeline.trace ++ [.write e.id] ∧
        σ₁.threads[t]? = some ⟨.outbound .selecting,
          e.callback.map fun c => .invoke c (if ok then none else some .write) .ret⟩ ∧
        ∀ n, e.callback = some (.user n) → ∃ σ₂, σ₁.step (.step t .go) = some σ₂ ∧
          σ₂.pipeline.trace =
            σ₁.pipeline.trace ++ [.callback (.user n) (if ok then none else some .write)]) ∧
    ∃ σ n, System.init.run callbackLostAtStop = some σ ∧ .pushOut 0 ∈ σ.pipeline.trace ∧
      .stopped .running ∈ σ.pipeline.trace ∧
      ∀ as σ', σ.run as = some σ' → ∀ err, .callback (.user n) err ∉ σ'.pipeline.trace := by
  refine ⟨fun σ h => ?_, sendFuture_callback_never_invoked⟩
  have ho := h.outbound
  refine ⟨(List.sublist_append_left _ _).trans ((List.sublist_append_left _ _).trans ho.order),
    ho.range, fun x => ⟨?_, ?_⟩, fun t e ok σ₁ => step_write⟩
  · have := ho.own x; simp only [count_owners] at this; omega
  · have := ho.check x; simp only [count_tickets] at this; omega

theorem writes_ordered_callbacks_at_most_once_after_write :
    ∃ σ, System.init.run sendAndWrite = some σ ∧ writes σ.pipeline.trace = [0] ∧
      List.Sublist (writes σ.pipeline.trace) (pushesOut σ.pipeline.trace) :=
  ⟨_, rfl, rfl, (writes_ordered_callbacks_at_most_once.1 _ ⟨sendAndWrite, rfl⟩).1⟩

/-- After `boot` and `stopWithQueuedMessage`, a caller's `SendFuture` of message 1 with a
callback (goroutine 7) takes the read lock, finds the pipeline shut down, invokes the callback
with the closed-pipeline error, and goes on to push the entry into the closed `outboundDataC`. -/
def sendFutureAfterStop : List Action :=
  boot ++ stopWithQueuedMessage ++
  [.spawn (.sendFuture (some 1) true), .step 7 .go, .step 7 .go, .step 7 .go, .step 7 .go,
   .step 7 .go]

theorem sendFuture_after_stop_panics :
    ∃ σ n, System.init.run sendFutureAfterStop = some σ ∧
      .callback (.user n) (some .pipelineClosed) ∈ σ.pipeline.trace ∧
      σ.threads[7]? = some ⟨.caller, some (.sfPush 1 (some (.user n)) .done)⟩ ∧
      σ.pipeline.outboundDataC.any (·.closed) ∧ σ.pipeline.panicked :=
  ⟨_, _, rfl, by decide, rfl, rfl, rfl⟩

end Matcha.Peer
