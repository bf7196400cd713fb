import Matcha.Peer.Lifecycle

/-! # What the handlers see

The order in which the pipeline's handler methods begin, and the messages `ChannelRead` gets,
over every interleaving. -/
namespace Matcha.Peer

/-- The messages `ChannelRead` began with, in order. -/
def reads (tr : List Event) : List (Option Nat) := tr.filterMap fun
  | .begin (.read m) .inbound => some m
  | _ => none

@[simp] theorem reads_append (tr es : List Event) : reads (tr ++ es) = reads tr ++ reads es :=
  List.filterMap_append ..

/-- The messages the reader pushed into `inboundDataC`, in order. -/
def pushes (tr : List Event) : List Nat := tr.filterMap fun
  | .pushIn m => some m
  | _ => none

@[simp] theorem pushes_append (tr es : List Event) : pushes (tr ++ es) = pushes tr ++ pushes es :=
  List.filterMap_append ..

def inBuf (p : Pipeline) : List Nat := (p.inboundDataC.map (·.buf)).getD []

def inactivations (tr : List Event) : Nat := tr.count (.begin .inactivate .reader)

def Event.isRead : Event → Bool
  | .begin (.read _) _ => true
  | _ => false

def Event.isBegin : Event → Bool
  | .begin _ _ => true
  | _ => false

/-- Every `ChannelRead` begins after `ChannelActivate` returned. -/
def ActivatedFirst (tr : List Event) : Prop :=
  ∀ pre e post, tr = pre ++ e :: post → e.isRead → .activated ∈ pre

/-- The reader has not yet returned from `ChannelActivate`; true of the other goroutines. -/
def Role.beforeActivated : Role → Bool
  | .reader .start | .reader .activating => true
  | .reader _ => false
  | _ => true

/-- The reader is in `ChannelInactivate`, or past it; true of the other goroutines. -/
def Role.inactivated : Role → Bool
  | .reader .inactivating | .reader .inactivateError | .reader .exited => true
  | .reader _ => false
  | _ => true

def ReaderQuiet (th : Thread) : Prop := th.role.beforeActivated

def ReaderDone (th : Thread) : Prop := th.role.inactivated

instance (th : Thread) : Decidable (ReaderQuiet th) :=
  inferInstanceAs (Decidable (th.role.beforeActivated = true))

instance (th : Thread) : Decidable (ReaderDone th) :=
  inferInstanceAs (Decidable (th.role.inactivated = true))

/-- The inbound queue holds what was pushed and not yet read; it is made by `Init`. -/
def Fifo (p : Pipeline) : Prop :=
  reads p.trace ++ (inBuf p).map some = (pushes p.trace).map some ∧
    (p.state = .new → p.inboundDataC = none)

structure Delivery (σ : System) : Prop where
  fifo : Fifo σ.pipeline
  quiet : .activated ∉ σ.pipeline.trace →
    pushes σ.pipeline.trace = [] ∧ ∀ th ∈ σ.threads, ReaderQuiet th
  first : ActivatedFirst σ.pipeline.trace
  once : inactivations σ.pipeline.trace ≤ 1
  done : .begin .inactivate .reader ∈ σ.pipeline.trace →
    (σ.pipeline.state ≠ .new ∧ σ.pipeline.state ≠ .ready) ∧ ∀ th ∈ σ.threads, ReaderDone th
  stopped : .stopped .running ∈ σ.pipeline.trace ∨ .stopped .shutdown ∈ σ.pipeline.trace →
    σ.pipeline.state = .shutdown

/-- What one step of a goroutine in state `th` does to what the handlers see. -/
structure DeliveryStep (p p' : Pipeline) (th th' : Thread) (new : List Thread) : Prop where
  fifo : Fifo p → Fifo p'
  trace : ∃ es, p'.trace = p.trace ++ es ∧
    ∀ e ∈ es, (e.isRead → inBuf p ≠ []) ∧ (e.isBegin → th.call = none)
  quiet : .activated ∉ p'.trace → ReaderQuiet th →
    pushes p'.trace = pushes p.trace ∧ ReaderQuiet th' ∧ ∀ x ∈ new, ReaderQuiet x
  inactivate :
    (inactivations p'.trace = inactivations p.trace ∧ (ReaderDone th → ReaderDone th') ∧
      ∀ x ∈ new, x.role = .caller ∨ p.state = .ready) ∨
    (inactivations p'.trace = inactivations p.trace + 1 ∧ th.role = .reader .reading ∧
      ReaderDone th' ∧ ∀ x ∈ new, x.role = .caller)
  stopped : ∀ f, .stopped f ∈ p'.trace → .stopped f ∈ p.trace ∨ (f = p'.state ∧ f ≠ .running) ∨
    (f = .running ∧ p'.state = .shutdown)

theorem ActivatedFirst.append {tr es : List Event} (h : ActivatedFirst tr)
    (hes : ∀ e ∈ es, e.isRead → .activated ∈ tr) : ActivatedFirst (tr ++ es) := by
  intro pre e post heq hr
  rcases List.append_eq_append_iff.mp heq with ⟨a', rfl, rfl⟩ | ⟨c', rfl, hc⟩
  · exact List.mem_append_left _ (hes e (by simp) hr)
  · cases c' with
    | nil =>
      rw [List.nil_append] at hc
      simpa using hes e (by simp [← hc]) hr
    | cons x c'' =>
      obtain ⟨rfl, -⟩ := List.cons.inj hc
      exact h pre e c'' (by simp) hr

section Local

variable {p : Pipeline}

theorem Fifo.push {c c' : Chan Nat} {m : Nat} (hc : p.inboundDataC = some c)
    (hs : c.send m = .ok c') (hf : Fifo p) :
    Fifo ({ p with inboundDataC := some c' }.log (.pushIn m)) := by
  obtain ⟨hf, hn⟩ := hf
  refine ⟨?_, fun h => absurd (hn h) (by simp [hc])⟩
  simp only [reads, pushes, inBuf, Pipeline.log, List.filterMap_append, hc, Option.map_some',
    Option.getD_some, Chan.send_ok hs] at hf ⊢
  simp [← hf]

theorem Fifo.read {c' : Chan Nat} {m : Nat}
    (hc : p.inboundDataC.bind Chan.recv = some (some m, c')) (hf : Fifo p) :
    Fifo ({ p with inboundDataC := some c' }.log (.begin (.read (some m)) .inbound)) := by
  obtain ⟨hf, hn⟩ := hf
  obtain ⟨c, hc', hr⟩ := Option.bind_eq_some.mp hc
  refine ⟨?_, fun h => absurd (hn h) (by simp [hc'])⟩
  simp only [reads, pushes, inBuf, Pipeline.log, List.filterMap_append, hc', Option.map_some',
    Option.getD_some, (Chan.recv_some hr).1] at hf ⊢
  simp [← hf]

variable {p p' : Pipeline} {th' : Thread} {new : List Thread}

theorem recv_queued {c' : Chan Nat} {m : Option Nat} (hcl : p.dataClosed = false)
    (hc : p.inboundDataC.bind Chan.recv = some (m, c')) : ∃ x, m = some x ∧ inBuf p ≠ [] := by
  obtain ⟨c, hc', hr⟩ := Option.bind_eq_some.mp hc
  cases m with
  | none => simp [Pipeline.dataClosed, hc', (Chan.recv_none hr).2.2] at hcl
  | some x => exact ⟨x, rfl, by simp [inBuf, hc', (Chan.recv_some hr).1]⟩

/-- An event none of the delivery facts looks at, but for the order of the handler methods and
`ChannelActivate`'s return. -/
def Event.neutral : Event → Bool
  | .begin (.read _) _ | .begin .inactivate _ | .pushIn _ | .stopped _ => false
  | _ => true

theorem Event.neutral_of_isRead {e : Event} (h : e.isRead) : e.neutral = false := by
  cases e <;> try cases ‹Handler›
  all_goals simp_all [Event.isRead, Event.neutral]

theorem neutral_trace {es : List Event} (hes : ∀ e ∈ es, e.neutral) :
    reads es = [] ∧ pushes es = [] ∧ inactivations es = 0 ∧ ∀ f, .stopped f ∉ es := by
  refine ⟨List.filterMap_eq_nil_iff.mpr fun e he => ?_, List.filterMap_eq_nil_iff.mpr fun e he => ?_,
    List.count_eq_zero.mpr fun he => by simpa [Event.neutral] using hes _ he,
    fun f hf => by simpa [Event.neutral] using hes _ hf⟩
  all_goals have := hes e he
  all_goals split <;> simp_all [Event.neutral]

theorem DeliveryStep.keep {th : Thread} (hf : Fifo p → Fifo p')
    (htr : ∃ es, p'.trace = p.trace ++ es ∧ ∀ e ∈ es, e.neutral ∧ (e.isBegin → th.call = none))
    (hq : .activated ∉ p'.trace → ReaderQuiet th → ReaderQuiet th')
    (hd : ReaderDone th → ReaderDone th') : DeliveryStep p p' th th' [] := by
  obtain ⟨es, h, hes⟩ := htr
  obtain ⟨-, hp, hi, hs⟩ := neutral_trace fun e he => (hes e he).1
  refine ⟨hf, ⟨es, h, fun e he => ⟨fun hr => ?_, (hes e he).2⟩⟩,
    fun ha hth => ⟨by simp [h, hp], hq ha hth, by simp⟩,
    .inl ⟨by simp only [h, inactivations, List.count_append] at hi ⊢; omega, hd, by simp⟩,
    fun f hf => .inl ?_⟩
  · exact absurd (hes e he).1 (by simp [Event.neutral_of_isRead hr])
  · rw [h, List.mem_append] at hf
    exact hf.resolve_right (hs f)

theorem DeliveryStep.same {th : Thread} (hb : p'.inboundDataC = p.inboundDataC)
    (hs : p'.state = p.state)
    (htr : ∃ es, p'.trace = p.trace ++ es ∧ ∀ e ∈ es, e.neutral ∧ (e.isBegin → th.call = none))
    (hq : .activated ∉ p'.trace → ReaderQuiet th → ReaderQuiet th')
    (hd : ReaderDone th → ReaderDone th') : DeliveryStep p p' th th' [] :=
  .keep (fun hf => by
    obtain ⟨es, h, hes⟩ := htr
    obtain ⟨hr, hp, -⟩ := neutral_trace fun e he => (hes e he).1
    simpa [Fifo, inBuf, h, hr, hp, hb, hs] using hf) htr hq hd

theorem stepReader_delivery {pc : ReaderPc} {i : Input}
    (h : p.stepReader pc i = some (p', th', new)) :
    DeliveryStep p p' ⟨.reader pc, none⟩ th' new := by
  cases pc <;> cases i <;>
    simp only [Pipeline.stepReader, Pipeline.stepHandler, Pipeline.moveTo, reduceCtorEq, if_false,
      if_true] at h
  all_goals (repeat' split at h) <;> simp only [Option.some.injEq, Prod.mk.injEq, reduceCtorEq] at h
  all_goals obtain ⟨rfl, rfl, rfl⟩ := h
  case reading.fail =>
    exact ⟨fun hf => ⟨by simpa [Pipeline.log, reads, pushes] using hf.1, hf.2⟩,
      ⟨_, rfl, by simp [Event.isRead, Event.isBegin]⟩, fun _ h => absurd h Bool.false_ne_true,
      .inr ⟨by simp [inactivations, Pipeline.log], rfl, rfl, by simp⟩,
      fun f h => .inl (by simpa [Pipeline.log] using h)⟩
  case pushing.go.h_1.h_3 =>
    exact ⟨Fifo.push (by assumption) (by assumption), ⟨_, rfl, by simp [Event.isRead, Event.isBegin]⟩,
      fun _ h => absurd h Bool.false_ne_true, .inl ⟨by simp [inactivations, Pipeline.log], id,
      by simp⟩, fun f h => .inl (by simpa [Pipeline.log] using h)⟩
  all_goals first
    | exact .same rfl rfl ⟨[], (List.append_nil _).symm, by simp⟩ (fun _ h => h) id
    | exact .same rfl rfl ⟨_, rfl, by simp [Event.neutral, Event.isBegin]⟩ (fun _ h => h) id
    | exact .same rfl rfl ⟨_, rfl, by simp [Event.neutral, Event.isBegin]⟩
        (fun ha => absurd (by simp [Pipeline.log]) ha) id
    | exact .same rfl rfl ⟨_, List.append_assoc _ _ _, by simp [Event.neutral, Event.isBegin]⟩
        (fun ha => absurd (by simp [Pipeline.log]) ha) id

theorem stepInbound_delivery {pc : InboundPc} {i : Input} (hcl : p.dataClosed = false)
    (h : p.stepInbound pc i = some (p', th', new)) :
    DeliveryStep p p' ⟨.inbound pc, none⟩ th' new := by
  cases pc <;> cases i <;>
    simp only [Pipeline.stepInbound, Pipeline.stepHandler, Pipeline.moveTo, reduceCtorEq] at h
  all_goals (repeat' split at h) <;> simp only [Option.some.injEq, Prod.mk.injEq, reduceCtorEq] at h
  all_goals obtain ⟨rfl, rfl, rfl⟩ := h
  case selecting.pick.h_1.h_1.intro.intro m c hc =>
    obtain ⟨x, rfl, hq⟩ := recv_queued hcl hc
    exact ⟨fun hf => Fifo.read hc hf, ⟨_, rfl, fun _ _ => ⟨fun _ => hq, fun _ => rfl⟩⟩,
      fun _ _ => ⟨by simp [Pipeline.log, pushes], rfl, by simp⟩,
      .inl ⟨by simp [Pipeline.log, inactivations], id, by simp⟩,
      fun f h => .inl (by simpa [Pipeline.log] using h)⟩
  all_goals first
    | exact .same rfl rfl ⟨[], (List.append_nil _).symm, by simp⟩ (fun _ h => h) id
    | exact .same rfl rfl ⟨_, rfl, by simp [Event.neutral, Event.isBegin]⟩ (fun _ h => h) id

theorem stepOutbound_delivery {pc : OutboundPc} {i : Input}
    (h : p.stepOutbound pc i = some (p', th', new)) :
    DeliveryStep p p' ⟨.outbound pc, none⟩ th' new := by
  cases pc <;> cases i <;>
    simp only [Pipeline.stepOutbound, Pipeline.stepHandler, Pipeline.moveTo, Pipeline.finishEntry,
      reduceCtorEq] at h
  all_goals (repeat' split at h) <;> simp only [Option.some.injEq, Prod.mk.injEq, reduceCtorEq] at h
  all_goals obtain ⟨rfl, rfl, rfl⟩ := h
  all_goals first
    | exact .same rfl rfl ⟨[], (List.append_nil _).symm, by simp⟩ (fun _ h => h) id
    | exact .same rfl rfl ⟨_, rfl, by simp [Event.neutral, Event.isBegin]⟩ (fun _ h => h) id

def Event.plain : Event → Bool
  | .pushOut _ | .write _ | .callback _ _ | .isRunning _ | .panic => true
  | _ => false

theorem plain_neutral {e : Event} (h : e.plain) : e.neutral ∧ e.isBegin = false := by
  cases e <;> simp_all [Event.plain, Event.neutral, Event.isBegin]

theorem DeliveryStep.plain {r : Role} {c : CallPc} {c' : Option CallPc}
    (htr : p'.trace = p.trace ∨ ∃ e, p'.trace = p.trace ++ [e] ∧ e.plain)
    (hf : Fifo p → Fifo p') : DeliveryStep p p' ⟨r, some c⟩ ⟨r, c'⟩ [] :=
  .keep hf (htr.elim (fun h => ⟨[], by simp [h], by simp⟩)
    fun ⟨e, h, he⟩ => ⟨[e], h, by simpa using plain_neutral he⟩) (fun _ h => h) id

theorem DeliveryStep.call {r : Role} {c : CallPc} {c' : Option CallPc}
    (htr : p'.trace = p.trace ∨ ∃ e, p'.trace = p.trace ++ [e] ∧ e.plain)
    (hq : p'.inboundDataC = p.inboundDataC) (hs : p'.state = p.state) :
    DeliveryStep p p' ⟨r, some c⟩ ⟨r, c'⟩ [] :=
  .same hq hs (htr.elim (fun h => ⟨[], by simp [h], by simp⟩)
    fun ⟨e, h, he⟩ => ⟨[e], h, by simpa using plain_neutral he⟩) (fun _ h => h) id

theorem inBuf_close {ci : Chan Nat} (h : p.inboundDataC.bind Chan.close = some ci) :
    ci.buf = inBuf p := by
  obtain ⟨c, hc, hcl⟩ := Option.bind_eq_some.mp h
  simp [inBuf, hc, Chan.close_some hcl]

theorem stepCall_delivery {ths : List Thread} {t : Nat} {r : Role} {c : CallPc}
    {c' : Option CallPc} (h : p.stepCall ths t c = some (p', c', new)) :
    DeliveryStep p p' ⟨r, some c⟩ ⟨r, c'⟩ new := by
  cases c <;> (try cases ‹Callback›) <;> simp only [Pipeline.stepCall] at h
  all_goals (repeat' split at h) <;> simp only [Option.some.injEq, Prod.mk.injEq, reduceCtorEq] at h
  all_goals obtain ⟨rfl, rfl, rfl⟩ := h
  all_goals try first
    | exact .call (.inl rfl) rfl rfl
    | exact .call (.inr ⟨_, rfl, rfl⟩) rfl rfl
  case initBody.isTrue hs =>
    refine .plain (.inl rfl) fun hf => ⟨?_, fun h => by cases h⟩
    have := hf.1
    rwa [show inBuf p = [] by simp [inBuf, hf.2 hs]] at this
  case startBody.isTrue hs =>
    exact ⟨fun hf => ⟨hf.1, fun h => by cases h⟩, ⟨[], (List.append_nil _).symm, by simp⟩,
      fun _ h => ⟨rfl, h, by decide⟩,
      .inl ⟨rfl, id, fun _ _ => .inr hs⟩, fun f h => .inl h⟩
  case stopCheck.isFalse hs =>
    refine ⟨fun hf => ⟨?_, hf.2⟩, ⟨_, rfl, by simp [Event.isRead, Event.isBegin]⟩, fun _ h => ⟨?_, h, by simp⟩,
      .inl ⟨?_, id, by simp⟩, fun f h => ?_⟩
    · simpa [reads, pushes, Pipeline.log, Pipeline.unlock] using hf.1
    · simp [pushes, Pipeline.log, Pipeline.unlock]
    · simp [inactivations, Pipeline.log, Pipeline.unlock]
    · simp only [Pipeline.log, List.mem_append, List.mem_singleton, Event.stopped.injEq] at h
      rcases h with h | rfl
      · exact .inl h
      · exact .inr (.inl ⟨rfl, hs⟩)
  case stopFinish.h_1 ci co hci hco =>
    refine ⟨fun hf => ⟨?_, fun h => by cases h⟩, ⟨_, rfl, by simp [Event.isRead, Event.isBegin]⟩,
      fun _ h => ⟨?_, h, by simp⟩, .inl ⟨?_, id, by simp⟩, fun f h => ?_⟩
    · have h1 := hf.1
      rw [← inBuf_close hci] at h1
      simpa [reads, pushes, inBuf, Pipeline.log, Pipeline.unlock] using h1
    · simp [pushes, Pipeline.log, Pipeline.unlock]
    · simp [inactivations, Pipeline.log, Pipeline.unlock]
    · simp only [Pipeline.log, List.mem_append, List.mem_singleton, Event.stopped.injEq] at h
      rcases h with h | rfl
      · exact .inl h
      · exact .inr (.inr ⟨rfl, rfl⟩)

end Local

section System

variable {p p' : Pipeline} {ths : List Thread} {t : Nat} {th th' : Thread} {new : List Thread}

theorem ReaderQuiet.of_caller (h : th.role = .caller) : ReaderQuiet th := by
  simp [ReaderQuiet, h, Role.beforeActivated]

theorem ReaderDone.of_caller (h : th.role = .caller) : ReaderDone th := by
  simp [ReaderDone, h, Role.inactivated]

theorem Fifo.pushes_ne_nil (hf : Fifo p) (h : inBuf p ≠ []) : pushes p.trace ≠ [] := fun hp => by
  have := hf.1
  simp only [hp, List.map_nil, List.append_eq_nil, List.map_eq_nil_iff] at this
  exact h this.2

/-- A worker steps only while the data queues are open, which is when it has not returned. -/
theorem stepThread_delivery {i : Input} (hcl : p.dataClosed → th.role.worker.isSome → th.exited)
    (hx : th.exited = false) (h : p.stepThread ths t th i = some (p', th', new)) :
    DeliveryStep p p' th th' new := by
  obtain ⟨r, _ | c⟩ := th
  · cases r <;> simp only [Pipeline.stepThread] at h
    · exact stepReader_delivery h
    · refine stepInbound_delivery ?_ h
      cases hc : p.dataClosed
      · rfl
      · simp [hcl hc rfl] at hx
    · exact stepOutbound_delivery h
    · cases h
  · simp only [Pipeline.stepThread] at h
    split at h
    · obtain ⟨⟨p'', c', new'⟩, hc, he⟩ := Option.map_eq_some'.mp h
      cases he
      exact stepCall_delivery hc
    · cases h

theorem readerDone_update {pc : ReaderPc}
    (hu : ∀ t u k, kindAt ths t = some k → kindAt ths u = some k → t = u)
    (ht : ths[t]? = some th) (hr : th.role = .reader pc) (hd : ReaderDone th')
    (hn : ∀ x ∈ new, x.role = .caller) : ∀ x ∈ ths.set t th' ++ new, ReaderDone x := by
  intro x hx
  obtain ⟨v, hv⟩ := List.mem_iff_getElem?.mp hx
  rcases getElem?_update ht th' new v with ⟨-, h⟩ | ⟨hvt, h, -⟩ | ⟨-, h⟩ <;> rw [h] at hv
  · cases hv; exact hd
  · obtain ⟨r', c'⟩ := x
    rcases r' with pc' | _ | _ | _
    · exact absurd (hu v t .reader (by simp [kindAt, hv, Role.worker])
        (by simp [kindAt, ht, hr, Role.worker])) hvt
    all_goals rfl
  · exact .of_caller (hn x (List.getElem?_mem hv))

theorem Delivery.update (hi : Inv ⟨p, ths⟩) (hd : Delivery ⟨p, ths⟩) (ht : ths[t]? = some th)
    (hs : DeliveryStep p p' th th' new) (hk : CallKinds p p' ths t th th' new) :
    Delivery ⟨p', ths.set t th' ++ new⟩ := by
  obtain ⟨es, htr, hes⟩ := hs.trace
  have hth : th ∈ ths := List.getElem?_mem ht
  have hlive : p.state ≠ .new ∧ p.state ≠ .ready → p'.state ≠ .new ∧ p'.state ≠ .ready := by
    rcases hk.state with h | ⟨h, -⟩ | ⟨h, -⟩ | h <;> simp_all
  refine ⟨hs.fifo hd.fifo, fun ha => ?_, ?_, ?_, fun hin => ?_, fun hst => ?_⟩
  · obtain ⟨hp, hq⟩ := hd.quiet fun h => ha (htr ▸ List.mem_append_left _ h)
    obtain ⟨hp', hq', hn⟩ := hs.quiet ha (hq th hth)
    refine ⟨hp'.trans hp, fun x hx => ?_⟩
    rcases mem_update hx with rfl | hx | hx
    exacts [hq', hq x hx, hn x hx]
  · show ActivatedFirst p'.trace
    rw [htr]
    refine hd.first.append fun e he hr => ?_
    by_contra ha
    exact hd.fifo.pushes_ne_nil ((hes e he).1 hr) (hd.quiet ha).1
  · rcases hs.inactivate with ⟨h, -, -⟩ | ⟨h, hr, -, -⟩
    · exact h ▸ hd.once
    · have h0 : inactivations p.trace = 0 := by
        by_contra h0
        have := (hd.done (List.count_pos_iff.mp (Nat.pos_of_ne_zero h0))).2 th hth
        simp [ReaderDone, hr, Role.inactivated] at this
      show inactivations p'.trace ≤ 1
      omega
  · rcases hs.inactivate with ⟨hc, hdn, hn⟩ | ⟨-, hr, hdn, hn⟩
    · have hin' : .begin .inactivate .reader ∈ p.trace := by
        have := List.count_pos_iff.mpr hin
        exact List.count_pos_iff.mp (show 0 < inactivations p.trace by rw [← hc]; exact this)
      obtain ⟨hs0, hall⟩ := hd.done hin'
      refine ⟨hlive hs0, fun x hx => ?_⟩
      rcases mem_update hx with rfl | hx | hx
      · exact hdn (hall th hth)
      · exact hall x hx
      · exact (hn x hx).elim ReaderDone.of_caller (absurd · hs0.2)
    · have hs0 : p.state ≠ .new ∧ p.state ≠ .ready := by
        constructor <;> intro h <;> simpa [hr] using hi.idle (by simp [h]) th hth
      exact ⟨hlive hs0, readerDone_update hi.unique ht hr hdn hn⟩
  · have key : ∀ f, (f = .running ∨ f = .shutdown) → .stopped f ∈ p'.trace →
        p'.state = .shutdown := by
      rintro f hf h
      rcases hs.stopped f h with h | ⟨rfl, hne⟩ | ⟨-, h⟩
      · have := hd.stopped (by rcases hf with rfl | rfl <;> simp [h])
        rcases hk.state with h' | ⟨h', -⟩ | ⟨h', -⟩ | h' <;> simp_all
      · exact hf.resolve_left hne
      · exact h
    rcases hst with h | h
    exacts [key _ (.inl rfl) h, key _ (.inr rfl) h]

theorem Delivery.spawn (hd : Delivery ⟨p, ths⟩) (c : ApiCall) :
    Delivery ⟨{ p with cbCount := p.cbCount + 1 }, ths ++ [⟨.caller, some (p.entry c)⟩]⟩ := by
  refine ⟨hd.fifo, fun ha => ?_, hd.first, hd.once, fun hin => ?_, hd.stopped⟩
  · obtain ⟨hp, hq⟩ := hd.quiet ha
    refine ⟨hp, fun x hx => ?_⟩
    rcases List.mem_append.mp hx with hx | hx
    · exact hq x hx
    · exact .of_caller (by rw [List.mem_singleton.mp hx])
  · obtain ⟨hs, hall⟩ := hd.done hin
    refine ⟨hs, fun x hx => ?_⟩
    rcases List.mem_append.mp hx with hx | hx
    · exact hall x hx
    · exact .of_caller (by rw [List.mem_singleton.mp hx])

theorem Delivery.step {σ σ' : System} {a : Action} (hi : Inv σ) (hd : Delivery σ)
    (h : σ.step a = some σ') : Delivery σ' := by
  rcases System.step_some h with ⟨c, rfl⟩ | ⟨t, th, i, p', th', new, ht, hx, hs, rfl⟩
  · exact hd.spawn c
  · have hcl : σ.pipeline.dataClosed → th.role.worker.isSome → th.exited := fun hc hw =>
      hi.shutdown (hi.closed hc) th (List.getElem?_mem ht) hw
    exact hd.update hi ht (stepThread_delivery hcl hx hs) (stepThread_cases hs)

theorem Delivery.init : Delivery System.init :=
  ⟨⟨rfl, fun _ => rfl⟩, fun _ => ⟨rfl, by simp [System.init]⟩,
    fun pre e post h => by simp [System.init, newPipeline] at h, by decide,
    fun h => by simp [System.init, newPipeline] at h, fun h => by simp [System.init, newPipeline] at h⟩

theorem Delivery.run {σ σ' : System} {as : List Action} (hi : Inv σ) (hd : Delivery σ)
    (h : σ.run as = some σ') : Delivery σ' := by
  induction as generalizing σ with
  | nil => cases h; exact hd
  | cons a as ih =>
    obtain ⟨σ₁, h₁, h₂⟩ := Option.bind_eq_some.mp h
    exact ih (hi.step h₁) (hd.step hi h₁) h₂

theorem System.Reachable.delivery {σ : System} (h : σ.Reachable) : Delivery σ :=
  let ⟨_, h⟩ := h
  Delivery.init.run Inv.init h

end System

section Shut

variable {σ σ' : System}

/-- A trace extension in which no handler method begins. -/
def NoBegin (tr tr' : List Event) : Prop := ∃ es, tr' = tr ++ es ∧ ∀ e ∈ es, e.isBegin = false

theorem NoBegin.refl (tr : List Event) : NoBegin tr tr := ⟨[], by simp, by simp⟩

theorem NoBegin.trans {tr₁ tr₂ tr₃ : List Event} (h₁ : NoBegin tr₁ tr₂) (h₂ : NoBegin tr₂ tr₃) :
    NoBegin tr₁ tr₃ := by
  obtain ⟨es₁, rfl, hes₁⟩ := h₁
  obtain ⟨es₂, rfl, hes₂⟩ := h₂
  refine ⟨es₁ ++ es₂, List.append_assoc _ _ _, fun e he => ?_⟩
  rcases List.mem_append.mp he with he | he
  exacts [hes₁ e he, hes₂ e he]

theorem NoBegin.reads_eq {tr tr' : List Event} (h : NoBegin tr tr') : reads tr' = reads tr := by
  obtain ⟨es, rfl, hes⟩ := h
  have hn : reads es = [] := List.filterMap_eq_nil_iff.mpr fun e he => by
    have := hes e he
    split <;> simp_all [Event.isBegin]
  rw [reads_append, hn, List.append_nil]

/-- A shut-down pipeline stays shut down, and no handler method begins: its workers have
returned, and a caller's step begins none. -/
theorem shutdown_step (hi : Inv σ) (hs : σ.pipeline.state = .shutdown) {a : Action}
    (h : σ.step a = some σ') :
    σ'.pipeline.state = .shutdown ∧ NoBegin σ.pipeline.trace σ'.pipeline.trace := by
  rcases System.step_some h with ⟨c, rfl⟩ | ⟨t, th, i, p', th', new, ht, hx, hst, rfl⟩
  · exact ⟨hs, .refl _⟩
  · have hth := List.getElem?_mem ht
    have hw := hi.caller_of_shutdown hs ht hx
    have hc : th.call ≠ none := fun hc => by
      obtain ⟨r, c⟩ := th
      simp only at hw hc
      subst hw hc
      simp [Pipeline.stepThread] at hst
    obtain ⟨es, htr, hes⟩ :=
      (stepThread_delivery (fun hc hr => hi.shutdown (hi.closed hc) th hth hr) hx hst).trace
    refine ⟨?_, es, htr, fun e he => ?_⟩
    · rcases (stepThread_cases hst).state with h' | ⟨h', -⟩ | ⟨h', -⟩ | h' <;> simp_all
    · cases hb : e.isBegin
      · rfl
      · exact absurd ((hes e he).2 hb) hc

theorem shutdown_run (hi : Inv σ) (hs : σ.pipeline.state = .shutdown) {as : List Action}
    (h : σ.run as = some σ') : NoBegin σ.pipeline.trace σ'.pipeline.trace := by
  induction as generalizing σ with
  | nil => cases h; exact .refl _
  | cons a as ih =>
    obtain ⟨σ₁, h₁, h₂⟩ := Option.bind_eq_some.mp h
    obtain ⟨hs₁, hb₁⟩ := shutdown_step hi hs h₁
    exact hb₁.trans (ih (hi.step h₁) hs₁ h₂)

end Shut

/-- `Init` and `Start` (goroutines 0 and 1 make the reader 2, the inbound worker 3 and the
outbound worker 4); the reader activates, reads, and pushes message 0. -/
def boot : List Action :=
  [.spawn .init, .step 0 .go, .step 0 .go, .step 0 .go,
   .spawn .start, .step 1 .go, .step 1 .go, .step 1 .go,
   .step 2 .go, .step 2 .go, .step 2 .go, .step 2 (.pick true), .step 2 .go]

theorem channel_reads_prefix_of_pushes {σ : System} (h : σ.Reachable) :
    reads σ.pipeline.trace <+: (pushes σ.pipeline.trace).map some :=
  ⟨_, h.delivery.fifo.1⟩

theorem channel_reads_prefix_of_pushes_after_read :
    ∃ σ, System.init.run (boot ++ [.step 3 (.pick true)]) = some σ ∧
      reads σ.pipeline.trace = [some 0] ∧
      reads σ.pipeline.trace <+: (pushes σ.pipeline.trace).map some :=
  ⟨_, rfl, rfl, channel_reads_prefix_of_pushes ⟨boot ++ [Action.step 3 (.pick true)], rfl⟩⟩

theorem handler_callbacks_ordered {σ : System} (h : σ.Reachable) :
    ActivatedFirst σ.pipeline.trace ∧ inactivations σ.pipeline.trace ≤ 1 ∧
      (.stopped .running ∈ σ.pipeline.trace ∨ .stopped .shutdown ∈ σ.pipeline.trace →
        ∀ as σ', σ.run as = some σ' → NoBegin σ.pipeline.trace σ'.pipeline.trace) :=
  have hd := h.delivery
  ⟨hd.first, hd.once, fun hst _ _ => shutdown_run h.inv (hd.stopped hst)⟩

theorem handler_callbacks_ordered_after_read :
    ∃ σ, System.init.run (boot ++ [.step 3 (.pick true)]) = some σ ∧
      (ActivatedFirst σ.pipeline.trace ∧ inactivations σ.pipeline.trace ≤ 1 ∧
      (.stopped .running ∈ σ.pipeline.trace ∨ .stopped .shutdown ∈ σ.pipeline.trace →
        ∀ as σ', σ.run as = some σ' → NoBegin σ.pipeline.trace σ'.pipeline.trace)) :=
  ⟨_, rfl, handler_callbacks_ordered ⟨boot ++ [Action.step 3 (.pick true)], rfl⟩⟩

end Matcha.Peer
