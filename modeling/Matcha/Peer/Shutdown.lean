import Matcha.Peer.Delivery

/-! # Stopping the pipeline

`Stop` holds `stateMutex` for writing while it joins the workers. -/
namespace Matcha.Peer

/-- `Stop`, in goroutine `s`, waits to join the inbound worker `u`, which is inside a handler
call of the channel and waits for the read lock of `stateMutex` that `Stop` holds. -/
structure StopDeadlock (s u : Nat) (σ : System) : Prop where
  writer : σ.pipeline.stateMutex.writer = some s
  inbound : σ.pipeline.inboundHandler = some u
  stop : σ.threads[s]? = some ⟨.caller, some .stopJoinInbound⟩
  blocked : ∃ r op, σ.threads[u]? = some ⟨.inbound r, some (.rlock op)⟩

section Deadlock

variable {s u : Nat} {σ σ' : System}

theorem StopDeadlock.step (hi : Inv σ) (hd : StopDeadlock s u σ) {a : Action}
    (h : σ.step a = some σ') : StopDeadlock s u σ' := by
  obtain ⟨p, ths⟩ := σ
  obtain ⟨hw, hin, hst, r, op, hu⟩ := hd
  dsimp only at hw hin hst hu
  have hsl := (List.getElem?_eq_some_iff.mp hst).1
  have hul := (List.getElem?_eq_some_iff.mp hu).1
  cases a with
  | spawn c =>
    simp only [System.step] at h
    split at h
    · cases h
    cases h
    refine ⟨hw, hin, ?_, r, op, ?_⟩
    · rw [List.getElem?_append_left hsl]; exact hst
    · rw [List.getElem?_append_left hul]; exact hu
  | step t i =>
    simp only [System.step] at h
    split at h
    · cases h
    split at h
    swap
    · cases h
    rename_i th ht
    obtain ⟨⟨p', th', new⟩, hs, he⟩ := Option.map_eq_some'.mp h
    cases he
    have hts : t ≠ s := by
      rintro rfl
      rw [hst] at ht
      cases ht
      simp [Pipeline.stepThread, Pipeline.stepCall, hin, joined, hu, Thread.exited] at hs
    have htu : t ≠ u := by
      rintro rfl
      rw [hu] at ht
      cases ht
      simp [Pipeline.stepThread, Pipeline.stepCall, hw] at hs
    have hnx : th.exclusive = false := by
      cases hx : th.exclusive
      · rfl
      · exact absurd (Option.some.inj ((hi.mutex t th ht hx).symm.trans hw)) hts
    have hnc : ∀ pc, th.call = some pc → pc.exclusive = false := fun pc hpc => by
      simpa [Thread.exclusive, hpc] using hnx
    obtain ⟨hm, hc⟩ := stepThread_cases hs
    refine ⟨?_, ?_, ?_, r, op, ?_⟩
    · rcases hm with ⟨hw', -⟩ | ⟨hw', -⟩ | ⟨hx, -⟩
      · exact hw'.trans hw
      · simp [hw] at hw'
      · simp [hnx] at hx
    · rcases hc with hc | hc | hc
      · exact hc.inbound.trans hin
      · simpa [CallPc.exclusive] using hnc _ hc.call
      · simpa [CallPc.exclusive] using hnc _ hc.call
    · rcases getElem?_update ht th' new s with ⟨h, -⟩ | ⟨-, h, -⟩ | ⟨hl, -⟩
      · exact absurd h.symm hts
      · rw [h]; exact hst
      · omega
    · rcases getElem?_update ht th' new u with ⟨h, -⟩ | ⟨-, h, -⟩ | ⟨hl, -⟩
      · exact absurd h.symm htu
      · rw [h]; exact hu
      · omega

theorem StopDeadlock.run (hi : Inv σ) (hd : StopDeadlock s u σ) {as : List Action}
    (h : σ.run as = some σ') : StopDeadlock s u σ' := by
  induction as generalizing σ with
  | nil => cases h; exact hd
  | cons a as ih =>
    obtain ⟨σ₁, h₁, h₂⟩ := Option.bind_eq_some.mp h
    exact ih (hi.step h₁) (hd.step hi h₁) h₂

end Deadlock

/-- After `boot`, the inbound worker passes message 0 to `ChannelRead`; a caller's `Stop`
(goroutine 5) takes the lock and closes both stop channels; the handler calls `channel.Send`, as
the handlers of the repository do. -/
def handlerSendDuringStop : List Action :=
  boot ++
  [.step 3 (.pick true),
   .spawn .stop, .step 5 .go, .step 5 .go, .step 5 .go, .step 5 .go,
   .step 3 (.call (.send (some 1)))]

theorem stop_deadlocks_on_handler_send :
    ∃ σ, System.run System.init handlerSendDuringStop = some σ ∧
      ∀ as σ', σ.run as = some σ' →
        σ'.threads[5]? = some ⟨.caller, some .stopJoinInbound⟩ ∧
        ∃ r op, σ'.threads[3]? = some ⟨.inbound r, some (.rlock op)⟩ := by
  refine ⟨_, rfl, fun as σ' h => ?_⟩
  have hd := StopDeadlock.run
    (Inv.init.run (show System.init.run handlerSendDuringStop = some _ from rfl))
    (s := 5) (u := 3) ⟨rfl, rfl, rfl, _, _, rfl⟩ h
  exact ⟨hd.stop, hd.blocked⟩

/-- After `boot`, a caller's `Stop` (goroutine 5) closes both stop channels; the inbound worker
takes the stop signal although message 0 is queued, the outbound worker takes its own, the
reader's read fails on the closed connection (its detached `Stop` is goroutine 6), and `Stop`
joins all three and returns. -/
def stopWithQueuedMessage : List Action :=
  [.spawn .stop, .step 5 .go, .step 5 .go, .step 5 .go, .step 5 .go,
   .step 3 (.pick false), .step 5 .go, .step 4 (.pick false), .step 5 .go, .step 5 .go,
   .step 2 (.pick false), .step 2 .fail, .step 2 .go, .step 5 .go, .step 5 .go]

theorem stop_drops_queued_message :
    (∀ σ : System, σ.Reachable → .stopped .running ∈ σ.pipeline.trace →
      ∀ as σ', σ.run as = some σ' → reads σ'.pipeline.trace = reads σ.pipeline.trace) ∧
    ∃ σ₁ σ₂, System.init.run boot = some σ₁ ∧ pushes σ₁.pipeline.trace = [0] ∧
      σ₁.run stopWithQueuedMessage = some σ₂ ∧ .stopped .running ∈ σ₂.pipeline.trace ∧
      reads σ₂.pipeline.trace = [] :=
  ⟨fun _ h hst _ _ hr => (shutdown_run h.inv (h.delivery.stopped (.inl hst)) hr).reads_eq,
    _, _, rfl, rfl, rfl, by decide, rfl⟩

def readAfterInactivate : List Action :=
  boot ++ [.step 2 (.pick false), .step 2 .fail, .step 3 (.pick true)]

def activateAfterStop : List Action :=
  [.spawn .init, .step 0 .go, .step 0 .go, .step 0 .go,
   .spawn .stop, .step 1 .go, .step 1 .go, .step 1 .go,
   .spawn .start, .step 2 .go, .step 2 .go, .step 2 .go, .step 3 .go]

theorem channel_read_after_inactivate :
    (∃ σ, System.init.run readAfterInactivate = some σ ∧
      List.Sublist [.begin .inactivate .reader, .begin (.read (some 0)) .inbound]
        σ.pipeline.trace) ∧
    ∃ σ, System.init.run activateAfterStop = some σ ∧
      List.Sublist [.stopped .ready, .begin .activate .reader] σ.pipeline.trace :=
  ⟨⟨_, rfl, by decide⟩, _, rfl, by decide⟩

end Matcha.Peer
