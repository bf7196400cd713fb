import Matcha.Bind.Acceptor

/-! # The pipeline server

`pipelineServer` of package `tcp` with its callers, its acceptors' workers and the goroutines
`handleAccept` spawns. `Stop` takes one step for each key `CloseAll`'s range visits, over the keys
present when the range begins. -/
namespace Matcha.Tcp

open Matcha.Bind

structure PipelineServer where
  /-- `Config.AcceptorSize`. -/
  acceptorSize : UInt8
  /-- `Initializer != nil`. -/
  initializer : Bool
  running : Bool
  waitGroup : Nat
  /-- The caller that holds `stateMutex` for writing across the steps of its `Stop`. -/
  stateMutex : Option Nat
  /-- The acceptor of the last `Start`, by its number; `none` for nil. -/
  acceptor : Option Nat
  /-- The channel group of the last `Start`, by its number; `none` before the first. -/
  channelGroup : Option Nat
  /-- Every acceptor a `Start` made. -/
  acceptors : List ParallelAcceptor
  /-- For every channel group a `Start` made, the keys of its `channelMap`, by pipeline. -/
  groups : List (List Nat)
  /-- For every pipeline a handler started: it still runs. -/
  pipelines : List Bool

theorem getElem?_set_eq_some {α : Type} {l : List α} {i j : Nat} {x y : α}
    (h : (l.set i x)[j]? = some y) : (i = j ∧ y = x) ∨ (i ≠ j ∧ l[j]? = some y) := by
  rw [List.getElem?_set] at h
  split at h
  · split at h <;> simp_all
  · exact .inr ⟨‹_›, h⟩

theorem getElem?_concat_eq_some {α : Type} {l : List α} {j : Nat} {x y : α}
    (h : (l ++ [x])[j]? = some y) : (j = l.length ∧ y = x) ∨ l[j]? = some y := by
  rcases Nat.lt_or_ge j l.length with hj | hj
  · exact .inr (by rwa [List.getElem?_append_left hj] at h)
  · rw [List.getElem?_append_right hj] at h
    obtain ⟨hl, hy⟩ := List.getElem?_eq_some_iff.mp h
    simp only [List.length_singleton] at hl
    exact .inl ⟨by omega, by simp_all⟩

theorem getElem?_set_of_ne {α : Type} {l : List α} {i j : Nat} {x y : α} (hi : l[i]? = some x)
    (hj : l[j]? = some y) (hne : x ≠ y) (z : α) : (l.set i z)[j]? = some y := by
  rcases eq_or_ne i j with rfl | hij
  · rw [hi] at hj; cases hj; exact absurd rfl hne
  · rwa [List.getElem?_set_ne hij]

theorem getElem?_append_of_some {α : Type} {l : List α} {j : Nat} {y : α} (ys : List α)
    (h : l[j]? = some y) : (l ++ ys)[j]? = some y := by
  rwa [List.getElem?_append_left (List.getElem?_eq_some_iff.mp h).1]

namespace PipelineServer

variable (s : PipelineServer)

def newPipelineServer (acceptorSize : UInt8) (initializer : Bool) : PipelineServer :=
  ⟨acceptorSize, initializer, false, 0, none, none, none, [], [], []⟩

/-- `Start`, under the lock; `ok`: `net.ListenTCP` succeeds. It makes a channel group and a
parallel acceptor with the listener and `handleAccept`, and starts the acceptor. -/
def start (ok : Bool) : PipelineServer :=
  if s.running || !ok then s
  else
    let pa := ParallelAcceptor.newParallelAcceptor ⟨s.acceptorSize, true, true⟩
    { s with
      waitGroup := s.waitGroup + 1
      channelGroup := some s.groups.length
      groups := s.groups ++ [[]]
      acceptor := some s.acceptors.length
      acceptors := s.acceptors ++ [pa.start.1]
      running := true }

def setAcceptor (a : Nat) (pa : ParallelAcceptor) : PipelineServer :=
  { s with acceptors := s.acceptors.set a pa }

/-- `misc.LifecycleCheckRun(s.acceptor)` and `misc.LifecycleStop(s.acceptor)`. -/
def stopAcceptor : PipelineServer :=
  match s.acceptor with
  | some a =>
    match s.acceptors[a]? with
    | some pa => if pa.isRunning then s.setAcceptor a pa.stop else s
    | none => s
  | none => s

/-- The keys of the channel group when `CloseAll`'s range begins. -/
def groupKeys : List Nat :=
  match s.channelGroup with
  | some g => s.groups[g]?.getD []
  | none => []

def updateGroup (f : List Nat → List Nat) : List (List Nat) :=
  match s.channelGroup with
  | some g =>
    match s.groups[g]? with
    | some l => s.groups.set g (f l)
    | none => s.groups
  | none => s.groups

/-- One key of `CloseAll`'s range: `misc.TryClose(channel)` stops pipeline `p`, and
`cg.channelMap.Delete(key)`. -/
def closeKey (p : Nat) : PipelineServer :=
  { s with pipelines := s.pipelines.set p false, groups := s.updateGroup (·.erase p) }

def finishStop : PipelineServer :=
  { s with acceptor := none, running := false, waitGroup := s.waitGroup - 1, stateMutex := none }

/-- `s.channelGroup.Add(pipeline.GetChannel())`: `sync.Map.Store` of the key. -/
def addChannel (p : Nat) : PipelineServer := { s with groups := s.updateGroup (·.insert p) }

def removeChannel (p : Nat) : PipelineServer := { s with groups := s.updateGroup (·.erase p) }

def InGroup (p : Nat) : Prop := ∃ (g : Nat) (l : List Nat), s.groups[g]? = some l ∧ p ∈ l

variable {s}

theorem inGroup_updateGroup {f : List Nat → List Nat} {p : Nat} (hf : ∀ l, p ∈ l → p ∈ f l)
    (h : s.InGroup p) : ∃ (g : Nat) (l : List Nat), (s.updateGroup f)[g]? = some l ∧ p ∈ l := by
  obtain ⟨g, l, hg, hp⟩ := h
  unfold updateGroup
  split
  · rename_i g' _
    split
    · rename_i l' hl'
      by_cases he : g' = g
      · subst he
        rw [hg] at hl'
        cases hl'
        exact ⟨g', f l, List.getElem?_set_self (List.getElem?_eq_some_iff.mp hg).1, hf l hp⟩
      · exact ⟨g, l, by rw [List.getElem?_set_ne he, hg], hp⟩
    · exact ⟨g, l, hg, hp⟩
  · exact ⟨g, l, hg, hp⟩

theorem mem_updateGroup_insert {g : Nat} (hc : s.channelGroup = some g) (hg : g < s.groups.length)
    (p : Nat) : ∃ (g : Nat) (l : List Nat), (s.updateGroup (·.insert p))[g]? = some l ∧ p ∈ l := by
  simp only [updateGroup, hc, List.getElem?_eq_getElem hg]
  exact ⟨g, _, List.getElem?_set_self hg, List.mem_insert_self p _⟩

theorem updateGroup_length (f : List Nat → List Nat) : (s.updateGroup f).length = s.groups.length := by
  unfold updateGroup
  split
  · split <;> simp
  · rfl

@[simp] theorem start_pipelines (ok : Bool) : (s.start ok).pipelines = s.pipelines := by
  unfold start; split <;> rfl

theorem getElem?_updateGroup {f : List Nat → List Nat} {g : Nat} {l : List Nat}
    (h : (s.updateGroup f)[g]? = some l) :
    s.groups[g]? = some l ∨ ∃ l₀, s.groups[g]? = some l₀ ∧ l = f l₀ := by
  unfold updateGroup at h
  split at h
  · split at h
    · rename_i l₀ hl₀
      rcases getElem?_set_eq_some h with ⟨rfl, rfl⟩ | ⟨_, h⟩
      · exact .inr ⟨l₀, hl₀, rfl⟩
      · exact .inl h
    · exact .inl h
  · exact .inl h

theorem stopAcceptor_eq : ∃ as : List ParallelAcceptor, as.length = s.acceptors.length ∧
    s.stopAcceptor = { s with acceptors := as } := by
  unfold stopAcceptor setAcceptor
  split
  · split
    · split
      · exact ⟨_, List.length_set .., rfl⟩
      · exact ⟨_, rfl, rfl⟩
    · exact ⟨_, rfl, rfl⟩
  · exact ⟨_, rfl, rfl⟩

theorem mem_updateGroup_erase {k g q : Nat} {l : List Nat}
    (hg : (s.updateGroup (·.erase k))[g]? = some l) (hm : q ∈ l) :
    ∃ l₀, s.groups[g]? = some l₀ ∧ q ∈ l₀ := by
  rcases getElem?_updateGroup hg with hg | ⟨l₀, hg₀, rfl⟩
  · exact ⟨l, hg, hm⟩
  · exact ⟨l₀, hg₀, List.mem_of_mem_erase hm⟩

@[simp] theorem stopAcceptor_pipelines : s.stopAcceptor.pipelines = s.pipelines := by
  obtain ⟨_, _, he⟩ := s.stopAcceptor_eq
  rw [he]

@[simp] theorem stopAcceptor_groupKeys : s.stopAcceptor.groupKeys = s.groupKeys := by
  obtain ⟨_, _, he⟩ := s.stopAcceptor_eq
  rw [he]
  rfl

theorem groupKeys_mem {p : Nat} (h : p ∈ s.groupKeys) :
    ∃ (g : Nat) (l : List Nat), s.groups[g]? = some l ∧ p ∈ l := by
  unfold groupKeys at h
  split at h
  · rename_i g _
    cases hg : s.groups[g]? with
    | none => simp [hg] at h
    | some l => exact ⟨g, l, hg, by simpa [hg] using h⟩
  · cases h

end PipelineServer

/-- Where a caller of the server is. -/
inductive ServerPc where
  | idle
  /-- In `Stop`, holding the lock: `CloseAll`'s range has `keys` left to visit. -/
  | closeAll (keys : List Nat)
  /-- In `Sync`. -/
  | sync
  deriving DecidableEq, Repr

/-- Where a goroutine spawned by `handleAccept` is. -/
inductive HandlerPc where
  /-- The initializer check, `InitPipeline` and `misc.LifecycleStart(pipeline)` are next. -/
  | setup
  /-- `s.channelGroup.Add` of pipeline `p`'s channel is next. -/
  | add (p : Nat)
  /-- In `pipeline.Sync()`. -/
  | sync (p : Nat)
  /-- `s.channelGroup.Remove` of pipeline `p`'s channel is next. -/
  | remove (p : Nat)
  | done
  deriving DecidableEq, Repr

structure ServerSystem where
  server : PipelineServer
  callers : List ServerPc
  handlers : List HandlerPc

inductive ServerAction where
  | spawn
  /-- Caller `t` calls `Start`; `ok`: `net.ListenTCP` succeeds. -/
  | start (t : Nat) (ok : Bool)
  | stop (t : Nat)
  /-- Caller `t`, in `Stop`, visits the next key of `CloseAll`'s range, or ends `Stop`. -/
  | closeNext (t : Nat)
  | sync (t : Nat)
  /-- `s.waitGroup.Wait()` of caller `t` returns. -/
  | syncReturn (t : Nat)
  /-- Worker `i` of acceptor `a` accepts a connection; `handleAccept` spawns its goroutine. -/
  | accept (a i : Nat)
  | acceptFail (a i : Nat)
  | workerExit (a i : Nat)
  /-- Handler `h` steps; `ok`: `InitPipeline` and the pipeline's `Start` succeed. -/
  | handler (h : Nat) (ok : Bool)
  /-- Pipeline `p` stops on its own. -/
  | pipelineStops (p : Nat)

namespace ServerSystem

open PipelineServer

def init (acceptorSize : UInt8) (initializer : Bool) : ServerSystem :=
  ⟨newPipelineServer acceptorSize initializer, [], []⟩

def CanLock (σ : ServerSystem) (t : Nat) : Prop :=
  σ.callers[t]? = some .idle ∧ σ.server.stateMutex = none

instance (σ : ServerSystem) (t : Nat) : Decidable (σ.CanLock t) := by
  unfold CanLock; infer_instance

def step (σ : ServerSystem) : ServerAction → Option ServerSystem
  | .spawn => some { σ with callers := σ.callers ++ [.idle] }
  | .start t ok => if σ.CanLock t then some { σ with server := σ.server.start ok } else none
  | .stop t =>
    if σ.CanLock t then
      if σ.server.running then
        let s := σ.server.stopAcceptor
        some ⟨{ s with stateMutex := some t }, σ.callers.set t (.closeAll s.groupKeys), σ.handlers⟩
      else some σ
    else none
  | .closeNext t =>
    match σ.callers[t]? with
    | some (.closeAll (k :: ks)) => some ⟨σ.server.closeKey k, σ.callers.set t (.closeAll ks), σ.handlers⟩
    | some (.closeAll []) => some ⟨σ.server.finishStop, σ.callers.set t .idle, σ.handlers⟩
    | _ => none
  | .sync t =>
    if σ.callers[t]? = some .idle then some { σ with callers := σ.callers.set t .sync } else none
  | .syncReturn t =>
    if σ.callers[t]? = some .sync ∧ σ.server.waitGroup = 0 then
      some { σ with callers := σ.callers.set t .idle }
    else none
  | .accept a i =>
    match σ.server.acceptors[a]? with
    | some pa =>
      if pa.workers[i]? = some .accepting ∧ pa.listenerClosed = false then
        some { σ with handlers := σ.handlers ++ [.setup] }
      else none
    | none => none
  | .acceptFail a i =>
    match σ.server.acceptors[a]? with
    | some pa =>
      if pa.workers[i]? = some .accepting then
        some { σ with server := σ.server.setAcceptor a (pa.failAccept i) }
      else none
    | none => none
  | .workerExit a i =>
    match σ.server.acceptors[a]? with
    | some pa =>
      if pa.workers[i]? = some .exiting then
        some { σ with server := σ.server.setAcceptor a (pa.exitWorker i) }
      else none
    | none => none
  | .handler h ok =>
    match σ.handlers[h]? with
    | some .setup =>
      if σ.server.initializer && ok then
        some ⟨{ σ.server with pipelines := σ.server.pipelines ++ [true] }, σ.callers,
          σ.handlers.set h (.add σ.server.pipelines.length)⟩
      else some { σ with handlers := σ.handlers.set h .done }
    | some (.add p) => some ⟨σ.server.addChannel p, σ.callers, σ.handlers.set h (.sync p)⟩
    | some (.sync p) =>
      if σ.server.pipelines[p]? = some false then
        some { σ with handlers := σ.handlers.set h (.remove p) }
      else none
    | some (.remove p) => some ⟨σ.server.removeChannel p, σ.callers, σ.handlers.set h .done⟩
    | _ => none
  | .pipelineStops p =>
    if σ.server.pipelines[p]? = some true then
      some { σ with server := { σ.server with pipelines := σ.server.pipelines.set p false } }
    else none

def run : ServerSystem → List ServerAction → Option ServerSystem
  | σ, [] => some σ
  | σ, a :: as => (σ.step a).bind (run · as)

def AtAdd (hs : List HandlerPc) (p : Nat) : Prop := ∃ h : Nat, hs[h]? = some (.add p)

def Tracked (s : PipelineServer) (hs : List HandlerPc) (p : Nat) : Prop := AtAdd hs p ∨ s.InGroup p

/-- A `Stop` in its range holds the lock on a running server, the wait group counts the running
server, the group is there once an acceptor is, a handler removes only a stopped pipeline, and
every running pipeline is tracked. -/
structure Inv (σ : ServerSystem) : Prop where
  waitGroup : σ.server.waitGroup = if σ.server.running then 1 else 0
  stopping : ∀ (t : Nat) (ks : List Nat), σ.callers[t]? = some (.closeAll ks) →
    σ.server.running = true ∧ σ.server.stateMutex = some t
  group : ∀ g : Nat, σ.server.channelGroup = some g → g < σ.server.groups.length
  nilGroup : σ.server.channelGroup = none → σ.server.acceptors = [] ∧ σ.handlers = []
  removing : ∀ (h p : Nat), σ.handlers[h]? = some (.remove p) → σ.server.pipelines[p]? = some false
  tracked : ∀ p : Nat, σ.server.pipelines[p]? = some true → Tracked σ.server σ.handlers p
  members : ∀ (g : Nat) (l : List Nat), σ.server.groups[g]? = some l →
    ∀ p ∈ l, p < σ.server.pipelines.length
  adding : ∀ (h p : Nat), σ.handlers[h]? = some (.add p) → p < σ.server.pipelines.length
  closing : ∀ (t : Nat) (ks : List Nat), σ.callers[t]? = some (.closeAll ks) →
    ∀ p ∈ ks, p < σ.server.pipelines.length

theorem AtAdd.set {hs : List HandlerPc} {h p : Nat} {x : HandlerPc} (hh : hs[h]? = some x)
    (hx : x ≠ .add p) (y : HandlerPc) (ha : AtAdd hs p) : AtAdd (hs.set h y) p :=
  let ⟨h', hh'⟩ := ha
  ⟨h', getElem?_set_of_ne hh hh' hx y⟩

theorem AtAdd.append {hs : List HandlerPc} {p : Nat} (ys : List HandlerPc) (ha : AtAdd hs p) :
    AtAdd (hs ++ ys) p :=
  let ⟨h', hh'⟩ := ha
  ⟨h', getElem?_append_of_some ys hh'⟩

theorem getElem?_set_false {l : List Bool} {k p : Nat} (h : l[p]? = some false) :
    (l.set k false)[p]? = some false := by
  rcases eq_or_ne k p with rfl | hne
  · exact List.getElem?_set_self (List.getElem?_eq_some_iff.mp h).1
  · rwa [List.getElem?_set_ne hne]

section Steps

variable {σ : ServerSystem}

theorem Inv.init (n : UInt8) (b : Bool) : (init n b).Inv where
  waitGroup := rfl
  stopping _ _ h := by simp [ServerSystem.init] at h
  group _ h := by cases h
  nilGroup _ := ⟨rfl, rfl⟩
  removing _ _ h := by simp [ServerSystem.init] at h
  tracked _ h := by simp [ServerSystem.init, newPipelineServer] at h
  members _ _ h := by simp [ServerSystem.init, newPipelineServer] at h
  adding _ _ h := by simp [ServerSystem.init] at h
  closing _ _ h := by simp [ServerSystem.init] at h

theorem Inv.callers (hi : σ.Inv) {cs : List ServerPc}
    (hc : ∀ (t : Nat) (ks : List Nat), cs[t]? = some (.closeAll ks) →
      σ.callers[t]? = some (.closeAll ks)) :
    { σ with callers := cs }.Inv :=
  { hi with
    stopping := fun t ks h => hi.stopping t ks (hc t ks h)
    closing := fun t ks h => hi.closing t ks (hc t ks h) }

theorem Inv.setCaller (hi : σ.Inv) (t : Nat) {pc : ServerPc} (hpc : ∀ ks : List Nat, pc ≠ .closeAll ks) :
    { σ with callers := σ.callers.set t pc }.Inv :=
  hi.callers fun _ ks h => by
    rcases getElem?_set_eq_some h with ⟨_, h⟩ | ⟨_, h⟩
    · exact absurd h.symm (hpc ks)
    · exact h

theorem Inv.setHandler (hi : σ.Inv) {h : Nat} {x y : HandlerPc} (hh : σ.handlers[h]? = some x)
    (hx : ∀ p : Nat, x ≠ .add p) (hya : ∀ p : Nat, y ≠ .add p)
    (hy : ∀ p : Nat, y = .remove p → σ.server.pipelines[p]? = some false) :
    { σ with handlers := σ.handlers.set h y }.Inv :=
  { hi with
    nilGroup := fun hn => absurd ((hi.nilGroup hn).2 ▸ hh) (by simp)
    removing := fun h' p hr => by
      rcases getElem?_set_eq_some hr with ⟨_, hr⟩ | ⟨_, hr⟩
      · exact hy p hr.symm
      · exact hi.removing h' p hr
    tracked := fun p hp => (hi.tracked p hp).imp (AtAdd.set hh (hx p) y) id
    adding := fun h' p ha => by
      rcases getElem?_set_eq_some ha with ⟨_, ha⟩ | ⟨_, ha⟩
      · exact absurd ha.symm (hya p)
      · exact hi.adding h' p ha }

theorem Inv.accept (hi : σ.Inv) {a : Nat} {pa : ParallelAcceptor}
    (ha : σ.server.acceptors[a]? = some pa) : { σ with handlers := σ.handlers ++ [HandlerPc.setup] }.Inv :=
  { hi with
    nilGroup := fun hn => absurd ((hi.nilGroup hn).1 ▸ ha) (by simp)
    removing := fun h p hr => by
      rcases getElem?_concat_eq_some hr with ⟨_, hr⟩ | hr
      · cases hr
      · exact hi.removing h p hr
    tracked := fun p hp => (hi.tracked p hp).imp (AtAdd.append _) id
    adding := fun h p ha => by
      rcases getElem?_concat_eq_some ha with ⟨_, ha⟩ | ha
      · cases ha
      · exact hi.adding h p ha }

theorem Inv.setAcceptor (hi : σ.Inv) {a : Nat} {pa : ParallelAcceptor}
    (ha : σ.server.acceptors[a]? = some pa) (pa' : ParallelAcceptor) :
    { σ with server := σ.server.setAcceptor a pa' }.Inv :=
  { hi with nilGroup := fun hn => absurd ((hi.nilGroup hn).1 ▸ ha) (by simp) }

theorem Inv.start (hi : σ.Inv) (hl : σ.server.stateMutex = none) (ok : Bool) :
    { σ with server := σ.server.start ok }.Inv := by
  unfold PipelineServer.start
  split
  · exact hi
  · rename_i hr
    simp only [Bool.or_eq_true, Bool.not_eq_true', not_or, Bool.not_eq_true] at hr
    have hw := hi.waitGroup
    simp only [hr.1, Bool.false_eq_true, if_false] at hw
    exact
    { waitGroup := by simp [hw]
      stopping := fun t ks h => absurd ((hi.stopping t ks h).2.symm.trans hl) (by simp)
      group := fun g hg => by cases hg; simp
      nilGroup := fun hn => by cases hn
      removing := hi.removing
      tracked := fun p hp => (hi.tracked p hp).imp id
        fun ⟨g, l, hg, hm⟩ => ⟨g, l, getElem?_append_of_some _ hg, hm⟩
      members := fun g l hg => by
        rcases getElem?_concat_eq_some hg with ⟨_, rfl⟩ | hg
        · simp
        · exact hi.members g l hg
      adding := hi.adding
      closing := hi.closing }

theorem Inv.stop (hi : σ.Inv) {t : Nat} (hl : σ.server.stateMutex = none)
    (hr : σ.server.running = true) :
    (⟨{ σ.server.stopAcceptor with stateMutex := some t },
      σ.callers.set t (.closeAll σ.server.stopAcceptor.groupKeys), σ.handlers⟩ : ServerSystem).Inv := by
  obtain ⟨as, hlen, he⟩ := σ.server.stopAcceptor_eq
  rw [he]
  exact
  { hi with
    stopping := fun t' ks h => by
      rcases getElem?_set_eq_some h with ⟨rfl, _⟩ | ⟨_, h⟩
      · exact ⟨hr, rfl⟩
      · exact absurd ((hi.stopping t' ks h).2.symm.trans hl) (by simp)
    nilGroup := fun hn =>
      ⟨List.eq_nil_of_length_eq_zero (hlen.trans (List.length_eq_zero.mpr (hi.nilGroup hn).1)),
        (hi.nilGroup hn).2⟩
    closing := fun t' ks h => by
      rcases getElem?_set_eq_some h with ⟨_, he⟩ | ⟨_, h⟩
      · rw [ServerPc.closeAll.inj he]
        intro p hp
        obtain ⟨g, l, hg, hm⟩ := groupKeys_mem hp
        exact hi.members g l hg p hm
      · exact hi.closing t' ks h }

theorem Inv.closeKey (hi : σ.Inv) {t k : Nat} {ks : List Nat}
    (ht : σ.callers[t]? = some (.closeAll (k :: ks))) :
    (⟨σ.server.closeKey k, σ.callers.set t (.closeAll ks), σ.handlers⟩ : ServerSystem).Inv where
  waitGroup := hi.waitGroup
  stopping t' ks' h := by
    rcases getElem?_set_eq_some h with ⟨rfl, _⟩ | ⟨_, h⟩
    · exact hi.stopping _ _ ht
    · exact hi.stopping t' ks' h
  group g hg := (σ.server.updateGroup_length _).symm ▸ hi.group g hg
  nilGroup := hi.nilGroup
  removing h p hr := getElem?_set_false (hi.removing h p hr)
  tracked p hp := by
    rcases getElem?_set_eq_some hp with ⟨_, h⟩ | ⟨hne, hp⟩
    · cases h
    · exact (hi.tracked p hp).imp id
        (inGroup_updateGroup fun _ => (List.mem_erase_of_ne (Ne.symm hne)).mpr)
  members g l hg p hm := by
    obtain ⟨l₀, hg, hm⟩ := mem_updateGroup_erase hg hm
    simpa [PipelineServer.closeKey] using hi.members g l₀ hg p hm
  adding h p ha := by simpa [PipelineServer.closeKey] using hi.adding h p ha
  closing t' ks' h := by
    simp only [PipelineServer.closeKey, List.length_set]
    rcases getElem?_set_eq_some h with ⟨_, he⟩ | ⟨_, h⟩
    · rw [ServerPc.closeAll.inj he]
      exact fun p hp => hi.closing _ _ ht p (List.mem_cons_of_mem _ hp)
    · exact hi.closing t' ks' h

theorem Inv.finishStop (hi : σ.Inv) {t : Nat} (ht : σ.callers[t]? = some (.closeAll [])) :
    (⟨σ.server.finishStop, σ.callers.set t .idle, σ.handlers⟩ : ServerSystem).Inv :=
  have ⟨hr, hl⟩ := hi.stopping t [] ht
  { hi with
    waitGroup := by
      have hw := hi.waitGroup
      simp only [hr, if_true] at hw
      simp [PipelineServer.finishStop, hw]
    stopping := fun t' ks h => by
      rcases getElem?_set_eq_some h with ⟨_, h⟩ | ⟨hne, h⟩
      · cases h
      · exact absurd (Option.some.inj ((hi.stopping t' ks h).2.symm.trans hl)) (Ne.symm hne)
    closing := fun t' ks h => by
      rcases getElem?_set_eq_some h with ⟨_, h⟩ | ⟨_, h⟩
      · cases h
      · exact hi.closing t' ks h }

theorem Inv.newPipeline (hi : σ.Inv) {h : Nat} (hh : σ.handlers[h]? = some .setup) :
    (⟨{ σ.server with pipelines := σ.server.pipelines ++ [true] }, σ.callers,
      σ.handlers.set h (.add σ.server.pipelines.length)⟩ : ServerSystem).Inv := by
  have hlt (n : Nat) (hn : n < σ.server.pipelines.length) :
      n < (σ.server.pipelines ++ [true]).length := by simp; omega
  exact
  { hi with
    nilGroup := fun hn => absurd ((hi.nilGroup hn).2 ▸ hh) (by simp)
    removing := fun h' p hr => by
      rcases getElem?_set_eq_some hr with ⟨_, hr⟩ | ⟨_, hr⟩
      · cases hr
      · exact getElem?_append_of_some _ (hi.removing h' p hr)
    tracked := fun p hp => by
      rcases getElem?_concat_eq_some hp with ⟨rfl, _⟩ | hp
      · exact .inl ⟨h, List.getElem?_set_self (List.getElem?_eq_some_iff.mp hh).1⟩
      · exact (hi.tracked p hp).imp (AtAdd.set hh (by simp) _) id
    members := fun g l hg p hm => hlt p (hi.members g l hg p hm)
    adding := fun h' p ha => by
      rcases getElem?_set_eq_some ha with ⟨_, ha⟩ | ⟨_, ha⟩
      · cases ha; simp
      · exact hlt p (hi.adding h' p ha)
    closing := fun t ks ht p hp => hlt p (hi.closing t ks ht p hp) }

theorem Inv.addChannel (hi : σ.Inv) {h p : Nat} (hh : σ.handlers[h]? = some (.add p)) :
    (⟨σ.server.addChannel p, σ.callers, σ.handlers.set h (.sync p)⟩ : ServerSystem).Inv := by
  have hn : σ.server.channelGroup ≠ none := fun hn => absurd ((hi.nilGroup hn).2 ▸ hh) (by simp)
  obtain ⟨g, hc⟩ := Option.ne_none_iff_exists'.mp hn
  exact
  { hi with
    group := fun g' hg' => (σ.server.updateGroup_length _).symm ▸ hi.group g' hg'
    nilGroup := fun hn' => absurd hn' hn
    removing := fun h' q hr => by
      rcases getElem?_set_eq_some hr with ⟨_, hr⟩ | ⟨_, hr⟩
      · cases hr
      · exact hi.removing h' q hr
    tracked := fun q hq => by
      by_cases hqp : q = p
      · subst hqp
        exact .inr (mem_updateGroup_insert hc (hi.group g hc) q)
      · exact (hi.tracked q hq).imp (AtAdd.set hh (by simp [Ne.symm hqp]) _)
          (inGroup_updateGroup fun _ => List.mem_insert_of_mem)
    members := fun g' l hg' q hm => by
      rcases getElem?_updateGroup hg' with hg' | ⟨l₀, hg₀, rfl⟩
      · exact hi.members g' l hg' q hm
      · rcases List.mem_insert_iff.mp hm with rfl | hm
        · exact hi.adding h q hh
        · exact hi.members g' l₀ hg₀ q hm
    adding := fun h' q ha => by
      rcases getElem?_set_eq_some ha with ⟨_, ha⟩ | ⟨_, ha⟩
      · cases ha
      · exact hi.adding h' q ha }

theorem Inv.removeChannel (hi : σ.Inv) {h p : Nat} (hh : σ.handlers[h]? = some (.remove p)) :
    (⟨σ.server.removeChannel p, σ.callers, σ.handlers.set h .done⟩ : ServerSystem).Inv :=
  have hp := hi.removing h p hh
  { hi with
    group := fun g hg => (σ.server.updateGroup_length _).symm ▸ hi.group g hg
    nilGroup := fun hn => absurd ((hi.nilGroup hn).2 ▸ hh) (by simp)
    removing := fun h' q hr => by
      rcases getElem?_set_eq_some hr with ⟨_, hr⟩ | ⟨_, hr⟩
      · cases hr
      · exact hi.removing h' q hr
    tracked := fun q hq => by
      have hqp : q ≠ p := by rintro rfl; exact absurd (hp.symm.trans hq) (by simp)
      exact (hi.tracked q hq).imp (AtAdd.set hh (by simp) _)
        (inGroup_updateGroup fun _ => (List.mem_erase_of_ne hqp).mpr)
    members := fun g l hg q hm =>
      let ⟨l₀, hg, hm⟩ := mem_updateGroup_erase hg hm
      hi.members g l₀ hg q hm
    adding := fun h' q ha => by
      rcases getElem?_set_eq_some ha with ⟨_, ha⟩ | ⟨_, ha⟩
      · cases ha
      · exact hi.adding h' q ha }

theorem Inv.pipelineStops (hi : σ.Inv) (p : Nat) :
    { σ with server := { σ.server with pipelines := σ.server.pipelines.set p false } }.Inv :=
  { hi with
    removing := fun h q hr => getElem?_set_false (hi.removing h q hr)
    tracked := fun q hq => by
      rcases getElem?_set_eq_some hq with ⟨_, h⟩ | ⟨_, hq⟩
      · cases h
      · exact hi.tracked q hq
    members := fun g l hg q hm => by simpa using hi.members g l hg q hm
    adding := fun h q ha => by simpa using hi.adding h q ha
    closing := fun t ks ht q hq => by simpa using hi.closing t ks ht q hq }

end Steps

variable {σ σ' : ServerSystem} {a : ServerAction}

theorem Inv.step (hi : σ.Inv) (h : σ.step a = some σ') : σ'.Inv := by
  cases a with
  | spawn =>
    cases h
    exact hi.callers fun t ks h => by
      rcases getElem?_concat_eq_some h with ⟨_, h⟩ | h
      · cases h
      · exact h
  | start t ok =>
    simp only [step] at h
    split at h <;> cases h
    exact hi.start ‹σ.CanLock t›.2 ok
  | stop t =>
    simp only [step] at h
    split at h
    · split at h <;> cases h
      · exact hi.stop ‹σ.CanLock t›.2 ‹_›
      · exact hi
    · cases h
  | closeNext t =>
    simp only [step] at h
    split at h <;> cases h
    · exact hi.closeKey ‹_›
    · exact hi.finishStop ‹_›
  | sync t | syncReturn t =>
    simp only [step] at h
    split at h <;> cases h
    exact hi.setCaller t (by simp)
  | accept a i =>
    simp only [step] at h
    split at h
    · split at h <;> cases h
      exact hi.accept ‹_›
    · cases h
  | acceptFail a i | workerExit a i =>
    simp only [step] at h
    split at h
    · split at h <;> cases h
      exact hi.setAcceptor ‹_› _
    · cases h
  | handler k ok =>
    simp only [step] at h
    split at h
    · split at h <;> cases h
      · exact hi.newPipeline ‹_›
      · exact hi.setHandler ‹_› (by simp) (by simp) (by simp)
    · cases h
      exact hi.addChannel ‹_›
    · split at h <;> cases h
      exact hi.setHandler ‹_› (by simp) (by simp) fun q hq => by cases hq; assumption
    · cases h
      exact hi.removeChannel ‹_›
    · cases h
  | pipelineStops p =>
    simp only [step] at h
    split at h <;> cases h
    exact hi.pipelineStops p

theorem Inv.run (hi : σ.Inv) {as : List ServerAction} (h : σ.run as = some σ') : σ'.Inv := by
  induction as generalizing σ with
  | nil => cases h; exact hi
  | cons a as ih =>
    obtain ⟨σ₁, h₁, h₂⟩ := Option.bind_eq_some.mp h
    exact ih (hi.step h₁) h₂

theorem step_stopped {k : Nat} (h : σ.step a = some σ') (hk : σ.server.pipelines[k]? = some false) :
    σ'.server.pipelines[k]? = some false := by
  cases a <;> simp only [step] at h <;> (repeat' split at h) <;> cases h <;>
    first
    | exact hk
    | exact getElem?_set_false hk
    | exact getElem?_append_of_some _ hk
    | simpa using hk

/-- Only its own `closeNext` moves a caller in `Stop`'s range. -/
theorem step_closeAll_frame {t : Nat} {ks : List Nat} (ht : σ.callers[t]? = some (.closeAll ks))
    (ha : a ≠ .closeNext t) (h : σ.step a = some σ') : σ'.callers[t]? = some (.closeAll ks) := by
  cases a with
  | spawn =>
    cases h
    exact getElem?_append_of_some _ ht
  | stop t' =>
    simp only [step] at h
    split at h
    · split at h <;> cases h
      · exact getElem?_set_of_ne ‹σ.CanLock t'›.1 ht (by simp) _
      · exact ht
    · cases h
  | closeNext t' =>
    have hne : t' ≠ t := fun he => ha (he ▸ rfl)
    simp only [step] at h
    split at h <;> cases h <;> exact (List.getElem?_set_ne hne).trans ht
  | sync t' =>
    simp only [step] at h
    split at h <;> cases h
    exact getElem?_set_of_ne ‹_› ht (by simp) _
  | syncReturn t' =>
    simp only [step] at h
    split at h <;> cases h
    exact getElem?_set_of_ne ‹_ ∧ _›.1 ht (by simp) _
  | _ => simp only [step] at h; (repeat' split at h) <;> cases h <;> exact ht

theorem step_stop {t : Nat} (hr : σ.server.running = true) (h : σ.step (.stop t) = some σ') :
    σ'.callers[t]? = some (.closeAll σ.server.groupKeys) := by
  simp only [step] at h
  split at h
  · cases h
    rw [stopAcceptor_groupKeys]
    exact List.getElem?_set_self (List.getElem?_eq_some_iff.mp ‹σ.CanLock t›.1).1
  · cases h

/-- Each key the range of caller `t`'s `Stop` began with is stopped, or still to visit. -/
def Closed (σ : ServerSystem) (t : Nat) (ks : List Nat) : Prop :=
  ∀ k ∈ ks, σ.server.pipelines[k]? = some false ∨
    ∃ ks', σ.callers[t]? = some (.closeAll ks') ∧ k ∈ ks'

theorem Closed.step (hi : σ.Inv) {t : Nat} {ks : List Nat} (hc : Closed σ t ks)
    (h : σ.step a = some σ') : Closed σ' t ks := by
  intro k hk
  rcases hc k hk with hs | ⟨ks', ht, hk'⟩
  · exact .inl (step_stopped h hs)
  by_cases ha : a = .closeNext t
  · subst ha
    cases ks' with
    | nil => cases hk'
    | cons k' ks'' =>
      simp only [ServerSystem.step, ht] at h
      cases h
      rcases List.mem_cons.mp hk' with rfl | hk''
      · exact .inl (List.getElem?_set_self (hi.closing t _ ht k (List.mem_cons_self _ _)))
      · exact .inr ⟨ks'', List.getElem?_set_self (List.getElem?_eq_some_iff.mp ht).1, hk''⟩
  · exact .inr ⟨ks', step_closeAll_frame ht ha h, hk'⟩

theorem Closed.run (hi : σ.Inv) {t : Nat} {ks : List Nat} (hc : Closed σ t ks)
    {as : List ServerAction} (h : σ.run as = some σ') : Closed σ' t ks := by
  induction as generalizing σ with
  | nil => cases h; exact hc
  | cons a as ih =>
    obtain ⟨σ₁, h₁, h₂⟩ := Option.bind_eq_some.mp h
    exact ih (hi.step h₁) (hc.step hi h₁) h₂

/-- A `Stop` that finds the server running has stopped, once it returns, every pipeline whose
channel was in the group when it took the lock. -/
theorem pipelineServer_stop_closes_group {n : UInt8} {b : Bool} {as as' : List ServerAction}
    {σ₁ : ServerSystem} {t : Nat} (h : (init n b).run as = some σ) (hr : σ.server.running = true)
    (hs : σ.step (.stop t) = some σ₁) (h' : σ₁.run as' = some σ')
    (hd : σ'.callers[t]? = some .idle) : ∀ k ∈ σ.server.groupKeys, σ'.server.pipelines[k]? = some false := by
  have hi₁ := ((Inv.init n b).run h).step hs
  have hc : Closed σ' t σ.server.groupKeys :=
    Closed.run hi₁ (fun k hk => .inr ⟨_, step_stop hr hs, hk⟩) h'
  intro k hk
  rcases hc k hk with hk | ⟨ks', ht, _⟩
  · exact hk
  · rw [hd] at ht; cases ht

theorem pipelineServer_stop_closes_group_one :
    ∃ σ σ₁ σ', (init 1 true).run
        [.spawn, .start 0 true, .accept 0 0, .handler 0 true, .handler 0 true] = some σ ∧
      σ.server.running = true ∧ σ.step (.stop 0) = some σ₁ ∧
      σ₁.run [.closeNext 0, .closeNext 0] = some σ' ∧ σ'.callers[0]? = some .idle ∧
      σ.server.groupKeys = [0] ∧ ∀ k ∈ σ.server.groupKeys, σ'.server.pipelines[k]? = some false :=
  ⟨_, _, _, rfl, rfl, rfl, rfl, rfl, rfl, @pipelineServer_stop_closes_group _ _ 1 true
    [.spawn, .start 0 true, .accept 0 0, .handler 0 true, .handler 0 true]
    [.closeNext 0, .closeNext 0] _ 0 rfl rfl rfl rfl rfl⟩

/-- A handler whose connection was accepted before `Stop` starts and adds its pipeline after `Stop`
returned: the server is stopped, the pipeline runs and its channel is in the group. -/
theorem pipelineServer_stop_leaves_pipeline_running :
    ∃ σ₁ σ₂ σ₃, (init 1 true).run [.spawn, .start 0 true, .accept 0 0] = some σ₁ ∧
      σ₁.handlers = [.setup] ∧
      σ₁.run [.stop 0, .closeNext 0] = some σ₂ ∧ σ₂.callers = [.idle] ∧
      σ₂.server.running = false ∧ σ₂.server.groups = [[]] ∧
      σ₂.run [.handler 0 true, .handler 0 true] = some σ₃ ∧ σ₃.handlers = [.sync 0] ∧
      σ₃.server.pipelines = [true] ∧ σ₃.server.groups = [[0]] ∧ σ₃.server.running = false :=
  ⟨_, _, _, rfl, rfl, rfl, rfl, rfl, rfl, rfl, rfl, rfl, rfl, rfl⟩

end ServerSystem

end Matcha.Tcp
