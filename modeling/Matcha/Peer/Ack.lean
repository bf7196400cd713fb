import Mathlib.Logic.Function.Basic
import Mathlib.Data.List.Basic

/-! # The acknowledgement manager

`SafeAckManager` of `net/tcp/peer/ack.go` as a system of goroutines over its `sync.Map`: each map
operation and each channel operation is one atomic step, and the timer of `WaitAck` may fire at
any step once set. Keys and data are numbers, a nil key is `none`. -/
namespace Matcha.Peer

/-- `make(ackRespChan, 2)`. -/
def ackChanSize : Nat := 2

/-- A response channel: the key it was made for (not in the source: it names the slot) and the
data of the responses it holds. The manager never closes a channel. -/
structure AckChan where
  key : Nat
  buf : List Nat
  deriving DecidableEq, Repr

structure SafeAckManager where
  /-- `ackRespChanMap`: the number of each key's channel. -/
  ackRespChanMap : Nat → Option Nat
  chans : List AckChan
  /-- The responses `CommitAck` has sent so far, with their keys. -/
  commits : List (Nat × Nat)

/-- What `WaitAck` returns: a response's data, `(nil, nil)`, or `AckTimeoutError`. -/
inductive AckResult where
  | data (v : Nat)
  | nothing
  | timeout
  deriving DecidableEq, Repr

inductive AckPc where
  | initLoad (k : Nat)
  | initStore (k : Nat)
  | commitLoad (k v : Nat)
  | commitSend (k c v : Nat)
  /-- `timer`: the timeout was positive, so a timer was made. -/
  | waitLoad (k : Nat) (timer : Bool)
  | waitSelect (k c : Nat) (timer : Bool)
  /-- The deferred `Delete`, before `WaitAck` returns `r`. -/
  | waitDelete (k : Nat) (r : AckResult)
  deriving DecidableEq, Repr

inductive AckCall where
  | initAck (key : Option Nat)
  | waitAck (key : Option Nat) (timeout : Int)
  | commitAck (key : Option Nat) (data : Nat)
  deriving DecidableEq, Repr

/-- Where a call starts, and what it returns when it returns at once (a nil key). -/
def AckCall.entry : AckCall → Option AckPc × Option AckResult
  | .initAck none => (none, none)
  | .initAck (some k) => (some (.initLoad k), none)
  | .waitAck none _ => (none, some .nothing)
  | .waitAck (some k) d => (some (.waitLoad k (0 < d)), none)
  | .commitAck none _ => (none, none)
  | .commitAck (some k) v => (some (.commitLoad k v), none)

namespace SafeAckManager

variable (m : SafeAckManager)

def load (k : Nat) : Option Nat := m.ackRespChanMap k

def store (k c : Nat) : SafeAckManager :=
  { m with ackRespChanMap := Function.update m.ackRespChanMap k (some c) }

def delete (k : Nat) : SafeAckManager :=
  { m with ackRespChanMap := Function.update m.ackRespChanMap k none }

/-- One atomic step of a call at `pc`; `fire` picks the timer case of `WaitAck`'s `select`.
It returns the manager, where the call goes on (`none`: it returned) and what it returned;
`none` when the step blocks. -/
def step (pc : AckPc) (fire : Bool) : Option (SafeAckManager × Option AckPc × Option AckResult) :=
  match pc with
  | .initLoad k =>
    match m.load k with
    | some _ => some (m, none, none)
    | none => some (m, some (.initStore k), none)
  | .initStore k =>
    some ({ m.store k m.chans.length with chans := m.chans ++ [⟨k, []⟩] }, none, none)
  | .commitLoad k v =>
    match m.load k with
    | none => some (m, none, none)
    | some c => some (m, some (.commitSend k c v), none)
  | .commitSend k c v =>
    match m.chans[c]? with
    | some ch =>
      if ch.buf.length < ackChanSize then
        let chans := m.chans.set c ⟨ch.key, ch.buf ++ [v]⟩
        some ({ m with chans := chans, commits := m.commits ++ [(k, v)] }, none, none)
      else none
    | none => none
  | .waitLoad k timer =>
    match m.load k with
    | none => some (m, none, some .nothing)
    | some c => some (m, some (.waitSelect k c timer), none)
  | .waitSelect k c timer =>
    if fire then
      if timer then some (m, some (.waitDelete k .timeout), none) else none
    else
      match m.chans[c]? with
      | some ⟨key, x :: xs⟩ =>
        some ({ m with chans := m.chans.set c ⟨key, xs⟩ }, some (.waitDelete k (.data x)), none)
      | _ => none
  | .waitDelete k r => some (m.delete k, none, some r)

end SafeAckManager

/-- A goroutine that calls the manager: the call it is in, and what its last `WaitAck`
returned. -/
structure AckCaller where
  pc : Option AckPc
  last : Option AckResult
  deriving DecidableEq, Repr

structure AckSystem where
  manager : SafeAckManager
  callers : List AckCaller

inductive AckAction where
  | spawn
  /-- Goroutine `t`, between calls, calls the manager. -/
  | call (t : Nat) (c : AckCall)
  | step (t : Nat) (fire : Bool)
  deriving DecidableEq, Repr

namespace AckSystem

def init : AckSystem := ⟨⟨fun _ => none, [], []⟩, []⟩

def step (σ : AckSystem) : AckAction → Option AckSystem
  | .spawn => some { σ with callers := σ.callers ++ [⟨none, none⟩] }
  | .call t c =>
    match σ.callers[t]? with
    | some ⟨none, _⟩ => some { σ with callers := σ.callers.set t ⟨c.entry.1, c.entry.2⟩ }
    | _ => none
  | .step t fire =>
    match σ.callers[t]? with
    | some ⟨some pc, last⟩ =>
      (σ.manager.step pc fire).map fun (m, pc', r) => ⟨m, σ.callers.set t ⟨pc', r.or last⟩⟩
    | _ => none

def run : AckSystem → List AckAction → Option AckSystem
  | σ, [] => some σ
  | σ, a :: as => (σ.step a).bind (run · as)

def Reachable (σ : AckSystem) : Prop := ∃ as, run init as = some σ

theorem run_append {σ σ' : AckSystem} {as bs : List AckAction} (h : σ.run as = some σ') :
    σ.run (as ++ bs) = σ'.run bs := by
  induction as generalizing σ with
  | nil => cases h; rfl
  | cons a as ih =>
    obtain ⟨σ₁, h₁, h₂⟩ := Option.bind_eq_some.mp h
    simp [run, h₁, ih h₂]

end AckSystem

namespace SafeAckManager

variable (m : SafeAckManager)

def ChanOf (c k : Nat) : Prop := ∃ ch, m.chans[c]? = some ch ∧ ch.key = k

structure Wf : Prop where
  map : ∀ k c, m.load k = some c → m.ChanOf c k
  buffered : ∀ ch ∈ m.chans, ∀ v ∈ ch.buf, (ch.key, v) ∈ m.commits
  room : ∀ ch ∈ m.chans, ch.buf.length ≤ ackChanSize

/-- What a call at `pc` holds on to: the channel it loaded for its key, or the data it is
about to return. -/
def Holds : AckPc → Prop
  | .commitSend k c _ | .waitSelect k c _ => m.ChanOf c k
  | .waitDelete k (.data v) => (k, v) ∈ m.commits
  | _ => True

structure Keeps (m m' : SafeAckManager) : Prop where
  chans : ∀ c k, m.ChanOf c k → m'.ChanOf c k
  commits : m.commits <+: m'.commits

variable {m} {m' : SafeAckManager}

theorem Keeps.holds (hk : Keeps m m') {pc : AckPc} (h : m.Holds pc) : m'.Holds pc := by
  match pc with
  | .commitSend k c _ | .waitSelect k c _ => exact hk.chans c k h
  | .waitDelete k (.data v) => exact hk.commits.subset h
  | .initLoad _ | .initStore _ | .commitLoad _ _ | .waitLoad _ _ | .waitDelete _ .nothing
  | .waitDelete _ .timeout => trivial

theorem chanOf_of_append {c k : Nat} {ch : AckChan} (he : m'.chans = m.chans ++ [ch])
    (h : m.ChanOf c k) : m'.ChanOf c k := by
  obtain ⟨ch₀, h₀, rfl⟩ := h
  exact ⟨ch₀, he ▸ List.getElem?_append_left (List.getElem?_eq_some_iff.mp h₀).1 ▸ h₀, rfl⟩

theorem chanOf_of_set {c c' k : Nat} {ch : AckChan} (he : m'.chans = m.chans.set c' ch)
    (hk : ∀ ch₀, m.chans[c']? = some ch₀ → ch.key = ch₀.key) (h : m.ChanOf c k) :
    m'.ChanOf c k := by
  obtain ⟨ch₀, h₀, rfl⟩ := h
  rw [ChanOf, he]
  by_cases hc : c' = c
  · subst hc
    exact ⟨ch, by simp [(List.getElem?_eq_some_iff.mp h₀).1], hk ch₀ h₀⟩
  · exact ⟨ch₀, by rw [List.getElem?_set_ne hc, h₀], rfl⟩

theorem Keeps.refl (m : SafeAckManager) : Keeps m m := ⟨fun _ _ h => h, List.prefix_refl _⟩

theorem step_wf (hw : m.Wf) {pc : AckPc} (hh : m.Holds pc) {fire : Bool}
    {pc' : Option AckPc} {r : Option AckResult} (h : m.step pc fire = some (m', pc', r)) :
    m'.Wf ∧ Keeps m m' ∧ ∀ p, pc' = some p → m'.Holds p := by
  cases pc with
  | initLoad k =>
    simp only [step] at h
    split at h <;> cases h <;> exact ⟨hw, .refl m, by simp [Holds]⟩
  | initStore k =>
    cases h
    have hk : Keeps m { m.store k m.chans.length with chans := m.chans ++ [⟨k, []⟩] } :=
      ⟨fun _ _ => chanOf_of_append rfl, List.prefix_refl _⟩
    refine ⟨⟨fun k' c hc => ?_, fun ch hc => ?_, fun ch hc => ?_⟩, hk, by simp⟩
    · by_cases hk' : k' = k
      · subst hk'
        simp only [load, store, Function.update_same, Option.some.injEq] at hc
        exact ⟨⟨k', []⟩, by simp [← hc], rfl⟩
      · simp only [load, store, Function.update_noteq hk'] at hc
        exact hk.chans _ _ (hw.map k' c hc)
    · rcases List.mem_append.mp hc with hc | hc
      · exact hw.buffered ch hc
      · simp_all
    · rcases List.mem_append.mp hc with hc | hc
      · exact hw.room ch hc
      · simp_all [ackChanSize]
  | commitLoad k v =>
    simp only [step] at h
    split at h <;> cases h
    · exact ⟨hw, .refl m, by simp [Holds]⟩
    · exact ⟨hw, .refl m, by rintro _ ⟨⟩; exact hw.map _ _ (by assumption)⟩
  | commitSend k c v =>
    simp only [step] at h
    split at h
    case h_2 => cases h
    rename_i ch hch
    split at h
    case isFalse => cases h
    rename_i hlt
    cases h
    obtain ⟨_, h₀, rfl⟩ := hh
    rw [hch, Option.some.injEq] at h₀
    subst h₀
    have hk : Keeps m
        ⟨m.ackRespChanMap, m.chans.set c ⟨ch.key, ch.buf ++ [v]⟩, m.commits ++ [(ch.key, v)]⟩ :=
      ⟨fun _ _ => chanOf_of_set rfl (fun _ h₀ => by rw [hch] at h₀; cases h₀; rfl),
        List.prefix_append _ _⟩
    refine ⟨⟨fun k' c hc => hk.chans _ _ (hw.map k' c hc), fun ch' hc => ?_, fun ch' hc => ?_⟩,
      hk, by simp⟩
    · rcases List.mem_or_eq_of_mem_set hc with hc | rfl
      · exact fun v' hv => List.mem_append_left _ (hw.buffered ch' hc v' hv)
      · intro v' hv
        rcases List.mem_append.mp hv with hv | hv
        · exact List.mem_append_left _ (hw.buffered ch (List.getElem?_mem hch) v' hv)
        · simp_all
    · rcases List.mem_or_eq_of_mem_set hc with hc | rfl
      · exact hw.room ch' hc
      · simp only [ackChanSize, List.length_append, List.length_singleton] at hlt ⊢
        omega
  | waitLoad k timer =>
    simp only [step] at h
    split at h <;> cases h
    · exact ⟨hw, .refl m, by simp⟩
    · exact ⟨hw, .refl m, by rintro _ ⟨⟩; exact hw.map _ _ (by assumption)⟩
  | waitSelect k c timer =>
    simp only [step] at h
    split at h
    · split at h <;> cases h
      exact ⟨hw, .refl m, by simp [Holds]⟩
    split at h
    case h_2 => cases h
    rename_i key x xs hch
    cases h
    obtain ⟨_, h₀, rfl⟩ := hh
    rw [hch, Option.some.injEq] at h₀
    subst h₀
    have hmem : (⟨key, x :: xs⟩ : AckChan) ∈ m.chans := List.getElem?_mem hch
    refine ⟨⟨fun k' c hc => ?_, fun ch' hc => ?_, fun ch' hc => ?_⟩,
      ⟨fun _ _ => chanOf_of_set rfl (fun _ h₀ => by rw [hch] at h₀; cases h₀; rfl),
        List.prefix_refl _⟩, ?_⟩
    · exact chanOf_of_set rfl (fun _ h₀ => by rw [hch] at h₀; cases h₀; rfl) (hw.map k' c hc)
    · rcases List.mem_or_eq_of_mem_set hc with hc | rfl
      · exact hw.buffered ch' hc
      · exact fun v hv => hw.buffered _ hmem v (List.mem_cons_of_mem x hv)
    · rcases List.mem_or_eq_of_mem_set hc with hc | rfl
      · exact hw.room ch' hc
      · exact le_trans (Nat.le_succ _) (hw.room _ hmem)
    · rintro _ ⟨⟩
      exact hw.buffered _ hmem x (List.mem_cons_self x xs)
  | waitDelete k r =>
    cases h
    refine ⟨⟨fun k' c hc => ?_, hw.buffered, hw.room⟩, ⟨fun _ _ h => h, List.prefix_refl _⟩, by simp⟩
    by_cases hk' : k' = k
    · subst hk'; simp [load, delete] at hc
    · simp only [load, delete, Function.update_noteq hk'] at hc
      exact hw.map k' c hc

end SafeAckManager

namespace AckSystem

structure Inv (σ : AckSystem) : Prop where
  wf : σ.manager.Wf
  holds : ∀ th ∈ σ.callers, ∀ pc, th.pc = some pc → σ.manager.Holds pc

theorem inv_init : init.Inv :=
  ⟨⟨fun _ _ h => (nomatch h), fun _ h => (nomatch h), fun _ h => (nomatch h)⟩,
    fun _ h => (nomatch h)⟩

theorem entry_holds (m : SafeAckManager) (c : AckCall) : ∀ p, c.entry.1 = some p → m.Holds p := by
  rcases c with (_ | k) | (_ | k) | (_ | k) <;> rintro _ ⟨⟩ <;> trivial

theorem step_inv {σ σ' : AckSystem} (hi : σ.Inv) {a : AckAction} (h : σ.step a = some σ') :
    σ'.Inv := by
  cases a with
  | spawn =>
    cases h
    refine ⟨hi.wf, fun th hth => ?_⟩
    rcases List.mem_append.mp hth with hth | hth
    · exact hi.holds th hth
    · rw [List.mem_singleton.mp hth]; rintro _ ⟨⟩
  | call t c =>
    simp only [step] at h
    split at h <;> cases h
    refine ⟨hi.wf, fun th hth => ?_⟩
    rcases List.mem_or_eq_of_mem_set hth with hth | rfl
    · exact hi.holds th hth
    · exact entry_holds _ c
  | step t fire =>
    simp only [step] at h
    split at h
    case h_2 => cases h
    rename_i pc last hpc
    obtain ⟨⟨m', pc', r⟩, hs, rfl⟩ := Option.map_eq_some'.mp h
    obtain ⟨hw, hk, hp⟩ := σ.manager.step_wf hi.wf (hi.holds _ (List.getElem?_mem hpc) pc rfl) hs
    refine ⟨hw, fun th hth => ?_⟩
    rcases List.mem_or_eq_of_mem_set hth with hth | rfl
    · exact fun p hp' => hk.holds (hi.holds th hth p hp')
    · exact hp

theorem run_inv {σ σ' : AckSystem} (as : List AckAction) (hi : σ.Inv) (h : σ.run as = some σ') :
    σ'.Inv := by
  induction as generalizing σ with
  | nil => cases h; exact hi
  | cons a as ih =>
    obtain ⟨σ₁, h₁, h₂⟩ := Option.bind_eq_some.mp h
    exact ih (step_inv hi h₁) h₂

/-- A and B call `InitAck(1)` and both load before either stores; A stores channel 0 and
returns. C then commits 7 into channel 0, B's `Store` replaces the slot with an empty channel 1,
and A's `WaitAck(1, 1000)` loads channel 1 and times out. -/
def initRace : List AckAction :=
  [.spawn, .spawn, .spawn, .call 0 (.initAck (some 1)), .call 1 (.initAck (some 1)),
    .step 0 false, .step 1 false, .step 0 false]

def commitAfterInit : List AckAction :=
  [.call 2 (.commitAck (some 1) 7), .step 2 false, .step 2 false]

def waitAfterReplace : List AckAction :=
  [.call 0 (.waitAck (some 1) 1000), .step 0 false, .step 0 true, .step 0 false]

theorem initAck_race_loses_commit :
    ∃ σ₁ σ₂ σ₃ σ₄, init.run initRace = some σ₁ ∧ σ₁.callers[0]? = some ⟨none, none⟩ ∧
      σ₁.run commitAfterInit = some σ₂ ∧ σ₂.callers[2]? = some ⟨none, none⟩ ∧
      σ₂.manager.load 1 = some 0 ∧ σ₂.manager.chans[0]? = some ⟨1, [7]⟩ ∧
      σ₂.step (.step 1 false) = some σ₃ ∧ σ₃.manager.load 1 = some 1 ∧
      σ₃.manager.chans[1]? = some ⟨1, []⟩ ∧
      σ₃.run waitAfterReplace = some σ₄ ∧ σ₄.callers[0]? = some ⟨none, some .timeout⟩ ∧
      σ₄.manager.commits = [(1, 7)] :=
  ⟨_, _, _, _, rfl, rfl, rfl, rfl, rfl, rfl, rfl, rfl, rfl, rfl, rfl, rfl⟩

/-- Three `CommitAck(1, _)` calls with nobody waiting: the channel has room for two responses, so
the third blocks in its send. -/
def commitThrice : List AckAction :=
  [.spawn, .spawn, .call 0 (.initAck (some 1)), .step 0 false, .step 0 false,
    .call 1 (.commitAck (some 1) 1), .step 1 false, .step 1 false,
    .call 1 (.commitAck (some 1) 2), .step 1 false, .step 1 false,
    .call 1 (.commitAck (some 1) 3), .step 1 false]

theorem third_commitAck_blocks :
    ∃ σ, init.run commitThrice = some σ ∧ σ.callers[1]? = some ⟨some (.commitSend 1 0 3), none⟩ ∧
      σ.manager.chans[0]? = some ⟨1, [1, 2]⟩ ∧ ∀ fire, σ.step (.step 1 fire) = none :=
  ⟨_, rfl, rfl, rfl, fun _ => rfl⟩

end AckSystem

end Matcha.Peer
