import Matcha.Task.CornFields

/-! # The cron scheduler's ticking goroutine

The goroutine that `cornScheduler.Start` makes; a round is given what `time.Now()` returns on its
tick, and the `stopC` case only returns. -/
namespace Matcha.Task

open Matcha.Util

structure Tick where
  unix : Int
  time : Time

/-- The loop's variables. `period` is the period of `ticker`, in nanoseconds; `started` lists
the Unix seconds of the task goroutines started (not in the source). -/
structure TickerLoop where
  period : Int
  firstExecute : Bool
  latestTaskExecuteTimestamp : Int
  started : List Int
  deriving DecidableEq, Repr

namespace TickerLoop

/-- `int64(time.Second) - time.Now().UnixNano()%int64(time.Second)`: Go's `%` truncates. -/
def offset (startNano : Int) : Int := 10 ^ 9 - startNano.tmod (10 ^ 9)

def init (startNano : Int) : TickerLoop := ⟨offset startNano, true, 0, []⟩

/-- One round of the loop on a tick of `ticker.C`: `none` is a panic of `matchCornData`. -/
def tick (data : CornData) (l : TickerLoop) (now : Tick) : Option TickerLoop := do
  let matched ← matchCornData data now.time
  let l := if matched && now.unix != l.latestTaskExecuteTimestamp then
      { l with started := l.started ++ [now.unix], latestTaskExecuteTimestamp := now.unix }
    else l
  pure (if !l.firstExecute then { l with firstExecute := false, period := 10 ^ 9 - 10 ^ 7 }
    else l)

def ticks (data : CornData) : TickerLoop → List Tick → Option TickerLoop
  | l, [] => some l
  | l, t :: ts => (l.tick data t).bind (ticks data · ts)

theorem matchCornData_some (data : CornData) (time : Time) :
    ∃ b, matchCornData data time = some b :=
  ⟨_, allM_some (p := fun x : ByteSliceBitSet × Int => matchBitSet x.1 x.2)
    (q := fun x => (decide (0 ≤ x.2) && x.1.bitAt x.2.toNat) || x.1.isEmpty)
    fun x _ => matchBitSet_eq x.1 x.2⟩

structure Inv (p : Int) (l : TickerLoop) : Prop where
  firstExecute : l.firstExecute = true
  period : l.period = p
  latest : l.latestTaskExecuteTimestamp = l.started.getLast?.getD 0
  sorted : l.started.Pairwise (· < ·)

theorem inv_init (startNano : Int) : Inv (offset startNano) (init startNano) :=
  ⟨rfl, rfl, rfl, List.Pairwise.nil⟩

theorem tick_spec {data : CornData} {p : Int} {l : TickerLoop} (hl : Inv p l) (t : Tick)
    (hle : ∀ u ∈ l.started, u ≤ t.unix) :
    ∃ l', l.tick data t = some l' ∧ Inv p l' ∧ (∀ u ∈ l'.started, u ≤ t.unix) ∧
      (l'.started = l.started ∨
        l'.started = l.started ++ [t.unix] ∧ matchCornData data t.time = some true) ∧
      (matchCornData data t.time = some true → t.unix ≠ 0 → t.unix ∈ l'.started) := by
  obtain ⟨b, hb⟩ := matchCornData_some data t.time
  by_cases hnew : b = true ∧ t.unix ≠ l.latestTaskExecuteTimestamp
  · obtain ⟨rfl, hne⟩ := hnew
    have hlast : ∀ u ∈ l.started, u < t.unix := by
      intro u hu
      rcases List.eq_nil_or_concat l.started with h | ⟨us, v, hv⟩
      · simp [h] at hu
      · rw [List.concat_eq_append] at hv
        have hv' : t.unix ≠ v := by
          rwa [hl.latest, hv, List.getLast?_concat, Option.getD_some] at hne
        have hvle : v ≤ t.unix := hle v (by simp [hv])
        have hs := hl.sorted
        rw [hv] at hs hu
        rcases List.mem_append.mp hu with hu | hu
        · have := (List.pairwise_append.mp hs).2.2 u hu v (List.mem_singleton_self v)
          omega
        · rw [List.mem_singleton.mp hu]
          omega
    refine ⟨{ l with started := l.started ++ [t.unix], latestTaskExecuteTimestamp := t.unix },
      by simp [tick, hb, hne, hl.firstExecute], ⟨hl.firstExecute, hl.period, by simp, ?_⟩, ?_,
      .inr ⟨rfl, hb⟩, fun _ _ => by simp⟩
    · exact List.pairwise_append.mpr ⟨hl.sorted, List.pairwise_singleton _ _,
        fun u hu v hv => by rw [List.mem_singleton.mp hv]; exact hlast u hu⟩
    · intro u hu
      rcases List.mem_append.mp hu with hu | hu
      · exact hle u hu
      · exact le_of_eq (List.mem_singleton.mp hu)
  · have heq : b = true → t.unix = l.latestTaskExecuteTimestamp := fun hbt => by
      by_contra h
      exact hnew ⟨hbt, h⟩
    have hstep : l.tick data t = some l := by
      cases b
      · simp [tick, hb, hl.firstExecute]
      · simp [tick, hb, heq rfl, hl.firstExecute]
    refine ⟨l, hstep, hl, hle, .inl rfl, fun hm h0 => ?_⟩
    rw [hb, Option.some.injEq] at hm
    rw [heq hm, hl.latest] at h0 ⊢
    cases h : l.started.getLast? with
    | none => simp [h] at h0
    | some v => exact List.mem_of_mem_getLast? h

theorem ticks_spec {data : CornData} {p : Int} {ts : List Tick} {l : TickerLoop} (hl : Inv p l)
    (hsorted : ts.Pairwise (fun a b => a.unix ≤ b.unix)) (hle : ∀ t ∈ ts, ∀ u ∈ l.started, u ≤ t.unix) :
    ∃ l', ticks data l ts = some l' ∧ Inv p l' ∧ l.started <+: l'.started ∧
      (∀ u ∈ l'.started, u ∈ l.started ∨
        ∃ t ∈ ts, t.unix = u ∧ matchCornData data t.time = some true) ∧
      (∀ t ∈ ts, matchCornData data t.time = some true → t.unix ≠ 0 → t.unix ∈ l'.started) := by
  induction ts generalizing l with
  | nil => exact ⟨l, rfl, hl, List.prefix_refl _, fun u hu => .inl hu, fun _ h => absurd h (List.not_mem_nil _)⟩
  | cons t ts ih =>
    obtain ⟨ht, hts⟩ := List.pairwise_cons.mp hsorted
    obtain ⟨l₁, h₁, hl₁, hle₁, hgrow, hmatch⟩ := @tick_spec data _ _ hl t (hle t (.head _))
    obtain ⟨l', h', hl', hpre, hfrom, hall⟩ := ih hl₁ hts
      (fun t' ht' u hu => (hle₁ u hu).trans (ht t' ht'))
    have hpre₁ : l.started <+: l₁.started := by
      rcases hgrow with h | ⟨h, -⟩ <;> rw [h]
      exact List.prefix_append _ _
    refine ⟨l', by simp [ticks, h₁, h'], hl', hpre₁.trans hpre, fun u hu => ?_, ?_⟩
    · rcases hfrom u hu with hu | ⟨t', ht', rfl, hm⟩
      · rcases hgrow with h | ⟨h, hm⟩
        · rw [h] at hu
          exact .inl hu
        · rw [h] at hu
          rcases List.mem_append.mp hu with hu | hu
          · exact .inl hu
          · exact .inr ⟨t, .head _, (List.mem_singleton.mp hu).symm, hm⟩
      · exact .inr ⟨t', .tail _ ht', rfl, hm⟩
    · intro t' ht' hm h0
      rcases List.mem_cons.mp ht' with rfl | ht'
      · exact hpre.subset (hmatch hm h0)
      · exact hall t' ht' hm h0

/-- On every sequence of ticks whose clock never goes back, from any start time and for any
parsed expression: the loop never panics, starts its task goroutines in strictly increasing
Unix seconds (so at most one in any second), each in the second of a tick that matches the
expression, and one in the second of every matching tick but the second `0`; and the ticker
keeps the period it was made with, the offset to the first whole second. -/
theorem cornTicker_starts_once_per_matching_second (data : CornData) (startNano : Int)
    {ts : List Tick} (hts : ts.Pairwise (fun a b => a.unix ≤ b.unix)) :
    ∃ l, ticks data (init startNano) ts = some l ∧ l.started.Pairwise (· < ·) ∧
      (∀ u ∈ l.started, ∃ t ∈ ts, t.unix = u ∧ matchCornData data t.time = some true) ∧
      (∀ t ∈ ts, matchCornData data t.time = some true → t.unix ≠ 0 → t.unix ∈ l.started) ∧
      l.period = offset startNano := by
  obtain ⟨l, h, hl, -, hfrom, hall⟩ := @ticks_spec data _ ts _ (inv_init startNano) hts
    (fun _ _ _ hu => absurd hu (List.not_mem_nil _))
  refine ⟨l, h, hl.sorted, fun u hu => ?_, hall, hl.period⟩
  rcases hfrom u hu with hu | h
  · exact absurd hu (List.not_mem_nil _)
  · exact h

theorem cornTicker_starts_once_per_matching_second_at_second_five :
    let at5 : Time := ⟨5, 0, 0, 1, 1, 4, 1970, by decide, by decide, by decide, by decide,
      by decide, by decide⟩
    let at6 : Time := ⟨6, 0, 0, 1, 1, 4, 1970, by decide, by decide, by decide, by decide,
      by decide, by decide⟩
    let empty := ByteSliceBitSet.newByteSliceBitSet
    let data : CornData := ⟨⟨[32], 1⟩, empty, empty, empty, empty, empty, empty⟩
    let ts : List Tick := [⟨5, at5⟩, ⟨5, at5⟩, ⟨6, at6⟩]
    ts.Pairwise (fun a b => a.unix ≤ b.unix) ∧
      ∃ l, ticks data (init 0) ts = some l ∧ l.started.Pairwise (· < ·) ∧
        (∀ u ∈ l.started, ∃ t ∈ ts, t.unix = u ∧ matchCornData data t.time = some true) ∧
        (∀ t ∈ ts, matchCornData data t.time = some true → t.unix ≠ 0 → t.unix ∈ l.started) ∧
        l.period = offset 0 :=
  ⟨by decide, cornTicker_starts_once_per_matching_second _ 0 (by decide)⟩

/-- When the wall clock goes back, a second can have two task goroutines: the loop compares
with the last second only. -/
example :
    let at5 : Time := ⟨5, 0, 0, 1, 1, 4, 1970, by decide, by decide, by decide, by decide,
      by decide, by decide⟩
    let at6 : Time := ⟨6, 0, 0, 1, 1, 4, 1970, by decide, by decide, by decide, by decide,
      by decide, by decide⟩
    let empty := ByteSliceBitSet.newByteSliceBitSet
    ((ticks ⟨empty, empty, empty, empty, empty, empty, empty⟩ (init 0)
      [⟨5, at5⟩, ⟨6, at6⟩, ⟨5, at5⟩]).map (·.started)) = some [5, 6, 5] := by
  decide

end TickerLoop

end Matcha.Task
