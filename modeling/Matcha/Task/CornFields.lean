import Matcha.Task.Corn

/-! # Cron fields: what the parser sets, and which times match

The forms of a field (`*`, `a-b`, `a,b,...`, `*/s`, `a-b/s`) and the set each stands for in
`[min, max]`, against what `setBitSet` and `matchBitSet` do with it. -/
namespace Matcha.Task

open Matcha.Util Matcha.Util.ByteSliceBitSet Outcome

/-- A field in one of the forms of the cron syntax. -/
inductive Field where
  | all
  | range (a b : List Char)
  | list (first : List Char) (rest : List (List Char))
  | allStep (s : List Char)
  | rangeStep (a b s : List Char)
  deriving DecidableEq, Repr

namespace Field

def text : Field → List Char
  | all => ['*']
  | range a b => a ++ '-' :: b
  | list first rest => join ',' first rest
  | allStep s => '*' :: '/' :: s
  | rangeStep a b s => a ++ '-' :: b ++ '/' :: s

def isNumber (p : List Char) : Bool := isDigits p && decide (digitsValue p < 2 ^ 63)

/-- A step of at least one that `int` adds to a value up to `59` without overflowing. -/
def isStep (s : List Char) : Bool :=
  isNumber s && decide (1 ≤ digitsValue s) && decide (digitsValue s + 60 ≤ 2 ^ 63)

/-- A range start below `2^63 - 512`. From there up to the largest `int`, `float64` rounds it
to `2^63`, which `int` turns into `-2^63`, and the range's loop starts from there. -/
def startFits (a : List Char) : Bool := decide (digitsValue a < 2 ^ 63 - 512)

def valid : Field → Bool
  | all => true
  | range a b => isNumber a && startFits a && isNumber b
  | list first rest => isNumber first && rest.all isNumber
  | allStep s => isStep s
  | rangeStep a b s => isNumber a && startFits a && isNumber b && isStep s

/-- The forms with decimal numbers of any size, a step of at least one, and a range start that
fits or that `Atoi` rejects. -/
def wellFormed : Field → Bool
  | all => true
  | range a b => isDigits a && isDigits b && (startFits a || !isNumber a)
  | list first rest => isDigits first && rest.all isDigits
  | allStep s => isDigits s && decide (1 ≤ digitsValue s)
  | rangeStep a b s =>
    isDigits a && isDigits b && isDigits s && decide (1 ≤ digitsValue s) &&
      (startFits a || !isNumber a)

/-- The set a field stands for in `[min, max]`: `*` is all of it, `a-b` is
`[max(a, min), min(b, max)]`, a list is its members within `[min, max]`, and a step form is the
progression from its range's start by `s` up to the range's end. -/
def denotes (min max : Int) : Field → Int → Bool
  | all, n => decide (min ≤ n ∧ n ≤ max)
  | range a b, n => decide (Max.max (digitsValue a : Int) min ≤ n ∧ n ≤ Min.min (digitsValue b : Int) max)
  | list first rest, n =>
    decide (min ≤ n ∧ n ≤ max) && (first :: rest).any fun p => (digitsValue p : Int) == n
  | allStep s, n => decide (onProgression min max (digitsValue s) n)
  | rangeStep a b s, n =>
    decide (onProgression (Max.max (digitsValue a : Int) min) (Min.min (digitsValue b : Int) max)
      (digitsValue s) n)

/-- A value matches a field when it lies in the field's set, or when that set is empty. -/
def Matches (f : Field) (min max v : Int) : Prop :=
  f.denotes min max v = true ∨ ∀ n, f.denotes min max n = false

/-- What `setBitSet` leaves for field `f`: the bits of its set (none for `*`), with `IsEmpty`
exact. -/
structure Represents (f : Field) (min max : Int) (t : ByteSliceBitSet) : Prop where
  emptyExact : EmptyExact t
  bitAt_iff : ∀ n : Nat, t.bitAt n = true ↔ f ≠ all ∧ f.denotes min max n = true

theorem isDigits_eq_false_of_mem {s : List Char} {c : Char} (hc : c ∈ s)
    (hd : c.isDigit = false) : isDigits s = false :=
  Bool.eq_false_iff.mpr fun h => not_mem_of_isDigits h hd hc

theorem regexpAll_of_mem {s : List Char} {c : Char} (hc : c ∈ s) (h : c ≠ '*') :
    regexpAll s = false := by
  simp only [regexpAll, beq_eq_false_iff_ne]
  rintro rfl
  exact h (List.mem_singleton.mp hc)

theorem regexpAll_digits_append {a : List Char} (ha : isDigits a = true) (rest : List Char) :
    regexpAll (a ++ rest) = false := by
  obtain ⟨hne, hall⟩ := isDigits_iff.mp ha
  obtain ⟨c, cs, rfl⟩ := List.exists_cons_of_ne_nil hne
  refine regexpAll_of_mem (List.mem_cons_self c _) fun h => ?_
  have := hall c (List.mem_cons_self c cs)
  rw [h] at this
  exact absurd this (by decide)

theorem isNumber_iff {p : List Char} :
    isNumber p = true ↔ isDigits p = true ∧ digitsValue p < 2 ^ 63 := by
  simp [isNumber]

theorem isStep_iff {s : List Char} :
    isStep s = true ↔ isNumber s = true ∧ 1 ≤ digitsValue s ∧ digitsValue s + 60 ≤ 2 ^ 63 := by
  simp [isStep, and_assoc]

theorem wellFormed_of_valid {f : Field} (hf : f.valid = true) : f.wellFormed = true := by
  cases f <;> simp_all [valid, wellFormed, isNumber, isStep]

theorem splitOn_range {a b : List Char} (ha : isDigits a = true) (hb : isDigits b = true) :
    (a ++ '-' :: b).splitOn '-' = [a, b] := by
  rw [splitOn_append_cons _ (not_mem_of_isDigits ha (by decide)),
    splitOn_single (not_mem_of_isDigits hb (by decide))]

theorem regexpRange_range {a b : List Char} (ha : isDigits a = true) (hb : isDigits b = true) :
    regexpRange (a ++ '-' :: b) = true := by
  simp [regexpRange, splitOn_range ha hb, ha, hb]

theorem not_mem_join {c sep : Char} (hc : c ≠ sep) {first : List Char}
    {rest : List (List Char)} (h₁ : c ∉ first) (h₂ : ∀ p ∈ rest, c ∉ p) :
    c ∉ join sep first rest := by
  simp only [join, List.mem_append, List.mem_flatMap, List.mem_cons, not_or, not_exists, not_and]
  exact ⟨h₁, fun p hp => ⟨hc, h₂ p hp⟩⟩

theorem regexpRange_of_not_mem {s : List Char} (h : '-' ∉ s) : regexpRange s = false := by
  simp [regexpRange, splitOn_single h]

theorem regexpDisperse_of_not_mem {s : List Char} (h : ',' ∉ s) (hd : isDigits s = false) :
    regexpDisperse s = false := by
  simp [regexpDisperse, splitOn_single h, hd]

theorem self_mem_tails {α : Type} (l : List α) : l ∈ l.tails := by
  cases l <;> simp [List.tails]

section Rules

variable {min max : Int} {fuel : Nat}

theorem setBitSet_all (target : ByteSliceBitSet) :
    ∃ t, setBitSet target all.text min max fuel = ok t ∧ all.Represents min max t :=
  ⟨reset, rfl, emptyExact_reset, fun n => by simp⟩

theorem setBitSet_range_eq {a b : List Char} (ha : isDigits a = true) (hb : isDigits b = true)
    (target : ByteSliceBitSet) :
    setBitSet target (range a b).text min max fuel =
      (ofExcept (atoi a) >>= fun start => ofExcept (atoi b) >>= fun stop =>
        setLoop reset (floatMax start min) (floatMin stop max) 1 fuel) := by
  simp only [setBitSet, text, trySetBitSetAll, regexpAll_digits_append ha, Bool.false_eq_true,
    if_false, orElse_none, trySetBitSetRange, regexpRange_range ha hb, if_true,
    splitOn_range ha hb, index_zero, index_succ, ok_bind, orElse_bind, orElse_map_some]

theorem setBitSet_list_eq {first : List Char} {rest : List (List Char)}
    (hd : ∀ p ∈ first :: rest, isDigits p = true) (target : ByteSliceBitSet) :
    setBitSet target (list first rest).text min max fuel =
      setDisperse min max reset (first :: rest) := by
  have hfirst := hd first (List.mem_cons_self _ _)
  have hrest : ∀ p ∈ rest, isDigits p = true := fun p hp => hd p (List.mem_cons_of_mem _ hp)
  have hdash : '-' ∉ join ',' first rest := not_mem_join (by decide)
    (not_mem_of_isDigits hfirst (by decide)) fun p hp => not_mem_of_isDigits (hrest p hp) (by decide)
  have hsplit := splitOn_join (fun p hp => not_mem_of_isDigits (c := ',') (hrest p hp) (by decide))
    (not_mem_of_isDigits hfirst (by decide))
  have hdisp : regexpDisperse (join ',' first rest) = true := by
    simpa only [regexpDisperse, hsplit, List.all_eq_true] using hd
  simp only [setBitSet, text, trySetBitSetAll, join, regexpAll_digits_append hfirst,
    Bool.false_eq_true, if_false, orElse_none, trySetBitSetRange]
  rw [← join, regexpRange_of_not_mem hdash]
  simp only [Bool.false_eq_true, if_false, orElse_none, trySetBitSetDisperse, hdisp, if_true,
    hsplit, orElse_map_some]

theorem setBitSet_allStep_eq {s : List Char} (hd : isDigits s = true) (target : ByteSliceBitSet) :
    setBitSet target (allStep s).text min max fuel =
      (ofExcept (atoi s) >>= fun step => setLoop target min max step fuel) := by
  have hsplit : ('*' :: '/' :: s).splitOn '/' = [['*'], s] := by
    rw [show '*' :: '/' :: s = ['*'] ++ '/' :: s from rfl, splitOn_append_cons _ (by decide),
      splitOn_single (not_mem_of_isDigits hd (by decide))]
  have hstar : '*' ∈ '*' :: '/' :: s := List.mem_cons_self _ _
  have hdash : '-' ∉ '*' :: '/' :: s := by simpa using not_mem_of_isDigits hd (by decide)
  have hcomma : ',' ∉ '*' :: '/' :: s := by simpa using not_mem_of_isDigits hd (by decide)
  simp only [setBitSet, text, trySetBitSetAll,
    regexpAll_of_mem (List.mem_cons_of_mem _ (List.mem_cons_self '/' s)) (by decide),
    Bool.false_eq_true, if_false, orElse_none, trySetBitSetRange,
    regexpRange_of_not_mem hdash, trySetBitSetDisperse,
    regexpDisperse_of_not_mem hcomma (isDigits_eq_false_of_mem hstar (by decide)),
    trySetBitSetStep, regexpStep, List.head?_cons, beq_self_eq_true, Bool.true_or, if_true,
    hsplit, index_zero, index_succ, ok_bind]
  simp only [show regexpAll ['*'] = true from rfl, show regexpRange ['*'] = false from rfl,
    if_true, Bool.false_eq_true, if_false, pure_eq, ok_bind, orElse_bind, orElse_map_some]

theorem setBitSet_rangeStep_eq {a b s : List Char} (ha : isDigits a = true)
    (hb : isDigits b = true) (hd : isDigits s = true) (target : ByteSliceBitSet) :
    setBitSet target (rangeStep a b s).text min max fuel =
      (ofExcept (atoi a) >>= fun start => ofExcept (atoi b) >>= fun stop =>
        ofExcept (atoi s) >>= fun step =>
          setLoop target (floatMax start min) (floatMin stop max) step fuel) := by
  have hassoc : a ++ '-' :: b ++ '/' :: s = a ++ '-' :: (b ++ '/' :: s) := by simp
  have hsplit : (a ++ '-' :: b ++ '/' :: s).splitOn '/' = [a ++ '-' :: b, s] := by
    rw [splitOn_append_cons _ (by simpa using ⟨not_mem_of_isDigits ha (by decide),
      not_mem_of_isDigits hb (by decide)⟩), splitOn_single (not_mem_of_isDigits hd (by decide))]
  have hall : regexpAll (a ++ '-' :: b ++ '/' :: s) = false := by
    rw [hassoc]; exact regexpAll_digits_append ha _
  have hnotRange : regexpRange (a ++ '-' :: b ++ '/' :: s) = false := by
    have hb' : isDigits (b ++ '/' :: s) = false :=
      isDigits_eq_false_of_mem (c := '/') (by simp) (by decide)
    have : '-' ∉ b ++ '/' :: s := by
      simpa using ⟨not_mem_of_isDigits hb (by decide), not_mem_of_isDigits hd (by decide)⟩
    simp only [regexpRange, hassoc,
      splitOn_append_cons _ (not_mem_of_isDigits (c := '-') ha (by decide)),
      splitOn_single this, hb', Bool.and_false]
  have hnotList : regexpDisperse (a ++ '-' :: b ++ '/' :: s) = false :=
    regexpDisperse_of_not_mem (by simpa using ⟨not_mem_of_isDigits (c := ',') ha (by decide),
        not_mem_of_isDigits (c := ',') hb (by decide),
        not_mem_of_isDigits (c := ',') hd (by decide)⟩)
      (isDigits_eq_false_of_mem (c := '-') (by simp) (by decide))
  have hstep : regexpStep (a ++ '-' :: b ++ '/' :: s) = true := by
    simp only [regexpStep, Bool.or_eq_true, List.any_eq_true]
    refine .inr ⟨_, self_mem_tails _, ?_⟩
    simp only [rangeStepSuffix, hsplit, regexpRange_range ha hb, hd, Bool.and_self]
  simp only [setBitSet, text, trySetBitSetAll, hall, Bool.false_eq_true, if_false, orElse_none,
    trySetBitSetRange, hnotRange, trySetBitSetDisperse, hnotList, trySetBitSetStep, hstep,
    if_true, hsplit, index_zero, index_succ, ok_bind, regexpAll_digits_append ha,
    regexpRange_range ha hb, splitOn_range ha hb, pure_eq, bind_bind, orElse_bind,
    orElse_map_some]

theorem setLoop_range {a b step : Int} (ha : 0 ≤ a) (ha' : a < 2 ^ 63 - 512) (hb : 0 ≤ b)
    (hmin : -1 ≤ min) (hmm : min ≤ max) (hmax : max ≤ 59) (hs : 1 ≤ step)
    (hov : step + 60 ≤ 2 ^ 63) (hfuel : (max + 1 - min).toNat < fuel) (target : ByteSliceBitSet) :
    ∃ t, setLoop target (floatMax a min) (floatMin b max) step fuel = ok t ∧
      (∀ n : Nat, t.bitAt n = true ↔
        target.bitAt n = true ∨ onProgression (Max.max a min) (Min.min b max) step n) ∧
      (EmptyExact target → EmptyExact t) := by
  rw [floatMin_eq hb (by omega) hmax]
  obtain ⟨h₁, h₂⟩ := floatMax_bounds ha ha' hmin (by omega)
  obtain ⟨t, hl, hbits, he⟩ := @setLoop_spec (Min.min b max) step hs (by omega) (by omega) fuel
    target (floatMax a min) (by omega) (by omega)
  exact ⟨t, hl, fun n => by rw [hbits, onProgression_floatMax ha ha' hmin (by omega) (by omega)], he⟩

theorem startFits_iff {a : List Char} : startFits a = true ↔ (digitsValue a : Int) < 2 ^ 63 - 512 := by
  simp only [startFits, decide_eq_true_eq]
  omega

theorem setBitSet_range {a b : List Char} (ha : isNumber a = true) (hs : startFits a = true)
    (hb : isNumber b = true) (hmin : -1 ≤ min) (hmm : min ≤ max) (hmax : max ≤ 59)
    (hfuel : (max + 1 - min).toNat < fuel) (target : ByteSliceBitSet) :
    ∃ t, setBitSet target (range a b).text min max fuel = ok t ∧
      (range a b).Represents min max t := by
  rw [isNumber_iff] at ha hb
  obtain ⟨t, hl, hbits, he⟩ := setLoop_range (Int.ofNat_nonneg _) (startFits_iff.mp hs)
    (Int.ofNat_nonneg (digitsValue b)) hmin hmm hmax (le_refl 1) (by decide) hfuel reset
  refine ⟨t, ?_, he emptyExact_reset, fun n => ?_⟩
  · rw [setBitSet_range_eq ha.1 hb.1, atoi_digits ha.1 ha.2, atoi_digits hb.1 hb.2]
    exact hl
  · rw [hbits]
    simp [onProgression, denotes, bitAt_reset, Int.one_dvd]

theorem setBitSet_list {first : List Char} {rest : List (List Char)}
    (hv : (list first rest).valid = true) (hmax : max ≤ 59) (target : ByteSliceBitSet) :
    ∃ t, setBitSet target (list first rest).text min max fuel = ok t ∧
      (list first rest).Represents min max t := by
  simp only [valid, Bool.and_eq_true, List.all_eq_true] at hv
  have hnum : ∀ p ∈ first :: rest, isDigits p = true ∧ digitsValue p < 2 ^ 63 := by
    intro p hp
    rcases List.mem_cons.mp hp with rfl | hp
    · exact isNumber_iff.mp hv.1
    · exact isNumber_iff.mp (hv.2 p hp)
  obtain ⟨t, hl, hbits, he⟩ := setDisperse_spec hmax (first :: rest) reset
  refine ⟨t, (setBitSet_list_eq (fun p hp => (hnum p hp).1) target).trans hl,
    he emptyExact_reset, fun n => ?_⟩
  rw [hbits]
  simp only [bitAt_reset, Bool.false_eq_true, false_or, denotes, ne_eq, reduceCtorEq,
    not_false_eq_true, true_and, Bool.and_eq_true, decide_eq_true_eq, List.any_eq_true,
    beq_iff_eq]
  constructor
  · rintro ⟨h₁, h₂, p, hp, h⟩
    rw [atoi_digits (hnum p hp).1 (hnum p hp).2] at h
    exact ⟨⟨h₁, h₂⟩, p, hp, Except.ok.inj h⟩
  · rintro ⟨⟨h₁, h₂⟩, p, hp, h⟩
    exact ⟨h₁, h₂, p, hp, by rw [atoi_digits (hnum p hp).1 (hnum p hp).2, h]⟩

theorem setBitSet_allStep {s : List Char} (hs : isStep s = true)
    (hmin : -1 ≤ min) (hmax : max ≤ 59) (hfuel : (max + 1 - min).toNat < fuel) :
    ∃ t, setBitSet newByteSliceBitSet (allStep s).text min max fuel = ok t ∧
      (allStep s).Represents min max t := by
  obtain ⟨hnum, h1, hov⟩ := isStep_iff.mp hs
  obtain ⟨hd, hv⟩ := isNumber_iff.mp hnum
  obtain ⟨t, hl, hbits, he⟩ := @setLoop_spec max (digitsValue s) (by omega) (by omega) hmax fuel
    newByteSliceBitSet min (by omega) (by omega)
  refine ⟨t, ?_, he emptyExact_reset, fun n => ?_⟩
  · rw [setBitSet_allStep_eq hd, atoi_digits hd hv]
    exact hl
  · rw [hbits]
    simp [denotes, show newByteSliceBitSet = reset from rfl]

theorem setBitSet_rangeStep {a b s : List Char} (ha : isNumber a = true) (hs₀ : startFits a = true)
    (hb : isNumber b = true) (hs : isStep s = true) (hmin : -1 ≤ min) (hmm : min ≤ max)
    (hmax : max ≤ 59) (hfuel : (max + 1 - min).toNat < fuel) :
    ∃ t, setBitSet newByteSliceBitSet (rangeStep a b s).text min max fuel = ok t ∧
      (rangeStep a b s).Represents min max t := by
  rw [isNumber_iff] at ha hb
  obtain ⟨hnum, h1, hov⟩ := isStep_iff.mp hs
  obtain ⟨hd, hv⟩ := isNumber_iff.mp hnum
  obtain ⟨t, hl, hbits, he⟩ := setLoop_range (Int.ofNat_nonneg _) (startFits_iff.mp hs₀)
    (Int.ofNat_nonneg (digitsValue b)) hmin hmm hmax (show (1 : Int) ≤ digitsValue s by omega)
    (by omega) hfuel newByteSliceBitSet
  refine ⟨t, ?_, he emptyExact_reset, fun n => ?_⟩
  · rw [setBitSet_rangeStep_eq ha.1 hb.1 hd, atoi_digits ha.1 ha.2, atoi_digits hb.1 hb.2,
      atoi_digits hd hv]
    exact hl
  · rw [hbits]
    simp [denotes, show newByteSliceBitSet = reset from rfl]

theorem setBitSet_field {f : Field} (hf : f.valid = true) (hmin : -1 ≤ min) (hmm : min ≤ max)
    (hmax : max ≤ 59) (hfuel : (max + 1 - min).toNat < fuel) :
    ∃ t, setBitSet newByteSliceBitSet f.text min max fuel = ok t ∧ f.Represents min max t := by
  cases f with
  | all => exact setBitSet_all _
  | range a b =>
    simp only [valid, Bool.and_eq_true] at hf
    exact setBitSet_range hf.1.1 hf.1.2 hf.2 hmin hmm hmax hfuel _
  | list first rest => exact setBitSet_list hf hmax _
  | allStep s => exact setBitSet_allStep hf hmin hmax hfuel
  | rangeStep a b s =>
    simp only [valid, Bool.and_eq_true] at hf
    exact setBitSet_rangeStep hf.1.1.1 hf.1.1.2 hf.1.2 hf.2 hmin hmm hmax hfuel

theorem floatBounds_of_atoi {a b : List Char} (hwf : (startFits a || !isNumber a) = true)
    (ha : isDigits a = true) (hb : isDigits b = true) {start stop : Int}
    (hs : atoi a = .ok start) (ht : atoi b = .ok stop) (hmin : -1 ≤ min) (hmm : min ≤ max)
    (hmax : max ≤ 59) :
    -1 ≤ floatMax start min ∧ floatMax start min < 2 ^ 63 ∧ floatMin stop max ≤ 59 := by
  obtain ⟨rfl, hv⟩ := atoi_eq_ok ha hs
  obtain ⟨rfl, -⟩ := atoi_eq_ok hb ht
  have hnum : isNumber a = true := isNumber_iff.mpr ⟨ha, hv⟩
  rw [hnum, Bool.not_true, Bool.or_false] at hwf
  obtain ⟨h₁, h₂⟩ := floatMax_bounds (Int.ofNat_nonneg _) (startFits_iff.mp hwf) hmin (by omega)
  rw [floatMin_eq (Int.ofNat_nonneg _) (by omega) hmax]
  omega

/-- Every well-formed field returns from a new bit set, given fuel for 241 loop rounds: a bit
set, or the error of `Atoi` on a number too large for `int`; a step that wraps past `2^63` still
ends. -/
theorem setBitSet_returns {f : Field} (hf : f.wellFormed = true) (hmin : -1 ≤ min)
    (hmm : min ≤ max) (hmax : max ≤ 59) (hfuel : 241 ≤ fuel) :
    (setBitSet newByteSliceBitSet f.text min max fuel).returns = true := by
  have hloop : ∀ {i stop step : Int}, 1 ≤ step → step < 2 ^ 63 → stop ≤ 59 → -1 ≤ i →
      i < 2 ^ 63 → ∀ target, (setLoop target i stop step fuel).returns = true :=
    fun h1 hs hstop hi hi' target => by
      obtain ⟨t, ht⟩ := setLoop_returns h1 hs hstop hi hi' hfuel target
      rw [ht]; rfl
  cases f with
  | all => rfl
  | range a b =>
    simp only [wellFormed, Bool.and_eq_true] at hf
    obtain ⟨⟨ha, hb⟩, hwf⟩ := hf
    rw [setBitSet_range_eq ha hb]
    refine returns_ofExcept_bind fun start hs => returns_ofExcept_bind fun stop ht => ?_
    obtain ⟨h₁, h₂, h₃⟩ := floatBounds_of_atoi hwf ha hb hs ht hmin hmm hmax
    exact hloop (le_refl 1) (by decide) h₃ h₁ h₂ _
  | list first rest =>
    simp only [wellFormed, Bool.and_eq_true, List.all_eq_true] at hf
    rw [setBitSet_list_eq fun p hp => (List.mem_cons.mp hp).elim (· ▸ hf.1) (hf.2 p)]
    obtain ⟨t, ht, -⟩ := setDisperse_spec hmax (first :: rest) reset
    rw [ht]; rfl
  | allStep s =>
    simp only [wellFormed, Bool.and_eq_true, decide_eq_true_eq] at hf
    rw [setBitSet_allStep_eq hf.1]
    refine returns_ofExcept_bind fun step hs => ?_
    have := atoi_eq_ok hf.1 hs
    exact hloop (by omega) (by omega) hmax hmin (by omega) _
  | rangeStep a b s =>
    simp only [wellFormed, Bool.and_eq_true, decide_eq_true_eq] at hf
    obtain ⟨⟨⟨⟨ha, hb⟩, hd⟩, h1⟩, hwf⟩ := hf
    rw [setBitSet_rangeStep_eq ha hb hd]
    refine returns_ofExcept_bind fun start hs₀ => returns_ofExcept_bind fun stop ht =>
      returns_ofExcept_bind fun step hs => ?_
    obtain ⟨h₁, h₂, h₃⟩ := floatBounds_of_atoi hwf ha hb hs₀ ht hmin hmm hmax
    have := atoi_eq_ok hd hs
    exact hloop (by omega) (by omega) h₃ h₁ h₂ _

end Rules

theorem space_not_mem_text {f : Field} (hf : f.wellFormed = true) : ' ' ∉ f.text := by
  have hnum : ∀ {p}, isDigits p = true → ' ' ∉ p := fun hp => not_mem_of_isDigits hp (by decide)
  cases f with
  | all => decide
  | range a b =>
    simp only [wellFormed, Bool.and_eq_true] at hf
    simpa [text] using ⟨hnum hf.1.1, hnum hf.1.2⟩
  | list first rest =>
    simp only [wellFormed, Bool.and_eq_true, List.all_eq_true] at hf
    exact not_mem_join (by decide) (hnum hf.1) fun p hp => hnum (hf.2 p hp)
  | allStep s =>
    simp only [wellFormed, Bool.and_eq_true] at hf
    simpa [text] using hnum hf.1
  | rangeStep a b s =>
    simp only [wellFormed, Bool.and_eq_true] at hf
    simpa [text] using ⟨hnum hf.1.1.1.1, hnum hf.1.1.1.2, hnum hf.1.1.2⟩

theorem denotes_mem {f : Field} {min max n : Int} (h : f.denotes min max n = true) :
    min ≤ n ∧ n ≤ max := by
  cases f <;> simp only [denotes, onProgression, Bool.and_eq_true, decide_eq_true_eq] at h <;>
    omega

end Field

open Field

structure CornExp where
  seconds : Field
  minutes : Field
  hours : Field
  days : Field
  months : Field
  weekdays : Field
  years : Field
  last : List Char
  deriving DecidableEq, Repr

namespace CornExp

def text (e : CornExp) : List Char :=
  join ' ' e.seconds.text [e.minutes.text, e.hours.text, e.days.text, e.months.text,
    e.weekdays.text, e.years.text, e.last]

def valid (e : CornExp) : Bool :=
  e.seconds.valid && e.minutes.valid && e.hours.valid && e.days.valid && e.months.valid &&
    e.weekdays.valid && e.years.valid && decide ('?' ∈ e.last) && decide (' ' ∉ e.last)

def wellFormed (e : CornExp) : Bool :=
  e.seconds.wellFormed && e.minutes.wellFormed && e.hours.wellFormed && e.days.wellFormed &&
    e.months.wellFormed && e.weekdays.wellFormed && e.years.wellFormed &&
    decide ('?' ∈ e.last) && decide (' ' ∉ e.last)

theorem wellFormed_of_valid {e : CornExp} (he : e.valid = true) : e.wellFormed = true := by
  simp only [valid, wellFormed, Bool.and_eq_true] at he ⊢
  simp [he, Field.wellFormed_of_valid]

theorem splitCornExpression_text {e : CornExp} (he : e.wellFormed = true) :
    splitCornExpression e.text = .ok [e.seconds.text, e.minutes.text, e.hours.text, e.days.text,
      e.months.text, e.weekdays.text, e.years.text, e.last] := by
  simp only [wellFormed, Bool.and_eq_true, decide_eq_true_eq] at he
  obtain ⟨⟨⟨⟨⟨⟨⟨⟨h₀, h₁⟩, h₂⟩, h₃⟩, h₄⟩, h₅⟩, h₆⟩, hq⟩, hsp⟩ := he
  have hparts : ∀ p ∈ [e.seconds.text, e.minutes.text, e.hours.text, e.days.text,
      e.months.text, e.weekdays.text, e.years.text, e.last], ' ' ∉ p := by
    simp only [List.mem_cons, List.mem_singleton, List.not_mem_nil, or_false]
    rintro p (rfl | rfl | rfl | rfl | rfl | rfl | rfl | rfl)
    exacts [space_not_mem_text h₀, space_not_mem_text h₁, space_not_mem_text h₂,
      space_not_mem_text h₃, space_not_mem_text h₄, space_not_mem_text h₅,
      space_not_mem_text h₆, hsp]
  have hsplit : e.text.splitOn ' ' = _ :=
    splitOn_join (fun p hp => hparts p (List.mem_cons_of_mem _ hp))
      (hparts _ (List.mem_cons_self _ _))
  have hne : e.text ≠ [] := by simp [text, join]
  have hfilter : ∀ p ∈ [e.seconds.text, e.minutes.text, e.hours.text, e.days.text,
      e.months.text, e.weekdays.text, e.years.text, e.last], p.filter (· != ' ') = p :=
    fun p hp => List.filter_eq_self.mpr fun c hc => by
      simp only [bne_iff_ne, ne_eq]
      rintro rfl
      exact hparts p hp hc
  unfold splitCornExpression
  rw [if_neg hne, hsplit]
  simp only [List.getElem?_cons_succ, List.getElem?_cons_zero, List.length_cons, List.length_nil,
    ne_eq, not_true_eq_false, hq, not_false_eq_true, or_self, if_false, Except.ok.injEq]
  exact List.map_congr_left hfilter |>.trans (List.map_id _)

/-- A valid expression parses, given the fuel for sixty loop rounds, and every field's bit set
holds that field's set. -/
theorem parseCornExp_valid {e : CornExp} (he : e.valid = true) {fuel : Nat} (hfuel : 61 ≤ fuel) :
    ∃ d, parseCornExp e.text fuel = ok d ∧
      e.seconds.Represents secondMin secondMax d.seconds ∧
      e.minutes.Represents minuteMin minuteMax d.minutes ∧
      e.hours.Represents hourMin hourMax d.hours ∧ e.days.Represents dayMin dayMax d.days ∧
      e.months.Represents monthMin monthMax d.months ∧
      e.weekdays.Represents weekdayMin weekdayMax d.weekdays ∧
      e.years.Represents yearMin yearMax d.years := by
  have hsplit := splitCornExpression_text (wellFormed_of_valid he)
  simp only [valid, Bool.and_eq_true] at he
  obtain ⟨⟨⟨⟨⟨⟨⟨⟨h₀, h₁⟩, h₂⟩, h₃⟩, h₄⟩, h₅⟩, h₆⟩, -⟩, -⟩ := he
  obtain ⟨t₀, e₀, r₀⟩ := @setBitSet_field secondMin secondMax fuel _ h₀ (by decide) (by decide) (by decide)
    (by simp only [secondMax, secondMin]; omega)
  obtain ⟨t₁, e₁, r₁⟩ := @setBitSet_field minuteMin minuteMax fuel _ h₁ (by decide) (by decide) (by decide)
    (by simp only [minuteMax, minuteMin]; omega)
  obtain ⟨t₂, e₂, r₂⟩ := @setBitSet_field hourMin hourMax fuel _ h₂ (by decide) (by decide) (by decide)
    (by simp only [hourMax, hourMin]; omega)
  obtain ⟨t₃, e₃, r₃⟩ := @setBitSet_field dayMin dayMax fuel _ h₃ (by decide) (by decide) (by decide)
    (by simp only [dayMax, dayMin]; omega)
  obtain ⟨t₄, e₄, r₄⟩ := @setBitSet_field monthMin monthMax fuel _ h₄ (by decide) (by decide) (by decide)
    (by simp only [monthMax, monthMin]; omega)
  obtain ⟨t₅, e₅, r₅⟩ := @setBitSet_field weekdayMin weekdayMax fuel _ h₅ (by decide) (by decide) (by decide)
    (by simp only [weekdayMax, weekdayMin]; omega)
  obtain ⟨t₆, e₆, r₆⟩ := @setBitSet_field yearMin yearMax fuel _ h₆ (by decide) (by decide) (by decide)
    (by simp only [yearMax, yearMin]; omega)
  refine ⟨⟨t₀, t₁, t₂, t₃, t₄, t₅, t₆⟩, ?_, r₀, r₁, r₂, r₃, r₄, r₅, r₆⟩
  simp only [parseCornExp, hsplit, ofExcept_ok, ok_bind, index_zero, index_succ, e₀, e₁, e₂, e₃,
    e₄, e₅, e₆, pure_eq]

/-- Every well-formed expression returns from `parseCornExp`, given fuel for 241 loop rounds:
parsed data, or the error of `Atoi` on a number too large for `int`. -/
theorem parseCornExp_returns {e : CornExp} (he : e.wellFormed = true) {fuel : Nat}
    (hfuel : 241 ≤ fuel) : (parseCornExp e.text fuel).returns = true := by
  have hsplit := splitCornExpression_text he
  simp only [wellFormed, Bool.and_eq_true] at he
  obtain ⟨⟨⟨⟨⟨⟨⟨⟨h₀, h₁⟩, h₂⟩, h₃⟩, h₄⟩, h₅⟩, h₆⟩, -⟩, -⟩ := he
  simp only [parseCornExp, hsplit, ofExcept_ok, ok_bind, index_zero, index_succ]
  refine returns_bind (setBitSet_returns h₀ (by decide) (by decide) (by decide) hfuel) fun _ _ =>
    returns_bind (setBitSet_returns h₁ (by decide) (by decide) (by decide) hfuel) fun _ _ =>
    returns_bind (setBitSet_returns h₂ (by decide) (by decide) (by decide) hfuel) fun _ _ =>
    returns_bind (setBitSet_returns h₃ (by decide) (by decide) (by decide) hfuel) fun _ _ =>
    returns_bind (setBitSet_returns h₄ (by decide) (by decide) (by decide) hfuel) fun _ _ =>
    returns_bind (setBitSet_returns h₅ (by decide) (by decide) (by decide) hfuel) fun _ _ =>
    returns_bind (setBitSet_returns h₆ (by decide) (by decide) (by decide) hfuel) fun _ _ => rfl

end CornExp

theorem CornScheduler.start_returns {s : CornScheduler} {e : CornExp} (hs : s.cornExp = e.text)
    (he : e.wellFormed = true) {fuel : Nat} (hfuel : 241 ≤ fuel) :
    (s.start fuel).returns = true := by
  unfold CornScheduler.start
  split_ifs
  · rfl
  · rfl
  · rw [hs]
    exact returns_bind (CornExp.parseCornExp_returns he hfuel) fun _ _ => rfl

theorem matchBitSet_eq (source : ByteSliceBitSet) (value : Int) :
    matchBitSet source value =
      some ((decide (0 ≤ value) && source.bitAt value.toNat) || source.isEmpty) := by
  rw [matchBitSet, get_eq]
  rfl

theorem matchBitSet_eq_some_true {source : ByteSliceBitSet} {value : Int} :
    matchBitSet source value = some true ↔
      ((decide (0 ≤ value) && source.bitAt value.toNat) || source.isEmpty) = true := by
  rw [matchBitSet_eq, Option.some.injEq]

namespace Field

variable {f : Field} {min max : Int} {t : ByteSliceBitSet}

theorem matchBitSet_iff (ht : f.Represents min max t) (hmin : 0 ≤ min) {v : Int}
    (hv : min ≤ v ∧ v ≤ max) : matchBitSet t v = some true ↔ f.Matches min max v := by
  rw [matchBitSet_eq, Option.some.injEq, Bool.or_eq_true, Bool.and_eq_true, decide_eq_true_eq,
    ht.emptyExact.isEmpty_iff, Matches]
  by_cases hall : f = all
  · subst hall
    have hb : ∀ n, t.bitAt n = false := fun n =>
      Bool.eq_false_iff.mpr fun h => ((ht.bitAt_iff n).mp h).1 rfl
    simp [hb, denotes, hv]
  · have hb : ∀ n : Nat, t.bitAt n = f.denotes min max n := fun n =>
      Bool.eq_iff_iff.mpr ((ht.bitAt_iff n).trans (and_iff_right hall))
    have hvn : ((v.toNat : Nat) : Int) = v := Int.toNat_of_nonneg (by omega)
    simp only [hb, hvn]
    refine or_congr (and_iff_right (by omega)) ⟨fun h n => ?_, fun h n => h n⟩
    rcases Int.lt_or_le n 0 with hn | hn
    · exact Bool.eq_false_iff.mpr fun hd => absurd (denotes_mem hd).1 (by omega)
    · obtain ⟨k, rfl⟩ := Int.eq_ofNat_of_zero_le hn
      exact h k

theorem matchBitSet_of_neg (ht : f.Represents min max t) (hmax : max < 0) (v : Int) :
    matchBitSet t v = some true := by
  have hb : ∀ n, t.bitAt n = false := fun n =>
    Bool.eq_false_iff.mpr fun h => absurd (denotes_mem ((ht.bitAt_iff n).mp h).2).2 (by omega)
  rw [matchBitSet_eq, (ht.emptyExact.isEmpty_iff).mpr hb, Bool.or_true]

end Field

theorem allM_some {α : Type} {p : α → Option Bool} {q : α → Bool} :
    ∀ {l : List α}, (∀ x ∈ l, p x = some (q x)) → l.allM p = some (l.all q)
  | [], _ => rfl
  | x :: l, h => by
    have hl := allM_some fun y hy => h y (List.mem_cons_of_mem _ hy)
    simp only [List.allM, h x (List.mem_cons_self _ _), List.all_cons]
    cases q x <;> simp [hl]

/-- On a valid expression, `matchCornData` never panics, and a time matches when each of its
second, minute, hour, day, month and weekday matches the field for it; the year always
matches. -/
theorem matchCornData_valid {e : CornExp} (he : e.valid = true) {fuel : Nat} (hfuel : 61 ≤ fuel) :
    ∃ d, parseCornExp e.text fuel = ok d ∧ ∀ time : Time, matchCornData d time ≠ none ∧
      (matchCornData d time = some true ↔
        e.seconds.Matches secondMin secondMax time.second ∧
        e.minutes.Matches minuteMin minuteMax time.minute ∧
        e.hours.Matches hourMin hourMax time.hour ∧ e.days.Matches dayMin dayMax time.day ∧
        e.months.Matches monthMin monthMax time.month ∧
        e.weekdays.Matches weekdayMin weekdayMax time.weekday) := by
  obtain ⟨d, hd, r₀, r₁, r₂, r₃, r₄, r₅, r₆⟩ := CornExp.parseCornExp_valid he hfuel
  refine ⟨d, hd, fun time => ?_⟩
  have hall := allM_some (p := fun x : ByteSliceBitSet × Int => matchBitSet x.1 x.2)
    (q := fun x => (decide (0 ≤ x.2) && x.1.bitAt x.2.toNat) || x.1.isEmpty)
    (l := [(d.seconds, time.second), (d.minutes, time.minute), (d.hours, time.hour),
      (d.days, time.day), (d.months, time.month), (d.weekdays, time.weekday),
      (d.years, time.year)]) fun x _ => matchBitSet_eq x.1 x.2
  refine ⟨by rw [matchCornData, hall]; exact Option.some_ne_none _, ?_⟩
  rw [matchCornData, hall, Option.some.injEq, List.all_eq_true]
  simp only [List.mem_cons, List.mem_singleton, List.not_mem_nil, or_false, forall_eq_or_imp,
    forall_eq, ← matchBitSet_eq_some_true]
  rw [matchBitSet_iff r₀ (by decide) time.second_range,
    matchBitSet_iff r₁ (by decide) time.minute_range, matchBitSet_iff r₂ (by decide) time.hour_range,
    matchBitSet_iff r₃ (by decide) time.day_range, matchBitSet_iff r₄ (by decide) time.month_range,
    matchBitSet_iff r₅ (by decide) time.weekday_range,
    matchBitSet_of_neg r₆ (by decide) time.year, eq_self_iff_true, and_true]

theorem Field.head_text {f : Field} (hf : f.valid = true) :
    ∃ c, f.text.head? = some c ∧ (c.isDigit = true ∨ c = '*') := by
  have hhead : ∀ {p : List Char} (rest : List Char), isNumber p = true →
      ∃ c, (p ++ rest).head? = some c ∧ (c.isDigit = true ∨ c = '*') := fun rest hp => by
    obtain ⟨hne, hall⟩ := isDigits_iff.mp (isNumber_iff.mp hp).1
    obtain ⟨c, cs, rfl⟩ := List.exists_cons_of_ne_nil hne
    exact ⟨c, rfl, .inl (hall c (List.mem_cons_self _ _))⟩
  cases f with
  | all => exact ⟨'*', rfl, .inr rfl⟩
  | range a b =>
    simp only [valid, Bool.and_eq_true] at hf
    exact hhead _ hf.1.1
  | list first rest =>
    simp only [valid, Bool.and_eq_true] at hf
    exact hhead _ hf.1
  | allStep s => exact ⟨'*', rfl, .inr rfl⟩
  | rangeStep a b s =>
    simp only [valid, Bool.and_eq_true] at hf
    simpa [text] using hhead ('-' :: b ++ '/' :: s) hf.1.1.1

theorem CornScheduler.start_new (e : List Char) (fuel : Nat) :
    CornScheduler.start ⟨e, true, none, .new⟩ fuel =
      parseCornExp e fuel >>= fun parsed => pure ⟨e, true, some parsed, .running⟩ := rfl

/-- The parser and `Start` return on every well-formed expression, whatever the size of its
numbers and steps; but a `*` field with no `/` makes the parser panic on `perParts[1]`, a step
of `0` keeps it in its loop for ever, and a range start that `float64` rounds up to `2^63` turns
into `-2^63` in `int(...)`, from which the loop needs more than `2^63` rounds. While it loops,
`Start` holds `stateMutex` and does not return. -/
theorem parseCornExp_star_field_panics_or_hangs :
    (∀ e : CornExp, e.wellFormed = true → ∀ fuel, 241 ≤ fuel →
      (parseCornExp e.text fuel).returns = true) ∧
    (∀ (s : CornScheduler) (e : CornExp), s.cornExp = e.text → e.wellFormed = true →
      ∀ fuel, 241 ≤ fuel → (s.start fuel).returns = true) ∧
    (∀ fuel, parseCornExp "*x * * * * * * ?".toList fuel = panic) ∧
    (∀ fuel, parseCornExp "*/0 * * * * * * ?".toList fuel = outOfFuel) ∧
    (∀ fuel, fuel ≤ 2 ^ 63 →
      parseCornExp "9223372036854775807-59 * * * * * * ?".toList fuel = outOfFuel) ∧
    (∀ fuel, CornScheduler.start ⟨"*x * * * * * * ?".toList, true, none, .new⟩ fuel = panic) ∧
    (∀ fuel,
      CornScheduler.start ⟨"*/0 * * * * * * ?".toList, true, none, .new⟩ fuel = outOfFuel) ∧
    (∀ fuel, fuel ≤ 2 ^ 63 → CornScheduler.start
      ⟨"9223372036854775807-59 * * * * * * ?".toList, true, none, .new⟩ fuel = outOfFuel) := by
  have hpanic : ∀ fuel, parseCornExp "*x * * * * * * ?".toList fuel = panic := fun _ => rfl
  have hsec : ∀ fuel, setBitSet newByteSliceBitSet "*/0".toList secondMin secondMax fuel =
      outOfFuel := fun fuel => by
    rw [show setBitSet newByteSliceBitSet "*/0".toList secondMin secondMax fuel =
      orElse (some <$> setLoop newByteSliceBitSet 0 59 0 fuel) (err .invalidCornExpression)
      from rfl, orElse_map_some, @setLoop_zero_step 59 (by decide) fuel _ 0 (by decide) (by decide)]
  have hhang : ∀ fuel, parseCornExp "*/0 * * * * * * ?".toList fuel = outOfFuel := fun fuel => by
    have hsplit : splitCornExpression "*/0 * * * * * * ?".toList =
        .ok ["*/0".toList, ['*'], ['*'], ['*'], ['*'], ['*'], ['*'], ['?']] := rfl
    simp only [parseCornExp, hsplit, ofExcept_ok, ok_bind, index_zero, hsec, outOfFuel_bind]
  have hfar : ∀ fuel, fuel ≤ 2 ^ 63 → setBitSet newByteSliceBitSet
      (Field.range "9223372036854775807".toList ['5', '9']).text secondMin secondMax fuel =
      outOfFuel := fun fuel hf => by
    rw [setBitSet_range_eq (by decide) (by decide), atoi_digits (by decide) (by decide),
      atoi_digits (by decide) (by decide), ofExcept_ok, ok_bind, ofExcept_ok, ok_bind,
      show floatMax (digitsValue "9223372036854775807".toList) secondMin = -2 ^ 63 by decide]
    exact setLoop_from_negative (by decide) fuel reset _ le_rfl (by omega)
  have hlong : ∀ fuel, fuel ≤ 2 ^ 63 →
      parseCornExp "9223372036854775807-59 * * * * * * ?".toList fuel = outOfFuel :=
    fun fuel hf => by
    have hsplit : splitCornExpression "9223372036854775807-59 * * * * * * ?".toList =
        .ok [(Field.range "9223372036854775807".toList ['5', '9']).text, ['*'], ['*'], ['*'],
          ['*'], ['*'], ['*'], ['?']] := rfl
    simp only [parseCornExp, hsplit, ofExcept_ok, ok_bind, index_zero, hfar fuel hf,
      outOfFuel_bind]
  refine ⟨fun e he fuel hf => CornExp.parseCornExp_returns he hf,
    fun s e hs he fuel hf => CornScheduler.start_returns hs he hf, hpanic, hhang, hlong,
    fun fuel => ?_, fun fuel => ?_, fun fuel hf => ?_⟩
  · rw [CornScheduler.start_new, hpanic, panic_bind]
  · rw [CornScheduler.start_new, hhang, outOfFuel_bind]
  · rw [CornScheduler.start_new, hlong fuel hf, outOfFuel_bind]

/-- On a valid expression a time matches when each of its second, minute, hour, day, month and
weekday lies in the set of its field or that set is empty. So `5-3` for the seconds matches
every time; `x1-2/3`, which has none of the forms, is accepted as the step from `0`; and the step
`9223372036854775807` from `5` wraps around and sets `3`, which its progression does not hold. -/
theorem matchCornData_empty_field_matches_every_time :
    (∀ e : CornExp, e.valid = true → ∀ fuel, 61 ≤ fuel → ∃ d, parseCornExp e.text fuel = ok d ∧
      ∀ time : Time, matchCornData d time ≠ none ∧
        (matchCornData d time = some true ↔
          e.seconds.Matches secondMin secondMax time.second ∧
          e.minutes.Matches minuteMin minuteMax time.minute ∧
          e.hours.Matches hourMin hourMax time.hour ∧ e.days.Matches dayMin dayMax time.day ∧
          e.months.Matches monthMin monthMax time.month ∧
          e.weekdays.Matches weekdayMin weekdayMax time.weekday)) ∧
    (∀ n, (Field.range ['5'] ['3']).denotes secondMin secondMax n = false) ∧
    (∃ d, parseCornExp "5-3 * * * * * * ?".toList 61 = ok d ∧
      ∀ time : Time, matchCornData d time = some true) ∧
    (∀ e : CornExp, e.valid = true → e.text ≠ "x1-2/3 * * * * * * ?".toList) ∧
    (∃ d, parseCornExp "x1-2/3 * * * * * * ?".toList 61 = ok d ∧ d.seconds.get 0 = some true) ∧
    (∃ d, parseCornExp "5-59/9223372036854775807 * * * * * * ?".toList 61 = ok d ∧
      d.seconds.get 3 = some true ∧
      (Field.rangeStep ['5'] ['5', '9'] "9223372036854775807".toList).denotes secondMin secondMax 3
        = false) := by
  have hempty : ∀ n, (Field.range ['5'] ['3']).denotes secondMin secondMax n = false := by
    intro n
    simp only [Field.denotes, show digitsValue ['5'] = 5 from rfl, show digitsValue ['3'] = 3 from rfl,
      secondMin, secondMax, decide_eq_false_iff_not]
    omega
  refine ⟨fun e he fuel hf => matchCornData_valid he hf, hempty, ?_, fun e he h => ?_,
    ⟨_, rfl, by decide⟩, ⟨_, rfl, by decide, by decide⟩⟩
  · let e₀ : CornExp := ⟨.range ['5'] ['3'], .all, .all, .all, .all, .all, .all, ['?']⟩
    obtain ⟨d, hd, hm⟩ := matchCornData_valid (e := e₀) (by decide) (le_refl 61)
    refine ⟨d, hd, fun time => (hm time).2.mpr ?_⟩
    have hall : ∀ {min max v : Int}, min ≤ v ∧ v ≤ max → Field.all.Matches min max v :=
      fun hv => .inl (decide_eq_true hv)
    exact ⟨.inr hempty, hall time.minute_range, hall time.hour_range, hall time.day_range,
      hall time.month_range, hall time.weekday_range⟩
  · have hsplit := CornExp.splitCornExpression_text (CornExp.wellFormed_of_valid he)
    rw [h] at hsplit
    have hsec : e.seconds.text = "x1-2/3".toList :=
      (List.cons.inj (Except.ok.inj hsplit).symm).1
    obtain ⟨c, hc, hd⟩ := e.seconds.head_text (by simp only [CornExp.valid, Bool.and_eq_true] at he; exact he.1.1.1.1.1.1.1.1)
    rw [hsec] at hc
    cases (Option.some.inj hc)
    simp at hd

end Matcha.Task
