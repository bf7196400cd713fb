import Matcha.Util.BitSet

/-! # The cron expression parser and matcher

`task/corn.go`. A Go `string` is the list of its characters and each regular expression a
recogniser of the strings it matches; a Go `int` is an `Int` that wraps at `2^63`. A call returns,
panics, or is still in a loop when the fuel runs out (`Outcome`). -/
namespace Matcha.Task

open Matcha.Util Matcha.Util.ByteSliceBitSet

inductive CornError where
  /-- `InvalidCornExpressionError`, "invalid corn expression". -/
  | invalidCornExpression
  /-- The `*strconv.NumError` of `strconv.Atoi` on `num`. -/
  | atoi (num : List Char)
  /-- `NoTaskError`, for a scheduler with no task. -/
  | noTask
  deriving DecidableEq, Repr

/-- How a call ends: it returns a value or an `error`, it panics, or it is still looping when
the fuel runs out. -/
inductive Outcome (α : Type) where
  | ok (a : α)
  | err (e : CornError)
  | panic
  | outOfFuel
  deriving DecidableEq, Repr

namespace Outcome

variable {α β : Type}

def bind : Outcome α → (α → Outcome β) → Outcome β
  | ok a, f => f a
  | err e, _ => err e
  | panic, _ => panic
  | outOfFuel, _ => outOfFuel

instance : Monad Outcome where
  pure := ok
  bind := bind

@[simp] theorem pure_eq (a : α) : (pure a : Outcome α) = ok a := rfl
@[simp] theorem ok_bind (a : α) (f : α → Outcome β) : (ok a >>= f) = f a := rfl
@[simp] theorem err_bind (e : CornError) (f : α → Outcome β) : (err e >>= f) = err e := rfl
@[simp] theorem panic_bind (f : α → Outcome β) : (panic >>= f) = panic := rfl
@[simp] theorem outOfFuel_bind (f : α → Outcome β) : (outOfFuel >>= f) = outOfFuel := rfl
@[simp] theorem map_ok (f : α → β) (a : α) : (f <$> ok a) = ok (f a) := rfl

@[simp] theorem bind_bind {γ : Type} (x : Outcome α) (f : α → Outcome β) (g : β → Outcome γ) :
    (x >>= f >>= g) = x >>= fun a => f a >>= g := by
  cases x <;> rfl

/-- The call returns, a value or an `error`: it neither panics nor runs out of fuel. -/
def returns : Outcome α → Bool
  | ok _ => true
  | err _ => true
  | _ => false

theorem returns_bind {x : Outcome α} {f : α → Outcome β} (hx : x.returns = true)
    (hf : ∀ a, x = ok a → (f a).returns = true) : (x >>= f).returns = true := by
  cases x with
  | ok a => exact hf a rfl
  | err e => rfl
  | panic => cases hx
  | outOfFuel => cases hx

def ofExcept : Except CornError α → Outcome α
  | .ok a => ok a
  | .error e => err e

@[simp] theorem ofExcept_ok (a : α) : ofExcept (.ok a : Except CornError α) = ok a := rfl

theorem returns_ofExcept_bind {x : Except CornError α} {f : α → Outcome β}
    (hf : ∀ a, x = .ok a → (f a).returns = true) : (ofExcept x >>= f).returns = true := by
  cases x with
  | ok a => exact hf a rfl
  | error e => rfl

end Outcome

open Outcome

def index {α : Type} (l : List α) (i : Nat) : Outcome α :=
  match l[i]? with
  | some a => ok a
  | none => panic

def setBit (target : ByteSliceBitSet) (i : Int) : Outcome ByteSliceBitSet :=
  match target.set i with
  | some t => ok t
  | none => panic

def secondMin : Int := 0
def secondMax : Int := 59
def minuteMin : Int := 0
def minuteMax : Int := 59
def hourMin : Int := 0
def hourMax : Int := 23
def dayMin : Int := 1
def dayMax : Int := 31
def monthMin : Int := 1
def monthMax : Int := 12
def weekdayMin : Int := 0
def weekdayMax : Int := 6
def yearMin : Int := -1
def yearMax : Int := -1

def isDigits (s : List Char) : Bool := !s.isEmpty && s.all Char.isDigit

def digitsValue (s : List Char) : Nat := s.foldl (fun n c => 10 * n + (c.toNat - '0'.toNat)) 0

def stripSign : List Char → Bool × List Char
  | '-' :: ds => (true, ds)
  | '+' :: ds => (false, ds)
  | ds => (false, ds)

/-- `strconv.Atoi` with a 64-bit `int`: an optional sign, then decimal digits whose value fits.
The error names the function and the input; which of `ErrSyntax` and `ErrRange` it wraps is
left out. -/
def atoi (s : List Char) : Except CornError Int :=
  let (neg, ds) := stripSign s
  let v : Int := if neg then -(digitsValue ds : Int) else digitsValue ds
  if isDigits ds && -2 ^ 63 ≤ v && v < 2 ^ 63 then .ok v else .error (.atoi s)

/-- The number of bits of `n < 2^64`: how many of `2^0, ..., 2^63` are at most `n`. -/
def bitLength (n : Nat) : Nat := (List.range 64).countP fun m => 2 ^ m ≤ n

/-- `n` rounded to float64: its top 53 bits kept and the rest rounded to nearest, ties to even.
Every float64 here is an integer, and is written as that integer. -/
def roundFloat64 (n : Nat) : Nat :=
  let k := bitLength n - 53
  let q := n / 2 ^ k
  let r := n % 2 ^ k
  (if 2 ^ k < 2 * r ∨ (2 * r = 2 ^ k ∧ q % 2 = 1) then q + 1 else q) * 2 ^ k

def float64OfInt (x : Int) : Int :=
  if x < 0 then -(roundFloat64 x.natAbs : Int) else roundFloat64 x.natAbs

/-- `int(f)` of an integral float64 on amd64: `f` when it fits in `int`, otherwise the integer
indefinite value `-2^63` that `CVTTSD2SQ` returns. -/
def intOfFloat64 (f : Int) : Int := if -2 ^ 63 ≤ f ∧ f < 2 ^ 63 then f else -2 ^ 63

/-- `int(math.Max(float64(a), float64(b)))`. -/
def floatMax (a b : Int) : Int := intOfFloat64 (Max.max (float64OfInt a) (float64OfInt b))

def floatMin (a b : Int) : Int := intOfFloat64 (Min.min (float64OfInt a) (float64OfInt b))

def regexpAll (s : List Char) : Bool := s == ['*']

def regexpRange (s : List Char) : Bool :=
  match s.splitOn '-' with
  | [a, b] => isDigits a && isDigits b
  | _ => false

def regexpDisperse (s : List Char) : Bool := (s.splitOn ',').all isDigits

/-- The second alternative of `regexpStep` at the end of the text, `((\d)+-(\d)+)/(\d)+$`. -/
def rangeStepSuffix (t : List Char) : Bool :=
  match t.splitOn '/' with
  | [l, r] => regexpRange l && isDigits r
  | _ => false

/-- `regexpStep.MatchString`, `^(\*)|((\d)+-(\d)+)/(\d)+$`: a `*` at the start, or a suffix of
the form `a-b/s` (the search may start anywhere). -/
def regexpStep (s : List Char) : Bool := s.head? == some '*' || s.tails.any rangeStepSuffix

/-- `for i := start; i <= end; i += step { target.Set(i) }`, from `i` on. -/
def setLoop (target : ByteSliceBitSet) (i stop step : Int) : Nat → Outcome ByteSliceBitSet
  | 0 => outOfFuel
  | fuel + 1 =>
    if i ≤ stop then do
      let t ← setBit target i
      setLoop t (wrapInt (i + step)) stop step fuel
    else ok target

/-- `for _, part := range disperseParts`: every part that `Atoi` reads and that lies in
`[min, max]` is set; the others are skipped. -/
def setDisperse (min max : Int) (target : ByteSliceBitSet) : List (List Char) →
    Outcome ByteSliceBitSet
  | [] => ok target
  | part :: parts =>
    match atoi part with
    | .ok value =>
      if value ≥ min ∧ value ≤ max then do
        let t ← setBit target value
        setDisperse min max t parts
      else setDisperse min max target parts
    | .error _ => setDisperse min max target parts

def trySetBitSetAll (_target : ByteSliceBitSet) (exp : List Char) :
    Outcome (Option ByteSliceBitSet) :=
  if regexpAll exp then ok (some reset) else ok none

def trySetBitSetRange (_target : ByteSliceBitSet) (exp : List Char) (min max : Int) (fuel : Nat) :
    Outcome (Option ByteSliceBitSet) :=
  if regexpRange exp then do
    let target := reset
    let rangeParts := exp.splitOn '-'
    let start ← ofExcept (atoi (← index rangeParts 0))
    let start := floatMax start min
    let stop ← ofExcept (atoi (← index rangeParts 1))
    let stop := floatMin stop max
    some <$> setLoop target start stop 1 fuel
  else ok none

def trySetBitSetDisperse (_target : ByteSliceBitSet) (exp : List Char) (min max : Int) :
    Outcome (Option ByteSliceBitSet) :=
  if regexpDisperse exp then some <$> setDisperse min max reset (exp.splitOn ',')
  else ok none

/-- `trySetBitSetStep`. It does not reset `target`. A left part that is neither `*` nor `a-b`
leaves `start` and `end` at `0`. -/
def trySetBitSetStep (target : ByteSliceBitSet) (exp : List Char) (min max : Int) (fuel : Nat) :
    Outcome (Option ByteSliceBitSet) :=
  if regexpStep exp then do
    let perParts := exp.splitOn '/'
    let leftPart ← index perParts 0
    let rightPart ← index perParts 1
    let (start, stop) ← (do
      let bounds : Int × Int := if regexpAll leftPart then (min, max) else (0, 0)
      if regexpRange leftPart then
        let rangeParts := leftPart.splitOn '-'
        let startTmp ← ofExcept (atoi (← index rangeParts 0))
        let endTmp ← ofExcept (atoi (← index rangeParts 1))
        pure (floatMax startTmp min, floatMin endTmp max)
      else pure bounds : Outcome (Int × Int))
    let step ← ofExcept (atoi rightPart)
    some <$> setLoop target start stop step fuel
  else ok none

/-- `if success, err := rule; err != nil || success { return err }`, and otherwise `next`. -/
def orElse (rule : Outcome (Option ByteSliceBitSet)) (next : Outcome ByteSliceBitSet) :
    Outcome ByteSliceBitSet := do
  match ← rule with
  | some t => pure t
  | none => next

def setBitSet (target : ByteSliceBitSet) (exp : List Char) (min max : Int) (fuel : Nat) :
    Outcome ByteSliceBitSet :=
  orElse (trySetBitSetAll target exp) <|
  orElse (trySetBitSetRange target exp min max fuel) <|
  orElse (trySetBitSetDisperse target exp min max) <|
  orElse (trySetBitSetStep target exp min max fuel) <|
  err .invalidCornExpression

structure CornData where
  seconds : ByteSliceBitSet
  minutes : ByteSliceBitSet
  hours : ByteSliceBitSet
  days : ByteSliceBitSet
  months : ByteSliceBitSet
  weekdays : ByteSliceBitSet
  years : ByteSliceBitSet
  deriving DecidableEq, Repr

/-- `splitCornExpression`: eight parts split at each space, the eighth holding a `?`. The
`strings.Replace` of spaces finds none left, and is kept as the source has it. -/
def splitCornExpression (expression : List Char) : Except CornError (List (List Char)) :=
  if expression = [] then .error .invalidCornExpression
  else
    let cornExpParts := expression.splitOn ' '
    match cornExpParts[7]? with
    | some last =>
      if cornExpParts.length ≠ 8 ∨ '?' ∉ last then .error .invalidCornExpression
      else .ok (cornExpParts.map (·.filter (· != ' ')))
    | none => .error .invalidCornExpression

def parseCornExp (expression : List Char) (fuel : Nat) : Outcome CornData := do
  let cornExpParts ← ofExcept (splitCornExpression expression)
  let seconds ← setBitSet newByteSliceBitSet (← index cornExpParts 0) secondMin secondMax fuel
  let minutes ← setBitSet newByteSliceBitSet (← index cornExpParts 1) minuteMin minuteMax fuel
  let hours ← setBitSet newByteSliceBitSet (← index cornExpParts 2) hourMin hourMax fuel
  let days ← setBitSet newByteSliceBitSet (← index cornExpParts 3) dayMin dayMax fuel
  let months ← setBitSet newByteSliceBitSet (← index cornExpParts 4) monthMin monthMax fuel
  let weekdays ← setBitSet newByteSliceBitSet (← index cornExpParts 5) weekdayMin weekdayMax fuel
  let years ← setBitSet newByteSliceBitSet (← index cornExpParts 6) yearMin yearMax fuel
  pure ⟨seconds, minutes, hours, days, months, weekdays, years⟩

/-- The fields of a `time.Time` that `matchCornData` reads, in the ranges the `time` package
returns them (`Sunday` is `0`, `January` is `1`). -/
structure Time where
  second : Int
  minute : Int
  hour : Int
  day : Int
  month : Int
  weekday : Int
  year : Int
  second_range : 0 ≤ second ∧ second ≤ 59
  minute_range : 0 ≤ minute ∧ minute ≤ 59
  hour_range : 0 ≤ hour ∧ hour ≤ 23
  day_range : 1 ≤ day ∧ day ≤ 31
  month_range : 1 ≤ month ∧ month ≤ 12
  weekday_range : 0 ≤ weekday ∧ weekday ≤ 6

def matchBitSet (source : ByteSliceBitSet) (value : Int) : Option Bool :=
  (source.get value).map (· || source.isEmpty)

/-- `matchCornData`: the `&&` chain stops at the first field that does not match. -/
def matchCornData (data : CornData) (time : Time) : Option Bool :=
  [(data.seconds, time.second), (data.minutes, time.minute), (data.hours, time.hour),
    (data.days, time.day), (data.months, time.month), (data.weekdays, time.weekday),
    (data.years, time.year)].allM fun (s, v) => matchBitSet s v

inductive State where
  | new
  | running
  | finish
  deriving DecidableEq, Repr

/-- The fields of `cornScheduler` that `Start` reads and writes; `hasTask` is `Task != nil`. -/
structure CornScheduler where
  cornExp : List Char
  hasTask : Bool
  cornData : Option CornData
  state : State
  deriving DecidableEq, Repr

/-- `Start` up to the start of the ticking goroutine. It holds `stateMutex` from its `Lock` to
its return, so a run that never returns never releases it. -/
def CornScheduler.start (s : CornScheduler) (fuel : Nat) : Outcome CornScheduler :=
  if !s.hasTask then err .noTask
  else if s.state ≠ .new then ok s
  else do
    let parsed ← parseCornExp s.cornExp fuel
    pure { s with cornData := some parsed, state := .running }

@[simp] theorem orElse_none (next : Outcome ByteSliceBitSet) : orElse (ok none) next = next := rfl

@[simp] theorem index_zero {α : Type} (a : α) (l : List α) : index (a :: l) 0 = ok a := by
  simp [index]

@[simp] theorem index_succ {α : Type} (a : α) (l : List α) (i : Nat) :
    index (a :: l) (i + 1) = index l i := by
  simp [index]

theorem orElse_bind {α : Type} (x : Outcome α) (f : α → Outcome (Option ByteSliceBitSet))
    (next : Outcome ByteSliceBitSet) : orElse (x >>= f) next = x >>= fun a => orElse (f a) next := by
  cases x <;> rfl

@[simp] theorem orElse_map_some (x : Outcome ByteSliceBitSet) (next : Outcome ByteSliceBitSet) :
    orElse (some <$> x) next = x := by
  cases x <;> rfl

theorem isDigits_iff {s : List Char} : isDigits s = true ↔ s ≠ [] ∧ ∀ c ∈ s, c.isDigit = true := by
  simp [isDigits, List.isEmpty_iff]

theorem not_mem_of_isDigits {s : List Char} (h : isDigits s = true) {c : Char}
    (hc : c.isDigit = false) : c ∉ s :=
  fun hm => by simp [(isDigits_iff.mp h).2 c hm] at hc

theorem atoi_of_isDigits {p : List Char} (hd : isDigits p = true) :
    atoi p = if digitsValue p < 2 ^ 63 then .ok (digitsValue p) else .error (.atoi p) := by
  obtain ⟨hne, hall⟩ := isDigits_iff.mp hd
  obtain ⟨c, cs, rfl⟩ := List.exists_cons_of_ne_nil hne
  have hs : stripSign (c :: cs) = (false, c :: cs) := by
    unfold stripSign
    split <;> simp_all
  simp only [atoi, hs, hd, Bool.false_eq_true, if_false, Bool.true_and, Bool.and_eq_true,
    decide_eq_true_eq]
  by_cases hv : digitsValue (c :: cs) < 2 ^ 63
  · rw [if_pos (by omega), if_pos hv]
  · rw [if_neg (by omega), if_neg hv]

theorem atoi_digits {p : List Char} (hd : isDigits p = true) (hv : digitsValue p < 2 ^ 63) :
    atoi p = .ok (digitsValue p) := by
  rw [atoi_of_isDigits hd, if_pos hv]

theorem atoi_eq_ok {p : List Char} (hd : isDigits p = true) {v : Int} (h : atoi p = .ok v) :
    v = digitsValue p ∧ digitsValue p < 2 ^ 63 := by
  rw [atoi_of_isDigits hd] at h
  split at h
  · exact ⟨(Except.ok.inj h).symm, ‹_›⟩
  · cases h

theorem splitOn_single {α : Type} [BEq α] [LawfulBEq α] {s : List α} {c : α} (h : c ∉ s) :
    s.splitOn c = [s] :=
  List.splitOnP_eq_single (· == c) s fun x hx hxc => h (by rwa [beq_iff_eq.mp hxc] at hx)

theorem splitOn_append_cons {α : Type} [BEq α] [LawfulBEq α] {a : List α} (b : List α) {c : α}
    (h : c ∉ a) :
    (a ++ c :: b).splitOn c = a :: b.splitOn c :=
  List.splitOnP_first (· == c) a (fun x hx hxc => h (by rwa [beq_iff_eq.mp hxc] at hx)) c
    (beq_self_eq_true c) b

def join (sep : Char) (first : List Char) (rest : List (List Char)) : List Char :=
  first ++ rest.flatMap (sep :: ·)

theorem splitOn_join {sep : Char} {rest : List (List Char)} (h : ∀ p ∈ rest, sep ∉ p) :
    ∀ {first : List Char}, sep ∉ first → (join sep first rest).splitOn sep = first :: rest := by
  induction rest with
  | nil => intro first h₁; simpa [join] using splitOn_single h₁
  | cons p ps ih =>
    intro first h₁
    have hp := h p (List.mem_cons_self _ _)
    rw [join, List.flatMap_cons, List.cons_append, splitOn_append_cons _ h₁, ← join,
      ih (fun q hq => h q (List.mem_cons_of_mem _ hq)) hp]

theorem setBit_spec (target : ByteSliceBitSet) {i : Int} (hi : i < 2 ^ 51) :
    ∃ t, setBit target i = ok t ∧
      (∀ n : Nat, t.bitAt n = true ↔ target.bitAt n = true ∨ (n : Int) = i) ∧
      (EmptyExact target → EmptyExact t) := by
  obtain ⟨t, hs, -, hb⟩ := target.set_int hi
  exact ⟨t, by rw [setBit, hs], fun n => by simp [hb], fun h => h.set hi hs⟩

/-- The values `start`, `start + step`, ... up to `stop`. -/
def onProgression (start stop step n : Int) : Prop := start ≤ n ∧ n ≤ stop ∧ step ∣ n - start

instance (start stop step n : Int) : Decidable (onProgression start stop step n) :=
  inferInstanceAs (Decidable (_ ∧ _ ∧ _))

theorem onProgression_iff {start stop step n : Int} (hs : 1 ≤ step) :
    onProgression start stop step n ↔
      (n = start ∧ start ≤ stop) ∨ onProgression (start + step) stop step n := by
  have e : n - start = n - (start + step) + step := by omega
  unfold onProgression
  constructor
  · rintro ⟨h₁, h₂, hd⟩
    rcases eq_or_lt_of_le h₁ with rfl | hlt
    · exact .inl ⟨rfl, h₂⟩
    · have := Int.le_of_dvd (by omega) hd
      rw [e] at hd
      exact .inr ⟨by omega, h₂, (Int.dvd_add_left (Int.dvd_refl step)).mp hd⟩
  · rintro (⟨rfl, h⟩ | ⟨h₁, h₂, hd⟩)
    · exact ⟨le_refl _, h, by rw [Int.sub_self]; exact Int.dvd_zero step⟩
    · exact ⟨by omega, h₂, by rw [e]; exact Int.dvd_add hd (Int.dvd_refl step)⟩

/-- With a positive step whose last addition cannot overflow, the loop sets the progression
from `i` to `stop`, given more fuel than values from `i` to `stop`. -/
theorem setLoop_spec {stop step : Int} (hs : 1 ≤ step) (hov : stop + step < 2 ^ 63)
    (hstop : stop ≤ 59) (fuel : Nat) : ∀ (target : ByteSliceBitSet) (i : Int), -2 ^ 63 ≤ i →
      (stop + 1 - i).toNat < fuel → ∃ t, setLoop target i stop step fuel = ok t ∧
        (∀ n : Nat, t.bitAt n = true ↔ target.bitAt n = true ∨ onProgression i stop step n) ∧
        (EmptyExact target → EmptyExact t) := by
  induction fuel with
  | zero => intro _ _ _ hf; omega
  | succ fuel ih =>
    intro target i hi hf
    by_cases hle : i ≤ stop
    · obtain ⟨t, ht, hb, he⟩ := setBit_spec target (show i < 2 ^ 51 by omega)
      obtain ⟨t', ht', hb', he'⟩ := ih t (i + step) (by omega) (by omega)
      refine ⟨t', ?_, fun n => ?_, he' ∘ he⟩
      · rw [setLoop, if_pos hle, ht, ok_bind, wrapInt_of_lt (by omega) (by omega), ht']
      · rw [hb', hb, @onProgression_iff i stop step n hs, or_assoc]
        simp only [hle, and_true]
    · refine ⟨target, by rw [setLoop, if_neg hle], fun n => ?_, id⟩
      exact (or_iff_left_of_imp fun h => absurd (h.1.trans h.2.1) hle).symm

/-- A bound on the rounds left from `i` when `i += step` can wrap (`stop + step ≥ 2^63`): a value
`k ≥ 2^63 - step` wraps to `k + step - 2^64`, and the next round brings it to
`k - 2 (2^63 - step)`, below `k`. -/
def wrapRounds (stop step i : Int) : Int :=
  if stop < i then 0
  else if i < -2 ^ 62 then 2 * (i + 2 ^ 64 - step + 60) + 1
  else 2 * (i + 60) + 2

def WrapReach (stop step i : Int) : Prop :=
  (-59 ≤ i ∧ i < 2 ^ 63) ∨ ∃ k, 2 ^ 63 - step ≤ k ∧ k ≤ stop ∧ i = k + step - 2 ^ 64

theorem setLoop_returns_of_wrap {stop step : Int} (hs : step < 2 ^ 63)
    (hwrap : 2 ^ 63 ≤ stop + step) (hstop : stop ≤ 59) (fuel : Nat) :
    ∀ (target : ByteSliceBitSet) (i : Int), WrapReach stop step i →
      wrapRounds stop step i < fuel → ∃ t, setLoop target i stop step fuel = ok t := by
  induction fuel with
  | zero =>
    intro _ i hi hf
    unfold wrapRounds at hf
    rcases hi with hi | ⟨k, hk₁, hk₂, rfl⟩ <;> split_ifs at hf <;> omega
  | succ fuel ih =>
    intro target i hi hf
    by_cases hle : i ≤ stop
    · obtain ⟨t, ht, -⟩ := setBit_spec target (show i < 2 ^ 51 by omega)
      have hnext : WrapReach stop step (wrapInt (i + step)) ∧
          wrapRounds stop step (wrapInt (i + step)) < fuel := by
        unfold wrapRounds at hf ⊢
        rw [if_neg (by omega)] at hf
        rcases hi with hi | ⟨k, hk₁, hk₂, rfl⟩
        · rw [if_neg (by omega)] at hf
          by_cases hno : i + step < 2 ^ 63
          · have hw : wrapInt (i + step) = i + step := by unfold wrapInt; omega
            rw [hw, if_pos (by omega)]
            exact ⟨.inl ⟨by omega, hno⟩, by omega⟩
          · have hw : wrapInt (i + step) = i + step - 2 ^ 64 := by unfold wrapInt; omega
            rw [hw, if_neg (by omega), if_pos (by omega)]
            exact ⟨.inr ⟨i, by omega, hle, rfl⟩, by omega⟩
        · rw [if_pos (by omega)] at hf
          have hw : wrapInt (k + step - 2 ^ 64 + step) = k + 2 * step - 2 ^ 64 := by
            unfold wrapInt; omega
          rw [hw]
          refine ⟨.inl ⟨by omega, by omega⟩, ?_⟩
          split_ifs <;> omega
      obtain ⟨t', ht'⟩ := ih t _ hnext.1 hnext.2
      exact ⟨t', by rw [setLoop, if_pos hle, ht, ok_bind, ht']⟩
    · exact ⟨target, by rw [setLoop, if_neg hle]⟩

/-- The loop ends for every step of at least one, whether or not its addition wraps, from a
start of at least `-1` up to an end of at most `59`, within 241 rounds. -/
theorem setLoop_returns {stop step i : Int} (h1 : 1 ≤ step) (hs : step < 2 ^ 63)
    (hstop : stop ≤ 59) (hi : -1 ≤ i) (hi' : i < 2 ^ 63) {fuel : Nat} (hf : 241 ≤ fuel)
    (target : ByteSliceBitSet) : ∃ t, setLoop target i stop step fuel = ok t := by
  by_cases hwrap : stop + step < 2 ^ 63
  · obtain ⟨t, ht, -⟩ := setLoop_spec h1 hwrap hstop fuel target i (by omega) (by omega)
    exact ⟨t, ht⟩
  · refine setLoop_returns_of_wrap hs (by omega) hstop fuel target i (.inl ⟨by omega, hi'⟩) ?_
    unfold wrapRounds
    split_ifs <;> omega

/-- With a step of `0`, the loop never ends once it has started. -/
theorem setLoop_zero_step {stop : Int} (hstop : stop ≤ 59) (fuel : Nat) :
    ∀ (target : ByteSliceBitSet) (i : Int), -2 ^ 63 ≤ i → i ≤ stop →
      setLoop target i stop 0 fuel = outOfFuel := by
  induction fuel with
  | zero => intros; rfl
  | succ fuel ih =>
    intro target i h₀ hle
    obtain ⟨t, ht, -⟩ := setBit_spec target (show i < 2 ^ 51 by omega)
    rw [setLoop, if_pos hle, ht, ok_bind, Int.add_zero, wrapInt_of_lt h₀ (by omega)]
    exact ih t i h₀ hle

/-- From a negative start the loop by one sets nothing, so it needs more than `-i` rounds to
reach `0`: with `-i` rounds of fuel or fewer it is still looping. -/
theorem setLoop_from_negative {stop : Int} (hstop : 0 ≤ stop) (fuel : Nat) :
    ∀ (target : ByteSliceBitSet) (i : Int), -2 ^ 63 ≤ i → i + fuel ≤ 0 →
      setLoop target i stop 1 fuel = outOfFuel := by
  induction fuel with
  | zero => intros; rfl
  | succ fuel ih =>
    intro target i h₀ hf
    have hs : setBit target i = ok target := by rw [setBit, ByteSliceBitSet.set, if_pos (by omega)]
    rw [setLoop, if_pos (by omega), hs, ok_bind, wrapInt_of_lt (by omega) (by omega)]
    exact ih target (i + 1) (by omega) (by omega)

theorem setDisperse_spec {min max : Int} (hmax : max ≤ 59) (parts : List (List Char)) :
    ∀ target : ByteSliceBitSet, ∃ t, setDisperse min max target parts = ok t ∧
      (∀ n : Nat, t.bitAt n = true ↔ target.bitAt n = true ∨
        (min ≤ n ∧ n ≤ max ∧ ∃ p ∈ parts, atoi p = .ok n)) ∧
      (EmptyExact target → EmptyExact t) := by
  induction parts with
  | nil => exact fun target => ⟨target, rfl, fun n => by simp, id⟩
  | cons part parts ih =>
    intro target
    cases hp : atoi part with
    | error e =>
      obtain ⟨t, ht, hb, he⟩ := ih target
      refine ⟨t, by rw [setDisperse, hp, ht], fun n => ?_, he⟩
      rw [hb]
      simp [hp]
    | ok v =>
      by_cases hv : v ≥ min ∧ v ≤ max
      · obtain ⟨t, ht, hb, he⟩ := setBit_spec target (show v < 2 ^ 51 by omega)
        obtain ⟨t', ht', hb', he'⟩ := ih t
        refine ⟨t', ?_, fun n => ?_, he' ∘ he⟩
        · rw [setDisperse, hp]
          dsimp only
          rw [if_pos hv, ht, ok_bind, ht']
        rw [hb', hb]
        constructor
        · rintro ((h | rfl) | ⟨h₁, h₂, p, hp', h⟩)
          · exact .inl h
          · exact .inr ⟨hv.1, hv.2, part, List.mem_cons_self _ _, hp⟩
          · exact .inr ⟨h₁, h₂, p, List.mem_cons_of_mem _ hp', h⟩
        · rintro (h | ⟨h₁, h₂, p, hp' | ⟨_, hp'⟩, h⟩)
          · exact .inl (.inl h)
          · rw [hp] at h
            exact .inl (.inr (Except.ok.inj h).symm)
          · exact .inr ⟨h₁, h₂, p, hp', h⟩
      · obtain ⟨t, ht, hb, he⟩ := ih target
        refine ⟨t, ?_, fun n => ?_, he⟩
        · rw [setDisperse, hp]
          dsimp only
          rw [if_neg hv, ht]
        rw [hb]
        constructor
        · rintro (h | ⟨h₁, h₂, p, hp', h⟩)
          · exact .inl h
          · exact .inr ⟨h₁, h₂, p, List.mem_cons_of_mem _ hp', h⟩
        · rintro (h | ⟨h₁, h₂, p, hp' | ⟨_, hp'⟩, h⟩)
          · exact .inl h
          · rw [hp] at h
            cases (Except.ok.inj h)
            exact absurd ⟨h₁, h₂⟩ hv
          · exact .inr ⟨h₁, h₂, p, hp', h⟩

theorem bitLength_le {n m : Nat} (h : n < 2 ^ m) : bitLength n ≤ m := by
  have hsub : (List.range 64).filter (fun j => 2 ^ j ≤ n) ⊆ List.range m := fun j hj => by
    simp only [List.mem_filter, List.mem_range, decide_eq_true_eq] at hj ⊢
    exact (Nat.pow_lt_pow_iff_right (by decide)).mp (lt_of_le_of_lt hj.2 h)
  have := (((List.nodup_range 64).filter _).subperm hsub).length_le
  rwa [List.length_range, ← List.countP_eq_length_filter] at this

theorem bitLength_le_64 (n : Nat) : bitLength n ≤ 64 :=
  (List.countP_le_length _).trans_eq (List.length_range 64)

theorem roundFloat64_cases (n : Nat) :
    roundFloat64 n + n % 2 ^ (bitLength n - 53) = n ∨
      (roundFloat64 n + n % 2 ^ (bitLength n - 53) = n + 2 ^ (bitLength n - 53) ∧
        2 ^ (bitLength n - 53) ≤ 2 * (n % 2 ^ (bitLength n - 53))) := by
  have hdm := Nat.div_add_mod n (2 ^ (bitLength n - 53))
  simp only [roundFloat64]
  generalize 2 ^ (bitLength n - 53) = p at *
  generalize n / p = q at *
  generalize n % p = r at *
  rw [Nat.mul_comm] at hdm
  split
  · exact .inr ⟨by rw [Nat.add_mul, Nat.one_mul]; omega, by omega⟩
  · exact .inl (by omega)

theorem roundFloat64_of_lt {n : Nat} (h : n < 2 ^ 53) : roundFloat64 n = n := by
  have hk : bitLength n - 53 = 0 := by have := bitLength_le h; omega
  rcases roundFloat64_cases n with h' | ⟨-, h'⟩ <;> simp only [hk, pow_zero, Nat.mod_one] at h' <;>
    omega

theorem lt_roundFloat64_add (n : Nat) : n < roundFloat64 n + 2 ^ 11 := by
  have hk : 2 ^ (bitLength n - 53) ≤ 2 ^ 11 :=
    Nat.pow_le_pow_right (by decide) (by have := bitLength_le_64 n; omega)
  have hr := Nat.mod_lt n (Nat.two_pow_pos (bitLength n - 53))
  have hc := roundFloat64_cases n
  generalize 2 ^ (bitLength n - 53) = p at *
  generalize n % p = r at *
  omega

/-- Below `2^63 - 512` rounding stays below `2^63`: the spacing there is at most `2^10`, and a
value rounds up by at most half of it. -/
theorem roundFloat64_lt {n : Nat} (h : n < 2 ^ 63 - 512) : roundFloat64 n < 2 ^ 63 := by
  have hk : 2 ^ (bitLength n - 53) ≤ 2 ^ 10 :=
    Nat.pow_le_pow_right (by decide) (by have := bitLength_le (show n < 2 ^ 63 by omega); omega)
  have hc := roundFloat64_cases n
  generalize 2 ^ (bitLength n - 53) = p at *
  generalize n % p = r at *
  omega

theorem float64OfInt_of_lt {x : Int} (h₀ : -2 ^ 53 < x) (h₁ : x < 2 ^ 53) : float64OfInt x = x := by
  unfold float64OfInt
  split <;> rw [roundFloat64_of_lt (by omega)] <;> omega

theorem floatMin_eq {b max : Int} (hb : 0 ≤ b) (hmax : -1 ≤ max) (hmax' : max ≤ 59) :
    floatMin b max = Min.min b max := by
  unfold floatMin
  rw [float64OfInt_of_lt (x := max) (by omega) (by omega)]
  rcases lt_or_le b (2 ^ 53) with hb' | hb'
  · rw [float64OfInt_of_lt (by omega) hb', intOfFloat64, if_pos (by omega)]
  · have h₁ := lt_roundFloat64_add b.natAbs
    have hf : float64OfInt b = roundFloat64 b.natAbs := by
      unfold float64OfInt; rw [if_neg (by omega)]
    rw [hf, min_eq_right (by omega), min_eq_right (by omega), intOfFloat64, if_pos (by omega)]

/-- The clamped start of a range whose start is below `2^63 - 512`: `max(a, min)`, or a value
above `59` that fits in `int` when `a` is above `59`. -/
theorem floatMax_cases {a min : Int} (ha : 0 ≤ a) (ha' : a < 2 ^ 63 - 512) (hmin : -1 ≤ min)
    (hmin' : min ≤ 59) :
    floatMax a min = Max.max a min ∨ (59 < a ∧ 59 < floatMax a min ∧ floatMax a min < 2 ^ 63) := by
  unfold floatMax
  rw [float64OfInt_of_lt (x := min) (by omega) (by omega)]
  rcases lt_or_le a (2 ^ 53) with h | h
  · exact .inl (by rw [float64OfInt_of_lt (by omega) h, intOfFloat64, if_pos (by omega)])
  · have h₁ := lt_roundFloat64_add a.natAbs
    have h₂ := roundFloat64_lt (n := a.natAbs) (by omega)
    have hf : float64OfInt a = roundFloat64 a.natAbs := by
      unfold float64OfInt; rw [if_neg (by omega)]
    rw [hf, max_eq_left (by omega), intOfFloat64, if_pos (by omega)]
    exact .inr ⟨by omega, by omega, by omega⟩

theorem floatMax_bounds {a min : Int} (ha : 0 ≤ a) (ha' : a < 2 ^ 63 - 512) (hmin : -1 ≤ min)
    (hmin' : min ≤ 59) : min ≤ floatMax a min ∧ floatMax a min < 2 ^ 63 := by
  rcases floatMax_cases ha ha' hmin hmin' with h | ⟨-, h₁, h₂⟩ <;> omega

theorem onProgression_floatMax {a min stop step n : Int} (ha : 0 ≤ a) (ha' : a < 2 ^ 63 - 512)
    (hmin : -1 ≤ min) (hmin' : min ≤ 59) (hstop : stop ≤ 59) :
    onProgression (floatMax a min) stop step n ↔ onProgression (Max.max a min) stop step n := by
  rcases floatMax_cases ha ha' hmin hmin' with h | ⟨h₁, h₂, -⟩
  · rw [h]
  · exact ⟨fun hp => absurd (hp.1.trans hp.2.1) (by omega),
      fun hp => absurd (hp.1.trans hp.2.1) (by omega)⟩

end Matcha.Task
