import Matcha.Util.Url

/-! # Goroutine ids

`GetGoroutineId` of package `parallel`, on the trace `runtime.Stack` writes for the calling
goroutine. -/
namespace Matcha.Parallel

open Matcha.Util Matcha.Task

inductive GoroutineIdError where
  /-- `IllegalStackFragmentError`. -/
  | illegalStackFragment
  /-- The `*strconv.NumError` of `strconv.ParseUint` on `num`: out of range, or not a number. -/
  | parseUint (num : List Char) (range : Bool)
  deriving DecidableEq, Repr

/-- `strconv.ParseUint(s, 10, 64)`: decimal digits only (no sign, no `_` in base 10), below
`2^64`. -/
def parseUint (s : List Char) : Except GoroutineIdError Nat :=
  if isDigits s then
    if digitsValue s < 2 ^ 64 then .ok (digitsValue s) else .error (.parseUint s true)
  else .error (.parseUint s false)

/-- `GetGoroutineId` on the whole trace `runtime.Stack` has for the calling goroutine: only
`readBuffer[:count]`, its first 64 bytes, is read. -/
def getGoroutineId (stack : List Char) : Except GoroutineIdError Nat :=
  let stackFragment := stack.take 64
  let stackFragmentParts := stackFragment.splitOn ' '
  if stackFragmentParts.length < 2 then .error .illegalStackFragment
  else parseUint (stackFragmentParts.getD 1 [])

def stackOf (id : Nat) (status frames : List Char) : List Char :=
  "goroutine".toList ++ ' ' :: (Nat.toDigits 10 id ++ ' ' :: ('[' :: status ++ ']' :: ':' ::
    '\n' :: frames))

theorem length_toDigits_le {id : Nat} (h : id < 2 ^ 64) : (Nat.toDigits 10 id).length ≤ 20 :=
  Nat.toDigitsCore_length 10 (by decide) (id + 1) id 20 (lt_trans h (by decide)) (by decide)

theorem getGoroutineId_stackOf {id : Nat} (h : id < 2 ^ 64) (status frames : List Char) :
    getGoroutineId (stackOf id status frames) = .ok id := by
  obtain ⟨hd, hv⟩ := toDigits_spec id
  have hlen := length_toDigits_le h
  have hspace : ' ' ∉ Nat.toDigits 10 id := not_mem_of_isDigits hd (by decide)
  have htake : (stackOf id status frames).take 64 =
      ("goroutine".toList ++ ' ' :: (Nat.toDigits 10 id ++ [' '])) ++
        ('[' :: status ++ ']' :: ':' :: '\n' :: frames).take
          (64 - ("goroutine".toList ++ ' ' :: (Nat.toDigits 10 id ++ [' '])).length) := by
    rw [stackOf, show "goroutine".toList ++ ' ' :: (Nat.toDigits 10 id ++ ' ' :: ('[' :: status ++
      ']' :: ':' :: '\n' :: frames)) = ("goroutine".toList ++ ' ' :: (Nat.toDigits 10 id ++ [' '])) ++
      ('[' :: status ++ ']' :: ':' :: '\n' :: frames) by simp,
      List.take_append_eq_append_take, List.take_of_length_le (by simp; omega)]
  have hsplit : ((stackOf id status frames).take 64).splitOn ' ' = "goroutine".toList ::
      Nat.toDigits 10 id :: (('[' :: status ++ ']' :: ':' :: '\n' :: frames).take
        (64 - ("goroutine".toList ++ ' ' :: (Nat.toDigits 10 id ++ [' '])).length)).splitOn ' ' := by
    rw [htake, List.append_assoc, List.cons_append, List.append_assoc, List.singleton_append,
      splitOn_append_cons _ (by decide), splitOn_append_cons _ hspace]
  rw [getGoroutineId, hsplit, if_neg (by simp only [List.length_cons]; omega)]
  have h' : id < 18446744073709551616 := h
  simp [parseUint, hd, hv, h']

theorem getGoroutineId_stackOf_running :
    18 < 2 ^ 64 ∧ getGoroutineId (stackOf 18 "running".toList "main.main()".toList) = .ok 18 :=
  ⟨by decide, getGoroutineId_stackOf (by decide) _ _⟩

end Matcha.Parallel
