import Mathlib.Data.Nat.Bitwise
import Mathlib.Data.Finset.Card

/-! # The byte-slice bit set

`byteSliceBitSet` of `util/bitset.go`. A Go `int` is an `Int` whose `/` and `%` truncate and a
`byte` a `Nat` below 256; an index out of range, or a `make` the runtime refuses, panics: `none`. -/
namespace Matcha.Util

/-- Go's `int` after an addition: two's complement on 64 bits. -/
def wrapInt (x : Int) : Int := (x + 2 ^ 63) % 2 ^ 64 - 2 ^ 63

@[simp] theorem wrapInt_of_lt {x : Int} (h₀ : -2 ^ 63 ≤ x) (h₁ : x < 2 ^ 63) : wrapInt x = x := by
  unfold wrapInt; omega

/-- The runtime's `maxAlloc` on a 64-bit target: the most bytes one `make` may ask for. -/
def maxAlloc : Int := 2 ^ 48

/-- `make([]byte, n)`: `n` zero bytes, or the panic of a length that is negative or above
`maxAlloc`. -/
def makeSlice (n : Int) : Option (List Nat) :=
  if n < 0 ∨ maxAlloc < n then none else some (List.replicate n.toNat 0)

structure ByteSliceBitSet where
  bytes : List Nat
  wordInUse : Int
  deriving DecidableEq, Repr

/-- `copy(dst, src)`: the first `min(len(dst), len(src))` elements of `dst` become `src`'s. -/
def copySlice (dst src : List Nat) : List Nat := src.take dst.length ++ dst.drop src.length

def locateBit (index : Int) : Int × Int :=
  if (index + 1).tmod 8 = 0 then ((index + 1).tdiv 8 - 1, 7)
  else ((index + 1).tdiv 8, (index + 1).tmod 8 - 1)

namespace ByteSliceBitSet

variable (bs : ByteSliceBitSet)

def newByteSliceBitSet : ByteSliceBitSet := ⟨[], 0⟩

/-- `bs.bytes[i]`, or `none` for the panic of an index out of range. -/
def byteAt (i : Int) : Option Nat := if i < 0 then none else bs.bytes[i.toNat]?

def checkCapacity (index : Int) : Bool := !((bs.bytes.length : Int) * 8 - 1 < index)

def checkAndIncreaseCapacity (index : Int) : Option ByteSliceBitSet :=
  if index < 0 then some bs
  else if !bs.checkCapacity index then
    let newCapacity :=
      if (wrapInt (index + 1)).tmod 8 = 0 then (wrapInt (index + 1)).tdiv 8
      else (wrapInt (index + 1)).tdiv 8 + 1
    (makeSlice newCapacity).map fun newBytes => { bs with bytes := copySlice newBytes bs.bytes }
  else some bs

def clear (index : Int) : Option ByteSliceBitSet :=
  if index < 0 then some bs
  else if !bs.checkCapacity index then some bs
  else (bs.checkAndIncreaseCapacity index).bind fun bs =>
    let (byteIndex, bitIndex) := locateBit index
    (bs.byteAt byteIndex).map fun b =>
      { bytes := bs.bytes.set byteIndex.toNat (b &&& (255 ^^^ 1 <<< bitIndex.toNat))
        wordInUse := if b &&& 1 <<< bitIndex.toNat ≠ 0 then bs.wordInUse - 1 else bs.wordInUse }

def set (index : Int) : Option ByteSliceBitSet :=
  if index < 0 then some bs
  else (bs.checkAndIncreaseCapacity index).bind fun bs =>
    let (byteIndex, bitIndex) := locateBit index
    (bs.byteAt byteIndex).map fun b =>
      { bytes := bs.bytes.set byteIndex.toNat (b ||| 1 <<< bitIndex.toNat)
        wordInUse := bs.wordInUse + 1 }

def get (index : Int) : Option Bool :=
  if index < 0 then some false
  else if !bs.checkCapacity index then some false
  else
    let (byteIndex, bitIndex) := locateBit index
    (bs.byteAt byteIndex).map fun b => b &&& 1 <<< bitIndex.toNat ≠ 0

def isEmpty : Bool := bs.wordInUse = 0

def reset : ByteSliceBitSet := ⟨[], 0⟩

/-- Bit `i` as the bytes hold it; past the slice every bit is clear. -/
def bitAt (i : Nat) : Bool := (bs.bytes.getD (i / 8) 0).testBit (i % 8)

def bits : Finset Nat := (Finset.range (8 * bs.bytes.length)).filter (bs.bitAt ·)

variable {bs}

theorem bitAt_of_le {i : Nat} (h : 8 * bs.bytes.length ≤ i) : bs.bitAt i = false := by
  rw [bitAt, List.getD_eq_default _ _ (by omega), Nat.zero_testBit]

theorem mem_bits {i : Nat} : i ∈ bs.bits ↔ bs.bitAt i = true := by
  simp only [bits, Finset.mem_filter, Finset.mem_range, and_iff_right_iff_imp]
  intro h
  by_contra hi
  rw [bitAt_of_le (by omega)] at h
  cases h

theorem tdiv_succ_ofNat (n : Nat) : ((n : Int) + 1).tdiv 8 = (((n + 1) / 8 : Nat) : Int) := by
  rw [Int.ofNat_tdiv]; push_cast; rfl

theorem tmod_succ_ofNat (n : Nat) : ((n : Int) + 1).tmod 8 = (((n + 1) % 8 : Nat) : Int) := by
  rw [Int.ofNat_tmod]; push_cast; rfl

theorem locateBit_ofNat (n : Nat) : locateBit n = (((n / 8 : Nat) : Int), ((n % 8 : Nat) : Int)) := by
  unfold locateBit
  rw [tdiv_succ_ofNat, tmod_succ_ofNat]
  split <;> simp only [Prod.mk.injEq] <;> omega

theorem checkCapacity_ofNat (n : Nat) : bs.checkCapacity n = decide (n < 8 * bs.bytes.length) := by
  unfold checkCapacity
  by_cases h : n < 8 * bs.bytes.length <;> simp [h] <;> omega

@[simp] theorem byteAt_ofNat (n : Nat) : bs.byteAt n = bs.bytes[n]? :=
  if_neg (by omega)

theorem and_shiftLeft_ne_zero (b k : Nat) : (b &&& 1 <<< k ≠ 0) ↔ b.testBit k = true := by
  rw [Nat.shiftLeft_eq, Nat.one_mul, Nat.and_two_pow]
  cases b.testBit k <;> simp

theorem copySlice_zeros {src : List Nat} {c : Nat} (h : src.length ≤ c) :
    copySlice (List.replicate c 0) src = src ++ List.replicate (c - src.length) 0 := by
  simp [copySlice, List.take_of_length_le, h, List.drop_replicate]

theorem getD_append_zeros (l : List Nat) (m i : Nat) :
    (l ++ List.replicate m 0).getD i 0 = l.getD i 0 := by
  rcases Nat.lt_or_ge i l.length with h | h
  · exact List.getD_append _ _ _ _ h
  · rw [List.getD_append_right _ _ _ _ h, List.getD_eq_default _ _ h, List.getD_eq_getElem?_getD,
      List.getElem?_getD_replicate_default_eq]

theorem get_eq (i : Int) : bs.get i = some (decide (0 ≤ i) && bs.bitAt i.toNat) := by
  unfold get
  split
  · rw [decide_eq_false (by omega), Bool.false_and]
  obtain ⟨n, rfl⟩ := Int.eq_ofNat_of_zero_le (by omega : 0 ≤ i)
  rw [checkCapacity_ofNat, locateBit_ofNat, Int.toNat_ofNat, decide_eq_true (Int.ofNat_nonneg n),
    Bool.true_and]
  by_cases hn : n < 8 * bs.bytes.length
  · simp only [hn, decide_True, Bool.not_true, Bool.false_eq_true, if_false, byteAt_ofNat,
      List.getElem?_eq_getElem (show n / 8 < bs.bytes.length by omega), Option.map_some',
      Int.toNat_ofNat, bitAt, List.getD_eq_getElem?_getD, Option.getD_some, Option.some.injEq]
    exact Bool.eq_iff_iff.mpr (decide_eq_true_iff.trans (and_shiftLeft_ne_zero _ _))
  · simp only [hn, decide_False, Bool.not_false, if_true, bitAt_of_le (Nat.le_of_not_lt hn)]

theorem makeSlice_length {n : Int} {l : List Nat} (h : makeSlice n = some l) :
    l.length ≤ 2 ^ 48 := by
  unfold makeSlice maxAlloc at h
  split at h
  · cases h
  · cases h
    rw [List.length_replicate]
    omega

theorem length_checkAndIncreaseCapacity {i : Int} {bs' : ByteSliceBitSet}
    (h : bs.checkAndIncreaseCapacity i = some bs') :
    bs'.bytes.length = bs.bytes.length ∨ bs'.bytes.length ≤ 2 ^ 48 := by
  unfold checkAndIncreaseCapacity at h
  by_cases h₁ : i < 0
  · rw [if_pos h₁] at h; cases h; exact .inl rfl
  rw [if_neg h₁] at h
  by_cases h₂ : (!bs.checkCapacity i) = true
  · rw [if_pos h₂] at h
    obtain ⟨l, hl, rfl⟩ := Option.map_eq_some'.mp h
    have := makeSlice_length hl
    exact .inr (by simp only [copySlice, List.length_append, List.length_take, List.length_drop]; omega)
  · rw [if_neg h₂] at h; cases h; exact .inl rfl

theorem newCapacity_ofNat {n : Nat} (hn : n + 1 < 2 ^ 63) :
    (if (wrapInt ((n : Int) + 1)).tmod 8 = 0 then (wrapInt ((n : Int) + 1)).tdiv 8
      else (wrapInt ((n : Int) + 1)).tdiv 8 + 1) = ((n / 8 + 1 : Nat) : Int) := by
  rw [wrapInt_of_lt (by omega) (by omega), tdiv_succ_ofNat, tmod_succ_ofNat]
  split <;> omega

theorem checkAndIncreaseCapacity_ofNat {n : Nat} (hn : n < 2 ^ 51) :
    ∃ bs', bs.checkAndIncreaseCapacity n = some bs' ∧ bs'.wordInUse = bs.wordInUse ∧
      n < 8 * bs'.bytes.length ∧ ∀ j, bs'.bitAt j = bs.bitAt j := by
  unfold checkAndIncreaseCapacity
  rw [if_neg (by omega), checkCapacity_ofNat]
  by_cases hlt : n < 8 * bs.bytes.length
  · simp only [hlt, decide_True, Bool.not_true, Bool.false_eq_true, if_false]
    exact ⟨bs, rfl, rfl, hlt, fun _ => rfl⟩
  · have hm : makeSlice ((n / 8 + 1 : Nat) : Int) = some (List.replicate (n / 8 + 1) 0) := by
      rw [makeSlice, if_neg (by simp only [maxAlloc]; omega), Int.toNat_ofNat]
    simp only [hlt, decide_False, Bool.not_false, if_true, newCapacity_ofNat (show n + 1 < 2 ^ 63 by omega),
      hm, Option.map_some', Option.some.injEq, exists_eq_left', bitAt, getD_append_zeros,
      copySlice_zeros (show bs.bytes.length ≤ n / 8 + 1 by omega), List.length_append,
      List.length_replicate, implies_true, and_true, true_and]
    omega

/-- Bit `n` from `2^51` up to the largest `int` needs more than `maxAlloc` bytes: `make` panics,
also at the largest `int`, where `index + 1` wraps to the smallest. -/
theorem checkAndIncreaseCapacity_eq_none {n : Nat} (hn : 2 ^ 51 ≤ n) (hn' : n < 2 ^ 63)
    (hl : bs.bytes.length ≤ 2 ^ 48) : bs.checkAndIncreaseCapacity n = none := by
  unfold checkAndIncreaseCapacity
  rw [if_neg (by omega), checkCapacity_ofNat, decide_eq_false (by omega)]
  simp only [Bool.not_false, if_true, Option.map_eq_none']
  rcases Nat.lt_or_ge (n + 1) (2 ^ 63) with hw | hw
  · rw [newCapacity_ofNat hw, makeSlice, if_pos (.inr (by simp only [maxAlloc]; omega))]
  · obtain rfl : n = 2 ^ 63 - 1 := by omega
    rfl

theorem bitAt_eq_byte {q j : Nat} (hq : q < bs.bytes.length) (h : j / 8 = q) :
    bs.bitAt j = bs.bytes[q].testBit (j % 8) := by
  rw [bitAt, h, List.getD_eq_getElem _ _ hq]

theorem bitAt_set_byte {q : Nat} (hq : q < bs.bytes.length) (x : Nat) (w : Int) (j : Nat) :
    ({ bytes := bs.bytes.set q x, wordInUse := w } : ByteSliceBitSet).bitAt j =
      if j / 8 = q then x.testBit (j % 8) else bs.bitAt j := by
  unfold bitAt
  split
  · rename_i h
    rw [h, List.getD_eq_getElem?_getD, List.getElem?_set_self hq]; rfl
  · rename_i h
    rw [List.getD_eq_getElem?_getD, List.getD_eq_getElem?_getD, List.getElem?_set_ne (Ne.symm h)]

theorem testBit_or_shiftLeft (b k i : Nat) : (b ||| 1 <<< k).testBit i = (b.testBit i || decide (k = i)) := by
  rw [Nat.testBit_or, Nat.shiftLeft_eq, Nat.one_mul, Nat.testBit_two_pow]

theorem testBit_and_not_shiftLeft (b : Nat) {k i : Nat} (hi : i < 8) :
    (b &&& (255 ^^^ 1 <<< k)).testBit i = (b.testBit i && !decide (k = i)) := by
  rw [Nat.testBit_and, Nat.testBit_xor, Nat.shiftLeft_eq, Nat.one_mul, Nat.testBit_two_pow,
    show (255 : Nat) = 2 ^ 8 - 1 from rfl, Nat.testBit_two_pow_sub_one, decide_eq_true hi,
    Bool.true_xor]

theorem set_ofNat {n : Nat} (hn : n < 2 ^ 51) : ∃ bs', bs.set n = some bs' ∧
    bs'.wordInUse = bs.wordInUse + 1 ∧ ∀ j, bs'.bitAt j = (bs.bitAt j || decide (j = n)) := by
  obtain ⟨bc, hc, hw, hlt, hb⟩ := bs.checkAndIncreaseCapacity_ofNat hn
  simp only [set, if_neg (Int.not_lt.mpr (Int.ofNat_nonneg n)), hc, Option.some_bind,
    locateBit_ofNat, byteAt_ofNat, List.getElem?_eq_getElem (show n / 8 < bc.bytes.length by omega),
    Option.map_some', Int.toNat_ofNat]
  refine ⟨_, rfl, by rw [hw], fun j => ?_⟩
  rw [bitAt_set_byte (by omega), ← hb j]
  split
  · rename_i h
    rw [testBit_or_shiftLeft, bitAt_eq_byte (by omega) h]
    exact congrArg _ (decide_eq_decide.mpr (by omega))
  · rw [decide_eq_false (by omega), Bool.or_false]

theorem clear_ofNat (n : Nat) : ∃ bs', bs.clear n = some bs' ∧
    bs'.wordInUse = (if bs.bitAt n then bs.wordInUse - 1 else bs.wordInUse) ∧
    ∀ j, bs'.bitAt j = (bs.bitAt j && !decide (j = n)) := by
  by_cases hn : n < 8 * bs.bytes.length
  · have hg : bs.checkAndIncreaseCapacity n = some bs := by
      simp [checkAndIncreaseCapacity, checkCapacity_ofNat, hn]
    have hq : n / 8 < bs.bytes.length := by omega
    simp only [clear, if_neg (Int.not_lt.mpr (Int.ofNat_nonneg n)), checkCapacity_ofNat, hn,
      decide_True, Bool.not_true, Bool.false_eq_true, if_false, hg, Option.some_bind,
      locateBit_ofNat, byteAt_ofNat,
      List.getElem?_eq_getElem hq, Option.map_some', Int.toNat_ofNat, and_shiftLeft_ne_zero,
      ← bitAt_eq_byte hq rfl]
    refine ⟨_, rfl, rfl, fun j => ?_⟩
    rw [bitAt_set_byte hq]
    split
    · rename_i h
      rw [testBit_and_not_shiftLeft _ (Nat.mod_lt _ (by decide)), bitAt_eq_byte hq h]
      exact congrArg _ (congrArg _ (decide_eq_decide.mpr (by omega)))
    · rw [decide_eq_false (by omega), Bool.not_false, Bool.and_true]
  · have h0 := bitAt_of_le (Nat.le_of_not_lt hn)
    simp only [clear, if_neg (Int.not_lt.mpr (Int.ofNat_nonneg n)), checkCapacity_ofNat, hn,
      decide_False, Bool.not_false, if_true, h0]
    refine ⟨bs, rfl, rfl, fun j => ?_⟩
    by_cases hj : j = n
    · rw [hj, h0, Bool.false_and]
    · rw [decide_eq_false hj, Bool.not_false, Bool.and_true]

@[simp] theorem bitAt_reset (j : Nat) : reset.bitAt j = false := bitAt_of_le (Nat.zero_le j)

theorem bits_of_set {bs' : ByteSliceBitSet} {n : Nat}
    (h : ∀ j, bs'.bitAt j = (bs.bitAt j || decide (j = n))) : bs'.bits = insert n bs.bits := by
  ext j
  simp only [mem_bits, h, Finset.mem_insert, Bool.or_eq_true, decide_eq_true_eq]
  exact Or.comm

theorem bits_of_clear {bs' : ByteSliceBitSet} {n : Nat}
    (h : ∀ j, bs'.bitAt j = (bs.bitAt j && !decide (j = n))) : bs'.bits = bs.bits.erase n := by
  ext j
  simp only [mem_bits, h, Finset.mem_erase, Bool.and_eq_true, Bool.not_eq_true',
    decide_eq_false_iff_not]
  exact And.comm

theorem set_int {i : Int} (hi : i < 2 ^ 51) : ∃ bs', bs.set i = some bs' ∧
    (bs'.wordInUse = if 0 ≤ i then bs.wordInUse + 1 else bs.wordInUse) ∧
    ∀ j : Nat, bs'.bitAt j = (bs.bitAt j || decide ((j : Int) = i)) := by
  rcases Int.lt_or_le i 0 with hi | hi
  · refine ⟨bs, if_pos hi, by rw [if_neg (by omega)], fun j => ?_⟩
    rw [decide_eq_false (by omega), Bool.or_false]
  · obtain ⟨n, rfl⟩ := Int.eq_ofNat_of_zero_le hi
    obtain ⟨bs', hs, hw, hb⟩ := bs.set_ofNat (show n < 2 ^ 51 by omega)
    refine ⟨bs', hs, by rw [if_pos ‹0 ≤ (n : Int)›, hw], fun j => ?_⟩
    rw [hb]
    exact congrArg _ (decide_eq_decide.mpr Int.ofNat_inj.symm)

/-- `Set(i)` panics for every `int` from `2^51` on, on every slice `make` could have made. -/
theorem set_eq_none {i : Int} (hi : 2 ^ 51 ≤ i) (hi' : i < 2 ^ 63)
    (hl : bs.bytes.length ≤ 2 ^ 48) : bs.set i = none := by
  obtain ⟨n, rfl⟩ := Int.eq_ofNat_of_zero_le (show 0 ≤ i by omega)
  rw [set, if_neg (by omega), checkAndIncreaseCapacity_eq_none (by omega) (by omega) hl]
  rfl

theorem length_set {i : Int} {bs' : ByteSliceBitSet} (h : bs.set i = some bs')
    (hl : bs.bytes.length ≤ 2 ^ 48) : bs'.bytes.length ≤ 2 ^ 48 := by
  unfold set at h
  split at h
  · cases h; exact hl
  · obtain ⟨bc, hc, h⟩ := Option.bind_eq_some.mp h
    generalize locateBit i = p at h
    obtain ⟨b, -, rfl⟩ := Option.map_eq_some'.mp h
    rw [List.length_set]
    rcases length_checkAndIncreaseCapacity hc with h' | h' <;> omega

theorem length_clear {i : Int} {bs' : ByteSliceBitSet} (h : bs.clear i = some bs')
    (hl : bs.bytes.length ≤ 2 ^ 48) : bs'.bytes.length ≤ 2 ^ 48 := by
  unfold clear at h
  split_ifs at h
  · cases h; exact hl
  · cases h; exact hl
  · obtain ⟨bc, hc, h⟩ := Option.bind_eq_some.mp h
    generalize locateBit i = p at h
    obtain ⟨b, -, rfl⟩ := Option.map_eq_some'.mp h
    rw [List.length_set]
    rcases length_checkAndIncreaseCapacity hc with h' | h' <;> omega

/-- With no `Clear`, `wordInUse` counts the `Set` calls on non-negative indexes, so `IsEmpty`
holds exactly when no bit is set. -/
structure EmptyExact (bs : ByteSliceBitSet) : Prop where
  nonneg : 0 ≤ bs.wordInUse
  isEmpty_iff : bs.isEmpty = true ↔ ∀ n, bs.bitAt n = false

theorem emptyExact_reset : EmptyExact reset := ⟨le_refl 0, iff_of_true rfl bitAt_reset⟩

theorem EmptyExact.set (h : EmptyExact bs) {i : Int} (hi : i < 2 ^ 51) {bs' : ByteSliceBitSet}
    (hs : bs.set i = some bs') : EmptyExact bs' := by
  obtain ⟨b, hb, hw, hbit⟩ := bs.set_int hi
  obtain rfl : b = bs' := Option.some.inj (hb.symm.trans hs)
  have h0 := h.nonneg
  split at hw
  · obtain ⟨n, rfl⟩ := Int.eq_ofNat_of_zero_le ‹_›
    have hn : b.bitAt n = true := by simp [hbit]
    refine ⟨by omega, ?_⟩
    simp only [isEmpty, hw, decide_eq_true_eq]
    exact ⟨fun _ => by omega, fun hz => absurd (hz n) (by simp [hn])⟩
  · have hbits : ∀ j, b.bitAt j = bs.bitAt j := fun j => by
      rw [hbit, decide_eq_false (by omega), Bool.or_false]
    refine ⟨hw ▸ h0, ?_⟩
    simp only [isEmpty, hw, hbits]
    exact h.isEmpty_iff

end ByteSliceBitSet

inductive BitSetOp where
  | set (index : Int)
  | clear (index : Int)
  | reset
  deriving DecidableEq, Repr

namespace BitSetOp

open ByteSliceBitSet

def apply (bs : ByteSliceBitSet) : BitSetOp → Option ByteSliceBitSet
  | set i => bs.set i
  | clear i => bs.clear i
  | reset => some ByteSliceBitSet.reset

/-- Whether the call decides bit `i`: `Set(i)`, `Clear(i)` or `Reset()`. -/
def writes (i : Int) : BitSetOp → Bool
  | set j => j = i
  | clear j => j = i
  | reset => true

def isSet : BitSetOp → Bool
  | set _ => true
  | _ => false

end BitSetOp

open ByteSliceBitSet

def run (bs : ByteSliceBitSet) : List BitSetOp → Option ByteSliceBitSet
  | [] => some bs
  | op :: ops => (op.apply bs).bind (run · ops)

theorem run_append (bs : ByteSliceBitSet) (ops : List BitSetOp) (op : BitSetOp) :
    run bs (ops ++ [op]) = (run bs ops).bind (op.apply ·) := by
  induction ops generalizing bs with
  | nil => simp [run]
  | cons op' ops ih => simp [run, ih, Option.bind_assoc]

theorem run_length_le {bs bs' : ByteSliceBitSet} {ops : List BitSetOp}
    (h : run bs ops = some bs') (hl : bs.bytes.length ≤ 2 ^ 48) : bs'.bytes.length ≤ 2 ^ 48 := by
  induction ops generalizing bs with
  | nil => cases h; exact hl
  | cons op ops ih =>
    obtain ⟨b, hb, h⟩ := Option.bind_eq_some.mp h
    refine ih h ?_
    cases op with
    | set i => exact length_set hb hl
    | clear i => exact length_clear hb hl
    | reset => cases hb; exact Nat.zero_le _

/-- What a set of integers answers after a history: `i` is in it when the most recent of
`Set(i)`, `Clear(i)` and `Reset()` is a `Set(i)`. -/
def lastWriteIsSet (ops : List BitSetOp) (i : Int) : Bool :=
  (ops.reverse.find? (·.writes i)).any BitSetOp.isSet

theorem lastWriteIsSet_append (ops : List BitSetOp) (op : BitSetOp) (i : Int) :
    lastWriteIsSet (ops ++ [op]) i = if op.writes i then op.isSet else lastWriteIsSet ops i := by
  simp only [lastWriteIsSet, List.reverse_append, List.reverse_singleton, List.singleton_append,
    List.find?_cons]
  split <;> simp_all

/-- The bytes hold the history's answer at every index, and `wordInUse` is at least the number
of set bits. -/
structure Tracks (ops : List BitSetOp) (bs : ByteSliceBitSet) : Prop where
  bitAt_eq : ∀ n : Nat, bs.bitAt n = lastWriteIsSet ops n
  card_le : (bs.bits.card : Int) ≤ bs.wordInUse

theorem tracks_nil : Tracks [] newByteSliceBitSet :=
  ⟨fun n => bitAt_reset n, by simp [bits, newByteSliceBitSet]⟩

namespace Tracks

variable {ops : List BitSetOp} {bs : ByteSliceBitSet}

theorem step (h : Tracks ops bs) {op : BitSetOp} (hop : ∀ i, op = .set i → i < 2 ^ 51) :
    ∃ bs', op.apply bs = some bs' ∧ Tracks (ops ++ [op]) bs' := by
  cases op with
  | set i =>
    rcases Int.lt_or_le i 0 with hi | hi
    · refine ⟨bs, if_pos hi, fun n => ?_, h.card_le⟩
      rw [h.bitAt_eq, lastWriteIsSet_append, if_neg (by simp [BitSetOp.writes]; omega)]
    obtain ⟨n, rfl⟩ := Int.eq_ofNat_of_zero_le hi
    obtain ⟨bs', hs, hw, hb⟩ := bs.set_ofNat (show n < 2 ^ 51 by have := hop _ rfl; omega)
    refine ⟨bs', hs, fun j => ?_, ?_⟩
    · rw [hb, h.bitAt_eq, lastWriteIsSet_append]
      obtain rfl | hj := eq_or_ne j n
      · simp [BitSetOp.writes, BitSetOp.isSet]
      · rw [decide_eq_false hj, Bool.or_false, if_neg (by simp [BitSetOp.writes]; omega)]
    · have := Finset.card_insert_le n bs.bits
      have := h.card_le
      rw [bits_of_set hb, hw]
      omega
  | clear i =>
    rcases Int.lt_or_le i 0 with hi | hi
    · refine ⟨bs, if_pos hi, fun n => ?_, h.card_le⟩
      rw [h.bitAt_eq, lastWriteIsSet_append, if_neg (by simp [BitSetOp.writes]; omega)]
    obtain ⟨n, rfl⟩ := Int.eq_ofNat_of_zero_le hi
    obtain ⟨bs', hs, hw, hb⟩ := @clear_ofNat bs n
    refine ⟨bs', hs, fun j => ?_, ?_⟩
    · rw [hb, h.bitAt_eq, lastWriteIsSet_append]
      obtain rfl | hj := eq_or_ne j n
      · simp [BitSetOp.writes, BitSetOp.isSet]
      · rw [decide_eq_false hj, Bool.not_false, Bool.and_true,
          if_neg (by simp [BitSetOp.writes]; omega)]
    · rw [bits_of_clear hb, hw]
      split
      · rename_i hn
        have := Finset.card_pos.mpr ⟨n, mem_bits.mpr hn⟩
        have := h.card_le
        rw [Finset.card_erase_of_mem (mem_bits.mpr hn)]
        omega
      · rename_i hn
        rw [Finset.erase_eq_of_not_mem (fun hm => hn (mem_bits.mp hm))]
        exact h.card_le
  | reset =>
    refine ⟨reset, rfl, fun n => ?_, by simp [bits, ByteSliceBitSet.reset]⟩
    rw [bitAt_reset, lastWriteIsSet_append]
    rfl

theorem get_eq_lastWriteIsSet (h : Tracks ops bs) (i : Int) :
    bs.get i = some (decide (0 ≤ i) && lastWriteIsSet ops i) := by
  rw [ByteSliceBitSet.get_eq]
  rcases Int.lt_or_le i 0 with hi | hi
  · rw [decide_eq_false (Int.not_le.mpr hi), Bool.false_and, Bool.false_and]
  · obtain ⟨n, rfl⟩ := Int.eq_ofNat_of_zero_le hi
    rw [Int.toNat_ofNat, h.bitAt_eq]

theorem get_of_isEmpty (h : Tracks ops bs) (he : bs.isEmpty = true) (i : Int) :
    bs.get i = some false := by
  have hc : bs.bits = ∅ := by
    have := h.card_le
    simp only [isEmpty, decide_eq_true_eq] at he
    exact Finset.card_eq_zero.mp (by omega)
  have hb : bs.bitAt i.toNat = false :=
    Bool.eq_false_iff.mpr fun hb => by simpa [hc] using mem_bits.mpr hb
  rw [ByteSliceBitSet.get_eq, hb, Bool.and_false]

end Tracks

/-- Every history whose `Set` calls stay below `2^51` runs without a panic, and the bit set
tracks it. -/
theorem run_tracks (ops : List BitSetOp) (hops : ∀ i, BitSetOp.set i ∈ ops → i < 2 ^ 51) :
    ∃ bs, run newByteSliceBitSet ops = some bs ∧ Tracks ops bs := by
  induction ops using List.reverseRecOn with
  | nil => exact ⟨_, rfl, tracks_nil⟩
  | append_singleton ops op ih =>
    obtain ⟨bs, hr, ht⟩ := ih fun i hi => hops i (List.mem_append_left _ hi)
    obtain ⟨bs', ha, ht'⟩ := ht.step fun i (hi : op = .set i) =>
      hops i (List.mem_append_right _ (by rw [hi]; exact List.mem_singleton_self _))
    exact ⟨bs', by rw [run_append, hr, Option.some_bind, ha], ht'⟩

/-- After every history of `Set`, `Clear` and `Reset` calls whose `Set` indexes stay below `2^51`,
`Get(i)` holds exactly when `i >= 0` and the most recent call that decides bit `i` is `Set(i)`,
`wordInUse` is at least the number of set bits, and so `IsEmpty` implies that no `Get` holds.
From `2^51` on `Set` panics in `make`, whatever came before. The converse of the `IsEmpty` part
fails: after `Set(1)`, `Set(1)`, `Clear(1)` no bit is set, yet `wordInUse` is one. -/
theorem byteSliceBitSet_get_sound_isEmpty_incomplete :
    (∀ ops, (∀ i, BitSetOp.set i ∈ ops → i < 2 ^ 51) → ∃ bs, run newByteSliceBitSet ops = some bs ∧
      (∀ i, bs.get i = some (decide (0 ≤ i) && lastWriteIsSet ops i)) ∧
      (bs.bits.card : Int) ≤ bs.wordInUse ∧
      (bs.isEmpty = true → ∀ i, bs.get i = some false)) ∧
    (∀ ops bs i, run newByteSliceBitSet ops = some bs → 2 ^ 51 ≤ i → i < 2 ^ 63 →
      bs.set i = none) ∧
    ∃ bs, run newByteSliceBitSet [.set 1, .set 1, .clear 1] = some bs ∧
      (∀ i, bs.get i = some false) ∧ bs.isEmpty = false ∧ bs.wordInUse = 1 := by
  refine ⟨fun ops hops => ?_, fun ops bs i hr hi hi' =>
    set_eq_none hi hi' (run_length_le hr (Nat.zero_le _)), ?_⟩
  · obtain ⟨bs, hr, ht⟩ := run_tracks ops hops
    exact ⟨bs, hr, ht.get_eq_lastWriteIsSet, ht.card_le, ht.get_of_isEmpty⟩
  · obtain ⟨bs, hr, ht⟩ := run_tracks [.set 1, .set 1, .clear 1]
      fun i hi => by simp at hi; omega
    have hbs : bs = ⟨[0], 1⟩ := Option.some.inj (hr.symm.trans (by decide))
    refine ⟨bs, hr, fun i => ?_, by rw [hbs]; rfl, by rw [hbs]⟩
    rw [ht.get_eq_lastWriteIsSet]
    by_cases hi : (1 : Int) = i <;> simp [lastWriteIsSet, BitSetOp.writes, BitSetOp.isSet, hi]

end Matcha.Util
