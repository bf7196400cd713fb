import Mathlib.Tactic.Positivity

/-! # The elastic byte buffer

`elasticUnsafeByteBuf` of `util/bitset.go` (package `buffer`). A slice built by `make` has capacity
equal to its length, so each out-of-range slice expression is a panic, `none`. -/
namespace Matcha.Buffer

/-- `float32(n)` for a natural `n`: round to nearest, ties to even, at 24 significant bits. -/
def roundFloat32 (n : Nat) : Nat :=
  let k := n.log2 - 23
  let q := n / 2 ^ k
  let r := n % 2 ^ k
  (if 2 ^ k < 2 * r ∨ (2 * r = 2 ^ k ∧ q % 2 = 1) then q + 1 else q) * 2 ^ k

/-- The size `WriteBytes` reallocates to. The float32 constant `1.2` is `10066330 / 2^23`;
the product is rounded to float32 and `int` truncates. -/
def growSize (need : Nat) : Nat := roundFloat32 (roundFloat32 need * 10066330) / 2 ^ 23

private theorem mod_pow_mul_le (n : Nat) : n % 2 ^ (n.log2 - 23) * 2 ^ 23 ≤ n := by
  rcases Nat.eq_zero_or_pos (n.log2 - 23) with h | h
  · simp [h, Nat.mod_one]
  · have hn : n ≠ 0 := by rintro rfl; simp at h
    calc n % 2 ^ (n.log2 - 23) * 2 ^ 23 ≤ 2 ^ (n.log2 - 23) * 2 ^ 23 :=
          Nat.mul_le_mul_right _ (Nat.mod_lt _ (by positivity)).le
      _ = 2 ^ n.log2 := by rw [← Nat.pow_add, Nat.sub_add_cancel (by omega)]
      _ ≤ n := Nat.log2_self_le hn

theorem roundFloat32_lower (n : Nat) : n * (2 ^ 23 - 1) ≤ roundFloat32 n * 2 ^ 23 := by
  have hr := mod_pow_mul_le n
  have hdm := Nat.div_add_mod n (2 ^ (n.log2 - 23))
  simp only [roundFloat32]
  generalize n.log2 - 23 = k at *
  generalize n / 2 ^ k = q at *
  generalize n % 2 ^ k = r at *
  have hq : q * 2 ^ k ≤ (if 2 ^ k < 2 * r ∨ (2 * r = 2 ^ k ∧ q % 2 = 1) then q + 1 else q) * 2 ^ k :=
    Nat.mul_le_mul_right _ (by split <;> omega)
  generalize (if 2 ^ k < 2 * r ∨ (2 * r = 2 ^ k ∧ q % 2 = 1) then q + 1 else q) * 2 ^ k = y at *
  rw [Nat.mul_comm] at hdm
  omega

theorem le_growSize (need : Nat) : need ≤ growSize need := by
  unfold growSize
  rw [Nat.le_div_iff_mul_le (by norm_num)]
  have h1 := roundFloat32_lower need
  have h2 := roundFloat32_lower (roundFloat32 need * 10066330)
  omega

def makeBytes (n : Nat) : List UInt8 := List.replicate n 0

/-- `copy(dst, src)`: the front of `dst` is overwritten by as much of `src` as fits. -/
def copyInto (dst src : List UInt8) : List UInt8 := src.take dst.length ++ dst.drop src.length

/-- `s[lo:hi]` on a slice whose capacity is its length. -/
def sliceOf (s : List UInt8) (lo hi : Nat) : Option (List UInt8) :=
  if lo ≤ hi ∧ hi ≤ s.length then some ((s.take hi).drop lo) else none

@[simp] theorem length_makeBytes (n : Nat) : (makeBytes n).length = n := List.length_replicate _ _

@[simp] theorem length_copyInto (dst src : List UInt8) : (copyInto dst src).length = dst.length := by
  simp only [copyInto, List.length_append, List.length_take, List.length_drop]
  omega

theorem copyInto_of_le {dst src : List UInt8} (h : src.length ≤ dst.length) :
    copyInto dst src = src ++ dst.drop src.length := by
  rw [copyInto, List.take_of_length_le h]

theorem sliceOf_of_le {s : List UInt8} {lo hi : Nat} (h₁ : lo ≤ hi) (h₂ : hi ≤ s.length) :
    sliceOf s lo hi = some ((s.take hi).drop lo) := if_pos ⟨h₁, h₂⟩

structure ElasticUnsafeByteBuf where
  buffer : List UInt8
  readIndex : Nat
  writeIndex : Nat
  capacity : Nat
  deriving DecidableEq, Repr

namespace ElasticUnsafeByteBuf

variable (b : ElasticUnsafeByteBuf)

def readableBytes : Nat := b.writeIndex - b.readIndex

def writableBytes : Nat := b.capacity - b.writeIndex

/-- A negative length reads nothing; a length past the write index is zero-padded. -/
def readBytes (length : Int) : Option (List UInt8 × ElasticUnsafeByteBuf) :=
  if length < 0 then some ([], b) else
    let target :=
      if b.readIndex + length.toNat ≤ b.writeIndex then b.readIndex + length.toNat else b.writeIndex
    (sliceOf b.buffer b.readIndex target).map fun s =>
      (copyInto (makeBytes length.toNat) s, { b with readIndex := target })

/-- The reallocation at the head of `WriteBytes`, taken when the recorded free tail is short. -/
def grow (writeSize : Nat) : ElasticUnsafeByteBuf :=
  if b.writableBytes < writeSize then
    let newSize := growSize (writeSize + b.writeIndex)
    { b with buffer := copyInto (makeBytes newSize) b.buffer, capacity := newSize }
  else b

@[simp] theorem grow_readIndex (n : Nat) : (b.grow n).readIndex = b.readIndex := by
  unfold grow; split <;> rfl

@[simp] theorem grow_writeIndex (n : Nat) : (b.grow n).writeIndex = b.writeIndex := by
  unfold grow; split <;> rfl

/-- `copy(pb.buffer[pb.writeIndex:], bytes)` silently drops what does not fit. -/
def writeBytes (bytes : List UInt8) : Option ElasticUnsafeByteBuf :=
  if bytes.length = 0 then some b else
    let g := b.grow bytes.length
    if g.writeIndex ≤ g.buffer.length then
      some { g with
        buffer := g.buffer.take g.writeIndex ++ copyInto (g.buffer.drop g.writeIndex) bytes
        writeIndex := g.writeIndex + bytes.length }
    else none

def reset : ElasticUnsafeByteBuf := { b with writeIndex := 0, readIndex := 0 }

def write (p : List UInt8) : Option (Nat × ElasticUnsafeByteBuf) :=
  (b.writeBytes p).map fun b' => (p.length, b')

def readSize (p : List UInt8) : Nat := if p.length < b.readableBytes then p.length else b.readableBytes

def read (p : List UInt8) : Option ((Nat × Bool × List UInt8) × ElasticUnsafeByteBuf) :=
  if b.readSize p = 0 then some ((0, true, p), b) else
    (b.readBytes (b.readSize p)).map fun r => ((b.readSize p, false, copyInto p r.1), r.2)

/-- The new slice has `capacity - readIndex` bytes, but `capacity` is not updated. -/
def release : Option ElasticUnsafeByteBuf :=
  if b.readIndex ≤ b.capacity then
    (sliceOf b.buffer b.readIndex b.writeIndex).map fun s =>
      { b with
        buffer := copyInto (makeBytes (b.capacity - b.readIndex)) s
        writeIndex := b.writeIndex - b.readIndex
        readIndex := 0 }
  else none

end ElasticUnsafeByteBuf

def newElasticUnsafeByteBuf (initSize : Int) : ElasticUnsafeByteBuf :=
  let n := if initSize < 0 then 0 else initSize.toNat
  ⟨makeBytes n, 0, 0, n⟩

@[simp] theorem newElasticUnsafeByteBuf_ofNat (n : Nat) :
    newElasticUnsafeByteBuf n = ⟨makeBytes n, 0, 0, n⟩ := by
  simp [newElasticUnsafeByteBuf, show ¬ (n : Int) < 0 by omega]

/-- One call on the buffer, as a caller issues it. -/
inductive Op where
  | writeBytes (bytes : List UInt8)
  | write (p : List UInt8)
  | readBytes (length : Int)
  | read (p : List UInt8)
  | release
  | reset
  deriving DecidableEq, Repr

open ElasticUnsafeByteBuf in
def Op.run : Op → ElasticUnsafeByteBuf → Option ElasticUnsafeByteBuf
  | .writeBytes bs, b => b.writeBytes bs
  | .write p, b => (b.write p).map Prod.snd
  | .readBytes n, b => (b.readBytes n).map Prod.snd
  | .read p, b => (b.read p).map Prod.snd
  | .release, b => b.release
  | .reset, b => some b.reset

def exec (b : ElasticUnsafeByteBuf) : List Op → Option ElasticUnsafeByteBuf
  | [] => some b
  | o :: os => (o.run b).bind (exec · os)

@[simp] theorem exec_nil (b : ElasticUnsafeByteBuf) : exec b [] = some b := rfl

@[simp] theorem exec_cons (b : ElasticUnsafeByteBuf) (o : Op) (os : List Op) :
    exec b (o :: os) = (o.run b).bind (exec · os) := rfl

namespace ElasticUnsafeByteBuf

variable (b : ElasticUnsafeByteBuf)

/-- The readable region `[readIndex, writeIndex)` read as the queue it stands for. -/
def contents : List UInt8 := (b.buffer.take b.writeIndex).drop b.readIndex

/-- The index order the `ByteBuf` interface documents, and a backing slice no longer
than the recorded capacity. -/
structure Inv : Prop where
  read_le_write : b.readIndex ≤ b.writeIndex
  write_le_capacity : b.writeIndex ≤ b.capacity
  length_le_capacity : b.buffer.length ≤ b.capacity

def Covered : Prop := b.writeIndex ≤ b.buffer.length

def Tight : Prop := b.buffer.length = b.capacity

instance : Decidable b.Covered := inferInstanceAs (Decidable (_ ≤ _))
instance : Decidable b.Tight := inferInstanceAs (Decidable (_ = _))

variable {b}

theorem Inv.covered (hi : b.Inv) (ht : b.Tight) : b.Covered := by
  unfold Covered; unfold Tight at ht; exact ht ▸ hi.write_le_capacity

theorem length_contents (hc : b.Covered) : b.contents.length = b.readableBytes := by
  unfold Covered at hc
  simp only [contents, readableBytes, List.length_drop, List.length_take]
  omega

/-- The state `ReadBytes(n)` leaves: the read index moves by `n`, stopping at the write index. -/
def advance (b : ElasticUnsafeByteBuf) (n : Nat) : ElasticUnsafeByteBuf :=
  { b with readIndex := min (b.readIndex + n) b.writeIndex }

theorem readBytes_eq (hi : b.Inv) (hc : b.Covered) (n : Nat) :
    b.readBytes n = some (b.contents.take n ++ makeBytes (n - b.readableBytes), b.advance n) := by
  have hl := length_contents hc
  have hw := hi.read_le_write
  unfold Covered at hc
  have hs : (b.buffer.take (min (b.readIndex + n) b.writeIndex)).drop b.readIndex =
      b.contents.take n := by
    simp only [contents, List.take_drop, List.take_take]
  have ht : (if b.readIndex + n ≤ b.writeIndex then b.readIndex + n else b.writeIndex) =
      min (b.readIndex + n) b.writeIndex := by split <;> omega
  simp only [readBytes, Int.toNat_ofNat, if_neg (by omega : ¬ ((n : Int) < 0)), ht,
    sliceOf_of_le (by omega : b.readIndex ≤ min (b.readIndex + n) b.writeIndex)
      (by omega : min (b.readIndex + n) b.writeIndex ≤ b.buffer.length), hs, Option.map_some',
    advance]
  rw [copyInto_of_le (by simp)]
  simp only [makeBytes, List.drop_replicate, List.length_take]
  congr 4
  omega

theorem advance_contents (n : Nat) : (b.advance n).contents = b.contents.drop n := by
  simp only [contents, advance, List.drop_drop]
  rcases le_total (b.readIndex + n) b.writeIndex with h | h
  · rw [min_eq_left h]
  · rw [min_eq_right h, List.drop_of_length_le (by simp), List.drop_of_length_le (by simp; omega)]

theorem advance_inv (hi : b.Inv) (hc : b.Covered) (n : Nat) :
    (b.advance n).Inv ∧ (b.advance n).Covered :=
  ⟨⟨Nat.min_le_right _ _, hi.write_le_capacity, hi.length_le_capacity⟩, hc⟩

@[simp] theorem advance_tight (n : Nat) : (b.advance n).Tight ↔ b.Tight := Iff.rfl

theorem advance_advance (m n : Nat) : (b.advance m).advance n = b.advance (m + n) := by
  simp only [advance, ElasticUnsafeByteBuf.mk.injEq, and_true, true_and]
  omega

theorem advance_zero (hi : b.Inv) : b.advance 0 = b := by
  simp only [advance, Nat.add_zero, Nat.min_eq_left hi.read_le_write]

theorem grow_of_short {n : Nat} (h : b.writableBytes < n) :
    (b.grow n).buffer = copyInto (makeBytes (growSize (n + b.writeIndex))) b.buffer ∧
    (b.grow n).capacity = growSize (n + b.writeIndex) := by
  simp [grow, if_pos h]

theorem grow_of_room {n : Nat} (h : n ≤ b.writableBytes) : b.grow n = b := if_neg (by omega)

theorem grow_spec (hi : b.Inv) (hc : b.Covered) (n : Nat) :
    (b.grow n).buffer.take b.writeIndex = b.buffer.take b.writeIndex ∧
    (b.grow n).Inv ∧ (b.grow n).Covered := by
  by_cases h : b.writableBytes < n
  · have hg := le_growSize (n + b.writeIndex)
    have hl := hi.length_le_capacity
    have hw := hi.read_le_write
    unfold Covered at hc
    unfold writableBytes at h
    obtain ⟨hb, hcap⟩ := grow_of_short h
    refine ⟨?_, ⟨?_, ?_, ?_⟩, ?_⟩ <;>
      simp only [hb, hcap, Covered, grow_readIndex, grow_writeIndex, length_copyInto,
        length_makeBytes]
    · rw [copyInto_of_le (by simp; omega), List.take_append_of_le_length hc]
    all_goals omega
  · rw [grow_of_room (by omega)]
    exact ⟨rfl, hi, hc⟩

def appendAt (g : ElasticUnsafeByteBuf) (bytes : List UInt8) : ElasticUnsafeByteBuf :=
  { g with
    buffer := g.buffer.take g.writeIndex ++ copyInto (g.buffer.drop g.writeIndex) bytes
    writeIndex := g.writeIndex + bytes.length }

theorem writeBytes_eq {bytes : List UInt8} (h0 : bytes.length ≠ 0)
    (hc : (b.grow bytes.length).Covered) :
    b.writeBytes bytes = some (appendAt (b.grow bytes.length) bytes) :=
  (if_neg h0).trans (if_pos hc)

/-- A write that grows, or that fits the backing slice, appends all of its bytes. -/
theorem writeBytes_spec (hi : b.Inv) (hc : b.Covered) {bytes : List UInt8}
    (hfit : b.writableBytes < bytes.length ∨ bytes.length ≤ b.buffer.length - b.writeIndex) :
    ∃ b', b.writeBytes bytes = some b' ∧ b'.contents = b.contents ++ bytes ∧
      b'.Inv ∧ b'.Covered ∧ b'.readIndex = b.readIndex := by
  by_cases h0 : bytes.length = 0
  · exact ⟨b, if_pos h0, by simp [List.length_eq_zero.mp h0], hi, hc, rfl⟩
  obtain ⟨htake, gi, gc⟩ := grow_spec hi hc bytes.length
  have hroom : bytes.length ≤ (b.grow bytes.length).buffer.length - b.writeIndex := by
    rcases hfit with h | h
    · have := le_growSize (bytes.length + b.writeIndex)
      rw [(grow_of_short h).1]; simp only [length_copyInto, length_makeBytes]; omega
    · rwa [grow_of_room (by have := hi.length_le_capacity; unfold writableBytes; omega)]
  have hbw := hi.read_le_write
  have gl := gi.length_le_capacity
  have gw := gi.write_le_capacity
  refine ⟨_, writeBytes_eq h0 gc, ?_, ⟨?_, ?_, ?_⟩, ?_, grow_readIndex b _⟩ <;>
    unfold Covered at gc hc <;> simp only [grow_writeIndex] at gc gw <;>
    simp only [appendAt, contents, grow_writeIndex, grow_readIndex, Covered, List.length_append,
      List.length_take, length_copyInto, List.length_drop]
  · rw [copyInto_of_le (by simp only [List.length_drop]; omega), ← List.append_assoc,
      List.take_append_of_le_length (by simp only [List.length_append, List.length_take]; omega),
      htake, List.take_of_length_le (by simp only [List.length_append, List.length_take]; omega),
      List.drop_append_of_le_length (by simp only [List.length_take]; omega)]
  all_goals omega

theorem writeBytes_in_place (hc : b.Covered) {bytes : List UInt8} (hroom : bytes.length ≤ b.writableBytes) :
    ∃ b', b.writeBytes bytes = some b' ∧ b'.readIndex = b.readIndex ∧
      b'.writeIndex = b.writeIndex + bytes.length ∧ b'.capacity = b.capacity ∧
      b'.buffer.length = b.buffer.length := by
  by_cases h0 : bytes.length = 0
  · exact ⟨b, if_pos h0, rfl, by rw [h0]; rfl, rfl, rfl⟩
  have hg := grow_of_room hroom
  refine ⟨appendAt b bytes, (writeBytes_eq h0 (by rw [hg]; exact hc)).trans (by rw [hg]), rfl, rfl,
    rfl, ?_⟩
  unfold Covered at hc
  simp only [appendAt, List.length_append, List.length_take, length_copyInto, List.length_drop]
  omega

theorem writeBytes_fits (hi : b.Inv) (hc : b.Covered) {bytes : List UInt8}
    (hroom : bytes.length ≤ b.writableBytes) (hfit : bytes.length ≤ b.buffer.length - b.writeIndex) :
    ∃ b', b.writeBytes bytes = some b' ∧ b'.contents = b.contents ++ bytes ∧ b'.Inv ∧ b'.Covered ∧
      b'.readIndex = b.readIndex ∧ b'.writeIndex = b.writeIndex + bytes.length ∧
      b'.capacity = b.capacity ∧ b'.buffer.length = b.buffer.length := by
  obtain ⟨b', h, hq, hi', hc', -⟩ := writeBytes_spec hi hc (.inr hfit)
  obtain ⟨b'', h', hfields⟩ := writeBytes_in_place hc hroom
  cases h.symm.trans h'
  exact ⟨b', h, hq, hi', hc', hfields⟩

theorem appendAt_tight (g : ElasticUnsafeByteBuf) (bytes : List UInt8) :
    (appendAt g bytes).Tight ↔ g.Tight := by
  simp only [Tight, appendAt, List.length_append, List.length_take, length_copyInto,
    List.length_drop]
  constructor <;> intro h <;> omega

/-- `Release` on a covered buffer: the readable bytes move to the front of a fresh slice of
`capacity - readIndex` bytes and `capacity` stays as it was. -/
def compacted (b : ElasticUnsafeByteBuf) : ElasticUnsafeByteBuf :=
  { b with
    buffer := copyInto (makeBytes (b.capacity - b.readIndex)) b.contents
    writeIndex := b.writeIndex - b.readIndex
    readIndex := 0 }

theorem release_eq (hi : b.Inv) (hc : b.Covered) : b.release = some b.compacted := by
  unfold Covered at hc
  simp only [release, if_pos (le_trans hi.read_le_write hi.write_le_capacity),
    sliceOf_of_le hi.read_le_write hc, Option.map_some']
  rfl

theorem release_of_overrun (h : b.buffer.length < b.writeIndex) : b.release = none := by
  unfold release
  split
  · simp [sliceOf, show ¬ b.writeIndex ≤ b.buffer.length by omega]
  · rfl

theorem compacted_spec (hi : b.Inv) (hc : b.Covered) :
    b.compacted.contents = b.contents ∧ b.compacted.Inv ∧ b.compacted.Covered ∧
      b.compacted.capacity = b.capacity ∧
      b.compacted.buffer.length = b.capacity - b.readIndex := by
  have hw := hi.read_le_write
  have hC := hi.write_le_capacity
  have hl := length_contents hc
  unfold readableBytes at hl
  refine ⟨?_, ⟨Nat.zero_le _, ?_, ?_⟩, ?_, rfl, by simp [compacted]⟩
  · show ((copyInto (makeBytes (b.capacity - b.readIndex)) b.contents).take
      (b.writeIndex - b.readIndex)).drop 0 = b.contents
    rw [List.drop_zero, copyInto_of_le (by simp only [length_makeBytes]; omega),
      List.take_append_of_le_length (by omega), List.take_of_length_le (by omega)]
  all_goals simp only [compacted, Covered, length_copyInto, length_makeBytes]; omega

theorem readBytes_inv {n : Int} {r : List UInt8} {b' : ElasticUnsafeByteBuf} (hi : b.Inv)
    (h : b.readBytes n = some (r, b')) : b'.Inv ∧ b'.buffer = b.buffer ∧ b'.capacity = b.capacity := by
  unfold readBytes at h
  split at h
  · cases h; exact ⟨hi, rfl, rfl⟩
  · obtain ⟨_, -, h⟩ := Option.map_eq_some'.mp h
    cases h
    refine ⟨⟨?_, hi.write_le_capacity, hi.length_le_capacity⟩, rfl, rfl⟩
    dsimp only
    split <;> omega

theorem grow_inv (hi : b.Inv) (n : Nat) : (b.grow n).Inv ∧ (b.grow n).Tight ∨ b.grow n = b := by
  by_cases h : b.writableBytes < n
  · have hg := le_growSize (n + b.writeIndex)
    have := hi.read_le_write
    unfold writableBytes at h
    obtain ⟨hb, hcap⟩ := grow_of_short h
    refine .inl ⟨⟨?_, ?_, ?_⟩, ?_⟩ <;> simp only [Tight, hb, hcap, grow_readIndex, grow_writeIndex,
      length_copyInto, length_makeBytes] <;> omega
  · exact .inr (grow_of_room (by omega))

theorem writeBytes_inv {bytes : List UInt8} {b' : ElasticUnsafeByteBuf} (hi : b.Inv)
    (h : b.writeBytes bytes = some b') : b'.Inv ∧ (b.Tight → b'.Tight) := by
  unfold writeBytes at h
  split at h
  · cases h; exact ⟨hi, id⟩
  dsimp only at h
  split at h
  · rename_i h0 hc
    cases h
    have hg : (b.grow bytes.length).Inv ∧ (b.Tight → (b.grow bytes.length).Tight) := by
      rcases grow_inv hi bytes.length with h | h
      · exact ⟨h.1, fun _ => h.2⟩
      · rw [h]; exact ⟨hi, id⟩
    have := hg.1.read_le_write
    have := hg.1.length_le_capacity
    have hroom : bytes.length ≤ (b.grow bytes.length).writableBytes := by
      unfold grow; split
      · have := le_growSize (bytes.length + b.writeIndex)
        simp only [writableBytes]; omega
      · unfold writableBytes at *; omega
    unfold writableBytes at hroom
    refine ⟨⟨?_, ?_, ?_⟩, fun ht => (appendAt_tight _ _).mpr (hg.2 ht)⟩ <;>
      simp only [appendAt, List.length_append, List.length_take, length_copyInto,
        List.length_drop] <;> omega
  · cases h

theorem release_inv {b' : ElasticUnsafeByteBuf} (hi : b.Inv) (h : b.release = some b') : b'.Inv := by
  unfold release at h
  split at h
  · obtain ⟨_, hs, h⟩ := Option.map_eq_some'.mp h
    cases h
    unfold sliceOf at hs
    split at hs
    · exact ⟨Nat.zero_le _, by have := hi.write_le_capacity; dsimp only; omega, by simp⟩
    · cases hs
  · cases h

end ElasticUnsafeByteBuf

open ElasticUnsafeByteBuf

theorem newElasticUnsafeByteBuf_inv (n : Int) :
    (newElasticUnsafeByteBuf n).Inv ∧ (newElasticUnsafeByteBuf n).Tight :=
  ⟨⟨le_refl 0, Nat.zero_le _, by simp [newElasticUnsafeByteBuf]⟩, by simp [Tight, newElasticUnsafeByteBuf]⟩

theorem writeBytes_tight_spec {b : ElasticUnsafeByteBuf} (hi : b.Inv) (ht : b.Tight)
    (bytes : List UInt8) :
    ∃ b', b.writeBytes bytes = some b' ∧ b'.contents = b.contents ++ bytes ∧ b'.Inv ∧ b'.Tight := by
  have hc := hi.covered ht
  have hfit : b.writableBytes < bytes.length ∨ bytes.length ≤ b.buffer.length - b.writeIndex := by
    unfold Tight at ht; unfold writableBytes; omega
  obtain ⟨b', h, hq, hi', -⟩ := writeBytes_spec hi hc hfit
  exact ⟨b', h, hq, hi', (writeBytes_inv hi h).2 ht⟩

/-- `Release` at a positive read index leaves `capacity` as it was while the slice shrinks by
the read index, so the recorded capacity no longer matches the slice. -/
theorem release_leaves_capacity_stale {b : ElasticUnsafeByteBuf} (hi : b.Inv) (hc : b.Covered)
    (hr : 0 < b.readIndex) :
    ∃ b', b.release = some b' ∧ b'.capacity = b.capacity ∧
      b'.buffer.length = b.capacity - b.readIndex ∧ b'.capacity ≠ b'.buffer.length := by
  obtain ⟨-, -, -, hcap, hlen⟩ := compacted_spec hi hc
  have := le_trans hi.read_le_write hi.write_le_capacity
  exact ⟨_, release_eq hi hc, hcap, hlen, by omega⟩

theorem release_leaves_capacity_stale_at_read_one :
    exec (newElasticUnsafeByteBuf 4) [.writeBytes [1, 2], .readBytes 1] =
        some ⟨[1, 2, 0, 0], 1, 2, 4⟩ ∧
      ∃ b', (⟨[1, 2, 0, 0], 1, 2, 4⟩ : ElasticUnsafeByteBuf).release = some b' ∧ b'.capacity = 4 ∧
        b'.buffer.length = 4 - 1 ∧ b'.capacity ≠ b'.buffer.length :=
  ⟨by decide, release_leaves_capacity_stale ⟨by decide, by decide, by decide⟩ (by decide) (by decide)⟩

/-- A write after `Release` that fits the stale capacity but not the shrunken slice loses
bytes, and reading what `ReadableBytes` then reports panics. -/
theorem release_then_write_panics :
    exec (newElasticUnsafeByteBuf 4)
      [.writeBytes [1, 2, 3, 4], .readBytes 2, .release, .writeBytes [5, 6], .readBytes 4] = none := by
  decide

/-- The `ByteBuf` methods the frame decoders and the reader loop call; `none` is a panic. -/
class ByteBuf (β : Type) where
  readableBytes : β → Nat
  readBytes : β → Nat → Option (List UInt8 × β)
  writeBytes : β → List UInt8 → Option β
  release : β → Option β

instance : ByteBuf ElasticUnsafeByteBuf :=
  ⟨ElasticUnsafeByteBuf.readableBytes, fun b n => b.readBytes n, ElasticUnsafeByteBuf.writeBytes,
    ElasticUnsafeByteBuf.release⟩

/-- The FIFO queue a buffer stands for: reads take from the front, writes append and
`Release` changes nothing. -/
instance : ByteBuf (List UInt8) :=
  ⟨List.length, fun q n => some (q.take n ++ makeBytes (n - q.length), q.drop n),
    fun q bs => some (q ++ bs), some⟩

@[simp] theorem writeBytes_elastic (b : ElasticUnsafeByteBuf) (bs : List UInt8) :
    ByteBuf.writeBytes b bs = b.writeBytes bs := rfl

@[simp] theorem release_elastic (b : ElasticUnsafeByteBuf) : ByteBuf.release b = b.release := rfl

@[simp] theorem readableBytes_queue (q : List UInt8) : ByteBuf.readableBytes q = q.length := rfl

@[simp] theorem readBytes_queue (q : List UInt8) (n : Nat) :
    ByteBuf.readBytes q n = some (q.take n ++ makeBytes (n - q.length), q.drop n) := rfl

@[simp] theorem writeBytes_queue (q bs : List UInt8) : ByteBuf.writeBytes q bs = some (q ++ bs) := rfl

@[simp] theorem release_queue (q : List UInt8) : ByteBuf.release q = some q := rfl

/-- A covered buffer and its FIFO view answer every decoder call alike. -/
structure Mirrors (b : ElasticUnsafeByteBuf) (q : List UInt8) : Prop where
  inv : b.Inv
  covered : b.Covered
  contents : b.contents = q

theorem Mirrors.readableBytes {b : ElasticUnsafeByteBuf} {q : List UInt8} (h : Mirrors b q) :
    ByteBuf.readableBytes b = ByteBuf.readableBytes q := by
  rw [readableBytes_queue, ← h.contents, length_contents h.covered]; rfl

theorem Mirrors.readBytes {b : ElasticUnsafeByteBuf} {q : List UInt8} (h : Mirrors b q) (n : Nat) :
    ByteBuf.readBytes b n =
      some ((q.take n ++ makeBytes (n - q.length)), b.advance n) ∧ Mirrors (b.advance n) (q.drop n) := by
  have hl : q.length = b.readableBytes := h.contents ▸ length_contents h.covered
  refine ⟨?_, ⟨(advance_inv h.inv h.covered n).1, (advance_inv h.inv h.covered n).2, ?_⟩⟩
  · show b.readBytes n = _
    rw [readBytes_eq h.inv h.covered, h.contents, hl]
  · rw [advance_contents, h.contents]

def Follows (b : ElasticUnsafeByteBuf) (q' : List UInt8) (b' : ElasticUnsafeByteBuf) : Prop :=
  ∃ n, b' = b.advance n ∧ Mirrors b' q'

theorem Follows.refl {b : ElasticUnsafeByteBuf} {q : List UInt8} (h : Mirrors b q) : Follows b q b :=
  ⟨0, (ElasticUnsafeByteBuf.advance_zero h.inv).symm, h⟩

theorem Follows.trans {b b₁ b₂ : ElasticUnsafeByteBuf} {q₁ q' : List UInt8} (h₁ : Follows b q₁ b₁)
    (h₂ : Follows b₁ q' b₂) : Follows b q' b₂ := by
  obtain ⟨m, rfl, -⟩ := h₁
  obtain ⟨n, rfl, h⟩ := h₂
  exact ⟨m + n, ElasticUnsafeByteBuf.advance_advance _ _, h⟩

theorem Follows.mirrors {b b' : ElasticUnsafeByteBuf} {q' : List UInt8} (h : Follows b q' b') :
    Mirrors b' q' :=
  let ⟨_, _, h⟩ := h; h

@[simp] theorem newElasticUnsafeByteBuf_contents (n : Int) : (newElasticUnsafeByteBuf n).contents = [] := by
  simp [newElasticUnsafeByteBuf, contents]

theorem newElasticUnsafeByteBuf_mirrors (n : Nat) : Mirrors (newElasticUnsafeByteBuf n) [] :=
  ⟨(newElasticUnsafeByteBuf_inv n).1, Nat.zero_le _, by simp [contents, newElasticUnsafeByteBuf]⟩

theorem Mirrors.follows_readBytes {b : ElasticUnsafeByteBuf} {q : List UInt8} (h : Mirrors b q) (n : Nat) :
    ByteBuf.readBytes b n = some ((ByteBuf.readBytes q n).get!.1, b.advance n) ∧
      Follows b (q.drop n) (b.advance n) :=
  ⟨by rw [(h.readBytes n).1]; rfl, ⟨n, rfl, (h.readBytes n).2⟩⟩

end Matcha.Buffer
