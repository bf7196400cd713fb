import Matcha.Buffer

/-! # TLV frames

`TLVFrameDecoder` and `TLVFrameEncoder` of `net/tcp/codec/tlv.go`, with the error types of
`codec.go`. A frame is `TAG(1) | LENGTH(4, big-endian) | VALUE(LENGTH)`. The decoder is a
resumable parser: three latches carry a partly read header from one `Decode` to the next. -/
namespace Matcha.Codec

open Matcha.Buffer

structure DecodeError where
  decoder : String
  msg : String
  deriving DecidableEq, Repr

structure EncodeError where
  encoder : String
  msg : String
  deriving DecidableEq, Repr

/-- `Error()`: `$DECODER decode error cause $CAUSE`, each part only when it is set. -/
def DecodeError.error (e : DecodeError) : String :=
  (if e.decoder = "" then "" else e.decoder ++ " ") ++ "decode error" ++
    (if e.msg = "" then "" else " cause " ++ e.msg)

def EncodeError.error (e : EncodeError) : String :=
  (if e.encoder = "" then "" else e.encoder ++ " ") ++ "encode error" ++
    (if e.msg = "" then "" else " cause " ++ e.msg)

/-- What `Decode` returns: `(nil, nil)`, `(value, nil)` or `(nil, err)`. -/
inductive DecodeResult (α : Type) where
  | nothing
  | success (a : α)
  | failure (err : DecodeError)
  deriving DecidableEq, Repr

def DecodeResult.emitted {α : Type} : DecodeResult α → Option (Except DecodeError α)
  | .nothing => none
  | .success a => some (.ok a)
  | .failure e => some (.error e)

theorem DecodeResult.emitted_of_ne_nothing {α : Type} {r : DecodeResult α} (h : r ≠ .nothing) :
    ∃ x, r.emitted = some x := by
  cases r
  · exact absurd rfl h
  all_goals exact ⟨_, rfl⟩

/-- `binary.BigEndian` bytes of `n` in `k` bytes, most significant first. -/
def beBytes : Nat → Nat → List UInt8
  | 0, _ => []
  | k + 1, n => beBytes k (n / 256) ++ [UInt8.ofNat (n % 256)]

def beValue (bs : List UInt8) : Nat := bs.foldl (fun acc x => acc * 256 + x.toNat) 0

@[simp] theorem length_beBytes (k n : Nat) : (beBytes k n).length = k := by
  induction k generalizing n with
  | zero => rfl
  | succ k ih => simp [beBytes, ih]

theorem beValue_append_singleton (bs : List UInt8) (x : UInt8) :
    beValue (bs ++ [x]) = beValue bs * 256 + x.toNat := by
  simp [beValue, List.foldl_append]

theorem beValue_beBytes (k n : Nat) : beValue (beBytes k n) = n % 256 ^ k := by
  induction k generalizing n with
  | zero => simp [beBytes, beValue, Nat.mod_one]
  | succ k ih =>
    rw [beBytes, beValue_append_singleton, ih, UInt8.toNat_ofNat_of_lt (Nat.mod_lt _ (by decide)),
      Nat.pow_succ', Nat.mod_mul, show UInt8.size = 256 from rfl]
    omega

theorem beValue_be32 {n : Nat} (h : n < 2 ^ 32) : beValue (beBytes 4 n) = n := by
  rw [beValue_beBytes]; exact Nat.mod_eq_of_lt h

def tagSize : Nat := 1

def lengthSize : Nat := 4

structure TLVConfig where
  tagValue : UInt8
  frameLimit : UInt32
  deriving DecidableEq, Repr

/-- The frame-size check of both directions: `FrameLimit > 0 && 5 + len(value) > FrameLimit`. -/
def TLVConfig.overLimit (cfg : TLVConfig) (n : Nat) : Bool :=
  0 < cfg.frameLimit.toNat && cfg.frameLimit.toNat < tagSize + lengthSize + n

/-- `lengthValue` is a `uint32` read from four bytes. -/
structure TLVFrameDecoder where
  config : TLVConfig
  hasTag : Bool
  hasLength : Bool
  tagValue : UInt8
  lengthValue : Nat
  deriving DecidableEq, Repr

def newTLVFrameDecoder (config : TLVConfig) : TLVFrameDecoder := ⟨config, false, false, 0, 0⟩

namespace TLVFrameDecoder

variable {β : Type} [ByteBuf β] (c : TLVFrameDecoder)

def resetBuffer : TLVFrameDecoder :=
  { c with hasTag := false, hasLength := false, tagValue := 0, lengthValue := 0 }

/-- Parse V with tag and length latched. A value over the limit is reported without
clearing the latches. -/
def decodeValue (buf : β) : Option (DecodeResult (List UInt8) × TLVFrameDecoder × β) :=
  if ByteBuf.readableBytes buf < c.lengthValue then some (.nothing, c, buf) else
    (ByteBuf.readBytes buf c.lengthValue).map fun r =>
      if c.config.overLimit r.1.length then
        (.failure ⟨"TLVFrameDecoder", "frame size larger than limit"⟩, c, r.2)
      else (.success r.1, c.resetBuffer, r.2)

/-- Parse L, then V, once the tag is latched. -/
def decodeLength (buf : β) : Option (DecodeResult (List UInt8) × TLVFrameDecoder × β) :=
  if !c.hasLength then
    if ByteBuf.readableBytes buf < lengthSize then some (.nothing, c, buf) else
      (ByteBuf.readBytes buf lengthSize).bind fun r =>
        decodeValue { c with lengthValue := beValue r.1, hasLength := true } r.2
  else c.decodeValue buf

/-- `Decode`: parse T, then L, then V, each step returning early when bytes are short.
The final `decodeNothing` of the source is unreachable: the tag step latches or returns. -/
def decode (buf : β) : Option (DecodeResult (List UInt8) × TLVFrameDecoder × β) :=
  if !c.hasTag then
    if ByteBuf.readableBytes buf < tagSize then some (.nothing, c, buf) else
      (ByteBuf.readBytes buf tagSize).bind fun r =>
        if r.1.headD 0 ≠ c.config.tagValue then
          some (.failure ⟨"TLVFrameDecoder", "illegal tag found"⟩, c, r.2)
        else decodeLength { c with tagValue := r.1.headD 0, hasTag := true } r.2
  else c.decodeLength buf

end TLVFrameDecoder

/-- `uint32(len(payload)) + LengthSize + TagSize`, added in `uint32`, so it wraps. -/
def frameSize (payload : List UInt8) : Nat := (payload.length % 2 ^ 32 + lengthSize + tagSize) % 2 ^ 32

structure TLVFrameEncoder where
  config : TLVConfig
  deriving DecidableEq, Repr

def newTLVFrameEncoder (config : TLVConfig) : TLVFrameEncoder := ⟨config⟩

/-- `Encode` of a `[]byte`: the limit check, then tag, length and payload written into a
fresh buffer of `frameSize` bytes, whose readable count is checked against `frameSize`. -/
def TLVFrameEncoder.encode (e : TLVFrameEncoder) (payload : List UInt8) :
    Option (Except EncodeError (List UInt8)) :=
  let size := frameSize payload
  let limit := e.config.frameLimit.toNat
  if 0 < limit ∧ limit < size then
    some (.error ⟨"TLVFrameEncoder", s!"frame size {size} larger than limit {limit}"⟩)
  else do
    let b₁ ← (newElasticUnsafeByteBuf size).write [e.config.tagValue]
    let b₂ ← b₁.2.write (beBytes 4 (payload.length % 2 ^ 32))
    let b₃ ← b₂.2.writeBytes payload
    if size ≠ b₃.readableBytes then some (.error ⟨"TLVFrameEncoder", "ByteBuf issue"⟩)
    else (b₃.readBytes b₃.readableBytes).map fun r => .ok r.1

def frame (cfg : TLVConfig) (p : List UInt8) : List UInt8 := cfg.tagValue :: (beBytes 4 p.length ++ p)

/-- A value the decoder takes back whole: its length fits four bytes and its frame the limit. -/
def Admits (cfg : TLVConfig) (p : List UInt8) : Prop := p.length < 2 ^ 32 ∧ cfg.overLimit p.length = false

instance (cfg : TLVConfig) (p : List UInt8) : Decidable (Admits cfg p) :=
  inferInstanceAs (Decidable (_ ∧ _))

def frames (cfg : TLVConfig) (ps : List (List UInt8)) : List UInt8 := (ps.map (frame cfg)).flatten

/-- A proper prefix of some frame, or nothing: what a decoder may hold between reads. -/
def Unfinished (cfg : TLVConfig) (pre : List UInt8) : Prop :=
  ∃ p more, p.length < 2 ^ 32 ∧ pre ++ more = frame cfg p ∧ more ≠ []

@[simp] theorem frames_nil (cfg : TLVConfig) : frames cfg [] = [] := rfl

@[simp] theorem frames_cons (cfg : TLVConfig) (p : List UInt8) (ps : List (List UInt8)) :
    frames cfg (p :: ps) = frame cfg p ++ frames cfg ps := rfl

theorem length_frame (cfg : TLVConfig) (p : List UInt8) : (frame cfg p).length = p.length + 5 := by
  simp [frame]; omega

/-- How many header bytes one `Decode` latches from `n` bytes of a partial frame: all five
when they are there, else the tag alone. -/
def headerTaken (n : Nat) : Nat := if 5 ≤ n then 5 else min 1 n

theorem unfinished_nil (cfg : TLVConfig) : Unfinished cfg [] :=
  ⟨[], frame cfg [], by decide, rfl, by simp [frame]⟩

theorem frame_append_eq {cfg : TLVConfig} {p p' x : List UInt8} (hp : p.length < 2 ^ 32)
    (hp' : p'.length < 2 ^ 32) (h : frame cfg p ++ x = frame cfg p') : x = [] := by
  simp only [frame, List.cons_append, List.cons.injEq, List.append_assoc] at h
  obtain ⟨hb, hv⟩ := List.append_inj h.2 (by simp)
  have hl : p.length = p'.length := by rw [← beValue_be32 hp, hb, beValue_be32 hp']
  have := congrArg List.length hv
  rw [List.length_append] at this
  exact List.eq_nil_of_length_eq_zero (by omega)

theorem unfinished_frames {cfg : TLVConfig} {ps : List (List UInt8)}
    (hps : ∀ p ∈ ps, p.length < 2 ^ 32) (h : Unfinished cfg (frames cfg ps)) : ps = [] := by
  obtain ⟨p', more, hp', hf, hm⟩ := h
  cases ps with
  | nil => rfl
  | cons p ps =>
    rw [frames_cons, List.append_assoc] at hf
    exact absurd (List.append_eq_nil.mp (frame_append_eq (hps p (List.mem_cons_self _ _)) hp' hf)).2 hm

theorem prefix_frames (cfg : TLVConfig) {y : List UInt8} : ∀ {ps : List (List UInt8)} {x : List UInt8},
    (∀ p ∈ ps, p.length < 2 ^ 32) → x ++ y = frames cfg ps →
    ∃ j pre, x = frames cfg (ps.take j) ++ pre ∧ Unfinished cfg pre ∧
      pre ++ y = frames cfg (ps.drop j)
  | [], x, _, h => by
    obtain ⟨rfl, rfl⟩ := List.append_eq_nil.mp h
    exact ⟨0, [], rfl, unfinished_nil cfg, rfl⟩
  | p :: ps, x, hps, h => by
    rw [frames_cons] at h
    rcases List.append_eq_append_iff.mp h with ⟨a, hx, rfl⟩ | ⟨c, rfl, hc⟩
    · by_cases ha : a = []
      · subst ha
        rw [List.append_nil] at hx
        exact ⟨1, [], by simp [hx], unfinished_nil cfg, by simp⟩
      · exact ⟨0, x, by simp, ⟨p, a, hps p (List.mem_cons_self _ _), hx.symm, ha⟩, h⟩
    · obtain ⟨j, pre, hj, hu, hy⟩ :=
        prefix_frames cfg (fun p hp => hps p (List.mem_cons_of_mem _ hp)) hc.symm
      exact ⟨j + 1, pre, by simp [hj], hu, by simpa using hy⟩

namespace TLVFrameDecoder

variable {β : Type} [ByteBuf β] (c : TLVFrameDecoder)

def consumed : List UInt8 :=
  if c.hasTag then c.tagValue :: (if c.hasLength then beBytes 4 c.lengthValue else []) else []

structure Ready : Prop where
  tag : c.hasTag → c.tagValue = c.config.tagValue
  length_tag : c.hasLength → c.hasTag
  length_lt : c.lengthValue < 2 ^ 32

variable {c}

@[simp] theorem resetBuffer_consumed : c.resetBuffer.consumed = [] := rfl

theorem resetBuffer_ready : c.resetBuffer.Ready := ⟨nofun, nofun, Nat.two_pow_pos 32⟩

@[simp] theorem resetBuffer_config : c.resetBuffer.config = c.config := rfl

theorem newTLVFrameDecoder_ready (cfg : TLVConfig) : (newTLVFrameDecoder cfg).Ready :=
  ⟨nofun, nofun, Nat.two_pow_pos 32⟩

theorem decodeValue_short {buf : β} (h : ByteBuf.readableBytes buf < c.lengthValue) :
    c.decodeValue buf = some (.nothing, c, buf) := if_pos h

theorem decodeValue_full {q : List UInt8} (h : c.lengthValue ≤ q.length) :
    c.decodeValue q = some (if c.config.overLimit c.lengthValue then
      (.failure ⟨"TLVFrameDecoder", "frame size larger than limit"⟩, c, q.drop c.lengthValue)
      else (.success (q.take c.lengthValue), c.resetBuffer, q.drop c.lengthValue)) := by
  simp only [decodeValue, readableBytes_queue, readBytes_queue, if_neg (Nat.not_lt.mpr h),
    Nat.sub_eq_zero_of_le h, makeBytes, List.replicate_zero, List.append_nil, Option.map_some',
    List.length_take, Nat.min_eq_left h]

theorem decodeLength_short {q : List UInt8} (hl : c.hasLength = false) (h : q.length < lengthSize) :
    c.decodeLength q = some (.nothing, c, q) := by
  simp [decodeLength, hl, h]

theorem decodeLength_full {q : List UInt8} (hl : c.hasLength = false) (h : lengthSize ≤ q.length) :
    c.decodeLength q =
      decodeValue { c with lengthValue := beValue (q.take 4), hasLength := true } (q.drop 4) := by
  have h' : ¬ q.length < 4 := by unfold lengthSize at h; omega
  simp [decodeLength, hl, lengthSize, h', Nat.sub_eq_zero_of_le (Nat.le_of_not_lt h'), makeBytes]

theorem decode_empty (ht : c.hasTag = false) : c.decode ([] : List UInt8) = some (.nothing, c, []) := by
  simp [decode, ht, tagSize]

theorem decode_cons (ht : c.hasTag = false) (x : UInt8) (q : List UInt8) :
    c.decode (x :: q) = if x ≠ c.config.tagValue then
      some (.failure ⟨"TLVFrameDecoder", "illegal tag found"⟩, c, q)
      else decodeLength { c with tagValue := x, hasTag := true } q := by
  simp [decode, ht, tagSize, makeBytes]

theorem decode_of_hasTag (ht : c.hasTag = true) (buf : β) : c.decode buf = c.decodeLength buf := by
  simp [decode, ht]

theorem decodeLength_of_hasLength (hl : c.hasLength = true) (buf : β) :
    c.decodeLength buf = c.decodeValue buf := by
  simp [decodeLength, hl]

theorem decode_waits (ht : c.hasTag = true) (hl : c.hasLength = true) {buf : β}
    (h : ByteBuf.readableBytes buf < c.lengthValue) : c.decode buf = some (.nothing, c, buf) := by
  rw [decode_of_hasTag ht, decodeLength_of_hasLength hl, decodeValue_short h]

theorem split_header {a b x y : List UInt8} (h : a ++ x = b ++ y) (hl : a.length = b.length) :
    a = b ∧ x = y := List.append_inj h hl

theorem decodeValue_frame {p rest : List UInt8} (hl : c.lengthValue = p.length)
    (hp : c.config.overLimit p.length = false) :
    c.decodeValue (p ++ rest) = some (.success p, c.resetBuffer, rest) := by
  rw [decodeValue_full (by simp [hl]), hl, hp, if_neg Bool.false_ne_true, List.take_left,
    List.drop_left]

theorem decodeLength_frame (hl : c.hasLength = false) {p rest : List UInt8} (hp : Admits c.config p) :
    c.decodeLength (beBytes 4 p.length ++ p ++ rest) = some (.success p, c.resetBuffer, rest) := by
  rw [decodeLength_full hl (by simp [lengthSize]), List.append_assoc,
    List.take_left' (length_beBytes _ _), List.drop_left' (length_beBytes _ _)]
  exact decodeValue_frame (beValue_be32 hp.1) hp.2

theorem decode_frame (hr : c.Ready) {q p rest : List UInt8}
    (hq : c.consumed ++ q = frame c.config p ++ rest) (hp : Admits c.config p) :
    c.decode q = some (.success p, c.resetBuffer, rest) := by
  unfold consumed frame at hq
  cases ht : c.hasTag
  · have hl : c.hasLength = false := by
      cases h : c.hasLength
      · rfl
      · exact absurd (hr.length_tag h) (by simp [ht])
    simp only [ht, Bool.false_eq_true, ↓reduceIte, List.nil_append, List.cons_append] at hq
    rw [hq, decode_cons ht]
    simp only [ne_eq, not_true_eq_false, ↓reduceIte]
    exact decodeLength_frame (c := { c with tagValue := c.config.tagValue, hasTag := true }) hl hp
  · rw [decode_of_hasTag ht]
    cases hl : c.hasLength
    · simp only [ht, hl, Bool.false_eq_true, ↓reduceIte, List.cons_append, List.nil_append,
        List.cons.injEq] at hq
      rw [hq.2]
      exact decodeLength_frame hl hp
    · simp only [ht, hl, ↓reduceIte, List.cons_append, List.cons.injEq, List.append_assoc] at hq
      obtain ⟨hb, hq⟩ := split_header hq.2 (by simp)
      have hlen : c.lengthValue = p.length := by
        rw [← beValue_be32 hr.length_lt, hb, beValue_be32 hp.1]
      rw [decodeLength_of_hasLength hl, hq]
      exact decodeValue_frame hlen hp.2

theorem decodeLength_partial (hr : c.Ready) (ht : c.hasTag = true) (hl : c.hasLength = false)
    {q more p : List UInt8} (hq : q ++ more = beBytes 4 p.length ++ p) (hm : more ≠ [])
    (hp : p.length < 2 ^ 32) :
    ∃ c' q', c.decodeLength q = some (.nothing, c', q') ∧ c'.consumed ++ q' = c.consumed ++ q ∧
      c'.Ready ∧ c'.config = c.config ∧
      c'.consumed.length = if lengthSize ≤ q.length then 5 else 1 := by
  by_cases hs : q.length < lengthSize
  · exact ⟨c, q, decodeLength_short hl hs, rfl, hr, rfl, by simp [consumed, ht, hl, Nat.not_le.mpr hs]⟩
  have h4 : (q.take 4).length = 4 := by simp [lengthSize] at hs; simp; omega
  rw [← List.take_append_drop 4 q, List.append_assoc] at hq
  obtain ⟨hb, hrest⟩ := split_header hq (by simp [h4])
  have hv : beValue (q.take 4) = p.length := by rw [hb, beValue_be32 hp]
  have hshort : (q.drop 4).length < p.length := by
    rw [← hrest, List.length_append]
    have := List.length_pos.mpr hm
    omega
  refine ⟨_, _, (decodeLength_full hl (Nat.le_of_not_lt hs)).trans
    (decodeValue_short (by simp only [hv]; exact hshort)), ?_,
    ⟨hr.tag, fun _ => ht, by simp only [hv]; exact hp⟩, rfl, ?_⟩
  · simp only [consumed, ht, hl, Bool.false_eq_true, ↓reduceIte, List.cons_append, List.nil_append,
      hv, ← hb, List.take_append_drop]
  · simp [consumed, ht, Nat.le_of_not_lt hs]

theorem decode_partial (hr : c.Ready) {q pre more p : List UInt8} (hq : c.consumed ++ q = pre)
    (hpre : pre ++ more = frame c.config p) (hm : more ≠ []) (hp : p.length < 2 ^ 32) :
    ∃ c' q', c.decode q = some (.nothing, c', q') ∧ c'.consumed ++ q' = pre ∧ c'.Ready ∧
      c'.config = c.config ∧ c'.consumed.length = headerTaken pre.length := by
  subst hq
  unfold consumed frame at hpre
  cases ht : c.hasTag
  · have hl : c.hasLength = false := by
      cases h : c.hasLength
      · rfl
      · exact absurd (hr.length_tag h) (by simp [ht])
    simp only [ht, Bool.false_eq_true, ↓reduceIte, List.nil_append] at hpre
    rcases q with _ | ⟨x, q⟩
    · exact ⟨c, [], decode_empty ht, rfl, hr, rfl, by simp [consumed, ht, headerTaken]⟩
    simp only [List.cons_append, List.cons.injEq] at hpre
    rw [decode_cons ht, hpre.1]
    simp only [ne_eq, not_true_eq_false, ↓reduceIte]
    obtain ⟨c', q', h, hc, hr', hcfg, hn⟩ :=
      decodeLength_partial (c := { c with tagValue := c.config.tagValue, hasTag := true })
        ⟨fun _ => rfl, fun _ => rfl, hr.length_lt⟩ rfl hl hpre.2 hm hp
    refine ⟨c', q', h, by simpa [consumed, hl, ht] using hc, hr', hcfg, ?_⟩
    rw [hn]
    simp only [consumed, ht, headerTaken, lengthSize, Bool.false_eq_true, ↓reduceIte,
      List.nil_append, List.length_cons]
    split <;> split <;> omega
  · rw [decode_of_hasTag ht]
    cases hl : c.hasLength
    · simp only [ht, hl, Bool.false_eq_true, ↓reduceIte, List.cons_append, List.nil_append,
        List.cons.injEq] at hpre
      obtain ⟨c', q', h, hc, hr', hcfg, hn⟩ := decodeLength_partial hr ht hl hpre.2 hm hp
      refine ⟨c', q', h, hc, hr', hcfg, ?_⟩
      rw [hn]
      simp only [consumed, ht, hl, headerTaken, lengthSize, Bool.false_eq_true, ↓reduceIte,
        List.cons_append, List.nil_append, List.length_cons]
      split <;> split <;> omega
    · simp only [ht, hl, ↓reduceIte, List.cons_append, List.cons.injEq, List.append_assoc] at hpre
      obtain ⟨hb, hq⟩ := split_header hpre.2 (by simp)
      have hlen : c.lengthValue = p.length := by
        rw [← beValue_be32 hr.length_lt, hb, beValue_be32 hp]
      have hshort : q.length < c.lengthValue := by
        rw [hlen, ← hq, List.length_append]
        have := List.length_pos.mpr hm
        omega
      refine ⟨c, q, (decodeLength_of_hasLength hl q).trans (decodeValue_short hshort), rfl, hr, rfl, ?_⟩
      simp only [consumed, ht, hl, headerTaken, ↓reduceIte, List.cons_append, List.length_cons,
        List.length_append, length_beBytes]
      split <;> omega

theorem latched_length (hr : c.Ready) {q more p : List UInt8}
    (hq : c.consumed ++ q ++ more = frame c.config p) (hp : p.length < 2 ^ 32)
    (h5 : c.consumed.length = 5) : c.hasTag = true ∧ c.hasLength = true ∧ c.lengthValue = p.length := by
  unfold consumed at hq h5
  cases ht : c.hasTag <;> cases hl : c.hasLength <;> simp only [ht, hl] at hq h5 <;>
    simp at h5
  simp only [↓reduceIte, frame, List.cons_append, List.cons.injEq, List.append_assoc] at hq
  obtain ⟨hb, -⟩ := List.append_inj hq.2 (by simp)
  exact ⟨rfl, rfl, by rw [← beValue_be32 hr.length_lt, hb, beValue_be32 hp]⟩

theorem length_consumed :
    c.consumed.length = if c.hasTag then (if c.hasLength then 5 else 1) else 0 := by
  unfold consumed
  cases c.hasTag <;> cases c.hasLength <;> rfl

theorem length_consumed_le : c.consumed.length ≤ 5 := by
  rw [length_consumed]; split <;> [split; skip] <;> omega

theorem headerTaken_consumed : headerTaken c.consumed.length = c.consumed.length := by
  rw [length_consumed]
  cases c.hasTag <;> cases c.hasLength <;> rfl

theorem lengthValue_pos (hr : c.Ready) (hl : c.hasLength = true) {q pre : List UInt8}
    (hq : c.consumed ++ q = pre) (hpre : Unfinished c.config pre) : 0 < c.lengthValue := by
  obtain ⟨p, more, hp, hm, hne⟩ := hpre
  have h5 : c.consumed.length = 5 := by rw [length_consumed, if_pos (hr.length_tag hl), if_pos hl]
  obtain ⟨-, -, hv⟩ := latched_length hr (by rw [hq, hm]) hp h5
  have hlen := congrArg List.length hm
  rw [List.length_append, length_frame, ← hq, List.length_append, h5] at hlen
  have := List.length_pos.mpr hne
  omega

def latched : Nat := (if c.hasTag then 1 else 0) + (if c.hasLength then 1 else 0)

@[simp] theorem resetBuffer_latched : c.resetBuffer.latched = 0 := rfl

theorem latched_le_two : c.latched ≤ 2 := by
  unfold latched; split <;> split <;> omega

theorem decodeValue_progress (hlim : c.config.overLimit 0 = false) (q : List UInt8) :
    ∃ r c' q', c.decodeValue q = some (r, c', q') ∧ c'.config = c.config ∧
      (r = .nothing ∨ q'.length + c.lengthValue = q.length ∧
        (c' = c ∧ 0 < c.lengthValue ∨ c'.latched = 0)) := by
  by_cases h : q.length < c.lengthValue
  · exact ⟨_, _, _, decodeValue_short h, rfl, .inl rfl⟩
  rw [decodeValue_full (Nat.le_of_not_lt h)]
  split
  next ho =>
    have hpos : 0 < c.lengthValue := Nat.pos_of_ne_zero fun h0 => by simp [h0, hlim] at ho
    exact ⟨_, _, _, rfl, rfl, .inr ⟨by simp; omega, .inl ⟨rfl, hpos⟩⟩⟩
  · exact ⟨_, _, _, rfl, rfl, .inr ⟨by simp; omega, .inr rfl⟩⟩

theorem decodeLength_progress (hlim : c.config.overLimit 0 = false) (q : List UInt8) :
    ∃ r c' q', c.decodeLength q = some (r, c', q') ∧ c'.config = c.config ∧
      (r = .nothing ∨ 3 * q'.length + c'.latched < 3 * q.length + c.latched) := by
  cases hl : c.hasLength
  · by_cases hs : q.length < lengthSize
    · exact ⟨_, _, _, decodeLength_short hl hs, rfl, .inl rfl⟩
    rw [decodeLength_full hl (Nat.le_of_not_lt hs)]
    obtain ⟨r, c', q', h, hc, hr⟩ :=
      decodeValue_progress (c := { c with lengthValue := beValue (q.take 4), hasLength := true })
        hlim (q.drop 4)
    refine ⟨r, c', q', h, hc, hr.imp_right fun ⟨hq, _⟩ => ?_⟩
    have := c'.latched_le_two
    simp only [List.length_drop, lengthSize] at hq hs
    omega
  · rw [decodeLength_of_hasLength hl]
    obtain ⟨r, c', q', h, hc, hr⟩ := decodeValue_progress hlim q
    refine ⟨r, c', q', h, hc, hr.imp_right fun ⟨hq, hc'⟩ => ?_⟩
    have h1 : 1 ≤ c.latched := by simp [latched, hl]
    rcases hc' with ⟨rfl, -⟩ | h0 <;> omega

/-- One `Decode` returns `(nil, nil)`, or lowers three times the queue's length plus the
latched header parts. -/
theorem decode_progress (hlim : c.config.overLimit 0 = false) (q : List UInt8) :
    ∃ r c' q', c.decode q = some (r, c', q') ∧ c'.config = c.config ∧
      (r = .nothing ∨ 3 * q'.length + c'.latched < 3 * q.length + c.latched) := by
  cases ht : c.hasTag
  · rcases q with _ | ⟨x, q⟩
    · exact ⟨_, _, _, decode_empty ht, rfl, .inl rfl⟩
    rw [decode_cons ht]
    split
    · exact ⟨_, _, _, rfl, rfl, .inr (by simp only [List.length_cons]; omega)⟩
    obtain ⟨r, c', q', h, hc, hr⟩ :=
      decodeLength_progress (c := { c with tagValue := x, hasTag := true }) hlim q
    have hl : ({ c with tagValue := x, hasTag := true } : TLVFrameDecoder).latched = c.latched + 1 := by
      simp [latched, ht]; omega
    refine ⟨r, c', q', h, hc, hr.imp_right fun hm => ?_⟩
    simp only [List.length_cons]
    omega
  · rw [decode_of_hasTag ht]
    exact decodeLength_progress hlim q

def emptyLatched (cfg : TLVConfig) : TLVFrameDecoder := ⟨cfg, true, true, cfg.tagValue, 0⟩

theorem decode_emptyLatched {cfg : TLVConfig} (hlim : cfg.overLimit 0 = true) (q : List UInt8) :
    (emptyLatched cfg).decode q =
      some (.failure ⟨"TLVFrameDecoder", "frame size larger than limit"⟩, emptyLatched cfg, q) := by
  rw [decode_of_hasTag rfl, decodeLength_of_hasLength rfl, decodeValue_full (Nat.zero_le _)]
  simp [emptyLatched, hlim]

theorem decode_frame_empty {cfg : TLVConfig} (hlim : cfg.overLimit 0 = true) (q : List UInt8) :
    (newTLVFrameDecoder cfg).decode (frame cfg [] ++ q) =
      some (.failure ⟨"TLVFrameDecoder", "frame size larger than limit"⟩, emptyLatched cfg, q) := by
  rw [frame, List.cons_append, decode_cons rfl, if_neg (by simp [newTLVFrameDecoder]),
    decodeLength_full rfl (by simp [lengthSize])]
  rw [← decode_emptyLatched hlim, decode_of_hasTag rfl, decodeLength_of_hasLength rfl]
  simp [newTLVFrameDecoder, emptyLatched, beValue, beBytes]

section Mirrors

variable {b : ElasticUnsafeByteBuf} {q q' : List UInt8} {r : DecodeResult (List UInt8)}
  {c' : TLVFrameDecoder}

theorem decodeValue_mirrors (h : Mirrors b q) (hq : c.decodeValue q = some (r, c', q')) :
    ∃ b', c.decodeValue b = some (r, c', b') ∧ Follows b q' b' := by
  unfold decodeValue at hq ⊢
  rw [h.readableBytes]
  split at hq
  · cases hq; exact ⟨b, if_pos ‹_›, Follows.refl h⟩
  · rw [if_neg ‹_›, (h.follows_readBytes _).1]
    simp only [readBytes_queue, Option.map_some', Option.some.injEq, Option.get!_some] at hq ⊢
    split at hq <;> cases hq
    · exact ⟨_, by rw [if_pos ‹_›], (h.follows_readBytes _).2⟩
    · exact ⟨_, by rw [if_neg ‹_›], (h.follows_readBytes _).2⟩

theorem decodeLength_mirrors (h : Mirrors b q) (hq : c.decodeLength q = some (r, c', q')) :
    ∃ b', c.decodeLength b = some (r, c', b') ∧ Follows b q' b' := by
  unfold decodeLength at hq ⊢
  split at hq
  · rename_i hl
    rw [if_pos hl, h.readableBytes]
    split at hq
    · cases hq; exact ⟨b, if_pos ‹_›, Follows.refl h⟩
    · rw [if_neg ‹_›, (h.follows_readBytes _).1]
      simp only [readBytes_queue, Option.some_bind, Option.get!_some] at hq ⊢
      obtain ⟨b', hb, hf⟩ := decodeValue_mirrors (h.readBytes _).2 hq
      exact ⟨b', hb, (h.follows_readBytes _).2.trans hf⟩
  · rw [if_neg ‹_›]
    exact decodeValue_mirrors h hq

/-- `Decode` on a covered elastic buffer returns what it returns on the buffer's FIFO view,
and only advances the read index. -/
theorem decode_mirrors (h : Mirrors b q) (hq : c.decode q = some (r, c', q')) :
    ∃ b', c.decode b = some (r, c', b') ∧ Follows b q' b' := by
  unfold decode at hq ⊢
  split at hq
  · rename_i ht
    rw [if_pos ht, h.readableBytes]
    split at hq
    · cases hq; exact ⟨b, if_pos ‹_›, Follows.refl h⟩
    · rw [if_neg ‹_›, (h.follows_readBytes _).1]
      simp only [readBytes_queue, Option.some_bind, Option.get!_some] at hq ⊢
      split at hq
      · cases hq; exact ⟨_, by rw [if_pos ‹_›], (h.follows_readBytes _).2⟩
      · obtain ⟨b', hb, hf⟩ := decodeLength_mirrors (h.readBytes _).2 hq
        exact ⟨b', by rw [if_neg ‹_›]; exact hb, (h.follows_readBytes _).2.trans hf⟩
  · rw [if_neg ‹_›]
    exact decodeLength_mirrors h hq

end Mirrors

end TLVFrameDecoder

namespace TLVFrameEncoder

open ElasticUnsafeByteBuf

variable (e : TLVFrameEncoder) (payload : List UInt8)

theorem written :
    ∃ b₁ b₂ b₃, (newElasticUnsafeByteBuf (frameSize payload)).write [e.config.tagValue] = some (1, b₁) ∧
      b₁.write (beBytes 4 (payload.length % 2 ^ 32)) = some (4, b₂) ∧ b₂.writeBytes payload = some b₃ ∧
      b₃.Inv ∧ b₃.Tight ∧
      b₃.contents = e.config.tagValue :: (beBytes 4 (payload.length % 2 ^ 32) ++ payload) := by
  obtain ⟨hi, ht⟩ := newElasticUnsafeByteBuf_inv (frameSize payload)
  obtain ⟨b₁, h₁, hc₁, hi₁, ht₁⟩ := writeBytes_tight_spec hi ht [e.config.tagValue]
  obtain ⟨b₂, h₂, hc₂, hi₂, ht₂⟩ := writeBytes_tight_spec hi₁ ht₁ (beBytes 4 (payload.length % 2 ^ 32))
  obtain ⟨b₃, h₃, hc₃, hi₃, ht₃⟩ := writeBytes_tight_spec hi₂ ht₂ payload
  refine ⟨b₁, b₂, b₃, by simp only [write, h₁, Option.map_some', List.length_singleton],
    by simp only [write, h₂, Option.map_some', length_beBytes], h₃, hi₃, ht₃, ?_⟩
  rw [hc₃, hc₂, hc₁]
  simp [contents]

theorem encode_of_within
    (h : ¬ (0 < e.config.frameLimit.toNat ∧ e.config.frameLimit.toNat < frameSize payload)) :
    e.encode payload = some (if frameSize payload = payload.length + 5 then .ok (frame e.config payload)
      else .error ⟨"TLVFrameEncoder", "ByteBuf issue"⟩) := by
  obtain ⟨b₁, b₂, b₃, h₁, h₂, h₃, hi, ht, hc⟩ := written e payload
  have hr : b₃.readableBytes = payload.length + 5 := by
    rw [← length_contents (hi.covered ht), hc]
    simp only [List.length_cons, List.length_append, length_beBytes]
    omega
  simp only [encode, if_neg h]
  simp only [h₁, h₂, h₃, hr, Option.bind_eq_bind, Option.some_bind, bind]
  by_cases hs : frameSize payload = payload.length + 5
  · have hmod : payload.length % 2 ^ 32 = payload.length := by unfold frameSize at hs; omega
    rw [if_neg (not_not.mpr hs), if_pos hs, ← hr, readBytes_eq hi (hi.covered ht), hc, hmod,
      List.take_of_length_le (by simp [hr, hmod]; omega), Nat.sub_self]
    simp [makeBytes, frame]
  · rw [if_pos hs, if_neg hs]

theorem encode_ok {f : List UInt8} (h : e.encode payload = some (.ok f)) :
    f = frame e.config payload ∧ Admits e.config payload := by
  by_cases hl : 0 < e.config.frameLimit.toNat ∧ e.config.frameLimit.toNat < frameSize payload
  · simp [encode, hl] at h
  rw [encode_of_within e payload hl] at h
  by_cases hs : frameSize payload = payload.length + 5
  · rw [if_pos hs] at h
    cases h
    refine ⟨rfl, by unfold frameSize at hs; omega, ?_⟩
    simp only [TLVConfig.overLimit, Bool.and_eq_false_iff, decide_eq_false_iff_not]
    simp only [frameSize, lengthSize, tagSize] at hs hl ⊢
    omega
  · simp [hs] at h

theorem encode_of_fits (hs : payload.length + 5 < 2 ^ 32)
    (hl : e.config.overLimit payload.length = false) :
    e.encode payload = some (.ok (frame e.config payload)) := by
  have hf : frameSize payload = payload.length + 5 := by
    simp only [frameSize, lengthSize, tagSize]; omega
  simp only [TLVConfig.overLimit, Bool.and_eq_false_iff, decide_eq_false_iff_not, tagSize,
    lengthSize] at hl
  rw [encode_of_within e payload (by rw [hf]; omega), if_pos hf]

/-- `Encode` returns a frame exactly when the frame's true size fits 32 bits and the limit. -/
theorem encode_eq_ok_iff {f : List UInt8} :
    e.encode payload = some (.ok f) ↔ f = frame e.config payload ∧ payload.length + 5 < 2 ^ 32 ∧
      e.config.overLimit payload.length = false := by
  refine ⟨fun h => ?_, fun ⟨hf, hs, hl⟩ => hf ▸ encode_of_fits e payload hs hl⟩
  by_cases hl : 0 < e.config.frameLimit.toNat ∧ e.config.frameLimit.toNat < frameSize payload
  · simp [encode, hl] at h
  rw [encode_of_within e payload hl] at h
  split_ifs at h with hs
  swap
  · cases h
  cases h
  simp only [frameSize, lengthSize, tagSize] at hs hl
  refine ⟨rfl, by omega, ?_⟩
  simp only [TLVConfig.overLimit, Bool.and_eq_false_iff, decide_eq_false_iff_not, tagSize,
    lengthSize]
  omega

theorem encode_byteBuf_issue_of_wrap (hl : e.config.frameLimit = 0)
    (h₁ : 2 ^ 32 - 5 ≤ payload.length) (h₂ : payload.length < 2 ^ 32) :
    e.encode payload = some (.error ⟨"TLVFrameEncoder", "ByteBuf issue"⟩) := by
  have hs : frameSize payload ≠ payload.length + 5 := by
    simp only [frameSize, lengthSize, tagSize]; omega
  rw [encode_of_within e payload (by simp [hl]), if_neg hs]

/-- `Encode` returns the grammar's frame exactly when the true frame size fits 32 bits and the
limit; with no limit, the payloads whose `uint32` frame size wraps are rejected as a `ByteBuf`
issue although no limit excludes them. -/
theorem encode_ok_iff_fits_and_wrap_rejected :
    (∀ f, e.encode payload = some (.ok f) ↔ f = frame e.config payload ∧
      payload.length + 5 < 2 ^ 32 ∧ e.config.overLimit payload.length = false) ∧
    (e.config.frameLimit = 0 → 2 ^ 32 - 5 ≤ payload.length → payload.length < 2 ^ 32 →
      e.encode payload = some (.error ⟨"TLVFrameEncoder", "ByteBuf issue"⟩)) :=
  ⟨fun _ => encode_eq_ok_iff e payload, encode_byteBuf_issue_of_wrap e payload⟩

theorem encode_ok_iff_fits_and_wrap_rejected_at_max :
    (newTLVFrameEncoder ⟨1, 0⟩).encode (List.replicate (2 ^ 32 - 1) 0) =
      some (.error ⟨"TLVFrameEncoder", "ByteBuf issue"⟩) :=
  (encode_ok_iff_fits_and_wrap_rejected _ _).2 rfl (by rw [List.length_replicate]; decide)
    (by rw [List.length_replicate]; decide)

end TLVFrameEncoder

end Matcha.Codec
