import Matcha.Codec.Tlv

/-! # The reader worker's decode loop

The loop of `duplexPipeline.handleConnRead` once the channel is active; fuel counts the `Decode`
calls of one drain, where the Go loop has none. -/
namespace Matcha.Peer

open Matcha.Buffer Matcha.Codec

def readBufferSize : Nat := 1024

def byteBufferSize : Nat := 2 * readBufferSize

theorem newElasticUnsafeByteBuf_byteBufferSize :
    newElasticUnsafeByteBuf byteBufferSize = ⟨makeBytes 2048, 0, 0, 2048⟩ := by
  rw [newElasticUnsafeByteBuf_ofNat]; rfl

abbrev Emitted (α : Type) := Except DecodeError α

inductive Drained (α δ β : Type) where
  | done (out : List (Emitted α)) (d : δ) (buf : β)
  | panic (out : List (Emitted α))
  | outOfFuel

variable {α δ β : Type}

def Drained.prepend (xs : List (Emitted α)) : Drained α δ β → Drained α δ β
  | .done out d buf => .done (xs ++ out) d buf
  | .panic out => .panic (xs ++ out)
  | .outOfFuel => .outOfFuel

@[simp] theorem Drained.prepend_done (xs out : List (Emitted α)) (d : δ) (buf : β) :
    (Drained.done out d buf).prepend xs = .done (xs ++ out) d buf := rfl

@[simp] theorem Drained.prepend_panic (xs out : List (Emitted α)) :
    (Drained.panic out : Drained α δ β).prepend xs = .panic (xs ++ out) := rfl

theorem Drained.prepend_eq_done {r : Drained α δ β} {xs out : List (Emitted α)} {d : δ} {buf : β}
    (h : r.prepend xs = .done out d buf) : ∃ out', r = .done out' d buf ∧ out = xs ++ out' := by
  cases r <;> simp only [Drained.prepend, Drained.done.injEq, reduceCtorEq] at h
  obtain ⟨rfl, rfl, rfl⟩ := h
  exact ⟨_, rfl, rfl⟩

/-- `for { result, err := Decode(buf); if err != nil { ChannelError } else if result != nil
{ inboundDataC <- result } else { break } }`. -/
def drain (dec : δ → β → Option (DecodeResult α × δ × β)) : Nat → δ → β → Drained α δ β
  | 0, _, _ => .outOfFuel
  | fuel + 1, d, buf =>
    match dec d buf with
    | none => .panic []
    | some (.nothing, d, buf) => .done [] d buf
    | some (.success a, d, buf) => (drain dec fuel d buf).prepend [.ok a]
    | some (.failure e, d, buf) => (drain dec fuel d buf).prepend [.error e]

section Drain

variable {dec : δ → β → Option (DecodeResult α × δ × β)} {fuel : Nat} {d d' : δ} {buf buf' : β}

theorem drain_emits {r : DecodeResult α} {x : Emitted α} (h : dec d buf = some (r, d', buf'))
    (hx : r.emitted = some x) : drain dec (fuel + 1) d buf = (drain dec fuel d' buf').prepend [x] := by
  cases r <;> simp only [DecodeResult.emitted, Option.some.injEq, reduceCtorEq] at hx <;>
    subst hx <;> simp [drain, h]

theorem drain_stops (h : dec d buf = some (.nothing, d', buf')) :
    drain dec (fuel + 1) d buf = .done [] d' buf' := by
  simp [drain, h]

theorem drain_done_of_progress (μ : δ → β → Nat) (inv : δ → Prop)
    (hp : ∀ d buf, inv d → ∃ r d' buf', dec d buf = some (r, d', buf') ∧ inv d' ∧
      (r = .nothing ∨ μ d' buf' < μ d buf)) :
    ∀ fuel d buf, inv d → μ d buf < fuel → ∃ out d' buf', drain dec fuel d buf = .done out d' buf'
  | 0, _, _, _, h => absurd h (Nat.not_lt_zero _)
  | fuel + 1, d, buf, hd, hf => by
    obtain ⟨r, d', buf', h, hd', hr⟩ := hp d buf hd
    by_cases hn : r = .nothing
    · subst hn
      exact ⟨[], d', buf', drain_stops h⟩
    obtain ⟨x, hx⟩ := DecodeResult.emitted_of_ne_nothing hn
    obtain ⟨out, d'', buf'', hdr⟩ :=
      drain_done_of_progress μ inv hp fuel d' buf' hd' (by have := hr.resolve_left hn; omega)
    exact ⟨x :: out, d'', buf'', by rw [drain_emits h hx, hdr]; rfl⟩

theorem drain_loops_of_fixed {e : DecodeError} (h : dec d buf = some (.failure e, d, buf)) :
    ∀ fuel, drain dec fuel d buf = .outOfFuel
  | 0 => rfl
  | fuel + 1 => by rw [drain_emits h rfl, drain_loops_of_fixed h fuel]; rfl

end Drain

/-- One turn of the read loop: `WriteBytes(readBuffer[:count])`, the decode loop, `Release()`. -/
def readStep [ByteBuf β] (dec : δ → β → Option (DecodeResult α × δ × β)) (fuel : Nat) (d : δ)
    (b : β) (chunk : List UInt8) : Drained α δ β :=
  match ByteBuf.writeBytes b chunk with
  | none => .panic []
  | some b =>
    match drain dec fuel d b with
    | .done out d b =>
      match ByteBuf.release b with
      | none => .panic out
      | some b => .done out d b
    | r => r

def readLoop [ByteBuf β] (dec : δ → β → Option (DecodeResult α × δ × β)) (fuel : Nat) :
    δ → β → List (List UInt8) → Drained α δ β
  | d, b, [] => .done [] d b
  | d, b, chunk :: cs =>
    match readStep dec fuel d b chunk with
    | .done out d b => (readLoop dec fuel d b cs).prepend out
    | r => r

section Loop

variable [ByteBuf β] {dec : δ → β → Option (DecodeResult α × δ × β)} {fuel : Nat} {d d' : δ}
  {b b' : β} {chunk : List UInt8} {out : List (Emitted α)}

theorem readLoop_cons_done (cs : List (List UInt8)) (h : readStep dec fuel d b chunk = .done out d' b') :
    readLoop dec fuel d b (chunk :: cs) = (readLoop dec fuel d' b' cs).prepend out := by
  simp [readLoop, h]

theorem readLoop_cons_panic (cs : List (List UInt8)) (h : readStep dec fuel d b chunk = .panic out) :
    readLoop dec fuel d b (chunk :: cs) = .panic out := by
  simp [readLoop, h]

end Loop

theorem readStep_queue (dec : δ → List UInt8 → Option (DecodeResult α × δ × List UInt8)) (fuel : Nat)
    (d : δ) (q chunk : List UInt8) : readStep dec fuel d q chunk = drain dec fuel d (q ++ chunk) := by
  unfold readStep
  simp only [writeBytes_queue, release_queue]
  split <;> simp_all

/-- How one call of a decoder built on the TLV parser acts on a FIFO queue: a whole frame is
taken and gives `res` of its value, with the latches cleared; part of a frame stays, as much
header as is there is latched, and `(nil, nil)` is returned. -/
structure ReadsFrames (dec : δ → List UInt8 → Option (DecodeResult α × δ × List UInt8))
    (cfg : TLVConfig) (consumed : δ → List UInt8) (ready : δ → Prop)
    (res : List UInt8 → DecodeResult α) : Prop where
  whole : ∀ d q p rest, ready d → consumed d ++ q = frame cfg p ++ rest → Admits cfg p →
    ∃ d', dec d q = some (res p, d', rest) ∧ consumed d' = [] ∧ ready d'
  part : ∀ d q pre, ready d → consumed d ++ q = pre → Unfinished cfg pre →
    ∃ d' q', dec d q = some (.nothing, d', q') ∧ consumed d' ++ q' = pre ∧ ready d' ∧
      (consumed d').length = headerTaken pre.length

section Frames

variable {dec : δ → List UInt8 → Option (DecodeResult α × δ × List UInt8)} {cfg : TLVConfig}
  {consumed : δ → List UInt8} {ready : δ → Prop} {res : List UInt8 → DecodeResult α}

theorem ReadsFrames.drain_frames (h : ReadsFrames dec cfg consumed ready res)
    (ps : List (List UInt8)) {pre : List UInt8} (hpre : Unfinished cfg pre)
    (hps : ∀ p ∈ ps, Admits cfg p ∧ res p ≠ .nothing) {d : δ} {q : List UInt8} (hd : ready d)
    (hq : consumed d ++ q = frames cfg ps ++ pre) {fuel : Nat} (hf : ps.length < fuel) :
    ∃ d' q', drain dec fuel d q = .done (ps.filterMap fun p => (res p).emitted) d' q' ∧
      consumed d' ++ q' = pre ∧ ready d' ∧ (consumed d').length = headerTaken pre.length := by
  obtain ⟨fuel, rfl⟩ : ∃ n, fuel = n + 1 := ⟨fuel - 1, by omega⟩
  induction ps generalizing d q fuel with
  | nil =>
    obtain ⟨d', q', hdec, hc, hr, hn⟩ := h.part d q pre hd hq hpre
    exact ⟨d', q', drain_stops hdec, hc, hr, hn⟩
  | cons p ps ih =>
    have hp := hps p (List.mem_cons_self _ _)
    obtain ⟨x, hx⟩ := DecodeResult.emitted_of_ne_nothing hp.2
    obtain ⟨d₁, hdec, hc, hr⟩ := h.whole d q p _ hd (by rw [hq, frames_cons, List.append_assoc])
      hp.1
    obtain ⟨fuel, rfl⟩ : ∃ n, fuel = n + 1 := ⟨fuel - 1, by rw [List.length_cons] at hf; omega⟩
    obtain ⟨d', q', hdr, hrest⟩ := ih (fun p hp => hps p (List.mem_cons_of_mem _ hp)) hr
      (by rw [hc, List.nil_append]) fuel (by rw [List.length_cons] at hf; omega)
    refine ⟨d', q', ?_, hrest⟩
    rw [drain_emits hdec hx, hdr, Drained.prepend_done]
    simp only [List.filterMap_cons, hx, List.singleton_append]

theorem ReadsFrames.drain_cases (h : ReadsFrames dec cfg consumed ready res)
    (ps : List (List UInt8)) {pre : List UInt8} (hpre : Unfinished cfg pre)
    (hps : ∀ p ∈ ps, Admits cfg p) {d : δ} {q : List UInt8} (hd : ready d)
    (hq : consumed d ++ q = frames cfg ps ++ pre) {fuel : Nat} (hf : ps.length < fuel) :
    ∃ out d' q', drain dec fuel d q = .done out d' q' ∧ ready d' ∧
      ((∀ p ∈ ps, res p ≠ .nothing) ∧ consumed d' ++ q' = pre ∨
        ∃ ps₁ p ps₂, ps = ps₁ ++ p :: ps₂ ∧ res p = .nothing ∧
          consumed d' ++ q' = frames cfg ps₂ ++ pre) := by
  obtain ⟨fuel, rfl⟩ : ∃ n, fuel = n + 1 := ⟨fuel - 1, by omega⟩
  induction ps generalizing d q fuel with
  | nil =>
    obtain ⟨d', q', hdec, hc, hr, -⟩ := h.part d q pre hd hq hpre
    exact ⟨[], d', q', drain_stops hdec, hr, .inl ⟨nofun, hc⟩⟩
  | cons p ps ih =>
    obtain ⟨d₁, hdec, hc, hr⟩ := h.whole d q p _ hd (by rw [hq, frames_cons, List.append_assoc])
      (hps p (List.mem_cons_self _ _))
    by_cases hn : res p = .nothing
    · rw [hn] at hdec
      exact ⟨[], d₁, _, drain_stops hdec, hr, .inr ⟨[], p, ps, rfl, hn, by rw [hc, List.nil_append]⟩⟩
    obtain ⟨x, hx⟩ := DecodeResult.emitted_of_ne_nothing hn
    obtain ⟨fuel, rfl⟩ : ∃ n, fuel = n + 1 := ⟨fuel - 1, by rw [List.length_cons] at hf; omega⟩
    obtain ⟨out, d', q', hdr, hr', hcases⟩ := ih (fun p hp => hps p (List.mem_cons_of_mem _ hp)) hr
      (by rw [hc, List.nil_append]) fuel (by rw [List.length_cons] at hf; omega)
    refine ⟨x :: out, d', q', by rw [drain_emits hdec hx, hdr]; rfl, hr', ?_⟩
    rcases hcases with ⟨hall, hc'⟩ | ⟨ps₁, p', ps₂, rfl, hn', hc'⟩
    · exact .inl ⟨List.forall_mem_cons.mpr ⟨hn, hall⟩, hc'⟩
    · exact .inr ⟨p :: ps₁, p', ps₂, rfl, hn', hc'⟩

/-- The read loop on the FIFO view, fed a stream of frames in chunks of any sizes, hands on
every frame's outcome in order and ends with an empty queue and cleared latches. -/
theorem ReadsFrames.readLoop_frames (h : ReadsFrames dec cfg consumed ready res) {fuel : Nat} :
    ∀ (chunks : List (List UInt8)) {ps : List (List UInt8)} {d : δ} {q : List UInt8},
      ready d → Unfinished cfg (consumed d ++ q) →
      consumed d ++ q ++ chunks.flatten = frames cfg ps →
      (∀ p ∈ ps, Admits cfg p ∧ res p ≠ .nothing) → ps.length < fuel →
      ∃ d', readLoop dec fuel d q chunks = .done (ps.filterMap fun p => (res p).emitted) d' [] ∧
        consumed d' = [] ∧ ready d'
  | [], ps, d, q, hd, hu, hs, hps, _ => by
    rw [List.flatten_nil, List.append_nil] at hs
    obtain rfl := unfinished_frames (fun p hp => (hps p hp).1.1) (hs ▸ hu)
    obtain ⟨hc, rfl⟩ := List.append_eq_nil.mp hs
    exact ⟨d, rfl, hc, hd⟩
  | chunk :: cs, ps, d, q, hd, _, hs, hps, hf => by
    rw [List.flatten_cons, ← List.append_assoc, List.append_assoc (consumed d)] at hs
    obtain ⟨j, pre, hx, hu, hy⟩ := prefix_frames cfg (fun p hp => (hps p hp).1.1) hs
    obtain ⟨d₁, q₁, hdr, hc₁, hr₁, -⟩ := h.drain_frames (ps.take j) hu
      (fun p hp => hps p (List.mem_of_mem_take hp)) hd hx
      (lt_of_le_of_lt (List.length_take_le' _ _) hf)
    obtain ⟨d', hl, hc', hr'⟩ := h.readLoop_frames cs hr₁ (hc₁ ▸ hu) (by rw [hc₁, hy])
      (fun p hp => hps p (List.mem_of_mem_drop hp))
      (show (ps.drop j).length < fuel by rw [List.length_drop]; omega)
    refine ⟨d', ?_, hc', hr'⟩
    rw [readLoop_cons_done cs ((readStep_queue _ _ _ _ _).trans hdr), hl, Drained.prepend_done,
      ← List.filterMap_append, List.take_append_drop]

theorem ReadsFrames.readLoop_chunks (h : ReadsFrames dec cfg consumed ready res) {fuel : Nat} :
    ∀ (chunks : List (List UInt8)) {ps : List (List UInt8)} {d : δ} {q rest : List UInt8},
      ready d → Unfinished cfg (consumed d ++ q) →
      consumed d ++ q ++ chunks.flatten ++ rest = frames cfg ps →
      (∀ p ∈ ps, Admits cfg p ∧ res p ≠ .nothing) → ps.length < fuel →
      ∃ j d' q', readLoop dec fuel d q chunks =
          .done ((ps.take j).filterMap fun p => (res p).emitted) d' q' ∧
        consumed d' ++ q' ++ rest = frames cfg (ps.drop j) ∧ Unfinished cfg (consumed d' ++ q') ∧
        ready d'
  | [], ps, d, q, rest, hd, hu, hs, _, _ => ⟨0, d, q, rfl, by simpa using hs, hu, hd⟩
  | chunk :: cs, ps, d, q, rest, hd, _, hs, hps, hf => by
    have hs' : consumed d ++ q ++ chunk ++ (cs.flatten ++ rest) = frames cfg ps := by
      rw [← hs]; simp
    obtain ⟨j, pre, hx, hu, hy⟩ := prefix_frames cfg (fun p hp => (hps p hp).1.1) hs'
    obtain ⟨d₁, q₁, hdr, hc₁, hr₁, -⟩ := h.drain_frames (ps.take j) hu
      (fun p hp => hps p (List.mem_of_mem_take hp)) hd (by rw [← List.append_assoc]; exact hx)
      (lt_of_le_of_lt (List.length_take_le' _ _) hf)
    obtain ⟨j', d', q', hl, hrest, hu', hr'⟩ := h.readLoop_chunks cs hr₁ (hc₁ ▸ hu)
      (by rw [hc₁, List.append_assoc, hy]) (fun p hp => hps p (List.mem_of_mem_drop hp))
      (show (ps.drop j).length < fuel by rw [List.length_drop]; omega)
    refine ⟨j + j', d', q', ?_, by rw [hrest, List.drop_drop, Nat.add_comm], hu', hr'⟩
    rw [readLoop_cons_done cs ((readStep_queue _ _ _ _ _).trans hdr), hl, Drained.prepend_done,
      ← List.filterMap_append, List.take_add]

end Frames

theorem tlv_readsFrames (cfg : TLVConfig) :
    ReadsFrames TLVFrameDecoder.decode cfg TLVFrameDecoder.consumed
      (fun c => c.Ready ∧ c.config = cfg) DecodeResult.success where
  whole c q p rest hc hq hp := by
    obtain ⟨hr, rfl⟩ := hc
    exact ⟨_, TLVFrameDecoder.decode_frame hr hq hp, rfl, TLVFrameDecoder.resetBuffer_ready, rfl⟩
  part c q pre hc hq hpre := by
    obtain ⟨hr, rfl⟩ := hc
    obtain ⟨p, more, hp, hm, hne⟩ := hpre
    obtain ⟨c', q', h, hc', hr', hcfg, hn⟩ := TLVFrameDecoder.decode_partial hr hq hm hne hp
    exact ⟨c', q', h, hc', ⟨hr', hcfg⟩, hn⟩

@[simp] theorem frames_append (cfg : TLVConfig) (ps ps' : List (List UInt8)) :
    frames cfg (ps ++ ps') = frames cfg ps ++ frames cfg ps' := by
  simp [frames]

theorem filterMap_success_emitted (ps : List (List UInt8)) :
    (ps.filterMap fun p => (DecodeResult.success p).emitted) = ps.map .ok := by
  induction ps <;> simp_all [DecodeResult.emitted]

/-- The TLV decoder is a resumable parser: fed a stream of admitted frames in chunks of any
sizes, each drain hands on exactly the values of the frames whose last byte the chunk brought,
in order and without an error, and keeps the part of the next frame; at the end every byte
has been taken. -/
theorem tlv_readLoop_emits_frames_on_last_chunk (cfg : TLVConfig) {ps chunks : List (List UInt8)}
    (hps : ∀ p ∈ ps, Admits cfg p) (hs : chunks.flatten = frames cfg ps) {fuel : Nat}
    (hf : ps.length < fuel) :
    (∀ k, ∃ j c q, readLoop TLVFrameDecoder.decode fuel (newTLVFrameDecoder cfg) ([] : List UInt8)
        (chunks.take k) = .done ((ps.take j).map .ok) c q ∧
      (chunks.take k).flatten = frames cfg (ps.take j) ++ (c.consumed ++ q) ∧
      Unfinished cfg (c.consumed ++ q)) ∧
    ∃ c, readLoop TLVFrameDecoder.decode fuel (newTLVFrameDecoder cfg) ([] : List UInt8) chunks =
      .done (ps.map .ok) c [] ∧ c.consumed = [] := by
  have hr : (newTLVFrameDecoder cfg).Ready ∧ (newTLVFrameDecoder cfg).config = cfg :=
    ⟨TLVFrameDecoder.newTLVFrameDecoder_ready cfg, rfl⟩
  have hps' : ∀ p ∈ ps, Admits cfg p ∧ DecodeResult.success p ≠ .nothing :=
    fun p hp => ⟨hps p hp, DecodeResult.noConfusion⟩
  refine ⟨fun k => ?_, ?_⟩
  · have hsplit : (chunks.take k).flatten ++ (chunks.drop k).flatten = frames cfg ps := by
      rw [← List.flatten_append, List.take_append_drop, hs]
    obtain ⟨j, c, q, hl, hrest, hu, -⟩ := (tlv_readsFrames cfg).readLoop_chunks (chunks.take k) hr
      (unfinished_nil cfg) (by simpa using hsplit) hps' hf
    refine ⟨j, c, q, by rw [hl, filterMap_success_emitted], ?_, hu⟩
    rw [← List.take_append_drop j ps, frames_append, ← hrest, ← List.append_assoc] at hsplit
    exact List.append_cancel_right hsplit
  · obtain ⟨c, hl, hc, -⟩ := (tlv_readsFrames cfg).readLoop_frames chunks hr (unfinished_nil cfg)
      (by simpa using hs) hps' hf
    exact ⟨c, by rw [hl, filterMap_success_emitted], hc⟩

theorem tlv_readLoop_emits_frames_on_last_chunk_with_empty_value :
    ∃ c, readLoop TLVFrameDecoder.decode 3 (newTLVFrameDecoder ⟨1, 0⟩) ([] : List UInt8)
        [[1, 0, 0], [0, 1, 7, 1, 0], [0, 0, 0]] = .done [.ok [7], .ok []] c [] ∧ c.consumed = [] :=
  (@tlv_readLoop_emits_frames_on_last_chunk ⟨1, 0⟩ [[7], []] _ (by decide) (by decide) 3
    (by decide)).2

section Elastic

open ElasticUnsafeByteBuf

variable {decQ : δ → List UInt8 → Option (DecodeResult α × δ × List UInt8)}
  {decB : δ → ElasticUnsafeByteBuf → Option (DecodeResult α × δ × ElasticUnsafeByteBuf)}

/-- Each call of `decB` on a covered elastic buffer returns what `decQ` returns on its FIFO
view, and only moves the read index. -/
def MirrorsDecode (decQ : δ → List UInt8 → Option (DecodeResult α × δ × List UInt8))
    (decB : δ → ElasticUnsafeByteBuf → Option (DecodeResult α × δ × ElasticUnsafeByteBuf)) : Prop :=
  ∀ ⦃b q d r d' q'⦄, Mirrors b q → decQ d q = some (r, d', q') →
    ∃ b', decB d b = some (r, d', b') ∧ Follows b q' b'

theorem drain_mirrors (hm : MirrorsDecode decQ decB) {fuel : Nat} {d d' : δ}
    {b : ElasticUnsafeByteBuf} {q q' : List UInt8} {out : List (Emitted α)} (hb : Mirrors b q)
    (h : drain decQ fuel d q = .done out d' q') :
    ∃ b', drain decB fuel d b = .done out d' b' ∧ Follows b q' b' := by
  induction fuel generalizing d b q out with
  | zero => cases h
  | succ fuel ih =>
    obtain ⟨⟨r, d₁, q₁⟩, hq⟩ : ∃ x, decQ d q = some x := by
      cases hq : decQ d q with
      | none => simp [drain, hq] at h
      | some x => exact ⟨x, rfl⟩
    obtain ⟨b₁, hb₁, hf⟩ := hm hb hq
    by_cases hr : r = .nothing
    · subst hr
      rw [drain_stops hq] at h
      cases h
      exact ⟨b₁, drain_stops hb₁, hf⟩
    · obtain ⟨x, hx⟩ := DecodeResult.emitted_of_ne_nothing hr
      rw [drain_emits hq hx] at h
      obtain ⟨out', hd, rfl⟩ := Drained.prepend_eq_done h
      obtain ⟨b', hd', hf'⟩ := ih hf.mirrors hd
      exact ⟨b', by rw [drain_emits hb₁ hx, hd']; rfl, hf.trans hf'⟩

/-- A turn whose write fits both the recorded room and the slice does on the elastic buffer
what it does on the FIFO view. `Release` then leaves a slice of `capacity` less the bytes
read in this turn and the write index at the bytes kept. -/
theorem readStep_mirrors (hm : MirrorsDecode decQ decB) {fuel : Nat} {d d' : δ}
    {b : ElasticUnsafeByteBuf} {q q' chunk : List UInt8} {out : List (Emitted α)}
    (hb : Mirrors b q) (hroom : chunk.length ≤ b.writableBytes)
    (hfit : chunk.length ≤ b.buffer.length - b.writeIndex)
    (h : drain decQ fuel d (q ++ chunk) = .done out d' q') :
    ∃ b', readStep decB fuel d b chunk = .done out d' b' ∧ Mirrors b' q' ∧ b'.readIndex = 0 ∧
      b'.writeIndex = q'.length ∧ b'.capacity = b.capacity ∧
      b'.buffer.length = b.capacity - (b.writeIndex + chunk.length - q'.length) := by
  obtain ⟨b₁, hw, hc₁, hi₁, hcov₁, -, hw₁, hcap₁, -⟩ := writeBytes_fits hb.inv hb.covered hroom hfit
  obtain ⟨b₂, hd, n, rfl, hm₂⟩ := drain_mirrors hm ⟨hi₁, hcov₁, by rw [hc₁, hb.contents]⟩ h
  obtain ⟨hcont, hi', hc', hcap', hlen'⟩ := compacted_spec hm₂.inv hm₂.covered
  have hl : q'.length = b₁.writeIndex - (b₁.advance n).readIndex := by
    rw [← hm₂.contents, length_contents hm₂.covered]; rfl
  have hrw : (b₁.advance n).readIndex ≤ b₁.writeIndex := hm₂.inv.read_le_write
  refine ⟨_, ?_, ⟨hi', hc', hcont.trans hm₂.contents⟩, rfl, ?_, hcap'.trans hcap₁, ?_⟩
  · simp only [readStep, writeBytes_elastic, hw, hd, release_elastic,
      release_eq hm₂.inv hm₂.covered]
  · show b₁.writeIndex - (b₁.advance n).readIndex = q'.length
    omega
  · rw [hlen']
    show b₁.capacity - (b₁.advance n).readIndex = _
    omega

end Elastic

theorem tlv_mirrorsDecode :
    @MirrorsDecode (List UInt8) TLVFrameDecoder TLVFrameDecoder.decode TLVFrameDecoder.decode :=
  fun _ _ _ _ _ _ h hq => TLVFrameDecoder.decode_mirrors h hq

open ElasticUnsafeByteBuf in
/-- Two frames of 1505 and 2005 bytes read in chunks of `readBufferSize`: the second
`Release` leaves a slice of 543 bytes while `capacity` stays 2048, so the third write is cut
to the 5 bytes the slice has room for while the write index moves by 1024, past the slice.
The decoder waits for the rest of the second value and the third `Release` panics, after only
the first value was pushed. -/
theorem readLoop_panics_on_stale_capacity {cfg : TLVConfig} {p₁ p₂ : List UInt8}
    (h₁ : p₁.length = 1500) (h₂ : p₂.length = 2000) (hp₁ : Admits cfg p₁) (hp₂ : Admits cfg p₂)
    {fuel : Nat} (hf : 1 < fuel) :
    readLoop TLVFrameDecoder.decode fuel (newTLVFrameDecoder cfg)
        (newElasticUnsafeByteBuf byteBufferSize)
        [(frames cfg [p₁, p₂]).take 1024, ((frames cfg [p₁, p₂]).drop 1024).take 1024,
          ((frames cfg [p₁, p₂]).drop 2048).take 1024, (frames cfg [p₁, p₂]).drop 3072] =
      .panic [.ok p₁] := by
  obtain ⟨n, rfl⟩ : ∃ n, fuel = n + 1 := ⟨fuel - 1, by omega⟩
  have hb₀ := newElasticUnsafeByteBuf_byteBufferSize
  have hs : frames cfg [p₁, p₂] = frame cfg p₁ ++ frame cfg p₂ := by simp
  have hl₁ : (frame cfg p₁).length = 1505 := by rw [length_frame, h₁]
  have hl₂ : (frame cfg p₂).length = 2005 := by rw [length_frame, h₂]
  have hls : (frames cfg [p₁, p₂]).length = 3510 := by rw [hs, List.length_append, hl₁, hl₂]
  have hc₁ : ((frames cfg [p₁, p₂]).take 1024).length = 1024 := by
    simp only [List.length_take, hls]; omega
  have hc₂ : (((frames cfg [p₁, p₂]).drop 1024).take 1024).length = 1024 := by
    simp only [List.length_take, List.length_drop, hls]; omega
  have hc₃ : (((frames cfg [p₁, p₂]).drop 2048).take 1024).length = 1024 := by
    simp only [List.length_take, List.length_drop, hls]; omega
  have hfirst : (frames cfg [p₁, p₂]).take 1024 = (frame cfg p₁).take 1024 := by
    rw [hs, List.take_append_of_le_length (by omega)]
  -- First turn: the first frame's header is latched, 1019 bytes stay.
  have hu₁ : Unfinished cfg ((frame cfg p₁).take 1024) :=
    ⟨p₁, _, hp₁.1, List.take_append_drop _ _, List.ne_nil_of_length_pos (by simp [hl₁])⟩
  have hq₁ : (newTLVFrameDecoder cfg).consumed ++ ([] ++ (frames cfg [p₁, p₂]).take 1024) =
      frames cfg [] ++ (frame cfg p₁).take 1024 := by
    rw [hfirst]; rfl
  obtain ⟨d₁, q₁, hdr₁, hcq₁, hr₁, hn₁⟩ := (tlv_readsFrames cfg).drain_frames [] hu₁ (by simp)
    ⟨TLVFrameDecoder.newTLVFrameDecoder_ready cfg, rfl⟩ hq₁ (Nat.succ_pos n)
  have hq₁l : q₁.length = 1019 := by
    have h5 : (TLVFrameDecoder.consumed d₁).length = 5 := by rw [hn₁, List.length_take, hl₁]; rfl
    have := congrArg List.length hcq₁
    rw [List.length_append, h5, List.length_take, hl₁] at this
    omega
  obtain ⟨b₁, hst₁, hb₁, -, hw₁, hcap₁, hlen₁⟩ := readStep_mirrors tlv_mirrorsDecode
    (newElasticUnsafeByteBuf_mirrors byteBufferSize)
    (by simp only [hb₀, hc₁, writableBytes]; omega) (by simp only [hb₀, hc₁, length_makeBytes]; omega)
    hdr₁
  -- Second turn: the first value is pushed and the second frame's header latched.
  have hu₂ : Unfinished cfg ((frame cfg p₂).take 543) :=
    ⟨p₂, _, hp₂.1, List.take_append_drop _ _, List.ne_nil_of_length_pos (by simp [hl₂])⟩
  have hq₂ : TLVFrameDecoder.consumed d₁ ++ (q₁ ++ ((frames cfg [p₁, p₂]).drop 1024).take 1024) =
      frames cfg [p₁] ++ (frame cfg p₂).take 543 := by
    rw [← List.append_assoc, hcq₁, ← hfirst, ← List.take_add, hs, List.take_append_eq_append_take,
      List.take_of_length_le (by omega), hl₁]
    simp
  obtain ⟨d₂, q₂, hdr₂, hcq₂, hr₂, hn₂⟩ := (tlv_readsFrames cfg).drain_frames [p₁] hu₂
    (by simp [hp₁]) hr₁ hq₂ (show [p₁].length < n + 1 by simpa using hf)
  have h5₂ : (TLVFrameDecoder.consumed d₂).length = 5 := by rw [hn₂, List.length_take, hl₂]; rfl
  have hq₂l : q₂.length = 538 := by
    have := congrArg List.length hcq₂
    rw [List.length_append, h5₂, List.length_take, hl₂] at this
    omega
  obtain ⟨b₂, hst₂, hb₂, hr0₂, hw₂, hcap₂, hlen₂⟩ := readStep_mirrors tlv_mirrorsDecode hb₁
    (by simp only [writableBytes, hc₂, hcap₁, hw₁, hq₁l, hb₀]; omega)
    (by simp only [hc₂, hlen₁, hw₁, hq₁l, hb₀, hc₁]; omega) hdr₂
  -- Third turn: the write overruns the 543-byte slice and `Release` panics.
  have hlat : TLVFrameDecoder.consumed d₂ ++ q₂ ++ (frame cfg p₂).drop 543 = frame d₂.config p₂ := by
    rw [hcq₂, hr₂.2, List.take_append_drop]
  obtain ⟨ht, hlv, hlen⟩ := TLVFrameDecoder.latched_length hr₂.1 hlat hp₂.1 h5₂
  obtain ⟨b₃, hw₃, hr₃, hwi₃, -, hlen₃⟩ := writeBytes_in_place hb₂.covered
    (show (((frames cfg [p₁, p₂]).drop 2048).take 1024).length ≤ b₂.writableBytes by
      simp only [writableBytes, hc₃, hcap₂, hcap₁, hw₂, hq₂l, hb₀]; omega)
  have hdec₃ : d₂.decode b₃ = some (.nothing, d₂, b₃) := TLVFrameDecoder.decode_waits ht hlv
    (show b₃.writeIndex - b₃.readIndex < d₂.lengthValue by
      rw [hwi₃, hr₃, hr0₂, hw₂, hlen, hq₂l, hc₃, h₂]; omega)
  have hrel₃ : b₃.release = none := release_of_overrun (by
    simp only [hlen₃, hwi₃, hlen₂, hw₂, hq₂l, hc₃, hcap₁, hw₁, hq₁l, hc₂, hb₀]; omega)
  have hst₃ : readStep TLVFrameDecoder.decode (n + 1) d₂ b₂
      (((frames cfg [p₁, p₂]).drop 2048).take 1024) = .panic [] := by
    simp only [readStep, writeBytes_elastic, hw₃, drain_stops hdec₃, release_elastic, hrel₃]
  rw [readLoop_cons_done _ hst₁, readLoop_cons_done _ hst₂, readLoop_cons_panic _ hst₃]
  rfl

theorem readLoop_panics_on_stale_capacity_at_4MiB :
    (makeBytes 1500).length = 1500 ∧ (makeBytes 2000).length = 2000 ∧
      Admits ⟨1, 4194304⟩ (makeBytes 1500) ∧ Admits ⟨1, 4194304⟩ (makeBytes 2000) ∧ 1 < 2 ∧
      readLoop TLVFrameDecoder.decode 2 (newTLVFrameDecoder ⟨1, 4194304⟩)
          (newElasticUnsafeByteBuf byteBufferSize)
          [(frames ⟨1, 4194304⟩ [makeBytes 1500, makeBytes 2000]).take 1024,
            ((frames ⟨1, 4194304⟩ [makeBytes 1500, makeBytes 2000]).drop 1024).take 1024,
            ((frames ⟨1, 4194304⟩ [makeBytes 1500, makeBytes 2000]).drop 2048).take 1024,
            (frames ⟨1, 4194304⟩ [makeBytes 1500, makeBytes 2000]).drop 3072] =
        .panic [.ok (makeBytes 1500)] := by
  have h₁ : (makeBytes 1500).length = 1500 := length_makeBytes _
  have h₂ : (makeBytes 2000).length = 2000 := length_makeBytes _
  have hp₁ : Admits ⟨1, 4194304⟩ (makeBytes 1500) := by rw [Admits, h₁]; decide
  have hp₂ : Admits ⟨1, 4194304⟩ (makeBytes 2000) := by rw [Admits, h₂]; decide
  exact ⟨h₁, h₂, hp₁, hp₂, by decide, readLoop_panics_on_stale_capacity h₁ h₂ hp₁ hp₂ (by decide)⟩

end Matcha.Peer
