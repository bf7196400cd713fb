import Matcha.Peer.Reader

/-! # The Apollo codec

`ApolloFrameDecoder` and `ApolloFrameEncoder` of package `codec`: a TLV frame whose value is
a 2-byte big-endian type code followed by a MessagePack body. The entity types and MessagePack
are parameters. -/
namespace Matcha.Codec

open Matcha.Buffer Matcha.Peer

/-- What the codec asks of its entities: `TypeCode()`, MessagePack's `Marshal`, and its
`Unmarshal` into a fresh value, which fills the value or fails with an error text. -/
structure EntityCodec (ε : Type) where
  typeCode : ε → UInt16
  marshal : ε → Except String (List UInt8)
  unmarshal : List UInt8 → ε → Except String ε

/-- The TLV settings and, per type code, the value its registered constructor returns. Go
calls a constructor afresh for each frame; here it returns the same fresh value each time.
The newest registration of a code comes first, as a map assignment overwrites. -/
structure ApolloConfig (ε : Type) extends TLVConfig where
  entityConstructors : List (UInt16 × ε)

variable {ε : Type}

namespace ApolloConfig

/-- `RegisterEntity(constructor)`: the value the constructor returns is filed under its own
type code; `none` is a nil constructor or one that returns nil. -/
def registerEntity (ec : EntityCodec ε) (c : ApolloConfig ε) : Option ε → ApolloConfig ε
  | none => c
  | some e => { c with entityConstructors := (ec.typeCode e, e) :: c.entityConstructors }

def createEntity (c : ApolloConfig ε) (typeCode : UInt16) : Option ε :=
  c.entityConstructors.lookup typeCode

@[simp] theorem createEntity_registerEntity (ec : EntityCodec ε) (c : ApolloConfig ε) (e : ε)
    (typeCode : UInt16) :
    (c.registerEntity ec (some e)).createEntity typeCode =
      if typeCode = ec.typeCode e then some e else c.createEntity typeCode := by
  by_cases h : typeCode = ec.typeCode e
  · simp [registerEntity, createEntity, List.lookup_cons, h]
  · simp [registerEntity, createEntity, List.lookup_cons, h, beq_eq_false_iff_ne.mpr h]

end ApolloConfig

structure ApolloFrameDecoder (ε : Type) where
  config : ApolloConfig ε
  tlvDecoder : Option TLVFrameDecoder

def newApolloFrameDecoder (config : ApolloConfig ε) : ApolloFrameDecoder ε := ⟨config, none⟩

namespace ApolloFrameDecoder

variable (ec : EntityCodec ε)

def unmarshalEntity (config : ApolloConfig ε) (typeCode : UInt16) (body : List UInt8) :
    DecodeResult ε :=
  match config.createEntity typeCode with
  | none => .nothing
  | some entity =>
    match ec.unmarshal body entity with
    | .error msg => .failure ⟨"ApolloFrameDecoder", msg⟩
    | .ok entity => .success entity

def decodePayload (config : ApolloConfig ε) (payload : List UInt8) : Option (DecodeResult ε) :=
  ((newElasticUnsafeByteBuf payload.length).writeBytes payload).bind fun pb =>
    if pb.readableBytes < 2 then some (.failure ⟨"ApolloFrameDecoder", "illegal payload"⟩) else
      (pb.read (makeBytes 2)).bind fun r =>
        (r.2.readBytes r.2.readableBytes).map fun s =>
          unmarshalEntity ec config (UInt16.ofNat (beValue r.1.2.2)) s.1

def fromTLV (config : ApolloConfig ε) : DecodeResult (List UInt8) → Option (DecodeResult ε)
  | .nothing => some .nothing
  | .failure e => some (.failure ⟨"ApolloFrameDecoder", e.error⟩)
  | .success payload => decodePayload ec config payload

def initTLVDecoder (d : ApolloFrameDecoder ε) : TLVFrameDecoder :=
  d.tlvDecoder.getD (newTLVFrameDecoder d.config.toTLVConfig)

/-- `Decode`: nothing to read is `(nil, nil)` before the TLV decoder is made; otherwise the TLV
decoder parses a frame and its value is decoded. -/
def decode {β : Type} [ByteBuf β] (d : ApolloFrameDecoder ε) (buf : β) :
    Option (DecodeResult ε × ApolloFrameDecoder ε × β) :=
  if ByteBuf.readableBytes buf = 0 then some (.nothing, d, buf) else
    (d.initTLVDecoder.decode buf).bind fun r =>
      (fromTLV ec d.config r.1).map fun res => (res, { d with tlvDecoder := some r.2.1 }, r.2.2)

def payloadResult (config : ApolloConfig ε) (payload : List UInt8) : DecodeResult ε :=
  if payload.length < 2 then .failure ⟨"ApolloFrameDecoder", "illegal payload"⟩ else
    unmarshalEntity ec config (UInt16.ofNat (beValue (payload.take 2))) (payload.drop 2)

open ElasticUnsafeByteBuf in
theorem decodePayload_eq (config : ApolloConfig ε) (payload : List UInt8) :
    decodePayload ec config payload = some (payloadResult ec config payload) := by
  obtain ⟨hi, ht⟩ := newElasticUnsafeByteBuf_inv payload.length
  obtain ⟨pb, hw, hc, hi', ht'⟩ := writeBytes_tight_spec hi ht payload
  have hcov := hi'.covered ht'
  have hq : pb.contents = payload := by rw [hc]; simp [contents]
  have hr : pb.readableBytes = payload.length := by rw [← length_contents hcov, hq]
  simp only [decodePayload, hw, Option.some_bind, hr, payloadResult]
  split
  · rfl
  have hs : pb.readSize (makeBytes 2) = 2 := by
    simp only [readSize, length_makeBytes, hr]; split <;> omega
  obtain ⟨ha, hca⟩ := advance_inv hi' hcov 2
  have hr₂ : (pb.advance 2).readableBytes = payload.length - 2 := by
    rw [← length_contents hca, advance_contents, hq, List.length_drop]
  simp only [ElasticUnsafeByteBuf.read, hs, if_neg (by decide : ¬ (2 = 0)), readBytes_eq hi' hcov,
    Option.map_some', Option.some_bind, hr₂, readBytes_eq ha hca, advance_contents, hq, hr]
  rw [copyInto_of_le (by simp; omega), List.take_of_length_le (l := List.drop 2 payload) (by simp)]
  simp [makeBytes, show 2 - payload.length = 0 by omega, show min 2 payload.length = 2 by omega]

end ApolloFrameDecoder

structure ApolloFrameEncoder (ε : Type) where
  config : ApolloConfig ε

/-- `Encode` of an entity: the type code and the marshalled body written with `binary.Write`
into a buffer of `2 + len(body)` bytes, read back, and framed by a TLV encoder of the same
settings (`initTLVEncoder` makes it on first use). -/
def ApolloFrameEncoder.encode (ec : EntityCodec ε) (e : ApolloFrameEncoder ε) (entity : ε) :
    Option (Except EncodeError (List UInt8)) :=
  match ec.marshal entity with
  | .error msg => some (.error ⟨"ApolloFrameEncoder", msg⟩)
  | .ok body =>
    ((newElasticUnsafeByteBuf (2 + body.length)).write (beBytes 2 (ec.typeCode entity).toNat)).bind
      fun b₁ => (b₁.2.write body).bind fun b₂ =>
        (b₂.2.readBytes b₂.2.readableBytes).bind fun r =>
          ((newTLVFrameEncoder e.config.toTLVConfig).encode r.1).map fun
            | .error err => .error ⟨"ApolloFrameEncoder", err.error⟩
            | .ok frame => .ok frame

open ElasticUnsafeByteBuf in
theorem ApolloFrameEncoder.encode_eq {ec : EntityCodec ε} (e : ApolloFrameEncoder ε) {entity : ε}
    {body : List UInt8} (hm : ec.marshal entity = .ok body) :
    e.encode ec entity =
      ((newTLVFrameEncoder e.config.toTLVConfig).encode
        (beBytes 2 (ec.typeCode entity).toNat ++ body)).map fun
          | .error err => .error ⟨"ApolloFrameEncoder", err.error⟩
          | .ok frame => .ok frame := by
  obtain ⟨hi, ht⟩ := newElasticUnsafeByteBuf_inv (2 + body.length)
  obtain ⟨b₁, h₁, hc₁, hi₁, ht₁⟩ := writeBytes_tight_spec hi ht (beBytes 2 (ec.typeCode entity).toNat)
  obtain ⟨b₂, h₂, hc₂, hi₂, ht₂⟩ := writeBytes_tight_spec hi₁ ht₁ body
  have hr : b₂.readBytes b₂.readableBytes =
      some (beBytes 2 (ec.typeCode entity).toNat ++ body, b₂.advance b₂.readableBytes) := by
    rw [readBytes_eq hi₂ (hi₂.covered ht₂), ← length_contents (hi₂.covered ht₂),
      List.take_length, Nat.sub_self, hc₂, hc₁, newElasticUnsafeByteBuf_contents, List.nil_append]
    simp [makeBytes]
  simp only [encode, hm, ElasticUnsafeByteBuf.write, h₁, h₂, Option.map_some', Option.some_bind, hr]

theorem ApolloFrameEncoder.encode_ok {ec : EntityCodec ε} {e : ApolloFrameEncoder ε} {entity : ε}
    {f : List UInt8} (h : e.encode ec entity = some (.ok f)) :
    ∃ body, ec.marshal entity = .ok body ∧
      f = frame e.config.toTLVConfig (beBytes 2 (ec.typeCode entity).toNat ++ body) ∧
      Admits e.config.toTLVConfig (beBytes 2 (ec.typeCode entity).toNat ++ body) := by
  cases hm : ec.marshal entity with
  | error msg => simp [encode, hm] at h
  | ok body =>
    rw [e.encode_eq hm] at h
    obtain ⟨r, hr, hf⟩ := Option.map_eq_some'.mp h
    cases r with
    | error err => cases hf
    | ok f' =>
      cases hf
      exact ⟨body, rfl, TLVFrameEncoder.encode_ok _ _ hr⟩

theorem ApolloFrameEncoder.encode_of_fits {ec : EntityCodec ε} (e : ApolloFrameEncoder ε)
    {entity : ε} {body : List UInt8} (hm : ec.marshal entity = .ok body)
    (hs : body.length + 7 < 2 ^ 32) (hl : e.config.overLimit (body.length + 2) = false) :
    e.encode ec entity =
      some (.ok (frame e.config.toTLVConfig (beBytes 2 (ec.typeCode entity).toNat ++ body))) := by
  have hlen : (beBytes 2 (ec.typeCode entity).toNat ++ body).length = body.length + 2 := by
    simp [Nat.add_comm]
  rw [e.encode_eq hm, TLVFrameEncoder.encode_of_fits _ _ (by rw [hlen]; omega) (by rw [hlen]; exact hl)]
  rfl

namespace ApolloFrameDecoder

variable (ec : EntityCodec ε)

private theorem ofNat_toNat16 (c : UInt16) : UInt16.ofNat c.toNat = c := by
  apply UInt16.eq_of_val_eq; simp [UInt16.ofNat, UInt16.toNat, Fin.ofNat]

theorem payloadResult_encoded (config : ApolloConfig ε) (entity : ε) (body : List UInt8) :
    payloadResult ec config (beBytes 2 (ec.typeCode entity).toNat ++ body) =
      unmarshalEntity ec config (ec.typeCode entity) body := by
  have hl : (beBytes 2 (ec.typeCode entity).toNat).length = 2 := length_beBytes _ _
  rw [payloadResult, if_neg (by simp [hl]), List.take_left' hl, List.drop_left' hl, beValue_beBytes,
    Nat.mod_eq_of_lt (show (ec.typeCode entity).toNat < 256 ^ 2 from UInt16.toNat_lt_size _),
    ofNat_toNat16]

theorem payloadResult_eq_nothing (config : ApolloConfig ε) (payload : List UInt8) :
    payloadResult ec config payload = .nothing ↔
      2 ≤ payload.length ∧ config.createEntity (UInt16.ofNat (beValue (payload.take 2))) = none := by
  unfold payloadResult unmarshalEntity
  split
  · simp only [reduceCtorEq, false_iff, not_and]; omega
  · split
    · simp_all
    · split <;> simp_all

theorem payloadResult_malformed (config : ApolloConfig ε) {payload : List UInt8}
    (h : payload.length < 2 ∨ ∃ e₀ msg,
      config.createEntity (UInt16.ofNat (beValue (payload.take 2))) = some e₀ ∧
        ec.unmarshal (payload.drop 2) e₀ = .error msg) :
    ∃ e, payloadResult ec config payload = .failure e := by
  unfold payloadResult
  rcases h with h | ⟨e₀, msg, hreg, hun⟩
  · exact ⟨_, if_pos h⟩
  · by_cases hl : payload.length < 2
    · exact ⟨_, if_pos hl⟩
    · rw [if_neg hl, unmarshalEntity, hreg]
      simp only [hun]
      exact ⟨_, rfl⟩

structure Ready (config : ApolloConfig ε) (d : ApolloFrameDecoder ε) : Prop where
  config_eq : d.config = config
  tlv : d.initTLVDecoder.Ready
  tlv_config : d.initTLVDecoder.config = config.toTLVConfig
  length_pos : d.initTLVDecoder.hasLength = true → 0 < d.initTLVDecoder.lengthValue

theorem newApolloFrameDecoder_ready (config : ApolloConfig ε) :
    (newApolloFrameDecoder config).Ready config :=
  ⟨rfl, TLVFrameDecoder.newTLVFrameDecoder_ready _, rfl, nofun⟩

theorem Ready.queue_ne_nil {config : ApolloConfig ε} {d : ApolloFrameDecoder ε} (hd : d.Ready config)
    {q p rest : List UInt8} (hq : d.initTLVDecoder.consumed ++ q = frame config.toTLVConfig p ++ rest)
    (hp : Admits config.toTLVConfig p) : q ≠ [] := by
  rintro rfl
  have hlen := congrArg List.length hq
  rw [List.append_nil, List.length_append, length_frame] at hlen
  have hle := d.initTLVDecoder.length_consumed_le
  have hrest : rest = [] := List.eq_nil_of_length_eq_zero (by omega)
  obtain ⟨-, hl, hv⟩ := TLVFrameDecoder.latched_length hd.tlv (q := [])
    (show d.initTLVDecoder.consumed ++ [] ++ [] = frame d.initTLVDecoder.config p by
      rw [hd.tlv_config]; simpa [hrest] using hq) hp.1 (by omega)
  have := hd.length_pos hl
  omega

end ApolloFrameDecoder

open ApolloFrameDecoder

theorem apollo_readsFrames (ec : EntityCodec ε) (config : ApolloConfig ε) :
    ReadsFrames (ApolloFrameDecoder.decode ec) config.toTLVConfig
      (fun d => d.initTLVDecoder.consumed) (Ready config) (payloadResult ec config) where
  whole d q p rest hd hq hp := by
    have htlv : d.initTLVDecoder.decode q = some (.success p, d.initTLVDecoder.resetBuffer, rest) :=
      TLVFrameDecoder.decode_frame hd.tlv (by rw [hd.tlv_config]; exact hq)
        (by rw [hd.tlv_config]; exact hp)
    refine ⟨{ d with tlvDecoder := some d.initTLVDecoder.resetBuffer }, ?_, rfl,
      ⟨hd.config_eq, TLVFrameDecoder.resetBuffer_ready, hd.tlv_config, nofun⟩⟩
    simp [decode, hd.queue_ne_nil hq hp, htlv, fromTLV, decodePayload_eq, hd.config_eq]
  part d q pre hd hq hpre := by
    by_cases hq0 : q = []
    · subst hq0
      refine ⟨d, [], by simp [decode], hq, hd, ?_⟩
      rw [← hq, List.append_nil, TLVFrameDecoder.headerTaken_consumed]
    obtain ⟨p, more, hp, hm, hne⟩ := hpre
    obtain ⟨c', q', htlv, hc, hr, hcfg, hn⟩ :=
      TLVFrameDecoder.decode_partial hd.tlv hq (by rw [hd.tlv_config]; exact hm) hne hp
    refine ⟨{ d with tlvDecoder := some c' }, q', ?_, hc,
      ⟨hd.config_eq, hr, hcfg.trans hd.tlv_config, fun hl => TLVFrameDecoder.lengthValue_pos (c := c') hr hl hc
        ⟨p, more, hp, by rw [hcfg, hd.tlv_config]; exact hm, hne⟩⟩, hn⟩
    simp [decode, hq0, htlv, fromTLV]

theorem apollo_mirrorsDecode (ec : EntityCodec ε) :
    @MirrorsDecode ε (ApolloFrameDecoder ε) (ApolloFrameDecoder.decode ec)
      (ApolloFrameDecoder.decode ec) := by
  intro b q d r d' q' h hq
  unfold ApolloFrameDecoder.decode at hq ⊢
  rw [h.readableBytes]
  split at hq
  · cases hq
    exact ⟨b, if_pos ‹_›, Follows.refl h⟩
  · rw [if_neg ‹_›]
    obtain ⟨⟨r₀, c, q₁⟩, htlv, hres⟩ := Option.bind_eq_some.mp hq
    obtain ⟨b₁, hb₁, hf⟩ := TLVFrameDecoder.decode_mirrors h htlv
    obtain ⟨res, hres', hout⟩ := Option.map_eq_some'.mp hres
    cases hout
    exact ⟨b₁, by rw [hb₁]; simp [hres'], hf⟩

theorem encoded_frames {ec : EntityCodec ε} {config : ApolloConfig ε} {ms : List ε}
    {fs : List (List UInt8)}
    (hfs : List.Forall₂ (fun m f => (ApolloFrameEncoder.mk config).encode ec m = some (.ok f)) ms fs)
    (hrt : ∀ m ∈ ms, ∀ body, ec.marshal m = .ok body →
      ∃ e₀, config.createEntity (ec.typeCode m) = some e₀ ∧ ec.unmarshal body e₀ = .ok m) :
    ∃ ps, fs.flatten = frames config.toTLVConfig ps ∧ ps.length = ms.length ∧
      (∀ p ∈ ps, Admits config.toTLVConfig p ∧ payloadResult ec config p ≠ .nothing) ∧
      ps.filterMap (fun p => (payloadResult ec config p).emitted) = ms.map .ok := by
  induction hfs with
  | nil => exact ⟨[], rfl, rfl, nofun, rfl⟩
  | @cons m f ms fs hmf _ ih =>
    obtain ⟨body, hm, rfl, hadm⟩ := ApolloFrameEncoder.encode_ok hmf
    obtain ⟨e₀, hreg, hun⟩ := hrt m (List.mem_cons_self _ _) body hm
    have hres : payloadResult ec config (beBytes 2 (ec.typeCode m).toNat ++ body) = .success m := by
      rw [payloadResult_encoded, unmarshalEntity, hreg]
      simp only [hun]
    obtain ⟨ps, hps, hlen, hgood, hout⟩ := ih (fun m hm => hrt m (List.mem_cons_of_mem _ hm))
    refine ⟨_ :: ps, by rw [List.flatten_cons, hps, frames_cons], by simp [hlen], ?_, ?_⟩
    · refine List.forall_mem_cons.mpr ⟨⟨hadm, ?_⟩, hgood⟩
      rw [hres]
      exact DecodeResult.noConfusion
    · rw [List.filterMap_cons_some (by rw [hres]; rfl), hout, List.map_cons]

/-- Entities sent through `Encode` come out of the read loop on a FIFO buffer, for every
chunking of their frames, as themselves and in order; a frame whose value is short or whose
body does not unmarshal gives one error, and the frames around it give what they give
alone. -/
theorem apollo_stream_roundtrip (ec : EntityCodec ε) (config : ApolloConfig ε) :
    (∀ (ms : List ε) (fs chunks : List (List UInt8)) (fuel : Nat),
      List.Forall₂ (fun m f => (ApolloFrameEncoder.mk config).encode ec m = some (.ok f)) ms fs →
      (∀ m ∈ ms, ∀ body, ec.marshal m = .ok body →
        ∃ e₀, config.createEntity (ec.typeCode m) = some e₀ ∧ ec.unmarshal body e₀ = .ok m) →
      chunks.flatten = fs.flatten → ms.length < fuel →
      ∃ d', readLoop (ApolloFrameDecoder.decode ec) fuel (newApolloFrameDecoder config)
        ([] : List UInt8) chunks = .done (ms.map .ok) d' []) ∧
    (∀ (ps₁ ps₂ chunks : List (List UInt8)) (bad : List UInt8) (fuel : Nat),
      (∀ p ∈ ps₁ ++ bad :: ps₂, Admits config.toTLVConfig p) →
      (∀ p ∈ ps₁ ++ ps₂, payloadResult ec config p ≠ .nothing) →
      (bad.length < 2 ∨ ∃ e₀ msg,
        config.createEntity (UInt16.ofNat (beValue (bad.take 2))) = some e₀ ∧
          ec.unmarshal (bad.drop 2) e₀ = .error msg) →
      chunks.flatten = frames config.toTLVConfig (ps₁ ++ bad :: ps₂) →
      (ps₁ ++ bad :: ps₂).length < fuel →
      ∃ e d', readLoop (ApolloFrameDecoder.decode ec) fuel (newApolloFrameDecoder config)
        ([] : List UInt8) chunks = .done (ps₁.filterMap (fun p => (payloadResult ec config p).emitted) ++
          .error e :: ps₂.filterMap (fun p => (payloadResult ec config p).emitted)) d' []) := by
  have hstart : Unfinished config.toTLVConfig ((newApolloFrameDecoder config).initTLVDecoder.consumed ++ []) :=
    unfinished_nil _
  constructor
  · intro ms fs chunks fuel hfs hrt hs hf
    obtain ⟨ps, hps, hlen, hgood, hout⟩ := encoded_frames hfs hrt
    obtain ⟨d', hl, -⟩ := (apollo_readsFrames ec config).readLoop_frames chunks
      (newApolloFrameDecoder_ready config) hstart (by rw [hs, hps]; rfl) hgood (hlen ▸ hf)
    exact ⟨d', hout ▸ hl⟩
  · intro ps₁ ps₂ chunks bad fuel hadm hgood hbad hs hf
    obtain ⟨e, he⟩ := payloadResult_malformed ec config hbad
    have hall : ∀ p ∈ ps₁ ++ bad :: ps₂, Admits config.toTLVConfig p ∧ payloadResult ec config p ≠ .nothing := by
      intro p hp
      refine ⟨hadm p hp, ?_⟩
      rcases List.mem_append.mp hp with h₁ | h₂
      · exact hgood p (List.mem_append_left _ h₁)
      · rcases List.mem_cons.mp h₂ with rfl | h₂
        · rw [he]; exact DecodeResult.noConfusion
        · exact hgood p (List.mem_append_right _ h₂)
    obtain ⟨d', hl, -⟩ := (apollo_readsFrames ec config).readLoop_frames chunks
      (newApolloFrameDecoder_ready config) hstart (by rw [hs]; rfl) hall hf
    refine ⟨e, d', ?_⟩
    rw [hl, List.filterMap_append, List.filterMap_cons_some (by rw [he]; rfl)]

theorem apollo_stream_roundtrip_unit_entity :
    let ec : EntityCodec Unit := ⟨fun _ => 7, fun _ => .ok [], fun _ _ => .ok ()⟩
    let config := (⟨⟨1, 0⟩, []⟩ : ApolloConfig Unit).registerEntity ec (some ())
    (∃ d', readLoop (ApolloFrameDecoder.decode ec) 2 (newApolloFrameDecoder config) ([] : List UInt8)
        [[1, 0, 0], [0, 2, 0, 7]] = .done [.ok ()] d' []) ∧
    (∃ e d', readLoop (ApolloFrameDecoder.decode ec) 3 (newApolloFrameDecoder config)
        ([] : List UInt8) [[1, 0, 0, 0, 2, 0, 7, 1], [0, 0, 0, 1, 0]] =
      .done ([[0, 7]].filterMap (fun p => (payloadResult ec config p).emitted) ++ [.error e]) d' []) := by
  intro ec config
  refine ⟨(apollo_stream_roundtrip ec config).1 [()] [[1, 0, 0, 0, 2, 0, 7]] _ 2
    (.cons (by
      rw [(ApolloFrameEncoder.mk config).encode_of_fits rfl (by decide) (by decide)]
      exact congrArg (fun f => some (Except.ok f)) (by decide)) .nil)
      ?_ rfl (by decide), ?_⟩
  · intro m _ body hb
    cases hb
    exact ⟨(), rfl, rfl⟩
  · exact (apollo_stream_roundtrip ec config).2 [[0, 7]] [] _ [0] 3 (by decide) (by decide)
      (.inl (by decide)) rfl (by decide)

/-- The drain loop over the Apollo decoder, on a buffer that holds whole frames and then part of
one, either decodes every whole frame and leaves only the part, or stops right after a frame
whose value has a type code that is not registered, leaving the frames behind it. -/
theorem apollo_drain_stops_after_unregistered (ec : EntityCodec ε) (config : ApolloConfig ε)
    {d : ApolloFrameDecoder ε} (hd : d.Ready config) {ps : List (List UInt8)} {pre q : List UInt8}
    (hpre : Unfinished config.toTLVConfig pre) (hps : ∀ p ∈ ps, Admits config.toTLVConfig p)
    (hq : d.initTLVDecoder.consumed ++ q = frames config.toTLVConfig ps ++ pre) {fuel : Nat}
    (hf : ps.length < fuel) :
    ∃ out d' q', drain (ApolloFrameDecoder.decode ec) fuel d q = .done out d' q' ∧ d'.Ready config ∧
      (d'.initTLVDecoder.consumed ++ q' = pre ∨
        ∃ ps₁ p ps₂, ps = ps₁ ++ p :: ps₂ ∧ 2 ≤ p.length ∧
          config.createEntity (UInt16.ofNat (beValue (p.take 2))) = none ∧
          d'.initTLVDecoder.consumed ++ q' = frames config.toTLVConfig ps₂ ++ pre) := by
  obtain ⟨out, d', q', hdr, hr, hcases⟩ :=
    (apollo_readsFrames ec config).drain_cases ps hpre hps hd hq hf
  refine ⟨out, d', q', hdr, hr, ?_⟩
  rcases hcases with ⟨-, hc⟩ | ⟨ps₁, p, ps₂, hsplit, hn, hc⟩
  · exact .inl hc
  · obtain ⟨hl, hreg⟩ := (payloadResult_eq_nothing ec config p).mp hn
    exact .inr ⟨ps₁, p, ps₂, hsplit, hl, hreg, hc⟩

theorem apollo_drain_stops_after_unregistered_at_code_7 :
    let ec : EntityCodec Unit := ⟨fun _ => 7, fun _ => .ok [], fun _ _ => .ok ()⟩
    let config : ApolloConfig Unit := ⟨⟨1, 0⟩, []⟩
    (newApolloFrameDecoder config).Ready config ∧ Unfinished config.toTLVConfig [] ∧
      (∀ p ∈ [[0, 7], [0, 7]], Admits config.toTLVConfig p) ∧
      (newApolloFrameDecoder config).initTLVDecoder.consumed ++ frames config.toTLVConfig [[0, 7], [0, 7]] =
        frames config.toTLVConfig [[0, 7], [0, 7]] ++ [] ∧ [[0, 7], [0, 7]].length < 3 ∧
      ∃ out d' q', drain (ApolloFrameDecoder.decode ec) 3 (newApolloFrameDecoder config)
          (frames config.toTLVConfig [[0, 7], [0, 7]]) = .done out d' q' ∧ d'.Ready config ∧
        (d'.initTLVDecoder.consumed ++ q' = [] ∨
          ∃ ps₁ p ps₂, [[0, 7], [0, 7]] = ps₁ ++ p :: ps₂ ∧ 2 ≤ p.length ∧
            config.createEntity (UInt16.ofNat (beValue (p.take 2))) = none ∧
            d'.initTLVDecoder.consumed ++ q' = frames config.toTLVConfig ps₂ ++ []) := by
  intro ec config
  have hd := newApolloFrameDecoder_ready config
  have hq : (newApolloFrameDecoder config).initTLVDecoder.consumed ++
      frames config.toTLVConfig [[0, 7], [0, 7]] = frames config.toTLVConfig [[0, 7], [0, 7]] ++ [] := by
    rw [List.append_nil]; rfl
  exact ⟨hd, unfinished_nil _, by decide, hq, by decide,
    apollo_drain_stops_after_unregistered ec config hd (unfinished_nil _) (by decide) hq (by decide)⟩

/-- With no entity registered, two frames of value `[0, 7]` (type code 7, empty body) arrive
in one read: the first `Decode` takes the first frame and returns `(nil, nil)`, the drain loop
ends, and the second frame is left whole in the reader's buffer. -/
theorem readLoop_strands_frame_after_unregistered (ec : EntityCodec ε) :
    ∃ d' b', readLoop (ApolloFrameDecoder.decode ec) 3 (newApolloFrameDecoder ⟨⟨1, 0⟩, []⟩)
        (newElasticUnsafeByteBuf byteBufferSize) [frames ⟨1, 0⟩ [[0, 7], [0, 7]]] = .done [] d' b' ∧
      b'.contents = frame ⟨1, 0⟩ [0, 7] := by
  have hn : payloadResult ec ⟨⟨1, 0⟩, []⟩ [0, 7] = .nothing :=
    (payloadResult_eq_nothing ec _ _).mpr ⟨by decide, rfl⟩
  obtain ⟨d₁, hdec, -, -⟩ := (apollo_readsFrames ec ⟨⟨1, 0⟩, []⟩).whole
    (newApolloFrameDecoder ⟨⟨1, 0⟩, []⟩) ([] ++ frames ⟨1, 0⟩ [[0, 7], [0, 7]]) [0, 7] (frame ⟨1, 0⟩ [0, 7])
    (newApolloFrameDecoder_ready _) (by simp; rfl) ⟨by decide, rfl⟩
  rw [hn] at hdec
  obtain ⟨b₁, hst, hb₁, -⟩ := readStep_mirrors (apollo_mirrorsDecode ec)
    (newElasticUnsafeByteBuf_mirrors byteBufferSize)
    (by rw [newElasticUnsafeByteBuf_byteBufferSize]; decide)
    (by rw [newElasticUnsafeByteBuf_byteBufferSize]; simp only [length_makeBytes]; decide)
    (show drain _ 3 _ _ = _ from drain_stops hdec)
  exact ⟨d₁, b₁, by rw [readLoop_cons_done _ hst]; rfl, hb₁.contents⟩

theorem apollo_reader_strands_frame :
    ∃ d' b', readLoop (ApolloFrameDecoder.decode (⟨fun _ => 7, fun _ => .ok [], fun _ _ => .ok ()⟩ :
        EntityCodec Unit)) 3 (newApolloFrameDecoder ⟨⟨1, 0⟩, []⟩)
        (newElasticUnsafeByteBuf byteBufferSize) [frames ⟨1, 0⟩ [[0, 7], [0, 7]]] = .done [] d' b' ∧
      b'.contents = frame ⟨1, 0⟩ [0, 7] :=
  readLoop_strands_frame_after_unregistered _

namespace ApolloFrameDecoder

variable (ec : EntityCodec ε)

theorem decode_progress (d : ApolloFrameDecoder ε) (hlim : d.initTLVDecoder.config.overLimit 0 = false)
    (q : List UInt8) :
    ∃ r d' q', d.decode ec q = some (r, d', q') ∧
      d'.initTLVDecoder.config = d.initTLVDecoder.config ∧
      (r = .nothing ∨ 3 * q'.length + d'.initTLVDecoder.latched <
        3 * q.length + d.initTLVDecoder.latched) := by
  unfold decode
  split
  · exact ⟨_, _, _, rfl, rfl, .inl rfl⟩
  obtain ⟨r, c', q', h, hc, hr⟩ := d.initTLVDecoder.decode_progress hlim q
  rw [h, Option.some_bind]
  cases r with
  | nothing => exact ⟨_, _, _, rfl, hc, .inl rfl⟩
  | failure e => exact ⟨_, _, _, rfl, hc, .inr (hr.resolve_left DecodeResult.noConfusion)⟩
  | success p =>
    rw [fromTLV, decodePayload_eq, Option.map_some']
    exact ⟨_, _, _, rfl, hc, .inr (hr.resolve_left DecodeResult.noConfusion)⟩

theorem decode_frame_empty_fixed {config : ApolloConfig ε} (hlim : config.overLimit 0 = true)
    (x : UInt8) (q : List UInt8) :
    let d₁ : ApolloFrameDecoder ε := ⟨config, some (TLVFrameDecoder.emptyLatched config.toTLVConfig)⟩
    let e : DecodeError := ⟨"ApolloFrameDecoder",
      DecodeError.error ⟨"TLVFrameDecoder", "frame size larger than limit"⟩⟩
    (newApolloFrameDecoder config).decode ec (frame config.toTLVConfig [] ++ x :: q) =
        some (.failure e, d₁, x :: q) ∧
      d₁.decode ec (x :: q) = some (.failure e, d₁, x :: q) := by
  constructor
  · rw [decode, if_neg (by simp [frame]), initTLVDecoder, newApolloFrameDecoder, Option.getD_none,
      TLVFrameDecoder.decode_frame_empty hlim]
    rfl
  · rw [decode, if_neg (by simp), initTLVDecoder, Option.getD_some,
      TLVFrameDecoder.decode_emptyLatched hlim]
    rfl

end ApolloFrameDecoder

/-- The drain loop of either decoder ends within the measure's number of calls from every latch
state and every queue when the frame limit admits an empty value; when a positive limit is below
the 5-byte header, a zero-length frame makes the loop call `Decode` forever (the Apollo decoder
stops on an empty buffer, so it loops once any byte follows the frame). -/
theorem drain_terminates_unless_limit_below_header (ec : EntityCodec ε) :
    (∀ (c : TLVFrameDecoder) (q : List UInt8) fuel, c.config.overLimit 0 = false →
      3 * q.length + c.latched < fuel →
      ∃ out c' q', drain TLVFrameDecoder.decode fuel c q = .done out c' q') ∧
    (∀ (d : ApolloFrameDecoder ε) (q : List UInt8) fuel,
      d.initTLVDecoder.config.overLimit 0 = false → 3 * q.length + d.initTLVDecoder.latched < fuel →
      ∃ out d' q', drain (ApolloFrameDecoder.decode ec) fuel d q = .done out d' q') ∧
    (∀ (cfg : TLVConfig) (q : List UInt8) fuel, cfg.overLimit 0 = true →
      drain TLVFrameDecoder.decode fuel (newTLVFrameDecoder cfg) (frame cfg [] ++ q) = .outOfFuel) ∧
    (∀ (config : ApolloConfig ε) (x : UInt8) (q : List UInt8) fuel, config.overLimit 0 = true →
      drain (ApolloFrameDecoder.decode ec) fuel (newApolloFrameDecoder config)
        (frame config.toTLVConfig [] ++ x :: q) = .outOfFuel) := by
  refine ⟨fun c q fuel hlim hf => ?_, fun d q fuel hlim hf => ?_, fun cfg q fuel hlim => ?_,
    fun config x q fuel hlim => ?_⟩
  · exact drain_done_of_progress (fun c q => 3 * q.length + c.latched)
      (fun c' => c'.config.overLimit 0 = false)
      (fun c q h => by
        obtain ⟨r, c', q', h₁, hc, hr⟩ := c.decode_progress h q
        exact ⟨r, c', q', h₁, show c'.config.overLimit 0 = false by rw [hc]; exact h, hr⟩) fuel c q hlim hf
  · exact drain_done_of_progress (fun d q => 3 * q.length + d.initTLVDecoder.latched)
      (fun d' => d'.initTLVDecoder.config.overLimit 0 = false)
      (fun d q h => by
        obtain ⟨r, d', q', h₁, hc, hr⟩ := d.decode_progress ec h q
        exact ⟨r, d', q', h₁, show d'.initTLVDecoder.config.overLimit 0 = false by rw [hc]; exact h, hr⟩) fuel d q hlim hf
  · cases fuel with
    | zero => rfl
    | succ fuel =>
      rw [drain_emits (TLVFrameDecoder.decode_frame_empty hlim q) rfl,
        drain_loops_of_fixed (TLVFrameDecoder.decode_emptyLatched hlim q)]
      rfl
  · obtain ⟨h₀, h₁⟩ := ApolloFrameDecoder.decode_frame_empty_fixed ec hlim x q
    cases fuel with
    | zero => rfl
    | succ fuel => rw [drain_emits h₀ rfl, drain_loops_of_fixed h₁]; rfl

theorem drain_terminates_unless_limit_below_header_at_limit_4 :
    (∃ out c' q', drain TLVFrameDecoder.decode 1 (newTLVFrameDecoder ⟨1, 0⟩) ([] : List UInt8) =
      .done out c' q') ∧
    (∃ out d' q', drain (ApolloFrameDecoder.decode (⟨fun _ => 7, fun _ => .ok [], fun _ _ => .ok ()⟩ :
        EntityCodec Unit)) 1 (newApolloFrameDecoder ⟨⟨1, 0⟩, []⟩) ([] : List UInt8) = .done out d' q') ∧
    drain TLVFrameDecoder.decode 7 (newTLVFrameDecoder ⟨1, 4⟩) (frame ⟨1, 4⟩ [] ++ []) = .outOfFuel ∧
    drain (ApolloFrameDecoder.decode (⟨fun _ => 7, fun _ => .ok [], fun _ _ => .ok ()⟩ :
        EntityCodec Unit)) 7 (newApolloFrameDecoder ⟨⟨1, 4⟩, []⟩) (frame ⟨1, 4⟩ [] ++ [1]) = .outOfFuel :=
  have h := drain_terminates_unless_limit_below_header
    (⟨fun _ => 7, fun _ => .ok [], fun _ _ => .ok ()⟩ : EntityCodec Unit)
  ⟨h.1 _ _ _ rfl (by decide), h.2.1 _ _ _ rfl (by decide), h.2.2.1 _ _ _ rfl,
    h.2.2.2 _ _ _ _ rfl⟩

end Matcha.Codec
