import Matcha.Peer.Reader

/-! # The string codec

`StringFrameDecoder` and `StringFrameEncoder` of `net/tcp/codec/string.go`; a Go string is the
sequence of its bytes. -/
namespace Matcha.Codec

open Matcha.Buffer Matcha.Peer

structure StringFrameDecoder where
  deriving DecidableEq, Repr

inductive Message where
  | nil
  | string (payload : List UInt8)
  /-- A value of any other type. -/
  | other
  deriving DecidableEq, Repr

/-- `binary.Read(in, binary.BigEndian, &result)` with `result` a `string`: the reflection path
of `encoding/binary` finds no fixed size for the pointed-to string and returns
`errors.New("binary.Read: invalid type *string")` without reading from `in`. -/
def readString {β : Type} (_buf : β) : Except String (List UInt8 × β) :=
  .error "binary.Read: invalid type *string"

namespace StringFrameDecoder

variable {β : Type} [ByteBuf β]

def decode (d : StringFrameDecoder) (buf : β) :
    Option (DecodeResult (List UInt8) × StringFrameDecoder × β) :=
  if ByteBuf.readableBytes buf = 0 then some (.nothing, d, buf)
  else
    match readString buf with
    | .error e => some (.failure ⟨"StringFrameDecoder", e⟩, d, buf)
    | .ok (result, buf') => some (.success result, d, buf')

theorem decode_empty (d : StringFrameDecoder) {buf : β} (h : ByteBuf.readableBytes buf = 0) :
    d.decode buf = some (.nothing, d, buf) := if_pos h

theorem decode_nonempty (d : StringFrameDecoder) {buf : β} (h : ByteBuf.readableBytes buf ≠ 0) :
    d.decode buf =
      some (.failure ⟨"StringFrameDecoder", "binary.Read: invalid type *string"⟩, d, buf) :=
  if_neg h

theorem drain_nonempty (d : StringFrameDecoder) {buf : β} (h : ByteBuf.readableBytes buf ≠ 0)
    (fuel : Nat) : drain decode fuel d buf = .outOfFuel :=
  drain_loops_of_fixed (decode_nonempty d h) fuel

end StringFrameDecoder

namespace StringFrameEncoder

def encode : Message → Except EncodeError (List UInt8)
  | .nil => .ok []
  | .string payload => .ok payload
  | .other => .error ⟨"StringFrameEncoder", "can not transform input to string"⟩

end StringFrameEncoder

/-- What `Encode` makes of a string, written into the reader's fresh buffer: the bytes are all
readable. The empty string decodes to `(nil, nil)` and the decode loop stops at once; any other
string gets the `binary.Read` error back with its bytes left in the buffer, and the decode loop
runs out of every amount of fuel. -/
theorem string_frame_roundtrip_fails_unless_empty (s : List UInt8) :
    StringFrameEncoder.encode (.string s) = .ok s ∧
      ∃ b, ByteBuf.writeBytes (newElasticUnsafeByteBuf byteBufferSize) s = some b ∧
        ByteBuf.readableBytes b = s.length ∧
        (s = [] → StringFrameDecoder.decode ⟨⟩ b = some (.nothing, ⟨⟩, b) ∧
          ∀ fuel, drain StringFrameDecoder.decode (fuel + 1) ⟨⟩ b = .done [] ⟨⟩ b) ∧
        (s ≠ [] → StringFrameDecoder.decode ⟨⟩ b =
            some (.failure ⟨"StringFrameDecoder", "binary.Read: invalid type *string"⟩, ⟨⟩, b) ∧
          ∀ fuel, drain StringFrameDecoder.decode fuel ⟨⟩ b = .outOfFuel) := by
  obtain ⟨hi, ht⟩ := newElasticUnsafeByteBuf_inv byteBufferSize
  obtain ⟨b, hw, hc, hi', ht'⟩ := writeBytes_tight_spec hi ht s
  have hr : ByteBuf.readableBytes b = s.length := by
    rw [(Mirrors.readableBytes ⟨hi', hi'.covered ht', rfl⟩), readableBytes_queue, hc,
      newElasticUnsafeByteBuf_contents, List.nil_append]
  refine ⟨rfl, b, hw, hr, fun hs => ?_, fun hs => ?_⟩
  · have h0 : ByteBuf.readableBytes b = 0 := by rw [hr, hs]; rfl
    exact ⟨StringFrameDecoder.decode_empty _ h0, fun _ => drain_stops (StringFrameDecoder.decode_empty _ h0)⟩
  · have h0 : ByteBuf.readableBytes b ≠ 0 := by rw [hr]; exact fun h => hs (List.length_eq_zero.mp h)
    exact ⟨StringFrameDecoder.decode_nonempty _ h0, StringFrameDecoder.drain_nonempty _ h0⟩

end Matcha.Codec
