import Ccmchain.Rlp.Uint
import Ccmchain.Lib.StreamCipher

/-!
# RLPx framing (`p2p/rlpx.go`)

After the encryption handshake each end of a connection derives the session secrets
(`encHandshake.secrets`) and builds a frame codec from them (`newRLPXFrameRW`). Each direction
has an AES-CTR stream, keyed by the AES secret with a zero IV. Each direction also has a running
Keccak-256 MAC, seeded from the MAC secret, a nonce and a handshake message. `WriteMsg` sends a
message as one frame in three parts:
- a 16-byte header holding the frame size, encrypted, then the header's MAC;
- the message code and payload, encrypted and padded to 16 bytes;
- the frame MAC.

Once the connection has upgraded, the payload is snappy-compressed. `ReadMsg` checks the two
MACs, decrypts the frame, reads the code and decompresses the payload.

The ciphers are modelled by their keystreams and each hash by the bytes it has been fed, so the
codec is the Go code over abstract primitives (`Crypto`, `Snappy`). The state is grouped by the
direction that uses it: `WriteMsg` reads and moves only the egress half and `ReadMsg` only the
ingress half (`writeFrame`, `readFrame`).
-/

namespace Ccmchain.P2p

open StreamCipher (Stream)
open Rlp (Bytes)

/-- The primitives the codec is built on: Keccak-256 of everything a hash was fed, the AES
encryption under a key of the first block of an input, and the AES-CTR keystream under a key
from the all-zero IV. -/
structure Crypto where
  keccak256 : Bytes → Bytes
  encrypt : Bytes → Bytes → Bytes
  ctr : Bytes → Nat → UInt8
  keccak256_length : ∀ b, (keccak256 b).length = 32

/-- The calls into the snappy library, with the text of its errors. -/
structure Snappy where
  Encode : Bytes → Bytes
  DecodedLen : Bytes → Except String Nat
  Decode : Bytes → Except String Bytes

/-- What the snappy library guarantees: a block it encoded decodes back, with the length its
header gives; and a block it decodes has the length its header gives. -/
structure Snappy.Lawful (sn : Snappy) : Prop where
  decodedLen_encode : ∀ b, sn.DecodedLen (sn.Encode b) = .ok b.length
  decode_encode : ∀ b, sn.Decode (sn.Encode b) = .ok b
  decodedLen_of_decode : ∀ b d, sn.Decode b = .ok d → sn.DecodedLen b = .ok d.length

/-- `Msg`, with the payload reader given by the bytes it yields. -/
structure Msg where
  Code : UInt64
  Size : UInt32
  Payload : Bytes
  deriving DecidableEq, Repr

/-- The errors of the frame codec. -/
inductive RlpxError where
  /-- `errPlainMessageTooLarge`, "message length >= 16MB". -/
  | plainMessageTooLarge
  /-- "message size overflows uint24". -/
  | sizeOverflowsUint24
  /-- "bad header MAC". -/
  | badHeaderMAC
  /-- "bad frame MAC". -/
  | badFrameMAC
  /-- `io.EOF` and `io.ErrUnexpectedEOF`, of `io.ReadFull` on the connection. -/
  | eof
  | unexpectedEOF
  /-- An error of `rlp.Decode`, reading the message code. -/
  | rlp (err : Rlp.RlpError)
  /-- An error of the snappy library. -/
  | snappy (err : String)
  deriving DecidableEq, Repr

/-- `maxUint24`. -/
def maxUint24 : UInt32 := ~~~(0 : UInt32) >>> 8

def snappyProtocolVersion : Nat := 5

/-- `zeroHeader`, in place of the header data. -/
def zeroHeader : Bytes := [0xC2, 0x80, 0x80]

/-- `xor`: as long as `one`; Go indexes `other` with the same positions, and it is never
shorter here. -/
def xor (one other : Bytes) : Bytes := List.zipWith (· ^^^ ·) one other

/-! ### Session secrets -/

/-- `secrets`, with each MAC hash given by the bytes it has been fed. -/
structure Secrets where
  AES : Bytes
  MAC : Bytes
  EgressMAC : Bytes
  IngressMAC : Bytes

/-- The fields of `encHandshake` that `secrets` reads. The ephemeral key agreement
`randomPrivKey.GenerateShared(remoteRandomPub, sskLen, sskLen)` is given by its outcome. -/
structure EncHandshake where
  initiator : Bool
  initNonce : Bytes
  respNonce : Bytes
  ecdhe : Except String Bytes

/-- `encHandshake.secrets`, after the handshake messages `auth` and `authResp`. -/
def EncHandshake.secrets (cr : Crypto) (h : EncHandshake) (auth authResp : Bytes) :
    Except String Secrets := do
  let ecdheSecret ← h.ecdhe
  let sharedSecret := cr.keccak256 (ecdheSecret ++ cr.keccak256 (h.respNonce ++ h.initNonce))
  let aesSecret := cr.keccak256 (ecdheSecret ++ sharedSecret)
  let mac := cr.keccak256 (ecdheSecret ++ aesSecret)
  let mac1 := xor mac h.respNonce ++ auth
  let mac2 := xor mac h.initNonce ++ authResp
  if h.initiator then pure ⟨aesSecret, mac, mac1, mac2⟩
  else pure ⟨aesSecret, mac, mac2, mac1⟩

/-! ### The frame codec -/

/-- What `WriteMsg` reads and moves: the `enc` stream and the `egressMAC` hash. -/
structure Egress where
  enc : Stream
  egressMAC : Bytes

/-- What `ReadMsg` reads and moves: the `dec` stream and the `ingressMAC` hash. -/
structure Ingress where
  dec : Stream
  ingressMAC : Bytes

/-- `rlpxFrameRW`, its fields grouped by the direction that uses them. `macCipher` is the AES
cipher under the MAC secret, given by its key; the connection is the bytes passed in and out. -/
structure RlpxFrameRW where
  egress : Egress
  ingress : Ingress
  macCipher : Bytes
  snappy : Bool

/-- `newRLPXFrameRW`: both streams from the AES secret and the zero IV, and the MAC states of
the handshake. -/
def newRLPXFrameRW (cr : Crypto) (s : Secrets) : RlpxFrameRW where
  egress := ⟨⟨cr.ctr s.AES, 0⟩, s.EgressMAC⟩
  ingress := ⟨⟨cr.ctr s.AES, 0⟩, s.IngressMAC⟩
  macCipher := s.MAC
  snappy := false

variable (cr : Crypto) (sn : Snappy)

/-- `updateMAC`: the hash after it is fed the encrypted seed, and the first 16 bytes of its
sum. -/
def updateMAC (mac block seed : Bytes) : Bytes × Bytes :=
  let aesbuf := xor (cr.encrypt block (cr.keccak256 mac)) seed
  let mac := mac ++ aesbuf
  (mac, (cr.keccak256 mac).take 16)

/-- `putInt24`: the low three bytes of `v`, most significant first. -/
def putInt24 (v : UInt32) : Bytes := [(v >>> 16).toUInt8, (v >>> 8).toUInt8, v.toUInt8]

def readInt24 (b : Bytes) : UInt32 :=
  b[2]!.toUInt32 ||| b[1]!.toUInt32 <<< 8 ||| b[0]!.toUInt32 <<< 16

/-- A write through the tee of `WriteMsg`: encrypted, and fed to the egress MAC as it goes to
the connection. -/
def Egress.tee (e : Egress) (b : Bytes) : Egress × Bytes :=
  let (out, enc) := e.enc.xorKeyStream b
  (⟨enc, e.egressMAC ++ out⟩, out)

/-- The snappy branch of `WriteMsg`: the plain size is checked before the payload is
compressed. -/
def compress (msg : Msg) : Except RlpxError Msg :=
  if msg.Size > maxUint24 then throw .plainMessageTooLarge
  else
    let payload := sn.Encode msg.Payload
    pure { msg with Payload := payload, Size := payload.length.toUInt32 }

/-- `WriteMsg` on the egress half: the half after it, and the bytes it writes. -/
def writeFrame (macCipher : Bytes) (snappy : Bool) (e : Egress) (msg : Msg) :
    Except RlpxError (Egress × Bytes) := do
  let ptype := (Rlp.writeUint msg.Code .empty).toBytes
  -- compress the payload once the connection has upgraded
  let msg ← (if snappy then compress sn msg else pure msg)
  let fsize : UInt32 := ptype.length.toUInt32 + msg.Size
  if fsize > maxUint24 then throw .sizeOverflowsUint24
  -- the header: size and zeroHeader, encrypted in place, then its MAC
  let (head, enc) := e.enc.xorKeyStream (putInt24 fsize ++ zeroHeader ++ List.replicate 10 0)
  let (egressMAC, headMAC) := updateMAC cr e.egressMAC macCipher head
  -- code, payload and padding, through the tee
  let (e, o₁) := Egress.tee ⟨enc, egressMAC⟩ ptype
  let (e, o₂) := e.tee msg.Payload
  let padding := fsize % 16
  let (e, o₃) := if padding > 0 then e.tee (List.replicate (16 - padding).toNat 0) else (e, [])
  -- the frame MAC, over everything the tee fed the hash
  let fmacseed := cr.keccak256 e.egressMAC
  let (egressMAC, frameMAC) := updateMAC cr e.egressMAC macCipher fmacseed
  pure (⟨e.enc, egressMAC⟩, head ++ headMAC ++ o₁ ++ o₂ ++ o₃ ++ frameMAC)

/-- `io.ReadFull` on the connection, given the bytes it will still deliver: `n` of them, or
`io.EOF` when there are none and `io.ErrUnexpectedEOF` when there are too few. -/
def readFull (n : Nat) (conn : Bytes) : Except RlpxError (Bytes × Bytes) :=
  if n ≤ conn.length then .ok (conn.take n, conn.drop n)
  else if conn = [] then .error .eof
  else .error .unexpectedEOF

/-- `rlp.Decode(content, &msg.Code)`: the code, and the bytes of `content` left after it. -/
def decodeCode (content : Bytes) : Except RlpxError (UInt64 × Bytes) :=
  match Rlp.decodeUint (Rlp.Stream.reset content 0) with
  | .ok code s => .ok (code, s.r)
  | .error err _ => .error (.rlp err)

/-- The snappy branch of `ReadMsg`: the decoded length is checked before the payload is
decompressed. -/
def decompress (msg : Msg) : Except RlpxError Msg := do
  let size ← (sn.DecodedLen msg.Payload).mapError .snappy
  if size > maxUint24.toNat then throw .plainMessageTooLarge
  let payload ← (sn.Decode msg.Payload).mapError .snappy
  pure { msg with Size := size.toUInt32, Payload := payload }

/-- The end of `ReadMsg`, on the decrypted frame content: the message code, then the payload,
decompressed once the connection has upgraded. -/
def readContent (snappy : Bool) (content : Bytes) : Except RlpxError Msg := do
  let (code, payload) ← decodeCode content
  let msg : Msg := ⟨code, payload.length.toUInt32, payload⟩
  if snappy then decompress sn msg else pure msg

/-- `ReadMsg` on the ingress half: the message, the half after it, and the bytes of the
connection it left. -/
def readFrame (macCipher : Bytes) (snappy : Bool) (i : Ingress) (conn : Bytes) :
    Except RlpxError (Msg × Ingress × Bytes) := do
  -- the header and its MAC, checked before the header is decrypted
  let (headbuf, conn) ← readFull 32 conn
  let (ingressMAC, shouldMAC) := updateMAC cr i.ingressMAC macCipher (headbuf.take 16)
  if shouldMAC ≠ headbuf.drop 16 then throw .badHeaderMAC
  let (header, dec) := i.dec.xorKeyStream (headbuf.take 16)
  let fsize := readInt24 header
  -- the frame, rounded up to a 16-byte boundary, and the frame MAC
  let padding := fsize % 16
  let rsize := if padding > 0 then fsize + (16 - padding) else fsize
  let (framebuf, conn) ← readFull rsize.toNat conn
  let ingressMAC := ingressMAC ++ framebuf
  let fmacseed := cr.keccak256 ingressMAC
  let (macbuf, conn) ← readFull 16 conn
  let (ingressMAC, shouldMAC) := updateMAC cr ingressMAC macCipher fmacseed
  if shouldMAC ≠ macbuf then throw .badFrameMAC
  let (framebuf, dec) := dec.xorKeyStream framebuf
  let msg ← readContent sn snappy (framebuf.take fsize.toNat)
  pure (msg, ⟨dec, ingressMAC⟩, conn)

def RlpxFrameRW.WriteMsg (rw : RlpxFrameRW) (msg : Msg) : Except RlpxError (RlpxFrameRW × Bytes) := do
  let (egress, out) ← writeFrame cr sn rw.macCipher rw.snappy rw.egress msg
  pure ({ rw with egress }, out)

def RlpxFrameRW.ReadMsg (rw : RlpxFrameRW) (conn : Bytes) :
    Except RlpxError (Msg × RlpxFrameRW × Bytes) := do
  let (msg, ingress, conn) ← readFrame cr sn rw.macCipher rw.snappy rw.ingress conn
  pure (msg, { rw with ingress }, conn)

/-- The end of `doProtoHandshake`: upgrade to snappy when the other end's version supports
it. -/
def RlpxFrameRW.upgrade (rw : RlpxFrameRW) (theirVersion : Nat) : RlpxFrameRW :=
  { rw with snappy := decide (theirVersion ≥ snappyProtocolVersion) }

end Ccmchain.P2p
