import Ccmchain.P2p.Rlpx
import Ccmchain.Lib.Except
import Ccmchain.Lib.Channel

/-!
# One RLPx frame (`p2p/rlpx.go`)

`WriteMsg` and `ReadMsg` are inverse when the writer's egress half and the reader's ingress half
are in step (`Paired`): the same keystream at the same position, and MAC hashes fed the same
bytes. Then `ReadMsg` takes the message back off the front of whatever follows the frame, and
the two halves are in step again (`frame_roundTrip`). That is the law `Channel.RoundTrip` of the
codec of one direction (`frameCodec`), from which the session proofs follow.

The proof cuts each side in two. `writeFrame_eq` says that `WriteMsg` of a message that fits
its frame (`Msg.Fits`) seals one body: the RLP code, the payload and the padding. Its three
writes through the tee are one write of that body. `readFrame_sealFrame` says that `ReadMsg`
opens such a frame, because both MAC checks recompute what the writer computed and the size in
the header is the body's. `readContent_frameBody` says that the body's content reads back as the
message.

Whatever the connection delivers, what `ReadMsg` returns is bounded (`readFrame_eq_ok`,
`readContent_eq_ok`). The payload is below 16 MiB and the size is the payload's length. For a
plain message this holds because the header has 24 bits. For a compressed one it holds because
of the `errPlainMessageTooLarge` check and because snappy decodes to the length it announces.
-/

namespace Ccmchain.P2p

open StreamCipher (Stream)
open Rlp (Bytes)

variable (cr : Crypto) (sn : Snappy)

/-! ### The header -/

@[simp] theorem toNat_maxUint24 : maxUint24.toNat = 2 ^ 24 - 1 := rfl

@[simp] theorem length_putInt24 (v : UInt32) : (putInt24 v).length = 3 := rfl

theorem readInt24_putInt24 {v : UInt32} (hv : v.toNat < 2 ^ 24) (rest : Bytes) :
    readInt24 (putInt24 v ++ rest) = v := by
  -- the three bytes hold disjoint bits, so the ors are sums
  have hlo : v.toNat % 2 ^ 8 ||| v.toNat / 2 ^ 8 % 2 ^ 8 * 2 ^ 8 = v.toNat % 2 ^ 16 := by
    rw [Nat.or_comm, ← Nat.shiftLeft_eq, ← Nat.shiftLeft_add_eq_or_of_lt (by omega),
      Nat.shiftLeft_eq]
    omega
  have hhi : v.toNat % 2 ^ 16 ||| v.toNat / 2 ^ 16 % 2 ^ 8 * 2 ^ 16 = v.toNat := by
    rw [Nat.or_comm, ← Nat.shiftLeft_eq, ← Nat.shiftLeft_add_eq_or_of_lt (by omega),
      Nat.shiftLeft_eq]
    omega
  apply UInt32.toNat_inj.mp
  simp only [readInt24, putInt24, List.cons_append, List.getElem!_cons_zero,
    List.getElem!_cons_succ, UInt32.toNat_or, UInt32.toNat_shiftLeft, UInt8.toNat_toUInt32,
    UInt32.toNat_toUInt8, UInt32.toNat_shiftRight, Nat.shiftRight_eq_div_pow, Nat.shiftLeft_eq,
    UInt32.reduceToNat, Nat.reduceMod]
  have h8 : v.toNat / 2 ^ 8 % 2 ^ 8 * 2 ^ 8 % 2 ^ 32 = v.toNat / 2 ^ 8 % 2 ^ 8 * 2 ^ 8 :=
    Nat.mod_eq_of_lt (by omega)
  have h16 : v.toNat / 2 ^ 16 % 2 ^ 8 * 2 ^ 16 % 2 ^ 32 = v.toNat / 2 ^ 16 % 2 ^ 8 * 2 ^ 16 :=
    Nat.mod_eq_of_lt (by omega)
  rw [h8, h16, hlo, hhi]

/-- The size a header gives is below 2^24, whatever its bytes. -/
theorem readInt24_lt (b : Bytes) : (readInt24 b).toNat < 2 ^ 24 := by
  simp only [readInt24, UInt32.toNat_or, UInt32.toNat_shiftLeft, UInt8.toNat_toUInt32,
    UInt32.reduceToNat, Nat.reduceMod, Nat.shiftLeft_eq]
  have h₀ := b[0]!.toNat_lt
  have h₁ := b[1]!.toNat_lt
  have h₂ := b[2]!.toNat_lt
  refine Nat.or_lt_two_pow (Nat.or_lt_two_pow ?_ ?_) ?_ <;> omega

theorem toNat_toUInt32_of_lt {n : Nat} (hn : n < 2 ^ 24) : n.toUInt32.toNat = n := by
  simp only [Nat.toUInt32_eq, UInt32.toNat_ofNat']
  omega

/-- The zero bytes that bring `n` bytes to a 16-byte boundary. -/
def padLen (n : Nat) : Nat := if n % 16 > 0 then 16 - n % 16 else 0

theorem toUInt32_mod_pos_iff {n : Nat} (hn : n < 2 ^ 24) : n.toUInt32 % 16 > 0 ↔ n % 16 > 0 := by
  rw [gt_iff_lt, UInt32.lt_iff_toNat_lt, UInt32.toNat_mod, toNat_toUInt32_of_lt hn]
  rfl

theorem toNat_sixteen_sub {n : Nat} (hn : n < 2 ^ 24) :
    (16 - n.toUInt32 % 16).toNat = 16 - n % 16 := by
  rw [UInt32.toNat_sub_of_le _ _ ?h, UInt32.toNat_mod, toNat_toUInt32_of_lt hn]
  · rfl
  · rw [UInt32.le_iff_toNat_le, UInt32.toNat_mod, toNat_toUInt32_of_lt hn]
    simp only [UInt32.reduceToNat]
    omega

/-- `ReadMsg` rounds the size in a header up to a 16-byte boundary, in `uint32` arithmetic. -/
theorem toNat_rsize {n : Nat} (hn : n < 2 ^ 24) :
    (if n.toUInt32 % 16 > 0 then n.toUInt32 + (16 - n.toUInt32 % 16) else n.toUInt32).toNat =
      n + padLen n := by
  by_cases h : n % 16 > 0
  · rw [if_pos ((toUInt32_mod_pos_iff hn).2 h), UInt32.toNat_add, toNat_sixteen_sub hn,
      toNat_toUInt32_of_lt hn, padLen, if_pos h]
    omega
  · rw [if_neg (mt (toUInt32_mod_pos_iff hn).1 h), toNat_toUInt32_of_lt hn, padLen, if_neg h,
      Nat.add_zero]

/-! ### The tee -/

namespace Egress

@[simp] theorem tee_nil (e : Egress) : e.tee [] = (e, []) := by
  simp [tee, Stream.xorKeyStream, StreamCipher.xorFrom]

theorem tee_append_fst (e : Egress) (a b : Bytes) :
    ((e.tee a).1.tee b).1 = (e.tee (a ++ b)).1 := by
  simp only [tee, Stream.xorKeyStream_append, List.append_assoc]

theorem tee_append_snd (e : Egress) (a b : Bytes) :
    (e.tee a).2 ++ ((e.tee a).1.tee b).2 = (e.tee (a ++ b)).2 := by
  simp only [tee, Stream.xorKeyStream_append]

/-- The three writes through the tee (code, payload, padding) are one write of the frame
body. -/
theorem tee_three (e : Egress) (a b c : Bytes) :
    (((e.tee a).1.tee b).1.tee c).1 = (e.tee (a ++ b ++ c)).1 ∧
      ∀ pre, pre ++ (e.tee a).2 ++ ((e.tee a).1.tee b).2 ++ (((e.tee a).1.tee b).1.tee c).2 =
        pre ++ (e.tee (a ++ b ++ c)).2 := by
  refine ⟨by rw [tee_append_fst, tee_append_fst, List.append_assoc], fun pre => ?_⟩
  rw [List.append_assoc pre, tee_append_snd, List.append_assoc pre, tee_append_fst,
    tee_append_snd]

/-- `WriteMsg`'s padding is the zero bytes up to the next 16-byte boundary. -/
theorem tee_padding {n : Nat} (hn : n < 2 ^ 24) (e : Egress) :
    (if n.toUInt32 % 16 > 0 then e.tee (List.replicate (16 - n.toUInt32 % 16).toNat 0)
      else (e, [])) = e.tee (List.replicate (padLen n) 0) := by
  by_cases h : n % 16 > 0
  · rw [if_pos ((toUInt32_mod_pos_iff hn).2 h), toNat_sixteen_sub hn, padLen, if_pos h]
  · rw [if_neg (mt (toUInt32_mod_pos_iff hn).1 h), padLen, if_neg h, List.replicate_zero,
      tee_nil]

end Egress

/-! ### Writing a frame -/

theorem lheads_writeUint (x : UInt64) (w : Rlp.Encbuf) :
    (Rlp.writeUint x w).lheads = w.lheads := by
  unfold Rlp.writeUint
  split_ifs <;> rfl

theorem toBytes_writeUint (x : UInt64) :
    (Rlp.writeUint x .empty).toBytes = (Rlp.writeUint x .empty).str := by
  rw [Rlp.Encbuf.toBytes, lheads_writeUint]
  rfl

/-- The payload as a frame carries it: compressed once the connection has upgraded. -/
def outPayload (snappy : Bool) (msg : Msg) : Bytes :=
  if snappy then sn.Encode msg.Payload else msg.Payload

/-- The size in the header of a message's frame: the RLP code and the payload as it goes out. -/
def frameSize (snappy : Bool) (msg : Msg) : Nat :=
  (Rlp.writeUint msg.Code .empty).str.length + (outPayload sn snappy msg).length

/-- The plain body of a message's frame, padded to a 16-byte boundary. -/
def frameBody (snappy : Bool) (msg : Msg) : Bytes :=
  (Rlp.writeUint msg.Code .empty).str ++ outPayload sn snappy msg ++
    List.replicate (padLen (frameSize sn snappy msg)) 0

theorem length_frameBody (snappy : Bool) (msg : Msg) :
    (frameBody sn snappy msg).length = frameSize sn snappy msg + padLen (frameSize sn snappy msg) := by
  simp only [frameBody, frameSize, List.length_append, List.length_replicate]

/-- A message that fits a frame: its size is its payload's length, the payload is below
16 MiB, and the frame, with the payload compressed when `snappy` is on, fits the 24 bits of the
header. -/
structure Msg.Fits (snappy : Bool) (msg : Msg) : Prop where
  size_eq : msg.Size.toNat = msg.Payload.length
  plain : msg.Payload.length < 2 ^ 24
  frame : frameSize sn snappy msg < 2 ^ 24

/-- The frame of a body whose header gives the size `fsize`: the encrypted header and its MAC,
the body through the tee, and the frame MAC. -/
def sealFrame (key : Bytes) (e : Egress) (fsize : UInt32) (body : Bytes) : Egress × Bytes :=
  let (head, enc) := e.enc.xorKeyStream (putInt24 fsize ++ zeroHeader ++ List.replicate 10 0)
  let (mac, headMAC) := updateMAC cr e.egressMAC key head
  let (e, o) := Egress.tee ⟨enc, mac⟩ body
  let (mac, frameMAC) := updateMAC cr e.egressMAC key (cr.keccak256 e.egressMAC)
  (⟨e.enc, mac⟩, head ++ headMAC ++ o ++ frameMAC)

variable {sn} {snappy : Bool} {msg : Msg}

theorem compress_of_fits (hm : msg.Fits sn snappy) :
    (if snappy then compress sn msg else pure msg) =
      .ok ⟨msg.Code, (outPayload sn snappy msg).length.toUInt32, outPayload sn snappy msg⟩ := by
  have hsize : ¬ msg.Size > maxUint24 := by
    rw [gt_iff_lt, UInt32.lt_iff_toNat_lt, hm.size_eq, toNat_maxUint24]
    have := hm.plain
    omega
  cases snappy with
  | true => simp only [if_true, compress, if_neg hsize, outPayload]; rfl
  | false =>
    have : msg.Size = msg.Payload.length.toUInt32 :=
      UInt32.toNat_inj.mp (by rw [toNat_toUInt32_of_lt hm.plain, hm.size_eq])
    simp only [Bool.false_eq_true, if_false, outPayload, ← this]
    rfl

/-- `WriteMsg` seals the message's body in one frame. -/
theorem writeFrame_eq {key : Bytes} {e : Egress} (hm : msg.Fits sn snappy) :
    writeFrame cr sn key snappy e msg =
      .ok (sealFrame cr key e (frameSize sn snappy msg).toUInt32 (frameBody sn snappy msg)) := by
  have hn := hm.frame
  have hfs : (Rlp.writeUint msg.Code .empty).str.length.toUInt32 +
      (outPayload sn snappy msg).length.toUInt32 = (frameSize sn snappy msg).toUInt32 := by
    rw [Nat.toUInt32_eq, Nat.toUInt32_eq, Nat.toUInt32_eq, ← UInt32.ofNat_add, frameSize]
  have hov : ¬ (frameSize sn snappy msg).toUInt32 > maxUint24 := by
    rw [gt_iff_lt, UInt32.lt_iff_toNat_lt, toNat_toUInt32_of_lt hn, toNat_maxUint24]
    omega
  simp only [writeFrame, compress_of_fits hm, Except.ok_bind, toBytes_writeUint, hfs, if_neg hov,
    Egress.tee_padding hn, sealFrame, frameBody]
  rw [(Egress.tee_three _ _ _ _).1, (Egress.tee_three _ _ _ _).2]
  rfl

/-! ### Reading a frame -/

/-- The egress half of one end and the ingress half of the other are in step: the same keystream
at the same position, and MAC hashes fed the same bytes. -/
structure Paired (e : Egress) (i : Ingress) : Prop where
  stream : e.enc = i.dec
  mac : e.egressMAC = i.ingressMAC

theorem readFull_append {n : Nat} {b : Bytes} (hb : b.length = n) (rest : Bytes) :
    readFull n (b ++ rest) = .ok (b, rest) := by
  subst hb
  simp [readFull]

theorem readFull_eq_ok {n : Nat} {conn b rest : Bytes} (h : readFull n conn = .ok (b, rest)) :
    b.length = n ∧ conn = b ++ rest := by
  unfold readFull at h
  split_ifs at h with hn
  cases h
  exact ⟨List.length_take_of_le hn, (List.take_append_drop n conn).symm⟩

@[simp] theorem length_updateMAC (mac block seed : Bytes) :
    (updateMAC cr mac block seed).2.length = 16 := by
  simp [updateMAC, cr.keccak256_length]

/-- `ReadMsg` opens a frame sealed by the other end's egress half: it checks both MACs as the
writer computed them, reads the body by the size in the header, and ends in step with the
writer. -/
theorem readFrame_sealFrame {key : Bytes} {e : Egress} {i : Ingress} (hp : Paired e i) {n : Nat}
    (hn : n < 2 ^ 24) {body : Bytes} (hb : body.length = n + padLen n) (rest : Bytes) :
    readFrame cr sn key snappy i ((sealFrame cr key e n.toUInt32 body).2 ++ rest) = (do
      let msg ← readContent sn snappy (body.take n)
      pure (msg, ⟨(sealFrame cr key e n.toUInt32 body).1.enc,
        (sealFrame cr key e n.toUInt32 body).1.egressMAC⟩, rest)) := by
  -- name the parts of the frame
  obtain ⟨head, enc₁, hhead⟩ : ∃ head enc₁, e.enc.xorKeyStream
      (putInt24 n.toUInt32 ++ zeroHeader ++ List.replicate 10 0) = (head, enc₁) := ⟨_, _, rfl⟩
  obtain ⟨mac₁, headMAC, hmac₁⟩ : ∃ mac₁ headMAC,
      updateMAC cr e.egressMAC key head = (mac₁, headMAC) := ⟨_, _, rfl⟩
  obtain ⟨o, enc₂, ho⟩ : ∃ o enc₂, enc₁.xorKeyStream body = (o, enc₂) := ⟨_, _, rfl⟩
  obtain ⟨mac₂, frameMAC, hmac₂⟩ : ∃ mac₂ frameMAC,
      updateMAC cr (mac₁ ++ o) key (cr.keccak256 (mac₁ ++ o)) = (mac₂, frameMAC) := ⟨_, _, rfl⟩
  have hsealed : sealFrame cr key e n.toUInt32 body =
      (⟨enc₂, mac₂⟩, head ++ headMAC ++ o ++ frameMAC) := by
    simp only [sealFrame, hhead, hmac₁, Egress.tee, ho, hmac₂]
  -- what the reader recomputes is what the writer computed
  have hdec₁ : i.dec.xorKeyStream head =
      (putInt24 n.toUInt32 ++ zeroHeader ++ List.replicate 10 0, enc₁) := by
    have h := Stream.xorKeyStream_xorKeyStream e.enc
      (putInt24 n.toUInt32 ++ zeroHeader ++ List.replicate 10 0)
    simp only [hhead] at h
    rw [← hp.stream, h]
  have hdec₂ : enc₁.xorKeyStream o = (body, enc₂) := by
    have h := Stream.xorKeyStream_xorKeyStream enc₁ body
    simp only [ho] at h
    exact h
  have hmacI : updateMAC cr i.ingressMAC key head = (mac₁, headMAC) := by
    rw [← hp.mac, hmac₁]
  -- and the lengths the reader reads by
  have hlhead : head.length = 16 := by
    have h := Stream.length_xorKeyStream e.enc
      (putInt24 n.toUInt32 ++ zeroHeader ++ List.replicate 10 0)
    rw [hhead] at h
    simpa [zeroHeader] using h
  have hlheadMAC : headMAC.length = 16 := by
    simpa [hmac₁] using length_updateMAC cr e.egressMAC key head
  have hlo : o.length = n + padLen n := by
    have h := Stream.length_xorKeyStream enc₁ body
    rw [ho] at h
    rw [← hb, ← h]
  have hlframeMAC : frameMAC.length = 16 := by
    simpa [hmac₂] using length_updateMAC cr (mac₁ ++ o) key (cr.keccak256 (mac₁ ++ o))
  have hr₁ : readFull 32 (head ++ headMAC ++ o ++ frameMAC ++ rest) =
      .ok (head ++ headMAC, o ++ (frameMAC ++ rest)) := by
    rw [List.append_assoc (head ++ headMAC ++ o), List.append_assoc (head ++ headMAC)]
    exact readFull_append (by simp [hlhead, hlheadMAC]) _
  have hsize : readInt24 (putInt24 n.toUInt32 ++ zeroHeader ++ List.replicate 10 0) =
      n.toUInt32 := by
    rw [List.append_assoc]
    exact readInt24_putInt24 (by rw [toNat_toUInt32_of_lt hn]; exact hn) _
  rw [hsealed]
  simp only [readFrame, hr₁, Except.ok_bind, List.take_left' hlhead, List.drop_left' hlhead, hmacI,
    ne_eq, not_true_eq_false, if_false, hdec₁, hsize, toNat_rsize hn, readFull_append hlo,
    readFull_append hlframeMAC, hmac₂, hdec₂, toNat_toUInt32_of_lt hn]

theorem decodeCode_writeUint (x : UInt64) (rest : Bytes) :
    decodeCode ((Rlp.writeUint x .empty).str ++ rest) = .ok (x, rest) := by
  obtain ⟨s', h, hr⟩ := Rlp.decodeUint_writeUint x rest
  simp only [decodeCode, h, hr]

/-- The content of a frame reads back as the message it was written from. -/
theorem readContent_frameBody (hsn : sn.Lawful) (hm : msg.Fits sn snappy) :
    readContent sn snappy ((frameBody sn snappy msg).take (frameSize sn snappy msg)) = .ok msg := by
  have hsize : msg.Size = msg.Payload.length.toUInt32 :=
    UInt32.toNat_inj.mp (by rw [toNat_toUInt32_of_lt hm.plain, hm.size_eq])
  rw [frameBody, List.take_left' (by simp [frameSize]), readContent, decodeCode_writeUint,
    Except.ok_bind]
  cases snappy with
  | true =>
    have hplain : ¬ msg.Payload.length > maxUint24.toNat := by
      have := hm.plain
      rw [toNat_maxUint24]
      omega
    simp only [if_true, outPayload, decompress, hsn.decodedLen_encode, hsn.decode_encode,
      Except.mapError_ok, Except.ok_bind, if_neg hplain, ← hsize]
    rfl
  | false =>
    simp only [Bool.false_eq_true, if_false, outPayload, ← hsize]
    rfl

/-! ### The round trip -/

/-- One frame round-trips between two halves in step, and leaves them in step. -/
theorem frame_roundTrip (hsn : sn.Lawful) (key : Bytes) {e : Egress} {i : Ingress}
    (hp : Paired e i) (hm : msg.Fits sn snappy) :
    ∃ e' i' out, writeFrame cr sn key snappy e msg = .ok (e', out) ∧
      (∀ rest, readFrame cr sn key snappy i (out ++ rest) = .ok (msg, i', rest)) ∧
      Paired e' i' := by
  let sealed := sealFrame cr key e (frameSize sn snappy msg).toUInt32 (frameBody sn snappy msg)
  refine ⟨sealed.1, ⟨sealed.1.enc, sealed.1.egressMAC⟩, sealed.2, writeFrame_eq cr hm,
    fun rest => ?_, ⟨rfl, rfl⟩⟩
  rw [readFrame_sealFrame cr hp hm.frame (length_frameBody sn snappy msg),
    readContent_frameBody hsn hm]
  rfl

/-- The codec of one direction of a connection under the MAC key: the egress half writes, the
ingress half of the other end reads, and the mode of a message is the snappy flag. -/
def frameCodec (cr : Crypto) (sn : Snappy) (key : Bytes) :
    Channel.Codec Bool Egress Ingress Msg RlpxError where
  write snappy e msg := writeFrame cr sn key snappy e msg
  read snappy i conn := readFrame cr sn key snappy i conn

theorem roundTrip_frameCodec (hsn : sn.Lawful) (key : Bytes) :
    Channel.RoundTrip (frameCodec cr sn key) Paired (fun snappy (msg : Msg) => msg.Fits sn snappy) :=
  fun _ _ _ _ hp hm => frame_roundTrip cr hsn key hp hm

/-! ### What `ReadMsg` returns -/

/-- The payload after the code is the rest of the content. -/
theorem decodeCode_eq_ok {content payload : Bytes} {code : UInt64}
    (h : decodeCode content = .ok (code, payload)) : payload <:+ content := by
  unfold decodeCode at h
  split at h
  · rename_i s' hd
    cases h
    rw [Rlp.decodeUint, EStateM.adaptExcept_eq_ok] at hd
    simp only [Functor.map, EStateM.map] at hd
    split at hd
    · rename_i v s₁ hu
      cases hd
      obtain ⟨x, -, -, hr⟩ := Rlp.uint_sound (by omega) le_rfl rfl hu
      exact ⟨_, hr.symm⟩
    · cases hd
  · cases h

/-- The message `ReadMsg` makes of a frame's content: its size is its payload's length, and the
payload is below 16 MiB, compressed or not. -/
theorem readContent_eq_ok (hsn : sn.Lawful) {content : Bytes} (hc : content.length < 2 ^ 24)
    (h : readContent sn snappy content = .ok msg) :
    msg.Size.toNat = msg.Payload.length ∧ msg.Payload.length < 2 ^ 24 := by
  unfold readContent at h
  obtain ⟨⟨code, payload⟩, hd, h⟩ := Except.bind_eq_ok_iff.1 h
  have hp : payload.length < 2 ^ 24 := lt_of_le_of_lt (decodeCode_eq_ok hd).length_le hc
  cases snappy with
  | false =>
    cases h
    exact ⟨toNat_toUInt32_of_lt hp, hp⟩
  | true =>
    -- the decoded length is checked against 16 MiB, and snappy decodes to that length
    simp only [if_true, decompress, Except.throw_eq_error, Except.error_bind] at h
    obtain ⟨size, hsize, h⟩ := Except.bind_eq_ok_iff.1 h
    obtain ⟨hle, h⟩ := Except.ite_error_eq_ok.1 h
    obtain ⟨d, hdec, h⟩ := Except.bind_eq_ok_iff.1 h
    cases h
    rw [Except.mapError_eq_ok] at hsize hdec
    have hlen : size = d.length := by
      have := hsn.decodedLen_of_decode _ _ hdec
      rw [hsize] at this
      exact Except.ok.inj this
    rw [toNat_maxUint24] at hle
    subst hlen
    exact ⟨toNat_toUInt32_of_lt (by omega), show d.length < 2 ^ 24 by omega⟩

/-- A successful `ReadMsg` read a frame off the front of the connection, and made its message
of at most 2^24 - 1 bytes of content. -/
theorem readFrame_eq_ok {key : Bytes} {i i' : Ingress} {conn rest : Bytes}
    (h : readFrame cr sn key snappy i conn = .ok (msg, i', rest)) :
    ∃ content, content.length < 2 ^ 24 ∧ readContent sn snappy content = .ok msg ∧
      rest <:+ conn := by
  simp only [readFrame, Except.throw_eq_error, Except.error_bind] at h
  obtain ⟨⟨headbuf, conn₁⟩, h₁, h⟩ := Except.bind_eq_ok_iff.1 h
  obtain ⟨-, h⟩ := Except.ite_error_eq_ok.1 h
  obtain ⟨⟨framebuf, conn₂⟩, h₂, h⟩ := Except.bind_eq_ok_iff.1 h
  obtain ⟨⟨macbuf, conn₃⟩, h₃, h⟩ := Except.bind_eq_ok_iff.1 h
  obtain ⟨-, h⟩ := Except.ite_error_eq_ok.1 h
  obtain ⟨msg', h₄, h⟩ := Except.bind_eq_ok_iff.1 h
  cases h
  dsimp only at h₂ h₃ h₄
  obtain ⟨-, hc₁⟩ := readFull_eq_ok h₁
  obtain ⟨-, hc₂⟩ := readFull_eq_ok h₂
  obtain ⟨-, hc₃⟩ := readFull_eq_ok h₃
  refine ⟨_, lt_of_le_of_lt (List.length_take_le _ _) (readInt24_lt _), h₄, ?_⟩
  exact ⟨headbuf ++ framebuf ++ macbuf, by simp only [hc₁, hc₂, hc₃, List.append_assoc]⟩

/-! ### The codec of a connection -/

namespace RlpxFrameRW

theorem WriteMsg_eq_ok {rw rw' : RlpxFrameRW} {out : Bytes} :
    rw.WriteMsg cr sn msg = .ok (rw', out) ↔
      ∃ e, writeFrame cr sn rw.macCipher rw.snappy rw.egress msg = .ok (e, out) ∧
        rw' = { rw with egress := e } := by
  simp only [WriteMsg, Except.bind_eq_ok_iff, Prod.exists]
  constructor
  · rintro ⟨e, o, hw, h⟩
    cases h
    exact ⟨e, hw, rfl⟩
  · rintro ⟨e, hw, rfl⟩
    exact ⟨e, out, hw, rfl⟩

theorem ReadMsg_eq_ok {rw rw' : RlpxFrameRW} {conn rest : Bytes} :
    rw.ReadMsg cr sn conn = .ok (msg, rw', rest) ↔
      ∃ i, readFrame cr sn rw.macCipher rw.snappy rw.ingress conn = .ok (msg, i, rest) ∧
        rw' = { rw with ingress := i } := by
  simp only [ReadMsg, Except.bind_eq_ok_iff, Prod.exists]
  constructor
  · rintro ⟨m, i, c, hr, h⟩
    cases h
    exact ⟨i, hr, rfl⟩
  · rintro ⟨i, hr, rfl⟩
    exact ⟨msg, i, rest, hr, rfl⟩

end RlpxFrameRW

/-- Primitives whose hashes and ciphers put out zeros, and a snappy that stores blocks as they
are: enough to run the codec on fixed bytes. -/
def zeroCrypto : Crypto where
  keccak256 _ := List.replicate 32 0
  encrypt _ _ := List.replicate 16 0
  ctr _ _ := 0
  keccak256_length _ := List.length_replicate

def storeSnappy : Snappy where
  Encode b := b
  DecodedLen b := .ok b.length
  Decode b := .ok b

theorem storeSnappy_lawful : storeSnappy.Lawful where
  decodedLen_encode _ := rfl
  decode_encode _ := rfl
  decodedLen_of_decode _ _ h := by cases h; rfl

/-- A message written by one end's codec is read back intact by the other end's, from any bytes
that follow its frame, when the writer's egress half and the reader's ingress half are in step,
the two share the MAC key and agree on snappy, and the message fits its frame. The halves are in
step again after it, and the halves of the other direction are untouched. -/
theorem rlpx_frame_roundtrip (hsn : sn.Lawful) {a b : RlpxFrameRW} (hp : Paired a.egress b.ingress)
    (hkey : a.macCipher = b.macCipher) (hsnappy : a.snappy = b.snappy) (hm : msg.Fits sn a.snappy) :
    ∃ a' b' out, a.WriteMsg cr sn msg = .ok (a', out) ∧
      (∀ rest, b.ReadMsg cr sn (out ++ rest) = .ok (msg, b', rest)) ∧
      Paired a'.egress b'.ingress ∧ a'.ingress = a.ingress ∧ b'.egress = b.egress := by
  obtain ⟨e', i', out, hw, hr, hp'⟩ := frame_roundTrip cr hsn a.macCipher hp hm
  refine ⟨{ a with egress := e' }, { b with ingress := i' }, out,
    RlpxFrameRW.WriteMsg_eq_ok cr |>.2 ⟨e', hw, rfl⟩, fun rest => ?_, hp', rfl, rfl⟩
  refine RlpxFrameRW.ReadMsg_eq_ok cr |>.2 ⟨i', ?_, rfl⟩
  rw [← hkey, ← hsnappy]
  exact hr rest

theorem rlpx_frame_roundtrip_fresh :
    storeSnappy.Lawful ∧
      Paired (newRLPXFrameRW zeroCrypto ⟨[1], [2], [3], [4]⟩).egress
        (newRLPXFrameRW zeroCrypto ⟨[1], [2], [4], [3]⟩).ingress ∧
      (⟨1, 2, [7, 8]⟩ : Msg).Fits storeSnappy false ∧
      ∃ a' b' out, (newRLPXFrameRW zeroCrypto ⟨[1], [2], [3], [4]⟩).WriteMsg zeroCrypto
          storeSnappy ⟨1, 2, [7, 8]⟩ = .ok (a', out) ∧
        (∀ rest, (newRLPXFrameRW zeroCrypto ⟨[1], [2], [4], [3]⟩).ReadMsg zeroCrypto storeSnappy
          (out ++ rest) = .ok (⟨1, 2, [7, 8]⟩, b', rest)) ∧
        Paired a'.egress b'.ingress ∧
        a'.ingress = (newRLPXFrameRW zeroCrypto ⟨[1], [2], [3], [4]⟩).ingress ∧
        b'.egress = (newRLPXFrameRW zeroCrypto ⟨[1], [2], [4], [3]⟩).egress :=
  have hm : (⟨1, 2, [7, 8]⟩ : Msg).Fits storeSnappy false := ⟨by decide, by decide, by decide⟩
  ⟨storeSnappy_lawful, ⟨rfl, rfl⟩, hm,
    rlpx_frame_roundtrip zeroCrypto storeSnappy_lawful ⟨rfl, rfl⟩ rfl rfl hm⟩

/-- Whatever bytes the connection delivers, a message `ReadMsg` returns has a size equal to its
payload's length and a payload below 16 MiB, and `ReadMsg` took it off the front of those
bytes. -/
theorem rlpx_read_bounded (hsn : sn.Lawful) {rw rw' : RlpxFrameRW} {conn rest : Bytes}
    (h : rw.ReadMsg cr sn conn = .ok (msg, rw', rest)) :
    msg.Size.toNat = msg.Payload.length ∧ msg.Payload.length < 2 ^ 24 ∧ rest <:+ conn := by
  obtain ⟨i, hr, -⟩ := RlpxFrameRW.ReadMsg_eq_ok cr |>.1 h
  obtain ⟨content, hc, hcontent, hsuf⟩ := readFrame_eq_ok cr hr
  obtain ⟨hsize, hlen⟩ := readContent_eq_ok hsn hc hcontent
  exact ⟨hsize, hlen, hsuf⟩

theorem rlpx_read_bounded_frame :
    storeSnappy.Lawful ∧
      (newRLPXFrameRW zeroCrypto ⟨[1], [2], [4], [3]⟩).ReadMsg zeroCrypto storeSnappy
          ([0, 0, 3, 0xC2, 0x80, 0x80] ++ List.replicate 26 0 ++ [1, 7, 8] ++ List.replicate 29 0) =
        .ok (⟨1, 2, [7, 8]⟩, { newRLPXFrameRW zeroCrypto ⟨[1], [2], [4], [3]⟩ with
          ingress := ⟨⟨zeroCrypto.ctr [1], 32⟩, [3, 0, 0, 3, 0xC2, 0x80, 0x80] ++
            List.replicate 10 0 ++ [1, 7, 8] ++ List.replicate 29 0⟩ }, []) ∧
      (⟨1, 2, [7, 8]⟩ : Msg).Size.toNat = (⟨1, 2, [7, 8]⟩ : Msg).Payload.length ∧
      (⟨1, 2, [7, 8]⟩ : Msg).Payload.length < 2 ^ 24 ∧
      ([] : Bytes) <:+ [0, 0, 3, 0xC2, 0x80, 0x80] ++ List.replicate 26 0 ++ [1, 7, 8] ++
        List.replicate 29 0 :=
  have h : (newRLPXFrameRW zeroCrypto ⟨[1], [2], [4], [3]⟩).ReadMsg zeroCrypto storeSnappy
      ([0, 0, 3, 0xC2, 0x80, 0x80] ++ List.replicate 26 0 ++ [1, 7, 8] ++ List.replicate 29 0) =
      .ok (⟨1, 2, [7, 8]⟩, { newRLPXFrameRW zeroCrypto ⟨[1], [2], [4], [3]⟩ with
        ingress := ⟨⟨zeroCrypto.ctr [1], 32⟩, [3, 0, 0, 3, 0xC2, 0x80, 0x80] ++
          List.replicate 10 0 ++ [1, 7, 8] ++ List.replicate 29 0⟩ }, []) := rfl
  ⟨storeSnappy_lawful, h, rlpx_read_bounded zeroCrypto storeSnappy_lawful h⟩

end Ccmchain.P2p
