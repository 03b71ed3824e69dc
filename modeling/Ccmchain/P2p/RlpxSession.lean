import Ccmchain.P2p.RlpxFrame

/-!
# An RLPx session (`p2p/rlpx.go`)

The two ends of a connection build their frame codecs from the secrets of one encryption
handshake (`encHandshake.secrets`, `newRLPXFrameRW`). Those secrets are crosswise: each end's
egress MAC starts where the other end's ingress MAC does, and both use one AES secret and one
MAC secret (`secrets_crosswise`).

Then `doProtoHandshake` runs on each end. It writes the end's protocol handshake, reads the other
end's, and only then upgrades the codec to snappy if the other end's version supports it. After
that an end writes and reads freely. `Moves` is what the end `a` of a `Session` can do, and
`Reachable` lets both ends move in any interleaving.

Each direction of a session is a `Channel.Link` of the frame codec (`Session.linkAB`), and each
move of an end is a step of one link that leaves the other link as it was. The mode of the k-th
message of a direction is plain for the handshake and, from then on, the upgrade flag
(`sessionMode`). The protocol handshake discipline makes the writer and the reader of every
message use that mode (`Phase`). So the invariant `Channel.Flight` of the two links holds in
every reachable session (`Reachable.inv`). Every message read is then the next message sent in
its direction, and every message in flight is read back intact.
-/

namespace Ccmchain.P2p

open Rlp (Bytes)

/-! ### The session secrets -/

section Secrets

/-- The initiator's and the receiver's view of one encryption handshake: the same nonces, and the
same ephemeral key agreement. -/
structure EncHandshake.Matches (hA hB : EncHandshake) : Prop where
  initiator : hA.initiator = true
  receiver : hB.initiator = false
  initNonce : hA.initNonce = hB.initNonce
  respNonce : hA.respNonce = hB.respNonce
  ecdhe : hA.ecdhe = hB.ecdhe

variable {cr : Crypto} {hA hB : EncHandshake} {auth authResp : Bytes} {sA sB : Secrets}

/-- Both ends of one handshake derive the same AES and MAC secrets, and each end's egress MAC
starts where the other end's ingress MAC does. -/
theorem secrets_crosswise (hh : hA.Matches hB) (hsA : hA.secrets cr auth authResp = .ok sA)
    (hsB : hB.secrets cr auth authResp = .ok sB) :
    sA.AES = sB.AES ∧ sA.MAC = sB.MAC ∧ sA.EgressMAC = sB.IngressMAC ∧
      sA.IngressMAC = sB.EgressMAC := by
  cases he : hA.ecdhe with
  | error err =>
    simp only [EncHandshake.secrets, he, Except.error_bind] at hsA
    cases hsA
  | ok ecdhe =>
    simp only [EncHandshake.secrets, he, Except.ok_bind, hh.initiator, if_true,
      Except.pure_eq_ok] at hsA
    simp only [EncHandshake.secrets, ← hh.ecdhe, he, Except.ok_bind, hh.receiver,
      Bool.false_eq_true, if_false, Except.pure_eq_ok, ← hh.initNonce, ← hh.respNonce] at hsB
    cases hsA
    cases hsB
    exact ⟨rfl, rfl, rfl, rfl⟩

end Secrets

/-! ### Sessions -/

/-- One end of a session: its frame codec, and whether its `doProtoHandshake` has returned. -/
structure Peer where
  rw : RlpxFrameRW
  upgraded : Bool

/-- One direction of a session: the bytes in flight, and the messages written and read. -/
structure Wire where
  bytes : Bytes
  sent : List Msg
  received : List Msg

/-- A connection after the encryption handshake: the dialing end `a`, the listening end `b`,
and the direction from each. -/
structure Session where
  a : Peer
  b : Peer
  ab : Wire
  ba : Wire

/-- The session seen from its other end. -/
def Session.swap (s : Session) : Session := ⟨s.b, s.a, s.ba, s.ab⟩

/-- Both ends fresh from `newRLPXFrameRW`, and nothing written. -/
def Session.start (cr : Crypto) (sA sB : Secrets) : Session :=
  ⟨⟨newRLPXFrameRW cr sA, false⟩, ⟨newRLPXFrameRW cr sB, false⟩, ⟨[], [], []⟩, ⟨[], [], []⟩⟩

variable (cr : Crypto) (sn : Snappy)

/-- What the end `a` of a session can do, given the protocol version the other end advertises.
Until its `doProtoHandshake` returns, it writes one message (its handshake) and reads one (the
other end's). Then it upgrades to snappy if that version supports it, and after that it writes
and reads freely. A write is of a message that fits its frame. A read waits for a message in
flight, and the wire holds whole frames. -/
inductive Moves (theirVersion : Nat) : Session → Session → Prop
  | write {s : Session} {msg : Msg} {rw' : RlpxFrameRW} {out : Bytes} :
      (s.a.upgraded = true ∨ s.ab.sent = []) → msg.Fits sn s.a.rw.snappy →
      s.a.rw.WriteMsg cr sn msg = .ok (rw', out) →
      Moves theirVersion s { s with
        a := { s.a with rw := rw' },
        ab := { s.ab with bytes := s.ab.bytes ++ out, sent := s.ab.sent ++ [msg] } }
  | read {s : Session} {msg : Msg} {rw' : RlpxFrameRW} {rest : Bytes} :
      (s.a.upgraded = true ∨ s.ba.received = []) → s.ba.received.length < s.ba.sent.length →
      s.a.rw.ReadMsg cr sn s.ba.bytes = .ok (msg, rw', rest) →
      Moves theirVersion s { s with
        a := { s.a with rw := rw' },
        ba := { s.ba with bytes := rest, received := s.ba.received ++ [msg] } }
  | upgrade {s : Session} :
      s.a.upgraded = false → s.ab.sent.length = 1 → s.ba.received.length = 1 →
      Moves theirVersion s { s with a := ⟨s.a.rw.upgrade theirVersion, true⟩ }

/-- The sessions reachable from `start` when the dialer advertises `versionA` and the listener
`versionB`, the two ends moving in any order. -/
inductive Reachable (versionA versionB : Nat) (start : Session) : Session → Prop
  | start : Reachable versionA versionB start start
  | dialer {s s' : Session} :
      Reachable versionA versionB start s → Moves cr sn versionB s s' →
      Reachable versionA versionB start s'
  | listener {s t : Session} :
      Reachable versionA versionB start s → Moves cr sn versionA s.swap t →
      Reachable versionA versionB start t.swap

/-! ### The two links of a session -/

/-- The direction from `a` to `b`, as a link of the frame codec; `s.swap.linkAB` is the other. -/
def Session.linkAB (s : Session) : Channel.Link Egress Ingress Msg :=
  ⟨s.a.rw.egress, s.b.rw.ingress, s.ab.bytes, s.ab.sent, s.ab.received⟩

/-- The snappy flag of the k-th message of a direction: the protocol handshake goes plain, and
every later message is compressed when the ends upgrade. -/
def sessionMode (up : Bool) (k : Nat) : Bool := decide (1 ≤ k) && up

variable {cr sn} {s : Session} {msg : Msg}

/-- A write by `a` is a send on its link, in the mode of its codec. -/
theorem linkAB_write {mode : Nat → Bool} {rw' : RlpxFrameRW} {out : Bytes}
    (hmode : mode s.ab.sent.length = s.a.rw.snappy)
    (hw : s.a.rw.WriteMsg cr sn msg = .ok (rw', out)) :
    s.linkAB.send (frameCodec cr sn s.a.rw.macCipher) mode msg = .ok (Session.linkAB { s with
        a := { s.a with rw := rw' },
        ab := { s.ab with bytes := s.ab.bytes ++ out, sent := s.ab.sent ++ [msg] } }) := by
  obtain ⟨e, hf, rfl⟩ := RlpxFrameRW.WriteMsg_eq_ok cr |>.1 hw
  simp only [Channel.Link.send, frameCodec, Session.linkAB, hmode, hf, Except.ok_bind]
  rfl

/-- A read by `a` is a receive on the other end's link, in the mode of its codec. -/
theorem linkBA_read {mode : Nat → Bool} {rw' : RlpxFrameRW} {rest : Bytes}
    (hmode : mode s.ba.received.length = s.a.rw.snappy)
    (hr : s.a.rw.ReadMsg cr sn s.ba.bytes = .ok (msg, rw', rest)) :
    s.swap.linkAB.recv (frameCodec cr sn s.a.rw.macCipher) mode = .ok (Session.linkAB
      (Session.swap { s with
        a := { s.a with rw := rw' },
        ba := { s.ba with bytes := rest, received := s.ba.received ++ [msg] } })) := by
  obtain ⟨i, hf, rfl⟩ := RlpxFrameRW.ReadMsg_eq_ok cr |>.1 hr
  simp only [Channel.Link.recv, frameCodec, Session.linkAB, Session.swap, hmode, hf,
    Except.ok_bind]
  rfl

/-! ### The invariant -/

/-- What the phase of an end says of its codec: the MAC key of the session, a snappy flag set by
the upgrade alone, and an upgrade that came after the end's handshake was written and the other
end's read. -/
structure Phase (key : Bytes) (up : Bool) (p : Peer) (written read : Nat) : Prop where
  key : p.rw.macCipher = key
  snappy : p.rw.snappy = (p.upgraded && up)
  after : p.upgraded = true → 1 ≤ written ∧ 1 ≤ read

/-- An end that may write or read its `k`-th message uses the mode of that message. -/
theorem Phase.mode_eq {key : Bytes} {up : Bool} {p : Peer} {written read k : Nat}
    (hp : Phase key up p written read) (hk : k = written ∨ k = read)
    (hg : p.upgraded = true ∨ k = 0) : sessionMode up k = p.rw.snappy := by
  rw [hp.snappy, sessionMode]
  cases hu : p.upgraded with
  | true =>
    obtain ⟨hw, hr⟩ := hp.after hu
    have : 1 ≤ k := by omega
    simp [this]
  | false =>
    have hk0 : k = 0 := hg.resolve_left (by simp [hu])
    simp [hk0]

/-- The invariant of a session: in each direction the messages in flight are framed on the wire
by the writer's egress half in step with the reader's ingress half, in the agreed modes; and
each end's codec is as its phase says. -/
structure Session.Inv (cr : Crypto) (sn : Snappy) (key : Bytes) (up : Bool) (s : Session) :
    Prop where
  ab : ∃ pending, Channel.Flight (frameCodec cr sn key) (sessionMode up) Paired s.linkAB pending
  ba : ∃ pending,
    Channel.Flight (frameCodec cr sn key) (sessionMode up) Paired s.swap.linkAB pending
  a : Phase key up s.a s.ab.sent.length s.ba.received.length
  b : Phase key up s.b s.ba.sent.length s.ab.received.length

variable {key : Bytes} {up : Bool}

theorem Session.Inv.swap (h : s.Inv cr sn key up) : s.swap.Inv cr sn key up :=
  ⟨h.ba, h.ab, h.b, h.a⟩

/-- The session at its start keeps the invariant, when its ends' secrets are crosswise. -/
theorem Session.Inv.start {sA sB : Secrets} (hmac : sA.MAC = sB.MAC) (haes : sA.AES = sB.AES)
    (hab : sA.EgressMAC = sB.IngressMAC) (hba : sA.IngressMAC = sB.EgressMAC) :
    (Session.start cr sA sB).Inv cr sn sA.MAC up where
  ab := ⟨[], Channel.Flight.start ⟨by simp [Session.start, newRLPXFrameRW, haes],
    hab⟩⟩
  ba := ⟨[], Channel.Flight.start ⟨by simp [Session.start, Session.swap, newRLPXFrameRW, haes],
    hba.symm⟩⟩
  a := ⟨rfl, rfl, fun h => by cases h⟩
  b := ⟨hmac.symm, rfl, fun h => by cases h⟩

/-- Step lemma for a write by `a`: its link gains the message, the other link is untouched. -/
theorem Session.Inv.write (hsn : sn.Lawful) (hinv : s.Inv cr sn key up) {rw' : RlpxFrameRW}
    {out : Bytes} (hg : s.a.upgraded = true ∨ s.ab.sent = []) (hfit : msg.Fits sn s.a.rw.snappy)
    (hw : s.a.rw.WriteMsg cr sn msg = .ok (rw', out)) :
    Session.Inv cr sn key up { s with
      a := { s.a with rw := rw' },
      ab := { s.ab with bytes := s.ab.bytes ++ out, sent := s.ab.sent ++ [msg] } } := by
  obtain ⟨e, -, rfl⟩ := RlpxFrameRW.WriteMsg_eq_ok cr |>.1 hw
  have hmode := hinv.a.mode_eq (.inl rfl) (hg.imp_right List.length_eq_zero_iff.2)
  obtain ⟨pending, hf⟩ := hinv.ab
  obtain ⟨l', hl', -, -, -, hf'⟩ := hf.send (roundTrip_frameCodec cr hsn key) (hmode ▸ hfit)
  rw [← hinv.a.key, linkAB_write hmode hw] at hl'
  cases hl'
  refine ⟨⟨_, hf'⟩, hinv.ba, ⟨hinv.a.key, hinv.a.snappy, fun hu => ?_⟩, hinv.b⟩
  have := hinv.a.after hu
  simp only [List.length_append, List.length_singleton]
  omega

/-- Step lemma for a read by `a`: what it reads is the next message written to it, and the
other end's link loses that message from those in flight. -/
theorem Session.Inv.read (hinv : s.Inv cr sn key up) {rw' : RlpxFrameRW} {rest : Bytes}
    (hg : s.a.upgraded = true ∨ s.ba.received = []) (hlt : s.ba.received.length < s.ba.sent.length)
    (hr : s.a.rw.ReadMsg cr sn s.ba.bytes = .ok (msg, rw', rest)) :
    s.ba.sent[s.ba.received.length]? = some msg ∧
      Session.Inv cr sn key up { s with
        a := { s.a with rw := rw' },
        ba := { s.ba with bytes := rest, received := s.ba.received ++ [msg] } } := by
  have hmode := hinv.a.mode_eq (.inr rfl) (hg.imp_right List.length_eq_zero_iff.2)
  obtain ⟨pending, hf⟩ := hinv.ba
  cases pending with
  | nil =>
    have := hf.length_sent
    simp only [Session.linkAB, Session.swap, List.length_nil, Nat.add_zero] at this
    omega
  | cons m ms =>
    obtain ⟨l', hl', -, -, hrecv, hf'⟩ := hf.recv
    rw [← hinv.a.key, linkBA_read hmode hr] at hl'
    cases hl'
    have hm : msg = m := by
      simpa [Session.linkAB, Session.swap] using hrecv
    subst hm
    obtain ⟨i, -, rfl⟩ := RlpxFrameRW.ReadMsg_eq_ok cr |>.1 hr
    have hsent : s.ba.sent = s.ba.received ++ msg :: ms := hf.sent_eq
    refine ⟨by simp [hsent], ⟨hinv.ab, ⟨_, hf'⟩,
      ⟨hinv.a.key, hinv.a.snappy, fun hu => ?_⟩, hinv.b⟩⟩
    have := hinv.a.after hu
    simp only [List.length_append, List.length_singleton]
    omega

/-- Step lemma for the upgrade of `a`: its links are untouched, and its codec now compresses
when the other end's version supports it. -/
theorem Session.Inv.upgrade (hinv : s.Inv cr sn key up) {theirVersion : Nat}
    (hv : decide (theirVersion ≥ snappyProtocolVersion) = up) (hw : s.ab.sent.length = 1)
    (hr : s.ba.received.length = 1) :
    Session.Inv cr sn key up { s with a := ⟨s.a.rw.upgrade theirVersion, true⟩ } :=
  ⟨hinv.ab, hinv.ba, ⟨hinv.a.key, by simp [RlpxFrameRW.upgrade, hv], fun _ => ⟨hw.symm.le, hr.symm.le⟩⟩,
    hinv.b⟩

/-- Every move of an end keeps the invariant. -/
theorem Session.Inv.moves (hsn : sn.Lawful) (hinv : s.Inv cr sn key up) {theirVersion : Nat}
    (hv : decide (theirVersion ≥ snappyProtocolVersion) = up) {s' : Session}
    (hm : Moves cr sn theirVersion s s') : s'.Inv cr sn key up := by
  cases hm with
  | write hg hfit hw => exact hinv.write hsn hg hfit hw
  | read hg hlt hr => exact (hinv.read hg hlt hr).2
  | upgrade _ hw hr => exact hinv.upgrade hv hw hr

/-- Run lemma: every reachable session keeps the invariant, when both ends' versions lead them
to the same upgrade. -/
theorem Reachable.inv (hsn : sn.Lawful) {versionA versionB : Nat} {start : Session}
    (hstart : start.Inv cr sn key up)
    (hA : decide (versionA ≥ snappyProtocolVersion) = up)
    (hB : decide (versionB ≥ snappyProtocolVersion) = up)
    (hs : Reachable cr sn versionA versionB start s) : s.Inv cr sn key up := by
  induction hs with
  | start => exact hstart
  | dialer _ hm ih => exact ih.moves hsn hB hm
  | listener _ hm ih => exact (ih.swap.moves hsn hA hm).swap

/-! ### Delivery -/

/-- What the end `a` of a session can always do next. It can write a message that fits its frame
when its phase allows. When its phase allows and a message is in flight to it, it can read, and
what it reads is exactly the next message written to it. -/
def Session.Live (cr : Crypto) (sn : Snappy) (theirVersion : Nat) (s : Session) : Prop :=
  (∀ msg : Msg, (s.a.upgraded = true ∨ s.ab.sent = []) → msg.Fits sn s.a.rw.snappy →
    ∃ s', Moves cr sn theirVersion s s' ∧ s'.ab.sent = s.ab.sent ++ [msg]) ∧
  ((s.a.upgraded = true ∨ s.ba.received = []) → s.ba.received.length < s.ba.sent.length →
    ∃ s', Moves cr sn theirVersion s s' ∧
      s'.ba.received = s.ba.sent.take (s.ba.received.length + 1))

/-- An end of a session that keeps the invariant can always write and read on. -/
theorem Session.Inv.live (hsn : sn.Lawful) (hinv : s.Inv cr sn key up) {theirVersion : Nat} :
    s.Live cr sn theirVersion := by
  refine ⟨fun msg hg hfit => ?_, fun hg hlt => ?_⟩
  · -- the write succeeds because its frame round-trips
    obtain ⟨pending, hf⟩ := hinv.ab
    have hmode := hinv.a.mode_eq (.inl rfl) (hg.imp_right List.length_eq_zero_iff.2)
    obtain ⟨l', hl', -⟩ := hf.send (roundTrip_frameCodec cr hsn key) (hmode ▸ hfit)
    obtain ⟨w, out, hw, -⟩ := Channel.Link.send_eq_ok.1 hl'
    change writeFrame cr sn key (sessionMode up s.ab.sent.length) s.a.rw.egress msg =
      .ok (w, out) at hw
    rw [hmode, ← hinv.a.key] at hw
    exact ⟨_, .write hg hfit (RlpxFrameRW.WriteMsg_eq_ok cr |>.2 ⟨w, hw, rfl⟩), rfl⟩
  · -- the read succeeds on the first frame in flight, and gives its message
    obtain ⟨pending, hf⟩ := hinv.ba
    have hmode := hinv.a.mode_eq (.inr rfl) (hg.imp_right List.length_eq_zero_iff.2)
    cases pending with
    | nil =>
      have := hf.length_sent
      simp only [List.length_nil, Nat.add_zero] at this
      exact absurd this (Nat.ne_of_gt hlt)
    | cons m ms =>
      obtain ⟨l', hl', -, -, hrecv, -⟩ := hf.recv
      obtain ⟨m', r, rest, hr, rfl⟩ := Channel.Link.recv_eq_ok.1 hl'
      have hm : m' = m := by simpa [Session.linkAB, Session.swap] using hrecv
      subst hm
      change readFrame cr sn key (sessionMode up s.ba.received.length) s.a.rw.ingress s.ba.bytes =
        .ok (m', r, rest) at hr
      rw [hmode, ← hinv.a.key] at hr
      have hsent : s.ba.sent = s.ba.received ++ m' :: ms := hf.sent_eq
      refine ⟨_, .read hg hlt (RlpxFrameRW.ReadMsg_eq_ok cr |>.2 ⟨r, hr, rfl⟩), ?_⟩
      simp [hsent, List.take_append]

/-- Every session reachable from the codecs of one encryption handshake keeps the invariant,
when both ends' versions lead them to the same upgrade. -/
theorem Reachable.inv_of_handshake (hsn : sn.Lawful) {hA hB : EncHandshake} {auth authResp : Bytes}
    {sA sB : Secrets} (hh : hA.Matches hB) (hsA : hA.secrets cr auth authResp = .ok sA)
    (hsB : hB.secrets cr auth authResp = .ok sB) {versionA versionB : Nat}
    (hver : decide (versionA ≥ snappyProtocolVersion) = decide (versionB ≥ snappyProtocolVersion))
    (hs : Reachable cr sn versionA versionB (Session.start cr sA sB) s) :
    s.Inv cr sn sA.MAC (decide (versionB ≥ snappyProtocolVersion)) := by
  obtain ⟨haes, hmac, hab, hba⟩ := secrets_crosswise hh hsA hsB
  exact hs.inv hsn (Session.Inv.start hmac haes hab hba) hver rfl

/-- The two views of one handshake, with 32-byte nonces and an agreed key, and the secrets they
give over `zeroCrypto` after the handshake messages [4] and [5]. -/
def dialerHandshake : EncHandshake := ⟨true, List.replicate 32 1, List.replicate 32 2, .ok [9]⟩

def listenerHandshake : EncHandshake := ⟨false, List.replicate 32 1, List.replicate 32 2, .ok [9]⟩

def dialerSecrets : Secrets :=
  ⟨List.replicate 32 0, List.replicate 32 0, List.replicate 32 2 ++ [4], List.replicate 32 1 ++ [5]⟩

def listenerSecrets : Secrets :=
  ⟨List.replicate 32 0, List.replicate 32 0, List.replicate 32 1 ++ [5], List.replicate 32 2 ++ [4]⟩

theorem dialerHandshake_matches : dialerHandshake.Matches listenerHandshake :=
  ⟨rfl, rfl, rfl, rfl, rfl⟩

/-- On a connection whose ends built their codecs from the secrets of one encryption handshake,
and whose advertised versions lead both ends to the same snappy upgrade, every reachable session
has delivered in each direction a prefix of the messages written to it, in order. This holds
whatever the order in which the two ends write, read and upgrade. -/
theorem rlpx_session_in_order (hsn : sn.Lawful) {hA hB : EncHandshake} {auth authResp : Bytes}
    {sA sB : Secrets} (hh : hA.Matches hB) (hsA : hA.secrets cr auth authResp = .ok sA)
    (hsB : hB.secrets cr auth authResp = .ok sB) {versionA versionB : Nat}
    (hver : decide (versionA ≥ snappyProtocolVersion) = decide (versionB ≥ snappyProtocolVersion))
    (hs : Reachable cr sn versionA versionB (Session.start cr sA sB) s) :
    s.ab.received <+: s.ab.sent ∧ s.ba.received <+: s.ba.sent := by
  have hinv := hs.inv_of_handshake hsn hh hsA hsB hver
  obtain ⟨_, hab⟩ := hinv.ab
  obtain ⟨_, hba⟩ := hinv.ba
  exact ⟨hab.received_prefix, hba.received_prefix⟩

theorem rlpx_session_in_order_start :
    storeSnappy.Lawful ∧ dialerHandshake.Matches listenerHandshake ∧
      dialerHandshake.secrets zeroCrypto [4] [5] = .ok dialerSecrets ∧
      listenerHandshake.secrets zeroCrypto [4] [5] = .ok listenerSecrets ∧
      Reachable zeroCrypto storeSnappy 5 5 (Session.start zeroCrypto dialerSecrets listenerSecrets)
        (Session.start zeroCrypto dialerSecrets listenerSecrets) ∧
      ((Session.start zeroCrypto dialerSecrets listenerSecrets).ab.received <+:
          (Session.start zeroCrypto dialerSecrets listenerSecrets).ab.sent ∧
        (Session.start zeroCrypto dialerSecrets listenerSecrets).ba.received <+:
          (Session.start zeroCrypto dialerSecrets listenerSecrets).ba.sent) :=
  have hsA : dialerHandshake.secrets zeroCrypto [4] [5] = .ok dialerSecrets := rfl
  have hsB : listenerHandshake.secrets zeroCrypto [4] [5] = .ok listenerSecrets := rfl
  have hs : Reachable zeroCrypto storeSnappy 5 5
      (Session.start zeroCrypto dialerSecrets listenerSecrets)
      (Session.start zeroCrypto dialerSecrets listenerSecrets) := .start
  ⟨storeSnappy_lawful, dialerHandshake_matches, hsA, hsB, hs,
    rlpx_session_in_order storeSnappy_lawful dialerHandshake_matches hsA hsB rfl hs⟩

/-- On such a connection, in every reachable session, each end can write on. When a message is
in flight to an end whose phase lets it read, that end's `ReadMsg` succeeds on the bytes in
flight, and what it reads is exactly the next message written to it. -/
theorem rlpx_session_live (hsn : sn.Lawful) {hA hB : EncHandshake} {auth authResp : Bytes}
    {sA sB : Secrets} (hh : hA.Matches hB) (hsA : hA.secrets cr auth authResp = .ok sA)
    (hsB : hB.secrets cr auth authResp = .ok sB) {versionA versionB : Nat}
    (hver : decide (versionA ≥ snappyProtocolVersion) = decide (versionB ≥ snappyProtocolVersion))
    (hs : Reachable cr sn versionA versionB (Session.start cr sA sB) s) :
    s.Live cr sn versionB ∧ s.swap.Live cr sn versionA := by
  have hinv := hs.inv_of_handshake hsn hh hsA hsB hver
  exact ⟨hinv.live hsn, hinv.swap.live hsn⟩

theorem rlpx_session_live_start :
    storeSnappy.Lawful ∧ dialerHandshake.Matches listenerHandshake ∧
      dialerHandshake.secrets zeroCrypto [4] [5] = .ok dialerSecrets ∧
      listenerHandshake.secrets zeroCrypto [4] [5] = .ok listenerSecrets ∧
      Reachable zeroCrypto storeSnappy 5 5 (Session.start zeroCrypto dialerSecrets listenerSecrets)
        (Session.start zeroCrypto dialerSecrets listenerSecrets) ∧
      ((Session.start zeroCrypto dialerSecrets listenerSecrets).Live zeroCrypto storeSnappy 5 ∧
        (Session.start zeroCrypto dialerSecrets listenerSecrets).swap.Live zeroCrypto storeSnappy 5) :=
  have hsA : dialerHandshake.secrets zeroCrypto [4] [5] = .ok dialerSecrets := rfl
  have hsB : listenerHandshake.secrets zeroCrypto [4] [5] = .ok listenerSecrets := rfl
  have hs : Reachable zeroCrypto storeSnappy 5 5
      (Session.start zeroCrypto dialerSecrets listenerSecrets)
      (Session.start zeroCrypto dialerSecrets listenerSecrets) := .start
  ⟨storeSnappy_lawful, dialerHandshake_matches, hsA, hsB, hs,
    rlpx_session_live storeSnappy_lawful dialerHandshake_matches hsA hsB rfl hs⟩

end Ccmchain.P2p
