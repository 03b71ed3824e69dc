import Ccmchain.Common.Types

/-!
# Transactions and their signers (`core/types/transaction.go`, `transaction_signing.go`)

A signature's recovery id `r` (0 or 1) travels in the transaction's `V`. The Homestead signer
writes `r + 27`; the EIP-155 signer writes `r + 35 + 2 * chainId`, which protects the
transaction against replay on another chain. Four functions read `V` back, each with its own
widths: `isProtectedV` looks at 8 bits, `deriveChainId` at 64 bits and then at the whole
integer, `Sender` subtracts in big integers and `recoverPlain` truncates to a byte, and
`UnmarshalJSON` computes in `uint64` throughout. All of them agree on every chain id.

`big.Int` values are integers here. The elliptic curve recovery and the hash function are
parameters (`Crypto`), and so is the hash a signer signs, which nothing here inspects.
-/

namespace Ccmchain.Types

open Common (Address Bytes bytesOf BytesToAddress)

/-- `txdata`, without the `Hash` field only the JSON encoding reads. -/
structure TxData where
  AccountNonce : UInt64
  Price : Int
  GasLimit : UInt64
  Recipient : Option Address
  Amount : Int
  Payload : Bytes
  V : Int
  R : Int
  S : Int

/-- `Transaction.Nonce`. -/
def TxData.Nonce (tx : TxData) : UInt64 := tx.AccountNonce

/-- `Transaction.Gas`. -/
def TxData.Gas (tx : TxData) : UInt64 := tx.GasLimit

/-- `Transaction.GasPrice`. -/
def TxData.GasPrice (tx : TxData) : Int := tx.Price

/-- `Transaction.Cost`: `price * gas + value`. -/
def TxData.Cost (tx : TxData) : Int := tx.Price * tx.GasLimit.toNat + tx.Amount

/-- `big.Int.BitLen`: the bit length of the absolute value. -/
def bitLen (x : Int) : Nat := x.natAbs.size

/-- `big.Int.Uint64`: the low 64 bits of the absolute value. -/
def uint64Of (x : Int) : UInt64 := x.natAbs.toUInt64

/-- `isProtectedV`. -/
def isProtectedV (V : Int) : Bool :=
  if bitLen V ≤ 8 then
    let v := uint64Of V
    v != 27 && v != 28
  else
    -- anything not 27 or 28 is considered protected
    true

/-- `deriveChainId`: in `uint64` below 64 bits, in big integers above. -/
def deriveChainId (v : Int) : Int :=
  if bitLen v ≤ 64 then
    let v := uint64Of v
    if v = 27 ∨ v = 28 then 0 else ((v - 35) / 2).toNat
  else (v - 35) / 2

/-- `Transaction.ChainId`. -/
def TxData.ChainId (tx : TxData) : Int := deriveChainId tx.V

/-- `Transaction.Protected`. -/
def TxData.Protected (tx : TxData) : Bool := isProtectedV tx.V

/-- `secp256k1N`, the order of the curve. -/
def secp256k1N : Int := 0xfffffffffffffffffffffffffffffffebaaedce6af48a03bbfd25e8cd0364141

/-- `secp256k1halfN`. -/
def secp256k1halfN : Int := secp256k1N / 2

/-- `crypto.ValidateSignatureValues`. -/
def ValidateSignatureValues (v : UInt8) (r s : Int) (homestead : Bool) : Bool :=
  if r < 1 ∨ s < 1 then false
  -- reject upper range of s values (ECDSA malleability)
  else if homestead ∧ s > secp256k1halfN then false
  else r < secp256k1N ∧ s < secp256k1N ∧ (v = 0 ∨ v = 1)

/-- The errors of the signers. -/
inductive SignerError where
  | invalidSig
  | invalidChainId
  | invalidPublicKey
  | ecrecover (msg : String)
  deriving DecidableEq, Repr

/-- The error texts. -/
def SignerError.message : SignerError → String
  | .invalidSig => "invalid transaction v, r, s values"
  | .invalidChainId => "invalid chain id for signer"
  | .invalidPublicKey => "invalid public key"
  | .ecrecover msg => msg

/-- The primitives of `crypto` the signers call. -/
structure Crypto where
  Ecrecover : Bytes → Bytes → Except String Bytes
  Keccak256 : Bytes → Bytes

/-- The part of `recoverPlain` after the recovery byte `V` is computed: check the values, then
recover the public key from `R ‖ S ‖ V` and hash it to the address. -/
def recoverSig (c : Crypto) (sighash : Bytes) (R S : Int) (V : UInt8) (homestead : Bool) :
    Except SignerError Address :=
  if !ValidateSignatureValues V R S homestead then .error .invalidSig
  else
    -- `R` and `S` are below the curve order, so each fills its 32 bytes from the right
    let sig := bytesOf 32 R.natAbs ++ bytesOf 32 S.natAbs ++ [V]
    match c.Ecrecover sighash sig with
    | .error e => .error (.ecrecover e)
    | .ok pub =>
      if pub.length = 0 ∨ pub.head? ≠ some 4 then .error .invalidPublicKey
      else .ok (BytesToAddress ((c.Keccak256 (pub.drop 1)).drop 12))

/-- `recoverPlain`: the recovery byte is `byte(Vb.Uint64() - 27)`. -/
def recoverPlain (c : Crypto) (sighash : Bytes) (R S Vb : Int) (homestead : Bool) :
    Except SignerError Address :=
  if bitLen Vb > 8 then .error .invalidSig
  else recoverSig c sighash R S (uint64Of Vb - 27).toUInt8 homestead

/-- `FrontierSigner.SignatureValues`, which `HomesteadSigner` uses as it is. The outer error is
the panic on a signature that is not 65 bytes long. -/
def FrontierSignatureValues (sig : Bytes) : Except String (Int × Int × Int) :=
  if sig.length ≠ 65 then
    .error ("wrong size for signature: got " ++ toString sig.length ++ ", want 65")
  else
    .ok (BigEndian.toNat (sig.take 32), BigEndian.toNat ((sig.drop 32).take 32),
      (sig.getD 64 0 + 27).toNat)

/-- `HomesteadSigner.Sender`, given the hash it signs. -/
def HomesteadSender (c : Crypto) (hash : Bytes) (tx : TxData) : Except SignerError Address :=
  recoverPlain c hash tx.R tx.S tx.V true

/-- `EIP155Signer`; `chainIdMul` is twice the chain id. -/
structure EIP155Signer where
  chainId : Int

/-- `EIP155Signer.chainIdMul`. -/
def EIP155Signer.chainIdMul (s : EIP155Signer) : Int := s.chainId * 2

/-- `EIP155Signer.SignatureValues`: `sig[64] + 35` is a byte sum, as in Go. -/
def EIP155Signer.SignatureValues (s : EIP155Signer) (sig : Bytes) :
    Except String (Int × Int × Int) := do
  let (R, S, V) ← FrontierSignatureValues sig
  if s.chainId ≠ 0 then pure (R, S, (sig.getD 64 0 + 35).toNat + s.chainIdMul)
  else pure (R, S, V)

/-- `EIP155Signer.Sender`, given the hash it signs and the hash the Homestead signer signs, which
it falls back to for an unprotected transaction. -/
def EIP155Signer.Sender (s : EIP155Signer) (c : Crypto) (hash homesteadHash : Bytes) (tx : TxData) :
    Except SignerError Address :=
  if !tx.Protected then HomesteadSender c homesteadHash tx
  else if tx.ChainId ≠ s.chainId then .error .invalidChainId
  else recoverPlain c hash tx.R tx.S (tx.V - s.chainIdMul - 8) true

/-- The recovery byte `Transaction.UnmarshalJSON` checks, computed in `uint64` and truncated. -/
def jsonRecoveryByte (V : Int) : UInt8 :=
  if isProtectedV V then
    let chainID := uint64Of (deriveChainId V)
    (uint64Of V - 35 - 2 * chainID).toUInt8
  else (uint64Of V - 27).toUInt8

/-- `Transaction.UnmarshalJSON` after the fields are decoded: a transaction with a signature is
refused unless its values are valid. -/
def TxData.UnmarshalJSON (dec : TxData) : Except SignerError TxData :=
  let withSignature := dec.V ≠ 0 ∨ dec.R ≠ 0 ∨ dec.S ≠ 0
  if withSignature ∧ !ValidateSignatureValues (jsonRecoveryByte dec.V) dec.R dec.S false then
    .error .invalidSig
  else .ok dec

/-! ## Widths

`bitLen` is the one bridge from a `big.Int` to a bound, and below `2^64` the `Uint64` view is
exact. -/

theorem bitLen_le_iff {x : Int} {n : Nat} : bitLen x ≤ n ↔ x.natAbs < 2 ^ n := Nat.size_le

theorem toNat_uint64Of (x : Int) : (uint64Of x).toNat = x.natAbs % 2 ^ 64 := UInt64.toNat_ofNat'

theorem uint64Of_natCast (n : Nat) : uint64Of n = UInt64.ofNat n := rfl

theorem toUInt8_ofNat_toNat (r : UInt8) : (UInt64.ofNat r.toNat).toUInt8 = r := by
  refine UInt8.toNat_inj.1 ?_
  rw [UInt64.toNat_toUInt8, UInt64.toNat_ofNat']
  have := r.toNat_lt
  omega

/-- Subtracting `35 + 2q` from `p + 35 + 2q` in `uint64` leaves `p`, whatever wraps around. -/
theorem ofNat_sub_chainIdMul (p q : Nat) :
    UInt64.ofNat (p + 35 + 2 * q) - 35 - 2 * UInt64.ofNat q = UInt64.ofNat p := by
  rw [UInt64.ofNat_add, UInt64.ofNat_add, UInt64.ofNat_mul]
  grind

/-! ## Reading `V` back -/

theorem isProtectedV_iff {V : Int} : isProtectedV V = true ↔ V.natAbs ≠ 27 ∧ V.natAbs ≠ 28 := by
  unfold isProtectedV
  split_ifs with hsmall
  · have hv : (uint64Of V).toNat = V.natAbs := by
      rw [toNat_uint64Of, Nat.mod_eq_of_lt]
      have := bitLen_le_iff.1 hsmall
      omega
    simp only [Bool.and_eq_true, bne_iff_ne, ne_eq, ← UInt64.toNat_inj, hv]
    rfl
  · have := bitLen_le_iff.not.1 hsmall
    simp only [true_iff]
    omega

theorem isProtectedV_eq_false_iff {V : Int} :
    isProtectedV V = false ↔ V.natAbs = 27 ∨ V.natAbs = 28 := by
  rw [Bool.eq_false_iff, ne_eq, isProtectedV_iff]
  omega

theorem deriveChainId_of_unprotected {v : Int} (hv : v.natAbs = 27 ∨ v.natAbs = 28) :
    deriveChainId v = 0 := by
  have hsmall : bitLen v ≤ 64 := bitLen_le_iff.2 (by omega)
  have hv64 : (uint64Of v).toNat = v.natAbs := by rw [toNat_uint64Of]; omega
  unfold deriveChainId
  rw [if_pos hsmall]
  dsimp only
  rw [if_pos]
  simp only [← UInt64.toNat_inj, hv64]
  exact hv

/-- Above the legacy values both branches of `deriveChainId` compute `(v - 35) / 2`: the `uint64`
one exactly, since it is only taken below `2^64`. -/
theorem deriveChainId_of_ge {v : Int} (hv : 35 ≤ v) : deriveChainId v = (v - 35) / 2 := by
  unfold deriveChainId
  dsimp only
  split_ifs with hsmall hlegacy
  · have hv64 : (uint64Of v).toNat = v.natAbs := by
      have := bitLen_le_iff.1 hsmall
      rw [toNat_uint64Of]
      omega
    simp only [← UInt64.toNat_inj, hv64, UInt64.reduceToNat] at hlegacy
    omega
  · have hv64 : (uint64Of v).toNat = v.natAbs := by
      have := bitLen_le_iff.1 hsmall
      rw [toNat_uint64Of]
      omega
    have h35 : (35 : UInt64) ≤ uint64Of v := by
      rw [UInt64.le_iff_toNat_le, hv64]
      simp only [UInt64.reduceToNat]
      omega
    rw [UInt64.toNat_div, UInt64.toNat_sub_of_le _ _ h35, hv64]
    simp only [UInt64.reduceToNat]
    omega
  · rfl

/-- The recovery byte `UnmarshalJSON` computes is the parity of `V - 35`, for every `V` from
35 on, of any size. -/
theorem jsonRecoveryByte_of_ge {v : Int} (hv : 35 ≤ v) :
    jsonRecoveryByte v = UInt8.ofNat ((v - 35) % 2).toNat := by
  obtain ⟨n, rfl⟩ : ∃ n : Nat, v = n := ⟨v.natAbs, by omega⟩
  have hsplit : n = (n - 35) % 2 + 35 + 2 * ((n - 35) / 2) := by omega
  have hchain : uint64Of (deriveChainId n) = UInt64.ofNat ((n - 35) / 2) := by
    rw [deriveChainId_of_ge hv, show ((n : Int) - 35) / 2 = ((n - 35) / 2 : Nat) by omega]
    rfl
  have hofNat : UInt64.ofNat n = UInt64.ofNat ((n - 35) % 2 + 35 + 2 * ((n - 35) / 2)) :=
    congrArg _ hsplit
  unfold jsonRecoveryByte
  rw [if_pos (isProtectedV_iff.2 (by omega))]
  dsimp only
  rw [hchain, uint64Of_natCast, hofNat, ofNat_sub_chainIdMul]
  refine UInt8.toNat_inj.1 ?_
  rw [UInt64.toNat_toUInt8, UInt64.toNat_ofNat', UInt8.toNat_ofNat']
  omega

/-- `recoverPlain` of a Homestead `V = r + 27` recovers with the byte `r`. -/
theorem recoverPlain_homestead (c : Crypto) (sighash : Bytes) (R S : Int) {r : UInt8}
    (hr : r.toNat ≤ 228) (homestead : Bool) :
    recoverPlain c sighash R S (r.toNat + 27) homestead = recoverSig c sighash R S r homestead := by
  have hsmall : ¬ bitLen ((r.toNat : Int) + 27) > 8 := by
    rw [not_lt, bitLen_le_iff]
    omega
  have hbyte : (UInt64.ofNat (r.toNat + 27) - 27).toUInt8 = r := by
    rw [UInt64.ofNat_add, show UInt64.ofNat 27 = 27 from rfl, UInt64.add_sub_cancel,
      toUInt8_ofNat_toNat]
  unfold recoverPlain
  rw [if_neg hsmall, show ((r.toNat : Int) + 27) = ((r.toNat + 27 : Nat) : Int) by push_cast; rfl,
    uint64Of_natCast, hbyte]

/-! ## The signers -/

/-- An EIP-155 signer with a chain id writes `r + 35 + 2 * chainId` for a signature ending in `r`,
as long as the byte sum `r + 35` does not wrap. -/
theorem signatureValues_eip155 {s : EIP155Signer} (hs : s.chainId ≠ 0) {rs : Bytes}
    (hrs : rs.length = 64) {r : UInt8} (hr : r.toNat ≤ 220) :
    s.SignatureValues (rs ++ [r]) =
      .ok (BigEndian.toNat (rs.take 32), BigEndian.toNat (rs.drop 32), r.toNat + 35 + 2 * s.chainId) := by
  have hlast : (rs ++ [r]).getD 64 0 = r := by simp [hrs]
  have hsum : (r + 35).toNat = r.toNat + 35 := by
    rw [UInt8.toNat_add]
    simp only [UInt8.reduceToNat]
    omega
  have hS : ((rs ++ [r]).drop 32).take 32 = rs.drop 32 := by
    rw [List.drop_append_of_le_length (by omega), List.take_append_of_le_length (by simp; omega),
      List.take_of_length_le (by simp; omega)]
  have hR : (rs ++ [r]).take 32 = rs.take 32 := List.take_append_of_le_length (by omega)
  unfold EIP155Signer.SignatureValues FrontierSignatureValues
  rw [if_neg (by simp [hrs])]
  simp only [bind, Except.bind, pure, Except.pure, if_pos hs, hlast, hsum, hS, hR,
    EIP155Signer.chainIdMul]
  congr 3
  push_cast
  ring

/-- A protected transaction whose `V` encodes the signer's chain id is recovered with
`V - 2 * chainId - 8`, which is `(V - 35) % 2 + 27`. -/
theorem sender_of_chainId {s : EIP155Signer} (c : Crypto) (hash homesteadHash : Bytes)
    {tx : TxData} (hV : 35 ≤ tx.V) (hchain : (tx.V - 35) / 2 = s.chainId) :
    s.Sender c hash homesteadHash tx = recoverPlain c hash tx.R tx.S ((tx.V - 35) % 2 + 27) true := by
  have hprot : tx.Protected = true := isProtectedV_iff.2 (by omega)
  have hid : tx.ChainId = s.chainId := by rw [TxData.ChainId, deriveChainId_of_ge hV, hchain]
  unfold EIP155Signer.Sender
  rw [hprot, if_neg (by decide), if_neg (not_not.2 hid), EIP155Signer.chainIdMul]
  congr 1
  omega

/-- An unprotected transaction is left to the Homestead signer, whatever the chain id. -/
theorem sender_of_unprotected (s : EIP155Signer) (c : Crypto) (hash homesteadHash : Bytes)
    {tx : TxData} (hV : tx.V.natAbs = 27 ∨ tx.V.natAbs = 28) :
    s.Sender c hash homesteadHash tx = HomesteadSender c homesteadHash tx := by
  have hprot : tx.Protected = false := isProtectedV_eq_false_iff.2 hV
  unfold EIP155Signer.Sender
  rw [hprot, if_pos (by decide)]

/-- With a signature, `UnmarshalJSON` keeps the transaction exactly when its recovery byte and
`R`, `S` are valid. -/
theorem unmarshalJSON_of_signed {dec : TxData} (hV : dec.V ≠ 0) :
    dec.UnmarshalJSON =
      if ValidateSignatureValues (jsonRecoveryByte dec.V) dec.R dec.S false then .ok dec
      else .error .invalidSig := by
  unfold TxData.UnmarshalJSON
  by_cases hvalid : ValidateSignatureValues (jsonRecoveryByte dec.V) dec.R dec.S false = true
  · rw [if_neg (by simp [hvalid]), if_pos hvalid]
  · rw [if_pos (by simp [hV, hvalid]), if_neg hvalid]

/-- For every `V` from 35 on, the byte the EIP-155 sender recovers with is the byte
`UnmarshalJSON` checks. -/
theorem recoverPlain_sender_eq_json (c : Crypto) (sighash : Bytes) (R S : Int) {v : Int}
    (hv : 35 ≤ v) (homestead : Bool) :
    recoverPlain c sighash R S ((v - 35) % 2 + 27) homestead =
      recoverSig c sighash R S (jsonRecoveryByte v) homestead := by
  have hp : (v - 35) % 2 = (UInt8.ofNat ((v - 35) % 2).toNat).toNat := by
    rw [UInt8.toNat_ofNat']
    omega
  have hsmall : (UInt8.ofNat ((v - 35) % 2).toNat).toNat ≤ 228 := by
    rw [UInt8.toNat_ofNat']
    omega
  rw [jsonRecoveryByte_of_ge hv, ← recoverPlain_homestead c sighash R S hsmall homestead, ← hp]

/-- Replay-protected `V` values round-trip, for every chain id from 1 on: the signer writes
`r + 35 + 2c`, every reader takes `c` and the recovery byte `r` back out of it, and the legacy
values 27 and 28 carry no chain id and go to the Homestead signer. -/
theorem eip155_v_round_trip (c : Int) (r : UInt8) (hc : 1 ≤ c) (hr : r = 0 ∨ r = 1) :
    (∀ rs : Bytes, rs.length = 64 →
      ∃ R S, (EIP155Signer.mk c).SignatureValues (rs ++ [r]) = .ok (R, S, r.toNat + 35 + 2 * c)) ∧
    isProtectedV (r.toNat + 35 + 2 * c) = true ∧
    deriveChainId (r.toNat + 35 + 2 * c) = c ∧
    (∀ (cr : Crypto) (hash homesteadHash : Bytes) (tx : TxData), tx.V = r.toNat + 35 + 2 * c →
      (EIP155Signer.mk c).Sender cr hash homesteadHash tx =
          recoverPlain cr hash tx.R tx.S (r.toNat + 27) true ∧
        recoverPlain cr hash tx.R tx.S (r.toNat + 27) true = recoverSig cr hash tx.R tx.S r true) ∧
    jsonRecoveryByte (r.toNat + 35 + 2 * c) = r ∧
    (∀ dec : TxData, dec.V = r.toNat + 35 + 2 * c →
      dec.UnmarshalJSON =
        if ValidateSignatureValues r dec.R dec.S false then .ok dec else .error .invalidSig) ∧
    (∀ V : Int, (V = 27 ∨ V = 28) →
      deriveChainId V = 0 ∧ isProtectedV V = false ∧
      ∀ (s : EIP155Signer) (cr : Crypto) (hash homesteadHash : Bytes) (tx : TxData), tx.V = V →
        s.Sender cr hash homesteadHash tx = HomesteadSender cr homesteadHash tx) := by
  have hr1 : r.toNat ≤ 1 := by rcases hr with rfl | rfl <;> decide
  have hV : (35 : Int) ≤ r.toNat + 35 + 2 * c := by omega
  have hchain : ((r.toNat : Int) + 35 + 2 * c - 35) / 2 = c := by omega
  have hparity : ((r.toNat : Int) + 35 + 2 * c - 35) % 2 = r.toNat := by omega
  have hjson : jsonRecoveryByte (r.toNat + 35 + 2 * c) = r := by
    rw [jsonRecoveryByte_of_ge hV, hparity, Int.toNat_natCast, UInt8.ofNat_toNat]
  refine ⟨fun rs hrs => ⟨_, _, signatureValues_eip155 (by dsimp only; omega) hrs (by omega)⟩,
    isProtectedV_iff.2 (by omega), by rw [deriveChainId_of_ge hV, hchain], ?sender, hjson,
    ?json, ?legacy⟩
  case sender =>
    intro cr hash homesteadHash tx htx
    refine ⟨?_, recoverPlain_homestead cr hash tx.R tx.S (by omega) true⟩
    rw [sender_of_chainId cr hash homesteadHash (htx ▸ hV) (by rw [htx]; exact hchain), htx,
      hparity]
  case json =>
    intro dec hdec
    rw [unmarshalJSON_of_signed (by omega), hdec, hjson]
  case legacy =>
    intro V hV
    have hnat : V.natAbs = 27 ∨ V.natAbs = 28 := by omega
    exact ⟨deriveChainId_of_unprotected hnat, isProtectedV_eq_false_iff.2 hnat,
      fun s cr hash homesteadHash tx htx =>
        sender_of_unprotected s cr hash homesteadHash (by rw [htx]; exact hnat)⟩

theorem eip155_v_round_trip_above_uint64 :
    (1 : Int) ≤ 2 ^ 64 ∧ ((1 : UInt8) = 0 ∨ (1 : UInt8) = 1) ∧
      deriveChainId ((1 : UInt8).toNat + 35 + 2 * 2 ^ 64) = 2 ^ 64 ∧
      jsonRecoveryByte ((1 : UInt8).toNat + 35 + 2 * 2 ^ 64) = 1 :=
  have h := eip155_v_round_trip (2 ^ 64) 1 (by decide) (Or.inr rfl)
  ⟨by decide, Or.inr rfl, h.2.2.1, h.2.2.2.2.1⟩

end Ccmchain.Types
