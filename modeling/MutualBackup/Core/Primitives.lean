import MutualBackup.Framework.Codec
import MutualBackup.Framework.Ordered

/-!
# Identities, primitives and canonical bytes

What every record of the protocol is made of: node identities, the third-party primitives the
program calls, and the canonical encoding under which it hashes and signs.

The primitives are a parameter.  `Crypto` collects the functions of `ed25519_dalek`, `x25519_dalek`
and `blake3` that the modelled code calls, with nothing assumed about them; a theorem that needs
one of their documented properties takes it as a hypothesis.  An Ed25519 verifying key is its 32
bytes, once `isPoint` has accepted them, and a signature is a byte list that `Signature::from_slice`
accepts when it has 64 bytes.

The canonical encoding is Postcard, given per record by a `Codec`.  Its error carries no detail
here: the modelled code never looks into a `postcard::Error`.
-/

namespace MutualBackup

open Framework

/-! ## Identities -/

/-- A node identity: the bytes of its Ed25519 key, compared as bytes. -/
structure NodeId where
  bytes : Bytes 32
  deriving Repr

instance : LinearOrder NodeId :=
  LinearOrder.lift' NodeId.bytes fun a b h => by cases a; cases b; cases h; rfl

instance lawfulBEq_nodeId : LawfulBEq NodeId := inferInstance

/-- An X25519 key that recovery records are sealed to. -/
structure RecoveryPublicKey where
  bytes : Bytes 32
  deriving DecidableEq, Repr

/-- `Uuid`: sixteen bytes, compared as bytes. -/
structure Uuid where
  bytes : Bytes 16
  deriving Repr

instance : LinearOrder Uuid :=
  LinearOrder.lift' Uuid.bytes fun a b h => by cases a; cases b; cases h; rfl

/-- `Uuid::is_nil`. -/
def Uuid.isNil (u : Uuid) : Prop := u.bytes = 0
  deriving Decidable

/-! ## Third-party primitives -/

/-- The cryptographic functions the program calls. -/
structure Crypto where
  /-- `VerifyingKey::from_bytes` accepts the bytes. -/
  isPoint : Bytes 32 → Bool
  /-- `VerifyingKey::is_weak`. -/
  isWeak : Bytes 32 → Bool
  /-- `VerifyingKey::verify_strict` accepts a signature of the payload. -/
  verifyStrict : Bytes 32 → List UInt8 → List UInt8 → Bool
  /-- The exchange of the fixed probe secret with this key was contributory. -/
  wasContributory : Bytes 32 → Bool
  /-- `blake3::hash`. -/
  blake3 : List UInt8 → Bytes 32
  /-- `blake3::derive_key`, and a keyed hasher fed with the same bytes. -/
  deriveKey : String → List UInt8 → Bytes 32

/-! ### A transparent instance

An instance that can be evaluated: the digest of a byte string is the number it denotes, and a
signature shows the key and the digest of what was signed.  Concrete runs of the model use it. -/

/-- The bytes as a number, kept away from zero. -/
def digest (bytes : List UInt8) : Bytes 32 := ⟨beValue bytes % (256 ^ 32 - 1) + 1, by
    have := Nat.mod_lt (beValue bytes) (y := 256 ^ 32 - 1) (by norm_num)
    omega⟩

lemma digest_ne_zero (bytes : List UInt8) : digest bytes ≠ 0 := by
  rw [digest, Ne, Fin.ext_iff]
  exact Nat.succ_ne_zero _

/-- The signature of a payload under a key in the transparent instance. -/
def transparentSignature (key : Bytes 32) (payload : List UInt8) : List UInt8 :=
  key.toList ++ (digest payload).toList

/-- Primitives that hide nothing: the zero key is the only weak or non-contributory one. -/
def Crypto.transparent : Crypto where
  isPoint _ := true
  isWeak key := key = 0
  verifyStrict key payload signature := signature = transparentSignature key payload
  wasContributory key := key ≠ 0
  blake3 := digest
  deriveKey context bytes := digest (context.toByteArray.data.toList ++ bytes)

namespace Crypto

variable (C : Crypto)

/-- `VerifyingKey::from_bytes`. -/
def verifyingKey (bytes : Bytes 32) : Option (Bytes 32) :=
  if C.isPoint bytes then some bytes else none

lemma verifyingKey_eq_some {C : Crypto} {bytes key : Bytes 32} :
    C.verifyingKey bytes = some key ↔ C.isPoint bytes ∧ bytes = key := by
  simp [verifyingKey]

end Crypto

/-- `RecoveryPublicKey::is_contributory`. -/
def RecoveryPublicKey.isContributory (C : Crypto) (k : RecoveryPublicKey) : Prop :=
  C.wasContributory k.bytes
  deriving Decidable

/-- `signing_payload`: the length of the domain in four bytes, the domain, the message. -/
def signingPayload (domain : String) (bytes : List UInt8) : List UInt8 :=
  beBytes 4 domain.utf8ByteSize ++ domain.toByteArray.data.toList ++ bytes

/-! ## Errors -/

inductive CodingError where
  | invalidProfile
  | invalidShardLength
  | invalidShardCount
  | invalidCodeword
  | reedSolomon
  deriving DecidableEq, Repr

inductive MerkleError where
  | invalidDataLength
  | invalidRange
  | invalidProof
  | rootMismatch
  deriving DecidableEq, Repr

inductive ModelError where
  | encodingTooLarge (limit : ℕ)
  | encode
  | decode
  | publicKey
  | invalidCheckpoint
  | invalidGenesis
  | invalidInvite
  | invalidStorageAcknowledgement
  | invalidWriterFence
  | weakPublicKey
  | invalidRecoveryAuthority
  | nonMemberSigner (signer : NodeId)
  | insufficientQuorum (actual required : ℕ)
  | reusedFailureDomain (domain : String)
  | invalidCodingRelation
  | coding (e : CodingError)
  | merkle (e : MerkleError)
  deriving DecidableEq, Repr

/-! ## Canonical bytes -/

section Canonical

variable {α : Type} (c : Codec α)

/-- `canonical_bytes`. -/
def canonicalBytes (a : α) : Outcome ModelError (List UInt8) := okOr (c.encode a) .encode

/-- `canonical_size_bounded`: the size of the encoding, when it is within the limit. -/
def canonicalSizeBounded (a : α) (limit : ℕ) : Outcome ModelError ℕ := do
  let bytes ← canonicalBytes c a
  reject (limit < bytes.length) (.encodingTooLarge limit)
  pure bytes.length

/-- `decode_canonical`: bytes after the value are ignored. -/
def decodeCanonical (bytes : List UInt8) : Outcome ModelError α := okOr (c.fromBytes bytes) .decode

variable {c}

lemma canonicalBytes_eq_ok {a : α} {bytes : List UInt8} :
    canonicalBytes c a = .ok bytes ↔ c.encode a = some bytes := okOr_eq_ok

lemma canonicalSizeBounded_eq_ok {a : α} {limit n : ℕ} :
    canonicalSizeBounded c a limit = .ok n ↔
      ∃ bytes, c.encode a = some bytes ∧ bytes.length ≤ limit ∧ bytes.length = n := by
  simp [canonicalSizeBounded, canonicalBytes]

lemma noOverflow_canonicalBytes (a : α) : NoOverflow (canonicalBytes c a) := noOverflow_okOr _ _

end Canonical

/-! ## Codecs of the identities -/

/-- A newtype is written as its contents. -/
def NodeId.codec : Codec NodeId := (Codec.bytes 32).iso NodeId.bytes NodeId.mk fun _ => rfl

def RecoveryPublicKey.codec : Codec RecoveryPublicKey :=
  (Codec.bytes 32).iso RecoveryPublicKey.bytes RecoveryPublicKey.mk fun _ => rfl

/-- `Uuid` is written as a byte string of length sixteen. -/
def Uuid.codec : Codec Uuid := (Codec.sizedBytes 16).iso Uuid.bytes Uuid.mk fun _ => rfl

end MutualBackup
