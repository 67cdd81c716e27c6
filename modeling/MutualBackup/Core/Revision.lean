import MutualBackup.Core.Guild

/-!
# User revisions

The records of `model.rs` that a checkpoint carries about its users: revisions of a protected root,
signed by their owner and by the writer key of an epoch, the fences that introduce the writer keys,
and the tombstones that retire a prefix of a root's revisions.

A revision has an encoding only when its version agrees with its optional field, and its hash covers
exactly that encoding, the writer signature included.
-/

namespace MutualBackup

open Framework Codec

/-! ## Records -/

structure SectorRef where
  id : Bytes 32
  root : Bytes 32
  logicalLen : U32
  deriving DecidableEq, Repr

structure WriterFence where
  owner : NodeId
  epoch : U64
  publicKey : Bytes 32
  deriving DecidableEq, Repr

/-- The prefix of a root's revisions that has been retired. -/
structure RevisionTombstone where
  owner : NodeId
  protectedRootId : Uuid
  throughSequence : U64
  lastRevisionId : Uuid
  lastRevisionHash : Bytes 32
  retiredAtGeneration : U64
  deriving DecidableEq, Repr

structure UserRevision where
  formatVersion : U16
  guildId : Bytes 32
  protectedRootId : Uuid
  cipherProfile : U16
  revisionId : Uuid
  owner : NodeId
  writerEpoch : U64
  writerPublicKey : Bytes 32
  writerSignature : List UInt8
  sequence : U64
  parent : Option (Bytes 32)
  metadataSectors : List SectorRef
  dataSectors : List SectorRef
  /-- One per metadata sector and then one per data sector, since version four. -/
  sectorCommitments : Option (List MerkleCommitment)
  deriving DecidableEq, Repr

structure SignedRecord (α : Type) where
  signer : NodeId
  value : α
  signature : List UInt8
  deriving DecidableEq, Repr

/-- The rules under which a checkpoint is certified. -/
structure CheckpointAuthority where
  formatVersion : U16
  membershipEpoch : U64
  quorum : QuorumPolicy
  deriving DecidableEq, Repr

/-! ## Codecs -/

def SectorRef.codec : Codec SectorRef := (pair (bytes 32) <| pair (bytes 32) u32).iso
    (fun r => (r.id, r.root, r.logicalLen)) (fun p => ⟨p.1, p.2.1, p.2.2⟩) fun _ => rfl

def WriterFence.codec : Codec WriterFence := (pair NodeId.codec <| pair u64 (bytes 32)).iso
    (fun f => (f.owner, f.epoch, f.publicKey)) (fun p => ⟨p.1, p.2.1, p.2.2⟩) fun _ => rfl

def RevisionTombstone.codec : Codec RevisionTombstone :=
  (pair NodeId.codec <| pair Uuid.codec <| pair u64 <| pair Uuid.codec <| pair (bytes 32) u64).iso
    (fun t => (t.owner, t.protectedRootId, t.throughSequence, t.lastRevisionId, t.lastRevisionHash,
      t.retiredAtGeneration))
    (fun p => ⟨p.1, p.2.1, p.2.2.1, p.2.2.2.1, p.2.2.2.2.1, p.2.2.2.2.2⟩) fun _ => rfl

def CheckpointAuthority.codec : Codec CheckpointAuthority :=
  (pair u16 <| pair u64 QuorumPolicy.codec).iso
    (fun a => (a.formatVersion, a.membershipEpoch, a.quorum)) (fun p => ⟨p.1, p.2.1, p.2.2⟩)
    fun _ => rfl

/-- The field of `sector_commitments`, by version. -/
def sectorCommitmentsCodec (version : U16) : Codec (Option (List MerkleCommitment)) :=
  if version = 3 then const none
  else if version = 4 ∨ version = 5 then present (list MerkleCommitment.codec)
  else never

def UserRevision.codec : Codec UserRevision := (dep u16 fun version =>
    pair (bytes 32) <| pair Uuid.codec <| pair u16 <|
    pair Uuid.codec <| pair NodeId.codec <| pair u64 <|
    pair (bytes 32) <| pair (list u8) <| pair u64 <|
    pair (option (bytes 32)) <| pair (list SectorRef.codec) <|
    pair (list SectorRef.codec) (sectorCommitmentsCodec version)).iso
    (fun r => (r.formatVersion, r.guildId, r.protectedRootId, r.cipherProfile, r.revisionId,
      r.owner, r.writerEpoch, r.writerPublicKey, r.writerSignature, r.sequence, r.parent,
      r.metadataSectors, r.dataSectors, r.sectorCommitments))
    (fun ⟨version, guildId, root, cipher, id, owner, epoch, key, signature, sequence, parent,
        metadata, data, commitments⟩ =>
      ⟨version, guildId, root, cipher, id, owner, epoch, key, signature, sequence, parent,
        metadata, data, commitments⟩) fun _ => rfl

def SignedRecord.codec {α : Type} (c : Codec α) : Codec (SignedRecord α) :=
  (pair NodeId.codec <| pair c (list u8)).iso
    (fun r => (r.signer, r.value, r.signature)) (fun p => ⟨p.1, p.2.1, p.2.2⟩) fun _ => rfl

/-! ## Signatures and hashes -/

section Verify

variable (C : Crypto)

/-- The signature check of `SignedRecord::verify` and `verify_writer`: the key, its strength, the
length of the signature, and the signature over the domain and the bytes. -/
def verifyUnder (domain : String) (signer : Bytes 32) (signature : List UInt8)
    (bytes : Outcome ModelError (List UInt8)) : Outcome ModelError Unit := do
  let key ← okOr (C.verifyingKey signer) .publicKey
  reject (C.isWeak key) .weakPublicKey
  reject (signature.length ≠ 64) .publicKey
  let bytes ← bytes
  reject (¬ C.verifyStrict key (signingPayload domain bytes) signature) .publicKey

/-- `SignedRecord::verify`. -/
def SignedRecord.verify {α : Type} (c : Codec α) (domain : String) (r : SignedRecord α) :
    Outcome ModelError Unit :=
  verifyUnder C domain r.signer.bytes r.signature (canonicalBytes c r.value)

def userRevisionDomain : String := "mutualbackup/user-revision/v3"

def writerRevisionDomain : String := "mutualbackup/writer-revision/v1"

/-- `UserRevision::verify_writer`: the writer signs the revision without its own signature. -/
def UserRevision.verifyWriter (r : UserRevision) : Outcome ModelError Unit := do
  reject (r.writerEpoch = 0 ∨ r.writerSignature.length ≠ 64) .invalidWriterFence
  verifyUnder C writerRevisionDomain r.writerPublicKey r.writerSignature
    (canonicalBytes UserRevision.codec { r with writerSignature := [] })

/-- The domain of `UserRevision::hash`, by version. -/
def revisionHashDomain (version : U16) : Outcome ModelError String :=
  if version = 3 then pure "mutualbackup user revision body v3"
  else if version = 4 then pure "mutualbackup user revision body v4"
  else if version = 5 then pure "mutualbackup user revision body v5"
  else fail .invalidCheckpoint

/-- `UserRevision::hash`. -/
def UserRevision.hash (r : UserRevision) : Outcome ModelError (Bytes 32) := do
  let domain ← revisionHashDomain r.formatVersion
  let bytes ← canonicalBytes UserRevision.codec r
  pure (C.deriveKey domain bytes)

end Verify

end MutualBackup
