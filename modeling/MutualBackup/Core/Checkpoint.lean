import Mathlib.Data.List.AList
import MutualBackup.Core.Packing

/-!
# Guild checkpoints

A checkpoint is one signed picture of a guild: its members, the writer keys its users have fenced,
the revisions it retains, the tombstones of those it has retired, and how their sectors are coded.
`GuildCheckpoint.validate` looks at one checkpoint alone and is what every reader runs first; a
`QuorumCheckpoint` is a checkpoint with the signatures that certify it.

Validation is one pass per vector.  The passes are kept apart here as they are in the source, each
with the state it carries: the last key seen, the maps it fills for the passes after it.  A vector
that is strictly increasing in its keys never repeats one, so the sets into which the source inserts
those keys never refuse an insertion and are left out.  The maps that are read later are association
lists.
-/

namespace MutualBackup

open Framework Codec

/-! ## Records -/

structure InformationRole where
  owner : NodeId
  sector : SectorRef
  deriving DecidableEq, Repr

structure ParityRole where
  holder : NodeId
  row : U16
  root : Bytes 32
  deriving DecidableEq, Repr

inductive ShardRole where
  | information (role : InformationRole)
  | parity (role : ParityRole)
  deriving DecidableEq, Repr

/-- A codeword of the fixed geometry of the first versions. -/
structure CodingGroup where
  id : Bytes 32
  formatVersion : U16
  guildId : Bytes 32
  dataShards : U16
  parityShards : U16
  shardSize : U32
  roles : List.Vector ShardRole 5
  deriving DecidableEq

structure GuildCheckpoint where
  formatVersion : U16
  guildId : Bytes 32
  genesisHash : Bytes 32
  generation : U64
  parent : Option (Bytes 32)
  members : List Member
  writerFences : List WriterFence
  revisionTombstones : List RevisionTombstone
  revisions : List (SignedRecord UserRevision)
  codingGroups : List CodingGroup
  authority : Option CheckpointAuthority
  packingCatalog : Option PackedCatalog
  deriving DecidableEq

structure QuorumCheckpoint where
  checkpoint : GuildCheckpoint
  signatures : List MemberSignature
  deriving DecidableEq

/-- The founding of a guild. -/
structure GuildGenesis where
  formatVersion : U16
  guildId : Bytes 32
  coordinator : NodeId
  members : List Member
  deriving DecidableEq, Repr

structure QuorumGuildGenesis where
  genesis : GuildGenesis
  signatures : List MemberSignature
  deriving DecidableEq, Repr

def v1SectorSize : ℕ := 64 * 1024

def v1CipherProfile : U16 := 1

def v1RsDataShards : ℕ := 3

def v1RsParityShards : ℕ := 2

def v1MaxCodingGroups : ℕ := 40000

/-! ## Codecs -/

def InformationRole.codec : Codec InformationRole :=
  (pair NodeId.codec SectorRef.codec).iso (fun r => (r.owner, r.sector))
    (fun p => ⟨p.1, p.2⟩) fun _ => rfl

def ParityRole.codec : Codec ParityRole := (pair NodeId.codec <| pair u16 (bytes 32)).iso
    (fun r => (r.holder, r.row, r.root)) (fun p => ⟨p.1, p.2.1, p.2.2⟩) fun _ => rfl

def ShardRole.codec : Codec ShardRole := enum
    [{ codec := InformationRole.codec, make := .information,
       match? := fun | .information r => some r | _ => none },
     { codec := ParityRole.codec, make := .parity,
       match? := fun | .parity r => some r | _ => none }] (by decide)

/-- Everything of a group but its identifier. -/
def CodingGroup.bodyCodec :
    Codec (U16 × Bytes 32 × U16 × U16 × U32 × List.Vector ShardRole 5) :=
  pair u16 <| pair (bytes 32) <| pair u16 <| pair u16 <| pair u32 (Codec.array ShardRole.codec 5)

def CodingGroup.codec : Codec CodingGroup := (pair (bytes 32) CodingGroup.bodyCodec).iso
    (fun g => (g.id, g.formatVersion, g.guildId, g.dataShards, g.parityShards, g.shardSize,
      g.roles))
    (fun ⟨id, version, guildId, dataShards, parityShards, shardSize, roles⟩ =>
      ⟨id, version, guildId, dataShards, parityShards, shardSize, roles⟩) fun _ => rfl

/-- The field of `authority`, by version. -/
def authorityCodec (version : U16) : Codec (Option CheckpointAuthority) :=
  if version = 3 ∨ version = 4 then const none
  else if version = 5 ∨ version = 6 ∨ version = 7 then present CheckpointAuthority.codec
  else never

/-- The field of `packing_catalog`, by version. -/
def packingCatalogCodec (version : U16) : Codec (Option PackedCatalog) :=
  if version = 7 then present PackedCatalog.codec else const none

def GuildCheckpoint.codec : Codec GuildCheckpoint := (dep u16 fun version =>
    pair (bytes 32) <| pair (bytes 32) <| pair u64 <|
    pair (option (bytes 32)) <| pair (list Member.codec) <|
    pair (list WriterFence.codec) <| pair (list RevisionTombstone.codec) <|
    pair (list (SignedRecord.codec UserRevision.codec)) <|
    pair (list CodingGroup.codec) <| pair (authorityCodec version)
      (packingCatalogCodec version)).iso
    (fun c => (c.formatVersion, c.guildId, c.genesisHash, c.generation, c.parent, c.members,
      c.writerFences, c.revisionTombstones, c.revisions, c.codingGroups, c.authority,
      c.packingCatalog))
    (fun ⟨version, guildId, genesisHash, generation, parent, members, fences, tombstones,
        revisions, groups, authority, catalog⟩ =>
      ⟨version, guildId, genesisHash, generation, parent, members, fences, tombstones, revisions,
        groups, authority, catalog⟩) fun _ => rfl

def QuorumCheckpoint.codec : Codec QuorumCheckpoint :=
  (pair GuildCheckpoint.codec (list MemberSignature.codec)).iso
    (fun c => (c.checkpoint, c.signatures)) (fun p => ⟨p.1, p.2⟩) fun _ => rfl

def GuildGenesis.codec : Codec GuildGenesis := (pair u16 <| pair (bytes 32) <| pair NodeId.codec
    (list Member.codec)).iso
    (fun g => (g.formatVersion, g.guildId, g.coordinator, g.members))
    (fun p => ⟨p.1, p.2.1, p.2.2.1, p.2.2.2⟩) fun _ => rfl

/-! ## Validation -/

section Validate

variable (C : Crypto)

/-- `CodingGroup::calculate_id`. -/
def CodingGroup.calculateId (g : CodingGroup) : Outcome ModelError (Bytes 32) := do
  let bytes ← canonicalBytes CodingGroup.bodyCodec
    (g.formatVersion, g.guildId, g.dataShards, g.parityShards, g.shardSize, g.roles)
  pure (C.blake3 bytes)

/-- A role stands where its kind belongs: information first, then the rows of parity. -/
def ShardRole.placed (index : ℕ) : ShardRole → Prop
  | .information role => index < v1RsDataShards ∧ role.sector.logicalLen.val ≤ v1SectorSize
  | .parity role => v1RsDataShards ≤ index ∧ role.row.val = (index - v1RsDataShards) % 2 ^ 16

instance (index : ℕ) (role : ShardRole) : Decidable (role.placed index) :=
  match role with
  | .information _ => inferInstanceAs (Decidable (_ ∧ _))
  | .parity _ => inferInstanceAs (Decidable (_ ∧ _))

/-- `validate_group_profile`. -/
def CodingGroup.validateProfile (g : CodingGroup) : Outcome ModelError Unit := do
  reject (g.formatVersion ≠ 1 ∨ g.dataShards.val ≠ v1RsDataShards ∨
    g.parityShards.val ≠ v1RsParityShards ∨ g.shardSize.val ≠ v1SectorSize) .invalidCheckpoint
  let id ← g.calculateId C
  reject (id ≠ g.id) .invalidCheckpoint
  reject (∃ entry ∈ g.roles.toList.zipIdx, ¬ entry.1.placed entry.2) .invalidCheckpoint

/-- An authority that a checkpoint of `members` members can carry. -/
def CheckpointAuthority.usable (members : ℕ) (a : CheckpointAuthority) : Prop :=
  a.formatVersion = 1 ∧ 0 < a.membershipEpoch ∧ Succeeds (a.quorum.required members)
  deriving Decidable

namespace GuildCheckpoint

variable (c : GuildCheckpoint)

/-! ### Header and members -/

def memberIds : Finset NodeId := (c.members.map Member.nodeId).toFinset

/-- `failure_domains`. -/
def failureDomain (n : NodeId) : Option String :=
  (c.members.find? fun m => m.nodeId = n).map Member.failureDomain

/-- The number of members a version allows. -/
def membersCounted : Prop :=
  if c.formatVersion = 3 then c.members.length = 5 else c.members ≠ [] ∧ c.members.length ≤ 256
  deriving Decidable

/-- The first guard of `validate`. -/
def checkHeader : Outcome ModelError Unit :=
  reject (¬ (3 ≤ c.formatVersion ∧ c.formatVersion ≤ 7) ∨ c.genesisHash = 0 ∨ c.generation = 0 ∨
    i64Max < c.generation.val ∨ decide (c.generation = 1) ≠ c.parent.isNone ∨
    ¬ c.membersCounted ∨ c.revisions = [] ∨ 4096 < c.revisions.length ∨
    (c.formatVersion = 3 ∧ c.codingGroups = []) ∨ v1MaxCodingGroups < c.codingGroups.length)
    .invalidCheckpoint

/-- The `match` on the version and its extensions. -/
def checkExtensions : Outcome ModelError Unit :=
  match c.authority, c.packingCatalog with
  | none, none => reject (¬ (c.formatVersion = 3 ∨ c.formatVersion = 4)) .invalidCheckpoint
  | some a, none =>
    reject (¬ ((c.formatVersion = 5 ∨ c.formatVersion = 6) ∧ a.usable c.members.length))
      .invalidCheckpoint
  | some a, some catalog =>
    reject (¬ (c.formatVersion = 7 ∧ a.usable c.members.length ∧ Succeeds (catalog.validate C)))
      .invalidCheckpoint
  | none, some _ => fail .invalidCheckpoint

/-- The body of the member loop. -/
def checkMember (previous : Option NodeId) (m : Member) : Outcome ModelError Unit := do
  reject (isSomeAnd previous (fun nodeId => m.nodeId ≤ nodeId) ∨ m.failureDomain = "" ∨
    256 < m.failureDomain.utf8ByteSize ∨ ¬ m.recoveryPublicKey.isContributory C)
    .invalidCheckpoint
  let key ← okOr (C.verifyingKey m.nodeId.bytes) .publicKey
  reject (C.isWeak key) .weakPublicKey

/-! ### Fences and tombstones -/

/-- What the fence loop carries. -/
structure FenceScan where
  previous : Option (NodeId ×ₗ U64)
  latest : AList fun _ : NodeId => U64

/-- The epochs of an owner are numbered from one without a gap. -/
def followsFence (latest : Option U64) (epoch : U64) : Prop :=
  match latest with
  | some previous => previous.checkedSucc = some epoch
  | none => epoch = 1

instance (latest : Option U64) (epoch : U64) : Decidable (followsFence latest epoch) :=
  match latest with
  | some previous => inferInstanceAs (Decidable (previous.checkedSucc = some epoch))
  | none => inferInstanceAs (Decidable (epoch = 1))

/-- The body of the fence loop. -/
def checkFence (scan : FenceScan) (fence : WriterFence) : Outcome ModelError FenceScan := do
  let order : NodeId ×ₗ U64 := toLex (fence.owner, fence.epoch)
  let key ← okOr (C.verifyingKey fence.publicKey) .publicKey
  reject (isSomeAnd scan.previous (fun previous => order ≤ previous) ∨
    (c.formatVersion = 3 ∧ fence.owner ∉ c.memberIds) ∨ fence.epoch = 0 ∨ C.isWeak key)
    .invalidCheckpoint
  reject (¬ followsFence (scan.latest.lookup fence.owner) fence.epoch) .invalidCheckpoint
  pure { previous := some order, latest := scan.latest.insert fence.owner fence.epoch }

/-- `fences`: the key of an owner's writer epoch. -/
def fenceKey (owner : NodeId) (epoch : U64) : Option (Bytes 32) :=
  (c.writerFences.find? fun fence => fence.owner = owner ∧ fence.epoch = epoch).map
    WriterFence.publicKey

/-- The key of the tombstone loop. -/
def tombstoneOrder (t : RevisionTombstone) : NodeId ×ₗ Uuid := toLex (t.owner, t.protectedRootId)

/-- The body of the tombstone loop. -/
def checkTombstone (previous : Option (NodeId ×ₗ Uuid)) (t : RevisionTombstone) :
    Outcome ModelError Unit :=
  reject (isSomeAnd previous (fun order => tombstoneOrder t ≤ order) ∨
    (c.formatVersion = 3 ∧ t.owner ∉ c.memberIds) ∨ t.protectedRootId.isNil ∨
    t.throughSequence = 0 ∨ t.lastRevisionId.isNil ∨ t.lastRevisionHash = 0 ∨
    t.retiredAtGeneration < 2 ∨ c.generation < t.retiredAtGeneration) .invalidCheckpoint

/-- `tombstones`: the tombstone of a chain of revisions. -/
def tombstone (owner : NodeId) (root : Uuid) : Option RevisionTombstone :=
  c.revisionTombstones.find? fun t => t.owner = owner ∧ t.protectedRootId = root

/-! ### Revisions -/

/-- The last revision of a chain. -/
structure RevisionHead where
  sequence : U64
  hash : Bytes 32
  writerEpoch : U64
  deriving DecidableEq, Repr

/-- What the revision loop carries. -/
structure RevisionScan where
  previous : Option (NodeId ×ₗ Uuid ×ₗ U64 ×ₗ Uuid)
  revisionIds : List Uuid
  heads : AList fun _ : NodeId × Uuid => RevisionHead
  scopedSectors : AList fun _ : Bytes 32 => NodeId × Uuid × SectorRef
  sectors : AList fun _ : Bytes 32 => NodeId × SectorRef
  flatRoots : AList fun _ : ObjectKey => Bytes 32
  commitments : AList fun _ : ObjectKey => MerkleCommitment

def RevisionScan.empty : RevisionScan := ⟨none, [], ∅, ∅, ∅, ∅, ∅⟩

/-- The key of the revision loop. -/
def revisionOrder (r : UserRevision) : NodeId ×ₗ Uuid ×ₗ U64 ×ₗ Uuid :=
  toLex (r.owner, toLex (r.protectedRootId, toLex (r.sequence, r.revisionId)))

/-- The version and its optional field. -/
def revisionVersioned (r : UserRevision) : Prop :=
  if r.sectorCommitments = none then r.formatVersion = 3
  else r.formatVersion = 4 ∨ r.formatVersion = 5
  deriving Decidable

/-- The guard of the revision loop that needs nothing but the revision and the last one. -/
def checkRevisionShape (scan : RevisionScan) (revision : SignedRecord UserRevision) :
    Outcome ModelError Unit := do
  let r := revision.value
  reject (isSomeAnd scan.previous (fun previous => revisionOrder r ≤ previous) ∨
    revision.signer ≠ r.owner ∨ (c.formatVersion = 3 ∧ revision.signer ∉ c.memberIds) ∨
    ¬ revisionVersioned r ∨ r.guildId ≠ c.guildId ∨ r.protectedRootId.isNil ∨
    r.cipherProfile ≠ v1CipherProfile ∨ r.sequence = 0 ∨ r.metadataSectors = [] ∨
    r.revisionId ∈ scan.revisionIds) .invalidCheckpoint
  reject (isSomeAnd r.sectorCommitments fun commitments =>
    commitments.length ≠ r.metadataSectors.length + r.dataSectors.length ∨
      ∃ commitment ∈ commitments,
        commitment.byteLen.val ≠ v1SectorSize ∨ ¬ Succeeds commitment.validate)
    .invalidCheckpoint

/-- A revision follows the last one of its chain, or the tombstone, or is the first. -/
def extendsChain (head : Option RevisionHead) (tombstone : Option RevisionTombstone)
    (r : UserRevision) : Prop :=
  match head, tombstone with
  | some head, _ =>
    head.sequence.checkedSucc = some r.sequence ∧ r.parent = some head.hash ∧
      head.writerEpoch ≤ r.writerEpoch
  | none, some t =>
    t.throughSequence.checkedSucc = some r.sequence ∧ r.parent = some t.lastRevisionHash
  | none, none => r.sequence = 1 ∧ r.parent = none

instance (head : Option RevisionHead) (tombstone : Option RevisionTombstone) (r : UserRevision) :
    Decidable (extendsChain head tombstone r) :=
  match head, tombstone with
  | some _, _ => inferInstanceAs (Decidable (_ ∧ _ ∧ _))
  | none, some _ => inferInstanceAs (Decidable (_ ∧ _))
  | none, none => inferInstanceAs (Decidable (_ ∧ _))

/-- `BTreeMap::insert` of a value that must not change one that is there. -/
def insertSame {κ υ : Type} [DecidableEq κ] [DecidableEq υ] (m : AList fun _ : κ => υ) (key : κ)
    (value : υ) : Outcome ModelError (AList fun _ : κ => υ) := do
  reject (isSomeAnd (m.lookup key) fun previous => previous ≠ value) .invalidCheckpoint
  pure (m.insert key value)

/-- The commitment of the sector at an index, when there is one, into the map. -/
def insertCommitment (commitments : AList fun _ : ObjectKey => MerkleCommitment) (key : ObjectKey)
    (commitment : Option MerkleCommitment) :
    Outcome ModelError (AList fun _ : ObjectKey => MerkleCommitment) :=
  match commitment with
  | some commitment => insertSame commitments key commitment
  | none => pure commitments

/-- The body of the loop over the sectors of a revision. -/
def checkSectorRef (r : UserRevision) (scan : RevisionScan) (entry : SectorRef × ℕ) :
    Outcome ModelError RevisionScan := do
  let reference := entry.1
  reject (reference.logicalLen = 0 ∨ v1SectorSize < reference.logicalLen.val) .invalidCheckpoint
  let scopedSectors ←
    insertSame scan.scopedSectors reference.id (r.owner, r.protectedRootId, reference)
  let sectors :=
    if reference.id ∈ scan.sectors then scan.sectors
    else scan.sectors.insert reference.id (r.owner, reference)
  let object : ObjectKey := (r.owner, packingProtectedRoot r.protectedRootId, reference.id)
  let flatRoots ← insertSame scan.flatRoots object reference.root
  let commitment := r.sectorCommitments.bind fun commitments => commitments[entry.2]?
  let commitments ← insertCommitment scan.commitments object commitment
  pure { scan with
    scopedSectors := scopedSectors
    sectors := sectors
    flatRoots := flatRoots
    commitments := commitments }

/-- The body of the revision loop. -/
def checkRevision (scan : RevisionScan) (revision : SignedRecord UserRevision) :
    Outcome ModelError RevisionScan := do
  let r := revision.value
  revision.verify C UserRevision.codec userRevisionDomain
  r.verifyWriter C
  c.checkRevisionShape scan revision
  reject (c.fenceKey r.owner r.writerEpoch ≠ some r.writerPublicKey) .invalidCheckpoint
  let chain := (r.owner, r.protectedRootId)
  reject (¬ extendsChain (scan.heads.lookup chain) (c.tombstone r.owner r.protectedRootId) r)
    .invalidCheckpoint
  let scan ← (r.metadataSectors ++ r.dataSectors).zipIdx.foldlM (checkSectorRef r) scan
  let hash ← r.hash C
  pure { scan with
    previous := some (revisionOrder r)
    revisionIds := r.revisionId :: scan.revisionIds
    heads := scan.heads.insert chain ⟨r.sequence, hash, r.writerEpoch⟩ }

/-- The latest epoch of every fenced owner is in use by the last revision of one of its chains. -/
def fencesInUse (latest : AList fun _ : NodeId => U64) (scan : RevisionScan) : Prop :=
  ∀ fence ∈ latest.entries, ∃ head ∈ scan.heads.entries,
    head.1.1 = fence.1 ∧ head.2.writerEpoch = fence.2
  deriving Decidable

/-! ### The packing catalog -/

/-- `expected`: the sectors the revisions refer to, as objects. -/
def expectedObjects (scan : RevisionScan) : List ObjectKey :=
  scan.scopedSectors.entries.map fun entry =>
    (entry.2.1, packingProtectedRoot entry.2.2.1, entry.1)

/-- The packed length of an object.  An object has fewer than `2 ^ 32` chunks of less than `2 ^ 32`
bytes, so the sum is within `u64`. -/
def packedLength (catalog : PackedCatalog) (object : ObjectKey) : ℕ :=
  ((catalog.sources.filter fun source => source.id.key = object).map fun source =>
    source.logicalLen.val).sum

/-- The catalog packs exactly the sectors of the revisions, each of them whole. -/
def packsExactly (scan : RevisionScan) (catalog : PackedCatalog) : Prop :=
  (∀ source ∈ catalog.sources, source.id.key ∈ expectedObjects scan) ∧
    (∀ object ∈ expectedObjects scan, ∃ source ∈ catalog.sources, source.id.key = object) ∧
    ∀ source ∈ catalog.sources, packedLength catalog source.id.key = v1SectorSize
  deriving Decidable

/-- A legacy record stands for the commitment that a revision lacks: it has the commitment of the
entry and the flat root of the revision. -/
def standsFor (scan : RevisionScan) (entry : PackedSourceAuthentication)
    (commitment : MerkleCommitment) (flatRoot : Bytes 32) : Prop :=
  commitment = entry.sourceCommitment ∧ scan.flatRoots.lookup entry.id.key = some flatRoot
  deriving Decidable

/-- `bindings`, as a map. -/
def bindingMap (bindings : List (SignedRecord LegacyPackingBinding)) :
    AList fun _ : ObjectKey => LegacyPackingBinding :=
  bindings.foldl (fun m binding => m.insert binding.value.key binding.value) ∅

/-- An attested object: the attestation, and who made it. -/
abbrev Attested := LegacyPackingAttestation × List NodeId

/-- The body of the loop over the attestations: members of the current epoch who agree. -/
def checkAttested (authority : CheckpointAuthority) (attested : AList fun _ : ObjectKey => Attested)
    (attestation : SignedRecord LegacyPackingAttestation) :
    Outcome ModelError (AList fun _ : ObjectKey => Attested) := do
  let value := attestation.value
  reject (value.guildId ≠ c.guildId ∨ value.membershipEpoch ≠ authority.membershipEpoch ∨
    attestation.signer ∉ c.memberIds) .invalidCheckpoint
  let entry := (attested.lookup value.key).getD (value, [])
  reject (entry.1 ≠ value ∨ attestation.signer ∈ entry.2) .invalidCheckpoint
  pure (attested.insert value.key (value, attestation.signer :: entry.2))

/-- The legacy evidence that the entries have used. -/
structure UsedEvidence where
  bindings : List ObjectKey
  attestations : List ObjectKey

section

variable (scan : RevisionScan)

/-- The body of the loop over the entries: the commitment of a revision, or else a binding, or else
enough attestations. -/
def checkEntry (bindings : AList fun _ : ObjectKey => LegacyPackingBinding)
    (attested : AList fun _ : ObjectKey => Attested) (required : ℕ) (used : UsedEvidence)
    (entry : PackedSourceAuthentication) : Outcome ModelError UsedEvidence :=
  if scan.commitments.lookup entry.id.key = some entry.sourceCommitment then pure used
  else
    match bindings.lookup entry.id.key, attested.lookup entry.id.key with
    | some binding, _ => do
      reject (¬ standsFor scan entry binding.sourceCommitment binding.flatRoot) .invalidCheckpoint
      pure { used with bindings := used.bindings.insert entry.id.key }
    | none, some (attestation, signers) => do
      reject (¬ standsFor scan entry attestation.sourceCommitment attestation.flatRoot ∨
        signers.length < required) .invalidCheckpoint
      pure { used with attestations := used.attestations.insert entry.id.key }
    | none, none => fail .invalidCheckpoint

/-- The evidence of a catalog of version four or five: every entry is supported, and no legacy
record is there for nothing. -/
def checkEvidence (authentication : List PackedSourceAuthentication)
    (bindings : AList fun _ : ObjectKey => LegacyPackingBinding)
    (attested : AList fun _ : ObjectKey => Attested) (required : ℕ) : Outcome ModelError Unit := do
  let used ← authentication.foldlM (checkEntry scan bindings attested required) ⟨[], []⟩
  reject (used.bindings.length ≠ bindings.keys.length ∨
    used.attestations.length ≠ attested.keys.length) .invalidCheckpoint

/-- The `match` on the version of the catalog. -/
def checkCatalogVersion (catalog : PackedCatalog) : Outcome ModelError Unit :=
  match catalog.sourceAuthentication with
  | none => reject (catalog.formatVersion ≠ 1) .invalidCheckpoint
  | some authentication =>
    if catalog.formatVersion = 2 ∨ catalog.formatVersion = 3 then
      reject (∃ entry ∈ authentication,
        scan.commitments.lookup entry.id.key ≠ some entry.sourceCommitment) .invalidCheckpoint
    else if catalog.formatVersion = 4 then do
      let bindings ← okOr catalog.legacyBindings .invalidCheckpoint
      checkEvidence scan authentication (bindingMap bindings) ∅ 0
    else if catalog.formatVersion = 5 then do
      let bindings ← okOr catalog.legacyBindings .invalidCheckpoint
      let authority ← okOr c.authority .invalidCheckpoint
      let required ← mapErr (fun _ => .invalidCheckpoint)
        (authority.quorum.required c.members.length)
      let attestations ← okOr catalog.legacyAttestations .invalidCheckpoint
      let attested ← attestations.foldlM (c.checkAttested authority) ∅
      checkEvidence scan authentication (bindingMap bindings) attested required
    else fail .invalidCheckpoint

/-- The part of `validate` about the packing catalog. -/
def checkCatalog : Outcome ModelError Unit :=
  match c.packingCatalog with
  | none => pure ()
  | some catalog => do
    reject (¬ packsExactly scan catalog) .invalidCheckpoint
    c.checkCatalogVersion scan catalog

end

/-! ### Coding groups -/

/-- What the group loop carries. -/
structure GroupScan where
  previous : Option (Bytes 32)
  informationIds : List (Bytes 32)
  covered : List (Bytes 32)

/-- What the loop over the roles of a group carries. -/
structure RoleScan where
  usedDomains : List String
  coveredInGroup : ℕ
  informationIds : List (Bytes 32)
  covered : List (Bytes 32)

/-- An information role enters its sector, and covers it when a revision refers to it. -/
def coverSector (scan : RevisionScan) (state : RoleScan) (role : InformationRole) :
    Outcome ModelError RoleScan := do
  reject (role.sector.id ∈ state.informationIds) .invalidCheckpoint
  let state := { state with informationIds := role.sector.id :: state.informationIds }
  match scan.sectors.lookup role.sector.id with
  | some (owner, reference) => do
    reject (owner ≠ role.owner ∨ reference ≠ role.sector ∨ role.sector.id ∈ state.covered)
      .invalidCheckpoint
    pure { state with
      covered := role.sector.id :: state.covered
      coveredInGroup := state.coveredInGroup + 1 }
  | none => pure state

/-- The node that a role is placed on. -/
def roleNode : ShardRole → NodeId
  | .information role => role.owner
  | .parity role => role.holder

section

variable (scan : RevisionScan)

/-- The `match` on a role. -/
def enterRole (state : RoleScan) : ShardRole → Outcome ModelError RoleScan
  | .information role => coverSector scan state role
  | .parity _ => pure state

/-- The body of the loop over the roles of a group. -/
def checkRole (state : RoleScan) (entry : ShardRole × ℕ) : Outcome ModelError RoleScan := do
  reject (¬ entry.1.placed entry.2) .invalidCheckpoint
  let state ← enterRole scan state entry.1
  let domain ← okOr (c.failureDomain (roleNode entry.1)) .invalidCheckpoint
  reject (domain ∈ state.usedDomains) (.reusedFailureDomain domain)
  pure { state with usedDomains := domain :: state.usedDomains }

/-- `validate_group`. -/
def validateGroup (state : GroupScan) (group : CodingGroup) : Outcome ModelError GroupScan := do
  group.validateProfile C
  reject (group.guildId ≠ c.guildId) .invalidCheckpoint
  let roles ← group.roles.toList.zipIdx.foldlM (c.checkRole scan)
    ⟨[], 0, state.informationIds, state.covered⟩
  reject (roles.coveredInGroup = 0) .invalidCheckpoint
  pure
    { previous := some group.id
      informationIds := roles.informationIds
      covered := roles.covered }

/-- The body of the group loop. -/
def checkGroup (state : GroupScan) (group : CodingGroup) : Outcome ModelError GroupScan := do
  reject (isSomeAnd state.previous fun previous => group.id ≤ previous) .invalidCheckpoint
  c.validateGroup C scan state group

/-- The part of `validate` about the coding groups; version three asks them to cover every
sector. -/
def checkGroups : Outcome ModelError Unit := do
  let groups ← c.codingGroups.foldlM (c.checkGroup C scan) ⟨none, [], []⟩
  reject (c.formatVersion = 3 ∧ (groups.covered.length ≠ scan.sectors.keys.length ∨
    ¬ scan.sectors.keys.all fun id => id ∈ groups.covered)) .invalidCheckpoint

end

/-! ### The whole -/

/-- `GuildCheckpoint::validate`. -/
def validate : Outcome ModelError Unit := do
  c.checkHeader
  c.checkExtensions C
  scanFrom Member.nodeId (checkMember C) none c.members
  let fences ← c.writerFences.foldlM (c.checkFence C) ⟨none, ∅⟩
  scanFrom tombstoneOrder c.checkTombstone none c.revisionTombstones
  let scan ← c.revisions.foldlM (c.checkRevision C) .empty
  reject (¬ fencesInUse fences.latest scan) .invalidCheckpoint
  reject (∃ t ∈ c.revisionTombstones, (t.owner, t.protectedRootId) ∉ scan.heads) .invalidCheckpoint
  c.checkCatalog scan
  c.checkGroups C scan

/-- `GuildCheckpoint::hash`. -/
def hash : Outcome ModelError (Bytes 32) := do
  let bytes ← canonicalBytes codec c
  pure (C.blake3 bytes)

end GuildCheckpoint

/-! ## Certificates -/

def guildCheckpointDomain : String := "mutualbackup/guild-checkpoint/v1"

/-- The keys of a node, as far as checkpoints need them. -/
structure KeyMaterial where
  nodeId : NodeId
  recoveryPublicKey : RecoveryPublicKey
  /-- The Ed25519 signature of a signing payload. -/
  sign : List UInt8 → List UInt8

/-- `GuildCheckpoint::member_signature`. -/
def GuildCheckpoint.memberSignature (c : GuildCheckpoint) (keys : KeyMaterial) :
    Outcome ModelError MemberSignature := do
  reject (keys.nodeId ∉ c.memberIds) (.nonMemberSigner keys.nodeId)
  c.validate C
  let bytes ← canonicalBytes GuildCheckpoint.codec c
  pure
    { signer := keys.nodeId
      signature := keys.sign (signingPayload guildCheckpointDomain bytes) }

/-- The body of the signature loops of the two certificates: members in strictly increasing order,
over the encoded record under its domain. -/
def checkMemberSignature (members : Finset NodeId) (domain : String) (e : ModelError)
    (encoded : List UInt8) (previous : Option NodeId) (signature : MemberSignature) :
    Outcome ModelError Unit := do
  reject (signature.signer ∉ members ∨ isSomeAnd previous fun signer => signature.signer ≤ signer) e
  verifyUnder C domain signature.signer.bytes signature.signature (.ok encoded)

namespace QuorumCheckpoint

variable (q : QuorumCheckpoint)

/-- The signatures that certify the checkpoint: those of all members before there was an
authority. -/
def required : Outcome ModelError ℕ :=
  match q.checkpoint.authority with
  | some authority =>
    if 5 ≤ q.checkpoint.formatVersion ∧ q.checkpoint.formatVersion ≤ 7 then
      mapErr (fun _ => .invalidCheckpoint)
        (authority.quorum.required q.checkpoint.memberIds.card)
    else pure q.checkpoint.members.length
  | none => pure q.checkpoint.members.length

/-- `QuorumCheckpoint::verify`.  Every iteration counts one valid signer, so the count is the
length. -/
def verify : Outcome ModelError Unit := do
  q.checkpoint.validate C
  let encoded ← canonicalBytes GuildCheckpoint.codec q.checkpoint
  scanFrom MemberSignature.signer
    (checkMemberSignature C q.checkpoint.memberIds guildCheckpointDomain .invalidCheckpoint encoded)
    none q.signatures
  let required ← q.required
  reject (q.signatures.length < required) (.insufficientQuorum q.signatures.length required)

/-- `QuorumCheckpoint::hash`. -/
def hash : Outcome ModelError (Bytes 32) := q.checkpoint.hash C

end QuorumCheckpoint

/-! ## Genesis -/

/-- The body of the loop of `validate_members`, with the failure domains already used. -/
def validateMembersFrom : Option NodeId → List String → List Member → Outcome ModelError Unit
  | _, _, [] => .ok ()
  | previous, domains, m :: members => do
    reject (isSomeAnd previous (fun nodeId => m.nodeId ≤ nodeId) ∨ m.failureDomain ∈ domains ∨
      m.failureDomain = "" ∨ 256 < m.failureDomain.utf8ByteSize ∨
      ¬ m.recoveryPublicKey.isContributory C) .invalidGenesis
    let key ← okOr (C.verifyingKey m.nodeId.bytes) .publicKey
    reject (C.isWeak key) .weakPublicKey
    validateMembersFrom (some m.nodeId) (m.failureDomain :: domains) members

/-- `GuildGenesis::validate`. -/
def GuildGenesis.validate (g : GuildGenesis) : Outcome ModelError Unit := do
  reject (g.formatVersion ≠ 1 ∨ g.guildId = 0 ∨ g.members.length ≠ 5 ∨
    ∀ m ∈ g.members, m.nodeId ≠ g.coordinator) .invalidGenesis
  mapErr (fun _ => .invalidGenesis) (validateMembersFrom C none [] g.members)

/-- `GuildGenesis::hash`. -/
def GuildGenesis.hash (g : GuildGenesis) : Outcome ModelError (Bytes 32) := do
  g.validate C
  let bytes ← canonicalBytes GuildGenesis.codec g
  pure (C.deriveKey "mutualbackup guild genesis v1" bytes)

def guildGenesisDomain : String := "mutualbackup/guild-genesis/v1"

/-- `QuorumGuildGenesis::verify`: every member signs the founding. -/
def QuorumGuildGenesis.verify (q : QuorumGuildGenesis) : Outcome ModelError Unit := do
  q.genesis.validate C
  let encoded ← canonicalBytes GuildGenesis.codec q.genesis
  let members := (q.genesis.members.map Member.nodeId).toFinset
  scanFrom MemberSignature.signer
    (checkMemberSignature C members guildGenesisDomain .invalidGenesis encoded) none q.signatures
  reject (q.signatures.length ≠ members.card)
    (.insufficientQuorum q.signatures.length members.card)

end Validate

end MutualBackup
