import MutualBackup.Core.Merkle
import MutualBackup.Core.Revision

/-!
# Packed catalogs

The catalog of `packing.rs`: sectors cut into slots, every slot empty or holding one chunk of a
source object, with the evidence that a slot holds what its source committed to.  A catalog names
its place in a chain by its revision and the identifier of the catalog before, and its identifier
covers all its fields.

Versions differ in the evidence they carry, and both the encoding and the identifier exist only for
the combinations that a version has (`idDomain`).  The sets and maps that validation fills
are used for membership and lookup alone, so they are lists here.
-/

namespace MutualBackup

open Framework Codec

/-! ## Records -/

structure PackingProfile where
  formatVersion : U16
  sectorSize : U32
  slotSize : U32
  deriving DecidableEq, Repr

structure SourceChunkId where
  owner : NodeId
  protectedRoot : Bytes 32
  objectId : Bytes 32
  chunkIndex : U32
  deriving DecidableEq, Repr

structure PackedSourceChunk where
  id : SourceChunkId
  sourceOffset : U64
  logicalLen : U32
  contentHash : Bytes 32
  deriving DecidableEq, Repr

inductive PackedSlot where
  | data (source : PackedSourceChunk)
  /-- A zero chunk keeps its source; an empty slot has none. -/
  | virtualZero (source : Option PackedSourceChunk)
  deriving DecidableEq, Repr

structure PackedSectorDescriptor where
  id : Bytes 32
  sectorIndex : U32
  flatRoot : Bytes 32
  commitment : MerkleCommitment
  slots : List PackedSlot
  deriving DecidableEq, Repr

structure PackedSourceAuthentication where
  id : SourceChunkId
  sourceCommitment : MerkleCommitment
  proof : MerkleSubtreeProof
  deriving DecidableEq, Repr

structure LegacyPackingBinding where
  formatVersion : U16
  owner : NodeId
  protectedRoot : Bytes 32
  objectId : Bytes 32
  flatRoot : Bytes 32
  sourceCommitment : MerkleCommitment
  deriving DecidableEq, Repr

structure LegacyPackingAttestation where
  formatVersion : U16
  guildId : Bytes 32
  membershipEpoch : U64
  owner : NodeId
  protectedRoot : Bytes 32
  objectId : Bytes 32
  flatRoot : Bytes 32
  sourceCommitment : MerkleCommitment
  deriving DecidableEq, Repr

structure PackedCatalog where
  id : Bytes 32
  formatVersion : U16
  revision : U64
  parent : Option (Bytes 32)
  profile : PackingProfile
  sectors : List PackedSectorDescriptor
  sourceAuthentication : Option (List PackedSourceAuthentication)
  legacyBindings : Option (List (SignedRecord LegacyPackingBinding))
  legacyAttestations : Option (List (SignedRecord LegacyPackingAttestation))
  deriving DecidableEq, Repr

inductive PackingError where
  | invalidProfile
  | invalidInput
  | invalidCatalog
  | profileChanged
  | tooManyChunks
  | missingObject
  | model (e : ModelError)
  deriving DecidableEq, Repr

/-- An object of an owner's protected root, the key of the maps over sources. -/
abbrev ObjectKey := NodeId × Bytes 32 × Bytes 32

instance lawfulBEq_objectKey : LawfulBEq ObjectKey := inferInstance

def SourceChunkId.key (id : SourceChunkId) : ObjectKey := (id.owner, id.protectedRoot, id.objectId)

def LegacyPackingBinding.key (b : LegacyPackingBinding) : ObjectKey :=
  (b.owner, b.protectedRoot, b.objectId)

def LegacyPackingAttestation.key (a : LegacyPackingAttestation) : ObjectKey :=
  (a.owner, a.protectedRoot, a.objectId)

/-- `PackedSlot::source`. -/
def PackedSlot.source : PackedSlot → Option PackedSourceChunk
  | .data source => some source
  | .virtualZero source => source

/-- `packing_protected_root`: the sixteen bytes of the identifier and sixteen zeros. -/
def packingProtectedRoot (rootId : Uuid) : Bytes 32 := ⟨rootId.bytes.val * 256 ^ 16, by
    have h : rootId.bytes.val < 256 ^ 16 := rootId.bytes.isLt
    have hpow : (256 : ℕ) ^ 32 = 256 ^ 16 * 256 ^ 16 := by norm_num
    rw [hpow]
    exact Nat.mul_lt_mul_of_pos_right h (by norm_num)⟩

/-! ## Codecs -/

def PackingProfile.codec : Codec PackingProfile := (pair u16 <| pair u32 u32).iso
    (fun p => (p.formatVersion, p.sectorSize, p.slotSize)) (fun p => ⟨p.1, p.2.1, p.2.2⟩)
    fun _ => rfl

def SourceChunkId.codec : Codec SourceChunkId :=
  (pair NodeId.codec <| pair (bytes 32) <| pair (bytes 32)
    u32).iso
    (fun i => (i.owner, i.protectedRoot, i.objectId, i.chunkIndex))
    (fun p => ⟨p.1, p.2.1, p.2.2.1, p.2.2.2⟩) fun _ => rfl

def PackedSourceChunk.codec : Codec PackedSourceChunk :=
  (pair SourceChunkId.codec <| pair u64 <| pair u32
    (bytes 32)).iso
    (fun c => (c.id, c.sourceOffset, c.logicalLen, c.contentHash))
    (fun p => ⟨p.1, p.2.1, p.2.2.1, p.2.2.2⟩) fun _ => rfl

def PackedSlot.codec : Codec PackedSlot := enum
    [{ codec := PackedSourceChunk.codec, make := .data,
       match? := fun | .data source => some source | _ => none },
     { codec := option PackedSourceChunk.codec, make := .virtualZero,
       match? := fun | .virtualZero source => some source | _ => none }] (by decide)

/-- The slots of the largest sector in the smallest slots. -/
def maxPackedSlots : ℕ := maxProfileShardSize / merkleLeafSize

def PackedSectorDescriptor.codec : Codec PackedSectorDescriptor :=
  (pair (bytes 32) <| pair u32 <| pair (bytes 32) <| pair MerkleCommitment.codec <|
      (list PackedSlot.codec).bounded fun slots => slots.length ≤ maxPackedSlots).iso
    (fun d => (d.id, d.sectorIndex, d.flatRoot, d.commitment, d.slots))
    (fun p => ⟨p.1, p.2.1, p.2.2.1, p.2.2.2.1, p.2.2.2.2⟩) fun _ => rfl

def PackedSourceAuthentication.codec : Codec PackedSourceAuthentication :=
  (pair SourceChunkId.codec <| pair MerkleCommitment.codec
    MerkleSubtreeProof.codec).iso
    (fun a => (a.id, a.sourceCommitment, a.proof)) (fun p => ⟨p.1, p.2.1, p.2.2⟩) fun _ => rfl

def LegacyPackingBinding.codec : Codec LegacyPackingBinding :=
  (pair u16 <| pair NodeId.codec <| pair (bytes 32) <|
    pair (bytes 32) <| pair (bytes 32) MerkleCommitment.codec).iso
    (fun b => (b.formatVersion, b.owner, b.protectedRoot, b.objectId, b.flatRoot,
      b.sourceCommitment))
    (fun p => ⟨p.1, p.2.1, p.2.2.1, p.2.2.2.1, p.2.2.2.2.1, p.2.2.2.2.2⟩) fun _ => rfl

def LegacyPackingAttestation.codec : Codec LegacyPackingAttestation :=
  (pair u16 <| pair (bytes 32) <| pair u64 <|
    pair NodeId.codec <| pair (bytes 32) <| pair (bytes 32) <|
    pair (bytes 32) MerkleCommitment.codec).iso
    (fun a => (a.formatVersion, a.guildId, a.membershipEpoch, a.owner, a.protectedRoot, a.objectId,
      a.flatRoot, a.sourceCommitment))
    (fun ⟨version, guildId, epoch, owner, root, object, flatRoot, commitment⟩ =>
      ⟨version, guildId, epoch, owner, root, object, flatRoot, commitment⟩) fun _ => rfl

section

variable (version : U16)

/-- The field of `source_authentication`, by version. -/
def sourceAuthenticationCodec : Codec (Option (List PackedSourceAuthentication)) :=
  if version = 1 then const none
  else if version = 2 ∨ version = 3 ∨ version = 4 ∨ version = 5 then
    present (list PackedSourceAuthentication.codec)
  else never

/-- The field of `legacy_bindings`, by version. -/
def legacyBindingsCodec : Codec (Option (List (SignedRecord LegacyPackingBinding))) :=
  if version = 4 ∨ version = 5 then
    present (list (SignedRecord.codec LegacyPackingBinding.codec))
  else const none

/-- The field of `legacy_attestations`, by version. -/
def legacyAttestationsCodec : Codec (Option (List (SignedRecord LegacyPackingAttestation))) :=
  if version = 5 then
    present (list (SignedRecord.codec LegacyPackingAttestation.codec))
  else const none

end

/-- Everything but the identifier, which is what the identifier covers. -/
def PackedCatalog.bodyCodec : Codec (U16 × U64 × Option (Bytes 32) × PackingProfile ×
    List PackedSectorDescriptor × Option (List PackedSourceAuthentication) ×
    Option (List (SignedRecord LegacyPackingBinding)) ×
    Option (List (SignedRecord LegacyPackingAttestation))) :=
  dep u16 fun version =>
    pair u64 <| pair (option (bytes 32)) <|
    pair PackingProfile.codec <| pair (list PackedSectorDescriptor.codec) <|
    pair (sourceAuthenticationCodec version) <| pair (legacyBindingsCodec version)
      (legacyAttestationsCodec version)

/-- The fields that the identifier covers. -/
def PackedCatalog.body (c : PackedCatalog) : U16 × U64 × Option (Bytes 32) × PackingProfile ×
    List PackedSectorDescriptor × Option (List PackedSourceAuthentication) ×
    Option (List (SignedRecord LegacyPackingBinding)) ×
    Option (List (SignedRecord LegacyPackingAttestation)) :=
  (c.formatVersion, c.revision, c.parent, c.profile, c.sectors, c.sourceAuthentication,
    c.legacyBindings, c.legacyAttestations)

def PackedCatalog.codec : Codec PackedCatalog := (pair (bytes 32) PackedCatalog.bodyCodec).iso
    (fun c => (c.id, c.body))
    (fun ⟨id, version, revision, parent, profile, sectors, authentication, bindings,
        attestations⟩ =>
      ⟨id, version, revision, parent, profile, sectors, authentication, bindings, attestations⟩)
    fun _ => rfl

/-! ## Validation -/

/-- `PackingProfile::validate`. -/
def PackingProfile.validate (p : PackingProfile) : Outcome PackingError Unit :=
  reject (p.formatVersion ≠ 1 ∨ p.sectorSize.val < merkleLeafSize ∨
    maxProfileShardSize < p.sectorSize.val ∨ ¬ isPowerOfTwo p.sectorSize.val ∨
    p.slotSize.val < merkleLeafSize ∨ p.sectorSize < p.slotSize ∨ ¬ isPowerOfTwo p.slotSize.val ∨
    p.sectorSize.val % p.slotSize.val ≠ 0) .invalidProfile

/-- `PackingProfile::slots_per_sector`. -/
def PackingProfile.slotsPerSector (p : PackingProfile) : Outcome PackingError ℕ := do
  p.validate
  pure (p.sectorSize.val / p.slotSize.val)

section Validate

variable (C : Crypto)

def legacyPackingBindingDomain : String := "mutualbackup/legacy-packing-binding/v1"

def legacyPackingAttestationDomain : String := "mutualbackup/legacy-packing-attestation/v1"

/-- `PackedSectorDescriptor::calculate_id`: the hasher is fed the header, the number of slots and
the slots, which is the encoding of the tuple with the vector. -/
def PackedSectorDescriptor.calculateId (profile : PackingProfile) (d : PackedSectorDescriptor) :
    Outcome PackingError (Bytes 32) := do
  let bytes ← mapErr .model <| canonicalBytes
    (pair PackingProfile.codec <| pair u32 <| pair (Codec.bytes 32) <|
      pair MerkleCommitment.codec (list PackedSlot.codec))
    (profile, d.sectorIndex, d.flatRoot, d.commitment, d.slots)
  pure (C.deriveKey "mutualbackup packed sector v1" bytes)

namespace PackedCatalog

section

variable (c : PackedCatalog)

/-- The fields are those of the version, and this is the domain of its identifier. -/
def idDomain : Option String :=
  match c.sourceAuthentication, c.legacyBindings, c.legacyAttestations with
  | none, none, none => if c.formatVersion = 1 then some "mutualbackup packed catalog v1" else none
  | some _, none, none =>
    if c.formatVersion = 2 then some "mutualbackup packed catalog v2"
    else if c.formatVersion = 3 then some "mutualbackup packed catalog v3"
    else none
  | some _, some _, none =>
    if c.formatVersion = 4 then some "mutualbackup packed catalog v4" else none
  | some _, some _, some _ =>
    if c.formatVersion = 5 then some "mutualbackup packed catalog v5" else none
  | _, _, _ => none

/-- `PackedCatalog::calculate_id`. -/
def calculateId : Outcome PackingError (Bytes 32) := do
  let domain ← okOr c.idDomain .invalidCatalog
  let bytes ← mapErr .model (canonicalBytes bodyCodec c.body)
  pure (C.deriveKey domain bytes)

/-- The source chunks of a catalog in the order of its slots. -/
def sources : List PackedSourceChunk :=
  c.sectors.flatMap fun sector => sector.slots.filterMap PackedSlot.source

end

/-- The body of the loop over the slots, for a slot with a source. -/
def checkSource (profile : PackingProfile) (sourceIds : List SourceChunkId)
    (source : PackedSourceChunk) : Outcome PackingError (List SourceChunkId) := do
  reject (source.id.owner = ⟨0⟩ ∨ source.id.protectedRoot = 0 ∨ source.id.objectId = 0 ∨
    source.logicalLen = 0 ∨ profile.slotSize < source.logicalLen ∨
    source.sourceOffset.val ≠ source.id.chunkIndex.val * profile.slotSize.val ∨
    source.id ∈ sourceIds) .invalidCatalog
  pure (source.id :: sourceIds)

/-- The body of the loop over the sectors. -/
def checkSector (c : PackedCatalog) (expectedSlots : ℕ) (sourceIds : List SourceChunkId)
    (entry : PackedSectorDescriptor × ℕ) : Outcome PackingError (List SourceChunkId) := do
  let sector := entry.1
  reject (sector.sectorIndex.val ≠ entry.2 % 2 ^ 32 ∨ sector.slots.length ≠ expectedSlots ∨
    sector.flatRoot = 0 ∨ sector.commitment.byteLen ≠ c.profile.sectorSize ∨
    (3 ≤ c.formatVersion ∧ sector.flatRoot ≠ sector.commitment.root)) .invalidCatalog
  let id ← sector.calculateId C c.profile
  reject (id ≠ sector.id) .invalidCatalog
  (sector.slots.filterMap PackedSlot.source).foldlM (checkSource c.profile) sourceIds

/-- The chunks of an object are numbered from zero without a gap. -/
def ChunksContiguous (sourceIds : List SourceChunkId) (object : ObjectKey) : Prop :=
  let chunks := (sourceIds.filter fun id => id.key = object).map SourceChunkId.chunkIndex
  ∀ entry ∈ (chunks.insertionSort (· ≤ ·)).zipIdx, entry.1.val = entry.2 % 2 ^ 32
  deriving Decidable

/-! ### Evidence -/

/-- The body of the loop over the entries of `validate_source_authentication`. -/
def checkAuthentication (profile : PackingProfile) (proofs : List PackedSourceAuthentication)
    (entry : PackedSourceAuthentication) :
    Outcome PackingError (List PackedSourceAuthentication) := do
  let leafCount := profile.slotSize.val / merkleLeafSize
  reject (entry.sourceCommitment.byteLen ≠ profile.sectorSize ∨
    2 ^ 32 ≤ entry.id.chunkIndex.val * leafCount ∨
    entry.proof.startLeaf.val ≠ entry.id.chunkIndex.val * leafCount ∨
    entry.proof.leafCount.val ≠ leafCount ∨
    ¬ Succeeds (merkleVerifySubtree C entry.sourceCommitment entry.proof) ∨
    ∃ proof ∈ proofs, proof.id = entry.id) .invalidCatalog
  pure (entry :: proofs)

/-- The root of a slot: what its source proved, or zeros. -/
def slotRoot (profile : PackingProfile) (proofs : List PackedSourceAuthentication)
    (zeroRoot : Bytes 32) : PackedSlot → Outcome PackingError (Bytes 32)
  | .virtualZero none => pure zeroRoot
  | .virtualZero (some source) => do
    let proof := proofs.find? fun proof => proof.id = source.id
    reject (source.logicalLen ≠ profile.slotSize ∨
      proof.map (fun entry => entry.proof.subtreeRoot) ≠ some zeroRoot) .invalidCatalog
    pure zeroRoot
  | .data source => do
    reject (source.logicalLen ≠ profile.slotSize) .invalidCatalog
    let proof ← okOr (proofs.find? fun proof => proof.id = source.id) .invalidCatalog
    pure proof.proof.subtreeRoot

/-- `validate_source_authentication`: exactly the sources are proved, and the proofs recompose every
sector. -/
def validateSourceAuthentication (c : PackedCatalog) (sourceIds : List SourceChunkId) :
    Outcome PackingError Unit := do
  let authentication ← okOr c.sourceAuthentication .invalidCatalog
  let proofs ← authentication.foldlM (checkAuthentication C c.profile) []
  reject ((∃ proof ∈ proofs, proof.id ∉ sourceIds) ∨
    ∃ id ∈ sourceIds, ∀ proof ∈ proofs, proof.id ≠ id) .invalidCatalog
  let leafCount := Fin.ofNat (2 ^ 32) (c.profile.slotSize.val / merkleLeafSize)
  let zero ← mapErr (fun _ => .invalidCatalog)
    (merkleOpenSubtree C (List.replicate c.profile.slotSize.val 0) 0 leafCount)
  forEach (fun descriptor => do
    let roots ← descriptor.slots.mapM (slotRoot c.profile proofs zero.subtreeRoot)
    let commitment ← mapErr (fun _ => .invalidCatalog)
      (merkleCommitSubtrees C c.profile.sectorSize c.profile.slotSize roots)
    reject (commitment ≠ descriptor.commitment) .invalidCatalog) c.sectors

/-- An entry of the evidence commits the object as `commitment` does. -/
def Authenticates (authentication : List PackedSourceAuthentication) (object : ObjectKey)
    (commitment : MerkleCommitment) : Prop :=
  ∃ entry ∈ authentication, entry.id.key = object ∧ entry.sourceCommitment = commitment
  deriving Decidable

/-- The body of the loop of `validate_legacy_bindings`. -/
def checkLegacyBinding (profile : PackingProfile)
    (authentication : List PackedSourceAuthentication) (seen : List ObjectKey)
    (binding : SignedRecord LegacyPackingBinding) : Outcome PackingError (List ObjectKey) := do
  mapErr (fun _ => .invalidCatalog)
    (binding.verify C LegacyPackingBinding.codec legacyPackingBindingDomain)
  let value := binding.value
  reject (value.formatVersion ≠ 1 ∨ binding.signer ≠ value.owner ∨ value.owner = ⟨0⟩ ∨
    value.protectedRoot = 0 ∨ value.objectId = 0 ∨ value.flatRoot = 0 ∨
    value.sourceCommitment.byteLen ≠ profile.sectorSize ∨
    ¬ Succeeds value.sourceCommitment.validate ∨
    ¬ Authenticates authentication value.key value.sourceCommitment ∨ value.key ∈ seen)
    .invalidCatalog
  pure (value.key :: seen)

/-- `validate_legacy_bindings`. -/
def validateLegacyBindings (c : PackedCatalog) : Outcome PackingError Unit := do
  let bindings ← okOr c.legacyBindings .invalidCatalog
  reject (bindings = [] ∧ c.formatVersion = 4) .invalidCatalog
  let authentication ← okOr c.sourceAuthentication .invalidCatalog
  let _ ← bindings.foldlM (checkLegacyBinding C c.profile authentication) []
  pure ()

/-- The body of the loop of `validate_legacy_attestations`. -/
def checkLegacyAttestation (profile : PackingProfile)
    (authentication : List PackedSourceAuthentication) (seen : List (ObjectKey × NodeId))
    (attestation : SignedRecord LegacyPackingAttestation) :
    Outcome PackingError (List (ObjectKey × NodeId)) := do
  mapErr (fun _ => .invalidCatalog)
    (attestation.verify C LegacyPackingAttestation.codec legacyPackingAttestationDomain)
  let value := attestation.value
  reject (value.formatVersion ≠ 1 ∨ value.guildId = 0 ∨ value.membershipEpoch = 0 ∨
    value.owner = ⟨0⟩ ∨ value.protectedRoot = 0 ∨ value.objectId = 0 ∨ value.flatRoot = 0 ∨
    value.sourceCommitment.byteLen ≠ profile.sectorSize ∨
    ¬ Succeeds value.sourceCommitment.validate ∨
    ¬ Authenticates authentication value.key value.sourceCommitment ∨
    (value.key, attestation.signer) ∈ seen) .invalidCatalog
  pure ((value.key, attestation.signer) :: seen)

variable (c : PackedCatalog)

/-- `validate_legacy_attestations`. -/
def validateLegacyAttestations : Outcome PackingError Unit := do
  let attestations ← okOr c.legacyAttestations .invalidCatalog
  reject (attestations = []) .invalidCatalog
  let authentication ← okOr c.sourceAuthentication .invalidCatalog
  let _ ← attestations.foldlM (checkLegacyAttestation C c.profile authentication) []
  pure ()

/-- The evidence that the version asks for. -/
def validateEvidence (sourceIds : List SourceChunkId) : Outcome PackingError Unit := do
  if 2 ≤ c.formatVersion ∧ c.formatVersion ≤ 5 then c.validateSourceAuthentication C sourceIds
  if c.formatVersion = 4 ∨ c.formatVersion = 5 then c.validateLegacyBindings C
  if c.formatVersion = 5 then c.validateLegacyAttestations C

/-- `PackedCatalog::validate`. -/
def validate : Outcome PackingError Unit := do
  c.profile.validate
  reject (c.idDomain = none ∨ c.revision = 0 ∨ decide (c.revision = 1) ≠ c.parent.isNone)
    .invalidCatalog
  let id ← c.calculateId C
  reject (id ≠ c.id) .invalidCatalog
  let expectedSlots ← c.profile.slotsPerSector
  let sourceIds ← c.sectors.zipIdx.foldlM (c.checkSector C expectedSlots) []
  reject (isSomeAnd c.sectors.getLast? fun sector =>
    ∀ slot ∈ sector.slots, slot.source = none) .invalidCatalog
  reject (∃ id ∈ sourceIds, ¬ ChunksContiguous sourceIds id.key) .invalidCatalog
  c.validateEvidence C sourceIds

end PackedCatalog

end Validate

end MutualBackup
