import MutualBackup.Framework.Chunks
import MutualBackup.Packing.Allocator

/-!
# The packers

`pack_incremental` packs the objects of several owners into sectors, given all their bytes;
`pack_incremental_authenticated` makes the next catalog of a chain from the bytes of new objects
alone, and asks for the bytes of the sectors that it has to change.  Both keep the slots of the
chunks that were there before.  `unpack_object` reads an object back.

A sector's buffer is written in place in the source, one slot after another, so here it is the
concatenation of the bytes of its slots.  The byte counters of the metrics are natural numbers.
A callback may keep a state between its calls, and so it is a function of the calls before.
-/

namespace MutualBackup

open Framework

def maxPackedChunks : ℕ := 1000000

/-! ## Records -/

structure PackingInput where
  owner : NodeId
  protectedRoot : Bytes 32
  objectId : Bytes 32
  bytes : List UInt8
  sourceCommitment : Option MerkleCommitment
  deriving DecidableEq, Repr

def PackingInput.key (input : PackingInput) : ObjectKey :=
  (input.owner, input.protectedRoot, input.objectId)

structure AuthenticatedPackingSource where
  owner : NodeId
  protectedRoot : Bytes 32
  objectId : Bytes 32
  sourceCommitment : MerkleCommitment
  deriving DecidableEq, Repr

def AuthenticatedPackingSource.key (source : AuthenticatedPackingSource) : ObjectKey :=
  (source.owner, source.protectedRoot, source.objectId)

structure InputChunk where
  source : PackedSourceChunk
  authentication : Option PackedSourceAuthentication
  bytes : List UInt8
  virtualZero : Bool
  deriving DecidableEq, Repr

structure PackedSector where
  descriptor : PackedSectorDescriptor
  bytes : List UInt8
  deriving DecidableEq, Repr

structure PackingMetrics where
  logicalBytes : ℕ
  sourceUploadBytes : ℕ
  packedSectorBytes : ℕ
  virtualZeroBytes : ℕ
  reusedSlots : ℕ
  changedSectors : ℕ
  peakMaterializedBytes : ℕ
  deriving DecidableEq, Repr

structure PackingResult where
  catalog : PackedCatalog
  sectors : List PackedSector
  metrics : PackingMetrics
  deriving DecidableEq, Repr

structure PackingUpdate where
  catalog : PackedCatalog
  changedSectors : List PackedSector
  metrics : PackingMetrics
  deriving DecidableEq, Repr

/-! ## Chunks of the inputs -/

/-- The chunk of an object at an index. -/
def chunkId (object : ObjectKey) (index : U32) : SourceChunkId :=
  ⟨object.1, object.2.1, object.2.2, index⟩

/-- The leaves of a slot. -/
def PackingProfile.slotLeaves (profile : PackingProfile) : ℕ :=
  profile.slotSize.val / merkleLeafSize

section Pack

variable (C : Crypto) (profile : PackingProfile)

section

variable (input : PackingInput)

/-- The evidence of a chunk of an input with a commitment. -/
def openChunk (index : U32) : Outcome PackingError (Option PackedSourceAuthentication) :=
  match input.sourceCommitment with
  | none => pure none
  | some commitment => do
    let proof ← mapErr (fun _ => .invalidInput) <|
      merkleOpenSubtree C input.bytes (Fin.ofNat _ (index.val * profile.slotLeaves))
        (Fin.ofNat _ profile.slotLeaves)
    pure (some ⟨chunkId input.key index, commitment, proof⟩)

/-- A chunk of an input. -/
def makeChunk (index : U32) (bytes : List UInt8)
    (authentication : Option PackedSourceAuthentication) : InputChunk where
  source :=
    { id := chunkId input.key index
      sourceOffset := Fin.ofNat _ (index.val * profile.slotSize.val)
      logicalLen := Fin.ofNat _ bytes.length
      contentHash := C.blake3 bytes }
  authentication := authentication
  bytes := bytes
  virtualZero := bytes.all fun byte => byte = 0

/-- The body of the inner loop of `input_chunks`. -/
def pushChunk (chunks : List InputChunk) (entry : List UInt8 × ℕ) :
    Outcome PackingError (List InputChunk) := do
  reject (chunks.length = maxPackedChunks) .tooManyChunks
  reject (2 ^ 32 ≤ entry.2) .tooManyChunks
  reject (2 ^ 32 ≤ entry.2 * profile.slotLeaves) .tooManyChunks
  let index : U32 := Fin.ofNat _ entry.2
  let authentication ← openChunk C profile input index
  pure (chunks ++ [makeChunk C profile input index entry.1 authentication])

end

/-- The body of the outer loop of `input_chunks`: the objects seen and the chunks so far. -/
def pushInput (state : List ObjectKey × List InputChunk) (input : PackingInput) :
    Outcome PackingError (List ObjectKey × List InputChunk) := do
  reject (input.owner = ⟨0⟩ ∨ input.protectedRoot = 0 ∨ input.objectId = 0 ∨ input.bytes = [] ∨
    isSomeAnd input.sourceCommitment (fun commitment =>
      commitment.byteLen.val ≠ input.bytes.length % 2 ^ 32 ∨
        merkleCommit C input.bytes ≠ .ok commitment) ∨
    input.key ∈ state.1) .invalidInput
  let parts := (chunks profile.slotSize.val input.bytes).zipIdx
  let chunks ← parts.foldlM (pushChunk C profile input) state.2
  pure (input.key :: state.1, chunks)

/-- `input_chunks`. -/
def inputChunks (inputs : List PackingInput) : Outcome PackingError (List InputChunk) := do
  let (_, chunks) ← inputs.foldlM (pushInput C profile) ([], [])
  pure (chunks.insertionSort fun a b => a.source.id ≤ b.source.id)

/-! ## Slots -/

/-- The chunks by identifier. -/
def desiredOf (chunks : List InputChunk) (desired : Table SourceChunkId InputChunk) :
    Table SourceChunkId InputChunk :=
  chunks.foldl (fun desired chunk => desired.put chunk.source.id chunk) desired

/-- The chunks of a catalog that are still wanted, in their slots.  A valid catalog has as many
slots in every sector as the vector that the source allocates, so every index is in range. -/
def retainedSlots (desired : Table SourceChunkId InputChunk)
    (sectors : List PackedSectorDescriptor) : List (Option SourceChunkId) :=
  (sectors.flatMap PackedSectorDescriptor.slots).map fun slot =>
    (slot.source.map PackedSourceChunk.id).filter fun id => (desired.get id).isSome

/-- The chunks that have no slot yet. -/
def pendingChunks (desired : Table SourceChunkId InputChunk)
    (retained : List (Option SourceChunkId)) : List SourceChunkId :=
  (desired.rows.map Prod.fst).filter fun id => some id ∉ retained

/-- The slots of all sectors: the vector is filled up to a whole sector. -/
def wholeSectors (slotsPerSector : ℕ) (assignments : List (Option SourceChunkId)) :
    List (List (Option SourceChunkId)) :=
  let sectorCount := assignments.length ⌈/⌉ slotsPerSector
  let padded := assignments ++
    List.replicate (sectorCount * slotsPerSector - assignments.length) none
  (List.range sectorCount).map fun sectorIndex =>
    (padded.drop (sectorIndex * slotsPerSector)).take slotsPerSector

/-- `desired[&id]`. -/
def slotContent (desired : Table SourceChunkId InputChunk) :
    Option SourceChunkId → Outcome PackingError (Option InputChunk)
  | none => pure none
  | some id => do
    let chunk ← expect (desired.get id)
    pure (some chunk)

/-- The slot of a chunk, or an empty one. -/
def packedSlot : Option InputChunk → PackedSlot
  | none => .virtualZero none
  | some chunk => if chunk.virtualZero then .virtualZero (some chunk.source) else .data chunk.source

/-- A slot of zeros. -/
def zeroSlot : List UInt8 := List.replicate profile.slotSize.val 0

/-- Bytes at the start of a slot of zeros. -/
def filledSlot (bytes : List UInt8) : List UInt8 :=
  bytes ++ List.replicate (profile.slotSize.val - bytes.length) 0

/-- The bytes of a slot. -/
def slotBytes : Option InputChunk → List UInt8
  | none => zeroSlot profile
  | some chunk => if chunk.virtualZero then zeroSlot profile else filledSlot profile chunk.bytes

/-- The descriptor of the bytes of a sector, with its identifier. -/
def sealSector (authenticated : Bool) (sectorIndex : ℕ) (slots : List PackedSlot)
    (bytes : List UInt8) : Outcome PackingError PackedSector := do
  let commitment ← mapErr (fun _ => .invalidCatalog) (merkleCommit C bytes)
  let descriptor : PackedSectorDescriptor :=
    { id := 0
      sectorIndex := Fin.ofNat _ sectorIndex
      flatRoot := if authenticated then commitment.root else C.blake3 bytes
      commitment := commitment
      slots := slots }
  let id ← descriptor.calculateId C profile
  pure ⟨{ descriptor with id := id }, bytes⟩

/-- The sectors of the given contents. -/
def sealSectors (authenticated : Bool) (contents : List (List (Option InputChunk))) :
    Outcome PackingError (List PackedSector) :=
  contents.zipIdx.mapM fun entry =>
    sealSector C profile authenticated entry.2 (entry.1.map packedSlot)
      (entry.1.flatMap (slotBytes profile))

/-- A catalog without legacy evidence, with its identifier. -/
def sealCatalog (formatVersion : U16) (revision : U64) (parent : Option (Bytes 32))
    (sectors : List PackedSectorDescriptor)
    (sourceAuthentication : Option (List PackedSourceAuthentication)) :
    Outcome PackingError PackedCatalog := do
  let catalog : PackedCatalog :=
    { id := 0
      formatVersion := formatVersion
      revision := revision
      parent := parent
      profile := profile
      sectors := sectors
      sourceAuthentication := sourceAuthentication
      legacyBindings := none
      legacyAttestations := none }
  let id ← catalog.calculateId C
  pure { catalog with id := id }

/-! ## The full packer -/

/-- The check of a sector of `PackingResult::validate`. -/
def PackingResult.checkSector (result : PackingResult)
    (entry : PackedSector × PackedSectorDescriptor) : Outcome PackingError Unit := do
  let packed := entry.1
  let descriptor := entry.2
  reject (packed.descriptor ≠ descriptor ∨
    packed.bytes.length ≠ result.catalog.profile.sectorSize.val ∨
    (result.catalog.formatVersion < 3 ∧ C.blake3 packed.bytes ≠ descriptor.flatRoot))
    .invalidCatalog
  let commitment ← mapErr (fun _ => .invalidCatalog) (merkleCommit C packed.bytes)
  reject (commitment ≠ descriptor.commitment) .invalidCatalog
  let slotSize := result.catalog.profile.slotSize.val
  forEach (fun (entry : PackedSlot × ℕ) =>
    let bytes := (packed.bytes.drop (entry.2 * slotSize)).take slotSize
    match entry.1 with
    | .data source =>
      reject ((bytes.drop source.logicalLen.val).any (fun byte => byte ≠ 0) ∨
        C.blake3 (bytes.take source.logicalLen.val) ≠ source.contentHash) .invalidCatalog
    | .virtualZero source => do
      reject (bytes.any fun byte => byte ≠ 0) .invalidCatalog
      reject (isSomeAnd source fun source =>
        C.blake3 (bytes.take source.logicalLen.val) ≠ source.contentHash) .invalidCatalog)
    descriptor.slots.zipIdx

/-- `PackingResult::validate`. -/
def PackingResult.validate (result : PackingResult) : Outcome PackingError Unit := do
  result.catalog.validate C
  reject (result.sectors.length ≠ result.catalog.sectors.length) .invalidCatalog
  forEach (result.checkSector C) (result.sectors.zip result.catalog.sectors)

/-- The metrics of the full packer, of the contents of all slots. -/
def packingMetrics (previous : Option PackedCatalog) (retained : List (Option SourceChunkId))
    (contents : List (List (Option InputChunk))) (sectors : List PackedSector) :
    PackingMetrics :=
  let used := contents.flatten.reduceOption
  let data := used.filter fun chunk => ¬ chunk.virtualZero
  let logicalBytes := (used.map fun chunk => chunk.source.logicalLen.val).sum
  let packedSectorBytes := sectors.length * profile.sectorSize.val
  { logicalBytes := logicalBytes
    sourceUploadBytes := (data.map fun chunk => chunk.bytes.length).sum
    packedSectorBytes := packedSectorBytes
    virtualZeroBytes :=
      (contents.flatten.length - data.length) * profile.slotSize.val +
        (data.map fun chunk => profile.slotSize.val - chunk.source.logicalLen.val).sum
    reusedSlots := retained.reduceOption.length
    changedSectors :=
      sectors.countP (fun sector =>
        ¬ isSomeAnd (previous.bind fun catalog =>
          catalog.sectors[sector.descriptor.sectorIndex.val]?) fun old =>
            old.commitment = sector.descriptor.commitment) +
        ((previous.map fun catalog => catalog.sectors.length).getD 0 - sectors.length)
    peakMaterializedBytes := logicalBytes + packedSectorBytes }

/-- The checks of the profile and of the catalog before. -/
def checkPrevious : Option PackedCatalog → Outcome PackingError Unit
  | none => pure ()
  | some previous => do
    previous.validate C
    reject (previous.profile ≠ profile) .profileChanged

/-- The revision of the next catalog.  The addition is not checked. -/
def nextRevision : Option PackedCatalog → Outcome PackingError U64
  | none => pure 1
  | some previous => previous.revision.succ

/-- All chunks come with evidence, and there are some. -/
def allAuthenticated (chunks : List InputChunk) : Bool :=
  !chunks.isEmpty && chunks.all fun chunk => chunk.authentication.isSome

/-- `pack_incremental`. -/
def packIncremental (previous : Option PackedCatalog) (inputs : List PackingInput) :
    Outcome PackingError PackingResult := do
  profile.validate
  checkPrevious C profile previous
  let chunks ← inputChunks C profile inputs
  let authenticated := allAuthenticated chunks
  reject (¬ authenticated ∧ chunks.any fun chunk => chunk.authentication.isSome) .invalidInput
  let desired := desiredOf chunks .empty
  let slotsPerSector ← profile.slotsPerSector
  let retained := retainedSlots desired ((previous.map PackedCatalog.sectors).getD [])
  let assignments ← allocate slotsPerSector retained (pendingChunks desired retained)
  reject (maxPackedChunks < assignments.length) .tooManyChunks
  let contents ← (wholeSectors slotsPerSector assignments).mapM fun slots =>
    slots.mapM (slotContent desired)
  let sectors ← sealSectors C profile authenticated contents
  let revision ← nextRevision previous
  let evidence := chunks.filterMap InputChunk.authentication
  let catalog ← sealCatalog C profile (if authenticated then 3 else 1) revision
    (previous.map PackedCatalog.id) (sectors.map PackedSector.descriptor)
    (if authenticated then some evidence else none)
  let result : PackingResult :=
    { catalog := catalog
      sectors := sectors
      metrics := packingMetrics profile previous retained contents sectors }
  result.validate C
  pure result

/-! ## The packer of changed sectors -/

variable (previous : PackedCatalog)

section

variable (authentication : List PackedSourceAuthentication)

/-- A chunk that the catalog before has, without its bytes. -/
def retainedChunk (source : AuthenticatedPackingSource) (index : ℕ) :
    Outcome PackingError InputChunk := do
  let id := chunkId source.key (Fin.ofNat _ index)
  let prior ← okOr (previous.sources.find? fun chunk => chunk.id = id) .missingObject
  let evidence ← okOr (authentication.find? fun entry => entry.id = id) .invalidCatalog
  reject (evidence.sourceCommitment ≠ source.sourceCommitment ∨
    prior.logicalLen ≠ profile.slotSize) .invalidInput
  pure
    { source := prior
      authentication := some evidence
      bytes := []
      virtualZero := (previous.sectors.flatMap PackedSectorDescriptor.slots).any fun slot =>
        match slot with
        | .virtualZero (some zero) => zero.id = id
        | _ => false }

/-- What the loop over the sources keeps: the inputs that are left, the sources seen, and the
chunks. -/
structure SourceScan where
  inputs : List PackingInput
  seen : List ObjectKey
  desired : Table SourceChunkId InputChunk

/-- The chunks of a source: those of its input, or those of the catalog before. -/
def sourceChunks (inputs : List PackingInput) (source : AuthenticatedPackingSource) :
    Outcome PackingError (List InputChunk) :=
  match inputs.find? fun input => input.key = source.key with
  | some input => do
    reject (input.sourceCommitment ≠ some source.sourceCommitment ∨
      input.bytes.length ≠ profile.sectorSize.val) .invalidInput
    inputChunks C profile [input]
  | none =>
    (List.range (profile.sectorSize.val / profile.slotSize.val)).mapM
      (retainedChunk profile previous authentication source)

/-- The body of the loop over the sources. -/
def scanSource (scan : SourceScan) (source : AuthenticatedPackingSource) :
    Outcome PackingError SourceScan := do
  reject (source.owner = ⟨0⟩ ∨ source.protectedRoot = 0 ∨ source.objectId = 0 ∨
    source.sourceCommitment.byteLen ≠ profile.sectorSize ∨
    ¬ Succeeds source.sourceCommitment.validate ∨ source.key ∈ scan.seen) .invalidInput
  let chunks ← sourceChunks C profile previous authentication scan.inputs source
  pure
    { inputs := scan.inputs.filter fun input => input.key ≠ source.key
      seen := source.key :: scan.seen
      desired := desiredOf chunks scan.desired }

end

/-- The bytes of a slot over those that the sector had.  A chunk without bytes is kept, if it was in
this slot. -/
def patchedSlot (prior : Option PackedSectorDescriptor) (base : List UInt8)
    (entry : Option InputChunk × ℕ) : Outcome PackingError (List UInt8) :=
  match entry.1 with
  | none => pure (zeroSlot profile)
  | some chunk =>
    if chunk.virtualZero then pure (zeroSlot profile)
    else if chunk.bytes = [] then do
      reject (¬ isSomeAnd (prior.bind fun sector => sector.slots[entry.2]?) fun old =>
        old.source.map PackedSourceChunk.id = some chunk.source.id) .missingObject
      pure ((base.drop (entry.2 * profile.slotSize.val)).take profile.slotSize.val)
    else pure (filledSlot profile chunk.bytes)

section

variable
  (loadPrevious : List PackedSectorDescriptor → PackedSectorDescriptor →
      Outcome PackingError (List UInt8))

/-- The bytes that a sector had, which are asked for and checked, or zeros for a new one. -/
def priorBytes (calls : List PackedSectorDescriptor) :
    Option PackedSectorDescriptor → Outcome PackingError (List UInt8)
  | none => pure (List.replicate profile.sectorSize.val 0)
  | some prior => do
    let bytes ← loadPrevious calls prior
    reject (bytes.length ≠ profile.sectorSize.val ∨
      (previous.formatVersion < 3 ∧ C.blake3 bytes ≠ prior.flatRoot)) .invalidCatalog
    let commitment ← mapErr (fun _ => .invalidCatalog) (merkleCommit C bytes)
    reject (commitment ≠ prior.commitment) .invalidCatalog
    pure bytes

/-- What the loop over the sectors keeps: the descriptors, the sectors that changed, and the calls
of the callback. -/
structure SectorScan where
  descriptors : List PackedSectorDescriptor
  changed : List PackedSector
  calls : List PackedSectorDescriptor

/-- The body of the loop over the sectors. -/
def scanSector (scan : SectorScan) (entry : List (Option InputChunk) × ℕ) :
    Outcome PackingError SectorScan :=
  let slots := entry.1.map packedSlot
  match previous.sectors[entry.2]? with
  | some prior =>
    if 3 ≤ previous.formatVersion ∧ previous.formatVersion ≤ 5 ∧ prior.slots = slots then
      pure { scan with descriptors := scan.descriptors ++ [prior] }
    else do
      let base ← priorBytes C profile previous loadPrevious scan.calls (some prior)
      let parts ← entry.1.zipIdx.mapM (patchedSlot profile (some prior) base)
      let sector ← sealSector C profile true entry.2 slots parts.flatten
      pure
        { descriptors := scan.descriptors ++ [sector.descriptor]
          changed := scan.changed ++ [sector]
          calls := scan.calls ++ [prior] }
  | none => do
    let base ← priorBytes C profile previous loadPrevious scan.calls none
    let parts ← entry.1.zipIdx.mapM (patchedSlot profile none base)
    let sector ← sealSector C profile true entry.2 slots parts.flatten
    pure
      { descriptors := scan.descriptors ++ [sector.descriptor]
        changed := scan.changed ++ [sector]
        calls := scan.calls }

end

/-- The metrics of the packer of changed sectors. -/
def updateMetrics (retained : List (Option SourceChunkId))
    (desired : Table SourceChunkId InputChunk) (contents : List (List (Option InputChunk)))
    (changed : List PackedSector) : PackingMetrics :=
  let data := contents.flatten.reduceOption.filter fun chunk => ¬ chunk.virtualZero
  let uploaded := (desired.rows.map fun row => row.2.bytes.length).sum
  { logicalBytes := desired.rows.length * profile.slotSize.val
    sourceUploadBytes := uploaded
    packedSectorBytes := changed.length * profile.sectorSize.val
    virtualZeroBytes := (contents.flatten.length - data.length) * profile.slotSize.val
    reusedSlots := retained.reduceOption.length
    changedSectors := changed.length + (previous.sectors.length - contents.length)
    peakMaterializedBytes :=
      uploaded + changed.length * profile.sectorSize.val + profile.sectorSize.val }

/-- `pack_incremental_authenticated`, with the calls of the callback. -/
def packIncrementalAuthenticated (sources : List AuthenticatedPackingSource)
    (newInputs : List PackingInput)
    (loadPrevious : List PackedSectorDescriptor → PackedSectorDescriptor →
      Outcome PackingError (List UInt8)) :
    Outcome PackingError (PackingUpdate × List PackedSectorDescriptor) := do
  profile.validate
  previous.validate C
  reject (¬ (2 ≤ previous.formatVersion ∧ previous.formatVersion ≤ 5) ∨
    previous.profile ≠ profile) .profileChanged
  let authentication ← okOr previous.sourceAuthentication .invalidCatalog
  reject (¬ (newInputs.map PackingInput.key).Nodup ∨ sources = []) .invalidInput
  let scan ← sources.foldlM (scanSource C profile previous authentication)
    { inputs := newInputs, seen := [], desired := .empty }
  let desired := scan.desired
  reject (scan.inputs ≠ [] ∨ maxPackedChunks < desired.rows.length) .invalidInput
  let slotsPerSector ← profile.slotsPerSector
  let retained := retainedSlots desired previous.sectors
  let assignments ← allocate slotsPerSector retained (pendingChunks desired retained)
  let contents ← (wholeSectors slotsPerSector assignments).mapM fun slots =>
    slots.mapM (slotContent desired)
  let scan ← contents.zipIdx.foldlM (scanSector C profile previous loadPrevious)
    { descriptors := [], changed := [], calls := [] }
  let evidence ← desired.rows.mapM fun row => okOr row.2.authentication .invalidCatalog
  let revision ← okOr previous.revision.checkedSucc .invalidCatalog
  let catalog ← sealCatalog C profile 3 revision (some previous.id) scan.descriptors (some evidence)
  catalog.validate C
  pure
    ({ catalog := catalog
       changedSectors := scan.changed
       metrics := updateMetrics profile previous retained desired contents scan.changed },
      scan.calls)

end Pack

/-! ## Reading an object -/

section Unpack

variable (C : Crypto)

/-- A slot holds a chunk of the object. -/
def PackedSlot.isOf (object : ObjectKey) (slot : PackedSlot) : Prop :=
  isSomeAnd slot.source fun source => source.id.key = object
  deriving Decidable

/-- The chunks of an object in a sector. -/
def sectorChunks (slotSize : ℕ) (object : ObjectKey) (slots : List PackedSlot)
    (bytes : List UInt8) : List (U32 × List UInt8) :=
  slots.zipIdx.filterMap fun entry =>
    if entry.1.isOf object then
      entry.1.source.map fun source =>
        (source.id.chunkIndex,
          match entry.1 with
          | .data _ => (bytes.drop (entry.2 * slotSize)).take source.logicalLen.val
          | .virtualZero _ => List.replicate source.logicalLen.val 0)
    else none

/-- The chunks of an object that a sector of the catalog contributes.  Of two sectors with one
identifier the map keeps the later. -/
def unpackSector (catalog : PackedCatalog) (sectors : List PackedSector) (object : ObjectKey)
    (descriptor : PackedSectorDescriptor) : Outcome PackingError (List (U32 × List UInt8)) :=
  if ¬ descriptor.slots.any fun slot => slot.isOf object then pure []
  else do
    let sector ← okOr (sectors.reverse.find? fun sector => sector.descriptor.id = descriptor.id)
      .missingObject
    reject (sector.descriptor ≠ descriptor ∨ sector.bytes.length ≠ catalog.profile.sectorSize.val ∨
      (catalog.formatVersion < 3 ∧ C.blake3 sector.bytes ≠ descriptor.flatRoot)) .invalidCatalog
    let commitment ← mapErr (fun _ => .invalidCatalog) (merkleCommit C sector.bytes)
    reject (commitment ≠ descriptor.commitment) .invalidCatalog
    pure (sectorChunks catalog.profile.slotSize.val object descriptor.slots sector.bytes)

/-- `unpack_object_from_sectors`. -/
def unpackObjectFromSectors (catalog : PackedCatalog) (sectors : List PackedSector)
    (object : ObjectKey) : Outcome PackingError (List UInt8) := do
  catalog.validate C
  let parts ← catalog.sectors.mapM (unpackSector C catalog sectors object)
  let chunks := parts.flatten.insertionSort fun a b => a.1 ≤ b.1
  reject (chunks = []) .missingObject
  reject (¬ chunks.zipIdx.all fun entry => entry.1.1.val = entry.2 % 2 ^ 32) .invalidCatalog
  pure (chunks.flatMap Prod.snd)

/-- `unpack_object`. -/
def unpackObject (packed : PackingResult) (object : ObjectKey) :
    Outcome PackingError (List UInt8) := do
  packed.validate C
  unpackObjectFromSectors C packed.catalog packed.sectors object

end Unpack

end MutualBackup
