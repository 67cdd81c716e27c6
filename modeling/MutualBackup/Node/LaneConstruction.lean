import MutualBackup.Framework.Chunks
import MutualBackup.Core.Checkpoint
import MutualBackup.Node.LanePlacement

/-!
# Building packed lanes

`build_packed_coding_lanes` of `p2p.rs` makes the coding geometry of every lane of a packed catalog.
It cuts the sectors into lanes, has them placed, and then builds lane after lane with
`variable_coding_lane_with_capacity`: the information roles are the sectors on their planned
holders, the parity roles are on theirs, and an information role that has no sector is a virtual
zero on a peer whose failure domain the lane does not use otherwise.  Each lane checks its plan
against a capacity map of its own, which is debited as lanes are built.

A set that is only tested for membership is a list here.
-/

namespace MutualBackup

open Framework

structure VariableCodingLane where
  geometry : CodingPlanGeometry
  informationRoots : List (Bytes 32)
  packedInformation : Table (Bytes 32) PackedSectorDescriptor
  deriving DecidableEq

structure VariableInformationInput where
  owner : NodeId
  sector : SectorRef
  commitment : MerkleCommitment
  deriving DecidableEq, Repr

def maxVariableCodingParticipants : ℕ := 5

/-- `variable_coding_profile`.  There are at most five participants, so the counts fit. -/
def variableCodingProfile (peers : List GuildPeer) : Outcome CodingLaneError CodingProfile := do
  let participants := min (peers.map fun peer => peer.member.failureDomain).toFinset.card
    maxVariableCodingParticipants
  reject (participants < 3) .tooFewFailureDomains
  let parityShards := if participants = 3 then 1 else 2
  let profile : CodingProfile :=
    { formatVersion := 1
      construction := .galois8Vandermonde
      dataShards := Fin.ofNat _ (participants - parityShards)
      parityShards := Fin.ofNat _ parityShards
      shardSize := Fin.ofNat _ v1SectorSize }
  mapErr .profile profile.validate
  pure profile

section Lane

variable (C : Crypto) (guildId : Bytes 32) (revisionId : Uuid) (peers : List GuildPeer)

/-- The id of a virtual zero sector, which is never the zero id. -/
def virtualSector (ordinal : ℕ) (lane : ℕ) : Bytes 32 :=
  let id := C.deriveKey "mutualbackup virtual zero information v1"
    (guildId.toList ++ revisionId.bytes.toList ++ beBytes 8 ordinal ++ beBytes 1 lane)
  -- `id[0] = 1`
  if id = 0 then Fin.ofNat _ (256 ^ 31) else id

/-- The state of the loop over the sources. -/
structure SourcePlacement where
  usedNodes : List NodeId
  usedDomains : List String
  information : List InformationRoleV2
  informationRoots : List (Bytes 32)

/-- One information role with a sector. -/
def placeSource (profile : CodingProfile) (s : SourcePlacement)
    (source : VariableInformationInput) : Outcome CodingLaneError SourcePlacement := do
  let peer ← okOr (peers.find? fun peer => peer.member.nodeId = source.owner) .ownerNotActive
  reject (source.sector.root = 0 ∨ source.commitment.byteLen ≠ profile.shardSize ∨
    ¬ Succeeds source.commitment.validate ∨ source.owner ∈ s.usedNodes ∨
    peer.member.failureDomain ∈ s.usedDomains) .invalidSource
  pure { usedNodes := source.owner :: s.usedNodes
         usedDomains := peer.member.failureDomain :: s.usedDomains
         information := s.information ++
           [{ owner := source.owner
              failureDomain := peer.member.failureDomain
              sector := { id := source.sector.id
                          commitment := source.commitment
                          logicalLen := source.sector.logicalLen
                          virtualZero := false } }]
         informationRoots := s.informationRoots ++ [source.sector.root] }

/-- The score that orders the candidates. -/
def placementScore (ordinal : ℕ) (node : NodeId) : Bytes 32 :=
  C.deriveKey "mutualbackup variable placement v1"
    (guildId.toList ++ revisionId.bytes.toList ++ beBytes 8 ordinal ++ node.bytes.toList)

/-- The peers without a source, by score. -/
def laneCandidates (ordinal : ℕ) (usedNodes : List NodeId) : List GuildPeer :=
  (peers.filter fun peer => peer.member.nodeId ∉ usedNodes).insertionSort fun a b =>
    toLex (placementScore C guildId revisionId ordinal a.member.nodeId, a.member.nodeId) ≤
      toLex (placementScore C guildId revisionId ordinal b.member.nodeId, b.member.nodeId)

/-- `placement_domains` and the peers chosen so far. -/
abbrev ChosenPeers := List String × List GuildPeer

/-- One holder that the plan names. -/
def placeRequired (usedNodes : List NodeId) (parityCapacity : Option (Table NodeId U64))
    (s : ChosenPeers) (node : NodeId) : Outcome CodingLaneError ChosenPeers := do
  let peer ← okOr (peers.find? fun peer => peer.member.nodeId = node) .parityHolderNotActive
  reject (node ∈ usedNodes ∨
    isSomeAnd parityCapacity (fun capacity => capacityOf capacity node = 0) ∨
    peer.member.failureDomain ∈ s.1) .parityHolderUnavailable
  pure (peer.member.failureDomain :: s.1, s.2 ++ [peer])

/-- Parity holders where the plan names none: candidates with room in new domains, until there are
enough. -/
def chooseParity (parityCapacity : Option (Table NodeId U64)) (parityCount : ℕ) :
    ChosenPeers → List GuildPeer → ChosenPeers
  | s, [] => s
  | s, peer :: candidates =>
    if ¬ isSomeAnd parityCapacity (fun capacity => ¬ 0 < capacityOf capacity peer.member.nodeId) ∧
        peer.member.failureDomain ∉ s.1 then
      let s := (peer.member.failureDomain :: s.1, s.2 ++ [peer])
      if s.2.length = parityCount then s else chooseParity parityCapacity parityCount s candidates
    else chooseParity parityCapacity parityCount s candidates

/-- The peers of the virtual roles: candidates without parity in new domains, until there are
enough. -/
def chooseVirtual (virtualCount : ℕ) (parityNodes : List NodeId) :
    ChosenPeers → List GuildPeer → ChosenPeers
  | s, [] => s
  | s, peer :: candidates =>
    if s.2.length = virtualCount then s
    else if peer.member.nodeId ∉ parityNodes ∧ peer.member.failureDomain ∉ s.1 then
      chooseVirtual virtualCount parityNodes
        (peer.member.failureDomain :: s.1, s.2 ++ [peer]) candidates
    else chooseVirtual virtualCount parityNodes s candidates

/-- The parity holders, by the plan or by the room that peers have. -/
def parityPeers (usedNodes : List NodeId) (usedDomains : List String) (candidates : List GuildPeer)
    (parityCapacity : Option (Table NodeId U64)) (requiredParity : Option (List NodeId))
    (parityCount : ℕ) : Outcome CodingLaneError ChosenPeers :=
  match requiredParity with
  | some required => do
    reject (required.length ≠ parityCount) .wrongParityWidth
    replay (placeRequired peers usedNodes parityCapacity) (usedDomains, []) required
  | none => pure (chooseParity parityCapacity parityCount (usedDomains, []) candidates)

/-- `variable_coding_lane_with_capacity`. -/
def variableCodingLaneWithCapacity (ordinal : ℕ) (sources : List VariableInformationInput)
    (parityCapacity : Option (Table NodeId U64)) (requiredParity : Option (List NodeId)) :
    Outcome CodingLaneError VariableCodingLane := do
  let profile ← variableCodingProfile peers
  let dataShards := profile.dataShards.val
  reject (sources = [] ∨ dataShards < sources.length) .invalidSourceCount
  let zeroCommitment ← mapErr .merkle (merkleZeroCommitment C profile.shardSize)
  let placed ← replay (placeSource peers profile) ⟨[], [], [], []⟩ sources
  let virtualCount := dataShards - placed.information.length
  let parityCount := profile.parityShards.val
  let candidates := laneCandidates C guildId revisionId peers ordinal placed.usedNodes
  let (placementDomains, parity) ← parityPeers peers placed.usedNodes placed.usedDomains candidates
    parityCapacity requiredParity parityCount
  reject (parity.length < parityCount) .tooFewParityDomains
  let (_, virtual) := chooseVirtual virtualCount (parity.map fun peer => peer.member.nodeId)
    (placementDomains, []) candidates
  reject (virtual.length < virtualCount) .tooFewPlacementDomains
  let geometry : CodingPlanGeometry :=
    { formatVersion := 1
      guildId := guildId
      profile := profile
      information := placed.information ++ virtual.zipIdx.map fun entry =>
        { owner := entry.1.member.nodeId
          failureDomain := entry.1.member.failureDomain
          sector := { id := virtualSector C guildId revisionId ordinal entry.2
                      commitment := zeroCommitment
                      logicalLen := profile.shardSize
                      virtualZero := true } }
      parity := parity.zipIdx.map fun entry =>
        { holder := entry.1.member.nodeId
          failureDomain := entry.1.member.failureDomain
          row := Fin.ofNat _ entry.2 } }
  mapErr (.geometryRejected geometry.information.length geometry.parity.length)
    (geometry.validate C)
  pure { geometry := geometry
         informationRoots := placed.informationRoots ++ virtual.map fun _ => 0
         packedInformation := .empty }

/-! ## Lanes of packed sectors -/

/-- One shard of a holder's capacity. -/
def debitHolder (missing exhausted : CodingLaneError) (capacity : Table NodeId U64)
    (holder : NodeId) : Outcome CodingLaneError (Table NodeId U64) := do
  let available ← okOr (capacity.get holder) missing
  let left ← okOr (checkedSub available 1) exhausted
  pure (capacity.put holder left)

/-- The reference to a packed sector. -/
def packedReference (profile : CodingProfile) (descriptor : PackedSectorDescriptor) :
    Outcome CodingLaneError SectorRef := do
  reject (descriptor.commitment.byteLen ≠ profile.shardSize) .wrongCommitmentSize
  pure { id := descriptor.id
         root := descriptor.flatRoot
         logicalLen := descriptor.commitment.byteLen }

/-- `packed_information`: the descriptors by sector id. -/
def packedInformation (laneSectors : List PackedSectorDescriptor) :
    Table (Bytes 32) PackedSectorDescriptor :=
  laneSectors.foldl (fun packed descriptor => packed.put descriptor.id descriptor) .empty

section

variable (profile : CodingProfile)

/-- One lane of `build_packed_coding_lanes`, and the capacity that is left. -/
def buildPackedLane (ordinal : ℕ) (capacity : Table NodeId U64)
    (laneSectors : List PackedSectorDescriptor) (placement : PackedLanePlacement) :
    Outcome CodingLaneError (VariableCodingLane × Table NodeId U64) := do
  let references ← laneSectors.mapM (packedReference profile)
  let sources := ((references.zip placement.information).zip laneSectors).map fun entry =>
    { owner := entry.1.2, sector := entry.1.1, commitment := entry.2.commitment }
  let lane ← variableCodingLaneWithCapacity C guildId revisionId peers ordinal sources
    (some capacity) (some placement.parity)
  let capacity ← replay (debitHolder .noInformationCapacity .informationCapacityExhausted) capacity
    placement.information
  let capacity ← replay (debitHolder .noParityCapacity .parityCapacityExhausted) capacity
    (lane.geometry.parity.map ParityPlacementV2.holder)
  pure ({ lane with packedInformation := packedInformation laneSectors }, capacity)

/-- The loop over the lanes. -/
def buildPackedLanes :
    ℕ → Table NodeId U64 → List (List PackedSectorDescriptor × PackedLanePlacement) →
      Outcome CodingLaneError (List VariableCodingLane × Table NodeId U64)
  | _, capacity, [] => pure ([], capacity)
  | ordinal, capacity, (laneSectors, placement) :: rest => do
    let (lane, capacity) ← buildPackedLane C guildId revisionId peers profile ordinal capacity
      laneSectors placement
    let (lanes, capacity) ← buildPackedLanes (ordinal + 1) capacity rest
    pure (lane :: lanes, capacity)

/-- The sectors of each lane, in the order of their indexes. -/
def packedLaneSectors (sectors : List PackedSectorDescriptor) :
    List (List PackedSectorDescriptor) :=
  chunks profile.dataShards.val (sectors.insertionSort fun a b => a.sectorIndex ≤ b.sectorIndex)

/-- `lane_sizes`: at most the number of data shards each. -/
def packedLaneSizes (sectors : List PackedSectorDescriptor) : List U64 :=
  (packedLaneSectors profile sectors).map fun lane => Fin.ofNat _ lane.length

end

/-- `build_packed_coding_lanes`: the lanes, and the capacity map it has debited. -/
def buildPackedCodingLanes (sectors : List PackedSectorDescriptor) (capacity : Table NodeId U64) :
    Outcome CodingLaneError (List VariableCodingLane × Table NodeId U64) := do
  let profile ← variableCodingProfile peers
  let placements ← planPackedLanePlacements C guildId peers (packedLaneSizes profile sectors)
    capacity (Fin.ofNat _ profile.parityShards.val)
  buildPackedLanes C guildId revisionId peers profile 0 capacity
    ((packedLaneSectors profile sectors).zip placements)

end Lane

end MutualBackup
