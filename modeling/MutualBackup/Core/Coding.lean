import MutualBackup.Core.Primitives

/-!
# Coding groups of variable geometry

The description of one Reed–Solomon codeword as the guild log carries it: a profile, a Merkle
commitment per shard, and for every shard the member and the failure domain it was placed in.
`CodingGroupV2.validate` is the shape check that both the event application and the state
validator run, with the virtual-zero commitment it compares against computed as the source
computes it.

The group is otherwise opaque to the guild log: the log never looks behind a commitment.
-/

namespace MutualBackup

open Framework Codec

/-! ## Profiles -/

/-- `u32::is_power_of_two`, `usize::is_power_of_two`. -/
def isPowerOfTwo (n : ℕ) : Prop := 2 ^ n.log2 = n
  deriving Decidable

inductive ReedSolomonConstruction where
  | galois8Vandermonde
  deriving DecidableEq, Repr

/-- One codeword geometry. -/
structure CodingProfile where
  formatVersion : U16
  construction : ReedSolomonConstruction
  dataShards : U16
  parityShards : U16
  shardSize : U32
  deriving DecidableEq, Repr

def maxCodingShards : ℕ := 64

def maxProfileShardSize : ℕ := 4 * 1024 * 1024

def minProfileShardSize : ℕ := 16

namespace CodingProfile

variable (p : CodingProfile)

/-- `CodingProfile::validate`. -/
def validate : Outcome CodingError Unit := do
  let total ← okOr (checkedAdd p.dataShards p.parityShards) .invalidProfile
  reject (p.formatVersion ≠ 1 ∨ p.dataShards = 0 ∨ p.parityShards = 0 ∨
    maxCodingShards < total.val ∨ p.shardSize.val < minProfileShardSize ∨
    maxProfileShardSize < p.shardSize.val ∨ ¬ isPowerOfTwo p.shardSize.val) .invalidProfile

/-- `CodingProfile::total_shards`. -/
def totalShards : Outcome CodingError ℕ := do
  p.validate
  let total ← uncheckedAdd p.dataShards p.parityShards
  pure total.val

lemma noOverflow_validate : NoOverflow p.validate :=
  noOverflow_bind (noOverflow_okOr _ _) fun _ _ => noOverflow_reject _ _

/-- The unchecked sum is the one `validate` has just computed with a check. -/
lemma noOverflow_totalShards : NoOverflow p.totalShards := by
  refine noOverflow_bind p.noOverflow_validate fun _ h => ?_
  obtain ⟨total, htotal, -⟩ := bind_eq_ok.mp h
  rw [uncheckedAdd_of_checkedAdd (okOr_eq_ok.mp htotal)]
  exact noOverflow_ok _

end CodingProfile

/-! ## Merkle commitments -/

def merkleLeafSize : ℕ := 16

def maxMerkleBytes : ℕ := 4 * 1024 * 1024

/-- A length-bound Merkle root over 16-byte leaves. -/
structure MerkleCommitment where
  formatVersion : U16
  leafSize : U16
  byteLen : U32
  root : Bytes 32
  deriving DecidableEq, Repr

/-- `validate_data_len`. -/
def validateDataLen (len : ℕ) : Outcome MerkleError Unit :=
  reject (len < merkleLeafSize ∨ maxMerkleBytes < len ∨ ¬ isPowerOfTwo len ∨
    len % merkleLeafSize ≠ 0) .invalidDataLength

/-- `MerkleCommitment::validate`. -/
def MerkleCommitment.validate (m : MerkleCommitment) : Outcome MerkleError Unit := do
  reject (m.formatVersion ≠ 1 ∨ m.leafSize ≠ 16 ∨ m.root = 0) .invalidProof
  validateDataLen m.byteLen.val

lemma noOverflow_validateDataLen (len : ℕ) : NoOverflow (validateDataLen len) :=
  noOverflow_reject _ _

lemma MerkleCommitment.noOverflow_validate (m : MerkleCommitment) : NoOverflow m.validate :=
  noOverflow_reject_bind (noOverflow_validateDataLen _)

section Zero

variable (C : Crypto)

/-- `hash_leaf`. -/
def hashLeaf (leaf : Bytes 16) : Bytes 32 := C.deriveKey "mutualbackup merkle leaf v1" leaf.toList

/-- `hash_node`. -/
def hashNode (left right : Bytes 32) : Bytes 32 :=
  C.deriveKey "mutualbackup merkle node v1" (left.toList ++ right.toList)

variable (byteLen : U32)

/-- `bind_root`: the suite, the leaf size and the length in front of the tree root. -/
def bindRoot (treeRoot : Bytes 32) : Bytes 32 :=
  C.deriveKey "mutualbackup merkle root v1"
    (beBytes 2 1 ++ beBytes 2 merkleLeafSize ++ beBytes 4 byteLen.val ++ treeRoot.toList)

/-- `merkle_zero_subtree_root`: one level of hashing per doubling of the leaf count. -/
def merkleZeroSubtreeRoot : Outcome MerkleError (Bytes 32) := do
  validateDataLen byteLen.val
  pure ((fun root => hashNode C root root)^[(byteLen.val / merkleLeafSize).log2] (hashLeaf C 0))

/-- `merkle_zero_commitment`. -/
def merkleZeroCommitment : Outcome MerkleError MerkleCommitment := do
  let treeRoot ← merkleZeroSubtreeRoot C byteLen
  pure { formatVersion := 1, leafSize := 16, byteLen := byteLen,
         root := bindRoot C byteLen treeRoot }

lemma noOverflow_merkleZeroCommitment : NoOverflow (merkleZeroCommitment C byteLen) :=
  noOverflow_bind
    (noOverflow_bind (noOverflow_validateDataLen _) fun _ _ => noOverflow_ok _)
    fun _ _ => noOverflow_ok _

end Zero

/-! ## Groups -/

/-- A committed information shard; a virtual-zero one has no payload. -/
structure RangeSectorRef where
  id : Bytes 32
  commitment : MerkleCommitment
  logicalLen : U32
  virtualZero : Bool
  deriving DecidableEq, Repr

structure InformationRoleV2 where
  owner : NodeId
  failureDomain : String
  sector : RangeSectorRef
  deriving DecidableEq, Repr

structure ParityRoleV2 where
  holder : NodeId
  failureDomain : String
  row : U16
  commitment : MerkleCommitment
  deriving DecidableEq, Repr

inductive ShardRoleV2 where
  | information (role : InformationRoleV2)
  | parity (role : ParityRoleV2)
  deriving DecidableEq, Repr

structure CodingGroupV2 where
  id : Bytes 32
  formatVersion : U16
  guildId : Bytes 32
  profile : CodingProfile
  roles : List ShardRoleV2
  deriving DecidableEq, Repr

/-! ### Codecs -/

def ReedSolomonConstruction.codec : Codec ReedSolomonConstruction := enum
    [{ codec := const (), make := fun _ => .galois8Vandermonde,
       match? := fun _ => some (), make_match := fun {a _} _ => by cases a; rfl }] (by decide)

def CodingProfile.codec : Codec CodingProfile :=
  (pair u16 <| pair ReedSolomonConstruction.codec <| pair u16 <| pair u16 u32).iso
    (fun p => (p.formatVersion, p.construction, p.dataShards, p.parityShards, p.shardSize))
    (fun p => ⟨p.1, p.2.1, p.2.2.1, p.2.2.2.1, p.2.2.2.2⟩) fun _ => rfl

def MerkleCommitment.codec : Codec MerkleCommitment :=
  (pair u16 <| pair u16 <| pair u32 <| bytes 32).iso
    (fun m => (m.formatVersion, m.leafSize, m.byteLen, m.root))
    (fun p => ⟨p.1, p.2.1, p.2.2.1, p.2.2.2⟩) fun _ => rfl

def RangeSectorRef.codec : Codec RangeSectorRef :=
  (pair (bytes 32) <| pair MerkleCommitment.codec <| pair u32 Codec.bool).iso
    (fun r => (r.id, r.commitment, r.logicalLen, r.virtualZero))
    (fun p => ⟨p.1, p.2.1, p.2.2.1, p.2.2.2⟩) fun _ => rfl

/-- A failure domain of a certified placement is read within 256 bytes. -/
def failureDomainCodec : Codec String := string.bounded fun s => s.utf8ByteSize ≤ 256

def InformationRoleV2.codec : Codec InformationRoleV2 :=
  (pair NodeId.codec <| pair failureDomainCodec RangeSectorRef.codec).iso
    (fun r => (r.owner, r.failureDomain, r.sector)) (fun p => ⟨p.1, p.2.1, p.2.2⟩) fun _ => rfl

def ParityRoleV2.codec : Codec ParityRoleV2 :=
  (pair NodeId.codec <| pair failureDomainCodec <| pair u16
    MerkleCommitment.codec).iso
    (fun r => (r.holder, r.failureDomain, r.row, r.commitment))
    (fun p => ⟨p.1, p.2.1, p.2.2.1, p.2.2.2⟩) fun _ => rfl

def ShardRoleV2.codec : Codec ShardRoleV2 := enum
    [{ codec := InformationRoleV2.codec, make := .information,
       match? := fun | .information r => some r | _ => none },
     { codec := ParityRoleV2.codec, make := .parity,
       match? := fun | .parity r => some r | _ => none }] (by decide)

def CodingGroupV2.codec : Codec CodingGroupV2 := (pair (bytes 32) <| pair u16 <| pair (bytes 32) <|
    pair CodingProfile.codec <|
      (list ShardRoleV2.codec).bounded fun roles => roles.length ≤ maxCodingShards).iso
    (fun g => (g.id, g.formatVersion, g.guildId, g.profile, g.roles))
    (fun p => ⟨p.1, p.2.1, p.2.2.1, p.2.2.2.1, p.2.2.2.2⟩) fun _ => rfl

/-! ### Validation -/

section Validate

variable (C : Crypto)

/-- `coding_group_v2_id`. -/
def codingGroupV2Id (formatVersion : U16) (guildId : Bytes 32) (profile : CodingProfile)
    (roles : List ShardRoleV2) : Outcome ModelError (Bytes 32) := do
  let bytes ← canonicalBytes
    (pair u16 <| pair (Codec.bytes 32) <| pair CodingProfile.codec <|
      list ShardRoleV2.codec) (formatVersion, guildId, profile, roles)
  pure (C.deriveKey "mutualbackup coding group v2" bytes)

/-- `CodingGroupV2::calculate_id`. -/
def CodingGroupV2.calculateId (g : CodingGroupV2) : Outcome ModelError (Bytes 32) :=
  codingGroupV2Id C g.formatVersion g.guildId g.profile g.roles

/-- The checks of one role at its position, and the failure domain it occupies. -/
def ShardRoleV2.checkedDomain (profile : CodingProfile) (index : ℕ) :
    ShardRoleV2 → Outcome ModelError String
  | .information role => do
    reject (profile.dataShards.val ≤ index) .invalidCheckpoint
    mapErr .merkle role.sector.commitment.validate
    reject (role.sector.id = 0 ∨ role.sector.commitment.byteLen ≠ profile.shardSize ∨
      profile.shardSize < role.sector.logicalLen ∨ role.failureDomain = "" ∨
      256 < role.failureDomain.utf8ByteSize) .invalidCheckpoint
    if role.sector.virtualZero then do
      reject (role.sector.logicalLen ≠ profile.shardSize) .invalidCheckpoint
      let zero ← mapErr .merkle (merkleZeroCommitment C profile.shardSize)
      reject (role.sector.commitment ≠ zero) .invalidCheckpoint
    else
      reject (role.sector.logicalLen = 0) .invalidCheckpoint
    pure role.failureDomain
  | .parity role => do
    -- The row is the position after the data shards, in sixteen bits.
    reject (index < profile.dataShards.val ∨
      role.row.val ≠ (index - profile.dataShards.val) % 2 ^ 16) .invalidCheckpoint
    mapErr .merkle role.commitment.validate
    reject (role.commitment.byteLen ≠ profile.shardSize ∨ role.failureDomain = "" ∨
      256 < role.failureDomain.utf8ByteSize) .invalidCheckpoint
    pure role.failureDomain

/-- The loop over the roles, with the failure domains already used. -/
def CodingGroupV2.validateRoles (profile : CodingProfile) :
    ℕ → List String → List ShardRoleV2 → Outcome ModelError Unit
  | _, _, [] => .ok ()
  | index, domains, role :: roles => do
    let domain ← role.checkedDomain C profile index
    reject (domain ∈ domains) (.reusedFailureDomain domain)
    validateRoles profile (index + 1) (domain :: domains) roles

/-- `CodingGroupV2::validate`. -/
def CodingGroupV2.validate (g : CodingGroupV2) : Outcome ModelError Unit := do
  mapErr .coding g.profile.validate
  reject ((g.formatVersion ≠ 2 ∧ g.formatVersion ≠ 3) ∨ g.guildId = 0) .invalidCheckpoint
  let total ← mapErr .coding g.profile.totalShards
  reject (g.roles.length ≠ total) .invalidCheckpoint
  let id ← g.calculateId C
  reject (id ≠ g.id) .invalidCheckpoint
  CodingGroupV2.validateRoles C g.profile 0 [] g.roles

lemma noOverflow_checkedDomain (profile : CodingProfile) (index : ℕ) (role : ShardRoleV2) :
    NoOverflow (role.checkedDomain C profile index) := by
  cases role with
  | information role =>
    refine noOverflow_reject_bind ?_
    refine noOverflow_bind (noOverflow_mapErr role.sector.commitment.noOverflow_validate)
      fun _ _ => ?_
    refine noOverflow_reject_bind ?_
    dsimp only
    split
    · refine noOverflow_reject_bind ?_
      refine noOverflow_bind (noOverflow_mapErr (noOverflow_merkleZeroCommitment C _))
        fun _ _ => ?_
      exact noOverflow_reject_bind (noOverflow_ok _)
    · exact noOverflow_reject_bind (noOverflow_ok _)
  | parity role =>
    refine noOverflow_reject_bind ?_
    refine noOverflow_bind (noOverflow_mapErr role.commitment.noOverflow_validate) fun _ _ => ?_
    exact noOverflow_reject_bind (noOverflow_ok _)

lemma noOverflow_validateRoles (profile : CodingProfile) (index : ℕ) (domains : List String)
    (roles : List ShardRoleV2) :
    NoOverflow (CodingGroupV2.validateRoles C profile index domains roles) := by
  induction roles generalizing index domains with
  | nil => exact noOverflow_ok ()
  | cons role roles ih =>
    refine noOverflow_bind (noOverflow_checkedDomain C profile index role) fun _ _ => ?_
    exact noOverflow_reject_bind (ih _ _)

lemma CodingGroupV2.noOverflow_validate (g : CodingGroupV2) : NoOverflow (g.validate C) := by
  refine noOverflow_bind (noOverflow_mapErr g.profile.noOverflow_validate) fun _ _ => ?_
  refine noOverflow_reject_bind ?_
  refine noOverflow_bind (noOverflow_mapErr g.profile.noOverflow_totalShards) fun _ _ => ?_
  refine noOverflow_reject_bind ?_
  refine noOverflow_bind (noOverflow_bind (noOverflow_canonicalBytes _) fun _ _ => noOverflow_ok _)
    fun _ _ => ?_
  exact noOverflow_reject_bind (noOverflow_validateRoles C _ _ _ _)

end Validate

end MutualBackup
