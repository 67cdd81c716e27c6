import MutualBackup.Framework.SelfDelimiting
import MutualBackup.Core.Attempt
import MutualBackup.Core.Merkle
import MutualBackup.Core.Revision

/-!
# The records of a coding attempt

The records of `attempt.rs` as they go over the wire.  A plan delegates one attempt, the manifest is
the coordinator's signed result, and the transcript collects all the evidence: the signed plan, the
signed manifest, the committed and the revealed challenge, the receipts of the parity holders and
the openings.

Plan and manifest are versioned by hand.  The version is written first and decides whether an
optional field follows, without a marker of its own.  The readers limit what they accept: at most
sixty-four roles, roots, witnesses, receipts and openings, failure domains of at most 256 bytes, one
leaf in an opening, and witnesses of at most half a mebibyte together.  The writers do not look at
these limits.
-/

namespace MutualBackup

open Framework Codec

namespace Attempt

/-! ## Records -/

/-- The delegation of one attempt as it is signed; `Core/Authority` has the part of it that a guild
checks.  The roots are there since version two. -/
structure CodingAttemptPlan where
  formatVersion : U16
  attemptId : Bytes 16
  checkpointHash : Bytes 32
  membershipEpoch : U64
  geometry : CodingPlanGeometry
  delegator : NodeId
  codingCoordinator : NodeId
  verificationCoordinator : NodeId
  expiresAtUnixSeconds : U64
  informationRoots : Option (List (Bytes 32))
  deriving DecidableEq, Repr

/-- The result of an attempt.  The information shards are there since version two, none for a
virtual zero. -/
structure CodingRootManifest where
  formatVersion : U16
  attemptId : Bytes 16
  planHash : Bytes 32
  group : CodingGroupV2
  informationBytes : Option (List (Option (List UInt8)))
  deriving DecidableEq, Repr

structure StagedStorageReceipt where
  formatVersion : U16
  attemptId : Bytes 16
  planHash : Bytes 32
  guildId : Bytes 32
  groupId : Bytes 32
  shardIndex : U16
  holder : NodeId
  commitment : MerkleCommitment
  deriving DecidableEq, Repr

structure CodingChallengeCommitment where
  formatVersion : U16
  attemptId : Bytes 16
  planHash : Bytes 32
  commitment : Bytes 32
  deriving DecidableEq, Repr

structure CodingChallengeReveal where
  formatVersion : U16
  attemptId : Bytes 16
  planHash : Bytes 32
  nonce : Bytes 32
  evidenceHash : Bytes 32
  deriving DecidableEq, Repr

structure CodingShardOpening where
  formatVersion : U16
  attemptId : Bytes 16
  planHash : Bytes 32
  verifier : NodeId
  challenge : Bytes 32
  shardIndex : U16
  commitment : MerkleCommitment
  proof : MerkleRangeProof
  deriving DecidableEq, Repr

structure CodingVerificationTranscript where
  formatVersion : U16
  verifiedAtUnixSeconds : U64
  plan : SignedRecord CodingAttemptPlan
  manifest : SignedRecord CodingRootManifest
  challengeCommitment : SignedRecord CodingChallengeCommitment
  stagedReceipts : List (SignedRecord StagedStorageReceipt)
  challengeReveal : SignedRecord CodingChallengeReveal
  openings : List (SignedRecord CodingShardOpening)
  deriving DecidableEq, Repr

/-- Raw limit of the information shards in a manifest. -/
def maxFullRootBindingBytes : ℕ := 512 * 1024

/-! ## Codecs -/

/-- `bounded::coding`: a vector that is read within the number of shards of a group. -/
def codingListCodec {α : Type} (c : Codec α) : Codec (List α) :=
  (list c).bounded fun as => as.length ≤ maxCodingShards

def parityPlacementCodec : Codec ParityPlacementV2 :=
  (pair NodeId.codec <| pair failureDomainCodec u16).iso
    (fun p => (p.holder, p.failureDomain, p.row)) (fun p => ⟨p.1, p.2.1, p.2.2⟩) fun _ => rfl

def geometryCodec : Codec CodingPlanGeometry :=
  (pair u16 <| pair (bytes 32) <| pair CodingProfile.codec <|
    pair (codingListCodec InformationRoleV2.codec)
      (codingListCodec parityPlacementCodec)).iso
    (fun g => (g.formatVersion, g.guildId, g.profile, g.information, g.parity))
    (fun p => ⟨p.1, p.2.1, p.2.2.1, p.2.2.2.1, p.2.2.2.2⟩) fun _ => rfl

/-- The field of `information_roots`, by version. -/
def informationRootsCodec (version : U16) : Codec (Option (List (Bytes 32))) :=
  if version = 1 then const none
  else if version = 2 ∨ version = 3 then present (codingListCodec (bytes 32))
  else never

def CodingAttemptPlan.codec : Codec CodingAttemptPlan := (dep u16 fun version =>
    pair (bytes 16) <| pair (bytes 32) <| pair u64 <|
    pair geometryCodec <| pair NodeId.codec <| pair NodeId.codec <|
    pair NodeId.codec <| pair u64 (informationRootsCodec version)).iso
    (fun p => (p.formatVersion, p.attemptId, p.checkpointHash, p.membershipEpoch, p.geometry,
      p.delegator, p.codingCoordinator, p.verificationCoordinator, p.expiresAtUnixSeconds,
      p.informationRoots))
    (fun ⟨version, attempt, checkpoint, epoch, geometry, delegator, coding, verification, expires,
        roots⟩ =>
      ⟨version, attempt, checkpoint, epoch, geometry, delegator, coding, verification, expires,
        roots⟩) fun _ => rfl

/-- The bytes that a witness takes from the budget. -/
def witnessLength (witness : Option (List UInt8)) : ℕ := (witness.map List.length).getD 0

/-- One witness, read within what is left of the budget. -/
def optionalWitnessCodec (remaining : ℕ) : Codec (Option (List UInt8)) :=
  option ((list u8).bounded fun bytes => bytes.length ≤ remaining)

/-- The loop of `WitnessSeed`. -/
def decodeWitnesses : ℕ → ℕ → List UInt8 → Option (List (Option (List UInt8)) × List UInt8)
  | 0, _, bs => some ([], bs)
  | n + 1, remaining, bs =>
    ((optionalWitnessCodec remaining).decode bs).bind fun p =>
      (decodeWitnesses n (remaining - witnessLength p.1) p.2).map fun q => (p.1 :: q.1, q.2)

lemma decodeWitnesses_encodeAll {ws : List (Option (List UInt8))} {remaining : ℕ}
    {bs : List UInt8} (rest : List UInt8) (hbudget : (ws.map witnessLength).sum ≤ remaining)
    (h : Codec.encodeAll (option (list u8)) ws = some bs) :
    decodeWitnesses ws.length remaining (bs ++ rest) = some (ws, rest) := by
  induction ws generalizing bs remaining with
  | nil =>
    obtain rfl := Option.some.inj h
    rfl
  | cons w ws ih =>
    obtain ⟨x, hx, hxy⟩ := Option.bind_eq_some_iff.mp h
    obtain ⟨y, hy, rfl⟩ := Option.map_eq_some_iff.mp hxy
    rw [List.map_cons, List.sum_cons] at hbudget
    have hread : (optionalWitnessCodec remaining).Readable w := by
      intro bytes hbytes
      have hlength : witnessLength w = bytes.length := by
        rw [witnessLength, Option.mem_def.mp hbytes]
        rfl
      exact ⟨fun _ _ => trivial, by omega⟩
    have hfirst : (optionalWitnessCodec remaining).decode (x ++ (y ++ rest)) =
        some (w, y ++ rest) := by
      refine (optionalWitnessCodec remaining).decode_encode _ hread ?_
      cases w with
      | none => exact hx
      | some bytes => exact hx
    rw [List.append_assoc, List.length_cons, decodeWitnesses, hfirst, Option.bind_some,
      ih (by show _ ≤ remaining - witnessLength w; omega) hy, Option.map_some]

/-- `WitnessSeed`: the information shards of a manifest, the budget shared by all of them.  The
sequences of version two and the byte strings of version three have the same bytes. -/
def witnessesCodec : Codec (List (Option (List UInt8))) where
  encode := (list (option (list u8))).encode
  decode bs := (u64.decode bs).bind fun p =>
    if maxCodingShards < p.1.val then none
    else decodeWitnesses p.1.val maxFullRootBindingBytes p.2
  Readable ws := ws.length ≤ maxCodingShards ∧ (ws.map witnessLength).sum ≤ maxFullRootBindingBytes
  decode_encode := by
    rintro ws bs rest ⟨hcount, hbudget⟩ hbs
    obtain ⟨hlength, y, hy, rfl⟩ := Codec.encode_list_eq_some.mp hbs
    have hread := u64.decode_encode (a := ⟨ws.length, hlength⟩) (y ++ rest) trivial rfl
    rw [List.append_assoc]
    refine Option.bind_eq_some_iff.mpr ⟨_, hread, ?_⟩
    rw [if_neg (not_lt.mpr hcount)]
    exact decodeWitnesses_encodeAll rest hbudget hy

/-- The field of `information_bytes`, by version. -/
def informationBytesCodec (version : U16) : Codec (Option (List (Option (List UInt8)))) :=
  if version = 1 then const none
  else if version = 2 ∨ version = 3 then present witnessesCodec
  else never

def CodingRootManifest.codec : Codec CodingRootManifest := (dep u16 fun version =>
    pair (bytes 16) <| pair (bytes 32) <| pair CodingGroupV2.codec
      (informationBytesCodec version)).iso
    (fun m => (m.formatVersion, m.attemptId, m.planHash, m.group, m.informationBytes))
    (fun p => ⟨p.1, p.2.1, p.2.2.1, p.2.2.2.1, p.2.2.2.2⟩) fun _ => rfl

def StagedStorageReceipt.codec : Codec StagedStorageReceipt :=
  (pair u16 <| pair (bytes 16) <| pair (bytes 32) <|
    pair (bytes 32) <| pair (bytes 32) <| pair u16 <|
    pair NodeId.codec MerkleCommitment.codec).iso
    (fun r => (r.formatVersion, r.attemptId, r.planHash, r.guildId, r.groupId, r.shardIndex,
      r.holder, r.commitment))
    (fun ⟨version, attempt, plan, guild, group, shard, holder, commitment⟩ =>
      ⟨version, attempt, plan, guild, group, shard, holder, commitment⟩) fun _ => rfl

def CodingChallengeCommitment.codec : Codec CodingChallengeCommitment :=
  (pair u16 <| pair (bytes 16) <| pair (bytes 32)
    (bytes 32)).iso
    (fun c => (c.formatVersion, c.attemptId, c.planHash, c.commitment))
    (fun p => ⟨p.1, p.2.1, p.2.2.1, p.2.2.2⟩) fun _ => rfl

def CodingChallengeReveal.codec : Codec CodingChallengeReveal :=
  (pair u16 <| pair (bytes 16) <| pair (bytes 32) <| pair (bytes 32) (bytes 32)).iso
    (fun r => (r.formatVersion, r.attemptId, r.planHash, r.nonce, r.evidenceHash))
    (fun p => ⟨p.1, p.2.1, p.2.2.1, p.2.2.2.1, p.2.2.2.2⟩) fun _ => rfl

/-- `deserialize_sample_proof`: the proof of an opening has one leaf at most. -/
def sampleProofCodec : Codec MerkleRangeProof := (pair u16 <| pair u32 <|
    pair ((list (bytes 16)).bounded fun leaves => leaves.length ≤ 1)
      ((list (bytes 32)).bounded fun siblings => siblings.length ≤ maxMerkleHeight)).iso
    (fun p => (p.formatVersion, p.startLeaf, p.leaves, p.siblings))
    (fun p => ⟨p.1, p.2.1, p.2.2.1, p.2.2.2⟩) fun _ => rfl

def CodingShardOpening.codec : Codec CodingShardOpening :=
  (pair u16 <| pair (bytes 16) <| pair (bytes 32) <|
    pair NodeId.codec <| pair (bytes 32) <| pair u16 <|
    pair MerkleCommitment.codec sampleProofCodec).iso
    (fun o => (o.formatVersion, o.attemptId, o.planHash, o.verifier, o.challenge, o.shardIndex,
      o.commitment, o.proof))
    (fun ⟨version, attempt, plan, verifier, challenge, shard, commitment, proof⟩ =>
      ⟨version, attempt, plan, verifier, challenge, shard, commitment, proof⟩) fun _ => rfl

def CodingVerificationTranscript.codec : Codec CodingVerificationTranscript :=
  (pair u16 <| pair u64 <| pair (SignedRecord.codec CodingAttemptPlan.codec) <|
    pair (SignedRecord.codec CodingRootManifest.codec) <|
    pair (SignedRecord.codec CodingChallengeCommitment.codec) <|
    pair (codingListCodec (SignedRecord.codec StagedStorageReceipt.codec)) <|
    pair (SignedRecord.codec CodingChallengeReveal.codec)
      (codingListCodec (SignedRecord.codec CodingShardOpening.codec))).iso
    (fun t => (t.formatVersion, t.verifiedAtUnixSeconds, t.plan, t.manifest, t.challengeCommitment,
      t.stagedReceipts, t.challengeReveal, t.openings))
    (fun ⟨version, verified, plan, manifest, challenge, receipts, reveal, openings⟩ =>
      ⟨version, verified, plan, manifest, challenge, receipts, reveal, openings⟩) fun _ => rfl

end Attempt

end MutualBackup
