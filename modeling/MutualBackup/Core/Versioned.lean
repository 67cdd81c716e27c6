import MutualBackup.Core.Checkpoint
import MutualBackup.Core.Transcript

/-!
# Versioned records are self-delimiting

Six records write their version by hand and let it decide which optional fields follow, without a
marker and without a length: the recovery bundle, the user revision, the packed catalog, the guild
checkpoint, and the plan and the manifest of a coding attempt.  `versioned_records_self_delimiting`
says of each of them, and of the transcript that nests a signed plan and a signed manifest, that an
encoding in front of anything is read back to the value it is of and to the rest, exactly when the
value is within the limits of its readers; and that, within the limits or not, equal encodings are
of equal values in all versions, and no encoding is a proper initial part of another.

The limits are those of the fields that are read with a bound.  The writers do not know them: a plan
with sixty-five roots has an encoding that no reader accepts (`plan_of_65_roots_is_not_read`).
-/

namespace MutualBackup

open Framework Attempt Codec

/-! ## The recovery bundle -/

/-- `RecoveryBundle`: what a publisher holds for the recovery of a subject.  The envelope of the key
is there since version two. -/
structure RecoveryBundle where
  formatVersion : U16
  subject : NodeId
  publisher : NodeId
  sequence : U64
  expiresAtUnixSeconds : U64
  keyEnvelope : Option RecoveryKeyEnvelope
  sealed : SealedRecoveryRecord
  deriving DecidableEq, Repr

/-- The field of `key_envelope`, by version. -/
def keyEnvelopeCodec (version : U16) : Codec (Option RecoveryKeyEnvelope) :=
  if version = 1 then const none
  else if version = 2 then present RecoveryKeyEnvelope.codec
  else never

def RecoveryBundle.codec : Codec RecoveryBundle := (dep u16 fun version =>
    pair NodeId.codec <| pair NodeId.codec <| pair u64 <|
    pair u64 <| pair (keyEnvelopeCodec version) SealedRecoveryRecord.codec).iso
    (fun b => (b.formatVersion, b.subject, b.publisher, b.sequence, b.expiresAtUnixSeconds,
      b.keyEnvelope, b.sealed))
    (fun ⟨version, subject, publisher, sequence, expires, envelope, sealed⟩ =>
      ⟨version, subject, publisher, sequence, expires, envelope, sealed⟩) fun _ => rfl

/-! ## Limits -/

/-- The failure domain of a role. -/
def ShardRoleV2.failureDomain : ShardRoleV2 → String
  | .information role => role.failureDomain
  | .parity role => role.failureDomain

structure CodingGroupV2.WithinLimits (g : CodingGroupV2) : Prop where
  roles : g.roles.length ≤ maxCodingShards
  domains : ∀ role ∈ g.roles, role.failureDomain.utf8ByteSize ≤ 256

structure CodingPlanGeometry.WithinLimits (g : CodingPlanGeometry) : Prop where
  information : g.information.length ≤ maxCodingShards
  informationDomains : ∀ role ∈ g.information, role.failureDomain.utf8ByteSize ≤ 256
  parity : g.parity.length ≤ maxCodingShards
  parityDomains : ∀ placement ∈ g.parity, placement.failureDomain.utf8ByteSize ≤ 256

structure Attempt.CodingAttemptPlan.WithinLimits (p : Attempt.CodingAttemptPlan) : Prop where
  geometry : p.geometry.WithinLimits
  roots : ∀ roots ∈ p.informationRoots, roots.length ≤ maxCodingShards

structure Attempt.CodingRootManifest.WithinLimits (m : Attempt.CodingRootManifest) : Prop where
  group : m.group.WithinLimits
  witnesses : ∀ witnesses ∈ m.informationBytes, witnesses.length ≤ maxCodingShards ∧
    (witnesses.map witnessLength).sum ≤ maxFullRootBindingBytes

structure Attempt.CodingVerificationTranscript.WithinLimits
    (t : Attempt.CodingVerificationTranscript) : Prop where
  plan : t.plan.value.WithinLimits
  manifest : t.manifest.value.WithinLimits
  receipts : t.stagedReceipts.length ≤ maxCodingShards
  openings : t.openings.length ≤ maxCodingShards
  proofs : ∀ opening ∈ t.openings, opening.value.proof.leaves.length ≤ 1 ∧
    opening.value.proof.siblings.length ≤ maxMerkleHeight

structure PackedCatalog.WithinLimits (c : PackedCatalog) : Prop where
  slots : ∀ sector ∈ c.sectors, sector.slots.length ≤ maxPackedSlots
  siblings : ∀ authentication ∈ c.sourceAuthentication, ∀ entry ∈ authentication,
    entry.proof.siblings.length ≤ maxMerkleHeight

def GuildCheckpoint.WithinLimits (c : GuildCheckpoint) : Prop :=
  ∀ catalog ∈ c.packingCatalog, catalog.WithinLimits

/-! ## Fields without limits -/

lemma readable_nodeId (n : NodeId) : NodeId.codec.Readable n := trivial

lemma readable_merkleCommitment (m : MerkleCommitment) : MerkleCommitment.codec.Readable m := by
  simp [MerkleCommitment.codec]

lemma readable_codingProfile (p : CodingProfile) : CodingProfile.codec.Readable p := by
  simp [CodingProfile.codec, ReedSolomonConstruction.codec]

lemma readable_rangeSectorRef (r : RangeSectorRef) : RangeSectorRef.codec.Readable r := by
  simp [RangeSectorRef.codec, readable_merkleCommitment]

lemma readable_sealedRecoveryRecord (r : SealedRecoveryRecord) :
    SealedRecoveryRecord.codec.Readable r := by
  simp [SealedRecoveryRecord.codec]

lemma readable_recoveryBundle (b : RecoveryBundle) : RecoveryBundle.codec.Readable b := by
  have henvelope : ∀ version o, (keyEnvelopeCodec version).Readable o := by
    intro version o
    unfold keyEnvelopeCodec
    split_ifs
    · trivial
    · simp [RecoveryKeyEnvelope.codec, NodeId.codec, RecoveryPublicKey.codec,
        readable_sealedRecoveryRecord]
    · trivial
  simp [RecoveryBundle.codec, NodeId.codec, henvelope, readable_sealedRecoveryRecord]

lemma readable_sectorRef (r : SectorRef) : SectorRef.codec.Readable r := by
  simp [SectorRef.codec]

lemma readable_userRevision (r : UserRevision) : UserRevision.codec.Readable r := by
  have hcommitments : ∀ version o, (sectorCommitmentsCodec version).Readable o := by
    intro version o
    unfold sectorCommitmentsCodec
    split_ifs
    · trivial
    · simp [readable_merkleCommitment]
    · trivial
  simp [UserRevision.codec, NodeId.codec, Uuid.codec, hcommitments, readable_sectorRef]

lemma readable_signedRecord {α : Type} {c : Codec α} (h : ∀ a, c.Readable a) (r : SignedRecord α) :
    (SignedRecord.codec c).Readable r := by
  simp [SignedRecord.codec, NodeId.codec, h]

lemma readable_packedSlot (s : PackedSlot) : PackedSlot.codec.Readable s := by
  simp [PackedSlot.codec, PackedSourceChunk.codec, SourceChunkId.codec, NodeId.codec]

lemma readable_authority (version : U16) (o : Option CheckpointAuthority) :
    (authorityCodec version).Readable o := by
  unfold authorityCodec
  split_ifs
  · trivial
  · simp [CheckpointAuthority.codec, QuorumPolicy.codec, QuorumRule.codec]
  · trivial

lemma readable_codingGroup (g : CodingGroup) : CodingGroup.codec.Readable g := by
  simp [CodingGroup.codec, CodingGroup.bodyCodec, ShardRole.codec, InformationRole.codec,
    ParityRole.codec, NodeId.codec, readable_sectorRef]

/-! ## The records of an attempt -/

section Attempts

lemma exact_failureDomain : failureDomainCodec.Exact fun s => s.utf8ByteSize ≤ 256 :=
  .bounded_of_readable (fun _ => readable_string) _

/-- `decode_siblings`. -/
lemma exact_siblings : ((list (bytes 32)).bounded
    fun siblings => siblings.length ≤ maxMerkleHeight).Exact
    fun siblings => siblings.length ≤ maxMerkleHeight :=
  .bounded_of_readable (fun _ _ _ => trivial) _

lemma exact_codingList {α : Type} {c : Codec α} {L : α → Prop} (hc : c.Exact L) :
    (codingListCodec c).Exact fun as => (∀ a ∈ as, L a) ∧ as.length ≤ maxCodingShards :=
  hc.list.bounded _

lemma exact_informationRole :
    InformationRoleV2.codec.Exact fun role => role.failureDomain.utf8ByteSize ≤ 256 :=
  ((exact_failureDomain.before readable_rangeSectorRef).after readable_nodeId).iso fun _ => rfl

lemma exact_parityRole :
    ParityRoleV2.codec.Exact fun role => role.failureDomain.utf8ByteSize ≤ 256 := by
  refine ((exact_failureDomain.before fun p => ?_).after readable_nodeId).iso fun _ => rfl
  exact ⟨trivial, readable_merkleCommitment p.2⟩

lemma exact_shardRole :
    ShardRoleV2.codec.Exact fun role => role.failureDomain.utf8ByteSize ≤ 256 := by
  refine Codec.Exact.enum (fun v hv => ?_) fun v hv p => ?_
  · simp only [List.mem_cons, List.not_mem_nil, or_false] at hv
    rcases hv with rfl | rfl
    · exact ⟨_, exact_informationRole⟩
    · exact ⟨_, exact_parityRole⟩
  · simp only [List.mem_cons, List.not_mem_nil, or_false] at hv
    rcases hv with rfl | rfl
    · simp [InformationRoleV2.codec, failureDomainCodec, readable_nodeId, readable_rangeSectorRef,
        ShardRoleV2.failureDomain]
    · simp [ParityRoleV2.codec, failureDomainCodec, readable_nodeId, readable_merkleCommitment,
        ShardRoleV2.failureDomain]

lemma exact_codingGroupV2 : CodingGroupV2.codec.Exact CodingGroupV2.WithinLimits := by
  refine Codec.Exact.congr ((((((exact_shardRole.list.bounded _).after readable_codingProfile).after
    fun _ => trivial).after fun _ => trivial).after fun _ => trivial).iso fun _ => rfl) fun g => ?_
  exact ⟨fun h => ⟨h.2, h.1⟩, fun h => ⟨h.domains, h.roles⟩⟩

lemma exact_parityPlacement :
    parityPlacementCodec.Exact fun placement => placement.failureDomain.utf8ByteSize ≤ 256 :=
  ((exact_failureDomain.before fun _ => trivial).after readable_nodeId).iso fun _ => rfl

lemma exact_geometry : geometryCodec.Exact CodingPlanGeometry.WithinLimits := by
  refine Codec.Exact.congr ((((((exact_codingList exact_informationRole).pair
    (exact_codingList exact_parityPlacement)).after readable_codingProfile).after
    fun _ => trivial).after fun _ => trivial).iso fun _ => rfl) fun g => ?_
  exact ⟨fun h => ⟨h.1.2, h.1.1, h.2.2, h.2.1⟩,
    fun h => ⟨⟨h.informationDomains, h.information⟩, h.parityDomains, h.parity⟩⟩

lemma exact_informationRoots (version : U16) :
    (informationRootsCodec version).Exact fun o => ∀ roots ∈ o, roots.length ≤ maxCodingShards := by
  unfold informationRootsCodec
  split_ifs
  · exact .const none _ fun roots h => by cases h
  · refine (exact_codingList (.of_readable fun _ => trivial)).present.congr fun o => ?_
    exact forall₂_congr fun roots _ => ⟨And.right, fun h => ⟨fun _ _ => trivial, h⟩⟩
  · exact .never _

lemma exact_plan :
    Attempt.CodingAttemptPlan.codec.Exact Attempt.CodingAttemptPlan.WithinLimits := by
  have htail : ∀ version, (pair NodeId.codec <| pair NodeId.codec <|
      pair NodeId.codec <| pair u64 (informationRootsCodec version)).Exact
      fun p => ∀ roots ∈ p.2.2.2.2, roots.length ≤ maxCodingShards := fun version =>
    ((((exact_informationRoots version).after fun _ => trivial).after readable_nodeId).after
      readable_nodeId).after readable_nodeId
  refine Codec.Exact.congr (Codec.Exact.iso (Codec.Exact.dep
    (Codec.Exact.of_readable fun _ => readable_u16) fun version =>
      (((exact_geometry.pair (htail version)).after fun _ => trivial).after fun _ => trivial).after
        fun _ => trivial) fun _ => rfl) fun p => ?_
  exact ⟨fun h => ⟨h.2.1, h.2.2⟩, fun h => ⟨trivial, h.geometry, h.roots⟩⟩

/-- The reader of the witnesses stays within the budget. -/
lemma sound_decodeWitnesses {n remaining : ℕ} {bs rest : List UInt8}
    {ws : List (Option (List UInt8))} (h : decodeWitnesses n remaining bs = some (ws, rest)) :
    ws.length = n ∧ (ws.map witnessLength).sum ≤ remaining := by
  induction n generalizing remaining bs ws with
  | zero =>
    obtain ⟨rfl, -⟩ := Prod.mk.inj (Option.some.inj h)
    exact ⟨rfl, Nat.zero_le _⟩
  | succ n ih =>
    obtain ⟨p, hp, hpq⟩ := Option.bind_eq_some_iff.mp h
    obtain ⟨q, hq, heq⟩ := Option.map_eq_some_iff.mp hpq
    obtain ⟨rfl, rfl⟩ := Prod.mk.inj heq
    obtain ⟨hlength, hsum⟩ := ih hq
    have hread : (optionalWitnessCodec remaining).Readable p.1 := by
      have hexact : ((list u8).bounded fun bytes => bytes.length ≤ remaining).Exact
          fun bytes => bytes.length ≤ remaining :=
        .bounded_of_readable (fun _ _ _ => trivial) _
      exact hexact.option.sound hp
    have hfirst : witnessLength p.1 ≤ remaining := by
      cases hw : p.1 with
      | none => exact Nat.zero_le _
      | some bytes => exact (hread bytes hw).2
    rw [List.length_cons, List.map_cons, List.sum_cons]
    exact ⟨by rw [hlength], by omega⟩

lemma exact_witnesses : witnessesCodec.Exact fun ws => ws.length ≤ maxCodingShards ∧
    (ws.map witnessLength).sum ≤ maxFullRootBindingBytes where
  unambiguous := by
    refine Codec.unambiguous_list (Codec.Exact.of_readable fun o => ?_)
    exact fun _ _ _ _ => trivial
  sound := by
    intro bs rest ws hread
    obtain ⟨p, -, hp⟩ := Option.bind_eq_some_iff.mp hread
    split_ifs at hp with hcount
    obtain ⟨hlength, hsum⟩ := sound_decodeWitnesses hp
    exact ⟨hlength.trans_le (not_lt.mp hcount), hsum⟩
  limits _ := Iff.rfl

lemma exact_informationBytes (version : U16) :
    (informationBytesCodec version).Exact fun o => ∀ ws ∈ o, ws.length ≤ maxCodingShards ∧
      (ws.map witnessLength).sum ≤ maxFullRootBindingBytes := by
  unfold informationBytesCodec
  split_ifs
  · exact .const none _ fun ws h => by cases h
  · exact exact_witnesses.present
  · exact .never _

lemma exact_manifest : CodingRootManifest.codec.Exact CodingRootManifest.WithinLimits := by
  refine Codec.Exact.congr (Codec.Exact.iso (Codec.Exact.dep
    (Codec.Exact.of_readable fun _ => readable_u16) fun version =>
      ((exact_codingGroupV2.pair (exact_informationBytes version)).after fun _ => trivial).after
        fun _ => trivial) fun _ => rfl) fun m => ?_
  exact ⟨fun h => ⟨h.2.1, h.2.2⟩, fun h => ⟨trivial, h.group, h.witnesses⟩⟩

lemma exact_signedRecord {α : Type} {c : Codec α} {L : α → Prop} (hc : c.Exact L) :
    (SignedRecord.codec c).Exact fun r => L r.value := by
  refine ((hc.before fun _ _ _ => trivial).after readable_nodeId).iso fun _ => rfl

lemma exact_opening : CodingShardOpening.codec.Exact fun o => o.proof.leaves.length ≤ 1 ∧
    o.proof.siblings.length ≤ maxMerkleHeight := by
  have hleaves : ((list (bytes 16)).bounded fun leaves => leaves.length ≤ 1).Exact
      fun leaves => leaves.length ≤ 1 := .bounded_of_readable (fun _ _ _ => trivial) _
  have hproof : sampleProofCodec.Exact fun p => p.leaves.length ≤ 1 ∧
      p.siblings.length ≤ maxMerkleHeight :=
    (((hleaves.pair exact_siblings).after fun _ => trivial).after fun _ => trivial).iso fun _ => rfl
  exact (((((((hproof.after readable_merkleCommitment).after fun _ => trivial).after
    fun _ => trivial).after readable_nodeId).after fun _ => trivial).after fun _ => trivial).after
      fun _ => trivial).iso fun _ => rfl

lemma exact_transcript :
    CodingVerificationTranscript.codec.Exact CodingVerificationTranscript.WithinLimits := by
  have hreceipt : ∀ r, (SignedRecord.codec StagedStorageReceipt.codec).Readable r :=
    readable_signedRecord fun r => by
      simp [StagedStorageReceipt.codec, readable_nodeId, readable_merkleCommitment]
  have hcommitment : ∀ r, (SignedRecord.codec CodingChallengeCommitment.codec).Readable r :=
    readable_signedRecord fun r => by simp [CodingChallengeCommitment.codec]
  have hreveal : ∀ r, (SignedRecord.codec CodingChallengeReveal.codec).Readable r :=
    readable_signedRecord fun r => by simp [CodingChallengeReveal.codec]
  refine Codec.Exact.congr ((((((exact_signedRecord exact_plan).pair
    ((exact_signedRecord exact_manifest).pair
      (((exact_codingList (.of_readable hreceipt)).pair
        ((exact_codingList (exact_signedRecord exact_opening)).after hreveal)).after
          hcommitment))).after fun _ => trivial).after fun _ => trivial).iso fun _ => rfl))
    fun t => ?_
  exact ⟨fun h => ⟨h.1, h.2.1, h.2.2.1.2, h.2.2.2.2, h.2.2.2.1⟩,
    fun h => ⟨h.plan, h.manifest, ⟨fun _ _ => trivial, h.receipts⟩, h.proofs, h.openings⟩⟩

end Attempts

/-! ## The catalog and the checkpoint -/

section Checkpoints

lemma exact_sectorDescriptor : PackedSectorDescriptor.codec.Exact fun d =>
    d.slots.length ≤ maxPackedSlots := by
  have hslots : ((list PackedSlot.codec).bounded fun slots =>
      slots.length ≤ maxPackedSlots).Exact fun slots => slots.length ≤ maxPackedSlots :=
    .bounded_of_readable (fun _ s _ => readable_packedSlot s) _
  exact ((((hslots.after readable_merkleCommitment).after fun _ => trivial).after
    fun _ => trivial).after fun _ => trivial).iso fun _ => rfl

lemma exact_subtreeProof : MerkleSubtreeProof.codec.Exact fun p =>
    p.siblings.length ≤ maxMerkleHeight :=
  ((((exact_siblings.after fun _ => trivial).after fun _ => trivial).after
    fun _ => trivial).after fun _ => trivial).iso fun _ => rfl

lemma exact_authentication : PackedSourceAuthentication.codec.Exact fun a =>
    a.proof.siblings.length ≤ maxMerkleHeight := by
  refine ((exact_subtreeProof.after readable_merkleCommitment).after fun id => ?_).iso fun _ => rfl
  simp [SourceChunkId.codec, readable_nodeId]

section

variable (version : U16)

lemma exact_sourceAuthentication :
    (sourceAuthenticationCodec version).Exact fun o => ∀ authentication ∈ o,
      ∀ entry ∈ authentication, entry.proof.siblings.length ≤ maxMerkleHeight := by
  unfold sourceAuthenticationCodec
  split_ifs
  · exact .const none _ fun authentication h => by cases h
  · exact exact_authentication.list.present
  · exact .never _

lemma readable_legacyBindings (o : Option (List (SignedRecord LegacyPackingBinding))) :
    (legacyBindingsCodec version).Readable o := by
  unfold legacyBindingsCodec
  split_ifs
  · refine fun bindings _ binding _ => readable_signedRecord (fun b => ?_) binding
    simp [LegacyPackingBinding.codec, readable_nodeId, readable_merkleCommitment]
  · trivial

lemma readable_legacyAttestations (o : Option (List (SignedRecord LegacyPackingAttestation))) :
    (legacyAttestationsCodec version).Readable o := by
  unfold legacyAttestationsCodec
  split_ifs
  · refine fun attestations _ attestation _ => readable_signedRecord (fun a => ?_) attestation
    simp [LegacyPackingAttestation.codec, readable_nodeId, readable_merkleCommitment]
  · trivial

end

lemma exact_catalog : PackedCatalog.codec.Exact PackedCatalog.WithinLimits := by
  have hrest : ∀ version, (pair (sourceAuthenticationCodec version) <|
      pair (legacyBindingsCodec version) (legacyAttestationsCodec version)).Exact
      fun p => ∀ authentication ∈ p.1, ∀ entry ∈ authentication,
        entry.proof.siblings.length ≤ maxMerkleHeight := fun version =>
    (exact_sourceAuthentication version).before fun p =>
      ⟨readable_legacyBindings version p.1, readable_legacyAttestations version p.2⟩
  have hprofile : ∀ p, PackingProfile.codec.Readable p := fun p => by simp [PackingProfile.codec]
  have hbody : PackedCatalog.bodyCodec.Exact fun p => True ∧
      (∀ sector ∈ p.2.2.2.2.1, sector.slots.length ≤ maxPackedSlots) ∧
        ∀ authentication ∈ p.2.2.2.2.2.1, ∀ entry ∈ authentication,
          entry.proof.siblings.length ≤ maxMerkleHeight :=
    Codec.Exact.dep (Codec.Exact.of_readable fun _ => readable_u16) fun version =>
      (((exact_sectorDescriptor.list.pair (hrest version)).after hprofile).after
        fun _ _ _ => trivial).after fun _ => trivial
  refine Codec.Exact.congr ((hbody.after fun _ => trivial).iso fun _ => rfl) fun c => ?_
  exact ⟨fun h => ⟨h.2.1, h.2.2⟩, fun h => ⟨trivial, h.slots, h.siblings⟩⟩

lemma exact_packingCatalog (version : U16) :
    (packingCatalogCodec version).Exact fun o => ∀ catalog ∈ o, catalog.WithinLimits := by
  unfold packingCatalogCodec
  split_ifs
  · exact exact_catalog.present
  · exact .const none _ fun catalog h => by cases h

lemma exact_checkpoint : GuildCheckpoint.codec.Exact GuildCheckpoint.WithinLimits := by
  have hmember : ∀ m, Member.codec.Readable m := fun m => by
    simp [Member.codec, readable_nodeId, RecoveryPublicKey.codec]
  have hfence : ∀ f, WriterFence.codec.Readable f := fun f => by
    simp [WriterFence.codec, readable_nodeId]
  have htombstone : ∀ t, RevisionTombstone.codec.Readable t := fun t => by
    simp [RevisionTombstone.codec, readable_nodeId, Uuid.codec]
  have htail : ∀ version, (pair (list CodingGroup.codec) <|
      pair (authorityCodec version) (packingCatalogCodec version)).Exact
      fun p => ∀ catalog ∈ p.2.2, catalog.WithinLimits := fun version =>
    ((exact_packingCatalog version).after (readable_authority version)).after
      fun _ g _ => readable_codingGroup g
  have hlists : ∀ version, (pair (list Member.codec) <|
      pair (list WriterFence.codec) <| pair (list RevisionTombstone.codec) <|
      pair (list (SignedRecord.codec UserRevision.codec)) <|
      pair (list CodingGroup.codec) <|
      pair (authorityCodec version) (packingCatalogCodec version)).Exact
      fun p => ∀ catalog ∈ p.2.2.2.2.2.2, catalog.WithinLimits := fun version =>
    ((((htail version).after fun _ r _ => readable_signedRecord readable_userRevision r).after
      fun _ t _ => htombstone t).after fun _ f _ => hfence f).after fun _ m _ => hmember m
  refine Codec.Exact.congr (Codec.Exact.iso (Codec.Exact.dep
    (Codec.Exact.of_readable fun _ => readable_u16) fun version =>
      ((((hlists version).after fun _ _ _ => trivial).after fun _ => trivial).after
        fun _ => trivial).after fun _ => trivial) fun _ => rfl) fun c => ?_
  exact ⟨And.right, fun h => ⟨trivial, h⟩⟩

end Checkpoints

/-! ## The result -/

/-- **The versioned records are self-delimiting within the limits of their readers**, and so is the
transcript that nests two of them. -/
theorem versioned_records_self_delimiting :
    RecoveryBundle.codec.SelfDelimiting (fun _ => True) ∧
      UserRevision.codec.SelfDelimiting (fun _ => True) ∧
      PackedCatalog.codec.SelfDelimiting PackedCatalog.WithinLimits ∧
      GuildCheckpoint.codec.SelfDelimiting GuildCheckpoint.WithinLimits ∧
      Attempt.CodingAttemptPlan.codec.SelfDelimiting Attempt.CodingAttemptPlan.WithinLimits ∧
      CodingRootManifest.codec.SelfDelimiting CodingRootManifest.WithinLimits ∧
      CodingVerificationTranscript.codec.SelfDelimiting
        CodingVerificationTranscript.WithinLimits := by
  refine ⟨?_, ?_, exact_catalog.selfDelimiting, exact_checkpoint.selfDelimiting,
    exact_plan.selfDelimiting, exact_manifest.selfDelimiting, exact_transcript.selfDelimiting⟩
  · exact (Codec.Exact.of_readable readable_recoveryBundle).selfDelimiting
  · exact (Codec.Exact.of_readable readable_userRevision).selfDelimiting

/-- A plan with one root more than a group has shards. -/
def planOf65Roots : Attempt.CodingAttemptPlan :=
  { formatVersion := 2
    attemptId := 1
    checkpointHash := 1
    membershipEpoch := 1
    geometry :=
      { formatVersion := 1
        guildId := 1
        profile := ⟨1, .galois8Vandermonde, 1, 1, 16⟩
        information := []
        parity := [] }
    delegator := ⟨1⟩
    codingCoordinator := ⟨1⟩
    verificationCoordinator := ⟨2⟩
    expiresAtUnixSeconds := 1
    informationRoots := some (List.replicate 65 1) }

theorem plan_of_65_roots_is_not_read :
    ∃ bytes, Attempt.CodingAttemptPlan.codec.encode planOf65Roots = some bytes ∧
      Attempt.CodingAttemptPlan.codec.decode bytes = none := by
  have h : (Attempt.CodingAttemptPlan.codec.encode planOf65Roots).map
      Attempt.CodingAttemptPlan.codec.decode = some none := by decide +kernel
  obtain ⟨bytes, hbytes, hnone⟩ := Option.map_eq_some_iff.mp h
  exact ⟨bytes, hbytes, hnone⟩

end MutualBackup
