import MutualBackup.Framework.Narrowing
import MutualBackup.Core.Authority
import MutualBackup.Core.Versioned
import MutualBackup.Guild.Agreement

/-!
# The bounded decoder of events

`guild/bounded_event.rs`.  A replay reads certified events from a store that it does not trust, so
it reads them with limits on every nested vector and string.  Its decoder has an enumeration of its
own, `BoundedKind`, that mirrors the twelve kinds of event with bounded fields, and a map back.

`bounded_event_decoder_exact` says that this is the general decoder with limits: on every input
within the limit of an event it returns exactly the values that the general decoder reads from the
whole input, that have the input as their encoding, and that are within the declared bounds.  And no
event that a guild has certified is kept out: an event that some state accepts has an encoding of at
most `guildEventBytes`, and the bounded decoder reads it.  The second part is an account of sizes:
at most 64 roles with a failure domain of 256 bytes each, or an envelope of 4096 bytes, and at most
256 signatures of 64 bytes.
-/

namespace MutualBackup

open Framework List Codec

/-! ## The decoder -/

/-- `member`: the failure domain is bounded. -/
def boundedMemberCodec : Codec Member :=
  (pair NodeId.codec <| pair RecoveryPublicKey.codec failureDomainCodec).iso
    (fun m => (m.nodeId, m.recoveryPublicKey, m.failureDomain))
    (fun p => ⟨p.1, p.2.1, p.2.2⟩) Eq.refl

/-- One entry of `signatures`. -/
def boundedSignatureCodec : Codec MemberSignature :=
  (pair NodeId.codec <| (list u8).bounded fun bytes => bytes.length ≤ 64).iso
    (fun s => (s.signer, s.signature)) (fun p => ⟨p.1, p.2⟩) Eq.refl

/-- `signatures`. -/
def boundedSignaturesCodec : Codec (List MemberSignature) :=
  (list boundedSignatureCodec).bounded fun signatures => signatures.length ≤ maxDynamicMembers

/-- `Sealed`: the ciphertext is bounded. -/
def boundedSealedCodec : Codec SealedRecoveryRecord :=
  (pair u16 <| pair (Codec.bytes 32) <| pair (Codec.bytes 24) <|
    (list u8).bounded fun bytes => bytes.length ≤ 4096).iso
    (fun r => (r.formatVersion, r.ephemeralPublicKey, r.nonce, r.ciphertext))
    (fun p => ⟨p.1, p.2.1, p.2.2.1, p.2.2.2⟩) Eq.refl

/-- `envelope`. -/
def boundedEnvelopeCodec : Codec RecoveryKeyEnvelope :=
  (pair u16 <| pair (bytes 32) <| pair NodeId.codec <|
    pair u64 <| pair RecoveryPublicKey.codec boundedSealedCodec).iso
    (fun e => (e.formatVersion, e.guildId, e.subject, e.epoch, e.publicKey, e.sealedPrivateKey))
    (fun p => ⟨p.1, p.2.1, p.2.2.1, p.2.2.2.1, p.2.2.2.2.1, p.2.2.2.2.2⟩) Eq.refl

/-- `Kind`: variant order and field order as in `GuildEventKind`. -/
inductive BoundedKind where
  | addMember (member : Member)
  | removeMember (nodeId : NodeId)
  | relabelMember (nodeId : NodeId) (failureDomain : String)
  | setQuorum (policy : QuorumPolicy)
  | rotateWriterKey (owner : NodeId) (epoch : U64) (publicKey : Bytes 32)
  | revokeWriterKey (owner : NodeId) (epoch : U64)
  | rotateRecoveryKey (envelope : RecoveryKeyEnvelope)
  | revokeRecoveryKey (subject : NodeId) (epoch : U64)
  | addCodingGroup (group : CodingGroupV2)
  | retireCodingGroup (groupId : Bytes 32) (retainThroughEvent : U64)
  | forgetCodingGroup (groupId : Bytes 32)
  | addCodingGroupBound (group : CodingGroupV2) (transcriptHash : Bytes 32)
  deriving DecidableEq, Repr

def BoundedKind.codec : Codec BoundedKind := enum
    [{ codec := boundedMemberCodec, make := .addMember,
       match? := fun | .addMember m => some m | _ => none },
     { codec := NodeId.codec, make := .removeMember,
       match? := fun | .removeMember n => some n | _ => none },
     { codec := pair NodeId.codec failureDomainCodec, make := fun p => .relabelMember p.1 p.2,
       match? := fun | .relabelMember n d => some (n, d) | _ => none },
     { codec := QuorumPolicy.codec, make := .setQuorum,
       match? := fun | .setQuorum p => some p | _ => none },
     { codec := pair NodeId.codec <| pair u64 (bytes 32),
       make := fun p => .rotateWriterKey p.1 p.2.1 p.2.2,
       match? := fun | .rotateWriterKey o e k => some (o, e, k) | _ => none },
     { codec := pair NodeId.codec u64, make := fun p => .revokeWriterKey p.1 p.2,
       match? := fun | .revokeWriterKey o e => some (o, e) | _ => none },
     { codec := boundedEnvelopeCodec, make := .rotateRecoveryKey,
       match? := fun | .rotateRecoveryKey e => some e | _ => none },
     { codec := pair NodeId.codec u64, make := fun p => .revokeRecoveryKey p.1 p.2,
       match? := fun | .revokeRecoveryKey o e => some (o, e) | _ => none },
     { codec := CodingGroupV2.codec, make := .addCodingGroup,
       match? := fun | .addCodingGroup g => some g | _ => none },
     { codec := pair (bytes 32) u64, make := fun p => .retireCodingGroup p.1 p.2,
       match? := fun | .retireCodingGroup g r => some (g, r) | _ => none },
     { codec := bytes 32, make := .forgetCodingGroup,
       match? := fun | .forgetCodingGroup g => some g | _ => none },
     { codec := pair CodingGroupV2.codec (bytes 32), make := fun p => .addCodingGroupBound p.1 p.2,
       match? := fun | .addCodingGroupBound g t => some (g, t) | _ => none }] (by decide)

/-- `From<Kind> for GuildEventKind`. -/
def BoundedKind.into : BoundedKind → GuildEventKind
  | .addMember member => .addMember member
  | .removeMember nodeId => .removeMember nodeId
  | .relabelMember nodeId failureDomain => .relabelMember nodeId failureDomain
  | .setQuorum policy => .setQuorum policy
  | .rotateWriterKey owner epoch publicKey => .rotateWriterKey owner epoch publicKey
  | .revokeWriterKey owner epoch => .revokeWriterKey owner epoch
  | .rotateRecoveryKey envelope => .rotateRecoveryKey envelope
  | .revokeRecoveryKey subject epoch => .revokeRecoveryKey subject epoch
  | .addCodingGroup group => .addCodingGroup group
  | .retireCodingGroup groupId retainThroughEvent => .retireCodingGroup groupId retainThroughEvent
  | .forgetCodingGroup groupId => .forgetCodingGroup groupId
  | .addCodingGroupBound group transcriptHash => .addCodingGroupBound group transcriptHash

/-- `Event`. -/
structure BoundedEvent where
  formatVersion : U16
  guildId : Bytes 32
  sequence : U64
  parent : Bytes 32
  kind : BoundedKind

/-- `Certificate`. -/
structure BoundedCertificate where
  event : BoundedEvent
  signatures : List MemberSignature

def BoundedEvent.codec : Codec BoundedEvent := (pair u16 <| pair (bytes 32) <| pair u64 <|
    pair (bytes 32) BoundedKind.codec).iso
    (fun e => (e.formatVersion, e.guildId, e.sequence, e.parent, e.kind))
    (fun p => ⟨p.1, p.2.1, p.2.2.1, p.2.2.2.1, p.2.2.2.2⟩) fun _ => rfl

def BoundedCertificate.codec : Codec BoundedCertificate :=
  (pair BoundedEvent.codec boundedSignaturesCodec).iso
    (fun c => (c.event, c.signatures)) (fun p => ⟨p.1, p.2⟩) fun _ => rfl

def BoundedEvent.toEvent (e : BoundedEvent) : GuildEvent :=
  { formatVersion := e.formatVersion
    guildId := e.guildId
    sequence := e.sequence
    parent := e.parent
    kind := e.kind.into }

def BoundedCertificate.toCertified (c : BoundedCertificate) : QuorumGuildEvent :=
  { event := c.event.toEvent, signatures := c.signatures }

/-- `canonical_bytes_bounded`. -/
def canonicalBytesBounded {α : Type} (c : Codec α) (a : α) (limit : ℕ) :
    Outcome ModelError (List UInt8) := do
  let _ ← canonicalSizeBounded c a limit
  canonicalBytes c a

/-- `QuorumGuildEvent::decode_bounded`. -/
def QuorumGuildEvent.decodeBounded (bytes : List UInt8) :
    Outcome GuildStateError QuorumGuildEvent := do
  reject (bytes = [] ∨ guildEventBytes < bytes.length)
    (.model (.encodingTooLarge guildEventBytes))
  let value ← mapErr .model (decodeCanonical BoundedCertificate.codec bytes)
  let encoded ← mapErr .model
    (canonicalBytesBounded QuorumGuildEvent.codec value.toCertified guildEventBytes)
  reject (encoded ≠ bytes) .invalidEvent
  pure value.toCertified

/-! ## The declared bounds -/

/-- The bounds that the fields of a kind declare.  A coding group has its limits in both decoders.
-/
def GuildEventKind.WithinBounds : GuildEventKind → Prop
  | .addMember member => member.failureDomain.utf8ByteSize ≤ 256
  | .relabelMember _ failureDomain => failureDomain.utf8ByteSize ≤ 256
  | .rotateRecoveryKey envelope => envelope.sealedPrivateKey.ciphertext.length ≤ 4096
  | _ => True

structure QuorumGuildEvent.WithinBounds (c : QuorumGuildEvent) : Prop where
  kind : c.event.kind.WithinBounds
  signatures : c.signatures.length ≤ maxDynamicMembers
  signature : ∀ signature ∈ c.signatures, signature.signature.length ≤ 64

/-! ## It narrows the general decoder -/

lemma narrows_member : Narrows boundedMemberCodec Member.codec id fun m =>
    m.failureDomain.utf8ByteSize ≤ 256 := by
  have hdomain : Narrows failureDomainCodec string id fun s => s.utf8ByteSize ≤ 256 :=
    .limit _ _
  exact ((hdomain.after _).after _).iso (fun _ => rfl) fun _ => Iff.rfl

lemma narrows_envelope : Narrows boundedEnvelopeCodec RecoveryKeyEnvelope.codec id fun e =>
    e.sealedPrivateKey.ciphertext.length ≤ 4096 := by
  have hsealed : Narrows boundedSealedCodec SealedRecoveryRecord.codec id fun r =>
      r.ciphertext.length ≤ 4096 := by
    exact ((((Narrows.limit _ _).after _).after _).after _).iso (fun _ => rfl) fun _ => Iff.rfl
  exact (((((hsealed.after _).after _).after _).after _).after _).iso (fun _ => rfl)
    fun _ => Iff.rfl

lemma narrows_signatures :
    Narrows boundedSignaturesCodec (list MemberSignature.codec) id fun signatures =>
      (∀ signature ∈ signatures, signature.signature.length ≤ 64) ∧
        signatures.length ≤ maxDynamicMembers := by
  have hone : Narrows boundedSignatureCodec MemberSignature.codec id fun signature =>
      signature.signature.length ≤ 64 := by
    exact ((Narrows.limit _ _).after _).iso (fun _ => rfl) fun _ => Iff.rfl
  have hlist := hone.list
  rw [map_id_fun] at hlist
  exact hlist.bounded fun _ => Iff.rfl

lemma narrows_kind : Narrows BoundedKind.codec GuildEventKind.codec BoundedKind.into
    GuildEventKind.WithinBounds := by
  have hrelabel : Narrows (pair NodeId.codec failureDomainCodec) (pair NodeId.codec string)
      (Prod.map id id) fun p => p.2.utf8ByteSize ≤ 256 := (Narrows.limit _ _).after _
  refine Narrows.enum (.cons ⟨id, _, narrows_member, fun _ => rfl, fun _ => Iff.rfl⟩ (.cons ?_
    (.cons ⟨_, _, hrelabel, fun _ => rfl, fun _ => Iff.rfl⟩ (.cons ?_ (.cons ?_ (.cons ?_
    (.cons ⟨id, _, narrows_envelope, fun _ => rfl, fun _ => Iff.rfl⟩ (.cons ?_ (.cons ?_ (.cons ?_
    (.cons ?_ (.cons ?_ .nil))))))))))))
  -- The other variants have the fields of the general enumeration.
  all_goals exact ⟨id, _, .refl _, fun _ => rfl, fun _ => Iff.rfl⟩

/-- The bounded decoder reads what the general one reads, within the bounds. -/
lemma narrows_certificate : Narrows BoundedCertificate.codec QuorumGuildEvent.codec
    BoundedCertificate.toCertified QuorumGuildEvent.WithinBounds := by
  have hevent : Narrows BoundedEvent.codec GuildEvent.codec BoundedEvent.toEvent fun e =>
      e.kind.WithinBounds := by
    exact ((((narrows_kind.after _).after _).after _).after _).iso (fun _ => rfl) fun _ => Iff.rfl
  refine (hevent.pair narrows_signatures).iso (fun _ => rfl) fun p => ?_
  exact ⟨fun h => ⟨h.1, h.2.2, h.2.1⟩, fun h => ⟨h.kind, h.signature, h.signatures⟩⟩

/-! ## What the general decoder reads -/

lemma readable_shardRole (role : ShardRoleV2) :
    ShardRoleV2.codec.Readable role ↔ role.failureDomain.utf8ByteSize ≤ 256 := by
  cases role with
  | information role =>
    simp [ShardRoleV2.codec, InformationRoleV2.codec, failureDomainCodec, readable_nodeId,
      readable_rangeSectorRef, ShardRoleV2.failureDomain]
  | parity role =>
    simp [ShardRoleV2.codec, ParityRoleV2.codec, failureDomainCodec, readable_nodeId,
      readable_merkleCommitment, ShardRoleV2.failureDomain]

lemma readable_codingGroupV2 (g : CodingGroupV2) :
    CodingGroupV2.codec.Readable g ↔ g.WithinLimits := by
  simp only [CodingGroupV2.codec, readable_iso, readable_pair, readable_bytes,
    readable_u16, readable_codingProfile, readable_bounded, readable_list,
    readable_shardRole, true_and]
  exact ⟨fun h => ⟨h.2, h.1⟩, fun h => ⟨h.domains, h.roles⟩⟩

/-- The limits that both decoders have. -/
def GuildEventKind.GroupWithinLimits : GuildEventKind → Prop
  | .addCodingGroup group => group.WithinLimits
  | .addCodingGroupBound group _ => group.WithinLimits
  | _ => True

lemma exact_kind : GuildEventKind.codec.Exact GuildEventKind.GroupWithinLimits := by
  have hmember : ∀ m, Member.codec.Readable m := fun m => by
    simp [Member.codec, readable_nodeId, RecoveryPublicKey.codec]
  have henvelope : ∀ e, RecoveryKeyEnvelope.codec.Readable e := fun e => by
    simp [RecoveryKeyEnvelope.codec, readable_nodeId, RecoveryPublicKey.codec,
      readable_sealedRecoveryRecord]
  have hpolicy : ∀ p, QuorumPolicy.codec.Readable p := fun p => by
    simp [QuorumPolicy.codec, QuorumRule.codec]
  have hgroup : ∀ p : CodingGroupV2 × Bytes 32,
      (pair CodingGroupV2.codec (bytes 32)).Readable p ↔ p.1.WithinLimits := fun p => by
    rw [readable_pair, readable_codingGroupV2, and_iff_left readable_bytes]
  have hplain : ∀ {α : Type} {c : Codec α}, (∀ a, c.Readable a) → ∃ N, c.Exact N :=
    fun h => ⟨_, .of_readable h⟩
  refine Codec.Exact.enum ?_ ?_
  · simp only [forall_mem_cons]
    exact ⟨hplain hmember, hplain readable_nodeId, hplain fun _ => ⟨trivial, readable_string⟩,
      hplain hpolicy, hplain fun _ => ⟨trivial, trivial, trivial⟩,
      hplain fun _ => ⟨trivial, trivial⟩,
      hplain henvelope, hplain fun _ => ⟨trivial, trivial⟩, ⟨_, exact_codingGroupV2⟩,
      hplain fun _ => ⟨trivial, trivial⟩, hplain fun _ => trivial,
      ⟨_, exact_codingGroupV2.before fun _ => trivial⟩, fun _ h => absurd h not_mem_nil⟩
  · simp only [forall_mem_cons]
    exact ⟨fun m => iff_true_intro (hmember m), fun _ => iff_true_intro trivial,
      fun _ => iff_true_intro ⟨trivial, readable_string⟩, fun p => iff_true_intro (hpolicy p),
      fun _ => iff_true_intro ⟨trivial, trivial, trivial⟩,
      fun _ => iff_true_intro ⟨trivial, trivial⟩, fun e => iff_true_intro (henvelope e),
      fun _ => iff_true_intro ⟨trivial, trivial⟩, readable_codingGroupV2,
      fun _ => iff_true_intro ⟨trivial, trivial⟩, fun _ => iff_true_intro trivial, hgroup,
      fun _ h => absurd h not_mem_nil⟩

lemma exact_certified :
    QuorumGuildEvent.codec.Exact fun c => c.event.kind.GroupWithinLimits := by
  have hevent : GuildEvent.codec.Exact fun e => e.kind.GroupWithinLimits :=
    ((((exact_kind.after fun _ => trivial).after fun _ => trivial).after fun _ => trivial).after
      fun _ => trivial).iso fun _ => rfl
  exact (hevent.before fun _ _ _ => ⟨trivial, fun _ _ => trivial⟩).iso fun _ => rfl

variable {c : QuorumGuildEvent}

/-- The bounded decoder on an input of admissible length. -/
lemma decodeBounded_eq_ok {bytes : List UInt8} (hlength : bytes.length ≤ guildEventBytes) :
    QuorumGuildEvent.decodeBounded bytes = .ok c ↔
      QuorumGuildEvent.codec.decode bytes = some (c, []) ∧
        QuorumGuildEvent.codec.encode c = some bytes ∧ c.WithinBounds := by
  simp only [QuorumGuildEvent.decodeBounded, canonicalBytesBounded, bind_eq_ok, reject_eq_ok,
    mapErr_eq_ok, pure_eq_ok, exists_unit, canonicalSizeBounded_eq_ok, canonicalBytes_eq_ok,
    decodeCanonical, okOr_eq_ok, Codec.fromBytes, Option.map_eq_some_iff, not_or, not_lt, not_not]
  constructor
  · rintro ⟨-, _, ⟨⟨value, rest⟩, hread, rfl⟩, encoded, ⟨-, -, hencode⟩, rfl, rfl⟩
    obtain ⟨hgeneral, hwithin⟩ :=
      (narrows_certificate encoded value.toCertified rest).mp ⟨value, hread, rfl⟩
    have hreadable := exact_certified.sound hgeneral
    have hback := QuorumGuildEvent.codec.decode_encode [] hreadable hencode
    rw [append_nil] at hback
    exact ⟨hback, hencode, hwithin⟩
  · rintro ⟨hgeneral, hencode, hwithin⟩
    obtain ⟨value, hread, rfl⟩ := (narrows_certificate bytes c []).mpr ⟨hgeneral, hwithin⟩
    refine ⟨⟨?_, hlength⟩, value, ⟨_, hread, rfl⟩, bytes,
      ⟨_, ⟨bytes, hencode, hlength, rfl⟩, hencode⟩, rfl, rfl⟩
    rintro rfl
    cases hgeneral

/-! ## Certified events are within the bounds -/

variable {C : Crypto} {s t : DynamicGuildState} {kind : GuildEventKind}

lemma withinBounds_of_effect {sequence : U64} (h : s.Effect C sequence kind t) :
    kind.WithinBounds := by
  cases h with
  | addMember hvalid =>
    obtain ⟨_, hguard, -⟩ := bind_eq_ok.mp hvalid
    have := reject_eq_ok.mp hguard
    push Not at this
    exact this.2.2.1
  | relabelMember hdomain => exact hdomain.2
  | rotateRecoveryKey _ henvelope =>
    have := reject_eq_ok.mp henvelope
    push Not at this
    exact this.2.2.2.2.2
  | _ => trivial

/-- The roles of a valid group have bounded failure domains. -/
lemma domain_of_validateRoles {profile : CodingProfile} {index : ℕ} {domains : List String}
    {roles : List ShardRoleV2}
    (h : CodingGroupV2.validateRoles C profile index domains roles = .ok ()) :
    ∀ role ∈ roles, role.failureDomain.utf8ByteSize ≤ 256 := by
  induction roles generalizing index domains with
  | nil => exact fun role hrole => absurd hrole not_mem_nil
  | cons role roles ih =>
    obtain ⟨domain, hdomain, hrest⟩ := bind_eq_ok.mp h
    have hrest := past hrest
    refine forall_mem_cons.mpr ⟨?_, ih hrest⟩
    cases role with
    | information role =>
      have hdomain := past hdomain
      have hdomain := past hdomain
      obtain ⟨_, hguard, -⟩ := bind_eq_ok.mp hdomain
      have := reject_eq_ok.mp hguard
      push Not at this
      exact this.2.2.2.2
    | parity role =>
      have hdomain := past hdomain
      have hdomain := past hdomain
      obtain ⟨_, hguard, -⟩ := bind_eq_ok.mp hdomain
      have := reject_eq_ok.mp hguard
      push Not at this
      exact this.2.2

lemma CodingGroupV2.withinLimits_of_validate {g : CodingGroupV2} (h : g.validate C = .ok ()) :
    g.WithinLimits := by
  have h := past h
  have h := past h
  obtain ⟨total, htotal, h⟩ := bind_eq_ok.mp h
  obtain ⟨_, hcount, h⟩ := bind_eq_ok.mp h
  obtain ⟨_, -, h⟩ := bind_eq_ok.mp h
  have hroles := past h
  refine ⟨?_, domain_of_validateRoles hroles⟩
  have hlength : g.roles.length = total := not_not.mp (reject_eq_ok.mp hcount)
  obtain ⟨_, hvalid, htotal⟩ := bind_eq_ok.mp (mapErr_eq_ok.mp htotal)
  obtain ⟨sum, hsum, htotal⟩ := bind_eq_ok.mp htotal
  obtain ⟨sum', hsum', hprofile⟩ := bind_eq_ok.mp hvalid
  have hbound := reject_eq_ok.mp hprofile
  push Not at hbound
  rw [uncheckedAdd_of_checkedAdd (okOr_eq_ok.mp hsum')] at hsum
  obtain rfl := Except.ok.inj hsum
  rw [hlength, ← pure_eq_ok.mp htotal]
  exact hbound.2.2.2.1

lemma groupWithinLimits_of_effect {sequence : U64} (h : s.Effect C sequence kind t) :
    kind.GroupWithinLimits := by
  cases h with
  | addCodingGroup hgroup => exact CodingGroupV2.withinLimits_of_validate hgroup.valid
  | addCodingGroupBound hgroup => exact CodingGroupV2.withinLimits_of_validate hgroup.valid
  | _ => trivial

lemma withinBounds_of_applyEvent (h : s.applyEvent C c = .ok t) : c.WithinBounds := by
  obtain ⟨hwf, -, hcertified, changed, head, heffect, -⟩ := DynamicGuildState.applyEvent_eq_ok.mp h
  refine ⟨withinBounds_of_effect heffect, ?_, fun signature hsignature => ?_⟩
  · have hsubset : (c.signatures.map MemberSignature.signer).toFinset ⊆ s.activeIds := by
      intro n hn
      obtain ⟨signature, hsignature, rfl⟩ := mem_map.mp (mem_toFinset.mp hn)
      exact (hcertified.signers signature hsignature).1
    have hactive : s.activeMembers.length ≤ s.members.length := by
      rw [DynamicGuildState.activeMembers, length_map]
      exact length_filter_le _ _
    calc c.signatures.length
        = (c.signatures.map MemberSignature.signer).toFinset.card :=
          hcertified.ascending.card_toFinset_map.symm
      _ ≤ s.activeIds.card := Finset.card_le_card hsubset
      _ = s.activeMembers.length := hwf.card_activeIds
      _ ≤ s.members.length := hactive
      _ ≤ maxDynamicMembers := hwf.members_length
  · have hverify := (hcertified.signers signature hsignature).2
    simp only [verifyGuildEventSignature, bind_eq_ok, reject_eq_ok, exists_unit] at hverify
    obtain ⟨key, -, -, bytes, -, hlength, -⟩ := hverify
    exact (not_not.mp hlength).le

/-! ## Sizes -/

lemma fitsIn_nodeId (n : NodeId) : NodeId.codec.FitsIn n 32 := fitsIn_bytes n.bytes

lemma fitsIn_recoveryPublicKey (k : RecoveryPublicKey) : RecoveryPublicKey.codec.FitsIn k 32 :=
  fitsIn_bytes k.bytes

lemma fitsIn_merkleCommitment (m : MerkleCommitment) : MerkleCommitment.codec.FitsIn m 43 :=
  (fitsIn_u16 m.formatVersion).and ((fitsIn_u16 m.leafSize).and
    ((fitsIn_u32 m.byteLen).and (fitsIn_bytes m.root)))

lemma fitsIn_domain {domain : String} (h : domain.utf8ByteSize ≤ 256) :
    string.FitsIn domain 266 :=
  (fitsIn_string (h.trans_lt (by norm_num))).mono (by omega)

lemma fitsIn_informationRole {role : InformationRoleV2}
    (h : role.failureDomain.utf8ByteSize ≤ 256) :
    InformationRoleV2.codec.FitsIn role 379 := by
  have hsector : RangeSectorRef.codec.FitsIn role.sector 81 :=
    (fitsIn_bytes role.sector.id).and ((fitsIn_merkleCommitment _).and
      ((fitsIn_u32 _).and (fitsIn_bool _)))
  exact (fitsIn_nodeId role.owner).and ((fitsIn_domain h).and hsector)

lemma fitsIn_parityRole {role : ParityRoleV2} (h : role.failureDomain.utf8ByteSize ≤ 256) :
    ParityRoleV2.codec.FitsIn role 344 :=
  (fitsIn_nodeId role.holder).and ((fitsIn_domain h).and
    ((fitsIn_u16 role.row).and (fitsIn_merkleCommitment role.commitment)))

lemma fitsIn_role {role : ShardRoleV2} (h : role.failureDomain.utf8ByteSize ≤ 256) :
    ShardRoleV2.codec.FitsIn role (5 + 379) := by
  cases role with
  | information role =>
    refine fitsIn_enum ⟨_, mem_cons_self, rfl⟩ ?_
    simp only [forall_mem_cons]
    refine ⟨fun r hr => ?_, fun r hr => ?_, fun _ hv => absurd hv not_mem_nil⟩
    · obtain rfl := Option.some.inj hr
      exact fitsIn_informationRole h
    · cases hr
  | parity role =>
    refine fitsIn_enum ⟨_, mem_cons_of_mem _ mem_cons_self, rfl⟩ ?_
    simp only [forall_mem_cons]
    refine ⟨fun r hr => ?_, fun r hr => ?_, fun _ hv => absurd hv not_mem_nil⟩
    · cases hr
    · obtain rfl := Option.some.inj hr
      exact (fitsIn_parityRole h).mono (by norm_num)

lemma fitsIn_codingGroup {g : CodingGroupV2} (h : g.WithinLimits) :
    CodingGroupV2.codec.FitsIn g 24672 := by
  have hconstruction : ReedSolomonConstruction.codec.FitsIn g.profile.construction 5 := by
    cases g.profile.construction
    exact ⟨_, rfl, by decide⟩
  have hprofile : CodingProfile.codec.FitsIn g.profile 19 :=
    (fitsIn_u16 g.profile.formatVersion).and (hconstruction.and
      ((fitsIn_u16 g.profile.dataShards).and ((fitsIn_u16 g.profile.parityShards).and
        (fitsIn_u32 g.profile.shardSize))))
  have hroles : (list ShardRoleV2.codec).FitsIn g.roles (10 + 64 * (5 + 379)) := by
    have hcount : g.roles.length ≤ 64 := h.roles
    refine (fitsIn_list (hcount.trans_lt (by norm_num))
      fun role hrole => fitsIn_role (h.domains role hrole)).mono ?_
    omega
  exact (fitsIn_bytes g.id).and ((fitsIn_u16 g.formatVersion).and
    ((fitsIn_bytes g.guildId).and (hprofile.and hroles)))

lemma fitsIn_quorumPolicy (p : QuorumPolicy) : QuorumPolicy.codec.FitsIn p 11 := by
  have hrule : QuorumRule.codec.FitsIn p.rule (5 + 3) := by
    refine fitsIn_enum ?_ ?_
    · cases p.rule with
      | unanimous => exact ⟨_, mem_cons_self, rfl⟩
      | majority => exact ⟨_, mem_cons_of_mem _ mem_cons_self, rfl⟩
      | threshold value =>
        exact ⟨_, mem_cons_of_mem _ (mem_cons_of_mem _ mem_cons_self), rfl⟩
    · simp only [forall_mem_cons]
      exact ⟨fun _ _ => ⟨[], rfl, Nat.zero_le _⟩, fun _ _ => ⟨[], rfl, Nat.zero_le _⟩,
        fun value _ => fitsIn_u16 value, fun _ hv => absurd hv not_mem_nil⟩
  exact (fitsIn_u16 p.formatVersion).and hrule

lemma fitsIn_envelope {e : RecoveryKeyEnvelope} (h : e.sealedPrivateKey.ciphertext.length ≤ 4096) :
    RecoveryKeyEnvelope.codec.FitsIn e 4274 := by
  have hciphertext : (list u8).FitsIn e.sealedPrivateKey.ciphertext (10 + 4096) :=
    (fitsIn_list_u8 (h.trans_lt (by norm_num))).mono (by omega)
  have hsealed : SealedRecoveryRecord.codec.FitsIn e.sealedPrivateKey 4165 :=
    (fitsIn_u16 e.sealedPrivateKey.formatVersion).and
      ((fitsIn_bytes e.sealedPrivateKey.ephemeralPublicKey).and
        ((fitsIn_bytes e.sealedPrivateKey.nonce).and hciphertext))
  exact (fitsIn_u16 e.formatVersion).and ((fitsIn_bytes e.guildId).and
    ((fitsIn_nodeId e.subject).and ((fitsIn_u64 e.epoch).and
      ((fitsIn_recoveryPublicKey e.publicKey).and hsealed))))

/-- A kind within the bounds takes the index of its variant and at most a coding group and a hash.
-/
lemma fitsIn_kind (hbounds : kind.WithinBounds) (hlimits : kind.GroupWithinLimits) :
    GuildEventKind.codec.FitsIn kind (5 + 24704) := by
  refine fitsIn_enum ?_ ?_
  · cases kind <;> simp
  · simp only [forall_mem_cons]
    refine ⟨fun m hm => ?_, fun n _ => ?_, fun p hp => ?_, fun p _ => ?_, fun p _ => ?_,
      fun p _ => ?_, fun e he => ?_, fun p _ => ?_, fun g hg => ?_, fun p _ => ?_, fun g _ => ?_,
      fun p hp => ?_, fun _ hv => absurd hv not_mem_nil⟩
    · cases kind with
      | addMember m' =>
        obtain rfl := Option.some.inj hm
        have hfields := (fitsIn_nodeId m'.nodeId).and
          ((fitsIn_recoveryPublicKey m'.recoveryPublicKey).and (fitsIn_domain hbounds))
        exact hfields.mono (by norm_num)
      | _ => cases hm
    · exact (fitsIn_nodeId n).mono (by norm_num)
    · cases kind with
      | relabelMember n d =>
        obtain rfl := Option.some.inj hp
        exact ((fitsIn_nodeId n).and (fitsIn_domain hbounds)).mono (by norm_num)
      | _ => cases hp
    · exact (fitsIn_quorumPolicy p).mono (by norm_num)
    · exact ((fitsIn_nodeId p.1).and ((fitsIn_u64 p.2.1).and
        (fitsIn_bytes p.2.2))).mono (by norm_num)
    · exact ((fitsIn_nodeId p.1).and (fitsIn_u64 p.2)).mono (by norm_num)
    · cases kind with
      | rotateRecoveryKey e' =>
        obtain rfl := Option.some.inj he
        exact (fitsIn_envelope hbounds).mono (by norm_num)
      | _ => cases he
    · exact ((fitsIn_nodeId p.1).and (fitsIn_u64 p.2)).mono (by norm_num)
    · cases kind with
      | addCodingGroup g' =>
        obtain rfl := Option.some.inj hg
        exact (fitsIn_codingGroup hlimits).mono (by norm_num)
      | _ => cases hg
    · exact ((fitsIn_bytes p.1).and (fitsIn_u64 p.2)).mono (by norm_num)
    · exact (fitsIn_bytes g).mono (by norm_num)
    · cases kind with
      | addCodingGroupBound g t =>
        obtain rfl := Option.some.inj hp
        exact ((fitsIn_codingGroup hlimits).and (fitsIn_bytes t)).mono (by norm_num)
      | _ => cases hp

/-- A certified event within the bounds fits in the limit of an event. -/
lemma fitsIn_certified (hbounds : c.WithinBounds) (hlimits : c.event.kind.GroupWithinLimits) :
    QuorumGuildEvent.codec.FitsIn c guildEventBytes := by
  have hevent : GuildEvent.codec.FitsIn c.event 24786 :=
    (fitsIn_u16 c.event.formatVersion).and ((fitsIn_bytes c.event.guildId).and
      ((fitsIn_u64 c.event.sequence).and ((fitsIn_bytes c.event.parent).and
        (fitsIn_kind hbounds.kind hlimits))))
  have hsignature : ∀ signature ∈ c.signatures,
      MemberSignature.codec.FitsIn signature (32 + (10 + 64)) := by
    intro signature hsignature
    have hlength := hbounds.signature signature hsignature
    exact (fitsIn_nodeId signature.signer).and
      ((fitsIn_list_u8 (hlength.trans_lt (by norm_num))).mono (by omega))
  have hcount : c.signatures.length ≤ 256 := hbounds.signatures
  have hsignatures := fitsIn_list (hcount.trans_lt (by norm_num)) hsignature
  have hall : QuorumGuildEvent.codec.FitsIn c _ := hevent.and hsignatures
  refine hall.mono ?_
  rw [guildEventBytes]
  omega

/-! ## The result -/

/-- **The bounded decoder is the general decoder with limits, and reads every event that a state
accepts.** -/
theorem bounded_event_decoder_exact (C : Crypto) :
    (∀ bytes : List UInt8, bytes.length ≤ guildEventBytes → ∀ c,
      QuorumGuildEvent.decodeBounded bytes = .ok c ↔
        QuorumGuildEvent.codec.decode bytes = some (c, []) ∧
          QuorumGuildEvent.codec.encode c = some bytes ∧ c.WithinBounds) ∧
      ∀ s c t, DynamicGuildState.applyEvent C s c = .ok t →
        ∃ bytes, QuorumGuildEvent.codec.encode c = some bytes ∧ bytes.length ≤ guildEventBytes ∧
          QuorumGuildEvent.decodeBounded bytes = .ok c := by
  refine ⟨fun bytes hlength c => decodeBounded_eq_ok hlength, fun s c t happly => ?_⟩
  obtain ⟨-, -, -, changed, head, heffect, -⟩ := DynamicGuildState.applyEvent_eq_ok.mp happly
  have hbounds := withinBounds_of_applyEvent happly
  have hlimits := groupWithinLimits_of_effect heffect
  obtain ⟨bytes, hencode, hlength⟩ := fitsIn_certified hbounds hlimits
  have hreadable := (exact_certified.limits hencode).mpr hlimits
  have hdecode := QuorumGuildEvent.codec.decode_encode [] hreadable hencode
  rw [append_nil] at hdecode
  exact ⟨bytes, hencode, hlength, (decodeBounded_eq_ok hlength).mpr ⟨hdecode, hencode, hbounds⟩⟩

/-- A relabelling of the first member of the sample guild, signed by the two others. -/
def sampleRelabelling : QuorumGuildEvent :=
  DynamicGuildState.sampleState.transparentCertificate (.relabelMember ⟨1⟩ "away") [⟨2⟩, ⟨3⟩]

theorem bounded_event_decoder_exact_relabelling :
    Succeeds (DynamicGuildState.sampleState.applyEvent .transparent sampleRelabelling) ∧
      ∃ bytes, QuorumGuildEvent.decodeBounded bytes = .ok sampleRelabelling ∧
        QuorumGuildEvent.codec.decode bytes = some (sampleRelabelling, []) := by
  have haccepted : Succeeds
      (DynamicGuildState.sampleState.applyEvent .transparent sampleRelabelling) := by
    decide +kernel
  obtain ⟨hexact, hcertified⟩ := bounded_event_decoder_exact .transparent
  obtain ⟨t, ht⟩ := haccepted
  obtain ⟨bytes, -, hlength, hdecode⟩ := hcertified _ _ t ht
  exact ⟨⟨t, ht⟩, bytes, hdecode, ((hexact bytes hlength _).mp hdecode).1⟩

end MutualBackup
