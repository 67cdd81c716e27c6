import MutualBackup.Guild.Simulation

/-!
# Proposals

A proposer runs `validate_event_proposal` before it asks the members for signatures.  The answer is
the one the members will get: an event passes exactly when it is accepted with the signatures of all
active members, and for membership events exactly when the authority snapshot takes the unsigned
event.

What the three paths do not share is the arithmetic.  `verify_event` and the snapshot count up with
`checked_add`; the proposal and the transition use `+`.  `Overflows` lists the inputs on which a `+`
leaves the range, each with the guards that come before it, and `proposal_exact_iff` says that these
inputs are the only ones on which the proposal check is not exact.
-/

namespace MutualBackup

open Framework GuildAuthoritySnapshot

namespace DynamicGuildState

/-! ## The additions that overflow -/

section Overflow

variable (C : Crypto) (s : DynamicGuildState)

/-- The branch for the event reaches its addition with the greatest value. -/
def KindOverflows : GuildEventKind → Prop
  | .addMember member =>
    s.membershipEpoch = U64.max ∧ validateMember C member = .ok () ∧
      ∀ entry ∈ s.members, entry.member.nodeId ≠ member.nodeId
  | .removeMember nodeId => s.membershipEpoch = U64.max ∧ nodeId ∈ s.activeIds
  | .relabelMember nodeId failureDomain =>
    s.membershipEpoch = U64.max ∧ failureDomain ≠ "" ∧ failureDomain.utf8ByteSize ≤ 256 ∧
      nodeId ∈ s.activeIds
  | .setQuorum policy =>
    s.membershipEpoch = U64.max ∧ Succeeds (policy.required s.activeMembers.length)
  | .rotateWriterKey owner _ publicKey =>
    writerFields.latest owner s.writerKeys = U64.max ∧ owner ∈ s.activeIds ∧
      C.isPoint publicKey ∧ ¬ C.isWeak publicKey
  | .rotateRecoveryKey envelope =>
    recoveryFields.latest envelope.subject s.recoveryKeys = U64.max ∧
      envelope.subject ∈ s.activeIds ∧ validateRecoveryEnvelope C envelope s.guildId = .ok ()
  | _ => False

/-- The proposal check reaches an addition with the greatest value: of the sequence once the format
and the guild match, of an epoch once the place in the log matches too. -/
def Overflows (event : GuildEvent) : Prop := validEventFormat event ∧ event.guildId = s.guildId ∧
    (s.eventSequence = U64.max ∨ s.InPlace event ∧ s.KindOverflows C event.kind)

variable {C s}

lemma noOverflow_hash (event : GuildEvent) : NoOverflow (event.hash C) :=
  noOverflow_bind (noOverflow_mapErr (noOverflow_canonicalBytes _)) fun _ _ => noOverflow_ok _

lemma noOverflow_requireActiveMember (n : NodeId) : NoOverflow (s.requireActiveMember n) :=
  noOverflow_okOr _ _

lemma noOverflow_applyAddCodingGroup (sequence : U64) (group : CodingGroupV2) :
    NoOverflow (s.applyAddCodingGroup C sequence group) := by
  have hplacement : NoOverflow (s.validateCurrentGroupPlacement group) :=
    noOverflow_forEach fun role _ => noOverflow_bind (noOverflow_requireActiveMember _)
      fun _ _ => noOverflow_reject _ _
  exact noOverflow_bind (noOverflow_mapErr (group.noOverflow_validate C)) fun _ _ =>
    noOverflow_reject_bind (noOverflow_bind hplacement fun _ _ => noOverflow_ok _)

lemma noOverflow_validateMember (member : Member) : NoOverflow (validateMember C member) :=
  noOverflow_reject_bind (noOverflow_verifyingKey_check _ _ _)

/-- The transition overflows in the branches of `KindOverflows` and in no other. -/
lemma applyKind_eq_overflow (h : Ascending (fun m => m.member.nodeId) s.members) {sequence : U64}
    {kind : GuildEventKind} :
    s.applyKind C sequence kind = .error .overflow ↔ s.KindOverflows C kind := by
  have hactive : ∀ n, s.requireActiveMember n ≠ .error .overflow :=
    fun n => noOverflow_requireActiveMember n
  have hquorum : ∀ (p : QuorumPolicy) (n : ℕ), p.required n ≠ .error .overflow :=
    fun p n => p.noOverflow_required n
  have hmember : ∀ m, validateMember C m ≠ .error .overflow := noOverflow_validateMember
  have henvelope : ∀ e, validateRecoveryEnvelope C e s.guildId ≠ .error .overflow :=
    fun _ => reject_ne_overflow
  have hrevoked : ∀ o n, writerFields.revokeEntry GuildStateError.invalidEvent o n sequence
      s.writerKeys ≠ .error .overflow :=
    fun o n => writerFields.noOverflow_revokeEntry _ o n _ _
  have hrevoked' : ∀ o n, recoveryFields.revokeEntry GuildStateError.invalidEvent o n sequence
      s.recoveryKeys ≠ .error .overflow :=
    fun o n => recoveryFields.noOverflow_revokeEntry _ o n _ _
  -- the steps that cannot overflow drop out, and an increment is left with what comes before it
  cases kind with
    simp only [applyKind, bind_eq_overflow, hactive, hquorum, hmember, henvelope, hrevoked,
      hrevoked', okOr_ne_overflow, reject_ne_overflow, U64.succ_eq_overflow, pure_ne_overflow,
      reject_eq_ok, okOr_eq_ok, exists_unit, false_or, and_false, exists_false, or_false,
      exists_and_right, exists_requireActiveMember h, Crypto.verifyingKey_eq_some]
  | addMember member =>
    push Not
    constructor
    · rintro ⟨hvalid, hnew, hmax⟩
      exact ⟨hmax, hvalid, hnew⟩
    · rintro ⟨hmax, hvalid, hnew⟩
      exact ⟨hvalid, hnew, hmax⟩
  | removeMember nodeId => exact and_comm
  | relabelMember nodeId failureDomain =>
    push Not
    constructor
    · rintro ⟨⟨hne, hsize⟩, hid, hmax⟩
      exact ⟨hmax, hne, hsize, hid⟩
    · rintro ⟨hmax, hne, hsize, hid⟩
      exact ⟨⟨hne, hsize⟩, hid, hmax⟩
  | setQuorum policy => exact and_comm
  | rotateWriterKey owner epoch publicKey =>
    constructor
    · rintro ⟨hid, _, ⟨hpoint, rfl⟩, hweak, hmax⟩
      exact ⟨hmax, hid, hpoint, hweak⟩
    · rintro ⟨hmax, hid, hpoint, hweak⟩
      exact ⟨hid, _, ⟨hpoint, rfl⟩, hweak, hmax⟩
  | rotateRecoveryKey envelope =>
    constructor
    · rintro ⟨hid, hvalid, hmax⟩
      exact ⟨hmax, hid, hvalid⟩
    · rintro ⟨hmax, hid, hvalid⟩
      exact ⟨hid, hvalid, hmax⟩
  | revokeWriterKey owner epoch => rfl
  | revokeRecoveryKey subject epoch => rfl
  | addCodingGroup group =>
    exact iff_of_false (noOverflow_applyAddCodingGroup sequence group) not_false
  | addCodingGroupBound group transcriptHash =>
    exact iff_of_false (noOverflow_applyAddCodingGroup sequence group) not_false
  | retireCodingGroup groupId retainThroughEvent => rfl
  | forgetCodingGroup groupId => rfl

end Overflow

variable {C : Crypto} {s : DynamicGuildState}

variable {event : GuildEvent}

/-- A proposal passes when the event names the next place and advances the state. -/
lemma validateEventProposal_eq_ok :
    s.validateEventProposal C event = .ok () ↔
      s.WellFormed C ∧ s.InPlace event ∧ ∃ t, s.Advances C event t := by
  rw [validateEventProposal]
  simp only [bind_eq_ok, reject_eq_ok, exists_unit, validate_eq_ok, applyVerifiedEvent_eq_ok,
    U64.succ_eq_ok, pure_eq_ok]
  push Not
  constructor
  · rintro ⟨hwf, ⟨hformat, hguild⟩, next, hnext, ⟨rfl, hparent⟩, t, ht, -⟩
    exact ⟨hwf, ⟨hformat, hguild, hnext, hparent⟩, t, ht⟩
  · rintro ⟨hwf, hplace, t, ht⟩
    exact ⟨hwf, ⟨hplace.format, hplace.guildId_eq⟩, _, hplace.sequence_eq,
      ⟨rfl, hplace.parent_eq⟩, t, ht, trivial⟩

lemma applyVerifiedEvent_eq_overflow (hwf : s.WellFormed C) {certified : QuorumGuildEvent} :
    s.applyVerifiedEvent C certified = .error .overflow ↔
      s.KindOverflows C certified.event.kind := by
  have hhash : certified.event.hash C ≠ .error .overflow := noOverflow_hash _
  have hvalidate : ∀ t : DynamicGuildState, t.validate C ≠ .error .overflow :=
    fun t => t.noOverflow_validate C
  simp only [applyVerifiedEvent, bind_eq_overflow, hhash, hvalidate, pure_ne_overflow,
    and_false, exists_false, or_false, applyKind_eq_overflow hwf.members_ascending]

/-- The proposal check overflows on the inputs of `Overflows` and on no other. -/
lemma validateEventProposal_eq_overflow (hwf : s.WellFormed C) :
    s.validateEventProposal C event = .error .overflow ↔ s.Overflows C event := by
  rw [validateEventProposal, validate_eq_ok.mpr hwf, ok_bind]
  simp only [bind_eq_overflow, reject_ne_overflow, reject_eq_ok, exists_unit, U64.succ_eq_overflow,
    U64.succ_eq_ok, pure_ne_overflow, false_or, and_false, exists_false, or_false,
    applyVerifiedEvent_eq_overflow hwf]
  push Not
  constructor
  · rintro ⟨⟨hformat, hguild⟩, hmax | ⟨next, hnext, ⟨rfl, hparent⟩, hkind⟩⟩
    · exact ⟨hformat, hguild, .inl hmax⟩
    · exact ⟨hformat, hguild, .inr ⟨⟨hformat, hguild, hnext, hparent⟩, hkind⟩⟩
  · rintro ⟨hformat, hguild, hmax | ⟨hplace, hkind⟩⟩
    · exact ⟨⟨hformat, hguild⟩, .inl hmax⟩
    · exact ⟨⟨hformat, hguild⟩, .inr ⟨_, hplace.sequence_eq, ⟨rfl, hplace.parent_eq⟩, hkind⟩⟩

/-! ## The signatures of all members -/

/-- All active members signed the event, in the order of the roster, and the signatures verify. -/
structure AllSign (C : Crypto) (s : DynamicGuildState) (event : GuildEvent)
    (signatures : List MemberSignature) : Prop where
  signers_eq : signatures.map MemberSignature.signer = s.activeMembers.map Member.nodeId
  verified : ∀ signature ∈ signatures, verifyGuildEventSignature C event signature = .ok ()

/-- The subject of a rotation that has an effect is an active member. -/
lemma Effect.subject_mem {sequence : U64} {kind : GuildEventKind} {t : DynamicGuildState}
    (h : s.Effect C sequence kind t) (hs : Ascending (fun m => m.member.nodeId) s.members)
    {n : NodeId} (hn : n ∈ subjectAuthorization kind) : n ∈ s.activeIds := by
  cases h with
  | rotateWriterKey hactive =>
    obtain rfl := Option.some.inj hn
    exact (exists_requireActiveMember hs).mp ⟨_, hactive⟩
  | rotateRecoveryKey hactive =>
    obtain rfl := Option.some.inj hn
    exact (exists_requireActiveMember hs).mp ⟨_, hactive⟩
  | _ => cases hn

/-- The signatures of all members certify every event that advances the state. -/
lemma AllSign.certified (hwf : s.WellFormed C) {signatures : List MemberSignature}
    (hall : s.AllSign C event signatures) {t : DynamicGuildState} (ht : s.Advances C event t) :
    s.Certified C ⟨event, signatures⟩ := by
  have hmem : ∀ n, n ∈ signatures.map MemberSignature.signer ↔ n ∈ s.activeIds := by
    intro n
    rw [hall.signers_eq, activeIds, List.mem_toFinset]
  have hlength : signatures.length = s.activeMembers.length := by
    simpa using congrArg List.length hall.signers_eq
  refine ⟨?_, fun signature hsig => ?_, ?_, fun subject hsubject => ?_⟩
  · rw [ascending_iff_map, hall.signers_eq]
    exact ascending_iff_map.mp hwf.activeMembers_ascending
  · exact ⟨(hmem _).mp (List.mem_map_of_mem hsig), hall.verified signature hsig⟩
  · obtain ⟨required, hreq⟩ := hwf.quorum
    have hbound := (QuorumPolicy.required_bounds hreq).2
    exact ⟨required, by rw [hwf.card_activeIds]; exact hreq, hbound.trans_eq hlength.symm⟩
  · obtain ⟨changed, head, heffect, -⟩ := ht
    have hactive := heffect.subject_mem hwf.members_ascending hsubject
    exact List.mem_map.mp ((hmem subject).mpr hactive)

lemma succeeds_proposal_iff (hwf : s.WellFormed C) {signatures : List MemberSignature}
    (hall : s.AllSign C event signatures) :
    Succeeds (s.validateEventProposal C event) ↔ Succeeds (s.applyEvent C ⟨event, signatures⟩) := by
  simp only [Succeeds, exists_unit, validateEventProposal_eq_ok, applyEvent_eq_ok]
  constructor
  · rintro ⟨-, hplace, t, ht⟩
    exact ⟨t, hwf, hplace, hall.certified hwf ht, ht⟩
  · rintro ⟨t, -, hplace, -, ht⟩
    exact ⟨hwf, hplace, t, ht⟩

/-! ## The snapshot's proposal -/

section Snapshot

variable {ε : Type} (convert : GuildStateError → ε)
  (validateNonMembership : GuildAuthoritySnapshot → GuildEvent → Outcome ε Unit)

/-- The snapshot answers a proposed membership event as the state does. -/
lemma advanceProposalIndexed_eq_ok (hwf : s.WellFormed C) (hkind : event.kind.isMembership)
    (hfits : Succeeds (canonicalSizeBounded GuildEvent.codec event guildEventBytes)) :
    (s.snapshot.advanceProposalIndexed C convert validateNonMembership event).2 = .ok () ↔
      Succeeds (s.validateEventProposal C event) := by
  obtain ⟨n, hn⟩ := hfits
  have hvalidate : s.snapshot.validate C = .ok () := by
    have hstate := state_snapshot
      (checkMembers_of_wellFormed hwf)
    exact bind_eq_ok.mpr ⟨_, hstate, validate_eq_ok.mpr hwf.erase⟩
  have hcallback : GuildAuthoritySnapshot.CallbackAgrees C s ⟨event, []⟩ validateNonMembership := by
    intro hfalse
    exact absurd (hkind.symm.trans hfalse) Bool.true_eq_false.mp
  have hsequence : some event.sequence = s.snapshot.eventSequence.checkedSucc ↔
      event.sequence.val = s.eventSequence.val + 1 := by
    rw [eq_comm, U64.checkedSucc_eq_some]
    rfl
  rw [GuildAuthoritySnapshot.advanceProposalIndexed, assign_snd_eq_ok, hn, hvalidate]
  simp only [Succeeds, exists_unit, validateEventProposal_eq_ok, mapErr_ok, ok_bind, bind_eq_ok,
    reject_eq_ok]
  push Not
  rw [hsequence]
  constructor
  · rintro ⟨a, ⟨hformat, hguild, hnext, hparent⟩, ha⟩
    have hplace : s.InPlace event := ⟨hformat, hguild, hnext, hparent⟩
    obtain ⟨t, ht, -⟩ :=
      (nextVerifiedIndexed_eq_ok hwf hcallback hplace).mp ha
    exact ⟨hwf, hplace, t, ht⟩
  · rintro ⟨-, hplace, t, ht⟩
    exact ⟨t.snapshot, ⟨hplace.format, hplace.guildId_eq, hplace.sequence_eq, hplace.parent_eq⟩,
      (nextVerifiedIndexed_eq_ok hwf hcallback hplace).mpr ⟨t, ht, rfl⟩⟩

/-- The proposal check does no arithmetic out of range, passes exactly the events that the
signatures of all active members carry through, and agrees with the snapshot on the membership
events within its limit. -/
structure ProposalExact (C : Crypto) (s : DynamicGuildState) (event : GuildEvent) : Prop where
  noOverflow : NoOverflow (s.validateEventProposal C event)
  quorum : ∀ signatures, s.AllSign C event signatures →
    (Succeeds (s.validateEventProposal C event) ↔ Succeeds (s.applyEvent C ⟨event, signatures⟩))
  snapshot : event.kind.isMembership →
    Succeeds (canonicalSizeBounded GuildEvent.codec event guildEventBytes) →
    ∃ a, GuildAuthoritySnapshot.fromState C s = .ok a ∧
      ((a.advanceProposalIndexed C convert validateNonMembership event).2 = .ok () ↔
        Succeeds (s.validateEventProposal C event))

/-- **The proposal check is exact where it does not overflow.** -/
theorem proposal_exact_iff (C : Crypto) (s : DynamicGuildState) (hvalid : s.validate C = .ok ())
    (event : GuildEvent) :
    ProposalExact convert validateNonMembership C s event ↔ ¬ s.Overflows C event := by
  have hwf := validate_eq_ok.mp hvalid
  rw [← validateEventProposal_eq_overflow hwf]
  constructor
  · exact fun h => h.noOverflow
  · intro hno
    refine ⟨hno, fun signatures hall => succeeds_proposal_iff hwf hall, fun hkind hfits => ?_⟩
    exact ⟨s.snapshot, fromState_eq_ok.mpr ⟨hwf.erase, rfl⟩,
      advanceProposalIndexed_eq_ok convert validateNonMembership hwf hkind hfits⟩

end Snapshot

/-! ### At the greatest value -/

/-- The sample guild at the end of the range of sequence numbers. -/
def lastSequenceState : DynamicGuildState := { sampleState with eventSequence := U64.max }

/-- The sample guild at the end of the range of membership epochs. -/
def lastEpochState : DynamicGuildState := { sampleState with membershipEpoch := U64.max }

/-- A relabelling of the first member, proposed as the first event. -/
def relabelProposal : GuildEvent :=
  (sampleState.transparentCertificate (.relabelMember ⟨1⟩ "away") []).event

/-- Both states are valid, and the proposal leaves the range in both; the snapshot rejects the event
in the second one. -/
theorem proposal_overflows_at_max :
    lastSequenceState.validate .transparent = .ok () ∧
      lastSequenceState.validateEventProposal .transparent relabelProposal = .error .overflow ∧
      lastEpochState.validate .transparent = .ok () ∧
      lastEpochState.validateEventProposal .transparent relabelProposal = .error .overflow ∧
      (lastEpochState.snapshot.advanceProposalIndexed .transparent id (fun _ _ => .ok ())
        relabelProposal).2 = fail GuildStateError.invalidEvent := by
  decide +kernel

/-- The signatures of the three members. -/
def relabelSignatures : List MemberSignature :=
  [⟨1⟩, ⟨2⟩, ⟨3⟩].map (transparentEventSignature relabelProposal)

theorem proposal_exact_iff_relabel :
    ¬ sampleState.Overflows .transparent relabelProposal ∧
      sampleState.AllSign .transparent relabelProposal relabelSignatures ∧
      Succeeds (sampleState.validateEventProposal .transparent relabelProposal) ∧
      Succeeds
        (sampleState.applyEvent .transparent ⟨relabelProposal, relabelSignatures⟩) := by
  have hvalid : sampleState.validate .transparent = .ok () := by decide +kernel
  have hno : ¬ sampleState.Overflows .transparent relabelProposal := by
    rintro ⟨-, -, hmax | ⟨-, hkind⟩⟩
    · exact absurd hmax (by decide +kernel)
    · exact absurd hkind.1 (by decide +kernel)
  have hall : sampleState.AllSign .transparent relabelProposal relabelSignatures :=
    ⟨by decide +kernel, by decide +kernel⟩
  have hpass : Succeeds (sampleState.validateEventProposal .transparent relabelProposal) := by
    decide +kernel
  have hexact := (proposal_exact_iff id (fun _ _ => .ok ()) .transparent sampleState hvalid
    relabelProposal).mpr hno
  exact ⟨hno, hall, hpass, (hexact.quorum relabelSignatures hall).mp hpass⟩

end DynamicGuildState

end MutualBackup
