import MutualBackup.Guild.Validity

/-!
# What an accepted event does

`applyEvent` succeeds when the state is well formed, the event names the next place of the log
(`InPlace`), a quorum signed it (`Certified`), and its effect is defined and leaves a well formed
state (`Advances`).  `applyEvent_eq_ok` is this equivalence; every property of the log is derived
from it and not from the code of the transition.

`Effect` is the transition itself, one constructor per kind of event with the guards its branch
checks.  The lemmas after it are the frame: which parts of the state an effect leaves alone, and
what it does to the parts it changes.
-/

namespace MutualBackup

open Framework

namespace DynamicGuildState

variable (C : Crypto) (s : DynamicGuildState)

/-! ## Place and certificate -/

/-- The event names the place after the tip. -/
structure InPlace (event : GuildEvent) : Prop where
  format : validEventFormat event
  guildId_eq : event.guildId = s.guildId
  sequence_eq : event.sequence.val = s.eventSequence.val + 1
  parent_eq : event.parent = s.eventHead

/-- A quorum of active members signed the event, and the subject of a key rotation did. -/
structure Certified (certified : QuorumGuildEvent) : Prop where
  ascending : Ascending MemberSignature.signer certified.signatures
  signers : ∀ signature ∈ certified.signatures, signature.signer ∈ s.activeIds ∧
    verifyGuildEventSignature C certified.event signature = .ok ()
  quorum : ∃ required, s.quorum.required s.activeIds.card = .ok required ∧
    required ≤ certified.signatures.length
  subject : ∀ subject ∈ subjectAuthorization certified.event.kind,
    ∃ signature ∈ certified.signatures, signature.signer = subject

variable {C s}

lemma checkSignature_eq_ok (event : GuildEvent) (previous : Option NodeId)
    (signature : MemberSignature) :
    s.checkSignature C event previous signature = .ok () ↔
      (∀ p ∈ previous, p < signature.signer) ∧ signature.signer ∈ s.activeIds ∧
        verifyGuildEventSignature C event signature = .ok () := by
  rw [checkSignature, bind_eq_ok]
  simp only [reject_eq_ok, exists_unit]
  simp only [isSomeAnd]
  push Not
  constructor
  · rintro ⟨⟨hactive, hprev⟩, hverify⟩
    exact ⟨hprev, hactive, hverify⟩
  · rintro ⟨hprev, hactive, hverify⟩
    exact ⟨⟨hactive, hprev⟩, hverify⟩

variable {certified : QuorumGuildEvent}

lemma verifyEvent_eq_ok :
    s.verifyEvent C certified = .ok () ↔
      s.WellFormed C ∧ s.InPlace certified.event ∧ s.Certified C certified := by
  rw [verifyEvent]
  simp only [bind_eq_ok, reject_eq_ok, exists_unit, validate_eq_ok,
    scanFrom_none_eq_ok (checkSignature_eq_ok certified.event)]
  simp only [isSomeAnd]
  push Not
  have hseq : some certified.event.sequence = s.eventSequence.checkedSucc ↔
      certified.event.sequence.val = s.eventSequence.val + 1 := by
    rw [eq_comm, U64.checkedSucc_eq_some]
  rw [hseq]
  constructor
  · rintro ⟨hwf, ⟨hformat, hguild, hsequence, hparent⟩, ⟨hasc, hsigners⟩, required, hreq, hcount,
      hsubject⟩
    exact ⟨hwf, ⟨hformat, hguild, hsequence, hparent⟩, hasc, hsigners, ⟨required, hreq, hcount⟩,
      hsubject⟩
  · rintro ⟨hwf, hplace, hcert⟩
    obtain ⟨required, hreq, hcount⟩ := hcert.quorum
    exact ⟨hwf, ⟨hplace.format, hplace.guildId_eq, hplace.sequence_eq, hplace.parent_eq⟩,
      ⟨hcert.ascending, hcert.signers⟩, required, hreq, hcount, hcert.subject⟩

/-! ## Effects -/

variable (C s)

/-- The entry a group addition inserts. -/
def newGroup (sequence : U64) (group : CodingGroupV2) : RetainedCodingGroup :=
  { group := group, addedAtEvent := sequence, retiredAtEvent := none, retainThroughEvent := none }

/-- The guards of a group addition. -/
structure Placeable (group : CodingGroupV2) : Prop where
  valid : group.validate C = .ok ()
  guildId_eq : group.guildId = s.guildId
  fresh : ∀ entry ∈ s.codingGroups, entry.group.id ≠ group.id
  placed : s.validateCurrentGroupPlacement group = .ok ()

/-- **The effect of an event at a sequence number**, one constructor per branch of the source. -/
inductive Effect (sequence : U64) : GuildEventKind → DynamicGuildState → Prop
  | addMember {member : Member} {epoch : U64} (hvalid : validateMember C member = .ok ())
      (hnew : ∀ entry ∈ s.members, entry.member.nodeId ≠ member.nodeId)
      (hepoch : epoch.val = s.membershipEpoch.val + 1) :
      Effect sequence (.addMember member) { s with
        members := insertByKey (fun entry => entry.member.nodeId)
          { member := member, joinedAtEvent := sequence, removedAtEvent := none } s.members
        membershipEpoch := epoch }
  | removeMember {nodeId : NodeId} {epoch : U64} {m : DynamicMember}
      (hactive : s.requireActiveMember nodeId = .ok m)
      (hepoch : epoch.val = s.membershipEpoch.val + 1)
      (hquorum : Succeeds (s.quorum.required { s with
        members := s.modifyActiveMember nodeId fun m =>
          { m with removedAtEvent := some sequence } }.activeMembers.length)) :
      Effect sequence (.removeMember nodeId) { s with
        members := s.modifyActiveMember nodeId fun m => { m with removedAtEvent := some sequence }
        membershipEpoch := epoch }
  | relabelMember {nodeId : NodeId} {failureDomain : String} {epoch : U64} {m : DynamicMember}
      (hdomain : failureDomain ≠ "" ∧ failureDomain.utf8ByteSize ≤ 256)
      (hactive : s.requireActiveMember nodeId = .ok m)
      (hepoch : epoch.val = s.membershipEpoch.val + 1) :
      Effect sequence (.relabelMember nodeId failureDomain) { s with
        members := s.modifyActiveMember nodeId fun m =>
          { m with member := { m.member with failureDomain := failureDomain } }
        membershipEpoch := epoch }
  | setQuorum {policy : QuorumPolicy} {epoch : U64}
      (hquorum : Succeeds (policy.required s.activeMembers.length))
      (hepoch : epoch.val = s.membershipEpoch.val + 1) :
      Effect sequence (.setQuorum policy) { s with quorum := policy, membershipEpoch := epoch }
  | rotateWriterKey {owner : NodeId} {epoch : U64} {publicKey : Bytes 32} {m : DynamicMember}
      (hactive : s.requireActiveMember owner = .ok m)
      (hkey : C.isPoint publicKey ∧ ¬ C.isWeak publicKey)
      (hepoch : epoch.val = (writerFields.latest owner s.writerKeys).val + 1) :
      Effect sequence (.rotateWriterKey owner epoch publicKey) { s with
        writerKeys := writerFields.append
          { owner := owner, epoch := epoch, publicKey := publicKey, activatedAtEvent := sequence,
            revokedAtEvent := none } s.writerKeys }
  | revokeWriterKey {owner : NodeId} {epoch : U64} {keys : List WriterKeyEpoch}
      (hkeys : writerFields.revokeEntry GuildStateError.invalidEvent owner epoch sequence
        s.writerKeys = .ok keys) :
      Effect sequence (.revokeWriterKey owner epoch) { s with writerKeys := keys }
  | rotateRecoveryKey {envelope : RecoveryKeyEnvelope} {m : DynamicMember}
      (hactive : s.requireActiveMember envelope.subject = .ok m)
      (henvelope : validateRecoveryEnvelope C envelope s.guildId = .ok ())
      (hepoch : envelope.epoch.val =
        (recoveryFields.latest envelope.subject s.recoveryKeys).val + 1) :
      Effect sequence (.rotateRecoveryKey envelope) { s with
        recoveryKeys := recoveryFields.append
          { envelope := envelope, activatedAtEvent := sequence, revokedAtEvent := none }
          s.recoveryKeys }
  | revokeRecoveryKey {subject : NodeId} {epoch : U64} {keys : List RecoveryKeyEpoch}
      (hkeys : recoveryFields.revokeEntry GuildStateError.invalidEvent subject epoch sequence
        s.recoveryKeys = .ok keys) :
      Effect sequence (.revokeRecoveryKey subject epoch) { s with recoveryKeys := keys }
  | addCodingGroup {group : CodingGroupV2} (hgroup : s.Placeable C group) :
      Effect sequence (.addCodingGroup group) { s with
        codingGroups := insertByKey (fun entry => entry.group.id) (newGroup sequence group)
          s.codingGroups }
  | addCodingGroupBound {group : CodingGroupV2} {transcriptHash : Bytes 32}
      (hgroup : s.Placeable C group) :
      Effect sequence (.addCodingGroupBound group transcriptHash) { s with
        codingGroups := insertByKey (fun entry => entry.group.id) (newGroup sequence group)
          s.codingGroups }
  | retireCodingGroup {groupId : Bytes 32} {retainThroughEvent : U64} {g : RetainedCodingGroup}
      (hfind : s.codingGroups.find? (fun g => g.group.id = groupId) = some g)
      (hopen : g.retiredAtEvent = none) (hretain : sequence ≤ retainThroughEvent) :
      Effect sequence (.retireCodingGroup groupId retainThroughEvent) { s with
        codingGroups := modifyFirst (fun g => g.group.id = groupId)
          (fun g => { g with
            retiredAtEvent := some sequence, retainThroughEvent := some retainThroughEvent })
          s.codingGroups }
  | forgetCodingGroup {groupId : Bytes 32} {g : RetainedCodingGroup} {retained : U64}
      (hfind : s.codingGroups.find? (fun g => g.group.id = groupId) = some g)
      (hretained : g.retainThroughEvent = some retained) (hpast : retained < sequence) :
      Effect sequence (.forgetCodingGroup groupId) { s with
        codingGroups := s.codingGroups.eraseP fun g => g.group.id = groupId }

variable {C s}

variable {t : DynamicGuildState} {sequence : U64}

lemma applyAddCodingGroup_eq_ok {group : CodingGroupV2} :
    s.applyAddCodingGroup C sequence group = .ok t ↔
      s.Placeable C group ∧ t = { s with
        codingGroups := insertByKey (fun entry => entry.group.id) (newGroup sequence group)
          s.codingGroups } := by
  rw [applyAddCodingGroup]
  simp only [bind_eq_ok, mapErr_eq_ok, reject_eq_ok, pure_eq_ok, exists_unit]
  push Not
  constructor
  · rintro ⟨hvalid, ⟨hguild, hfresh⟩, hplaced, rfl⟩
    exact ⟨⟨hvalid, hguild, hfresh, hplaced⟩, rfl⟩
  · rintro ⟨h, rfl⟩
    exact ⟨h.valid, ⟨h.guildId_eq, h.fresh⟩, h.placed, rfl⟩

variable {kind : GuildEventKind}

/-- A transition that the code makes is an effect. -/
lemma effect_of_applyKind (h : s.applyKind C sequence kind = .ok t) :
    s.Effect C sequence kind t := by
  -- in each branch `h` is split into its checks, in the order of the source
  cases kind with
    simp only [applyKind, bind_eq_ok, okOr_eq_ok, reject_eq_ok, pure_eq_ok, exists_unit,
      U64.succ_eq_ok, Crypto.verifyingKey_eq_some, not_not] at h
  | addMember member =>
    obtain ⟨hvalid, hnew, epoch, hepoch, rfl⟩ := h
    exact .addMember hvalid (by push Not at hnew; exact hnew) hepoch
  | removeMember nodeId =>
    obtain ⟨m, hactive, epoch, hepoch, q, hq, rfl⟩ := h
    exact .removeMember hactive hepoch ⟨q, hq⟩
  | relabelMember nodeId failureDomain =>
    obtain ⟨hdomain, m, hactive, epoch, hepoch, rfl⟩ := h
    exact .relabelMember (by push Not at hdomain; exact hdomain) hactive hepoch
  | setQuorum policy =>
    obtain ⟨q, hq, epoch, hepoch, rfl⟩ := h
    exact .setQuorum ⟨q, hq⟩ hepoch
  | rotateWriterKey owner epoch publicKey =>
    obtain ⟨m, hactive, _, ⟨hpoint, rfl⟩, hweak, next, hnext, rfl, rfl⟩ := h
    exact .rotateWriterKey hactive ⟨hpoint, hweak⟩ hnext
  | revokeWriterKey owner epoch =>
    obtain ⟨keys, hkeys, rfl⟩ := h
    exact .revokeWriterKey hkeys
  | rotateRecoveryKey envelope =>
    obtain ⟨m, hactive, henvelope, next, hnext, heq, rfl⟩ := h
    exact .rotateRecoveryKey hactive henvelope (by rw [heq]; exact hnext)
  | revokeRecoveryKey subject epoch =>
    obtain ⟨keys, hkeys, rfl⟩ := h
    exact .revokeRecoveryKey hkeys
  | addCodingGroup group =>
    obtain ⟨hgroup, rfl⟩ := applyAddCodingGroup_eq_ok.mp h
    exact .addCodingGroup hgroup
  | addCodingGroupBound group transcriptHash =>
    obtain ⟨hgroup, rfl⟩ := applyAddCodingGroup_eq_ok.mp h
    exact .addCodingGroupBound hgroup
  | retireCodingGroup groupId retainThroughEvent =>
    obtain ⟨g, hfind, hguard, rfl⟩ := h
    push Not at hguard
    exact .retireCodingGroup hfind (by simpa using hguard.1) hguard.2
  | forgetCodingGroup groupId =>
    simp only [isSomeAnd] at h
    obtain ⟨g, hfind, hguard, rfl⟩ := h
    push Not at hguard
    obtain ⟨retained, hretained⟩ := Option.ne_none_iff_exists'.mp hguard.1
    exact .forgetCodingGroup hfind hretained (hguard.2 retained hretained)

/-- Every effect is a transition that the code makes. -/
lemma applyKind_of_effect (h : s.Effect C sequence kind t) :
    s.applyKind C sequence kind = .ok t := by
  cases h with
    simp only [applyKind, bind_eq_ok, okOr_eq_ok, reject_eq_ok, pure_eq_ok, exists_unit,
      U64.succ_eq_ok, Crypto.verifyingKey_eq_some, not_not]
  | addMember hvalid hnew hepoch =>
    exact ⟨hvalid, by push Not; exact hnew, _, hepoch, rfl⟩
  | removeMember hactive hepoch hquorum =>
    obtain ⟨q, hq⟩ := hquorum
    exact ⟨_, hactive, _, hepoch, q, hq, rfl⟩
  | relabelMember hdomain hactive hepoch =>
    exact ⟨by push Not; exact hdomain, _, hactive, _, hepoch, rfl⟩
  | setQuorum hquorum hepoch =>
    obtain ⟨q, hq⟩ := hquorum
    exact ⟨q, hq, _, hepoch, rfl⟩
  | rotateWriterKey hactive hkey hepoch =>
    exact ⟨_, hactive, _, ⟨hkey.1, rfl⟩, hkey.2, _, hepoch, rfl, trivial⟩
  | revokeWriterKey hkeys =>
    exact ⟨_, hkeys, rfl⟩
  | rotateRecoveryKey hactive henvelope hepoch =>
    exact ⟨_, hactive, henvelope, _, hepoch, rfl, trivial⟩
  | revokeRecoveryKey hkeys =>
    exact ⟨_, hkeys, rfl⟩
  | addCodingGroup hgroup => exact applyAddCodingGroup_eq_ok.mpr ⟨hgroup, rfl⟩
  | addCodingGroupBound hgroup => exact applyAddCodingGroup_eq_ok.mpr ⟨hgroup, rfl⟩
  | retireCodingGroup hfind hopen hretain =>
    refine ⟨_, hfind, ?_, trivial⟩
    push Not
    exact ⟨by simp [hopen], hretain⟩
  | forgetCodingGroup hfind hretained hpast =>
    simp only [isSomeAnd]
    refine ⟨_, hfind, ?_, trivial⟩
    push Not
    refine ⟨by simp [hretained], fun retained h => ?_⟩
    rw [hretained, Option.mem_some_iff] at h
    rwa [← h]

lemma applyKind_eq_ok : s.applyKind C sequence kind = .ok t ↔ s.Effect C sequence kind t :=
  ⟨effect_of_applyKind, applyKind_of_effect⟩

/-! ## The step -/

variable (C s)

/-- The state with the tip moved to an event. -/
def atEvent (event : GuildEvent) (head : Bytes 32) : DynamicGuildState :=
  { s with eventSequence := event.sequence, eventHead := head }

/-- The event has an effect, and the state after it is well formed. -/
def Advances (event : GuildEvent) (t : DynamicGuildState) : Prop :=
  ∃ changed head, s.Effect C event.sequence event.kind changed ∧ event.hash C = .ok head ∧
    t = changed.atEvent event head ∧ t.WellFormed C

variable {C s}

lemma applyVerifiedEvent_eq_ok :
    s.applyVerifiedEvent C certified = .ok t ↔ s.Advances C certified.event t := by
  rw [applyVerifiedEvent]
  simp only [bind_eq_ok, pure_eq_ok, exists_unit, applyKind_eq_ok, validate_eq_ok]
  constructor
  · rintro ⟨changed, heffect, head, hhash, hwf, rfl⟩
    exact ⟨changed, head, heffect, hhash, rfl, hwf⟩
  · rintro ⟨changed, head, heffect, hhash, rfl, hwf⟩
    exact ⟨changed, heffect, head, hhash, hwf, rfl⟩

/-- **The step.** An event is accepted exactly when the state is well formed, the event is next in
line and certified, and the state it leads to is well formed. -/
lemma applyEvent_eq_ok :
    s.applyEvent C certified = .ok t ↔
      s.WellFormed C ∧ s.InPlace certified.event ∧ s.Certified C certified ∧
        s.Advances C certified.event t := by
  rw [applyEvent]
  simp only [bind_eq_ok, exists_unit, verifyEvent_eq_ok, applyVerifiedEvent_eq_ok, and_assoc]

variable {event : GuildEvent}

/-- The state after an event depends on the event alone, not on who signed it. -/
lemma Advances.unique {u : DynamicGuildState} (ht : s.Advances C event t)
    (hu : s.Advances C event u) : t = u := by
  have ht' : s.applyVerifiedEvent C ⟨event, []⟩ = .ok t := applyVerifiedEvent_eq_ok.mpr ht
  have hu' : s.applyVerifiedEvent C ⟨event, []⟩ = .ok u := applyVerifiedEvent_eq_ok.mpr hu
  rw [ht'] at hu'
  exact Except.ok.inj hu'

/-! ## Frame -/

/-- An effect keeps the identity of the guild and the tip. -/
lemma Effect.header (h : s.Effect C sequence kind t) :
    t.formatVersion = s.formatVersion ∧ t.guildId = s.guildId ∧
      t.eventSequence = s.eventSequence ∧ t.eventHead = s.eventHead := by
  cases h <;> exact ⟨rfl, rfl, rfl, rfl⟩

lemma Advances.eventSequence_eq (h : s.Advances C event t) : t.eventSequence = event.sequence := by
  obtain ⟨changed, head, -, -, rfl, -⟩ := h
  rfl

lemma Advances.wellFormed (h : s.Advances C event t) : t.WellFormed C := by
  obtain ⟨-, -, -, -, -, hwf⟩ := h
  exact hwf

lemma wellFormed_of_applyEvent {c : QuorumGuildEvent} (h : s.applyEvent C c = .ok t) :
    t.WellFormed C :=
  (applyEvent_eq_ok.mp h).2.2.2.wellFormed

end DynamicGuildState

end MutualBackup
