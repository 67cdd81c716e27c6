import MutualBackup.Framework.EpochLog
import MutualBackup.Framework.ReplicatedLog
import MutualBackup.Core.Coding

/-!
# The guild log

A guild changes by events: members join and leave, the quorum policy changes, writer and recovery
keys rotate, coding groups are added, retired and forgotten.  An event names its place in the log
by a sequence number and the hash of the event before, and a quorum of the members active at that
place signs it.  `DynamicGuildState` is the state a log replays to.

The functions here are those of the source, under its names.  A method on `&mut self` that clones,
works on the clone and assigns at the end is the function to the new state: where it fails, the old
state stays.  `+=` and `+` on machine integers are unchecked, and their overflow is the fault of
`Outcome`; `checked_add` is `checkedSucc`.  A binary search in a vector that validation has just
found sorted is membership, and an insertion at the partition point is `insertByKey`.
-/

namespace MutualBackup

open Framework Codec

/-! ## Records -/

structure Member where
  nodeId : NodeId
  recoveryPublicKey : RecoveryPublicKey
  failureDomain : String
  deriving DecidableEq, Repr

structure MemberSignature where
  signer : NodeId
  signature : List UInt8
  deriving DecidableEq, Repr

structure SealedRecoveryRecord where
  formatVersion : U16
  ephemeralPublicKey : Bytes 32
  nonce : Bytes 24
  ciphertext : List UInt8
  deriving DecidableEq, Repr

inductive QuorumRule where
  | unanimous
  | majority
  | threshold (value : U16)
  deriving DecidableEq, Repr

structure QuorumPolicy where
  formatVersion : U16
  rule : QuorumRule
  deriving DecidableEq, Repr

/-- A member and the events that admitted and removed it. -/
structure DynamicMember where
  member : Member
  joinedAtEvent : U64
  removedAtEvent : Option U64
  deriving DecidableEq, Repr

structure WriterKeyEpoch where
  owner : NodeId
  epoch : U64
  publicKey : Bytes 32
  activatedAtEvent : U64
  revokedAtEvent : Option U64
  deriving DecidableEq, Repr

structure RecoveryKeyEnvelope where
  formatVersion : U16
  guildId : Bytes 32
  subject : NodeId
  epoch : U64
  publicKey : RecoveryPublicKey
  sealedPrivateKey : SealedRecoveryRecord
  deriving DecidableEq, Repr

structure RecoveryKeyEpoch where
  envelope : RecoveryKeyEnvelope
  activatedAtEvent : U64
  revokedAtEvent : Option U64
  deriving DecidableEq, Repr

/-- A coding group with its retention window. -/
structure RetainedCodingGroup where
  group : CodingGroupV2
  addedAtEvent : U64
  retiredAtEvent : Option U64
  retainThroughEvent : Option U64
  deriving DecidableEq, Repr

inductive GuildEventKind where
  | addMember (member : Member)
  | removeMember (nodeId : NodeId)
  | relabelMember (nodeId : NodeId) (failureDomain : String)
  | setQuorum (policy : QuorumPolicy)
  | rotateWriterKey (owner : NodeId) (epoch : U64) (publicKey : Bytes 32)
  | revokeWriterKey (owner : NodeId) (epoch : U64)
  | rotateRecoveryKey (envelope : RecoveryKeyEnvelope)
  | revokeRecoveryKey (subject : NodeId) (epoch : U64)
  | addCodingGroup (group : CodingGroupV2)
  | retireCodingGroup (groupId : Bytes 32) (retainThroughEvent : U64)
  | forgetCodingGroup (groupId : Bytes 32)
  | addCodingGroupBound (group : CodingGroupV2) (transcriptHash : Bytes 32)
  deriving DecidableEq, Repr

/-- `coding_group_add`: the group an event adds, with its transcript when bound. -/
def GuildEventKind.codingGroupAdd : GuildEventKind → Option (CodingGroupV2 × Option (Bytes 32))
  | .addCodingGroup group => some (group, none)
  | .addCodingGroupBound group transcriptHash => some (group, some transcriptHash)
  | _ => none

structure GuildEvent where
  formatVersion : U16
  guildId : Bytes 32
  sequence : U64
  parent : Bytes 32
  kind : GuildEventKind
  deriving DecidableEq, Repr

structure QuorumGuildEvent where
  event : GuildEvent
  signatures : List MemberSignature
  deriving DecidableEq, Repr

structure GuildEventTail where
  formatVersion : U16
  baseSequence : U64
  baseHead : Bytes 32
  events : List QuorumGuildEvent
  deriving DecidableEq, Repr

structure DynamicGuildState where
  formatVersion : U16
  guildId : Bytes 32
  eventSequence : U64
  eventHead : Bytes 32
  membershipEpoch : U64
  quorum : QuorumPolicy
  members : List DynamicMember
  writerKeys : List WriterKeyEpoch
  recoveryKeys : List RecoveryKeyEpoch
  codingGroups : List RetainedCodingGroup
  deriving DecidableEq, Repr

inductive RecoveryCryptoError where
  | version
  | encrypt
  | authentication
  deriving DecidableEq, Repr

inductive GuildStateError where
  | invalidState
  | invalidEvent
  | insufficientQuorum (actual required : ℕ)
  | inactiveMember (nodeId : NodeId)
  | invalidPlacement
  | invalidAttempt
  | retentionActive
  | invalidEnvelope
  | model (e : ModelError)
  | recovery (e : RecoveryCryptoError)
  | signature
  deriving DecidableEq, Repr

def maxDynamicMembers : ℕ := 256

def maxGuildEventTail : ℕ := 4096

/-! ## Codecs -/

def Member.codec : Codec Member := (pair NodeId.codec <| pair RecoveryPublicKey.codec string).iso
    (fun m => (m.nodeId, m.recoveryPublicKey, m.failureDomain))
    (fun p => ⟨p.1, p.2.1, p.2.2⟩) fun _ => rfl

def MemberSignature.codec : Codec MemberSignature := (pair NodeId.codec (list u8)).iso
    (fun s => (s.signer, s.signature)) (fun p => ⟨p.1, p.2⟩) fun _ => rfl

def SealedRecoveryRecord.codec : Codec SealedRecoveryRecord :=
  (pair u16 <| pair (bytes 32) <| pair (bytes 24) <| list u8).iso
    (fun r => (r.formatVersion, r.ephemeralPublicKey, r.nonce, r.ciphertext))
    (fun p => ⟨p.1, p.2.1, p.2.2.1, p.2.2.2⟩) fun _ => rfl

def QuorumRule.codec : Codec QuorumRule := enum
    [{ codec := const (), make := fun _ => .unanimous,
       match? := fun | .unanimous => some () | _ => none },
     { codec := const (), make := fun _ => .majority,
       match? := fun | .majority => some () | _ => none },
     { codec := u16, make := .threshold,
       match? := fun | .threshold v => some v | _ => none }] (by decide)

def QuorumPolicy.codec : Codec QuorumPolicy := (pair u16 QuorumRule.codec).iso
    (fun p => (p.formatVersion, p.rule)) (fun p => ⟨p.1, p.2⟩) fun _ => rfl

def RecoveryKeyEnvelope.codec : Codec RecoveryKeyEnvelope :=
  (pair u16 <| pair (bytes 32) <| pair NodeId.codec <|
    pair u64 <| pair RecoveryPublicKey.codec SealedRecoveryRecord.codec).iso
    (fun e => (e.formatVersion, e.guildId, e.subject, e.epoch, e.publicKey, e.sealedPrivateKey))
    (fun p => ⟨p.1, p.2.1, p.2.2.1, p.2.2.2.1, p.2.2.2.2.1, p.2.2.2.2.2⟩) fun _ => rfl

/-- The variants in the order of the source, which is their index on the wire. -/
def GuildEventKind.codec : Codec GuildEventKind := enum
    [{ codec := Member.codec, make := .addMember,
       match? := fun | .addMember m => some m | _ => none },
     { codec := NodeId.codec, make := .removeMember,
       match? := fun | .removeMember n => some n | _ => none },
     { codec := pair NodeId.codec string, make := fun p => .relabelMember p.1 p.2,
       match? := fun | .relabelMember n d => some (n, d) | _ => none },
     { codec := QuorumPolicy.codec, make := .setQuorum,
       match? := fun | .setQuorum p => some p | _ => none },
     { codec := pair NodeId.codec <| pair u64 (bytes 32),
       make := fun p => .rotateWriterKey p.1 p.2.1 p.2.2,
       match? := fun | .rotateWriterKey o e k => some (o, e, k) | _ => none },
     { codec := pair NodeId.codec u64, make := fun p => .revokeWriterKey p.1 p.2,
       match? := fun | .revokeWriterKey o e => some (o, e) | _ => none },
     { codec := RecoveryKeyEnvelope.codec, make := .rotateRecoveryKey,
       match? := fun | .rotateRecoveryKey e => some e | _ => none },
     { codec := pair NodeId.codec u64, make := fun p => .revokeRecoveryKey p.1 p.2,
       match? := fun | .revokeRecoveryKey o e => some (o, e) | _ => none },
     { codec := CodingGroupV2.codec, make := .addCodingGroup,
       match? := fun | .addCodingGroup g => some g | _ => none },
     { codec := pair (bytes 32) u64, make := fun p => .retireCodingGroup p.1 p.2,
       match? := fun | .retireCodingGroup g r => some (g, r) | _ => none },
     { codec := bytes 32, make := .forgetCodingGroup,
       match? := fun | .forgetCodingGroup g => some g | _ => none },
     { codec := pair CodingGroupV2.codec (bytes 32), make := fun p => .addCodingGroupBound p.1 p.2,
       match? := fun | .addCodingGroupBound g t => some (g, t) | _ => none }] (by decide)

def GuildEvent.codec : Codec GuildEvent := (pair u16 <| pair (bytes 32) <| pair u64 <|
    pair (bytes 32) GuildEventKind.codec).iso
    (fun e => (e.formatVersion, e.guildId, e.sequence, e.parent, e.kind))
    (fun p => ⟨p.1, p.2.1, p.2.2.1, p.2.2.2.1, p.2.2.2.2⟩) fun _ => rfl

def QuorumGuildEvent.codec : Codec QuorumGuildEvent :=
  (pair GuildEvent.codec (list MemberSignature.codec)).iso
    (fun c => (c.event, c.signatures)) (fun p => ⟨p.1, p.2⟩) fun _ => rfl

/-! ## Quorum -/

/-- The signatures a rule asks for, by the `match` of `required`. -/
def QuorumRule.signatures (activeMembers : ℕ) : QuorumRule → Outcome GuildStateError ℕ
  | .unanimous => pure activeMembers
  | .majority => pure (activeMembers / 2 + 1)
  | .threshold value => do
    reject (value.val ≤ activeMembers / 2) .invalidState
    pure value.val

/-- `QuorumPolicy::required`. -/
def QuorumPolicy.required (p : QuorumPolicy) (activeMembers : ℕ) : Outcome GuildStateError ℕ := do
  reject (p.formatVersion ≠ 1 ∨ activeMembers = 0) .invalidState
  let required ← p.rule.signatures activeMembers
  reject (required = 0 ∨ activeMembers < required) .invalidState
  pure required

/-! ## Key histories -/

/-- Writer keys as a log of epochs. -/
def writerFields : EpochFields WriterKeyEpoch NodeId (Bytes 32) where
  owner := WriterKeyEpoch.owner
  epoch := WriterKeyEpoch.epoch
  key := WriterKeyEpoch.publicKey
  activatedAt := WriterKeyEpoch.activatedAtEvent
  revokedAt := WriterKeyEpoch.revokedAtEvent
  revoke n entry := { entry with revokedAtEvent := some n }
  owner_revoke _ _ := rfl
  epoch_revoke _ _ := rfl
  key_revoke _ _ := rfl
  revokedAt_revoke _ _ := rfl

/-- Recovery keys as a log of epochs; an epoch keeps its whole envelope. -/
def recoveryFields : EpochFields RecoveryKeyEpoch NodeId RecoveryKeyEnvelope where
  owner entry := entry.envelope.subject
  epoch entry := entry.envelope.epoch
  key := RecoveryKeyEpoch.envelope
  activatedAt := RecoveryKeyEpoch.activatedAtEvent
  revokedAt := RecoveryKeyEpoch.revokedAtEvent
  revoke n entry := { entry with revokedAtEvent := some n }
  owner_revoke _ _ := rfl
  epoch_revoke _ _ := rfl
  key_revoke _ _ := rfl
  revokedAt_revoke _ _ := rfl

/-! ## Shape checks -/

section Checks

variable (C : Crypto)

/-- `valid_event_format`: a bound group addition has its own version and names its transcript. -/
def validEventFormat (event : GuildEvent) : Bool :=
  match event.kind with
  | .addCodingGroupBound _ transcriptHash => event.formatVersion = 2 ∧ transcriptHash ≠ 0
  | _ => event.formatVersion = 1

/-- `GuildEvent::hash`. -/
def GuildEvent.hash (event : GuildEvent) : Outcome GuildStateError (Bytes 32) := do
  let bytes ← mapErr .model (canonicalBytes GuildEvent.codec event)
  pure (C.deriveKey "mutualbackup guild event v1" bytes)

def guildEventDomain : String := "mutualbackup/guild-event/v1"

/-- `verify_guild_event_signature`. -/
def verifyGuildEventSignature (event : GuildEvent) (signature : MemberSignature) :
    Outcome GuildStateError Unit := do
  let key ← okOr (C.verifyingKey signature.signer.bytes) .signature
  reject (C.isWeak key) .invalidEvent
  let bytes ← mapErr .model (canonicalBytes GuildEvent.codec event)
  reject (signature.signature.length ≠ 64) .signature
  reject (¬ C.verifyStrict key (signingPayload guildEventDomain bytes) signature.signature)
    .signature

/-- `validate_member`. -/
def validateMember (member : Member) : Outcome GuildStateError Unit := do
  reject (member.nodeId = ⟨0⟩ ∨ member.failureDomain = "" ∨
    256 < member.failureDomain.utf8ByteSize ∨ ¬ member.recoveryPublicKey.isContributory C)
    .invalidEvent
  let key ← okOr (C.verifyingKey member.nodeId.bytes) .signature
  reject (C.isWeak key) .invalidEvent

/-- `validate_recovery_envelope`. -/
def validateRecoveryEnvelope (envelope : RecoveryKeyEnvelope) (guildId : Bytes 32) :
    Outcome GuildStateError Unit :=
  reject (envelope.formatVersion ≠ 1 ∨ envelope.guildId ≠ guildId ∨ envelope.subject = ⟨0⟩ ∨
    envelope.epoch = 0 ∨ ¬ envelope.publicKey.isContributory C ∨
    4096 < envelope.sealedPrivateKey.ciphertext.length) .invalidEnvelope

end Checks

/-- `DynamicMember::is_active`. -/
def DynamicMember.isActive (m : DynamicMember) : Prop := m.removedAtEvent = none
  deriving Decidable

namespace DynamicGuildState

variable (C : Crypto) (s : DynamicGuildState)

/-! ## The state -/

/-- `active_members`. -/
def activeMembers : List Member := (s.members.filter fun m => m.isActive).map DynamicMember.member

/-- The identities of the active members as a set. -/
def activeIds : Finset NodeId := (s.activeMembers.map Member.nodeId).toFinset

/-- The body of the member loop of `validate`. -/
def checkMember (previous : Option NodeId) (m : DynamicMember) : Outcome GuildStateError Unit := do
  reject (isSomeAnd previous (fun nodeId => m.member.nodeId ≤ nodeId) ∨ m.member.nodeId = ⟨0⟩ ∨
    m.member.failureDomain = "" ∨ 256 < m.member.failureDomain.utf8ByteSize ∨
    ¬ m.member.recoveryPublicKey.isContributory C ∨ s.eventSequence < m.joinedAtEvent ∨
    isSomeAnd m.removedAtEvent fun removed =>
      removed ≤ m.joinedAtEvent ∨ s.eventSequence < removed) .invalidState
  let key ← okOr (C.verifyingKey m.member.nodeId.bytes) .signature
  reject (C.isWeak key) .invalidState

/-- `validate_writer_keys`. -/
def validateWriterKeys : Outcome GuildStateError Unit := writerFields.validateFrom
    (fun entry => do let _ ← okOr (C.verifyingKey entry.publicKey) .signature)
    (fun entry => C.isWeak entry.publicKey) .invalidState s.eventSequence none (fun _ => none)
    s.writerKeys

/-- `validate_recovery_keys`. -/
def validateRecoveryKeys : Outcome GuildStateError Unit :=
  recoveryFields.validateFrom (fun entry => validateRecoveryEnvelope C entry.envelope s.guildId)
    (fun _ => False) .invalidState s.eventSequence none (fun _ => none) s.recoveryKeys

/-- The body of the coding group loop of `validate`. -/
def checkGroup (previous : Option (Bytes 32)) (g : RetainedCodingGroup) :
    Outcome GuildStateError Unit := do
  mapErr .model (g.group.validate C)
  reject (g.group.guildId ≠ s.guildId ∨ isSomeAnd previous (fun id => g.group.id ≤ id) ∨
    g.addedAtEvent = 0 ∨ s.eventSequence < g.addedAtEvent ∨
    g.retiredAtEvent.isSome ≠ g.retainThroughEvent.isSome ∨
    isSomeAnd g.retiredAtEvent (fun event => event < g.addedAtEvent ∨ s.eventSequence < event) ∨
    isSomeAnd g.retainThroughEvent fun event => event < g.retiredAtEvent.getD 0) .invalidState

/-- `DynamicGuildState::validate`. -/
def validate : Outcome GuildStateError Unit := do
  reject (s.formatVersion ≠ 1 ∨ s.guildId = 0 ∨ s.eventHead = 0 ∨ s.membershipEpoch = 0 ∨
    s.members = [] ∨ maxDynamicMembers < s.members.length) .invalidState
  scanFrom (fun m => m.member.nodeId) (s.checkMember C) none s.members
  let _ ← s.quorum.required s.activeMembers.length
  s.validateWriterKeys C
  s.validateRecoveryKeys C
  scanFrom (fun g => g.group.id) (s.checkGroup C) none s.codingGroups

/-- `DynamicGuildState::new`. -/
def new (guildId genesisHash : Bytes 32) (quorum : QuorumPolicy) (members : List Member) :
    Outcome GuildStateError DynamicGuildState := do
  let state : DynamicGuildState :=
    { formatVersion := 1
      guildId := guildId
      eventSequence := 0
      eventHead := genesisHash
      membershipEpoch := 1
      quorum := quorum
      members := (members.insertionSort fun a b => a.nodeId ≤ b.nodeId).map fun member =>
        { member := member, joinedAtEvent := 0, removedAtEvent := none }
      writerKeys := []
      recoveryKeys := []
      codingGroups := [] }
  state.validate C
  pure state

/-! ## Verification -/

/-- The body of the signature loop of `verify_event`. -/
def checkSignature (event : GuildEvent) (previous : Option NodeId) (signature : MemberSignature) :
    Outcome GuildStateError Unit := do
  reject (signature.signer ∉ s.activeIds ∨ isSomeAnd previous fun signer =>
    signature.signer ≤ signer) .invalidEvent
  verifyGuildEventSignature C event signature

/-- The member whose own signature an event needs: a key rotation is consented to. -/
def subjectAuthorization : GuildEventKind → Option NodeId
  | .rotateWriterKey owner _ _ => some owner
  | .rotateRecoveryKey envelope => some envelope.subject
  | _ => none

/-- `DynamicGuildState::verify_event`.  Every iteration of the signature loop counts one valid
signature, so the count is the length. -/
def verifyEvent (certified : QuorumGuildEvent) : Outcome GuildStateError Unit := do
  s.validate C
  reject (¬ validEventFormat certified.event ∨ certified.event.guildId ≠ s.guildId ∨
    some certified.event.sequence ≠ s.eventSequence.checkedSucc ∨
    certified.event.parent ≠ s.eventHead) .invalidEvent
  scanFrom MemberSignature.signer (s.checkSignature C certified.event) none certified.signatures
  let required ← s.quorum.required s.activeIds.card
  reject (certified.signatures.length < required)
    (.insufficientQuorum certified.signatures.length required)
  reject (isSomeAnd (subjectAuthorization certified.event.kind) fun subject =>
    ∀ signature ∈ certified.signatures, signature.signer ≠ subject) .invalidEvent

/-! ## Application -/

/-- `require_active_member`, and the lookup of `active_member_mut`. -/
def requireActiveMember (nodeId : NodeId) : Outcome GuildStateError DynamicMember :=
  okOr (s.members.find? fun m => m.member.nodeId = nodeId ∧ m.isActive) (.inactiveMember nodeId)

/-- The write through `active_member_mut`. -/
def modifyActiveMember (nodeId : NodeId) (f : DynamicMember → DynamicMember) :
    List DynamicMember :=
  modifyFirst (fun m => m.member.nodeId = nodeId ∧ m.isActive) f s.members

/-- The member and failure domain a role claims. -/
def placement : ShardRoleV2 → NodeId × String
  | .information role => (role.owner, role.failureDomain)
  | .parity role => (role.holder, role.failureDomain)

/-- `validate_current_group_placement`. -/
def validateCurrentGroupPlacement (group : CodingGroupV2) : Outcome GuildStateError Unit :=
  forEach (fun role => do
    let member ← s.requireActiveMember (placement role).1
    reject (member.member.failureDomain ≠ (placement role).2) .invalidPlacement) group.roles

/-- The branch of `AddCodingGroup` and `AddCodingGroupBound`. -/
def applyAddCodingGroup (sequence : U64) (group : CodingGroupV2) :
    Outcome GuildStateError DynamicGuildState := do
  mapErr .model (group.validate C)
  reject (group.guildId ≠ s.guildId ∨ ∃ entry ∈ s.codingGroups, entry.group.id = group.id)
    .invalidEvent
  s.validateCurrentGroupPlacement group
  pure { s with
    codingGroups := insertByKey (fun entry => entry.group.id)
      { group := group, addedAtEvent := sequence, retiredAtEvent := none,
        retainThroughEvent := none } s.codingGroups }

/-- The `match` of `apply_verified_event`. -/
def applyKind (sequence : U64) : GuildEventKind → Outcome GuildStateError DynamicGuildState
  | .addMember member => do
    validateMember C member
    reject (∃ entry ∈ s.members, entry.member.nodeId = member.nodeId) .invalidEvent
    let membershipEpoch ← U64.succ s.membershipEpoch
    pure { s with
      members := insertByKey (fun entry => entry.member.nodeId)
        { member := member, joinedAtEvent := sequence, removedAtEvent := none } s.members
      membershipEpoch := membershipEpoch }
  | .removeMember nodeId => do
    let _ ← s.requireActiveMember nodeId
    let membershipEpoch ← U64.succ s.membershipEpoch
    let next : DynamicGuildState := { s with
      members := s.modifyActiveMember nodeId fun m => { m with removedAtEvent := some sequence }
      membershipEpoch := membershipEpoch }
    let _ ← next.quorum.required next.activeMembers.length
    pure next
  | .relabelMember nodeId failureDomain => do
    reject (failureDomain = "" ∨ 256 < failureDomain.utf8ByteSize) .invalidEvent
    let _ ← s.requireActiveMember nodeId
    let membershipEpoch ← U64.succ s.membershipEpoch
    pure { s with
      members := s.modifyActiveMember nodeId fun m =>
        { m with member := { m.member with failureDomain := failureDomain } }
      membershipEpoch := membershipEpoch }
  | .setQuorum policy => do
    let _ ← policy.required s.activeMembers.length
    let membershipEpoch ← U64.succ s.membershipEpoch
    pure { s with quorum := policy, membershipEpoch := membershipEpoch }
  | .rotateWriterKey owner epoch publicKey => do
    let _ ← s.requireActiveMember owner
    let key ← okOr (C.verifyingKey publicKey) .signature
    reject (C.isWeak key) .invalidEvent
    let next ← U64.succ (writerFields.latest owner s.writerKeys)
    reject (epoch ≠ next) .invalidEvent
    pure { s with
      writerKeys := writerFields.append
        { owner := owner, epoch := epoch, publicKey := publicKey,
          activatedAtEvent := sequence, revokedAtEvent := none } s.writerKeys }
  | .revokeWriterKey owner epoch => do
    let writerKeys ← writerFields.revokeEntry .invalidEvent owner epoch sequence s.writerKeys
    pure { s with writerKeys := writerKeys }
  | .rotateRecoveryKey envelope => do
    let _ ← s.requireActiveMember envelope.subject
    validateRecoveryEnvelope C envelope s.guildId
    let next ← U64.succ (recoveryFields.latest envelope.subject s.recoveryKeys)
    reject (envelope.epoch ≠ next) .invalidEvent
    pure { s with
      recoveryKeys := recoveryFields.append
        { envelope := envelope, activatedAtEvent := sequence, revokedAtEvent := none }
        s.recoveryKeys }
  | .revokeRecoveryKey subject epoch => do
    let recoveryKeys ←
      recoveryFields.revokeEntry .invalidEvent subject epoch sequence s.recoveryKeys
    pure { s with recoveryKeys := recoveryKeys }
  | .addCodingGroup group => s.applyAddCodingGroup C sequence group
  | .addCodingGroupBound group _ => s.applyAddCodingGroup C sequence group
  | .retireCodingGroup groupId retainThroughEvent => do
    let group ← okOr (s.codingGroups.find? fun g => g.group.id = groupId) .invalidEvent
    reject (group.retiredAtEvent.isSome ∨ retainThroughEvent < sequence) .invalidEvent
    pure { s with
      codingGroups := modifyFirst (fun g => g.group.id = groupId)
        (fun g => { g with
          retiredAtEvent := some sequence, retainThroughEvent := some retainThroughEvent })
        s.codingGroups }
  | .forgetCodingGroup groupId => do
    let group ← okOr (s.codingGroups.find? fun g => g.group.id = groupId) .invalidEvent
    reject (group.retainThroughEvent = none ∨
      isSomeAnd group.retainThroughEvent fun retained => sequence ≤ retained) .retentionActive
    pure { s with codingGroups := s.codingGroups.eraseP fun g => g.group.id = groupId }

/-- `apply_verified_event`: the effect, the new tip, and validation of the result. -/
def applyVerifiedEvent (certified : QuorumGuildEvent) :
    Outcome GuildStateError DynamicGuildState := do
  let changed ← s.applyKind C certified.event.sequence certified.event.kind
  let head ← certified.event.hash C
  let next := { changed with eventSequence := certified.event.sequence, eventHead := head }
  next.validate C
  pure next

/-- `apply_event`. -/
def applyEvent (certified : QuorumGuildEvent) : Outcome GuildStateError DynamicGuildState := do
  s.verifyEvent C certified
  s.applyVerifiedEvent C certified

/-- `validate_event_proposal`: the next sequence is computed without a check. -/
def validateEventProposal (event : GuildEvent) : Outcome GuildStateError Unit := do
  s.validate C
  reject (¬ validEventFormat event ∨ event.guildId ≠ s.guildId) .invalidEvent
  let sequence ← U64.succ s.eventSequence
  reject (event.sequence ≠ sequence ∨ event.parent ≠ s.eventHead) .invalidEvent
  let _ ← s.applyVerifiedEvent C { event := event, signatures := [] }
  pure ()

/-- The loop of `apply_tail`. -/
def applyEvents (s : DynamicGuildState) (events : List QuorumGuildEvent) :
    Outcome GuildStateError DynamicGuildState :=
  replay (fun next certified => next.applyEvent C certified) s events

/-- `apply_tail`. -/
def applyTail (tail : GuildEventTail) : Outcome GuildStateError DynamicGuildState := do
  reject (tail.formatVersion ≠ 1 ∨ tail.baseSequence ≠ s.eventSequence ∨
    tail.baseHead ≠ s.eventHead ∨ maxGuildEventTail < tail.events.length) .invalidEvent
  applyEvents C s tail.events

/-! ## Queries -/

/-- `writer_key_for_retained_revision`. -/
def writerKeyForRetainedRevision (owner : NodeId) (epoch : U64) : Option (Bytes 32) :=
  (writerFields.find owner epoch s.writerKeys).map WriterKeyEpoch.publicKey

/-- `current_recovery_key`. -/
def currentRecoveryKey (subject : NodeId) : Option RecoveryKeyEpoch :=
  (recoveryFields.newest subject s.recoveryKeys).filter fun entry => entry.revokedAtEvent = none

/-- `writer_epoch_is_current`. -/
def writerEpochIsCurrent (owner : NodeId) (epoch : U64) : Prop :=
  writerFields.IsCurrent s.writerKeys owner epoch
  deriving Decidable

/-! ## Transparent certificates

Certificates under the transparent primitives, for concrete runs. -/

/-- The signature of an event by a node. -/
def transparentEventSignature (event : GuildEvent) (n : NodeId) : MemberSignature :=
  { signer := n
    signature := transparentSignature n.bytes
      (signingPayload guildEventDomain ((GuildEvent.codec.encode event).getD [])) }

/-- The next event of a state, signed by the given nodes. -/
def transparentCertificate (kind : GuildEventKind) (signers : List NodeId) : QuorumGuildEvent :=
  let event : GuildEvent :=
    { formatVersion := 1
      guildId := s.guildId
      sequence := s.eventSequence + 1
      parent := s.eventHead
      kind := kind }
  { event := event, signatures := signers.map (transparentEventSignature event) }

/-- Certificates for a sequence of events, each signed in the state the ones before lead to. -/
def transparentCertificates (s : DynamicGuildState) :
    List (GuildEventKind × List NodeId) → List QuorumGuildEvent
  | [] => []
  | (kind, signers) :: rest =>
    let certified := s.transparentCertificate kind signers
    certified ::
      match s.applyEvent .transparent certified with
      | .ok t => transparentCertificates t rest
      | .error _ => []

end DynamicGuildState

end MutualBackup
