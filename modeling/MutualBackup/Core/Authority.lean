import MutualBackup.Core.Guild

/-!
# The bounded authority snapshot

`guild/authority.rs`.  A `GuildAuthoritySnapshot` is the roster part of a guild state: members,
quorum policy, membership epoch and tip, without the key and group histories, which a reader of a
long history keeps in an index of its own.  It reuses the rules of the full state on a temporary
state whose histories are empty (`GuildAuthoritySnapshot.state`).

Membership events are applied to that temporary state.  Every other event is left to a callback of
the caller, which validates it against the index; the snapshot then only moves its tip.
-/

namespace MutualBackup

open Framework

def guildEventBytes : ℕ := 128 * 1024

structure GuildAuthoritySnapshot where
  formatVersion : U16
  guildId : Bytes 32
  eventSequence : U64
  eventHead : Bytes 32
  membershipEpoch : U64
  quorum : QuorumPolicy
  members : List DynamicMember
  deriving DecidableEq

/-- `check_members`. -/
def checkMembers (members : List DynamicMember) : Outcome GuildStateError Unit :=
  reject (members = [] ∨ maxDynamicMembers < members.length ∨
    ∃ entry ∈ members, 256 < entry.member.failureDomain.utf8ByteSize) .invalidState

/-- The events that change the roster or its rules. -/
def GuildEventKind.isMembership : GuildEventKind → Bool
  | .addMember _ | .removeMember _ | .relabelMember _ _ | .setQuorum _ => true
  | _ => false

/-- The roster part of a state. -/
def DynamicGuildState.snapshot (s : DynamicGuildState) : GuildAuthoritySnapshot :=
  { formatVersion := s.formatVersion
    guildId := s.guildId
    eventSequence := s.eventSequence
    eventHead := s.eventHead
    membershipEpoch := s.membershipEpoch
    quorum := s.quorum
    members := s.members }

/-! ## The snapshot -/

namespace GuildAuthoritySnapshot

variable (C : Crypto) (a : GuildAuthoritySnapshot)

/-- `GuildAuthoritySnapshot::state`: the snapshot as a state without histories. -/
def state : Outcome GuildStateError DynamicGuildState := do
  checkMembers a.members
  pure
    { formatVersion := a.formatVersion
      guildId := a.guildId
      eventSequence := a.eventSequence
      eventHead := a.eventHead
      membershipEpoch := a.membershipEpoch
      quorum := a.quorum
      members := a.members
      writerKeys := []
      recoveryKeys := []
      codingGroups := [] }

/-- `GuildAuthoritySnapshot::validate`. -/
def validate : Outcome GuildStateError Unit := do
  let state ← a.state
  state.validate C

/-- `GuildAuthoritySnapshot::from_state`. -/
def fromState (s : DynamicGuildState) : Outcome GuildStateError GuildAuthoritySnapshot := do
  checkMembers s.members
  s.snapshot.validate C
  pure s.snapshot

/-- `GuildAuthoritySnapshot::active_members`. -/
def activeMembers : List Member :=
  (a.members.filter fun entry => entry.isActive).map DynamicMember.member

/-- `GuildAuthoritySnapshot::verify_event`. -/
def verifyEvent (certified : QuorumGuildEvent) : Outcome GuildStateError Unit := do
  let _ ← mapErr .model (canonicalSizeBounded QuorumGuildEvent.codec certified guildEventBytes)
  let state ← a.state
  state.verifyEvent C certified

section Advance

variable {ε : Type} (convert : GuildStateError → ε)
  (validateNonMembership : GuildAuthoritySnapshot → GuildEvent → Outcome ε Unit)

section

variable (certified : QuorumGuildEvent)

/-- The temporary state of `advance_verified_indexed` after its `match`. -/
def applyIndexed : Outcome ε DynamicGuildState := do
  let next ← mapErr convert a.state
  if certified.event.kind.isMembership then
    let _ ← okOr a.membershipEpoch.checkedSucc (convert .invalidEvent)
    mapErr convert (next.applyVerifiedEvent C certified)
  else
    validateNonMembership a certified.event
    let head ← mapErr convert (certified.event.hash C)
    pure { next with eventSequence := certified.event.sequence, eventHead := head }

/-- The value `advance_verified_indexed` assigns. -/
def nextVerifiedIndexed : Outcome ε GuildAuthoritySnapshot := do
  let next ← a.applyIndexed C convert validateNonMembership certified
  mapErr convert (fromState C next)

/-- `advance_indexed`: the snapshot afterwards, and the result. -/
def advanceIndexed : GuildAuthoritySnapshot × Outcome ε Unit :=
  assign a do
    mapErr convert (a.verifyEvent C certified)
    a.nextVerifiedIndexed C convert validateNonMembership certified

end

/-- `advance_proposal_indexed`: the same effects for an event that nobody has signed. -/
def advanceProposalIndexed (event : GuildEvent) : GuildAuthoritySnapshot × Outcome ε Unit :=
  assign a do
    let _ ← mapErr (fun e => convert (.model e))
      (canonicalSizeBounded GuildEvent.codec event guildEventBytes)
    mapErr convert (a.validate C)
    reject (¬ validEventFormat event ∨ event.guildId ≠ a.guildId ∨
      some event.sequence ≠ a.eventSequence.checkedSucc ∨ event.parent ≠ a.eventHead)
      (convert .invalidEvent)
    a.nextVerifiedIndexed C convert validateNonMembership { event := event, signatures := [] }

end Advance

end GuildAuthoritySnapshot

end MutualBackup
