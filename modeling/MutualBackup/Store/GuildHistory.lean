import MutualBackup.Catalog.Page
import MutualBackup.Core.Authority
import MutualBackup.Core.Revision
import MutualBackup.Store.ControlStore

/-!
# The index of a guild's writers

`catalog/guild_history.rs` replays the events of a guild into rows of a scratch store, and answers
from the rows who may write.  This module has the two tables of writer keys: `WRITERS`, one row per
owner and epoch, and `LATEST_WRITER`, one row per owner.  `WriterRows.applyEffect` is the part of
`apply_effect` that writes them, and `currentWriter` the query.  The effects of recovery keys and
coding groups, which read rows, bindings and transcripts that are not here and can refuse the event,
are left to a callback.

The rows are typed: a row is written as the canonical encoding of its value and read back with the
encoding checked, and both kinds of row fit the size limit of the table.  The meter that charges the
replay for its work is left out.
-/

namespace MutualBackup

open Framework

/-- The errors of `CatalogStoreError` that the modelled operations return. -/
inductive CatalogStoreError where
  | database (e : DatabaseError)
  | model (e : ModelError)
  | page (e : CatalogError)
  | guild (e : GuildStateError)
  deriving DecidableEq, Repr

structure PagedCheckpointParent where
  generation : U64
  hash : Bytes 32
  deriving DecidableEq, Repr

/-- What a reader of the index trusts independently of it. -/
structure PagedCheckpointTrust where
  guildId : Bytes 32
  genesisHash : Bytes 32
  eventSequence : U64
  eventHead : Bytes 32
  authority : CheckpointAuthority
  members : List Member
  previous : Option PagedCheckpointParent
  deriving DecidableEq, Repr

/-- `matches_tip`: the trust describes the tip of the replay. -/
structure MatchesTip (a : GuildAuthoritySnapshot) (trust : PagedCheckpointTrust) : Prop where
  guildId_eq : a.guildId = trust.guildId
  eventSequence_eq : a.eventSequence = trust.eventSequence
  eventHead_eq : a.eventHead = trust.eventHead
  membershipEpoch_eq : a.membershipEpoch = trust.authority.membershipEpoch
  quorum_eq : a.quorum = trust.authority.quorum
  members_eq : a.activeMembers = trust.members

/-- The events whose effect is on the recovery keys or on the coding groups. -/
def GuildEventKind.touchesOtherRows : GuildEventKind → Bool
  | .rotateRecoveryKey _ | .revokeRecoveryKey _ _ | .addCodingGroup _ | .addCodingGroupBound _ _
  | .retireCodingGroup _ _ | .forgetCodingGroup _ => true
  | _ => false

/-- The rows of `WRITERS` and `LATEST_WRITER`. -/
structure WriterRows where
  writers : NodeId → U64 → Option WriterKeyEpoch
  latestWriter : NodeId → Option U64

/-- `validate_writer`. -/
def validateWriter (C : Crypto) (entry : WriterKeyEpoch) (owner : NodeId) (epoch sequence : U64) :
    Outcome CatalogStoreError Unit := do
  reject (entry.owner ≠ owner ∨ entry.epoch ≠ epoch ∨ epoch = 0 ∨ entry.activatedAtEvent = 0 ∨
    sequence < entry.activatedAtEvent ∨ isSomeAnd entry.revokedAtEvent fun revoked =>
      revoked ≤ entry.activatedAtEvent ∨ sequence < revoked) (.database .integrity)
  let key ← okOr (C.verifyingKey entry.publicKey) (.model .publicKey)
  reject (C.isWeak key) (.database .integrity)

namespace WriterRows

variable (C : Crypto) (rows : WriterRows)

/-- `write` to `WRITERS`. -/
def putWriter (entry : WriterKeyEpoch) : WriterRows :=
  { rows with writers := fun owner epoch =>
      if entry.owner = owner ∧ entry.epoch = epoch then some entry else rows.writers owner epoch }

/-- `write` to `LATEST_WRITER`. -/
def putLatest (owner : NodeId) (epoch : U64) : WriterRows :=
  { rows with latestWriter := fun n => if owner = n then some epoch else rows.latestWriter n }

/-- The number after the latest one of an owner, `1` without one. -/
def nextEpoch (owner : NodeId) : Option U64 :=
  match rows.latestWriter owner with
  | some epoch => epoch.checkedSucc
  | none => some 1

/-- `apply_effect` on the writer rows; `others` answers for the effects on the other rows. -/
def applyEffect (others : GuildAuthoritySnapshot → GuildEvent → Outcome CatalogStoreError Unit)
    (snapshot : GuildAuthoritySnapshot) (event : GuildEvent) :
    Outcome CatalogStoreError WriterRows :=
  match event.kind with
  | .addMember _ | .removeMember _ | .relabelMember _ _ | .setQuorum _ => pure rows
  | .rotateWriterKey owner epoch publicKey => do
    reject (∀ member ∈ snapshot.activeMembers, member.nodeId ≠ owner) (.database .conflict)
    let key ← okOr (C.verifyingKey publicKey) (.model .publicKey)
    reject (rows.latestWriter owner = some 0) (.database .integrity)
    reject (C.isWeak key ∨ some epoch ≠ rows.nextEpoch owner) (.database .conflict)
    reject ((rows.writers owner epoch).isSome) (.database .conflict)
    let rows := rows.putWriter
      { owner := owner, epoch := epoch, publicKey := publicKey,
        activatedAtEvent := event.sequence, revokedAtEvent := none }
    pure (rows.putLatest owner epoch)
  | .revokeWriterKey owner epoch => do
    let entry ← okOr (rows.writers owner epoch) (.database .conflict)
    validateWriter C entry owner epoch snapshot.eventSequence
    reject (entry.revokedAtEvent.isSome) (.database .conflict)
    pure (rows.putWriter { entry with revokedAtEvent := some event.sequence })
  | _ => do
    others snapshot event
    pure rows

end WriterRows

/-- The index: its rows, and the trust it was built against. -/
structure CatalogGuildHistoryIndex where
  rows : WriterRows
  trust : PagedCheckpointTrust

namespace CatalogGuildHistoryIndex

variable (C : Crypto) (index : CatalogGuildHistoryIndex)

variable (owner : NodeId)

/-- `CatalogGuildHistoryView::writer_key`. -/
def writerKey (epoch : U64) (trust : PagedCheckpointTrust) :
    Outcome CatalogStoreError (Option WriterKeyEpoch) := do
  reject (trust ≠ index.trust) (.database .conflict)
  match index.rows.writers owner epoch with
  | none => pure none
  | some entry => do
    validateWriter C entry owner epoch trust.eventSequence
    pure (some entry)

/-- The fence of the latest epoch of an owner, unless it is revoked. -/
def latestFence (trust : PagedCheckpointTrust) : Outcome CatalogStoreError (Option WriterFence) :=
  match index.rows.latestWriter owner with
  | none => pure none
  | some epoch => do
    reject (epoch = 0) (.database .integrity)
    let entry ← index.writerKey C owner epoch trust
    let entry ← okOr entry (.database .integrity)
    pure (if entry.revokedAtEvent = none then some ⟨owner, epoch, entry.publicKey⟩ else none)

/-- `CatalogGuildHistoryView::current_writer`. -/
def currentWriter (trust : PagedCheckpointTrust) :
    Outcome CatalogStoreError (Option WriterFence) := do
  reject (trust ≠ index.trust) (.database .conflict)
  if ∃ member ∈ trust.members, member.nodeId = owner then index.latestFence C owner trust
  else pure none

end CatalogGuildHistoryIndex

end MutualBackup
