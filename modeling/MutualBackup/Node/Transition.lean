import MutualBackup.Core.Checkpoint
import MutualBackup.Store.ControlStore

/-!
# Signing and storing checkpoints

The part of `node.rs` between the checkpoint as a record and the rows of the control store.  A node
signs a checkpoint (`sign_checkpoint`) or stores a certified one (`store_checkpoint_with_authority`)
after `validate_checkpoint_transition` has compared it with the last one it accepted: the checkpoint
it is locked on, or its head when the head is ahead of the lock.

What a node consults besides these rows is a `NodeView`: its configuration, the founding of its
guild and the events since, the validators of other state, and the work that follows a commit.  That
work writes other records, can fail after the commit is durable, and is therefore only its result
here.

`checkBody` is what the transition check asks of two successive checkpoints alone.  The other guard
on the pair is that the authority does not go back to an earlier membership epoch, where the epoch
of a checkpoint without an authority is looked up in the history of the guild.
-/

namespace MutualBackup

open Framework

/-- The errors of `anyhow` in these functions: a message of their own, or one passed on. -/
inductive NodeError where
  | bail (message : String)
  | model (e : ModelError)
  | guild (e : GuildStateError)
  | database (e : DatabaseError)
  deriving DecidableEq, Repr

/-- What a call consults besides the rows of the lock and the head. -/
structure NodeView where
  keys : KeyMaterial
  /-- The record `node-config`. -/
  configuredMember : Outcome NodeError Member
  /-- `installed_guild`, by its certificate. -/
  installedGuild : Outcome NodeError (Option QuorumGuildGenesis)
  /-- The records `guild-event`, in the order of their identifiers. -/
  guildEvents : List (List UInt8 × List UInt8)
  /-- `checkpoint_catchup_state` has a state for the guild. -/
  catchingUp : Bytes 32 → Outcome NodeError Bool
  validateLocalMember : GuildCheckpoint → Bool → Outcome NodeError Unit
  validateVariableCheckpointCoverage : GuildCheckpoint → Bool → Outcome NodeError Unit
  validateLocalRoles : GuildCheckpoint → Outcome NodeError Unit
  /-- The steps of `store_checkpoint_with_authority` after the commit. -/
  reconcile : QuorumCheckpoint → Outcome NodeError Unit

section Node

variable (C : Crypto)

/-! ## Two successive checkpoints -/

namespace GuildCheckpoint

/-- A packing catalog extends the one before, or is the first. -/
def catalogExtends : Option PackedCatalog → Option PackedCatalog → Prop
  | some previous, some current =>
    previous.revision.checkedSucc = some current.revision ∧ current.parent = some previous.id
  | none, some current => current.revision = 1 ∧ current.parent = none
  | none, none => True
  | some _, none => False

instance (previous current : Option PackedCatalog) : Decidable (catalogExtends previous current) :=
  match previous, current with
  | some _, some _ => inferInstanceAs (Decidable (_ ∧ _))
  | none, some _ => inferInstanceAs (Decidable (_ ∧ _))
  | none, none => .isTrue trivial
  | some _, none => .isFalse id

/-- The latest fenced epoch of an owner, `0` without one. -/
def latestFence (c : GuildCheckpoint) (owner : NodeId) : U64 :=
  ((c.writerFences.filter fun fence => fence.owner = owner).map WriterFence.epoch).foldr max 0

variable (previous next : GuildCheckpoint)

/-- The revisions of an owner that the successor adds. -/
def addedBy (owner : NodeId) : List (SignedRecord UserRevision) :=
  next.revisions.filter fun revision =>
    revision.value.owner = owner ∧ revision ∉ previous.revisions

/-- The body of the loop over the members. -/
def checkWriter (m : Member) : Outcome NodeError Unit := do
  let previousEpoch := previous.latestFence m.nodeId
  let currentEpoch := next.latestFence m.nodeId
  let added := previous.addedBy next m.nodeId
  reject (previousEpoch < currentEpoch ∧ (previousEpoch.checkedSucc ≠ some currentEpoch ∨
    ∀ revision ∈ added, revision.value.writerEpoch ≠ currentEpoch))
    (.bail "checkpoint advances a writer fence without its next revision")
  reject (∃ revision ∈ added, revision.value.writerEpoch ≠ currentEpoch)
    (.bail "checkpoint adds a revision from a superseded writer incarnation")

/-- The body of the loop over the old tombstones. -/
def checkOldTombstone (old : RevisionTombstone) : Outcome NodeError Unit := do
  let current ← okOr (next.tombstone old.owner old.protectedRootId)
    (.bail "checkpoint transition drops a revision tombstone")
  reject (current.throughSequence < old.throughSequence ∨
    (current.throughSequence = old.throughSequence ∧ current ≠ old))
    (.bail "checkpoint transition changes a revision tombstone")

/-- The sequence through which a chain of revisions is retired, `0` without a tombstone. -/
def floor (c : GuildCheckpoint) (owner : NodeId) (root : Uuid) : U64 :=
  ((c.tombstone owner root).map RevisionTombstone.throughSequence).getD 0

/-- The revision of a chain with a sequence number. -/
def revisionAt (c : GuildCheckpoint) (owner : NodeId) (root : Uuid) (sequence : U64) :
    Option (SignedRecord UserRevision) :=
  c.revisions.find? fun revision => revision.value.owner = owner ∧
    revision.value.protectedRootId = root ∧ revision.value.sequence = sequence

/-- The tombstone names the revision by its identifier and its hash. -/
def names (t : RevisionTombstone) (r : UserRevision) : Prop :=
  r.revisionId = t.lastRevisionId ∧ r.hash C = .ok t.lastRevisionHash
  deriving Decidable

/-- The body of the loop over the current tombstones: one that is new or raised retires a revision
of the checkpoint before. -/
def checkNewTombstone (current : RevisionTombstone) : Outcome NodeError Unit :=
  let retired :=
    previous.revisionAt current.owner current.protectedRootId current.throughSequence
  reject (previous.floor current.owner current.protectedRootId < current.throughSequence ∧
    (current.retiredAtGeneration ≠ next.generation ∨
      ¬ isSomeAnd retired fun revision => names C current revision.value))
    (.bail "checkpoint tombstone does not match retired signed history")

section

variable (c : GuildCheckpoint)

/-- A revision is retired by a tombstone. -/
def covers (r : UserRevision) : Prop := ∃ t ∈ c.revisionTombstones,
    t.owner = r.owner ∧ t.protectedRootId = r.protectedRootId ∧ r.sequence ≤ t.throughSequence
  deriving Decidable

/-- `current_revision_sectors`. -/
def revisionSectors : List (Bytes 32) := c.revisions.flatMap fun revision =>
    (revision.value.metadataSectors ++ revision.value.dataSectors).map SectorRef.id

/-- A group still has a sector that a revision refers to. -/
def inUse (group : CodingGroup) : Prop := ∃ role ∈ group.roles.toList,
    match role with
    | .information role => role.sector.id ∈ c.revisionSectors
    | .parity _ => False

end

instance (c : GuildCheckpoint) (group : CodingGroup) : Decidable (c.inUse group) :=
  have : DecidablePred fun role : ShardRole =>
      match role with
      | .information role => role.sector.id ∈ c.revisionSectors
      | .parity _ => False :=
    fun role => match role with
      | .information _ => inferInstanceAs (Decidable (_ ∈ _))
      | .parity _ => .isFalse id
  inferInstanceAs (Decidable (∃ role ∈ group.roles.toList, _))

/-- The last guard: members and coding groups are only compared in version three. -/
def checkActiveState : Outcome NodeError Unit :=
  reject ((next.formatVersion = 3 ∧ ∃ m ∈ previous.members,
      (next.members.find? fun entry => entry.nodeId = m.nodeId) ≠ some m) ∨
    (∃ revision ∈ previous.revisions, revision ∉ next.revisions ∧ ¬ next.covers revision.value) ∨
    (next.formatVersion = 3 ∧ ∃ group ∈ previous.codingGroups,
      (next.codingGroups.find? fun entry => entry.id = group.id) ≠ some group ∧ next.inUse group))
    (.bail "checkpoint transition drops or changes active state")

/-- `validate_checkpoint_transition`, from the packing catalogs on. -/
def checkBody : Outcome NodeError Unit := do
  reject (¬ catalogExtends previous.packingCatalog next.packingCatalog)
    (.bail "checkpoint packing catalog does not extend its parent")
  reject (∃ fence ∈ previous.writerFences, fence ∉ next.writerFences)
    (.bail "checkpoint transition drops or changes a writer fence")
  forEach (previous.checkWriter next) next.members
  forEach next.checkOldTombstone previous.revisionTombstones
  forEach (previous.checkNewTombstone C next) next.revisionTombstones
  previous.checkActiveState next

end GuildCheckpoint

/-! ## Membership epochs -/

/-- `initial_dynamic_guild_state`. -/
def initialDynamicGuildState (installed : QuorumGuildGenesis) :
    Outcome NodeError DynamicGuildState := do
  mapErr .model (installed.verify C)
  let hash ← mapErr .model (installed.genesis.hash C)
  mapErr .guild (DynamicGuildState.new C installed.genesis.guildId hash
    { formatVersion := 1, rule := .unanimous } installed.genesis.members)

/-- The epoch of the state, when it has the members and is within the bound, or else the latest
one before. -/
def matchingEpoch (members : List Member) (maxEpoch : U64) (state : DynamicGuildState)
    (latest : Option U64) : Option U64 :=
  if state.membershipEpoch ≤ maxEpoch ∧ state.activeMembers = members then
    some state.membershipEpoch
  else latest

/-- The body of the loop over the records `guild-event`. -/
def replayEpoch (members : List Member) (maxEpoch : U64) (scan : DynamicGuildState × Option U64)
    (record : List UInt8 × List UInt8) : Outcome NodeError (DynamicGuildState × Option U64) := do
  let event ← mapErr .model (decodeCanonical QuorumGuildEvent.codec record.2)
  reject (record.1 ≠ event.event.sequence.toBeBytes)
    (.bail "guild event history has an invalid record ID")
  let state ← mapErr .guild (scan.1.applyEvent C event)
  pure (state, matchingEpoch members maxEpoch state scan.2)

namespace NodeView

variable (view : NodeView)

/-- `latest_checkpoint_member_epoch_through`. -/
def latestCheckpointMemberEpochThrough (c : GuildCheckpoint) (maxEpoch : U64) :
    Outcome NodeError U64 := do
  let installed ← view.installedGuild
  let installed ← okOr installed
    (.bail "legacy checkpoint transition requires an installed guild")
  let state ← initialDynamicGuildState C installed
  let scan ← view.guildEvents.foldlM (replayEpoch C c.members maxEpoch)
    (state, matchingEpoch c.members maxEpoch state none)
  okOr scan.2 (.bail "legacy checkpoint membership is absent from guild event history")

/-- `latest_checkpoint_member_epoch`. -/
def latestCheckpointMemberEpoch (c : GuildCheckpoint) : Outcome NodeError U64 :=
  view.latestCheckpointMemberEpochThrough C c U64.max

/-- The epoch of a checkpoint without an authority: the one recorded for its hash, or else the
latest one with its members. -/
def legacyEpoch (db : ControlStore) (hash : Bytes 32) (previous : GuildCheckpoint) (nextEpoch : U64)
    (historicalCatchup : Bool) : Outcome NodeError U64 :=
  match db.records .guildCheckpointLegacyEpoch hash.toList with
  | some bytes => do
    let epoch ← okOr (Bytes.ofList 8 bytes) (.bail "invalid legacy checkpoint epoch")
    pure (epoch.cast (by norm_num))
  | none =>
    if historicalCatchup then view.latestCheckpointMemberEpochThrough C previous nextEpoch
    else view.latestCheckpointMemberEpoch C previous

/-- `previous_epoch`. -/
def previousEpoch (db : ControlStore) (hash : Bytes 32) (previous next : GuildCheckpoint)
    (historicalCatchup : Bool) : Outcome NodeError U64 :=
  match previous.authority, next.authority with
  | some authority, _ => pure authority.membershipEpoch
  | none, some authority =>
    view.legacyEpoch C db hash previous authority.membershipEpoch historicalCatchup
  | none, none => pure 0

/-! ## The transition check -/

/-- `validate_checkpoint_transition` on the checkpoint before, whose hash is given. -/
def checkSuccessor (db : ControlStore) (hash : Bytes 32) (previous next : GuildCheckpoint)
    (historicalCatchup : Bool) : Outcome NodeError Unit := do
  let nextEpoch := (next.authority.map CheckpointAuthority.membershipEpoch).getD 0
  let previousEpoch ← view.previousEpoch C db hash previous next historicalCatchup
  reject (nextEpoch < previousEpoch) (.bail "checkpoint authority epoch moves backward")
  previous.checkBody C next

end NodeView

/-- The last accepted checkpoint: its row, and whether the row holds a body or a certificate. -/
def ControlStore.lastAccepted (db : ControlStore) (guildId : Bytes 32) :
    Option (CheckpointRow × Bool) :=
  match db.locks guildId, db.heads guildId with
  | some lock, some head =>
    if head.generation ≤ lock.generation then some (lock, true) else some (head, false)
  | some lock, none => some (lock, true)
  | none, some head => some (head, false)
  | none, none => none

/-- The checkpoint in a row. -/
def CheckpointRow.decode (row : CheckpointRow) (isBody : Bool) :
    Outcome ModelError GuildCheckpoint :=
  if isBody then decodeCanonical GuildCheckpoint.codec row.bytes
  else QuorumCheckpoint.checkpoint <$> decodeCanonical QuorumCheckpoint.codec row.bytes

/-- The row is of the checkpoint itself.  The hash is computed only for an equal generation. -/
def CheckpointRow.isOf (row : CheckpointRow) (c : GuildCheckpoint) : Outcome ModelError Bool :=
  if row.generation = c.generation then (fun hash => decide (row.hash = hash)) <$> c.hash C
  else pure false

namespace NodeView

variable (view : NodeView)

/-- `validate_checkpoint_transition` after a checkpoint. -/
def validateAfter (db : ControlStore) (row : CheckpointRow) (isBody : Bool) (c : GuildCheckpoint)
    (historicalCatchup : Bool) : Outcome NodeError Unit := do
  let same ← mapErr .model (row.isOf C c)
  if same then pure ()
  else
    reject (¬ ControlStore.succeeds row c.generation c.parent)
      (.bail "checkpoint does not extend the locally accepted head")
    let previous ← mapErr .model (row.decode isBody)
    view.checkSuccessor C db row.hash previous c historicalCatchup

/-- `validate_checkpoint_transition`. -/
def validateCheckpointTransition (db : ControlStore) (c : GuildCheckpoint)
    (historicalCatchup : Bool) : Outcome NodeError Unit :=
  match db.lastAccepted c.guildId with
  | none => reject (c.generation ≠ 1 ∨ c.parent.isSome)
      (.bail "first checkpoint must be generation one")
  | some (row, isBody) => view.validateAfter C db row isBody c historicalCatchup

/-! ## Signing -/

/-- `validate_checkpoint_for_signature`. -/
def validateCheckpointForSignature (c : GuildCheckpoint) : Outcome NodeError Unit :=
  reject (c.formatVersion = 7 ∧ ¬ isSomeAnd c.packingCatalog fun catalog =>
    3 ≤ catalog.formatVersion ∧ catalog.formatVersion ≤ 5)
    (.bail "new format-seven checkpoints require root-bound authenticated catalogs")

/-- `sign_checkpoint` up to the lock. -/
def lockForSignature (db : ControlStore) (c : GuildCheckpoint) :
    Outcome NodeError ControlStore := do
  mapErr .model (c.validate C)
  validateCheckpointForSignature c
  view.validateLocalMember c true
  view.validateVariableCheckpointCoverage c false
  let configured ← view.configuredMember
  let committed ← okOr (c.members.find? fun member => member.nodeId = view.keys.nodeId)
    (.bail "checkpoint does not contain the local node")
  reject (committed ≠ configured)
    (.bail "checkpoint local membership conflicts with node configuration")
  view.validateCheckpointTransition C db c false
  view.validateLocalRoles c
  let hash ← mapErr .model (c.hash C)
  let body ← mapErr .model (canonicalBytes GuildCheckpoint.codec c)
  mapErr .database (db.lockCheckpointSignature c.guildId c.generation c.parent hash body)

/-- `sign_checkpoint`: the store afterwards, and the signature.  The lock is durable before there
is a signature. -/
def signCheckpoint (db : ControlStore) (c : GuildCheckpoint) :
    ControlStore × Outcome NodeError MemberSignature :=
  let locked := view.lockForSignature C db c
  ((assign db locked).1, locked >>= fun _ => mapErr .model (c.memberSignature C view.keys))

/-! ## Storing -/

/-- A certified checkpoint as it is committed. -/
def commitOf (q : QuorumCheckpoint) : Outcome ModelError ControlStore.Commit := do
  let hash ← q.hash C
  let body ← canonicalBytes GuildCheckpoint.codec q.checkpoint
  let certificate ← canonicalBytes QuorumCheckpoint.codec q
  pure
    { guildId := q.checkpoint.guildId
      generation := q.checkpoint.generation
      parent := q.checkpoint.parent
      hash := hash
      body := body
      certificate := certificate }

/-- `legacy_epoch`: the epoch to record for a checkpoint of version four, unless the node is
catching up. -/
def witnessedEpoch (c : GuildCheckpoint) : Outcome NodeError (Option U64) :=
  if c.formatVersion = 4 then do
    let catchingUp ← view.catchingUp c.guildId
    if catchingUp then pure none else some <$> view.latestCheckpointMemberEpoch C c
  else pure none

/-- `store_checkpoint_with_authority` up to the commit. -/
def commitCertified (db : ControlStore) (q : QuorumCheckpoint)
    (requireCurrentAuthority historicalCoverage : Bool) : Outcome NodeError ControlStore := do
  mapErr .model (q.verify C)
  view.validateLocalMember q.checkpoint requireCurrentAuthority
  view.validateVariableCheckpointCoverage q.checkpoint historicalCoverage
  view.validateCheckpointTransition C db q.checkpoint historicalCoverage
  let commit ← mapErr .model (commitOf C q)
  let epoch ← view.witnessedEpoch C q.checkpoint
  mapErr .database (db.commitCheckpointWithLegacyEpoch commit false epoch)

/-- `store_checkpoint_with_authority`: the store afterwards, and the hash. -/
def storeCheckpointWithAuthority (db : ControlStore) (q : QuorumCheckpoint)
    (requireCurrentAuthority historicalCoverage : Bool) :
    ControlStore × Outcome NodeError (Bytes 32) :=
  let committed := view.commitCertified C db q requireCurrentAuthority historicalCoverage
  ((assign db committed).1, committed >>= fun _ => do
    view.reconcile q
    mapErr .model (q.hash C))

end NodeView

end Node

/-! ## A small guild

Three nodes under a majority, one of which backs up one root, over the transparent primitives.  The
concrete runs of the modules above this one use it. -/

/-- A member with one key for everything. -/
def smallMember (key : Bytes 32) : Member := ⟨⟨key⟩, ⟨key⟩, "home"⟩

/-- A node that finds nothing wrong besides the checkpoints themselves. -/
def smallView (key : Bytes 32) : NodeView where
  keys := { nodeId := ⟨key⟩, recoveryPublicKey := ⟨key⟩, sign := transparentSignature key }
  configuredMember := .ok (smallMember key)
  installedGuild := .ok none
  guildEvents := []
  catchingUp _ := .ok false
  validateLocalMember _ _ := .ok ()
  validateVariableCheckpointCoverage _ _ := .ok ()
  validateLocalRoles _ := .ok ()
  reconcile _ := .ok ()

/-- A signature of a key under the transparent primitives, from the digest of its payload.  The
digests below are spelled out so that a run computes each of them once. -/
def smallSignature (key digest : Bytes 32) : List UInt8 := key.toList ++ digest.toList

/-- A revision of the root, signed by its writer and its owner. -/
def smallRevision (sequence : U64) (id : Bytes 16) (parent : Option (Bytes 32))
    (written signed : Bytes 32) : SignedRecord UserRevision :=
  { signer := ⟨1⟩
    value :=
      { formatVersion := 3, guildId := 7, protectedRootId := ⟨5⟩, cipherProfile := 1,
        revisionId := ⟨id⟩, owner := ⟨1⟩, writerEpoch := 1, writerPublicKey := 9,
        writerSignature := smallSignature 9 written, sequence := sequence, parent := parent,
        metadataSectors := [⟨12, 13, 1⟩], dataSectors := [], sectorCommitments := none }
    signature := smallSignature 1 signed }

def firstRevision : SignedRecord UserRevision := smallRevision 1 21 none
    53118817757858289859821278020130622137299205567214262630004944014889933562988
    92676180258296970680967713314818225942885320426499531496336322325703942331092

def firstRevisionHash : Bytes 32 :=
  100831835933711396537522678339571643180786767803347111367811322774387467151507

/-- Two revisions that follow the first one. -/
def secondRevision : SignedRecord UserRevision := smallRevision 2 22 (some firstRevisionHash)
    47828690002775412193788045862421581383466847205530460646623618122836870844728
    74224497245657666873900751329815792521974597445596248833954625858026597881742

def rivalRevision : SignedRecord UserRevision := smallRevision 2 23 (some firstRevisionHash)
    47828690002775412193788045862421581383466847205530460646623690180430908772664
    74224497245657666873900751329815792521974597445675476996468962253214179760014

/-- A checkpoint of the guild. -/
def smallCheckpoint (generation : U64) (parent : Option (Bytes 32))
    (tombstones : List RevisionTombstone) (revisions : List (SignedRecord UserRevision)) :
    GuildCheckpoint :=
  { formatVersion := 5, guildId := 7, genesisHash := 8, generation := generation, parent := parent,
    members := [smallMember 1, smallMember 2, smallMember 3], writerFences := [⟨⟨1⟩, 1, 9⟩],
    revisionTombstones := tombstones, revisions := revisions, codingGroups := [],
    authority := some ⟨1, 1, ⟨1, .majority⟩⟩, packingCatalog := none }

def firstCheckpoint : GuildCheckpoint := smallCheckpoint 1 none [] [firstRevision]

def firstCheckpointHash : Bytes 32 :=
  84741068971998142511276672004470468282713984172381579297321618911778381991998

/-- Two checkpoints that follow the first one. -/
def secondCheckpoint : GuildCheckpoint :=
  smallCheckpoint 2 (some firstCheckpointHash) [] [firstRevision, secondRevision]

def secondCheckpointHash : Bytes 32 :=
  65036145102168472911857782450658561713341280275405375498894291178268384026831

def rivalCheckpoint : GuildCheckpoint :=
  smallCheckpoint 2 (some firstCheckpointHash) [] [firstRevision, rivalRevision]

/-- The certificate of a checkpoint by some of the nodes, from the digest of what they sign. -/
def smallCertificate (c : GuildCheckpoint) (digest : Bytes 32) (signers : List (Bytes 32)) :
    QuorumCheckpoint :=
  ⟨c, signers.map fun key => ⟨⟨key⟩, smallSignature key digest⟩⟩

end MutualBackup
