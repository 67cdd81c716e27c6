import MutualBackup.Framework.ReplicatedLog
import MutualBackup.Core.Primitives

/-!
# The control store

The part of `ControlStore` in `database.rs` that decides which checkpoint a node may sign and which
one it holds: the tables `checkpoint_signature_locks` and `checkpoint_heads`, one row per guild, and
the records of `protocol_records` that these operations write.

Every operation is one SQLite transaction, and transactions are atomic and durable.  An operation is
therefore a function to the store after it, and an error is a rollback: the store is the one before.

Rows hold the typed values that the readers return.  `generation` is an `INTEGER` column, so a
generation beyond `i64::MAX` is refused before anything is written, and the `CHECK` of the column
refuses `0`.
-/

namespace MutualBackup

open Framework

/-- The errors of `DatabaseError` that the modelled operations return. -/
inductive DatabaseError where
  | sql
  | integrity
  | notReady
  | capacityExceeded
  | conflict
  deriving DecidableEq, Repr

/-- A row of `checkpoint_signature_locks` or `checkpoint_heads`. -/
structure CheckpointRow where
  generation : U64
  hash : Bytes 32
  bytes : List UInt8
  deriving DecidableEq, Repr

/-- The kinds of `protocol_records` in use here. -/
inductive RecordKind where
  | guildCheckpoint
  | guildCheckpointGeneration
  | guildCheckpointLegacyEpoch
  | userRevisionHead
  | recoveryAttempt
  deriving DecidableEq, Repr

/-- A row of `recovery_shards`. -/
structure RecoveryShard where
  checkpointHash : Bytes 32
  guildId : Bytes 32
  groupId : Bytes 32
  shardIndex : ℕ
  root : Bytes 32
  bytes : List UInt8
  deriving DecidableEq, Repr

structure ControlStore where
  /-- `checkpoint_signature_locks`. -/
  locks : Bytes 32 → Option CheckpointRow
  /-- `checkpoint_heads`. -/
  heads : Bytes 32 → Option CheckpointRow
  /-- `protocol_records`. -/
  records : RecordKind → List UInt8 → Option (List UInt8)
  /-- `recovery_shards`. -/
  recoveryShards : List RecoveryShard

namespace ControlStore

/-- A store without rows. -/
def empty : ControlStore :=
  { locks := fun _ => none, heads := fun _ => none, records := fun _ _ => none,
    recoveryShards := [] }

variable (db : ControlStore)

/-! ## Statements -/

section

variable (kind : RecordKind)

/-- `INSERT … ON CONFLICT DO UPDATE` into `protocol_records`. -/
def putRecord (id bytes : List UInt8) : ControlStore :=
  { db with records :=
      Function.update db.records kind (Function.update (db.records kind) id (some bytes)) }

/-- `DELETE` from `protocol_records` of the identifiers that satisfy `p`. -/
def deleteRecords (p : List UInt8 → Bool) : ControlStore :=
  { db with records :=
      Function.update db.records kind fun id => if p id then none else db.records kind id }

/-- `INSERT … ON CONFLICT DO UPDATE … WHERE bytes = excluded.bytes`, with the count of changed rows
checked: a record that is there keeps its bytes. -/
def insertImmutable (id bytes : List UInt8) : Outcome DatabaseError ControlStore := do
  reject (isSomeAnd (db.records kind id) fun stored => stored ≠ bytes) .conflict
  pure (db.putRecord kind id bytes)

end

section

variable (guildId : Bytes 32)

/-- The write of `upsert_checkpoint_signature_lock`, and of `lock_checkpoint_signature`. -/
def upsertLock (row : CheckpointRow) : Outcome DatabaseError ControlStore := do
  reject (row.generation = 0) .sql
  pure { db with locks := Function.update db.locks guildId (some row) }

/-- The write to `checkpoint_heads`. -/
def upsertHead (row : CheckpointRow) : Outcome DatabaseError ControlStore := do
  reject (row.generation = 0) .sql
  pure { db with heads := Function.update db.heads guildId (some row) }

/-- `checkpoint_generation_record_id`. -/
def checkpointGenerationRecordId (generation : U64) : Outcome DatabaseError (List UInt8) := do
  reject (generation = 0 ∨ i64Max < generation.val) .integrity
  pure (guildId.toList ++ U64.toBeBytes generation)

/-- `insert_checkpoint_generation`. -/
def insertCheckpointGeneration (generation : U64) (hash : Bytes 32) :
    Outcome DatabaseError ControlStore := do
  let id ← checkpointGenerationRecordId guildId generation
  db.insertImmutable .guildCheckpointGeneration id hash.toList

end

/-- `insert_checkpoint_legacy_epoch`, when there is an epoch. -/
def insertCheckpointLegacyEpoch (hash : Bytes 32) :
    Option U64 → Outcome DatabaseError ControlStore
  | none => pure db
  | some epoch =>
    db.insertImmutable .guildCheckpointLegacyEpoch hash.toList (U64.toBeBytes epoch)

/-! ## The signature lock -/

/-- The head is the locked checkpoint, or a later one: the lock has served its purpose. -/
def supersedes (head : Option CheckpointRow) (lock : CheckpointRow) : Prop :=
  isSomeAnd head fun row =>
    (row.generation = lock.generation ∧ row.hash = lock.hash) ∨ lock.generation < row.generation
  deriving Decidable

/-- The checkpoint is the successor of the head. -/
def succeeds (head : CheckpointRow) (generation : U64) (parent : Option (Bytes 32)) : Prop :=
  head.generation.checkedSucc = some generation ∧ parent = some head.hash
  deriving Decidable

/-- The second `match` of `lock_checkpoint_signature`. -/
def lockable (locked head : Option CheckpointRow) (generation : U64)
    (parent : Option (Bytes 32)) : Bool :=
  match head with
  | some row => succeeds row generation parent
  | none => locked = none ∧ generation = 1 ∧ parent = none

/-- `lock_checkpoint_signature`. -/
def lockCheckpointSignature (guildId : Bytes 32) (generation : U64) (parent : Option (Bytes 32))
    (hash : Bytes 32) (bytes : List UInt8) : Outcome DatabaseError ControlStore := do
  reject (i64Max < generation.val) .integrity
  if db.locks guildId = some ⟨generation, hash, bytes⟩ then
    pure db
  else
    reject (isSomeAnd (db.locks guildId) fun lock => ¬ supersedes (db.heads guildId) lock) .conflict
    reject (¬ lockable (db.locks guildId) (db.heads guildId) generation parent) .conflict
    db.upsertLock guildId ⟨generation, hash, bytes⟩

/-! ## Commits -/

/-- The `match` on the current head of `commit_checkpoint_with_legacy_epoch`, after the exact
replay.  Without a head, a node that is not asked for its own lock accepts any generation. -/
def committable (head : Option CheckpointRow) (generation : U64) (parent : Option (Bytes 32))
    (requireSignatureLock : Bool) : Bool :=
  match head with
  | some row => succeeds row generation parent
  | none => (generation = 1 ∧ parent = none) ∨ ¬ requireSignatureLock

/-- A checkpoint as it is committed: its place, its body and its certificate. -/
structure Commit where
  guildId : Bytes 32
  generation : U64
  parent : Option (Bytes 32)
  hash : Bytes 32
  body : List UInt8
  certificate : List UInt8
  deriving DecidableEq, Repr

section

variable (c : Commit)

/-- The row of the lock table for a commit. -/
def Commit.lockRow : CheckpointRow := ⟨c.generation, c.hash, c.body⟩

/-- The row of the head table for a commit. -/
def Commit.headRow : CheckpointRow := ⟨c.generation, c.hash, c.certificate⟩

/-- The lock follows the commit unless it was required to be there. -/
def lockUnlessRequired (requireSignatureLock : Bool) : Outcome DatabaseError ControlStore :=
  if requireSignatureLock then pure db else db.upsertLock c.guildId c.lockRow

/-- The branch of an exact replay of the current head. -/
def replayHead (requireSignatureLock : Bool) (legacyEpoch : Option U64) :
    Outcome DatabaseError ControlStore := do
  let db ← db.lockUnlessRequired c requireSignatureLock
  let db ← db.insertCheckpointGeneration c.guildId c.generation c.hash
  db.insertCheckpointLegacyEpoch c.hash legacyEpoch

/-- The writes of a new head. -/
def installHead : Outcome DatabaseError ControlStore := do
  let db := db.putRecord .guildCheckpoint c.hash.toList c.certificate
  let db ← db.upsertHead c.guildId c.headRow
  db.insertCheckpointGeneration c.guildId c.generation c.hash

/-- `commit_checkpoint_with_legacy_epoch`. -/
def commitCheckpointWithLegacyEpoch (requireSignatureLock : Bool) (legacyEpoch : Option U64) :
    Outcome DatabaseError ControlStore := do
  reject (i64Max < c.generation.val) .integrity
  reject (legacyEpoch = some 0) .integrity
  reject (requireSignatureLock ∧ db.locks c.guildId ≠ some c.lockRow) .conflict
  if db.heads c.guildId = some c.headRow then
    db.replayHead c requireSignatureLock legacyEpoch
  else
    reject (¬ committable (db.heads c.guildId) c.generation c.parent requireSignatureLock) .conflict
    let db ← db.installHead c
    let db ← db.insertCheckpointLegacyEpoch c.hash legacyEpoch
    db.lockUnlessRequired c requireSignatureLock

end

/-- A record of a revision head belongs to the guild: the old identifier is the guild itself, the
new one has the root after it. -/
def isRevisionHeadOf (guildId : Bytes 32) (id : List UInt8) : Bool :=
  id = guildId.toList ∨ (id.length = 48 ∧ id.take 32 = guildId.toList)

/-- One iteration over `local_revision_heads`. -/
def putRevisionHead (guildId : Bytes 32) (head : List UInt8 × List UInt8) :
    Outcome DatabaseError ControlStore := do
  reject (head.1.length ≠ 48 ∨ head.1.take 32 ≠ guildId.toList) .integrity
  pure (db.putRecord .userRevisionHead head.1 head.2)

/-- The clean-up at the end of a recovery. -/
def finishRecovery (c : Commit) (completeRecoveryAttempt : Bool) : ControlStore :=
  let db := { db with
    recoveryShards := db.recoveryShards.filter fun shard => shard.checkpointHash ≠ c.hash }
  if completeRecoveryAttempt then
    db.deleteRecords .recoveryAttempt fun id => id = "active".toByteArray.data.toList
  else db

/-- `commit_recovered_checkpoint`. -/
def commitRecoveredCheckpoint (c : Commit)
    (localRevisionHeads : List (List UInt8 × List UInt8)) (completeRecoveryAttempt : Bool) :
    Outcome DatabaseError ControlStore := do
  reject (i64Max < c.generation.val) .integrity
  reject (isSomeAnd (db.heads c.guildId) fun row =>
    row ≠ c.headRow ∧ ¬ succeeds row c.generation c.parent) .conflict
  let db ← db.installHead c
  let db ← db.upsertLock c.guildId c.lockRow
  let db := db.deleteRecords .userRevisionHead (isRevisionHeadOf c.guildId)
  let db ← replay (fun db head => putRevisionHead db c.guildId head) db localRevisionHeads
  pure (db.finishRecovery c completeRecoveryAttempt)

end ControlStore

end MutualBackup
