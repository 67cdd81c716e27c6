import Mathlib.Data.Prod.Lex
import MutualBackup.Core.Checkpoint
import MutualBackup.Core.Merkle
import MutualBackup.Framework.Table
import MutualBackup.Store.ControlStore

/-!
# The parity store

`ParityStore` of `database.rs`, with the deletion of `packing_output_retirement.rs`.  The store has
two tables that are keyed differently: `parity_objects` by the group and the shard, and
`coding_reservations` by the attempt and the shard.  A shard of variable size gets in by an upload
(reserve, write ranges, finish), in one piece (`stage_attempt`), or as a copy from another volume;
shards of the old fixed size are published in one piece.

Every operation is one transaction: it is a function from the tables to the tables after the commit,
or to an error, which leaves the tables as they were.  The exception is `discard_staged_attempt`,
whose two statements commit separately, so a crash can separate them.  What an operation does after
its commit to give pages back to the file system changes no row and is left out, and so are the
quotas that can only refuse a write.

The `CHECK` clauses of the tables are part of the type of a row: a row is its columns with a proof
of the checks, and a write of columns that violate them is an SQL error.
-/

namespace MutualBackup

open Framework

/-! ## Objects -/

structure ParityObject where
  formatVersion : U16
  guildId : Bytes 32
  groupId : Bytes 32
  shardIndex : U8
  root : Bytes 32
  bytes : List UInt8
  deriving DecidableEq, Repr

/-- A byte in a column of wider integers. -/
def widen (shardIndex : U8) : U16 := Fin.castLE (by decide) shardIndex

structure VariableParityObject where
  formatVersion : U16
  guildId : Bytes 32
  groupId : Bytes 32
  shardIndex : U16
  commitment : MerkleCommitment
  bytes : List UInt8
  deriving DecidableEq, Repr

/-- A shard with the evidence of its activation. -/
structure ReadyVariableObject where
  object : VariableParityObject
  attemptId : Bytes 16
  verificationHash : Bytes 32
  stagedReceipt : List UInt8
  deriving DecidableEq, Repr

/-! ## Rows -/

inductive ParityState where
  | staged
  | ready
  deriving DecidableEq, Repr

/-- The columns of `parity_objects` beside the key. -/
structure ParityColumns where
  formatVersion : U16
  guildId : Bytes 32
  root : Bytes 32
  byteLength : ℕ
  state : ParityState
  bytes : List UInt8
  acknowledgement : List UInt8
  attemptId : Option (Bytes 16)
  verificationHash : Option (Bytes 32)
  deriving DecidableEq, Repr

/-- The `CHECK` clauses of `parity_objects`. -/
def ParityColumns.Checks (c : ParityColumns) : Prop :=
  (c.formatVersion = 1 ∨ c.formatVersion = 2) ∧ 16 ≤ c.byteLength ∧ c.byteLength ≤ 4194304 ∧
    c.bytes.length = c.byteLength ∧ (c.formatVersion = 2 ∨ c.byteLength = 65536)
  deriving Decidable

structure ParityRow extends ParityColumns where
  checks : toParityColumns.Checks

/-- The row of these columns. -/
def ParityColumns.row (c : ParityColumns) : Outcome DatabaseError ParityRow :=
  if h : c.Checks then .ok ⟨c, h⟩ else fail .sql

@[simp] lemma ParityColumns.row_eq_ok {c : ParityColumns} {row : ParityRow} :
    c.row = .ok row ↔ row.toParityColumns = c := by
  refine dite_eq_ok.trans ⟨?_, ?_⟩
  · rintro ⟨_, rfl⟩
    rfl
  · rintro rfl
    exact ⟨row.checks, rfl⟩

/-- The commitment a row records. -/
def ParityRow.commitment (row : ParityRow) : MerkleCommitment :=
  { formatVersion := 1, leafSize := 16, byteLen := Fin.ofNat _ row.byteLength, root := row.root }

/-- The columns of `coding_reservations` beside the key. -/
structure ReservationColumns where
  guildId : Bytes 32
  byteLength : ℕ
  writtenUntil : ℕ
  bytes : List UInt8
  deriving DecidableEq, Repr

/-- The `CHECK` clauses of `coding_reservations`. -/
def ReservationColumns.Checks (c : ReservationColumns) : Prop :=
  16 ≤ c.byteLength ∧ c.byteLength ≤ 4194304 ∧ c.writtenUntil ≤ c.byteLength ∧
    c.bytes.length = c.byteLength
  deriving Decidable

structure ReservationRow extends ReservationColumns where
  checks : toReservationColumns.Checks

/-- The row of these columns. -/
def ReservationColumns.row (c : ReservationColumns) : Outcome DatabaseError ReservationRow :=
  if h : c.Checks then .ok ⟨c, h⟩ else fail .sql

@[simp] lemma ReservationColumns.row_eq_ok {c : ReservationColumns} {row : ReservationRow} :
    c.row = .ok row ↔ row.toReservationColumns = c := by
  refine dite_eq_ok.trans ⟨?_, ?_⟩
  · rintro ⟨_, rfl⟩
    rfl
  · rintro rfl
    exact ⟨row.checks, rfl⟩

/-! ## The store -/

/-- The group and the shard. -/
abbrev ParityKey := Bytes 32 ×ₗ U16

/-- The attempt and the shard. -/
abbrev ReservationKey := Bytes 16 ×ₗ U16

structure ParityStore where
  objects : Table ParityKey ParityRow
  reservations : Table ReservationKey ReservationRow

namespace ParityStore

/-- A new store. -/
def empty : ParityStore := ⟨Table.empty, Table.empty⟩

variable (C : Crypto) (db : ParityStore)

/-- The sum of `byte_length` over `parity_objects`. -/
def objectBytes : ℕ := db.objects.total fun _ row => row.byteLength

/-- The sum of `byte_length` over `coding_reservations`. -/
def reservedBytes : ℕ := db.reservations.total fun _ row => row.byteLength

/-- Staged and ready objects, and open reservations. -/
def used : ℕ := db.objectBytes + db.reservedBytes

/-- A sum is computed in `i64`, and a sum out of its range is an SQL error. -/
def sqlSum (n : ℕ) : Outcome DatabaseError U64 := do
  reject (i64Max < n) .sql
  pure (Fin.ofNat _ n)

/-- `used_bytes`. -/
def usedBytes : Outcome DatabaseError U64 := sqlSum db.used

/-- `u32::try_from` of an integer column. -/
def toU32 (n : ℕ) : Outcome DatabaseError U32 := do
  reject (2 ^ 32 ≤ n) .integrity
  pure (Fin.ofNat _ n)

/-- The end of every admission: `required` against the budget. -/
def admitBytes (used : U64) (byteLength : ℕ) (budgetBytes : U64) : Outcome DatabaseError Unit := do
  reject (2 ^ 64 ≤ used.val + byteLength) .capacityExceeded
  reject (budgetBytes.val < used.val + byteLength) .capacityExceeded

/-- `INSERT INTO parity_objects`. -/
def insertObject (groupId : Bytes 32) (shardIndex : U16) (columns : ParityColumns) :
    Outcome DatabaseError ParityStore := do
  reject (maxCodingShards ≤ shardIndex.val) .sql
  reject (db.objects.get (toLex (groupId, shardIndex))).isSome .sql
  let row ← columns.row
  pure { db with objects := db.objects.put (toLex (groupId, shardIndex)) row }

/-- `UPDATE parity_objects` of the row of a key. -/
def updateObject (groupId : Bytes 32) (shardIndex : U16) (columns : ParityColumns) :
    Outcome DatabaseError ParityStore := do
  let row ← columns.row
  pure { db with objects := db.objects.put (toLex (groupId, shardIndex)) row }

/-! ### Uploads -/

/-- `reserve_coding_attempt`. -/
def reserveCodingAttempt (attemptId : Bytes 16) (guildId : Bytes 32) (shardIndex : U16)
    (byteLength : U32) (budgetBytes : U64) : Outcome DatabaseError (U32 × ParityStore) := do
  reject (attemptId = 0 ∨ guildId = 0 ∨ maxCodingShards ≤ shardIndex.val ∨
    byteLength.val < merkleLeafSize ∨ maxProfileShardSize < byteLength.val ∨
    ¬ isPowerOfTwo byteLength.val) .integrity
  match db.reservations.get (toLex (attemptId, shardIndex)) with
  | some stored =>
    reject (stored.guildId ≠ guildId ∨ stored.byteLength ≠ byteLength.val) .conflict
    let writtenUntil ← toU32 stored.writtenUntil
    pure (writtenUntil, db)
  | none =>
    let used ← sqlSum (db.objectBytes + db.reservedBytes)
    admitBytes used byteLength.val budgetBytes
    let row ← ReservationColumns.row
      ⟨guildId, byteLength.val, 0, List.replicate byteLength.val 0⟩
    pure (0, { db with
      reservations := db.reservations.put (toLex (attemptId, shardIndex)) row })

/-- A blob after a write at an offset. -/
def overwrite (blob : List UInt8) (offset : ℕ) (bytes : List UInt8) : List UInt8 :=
  blob.take offset ++ bytes ++ blob.drop (offset + bytes.length)

/-- The part of a blob at an offset. -/
def slice (blob : List UInt8) (offset length : ℕ) : List UInt8 := (blob.drop offset).take length

section

variable (attemptId : Bytes 16)

/-- `write_coding_attempt_range`. -/
def writeCodingAttemptRange (shardIndex : U16) (offset : U32) (bytes : List UInt8) :
    Outcome DatabaseError (U32 × ParityStore) := do
  reject (bytes = [] ∨ 512 * 1024 < bytes.length ∨ offset.val % merkleLeafSize ≠ 0 ∨
    bytes.length % merkleLeafSize ≠ 0) .integrity
  let row ← okOr (db.reservations.get (toLex (attemptId, shardIndex))) .notReady
  reject (row.byteLength < offset.val + bytes.length) .integrity
  let written ← toU32 row.writtenUntil
  if offset < written then do
    -- a retry of bytes that are already there
    reject (written.val < offset.val + bytes.length) .conflict
    reject (slice row.bytes offset.val bytes.length ≠ bytes) .conflict
    pure (written, db)
  else do
    reject (offset ≠ written) .conflict
    let next ← toU32 (offset.val + bytes.length)
    let row ← ReservationColumns.row { row.toReservationColumns with
      writtenUntil := next.val
      bytes := overwrite row.bytes offset.val bytes }
    pure (next, { db with
      reservations := db.reservations.put (toLex (attemptId, shardIndex)) row })

/-- `finish_coding_attempt_upload`. -/
def finishCodingAttemptUpload (groupId : Bytes 32) (shardIndex : U16)
    (commitment : MerkleCommitment) : Outcome DatabaseError ParityStore := do
  mapErr (fun _ => .integrity) commitment.validate
  reject (attemptId = 0 ∨ groupId = 0 ∨ maxProfileShardSize < commitment.byteLen.val) .integrity
  match db.objects.get (toLex (groupId, shardIndex)) with
  | some existing =>
    reject (existing.formatVersion ≠ 2 ∨ existing.root ≠ commitment.root ∨
      existing.byteLength ≠ commitment.byteLen.val ∨
      existing.attemptId ≠ some attemptId) .conflict
    let stored ← mapErr (fun _ => .integrity) (merkleCommit C existing.bytes)
    reject (stored ≠ commitment) .conflict
    pure { db with reservations := db.reservations.erase (toLex (attemptId, shardIndex)) }
  | none =>
    let reservation ←
      okOr (db.reservations.get (toLex (attemptId, shardIndex))) .notReady
    reject (reservation.byteLength ≠ commitment.byteLen.val ∨
      reservation.writtenUntil ≠ reservation.byteLength) .integrity
    let stored ← mapErr (fun _ => .integrity) (merkleCommit C reservation.bytes)
    reject (stored ≠ commitment) .integrity
    let db ← db.insertObject groupId shardIndex
      { formatVersion := 2
        guildId := reservation.guildId
        root := commitment.root
        byteLength := commitment.byteLen.val
        state := .staged
        bytes := reservation.bytes
        acknowledgement := []
        attemptId := some attemptId
        verificationHash := none }
    pure { db with reservations := db.reservations.erase (toLex (attemptId, shardIndex)) }

/-- `attach_coding_attempt_receipt`. -/
def attachCodingAttemptReceipt (groupId : Bytes 32) (shardIndex : U16) (receipt : List UInt8) :
    Outcome DatabaseError ParityStore := do
  reject (receipt = [] ∨ 64 * 1024 < receipt.length) .integrity
  let existing ← okOr ((db.objects.get (toLex (groupId, shardIndex))).filter fun row =>
    row.attemptId = some attemptId ∧ row.formatVersion = 2) .notReady
  reject (existing.acknowledgement ≠ [] ∧ existing.acknowledgement ≠ receipt) .conflict
  if existing.acknowledgement = [] then
    db.updateObject groupId shardIndex
      { existing.toParityColumns with acknowledgement := receipt }
  else pure db

end

/-! ### Whole objects -/

/-- `validate_variable_parity_object`. -/
def validateVariableParityObject (object : VariableParityObject) : Outcome DatabaseError Unit := do
  reject (object.formatVersion ≠ 2 ∨ object.guildId = 0 ∨ object.groupId = 0 ∨
    maxCodingShards ≤ object.shardIndex.val ∨ object.bytes.length < merkleLeafSize ∨
    maxProfileShardSize < object.bytes.length) .integrity
  let commitment ← mapErr (fun _ => .integrity) (merkleCommit C object.bytes)
  reject (commitment ≠ object.commitment) .integrity

/-- `validate_ready_variable_object`. -/
def validateReadyVariableObject (ready : ReadyVariableObject) : Outcome DatabaseError Unit := do
  validateVariableParityObject C ready.object
  reject (ready.attemptId = 0 ∨ ready.verificationHash = 0 ∨ ready.stagedReceipt = [] ∨
    64 * 1024 < ready.stagedReceipt.length) .integrity

/-- `stage_attempt`. -/
def stageAttempt (attemptId : Bytes 16) (object : VariableParityObject)
    (stagedReceipt : List UInt8) (budgetBytes : U64) : Outcome DatabaseError ParityStore := do
  validateVariableParityObject C object
  reject (attemptId = 0 ∨ stagedReceipt = [] ∨ 64 * 1024 < stagedReceipt.length) .integrity
  match db.objects.get (toLex (object.groupId, object.shardIndex)) with
  | some existing =>
    reject (existing.formatVersion ≠ 2 ∨ existing.guildId ≠ object.guildId ∨
      existing.root ≠ object.commitment.root ∨ existing.byteLength ≠ object.bytes.length ∨
      existing.bytes ≠ object.bytes ∨ existing.acknowledgement ≠ stagedReceipt ∨
      existing.attemptId ≠ some attemptId ∨
      (existing.state = .staged ∧ existing.verificationHash.isSome) ∨
      (existing.state = .ready ∧ existing.verificationHash.isNone)) .conflict
    pure db
  | none =>
    let used ← sqlSum db.objectBytes
    admitBytes used object.bytes.length budgetBytes
    let db ← db.insertObject object.groupId object.shardIndex
      { formatVersion := 2
        guildId := object.guildId
        root := object.commitment.root
        byteLength := object.bytes.length
        state := .staged
        bytes := object.bytes
        acknowledgement := stagedReceipt
        attemptId := some attemptId
        verificationHash := none }
    let stored ← okOr ((db.objects.get (toLex (object.groupId, object.shardIndex))).filter
      fun row => row.state = .staged) .sql
    reject (stored.root ≠ object.commitment.root ∨
      stored.byteLength ≠ object.bytes.length) .integrity
    let commitment ← mapErr (fun _ => .integrity) (merkleCommit C stored.bytes)
    reject (commitment ≠ object.commitment ∨ stored.attemptId ≠ some attemptId) .integrity
    pure db

/-- `activate_attempt_object`. -/
def activateAttemptObject (attemptId : Bytes 16) (groupId : Bytes 32) (shardIndex : U16)
    (commitment : MerkleCommitment) (verificationHash : Bytes 32) :
    Outcome DatabaseError ParityStore := do
  reject (attemptId = 0 ∨ verificationHash = 0) .integrity
  let row ← okOr (db.objects.get (toLex (groupId, shardIndex))) .notReady
  reject (row.formatVersion ≠ 2 ∨ row.root ≠ commitment.root ∨
    row.byteLength ≠ commitment.byteLen.val ∨ row.attemptId ≠ some attemptId) .conflict
  match row.state with
  | .staged =>
    reject row.verificationHash.isSome .conflict
    db.updateObject groupId shardIndex { row.toParityColumns with
      state := .ready
      verificationHash := some verificationHash }
  | .ready =>
    reject (row.verificationHash ≠ some verificationHash) .conflict
    pure db

section

variable (groupId : Bytes 32) (shardIndex : U16)

/-- `load_ready_variable`. -/
def loadReadyVariable : Outcome DatabaseError VariableParityObject := do
  let row ← okOr ((db.objects.get (toLex (groupId, shardIndex))).filter fun row =>
    row.formatVersion = 2 ∧ row.state = .ready) .notReady
  let byteLen ← toU32 row.byteLength
  let object : VariableParityObject :=
    { formatVersion := row.formatVersion
      guildId := row.guildId
      groupId := groupId
      shardIndex := shardIndex
      commitment := { formatVersion := 1, leafSize := 16, byteLen := byteLen, root := row.root }
      bytes := row.bytes }
  validateVariableParityObject C object
  pure object

/-- `read_ready_variable_activation`. -/
def readReadyVariableActivation : Outcome DatabaseError ReadyVariableObject := do
  let object ← db.loadReadyVariable C groupId shardIndex
  let row ← okOr (db.objects.get (toLex (groupId, shardIndex))) .sql
  let attemptId ← okOr row.attemptId .integrity
  let verificationHash ← okOr row.verificationHash .integrity
  reject (65536 < row.acknowledgement.length) .integrity
  reject (attemptId = 0 ∨ verificationHash = 0) .integrity
  pure
    { object := object
      attemptId := attemptId
      verificationHash := verificationHash
      stagedReceipt := row.acknowledgement }

/-- `read_ready_variable_object`. -/
def readReadyVariableObject : Outcome DatabaseError ReadyVariableObject := do
  let ready ← db.readReadyVariableActivation C groupId shardIndex
  reject (ready.stagedReceipt = []) .integrity
  pure ready

end

/-- `copy_ready_variable_object`. -/
def copyReadyVariableObject (ready : ReadyVariableObject) (budgetBytes : U64) :
    Outcome DatabaseError ParityStore := do
  validateReadyVariableObject C ready
  match db.objects.get (toLex (ready.object.groupId, ready.object.shardIndex)) with
  | some _ =>
    let stored ← db.readReadyVariableObject C ready.object.groupId ready.object.shardIndex
    reject (stored ≠ ready) .conflict
    pure db
  | none =>
    let used ← db.usedBytes
    admitBytes used ready.object.bytes.length budgetBytes
    let db ← db.insertObject ready.object.groupId ready.object.shardIndex
      { formatVersion := 2
        guildId := ready.object.guildId
        root := ready.object.commitment.root
        byteLength := ready.object.bytes.length
        state := .ready
        bytes := ready.object.bytes
        acknowledgement := ready.stagedReceipt
        attemptId := some ready.attemptId
        verificationHash := some ready.verificationHash }
    let stored ← db.readReadyVariableObject C ready.object.groupId ready.object.shardIndex
    reject (stored ≠ ready) .integrity
    pure db

/-- The first ready row of a variable object, in the order of the key. -/
def firstReadyVariable : Option (ParityKey × ParityRow) :=
  db.objects.rows.find? fun r => r.2.state = .ready ∧ r.2.formatVersion = 2

/-- `first_ready_variable_object_with_information_upgrade`.  The check of the caller is asked
before the marker is written and once more afterwards. -/
def firstReadyVariableObjectWithInformationUpgrade
    (check recheck : ReadyVariableObject → Outcome DatabaseError Unit) :
    Outcome DatabaseError (Option ReadyVariableObject × ParityStore) :=
  match db.firstReadyVariable with
  | none => pure (none, db)
  | some (key, row) => do
    let ready ← db.readReadyVariableActivation C (ofLex key).1 (ofLex key).2
    if ready.stagedReceipt = [] then do
      check ready
      reject (row.verificationHash ≠ some ready.verificationHash ∨
        row.attemptId ≠ some ready.attemptId) .integrity
      let db ← db.updateObject (ofLex key).1 (ofLex key).2 { row.toParityColumns with
        acknowledgement := ready.verificationHash.toList }
      let stored ← db.readReadyVariableObject C (ofLex key).1 (ofLex key).2
      reject (stored ≠ { ready with stagedReceipt := ready.verificationHash.toList }) .integrity
      recheck ready
      pure (some stored, db)
    else pure (some ready, db)

/-! ### Publication of the fixed size -/

/-- `validate_parity_publication`. -/
def validateParityPublication (object : ParityObject) (acknowledgement : List UInt8) :
    Outcome DatabaseError Unit :=
  reject (object.formatVersion ≠ 1 ∨ object.bytes.length ≠ v1SectorSize ∨
    4 < object.shardIndex.val ∨ C.blake3 object.bytes ≠ object.root ∨
    4096 < acknowledgement.length) .integrity

/-- `stage_and_publish_ack`. -/
def stageAndPublishAck (object : ParityObject) (acknowledgement : List UInt8)
    (budgetBytes : U64) : Outcome DatabaseError ParityStore := do
  validateParityPublication C object acknowledgement
  match db.objects.get (toLex (object.groupId, widen object.shardIndex)) with
  | some existing =>
    reject (existing.formatVersion ≠ object.formatVersion ∨ existing.guildId ≠ object.guildId ∨
      existing.root ≠ object.root ∨ existing.byteLength ≠ object.bytes.length ∨
      existing.bytes ≠ object.bytes ∨ existing.acknowledgement ≠ acknowledgement) .conflict
    if existing.state = .staged then
      db.updateObject object.groupId (widen object.shardIndex)
        { existing.toParityColumns with state := .ready }
    else pure db
  | none =>
    let used ← sqlSum db.objectBytes
    admitBytes used object.bytes.length budgetBytes
    let db ← db.insertObject object.groupId (widen object.shardIndex)
      { formatVersion := object.formatVersion
        guildId := object.guildId
        root := object.root
        byteLength := object.bytes.length
        state := .staged
        bytes := object.bytes
        acknowledgement := acknowledgement
        attemptId := none
        verificationHash := none }
    let stored ← okOr ((db.objects.get
      (toLex (object.groupId, widen object.shardIndex))).filter
        fun row => row.state = .staged) .sql
    reject (stored.root ≠ object.root ∨ stored.byteLength ≠ object.bytes.length ∨
      C.blake3 stored.bytes ≠ object.root) .integrity
    db.updateObject object.groupId (widen object.shardIndex)
      { stored.toParityColumns with state := .ready }

/-! ### Removal -/

/-- `remove_ready_variable_object`. -/
def removeReadyVariableObject (groupId : Bytes 32) (shardIndex : U16) (expectedRoot : Bytes 32)
    (expectedAttempt : Bytes 16) (expectedVerification : Bytes 32) :
    Outcome DatabaseError (Bool × ParityStore) := do
  reject (expectedAttempt = 0 ∨ expectedVerification = 0) .integrity
  match db.objects.get (toLex (groupId, shardIndex)) with
  | none => pure (false, db)
  | some row =>
    reject (¬ (row.root = expectedRoot ∧ row.formatVersion = 2 ∧ row.state = .ready ∧
      row.attemptId = some expectedAttempt ∧
      row.verificationHash = some expectedVerification)) .conflict
    pure (true, { db with objects := db.objects.erase (toLex (groupId, shardIndex)) })

/-- `remove_ready`. -/
def removeReady (groupId : Bytes 32) (shardIndex : U8) (expectedRoot : Bytes 32) :
    Outcome DatabaseError (Bool × ParityStore) :=
  match db.objects.get (toLex (groupId, widen shardIndex)) with
  | none => pure (false, db)
  | some row => do
    reject (row.root ≠ expectedRoot ∨ row.state ≠ .ready) .conflict
    pure (true, { db with objects := db.objects.erase (toLex (groupId, widen shardIndex)) })

/-- `DELETE FROM parity_objects WHERE attempt_id = ? AND state = 'STAGED'`. -/
def deleteStaged (attemptId : Bytes 16) : ParityStore :=
  { db with
    objects := db.objects.deleteWhere fun _ row =>
      row.attemptId = some attemptId ∧ row.state = .staged }

/-- `DELETE FROM coding_reservations WHERE attempt_id = ?`. -/
def deleteReservations (attemptId : Bytes 16) : ParityStore :=
  { db with reservations := db.reservations.deleteWhere fun key _ => (ofLex key).1 = attemptId }

/-- The rows that are gone in a later store. -/
def removed (later : ParityStore) : ℕ :=
  (db.objects.size - later.objects.size) + (db.reservations.size - later.reservations.size)

section

variable (attemptId : Bytes 16)

/-- `discard_staged_attempt`, up to its first commit or to the end. -/
def discardStagedAttempt (interrupted : Bool) : Outcome DatabaseError (ℕ × ParityStore) := do
  reject (attemptId = 0) .integrity
  let later := if interrupted then db.deleteStaged attemptId
    else (db.deleteStaged attemptId).deleteReservations attemptId
  pure (db.removed later, later)

/-- One round of the loop of `discard_uncommitted_attempt_checked`. -/
def discardUnlessPinned (preserveReady : List (Bytes 32 × U16))
    (pinned : Bytes 32 → U16 → Bytes 32 → Outcome DatabaseError Bool) (db : ParityStore)
    (entry : ParityKey × ParityRow) : Outcome DatabaseError ParityStore :=
  if entry.2.state = .ready ∧ ofLex entry.1 ∈ preserveReady then pure db
  else do
    let isPinned ← pinned (ofLex entry.1).1 (ofLex entry.1).2 entry.2.root
    if isPinned then pure db
    else pure { db with
      objects := db.objects.deleteWhere fun key row =>
        row.attemptId = some attemptId ∧ key = entry.1 }

/-- `discard_uncommitted_attempt_checked`; without pins it is
`discard_uncommitted_attempt_preserving_ready`, and with nothing to preserve
`discard_uncommitted_attempt`. -/
def discardUncommittedAttemptChecked (preserveReady : List (Bytes 32 × U16))
    (pinned : Bytes 32 → U16 → Bytes 32 → Outcome DatabaseError Bool) :
    Outcome DatabaseError (ℕ × ParityStore) := do
  reject (attemptId = 0) .integrity
  let rows := db.objects.rows.filter fun r => r.2.attemptId = some attemptId
  reject (256 < rows.length) .integrity
  let later ← rows.foldlM (discardUnlessPinned attemptId preserveReady pinned) db
  let later := later.deleteReservations attemptId
  pure (db.removed later, later)

end

/-- `discard_coding_attempt_object_checked`.  The pin is read before the deletion and once more
before the commit. -/
def discardCodingAttemptObjectChecked (attempt : Bytes 16) (guild storage : Bytes 32)
    (shard : U16) (commitment : MerkleCommitment) (pinned repinned : Outcome DatabaseError Bool) :
    Outcome DatabaseError (Bool × ParityStore) := do
  mapErr (fun _ => .integrity) commitment.validate
  reject (attempt = 0 ∨ guild = 0 ∨ storage = 0 ∨ maxCodingShards ≤ shard.val ∨
    maxProfileShardSize < commitment.byteLen.val) .integrity
  let isPinned ← pinned
  if isPinned then pure (false, db)
  else do
    reject (isSomeAnd (db.objects.get (toLex (storage, shard))) fun row =>
      row.formatVersion ≠ 2 ∨ row.guildId ≠ guild ∨ row.root ≠ commitment.root ∨
        row.byteLength ≠ commitment.byteLen.val ∨ row.bytes.length ≠ row.byteLength ∨
        row.attemptId ≠ some attempt) .integrity
    reject (isSomeAnd (db.reservations.get (toLex (attempt, shard))) fun row =>
      row.guildId ≠ guild ∨ row.byteLength ≠ commitment.byteLen.val ∨
        row.byteLength < row.writtenUntil ∨ row.writtenUntil % merkleLeafSize ≠ 0 ∨
        row.bytes.length ≠ row.byteLength) .integrity
    let isPinned ← repinned
    reject isPinned .integrity
    pure (true, ⟨db.objects.erase (toLex (storage, shard)),
      db.reservations.erase (toLex (attempt, shard))⟩)

/-! ## Runs -/

/-- A call of one of the operations. -/
inductive Operation where
  | reserveCodingAttempt (attemptId : Bytes 16) (guildId : Bytes 32) (shardIndex : U16)
      (byteLength : U32) (budgetBytes : U64)
  | writeCodingAttemptRange (attemptId : Bytes 16) (shardIndex : U16) (offset : U32)
      (bytes : List UInt8)
  | finishCodingAttemptUpload (attemptId : Bytes 16) (groupId : Bytes 32) (shardIndex : U16)
      (commitment : MerkleCommitment)
  | attachCodingAttemptReceipt (attemptId : Bytes 16) (groupId : Bytes 32) (shardIndex : U16)
      (receipt : List UInt8)
  | stageAttempt (attemptId : Bytes 16) (object : VariableParityObject)
      (stagedReceipt : List UInt8) (budgetBytes : U64)
  | activateAttemptObject (attemptId : Bytes 16) (groupId : Bytes 32) (shardIndex : U16)
      (commitment : MerkleCommitment) (verificationHash : Bytes 32)
  | copyReadyVariableObject (ready : ReadyVariableObject) (budgetBytes : U64)
  | firstReadyVariableObjectWithInformationUpgrade
      (check recheck : ReadyVariableObject → Outcome DatabaseError Unit)
  | stageAndPublishAck (object : ParityObject) (acknowledgement : List UInt8) (budgetBytes : U64)
  | removeReadyVariableObject (groupId : Bytes 32) (shardIndex : U16) (expectedRoot : Bytes 32)
      (expectedAttempt : Bytes 16) (expectedVerification : Bytes 32)
  | removeReady (groupId : Bytes 32) (shardIndex : U8) (expectedRoot : Bytes 32)
  | discardStagedAttempt (attemptId : Bytes 16) (interrupted : Bool)
  | discardUncommittedAttemptChecked (attemptId : Bytes 16)
      (preserveReady : List (Bytes 32 × U16))
      (pinned : Bytes 32 → U16 → Bytes 32 → Outcome DatabaseError Bool)
  | discardCodingAttemptObjectChecked (attempt : Bytes 16) (guild storage : Bytes 32)
      (shard : U16) (commitment : MerkleCommitment) (pinned repinned : Outcome DatabaseError Bool)

namespace Operation

/-- The tables after the commit of the operation. -/
def apply : Operation → Outcome DatabaseError ParityStore
  | reserveCodingAttempt attemptId guildId shardIndex byteLength budgetBytes =>
    Prod.snd <$> db.reserveCodingAttempt attemptId guildId shardIndex byteLength budgetBytes
  | writeCodingAttemptRange attemptId shardIndex offset bytes =>
    Prod.snd <$> db.writeCodingAttemptRange attemptId shardIndex offset bytes
  | finishCodingAttemptUpload attemptId groupId shardIndex commitment =>
    db.finishCodingAttemptUpload C attemptId groupId shardIndex commitment
  | attachCodingAttemptReceipt attemptId groupId shardIndex receipt =>
    db.attachCodingAttemptReceipt attemptId groupId shardIndex receipt
  | stageAttempt attemptId object stagedReceipt budgetBytes =>
    db.stageAttempt C attemptId object stagedReceipt budgetBytes
  | activateAttemptObject attemptId groupId shardIndex commitment verificationHash =>
    db.activateAttemptObject attemptId groupId shardIndex commitment verificationHash
  | copyReadyVariableObject ready budgetBytes => db.copyReadyVariableObject C ready budgetBytes
  | firstReadyVariableObjectWithInformationUpgrade check recheck =>
    Prod.snd <$> db.firstReadyVariableObjectWithInformationUpgrade C check recheck
  | stageAndPublishAck object acknowledgement budgetBytes =>
    db.stageAndPublishAck C object acknowledgement budgetBytes
  | removeReadyVariableObject groupId shardIndex expectedRoot expectedAttempt
      expectedVerification =>
      Prod.snd <$> db.removeReadyVariableObject groupId shardIndex expectedRoot expectedAttempt
        expectedVerification
  | removeReady groupId shardIndex expectedRoot =>
    Prod.snd <$> db.removeReady groupId shardIndex expectedRoot
  | discardStagedAttempt attemptId interrupted =>
    Prod.snd <$> db.discardStagedAttempt attemptId interrupted
  | discardUncommittedAttemptChecked attemptId preserveReady pinned =>
    Prod.snd <$> db.discardUncommittedAttemptChecked attemptId preserveReady pinned
  | discardCodingAttemptObjectChecked attempt guild storage shard commitment pinned repinned =>
    Prod.snd <$> db.discardCodingAttemptObjectChecked attempt guild storage shard commitment
      pinned repinned

/-- The tables after the operation, successful or not. -/
def next (op : Operation) : ParityStore := (assign db (op.apply C db)).1

end Operation

/-- The tables after a sequence of operations on a new store. -/
def after (ops : List Operation) : ParityStore := ops.foldl (fun db op => op.next C db) empty

variable {C db} {db' : ParityStore}

lemma next_of_ok {op : Operation} (h : op.apply C db = .ok db') : op.next C db = db' := by
  rw [Operation.next, h, assign]

lemma next_of_error {op : Operation} (h : ¬ Succeeds (op.apply C db)) : op.next C db = db := by
  rw [Operation.next]
  cases hop : op.apply C db with
  | ok db' => exact absurd ⟨db', hop⟩ h
  | error e => rfl

lemma after_append_singleton (ops : List Operation) (op : Operation) :
    after C (ops ++ [op]) = op.next C (after C ops) := by
  rw [after, List.foldl_append]
  rfl

/-- A shard of sixteen zero bytes, for concrete runs. -/
def zeroShard : VariableParityObject :=
  { formatVersion := 2
    guildId := 7
    groupId := 9
    shardIndex := 0
    commitment :=
      (merkleCommit .transparent (List.replicate 16 0)).toOption.getD ⟨1, 16, 16, 0⟩
    bytes := List.replicate 16 0 }

end ParityStore

end MutualBackup
