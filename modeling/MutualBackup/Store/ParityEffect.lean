import MutualBackup.Store.ParityStore

/-!
# What an operation of the parity store can do

`Effect` lists everything that a successful operation can do to the two tables, with the guards it
has passed: a reservation is opened, extended or turned into an object; an object is inserted,
acknowledged, promoted or activated; or rows are deleted (`Shrinks`), each by an operation that
names the row or its attempt.  `effect_of_apply` is the only place that looks into the operations;
the invariants of the store are consequences of the list.
-/

namespace MutualBackup

open Framework

namespace ParityStore

variable {C : Crypto} {db db' : ParityStore}

/-! ## Queries -/

lemma sqlSum_eq_ok {n : ℕ} {sum : U64} : sqlSum n = .ok sum ↔ n ≤ i64Max ∧ sum.val = n := by
  simp only [sqlSum, bind_eq_ok, exists_unit, reject_eq_ok, pure_eq_ok, not_lt, Fin.ext_iff,
    Fin.val_ofNat]
  refine and_congr_right fun hle => ?_
  rw [Nat.mod_eq_of_lt (hle.trans_lt (by decide)), eq_comm]

lemma toU32_eq_ok {n : ℕ} {m : U32} (h : toU32 n = .ok m) : m.val = n := by
  obtain ⟨_, hlt, hm⟩ := bind_eq_ok.mp h
  obtain rfl := pure_eq_ok.mp hm
  rw [Fin.val_ofNat]
  exact Nat.mod_eq_of_lt (not_le.mp (reject_eq_ok.mp hlt))

variable {budgetBytes : U64}

lemma admitBytes_eq_ok {used : U64} {byteLength : ℕ} :
    admitBytes used byteLength budgetBytes = .ok () ↔ used.val + byteLength ≤ budgetBytes.val := by
  have hlt := budgetBytes.isLt
  simp only [admitBytes, bind_eq_ok, exists_unit, reject_eq_ok]
  omega

variable {shardIndex : U16} {groupId : Bytes 32}

lemma insertObject_eq_ok {columns : ParityColumns}
    (h : db.insertObject groupId shardIndex columns = .ok db') :
    db.objects.get (toLex (groupId, shardIndex)) = none ∧
      ∃ row : ParityRow, row.toParityColumns = columns ∧
        db' = { db with objects := db.objects.put (toLex (groupId, shardIndex)) row } := by
  have h := past h
  obtain ⟨_, hnone, h⟩ := bind_eq_ok.mp h
  obtain ⟨row, hrow, h⟩ := bind_eq_ok.mp h
  obtain rfl := pure_eq_ok.mp h
  refine ⟨?_, row, ParityColumns.row_eq_ok.mp hrow, rfl⟩
  simpa using reject_eq_ok.mp hnone

lemma updateObject_eq_ok {columns : ParityColumns}
    (h : db.updateObject groupId shardIndex columns = .ok db') :
    ∃ row : ParityRow, row.toParityColumns = columns ∧
      db' = { db with objects := db.objects.put (toLex (groupId, shardIndex)) row } := by
  obtain ⟨row, hrow, h⟩ := bind_eq_ok.mp h
  obtain rfl := pure_eq_ok.mp h
  exact ⟨row, ParityColumns.row_eq_ok.mp hrow, rfl⟩

lemma merkleCommit_of_validate {object : VariableParityObject}
    (h : validateVariableParityObject C object = .ok ()) :
    merkleCommit C object.bytes = .ok object.commitment := by
  have h := past h
  obtain ⟨commitment, hcommit, h⟩ := bind_eq_ok.mp h
  rw [mapErr_eq_ok.mp hcommit, not_not.mp (reject_eq_ok.mp h)]

/-! ## Effects -/

namespace Operation

/-- The operation deletes objects, and this is one it names, by the key or by the attempt. -/
def NamesObject (key : ParityKey) (attemptId : Option (Bytes 16)) : Operation → Prop
  | removeReadyVariableObject groupId shardIndex _ _ _ => key = toLex (groupId, shardIndex)
  | removeReady groupId shardIndex _ => key = toLex (groupId, widen shardIndex)
  | discardStagedAttempt attempt _ => attemptId = some attempt
  | discardUncommittedAttemptChecked attempt _ _ => attemptId = some attempt
  | discardCodingAttemptObjectChecked attempt _ storage shard _ _ _ =>
    key = toLex (storage, shard) ∧ attemptId = some attempt
  | _ => False

/-- The operation deletes reservations, and this is one it names. -/
def NamesReservation (key : ReservationKey) : Operation → Prop
  | finishCodingAttemptUpload attemptId _ shardIndex _ => key = toLex (attemptId, shardIndex)
  | discardStagedAttempt attempt _ => (ofLex key).1 = attempt
  | discardUncommittedAttemptChecked attempt _ _ => (ofLex key).1 = attempt
  | discardCodingAttemptObjectChecked attempt _ _ shard _ _ _ => key = toLex (attempt, shard)
  | _ => False

/-- The operation discards what an attempt has left. -/
def Discards (attemptId : Bytes 16) : Operation → Prop
  | discardStagedAttempt attempt _ => attempt = attemptId
  | discardUncommittedAttemptChecked attempt _ _ => attempt = attemptId
  | discardCodingAttemptObjectChecked attempt _ _ _ _ _ _ => attempt = attemptId
  | _ => False

/-- The key and the size of the object that the operation stages or publishes in one piece. -/
def stages : Operation → Option (ParityKey × ℕ)
  | stageAttempt _ object _ _ =>
    some (toLex (object.groupId, object.shardIndex), object.bytes.length)
  | stageAndPublishAck object _ _ =>
    some (toLex (object.groupId, widen object.shardIndex), object.bytes.length)
  | _ => none

/-- The reservation that the operation writes to, with the offset and the bytes. -/
def range : Operation → Option (ReservationKey × ℕ × List UInt8)
  | writeCodingAttemptRange attemptId shardIndex offset bytes =>
    some (toLex (attemptId, shardIndex), offset.val, bytes)
  | _ => none

/-- The operation writes no range, and what it stages, if anything, is there already. -/
structure AddsNothing (db : ParityStore) (op : Operation) : Prop where
  range : op.range = none
  stages : ∀ key len, op.stages = some (key, len) → ∃ row, db.objects.get key = some row

end Operation

/-- Rows are only deleted, and only rows that the operation names. -/
structure Shrinks (op : Operation) (db db' : ParityStore) : Prop where
  objects : ∀ key row, db'.objects.get key = some row → db.objects.get key = some row
  kept_object : ∀ key row, db.objects.get key = some row → ¬ op.NamesObject key row.attemptId →
    db'.objects.get key = some row
  reservations : ∀ key row, db'.reservations.get key = some row → db.reservations.get key = some row
  kept_reservation : ∀ key row, db.reservations.get key = some row → ¬ op.NamesReservation key →
    db'.reservations.get key = some row

lemma Shrinks.refl (op : Operation) (db : ParityStore) : Shrinks op db db :=
  ⟨fun _ _ h => h, fun _ _ h _ => h, fun _ _ h => h, fun _ _ h _ => h⟩

variable {op : Operation}

lemma Shrinks.trans {db₁ db₂ db₃ : ParityStore} (h : Shrinks op db₁ db₂) (h' : Shrinks op db₂ db₃) :
    Shrinks op db₁ db₃ where
  objects key row hrow := h.objects key row (h'.objects key row hrow)
  kept_object key row hrow hname := h'.kept_object key row (h.kept_object key row hrow hname) hname
  reservations key row hrow := h.reservations key row (h'.reservations key row hrow)
  kept_reservation key row hrow hname :=
    h'.kept_reservation key row (h.kept_reservation key row hrow hname) hname

/-- What a successful operation has done. -/
inductive Effect (C : Crypto) (db : ParityStore) : Operation → ParityStore → Prop
  | shrunk {op : Operation} {db' : ParityStore} (hold : op.AddsNothing db)
      (h : Shrinks op db db') : Effect C db op db'
  | reserved {attemptId : Bytes 16} {guildId : Bytes 32} {shardIndex : U16} {byteLength : U32}
      {budgetBytes : U64} {row : ReservationRow}
      (hnone : db.reservations.get (toLex (attemptId, shardIndex)) = none)
      (hfits : db.used + byteLength.val ≤ budgetBytes.val)
      (hrow : row.toReservationColumns =
        ⟨guildId, byteLength.val, 0, List.replicate byteLength.val 0⟩) :
      Effect C db (.reserveCodingAttempt attemptId guildId shardIndex byteLength budgetBytes)
        { db with reservations := db.reservations.put (toLex (attemptId, shardIndex)) row }
  | rewritten {attemptId : Bytes 16} {shardIndex : U16} {offset : U32} {bytes : List UInt8}
      {stored : ReservationRow}
      (hstored : db.reservations.get (toLex (attemptId, shardIndex)) = some stored)
      (hlt : offset.val < stored.writtenUntil)
      (hend : offset.val + bytes.length ≤ stored.writtenUntil)
      (hsame : slice stored.bytes offset.val bytes.length = bytes) :
      Effect C db (.writeCodingAttemptRange attemptId shardIndex offset bytes) db
  | appended {attemptId : Bytes 16} {shardIndex : U16} {offset : U32} {bytes : List UInt8}
      {stored row : ReservationRow}
      (hstored : db.reservations.get (toLex (attemptId, shardIndex)) = some stored)
      (hoffset : offset.val = stored.writtenUntil)
      (hend : offset.val + bytes.length ≤ stored.byteLength)
      (hrow : row.toReservationColumns = { stored.toReservationColumns with
        writtenUntil := offset.val + bytes.length
        bytes := overwrite stored.bytes offset.val bytes }) :
      Effect C db (.writeCodingAttemptRange attemptId shardIndex offset bytes)
        { db with reservations := db.reservations.put (toLex (attemptId, shardIndex)) row }
  | uploaded {attemptId : Bytes 16} {groupId : Bytes 32} {shardIndex : U16}
      {commitment : MerkleCommitment} {reservation : ReservationRow} {row : ParityRow}
      (hnone : db.objects.get (toLex (groupId, shardIndex)) = none)
      (hreservation : db.reservations.get (toLex (attemptId, shardIndex)) = some reservation)
      (hwritten : reservation.writtenUntil = reservation.byteLength)
      (hcommit : merkleCommit C reservation.bytes = .ok commitment)
      (hrow : row.toParityColumns =
        ⟨2, reservation.guildId, commitment.root, reservation.byteLength, .staged,
          reservation.bytes, [], some attemptId, none⟩) :
      Effect C db (.finishCodingAttemptUpload attemptId groupId shardIndex commitment)
        ⟨db.objects.put (toLex (groupId, shardIndex)) row,
          db.reservations.erase (toLex (attemptId, shardIndex))⟩
  | acknowledged {op : Operation} {key : ParityKey} {stored row : ParityRow}
      {receipt : List UInt8} (hold : op.AddsNothing db)
      (hkeeps : ∀ attemptId, ¬ op.Discards attemptId)
      (hstored : db.objects.get key = some stored)
      (hrow : row.toParityColumns = { stored.toParityColumns with acknowledgement := receipt }) :
      Effect C db op { db with objects := db.objects.put key row }
  | staged {attemptId : Bytes 16} {object : VariableParityObject} {stagedReceipt : List UInt8}
      {budgetBytes : U64} {row : ParityRow}
      (hnone : db.objects.get (toLex (object.groupId, object.shardIndex)) = none)
      (hcommit : merkleCommit C object.bytes = .ok object.commitment)
      (hrow : row.toParityColumns =
        ⟨2, object.guildId, object.commitment.root, object.bytes.length, .staged, object.bytes,
          stagedReceipt, some attemptId, none⟩) :
      Effect C db (.stageAttempt attemptId object stagedReceipt budgetBytes)
        { db with objects := db.objects.put (toLex (object.groupId, object.shardIndex)) row }
  | activated {attemptId : Bytes 16} {groupId : Bytes 32} {shardIndex : U16}
      {commitment : MerkleCommitment} {verificationHash : Bytes 32} {stored row : ParityRow}
      (hstored : db.objects.get (toLex (groupId, shardIndex)) = some stored)
      (hformat : stored.formatVersion = 2) (hattempt : stored.attemptId = some attemptId)
      (hstate : stored.state = .staged)
      (hrow : row.toParityColumns = { stored.toParityColumns with
        state := .ready
        verificationHash := some verificationHash }) :
      Effect C db
        (.activateAttemptObject attemptId groupId shardIndex commitment verificationHash)
        { db with objects := db.objects.put (toLex (groupId, shardIndex)) row }
  | copied {ready : ReadyVariableObject} {budgetBytes : U64} {row : ParityRow}
      (hnone : db.objects.get (toLex (ready.object.groupId, ready.object.shardIndex)) = none)
      (hvalid : validateReadyVariableObject C ready = .ok ())
      (hfits : db.used + ready.object.bytes.length ≤ budgetBytes.val)
      (hrow : row.toParityColumns =
        ⟨2, ready.object.guildId, ready.object.commitment.root, ready.object.bytes.length, .ready,
          ready.object.bytes, ready.stagedReceipt, some ready.attemptId,
          some ready.verificationHash⟩) :
      Effect C db (.copyReadyVariableObject ready budgetBytes)
        { db with
          objects := db.objects.put (toLex (ready.object.groupId, ready.object.shardIndex)) row }
  | published {object : ParityObject} {acknowledgement : List UInt8} {budgetBytes : U64}
      {row : ParityRow}
      (hnone : db.objects.get (toLex (object.groupId, widen object.shardIndex)) = none)
      (hrow : row.toParityColumns =
        ⟨1, object.guildId, object.root, object.bytes.length, .ready, object.bytes,
          acknowledgement, none, none⟩) :
      Effect C db (.stageAndPublishAck object acknowledgement budgetBytes)
        { db with
          objects := db.objects.put (toLex (object.groupId, widen object.shardIndex)) row }
  | promoted {object : ParityObject} {acknowledgement : List UInt8} {budgetBytes : U64}
      {stored row : ParityRow}
      (hstored : db.objects.get (toLex (object.groupId, widen object.shardIndex)) = some stored)
      (hformat : stored.formatVersion = 1) (hstate : stored.state = .staged)
      (hrow : row.toParityColumns = { stored.toParityColumns with state := .ready }) :
      Effect C db (.stageAndPublishAck object acknowledgement budgetBytes)
        { db with
          objects := db.objects.put (toLex (object.groupId, widen object.shardIndex)) row }

/-! ## Inversion, operation by operation -/

section

variable (hrange : op.range = none)

include hrange

lemma addsNothing_of_none (h : op.stages = none) : op.AddsNothing db := by
  refine ⟨hrange, fun key len hstages => ?_⟩
  rw [h] at hstages
  cases hstages

lemma effect_unchanged (h : op.stages = none) : Effect C db op db :=
  .shrunk (addsNothing_of_none hrange h) (.refl op db)

/-- An object that is staged once more. -/
lemma effect_restaged {key : ParityKey} {len : ℕ} {row : ParityRow}
    (h : op.stages = some (key, len)) (hrow : db.objects.get key = some row) :
    Effect C db op db := by
  refine .shrunk ⟨hrange, fun key' len' h' => ?_⟩ (.refl op db)
  obtain ⟨rfl, -⟩ := Prod.mk.inj (Option.some.inj (h.symm.trans h'))
  exact ⟨row, hrow⟩

end

variable {attemptId : Bytes 16}

lemma reserveCodingAttempt_effect {guildId : Bytes 32} {byteLength written : U32}
    (h : db.reserveCodingAttempt attemptId guildId shardIndex byteLength budgetBytes =
      .ok (written, db')) :
    Effect C db (.reserveCodingAttempt attemptId guildId shardIndex byteLength budgetBytes)
      db' := by
  have h := past h
  split at h
  · have h := past h
    obtain ⟨_, -, h⟩ := bind_eq_ok.mp h
    obtain ⟨-, rfl⟩ := Prod.mk.inj (pure_eq_ok.mp h)
    exact effect_unchanged rfl rfl
  · rename_i hnone
    obtain ⟨used, hused, h⟩ := bind_eq_ok.mp h
    obtain ⟨_, hfits, h⟩ := bind_eq_ok.mp h
    obtain ⟨row, hrow, h⟩ := bind_eq_ok.mp h
    obtain ⟨-, rfl⟩ := Prod.mk.inj (pure_eq_ok.mp h)
    have hfits := admitBytes_eq_ok.mp hfits
    rw [(sqlSum_eq_ok.mp hused).2] at hfits
    exact .reserved hnone hfits (ReservationColumns.row_eq_ok.mp hrow)

lemma writeCodingAttemptRange_effect {offset written : U32} {bytes : List UInt8}
    (h : db.writeCodingAttemptRange attemptId shardIndex offset bytes = .ok (written, db')) :
    Effect C db (.writeCodingAttemptRange attemptId shardIndex offset bytes) db' := by
  have h := past h
  obtain ⟨stored, hstored, h⟩ := bind_eq_ok.mp h
  obtain ⟨_, hend, h⟩ := bind_eq_ok.mp h
  obtain ⟨m, hm, h⟩ := bind_eq_ok.mp h
  have hstored := okOr_eq_ok.mp hstored
  have hend := not_lt.mp (reject_eq_ok.mp hend)
  have hm := toU32_eq_ok hm
  split at h
  · rename_i hlt
    obtain ⟨_, hle, h⟩ := bind_eq_ok.mp h
    obtain ⟨_, hsame, h⟩ := bind_eq_ok.mp h
    obtain ⟨-, rfl⟩ := Prod.mk.inj (pure_eq_ok.mp h)
    have hlt := Fin.lt_def.mp hlt
    have hle := not_lt.mp (reject_eq_ok.mp hle)
    rw [hm] at hlt hle
    exact .rewritten hstored hlt hle (not_not.mp (reject_eq_ok.mp hsame))
  · obtain ⟨_, heq, h⟩ := bind_eq_ok.mp h
    obtain ⟨next, hnext, h⟩ := bind_eq_ok.mp h
    obtain ⟨row, hrow, h⟩ := bind_eq_ok.mp h
    obtain ⟨-, rfl⟩ := Prod.mk.inj (pure_eq_ok.mp h)
    have heq := congrArg Fin.val (not_not.mp (reject_eq_ok.mp heq))
    have hrow := ReservationColumns.row_eq_ok.mp hrow
    rw [toU32_eq_ok hnext] at hrow
    exact .appended hstored (heq.trans hm) hend hrow

variable {commitment : MerkleCommitment}

/-- The two successful ends of `finish_coding_attempt_upload`. -/
lemma finishCodingAttemptUpload_eq_ok
    (h : db.finishCodingAttemptUpload C attemptId groupId shardIndex commitment = .ok db') :
    (∃ row, db.objects.get (toLex (groupId, shardIndex)) = some row ∧ row.formatVersion = 2 ∧
      row.attemptId = some attemptId ∧ merkleCommit C row.bytes = .ok commitment ∧
      db' = { db with
        reservations := db.reservations.erase (toLex (attemptId, shardIndex)) }) ∨
    ∃ reservation row, db.objects.get (toLex (groupId, shardIndex)) = none ∧
      db.reservations.get (toLex (attemptId, shardIndex)) = some reservation ∧
      reservation.writtenUntil = reservation.byteLength ∧
      merkleCommit C reservation.bytes = .ok commitment ∧
      row.toParityColumns = ⟨2, reservation.guildId, commitment.root, reservation.byteLength,
        .staged, reservation.bytes, [], some attemptId, none⟩ ∧
      db' = ⟨db.objects.put (toLex (groupId, shardIndex)) row,
        db.reservations.erase (toLex (attemptId, shardIndex))⟩ := by
  have h := past h
  have h := past h
  split at h
  · rename_i row hrow
    obtain ⟨_, hmatch, h⟩ := bind_eq_ok.mp h
    obtain ⟨stored, hstored, h⟩ := bind_eq_ok.mp h
    obtain ⟨_, hcommit, h⟩ := bind_eq_ok.mp h
    obtain rfl := pure_eq_ok.mp h
    have hmatch := reject_eq_ok.mp hmatch
    push Not at hmatch
    refine .inl ⟨row, hrow, hmatch.1, hmatch.2.2.2, ?_, rfl⟩
    rw [mapErr_eq_ok.mp hstored, not_not.mp (reject_eq_ok.mp hcommit)]
  · rename_i hnone
    obtain ⟨reservation, hreservation, h⟩ := bind_eq_ok.mp h
    obtain ⟨_, hcomplete, h⟩ := bind_eq_ok.mp h
    obtain ⟨stored, hstored, h⟩ := bind_eq_ok.mp h
    obtain ⟨_, hcommit, h⟩ := bind_eq_ok.mp h
    obtain ⟨db₁, hinsert, h⟩ := bind_eq_ok.mp h
    obtain rfl := pure_eq_ok.mp h
    obtain ⟨-, row, hrow, rfl⟩ := insertObject_eq_ok hinsert
    have hcomplete := reject_eq_ok.mp hcomplete
    push Not at hcomplete
    rw [← hcomplete.1] at hrow
    refine .inr ⟨reservation, row, hnone, okOr_eq_ok.mp hreservation, hcomplete.2, ?_, hrow, rfl⟩
    rw [mapErr_eq_ok.mp hstored, not_not.mp (reject_eq_ok.mp hcommit)]

lemma finishCodingAttemptUpload_effect
    (h : db.finishCodingAttemptUpload C attemptId groupId shardIndex commitment = .ok db') :
    Effect C db (.finishCodingAttemptUpload attemptId groupId shardIndex commitment) db' := by
  rcases finishCodingAttemptUpload_eq_ok h with
    ⟨row, hrow, -, -, -, rfl⟩ | ⟨reservation, row, hnone, hres, hwritten, hcommit, hrow, rfl⟩
  · refine .shrunk (addsNothing_of_none rfl rfl) ⟨fun _ _ h => h, fun _ _ h _ => h,
      fun _ _ => Table.get_of_erase, fun key r hr hname => ?_⟩
    rw [Table.get_erase_of_ne fun heq => hname heq.symm]
    exact hr
  · exact .uploaded hnone hres hwritten hcommit hrow

lemma attachCodingAttemptReceipt_effect {receipt : List UInt8}
    (h : db.attachCodingAttemptReceipt attemptId groupId shardIndex receipt = .ok db') :
    Effect C db (.attachCodingAttemptReceipt attemptId groupId shardIndex receipt) db' := by
  have h := past h
  obtain ⟨stored, hstored, h⟩ := bind_eq_ok.mp h
  have h := past h
  have hstored := (Option.filter_eq_some_iff.mp (okOr_eq_ok.mp hstored)).1
  split at h
  · obtain ⟨row, hrow, rfl⟩ := updateObject_eq_ok h
    exact .acknowledged (addsNothing_of_none rfl rfl) (fun _ h => h) hstored hrow
  · obtain rfl := pure_eq_ok.mp h
    exact effect_unchanged rfl rfl

lemma stageAttempt_effect {object : VariableParityObject} {stagedReceipt : List UInt8}
    (h : db.stageAttempt C attemptId object stagedReceipt budgetBytes = .ok db') :
    Effect C db (.stageAttempt attemptId object stagedReceipt budgetBytes) db' := by
  obtain ⟨_, hvalid, h⟩ := bind_eq_ok.mp h
  have h := past h
  split at h
  · rename_i stored hstored
    have h := past h
    obtain rfl := pure_eq_ok.mp h
    exact effect_restaged rfl rfl hstored
  · obtain ⟨_, -, h⟩ := bind_eq_ok.mp h
    have h := past h
    obtain ⟨db₁, hinsert, h⟩ := bind_eq_ok.mp h
    obtain ⟨_, -, h⟩ := bind_eq_ok.mp h
    have h := past h
    obtain ⟨_, -, h⟩ := bind_eq_ok.mp h
    have h := past h
    obtain rfl := pure_eq_ok.mp h
    obtain ⟨hnone, row, hrow, rfl⟩ := insertObject_eq_ok hinsert
    exact .staged hnone (merkleCommit_of_validate hvalid) hrow

lemma activateAttemptObject_effect {verificationHash : Bytes 32}
    (h : db.activateAttemptObject attemptId groupId shardIndex commitment verificationHash =
      .ok db') :
    Effect C db (.activateAttemptObject attemptId groupId shardIndex commitment verificationHash)
      db' := by
  have h := past h
  obtain ⟨stored, hstored, h⟩ := bind_eq_ok.mp h
  obtain ⟨_, hmatch, h⟩ := bind_eq_ok.mp h
  have hmatch := reject_eq_ok.mp hmatch
  push Not at hmatch
  split at h
  · rename_i hstate
    have h := past h
    obtain ⟨row, hrow, rfl⟩ := updateObject_eq_ok h
    exact .activated (okOr_eq_ok.mp hstored) hmatch.1 hmatch.2.2.2 hstate hrow
  · have h := past h
    obtain rfl := pure_eq_ok.mp h
    exact effect_unchanged rfl rfl

lemma copyReadyVariableObject_effect {ready : ReadyVariableObject}
    (h : db.copyReadyVariableObject C ready budgetBytes = .ok db') :
    Effect C db (.copyReadyVariableObject ready budgetBytes) db' := by
  obtain ⟨_, hvalid, h⟩ := bind_eq_ok.mp h
  split at h
  · obtain ⟨_, -, h⟩ := bind_eq_ok.mp h
    have h := past h
    obtain rfl := pure_eq_ok.mp h
    exact effect_unchanged rfl rfl
  · obtain ⟨used, hused, h⟩ := bind_eq_ok.mp h
    obtain ⟨_, hfits, h⟩ := bind_eq_ok.mp h
    obtain ⟨db₁, hinsert, h⟩ := bind_eq_ok.mp h
    obtain ⟨_, -, h⟩ := bind_eq_ok.mp h
    have h := past h
    obtain rfl := pure_eq_ok.mp h
    obtain ⟨hnone, row, hrow, rfl⟩ := insertObject_eq_ok hinsert
    have hfits := admitBytes_eq_ok.mp hfits
    rw [(sqlSum_eq_ok.mp hused).2] at hfits
    exact .copied hnone hvalid hfits hrow

lemma firstReadyVariableObjectWithInformationUpgrade_effect
    {check recheck : ReadyVariableObject → Outcome DatabaseError Unit}
    {ready : Option ReadyVariableObject}
    (h : db.firstReadyVariableObjectWithInformationUpgrade C check recheck = .ok (ready, db')) :
    Effect C db (.firstReadyVariableObjectWithInformationUpgrade check recheck) db' := by
  unfold firstReadyVariableObjectWithInformationUpgrade at h
  split at h
  · obtain ⟨-, rfl⟩ := Prod.mk.inj (pure_eq_ok.mp h)
    exact effect_unchanged rfl rfl
  · rename_i key stored hfirst
    have hstored : db.objects.get key = some stored :=
      Table.mem_rows.mp (List.mem_of_find?_eq_some hfirst)
    obtain ⟨_, -, h⟩ := bind_eq_ok.mp h
    split at h
    · have h := past h
      have h := past h
      obtain ⟨db₁, hupdate, h⟩ := bind_eq_ok.mp h
      obtain ⟨_, -, h⟩ := bind_eq_ok.mp h
      have h := past h
      have h := past h
      obtain ⟨-, rfl⟩ := Prod.mk.inj (pure_eq_ok.mp h)
      obtain ⟨row, hrow, rfl⟩ := updateObject_eq_ok hupdate
      exact .acknowledged (addsNothing_of_none rfl rfl) (fun _ h => h) hstored hrow
    · obtain ⟨-, rfl⟩ := Prod.mk.inj (pure_eq_ok.mp h)
      exact effect_unchanged rfl rfl

lemma stageAndPublishAck_effect {object : ParityObject} {acknowledgement : List UInt8}
    (h : db.stageAndPublishAck C object acknowledgement budgetBytes = .ok db') :
    Effect C db (.stageAndPublishAck object acknowledgement budgetBytes) db' := by
  obtain ⟨_, hvalid, h⟩ := bind_eq_ok.mp h
  have hvalid := reject_eq_ok.mp hvalid
  push Not at hvalid
  split at h
  · rename_i stored hstored
    obtain ⟨_, hmatch, h⟩ := bind_eq_ok.mp h
    have hmatch := reject_eq_ok.mp hmatch
    push Not at hmatch
    split at h
    · rename_i hstate
      obtain ⟨row, hrow, rfl⟩ := updateObject_eq_ok h
      exact .promoted hstored (hmatch.1.trans hvalid.1) hstate hrow
    · obtain rfl := pure_eq_ok.mp h
      exact effect_restaged rfl rfl hstored
  · obtain ⟨_, -, h⟩ := bind_eq_ok.mp h
    have h := past h
    obtain ⟨db₁, hinsert, h⟩ := bind_eq_ok.mp h
    obtain ⟨stored, hstored, h⟩ := bind_eq_ok.mp h
    have h := past h
    obtain ⟨hnone, inserted, hinserted, rfl⟩ := insertObject_eq_ok hinsert
    obtain ⟨row, hrow, rfl⟩ := updateObject_eq_ok h
    have hstored := (Option.filter_eq_some_iff.mp (okOr_eq_ok.mp hstored)).1
    rw [Table.get_put_self] at hstored
    obtain rfl := Option.some.inj hstored
    rw [hinserted, hvalid.1] at hrow
    -- the row that was inserted is written over by the promoted one
    have hput : (db.objects.put (toLex (object.groupId, widen object.shardIndex)) inserted).put
        (toLex (object.groupId, widen object.shardIndex)) row =
        db.objects.put (toLex (object.groupId, widen object.shardIndex)) row := by
      refine Table.ext_get fun key => ?_
      simp only [Table.get_put]
      split <;> rfl
    rw [hput]
    exact .published hnone hrow

/-- A deletion of one object. -/
lemma shrinks_eraseObject {key : ParityKey} (hname : ∀ attemptId, op.NamesObject key attemptId) :
    Shrinks op db { db with objects := db.objects.erase key } := by
  refine ⟨fun _ _ => Table.get_of_erase, fun k row hrow hno => ?_, fun _ _ h => h, fun _ _ h _ => h⟩
  rw [Table.get_erase_of_ne]
  · exact hrow
  · rintro rfl
    exact hno (hname _)

variable {found : Bool}

lemma removeReadyVariableObject_effect {expectedRoot expectedVerification : Bytes 32}
    {expectedAttempt : Bytes 16}
    (h : db.removeReadyVariableObject groupId shardIndex expectedRoot expectedAttempt
      expectedVerification = .ok (found, db')) :
    Effect C db (.removeReadyVariableObject groupId shardIndex expectedRoot expectedAttempt
      expectedVerification) db' := by
  have h := past h
  split at h
  · obtain ⟨-, rfl⟩ := Prod.mk.inj (pure_eq_ok.mp h)
    exact effect_unchanged rfl rfl
  · have h := past h
    obtain ⟨-, rfl⟩ := Prod.mk.inj (pure_eq_ok.mp h)
    exact .shrunk (addsNothing_of_none rfl rfl) (shrinks_eraseObject fun _ => rfl)

lemma removeReady_effect {expectedRoot : Bytes 32} {shardIndex : U8}
    (h : db.removeReady groupId shardIndex expectedRoot = .ok (found, db')) :
    Effect C db (.removeReady groupId shardIndex expectedRoot) db' := by
  unfold removeReady at h
  split at h
  · obtain ⟨-, rfl⟩ := Prod.mk.inj (pure_eq_ok.mp h)
    exact effect_unchanged rfl rfl
  · have h := past h
    obtain ⟨-, rfl⟩ := Prod.mk.inj (pure_eq_ok.mp h)
    exact .shrunk (addsNothing_of_none rfl rfl) (shrinks_eraseObject fun _ => rfl)

/-- A deletion of objects of a named attempt. -/
lemma shrinks_deleteObjects {p : ParityKey → ParityRow → Prop} [∀ k a, Decidable (p k a)]
    (hname : ∀ key row, p key row → op.NamesObject key row.attemptId) :
    Shrinks op db { db with objects := db.objects.deleteWhere p } :=
  ⟨fun _ _ hrow => (Table.get_deleteWhere.mp hrow).1,
    fun key row hrow hno => Table.get_deleteWhere.mpr ⟨hrow, fun hp => hno (hname key row hp)⟩,
    fun _ _ h => h, fun _ _ h _ => h⟩

lemma shrinks_deleteReservations
    (hname : ∀ key : ReservationKey, (ofLex key).1 = attemptId → op.NamesReservation key) :
    Shrinks op db (db.deleteReservations attemptId) :=
  ⟨fun _ _ h => h, fun _ _ h _ => h, fun _ _ hrow => (Table.get_deleteWhere.mp hrow).1,
    fun key _ hrow hno => Table.get_deleteWhere.mpr ⟨hrow, fun hp => hno (hname key hp)⟩⟩

lemma discardStagedAttempt_effect {interrupted : Bool} {count : ℕ}
    (h : db.discardStagedAttempt attemptId interrupted = .ok (count, db')) :
    Effect C db (.discardStagedAttempt attemptId interrupted) db' := by
  have h := past h
  obtain ⟨-, rfl⟩ := Prod.mk.inj (pure_eq_ok.mp h)
  have hstaged : Shrinks (.discardStagedAttempt attemptId interrupted) db
      (db.deleteStaged attemptId) := shrinks_deleteObjects fun _ _ hp => hp.1
  cases interrupted with
  | true => exact .shrunk (addsNothing_of_none rfl rfl) hstaged
  | false =>
    exact .shrunk (addsNothing_of_none rfl rfl)
      (hstaged.trans (shrinks_deleteReservations fun _ h => h))

lemma discardUncommittedAttemptChecked_effect {preserveReady : List (Bytes 32 × U16)}
    {pinned : Bytes 32 → U16 → Bytes 32 → Outcome DatabaseError Bool} {count : ℕ}
    (h : db.discardUncommittedAttemptChecked attemptId preserveReady pinned = .ok (count, db')) :
    Effect C db (.discardUncommittedAttemptChecked attemptId preserveReady pinned) db' := by
  have h := past h
  have h := past h
  obtain ⟨later, hloop, h⟩ := bind_eq_ok.mp h
  obtain ⟨-, rfl⟩ := Prod.mk.inj (pure_eq_ok.mp h)
  have hround : ∀ (s : ParityStore) (entry : ParityKey × ParityRow) (t : ParityStore), True →
      discardUnlessPinned attemptId preserveReady pinned s entry = .ok t →
      True ∧ Shrinks (.discardUncommittedAttemptChecked attemptId preserveReady pinned) s t := by
    intro s entry t _ hstep
    refine ⟨trivial, ?_⟩
    unfold discardUnlessPinned at hstep
    split at hstep
    · obtain rfl := pure_eq_ok.mp hstep
      exact .refl _ _
    · obtain ⟨isPinned, -, hstep⟩ := bind_eq_ok.mp hstep
      split at hstep
      · obtain rfl := pure_eq_ok.mp hstep
        exact .refl _ _
      · obtain rfl := pure_eq_ok.mp hstep
        exact shrinks_deleteObjects fun _ _ hp => hp.1
  have hobjects := (replay_rel hround (Shrinks.refl _) Shrinks.trans trivial hloop).2
  exact .shrunk (addsNothing_of_none rfl rfl)
    (hobjects.trans (shrinks_deleteReservations fun _ h => h))

lemma discardCodingAttemptObjectChecked_effect {attempt : Bytes 16} {guild storage : Bytes 32}
    {shard : U16} {pinned repinned : Outcome DatabaseError Bool}
    (h : db.discardCodingAttemptObjectChecked attempt guild storage shard commitment pinned
      repinned = .ok (found, db')) :
    Effect C db (.discardCodingAttemptObjectChecked attempt guild storage shard commitment pinned
      repinned) db' := by
  have h := past h
  have h := past h
  obtain ⟨isPinned, -, h⟩ := bind_eq_ok.mp h
  split at h
  · obtain ⟨-, rfl⟩ := Prod.mk.inj (pure_eq_ok.mp h)
    exact effect_unchanged rfl rfl
  · obtain ⟨_, hobject, h⟩ := bind_eq_ok.mp h
    have h := past h
    obtain ⟨_, -, h⟩ := bind_eq_ok.mp h
    have h := past h
    obtain ⟨-, rfl⟩ := Prod.mk.inj (pure_eq_ok.mp h)
    have hobject := reject_eq_ok.mp hobject
    simp only [isSomeAnd] at hobject
    push Not at hobject
    refine .shrunk (addsNothing_of_none rfl rfl) ⟨fun _ _ => Table.get_of_erase,
      fun key row hrow hno => ?_, fun _ _ => Table.get_of_erase, fun key row hrow hno => ?_⟩
    · rw [Table.get_erase_of_ne]
      · exact hrow
      · rintro rfl
        exact hno ⟨rfl, (hobject row hrow).2.2.2.2.2⟩
    · rw [Table.get_erase_of_ne fun heq => hno heq.symm]
      exact hrow

/-- **Inversion.** Every successful operation has one of the effects. -/
theorem effect_of_apply (h : op.apply C db = .ok db') : Effect C db op db' := by
  cases op with
  | reserveCodingAttempt =>
    obtain ⟨r, hr, rfl⟩ := map_eq_ok.mp h
    exact reserveCodingAttempt_effect hr
  | writeCodingAttemptRange =>
    obtain ⟨r, hr, rfl⟩ := map_eq_ok.mp h
    exact writeCodingAttemptRange_effect hr
  | finishCodingAttemptUpload => exact finishCodingAttemptUpload_effect h
  | attachCodingAttemptReceipt => exact attachCodingAttemptReceipt_effect h
  | stageAttempt => exact stageAttempt_effect h
  | activateAttemptObject => exact activateAttemptObject_effect h
  | copyReadyVariableObject => exact copyReadyVariableObject_effect h
  | firstReadyVariableObjectWithInformationUpgrade =>
    obtain ⟨r, hr, rfl⟩ := map_eq_ok.mp h
    exact firstReadyVariableObjectWithInformationUpgrade_effect hr
  | stageAndPublishAck => exact stageAndPublishAck_effect h
  | removeReadyVariableObject =>
    obtain ⟨r, hr, rfl⟩ := map_eq_ok.mp h
    exact removeReadyVariableObject_effect hr
  | removeReady =>
    obtain ⟨r, hr, rfl⟩ := map_eq_ok.mp h
    exact removeReady_effect hr
  | discardStagedAttempt =>
    obtain ⟨r, hr, rfl⟩ := map_eq_ok.mp h
    exact discardStagedAttempt_effect hr
  | discardUncommittedAttemptChecked =>
    obtain ⟨r, hr, rfl⟩ := map_eq_ok.mp h
    exact discardUncommittedAttemptChecked_effect hr
  | discardCodingAttemptObjectChecked =>
    obtain ⟨r, hr, rfl⟩ := map_eq_ok.mp h
    exact discardCodingAttemptObjectChecked_effect hr

end ParityStore

end MutualBackup
