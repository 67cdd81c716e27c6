import MutualBackup.Store.ParityEffect

/-!
# The budget of the parity store

Four operations admit bytes against a budget.  `reserve_coding_attempt` and
`copy_ready_variable_object` count the objects and the open reservations; `stage_attempt` and
`stage_and_publish_ack` count the objects only.  Everything else keeps or lowers what is used: an
upload that finishes turns a reservation into an object of the same size.

So a sequence of operations stays within its budget exactly when it never presents a new object, in
order otherwise, that fits beside the objects but not beside the objects and the reservations
(`used_le_budget_iff`).  A store with an open reservation of the whole budget admits an object of
the whole budget beside it (`staged_beside_reservation`).
-/

namespace MutualBackup

open Framework

namespace ParityStore

variable {C : Crypto} {db db' : ParityStore}

/-! ## What a step does to the sum -/

variable {key : ParityKey} {row : ParityRow}

lemma used_put_object {stored : ParityRow} (hstored : db.objects.get key = some stored)
    (hlen : row.byteLength = stored.byteLength) :
    used { db with objects := db.objects.put key row } = db.used := by
  have hput := db.objects.total_put (f := fun _ r => r.byteLength) (k := key) (a := row)
  rw [Table.weight_of_get hstored] at hput
  simp only [used, objectBytes, reservedBytes]
  omega

lemma used_insert_object (hnone : db.objects.get key = none) :
    used { db with objects := db.objects.put key row } = db.used + row.byteLength := by
  have hput := Table.total_put_of_none (f := fun _ r => r.byteLength) (a := row) hnone
  simp only [used, objectBytes, reservedBytes]
  omega

lemma used_put_reservation {key : ReservationKey} {stored row : ReservationRow}
    (hstored : db.reservations.get key = some stored) (hlen : row.byteLength = stored.byteLength) :
    used { db with reservations := db.reservations.put key row } = db.used := by
  have hput := db.reservations.total_put (f := fun _ r => r.byteLength) (k := key) (a := row)
  rw [Table.weight_of_get hstored] at hput
  simp only [used, objectBytes, reservedBytes]
  omega

lemma used_insert_reservation {key : ReservationKey} {row : ReservationRow}
    (hnone : db.reservations.get key = none) :
    used { db with reservations := db.reservations.put key row } = db.used + row.byteLength := by
  have hput := Table.total_put_of_none (f := fun _ r => r.byteLength) (a := row) hnone
  simp only [used, objectBytes, reservedBytes]
  omega

variable {op : Operation}

lemma Shrinks.used_le (h : Shrinks op db db') : db'.used ≤ db.used :=
  Nat.add_le_add (Table.total_le_of_subset h.objects) (Table.total_le_of_subset h.reservations)

/-- The reservation becomes an object of the same size. -/
lemma used_upload {attemptKey : ReservationKey} {reservation : ReservationRow}
    (hnone : db.objects.get key = none)
    (hreservation : db.reservations.get attemptKey = some reservation)
    (hlen : row.byteLength = reservation.byteLength) :
    used ⟨db.objects.put key row, db.reservations.erase attemptKey⟩ = db.used := by
  have hput := Table.total_put_of_none (f := fun _ r => r.byteLength) (a := row) hnone
  have herase := db.reservations.total_erase (f := fun _ r => r.byteLength) (k := attemptKey)
  rw [Table.weight_of_get hreservation] at herase
  simp only [used, objectBytes, reservedBytes]
  omega

namespace Operation

/-- Every budget that is passed to the operation is `budget`. -/
def GivenBudget (budget : U64) : Operation → Prop
  | reserveCodingAttempt _ _ _ _ budgetBytes => budgetBytes = budget
  | stageAttempt _ _ _ budgetBytes => budgetBytes = budget
  | stageAndPublishAck _ _ budgetBytes => budgetBytes = budget
  | copyReadyVariableObject _ budgetBytes => budgetBytes = budget
  | _ => True

/-- What the operation stages, if anything, is there already. -/
def StagesNothingNew (db : ParityStore) (op : Operation) : Prop :=
  ∀ key len, op.stages = some (key, len) → ∃ row, db.objects.get key = some row

/-- What is checked of an object that is staged or published, whatever the store holds. -/
def InOrder (C : Crypto) : Operation → Prop
  | stageAttempt attemptId object stagedReceipt _ =>
    validateVariableParityObject C object = .ok () ∧ attemptId ≠ 0 ∧ stagedReceipt ≠ [] ∧
      stagedReceipt.length ≤ 64 * 1024
  | stageAndPublishAck object acknowledgement _ =>
    validateParityPublication C object acknowledgement = .ok ()
  | _ => False

/-- A new object in order fits within the budget beside the objects, whose sum is within the range
of the database, but not beside the objects and the reservations. -/
def Overcommits (C : Crypto) (budget : U64) (db : ParityStore) (op : Operation) : Prop :=
  op.InOrder C ∧ ∃ key len, op.stages = some (key, len) ∧ db.objects.get key = none ∧
    db.objectBytes ≤ i64Max ∧ db.objectBytes + len ≤ budget.val ∧ budget.val < db.used + len

end Operation

/-! ## When a new object is admitted -/

variable {budgetBytes : U64} {groupId : Bytes 32} {shardIndex : U16}

/-- The budget check of a new object, and what comes after it. -/
lemma admits_iff {n byteLength : ℕ} {P : Prop} :
    (∃ used, sqlSum n = .ok used ∧ admitBytes used byteLength budgetBytes = .ok () ∧ P) ↔
      n ≤ i64Max ∧ n + byteLength ≤ budgetBytes.val ∧ P := by
  constructor
  · rintro ⟨used, hsum, hfits, h⟩
    obtain ⟨hle, hval⟩ := sqlSum_eq_ok.mp hsum
    rw [admitBytes_eq_ok, hval] at hfits
    exact ⟨hle, hfits, h⟩
  · rintro ⟨hle, hfits, h⟩
    exact ⟨⟨n, hle.trans_lt (by decide)⟩, sqlSum_eq_ok.mpr ⟨hle, rfl⟩,
      admitBytes_eq_ok.mpr hfits, h⟩

lemma exists_insertObject (columns : ParityColumns) (hshard : shardIndex.val < maxCodingShards)
    (hnone : db.objects.get (toLex (groupId, shardIndex)) = none) (hchecks : columns.Checks) :
    ∃ row : ParityRow, row.toParityColumns = columns ∧
      db.insertObject groupId shardIndex columns =
        .ok { db with objects := db.objects.put (toLex (groupId, shardIndex)) row } := by
  refine ⟨⟨columns, hchecks⟩, rfl, ?_⟩
  refine bind_eq_ok.mpr ⟨(), reject_eq_ok.mpr (not_le.mpr hshard), ?_⟩
  refine bind_eq_ok.mpr ⟨(), reject_eq_ok.mpr (by rw [hnone]; exact Bool.false_ne_true), ?_⟩
  exact bind_eq_ok.mpr ⟨_, ParityColumns.row_eq_ok.mpr rfl, rfl⟩

/-- What is read back after an insertion is the row that was inserted. -/
lemma okOr_inserted {row : ParityRow} (hstate : row.state = .staged) :
    okOr (((db.objects.put key row).get key).filter fun r => r.state = .staged) DatabaseError.sql =
      .ok row := by
  rw [Table.get_put_self, okOr_eq_ok]
  simp [hstate]

lemma succeeds_stageAttempt_iff {attemptId : Bytes 16} {object : VariableParityObject}
    {stagedReceipt : List UInt8}
    (hnone : db.objects.get (toLex (object.groupId, object.shardIndex)) = none) :
    Succeeds (db.stageAttempt C attemptId object stagedReceipt budgetBytes) ↔
      Operation.InOrder C (.stageAttempt attemptId object stagedReceipt budgetBytes) ∧
        db.objectBytes ≤ i64Max ∧ db.objectBytes + object.bytes.length ≤ budgetBytes.val := by
  simp only [stageAttempt, hnone, succeeds_bind, exists_unit, reject_eq_ok, admits_iff, not_or,
    not_lt]
  constructor
  · rintro ⟨hvalid, hreceipt, hsum, hfits, -⟩
    exact ⟨⟨hvalid, hreceipt⟩, hsum, hfits⟩
  · rintro ⟨⟨hvalid, hreceipt⟩, hsum, hfits⟩
    have hcommit := merkleCommit_of_validate hvalid
    obtain ⟨_, hshape, -⟩ := bind_eq_ok.mp hvalid
    have hshape := reject_eq_ok.mp hshape
    push Not at hshape
    obtain ⟨-, -, -, hshard, hmin, hmax⟩ := hshape
    obtain ⟨row, hrow, hinsert⟩ := exists_insertObject ⟨2, object.guildId,
      object.commitment.root, object.bytes.length, .staged, object.bytes, stagedReceipt,
      some attemptId, none⟩ hshard hnone ⟨.inr rfl, hmin, hmax, rfl, .inl rfl⟩
    refine ⟨hvalid, hreceipt, hsum, hfits, _, hinsert, row, okOr_inserted (by rw [hrow]), ?_,
      object.commitment, ?_, ?_, _, rfl⟩
    · simp [hrow]
    · rw [hrow, hcommit, mapErr_ok]
    · simp [hrow]

lemma succeeds_stageAndPublishAck_iff {object : ParityObject} {acknowledgement : List UInt8}
    (hnone : db.objects.get (toLex (object.groupId, widen object.shardIndex)) = none) :
    Succeeds (db.stageAndPublishAck C object acknowledgement budgetBytes) ↔
      Operation.InOrder C (.stageAndPublishAck object acknowledgement budgetBytes) ∧
        db.objectBytes ≤ i64Max ∧ db.objectBytes + object.bytes.length ≤ budgetBytes.val := by
  simp only [stageAndPublishAck, hnone, succeeds_bind, exists_unit, reject_eq_ok, admits_iff]
  constructor
  · rintro ⟨hvalid, hsum, hfits, -⟩
    exact ⟨hvalid, hsum, hfits⟩
  · rintro ⟨hvalid, hsum, hfits⟩
    have hshape := reject_eq_ok.mp hvalid
    push Not at hshape
    obtain ⟨hversion, hlen, hshard, hroot, -⟩ := hshape
    have hchecks : ∀ state, ParityColumns.Checks ⟨object.formatVersion, object.guildId, object.root,
        object.bytes.length, state, object.bytes, acknowledgement, none, none⟩ := by
      have hsize : object.bytes.length = 65536 := hlen
      have hmin : 16 ≤ object.bytes.length := by omega
      exact fun _ => ⟨.inl hversion, hmin, hsize.trans_le (by decide), rfl, .inr hsize⟩
    have hwide : (widen object.shardIndex).val < maxCodingShards := hshard.trans_lt (by decide)
    obtain ⟨row, hrow, hinsert⟩ := exists_insertObject _ hwide hnone (hchecks .staged)
    refine ⟨hvalid, hsum, hfits, _, hinsert, row, okOr_inserted (by rw [hrow]), ?_, _,
      bind_eq_ok.mpr ⟨⟨_, hchecks .ready⟩, ParityColumns.row_eq_ok.mpr (by rw [hrow]), rfl⟩⟩
    simp [hrow, hroot]

/-- The operation on a new object succeeds when the object is in order and fits beside the objects;
the reservations play no part. -/
lemma succeeds_iff_of_new {budget : U64} {len : ℕ} (hbudget : op.GivenBudget budget)
    (hstages : op.stages = some (key, len)) (hnone : db.objects.get key = none) :
    Succeeds (op.apply C db) ↔
      op.InOrder C ∧ db.objectBytes ≤ i64Max ∧ db.objectBytes + len ≤ budget.val := by
  cases op with
  | stageAttempt =>
    obtain ⟨rfl, rfl⟩ := Prod.mk.inj (Option.some.inj hstages)
    obtain rfl := hbudget
    exact succeeds_stageAttempt_iff hnone
  | stageAndPublishAck =>
    obtain ⟨rfl, rfl⟩ := Prod.mk.inj (Option.some.inj hstages)
    obtain rfl := hbudget
    exact succeeds_stageAndPublishAck_iff hnone
  | _ => cases hstages

/-- A step that stages a new object adds its size, and any other keeps the budget. -/
lemma used_of_apply {budget : U64} (hbudget : op.GivenBudget budget) (h : op.apply C db = .ok db') :
    (∃ key len, op.stages = some (key, len) ∧ db.objects.get key = none ∧
      db'.used = db.used + len) ∨
      op.StagesNothingNew db ∧ db'.used ≤ max db.used budget.val := by
  have hnothing : op.stages = none → op.StagesNothingNew db := by
    intro hnone key len hstages
    rw [hnone] at hstages
    cases hstages
  cases effect_of_apply h with
  | shrunk hold hshrinks => exact .inr ⟨hold.stages, le_max_of_le_left hshrinks.used_le⟩
  | reserved hnone hfits hrow =>
    obtain rfl := hbudget
    refine .inr ⟨hnothing rfl, le_max_of_le_right ?_⟩
    rw [used_insert_reservation hnone, hrow]
    exact hfits
  | rewritten => exact .inr ⟨hnothing rfl, le_max_left _ _⟩
  | appended hstored _ _ hrow =>
    refine .inr ⟨hnothing rfl, le_max_of_le_left ?_⟩
    rw [used_put_reservation hstored (by rw [hrow])]
  | uploaded hnone hreservation _ _ hrow =>
    refine .inr ⟨hnothing rfl, le_max_of_le_left ?_⟩
    rw [used_upload hnone hreservation (by rw [hrow])]
  | acknowledged hold _ hstored hrow =>
    refine .inr ⟨hold.stages, le_max_of_le_left ?_⟩
    rw [used_put_object hstored (by rw [hrow])]
  | staged hnone _ hrow =>
    refine .inl ⟨_, _, rfl, hnone, ?_⟩
    rw [used_insert_object hnone, hrow]
  | activated hstored _ _ _ hrow =>
    refine .inr ⟨hnothing rfl, le_max_of_le_left ?_⟩
    rw [used_put_object hstored (by rw [hrow])]
  | copied hnone _ hfits hrow =>
    obtain rfl := hbudget
    refine .inr ⟨hnothing rfl, le_max_of_le_right ?_⟩
    rw [used_insert_object hnone, hrow]
    exact hfits
  | published hnone hrow =>
    refine .inl ⟨_, _, rfl, hnone, ?_⟩
    rw [used_insert_object hnone, hrow]
  | promoted hstored _ _ hrow =>
    refine .inr ⟨fun key len h => ?_, le_max_of_le_left ?_⟩
    · obtain ⟨rfl, -⟩ := Prod.mk.inj (Option.some.inj h)
      exact ⟨_, hstored⟩
    · rw [used_put_object hstored (by rw [hrow])]

/-! ## Steps and runs -/

/-- **The step.** From within the budget, a step stays within it exactly when it does not
overcommit. -/
lemma used_next_le_iff {budget : U64} (hbudget : op.GivenBudget budget)
    (hused : db.used ≤ budget.val) :
    (op.next C db).used ≤ budget.val ↔ ¬ op.Overcommits C budget db := by
  by_cases hok : Succeeds (op.apply C db)
  · obtain ⟨db', h⟩ := hok
    rw [next_of_ok h]
    rcases used_of_apply hbudget h with ⟨key, len, hstages, hnone, heq⟩ | ⟨hold, hle⟩
    · obtain ⟨horder, hsum, hfits⟩ := (succeeds_iff_of_new hbudget hstages hnone).mp ⟨db', h⟩
      rw [heq]
      constructor
      · rintro hle ⟨-, key', len', hstages', -, -, -, hlt⟩
        obtain ⟨-, rfl⟩ := Prod.mk.inj (Option.some.inj (hstages.symm.trans hstages'))
        exact absurd hle (not_le.mpr hlt)
      · intro hnot
        by_contra hlt
        exact hnot ⟨horder, key, len, hstages, hnone, hsum, hfits, not_le.mp hlt⟩
    · refine iff_of_true (hle.trans (max_le hused le_rfl)) ?_
      rintro ⟨-, key, len, hstages, hnone, -⟩
      obtain ⟨row, hrow⟩ := hold key len hstages
      rw [hnone] at hrow
      cases hrow
  · rw [next_of_error hok]
    refine iff_of_true hused ?_
    rintro ⟨horder, key, len, hstages, hnone, hsum, hfits, -⟩
    exact hok ((succeeds_iff_of_new hbudget hstages hnone).mpr ⟨horder, hsum, hfits⟩)

/-- **The budget holds after every operation exactly when no operation presents a new object, in
order otherwise, that fits beside the objects but not beside the open reservations too.** -/
theorem used_le_budget_iff (C : Crypto) (budget : U64) (ops : List Operation)
    (hbudget : ∀ op ∈ ops, op.GivenBudget budget) :
    (∀ before rest, ops = before ++ rest → (after C before).used ≤ budget.val) ↔
      ∀ before op rest, ops = before ++ op :: rest →
        ¬ op.Overcommits C budget (after C before) := by
  constructor
  · intro h before op rest hsplit
    have hop : op.GivenBudget budget := hbudget op (by rw [hsplit]; simp)
    rw [← used_next_le_iff hop (h before (op :: rest) hsplit), ← after_append_singleton]
    exact h (before ++ [op]) rest (by rw [hsplit]; simp)
  · intro h before rest hsplit
    -- induction on the operations made so far, each of which is met with its condition
    induction before using List.reverseRecOn generalizing rest with
    | nil => exact Nat.zero_le _
    | append_singleton before op ih =>
      have hsplit' : ops = before ++ op :: rest := by rw [hsplit]; simp
      have hop : op.GivenBudget budget := hbudget op (by rw [hsplit']; simp)
      rw [after_append_singleton, used_next_le_iff hop (ih (op :: rest) hsplit')]
      exact h before op rest hsplit'

/-- A reservation of sixteen bytes, and an object of sixteen bytes for another attempt. -/
def stagesBeside (budget : U64) : List Operation :=
  [.reserveCodingAttempt 1 7 0 16 budget, .stageAttempt 2 zeroShard [1] budget]

lemma givenBudget_stagesBeside (budget : U64) :
    ∀ op ∈ stagesBeside budget, op.GivenBudget budget := by
  simp [stagesBeside, Operation.GivenBudget]

theorem used_le_budget_stagesBeside :
    (∀ op ∈ stagesBeside 32, op.GivenBudget 32) ∧ (after .transparent (stagesBeside 32)).used = 32 ∧
      ∀ before rest, stagesBeside 32 = before ++ rest →
        (after .transparent before).used ≤ (32 : U64).val := by
  refine ⟨givenBudget_stagesBeside 32, by decide +kernel,
    (used_le_budget_iff .transparent 32 _ (givenBudget_stagesBeside 32)).mpr ?_⟩
  rintro before op rest hsplit ⟨-, key, len, hstages, -, -, -, hlt⟩
  match before, hsplit with
  | [], hsplit =>
    obtain ⟨rfl, -⟩ := List.cons.inj hsplit
    cases hstages
  | [_], hsplit =>
    obtain ⟨rfl, hrest⟩ := List.cons.inj hsplit
    obtain ⟨rfl, -⟩ := List.cons.inj hrest
    obtain ⟨-, rfl⟩ := Prod.mk.inj (Option.some.inj hstages)
    revert hlt
    decide +kernel
  | _ :: _ :: before, hsplit =>
    have hlength := congrArg List.length hsplit
    simp [stagesBeside] at hlength

/-! ### An object beside a reservation

A reservation of the whole budget is open, and an object of the whole budget is staged. -/

theorem staged_beside_reservation :
    (∀ op ∈ stagesBeside 16, op.GivenBudget 16) ∧
      (16 : U64).val < (after .transparent (stagesBeside 16)).used :=
  ⟨givenBudget_stagesBeside 16, by decide +kernel⟩

end ParityStore

end MutualBackup
