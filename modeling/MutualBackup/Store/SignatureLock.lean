import MutualBackup.Framework.Ballot
import MutualBackup.Store.ControlStore

/-!
# The signature lock

The rows of a guild in `checkpoint_signature_locks` and `checkpoint_heads` are the registers of a
vote lock: `slot` reads them as ballots, and every operation of the store is a move of the slot
(`Operation.move`).  What is proved about vote locks holds of the store.

The lock is durable but for one case.  An exact replay of the head, by a commit that does not ask
for the lock or by a recovery, writes the head into the lock row; when the lock is already a
generation ahead, that vote is forgotten.  `signature_lock_durable_iff` says that a sequence of
operations keeps the lock exactly when it has no such replay.

`Keeps` is the frame of the operations: the rows they do not write, and the index of generations,
whose entries never change once they are there.
-/

namespace MutualBackup

open Framework

variable {guildId : Bytes 32} {head : Option CheckpointRow} {row : CheckpointRow} {c : Commit}

namespace ControlStore

/-! ## Statements -/

/-- The rows of one guild are written, and the generation index has lost nothing. -/
structure Writes (guildId : Bytes 32) (lock head : Option CheckpointRow) (db db' : ControlStore) :
    Prop where
  locks_eq : db'.locks = Function.update db.locks guildId lock
  heads_eq : db'.heads = Function.update db.heads guildId head
  index : ∀ id bytes, db.records .guildCheckpointGeneration id = some bytes →
    db'.records .guildCheckpointGeneration id = some bytes

/-- No row is written, and the generation index has lost nothing. -/
structure Keeps (db db' : ControlStore) : Prop where
  locks_eq : db'.locks = db.locks
  heads_eq : db'.heads = db.heads
  index : ∀ id bytes, db.records .guildCheckpointGeneration id = some bytes →
    db'.records .guildCheckpointGeneration id = some bytes

lemma Keeps.refl (db : ControlStore) : Keeps db db := ⟨rfl, rfl, fun _ _ h => h⟩

variable {db₁ db₂ db₃ : ControlStore}

lemma Keeps.trans (h : Keeps db₁ db₂) (h' : Keeps db₂ db₃) : Keeps db₁ db₃ :=
  ⟨h'.locks_eq.trans h.locks_eq, h'.heads_eq.trans h.heads_eq,
    fun id bytes hid => h'.index id bytes (h.index id bytes hid)⟩

variable {db db' : ControlStore}

lemma records_putRecord (kind k : RecordKind) (id bytes i : List UInt8) :
    (db.putRecord kind id bytes).records k i =
      if k = kind ∧ i = id then some bytes else db.records k i := by
  by_cases hkind : k = kind
  · subst hkind
    simp [putRecord, Function.update_apply]
  · simp [putRecord, hkind]

variable {kind : RecordKind}

lemma records_deleteRecords {k : RecordKind} (hkind : k ≠ kind) (p : List UInt8 → Bool) :
    (db.deleteRecords kind p).records k = db.records k :=
  Function.update_of_ne hkind _ _

lemma keeps_putRecord (hkind : .guildCheckpointGeneration ≠ kind) (id bytes : List UInt8) :
    Keeps db (db.putRecord kind id bytes) := by
  refine ⟨rfl, rfl, fun id' bytes' h => ?_⟩
  rw [records_putRecord, if_neg fun h => hkind h.1]
  exact h

lemma keeps_deleteRecords (hkind : .guildCheckpointGeneration ≠ kind) (p : List UInt8 → Bool) :
    Keeps db (db.deleteRecords kind p) := by
  refine ⟨rfl, rfl, fun id' bytes' h => ?_⟩
  rw [records_deleteRecords hkind]
  exact h

variable {bytes : List UInt8}

lemma insertImmutable_eq_ok {id : List UInt8} :
    db.insertImmutable kind id bytes = .ok db' ↔
      (∀ stored ∈ db.records kind id, stored = bytes) ∧ db' = db.putRecord kind id bytes := by
  rw [insertImmutable]
  simp only [bind_eq_ok, reject_eq_ok, exists_unit, pure_eq_ok]
  simp only [isSomeAnd]
  push Not
  rw [eq_comm (a := db')]

/-- An entry that is there is not changed. -/
lemma keeps_insertImmutable {id : List UInt8} (h : db.insertImmutable kind id bytes = .ok db') :
    Keeps db db' := by
  obtain ⟨hsame, rfl⟩ := insertImmutable_eq_ok.mp h
  refine ⟨rfl, rfl, fun id' bytes' hid => ?_⟩
  rw [records_putRecord]
  split
  · rename_i heq
    obtain ⟨rfl, rfl⟩ := heq
    rw [hsame bytes' hid]
  · exact hid

variable {hash : Bytes 32} {generation : U64}

lemma keeps_insertCheckpointGeneration
    (h : db.insertCheckpointGeneration guildId generation hash = .ok db') : Keeps db db' := by
  obtain ⟨id, -, h⟩ := bind_eq_ok.mp h
  exact keeps_insertImmutable h

lemma keeps_insertCheckpointLegacyEpoch {epoch : Option U64}
    (h : db.insertCheckpointLegacyEpoch hash epoch = .ok db') : Keeps db db' := by
  cases epoch with
  | none =>
    obtain rfl := pure_eq_ok.mp h
    exact .refl _
  | some epoch => exact keeps_insertImmutable h

lemma upsertLock_eq_ok :
    db.upsertLock guildId row = .ok db' ↔ row.generation ≠ 0 ∧
        db' = { db with locks := Function.update db.locks guildId (some row) } := by
  rw [upsertLock]
  simp only [bind_eq_ok, reject_eq_ok, exists_unit, pure_eq_ok]
  rw [eq_comm (a := db')]

lemma upsertHead_eq_ok :
    db.upsertHead guildId row = .ok db' ↔ row.generation ≠ 0 ∧
        db' = { db with heads := Function.update db.heads guildId (some row) } := by
  rw [upsertHead]
  simp only [bind_eq_ok, reject_eq_ok, exists_unit, pure_eq_ok]
  rw [eq_comm (a := db')]

/-! ## Operations -/

/-- What a vote has written, and what it found. -/
structure VoteSpec (guildId : Bytes 32) (row : CheckpointRow) (db db' : ControlStore) : Prop where
  writes : Writes guildId (some row) (db.heads guildId) db db'
  allowed : db.locks guildId = some row ∨
    ((∀ lock ∈ db.locks guildId, supersedes (db.heads guildId) lock) ∧
      (∀ head ∈ db.heads guildId, row.generation.val = head.generation.val + 1) ∧
      (db.heads guildId = none → row.generation = 1))

/-- What a decision has written, and what it found: the same head, or none, or the parent. -/
structure DecisionSpec (c : Commit) (db db' : ControlStore) : Prop where
  writes : Writes c.guildId (some c.lockRow) (some c.headRow) db db'
  generation_ne : c.generation ≠ 0
  allowed : db.heads c.guildId = some c.headRow ∨ ∀ head ∈ db.heads c.guildId,
      c.generation.val = head.generation.val + 1 ∧ c.parent = some head.hash

lemma lockCheckpointSignature_spec {parent : Option (Bytes 32)}
    (h : db.lockCheckpointSignature guildId generation parent hash bytes = .ok db') :
    VoteSpec guildId ⟨generation, hash, bytes⟩ db db' := by
  have h := past h
  split at h
  · rename_i hlocked
    obtain rfl := pure_eq_ok.mp h
    exact ⟨⟨by rw [← hlocked, Function.update_eq_self], by rw [Function.update_eq_self],
      fun _ _ h => h⟩, .inl hlocked⟩
  · obtain ⟨_, hfree, h⟩ := bind_eq_ok.mp h
    obtain ⟨_, hnext, h⟩ := bind_eq_ok.mp h
    obtain ⟨-, rfl⟩ := upsertLock_eq_ok.mp h
    have hfree := reject_eq_ok.mp hfree
    have hnext := not_not.mp (reject_eq_ok.mp hnext)
    simp only [isSomeAnd] at hfree
    push Not at hfree
    refine ⟨⟨rfl, by rw [Function.update_eq_self], fun _ _ h => h⟩, .inr ⟨hfree, ?_, ?_⟩⟩
    · intro head hhead
      rw [Option.mem_def.mp hhead, lockable, decide_eq_true_iff] at hnext
      exact U64.checkedSucc_eq_some.mp hnext.1
    · intro hnone
      rw [hnone, lockable, decide_eq_true_iff] at hnext
      exact hnext.2.1

/-- The writes of a new head. -/
lemma installHead_spec (h : db.installHead c = .ok db') :
    Writes c.guildId (db.locks c.guildId) (some c.headRow) db db' ∧ c.generation ≠ 0 := by
  obtain ⟨db₁, h₁, h₂⟩ := bind_eq_ok.mp h
  obtain ⟨hne, rfl⟩ := upsertHead_eq_ok.mp h₁
  have hput : Keeps db (db.putRecord .guildCheckpoint c.hash.toList c.certificate) :=
    keeps_putRecord (by decide) _ _
  have hindex := keeps_insertCheckpointGeneration h₂
  refine ⟨⟨?_, ?_, fun id bytes hid => hindex.index id bytes (hput.index id bytes hid)⟩, hne⟩
  · rw [hindex.locks_eq, Function.update_eq_self]
    rfl
  · rw [hindex.heads_eq]
    rfl

lemma Writes.then_keeps {lock : Option CheckpointRow} (h : Writes guildId lock head db₁ db₂)
    (h' : Keeps db₂ db₃) : Writes guildId lock head db₁ db₃ :=
  ⟨h'.locks_eq.trans h.locks_eq, h'.heads_eq.trans h.heads_eq,
    fun id bytes hid => h'.index id bytes (h.index id bytes hid)⟩

lemma Writes.then_upsertLock {lock : Option CheckpointRow} (h : Writes guildId lock head db₁ db₂)
    (h' : db₂.upsertLock guildId row = .ok db₃) : Writes guildId (some row) head db₁ db₃ := by
  obtain ⟨-, rfl⟩ := upsertLock_eq_ok.mp h'
  exact ⟨by simp only [h.locks_eq, Function.update_idem], h.heads_eq, h.index⟩

/-- Nothing written is the old rows written. -/
lemma writes_self (db : ControlStore) (guildId : Bytes 32) :
    Writes guildId (db.locks guildId) (db.heads guildId) db db :=
  ⟨by rw [Function.update_eq_self], by rw [Function.update_eq_self], fun _ _ h => h⟩

/-- The lock row holds the commit afterwards: it was there, or it is written. -/
lemma Writes.then_lockUnlessRequired {requireSignatureLock : Bool} {lock : Option CheckpointRow}
    (h : Writes c.guildId lock head db₁ db₂)
    (hrequired : requireSignatureLock = true → lock = some c.lockRow)
    (h' : db₂.lockUnlessRequired c requireSignatureLock = .ok db₃) :
    Writes c.guildId (some c.lockRow) head db₁ db₃ := by
  cases requireSignatureLock with
  | true =>
    obtain rfl := pure_eq_ok.mp h'
    rw [← hrequired rfl]
    exact h
  | false => exact h.then_upsertLock h'

lemma generation_ne_of_insertCheckpointGeneration
    (h : db.insertCheckpointGeneration guildId generation hash = .ok db') : generation ≠ 0 := by
  obtain ⟨id, hid, -⟩ := bind_eq_ok.mp h
  obtain ⟨_, hrange, -⟩ := bind_eq_ok.mp hid
  have := reject_eq_ok.mp hrange
  push Not at this
  exact this.1

variable {legacyEpoch : Option U64}

lemma commitCheckpointWithLegacyEpoch_spec {requireSignatureLock : Bool}
    (h : db.commitCheckpointWithLegacyEpoch c requireSignatureLock legacyEpoch = .ok db') :
    DecisionSpec c db db' ∧
      (requireSignatureLock = true → db.locks c.guildId = some c.lockRow) := by
  have h := past h
  have h := past h
  obtain ⟨_, hlocked, h⟩ := bind_eq_ok.mp h
  have hlocked := reject_eq_ok.mp hlocked
  have hrequired : requireSignatureLock = true → db.locks c.guildId = some c.lockRow := by
    push Not at hlocked
    exact hlocked
  refine ⟨?_, hrequired⟩
  split at h
  · rename_i hhead
    obtain ⟨db₁, h₁, h⟩ := bind_eq_ok.mp h
    obtain ⟨db₂, h₂, h₃⟩ := bind_eq_ok.mp h
    have hwrites := (writes_self db c.guildId).then_lockUnlessRequired hrequired h₁
    rw [hhead] at hwrites
    exact ⟨(hwrites.then_keeps (keeps_insertCheckpointGeneration h₂)).then_keeps
      (keeps_insertCheckpointLegacyEpoch h₃), generation_ne_of_insertCheckpointGeneration h₂,
      .inl hhead⟩
  · obtain ⟨_, hnext, h⟩ := bind_eq_ok.mp h
    obtain ⟨db₁, h₁, h⟩ := bind_eq_ok.mp h
    obtain ⟨db₂, h₂, h₃⟩ := bind_eq_ok.mp h
    obtain ⟨hinstall, hne⟩ := installHead_spec h₁
    have hkeeps := hinstall.then_keeps (keeps_insertCheckpointLegacyEpoch h₂)
    refine ⟨hkeeps.then_lockUnlessRequired hrequired h₃, hne, .inr fun head hhead => ?_⟩
    have hnext := not_not.mp (reject_eq_ok.mp hnext)
    rw [Option.mem_def.mp hhead, committable, decide_eq_true_iff] at hnext
    exact ⟨U64.checkedSucc_eq_some.mp hnext.1, hnext.2⟩

lemma keeps_putRevisionHead {head : List UInt8 × List UInt8}
    (h : db.putRevisionHead guildId head = .ok db') : Keeps db db' := by
  have h := past h
  obtain rfl := pure_eq_ok.mp h
  exact keeps_putRecord (by decide) _ _

lemma keeps_finishRecovery (c : Commit) (completeRecoveryAttempt : Bool) :
    Keeps db (db.finishRecovery c completeRecoveryAttempt) := by
  rw [finishRecovery]
  split
  · refine ⟨rfl, rfl, fun id bytes h => ?_⟩
    rw [records_deleteRecords (by decide)]
    exact h
  · exact ⟨rfl, rfl, fun _ _ h => h⟩

lemma commitRecoveredCheckpoint_spec {heads : List (List UInt8 × List UInt8)}
    {completeRecoveryAttempt : Bool}
    (h : db.commitRecoveredCheckpoint c heads completeRecoveryAttempt = .ok db') :
    DecisionSpec c db db' := by
  have h := past h
  obtain ⟨_, hnext, h⟩ := bind_eq_ok.mp h
  obtain ⟨db₁, h₁, h⟩ := bind_eq_ok.mp h
  obtain ⟨db₂, h₂, h⟩ := bind_eq_ok.mp h
  obtain ⟨db₃, h₃, h⟩ := bind_eq_ok.mp h
  obtain rfl := pure_eq_ok.mp h
  obtain ⟨hinstall, hne⟩ := installHead_spec h₁
  have hlock := hinstall.then_upsertLock h₂
  have hput : ∀ (s : ControlStore) (head : List UInt8 × List UInt8) (t : ControlStore), True →
      s.putRevisionHead c.guildId head = .ok t → True ∧ Keeps s t :=
    fun _ _ _ _ h => ⟨trivial, keeps_putRevisionHead h⟩
  have hheads : Keeps (db₂.deleteRecords .userRevisionHead (isRevisionHeadOf c.guildId)) db₃ :=
    (replay_rel hput Keeps.refl Keeps.trans trivial h₃).2
  have hdelete : Keeps db₂ (db₂.deleteRecords .userRevisionHead (isRevisionHeadOf c.guildId)) :=
    keeps_deleteRecords (by decide) _
  refine ⟨hlock.then_keeps ((hdelete.trans hheads).trans (keeps_finishRecovery c _)), hne, ?_⟩
  have hnext := reject_eq_ok.mp hnext
  simp only [isSomeAnd] at hnext
  push Not at hnext
  cases hhead : db.heads c.guildId with
  | none => exact .inr fun _ h => by cases h
  | some head =>
    by_cases heq : head = c.headRow
    · exact .inl (by rw [heq])
    · refine .inr fun head' hhead' => ?_
      obtain rfl := Option.some.inj hhead'
      obtain ⟨hsucc, hparent⟩ := hnext head hhead heq
      exact ⟨U64.checkedSucc_eq_some.mp hsucc, hparent⟩

/-! ## When a commit succeeds -/

/-- The immutable records of a store admit a commit: the generation has no other checkpoint in the
index, and the checkpoint no other epoch. -/
structure Recordable (db : ControlStore) (c : Commit) (legacyEpoch : Option U64) : Prop where
  epoch_ne : legacyEpoch ≠ some 0
  index : ∀ stored ∈ db.records .guildCheckpointGeneration
    (c.guildId.toList ++ c.generation.toBeBytes), stored = c.hash.toList
  epoch : ∀ epoch ∈ legacyEpoch, ∀ stored ∈ db.records .guildCheckpointLegacyEpoch c.hash.toList,
    stored = epoch.toBeBytes

lemma insertCheckpointGeneration_eq_ok (hne : generation ≠ 0) (hmax : generation.val ≤ i64Max) :
    db.insertCheckpointGeneration guildId generation hash = .ok db' ↔
      (∀ stored ∈ db.records .guildCheckpointGeneration (guildId.toList ++ generation.toBeBytes),
        stored = hash.toList) ∧
      db' = db.putRecord .guildCheckpointGeneration (guildId.toList ++ generation.toBeBytes)
        hash.toList := by
  have hid : checkpointGenerationRecordId guildId generation =
      .ok (guildId.toList ++ generation.toBeBytes) := by
    rw [checkpointGenerationRecordId, bind_eq_ok]
    refine ⟨(), reject_eq_ok.mpr ?_, rfl⟩
    push Not
    exact ⟨hne, hmax⟩
  rw [insertCheckpointGeneration, hid, ok_bind, insertImmutable_eq_ok]

lemma insertCheckpointLegacyEpoch_succeeds_iff :
    Succeeds (db.insertCheckpointLegacyEpoch hash legacyEpoch) ↔
      ∀ epoch ∈ legacyEpoch, ∀ stored ∈ db.records .guildCheckpointLegacyEpoch hash.toList,
        stored = epoch.toBeBytes := by
  cases legacyEpoch with
  | none =>
    constructor
    · rintro - epoch' hepoch
      cases hepoch
    · intro _
      exact ⟨db, rfl⟩
  | some epoch =>
    constructor
    · rintro ⟨db', h⟩ epoch' hepoch
      obtain rfl := Option.some.inj hepoch
      exact (insertImmutable_eq_ok.mp h).1
    · intro h
      exact ⟨_, insertImmutable_eq_ok.mpr ⟨h epoch rfl, rfl⟩⟩

/-- A successor of the head is committed, without its lock, exactly when the immutable records
admit it. -/
lemma commit_succeeds_iff {head : CheckpointRow} (hhead : db.heads c.guildId = some head)
    (hnext : succeeds head c.generation c.parent) (hmax : c.generation.val ≤ i64Max) :
    Succeeds (db.commitCheckpointWithLegacyEpoch c false legacyEpoch) ↔
      Recordable db c legacyEpoch := by
  have hgen : c.generation.val = head.generation.val + 1 := U64.checkedSucc_eq_some.mp hnext.1
  have hne : c.generation ≠ 0 := by
    intro hzero
    rw [hzero, Fin.val_zero] at hgen
    omega
  have hnew : ¬ db.heads c.guildId = some c.headRow := by
    intro hsame
    rw [hhead] at hsame
    have hsame' : head.generation = c.generation :=
      congrArg CheckpointRow.generation (Option.some.inj hsame)
    rw [hsame'] at hgen
    omega
  have hcommittable : committable (db.heads c.guildId) c.generation c.parent false = true := by
    rw [hhead, committable]
    exact decide_eq_true hnext
  -- the store when the index is written: a new record and a new head, no other record changed
  let written : ControlStore := { db.putRecord .guildCheckpoint c.hash.toList c.certificate with
      heads := Function.update db.heads c.guildId (some c.headRow) }
  have hindex : ∀ kind, kind ≠ .guildCheckpoint → written.records kind = db.records kind :=
    fun kind hkind => Function.update_of_ne hkind _ _
  have hinstall : ∀ db', db.installHead c = .ok db' ↔
      written.insertCheckpointGeneration c.guildId c.generation c.hash = .ok db' := by
    intro db'
    rw [installHead, bind_eq_ok]
    constructor
    · rintro ⟨db₁, h₁, h⟩
      obtain ⟨-, rfl⟩ := upsertHead_eq_ok.mp h₁
      exact h
    · intro h
      exact ⟨written, upsertHead_eq_ok.mpr ⟨hne, rfl⟩, h⟩
  constructor
  · rintro ⟨db', h⟩
    rw [commitCheckpointWithLegacyEpoch] at h
    simp only [bind_eq_ok, reject_eq_ok, exists_unit, if_neg hnew] at h
    obtain ⟨-, hepoch, -, -, db₁, h₁, db₂, h₂, -⟩ := h
    obtain ⟨hsame, rfl⟩ := (insertCheckpointGeneration_eq_ok hne hmax).mp ((hinstall db₁).mp h₁)
    have hlegacy := insertCheckpointLegacyEpoch_succeeds_iff.mp ⟨db₂, h₂⟩
    refine ⟨hepoch, ?_, fun epoch he stored hstored => hlegacy epoch he stored ?_⟩
    · rwa [hindex _ (by decide)] at hsame
    · rw [records_putRecord, if_neg (by simp), hindex _ (by decide)]
      exact hstored
  · intro hrecord
    have hsame := hrecord.index
    rw [← hindex .guildCheckpointGeneration (by decide)] at hsame
    have hinserted := (insertCheckpointGeneration_eq_ok hne hmax).mpr ⟨hsame, rfl⟩
    have hlegacy : Succeeds ((written.putRecord .guildCheckpointGeneration
        (c.guildId.toList ++ c.generation.toBeBytes) c.hash.toList).insertCheckpointLegacyEpoch
          c.hash legacyEpoch) := by
      refine insertCheckpointLegacyEpoch_succeeds_iff.mpr fun epoch he stored hstored => ?_
      rw [records_putRecord, if_neg (by simp), hindex _ (by decide)] at hstored
      exact hrecord.epoch epoch he stored hstored
    obtain ⟨db₂, h₂⟩ := hlegacy
    obtain ⟨db₃, h₃⟩ : ∃ db₃, db₂.lockUnlessRequired c false = .ok db₃ :=
      ⟨_, upsertLock_eq_ok.mpr ⟨hne, rfl⟩⟩
    refine ⟨db₃, ?_⟩
    rw [commitCheckpointWithLegacyEpoch]
    simp only [bind_eq_ok, reject_eq_ok, exists_unit, if_neg hnew]
    exact ⟨not_lt.mpr hmax, hrecord.epoch_ne, by simp, by rw [hcommittable]; simp, _,
      (hinstall _).mpr hinserted, db₂, h₂, h₃⟩

/-! ## Slots -/

end ControlStore

/-- The row as a ballot. -/
def CheckpointRow.ballot (row : CheckpointRow) : Ballot (Bytes 32) := ⟨row.generation.val, row.hash⟩

namespace ControlStore

/-- The registers of a guild. -/
def slot (db : ControlStore) (guildId : Bytes 32) : VoteSlot (Bytes 32) :=
  ⟨(db.locks guildId).map CheckpointRow.ballot, (db.heads guildId).map CheckpointRow.ballot⟩

variable {db db' : ControlStore}

lemma mem_slot_lock {k : Ballot (Bytes 32)} :
    k ∈ (db.slot guildId).lock ↔ ∃ row ∈ db.locks guildId, row.ballot = k :=
  Option.mem_map

lemma mem_slot_head {r : Ballot (Bytes 32)} :
    r ∈ (db.slot guildId).head ↔ ∃ row ∈ db.heads guildId, row.ballot = r :=
  Option.mem_map

lemma Writes.slot_eq {lock : Option CheckpointRow} (h : Writes guildId lock head db db') :
    db'.slot guildId = ⟨lock.map CheckpointRow.ballot, head.map CheckpointRow.ballot⟩ := by
  rw [slot, h.locks_eq, h.heads_eq, Function.update_self, Function.update_self]

lemma Writes.slot_of_ne {other : Bytes 32} {lock : Option CheckpointRow}
    (h : Writes guildId lock head db db') (hne : other ≠ guildId) :
    db'.slot other = db.slot other := by
  rw [slot, h.locks_eq, h.heads_eq, Function.update_of_ne hne, Function.update_of_ne hne, slot]

/-- A head that is ahead of a lock is so as a ballot. -/
lemma exists_head_of_supersedes {lock : CheckpointRow} (h : supersedes (db.heads guildId) lock) :
    ∃ r ∈ (db.slot guildId).head, r = lock.ballot ∨ lock.ballot.generation < r.generation := by
  obtain ⟨head, hhead, ⟨hgen, hhash⟩ | hlt⟩ := h
  · refine ⟨head.ballot, mem_slot_head.mpr ⟨head, hhead, rfl⟩, .inl ?_⟩
    rw [CheckpointRow.ballot, CheckpointRow.ballot, hgen, hhash]
  · exact ⟨head.ballot, mem_slot_head.mpr ⟨head, hhead, rfl⟩, .inr hlt⟩

lemma VoteSpec.move (h : VoteSpec guildId row db db') (other : Bytes 32) :
    (db.slot other).Move (db'.slot other) := by
  by_cases hne : other = guildId
  · subst hne
    rw [h.writes.slot_eq]
    rcases h.allowed with hsame | ⟨hfree, hnext, hfirst⟩
    · rw [← hsame]
      exact .stay
    · refine .vote (fun k hk => ?_) (fun r hr => ?_) (fun hnone => ?_)
      · obtain ⟨lock, hlock, rfl⟩ := mem_slot_lock.mp hk
        exact exists_head_of_supersedes (hfree lock hlock)
      · obtain ⟨head, hhead, rfl⟩ := mem_slot_head.mp hr
        exact hnext head hhead
      · have hhead : db.heads other = none := Option.map_eq_none_iff.mp hnone
        exact congrArg Fin.val (hfirst hhead)
  · rw [h.writes.slot_of_ne hne]
    exact .stay

lemma DecisionSpec.move (h : DecisionSpec c db db') (other : Bytes 32) :
    (db.slot other).Move (db'.slot other) := by
  by_cases hne : other = c.guildId
  · subst hne
    rw [h.writes.slot_eq]
    rcases h.allowed with hsame | hnext
    · rw [← hsame]
      exact .replay (congrArg (Option.map CheckpointRow.ballot) hsame)
    · refine .install (fun r hr => ?_) (Nat.pos_of_ne_zero fun hzero => h.generation_ne ?_)
      · obtain ⟨head, hhead, rfl⟩ := mem_slot_head.mp hr
        exact (hnext head hhead).1
      · exact Fin.ext hzero
  · rw [h.writes.slot_of_ne hne]
    exact .stay

/-- A vote never moves the lock back. -/
lemma VoteSpec.not_regresses (h : VoteSpec guildId row db db') (other : Bytes 32) :
    ¬ (db.slot other).Regresses (db'.slot other) := by
  by_cases hne : other = guildId
  · subst hne
    rw [h.writes.slot_eq]
    rcases h.allowed with hsame | ⟨hfree, hnext, -⟩
    · rw [← hsame]
      exact VoteSlot.not_regresses_self
    · rintro ⟨k, hk, k', hk', hlt⟩
      obtain rfl := Option.some.inj hk'
      obtain ⟨lock, hlock, rfl⟩ := mem_slot_lock.mp hk
      obtain ⟨head, hhead, hahead⟩ := hfree lock hlock
      have hgen : row.generation.val = head.generation.val + 1 := hnext head hhead
      have hlt' : row.generation.val < lock.generation.val := hlt
      rcases hahead with ⟨heq, -⟩ | hpast
      · rw [heq] at hgen
        omega
      · have hpast' : lock.generation.val < head.generation.val := hpast
        omega
  · rw [h.writes.slot_of_ne hne]
    exact VoteSlot.not_regresses_self

/-- A decision moves the lock back only when it replays a head behind the lock. -/
lemma DecisionSpec.behind_of_regresses (h : DecisionSpec c db db') {other : Bytes 32}
    (hs : (db.slot other).Sound) (hreg : (db.slot other).Regresses (db'.slot other)) :
    db.heads c.guildId = some c.headRow ∧
      ∃ lock ∈ db.locks c.guildId, c.generation < lock.generation := by
  by_cases hne : other = c.guildId
  · subst hne
    rw [h.writes.slot_eq] at hreg
    obtain ⟨k, hk, k', hk', hlt⟩ := hreg
    obtain rfl := Option.some.inj hk'
    obtain ⟨lock, hlock, rfl⟩ := mem_slot_lock.mp hk
    refine ⟨h.allowed.resolve_right fun hnext => ?_, lock, hlock, hlt⟩
    have hlt' : c.generation.val < lock.generation.val := hlt
    cases hhead : db.heads c.guildId with
    | none =>
      have hfirst : lock.generation.val = 1 :=
        hs.first (Option.map_eq_none_iff.mpr hhead) lock.ballot hk
      exact h.generation_ne (Fin.ext (by rw [Fin.val_zero]; omega))
    | some head =>
      have hgen := (hnext head hhead).1
      rcases hs.head_le hk (mem_slot_head.mpr ⟨head, hhead, rfl⟩) with heq | hahead
      · have heq' : lock.generation.val = head.generation.val := congrArg Ballot.generation heq
        omega
      · have hahead' : lock.generation.val = head.generation.val + 1 := hahead
        omega
  · rw [h.writes.slot_of_ne hne] at hreg
    exact absurd hreg VoteSlot.not_regresses_self

/-! ## Sequences of operations -/

/-- The arguments of `lock_checkpoint_signature`. -/
structure Vote where
  guildId : Bytes 32
  generation : U64
  parent : Option (Bytes 32)
  hash : Bytes 32
  bytes : List UInt8
  deriving DecidableEq, Repr

/-- An operation on the lock and the head; `commit_checkpoint` has no legacy epoch. -/
inductive Operation where
  | lock (v : Vote)
  | commit (c : Commit) (requireSignatureLock : Bool) (legacyEpoch : Option U64)
  | commitRecovered (c : Commit) (localRevisionHeads : List (List UInt8 × List UInt8))
      (completeRecoveryAttempt : Bool)
  deriving DecidableEq, Repr

namespace Operation

section

variable (db : ControlStore)

/-- The operation on a store. -/
def apply : Operation → Outcome DatabaseError ControlStore
  | lock v => db.lockCheckpointSignature v.guildId v.generation v.parent v.hash v.bytes
  | commit c requireSignatureLock legacyEpoch =>
    db.commitCheckpointWithLegacyEpoch c requireSignatureLock legacyEpoch
  | commitRecovered c localRevisionHeads completeRecoveryAttempt =>
    db.commitRecoveredCheckpoint c localRevisionHeads completeRecoveryAttempt

/-- The store after the operation, successful or not. -/
def next (op : Operation) : ControlStore := (assign db (op.apply db)).1

/-- The operation replays the head and overwrites a lock of a later generation. -/
def ReplaysBehindLock : Operation → Prop
  | lock _ => False
  | commit c requireSignatureLock _ =>
    requireSignatureLock = false ∧ db.heads c.guildId = some c.headRow ∧
      ∃ lock ∈ db.locks c.guildId, c.generation < lock.generation
  | commitRecovered c _ _ =>
    db.heads c.guildId = some c.headRow ∧ ∃ lock ∈ db.locks c.guildId,
      c.generation < lock.generation

end

variable {op : Operation}

lemma move_of_apply (h : op.apply db = .ok db') (guildId : Bytes 32) :
    (db.slot guildId).Move (db'.slot guildId) := by
  cases op with
  | lock v => exact (lockCheckpointSignature_spec h).move guildId
  | commit => exact (commitCheckpointWithLegacyEpoch_spec h).1.move guildId
  | commitRecovered => exact (commitRecoveredCheckpoint_spec h).move guildId

lemma next_of_ok (h : op.apply db = .ok db') : op.next db = db' := by
  rw [next, h, assign]

lemma next_of_error (h : ¬ Succeeds (op.apply db)) : op.next db = db := by
  rw [next]
  cases hop : op.apply db with
  | ok db' => exact absurd ⟨db', hop⟩ h
  | error e => rfl

/-- Every operation is a move. -/
lemma move (db : ControlStore) (op : Operation) (guildId : Bytes 32) :
    (db.slot guildId).Move ((op.next db).slot guildId) := by
  by_cases h : Succeeds (op.apply db)
  · obtain ⟨db', h⟩ := h
    rw [next_of_ok h]
    exact move_of_apply h guildId
  · rw [next_of_error h]
    exact .stay

/-- The lock moves back only in a successful replay behind it. -/
lemma not_regresses (hs : (db.slot guildId).Sound)
    (hno : Succeeds (op.apply db) → ¬ op.ReplaysBehindLock db) :
    ¬ (db.slot guildId).Regresses ((op.next db).slot guildId) := by
  by_cases h : Succeeds (op.apply db)
  · have hbehind := hno h
    obtain ⟨db', h⟩ := h
    rw [next_of_ok h]
    intro hreg
    cases op with
    | lock v => exact (lockCheckpointSignature_spec h).not_regresses guildId hreg
    | commit c requireSignatureLock =>
      obtain ⟨hspec, hrequired⟩ := commitCheckpointWithLegacyEpoch_spec h
      obtain ⟨hhead, lock, hlock, hlt⟩ := hspec.behind_of_regresses hs hreg
      cases requireSignatureLock with
      | true =>
        obtain rfl := Option.some.inj ((hrequired rfl).symm.trans hlock)
        exact lt_irrefl _ hlt
      | false => exact hbehind ⟨rfl, hhead, lock, hlock, hlt⟩
    | commitRecovered c =>
      exact hbehind ((commitRecoveredCheckpoint_spec h).behind_of_regresses hs hreg)
  · rw [next_of_error h]
    exact VoteSlot.not_regresses_self

/-- A successful replay behind the lock leaves the lock at the replayed generation. -/
lemma locks_of_replaysBehindLock (h : op.apply db = .ok db') (hbehind : op.ReplaysBehindLock db) :
    ∃ guildId row, db'.locks guildId = some row ∧
      ∃ lock ∈ db.locks guildId, row.generation < lock.generation := by
  have hwritten : ∀ c : Commit, DecisionSpec c db db' → db'.locks c.guildId = some c.lockRow := by
    intro c hspec
    rw [hspec.writes.locks_eq, Function.update_self]
  cases op with
  | lock => exact hbehind.elim
  | commit c =>
    have hspec := (commitCheckpointWithLegacyEpoch_spec h).1
    exact ⟨c.guildId, c.lockRow, hwritten c hspec, hbehind.2.2⟩
  | commitRecovered c =>
    have hspec := commitRecoveredCheckpoint_spec h
    exact ⟨c.guildId, c.lockRow, hwritten c hspec, hbehind.2⟩

end Operation

/-- The store after a sequence of operations on an empty one. -/
def after (ops : List Operation) : ControlStore := ops.foldl (fun db op => op.next db) empty

lemma after_append (ops ops' : List Operation) :
    after (ops ++ ops') = ops'.foldl (fun db op => op.next db) (after ops) :=
  List.foldl_append

/-- No successful operation of the sequence replays the head behind the lock. -/
def NoReplayBehindLock (ops : List Operation) : Prop :=
  ∀ before op rest, ops = before ++ op :: rest → Succeeds (op.apply (after before)) →
    ¬ op.ReplaysBehindLock (after before)

/-- **What the lock is for.** The locked generation never decreases; and after a vote, a vote for
another checkpoint of the same generation succeeds only when that checkpoint is the head. -/
structure LockDurable (ops : List Operation) : Prop where
  monotone : ∀ before between rest, ops = before ++ between ++ rest → ∀ guildId,
    ∀ lock ∈ (after before).locks guildId,
      ∃ later ∈ (after (before ++ between)).locks guildId, lock.generation ≤ later.generation
  exclusive : ∀ before (v : Vote) between (w : Vote) rest,
    ops = before ++ .lock v :: between ++ .lock w :: rest →
    Succeeds ((Operation.lock v).apply (after before)) →
    Succeeds ((Operation.lock w).apply (after (before ++ .lock v :: between))) →
    w.guildId = v.guildId → w.generation = v.generation → w.hash ≠ v.hash →
    ∃ head ∈ (after (before ++ .lock v :: between)).heads w.guildId,
      head.generation = w.generation ∧ head.hash = w.hash

lemma sound_after (ops : List Operation) (guildId : Bytes 32) :
    ((after ops).slot guildId).Sound :=
  foldl_invariant (P := fun db : ControlStore => (db.slot guildId).Sound) (Q := fun _ _ => True)
    (fun db op hs _ => hs.of_move (op.move db guildId)) VoteSlot.sound_empty fun _ _ _ _ => trivial

/-- A vote keeps its meaning to the end of a sequence without replays behind the lock. -/
lemma voted_after {before between : List Operation} (hno : NoReplayBehindLock (before ++ between))
    {b : Ballot (Bytes 32)} (hb : b ∈ ((after before).slot guildId).lock) :
    VoteSlot.Voted b ((after (before ++ between)).slot guildId) := by
  rw [after_append]
  have hstart : ((after before).slot guildId).Sound ∧
      VoteSlot.Voted b ((after before).slot guildId) :=
    ⟨sound_after before guildId, VoteSlot.voted_self hb⟩
  refine (foldl_invariant
    (P := fun db : ControlStore => (db.slot guildId).Sound ∧ VoteSlot.Voted b (db.slot guildId))
    (Q := fun db (op : Operation) => Succeeds (op.apply db) → ¬ op.ReplaysBehindLock db)
    ?_ hstart ?_).2
  · rintro db op ⟨hs, hvoted⟩ hop
    have hmove := op.move db guildId
    exact ⟨hs.of_move hmove, hvoted.of_move hs hmove (Operation.not_regresses hs hop)⟩
  · intro first op rest hsplit
    have hall := hno (before ++ first) op rest (by rw [hsplit, List.append_assoc])
    rw [after_append] at hall
    exact hall

lemma NoReplayBehindLock.of_append {ops rest : List Operation}
    (h : NoReplayBehindLock (ops ++ rest)) : NoReplayBehindLock ops := by
  intro before op rest' hsplit
  exact h before op (rest' ++ rest) (by rw [hsplit, List.append_assoc, List.cons_append])

/-- The lock after a successful vote. -/
lemma mem_lock_of_vote {v : Vote} (h : Succeeds ((Operation.lock v).apply db)) :
    (⟨v.generation.val, v.hash⟩ : Ballot (Bytes 32)) ∈
      (((Operation.lock v).next db).slot v.guildId).lock := by
  obtain ⟨db', h⟩ := h
  rw [Operation.next_of_ok h, (lockCheckpointSignature_spec h).writes.slot_eq]
  rfl

/-- A vote that has kept its meaning admits a vote for another checkpoint of its generation only
when that one is the head. -/
lemma exists_head_of_voted {w : Vote} {b : Ballot (Bytes 32)}
    (hw : Succeeds ((Operation.lock w).apply db))
    (hvoted : VoteSlot.Voted b (((Operation.lock w).next db).slot w.guildId))
    (hgen : w.generation.val = b.generation) (hne : w.hash ≠ b.hash) :
    ∃ head ∈ db.heads w.guildId, head.generation = w.generation ∧ head.hash = w.hash := by
  have hlock := mem_lock_of_vote hw
  obtain ⟨db', hw⟩ := hw
  have hheads : ((Operation.lock w).next db).heads = db.heads := by
    rw [Operation.next_of_ok hw, (lockCheckpointSignature_spec hw).writes.heads_eq,
      Function.update_eq_self]
  obtain ⟨k, hk, hcase⟩ := hvoted
  obtain rfl := Option.some.inj (hlock.symm.trans hk)
  rcases hcase with hpast | ⟨-, hsame | hhead⟩
  · exact absurd hgen hpast.ne'
  · exact absurd (congrArg Ballot.hash hsame) hne
  · obtain ⟨head, hmem, hballot⟩ := mem_slot_head.mp hhead
    rw [hheads] at hmem
    exact ⟨head, hmem, Fin.ext (congrArg Ballot.generation hballot), congrArg Ballot.hash hballot⟩

/-- **The signature lock is durable exactly when no replay of the head overwrites it.** -/
theorem signature_lock_durable_iff (ops : List Operation) :
    LockDurable ops ↔ NoReplayBehindLock ops := by
  constructor
  · intro h before op rest hsplit hop hbehind
    obtain ⟨db', hop⟩ := hop
    obtain ⟨guildId, row, hrow, lock, hlock, hlt⟩ :=
      Operation.locks_of_replaysBehindLock hop hbehind
    have hafter : after (before ++ [op]) = db' := by
      rw [after_append, List.foldl_cons, List.foldl_nil, Operation.next_of_ok hop]
    obtain ⟨later, hlater, hle⟩ := h.monotone before [op] rest
      (by rw [hsplit, List.append_assoc, List.singleton_append]) guildId lock hlock
    rw [hafter] at hlater
    obtain rfl := Option.some.inj (hrow.symm.trans hlater)
    exact absurd hlt (not_lt.mpr hle)
  · intro hno
    refine ⟨fun before between rest hsplit guildId lock hlock => ?_,
      fun before v between w rest hsplit hv hw hguild hgen hne => ?_⟩
    · rw [hsplit] at hno
      have hvoted := voted_after hno.of_append (mem_slot_lock.mpr ⟨lock, hlock, rfl⟩)
      obtain ⟨k, hk, hle⟩ := hvoted.generation_le
      obtain ⟨later, hlater, rfl⟩ := mem_slot_lock.mp hk
      exact ⟨later, hlater, hle⟩
    · -- the first vote has kept its meaning up to and including the second one
      have hsplit' : ops = (before ++ [.lock v]) ++ (between ++ [.lock w]) ++ rest := by
        simp [hsplit]
      have hstate : after ((before ++ [.lock v]) ++ (between ++ [.lock w])) =
          (Operation.lock w).next (after (before ++ .lock v :: between)) := by
        have hlist : (before ++ [.lock v]) ++ (between ++ [.lock w]) =
            (before ++ .lock v :: between) ++ [.lock w] := by simp
        rw [hlist, after_append]
        rfl
      have hfirst : (⟨v.generation.val, v.hash⟩ : Ballot (Bytes 32)) ∈
          ((after (before ++ [.lock v])).slot w.guildId).lock := by
        rw [after_append, hguild]
        exact mem_lock_of_vote hv
      rw [hsplit'] at hno
      have hvoted := voted_after hno.of_append hfirst
      rw [hstate] at hvoted
      exact exists_head_of_voted hw hvoted (congrArg Fin.val hgen) hne

/-! ### A forgotten vote

A guild commits its first checkpoint, the node votes for a second one, and the first is committed
again without the lock requirement.  The node can then vote for another second checkpoint. -/

/-- The first checkpoint. -/
def firstCommit : Commit :=
  { guildId := 7, generation := 1, parent := none, hash := 11, body := [1], certificate := [1, 1] }

/-- A vote for a second checkpoint. -/
def secondVote (hash : Bytes 32) (body : UInt8) : Vote :=
  { guildId := 7, generation := 2, parent := some 11, hash := hash, bytes := [body] }

/-- The sequence up to the replay. -/
def forgetfulOps : List Operation :=
  [.commit firstCommit false none, .lock (secondVote 21 2), .commit firstCommit false none]

theorem forgotten_vote :
    ((after (forgetfulOps.take 2)).locks 7).map CheckpointRow.generation = some 2 ∧
      ((after forgetfulOps).locks 7).map CheckpointRow.generation = some 1 ∧
      Succeeds ((Operation.lock (secondVote 21 2)).apply (after (forgetfulOps.take 1))) ∧
      Succeeds ((Operation.lock (secondVote 22 3)).apply (after forgetfulOps)) ∧
      ((after forgetfulOps).heads 7).map CheckpointRow.generation = some 1 ∧
      ¬ LockDurable (forgetfulOps ++ [.lock (secondVote 22 3)]) := by
  have hsecond :
      Succeeds ((Operation.lock (secondVote 21 2)).apply (after (forgetfulOps.take 1))) := by
    decide +kernel
  have hthird : Succeeds ((Operation.lock (secondVote 22 3)).apply (after forgetfulOps)) := by
    decide +kernel
  have hhead : ((after forgetfulOps).heads 7).map CheckpointRow.generation = some 1 := by
    decide +kernel
  refine ⟨by decide +kernel, by decide +kernel, hsecond, hthird, hhead, fun h => ?_⟩
  obtain ⟨head, hmem, hgen, -⟩ := h.exclusive [.commit firstCommit false none] (secondVote 21 2)
    [.commit firstCommit false none] (secondVote 22 3) [] rfl hsecond hthird rfl rfl (by decide)
  have hgen' : ((after forgetfulOps).heads 7).map CheckpointRow.generation = some 2 := by
    rw [show (after forgetfulOps).heads 7 = some head from hmem, Option.map_some, hgen]
    rfl
  exact absurd (hhead.symm.trans hgen') (by decide)

end ControlStore

end MutualBackup
