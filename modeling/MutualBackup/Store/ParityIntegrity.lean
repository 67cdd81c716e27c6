import MutualBackup.Store.ParityEffect

/-!
# Integrity of the parity store

What holds of the rows after any sequence of operations.  `Fate` reads the effects of an operation
at one key of `parity_objects`: the row is kept, deleted by an operation that names it, revised in
its receipt or in its state, or inserted.

An upload is followed by the ranges that were accepted under the open reservation
(`acceptedRanges`).  A range is accepted when it starts where the upload stands, or when it repeats
bytes that are there; `concatenation` puts the first kind together, and the invariant `Uploading`
says that the written part of the reservation is that, with every accepted range in its place.

`finish_coding_attempt_upload` has a second way to succeed: when the object is already there, under
the same attempt and commitment, the reservation is dropped and nothing is stored.  The ranges of
the reservation are then not what the object holds (`finished_without_storing`), so the statement
about uploads is about the finish that stores the object.
-/

namespace MutualBackup

open Framework List

namespace ParityStore

variable {C : Crypto} {db db' : ParityStore} {op : Operation} {key : ParityKey}

/-! ## One object -/

/-- How an operation can change a row that stays. -/
inductive Revised (op : Operation) (key : ParityKey) (stored row : ParityRow) : Prop
  | acknowledged {receipt : List UInt8}
      (hrow : row.toParityColumns = { stored.toParityColumns with acknowledgement := receipt })
  | activated {attemptId : Bytes 16} {commitment : MerkleCommitment} {verificationHash : Bytes 32}
      (hop : op = .activateAttemptObject attemptId (ofLex key).1 (ofLex key).2 commitment
        verificationHash)
      (hformat : stored.formatVersion = 2) (hattempt : stored.attemptId = some attemptId)
      (hstate : stored.state = .staged)
      (hrow : row.toParityColumns = { stored.toParityColumns with
        state := .ready
        verificationHash := some verificationHash })
  | promoted (hformat : stored.formatVersion = 1) (hstate : stored.state = .staged)
      (hrow : row.toParityColumns = { stored.toParityColumns with state := .ready })

/-- How an operation can insert a row. -/
inductive Inserted (C : Crypto) (db : ParityStore) (op : Operation) (key : ParityKey)
    (row : ParityRow) : Prop
  | uploaded {attemptId : Bytes 16} {commitment : MerkleCommitment} {reservation : ReservationRow}
      (hop : op = .finishCodingAttemptUpload attemptId (ofLex key).1 (ofLex key).2 commitment)
      (hreservation : db.reservations.get (toLex (attemptId, (ofLex key).2)) = some reservation)
      (hwritten : reservation.writtenUntil = reservation.byteLength)
      (hcommit : merkleCommit C reservation.bytes = .ok commitment)
      (hrow : row.toParityColumns =
        ⟨2, reservation.guildId, commitment.root, reservation.byteLength, .staged,
          reservation.bytes, [], some attemptId, none⟩)
  | staged {attemptId : Bytes 16} {object : VariableParityObject} {stagedReceipt : List UInt8}
      {budgetBytes : U64} (hop : op = .stageAttempt attemptId object stagedReceipt budgetBytes)
      (hkey : key = toLex (object.groupId, object.shardIndex))
      (hcommit : merkleCommit C object.bytes = .ok object.commitment)
      (hrow : row.toParityColumns =
        ⟨2, object.guildId, object.commitment.root, object.bytes.length, .staged, object.bytes,
          stagedReceipt, some attemptId, none⟩)
  | copied {ready : ReadyVariableObject} {budgetBytes : U64}
      (hop : op = .copyReadyVariableObject ready budgetBytes)
      (hkey : key = toLex (ready.object.groupId, ready.object.shardIndex))
      (hvalid : validateReadyVariableObject C ready = .ok ())
      (hrow : row.toParityColumns =
        ⟨2, ready.object.guildId, ready.object.commitment.root, ready.object.bytes.length, .ready,
          ready.object.bytes, ready.stagedReceipt, some ready.attemptId,
          some ready.verificationHash⟩)
  | published (hformat : row.formatVersion = 1)

/-- What has become of the row of a key. -/
inductive Fate (C : Crypto) (db : ParityStore) (op : Operation) (key : ParityKey) :
    Option ParityRow → Prop
  | kept {row : Option ParityRow} (h : row = db.objects.get key) : Fate C db op key row
  | deleted {stored : ParityRow} (hstored : db.objects.get key = some stored)
      (hname : op.NamesObject key stored.attemptId) : Fate C db op key none
  | revised {stored row : ParityRow} (hstored : db.objects.get key = some stored)
      (h : Revised op key stored row) : Fate C db op key (some row)
  | inserted {row : ParityRow} (hnone : db.objects.get key = none) (h : Inserted C db op key row) :
      Fate C db op key (some row)

lemma Shrinks.fate (h : Shrinks op db db') (key : ParityKey) :
    Fate C db op key (db'.objects.get key) := by
  cases hstored : db.objects.get key with
  | none =>
    refine .kept ?_
    rw [hstored]
    refine Option.eq_none_iff_forall_ne_some.mpr fun row hrow => ?_
    rw [h.objects key row hrow] at hstored
    cases hstored
  | some stored =>
    by_cases hkept : db'.objects.get key = db.objects.get key
    · exact .kept hkept
    · have hname : op.NamesObject key stored.attemptId := by
        by_contra hname
        rw [h.kept_object key stored hstored hname, hstored] at hkept
        exact hkept rfl
      have hnone : db'.objects.get key = none := by
        refine Option.eq_none_iff_forall_ne_some.mpr fun row hrow => hkept ?_
        rw [hrow, h.objects key row hrow]
      rw [hnone]
      exact .deleted hstored hname

variable {row : ParityRow}

/-- A row that is written at one key is kept at the others. -/
lemma fate_put {written : ParityKey} (h : Fate C db op written (some row)) (key : ParityKey) :
    Fate C db op key ((db.objects.put written row).get key) := by
  by_cases hkey : written = key
  · subst hkey
    rw [Table.get_put_self]
    exact h
  · exact .kept (Table.get_put_of_ne hkey)

/-- **One object.** Every successful operation deals with the row of a key in one of these ways. -/
lemma fate_of_apply (h : op.apply C db = .ok db') (key : ParityKey) :
    Fate C db op key (db'.objects.get key) := by
  cases effect_of_apply h with
  | shrunk _ hshrinks => exact hshrinks.fate key
  | reserved => exact .kept rfl
  | rewritten => exact .kept rfl
  | appended => exact .kept rfl
  | uploaded hnone hreservation hwritten hcommit hrow =>
    exact fate_put (.inserted hnone (.uploaded rfl hreservation hwritten hcommit hrow)) key
  | acknowledged _ _ hstored hrow => exact fate_put (.revised hstored (.acknowledged hrow)) key
  | staged hnone hcommit hrow =>
    exact fate_put (.inserted hnone (.staged rfl rfl hcommit hrow)) key
  | activated hstored hformat hattempt hstate hrow =>
    exact fate_put (.revised hstored (.activated rfl hformat hattempt hstate hrow)) key
  | copied hnone hvalid _ hrow =>
    exact fate_put (.inserted hnone (.copied rfl rfl hvalid hrow)) key
  | published hnone hrow =>
    exact fate_put (.inserted hnone (.published (by rw [hrow]))) key
  | promoted hstored hformat hstate hrow =>
    exact fate_put (.revised hstored (.promoted hformat hstate hrow)) key

/-- The same for an operation that may fail. -/
lemma fate_next (op : Operation) (db : ParityStore) (key : ParityKey) :
    Fate C db op key ((op.next C db).objects.get key) := by
  by_cases h : Succeeds (op.apply C db)
  · obtain ⟨db', h⟩ := h
    rw [next_of_ok h]
    exact fate_of_apply h key
  · rw [next_of_error h]
    exact .kept rfl

/-- Where a row comes from. -/
lemma row_of_next (hrow : (op.next C db).objects.get key = some row) :
    db.objects.get key = some row ∨
      (∃ stored, db.objects.get key = some stored ∧ Revised op key stored row) ∨
      db.objects.get key = none ∧ Inserted C db op key row := by
  have hfate := fate_next (C := C) op db key
  rw [hrow] at hfate
  cases hfate with
  | kept h => exact .inl h.symm
  | revised hstored h => exact .inr (.inl ⟨_, hstored, h⟩)
  | inserted hnone h => exact .inr (.inr ⟨hnone, h⟩)

variable {stored : ParityRow}

/-- Who has deleted a row. -/
lemma names_of_next (hstored : db.objects.get key = some stored)
    (hnone : (op.next C db).objects.get key = none) : op.NamesObject key stored.attemptId := by
  have hfate := fate_next (C := C) op db key
  rw [hnone] at hfate
  cases hfate with
  | kept h =>
    rw [← h] at hstored
    cases hstored
  | deleted hother hname =>
    obtain rfl := Option.some.inj (hstored.symm.trans hother)
    exact hname

/-! ## What a row keeps -/

/-- Two versions of one row: the receipt and the state may differ. -/
structure SameShard (stored row : ParityRow) : Prop where
  formatVersion : row.formatVersion = stored.formatVersion
  root : row.root = stored.root
  byteLength : row.byteLength = stored.byteLength
  bytes : row.bytes = stored.bytes
  attemptId : row.attemptId = stored.attemptId

lemma SameShard.refl (row : ParityRow) : SameShard row row := ⟨rfl, rfl, rfl, rfl, rfl⟩

lemma SameShard.commitment (h : SameShard stored row) : row.commitment = stored.commitment := by
  rw [ParityRow.commitment, h.byteLength, h.root, ParityRow.commitment]

lemma Revised.sameShard (h : Revised op key stored row) : SameShard stored row := by
  cases h with
  | acknowledged hrow => constructor <;> rw [hrow]
  | activated _ _ _ _ hrow => constructor <;> rw [hrow]
  | promoted _ _ hrow => constructor <;> rw [hrow]

/-- A version of a row that was activated: everything but the receipt is the same. -/
structure SameActivation (stored row : ParityRow) : Prop extends SameShard stored row where
  state : row.state = stored.state
  verificationHash : row.verificationHash = stored.verificationHash

lemma SameActivation.refl (row : ParityRow) : SameActivation row row := ⟨.refl row, rfl, rfl⟩

lemma SameActivation.trans {r₁ r₂ r₃ : ParityRow} (h : SameActivation r₁ r₂)
    (h' : SameActivation r₂ r₃) : SameActivation r₁ r₃ where
  formatVersion := h'.formatVersion.trans h.formatVersion
  root := h'.root.trans h.root
  byteLength := h'.byteLength.trans h.byteLength
  bytes := h'.bytes.trans h.bytes
  attemptId := h'.attemptId.trans h.attemptId
  state := h'.state.trans h.state
  verificationHash := h'.verificationHash.trans h.verificationHash

lemma Revised.sameActivation (h : Revised op key stored row) (hready : stored.state = .ready) :
    SameActivation stored row := by
  refine ⟨h.sameShard, ?_, ?_⟩
  all_goals
    cases h with
    | acknowledged hrow => rw [hrow]
    | activated _ _ _ hstate _ =>
      rw [hready] at hstate
      cases hstate
    | promoted _ hstate _ =>
      rw [hready] at hstate
      cases hstate

/-- **The step.** A ready row stays as it is, or it is deleted by an operation that names it. -/
lemma ready_next (op : Operation) (hstored : db.objects.get key = some stored)
    (hready : stored.state = .ready) :
    (∃ row, (op.next C db).objects.get key = some row ∧ SameActivation stored row) ∨
      (op.next C db).objects.get key = none ∧ op.NamesObject key stored.attemptId := by
  cases hafter : (op.next C db).objects.get key with
  | none => exact .inr ⟨rfl, names_of_next hstored hafter⟩
  | some row =>
    refine .inl ⟨row, rfl, ?_⟩
    rcases row_of_next hafter with hkept | ⟨other, hother, hrevised⟩ | ⟨hnone, -⟩
    · obtain rfl := Option.some.inj (hstored.symm.trans hkept)
      exact .refl _
    · obtain rfl := Option.some.inj (hstored.symm.trans hother)
      exact hrevised.sameActivation hready
    · rw [hnone] at hstored
      cases hstored

/-! ## Commitments -/

/-- The bytes of every row of variable size have the commitment that the row records. -/
def Committed (C : Crypto) (db : ParityStore) : Prop :=
  ∀ key row, db.objects.get key = some row → row.formatVersion = 2 →
    merkleCommit C row.bytes = .ok row.commitment

variable {bytes : List UInt8}

lemma commitment_of_merkleCommit {commitment : MerkleCommitment}
    (h : merkleCommit C bytes = .ok commitment) (hroot : row.root = commitment.root)
    (hlen : row.byteLength = bytes.length) : row.commitment = commitment := by
  obtain ⟨hformat, hleaf, hbytes⟩ := merkleCommit_eq_ok C h
  have hlen : Fin.ofNat _ row.byteLength = commitment.byteLen := by
    rw [hlen, ← hbytes, Fin.ext_iff, Fin.val_ofNat]
    exact Nat.mod_eq_of_lt commitment.byteLen.isLt
  rw [ParityRow.commitment, hroot, hlen, ← hformat, ← hleaf]

lemma Inserted.committed (h : Inserted C db op key row) (hformat : row.formatVersion = 2) :
    merkleCommit C row.bytes = .ok row.commitment := by
  cases h with
  | @uploaded _ _ reservation _ _ _ hcommit hrow =>
    rw [commitment_of_merkleCommit hcommit (by rw [hrow])
      (by rw [hrow]; exact reservation.checks.2.2.2.symm), hrow]
    exact hcommit
  | staged _ _ hcommit hrow =>
    rw [commitment_of_merkleCommit hcommit (by rw [hrow]) (by rw [hrow]), hrow]
    exact hcommit
  | copied _ _ hvalid hrow =>
    obtain ⟨_, hobject, -⟩ := bind_eq_ok.mp hvalid
    have hcommit := merkleCommit_of_validate hobject
    rw [commitment_of_merkleCommit hcommit (by rw [hrow]) (by rw [hrow]), hrow]
    exact hcommit
  | published hlegacy =>
    rw [hlegacy] at hformat
    exact absurd hformat (by decide)

lemma Committed.next (h : Committed C db) (op : Operation) : Committed C (op.next C db) := by
  intro key row hrow hformat
  rcases row_of_next hrow with hkept | ⟨stored, hstored, hrevised⟩ | ⟨-, hinserted⟩
  · exact h key row hkept hformat
  · have hsame := hrevised.sameShard
    rw [hsame.bytes, hsame.commitment]
    exact h key stored hstored (hsame.formatVersion.symm.trans hformat)
  · exact hinserted.committed hformat

/-! ## Uploads -/

/-- The range that the operation has written, or written again, under a reservation. -/
def Operation.acceptedRange (C : Crypto) (db : ParityStore) (key : ReservationKey)
    (op : Operation) : Option (ℕ × List UInt8) :=
  (op.range.filter fun range => range.1 = key ∧ Succeeds (op.apply C db)).map Prod.snd

/-- One operation of a run that follows a reservation: the list is of the ranges accepted since the
reservation was opened, and it is empty while there is none. -/
def followUpload (C : Crypto) (key : ReservationKey) (s : ParityStore × List (ℕ × List UInt8))
    (op : Operation) : ParityStore × List (ℕ × List UInt8) :=
  (op.next C s.1,
    if ((op.next C s.1).reservations.get key).isSome then
      s.2 ++ (op.acceptedRange C s.1 key).toList
    else [])

/-- The ranges accepted under the open reservation of a key, after a sequence of operations. -/
def acceptedRanges (C : Crypto) (key : ReservationKey) (ops : List Operation) :
    List (ℕ × List UInt8) :=
  (ops.foldl (followUpload C key) (empty, [])).2

/-- The concatenation of the ranges that start where the ones before them end; any other is a
retry. -/
def concatenation (ranges : List (ℕ × List UInt8)) : List UInt8 :=
  ranges.foldl (fun data range => if range.1 = data.length then data ++ range.2 else data) []

lemma concatenation_append_singleton (ranges : List (ℕ × List UInt8)) (range : ℕ × List UInt8) :
    concatenation (ranges ++ [range]) =
      if range.1 = (concatenation ranges).length then concatenation ranges ++ range.2
      else concatenation ranges := by
  rw [concatenation, foldl_append]
  rfl

/-- The written part of a reservation is the concatenation of the accepted ranges, and every
accepted range is in its place. -/
structure Uploading (ranges : List (ℕ × List UInt8)) (row : ReservationRow) : Prop where
  written : row.bytes.take row.writtenUntil = concatenation ranges
  placed : ∀ range ∈ ranges, range.1 + range.2.length ≤ row.writtenUntil ∧
    slice row.bytes range.1 range.2.length = range.2

variable {ranges : List (ℕ × List UInt8)}

lemma Uploading.length {row : ReservationRow} (h : Uploading ranges row) :
    (concatenation ranges).length = row.writtenUntil := by
  obtain ⟨-, -, hle, hlen⟩ := row.checks
  rw [← h.written, length_take, hlen]
  exact min_eq_left hle

variable {offset : ℕ} {blob : List UInt8}

/-- A slice of a blob that lies in front of a written range is not changed by it. -/
lemma slice_overwrite_of_le {start len : ℕ} (hblob : offset ≤ blob.length)
    (h : start + len ≤ offset) :
    slice (overwrite blob offset bytes) start len = slice blob start len := by
  have hlen : (blob.take offset).length = offset := by rw [length_take, min_eq_left hblob]
  have hstart : start ≤ (blob.take offset).length := by omega
  rw [slice, slice, overwrite, append_assoc, drop_append_of_le_length hstart,
    take_append_of_le_length (by rw [length_drop]; omega), drop_take,
    take_take, min_eq_left (by omega)]

lemma slice_overwrite_self (h : offset ≤ blob.length) :
    slice (overwrite blob offset bytes) offset bytes.length = bytes := by
  have hlen : (blob.take offset).length = offset := by rw [length_take, min_eq_left h]
  rw [slice, overwrite, append_assoc, drop_left' hlen, take_left' rfl]

lemma take_overwrite (h : offset ≤ blob.length) :
    (overwrite blob offset bytes).take (offset + bytes.length) = blob.take offset ++ bytes := by
  refine take_left' ?_
  rw [length_append, length_take, min_eq_left h]

/-- A new reservation. -/
lemma uploading_nil {row : ReservationRow} (h : row.writtenUntil = 0) : Uploading [] row :=
  ⟨by rw [h]; rfl, fun _ h => by cases h⟩

/-- A range that continues the upload. -/
lemma Uploading.append {stored row : ReservationRow} (h : Uploading ranges stored)
    (hoffset : offset = stored.writtenUntil)
    (hrow : row.toReservationColumns = { stored.toReservationColumns with
      writtenUntil := offset + bytes.length
      bytes := overwrite stored.bytes offset bytes }) :
    Uploading (ranges ++ [(offset, bytes)]) row := by
  obtain ⟨-, -, hwritten, hlen⟩ := stored.checks
  have hblob : offset ≤ stored.bytes.length := by omega
  have hwritten' : row.writtenUntil = offset + bytes.length := by rw [hrow]
  have hbytes : row.bytes = overwrite stored.bytes offset bytes := by rw [hrow]
  constructor
  · rw [hwritten', hbytes, take_overwrite hblob, concatenation_append_singleton,
      if_pos (hoffset.trans h.length.symm), ← h.written, hoffset]
  · intro range hrange
    rw [hwritten', hbytes]
    rcases mem_append.mp hrange with hold | hnew
    · obtain ⟨hend, hslice⟩ := h.placed range hold
      rw [slice_overwrite_of_le hblob (by omega)]
      exact ⟨by omega, hslice⟩
    · obtain rfl := mem_singleton.mp hnew
      exact ⟨le_rfl, slice_overwrite_self hblob⟩

/-- A range that repeats bytes of the upload. -/
lemma Uploading.repeat {row : ReservationRow} (h : Uploading ranges row)
    (hlt : offset < row.writtenUntil) (hend : offset + bytes.length ≤ row.writtenUntil)
    (hsame : slice row.bytes offset bytes.length = bytes) :
    Uploading (ranges ++ [(offset, bytes)]) row := by
  constructor
  · rw [concatenation_append_singleton, if_neg (by rw [h.length]; exact hlt.ne)]
    exact h.written
  · intro range hrange
    rcases mem_append.mp hrange with hold | hnew
    · exact h.placed range hold
    · obtain rfl := mem_singleton.mp hnew
      exact ⟨hend, hsame⟩

variable {ops : List Operation}

section Following

variable {attemptKey : ReservationKey}

lemma fst_followUpload (ops : List Operation) :
    (ops.foldl (followUpload C attemptKey) (empty, [])).1 = after C ops := by
  induction ops using List.reverseRecOn with
  | nil => rfl
  | append_singleton ops op ih =>
    rw [after_append_singleton, foldl_append, ← ih]
    rfl

lemma acceptedRanges_append_singleton (ops : List Operation) (op : Operation) :
    acceptedRanges C attemptKey (ops ++ [op]) =
      if ((op.next C (after C ops)).reservations.get attemptKey).isSome then
        acceptedRanges C attemptKey ops ++ (op.acceptedRange C (after C ops) attemptKey).toList
      else [] := by
  rw [acceptedRanges, foldl_append, foldl_cons, foldl_nil, followUpload, fst_followUpload]
  rfl

/-- Without a reservation there is nothing to follow. -/
lemma acceptedRanges_of_none (h : (after C ops).reservations.get attemptKey = none) :
    acceptedRanges C attemptKey ops = [] := by
  cases ops using List.reverseRecOn with
  | nil => rfl
  | append_singleton ops op =>
    rw [after_append_singleton] at h
    rw [acceptedRanges_append_singleton, h]
    rfl

lemma acceptedRange_of_range_eq_none (h : op.range = none) :
    op.acceptedRange C db attemptKey = none := by
  rw [Operation.acceptedRange, h]
  rfl

lemma acceptedRange_of_apply {range : ReservationKey × ℕ × List UInt8}
    (h : op.apply C db = .ok db') (hrange : op.range = some range) :
    op.acceptedRange C db attemptKey = if range.1 = attemptKey then some range.2 else none := by
  rw [Operation.acceptedRange, hrange, Option.filter]
  by_cases hkey : range.1 = attemptKey
  · have hok : Succeeds (op.apply C db) := ⟨db', h⟩
    simp [hkey, hok]
  · simp [hkey]

/-- **The step.** The open reservation goes on holding the accepted ranges. -/
lemma uploading_next {row : ReservationRow}
    (hold : ∀ stored, db.reservations.get attemptKey = some stored → Uploading ranges stored)
    (hnone : db.reservations.get attemptKey = none → ranges = [])
    (hrow : (op.next C db).reservations.get attemptKey = some row) :
    Uploading (ranges ++ (op.acceptedRange C db attemptKey).toList) row := by
  have hquiet : op.acceptedRange C db attemptKey = none →
      db.reservations.get attemptKey = some row →
      Uploading (ranges ++ (op.acceptedRange C db attemptKey).toList) row := by
    intro haccepted hstored
    rw [haccepted, Option.toList_none, append_nil]
    exact hold row hstored
  by_cases hok : Succeeds (op.apply C db)
  · obtain ⟨db', h⟩ := hok
    rw [next_of_ok h] at hrow
    have hsilent : op.range = none → db'.reservations = db.reservations →
        Uploading (ranges ++ (op.acceptedRange C db attemptKey).toList) row :=
      fun hrange hsame => hquiet (acceptedRange_of_range_eq_none hrange) (by rwa [← hsame])
    have hnowrite : op.range = none → op.acceptedRange C db attemptKey = none :=
      acceptedRange_of_range_eq_none
    have hwrite : ∀ range, op.range = some range → op.acceptedRange C db attemptKey =
        if range.1 = attemptKey then some range.2 else none := fun _ => acceptedRange_of_apply h
    cases effect_of_apply h with
    | shrunk hadds hshrinks =>
      exact hquiet (acceptedRange_of_range_eq_none hadds.range)
        (hshrinks.reservations _ _ hrow)
    | @reserved attemptId _ shardIndex _ _ _ hfree _ hcolumns =>
      have haccepted := hnowrite rfl
      by_cases hkey : toLex (attemptId, shardIndex) = attemptKey
      · subst hkey
        rw [Table.get_put_self] at hrow
        obtain rfl := Option.some.inj hrow
        rw [hnone hfree, haccepted]
        exact uploading_nil (by rw [hcolumns])
      · rw [Table.get_put_of_ne hkey] at hrow
        exact hquiet haccepted hrow
    | @rewritten attemptId shardIndex offset bytes stored hstored hlt hend hsame =>
      have haccepted := hwrite _ rfl
      by_cases hkey : toLex (attemptId, shardIndex) = attemptKey
      · subst hkey
        rw [if_pos rfl] at haccepted
        obtain rfl := Option.some.inj (hstored.symm.trans hrow)
        rw [haccepted]
        exact (hold stored hstored).repeat hlt hend hsame
      · rw [if_neg hkey] at haccepted
        exact hquiet haccepted hrow
    | @appended attemptId shardIndex offset bytes stored _ hstored hoffset _ hcolumns =>
      have haccepted := hwrite _ rfl
      by_cases hkey : toLex (attemptId, shardIndex) = attemptKey
      · subst hkey
        rw [if_pos rfl] at haccepted
        rw [Table.get_put_self] at hrow
        obtain rfl := Option.some.inj hrow
        rw [haccepted]
        exact (hold stored hstored).append hoffset hcolumns
      · rw [if_neg hkey] at haccepted
        rw [Table.get_put_of_ne hkey] at hrow
        exact hquiet haccepted hrow
    | uploaded => exact hquiet (acceptedRange_of_range_eq_none rfl) (Table.get_of_erase hrow)
    | acknowledged hadds => exact hsilent hadds.range rfl
    | staged => exact hsilent rfl rfl
    | activated => exact hsilent rfl rfl
    | copied => exact hsilent rfl rfl
    | published => exact hsilent rfl rfl
    | promoted => exact hsilent rfl rfl
  · rw [next_of_error hok] at hrow
    refine hquiet ?_ hrow
    rw [Operation.acceptedRange]
    cases hrange : op.range with
    | none => rfl
    | some range => simp [Option.filter, hok]

/-- **The run.** The open reservation of a key holds the ranges accepted under it. -/
lemma uploading_after {row : ReservationRow}
    (h : (after C ops).reservations.get attemptKey = some row) :
    Uploading (acceptedRanges C attemptKey ops) row := by
  induction ops using List.reverseRecOn generalizing row with
  | nil => cases h
  | append_singleton ops op ih =>
    rw [after_append_singleton] at h
    rw [acceptedRanges_append_singleton, h, Option.isSome_some, if_pos rfl]
    exact uploading_next (fun _ => ih) acceptedRanges_of_none h

end Following

/-! ## Runs -/

/-- The row was stored by the operation, after `before`: at the end of an upload, it is the
concatenation of the ranges accepted under the reservation. -/
inductive StoredBy (C : Crypto) (before : List Operation) (key : ParityKey) (row : ParityRow) :
    Operation → Prop
  | upload {attemptId : Bytes 16} {commitment : MerkleCommitment}
      (hattempt : row.attemptId = some attemptId)
      (hbytes : row.bytes =
        concatenation (acceptedRanges C (toLex (attemptId, (ofLex key).2)) before))
      (hplaced : ∀ range ∈ acceptedRanges C (toLex (attemptId, (ofLex key).2)) before,
        slice row.bytes range.1 range.2.length = range.2) :
      StoredBy C before key row
        (.finishCodingAttemptUpload attemptId (ofLex key).1 (ofLex key).2 commitment)
  | stage {attemptId : Bytes 16} {object : VariableParityObject} {stagedReceipt : List UInt8}
      {budgetBytes : U64} (hkey : key = toLex (object.groupId, object.shardIndex))
      (hattempt : row.attemptId = some attemptId) (hbytes : row.bytes = object.bytes) :
      StoredBy C before key row (.stageAttempt attemptId object stagedReceipt budgetBytes)
  | copy {ready : ReadyVariableObject} {budgetBytes : U64}
      (hvalid : validateReadyVariableObject C ready = .ok ())
      (hkey : key = toLex (ready.object.groupId, ready.object.shardIndex))
      (hattempt : row.attemptId = some ready.attemptId)
      (hbytes : row.bytes = ready.object.bytes) :
      StoredBy C before key row (.copyReadyVariableObject ready budgetBytes)

lemma Inserted.storedBy (h : Inserted C (after C ops) op key row)
    (hformat : row.formatVersion = 2) : StoredBy C ops key row op := by
  cases h with
  | @uploaded _ _ reservation hop hreservation hwritten _ hrow =>
    subst hop
    have hupload := uploading_after hreservation
    have hall : reservation.bytes.take reservation.writtenUntil = reservation.bytes := by
      rw [hwritten, ← reservation.checks.2.2.2, take_length]
    refine .upload (by rw [hrow]) ?_ fun range hrange => ?_
    · rw [hrow, ← hupload.written, hall]
    · rw [hrow]
      exact (hupload.placed range hrange).2
  | staged hop hkey _ hrow =>
    subst hop
    exact .stage hkey (by rw [hrow]) (by rw [hrow])
  | copied hop hkey hvalid hrow =>
    subst hop
    exact .copy hvalid hkey (by rw [hrow]) (by rw [hrow])
  | published hlegacy =>
    rw [hlegacy] at hformat
    exact absurd hformat (by decide)

/-- A later version of the row was stored by the same operation. -/
lemma StoredBy.of_sameShard {before : List Operation} (h : StoredBy C before key stored op)
    (hsame : SameShard stored row) : StoredBy C before key row op := by
  cases h with
  | upload hattempt hbytes hplaced =>
    refine .upload (hsame.attemptId.trans hattempt) (hsame.bytes.trans hbytes) ?_
    rw [hsame.bytes]
    exact hplaced
  | stage hkey hattempt hbytes =>
    exact .stage hkey (hsame.attemptId.trans hattempt) (hsame.bytes.trans hbytes)
  | copy hvalid hkey hattempt hbytes =>
    exact .copy hvalid hkey (hsame.attemptId.trans hattempt) (hsame.bytes.trans hbytes)

lemma committed_after (ops : List Operation) : Committed C (after C ops) := by
  induction ops using List.reverseRecOn with
  | nil =>
    intro key row hrow
    cases hrow
  | append_singleton ops op ih =>
    rw [after_append_singleton]
    exact ih.next op

/-- Every row of variable size was stored by an operation of the run. -/
lemma exists_storedBy (hrow : (after C ops).objects.get key = some row)
    (hformat : row.formatVersion = 2) :
    ∃ before op rest, ops = before ++ op :: rest ∧ (after C before).objects.get key = none ∧
      StoredBy C before key row op := by
  induction ops using List.reverseRecOn generalizing row with
  | nil => cases hrow
  | append_singleton ops op ih =>
    rw [after_append_singleton] at hrow
    rcases row_of_next hrow with hkept | ⟨stored, hstored, hrevised⟩ | ⟨hnone, hinserted⟩
    · obtain ⟨before, first, rest, rfl, hnone, hby⟩ := ih hkept hformat
      exact ⟨before, first, rest ++ [op], by simp, hnone, hby⟩
    · have hsame := hrevised.sameShard
      obtain ⟨before, first, rest, rfl, hnone, hby⟩ :=
        ih hstored (hsame.formatVersion.symm.trans hformat)
      exact ⟨before, first, rest ++ [op], by simp, hnone, hby.of_sameShard hsame⟩
    · exact ⟨ops, op, [], rfl, hnone, hinserted.storedBy hformat⟩

/-- The row stays as it is, until an operation that names it deletes it. -/
def Stays (C : Crypto) (ops : List Operation) (key : ParityKey) (row : ParityRow)
    (rest : List Operation) : Prop :=
  (∃ later, (after C (ops ++ rest)).objects.get key = some later ∧ SameActivation row later) ∨
    ∃ between op others, rest = between ++ op :: others ∧ op.NamesObject key row.attemptId ∧
      (∃ later, (after C (ops ++ between)).objects.get key = some later ∧
        SameActivation row later) ∧
      (after C (ops ++ between ++ [op])).objects.get key = none

lemma stays_of_ready (hrow : (after C ops).objects.get key = some row)
    (hready : row.state = .ready) (rest : List Operation) : Stays C ops key row rest := by
  induction rest using List.reverseRecOn with
  | nil =>
    rw [Stays, append_nil]
    exact .inl ⟨row, hrow, .refl row⟩
  | append_singleton rest op ih =>
    rcases ih with ⟨later, hlater, hsame⟩ | ⟨between, first, others, rfl, hfirst⟩
    · rw [Stays, ← append_assoc, after_append_singleton]
      rcases ready_next (C := C) op hlater (hsame.state.trans hready) with
        ⟨next, hnext, hstep⟩ | ⟨hnone, hname⟩
      · exact .inl ⟨next, hnext, hsame.trans hstep⟩
      · rw [hsame.attemptId] at hname
        refine .inr ⟨rest, op, [], rfl, hname, ⟨later, hlater, hsame⟩, ?_⟩
        rw [after_append_singleton]
        exact hnone
    · exact .inr ⟨between, first, others ++ [op], by simp, hfirst⟩

/-- A discard touches no row and no reservation of another attempt. -/
lemma isolated_next {attemptId : Bytes 16} (hop : op.Discards attemptId) :
    (∀ key row, row.attemptId ≠ some attemptId →
      ((op.next C db).objects.get key = some row ↔ db.objects.get key = some row)) ∧
    ∀ key, (ofLex key).1 ≠ attemptId →
      (op.next C db).reservations.get key = db.reservations.get key := by
  by_cases hok : Succeeds (op.apply C db)
  · obtain ⟨db', h⟩ := hok
    rw [next_of_ok h]
    have hshrinks : Shrinks op db db' := by
      cases effect_of_apply h with
      | shrunk _ hshrinks => exact hshrinks
      | acknowledged _ hkeeps => exact absurd hop (hkeeps attemptId)
      | _ => exact absurd hop id
    have hobject : ∀ (key : ParityKey) (row : ParityRow), row.attemptId ≠ some attemptId →
        ¬ op.NamesObject key row.attemptId := by
      intro key row hne hname
      cases op with
      | discardStagedAttempt => exact hne (hop ▸ hname)
      | discardUncommittedAttemptChecked => exact hne (hop ▸ hname)
      | discardCodingAttemptObjectChecked => exact hne (hop ▸ hname.2)
      | _ => exact hop
    have hreservation : ∀ key : ReservationKey, (ofLex key).1 ≠ attemptId →
        ¬ op.NamesReservation key := by
      intro key hne hname
      cases op with
      | discardStagedAttempt => exact hne (hname.trans hop)
      | discardUncommittedAttemptChecked => exact hne (hname.trans hop)
      | discardCodingAttemptObjectChecked =>
        obtain rfl := hname
        exact hne hop
      | _ => exact hop
    refine ⟨fun key row hne => ⟨hshrinks.objects key row, fun hrow =>
      hshrinks.kept_object key row hrow (hobject key row hne)⟩, fun key hne => ?_⟩
    cases hrow : db.reservations.get key with
    | none =>
      refine Option.eq_none_iff_forall_ne_some.mpr fun row hlater => ?_
      rw [hshrinks.reservations key row hlater] at hrow
      cases hrow
    | some row => exact hshrinks.kept_reservation key row hrow (hreservation key hne)
  · rw [next_of_error hok]
    exact ⟨fun _ _ _ => Iff.rfl, fun _ _ => rfl⟩

/-- The operation activates the attempt of the row, or stores the row as a copy. -/
def MadeReady (C : Crypto) (ops : List Operation) (key : ParityKey) (row : ParityRow)
    (op : Operation) : Prop :=
  (∃ attemptId commitment verificationHash stored,
    op = .activateAttemptObject attemptId (ofLex key).1 (ofLex key).2 commitment
      verificationHash ∧
    (after C ops).objects.get key = some stored ∧ stored.attemptId = some attemptId ∧
    SameShard stored row ∧ row.verificationHash = some verificationHash) ∨
  ∃ ready budgetBytes, op = .copyReadyVariableObject ready budgetBytes ∧
    (after C ops).objects.get key = none ∧ StoredBy C ops key row op

/-- What holds after a sequence of operations, and of the next one. -/
structure Integrity (C : Crypto) (ops : List Operation) : Prop where
  /-- The bytes of every staged or ready row have the commitment of the row. -/
  committed : Committed C (after C ops)
  /-- Every row was stored by one operation, of the attempt that the row names: an upload, as the
  concatenation of its accepted ranges; the staging of a whole object; or a verified copy. -/
  origin : ∀ key row, (after C ops).objects.get key = some row → row.formatVersion = 2 →
    ∃ before op rest, ops = before ++ op :: rest ∧ (after C before).objects.get key = none ∧
      StoredBy C before key row op
  /-- After an upload has finished, the object is there with the commitment.  It is stored by the
  finish, or it was there before, and then all that the finish does is to drop the reservation. -/
  finished : ∀ attemptId groupId shardIndex commitment,
    let op := Operation.finishCodingAttemptUpload attemptId groupId shardIndex commitment
    let key : ParityKey := toLex (groupId, shardIndex)
    Succeeds (op.apply C (after C ops)) →
      ∃ row, (after C (ops ++ [op])).objects.get key = some row ∧ row.formatVersion = 2 ∧
        row.attemptId = some attemptId ∧ merkleCommit C row.bytes = .ok commitment ∧
        ((after C ops).objects.get key = none → StoredBy C ops key row op) ∧
        ∀ stored, (after C ops).objects.get key = some stored → row = stored ∧
          after C (ops ++ [op]) = { after C ops with
            reservations := (after C ops).reservations.erase (toLex (attemptId, shardIndex)) }
  /-- A row becomes ready by the activation of its attempt, or as a copy. -/
  activated : ∀ op key row, (after C (ops ++ [op])).objects.get key = some row →
    row.formatVersion = 2 → row.state = .ready →
    (∀ stored, (after C ops).objects.get key = some stored → stored.state = .staged) →
      MadeReady C ops key row op
  /-- A ready row stays as it is, until an operation that names it deletes it. -/
  immutable : ∀ key row rest, (after C ops).objects.get key = some row → row.state = .ready →
    Stays C ops key row rest
  /-- A discard touches nothing of another attempt. -/
  isolated : ∀ op attemptId, op.Discards attemptId → (∀ key row, row.attemptId ≠ some attemptId →
      ((after C (ops ++ [op])).objects.get key = some row ↔
        (after C ops).objects.get key = some row)) ∧
    ∀ key, (ofLex key).1 ≠ attemptId →
      (after C (ops ++ [op])).reservations.get key = (after C ops).reservations.get key

lemma finished_after {attemptId : Bytes 16} {groupId : Bytes 32} {shardIndex : U16}
    {commitment : MerkleCommitment}
    (h : Succeeds ((Operation.finishCodingAttemptUpload attemptId groupId shardIndex
      commitment).apply C (after C ops))) :
    ∃ db' row, (Operation.finishCodingAttemptUpload attemptId groupId shardIndex commitment).next C
        (after C ops) = db' ∧ db'.objects.get (toLex (groupId, shardIndex)) = some row ∧
      row.formatVersion = 2 ∧ row.attemptId = some attemptId ∧
      merkleCommit C row.bytes = .ok commitment ∧
      ∀ stored, (after C ops).objects.get (toLex (groupId, shardIndex)) = some stored →
        row = stored ∧ db' = { after C ops with
          reservations := (after C ops).reservations.erase (toLex (attemptId, shardIndex)) } := by
  obtain ⟨db', h⟩ := h
  refine ⟨db', ?_⟩
  rw [next_of_ok h]
  rcases finishCodingAttemptUpload_eq_ok h with ⟨row, hrow, hformat, hattempt, hcommit, rfl⟩ |
    ⟨reservation, row, hnone, -, -, hcommit, hrow, rfl⟩
  · exact ⟨row, rfl, hrow, hformat, hattempt, hcommit, fun stored hstored =>
      ⟨Option.some.inj (hrow.symm.trans hstored), rfl⟩⟩
  · refine ⟨row, rfl, Table.get_put_self, by rw [hrow], by rw [hrow], by rw [hrow]; exact hcommit,
      ?_⟩
    intro stored hstored
    rw [hnone] at hstored
    cases hstored

lemma activated_next (hrow : (op.next C (after C ops)).objects.get key = some row)
    (hformat : row.formatVersion = 2) (hready : row.state = .ready)
    (hbefore : ∀ stored, (after C ops).objects.get key = some stored → stored.state = .staged) :
    MadeReady C ops key row op := by
  rcases row_of_next hrow with hkept | ⟨stored, hstored, hrevised⟩ | ⟨hnone, hinserted⟩
  · rw [hbefore row hkept] at hready
    cases hready
  · have hsame := hrevised.sameShard
    have hstaged := hbefore stored hstored
    cases hrevised with
    | acknowledged hcolumns =>
      rw [hcolumns, hstaged] at hready
      cases hready
    | activated hop _ hattempt _ hcolumns =>
      exact .inl ⟨_, _, _, stored, hop, hstored, hattempt, hsame, by rw [hcolumns]⟩
    | promoted hlegacy _ _ =>
      rw [hsame.formatVersion, hlegacy] at hformat
      exact absurd hformat (by decide)
  · have hby := hinserted.storedBy hformat
    cases hinserted with
    | uploaded _ _ _ _ hcolumns =>
      rw [hcolumns] at hready
      cases hready
    | staged _ _ _ hcolumns =>
      rw [hcolumns] at hready
      cases hready
    | copied hop _ _ _ => exact .inr ⟨_, _, hop, hnone, hby⟩
    | published hlegacy =>
      rw [hlegacy] at hformat
      exact absurd hformat (by decide)

/-- **Integrity of the parity store, after every sequence of operations.** -/
theorem parity_store_integrity (C : Crypto) (ops : List Operation) : Integrity C ops where
  committed := committed_after ops
  origin _ _ := exists_storedBy
  finished attemptId groupId shardIndex commitment h := by
    rw [after_append_singleton]
    obtain ⟨_, row, rfl, hrow, hformat, hattempt, hcommit, hsame⟩ := finished_after h
    refine ⟨row, hrow, hformat, hattempt, hcommit, fun hnone => ?_, hsame⟩
    rcases row_of_next hrow with hkept | ⟨stored, hstored, -⟩ | ⟨-, hinserted⟩
    · rw [hnone] at hkept
      cases hkept
    · rw [hnone] at hstored
      cases hstored
    · exact hinserted.storedBy hformat
  activated op key row hrow hformat hready hbefore := by
    rw [after_append_singleton] at hrow
    exact activated_next hrow hformat hready hbefore
  immutable _ _ rest hrow hready := stays_of_ready hrow hready rest
  isolated op attemptId hop := by
    rw [after_append_singleton]
    exact isolated_next hop

/-! ### A finish that stores nothing

An attempt uploads sixteen bytes, stages another object for the same group and shard in one piece,
and finishes the upload with the commitment of that object. -/

/-- The upload and the staging. -/
def uploadThenStage : List Operation :=
  [.reserveCodingAttempt 1 7 0 16 64, .writeCodingAttemptRange 1 0 0 (List.replicate 16 1),
    .stageAttempt 1 zeroShard [1] 64]

/-- The finish with the commitment of the staged object. -/
def finishUpload : Operation := .finishCodingAttemptUpload 1 9 0 zeroShard.commitment

theorem finished_without_storing :
    Succeeds (finishUpload.apply .transparent (after .transparent uploadThenStage)) ∧
      isSomeAnd ((after .transparent (uploadThenStage ++ [finishUpload])).objects.get
        (toLex (9, 0))) fun row =>
        row.bytes ≠
          concatenation (acceptedRanges .transparent (toLex (1, 0)) uploadThenStage) := by
  decide +kernel

end ParityStore

end MutualBackup
