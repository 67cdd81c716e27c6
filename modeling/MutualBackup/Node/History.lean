import MutualBackup.Core.CheckpointValidity
import MutualBackup.Framework.Snapshots
import MutualBackup.Node.Transition

/-!
# The history of checkpoints

A checkpoint carries the revisions a guild retains and the tombstones of those it has retired, and
the transition check compares it with the one before.  Over a whole chain of checkpoints from the
first one, the history is append-only: nothing that was ever in a checkpoint is changed, only
retired, and what is retired is accounted for.

A checkpoint is a snapshot of the chains of revisions (`snapshot`): a valid one is sound
(`Valid.sound`), and one that passes the check extends the one before (`Follows.extends`).  The
statements about checkpoints that are not neighbours are those about snapshots.  That a tombstone
names a revision that was really there, and that the packing catalogs form one chain, are inductions
along the chain.
-/

namespace MutualBackup

open Framework

namespace GuildCheckpoint

variable {C : Crypto} {p c : GuildCheckpoint}

/-! ## One step -/

/-- What the body checks establish about a checkpoint and its successor. -/
structure Follows (C : Crypto) (p c : GuildCheckpoint) : Prop where
  catalog : catalogExtends p.packingCatalog c.packingCatalog
  fences : ∀ fence ∈ p.writerFences, fence ∈ c.writerFences
  oldTombstone : ∀ old ∈ p.revisionTombstones,
    ∃ current, c.tombstone old.owner old.protectedRootId = some current ∧
      old.throughSequence ≤ current.throughSequence ∧
      (current.throughSequence = old.throughSequence → current = old)
  newTombstone : ∀ current ∈ c.revisionTombstones,
    p.floor current.owner current.protectedRootId < current.throughSequence →
    ∃ retired, p.revisionAt current.owner current.protectedRootId current.throughSequence =
      some retired ∧ names C current retired.value
  revisions : ∀ revision ∈ p.revisions, revision ∈ c.revisions ∨ c.covers revision.value

lemma checkOldTombstone_eq_ok {old : RevisionTombstone} (h : c.checkOldTombstone old = .ok ()) :
    ∃ current, c.tombstone old.owner old.protectedRootId = some current ∧
      old.throughSequence ≤ current.throughSequence ∧
      (current.throughSequence = old.throughSequence → current = old) := by
  rw [checkOldTombstone] at h
  simp only [bind_eq_ok, okOr_eq_ok, reject_eq_ok] at h
  obtain ⟨current, hcurrent, hguard⟩ := h
  push Not at hguard
  exact ⟨current, hcurrent, hguard⟩

lemma checkNewTombstone_eq_ok {current : RevisionTombstone}
    (h : p.checkNewTombstone C c current = .ok ())
    (hraised : p.floor current.owner current.protectedRootId < current.throughSequence) :
    ∃ retired, p.revisionAt current.owner current.protectedRootId current.throughSequence =
      some retired ∧ names C current retired.value := by
  have hguard := reject_eq_ok.mp h
  by_contra hnone
  exact hguard ⟨hraised, .inr hnone⟩

lemma follows_of_checkBody (h : p.checkBody C c = .ok ()) : Follows C p c := by
  rw [checkBody] at h
  simp only [bind_eq_ok, reject_eq_ok, forEach_eq_ok, exists_unit, not_not] at h
  obtain ⟨hcatalog, hfences, -, hold, hnew, hactive⟩ := h
  rw [checkActiveState, reject_eq_ok, not_or, not_or] at hactive
  obtain ⟨-, hrevisions, -⟩ := hactive
  refine ⟨hcatalog, ?_, fun old hmem => checkOldTombstone_eq_ok (hold old hmem),
    fun current hmem => checkNewTombstone_eq_ok (hnew current hmem), ?_⟩
  · push Not at hfences
    exact hfences
  · intro revision hmem
    by_contra hlost
    rw [not_or] at hlost
    exact hrevisions ⟨revision, hmem, hlost⟩

/-! ## Checkpoints as snapshots -/

/-- The revisions of a checkpoint, and how far each chain is retired. -/
def snapshot (c : GuildCheckpoint) : Snapshot (NodeId × Uuid) (SignedRecord UserRevision) where
  holds r := r ∈ c.revisions
  floor chain := (c.floor chain.1 chain.2).val

/-- The number of a signed revision. -/
def recordNumber (r : SignedRecord UserRevision) : ℕ := r.value.sequence.val

variable {t : RevisionTombstone}

lemma floor_of_tombstone {owner : NodeId} {root : Uuid} (h : c.tombstone owner root = some t) :
    c.floor owner root = t.throughSequence := by
  rw [floor, h]
  rfl

lemma floor_of_none {owner : NodeId} {root : Uuid} (h : c.tombstone owner root = none) :
    c.floor owner root = 0 := by
  rw [floor, h]
  rfl

lemma Valid.sound (hc : c.Valid) : c.snapshot.Sound recordChain recordNumber := by
  refine ⟨fun r r' hr hr' hchain hnumber => hc.eq_of_same_place hr hr' hchain (Fin.ext hnumber),
    fun r hr => ?_⟩
  show (c.floor r.value.owner r.value.protectedRootId).val < r.value.sequence.val
  cases ht : c.tombstone r.value.owner r.value.protectedRootId with
  | none =>
    rw [floor_of_none ht]
    exact hc.sequence_pos r hr
  | some t =>
    rw [floor_of_tombstone ht]
    exact hc.above_tombstone r hr t ht

/-- A tombstone of a valid checkpoint is the floor of its chain. -/
lemma Valid.floor_eq (hc : c.Valid) (ht : t ∈ c.revisionTombstones) :
    c.floor t.owner t.protectedRootId = t.throughSequence :=
  floor_of_tombstone (hc.tombstone_eq_some.mpr ⟨ht, rfl, rfl⟩)

/-- A revision at or below the floor of its chain is covered by a tombstone. -/
lemma Valid.covers_iff (hc : c.Valid) {r : SignedRecord UserRevision}
    (hpos : r.value.sequence ≠ 0) :
    c.covers r.value ↔ recordNumber r ≤ c.snapshot.floor (recordChain r) := by
  constructor
  · rintro ⟨t, ht, howner, hroot, hle⟩
    have hfloor := hc.floor_eq ht
    rw [howner, hroot] at hfloor
    show r.value.sequence.val ≤ (c.floor r.value.owner r.value.protectedRootId).val
    rw [hfloor]
    exact hle
  · intro hle
    have hle' : r.value.sequence.val ≤ (c.floor r.value.owner r.value.protectedRootId).val := hle
    cases ht : c.tombstone r.value.owner r.value.protectedRootId with
    | none =>
      rw [floor_of_none ht] at hle'
      exact absurd (Fin.ext (Nat.le_zero.mp hle')) hpos
    | some t =>
      rw [floor_of_tombstone ht] at hle'
      obtain ⟨hmem, howner, hroot⟩ := hc.tombstone_eq_some.mp ht
      exact ⟨t, hmem, howner, hroot, hle'⟩

/-- A successor extends the snapshot before it. -/
lemma Follows.extends (h : Follows C p c) (hp : p.Valid) (hc : c.Valid) :
    p.snapshot.Extends recordChain recordNumber c.snapshot := by
  refine ⟨fun r hr => ?_, fun chain => ?_⟩
  · have hpos := (hp.sequence_pos r hr).ne'
    rcases h.revisions r hr with hheld | hcovered
    · exact .inl hheld
    · exact .inr ((hc.covers_iff hpos).mp hcovered)
  · show (p.floor chain.1 chain.2).val ≤ (c.floor chain.1 chain.2).val
    cases ht : p.tombstone chain.1 chain.2 with
    | none =>
      rw [floor_of_none ht]
      exact Nat.zero_le _
    | some old =>
      obtain ⟨hmem, howner, hroot⟩ := hp.tombstone_eq_some.mp ht
      obtain ⟨current, hcurrent, hle, -⟩ := h.oldTombstone old hmem
      rw [howner, hroot] at hcurrent
      rw [floor_of_tombstone ht, floor_of_tombstone hcurrent]
      exact hle

/-! ## Chains of checkpoints -/

/-- A chain of checkpoints from the first generation: each is valid by itself, and each passes the
body checks after the one before. -/
structure CheckpointChain (C : Crypto) (cs : List GuildCheckpoint) : Prop where
  first : ∀ c ∈ cs.head?, c.generation = 1
  valid : ∀ c ∈ cs, c.validate C = .ok ()
  linked : cs.IsChain fun p c => p.checkBody C c = .ok ()

variable {cs : List GuildCheckpoint} {i j : ℕ}

lemma exists_before (hj : cs[j + 1]? = some c) : ∃ p, cs[j]? = some p := by
  obtain ⟨hlt, -⟩ := List.getElem?_eq_some_iff.mp hj
  exact ⟨_, List.getElem?_eq_getElem (Nat.lt_of_succ_lt hlt)⟩

/-- A relation between neighbours that is a preorder holds between any two checkpoints. -/
lemma CheckpointChain.rel {R : GuildCheckpoint → GuildCheckpoint → Prop}
    (hrefl : ∀ c, R c c) (htrans : ∀ {a b c}, R a b → R b c → R a c)
    (hstep : ∀ i p c, cs[i]? = some p → cs[i + 1]? = some c → R p c) (hij : i ≤ j)
    (hi : cs[i]? = some p) (hj : cs[j]? = some c) : R p c := by
  induction j, hij using Nat.le_induction generalizing c with
  | base =>
    obtain rfl := Option.some.inj (hi.symm.trans hj)
    exact hrefl p
  | succ j _ ih =>
    obtain ⟨m, hm⟩ := exists_before hj
    exact htrans (ih hm) (hstep j _ c hm hj)

section

variable (h : CheckpointChain C cs)

include h

lemma CheckpointChain.valid_at (hi : cs[i]? = some c) : c.Valid :=
  valid_of_validate (h.valid c (List.mem_of_getElem? hi))

lemma CheckpointChain.follows (hi : cs[i]? = some p) (hnext : cs[i + 1]? = some c) :
    Follows C p c := by
  obtain ⟨hlt, rfl⟩ := List.getElem?_eq_some_iff.mp hi
  obtain ⟨hlt', rfl⟩ := List.getElem?_eq_some_iff.mp hnext
  exact follows_of_checkBody (List.isChain_iff_getElem.mp h.linked i hlt')

/-- The first checkpoint has no tombstones: nothing is retired before the second generation. -/
lemma CheckpointChain.no_tombstones_first (h₀ : cs[0]? = some c) : c.revisionTombstones = [] := by
  have hfirst : c.generation = 1 := h.first c (by rw [List.head?_eq_getElem?]; exact h₀)
  refine List.eq_nil_iff_forall_not_mem.mpr fun t ht => ?_
  obtain ⟨hge, hle⟩ := (h.valid_at h₀).tombstone_retired t ht
  rw [hfirst] at hle
  have hval : (2 : ℕ) ≤ 1 := Fin.le_def.mp (hge.trans hle)
  omega

/-- A tombstone names a revision of an earlier checkpoint.  A raised one was checked against the
checkpoint before; one that is not raised is the old one. -/
lemma CheckpointChain.exists_named (hj : cs[j]? = some c) (ht : t ∈ c.revisionTombstones) :
    ∃ i p, i < j ∧ cs[i]? = some p ∧ ∃ r ∈ p.revisions, r.value.owner = t.owner ∧
      r.value.protectedRootId = t.protectedRootId ∧ r.value.sequence = t.throughSequence ∧
      names C t r.value := by
  induction j generalizing c with
  | zero =>
    rw [h.no_tombstones_first hj] at ht
    cases ht
  | succ j ih =>
    obtain ⟨p, hp⟩ := exists_before hj
    have hfollows := h.follows hp hj
    by_cases hraised : p.floor t.owner t.protectedRootId < t.throughSequence
    · obtain ⟨r, hr, hnames⟩ := hfollows.newTombstone t ht hraised
      have hplace := List.find?_some hr
      simp only [decide_eq_true_eq] at hplace
      exact ⟨j, p, Nat.lt_succ_self j, hp, r, List.mem_of_find?_eq_some hr, hplace.1,
        hplace.2.1, hplace.2.2, hnames⟩
    · have hold : t ∈ p.revisionTombstones := by
        have hthrough := (h.valid_at hj).tombstone_through t ht
        cases hp' : p.tombstone t.owner t.protectedRootId with
        | none =>
          rw [floor_of_none hp'] at hraised
          exact absurd (Fin.pos_iff_ne_zero.mpr hthrough) hraised
        | some old =>
          rw [floor_of_tombstone hp'] at hraised
          obtain ⟨hmem, howner, hroot⟩ := (h.valid_at hp).tombstone_eq_some.mp hp'
          obtain ⟨current, hcurrent, hle, heq⟩ := hfollows.oldTombstone old hmem
          rw [howner, hroot] at hcurrent
          have hsame : c.tombstone t.owner t.protectedRootId = some t :=
            (h.valid_at hj).tombstone_eq_some.mpr ⟨ht, rfl, rfl⟩
          obtain rfl := Option.some.inj (hsame.symm.trans hcurrent)
          rw [heq (le_antisymm (not_lt.mp hraised) hle)]
          exact hmem
      obtain ⟨i, q, hi, hrest⟩ := ih hp hold
      exact ⟨i, q, Nat.lt_succ_of_lt hi, hrest⟩

variable (hi : cs[i]? = some p) (hj : cs[j]? = some c)

include hi hj

section

variable (hij : i ≤ j)

include hij

lemma CheckpointChain.extends :
    p.snapshot.Extends recordChain recordNumber c.snapshot :=
  CheckpointChain.rel
    (R := fun a b => a.snapshot.Extends recordChain recordNumber b.snapshot)
    (fun _ => ⟨fun _ hr => .inl hr, fun _ => le_rfl⟩) Snapshot.Extends.trans
    (fun _ _ _ hk hnext => (h.follows hk hnext).extends (h.valid_at hk) (h.valid_at hnext))
    hij hi hj

lemma CheckpointChain.fences_subset :
    ∀ fence ∈ p.writerFences, fence ∈ c.writerFences :=
  CheckpointChain.rel (R := fun a b => ∀ fence ∈ a.writerFences, fence ∈ b.writerFences)
    (fun _ _ hf => hf) (fun hab hbc fence hf => hbc fence (hab fence hf))
    (fun _ _ _ hk hnext => (h.follows hk hnext).fences) hij hi hj

/-- From a checkpoint with a catalog on, every checkpoint has one, numbered without a gap. -/
lemma CheckpointChain.catalog_at {previous : PackedCatalog}
    (hprevious : p.packingCatalog = some previous) :
    ∃ current, c.packingCatalog = some current ∧
      current.revision.val = previous.revision.val + (j - i) := by
  induction j, hij using Nat.le_induction generalizing c with
  | base =>
    obtain rfl := Option.some.inj (hi.symm.trans hj)
    exact ⟨previous, hprevious, by omega⟩
  | succ j hij ih =>
    obtain ⟨m, hm⟩ := exists_before hj
    obtain ⟨middle, hmiddle, hrevision⟩ := ih hm
    have hstep := (h.follows hm hj).catalog
    rw [hmiddle] at hstep
    cases hcurrent : c.packingCatalog with
    | none =>
      rw [hcurrent] at hstep
      exact hstep.elim
    | some current =>
      rw [hcurrent] at hstep
      have hnext := U64.checkedSucc_eq_some.mp hstep.1
      exact ⟨current, rfl, by omega⟩

/-- The floor under a tombstone of an earlier checkpoint. -/
lemma CheckpointChain.through_le_floor (ht : t ∈ p.revisionTombstones) :
    t.throughSequence ≤ c.floor t.owner t.protectedRootId := by
  have hfloor : (p.floor t.owner t.protectedRootId).val ≤ (c.floor t.owner t.protectedRootId).val :=
    (h.extends hi hj hij).floor_le (t.owner, t.protectedRootId)
  rw [(h.valid_at hi).floor_eq ht] at hfloor
  exact Fin.le_def.mpr hfloor

end

/-- Two records at one place are the same, in whatever order the checkpoints come. -/
lemma CheckpointChain.eq_of_same_place {r r' : SignedRecord UserRevision}
    (hr : r ∈ p.revisions) (hr' : r' ∈ c.revisions) (hchain : recordChain r = recordChain r')
    (hnumber : recordNumber r = recordNumber r') : r = r' := by
  rcases Nat.le_total i j with hij | hji
  · exact (h.extends hi hj hij).eq_of_same_place (h.valid_at hj).sound hr hr' hchain hnumber
  · exact ((h.extends hj hi hji).eq_of_same_place (h.valid_at hi).sound hr' hr hchain.symm
      hnumber.symm).symm

end

/-! ## Append-only history -/

/-- **What a chain of checkpoints keeps.** Positions stand for the checkpoints of the chain. -/
structure AppendOnly (C : Crypto) (cs : List GuildCheckpoint) : Prop where
  /-- A revision stays, as the identical signed record, or is covered by a tombstone. -/
  kept : ∀ (i j : ℕ) (p c : GuildCheckpoint), i ≤ j → cs[i]? = some p → cs[j]? = some c →
    ∀ r ∈ p.revisions, r ∈ c.revisions ∨ c.covers r.value
  /-- A place in a chain of revisions holds one record in all checkpoints. -/
  same : ∀ (i j : ℕ) (p c : GuildCheckpoint), cs[i]? = some p → cs[j]? = some c →
    ∀ r ∈ p.revisions, ∀ r' ∈ c.revisions,
    r.value.owner = r'.value.owner → r.value.protectedRootId = r'.value.protectedRootId →
    r.value.sequence = r'.value.sequence → r = r'
  /-- What a tombstone covers does not come back. -/
  retired : ∀ (i j : ℕ) (p c : GuildCheckpoint), i ≤ j → cs[i]? = some p → cs[j]? = some c →
    ∀ t ∈ p.revisionTombstones, ∀ r ∈ c.revisions, r.value.owner = t.owner →
    r.value.protectedRootId = t.protectedRootId → t.throughSequence < r.value.sequence
  /-- A tombstone stays, and its sequence never decreases. -/
  floors : ∀ (i j : ℕ) (p c : GuildCheckpoint), i ≤ j → cs[i]? = some p → cs[j]? = some c →
    ∀ t ∈ p.revisionTombstones, ∃ t' ∈ c.revisionTombstones, t'.owner = t.owner ∧
      t'.protectedRootId = t.protectedRootId ∧ t.throughSequence ≤ t'.throughSequence
  /-- A tombstone names the identifier and the hash of a revision of an earlier checkpoint. -/
  named : ∀ (j : ℕ) (c : GuildCheckpoint), cs[j]? = some c → ∀ t ∈ c.revisionTombstones,
    ∃ (i : ℕ) (p : GuildCheckpoint), i < j ∧ cs[i]? = some p ∧
      ∃ r ∈ p.revisions, r.value.owner = t.owner ∧ r.value.protectedRootId = t.protectedRootId ∧
      r.value.sequence = t.throughSequence ∧ names C t r.value
  /-- A fence stays, and its epoch has no other key. -/
  fences : ∀ (i j : ℕ) (p c : GuildCheckpoint), i ≤ j → cs[i]? = some p → cs[j]? = some c →
    ∀ fence ∈ p.writerFences, fence ∈ c.writerFences ∧ ∀ fence' ∈ c.writerFences,
      fence'.owner = fence.owner → fence'.epoch = fence.epoch → fence' = fence
  /-- Catalogs stay and are numbered without a gap. -/
  catalogs : ∀ (i j : ℕ) (p c : GuildCheckpoint), i ≤ j → cs[i]? = some p → cs[j]? = some c →
    ∀ previous ∈ p.packingCatalog, ∃ current ∈ c.packingCatalog,
      current.revision.val = previous.revision.val + (j - i)
  /-- Each catalog has the one before as its parent, and one that has none before is the first. -/
  catalogParent : ∀ (i : ℕ) (p c : GuildCheckpoint), cs[i]? = some p → cs[i + 1]? = some c →
    ∀ current ∈ c.packingCatalog, current.parent = p.packingCatalog.map PackedCatalog.id ∧
      (p.packingCatalog = none → current.revision = 1)

/-- **Checkpoint history is append-only** along every chain from the first generation. -/
theorem checkpoint_history_append_only (h : CheckpointChain C cs) : AppendOnly C cs := by
  refine ⟨?_, ?_, ?_, ?_, fun j c hj t ht => h.exists_named hj ht, ?_, ?_, ?_⟩
  · intro i j p c hij hi hj r hr
    have hpos := ((h.valid_at hi).sequence_pos r hr).ne'
    rcases (h.extends hi hj hij).kept r hr with hheld | hretired
    · exact .inl hheld
    · exact .inr (((h.valid_at hj).covers_iff hpos).mpr hretired)
  · intro i j p c hi hj r hr r' hr' howner hroot hsequence
    exact h.eq_of_same_place hi hj hr hr' (Prod.ext howner hroot) (congrArg Fin.val hsequence)
  · intro i j p c hij hi hj t ht r hr howner hroot
    have hfloor := h.through_le_floor hi hj hij ht
    have habove : (c.floor r.value.owner r.value.protectedRootId).val < r.value.sequence.val :=
      (h.valid_at hj).sound.above r hr
    rw [howner, hroot] at habove
    exact lt_of_le_of_lt hfloor habove
  · intro i j p c hij hi hj t ht
    have hfloor := h.through_le_floor hi hj hij ht
    have hthrough := (h.valid_at hi).tombstone_through t ht
    cases ht' : c.tombstone t.owner t.protectedRootId with
    | none =>
      rw [floor_of_none ht'] at hfloor
      exact absurd (Fin.le_zero_iff.mp hfloor) hthrough
    | some t' =>
      rw [floor_of_tombstone ht'] at hfloor
      obtain ⟨hmem, howner, hroot⟩ := (h.valid_at hj).tombstone_eq_some.mp ht'
      exact ⟨t', hmem, howner, hroot, hfloor⟩
  · intro i j p c hij hi hj fence hfence
    have hkept := h.fences_subset hi hj hij fence hfence
    refine ⟨hkept, fun fence' hfence' howner hepoch => ?_⟩
    refine (h.valid_at hj).fences_ascending.eq_of_key hfence' hkept ?_
    rw [fenceOrder, fenceOrder, howner, hepoch]
  · intro i j p c hij hi hj previous hprevious
    exact h.catalog_at hi hj hij hprevious
  · intro i p c hi hnext current hcurrent
    have hstep := (h.follows hi hnext).catalog
    rw [Option.mem_def.mp hcurrent] at hstep
    cases hprevious : p.packingCatalog with
    | none =>
      rw [hprevious] at hstep
      exact ⟨hstep.2, fun _ => hstep.1⟩
    | some previous =>
      rw [hprevious] at hstep
      exact ⟨hstep.2, fun hnone => by cases hnone⟩

/-- The third checkpoint of the small guild retires the first revision. -/
def thirdCheckpoint : GuildCheckpoint := smallCheckpoint 3 (some secondCheckpointHash)
    [{ owner := ⟨1⟩, protectedRootId := ⟨5⟩, throughSequence := 1, lastRevisionId := ⟨21⟩,
       lastRevisionHash := firstRevisionHash, retiredAtGeneration := 3 }]
    [secondRevision]

theorem history_append_only_small :
    CheckpointChain .transparent [firstCheckpoint, secondCheckpoint, thirdCheckpoint] ∧
      AppendOnly .transparent [firstCheckpoint, secondCheckpoint, thirdCheckpoint] := by
  have hchain :
      CheckpointChain .transparent [firstCheckpoint, secondCheckpoint, thirdCheckpoint] :=
    ⟨by decide +kernel, by decide +kernel, by decide +kernel⟩
  exact ⟨hchain, checkpoint_history_append_only hchain⟩

end GuildCheckpoint

end MutualBackup
