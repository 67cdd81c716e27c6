import MutualBackup.Core.CheckpointHistory
import MutualBackup.Node.Writers

/-!
# Retention

`commit_backup_job` builds the successor of a checkpoint from one new revision: the writer of the
revision gets a fence when it has none (`include_writer_fence`), the revision is sorted in, and
every root keeps its newest revisions, the others being replaced by one tombstone
(`apply_revision_retention`).  What surrounds these steps (peers, packing, coding, the distribution
of the result) does not touch the history, and is the `CheckpointFrame` of the new checkpoint.

The loop over the roots is described by its result: which tombstones there are and which revisions
stay, in terms of the last revision that a root loses (`applyRevisionRetention_spec`).  The fence is
either there or comes after those of its owner (`includeWriterFence_eq_ok`).
-/

namespace MutualBackup

open Framework List

/-! ## The source -/

section Source

variable (C : Crypto)

/-- The fence of the writer of a revision. -/
def fenceOf (r : UserRevision) : WriterFence := ⟨r.owner, r.writerEpoch, r.writerPublicKey⟩

/-- The guards of the `match` of `include_writer_fence` that go on to a new fence. -/
def admitsEpoch (latest : Option WriterFence) (r : UserRevision) : Prop :=
  match latest with
  | some fence => fence.epoch.checkedSucc = some r.writerEpoch
  | none => r.writerEpoch = 1

instance (latest : Option WriterFence) (r : UserRevision) : Decidable (admitsEpoch latest r) :=
  match latest with
  | some fence => inferInstanceAs (Decidable (fence.epoch.checkedSucc = some r.writerEpoch))
  | none => inferInstanceAs (Decidable (r.writerEpoch = 1))

/-- `include_writer_fence`. -/
def includeWriterFence (fences : List WriterFence) (r : UserRevision) :
    Outcome NodeError (List WriterFence) := do
  mapErr .model (r.verifyWriter C)
  let latest := maxByKey WriterFence.epoch (fences.filter fun fence => fence.owner = r.owner)
  if isSomeAnd latest fun fence =>
      fence.epoch = r.writerEpoch ∧ fence.publicKey = r.writerPublicKey then
    pure fences
  else
    reject (¬ admitsEpoch latest r)
      (.bail "revision was signed by a stale or conflicting writer incarnation")
    pure (sortByKey GuildCheckpoint.fenceOrder (fences ++ [fenceOf r]))

/-- The keys of `per_root`, in their order. -/
def retainedRoots (revisions : List (SignedRecord UserRevision)) : List (NodeId × Uuid) :=
  sortByKey toLex (revisions.map GuildCheckpoint.recordChain).dedup

/-- What the loop over the roots changes. -/
structure Retirement where
  tombstones : List RevisionTombstone
  retireThrough : AList fun _ : NodeId × Uuid => U64

/-- The tombstone that ends with a revision. -/
def tombstoneOf (generation : U64) (last : UserRevision) (hash : Bytes 32) : RevisionTombstone where
  owner := last.owner
  protectedRootId := last.protectedRootId
  throughSequence := last.sequence
  lastRevisionId := last.revisionId
  lastRevisionHash := hash
  retiredAtGeneration := generation

/-- The root of a tombstone. -/
def RevisionTombstone.chain (t : RevisionTombstone) : NodeId × Uuid := (t.owner, t.protectedRootId)

/-- The body of the loop over the roots. -/
def retireRoot (generation : U64) (retain : ℕ) (revisions : List (SignedRecord UserRevision))
    (state : Retirement) (chain : NodeId × Uuid) : Outcome NodeError Retirement :=
  let owned := lineage GuildCheckpoint.recordChain chain revisions
  if owned.length ≤ retain then pure state
  else do
    let last ← expect owned[owned.length - retain - 1]?
    let hash ← mapErr .model (last.value.hash C)
    pure
      { tombstones := (state.tombstones.filter fun t => t.chain ≠ chain) ++
          [tombstoneOf generation last.value hash]
        retireThrough := state.retireThrough.insert chain last.value.sequence }

/-- The last `retain` of `apply_revision_retention`: a group that codes a live sector. -/
def codesLive (live : List (Bytes 32)) (group : CodingGroup) : Bool :=
  group.roles.toList.any fun role =>
    match role with
    | .information information => information.sector.id ∈ live
    | .parity _ => false

/-- The vectors that `apply_revision_retention` works on. -/
structure Retained where
  tombstones : List RevisionTombstone
  revisions : List (SignedRecord UserRevision)
  codingGroups : List CodingGroup

/-- `apply_revision_retention`. -/
def applyRevisionRetention (generation : U64) (retain : ℕ) (state : Retained) :
    Outcome NodeError Retained := do
  reject (retain = 0) (.bail "revision retention must keep at least one revision per owner")
  let retirement ← (retainedRoots state.revisions).foldlM
    (retireRoot C generation retain state.revisions) ⟨state.tombstones, ∅⟩
  let revisions := state.revisions.filter fun revision =>
    ¬ isSomeAnd (retirement.retireThrough.lookup (GuildCheckpoint.recordChain revision))
      fun through => revision.value.sequence ≤ through
  let live := revisions.flatMap fun revision => revision.value.sectors.map SectorRef.id
  pure
    { tombstones := sortByKey GuildCheckpoint.tombstoneOrder retirement.tombstones
      revisions := revisions
      codingGroups := state.codingGroups.filter (codesLive live) }

/-- What `commit_backup_job` builds the new checkpoint from. -/
structure RevisionHistory where
  generation : U64
  writerFences : List WriterFence
  revisionTombstones : List RevisionTombstone
  revisions : List (SignedRecord UserRevision)
  codingGroups : List CodingGroup

/-- The `match` on the checkpoint before. -/
def startingHistory : Option GuildCheckpoint → Outcome NodeError RevisionHistory
  | some previous => do
    let generation ← okOr previous.generation.checkedSucc
      (.bail "checkpoint generation exhausted")
    pure ⟨generation, previous.writerFences, previous.revisionTombstones, previous.revisions,
      previous.codingGroups⟩
  | none => pure ⟨1, [], [], [], []⟩

/-- `commit_backup_job`, from the checkpoint before to the history of its successor. -/
def historyAfter (previous : Option GuildCheckpoint) (revision : SignedRecord UserRevision)
    (retain : ℕ) : Outcome NodeError RevisionHistory := do
  let start ← startingHistory previous
  let fences ← includeWriterFence C start.writerFences revision.value
  let retained ← applyRevisionRetention C start.generation retain
    { tombstones := start.revisionTombstones
      revisions := sortByKey GuildCheckpoint.signedOrder (start.revisions ++ [revision])
      codingGroups := sortByKey CodingGroup.id start.codingGroups }
  pure
    { generation := start.generation
      writerFences := fences
      revisionTombstones := retained.tombstones
      revisions := retained.revisions
      codingGroups := retained.codingGroups }

/-- What the new checkpoint takes from elsewhere. -/
structure CheckpointFrame where
  guildId : Bytes 32
  genesisHash : Bytes 32
  parent : Option (Bytes 32)
  members : List Member
  authority : CheckpointAuthority
  packingCatalog : PackedCatalog

/-- The checkpoint that `commit_backup_job` builds.  Its coding groups are cleared. -/
def RevisionHistory.checkpoint (history : RevisionHistory) (frame : CheckpointFrame) :
    GuildCheckpoint where
  formatVersion := 7
  guildId := frame.guildId
  genesisHash := frame.genesisHash
  generation := history.generation
  parent := frame.parent
  members := frame.members
  writerFences := history.writerFences
  revisionTombstones := history.revisionTombstones
  revisions := history.revisions
  codingGroups := []
  authority := some frame.authority
  packingCatalog := some frame.packingCatalog

end Source

namespace GuildCheckpoint

variable {C : Crypto}

/-- The part of `validate_checkpoint_transition` about fences, tombstones and revisions. -/
def checkHistorySince (C : Crypto) (previous next : GuildCheckpoint) : Outcome NodeError Unit := do
  reject (∃ fence ∈ previous.writerFences, fence ∉ next.writerFences)
    (.bail "checkpoint transition drops or changes a writer fence")
  forEach (previous.checkWriter next) next.members
  forEach next.checkOldTombstone previous.revisionTombstones
  forEach (previous.checkNewTombstone C next) next.revisionTombstones
  previous.checkActiveState next

/-! ## The loop over the roots -/

variable {generation : U64} {retain : ℕ} {revisions : List (SignedRecord UserRevision)}
  {chain : NodeId × Uuid} {last : SignedRecord UserRevision}

/-- The last revision that a root loses. -/
def retiredFrom (retain : ℕ) (revisions : List (SignedRecord UserRevision))
    (chain : NodeId × Uuid) : Option (SignedRecord UserRevision) :=
  lastRetired retain (lineage recordChain chain revisions)

lemma retiredFrom_spec (h : retiredFrom retain revisions chain = some last) :
    last ∈ revisions ∧ recordChain last = chain :=
  mem_lineage.mp (mem_of_lastRetired h)

lemma mem_retainedRoots : chain ∈ retainedRoots revisions ↔
    lineage recordChain chain revisions ≠ [] := by
  rw [retainedRoots, mem_sortByKey, mem_dedup, mem_map, Ne, lineage, filter_eq_nil_iff]
  simp

/-- One root: nothing is retired, or the tombstone of the root is replaced. -/
lemma retireRoot_eq_ok {state state' : Retirement} :
    retireRoot C generation retain revisions state chain = .ok state' ↔
      (retiredFrom retain revisions chain = none ∧ state' = state) ∨
      ∃ last hash, retiredFrom retain revisions chain = some last ∧ last.value.hash C = .ok hash ∧
        state' = { tombstones := (state.tombstones.filter fun t => t.chain ≠ chain) ++
                     [tombstoneOf generation last.value hash]
                   retireThrough := state.retireThrough.insert chain last.value.sequence } := by
  rw [retireRoot, retiredFrom, lastRetired]
  split
  case isTrue =>
    rw [pure_eq_ok]
    simp [eq_comm]
  case isFalse =>
    simp only [bind_eq_ok, expect_eq_ok, mapErr_eq_ok, pure_eq_ok]
    constructor
    · rintro ⟨last, hlast, hash, hhash, rfl⟩
      exact .inr ⟨last, hash, hlast, hhash, rfl⟩
    · rintro (⟨hnone, -⟩ | ⟨last, hash, hlast, hhash, rfl⟩)
      · rw [List.getElem?_eq_none_iff] at hnone
        omega
      · exact ⟨last, hlast, hash, hhash, rfl⟩

/-- A tombstone for what a root loses. -/
def Replaces (C : Crypto) (generation : U64) (retain : ℕ)
    (revisions : List (SignedRecord UserRevision)) (t : RevisionTombstone) : Prop :=
  ∃ last hash, retiredFrom retain revisions t.chain = some last ∧ last.value.hash C = .ok hash ∧
    t = tombstoneOf generation last.value hash

/-- What the loop has done after some roots. -/
structure Retired (C : Crypto) (generation : U64) (retain : ℕ)
    (revisions : List (SignedRecord UserRevision)) (tombstones : List RevisionTombstone)
    (before : List (NodeId × Uuid)) (state : Retirement) : Prop where
  mem : ∀ t, t ∈ state.tombstones ↔
    (t ∈ tombstones ∧ (t.chain ∉ before ∨ retiredFrom retain revisions t.chain = none)) ∨
      (t.chain ∈ before ∧ Replaces C generation retain revisions t)
  nodup : (state.tombstones.map RevisionTombstone.chain).Nodup
  through : ∀ chain, state.retireThrough.lookup chain =
    if chain ∈ before then
      (retiredFrom retain revisions chain).map fun last => last.value.sequence
    else none

variable {tombstones : List RevisionTombstone} {before : List (NodeId × Uuid)}
  {state state' : Retirement}

lemma chain_tombstoneOf (h : retiredFrom retain revisions chain = some last) {hash : Bytes 32} :
    (tombstoneOf generation last.value hash).chain = chain := (retiredFrom_spec h).2

lemma Retired.step (h : Retired C generation retain revisions tombstones before state)
    (hstep : retireRoot C generation retain revisions state chain = .ok state') :
    Retired C generation retain revisions tombstones (before ++ [chain]) state' := by
  rcases retireRoot_eq_ok.mp hstep with ⟨hnone, rfl⟩ | ⟨last, hash, hlast, hhash, rfl⟩
  · -- a root that loses nothing is as good as one not yet visited
    have hreplaces : ∀ t : RevisionTombstone, t.chain = chain →
        ¬ Replaces C generation retain revisions t := by
      rintro t rfl ⟨last, hash, hlast, -⟩
      rw [hnone] at hlast
      cases hlast
    refine ⟨fun t => ?_, h.nodup, fun g => ?_⟩
    · rw [h.mem]
      by_cases ht : t.chain = chain
      · simp [ht, hnone, hreplaces t ht]
      · simp [ht]
    · rw [h.through]
      by_cases hg : g = chain
      · simp [hg, hnone]
      · simp [hg]
  · have hchain : (tombstoneOf generation last.value hash).chain = chain := chain_tombstoneOf hlast
    refine ⟨fun t => ?_, ?_, fun g => ?_⟩
    · rw [mem_append, mem_filter, mem_singleton, h.mem]
      by_cases ht : t.chain = chain
      · have hreplaces : Replaces C generation retain revisions t ↔
            t = tombstoneOf generation last.value hash := by
          constructor
          · rintro ⟨last', hash', hlast', hhash', rfl⟩
            rw [ht, hlast] at hlast'
            obtain rfl := Option.some.inj hlast'
            rw [hhash] at hhash'
            rw [Except.ok.inj hhash']
          · rintro rfl
            exact ⟨last, hash, by rw [hchain]; exact hlast, hhash, rfl⟩
        simp [ht, hlast, hreplaces]
      · have hne : t ≠ tombstoneOf generation last.value hash := by
          rintro rfl
          exact ht hchain
        simp [ht, hne]
    · rw [map_append, map_singleton, nodup_append]
      refine ⟨h.nodup.sublist (filter_sublist.map _), nodup_singleton _, ?_⟩
      intro g hg g' hg' heq
      obtain ⟨t, ht, rfl⟩ := mem_map.mp hg
      rw [mem_singleton.mp hg', hchain] at heq
      have hne : t.chain ≠ chain := by simpa using (mem_filter.mp ht).2
      exact hne heq
    · by_cases hg : g = chain
      · subst hg
        simp [hlast]
      · rw [AList.lookup_insert_ne hg, h.through]
        simp [hg]

/-- The loop does not fail when the revisions have hashes. -/
lemma retireRoots_succeeds (hhashed : ∀ r ∈ revisions, Succeeds (r.value.hash C))
    (roots : List (NodeId × Uuid)) (state : Retirement) :
    Succeeds (replay (retireRoot C generation retain revisions) state roots) := by
  induction roots generalizing state with
  | nil => exact ⟨state, rfl⟩
  | cons chain roots ih =>
    obtain ⟨m, hm⟩ : ∃ m, retireRoot C generation retain revisions state chain = .ok m := by
      cases hlast : retiredFrom retain revisions chain with
      | none => exact ⟨state, retireRoot_eq_ok.mpr (.inl ⟨hlast, rfl⟩)⟩
      | some last =>
        obtain ⟨hash, hhash⟩ := hhashed last (retiredFrom_spec hlast).1
        exact ⟨_, retireRoot_eq_ok.mpr (.inr ⟨last, hash, hlast, hhash, rfl⟩)⟩
    obtain ⟨t, ht⟩ := ih m
    exact ⟨t, replay_cons.mpr ⟨m, hm, ht⟩⟩

/-- A revision stays unless the last revision that its root loses is not before it. -/
def staysIn (retain : ℕ) (revisions : List (SignedRecord UserRevision))
    (r : SignedRecord UserRevision) : Prop :=
  ∀ last ∈ retiredFrom retain revisions (recordChain r), last.value.sequence < r.value.sequence

instance (retain : ℕ) (revisions : List (SignedRecord UserRevision))
    (r : SignedRecord UserRevision) : Decidable (staysIn retain revisions r) :=
  match h : retiredFrom retain revisions (recordChain r) with
  | none => .isTrue (by intro last hlast; rw [h] at hlast; cases hlast)
  | some last => decidable_of_iff (last.value.sequence < r.value.sequence)
      (by rw [staysIn, h]; simp)

/-- **What retention leaves.** -/
lemma applyRevisionRetention_spec (generation : U64) (hretain : retain ≠ 0)
    (hhashed : ∀ r ∈ revisions, Succeeds (r.value.hash C))
    (hnodup : (tombstones.map RevisionTombstone.chain).Nodup) (groups : List CodingGroup) :
    ∃ kept, applyRevisionRetention C generation retain ⟨tombstones, revisions, groups⟩ = .ok kept ∧
      kept.revisions = revisions.filter (staysIn retain revisions) ∧
      Ascending tombstoneOrder kept.tombstones ∧
      ∀ t, t ∈ kept.tombstones ↔ (t ∈ tombstones ∧ retiredFrom retain revisions t.chain = none) ∨
          Replaces C generation retain revisions t := by
  obtain ⟨state, hstate⟩ : Succeeds (replay (retireRoot C generation retain revisions)
      ⟨tombstones, ∅⟩ (retainedRoots revisions)) := retireRoots_succeeds hhashed _ _
  have hretired : Retired C generation retain revisions tombstones (retainedRoots revisions)
      state := by
    refine replay_history (P := Retired C generation retain revisions tombstones) ?_
      (fun _ _ _ _ hs ht => hs.step ht) hstate
    exact ⟨by simp, hnodup, by simp⟩
  -- a root without revisions loses none
  have hroots : ∀ g, g ∉ retainedRoots revisions → retiredFrom retain revisions g = none := by
    intro g hg
    rw [mem_retainedRoots, not_not] at hg
    rw [retiredFrom, hg, lastRetired_eq_none]
    exact Nat.zero_le _
  refine ⟨_, bind_eq_ok.mpr ⟨(), reject_eq_ok.mpr hretain, bind_eq_ok.mpr ⟨state, hstate, rfl⟩⟩,
    ?_, ?_, fun t => ?_⟩
  · refine filter_congr fun r hr => ?_
    have hroot : recordChain r ∈ retainedRoots revisions :=
      mem_retainedRoots.mpr (ne_nil_of_mem (mem_lineage.mpr ⟨hr, rfl⟩))
    rw [hretired.through, if_pos hroot, decide_eq_decide, staysIn]
    simp [isSomeAnd]
  · refine ascending_sortByKey ?_
    exact hretired.nodup
  · rw [mem_sortByKey, hretired.mem]
    by_cases hroot : t.chain ∈ retainedRoots revisions
    · simp [hroot]
    · have hnone := hroots _ hroot
      have hreplaces : ¬ Replaces C generation retain revisions t := by
        rintro ⟨last, hash, hlast, -⟩
        rw [hnone] at hlast
        cases hlast
      simp [hroot, hnone, hreplaces]

/-! ## The fence of the writer -/

variable {fences fences' : List WriterFence} {r : SignedRecord UserRevision}

/-- The fences of an owner are sorted by their epochs. -/
lemma ascending_epochs (h : Ascending fenceOrder fences) (owner : NodeId) :
    Ascending WriterFence.epoch (lineage WriterFence.owner owner fences) := by
  refine (h.lineage owner).imp_of_mem fun {f f'} hf hf' hlt => ?_
  rw [fenceOrder, fenceOrder, (mem_lineage.mp hf).2, (mem_lineage.mp hf').2,
    Prod.Lex.toLex_lt_toLex] at hlt
  rcases hlt with hlt | ⟨-, hlt⟩
  · exact absurd hlt (lt_irrefl _)
  · exact hlt

/-- What `include_writer_fence` does: the newest fence of the owner is that of the writer, or
becomes it. -/
structure FencesAfter (C : Crypto) (fences : List WriterFence) (r : UserRevision)
    (fences' : List WriterFence) : Prop where
  written : r.verifyWriter C = .ok ()
  cases : ((lineage WriterFence.owner r.owner fences).getLast? = some (fenceOf r) ∧
      fences' = fences) ∨
    (LinksTo (fun fence => fence.epoch = 1) nextFence
        (lineage WriterFence.owner r.owner fences).getLast? (fenceOf r) ∧
      fences' = sortByKey fenceOrder (fences ++ [fenceOf r]))

lemma includeWriterFence_eq_ok (hasc : Ascending fenceOrder fences) {r : UserRevision}
    (h : includeWriterFence C fences r = .ok fences') : FencesAfter C fences r fences' := by
  have hlatest : maxByKey WriterFence.epoch (fences.filter fun fence => fence.owner = r.owner) =
      (lineage WriterFence.owner r.owner fences).getLast? :=
    (ascending_epochs hasc r.owner).maxByKey_eq_getLast?
  rw [includeWriterFence] at h
  simp only [bind_eq_ok, mapErr_eq_ok, exists_unit, hlatest] at h
  obtain ⟨hwritten, h⟩ := h
  refine ⟨hwritten, ?_⟩
  split at h
  case isTrue hsame =>
    obtain ⟨fence, hfence, hepoch, hkey⟩ := hsame
    have hfenceOf : fence = fenceOf r := by
      rw [fenceOf, ← hepoch, ← hkey, ← group_of_getLast? hfence]
    rw [pure_eq_ok] at h
    exact .inl ⟨hfenceOf ▸ hfence, h.symm⟩
  case isFalse =>
    simp only [bind_eq_ok, reject_eq_ok, exists_unit, pure_eq_ok, not_not] at h
    refine .inr ⟨?_, h.2.symm⟩
    cases hlast : (lineage WriterFence.owner r.owner fences).getLast? with
    | none =>
      rw [hlast] at h
      exact h.1
    | some fence =>
      rw [hlast] at h
      exact h.1

/-- The fence of a verified writer. -/
lemma fenceSound_of_writer {c : GuildCheckpoint} (hformat : c.formatVersion ≠ 3) {r : UserRevision}
    (h : r.verifyWriter C = .ok ()) : FenceSound C c (fenceOf r) := by
  rw [UserRevision.verifyWriter, verifyUnder] at h
  simp only [bind_eq_ok, reject_eq_ok, exists_unit, okOr_eq_ok, Crypto.verifyingKey_eq_some,
    not_or] at h
  obtain ⟨⟨hepoch, -⟩, key, ⟨hpoint, rfl⟩, hweak, -⟩ := h
  exact ⟨hpoint, hweak, hepoch, fun h => absurd h hformat⟩

namespace FencesAfter

variable {b c : GuildCheckpoint} {r : UserRevision}

lemma mem_of_mem (h : FencesAfter C fences r fences') {fence : WriterFence} (hf : fence ∈ fences) :
    fence ∈ fences' := by
  rcases h.cases with ⟨-, rfl⟩ | ⟨-, rfl⟩
  · exact hf
  · simp [hf]

variable (hb : FencesSound C b fences)

include hb

/-- A new fence comes after those of its owner. -/
lemma sorted (hnext : LinksTo (fun fence => fence.epoch = 1) nextFence
      (lineage WriterFence.owner r.owner fences).getLast? (fenceOf r)) :
    Ascending fenceOrder (sortByKey fenceOrder (fences ++ [fenceOf r])) ∧
      ∀ owner, lineage WriterFence.owner owner (sortByKey fenceOrder (fences ++ [fenceOf r])) =
        lineage WriterFence.owner owner (fences ++ [fenceOf r]) := by
  have hlater : ∀ last ∈ (lineage WriterFence.owner r.owner fences).getLast?,
      last.epoch < r.writerEpoch := by
    intro last hlast
    rw [Option.mem_def.mp hlast] at hnext
    have : r.writerEpoch.val = last.epoch.val + 1 := U64.checkedSucc_eq_some.mp hnext
    exact Fin.lt_def.mpr (by omega)
  refine lineage_sortByKey (x := fenceOf r) hb.ascending ?_ ?_
  · -- the key of the new fence is new, for its epoch is above those of its owner
    intro fence hfence hsame
    obtain ⟨howner, hepoch⟩ := Prod.mk.inj (toLex.injective hsame)
    have hmem : fence ∈ lineage WriterFence.owner r.owner fences := mem_lineage.mpr ⟨hfence, howner⟩
    obtain ⟨last, hlast⟩ := Option.isSome_iff_exists.mp
      (getLast?_isSome.mpr (ne_nil_of_mem hmem))
    have hle := (ascending_epochs hb.ascending r.owner).le_getLast hlast hmem
    rw [show fence.epoch = r.writerEpoch from hepoch] at hle
    exact absurd (hlater last hlast) (not_lt.mpr hle)
  · intro last hlast
    have howner : last.owner = r.owner := group_of_getLast? hlast
    rw [fenceOrder, fenceOrder, Prod.Lex.toLex_lt_toLex]
    exact .inr ⟨howner, hlater last hlast⟩

section

variable (h : FencesAfter C fences r fences')

include h

lemma lineage_self : (lineage WriterFence.owner r.owner fences').getLast? = some (fenceOf r) := by
  rcases h.cases with ⟨hlast, rfl⟩ | ⟨hnext, rfl⟩
  · exact hlast
  · have hself : lineage WriterFence.owner r.owner (fences ++ [fenceOf r]) =
        lineage WriterFence.owner r.owner fences ++ [fenceOf r] :=
      lineage_append_self (x := fenceOf r)
    rw [(sorted hb hnext).2, hself, getLast?_concat]

lemma lineage_other {owner : NodeId} (howner : r.owner ≠ owner) :
    lineage WriterFence.owner owner fences' = lineage WriterFence.owner owner fences := by
  rcases h.cases with ⟨-, rfl⟩ | ⟨hnext, rfl⟩
  · rfl
  · rw [(sorted hb hnext).2]
    exact lineage_append_ne howner

lemma sound (hformat : c.formatVersion ≠ 3) : FencesSound C c fences' := by
  have hold : ∀ fence ∈ fences, FenceSound C c fence := fun fence hf =>
    ⟨(hb.sound fence hf).point, (hb.sound fence hf).strong, (hb.sound fence hf).epoch_ne,
      fun h => absurd h hformat⟩
  rcases h.cases with ⟨-, rfl⟩ | ⟨hnext, rfl⟩
  · exact ⟨hold, hb.ascending, hb.lineages⟩
  · refine ⟨fun fence hf => ?_, (sorted hb hnext).1, fun owner => ?_⟩
    · rw [mem_sortByKey, mem_append, mem_singleton] at hf
      rcases hf with hf | rfl
      · exact hold fence hf
      · exact fenceSound_of_writer hformat h.written
    · rw [(sorted hb hnext).2]
      exact lineages_append_singleton.mpr ⟨hb.lineages, hnext⟩ owner

/-- No fence of the owner is above the writer. -/
lemma epoch_le (hformat : c.formatVersion ≠ 3) {fence : WriterFence} (hf : fence ∈ fences')
    (howner : fence.owner = r.owner) : fence.epoch ≤ r.writerEpoch := by
  have hasc := ascending_epochs (h.sound hb hformat).ascending r.owner
  exact hasc.le_getLast (h.lineage_self hb) (mem_lineage.mpr ⟨hf, howner⟩)

end

end FencesAfter

end GuildCheckpoint

end MutualBackup
