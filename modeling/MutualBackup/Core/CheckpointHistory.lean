import MutualBackup.Framework.Lineages
import MutualBackup.Core.CheckpointSectors

/-!
# The history rules of a checkpoint

Between its members and its packing catalog `GuildCheckpoint.validate` runs three passes, over the
writer fences, the tombstones and the revisions, and then compares what they have collected.
`checkHistory` is that part of it.  The passes are stateful, and `History` says what they accept
without the state: fences and revisions are good records in their order, the epochs of an owner and
the revisions of a root are lineages, revisions agree on the sectors they share, the newest fence of
an owner is in use and a tombstone has something above it.

`checkHistory_succeeds_iff` is exact in both directions, so a vector that is built can be shown to
pass the loops without running them.
-/

namespace MutualBackup

open Framework List

namespace GuildCheckpoint

variable {C : Crypto} {c : GuildCheckpoint}

/-- The part of `validate` between the members and the packing catalog. -/
def checkHistory (C : Crypto) (c : GuildCheckpoint) : Outcome ModelError RevisionScan := do
  let fences ← c.writerFences.foldlM (c.checkFence C) ⟨none, ∅⟩
  scanFrom tombstoneOrder c.checkTombstone none c.revisionTombstones
  let scan ← c.revisions.foldlM (c.checkRevision C) .empty
  reject (¬ fencesInUse fences.latest scan) .invalidCheckpoint
  reject (∃ t ∈ c.revisionTombstones, (t.owner, t.protectedRootId) ∉ scan.heads) .invalidCheckpoint
  pure scan

lemma validate_eq (C : Crypto) (c : GuildCheckpoint) : c.validate C = (do
    c.checkHeader
    c.checkExtensions C
    scanFrom Member.nodeId (checkMember C) none c.members
    let scan ← c.checkHistory C
    c.checkCatalog scan
    c.checkGroups C scan) := by
  simp only [validate, checkHistory, bind_assoc, pure_bind]

/-! ## Fences -/

/-- What the fence loop asks of a fence alone. -/
structure FenceSound (C : Crypto) (c : GuildCheckpoint) (fence : WriterFence) : Prop where
  point : C.isPoint fence.publicKey
  strong : ¬ C.isWeak fence.publicKey
  epoch_ne : fence.epoch ≠ 0
  member : c.formatVersion = 3 → fence.owner ∈ c.memberIds

/-- The next epoch of an owner. -/
def nextFence (fence fence' : WriterFence) : Prop := fence.epoch.checkedSucc = some fence'.epoch

/-- The fences are sorted, and those of an owner are numbered from one without a gap. -/
structure FencesSound (C : Crypto) (c : GuildCheckpoint) (fences : List WriterFence) : Prop where
  sound : ∀ fence ∈ fences, FenceSound C c fence
  ascending : Ascending fenceOrder fences
  lineages : Lineages WriterFence.owner (fun fence => fence.epoch = 1) nextFence fences

/-- What the fence loop knows after some fences. -/
def fenceScan (fences : List WriterFence) : FenceScan where
  previous := fences.getLast?.map fenceOrder
  latest := fences.foldl (fun m fence => m.insert fence.owner fence.epoch) ∅

variable {fences : List WriterFence}

lemma followsFence_iff {fence : WriterFence} :
    followsFence ((fenceScan fences).latest.lookup fence.owner) fence.epoch ↔
      LinksTo (fun fence => fence.epoch = 1) nextFence
        (lineage WriterFence.owner fence.owner fences).getLast? fence := by
  rw [fenceScan, lookup_foldl_lineage]
  cases (lineage WriterFence.owner fence.owner fences).getLast? <;> rfl

lemma checkFence_iff {fence : WriterFence} {scan : FenceScan} :
    c.checkFence C (fenceScan fences) fence = .ok scan ↔
      (FenceSound C c fence ∧ (∀ last ∈ fences.getLast?, fenceOrder last < fenceOrder fence) ∧
        LinksTo (fun fence => fence.epoch = 1) nextFence
          (lineage WriterFence.owner fence.owner fences).getLast? fence) ∧
      scan = fenceScan (fences ++ [fence]) := by
  have hscan : fenceScan (fences ++ [fence]) =
      ⟨some (fenceOrder fence), (fenceScan fences).latest.insert fence.owner fence.epoch⟩ := by
    simp [fenceScan, foldl_append]
  rw [checkFence]
  simp only [bind_eq_ok, okOr_eq_ok, Crypto.verifyingKey_eq_some, reject_eq_ok, exists_unit,
    pure_eq_ok, not_not, followsFence_iff, hscan]
  simp only [isSomeAnd, not_or, not_exists, not_and, not_le, fenceScan, Option.mem_def,
    Option.map_eq_some_iff, forall_exists_index, and_imp, forall_apply_eq_imp_iff₂]
  constructor
  · rintro ⟨key, ⟨hpoint, rfl⟩, ⟨hlast, hmember, hepoch, hweak⟩, hnext, rfl⟩
    exact ⟨⟨⟨hpoint, hweak, hepoch, fun h => not_not.mp (hmember h)⟩, hlast, hnext⟩, rfl⟩
  · rintro ⟨⟨hsound, hlast, hnext⟩, rfl⟩
    exact ⟨_, ⟨hsound.point, rfl⟩,
      ⟨hlast, fun h => not_not.mpr (hsound.member h), hsound.epoch_ne, hsound.strong⟩, hnext, rfl⟩

/-- The fence loop accepts sound fences and remembers the newest one of every owner. -/
lemma checkFences_eq_ok {scan : FenceScan} :
    replay (c.checkFence C) ⟨none, ∅⟩ fences = .ok scan ↔
      FencesSound C c fences ∧ scan = fenceScan fences := by
  refine replay_eq_ok_iff (FencesSound C c) fenceScan ⟨by simp, Pairwise.nil, lineages_nil⟩
    (fun fences fence h => ?_) fun fences fence scan h => ?_
  · exact ⟨fun f hf => h.sound f (mem_append_left _ hf),
      (ascending_append_singleton.mp h.ascending).1, (lineages_append_singleton.mp h.lineages).1⟩
  · rw [checkFence_iff]
    refine and_congr_left fun _ => ⟨?_, fun hnext => ?_⟩
    · rintro ⟨hsound, hlast, hnext⟩
      refine ⟨?_, ascending_append_singleton.mpr ⟨h.ascending, hlast⟩,
        lineages_append_singleton.mpr ⟨h.lineages, hnext⟩⟩
      simpa [or_imp, forall_and] using ⟨h.sound, hsound⟩
    · exact ⟨hnext.sound fence (by simp), (ascending_append_singleton.mp hnext.ascending).2,
        (lineages_append_singleton.mp hnext.lineages).2⟩

/-! ## Shared sectors -/

/-- Two uses of a sector agree: on its owner, its root and its reference, and on the commitment when
both have one. -/
structure Agree (u u' : SectorUse) : Prop where
  rooted : u.sector.id = u'.sector.id → u.rooted.2 = u'.rooted.2
  committed : u.object = u'.object → ∀ m ∈ u.commitment, ∀ m' ∈ u'.commitment, m = m'

lemma Agree.refl (u : SectorUse) : Agree u u :=
  ⟨fun _ => rfl, fun _ _ hm _ hm' => Option.mem_unique hm hm'⟩

lemma Agree.symm {u u' : SectorUse} (h : Agree u u') : Agree u' u :=
  ⟨fun hid => (h.rooted hid.symm).symm,
    fun hobject m' hm' m hm => (h.committed hobject.symm m hm m' hm').symm⟩

/-- All uses agree. -/
def Consistent (uses : List SectorUse) : Prop := ∀ u ∈ uses, ∀ u' ∈ uses, Agree u u'

lemma Consistent.mono {uses uses' : List SectorUse} (h : Consistent uses)
    (hsub : ∀ u ∈ uses', u ∈ uses) : Consistent uses' :=
  fun u hu u' hu' => h u (hsub u hu) u' (hsub u' hu')

lemma consistent_append_singleton {uses : List SectorUse} {u : SectorUse} :
    Consistent (uses ++ [u]) ↔ Consistent uses ∧ ∀ u' ∈ uses, Agree u' u := by
  constructor
  · intro h
    exact ⟨h.mono fun v hv => mem_append_left _ hv,
      fun u' hu' => h u' (mem_append_left _ hu') u (by simp)⟩
  · rintro ⟨h, hu⟩ v hv w hw
    simp only [mem_append, mem_singleton] at hv hw
    rcases hv with hv | rfl <;> rcases hw with hw | rfl
    · exact h v hv w hw
    · exact hu v hv
    · exact (hu w hw).symm
    · exact Agree.refl _

/-- The length of a reference. -/
def fitsSector (s : SectorRef) : Prop := s.logicalLen ≠ 0 ∧ s.logicalLen.val ≤ v1SectorSize

variable {uses : List SectorUse} {scan scan' : RevisionScan} {u : SectorUse}

section

variable (h : Indexed uses scan)

include h

lemma Indexed.rooted_iff :
    (∀ v ∈ scan.scopedSectors.lookup u.sector.id, v = u.rooted.2) ↔
      ∀ w ∈ uses, w.sector.id = u.sector.id → w.rooted.2 = u.rooted.2 := by
  constructor
  · intro hv w hw hid
    refine hv _ ((h.rooted _ _).mpr ?_)
    exact mem_map.mpr ⟨w, hw, Prod.ext hid rfl⟩
  · intro hw v hv
    obtain ⟨w, hmem, hrooted⟩ := mem_map.mp ((h.rooted _ _).mp hv)
    rw [← hw w hmem (congrArg Prod.fst hrooted)]
    exact (congrArg Prod.snd hrooted).symm

/-- Uses that agree on the reference of a sector agree on its flat root. -/
lemma Indexed.flatRoot_eq
    (hsame : ∀ w ∈ uses, w.sector.id = u.sector.id → w.rooted.2 = u.rooted.2) :
    ∀ v ∈ scan.flatRoots.lookup u.object, v = u.sector.root := by
  intro v hv
  obtain ⟨w, hmem, hpair⟩ := mem_map.mp ((h.flatRoots _ _).mp hv)
  obtain ⟨hobject, rfl⟩ := Prod.mk.inj hpair
  have hid : w.sector.id = u.sector.id := congrArg (fun key => key.2.2) hobject
  exact congrArg (fun place => place.2.2.root) (hsame w hmem hid)

lemma Indexed.committed_iff :
    Succeeds (insertCommitment scan.commitments u.object u.commitment) ↔
      ∀ w ∈ uses, w.object = u.object → ∀ m ∈ w.commitment, ∀ m' ∈ u.commitment, m = m' := by
  cases hcommitment : u.commitment with
  | none => simp [insertCommitment, Succeeds]
  | some m' =>
    simp only [insertCommitment, Succeeds, insertSame_eq_ok, exists_and_left, exists_eq, and_true,
      Option.mem_some_iff, forall_eq']
    constructor
    · intro hv w hw hobject m hm
      refine hv m ((h.commitments _ _).mpr (mem_filterMap.mpr ⟨w, hw, ?_⟩))
      rw [SectorUse.committed, Option.mem_def.mp hm, ← hobject]
      rfl
    · intro hw v hv
      obtain ⟨w, hmem, hentry⟩ := mem_filterMap.mp ((h.commitments _ _).mp hv)
      obtain ⟨m, hm, hpair⟩ := Option.map_eq_some_iff.mp hentry
      obtain ⟨hobject, rfl⟩ := Prod.mk.inj hpair
      exact hw w hmem hobject m hm

variable {r : UserRevision}

/-- Maps that hold the uses so far refuse a use exactly when it disagrees with one of them. -/
lemma Indexed.checkSectorRef_succeeds {entry : SectorRef × ℕ} :
    Succeeds (GuildCheckpoint.checkSectorRef r scan entry) ↔
      fitsSector entry.1 ∧ ∀ u ∈ uses, Agree u ⟨r, entry.1, entry.2⟩ := by
  constructor
  · rintro ⟨scan', hstep⟩
    rw [GuildCheckpoint.checkSectorRef] at hstep
    simp only [bind_eq_ok, reject_eq_ok, exists_unit, pure_eq_ok, not_or, not_lt] at hstep
    obtain ⟨hfits, _, hsame, _, -, _, hcommit, -⟩ := hstep
    have hrooted := (h.rooted_iff (u := ⟨r, entry.1, entry.2⟩)).mp (insertSame_eq_ok.mp hsame).1
    have hcommitted := (h.committed_iff (u := ⟨r, entry.1, entry.2⟩)).mp ⟨_, hcommit⟩
    exact ⟨hfits, fun u hu => ⟨hrooted u hu, hcommitted u hu⟩⟩
  · rintro ⟨hfits, hagree⟩
    have hrooted := fun u hu => (hagree u hu).rooted
    obtain ⟨m, hm⟩ := h.committed_iff.mpr fun u hu => (hagree u hu).committed
    rw [GuildCheckpoint.checkSectorRef, Succeeds]
    simp only [bind_eq_ok, reject_eq_ok, exists_unit, pure_eq_ok, not_or, not_lt]
    exact ⟨_, hfits, _, insertSame_eq_ok.mpr ⟨h.rooted_iff.mpr hrooted, rfl⟩, _,
      insertSame_eq_ok.mpr ⟨h.flatRoot_eq hrooted, rfl⟩, m, hm, rfl⟩

/-- The loop over the sectors of a revision. -/
lemma Indexed.checkSectorRefs_succeeds (huses : Consistent uses) {entries : List (SectorRef × ℕ)} :
    Succeeds (replay (GuildCheckpoint.checkSectorRef r) scan entries) ↔
      (∀ entry ∈ entries, fitsSector entry.1) ∧
        Consistent (uses ++ entries.map fun entry => ⟨r, entry.1, entry.2⟩) := by
  refine replay_succeeds_iff
    (P := fun (before : List (SectorRef × ℕ)) s =>
      Indexed (uses ++ before.map fun entry => ⟨r, entry.1, entry.2⟩) s)
    (fun entries => (∀ entry ∈ entries, fitsSector entry.1) ∧
      Consistent (uses ++ entries.map fun entry => ⟨r, entry.1, entry.2⟩))
    (by simpa using h) ?_ (by simpa using huses) ?_ ?_
  · intro before s entry t hs ht
    rw [map_append, ← append_assoc]
    exact hs.checkSectorRef ht
  · rintro entries entry ⟨hfits, hconsistent⟩
    refine ⟨fun e he => hfits e (mem_append_left _ he), hconsistent.mono fun u hu => ?_⟩
    rw [map_append, ← append_assoc]
    exact mem_append_left _ hu
  · rintro before s entry hs ⟨hfits, hconsistent⟩
    have hmem : (∀ e ∈ before ++ [entry], fitsSector e.1) ↔ fitsSector entry.1 := by
      rw [forall_mem_append, forall_mem_singleton, and_iff_right hfits]
    rw [hs.checkSectorRef_succeeds, map_append, ← append_assoc, map_singleton,
      consistent_append_singleton, hmem, and_iff_right hconsistent]

end

/-! ## Revisions -/

/-- What the revision loop asks of a revision alone, and of the fence it was written under. -/
structure RevisionSound (C : Crypto) (c : GuildCheckpoint) (revision : SignedRecord UserRevision) :
    Prop where
  signed : revision.verify C UserRevision.codec userRevisionDomain = .ok ()
  written : revision.value.verifyWriter C = .ok ()
  signer : revision.signer = revision.value.owner
  member : c.formatVersion = 3 → revision.signer ∈ c.memberIds
  versioned : revisionVersioned revision.value
  guild : revision.value.guildId = c.guildId
  root_ne : ¬ revision.value.protectedRootId.isNil
  cipher : revision.value.cipherProfile = v1CipherProfile
  sequence_ne : revision.value.sequence ≠ 0
  metadata_ne : revision.value.metadataSectors ≠ []
  commitments : ∀ commitments ∈ revision.value.sectorCommitments, commitments.length =
      revision.value.metadataSectors.length + revision.value.dataSectors.length ∧
    ∀ m ∈ commitments, m.byteLen.val = v1SectorSize ∧ Succeeds m.validate
  fits : ∀ s ∈ revision.value.sectors, fitsSector s
  hashed : Succeeds (revision.value.hash C)
  fenced : c.fenceKey revision.value.owner revision.value.writerEpoch =
    some revision.value.writerPublicKey

/-- The first revision of a chain comes after the tombstone, or is number one. -/
def startsChain (c : GuildCheckpoint) (r : SignedRecord UserRevision) : Prop :=
  extendsChain none (c.tombstone r.value.owner r.value.protectedRootId) r.value

/-- The next revision of a chain. -/
def nextRevision (C : Crypto) (r r' : SignedRecord UserRevision) : Prop :=
  r.value.sequence.checkedSucc = some r'.value.sequence ∧
    (∃ hash, r.value.hash C = .ok hash ∧ r'.value.parent = some hash) ∧
    r.value.writerEpoch ≤ r'.value.writerEpoch

def signedOrder (r : SignedRecord UserRevision) : NodeId ×ₗ Uuid ×ₗ U64 ×ₗ Uuid :=
  revisionOrder r.value

/-- The revisions are sorted and distinct, those of a root are one chain, and those that share a
sector agree on it. -/
structure RevisionsSound (C : Crypto) (c : GuildCheckpoint)
    (revisions : List (SignedRecord UserRevision)) : Prop where
  sound : ∀ r ∈ revisions, RevisionSound C c r
  ascending : Ascending signedOrder revisions
  ids : (revisions.map fun r => r.value.revisionId).Nodup
  lineages : Lineages recordChain c.startsChain (nextRevision C) revisions
  consistent : Consistent (revisions.flatMap fun r => r.value.uses)

/-- A revision as the head of its chain. -/
def headOf (C : Crypto) (r : SignedRecord UserRevision) : Option RevisionHead :=
  match r.value.hash C with
  | .ok hash => some ⟨r.value.sequence, hash, r.value.writerEpoch⟩
  | .error _ => none

/-- What the revision loop knows after some revisions. -/
structure Scanned (C : Crypto) (before : List (SignedRecord UserRevision)) (scan : RevisionScan) :
    Prop where
  previous : scan.previous = before.getLast?.map signedOrder
  ids : scan.revisionIds = (before.map fun r => r.value.revisionId).reverse
  heads : ∀ chain, scan.heads.lookup chain =
    (lineage recordChain chain before).getLast?.bind (headOf C)
  indexed : Indexed (before.flatMap fun r => r.value.uses) scan

variable {before : List (SignedRecord UserRevision)} {revision : SignedRecord UserRevision}

lemma scanned_nil : Scanned C [] .empty :=
  ⟨rfl, rfl, fun _ => rfl, keeps_empty, keeps_empty, keeps_empty, keeps_empty⟩

lemma headOf_of_hash {hash : Bytes 32} (h : revision.value.hash C = .ok hash) :
    headOf C revision = some ⟨revision.value.sequence, hash, revision.value.writerEpoch⟩ := by
  rw [headOf, h]

section

variable (h : Scanned C before scan)

include h

lemma checkRevisionShape_eq_ok :
    c.checkRevisionShape scan revision = .ok () ↔
      (∀ last ∈ before.getLast?, signedOrder last < signedOrder revision) ∧
      revision.signer = revision.value.owner ∧
      (c.formatVersion = 3 → revision.signer ∈ c.memberIds) ∧ revisionVersioned revision.value ∧
      revision.value.guildId = c.guildId ∧ ¬ revision.value.protectedRootId.isNil ∧
      revision.value.cipherProfile = v1CipherProfile ∧ revision.value.sequence ≠ 0 ∧
      revision.value.metadataSectors ≠ [] ∧
      revision.value.revisionId ∉ before.map (fun r => r.value.revisionId) ∧
      ∀ commitments ∈ revision.value.sectorCommitments, commitments.length =
          revision.value.metadataSectors.length + revision.value.dataSectors.length ∧
        ∀ m ∈ commitments, m.byteLen.val = v1SectorSize ∧ Succeeds m.validate := by
  rw [checkRevisionShape]
  simp only [bind_eq_ok, reject_eq_ok, exists_unit, h.previous, h.ids, mem_reverse]
  simp only [isSomeAnd, Option.mem_def, Option.map_eq_some_iff, not_or, not_exists, not_and,
    not_not, forall_exists_index, and_imp, forall_apply_eq_imp_iff₂, not_le, ne_eq]
  constructor
  · rintro ⟨⟨hlast, hsigner, hmember, hversion, hguild, hroot, hcipher, hseq, hmeta, hid⟩, hcommit⟩
    exact ⟨hlast, hsigner, hmember, hversion, hguild, hroot, hcipher, hseq, hmeta, hid,
      fun commitments hmem => hcommit commitments hmem⟩
  · rintro ⟨hlast, hsigner, hmember, hversion, hguild, hroot, hcipher, hseq, hmeta, hid, hcommit⟩
    exact ⟨⟨hlast, hsigner, hmember, hversion, hguild, hroot, hcipher, hseq, hmeta, hid⟩,
      fun commitments hmem => hcommit commitments hmem⟩

variable (hhashed : ∀ r ∈ before, Succeeds (r.value.hash C))

include hhashed

/-- The guard of the chain, in terms of the revision before. -/
lemma Scanned.extendsChain_iff :
    extendsChain (scan.heads.lookup (recordChain revision))
        (c.tombstone revision.value.owner revision.value.protectedRootId) revision.value ↔
      LinksTo c.startsChain (nextRevision C)
        (lineage recordChain (recordChain revision) before).getLast? revision := by
  rw [h.heads]
  cases hlast : (lineage recordChain (recordChain revision) before).getLast? with
  | none => rfl
  | some last =>
    obtain ⟨hash, hhash⟩ := hhashed last (mem_lineage.mp (mem_of_getLast? hlast)).1
    rw [Option.bind_some, headOf_of_hash hhash]
    simp [extendsChain, LinksTo, nextRevision, hhash]

lemma fencesInUse_iff :
    fencesInUse (fenceScan fences).latest scan ↔
      ∀ owner, ∀ fence ∈ (lineage WriterFence.owner owner fences).getLast?,
        ∃ chain : NodeId × Uuid, chain.1 = owner ∧
          ∃ last ∈ (lineage recordChain chain before).getLast?,
            last.value.writerEpoch = fence.epoch := by
  have hlatest : ∀ owner epoch, ⟨owner, epoch⟩ ∈ (fenceScan fences).latest.entries ↔
      ∃ fence ∈ (lineage WriterFence.owner owner fences).getLast?, fence.epoch = epoch := by
    intro owner epoch
    rw [← AList.mem_lookup_iff, fenceScan, lookup_foldl_lineage]
    exact Option.map_eq_some_iff
  have hheads : ∀ chain epoch,
      (∃ head, (⟨chain, head⟩ : Sigma fun _ : NodeId × Uuid => RevisionHead) ∈
        scan.heads.entries ∧ head.writerEpoch = epoch) ↔
      ∃ last ∈ (lineage recordChain chain before).getLast?, last.value.writerEpoch = epoch := by
    intro chain epoch
    simp only [← AList.mem_lookup_iff, h.heads]
    cases hlast : (lineage recordChain chain before).getLast? with
    | none => simp
    | some last =>
      obtain ⟨hash, hhash⟩ := hhashed last (mem_lineage.mp (mem_of_getLast? hlast)).1
      simp [headOf_of_hash hhash]
  constructor
  · intro huse owner fence hfence
    obtain ⟨⟨chain, head⟩, hhead, howner, hepoch⟩ :=
      huse ⟨owner, fence.epoch⟩ ((hlatest _ _).mpr ⟨fence, hfence, rfl⟩)
    exact ⟨chain, howner, (hheads chain fence.epoch).mp ⟨head, hhead, hepoch⟩⟩
  · rintro huse ⟨owner, epoch⟩ hentry
    obtain ⟨fence, hfence, rfl⟩ := (hlatest _ _).mp hentry
    obtain ⟨chain, howner, hlast⟩ := huse owner fence hfence
    obtain ⟨head, hhead, hepoch⟩ := (hheads chain fence.epoch).mpr hlast
    exact ⟨⟨chain, head⟩, hhead, howner, hepoch⟩

lemma Scanned.mem_heads {chain : NodeId × Uuid} :
    chain ∈ scan.heads ↔ lineage recordChain chain before ≠ [] := by
  rw [← AList.lookup_isSome, h.heads]
  cases hlast : (lineage recordChain chain before).getLast? with
  | none =>
    rw [getLast?_eq_none_iff] at hlast
    simp [hlast]
  | some last =>
    obtain ⟨hash, hhash⟩ := hhashed last (mem_lineage.mp (mem_of_getLast? hlast)).1
    have hne : lineage recordChain chain before ≠ [] := ne_nil_of_mem (mem_of_getLast? hlast)
    simp [headOf_of_hash hhash, hne]

end

/-- The loop over sectors leaves the identifiers as they are. -/
lemma revisionIds_checkSectorRefs {entries : List (SectorRef × ℕ)}
    (h : replay (checkSectorRef r) scan entries = .ok scan') :
    scan'.revisionIds = scan.revisionIds := by
  refine replay_invariant (P := fun s : RevisionScan => s.revisionIds = scan.revisionIds) ?_ rfl h
  intro s entry t hs ht
  rw [checkSectorRef] at ht
  simp only [bind_eq_ok, pure_eq_ok] at ht
  obtain ⟨_, -, _, -, _, -, _, -, rfl⟩ := ht
  exact hs

lemma Scanned.step (h : Scanned C before scan)
    (hstep : c.checkRevision C scan revision = .ok scan') :
    Scanned C (before ++ [revision]) scan' := by
  have hindexed := h.indexed.checkRevision hstep
  obtain ⟨-, -, scan₁, hash, hsectors, hhash, rfl⟩ := checkRevision_eq_ok hstep
  refine ⟨?_, ?_, fun chain => ?_, ?_⟩
  · rw [getLast?_concat]
    rfl
  · rw [map_append, reverse_append, ← h.ids, ← revisionIds_checkSectorRefs hsectors]
    rfl
  · by_cases hchain : recordChain revision = chain
    · subst hchain
      rw [lineage_append_self, getLast?_concat, Option.bind_some, headOf_of_hash hhash]
      exact AList.lookup_insert _
    · rw [lineage_append_ne hchain, ← h.heads]
      exact AList.lookup_insert_ne (Ne.symm hchain)
  · rw [flatMap_append, flatMap_singleton]
    exact hindexed

lemma checkRevision_succeeds : Succeeds (c.checkRevision C scan revision) ↔
    revision.verify C UserRevision.codec userRevisionDomain = .ok () ∧
    revision.value.verifyWriter C = .ok () ∧ c.checkRevisionShape scan revision = .ok () ∧
    c.fenceKey revision.value.owner revision.value.writerEpoch =
      some revision.value.writerPublicKey ∧
    extendsChain (scan.heads.lookup (recordChain revision))
      (c.tombstone revision.value.owner revision.value.protectedRootId) revision.value ∧
    Succeeds (replay (checkSectorRef revision.value) scan revision.value.sectors.zipIdx) ∧
    Succeeds (revision.value.hash C) := by
  rw [checkRevision, Succeeds]
  simp only [bind_eq_ok, reject_eq_ok, exists_unit, pure_eq_ok, not_not]
  constructor
  · rintro ⟨_, hsigned, hwritten, hshape, hfence, hchain, scan₁, hsectors, hash, hhash, -⟩
    exact ⟨hsigned, hwritten, hshape, hfence, hchain, ⟨scan₁, hsectors⟩, ⟨hash, hhash⟩⟩
  · rintro ⟨hsigned, hwritten, hshape, hfence, hchain, ⟨scan₁, hsectors⟩, ⟨hash, hhash⟩⟩
    exact ⟨_, hsigned, hwritten, hshape, hfence, hchain, scan₁, hsectors, hash, hhash, rfl⟩

lemma forall_mem_zipIdx_fst {α : Type} {P : α → Prop} {xs : List α} :
    (∀ entry ∈ xs.zipIdx, P entry.1) ↔ ∀ x ∈ xs, P x := by
  constructor
  · intro h x hx
    obtain ⟨i, hi⟩ := mem_iff_getElem?.mp hx
    exact h (x, i) (mem_zipIdx_iff_getElem?.mpr hi)
  · intro h entry hentry
    exact h entry.1 (mem_of_getElem? (mem_zipIdx_iff_getElem?.mp hentry))

/-- A revision is refused exactly when it breaks a rule. -/
lemma Scanned.checkRevision_succeeds (h : Scanned C before scan)
    (hbefore : RevisionsSound C c before) : Succeeds (c.checkRevision C scan revision) ↔
      RevisionsSound C c (before ++ [revision]) := by
  have hsectors : Succeeds (replay (checkSectorRef revision.value) scan
      revision.value.sectors.zipIdx) ↔ _ := h.indexed.checkSectorRefs_succeeds hbefore.consistent
  have huses : (before.flatMap fun r => r.value.uses) ++
      revision.value.sectors.zipIdx.map (fun entry => ⟨revision.value, entry.1, entry.2⟩) =
      (before ++ [revision]).flatMap fun r => r.value.uses := by
    rw [flatMap_append, flatMap_singleton]
    rfl
  rw [forall_mem_zipIdx_fst, huses] at hsectors
  rw [GuildCheckpoint.checkRevision_succeeds, checkRevisionShape_eq_ok h, hsectors,
    h.extendsChain_iff fun r hr => (hbefore.sound r hr).hashed]
  constructor
  · rintro ⟨hsigned, hwritten, ⟨hlast, hsigner, hmember, hversion, hguild, hroot, hcipher, hseq,
      hmeta, hid, hcommit⟩, hfence, hchain, ⟨hfits, hconsistent⟩, hhash⟩
    refine ⟨?_, ascending_append_singleton.mpr ⟨hbefore.ascending, hlast⟩, ?_,
      lineages_append_singleton.mpr ⟨hbefore.lineages, hchain⟩, hconsistent⟩
    · rw [forall_mem_append, forall_mem_singleton]
      exact ⟨hbefore.sound, ⟨hsigned, hwritten, hsigner, hmember, hversion, hguild, hroot, hcipher,
        hseq, hmeta, hcommit, hfits, hhash, hfence⟩⟩
    · rw [map_append, map_singleton, nodup_append]
      refine ⟨hbefore.ids, nodup_singleton _, fun id hmem id' hid' heq => hid ?_⟩
      rw [← mem_singleton.mp hid', ← heq]
      exact hmem
  · intro hafter
    have hsound := hafter.sound revision (by simp)
    have hids := hafter.ids
    rw [map_append, map_singleton, nodup_append] at hids
    exact ⟨hsound.signed, hsound.written,
      ⟨(ascending_append_singleton.mp hafter.ascending).2, hsound.signer, hsound.member,
        hsound.versioned, hsound.guild, hsound.root_ne, hsound.cipher, hsound.sequence_ne,
        hsound.metadata_ne, fun hmem => hids.2.2 _ hmem _ (by simp) rfl, hsound.commitments⟩,
      hsound.fenced, (lineages_append_singleton.mp hafter.lineages).2,
      ⟨hsound.fits, hafter.consistent⟩, hsound.hashed⟩

lemma RevisionsSound.init (h : RevisionsSound C c (before ++ [revision])) :
    RevisionsSound C c before where
  sound r hr := h.sound r (mem_append_left _ hr)
  ascending := (ascending_append_singleton.mp h.ascending).1
  ids := by
    have := h.ids
    rw [map_append] at this
    exact (nodup_append.mp this).1
  lineages := (lineages_append_singleton.mp h.lineages).1
  consistent := by
    refine h.consistent.mono fun u hu => ?_
    rw [flatMap_append]
    exact mem_append_left _ hu

/-- The revision loop accepts sound revisions. -/
lemma checkRevisions_succeeds {revisions : List (SignedRecord UserRevision)} :
    Succeeds (replay (c.checkRevision C) .empty revisions) ↔ RevisionsSound C c revisions := by
  refine replay_succeeds_iff (RevisionsSound C c) scanned_nil
    (fun before s r t hs ht => hs.step ht) ?_ (fun before r h => h.init)
    fun before s r hs hbefore => hs.checkRevision_succeeds hbefore
  exact ⟨by simp, Pairwise.nil, nodup_nil, lineages_nil, by simp [Consistent]⟩

lemma scanned_of_checkRevisions {revisions : List (SignedRecord UserRevision)}
    (h : replay (c.checkRevision C) .empty revisions = .ok scan) : Scanned C revisions scan :=
  replay_history scanned_nil (fun _ _ _ _ hs ht => hs.step ht) h

/-! ## The whole -/

/-- **The history rules of a checkpoint.** -/
structure History (C : Crypto) (c : GuildCheckpoint) : Prop where
  fences : FencesSound C c c.writerFences
  tombstones_ascending : Ascending tombstoneOrder c.revisionTombstones
  tombstones_shape : ∀ t ∈ c.revisionTombstones, c.TombstoneShape t
  revisions : RevisionsSound C c c.revisions
  /-- The newest fence of an owner is that of the last revision of one of the roots. -/
  in_use : ∀ owner, ∀ fence ∈ (lineage WriterFence.owner owner c.writerFences).getLast?,
    ∃ chain : NodeId × Uuid, chain.1 = owner ∧
      ∃ last ∈ (lineage recordChain chain c.revisions).getLast?,
        last.value.writerEpoch = fence.epoch
  /-- A tombstone has a revision above it. -/
  headed : ∀ t ∈ c.revisionTombstones,
    lineage recordChain (t.owner, t.protectedRootId) c.revisions ≠ []

/-- **The passes accept exactly the checkpoints that keep the rules.** -/
lemma checkHistory_succeeds_iff : Succeeds (c.checkHistory C) ↔ c.History C := by
  have htombstone : ∀ previous t, c.checkTombstone previous t = .ok () ↔
      (∀ p ∈ previous, p < tombstoneOrder t) ∧ c.TombstoneShape t := fun _ _ => checkTombstone_eq_ok
  rw [checkHistory, Succeeds]
  simp only [bind_eq_ok, reject_eq_ok, exists_unit, pure_eq_ok, not_not,
    scanFrom_none_eq_ok htombstone, not_exists, not_and]
  constructor
  · rintro ⟨_, fences, hfences, ⟨hascending, hshape⟩, scan, hscan, huse, hheads, -⟩
    obtain ⟨hfencesSound, rfl⟩ := checkFences_eq_ok.mp hfences
    have hrevisions := checkRevisions_succeeds.mp ⟨scan, hscan⟩
    have hscanned := scanned_of_checkRevisions hscan
    have hhashed := fun r hr => (hrevisions.sound r hr).hashed
    exact ⟨hfencesSound, hascending, hshape, hrevisions, (fencesInUse_iff hscanned hhashed).mp huse,
      fun t ht => (hscanned.mem_heads hhashed).mp (hheads t ht)⟩
  · intro h
    obtain ⟨scan, hscan⟩ := checkRevisions_succeeds.mpr h.revisions
    have hscanned := scanned_of_checkRevisions hscan
    have hhashed := fun r hr => (h.revisions.sound r hr).hashed
    exact ⟨scan, _, checkFences_eq_ok.mpr ⟨h.fences, rfl⟩,
      ⟨h.tombstones_ascending, h.tombstones_shape⟩,
      scan, hscan, (fencesInUse_iff hscanned hhashed).mpr h.in_use,
      fun t ht => (hscanned.mem_heads hhashed).mpr (h.headed t ht), rfl⟩

lemma history_of_validate (h : c.validate C = .ok ()) : c.History C := by
  rw [validate_eq] at h
  simp only [bind_eq_ok, exists_unit] at h
  obtain ⟨-, -, -, scan, hscan, -⟩ := h
  exact checkHistory_succeeds_iff.mp ⟨scan, hscan⟩

end GuildCheckpoint

end MutualBackup
