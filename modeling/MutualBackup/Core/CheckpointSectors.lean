import MutualBackup.Framework.KeyedMap
import MutualBackup.Core.CheckpointValidity

/-!
# The sectors of a checkpoint's revisions

The revision loop of `GuildCheckpoint.validate` fills four maps with the sectors that revisions
refer to: who refers to a sector and from which root, its owner and reference, and, by the object
that packing knows it as, its flat root and its Merkle commitment.  Revisions may share sectors, and
a revision that would change an entry is refused, so each map is the list of all uses seen as a
function (`Indexed`).  What the catalog and the coding groups are compared with afterwards is
therefore what the revisions say.
-/

namespace MutualBackup

open Framework List

/-- A sector as a revision refers to it, with its place among the sectors of the revision. -/
structure SectorUse where
  revision : UserRevision
  sector : SectorRef
  index : ℕ

namespace SectorUse

variable (u : SectorUse)

/-- The object that packing knows the sector as. -/
def object : ObjectKey :=
  (u.revision.owner, packingProtectedRoot u.revision.protectedRootId, u.sector.id)

/-- The commitment that the revision signs for the sector, when it has any. -/
def commitment : Option MerkleCommitment :=
  u.revision.sectorCommitments.bind fun commitments => commitments[u.index]?

/-! What a use enters in each of the maps. -/

def rooted : Bytes 32 × NodeId × Uuid × SectorRef :=
  (u.sector.id, u.revision.owner, u.revision.protectedRootId, u.sector)

def owned : Bytes 32 × NodeId × SectorRef :=
  (u.sector.id, u.revision.owner, u.sector)

def flatRoot : ObjectKey × Bytes 32 := (u.object, u.sector.root)

def committed : Option (ObjectKey × MerkleCommitment) :=
  u.commitment.map fun commitment => (u.object, commitment)

end SectorUse

/-- The sectors of a revision, metadata first. -/
def UserRevision.sectors (r : UserRevision) : List SectorRef := r.metadataSectors ++ r.dataSectors

def UserRevision.uses (r : UserRevision) : List SectorUse :=
  r.sectors.zipIdx.map fun entry => ⟨r, entry.1, entry.2⟩

namespace GuildCheckpoint

variable {C : Crypto} {c : GuildCheckpoint} {uses : List SectorUse} {scan scan' : RevisionScan}

/-- Every use of a sector by a revision of the checkpoint. -/
def sectorUses (c : GuildCheckpoint) : List SectorUse :=
  c.revisions.flatMap fun revision => revision.value.uses

lemma mem_sectorUses {u : SectorUse} : u ∈ c.sectorUses ↔
    ∃ revision ∈ c.revisions, revision.value = u.revision ∧
      u.revision.sectors[u.index]? = some u.sector := by
  simp only [sectorUses, UserRevision.uses, mem_flatMap, mem_map]
  constructor
  · rintro ⟨revision, hrevision, entry, hentry, rfl⟩
    exact ⟨revision, hrevision, rfl, mem_zipIdx_iff_getElem?.mp hentry⟩
  · rintro ⟨revision, hrevision, hvalue, hindex⟩
    refine ⟨revision, hrevision, (u.sector, u.index), ?_, by rw [hvalue]⟩
    rw [hvalue]
    exact mem_zipIdx_iff_getElem?.mpr hindex

/-- A reference of a revision is a use at some place. -/
lemma exists_use {revision : SignedRecord UserRevision} (hrevision : revision ∈ c.revisions)
    {sector : SectorRef} (hsector : sector ∈ revision.value.sectors) :
    ∃ index, ⟨revision.value, sector, index⟩ ∈ c.sectorUses := by
  obtain ⟨index, hindex⟩ := mem_iff_getElem?.mp hsector
  exact ⟨index, mem_sectorUses.mpr ⟨revision, hrevision, rfl, hindex⟩⟩

/-! ## The maps of the revision loop -/

/-- The maps hold what the uses enter. -/
structure Indexed (uses : List SectorUse) (scan : RevisionScan) : Prop where
  rooted : Keeps scan.scopedSectors (uses.map SectorUse.rooted)
  sectors : Keeps scan.sectors (uses.map SectorUse.owned)
  flatRoots : Keeps scan.flatRoots (uses.map SectorUse.flatRoot)
  commitments : Keeps scan.commitments (uses.filterMap SectorUse.committed)

lemma insertSame_eq_ok {κ υ : Type} [DecidableEq κ] [DecidableEq υ] {m m' : AList fun _ : κ => υ}
    {key : κ} {value : υ} : insertSame m key value = .ok m' ↔
      (∀ previous ∈ m.lookup key, previous = value) ∧ m' = m.insert key value := by
  rw [insertSame]
  simp only [bind_eq_ok, reject_eq_ok, exists_unit, pure_eq_ok]
  simp only [isSomeAnd, ne_eq]
  push Not
  exact and_congr_right fun _ => eq_comm

/-- The commitment map, whether or not the revision commits to the sector. -/
lemma keeps_insertCommitment {entered : List (ObjectKey × MerkleCommitment)}
    {m m' : AList fun _ : ObjectKey => MerkleCommitment} {object : ObjectKey}
    {commitment : Option MerkleCommitment} (hm : Keeps m entered)
    (h : insertCommitment m object commitment = .ok m') :
    Keeps m' (entered ++ (commitment.map fun value => (object, value)).toList) := by
  cases commitment with
  | none =>
    rw [insertCommitment, pure_eq_ok] at h
    subst h
    simpa using hm
  | some value =>
    obtain ⟨hsame, rfl⟩ := insertSame_eq_ok.mp h
    exact hm.insert hsame

section

variable (h : Indexed uses scan)

include h

/-- Uses that agree on the owner, the root and the reference of a sector agree on its owner. -/
lemma Indexed.owner_eq {u : SectorUse}
    (hsame : ∀ previous ∈ scan.scopedSectors.lookup u.sector.id, previous = u.rooted.2) :
    ∀ previous ∈ scan.sectors.lookup u.sector.id, previous = u.owned.2 := by
  intro previous hprevious
  obtain ⟨u', hu', howned⟩ := mem_map.mp ((h.sectors _ _).mp hprevious)
  obtain ⟨hid, rfl⟩ := Prod.mk.inj howned
  have hscoped : u'.rooted.2 = u.rooted.2 := by
    refine hsame _ ((h.rooted _ _).mpr ?_)
    rw [← hid]
    exact mem_map_of_mem hu'
  simp only [SectorUse.rooted, Prod.mk.injEq] at hscoped
  rw [SectorUse.owned, hscoped.1, hscoped.2.2]

lemma Indexed.checkSectorRef {r : UserRevision} {entry : SectorRef × ℕ}
    (hstep : checkSectorRef r scan entry = .ok scan') :
    Indexed (uses ++ [⟨r, entry.1, entry.2⟩]) scan' := by
  rw [GuildCheckpoint.checkSectorRef] at hstep
  simp only [bind_eq_ok, reject_eq_ok, exists_unit, pure_eq_ok] at hstep
  obtain ⟨-, _, hscoped, _, hflatRoots, _, hcommitments, rfl⟩ := hstep
  obtain ⟨hscopedSame, rfl⟩ := insertSame_eq_ok.mp hscoped
  obtain ⟨hflatSame, rfl⟩ := insertSame_eq_ok.mp hflatRoots
  have hownerSame := h.owner_eq (u := ⟨r, entry.1, entry.2⟩) hscopedSame
  constructor
  · rw [map_append]
    exact h.rooted.insert hscopedSame
  · rw [map_append]
    exact h.sectors.insertNew hownerSame
  · rw [map_append]
    exact h.flatRoots.insert hflatSame
  · have hentered : List.filterMap SectorUse.committed [⟨r, entry.1, entry.2⟩] =
        (SectorUse.committed ⟨r, entry.1, entry.2⟩).toList := by
      cases hcommitted : SectorUse.committed ⟨r, entry.1, entry.2⟩ <;> simp [hcommitted]
    rw [filterMap_append, hentered]
    exact keeps_insertCommitment h.commitments hcommitments

/-- The loop over the sectors of a revision. -/
lemma Indexed.checkSectorRefs {r : UserRevision} {entries : List (SectorRef × ℕ)}
    (hrun : replay (GuildCheckpoint.checkSectorRef r) scan entries = .ok scan') :
    Indexed (uses ++ entries.map fun entry => ⟨r, entry.1, entry.2⟩) scan' := by
  refine replay_history (P := fun before s =>
    Indexed (uses ++ before.map fun entry => ⟨r, entry.1, entry.2⟩) s) ?_ ?_ hrun
  · simpa using h
  · intro before s entry t hs ht
    rw [map_append, ← append_assoc]
    exact hs.checkSectorRef ht

lemma Indexed.checkRevision {revision : SignedRecord UserRevision}
    (hstep : c.checkRevision C scan revision = .ok scan') :
    Indexed (uses ++ revision.value.uses) scan' := by
  obtain ⟨-, -, scan₁, hash, hsectors, -, rfl⟩ := checkRevision_eq_ok hstep
  obtain ⟨hrooted, howned, hflat, hcommitted⟩ := h.checkSectorRefs hsectors
  exact ⟨hrooted, howned, hflat, hcommitted⟩

end

/-- **The maps hold what the revisions of the checkpoint say.** -/
lemma indexed_of_checkRevisions (h : replay (c.checkRevision C) .empty c.revisions = .ok scan) :
    Indexed c.sectorUses scan := by
  refine replay_history (P := fun before s =>
    Indexed (before.flatMap fun revision => revision.value.uses) s) ?_ ?_ h
  · exact ⟨keeps_empty, keeps_empty, keeps_empty, keeps_empty⟩
  · intro before s revision t hs ht
    rw [flatMap_append, flatMap_singleton]
    exact hs.checkRevision ht

end GuildCheckpoint

end MutualBackup
