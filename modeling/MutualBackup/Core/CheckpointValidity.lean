import MutualBackup.Core.Checkpoint

/-!
# What a valid checkpoint is

`GuildCheckpoint.validate` is one pass per vector, and `Valid` collects what the passes establish
about the history a checkpoint keeps: fences and tombstones are sorted by their keys and so unique,
and the revisions of a chain are numbered upwards from above its tombstone.  The last is the
invariant of the revision loop, whose map of heads knows the last number of every chain it has seen
(`Numbered`).
-/

namespace MutualBackup

open Framework List

namespace GuildCheckpoint

variable {C : Crypto} {c : GuildCheckpoint}

/-- The chain of a revision: its owner and its protected root. -/
def chainOf (r : UserRevision) : NodeId × Uuid := (r.owner, r.protectedRootId)

/-- The chain of a signed revision. -/
def recordChain (r : SignedRecord UserRevision) : NodeId × Uuid := chainOf r.value

/-- The key of the fence loop. -/
def fenceOrder (fence : WriterFence) : NodeId ×ₗ U64 := toLex (fence.owner, fence.epoch)

/-- What validation establishes about the history in a checkpoint. -/
structure Valid (c : GuildCheckpoint) : Prop where
  generation_ne : c.generation ≠ 0
  generation_le : c.generation.val ≤ i64Max
  members_le : c.members.length ≤ 256
  fences_ascending : Ascending fenceOrder c.writerFences
  tombstones_ascending : Ascending tombstoneOrder c.revisionTombstones
  tombstone_through : ∀ t ∈ c.revisionTombstones, t.throughSequence ≠ 0
  tombstone_retired : ∀ t ∈ c.revisionTombstones,
    2 ≤ t.retiredAtGeneration ∧ t.retiredAtGeneration ≤ c.generation
  revisions_numbered : c.revisions.Pairwise fun r r' =>
    chainOf r.value = chainOf r'.value → r.value.sequence < r'.value.sequence
  sequence_pos : ∀ r ∈ c.revisions, 0 < r.value.sequence
  above_tombstone : ∀ r ∈ c.revisions,
    ∀ t ∈ c.tombstone r.value.owner r.value.protectedRootId, t.throughSequence < r.value.sequence

/-! ## Fences and tombstones -/

lemma checkFence_eq_ok {scan scan' : FenceScan} {fence : WriterFence}
    (h : c.checkFence C scan fence = .ok scan') :
    (∀ p ∈ scan.previous, p < fenceOrder fence) ∧ scan'.previous = some (fenceOrder fence) := by
  rw [checkFence] at h
  simp only [bind_eq_ok, reject_eq_ok, exists_unit, pure_eq_ok] at h
  obtain ⟨key, -, hguard, -, rfl⟩ := h
  simp only [isSomeAnd] at hguard
  push Not at hguard
  exact ⟨hguard.1, rfl⟩

/-- The part of the tombstone guard that looks at the tombstone alone. -/
def TombstoneShape (c : GuildCheckpoint) (t : RevisionTombstone) : Prop :=
  ¬ ((c.formatVersion = 3 ∧ t.owner ∉ c.memberIds) ∨ t.protectedRootId.isNil ∨
    t.throughSequence = 0 ∨ t.lastRevisionId.isNil ∨ t.lastRevisionHash = 0 ∨
    t.retiredAtGeneration < 2 ∨ c.generation < t.retiredAtGeneration)

variable {t : RevisionTombstone}

lemma checkTombstone_eq_ok {previous : Option (NodeId ×ₗ Uuid)} :
    c.checkTombstone previous t = .ok () ↔
      (∀ p ∈ previous, p < tombstoneOrder t) ∧ c.TombstoneShape t := by
  rw [checkTombstone, reject_eq_ok, not_or, TombstoneShape]
  simp only [isSomeAnd]
  push Not
  rfl

/-- The tombstones are sorted, so looking one up by its chain is membership. -/
lemma tombstone_eq_some (hasc : Ascending tombstoneOrder c.revisionTombstones) {owner : NodeId}
    {root : Uuid} :
    c.tombstone owner root = some t ↔
      t ∈ c.revisionTombstones ∧ t.owner = owner ∧ t.protectedRootId = root := by
  rw [tombstone, find?_eq_some_of_unique]
  · simp
  · intro x hx y hy hpx hpy
    have hkeys : x.owner = y.owner ∧ x.protectedRootId = y.protectedRootId := by
      simp only [decide_eq_true_eq] at hpx hpy
      exact ⟨hpx.1.trans hpy.1.symm, hpx.2.trans hpy.2.symm⟩
    refine hasc.eq_of_key hx hy ?_
    rw [tombstoneOrder, tombstoneOrder, hkeys.1, hkeys.2]

lemma Valid.tombstone_eq_some (hc : c.Valid) {owner : NodeId} {root : Uuid} :
    c.tombstone owner root = some t ↔
      t ∈ c.revisionTombstones ∧ t.owner = owner ∧ t.protectedRootId = root :=
  GuildCheckpoint.tombstone_eq_some hc.tombstones_ascending

/-! ## Revisions -/

variable {scan scan' : RevisionScan}

/-- The sectors of a revision leave the heads as they are. -/
lemma heads_checkSectorRefs {r : UserRevision} {entries : List (SectorRef × ℕ)}
    (h : entries.foldlM (checkSectorRef r) scan = .ok scan') : scan'.heads = scan.heads := by
  refine replay_invariant (P := fun s : RevisionScan => s.heads = scan.heads) ?_ rfl h
  intro s entry t hs ht
  rw [checkSectorRef] at ht
  simp only [bind_eq_ok, pure_eq_ok] at ht
  obtain ⟨_, -, _, -, _, -, _, -, rfl⟩ := ht
  exact hs

/-- A revision continues its chain, its sectors go into the maps, and it becomes the head. -/
lemma checkRevision_eq_ok {revision : SignedRecord UserRevision}
    (h : c.checkRevision C scan revision = .ok scan') :
    revision.value.sequence ≠ 0 ∧ extendsChain (scan.heads.lookup (chainOf revision.value))
        (c.tombstone revision.value.owner revision.value.protectedRootId) revision.value ∧
      ∃ scan₁ hash, replay (checkSectorRef revision.value) scan
          (revision.value.metadataSectors ++ revision.value.dataSectors).zipIdx = .ok scan₁ ∧
        revision.value.hash C = .ok hash ∧
        scan' = { scan₁ with
          previous := some (revisionOrder revision.value)
          revisionIds := revision.value.revisionId :: scan₁.revisionIds
          heads := scan.heads.insert (chainOf revision.value)
            ⟨revision.value.sequence, hash, revision.value.writerEpoch⟩ } := by
  rw [checkRevision] at h
  simp only [bind_eq_ok, reject_eq_ok, exists_unit, pure_eq_ok, not_not] at h
  obtain ⟨-, -, hshape, -, hchain, scan₁, hsectors, hash, hhash, rfl⟩ := h
  rw [checkRevisionShape] at hshape
  simp only [bind_eq_ok, reject_eq_ok, exists_unit, not_or] at hshape
  obtain ⟨⟨-, -, -, -, -, -, -, hsequence, -⟩, -⟩ := hshape
  refine ⟨hsequence, hchain, scan₁, hash, hsectors, hhash, ?_⟩
  rw [heads_checkSectorRefs hsectors]
  rfl

/-- What the revision loop knows after some revisions: their numbers ascend within their chain and
stay above the tombstone, and the head of a chain has the last number. -/
structure Numbered (c : GuildCheckpoint) (before : List (SignedRecord UserRevision))
    (scan : RevisionScan) : Prop where
  ascending : before.Pairwise fun r r' =>
    chainOf r.value = chainOf r'.value → r.value.sequence < r'.value.sequence
  pos : ∀ r ∈ before, 0 < r.value.sequence
  above : ∀ r ∈ before, ∀ t ∈ c.tombstone r.value.owner r.value.protectedRootId,
    t.throughSequence < r.value.sequence
  head : ∀ r ∈ before, ∃ head ∈ scan.heads.lookup (chainOf r.value),
    r.value.sequence ≤ head.sequence
  seen : ∀ chain, ∀ head ∈ scan.heads.lookup chain,
    ∃ r ∈ before, chainOf r.value = chain ∧ r.value.sequence = head.sequence

lemma numbered_nil : Numbered c [] .empty := by
  refine ⟨Pairwise.nil, by simp, by simp, by simp, fun chain head hhead => ?_⟩
  simp [RevisionScan.empty] at hhead

/-- A revision that extends its chain comes after all of the chain and above the tombstone. -/
lemma Numbered.next {before : List (SignedRecord UserRevision)} (hscan : Numbered c before scan)
    {r : UserRevision}
    (h : extendsChain (scan.heads.lookup (chainOf r)) (c.tombstone r.owner r.protectedRootId) r) :
    (∀ r' ∈ before, chainOf r'.value = chainOf r → r'.value.sequence < r.sequence) ∧
      ∀ t ∈ c.tombstone r.owner r.protectedRootId, t.throughSequence < r.sequence := by
  cases hhead : scan.heads.lookup (chainOf r) with
  | some head =>
    rw [hhead] at h
    have hnext : r.sequence.val = head.sequence.val + 1 := U64.checkedSucc_eq_some.mp h.1
    have hlt : head.sequence < r.sequence := Fin.lt_def.mpr (by omega)
    refine ⟨fun r' hr' hchain => ?_, fun t ht => ?_⟩
    · obtain ⟨head', hhead', hle⟩ := hscan.head r' hr'
      rw [hchain, hhead] at hhead'
      obtain rfl := Option.some.inj hhead'
      exact hle.trans_lt hlt
    · -- the head of the chain is a revision, and revisions are above the tombstone
      obtain ⟨last, hlast, hchain, hsequence⟩ := hscan.seen _ head hhead
      obtain ⟨howner, hroot⟩ := Prod.mk.inj hchain
      have habove := hscan.above last hlast t (by rw [howner, hroot]; exact ht)
      rw [hsequence] at habove
      exact habove.trans hlt
  | none =>
    have hfirst : ∀ r' ∈ before, chainOf r'.value = chainOf r → False := by
      intro r' hr' hchain
      obtain ⟨head, hhead', -⟩ := hscan.head r' hr'
      rw [hchain, hhead] at hhead'
      cases hhead'
    refine ⟨fun r' hr' hchain => (hfirst r' hr' hchain).elim, fun t ht => ?_⟩
    rw [hhead, Option.mem_def.mp ht] at h
    have hnext : r.sequence.val = t.throughSequence.val + 1 := U64.checkedSucc_eq_some.mp h.1
    exact Fin.lt_def.mpr (by omega)

lemma Numbered.step {before : List (SignedRecord UserRevision)} (hscan : Numbered c before scan)
    {revision : SignedRecord UserRevision} (h : c.checkRevision C scan revision = .ok scan') :
    Numbered c (before ++ [revision]) scan' := by
  obtain ⟨hne, hchain, scan₁, hash, -, -, rfl⟩ := checkRevision_eq_ok h
  obtain ⟨hlast, habove⟩ := hscan.next hchain
  have hpos : 0 < revision.value.sequence := Fin.pos_iff_ne_zero.mpr hne
  refine ⟨?_, ?_, ?_, ?_, ?_⟩
  · refine pairwise_append.mpr ⟨hscan.ascending, pairwise_singleton _ _, ?_⟩
    intro r hr r' hr' hsame
    obtain rfl := mem_singleton.mp hr'
    exact hlast r hr hsame
  · intro r hr
    rcases mem_append.mp hr with hr | hr
    · exact hscan.pos r hr
    · obtain rfl := mem_singleton.mp hr
      exact hpos
  · intro r hr
    rcases mem_append.mp hr with hr | hr
    · exact hscan.above r hr
    · obtain rfl := mem_singleton.mp hr
      exact habove
  · intro r hr
    by_cases hsame : chainOf r.value = chainOf revision.value
    · refine ⟨_, by rw [hsame]; exact AList.lookup_insert _, ?_⟩
      rcases mem_append.mp hr with hr | hr
      · exact (hlast r hr hsame).le
      · obtain rfl := mem_singleton.mp hr
        exact le_rfl
    · have hr : r ∈ before := by
        rcases mem_append.mp hr with hr | hr
        · exact hr
        · exact absurd (congrArg (fun x => chainOf x.value) (mem_singleton.mp hr)) hsame
      rw [AList.lookup_insert_ne hsame]
      exact hscan.head r hr
  · intro chain head hhead
    by_cases hsame : chain = chainOf revision.value
    · subst hsame
      rw [AList.lookup_insert] at hhead
      obtain rfl := Option.some.inj hhead
      exact ⟨revision, mem_append_right _ (mem_singleton.mpr rfl), rfl, rfl⟩
    · rw [AList.lookup_insert_ne hsame] at hhead
      obtain ⟨r, hr, hrest⟩ := hscan.seen chain head hhead
      exact ⟨r, mem_append_left _ hr, hrest⟩

/-! ## The whole -/

/-- **A checkpoint that validates is valid.** -/
lemma valid_of_validate (h : c.validate C = .ok ()) : c.Valid := by
  rw [validate] at h
  simp only [bind_eq_ok, reject_eq_ok, exists_unit] at h
  obtain ⟨hheader, -, -, fences, hfences, htombstones, scan, hrevisions, -, -, -, -⟩ := h
  rw [checkHeader, reject_eq_ok] at hheader
  push Not at hheader
  obtain ⟨-, -, hgeneration, hmax, -, hmembers, -⟩ := hheader
  have htombstone : ∀ previous t, c.checkTombstone previous t = .ok () ↔
      (∀ p ∈ previous, p < tombstoneOrder t) ∧ c.TombstoneShape t := fun _ _ => checkTombstone_eq_ok
  obtain ⟨htombstonesAscending, hshape⟩ := (scanFrom_none_eq_ok htombstone).mp htombstones
  have hfence : ∀ s fence s', c.checkFence C s fence = .ok s' →
      (∀ p ∈ FenceScan.previous s, p < fenceOrder fence) ∧
        FenceScan.previous s' = some (fenceOrder fence) := fun _ _ _ => checkFence_eq_ok
  have hfencesAscending := (ascending_of_replay hfence hfences).2
  have hnumbered : Numbered c c.revisions scan :=
    replay_history numbered_nil (fun _ _ _ _ hbefore hstep => hbefore.step hstep) hrevisions
  refine ⟨hgeneration, hmax, ?_, hfencesAscending, htombstonesAscending, ?_, ?_,
    hnumbered.ascending, hnumbered.pos, hnumbered.above⟩
  · rw [membersCounted] at hmembers
    split at hmembers
    · omega
    · exact hmembers.2
  · intro t ht
    have := hshape t ht
    rw [TombstoneShape] at this
    push Not at this
    exact this.2.2.1
  · intro t ht
    have := hshape t ht
    rw [TombstoneShape] at this
    push Not at this
    exact ⟨this.2.2.2.2.2.1, this.2.2.2.2.2.2⟩

/-- Every revision is signed by its writer, under the key of a fence of its owner. -/
lemma writer_of_validate (h : c.validate C = .ok ()) : ∀ r ∈ c.revisions,
    r.value.verifyWriter C = .ok () ∧
      (⟨r.value.owner, r.value.writerEpoch, r.value.writerPublicKey⟩ : WriterFence) ∈
        c.writerFences := by
  rw [validate] at h
  simp only [bind_eq_ok, reject_eq_ok, exists_unit] at h
  obtain ⟨-, -, -, _, -, -, scan, hrevisions, -⟩ := h
  refine forall_of_replay (fun s r s' hstep => ?_) hrevisions
  rw [checkRevision] at hstep
  simp only [bind_eq_ok, reject_eq_ok, exists_unit, not_not] at hstep
  obtain ⟨-, hwriter, -, hkey, -⟩ := hstep
  obtain ⟨fence, hfind, hpublic⟩ := Option.map_eq_some_iff.mp hkey
  have hfence := find?_some hfind
  simp only [decide_eq_true_eq] at hfence
  obtain ⟨howner, hepoch⟩ := hfence
  refine ⟨hwriter, ?_⟩
  rw [← howner, ← hepoch, ← hpublic]
  exact mem_of_find?_eq_some hfind

/-- Two revisions of a valid checkpoint at one place of a chain are the same record. -/
lemma Valid.eq_of_same_place (hc : c.Valid) {r r' : SignedRecord UserRevision}
    (hr : r ∈ c.revisions) (hr' : r' ∈ c.revisions) (hchain : chainOf r.value = chainOf r'.value)
    (hsequence : r.value.sequence = r'.value.sequence) : r = r' := by
  by_contra hne
  have hdistinct : c.revisions.Pairwise fun r r' =>
      chainOf r.value = chainOf r'.value → r.value.sequence ≠ r'.value.sequence :=
    hc.revisions_numbered.imp fun h hsame => (h hsame).ne
  have hsymm : Std.Symm fun r r' : SignedRecord UserRevision =>
      chainOf r.value = chainOf r'.value → r.value.sequence ≠ r'.value.sequence :=
    ⟨fun _ _ h hsame => (h hsame.symm).symm⟩
  exact hdistinct.forall hr hr' hne hchain hsequence

end GuildCheckpoint

/-! ## Certificates -/

lemma length_of_verifyUnder {C : Crypto} {domain : String} {signer : Bytes 32}
    {signature : List UInt8} {bytes : Outcome ModelError (List UInt8)}
    (h : verifyUnder C domain signer signature bytes = .ok ()) : signature.length = 64 := by
  rw [verifyUnder] at h
  simp only [bind_eq_ok, reject_eq_ok, exists_unit, not_not] at h
  obtain ⟨_, -, -, hlength, -⟩ := h
  exact hlength

namespace QuorumCheckpoint

variable {C : Crypto} {q : QuorumCheckpoint}

/-- What the verification of a certificate establishes about its vectors. -/
structure Verified (q : QuorumCheckpoint) : Prop where
  valid : q.checkpoint.Valid
  encodes : ∃ bytes, canonicalBytes GuildCheckpoint.codec q.checkpoint = .ok bytes
  ascending : Ascending MemberSignature.signer q.signatures
  members : ∀ s ∈ q.signatures, s.signer ∈ q.checkpoint.memberIds
  lengths : ∀ s ∈ q.signatures, s.signature.length = 64

lemma verified_of_verify (h : q.verify C = .ok ()) : q.Verified := by
  rw [verify] at h
  simp only [bind_eq_ok, exists_unit] at h
  obtain ⟨hvalid, encoded, hencoded, hscan, -⟩ := h
  have hbody : ∀ previous s, checkMemberSignature C q.checkpoint.memberIds guildCheckpointDomain
      .invalidCheckpoint encoded previous s = .ok () ↔
      (∀ p ∈ previous, p < s.signer) ∧ s.signer ∈ q.checkpoint.memberIds ∧
        verifyUnder C guildCheckpointDomain s.signer.bytes s.signature (.ok encoded) = .ok () := by
    intro previous s
    rw [checkMemberSignature]
    simp only [bind_eq_ok, reject_eq_ok, exists_unit, not_or, not_not]
    simp only [isSomeAnd]
    push Not
    tauto
  obtain ⟨hascending, hgood⟩ := (scanFrom_none_eq_ok hbody).mp hscan
  exact ⟨GuildCheckpoint.valid_of_validate hvalid, ⟨encoded, hencoded⟩, hascending,
    fun s hs => (hgood s hs).1, fun s hs => length_of_verifyUnder (hgood s hs).2⟩

end QuorumCheckpoint

end MutualBackup
