import MutualBackup.Node.RevisionRetention

/-!
# The successor that retention builds

The coordinator runs `GuildCheckpoint.validate` on the checkpoint it has built, and every member
runs `validate_checkpoint_transition` on it.  The constructor and the two validators are written
independently of each other.  `Built` says how the history of the new checkpoint comes from that of
the one before, and each rule of the validators follows from it, but for one: a tombstone must not
name the nil identifier or the zero hash, and nothing asks that of a revision.
`retention_successor_iff` says so for every valid checkpoint, every revision that extends it and
every setting.
-/

namespace MutualBackup

open Framework List

namespace GuildCheckpoint

variable {C : Crypto} {retain : ℕ} {generation : U64} {chain : NodeId × Uuid}
  {r : SignedRecord UserRevision}

/-! ## The new revision -/

/-- The next revision of a chain, without regard to its writer. -/
def extendsByOne (C : Crypto) (last r : SignedRecord UserRevision) : Prop :=
  last.value.sequence.checkedSucc = some r.value.sequence ∧
    ∃ hash, last.value.hash C = .ok hash ∧ r.value.parent = some hash

/-- A signed revision that extends its chain by one, with a new identifier and with references that
agree with those of the revisions before. -/
structure NewRevision (C : Crypto) (revisions : List (SignedRecord UserRevision))
    (r : SignedRecord UserRevision) : Prop where
  signed : r.verify C UserRevision.codec userRevisionDomain = .ok ()
  signer : r.signer = r.value.owner
  versioned : revisionVersioned r.value
  root_ne : ¬ r.value.protectedRootId.isNil
  cipher : r.value.cipherProfile = v1CipherProfile
  metadata_ne : r.value.metadataSectors ≠ []
  commitments : ∀ commitments ∈ r.value.sectorCommitments,
    commitments.length = r.value.metadataSectors.length + r.value.dataSectors.length ∧
      ∀ m ∈ commitments, m.byteLen.val = v1SectorSize ∧ Succeeds m.validate
  extends_chain : LinksTo (fun r => r.value.sequence = 1 ∧ r.value.parent = none)
    (extendsByOne C) (lineage recordChain (recordChain r) revisions).getLast? r
  fresh : ∀ r' ∈ revisions, r'.value.revisionId ≠ r.value.revisionId
  fits : ∀ s ∈ r.value.sectors, fitsSector s
  consistent : Consistent ((revisions ++ [r]).flatMap fun r => r.value.uses)

/-- The version of a revision that has been signed has a hash. -/
lemma hash_of_signed (hsigned : r.verify C UserRevision.codec userRevisionDomain = .ok ())
    (hversion : revisionVersioned r.value) : Succeeds (r.value.hash C) := by
  rw [SignedRecord.verify, verifyUnder] at hsigned
  simp only [bind_eq_ok] at hsigned
  obtain ⟨_, -, _, -, _, -, bytes, hbytes, -⟩ := hsigned
  have hdomain : Succeeds (revisionHashDomain r.value.formatVersion) := by
    rw [revisionVersioned] at hversion
    rw [revisionHashDomain]
    split at hversion
    · rw [if_pos hversion]
      exact ⟨_, rfl⟩
    · rcases hversion with h | h
      · rw [h]
        exact ⟨_, rfl⟩
      · rw [h]
        exact ⟨_, rfl⟩
  obtain ⟨domain, hdomain⟩ := hdomain
  rw [UserRevision.hash, hdomain, hbytes]
  exact ⟨_, rfl⟩

/-- The revisions of a chain are numbered upwards. -/
lemma ascending_sequence {starts : SignedRecord UserRevision → Prop}
    {xs : List (SignedRecord UserRevision)} (h : Chained starts (nextRevision C) xs) :
    Ascending (fun r => r.value.sequence) xs := by
  have hlt : xs.IsChain fun r r' => r.value.sequence < r'.value.sequence := by
    refine h.2.imp fun r r' hnext => ?_
    have : r'.value.sequence.val = r.value.sequence.val + 1 := U64.checkedSucc_eq_some.mp hnext.1
    exact Fin.lt_def.mpr (by omega)
  have : IsTrans (SignedRecord UserRevision) fun r r' => r.value.sequence < r'.value.sequence :=
    ⟨fun _ _ _ => lt_trans⟩
  exact isChain_iff_pairwise.mp hlt

lemma signedOrder_lt {r' : SignedRecord UserRevision} (hchain : recordChain r = recordChain r')
    (hlt : r.value.sequence < r'.value.sequence) : signedOrder r < signedOrder r' := by
  obtain ⟨howner, hroot⟩ := Prod.mk.inj hchain
  rw [signedOrder, signedOrder, revisionOrder, revisionOrder, howner, hroot]
  simp [Prod.Lex.toLex_lt_toLex, hlt]

/-! ## The successor -/

/-- The revisions before retention. -/
def withRevision (b : GuildCheckpoint) (r : SignedRecord UserRevision) :
    List (SignedRecord UserRevision) := sortByKey signedOrder (b.revisions ++ [r])

/-- The revisions that end up in a tombstone can be named by one. -/
def Nameable (C : Crypto) (retain : ℕ) (revisions : List (SignedRecord UserRevision)) : Prop :=
  ∀ chain, ∀ last ∈ retiredFrom retain revisions chain,
    ¬ last.value.revisionId.isNil ∧ last.value.hash C ≠ .ok 0

/-- How the history of a checkpoint is built from that of another one and a revision. -/
structure Built (C : Crypto) (retain : ℕ) (b : GuildCheckpoint) (r : SignedRecord UserRevision)
    (next : GuildCheckpoint) : Prop where
  base : b.History C
  new : NewRevision C b.revisions r
  guild : r.value.guildId = b.guildId
  retain_ne : retain ≠ 0
  started : b.revisions = [] ∨ b.generation ≠ 0
  version : next.formatVersion = 7
  next_guild : next.guildId = b.guildId
  generation : next.generation.val = b.generation.val + 1
  fences : FencesAfter C b.writerFences r.value next.writerFences
  revisions : next.revisions = (b.withRevision r).filter (staysIn retain (b.withRevision r))
  ascending : Ascending tombstoneOrder next.revisionTombstones
  tombstones : ∀ t, t ∈ next.revisionTombstones ↔
    (t ∈ b.revisionTombstones ∧ retiredFrom retain (b.withRevision r) t.chain = none) ∨
      Replaces C next.generation retain (b.withRevision r) t

namespace Built

variable {b next : GuildCheckpoint} {last : SignedRecord UserRevision}

section

variable (h : Built C retain b r next)

include h

lemma version_ne : next.formatVersion ≠ 3 := by
  rw [h.version]
  decide

/-- The fence of a revision is there. -/
lemma fence_mem {r' : SignedRecord UserRevision} (hr' : r' ∈ b.revisions) :
    fenceOf r'.value ∈ b.writerFences := by
  obtain ⟨fence, hfind, hkey⟩ := Option.map_eq_some_iff.mp (h.base.revisions.sound r' hr').fenced
  have hfence := find?_some hfind
  simp only [decide_eq_true_eq] at hfence
  rw [fenceOf, ← hfence.1, ← hfence.2, ← hkey]
  exact mem_of_find?_eq_some hfind

/-- The new revision continues its chain, its writer included. -/
lemma continues : LinksTo b.startsChain (nextRevision C)
    (lineage recordChain (recordChain r) b.revisions).getLast? r := by
  have hextends := h.new.extends_chain
  cases hlast : (lineage recordChain (recordChain r) b.revisions).getLast? with
  | none =>
    rw [hlast] at hextends
    -- a tombstone would have a revision above it
    have hnone : b.tombstone r.value.owner r.value.protectedRootId = none := by
      cases ht : b.tombstone r.value.owner r.value.protectedRootId with
      | none => rfl
      | some t =>
        obtain ⟨hmem, howner, hroot⟩ := (tombstone_eq_some h.base.tombstones_ascending).mp ht
        have hheaded := h.base.headed t hmem
        rw [howner, hroot] at hheaded
        exact absurd (getLast?_eq_none_iff.mp hlast) hheaded
    show extendsChain none _ r.value
    rw [hnone]
    exact hextends
  | some last =>
    rw [hlast] at hextends
    obtain ⟨hmem, hchain⟩ := mem_lineage.mp (mem_of_getLast? hlast)
    refine ⟨hextends.1, hextends.2, ?_⟩
    exact h.fences.epoch_le h.base.fences h.version_ne (h.fences.mem_of_mem (h.fence_mem hmem))
      (congrArg Prod.fst hchain)

lemma sorted : Ascending signedOrder (b.withRevision r) ∧
    ∀ chain, lineage recordChain chain (b.withRevision r) =
      lineage recordChain chain (b.revisions ++ [r]) := by
  refine lineage_sortByKey h.base.revisions.ascending ?_ ?_
  · intro r' hr' hsame
    refine h.new.fresh r' hr' ?_
    simp only [signedOrder, revisionOrder, EmbeddingLike.apply_eq_iff_eq, Prod.mk.injEq] at hsame
    exact hsame.2.2.2
  · intro last hlast
    have hnext := h.continues
    rw [Option.mem_def.mp hlast] at hnext
    have hsucc : r.value.sequence.val = last.value.sequence.val + 1 :=
      U64.checkedSucc_eq_some.mp hnext.1
    exact signedOrder_lt (group_of_getLast? hlast) (Fin.lt_def.mpr (by omega))

section

variable (chain : NodeId × Uuid)

lemma linked :
    Chained b.startsChain (nextRevision C) (lineage recordChain chain (b.withRevision r)) := by
  rw [h.sorted.2]
  exact lineages_append_singleton.mpr ⟨h.base.revisions.lineages, h.continues⟩ chain

/-- **Every root keeps its newest revisions.** -/
lemma lineage_revisions :
    lineage recordChain chain next.revisions =
      newest retain (lineage recordChain chain (b.withRevision r)) := by
  have hstays : lineage recordChain chain next.revisions =
      (lineage recordChain chain (b.withRevision r)).filter fun x =>
        ∀ last ∈ retiredFrom retain (b.withRevision r) chain,
          last.value.sequence < x.value.sequence := by
    rw [h.revisions, lineage, lineage, filter_filter, filter_filter]
    refine filter_congr fun x _ => ?_
    by_cases hx : recordChain x = chain
    · simp [hx, staysIn]
    · simp [hx]
  rw [hstays]
  cases hlast : retiredFrom retain (b.withRevision r) chain with
  | none =>
    rw [newest_of_none hlast]
    refine filter_eq_self.mpr fun x _ => ?_
    simp
  | some last =>
    rw [← (ascending_sequence (h.linked chain)).filter_eq_newest hlast]
    refine filter_congr fun x _ => ?_
    simp

/-- The last revision of a root stays. -/
lemma getLast?_revisions :
    (lineage recordChain chain next.revisions).getLast? =
      (lineage recordChain chain (b.revisions ++ [r])).getLast? := by
  rw [h.lineage_revisions, getLast?_newest h.retain_ne, h.sorted.2]

end

lemma mem_revisions {x : SignedRecord UserRevision} (hx : x ∈ next.revisions) :
    x ∈ b.revisions ∨ x = r := by
  rw [h.revisions, mem_filter, withRevision, mem_sortByKey, mem_append, mem_singleton] at hx
  exact hx.1

/-! ### The rules of one checkpoint -/

lemma tombstone_eq_some {t : RevisionTombstone} :
    next.tombstone chain.1 chain.2 = some t ↔ t.chain = chain ∧ ((t ∈ b.revisionTombstones ∧
        retiredFrom retain (b.withRevision r) chain = none) ∨
          Replaces C next.generation retain (b.withRevision r) t) := by
  rw [GuildCheckpoint.tombstone_eq_some h.ascending, h.tombstones]
  constructor
  · rintro ⟨hmem, howner, hroot⟩
    have hchain : t.chain = chain := Prod.ext howner hroot
    rw [hchain] at hmem
    exact ⟨hchain, hmem⟩
  · rintro ⟨rfl, hmem⟩
    exact ⟨hmem, rfl, rfl⟩

/-- A root that loses nothing keeps its tombstone. -/
lemma tombstone_of_none (hnone : retiredFrom retain (b.withRevision r) chain = none) :
    next.tombstone chain.1 chain.2 = b.tombstone chain.1 chain.2 := by
  refine Option.ext fun t => ?_
  rw [h.tombstone_eq_some, GuildCheckpoint.tombstone_eq_some h.base.tombstones_ascending]
  constructor
  · rintro ⟨rfl, ⟨hmem, -⟩ | ⟨last, hash, hlast, -⟩⟩
    · exact ⟨hmem, rfl, rfl⟩
    · rw [hnone] at hlast
      cases hlast
  · rintro ⟨hmem, howner, hroot⟩
    exact ⟨Prod.ext howner hroot, .inl ⟨hmem, hnone⟩⟩

section

variable (hlast : retiredFrom retain (b.withRevision r) chain = some last)

include hlast

/-- A revision that is retired was in the checkpoint before. -/
lemma mem_of_retired : last ∈ b.revisions := by
  have hmem := lastRetired_mem_dropLast hlast h.retain_ne
  rw [h.sorted.2] at hmem
  by_cases hchain : recordChain r = chain
  · subst hchain
    rw [lineage_append_self, dropLast_concat] at hmem
    exact (mem_lineage.mp hmem).1
  · rw [lineage_append_ne hchain] at hmem
    exact (mem_lineage.mp (mem_of_mem_dropLast hmem)).1

lemma two_le_generation : 2 ≤ next.generation := by
  have hne : b.generation ≠ 0 := by
    refine h.started.resolve_left fun hnil => ?_
    have hmem := h.mem_of_retired hlast
    rw [hnil] at hmem
    cases hmem
  have hpos : 0 < b.generation.val := Fin.pos_iff_ne_zero.mpr hne
  have hgeneration := h.generation
  exact Fin.le_def.mpr (by show 2 ≤ next.generation.val; omega)

/-- A root that loses revisions has a new tombstone. -/
lemma tombstone_of_retired :
    ∃ hash, last.value.hash C = .ok hash ∧
      tombstoneOf next.generation last.value hash ∈ next.revisionTombstones ∧
      next.tombstone chain.1 chain.2 = some (tombstoneOf next.generation last.value hash) := by
  obtain ⟨hash, hhash⟩ := (h.base.revisions.sound last (h.mem_of_retired hlast)).hashed
  have hchain : (tombstoneOf next.generation last.value hash).chain = chain :=
    chain_tombstoneOf hlast
  have hreplaces : Replaces C next.generation retain (b.withRevision r)
      (tombstoneOf next.generation last.value hash) :=
    ⟨last, hash, by rw [hchain]; exact hlast, hhash, rfl⟩
  exact ⟨hash, hhash, (h.tombstones _).mpr (.inr hreplaces),
    h.tombstone_eq_some.mpr ⟨hchain, .inr hreplaces⟩⟩

end

lemma fencesSound : FencesSound C next next.writerFences :=
  h.fences.sound h.base.fences h.version_ne

/-- The key of a fence that is there. -/
lemma fenceKey_of_mem {fence : WriterFence} (hfence : fence ∈ next.writerFences) :
    next.fenceKey fence.owner fence.epoch = some fence.publicKey := by
  refine Option.map_eq_some_iff.mpr ⟨fence, ?_, rfl⟩
  refine (find?_eq_some_of_unique fun x hx y hy hpx hpy => ?_).mpr ⟨hfence, by simp⟩
  simp only [decide_eq_true_eq] at hpx hpy
  refine h.fencesSound.ascending.eq_of_key hx hy ?_
  rw [fenceOrder, fenceOrder, hpx.1, hpx.2, hpy.1, hpy.2]

lemma revisionSound : ∀ x ∈ next.revisions, RevisionSound C next x := by
  intro x hx
  rcases h.mem_revisions hx with hx | rfl
  · have hsound := h.base.revisions.sound x hx
    exact
      { hsound with
        member := fun hversion => absurd hversion h.version_ne
        guild := hsound.guild.trans h.next_guild.symm
        fenced := h.fenceKey_of_mem (h.fences.mem_of_mem (h.fence_mem hx)) }
  · have hsequence : x.value.sequence ≠ 0 := by
      have hextends := h.new.extends_chain
      cases hlast : (lineage recordChain (recordChain x) b.revisions).getLast? with
      | none =>
        rw [hlast] at hextends
        rw [hextends.1]
        decide
      | some last =>
        rw [hlast] at hextends
        have : x.value.sequence.val = last.value.sequence.val + 1 :=
          U64.checkedSucc_eq_some.mp hextends.1
        intro hzero
        rw [hzero, Fin.val_zero] at this
        omega
    have hfence : fenceOf x.value ∈ next.writerFences :=
      (mem_lineage.mp (mem_of_getLast? (h.fences.lineage_self h.base.fences))).1
    exact ⟨h.new.signed, h.fences.written, h.new.signer,
      fun hversion => absurd hversion h.version_ne,
      h.new.versioned, h.guild.trans h.next_guild.symm, h.new.root_ne, h.new.cipher, hsequence,
      h.new.metadata_ne, h.new.commitments, h.new.fits, hash_of_signed h.new.signed h.new.versioned,
      h.fenceKey_of_mem hfence⟩

/-- The chains of the successor begin where the old ones did, or after the new tombstone. -/
lemma lineages : Lineages recordChain next.startsChain (nextRevision C) next.revisions := by
  intro chain
  rw [h.lineage_revisions]
  have hroot : ∀ x ∈ (newest retain (lineage recordChain chain (b.withRevision r))).head?,
      (x.value.owner, x.value.protectedRootId) = chain := by
    intro x hx
    rw [← h.lineage_revisions] at hx
    exact (mem_lineage.mp (mem_of_mem_head? hx)).2
  cases hlast : retiredFrom retain (b.withRevision r) chain with
  | none =>
    have hnewest := newest_of_none hlast
    refine (hnewest ▸ h.linked chain).imp_start fun x hx hstarts => ?_
    have hsame := h.tombstone_of_none hlast
    rw [← hroot x hx] at hsame
    rw [startsChain, hsame]
    exact hstarts
  | some last =>
    obtain ⟨hash, hhash, -, htombstone⟩ := h.tombstone_of_retired hlast
    refine ((h.linked chain).newest hlast).imp_start fun x hx hnext => ?_
    obtain ⟨hsequence, ⟨hash', hhash', hparent⟩, -⟩ := hnext
    rw [hhash] at hhash'
    rw [← hroot x hx] at htombstone
    rw [startsChain, htombstone]
    exact ⟨hsequence, by rw [hparent, Except.ok.inj hhash']; rfl⟩

lemma revisionsSound : RevisionsSound C next next.revisions where
  sound := h.revisionSound
  ascending := by
    rw [h.revisions]
    exact h.sorted.1.filter _
  ids := by
    have hall : ((b.withRevision r).map fun x => x.value.revisionId).Nodup := by
      rw [withRevision, ((perm_sortByKey _ _).map _).nodup_iff, map_append, map_singleton,
        nodup_append]
      refine ⟨h.base.revisions.ids, nodup_singleton _, fun id hid id' hid' heq => ?_⟩
      obtain ⟨x, hx, rfl⟩ := mem_map.mp hid
      exact h.new.fresh x hx (heq.trans (mem_singleton.mp hid'))
    rw [h.revisions]
    exact hall.sublist (filter_sublist.map _)
  lineages := h.lineages
  consistent := by
    refine h.new.consistent.mono fun u hu => ?_
    obtain ⟨x, hx, hux⟩ := mem_flatMap.mp hu
    exact mem_flatMap.mpr ⟨x, by simpa using h.mem_revisions hx, hux⟩

lemma in_use (owner : NodeId) :
    ∀ fence ∈ (lineage WriterFence.owner owner next.writerFences).getLast?,
      ∃ chain : NodeId × Uuid, chain.1 = owner ∧
        ∃ last ∈ (lineage recordChain chain next.revisions).getLast?,
          last.value.writerEpoch = fence.epoch := by
  intro fence hfence
  by_cases howner : r.value.owner = owner
  · subst howner
    rw [h.fences.lineage_self h.base.fences] at hfence
    obtain rfl := Option.some.inj hfence
    refine ⟨recordChain r, rfl, r, ?_, rfl⟩
    rw [h.getLast?_revisions, lineage_append_self, getLast?_concat]
    rfl
  · rw [h.fences.lineage_other h.base.fences howner] at hfence
    obtain ⟨chain, hchain, last, hlast, hepoch⟩ := h.base.in_use owner fence hfence
    refine ⟨chain, hchain, last, ?_, hepoch⟩
    have hne : recordChain r ≠ chain := by
      rintro rfl
      exact howner hchain
    rw [h.getLast?_revisions, lineage_append_ne hne]
    exact hlast

lemma headed : ∀ t ∈ next.revisionTombstones,
    lineage recordChain (t.owner, t.protectedRootId) next.revisions ≠ [] := by
  intro t ht
  have hbefore : lineage recordChain t.chain (b.revisions ++ [r]) ≠ [] := by
    rcases (h.tombstones t).mp ht with ⟨hmem, -⟩ | ⟨last, hash, hlast, -⟩
    · obtain ⟨x, hx⟩ := exists_mem_of_ne_nil _ (h.base.headed t hmem)
      obtain ⟨hx, hchain⟩ := mem_lineage.mp hx
      exact ne_nil_of_mem (mem_lineage.mpr ⟨mem_append_left _ hx, hchain⟩)
    · rw [← h.sorted.2]
      exact ne_nil_of_mem (mem_of_lastRetired hlast)
  intro hnil
  have hlast := h.getLast?_revisions t.chain
  rw [show lineage recordChain t.chain next.revisions = [] from hnil, getLast?_nil, eq_comm,
    getLast?_eq_none_iff] at hlast
  exact hbefore hlast

/-- The guard of the tombstone loop comes down to the two rules that revisions do not have. -/
lemma tombstones_shape_iff :
    (∀ t ∈ next.revisionTombstones, next.TombstoneShape t) ↔
      Nameable C retain (b.withRevision r) := by
  constructor
  · intro hshape chain last hlast
    obtain ⟨hash, hhash, hmem, -⟩ := h.tombstone_of_retired hlast
    have := hshape _ hmem
    simp only [TombstoneShape, tombstoneOf, not_or] at this
    obtain ⟨-, -, -, hid, hzero, -⟩ := this
    refine ⟨hid, fun hhash' => hzero ?_⟩
    rw [hhash] at hhash'
    exact Except.ok.inj hhash'
  · intro hnameable t ht
    rw [TombstoneShape]
    rcases (h.tombstones t).mp ht with ⟨hmem, -⟩ | ⟨last, hash, hlast, hhash, rfl⟩
    · have hold := h.base.tombstones_shape t hmem
      rw [TombstoneShape] at hold
      simp only [not_or, not_lt] at hold ⊢
      obtain ⟨-, hroot, hthrough, hid, hzero, htwo, hgeneration⟩ := hold
      have hlt : b.generation < next.generation := by
        have := h.generation
        exact Fin.lt_def.mpr (by omega)
      exact ⟨fun hversion => h.version_ne hversion.1, hroot, hthrough, hid, hzero, htwo,
        hgeneration.trans hlt.le⟩
    · have hsound := h.base.revisions.sound last (h.mem_of_retired hlast)
      obtain ⟨hid, hzero⟩ := hnameable _ last hlast
      simp only [tombstoneOf, not_or, not_lt]
      refine ⟨fun hversion => h.version_ne hversion.1, hsound.root_ne, hsound.sequence_ne, hid, ?_,
        h.two_le_generation hlast, le_rfl⟩
      rintro rfl
      exact hzero hhash

/-- **The history rules hold in the successor exactly when what is retired can be named.** -/
lemma history_iff : next.History C ↔ Nameable C retain (b.withRevision r) := by
  rw [← h.tombstones_shape_iff]
  refine ⟨fun hhistory => hhistory.tombstones_shape, fun hshape => ?_⟩
  exact ⟨h.fencesSound, h.ascending, hshape, h.revisionsSound, h.in_use, h.headed⟩

end

/-! ### The rules of the transition -/

/-- The newest fence, read off the fences of the owner. -/
lemma latestFence_eq {c : GuildCheckpoint} (hasc : Ascending fenceOrder c.writerFences)
    {owner : NodeId} {fence : WriterFence}
    (hlast : (lineage WriterFence.owner owner c.writerFences).getLast? = some fence) :
    c.latestFence owner = fence.epoch := by
  obtain ⟨hmem, howner⟩ := mem_lineage.mp (mem_of_getLast? hlast)
  refine le_antisymm (latestFence_le_iff.mpr fun f hf hfowner => ?_)
    (howner ▸ epoch_le_latestFence hmem)
  exact (ascending_epochs hasc owner).le_getLast hlast (mem_lineage.mpr ⟨hf, hfowner⟩)

lemma latestFence_congr {c c' : GuildCheckpoint} {owner : NodeId}
    (h : lineage WriterFence.owner owner c.writerFences =
      lineage WriterFence.owner owner c'.writerFences) :
    c.latestFence owner = c'.latestFence owner := by
  rw [latestFence, latestFence]
  exact congrArg (fun fences => (fences.map WriterFence.epoch).foldr max 0) h

section

variable (h : Built C retain b r next)

include h

/-- The fence of the writer advances by one or not at all. -/
lemma latestFence_advances (hlt : b.latestFence r.value.owner < r.value.writerEpoch) :
    (b.latestFence r.value.owner).checkedSucc = some r.value.writerEpoch := by
  rcases h.fences.cases with ⟨hlast, -⟩ | ⟨hnext, -⟩
  · rw [latestFence_eq h.base.fences.ascending hlast] at hlt
    exact absurd hlt (lt_irrefl _)
  · cases hlast : (lineage WriterFence.owner r.value.owner b.writerFences).getLast? with
    | some fence =>
      rw [latestFence_eq h.base.fences.ascending hlast]
      rw [hlast] at hnext
      exact hnext
    | none =>
      rw [hlast] at hnext
      have hnil : lineage WriterFence.owner r.value.owner b.writerFences = [] :=
        getLast?_eq_none_iff.mp hlast
      have hzero : b.latestFence r.value.owner = 0 :=
        congrArg (fun fences => (fences.map WriterFence.epoch).foldr max 0) hnil
      rw [hzero, show r.value.writerEpoch = 1 from hnext]
      decide

lemma checkWriter (m : Member) : b.checkWriter next m = .ok () := by
  have hadds : ∀ x, Adds b next x → x = r := fun x hx => (h.mem_revisions hx.1).resolve_left hx.2
  rw [GuildCheckpoint.checkWriter]
  simp only [bind_eq_ok, reject_eq_ok, exists_unit]
  push Not
  by_cases howner : r.value.owner = m.nodeId
  · have hcurrent : next.latestFence m.nodeId = r.value.writerEpoch := by
      rw [← howner]
      exact latestFence_eq h.fencesSound.ascending (h.fences.lineage_self h.base.fences)
    have hr : r ∈ b.addedBy next m.nodeId := by
      refine mem_addedBy.mpr ⟨⟨?_, fun hmem => h.new.fresh r hmem rfl⟩, howner⟩
      have hlast := h.getLast?_revisions (recordChain r)
      rw [lineage_append_self, getLast?_concat] at hlast
      exact (mem_lineage.mp (mem_of_getLast? hlast)).1
    rw [hcurrent, ← howner]
    refine ⟨fun hlt => ⟨h.latestFence_advances hlt, r, howner ▸ hr, rfl⟩, fun x hx => ?_⟩
    rw [hadds x (mem_addedBy.mp hx).1]
  · have hcurrent : next.latestFence m.nodeId = b.latestFence m.nodeId :=
      latestFence_congr (h.fences.lineage_other h.base.fences howner)
    refine ⟨fun hlt => absurd hlt (by rw [hcurrent]; exact lt_irrefl _), fun x hx => ?_⟩
    obtain ⟨hnew, hxowner⟩ := mem_addedBy.mp hx
    rw [hadds x hnew] at hxowner
    exact absurd hxowner howner

lemma checkOldTombstone (hvalid : b.Valid) {old : RevisionTombstone}
    (hold : old ∈ b.revisionTombstones) : next.checkOldTombstone old = .ok () := by
  have hcurrent : ∃ current, next.tombstone old.owner old.protectedRootId = some current ∧
      ¬ (current.throughSequence < old.throughSequence ∨
        (current.throughSequence = old.throughSequence ∧ current ≠ old)) := by
    cases hlast : retiredFrom retain (b.withRevision r) old.chain with
    | none =>
      refine ⟨old, h.tombstone_eq_some.mpr ⟨rfl, .inl ⟨hold, hlast⟩⟩, ?_⟩
      simp
    | some last =>
      obtain ⟨hash, -, -, htombstone⟩ := h.tombstone_of_retired hlast
      obtain ⟨howner, hroot⟩ := Prod.mk.inj (retiredFrom_spec hlast).2
      have habove : old.throughSequence < last.value.sequence := by
        refine hvalid.above_tombstone last (h.mem_of_retired hlast) old ?_
        exact hvalid.tombstone_eq_some.mpr ⟨hold, howner.symm, hroot.symm⟩
      refine ⟨_, htombstone, ?_⟩
      rintro (hlt | ⟨heq, -⟩)
      · exact absurd habove (not_lt.mpr hlt.le)
      · exact absurd heq habove.ne'
  obtain ⟨current, hfind, hguard⟩ := hcurrent
  rw [GuildCheckpoint.checkOldTombstone]
  simp only [bind_eq_ok, okOr_eq_ok, reject_eq_ok]
  exact ⟨current, hfind, hguard⟩

lemma checkNewTombstone (hvalid : b.Valid) {current : RevisionTombstone}
    (hcurrent : current ∈ next.revisionTombstones) :
    b.checkNewTombstone C next current = .ok () := by
  refine reject_eq_ok.mpr ?_
  rintro ⟨hraised, hbad⟩
  rcases (h.tombstones current).mp hcurrent with ⟨hmem, -⟩ | ⟨last, hash, hlast, hhash, rfl⟩
  · rw [hvalid.floor_eq hmem] at hraised
    exact lt_irrefl _ hraised
  · -- the tombstone names a revision of the checkpoint before
    have hmem := h.mem_of_retired hlast
    have hfind : b.revisionAt last.value.owner last.value.protectedRootId last.value.sequence =
        some last := by
      refine (find?_eq_some_of_unique fun x hx y hy hpx hpy => ?_).mpr ⟨hmem, by simp⟩
      simp only [decide_eq_true_eq] at hpx hpy
      refine hvalid.eq_of_same_place hx hy ?_ (hpx.2.2.trans hpy.2.2.symm)
      exact Prod.ext (hpx.1.trans hpy.1.symm) (hpx.2.1.trans hpy.2.1.symm)
    rcases hbad with hgeneration | hnames
    · exact hgeneration rfl
    · exact hnames ⟨last, hfind, rfl, hhash⟩

lemma checkActiveState : b.checkActiveState next = .ok () := by
  refine reject_eq_ok.mpr ?_
  rintro (⟨hversion, -⟩ | ⟨x, hx, hdropped, huncovered⟩ | ⟨hversion, -⟩)
  · exact h.version_ne hversion
  · have hall : x ∈ b.withRevision r := by
      rw [withRevision, mem_sortByKey]
      exact mem_append_left _ hx
    have hretired : ¬ staysIn retain (b.withRevision r) x := by
      intro hstays
      refine hdropped ?_
      rw [h.revisions, mem_filter]
      exact ⟨hall, decide_eq_true hstays⟩
    rw [staysIn] at hretired
    push Not at hretired
    obtain ⟨last, hlast, hle⟩ := hretired
    obtain ⟨hash, -, hmem, -⟩ := h.tombstone_of_retired hlast
    obtain ⟨howner, hroot⟩ := Prod.mk.inj (retiredFrom_spec hlast).2
    exact huncovered ⟨_, hmem, howner, hroot, hle⟩
  · exact h.version_ne hversion

/-- **The transition rules hold without a condition.** -/
lemma checkHistorySince (hvalid : b.Valid) : b.checkHistorySince C next = .ok () := by
  rw [GuildCheckpoint.checkHistorySince]
  simp only [bind_eq_ok, reject_eq_ok, forEach_eq_ok, exists_unit]
  refine ⟨?_, fun m _ => h.checkWriter m, fun old hold => h.checkOldTombstone hvalid hold,
    fun current hcurrent => h.checkNewTombstone hvalid hcurrent, h.checkActiveState⟩
  rintro ⟨fence, hmem, hdropped⟩
  exact hdropped (h.fences.mem_of_mem hmem)

end

end Built

/-! ## Retention -/

/-- The revisions of a checkpoint, none without one. -/
def revisionsOf (previous : Option GuildCheckpoint) : List (SignedRecord UserRevision) :=
  previous.elim [] GuildCheckpoint.revisions

def fencesOf (previous : Option GuildCheckpoint) : List WriterFence :=
  previous.elim [] GuildCheckpoint.writerFences

/-- What stands in for the checkpoint before the first one. -/
def blank (guildId : Bytes 32) : GuildCheckpoint where
  formatVersion := 7
  guildId := guildId
  genesisHash := 0
  generation := 0
  parent := none
  members := []
  writerFences := []
  revisionTombstones := []
  revisions := []
  codingGroups := []
  authority := none
  packingCatalog := none

lemma history_blank (guildId : Bytes 32) : (blank guildId).History C where
  fences := ⟨by simp [blank], Pairwise.nil, lineages_nil⟩
  tombstones_ascending := Pairwise.nil
  tombstones_shape := by simp [blank]
  revisions := ⟨by simp [blank], Pairwise.nil, nodup_nil, lineages_nil,
    by simp [blank, Consistent]⟩
  in_use owner fence hfence := by simp [blank, lineage] at hfence
  headed := by simp [blank]

/-- The history that the constructor starts from, as that of a checkpoint. -/
structure Base (C : Crypto) (previous : Option GuildCheckpoint) (guildId : Bytes 32)
    (b : GuildCheckpoint) (generation : U64) : Prop where
  history : b.History C
  guild : b.guildId = guildId
  revisions : b.revisions = revisionsOf previous
  fences : b.writerFences = fencesOf previous
  started : b.revisions = [] ∨ b.generation ≠ 0
  generation_eq : generation.val = b.generation.val + 1
  starting : startingHistory previous =
    .ok ⟨generation, b.writerFences, b.revisionTombstones, b.revisions, b.codingGroups⟩
  previous : ∀ p ∈ previous, p = b ∧ b.Valid

lemma exists_base {previous : Option GuildCheckpoint} {guildId : Bytes 32}
    (hvalid : ∀ p ∈ previous, p.validate C = .ok ())
    (hguild : ∀ p ∈ previous, guildId = p.guildId) :
    ∃ b generation, Base C previous guildId b generation := by
  cases previous with
  | none =>
    refine ⟨blank guildId, 1, ?_⟩
    exact ⟨history_blank guildId, rfl, rfl, rfl, .inl rfl, rfl, rfl, by simp⟩
  | some p =>
    have hp := valid_of_validate (hvalid p rfl)
    have hlt : p.generation.val + 1 < 2 ^ 64 := by
      have := hp.generation_le
      rw [i64Max] at this
      omega
    have hsucc : p.generation.checkedSucc = some ⟨p.generation.val + 1, hlt⟩ :=
      U64.checkedSucc_eq_some.mpr rfl
    refine ⟨p, ⟨p.generation.val + 1, hlt⟩, history_of_validate (hvalid p rfl),
      (hguild p rfl).symm, rfl, rfl, .inr hp.generation_ne, rfl, ?_, ?_⟩
    · rw [startingHistory, hsucc]
      rfl
    · rintro q hq
      obtain rfl := Option.some.inj hq
      exact ⟨rfl, hp⟩

variable {previous : Option GuildCheckpoint} {b : GuildCheckpoint}

lemma Base.exists_built (hbase : Base C previous r.value.guildId b generation)
    (hnew : NewRevision C b.revisions r) (hretain : retain ≠ 0)
    (hfence : Succeeds (includeWriterFence C b.writerFences r.value)) :
    ∃ history, historyAfter C previous r retain = .ok history ∧
      ∀ frame : CheckpointFrame, frame.guildId = r.value.guildId →
        Built C retain b r (history.checkpoint frame) := by
  have hb := hbase.history
  obtain ⟨fences, hfences⟩ := hfence
  have hhashed : ∀ x ∈ b.withRevision r, Succeeds (x.value.hash C) := by
    intro x hx
    rw [withRevision, mem_sortByKey, mem_append, mem_singleton] at hx
    rcases hx with hx | rfl
    · exact (hb.revisions.sound x hx).hashed
    · exact hash_of_signed hnew.signed hnew.versioned
  obtain ⟨kept, hkept, hrevisions, hascending, htombstones⟩ :=
    applyRevisionRetention_spec generation hretain hhashed hb.tombstones_ascending.nodup_map
      (sortByKey CodingGroup.id b.codingGroups)
  refine ⟨⟨generation, fences, kept.tombstones, kept.revisions, kept.codingGroups⟩, ?_,
    fun frame hframe => ?_⟩
  · rw [historyAfter, hbase.starting]
    simp only [bind_eq_ok, pure_eq_ok]
    exact ⟨_, rfl, fences, hfences, kept, hkept, rfl⟩
  · exact ⟨hb, hnew, hbase.guild.symm, hretain, hbase.started, rfl, hframe.trans hbase.guild.symm,
      hbase.generation_eq, includeWriterFence_eq_ok hb.fences.ascending hfences, hrevisions,
      hascending, htombstones⟩

/-- The new checkpoint keeps the rules that the two validators have for its history. -/
structure AcceptableSuccessor (C : Crypto) (previous : Option GuildCheckpoint)
    (next : GuildCheckpoint) : Prop where
  valid : Succeeds (next.checkHistory C)
  follows : ∀ p ∈ previous, p.checkHistorySince C next = .ok ()

/-- A root keeps its newest revisions and no others. -/
def KeepsNewest (retain : ℕ) (all kept : List (SignedRecord UserRevision)) : Prop :=
  ∃ retired, all = retired ++ kept ∧ kept.length = min all.length retain

/-- **Retention against the validators.** Every valid checkpoint and every revision that extends it
lead to a history that keeps the newest revisions of every root and follows the checkpoint before.
It is valid exactly when no tombstone would name the nil identifier or the zero hash. -/
theorem retention_successor_iff (C : Crypto) (previous : Option GuildCheckpoint)
    (r : SignedRecord UserRevision) (retain : ℕ) (hvalid : ∀ p ∈ previous, p.validate C = .ok ())
    (hnew : NewRevision C (revisionsOf previous) r)
    (hguild : ∀ p ∈ previous, r.value.guildId = p.guildId) (hretain : 1 ≤ retain)
    (hfence : Succeeds (includeWriterFence C (fencesOf previous) r.value)) :
    ∃ history, historyAfter C previous r retain = .ok history ∧
      ∀ frame : CheckpointFrame, frame.guildId = r.value.guildId → (∀ chain, KeepsNewest retain
          (lineage recordChain chain (sortByKey signedOrder (revisionsOf previous ++ [r])))
          (lineage recordChain chain (history.checkpoint frame).revisions)) ∧
        (AcceptableSuccessor C previous (history.checkpoint frame) ↔
          Nameable C retain (sortByKey signedOrder (revisionsOf previous ++ [r]))) := by
  obtain ⟨b, generation, hbase⟩ := exists_base hvalid hguild
  rw [← hbase.revisions] at hnew ⊢
  rw [← hbase.fences] at hfence
  obtain ⟨history, hhistory, hbuilt⟩ :=
    hbase.exists_built hnew (Nat.one_le_iff_ne_zero.mp hretain) hfence
  refine ⟨history, hhistory, fun frame hframe => ?_⟩
  have hnext := hbuilt frame hframe
  rw [← withRevision, ← hnext.history_iff, ← checkHistory_succeeds_iff]
  constructor
  · intro chain
    rw [hnext.lineage_revisions]
    exact ⟨_, (take_append_drop _ _).symm, length_newest⟩
  · refine ⟨fun h => h.valid, fun h => ⟨h, fun p hp => ?_⟩⟩
    obtain ⟨rfl, hvalid⟩ := hbase.previous p hp
    exact hnext.checkHistorySince hvalid

/-! ### A revision without an identifier -/

/-- A first revision of the small guild whose identifier is nil. -/
def unnamedRevision : SignedRecord UserRevision := smallRevision 1 0 none
    53118817757858289859821278020130622137299205567214262630003430805415137076332
    92676180258296970680967713314818225942885320424835740083535258026764722887380

def unnamedRevisionHash : Bytes 32 :=
  100831835933711396537522678339571643180786767801683319955010258475448247707795

def unnamedCheckpoint : GuildCheckpoint := smallCheckpoint 1 none [] [unnamedRevision]

/-- The revision after it. -/
def namedRevision : SignedRecord UserRevision := smallRevision 2 22 (some unnamedRevisionHash)
    47828690002775412193788045862421581383438933417618952025850426267358314778936
    74224497245657666873900751299124258137969808587495875492808510641507571177358

/-- The surroundings of the next checkpoint of the small guild. -/
def smallFrame : CheckpointFrame where
  guildId := 7
  genesisHash := 8
  parent := some firstCheckpointHash
  members := [smallMember 1, smallMember 2, smallMember 3]
  authority := ⟨1, 1, ⟨1, .majority⟩⟩
  packingCatalog := ⟨0, 1, 1, none, ⟨1, 0, 0⟩, [], none, none, none⟩

/-- Revisions of the small guild refer to one sector and commit to nothing. -/
lemma consistent_small {seq seq' : U64} {id id' : Bytes 16} {parent parent' : Option (Bytes 32)}
    {w w' s s' : Bytes 32} :
    Consistent (([smallRevision seq id parent w s] ++
      [smallRevision seq' id' parent' w' s']).flatMap fun r => r.value.uses) := by
  intro u hu u' hu'
  have huse : ∀ u ∈ ([smallRevision seq id parent w s] ++
      [smallRevision seq' id' parent' w' s']).flatMap fun r => r.value.uses,
      u.rooted.2 = (⟨1⟩, ⟨5⟩, ⟨12, 13, 1⟩) ∧ u.commitment = none := by
    intro u hu
    simp only [cons_append, nil_append, flatMap_cons, flatMap_nil, append_nil, mem_append] at hu
    rcases hu with hu | hu <;>
      · obtain rfl := mem_singleton.mp hu
        exact ⟨rfl, rfl⟩
  refine ⟨fun _ => (huse u hu).1.trans (huse u' hu').1.symm, fun _ m hm => ?_⟩
  rw [(huse u hu).2] at hm
  cases hm

/-- A second revision of the small guild after a first one. -/
lemma newRevision_small {id id' : Bytes 16} {hash w w' s s' : Bytes 32}
    (hhash : (smallRevision 1 id none w s).value.hash .transparent = .ok hash)
    (hsigned : (smallRevision 2 id' (some hash) w' s').verify .transparent UserRevision.codec
      userRevisionDomain = .ok ()) (hid : id ≠ id') :
    NewRevision .transparent [smallRevision 1 id none w s]
      (smallRevision 2 id' (some hash) w' s') where
  signed := hsigned
  signer := rfl
  versioned := by simp [revisionVersioned, smallRevision]
  root_ne := by simp [Uuid.isNil, smallRevision]
  cipher := rfl
  metadata_ne := cons_ne_nil _ _
  commitments := by simp [smallRevision]
  extends_chain := ⟨U64.checkedSucc_eq_some.mpr rfl, hash, hhash, rfl⟩
  fresh := by
    intro r hr hsame
    obtain rfl := mem_singleton.mp hr
    exact hid (congrArg Uuid.bytes hsame)
  fits := by simp [UserRevision.sectors, smallRevision, fitsSector, v1SectorSize]
  consistent := consistent_small

theorem retention_retires_nil_identifier :
    unnamedCheckpoint.validate .transparent = .ok () ∧
      NewRevision .transparent unnamedCheckpoint.revisions namedRevision ∧
      Succeeds (includeWriterFence .transparent unnamedCheckpoint.writerFences
        namedRevision.value) ∧
      ∃ history, historyAfter .transparent (some unnamedCheckpoint) namedRevision 1 = .ok history ∧
        unnamedCheckpoint.checkHistorySince .transparent (history.checkpoint smallFrame) = .ok () ∧
        ¬ Succeeds ((history.checkpoint smallFrame).checkHistory .transparent) := by
  refine ⟨by decide +kernel, newRevision_small (by decide +kernel) (by decide +kernel) (by decide),
    by decide +kernel, ?_⟩
  obtain ⟨history, hhistory⟩ :
      Succeeds (historyAfter .transparent (some unnamedCheckpoint) namedRevision 1) := by
    decide +kernel
  have hrun : ∀ history ∈
      (historyAfter .transparent (some unnamedCheckpoint) namedRevision 1).toOption,
        unnamedCheckpoint.checkHistorySince .transparent (history.checkpoint smallFrame) = .ok () ∧
          ¬ Succeeds ((history.checkpoint smallFrame).checkHistory .transparent) := by
    decide +kernel
  exact ⟨history, hhistory, hrun history (by rw [hhistory]; rfl)⟩

/-- The revisions of the small guild can be named. -/
theorem retention_successor_iff_second :
    ∃ history, historyAfter .transparent (some firstCheckpoint) secondRevision 1 = .ok history ∧
      AcceptableSuccessor .transparent (some firstCheckpoint) (history.checkpoint smallFrame) := by
  have hnew : NewRevision .transparent (revisionsOf (some firstCheckpoint)) secondRevision :=
    newRevision_small (by decide +kernel) (by decide +kernel) (by decide)
  obtain ⟨history, hhistory, hframe⟩ := retention_successor_iff .transparent (some firstCheckpoint)
    secondRevision 1 (by decide +kernel) hnew (by decide +kernel) le_rfl (by decide +kernel)
  refine ⟨history, hhistory, (hframe smallFrame rfl).2.mpr fun chain last hlast => ?_⟩
  have hmem : last = firstRevision ∨ last = secondRevision := by
    simpa [revisionsOf, firstCheckpoint, smallCheckpoint] using (retiredFrom_spec hlast).1
  rcases hmem with rfl | rfl
  · exact ⟨by decide, by decide +kernel⟩
  · exact ⟨by decide, by decide +kernel⟩

end GuildCheckpoint

end MutualBackup
