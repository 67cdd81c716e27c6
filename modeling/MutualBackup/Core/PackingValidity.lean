import Mathlib.Data.Fintype.Card
import MutualBackup.Framework.KeyedMap
import MutualBackup.Core.Packing

/-!
# What a valid catalog is

`PackedCatalog.validate` goes through the slots in order and collects the chunks it meets, refusing
one it has met; it then looks at the chunks of every object, and at the evidence that the version
asks for.  The loops are turned into statements about the vectors: `validate_eq_ok` is the whole
function, `Laid` its pass over the sectors, and the lemmas after it say what the evidence of the
versions two to five establishes.
-/

namespace MutualBackup

open Framework List

namespace PackedCatalog

variable {C : Crypto} {c : PackedCatalog}

/-! ## Slots -/

/-- The source chunks of a sector, in the order of its slots. -/
def sectorSources (sector : PackedSectorDescriptor) : List PackedSourceChunk :=
  sector.slots.filterMap PackedSlot.source

/-- The chunks of an object, in the order of the slots they are in. -/
def chunksOf (c : PackedCatalog) (object : ObjectKey) : List PackedSourceChunk :=
  c.sources.filter fun source => source.id.key = object

/-- The guard on a source chunk that looks at the chunk alone. -/
def SourceShape (profile : PackingProfile) (source : PackedSourceChunk) : Prop :=
  source.id.owner ≠ ⟨0⟩ ∧ source.id.protectedRoot ≠ 0 ∧ source.id.objectId ≠ 0 ∧
    source.logicalLen ≠ 0 ∧ source.logicalLen ≤ profile.slotSize ∧
    source.sourceOffset.val = source.id.chunkIndex.val * profile.slotSize.val

/-- The guard on a sector, with its place among the sectors. -/
def SectorShape (C : Crypto) (c : PackedCatalog) (expectedSlots : ℕ)
    (entry : PackedSectorDescriptor × ℕ) : Prop :=
  entry.1.sectorIndex.val = entry.2 % 2 ^ 32 ∧ entry.1.slots.length = expectedSlots ∧
    entry.1.flatRoot ≠ 0 ∧ entry.1.commitment.byteLen = c.profile.sectorSize ∧
    (3 ≤ c.formatVersion → entry.1.flatRoot = entry.1.commitment.root) ∧
    entry.1.calculateId C c.profile = .ok entry.1.id

variable {profile : PackingProfile} {seen' seen : List SourceChunkId}

lemma checkSource_eq_ok {source : PackedSourceChunk} : checkSource profile seen source = .ok seen' ↔
      SourceShape profile source ∧ source.id ∉ seen ∧ seen' = source.id :: seen := by
  rw [checkSource, SourceShape]
  simp only [bind_eq_ok, reject_eq_ok, exists_unit, pure_eq_ok, not_or, not_not, not_lt]
  rw [eq_comm (a := seen')]
  tauto

/-- The loop over the slots of a sector. -/
lemma checkSources_eq_ok {sources : List PackedSourceChunk} :
    replay (checkSource profile) seen sources = .ok seen' ↔
      (∀ source ∈ sources, SourceShape profile source) ∧
        (sources.map PackedSourceChunk.id).Nodup ∧ (∀ source ∈ sources, source.id ∉ seen) ∧
        seen' = (sources.map PackedSourceChunk.id).reverse ++ seen := by
  have hbody : ∀ seen source seen', checkSource profile seen source = .ok seen' ↔
      SourceShape profile source ∧ source.id ∉ seen.map (fun id => id) ∧
        seen' = source.id :: seen := by
    intro seen source seen'
    rw [checkSource_eq_ok, map_id']
  rw [collect_eq_ok hbody]
  simp only [map_id']

lemma checkSector_eq_ok {expectedSlots : ℕ} {entry : PackedSectorDescriptor × ℕ} :
    c.checkSector C expectedSlots seen entry = .ok seen' ↔ SectorShape C c expectedSlots entry ∧
      replay (checkSource c.profile) seen (sectorSources entry.1) = .ok seen' := by
  rw [checkSector, SectorShape]
  simp only [bind_eq_ok, reject_eq_ok, exists_unit, not_or, not_not, not_and]
  constructor
  · rintro ⟨⟨hindex, hslots, hflat, hlen, hroot⟩, id, hid, heq, hsources⟩
    rw [heq] at hid
    exact ⟨⟨hindex, hslots, hflat, hlen, hroot, hid⟩, hsources⟩
  · rintro ⟨⟨hindex, hslots, hflat, hlen, hroot, hid⟩, hsources⟩
    exact ⟨⟨hindex, hslots, hflat, hlen, hroot⟩, entry.1.id, hid, rfl, hsources⟩

/-- What the pass over the sectors establishes: sectors and chunks have their shape, and no chunk
is in two slots. -/
structure Laid (C : Crypto) (c : PackedCatalog) (expectedSlots : ℕ) : Prop where
  sectors : ∀ entry ∈ c.sectors.zipIdx, SectorShape C c expectedSlots entry
  shapes : ∀ source ∈ c.sources, SourceShape c.profile source
  nodup : (c.sources.map PackedSourceChunk.id).Nodup

/-- The chunks of some sectors, as the pass has collected them. -/
def collected (entries : List (PackedSectorDescriptor × ℕ)) : List PackedSourceChunk :=
  entries.flatMap fun entry => sectorSources entry.1

lemma collected_zipIdx : collected c.sectors.zipIdx = c.sources := by
  have hsectors : c.sectors.zipIdx.map Prod.fst = c.sectors := zipIdx_map_fst ..
  conv_rhs => rw [sources, ← hsectors, flatMap_map]
  rfl

variable {sourceIds : List SourceChunkId}

/-- The pass over the sectors accepts what is laid, and collects the chunks. -/
lemma checkSectors_eq_ok {expectedSlots : ℕ} :
    replay (c.checkSector C expectedSlots) [] c.sectors.zipIdx = .ok sourceIds ↔
      Laid C c expectedSlots ∧ sourceIds = (c.sources.map PackedSourceChunk.id).reverse := by
  -- the state of the loop is what the sectors before hold, and each sector is judged by that
  refine (replay_eq_ok_iff
    (fun before => (∀ entry ∈ before, SectorShape C c expectedSlots entry) ∧
      (∀ source ∈ collected before, SourceShape c.profile source) ∧
        ((collected before).map PackedSourceChunk.id).Nodup)
    (fun before => ((collected before).map PackedSourceChunk.id).reverse)
    ⟨by simp, by simp [collected], by simp [collected]⟩ ?_ ?_).trans ?_
  rotate_left 2
  · rw [collected_zipIdx]
    refine and_congr_left fun _ => ?_
    exact ⟨fun h => ⟨h.1, h.2.1, h.2.2⟩, fun h => ⟨h.sectors, h.shapes, h.nodup⟩⟩
  · rintro before entry ⟨hsectors, hshapes, hnodup⟩
    rw [collected, flatMap_append, map_append] at hnodup
    rw [collected, flatMap_append] at hshapes
    exact ⟨fun e he => hsectors e (mem_append_left _ he),
      fun s hs => hshapes s (mem_append_left _ hs), (nodup_append.mp hnodup).1⟩
  · rintro before entry sourceIds ⟨hsectors, hshapes, hnodup⟩
    have hcollected : collected (before ++ [entry]) =
        collected before ++ sectorSources entry.1 := by
      rw [collected, flatMap_append, flatMap_singleton]
      rfl
    rw [checkSector_eq_ok, checkSources_eq_ok, hcollected, map_append, reverse_append, nodup_append]
    simp only [forall_mem_append, forall_mem_singleton, mem_reverse]
    constructor
    · rintro ⟨hsector, hshape, hfresh, hnew, rfl⟩
      refine ⟨⟨⟨hsectors, hsector⟩, ⟨hshapes, hshape⟩, hnodup, hfresh, ?_⟩, rfl⟩
      rintro id hid id' hid' rfl
      obtain ⟨source, hsource, rfl⟩ := mem_map.mp hid'
      exact hnew source hsource hid
    · rintro ⟨⟨⟨-, hsector⟩, ⟨-, hshape⟩, -, hfresh, hdisjoint⟩, rfl⟩
      refine ⟨hsector, hshape, hfresh, fun source hsource hmem => ?_, rfl⟩
      exact hdisjoint _ hmem _ (mem_map_of_mem hsource) rfl

/-! ## Objects -/

/-- Different numbers of a `u32` that sort to their places are the numbers below their count, which
is therefore within `u32` itself. -/
lemma contiguous_iff {xs : List U32} (hnodup : xs.Nodup) :
    (∀ entry ∈ (xs.insertionSort (· ≤ ·)).zipIdx, entry.1.val = entry.2 % 2 ^ 32) ↔
      (xs.map Fin.val).Perm (List.range xs.length) := by
  have hlength : xs.length ≤ 2 ^ 32 := by
    have hcard := hnodup.length_le_card
    rwa [Fintype.card_fin] at hcard
  have hsorted := perm_insertionSort (· ≤ ·) xs
  have hplaces : (∀ entry ∈ (xs.insertionSort (· ≤ ·)).zipIdx, entry.1.val = entry.2 % 2 ^ 32) ↔
      (xs.insertionSort (· ≤ ·)).map Fin.val = List.range xs.length := by
    constructor
    · intro h
      refine ext_getElem (by simp) ?_
      intro i hi hi'
      rw [length_range] at hi'
      rw [length_map] at hi
      have hentry := h (_, i) (mem_zipIdx_iff_getElem?.mpr (getElem?_eq_getElem hi))
      rw [getElem_map, getElem_range, hentry]
      exact Nat.mod_eq_of_lt (hi'.trans_le hlength)
    · rintro h ⟨x, i⟩ hentry
      have hget := mem_zipIdx_iff_getElem?.mp hentry
      have hmapped : ((xs.insertionSort (· ≤ ·)).map Fin.val)[i]? = some x.val := by
        rw [getElem?_map, hget]
        rfl
      rw [h] at hmapped
      obtain ⟨hi, hval⟩ := List.getElem?_eq_some_iff.mp hmapped
      rw [getElem_range] at hval
      rw [length_range] at hi
      rw [← hval]
      exact (Nat.mod_eq_of_lt (hi.trans_le hlength)).symm
  rw [hplaces]
  constructor
  · intro h
    rw [← h]
    exact (hsorted.map Fin.val).symm
  · intro h
    refine Perm.eq_of_pairwise' ?_ pairwise_le_range ((hsorted.map Fin.val).trans h)
    exact (pairwise_insertionSort (· ≤ ·) xs).map _ fun _ _ hle => hle

/-- **The chunks of an object are numbered from zero without a gap, and each of them once.** -/
lemma chunksContiguous_iff (hnodup : (c.sources.map PackedSourceChunk.id).Nodup)
    (object : ObjectKey) :
    ChunksContiguous (c.sources.map PackedSourceChunk.id).reverse object ↔
      ((c.chunksOf object).map fun source => source.id.chunkIndex.val).Perm
        (List.range (c.chunksOf object).length) := by
  have hindexes : ((c.sources.map PackedSourceChunk.id).reverse.filter fun id =>
      id.key = object).map SourceChunkId.chunkIndex =
        ((c.chunksOf object).map fun source => source.id.chunkIndex).reverse := by
    rw [filter_reverse, filter_map, map_reverse, map_map]
    rfl
  have hdistinct : ((c.chunksOf object).map fun source => source.id.chunkIndex).Nodup := by
    have hids := hnodup.filter fun id => id.key = object
    rw [filter_map] at hids
    have hmapped := Nodup.map_on (f := SourceChunkId.chunkIndex) ?_ hids
    · rwa [map_map] at hmapped
    · intro id hid id' hid' hindex
      obtain ⟨source, hsource, rfl⟩ := mem_map.mp hid
      obtain ⟨source', hsource', rfl⟩ := mem_map.mp hid'
      have hkey : source.id.key = object := by simpa using (mem_filter.mp hsource).2
      have hkey' : source'.id.key = object := by simpa using (mem_filter.mp hsource').2
      have hsame := hkey.trans hkey'.symm
      simp only [SourceChunkId.key, Prod.mk.injEq] at hsame
      obtain ⟨howner, hroot, hobject⟩ := hsame
      revert howner hroot hobject hindex
      cases source.id
      cases source'.id
      rintro ⟨⟩ ⟨⟩ ⟨⟩ ⟨⟩
      rfl
  rw [ChunksContiguous]
  simp only [hindexes]
  rw [contiguous_iff (nodup_reverse.mpr hdistinct), map_reverse, length_reverse,
    length_map, map_map]
  exact ⟨fun h => (reverse_perm _).symm.trans h, fun h => (reverse_perm _).trans h⟩

/-! ## Versions -/

/-- The fields of a catalog by version. -/
lemma fields_of_idDomain (h : c.idDomain ≠ none) :
    (c.formatVersion = 1 ∧ c.sourceAuthentication = none ∧
      c.legacyBindings = none ∧ c.legacyAttestations = none) ∨
    ((c.formatVersion = 2 ∨ c.formatVersion = 3) ∧
      c.sourceAuthentication ≠ none ∧ c.legacyBindings = none ∧ c.legacyAttestations = none) ∨
    (c.formatVersion = 4 ∧ c.sourceAuthentication ≠ none ∧
      c.legacyBindings ≠ none ∧ c.legacyAttestations = none) ∨
    (c.formatVersion = 5 ∧ c.sourceAuthentication ≠ none ∧
      c.legacyBindings ≠ none ∧ c.legacyAttestations ≠ none) := by
  rw [idDomain] at h
  split at h
  case h_1 hauthentication hbindings hattestations =>
    have hversion : c.formatVersion = 1 := by_contra fun hne => h (if_neg hne)
    exact .inl ⟨hversion, hauthentication, hbindings, hattestations⟩
  case h_2 authentication hauthentication hbindings hattestations =>
    have hversion : c.formatVersion = 2 ∨ c.formatVersion = 3 := by
      by_contra hne
      rw [not_or] at hne
      rw [if_neg hne.1, if_neg hne.2] at h
      exact h rfl
    exact .inr (.inl ⟨hversion, by simp [hauthentication], hbindings, hattestations⟩)
  case h_3 authentication bindings hauthentication hbindings hattestations =>
    have hversion : c.formatVersion = 4 := by_contra fun hne => h (if_neg hne)
    exact .inr (.inr (.inl ⟨hversion, by simp [hauthentication], by simp [hbindings],
      hattestations⟩))
  case h_4 authentication bindings attestations hauthentication hbindings hattestations =>
    have hversion : c.formatVersion = 5 := by_contra fun hne => h (if_neg hne)
    exact .inr (.inr (.inr ⟨hversion, by simp [hauthentication], by simp [hbindings],
      by simp [hattestations]⟩))
  case h_5 => exact absurd rfl h

/-- Without entries there are no legacy records, and with them the version asks for evidence. -/
lemma version_of_idDomain (h : c.idDomain ≠ none) :
    (c.formatVersion = 1 ∧ c.legacyBindings = none ∧ c.legacyAttestations = none) ∨
    ∃ authentication, c.sourceAuthentication = some authentication ∧
      2 ≤ c.formatVersion ∧ c.formatVersion ≤ 5 := by
  rcases fields_of_idDomain h with ⟨h1, -, hbindings, hattestations⟩ | ⟨h23, hne, -⟩ |
    ⟨h4, hne, -⟩ | ⟨h5, hne, -⟩
  · exact .inl ⟨h1, hbindings, hattestations⟩
  · obtain ⟨authentication, hsome⟩ := Option.ne_none_iff_exists'.mp hne
    rcases h23 with h2 | h3
    · exact .inr ⟨authentication, hsome, by rw [h2]; decide⟩
    · exact .inr ⟨authentication, hsome, by rw [h3]; decide⟩
  · obtain ⟨authentication, hsome⟩ := Option.ne_none_iff_exists'.mp hne
    exact .inr ⟨authentication, hsome, by rw [h4]; decide⟩
  · obtain ⟨authentication, hsome⟩ := Option.ne_none_iff_exists'.mp hne
    exact .inr ⟨authentication, hsome, by rw [h5]; decide⟩

/-! ## The whole -/

/-- The guard on the fields of the catalog itself. -/
def HeaderShape (c : PackedCatalog) : Prop :=
  c.idDomain ≠ none ∧ c.revision ≠ 0 ∧ decide (c.revision = 1) = c.parent.isNone

/-- The number of slots of a sector. -/
def slotsPerSector (c : PackedCatalog) : ℕ := c.profile.sectorSize.val / c.profile.slotSize.val

/-- **What `PackedCatalog::validate` accepts.** -/
lemma validate_eq_ok : c.validate C = .ok () ↔
    c.profile.validate = .ok () ∧ HeaderShape c ∧ c.calculateId C = .ok c.id ∧
      Laid C c c.slotsPerSector ∧
      (∀ sector ∈ c.sectors.getLast?, ∃ slot ∈ sector.slots, slot.source ≠ none) ∧
      (∀ source ∈ c.sources,
        ((c.chunksOf source.id.key).map fun source => source.id.chunkIndex.val).Perm
          (List.range (c.chunksOf source.id.key).length)) ∧
      c.validateEvidence C (c.sources.map PackedSourceChunk.id).reverse = .ok () := by
  have hslots : c.profile.validate = .ok () → ∀ n,
      c.profile.slotsPerSector = .ok n ↔ n = c.slotsPerSector := by
    intro hprofile n
    rw [PackingProfile.slotsPerSector, hprofile, eq_comm (a := n)]
    simp only [bind_eq_ok, exists_unit, pure_eq_ok, true_and, slotsPerSector]
  have hcontiguous : (c.sources.map PackedSourceChunk.id).Nodup →
      ((∀ id ∈ (c.sources.map PackedSourceChunk.id).reverse,
          ChunksContiguous (c.sources.map PackedSourceChunk.id).reverse id.key) ↔
        ∀ source ∈ c.sources,
          ((c.chunksOf source.id.key).map fun source => source.id.chunkIndex.val).Perm
            (List.range (c.chunksOf source.id.key).length)) := by
    intro hnodup
    simp only [chunksContiguous_iff hnodup, mem_reverse, forall_mem_map]
  rw [validate, HeaderShape]
  simp only [bind_eq_ok, reject_eq_ok, exists_unit, not_or, not_not, ne_eq]
  simp only [isSomeAnd]
  push Not
  constructor
  · rintro ⟨hprofile, hheader, id, hid, rfl, n, hn, sourceIds, hsectors, hlast, hchunks, hevidence⟩
    obtain rfl := (hslots hprofile n).mp hn
    obtain ⟨hlaid, rfl⟩ := checkSectors_eq_ok.mp hsectors
    exact ⟨hprofile, hheader, hid, hlaid, hlast, (hcontiguous hlaid.nodup).mp hchunks, hevidence⟩
  · rintro ⟨hprofile, hheader, hid, hlaid, hlast, hchunks, hevidence⟩
    exact ⟨hprofile, hheader, c.id, hid, rfl, _, (hslots hprofile _).mpr rfl, _,
      checkSectors_eq_ok.mpr ⟨hlaid, rfl⟩, hlast, (hcontiguous hlaid.nodup).mpr hchunks, hevidence⟩

/-! ## Evidence -/

/-- The guard on an entry that looks at the entry alone: its proof opens the slot of the chunk in
the commitment of its source. -/
def AuthenticationShape (C : Crypto) (profile : PackingProfile)
    (entry : PackedSourceAuthentication) : Prop :=
  entry.sourceCommitment.byteLen = profile.sectorSize ∧
    entry.id.chunkIndex.val * (profile.slotSize.val / merkleLeafSize) < 2 ^ 32 ∧
    entry.proof.startLeaf.val = entry.id.chunkIndex.val * (profile.slotSize.val / merkleLeafSize) ∧
    entry.proof.leafCount.val = profile.slotSize.val / merkleLeafSize ∧
    Succeeds (merkleVerifySubtree C entry.sourceCommitment entry.proof)

lemma checkAuthentication_eq_ok {proofs proofs' : List PackedSourceAuthentication}
    {entry : PackedSourceAuthentication} :
    checkAuthentication C profile proofs entry = .ok proofs' ↔ AuthenticationShape C profile entry ∧
      entry.id ∉ proofs.map PackedSourceAuthentication.id ∧ proofs' = entry :: proofs := by
  rw [checkAuthentication, AuthenticationShape]
  simp only [bind_eq_ok, reject_eq_ok, exists_unit, pure_eq_ok, not_or, not_not, not_le, mem_map]
  rw [eq_comm (a := proofs')]
  tauto

/-- The loop over the entries. -/
lemma checkAuthentications_eq_ok {proofs authentication : List PackedSourceAuthentication} :
    replay (checkAuthentication C profile) [] authentication = .ok proofs ↔
      (∀ entry ∈ authentication, AuthenticationShape C profile entry) ∧
        (authentication.map PackedSourceAuthentication.id).Nodup ∧
        proofs = authentication.reverse := by
  have hbody : ∀ proofs entry proofs', checkAuthentication C profile proofs entry = .ok proofs' ↔
      AuthenticationShape C profile entry ∧ entry.id ∉ proofs.map PackedSourceAuthentication.id ∧
        proofs' = (fun entry => entry) entry :: proofs :=
    fun _ _ _ => checkAuthentication_eq_ok
  rw [collect_eq_ok hbody]
  simp

/-- A sector is recomposed from what the sources of its slots proved. -/
def Recomposed (C : Crypto) (c : PackedCatalog) (proofs : List PackedSourceAuthentication)
    (zeroRoot : Bytes 32) (sector : PackedSectorDescriptor) : Prop :=
  ∃ roots, sector.slots.mapM (slotRoot c.profile proofs zeroRoot) = .ok roots ∧
    merkleCommitSubtrees C c.profile.sectorSize c.profile.slotSize roots = .ok sector.commitment

/-- The leaves of a slot. -/
def slotLeaves (c : PackedCatalog) : U32 :=
  Fin.ofNat (2 ^ 32) (c.profile.slotSize.val / merkleLeafSize)

/-- **What `validate_source_authentication` accepts.** -/
lemma validateSourceAuthentication_eq_ok :
    c.validateSourceAuthentication C sourceIds = .ok () ↔
      ∃ authentication zero, c.sourceAuthentication = some authentication ∧
        (∀ entry ∈ authentication, AuthenticationShape C c.profile entry) ∧
        (authentication.map PackedSourceAuthentication.id).Nodup ∧
        (∀ id, id ∈ authentication.map PackedSourceAuthentication.id ↔ id ∈ sourceIds) ∧
        merkleOpenSubtree C (replicate c.profile.slotSize.val 0) 0 c.slotLeaves = .ok zero ∧
        ∀ sector ∈ c.sectors, Recomposed C c authentication.reverse zero.subtreeRoot sector := by
  have hsector : ∀ (proofs : List PackedSourceAuthentication) (zero : MerkleSubtreeProof)
      (sector : PackedSectorDescriptor), (do
        let roots ← sector.slots.mapM (slotRoot c.profile proofs zero.subtreeRoot)
        let commitment ← mapErr (fun _ => .invalidCatalog)
          (merkleCommitSubtrees C c.profile.sectorSize c.profile.slotSize roots)
        reject (commitment ≠ sector.commitment) PackingError.invalidCatalog) = .ok () ↔
      Recomposed C c proofs zero.subtreeRoot sector := by
    intro proofs zero sector
    simp only [bind_eq_ok, mapErr_eq_ok, reject_eq_ok, not_not, Recomposed]
    exact exists_congr fun roots => and_congr_right fun _ => by simp
  have hsame : ∀ authentication : List PackedSourceAuthentication,
      (¬ ((∃ proof ∈ authentication.reverse, proof.id ∉ sourceIds) ∨
        ∃ id ∈ sourceIds, ∀ proof ∈ authentication.reverse, proof.id ≠ id)) ↔
      ∀ id, id ∈ authentication.map PackedSourceAuthentication.id ↔ id ∈ sourceIds := by
    intro authentication
    push Not
    simp only [mem_reverse, mem_map]
    constructor
    · rintro ⟨hleft, hright⟩ id
      refine ⟨?_, hright id⟩
      rintro ⟨entry, hentry, rfl⟩
      exact hleft entry hentry
    · intro h
      exact ⟨fun entry hentry => (h _).mp ⟨entry, hentry, rfl⟩, fun id hid => (h id).mpr hid⟩
  rw [validateSourceAuthentication]
  simp only [bind_eq_ok, okOr_eq_ok, reject_eq_ok, exists_unit, mapErr_eq_ok, forEach_eq_ok,
    hsector]
  constructor
  · rintro ⟨authentication, hsome, proofs, hproofs, hids, zero, hzero, hsectors⟩
    obtain ⟨hshapes, hnodup, rfl⟩ := checkAuthentications_eq_ok.mp hproofs
    exact ⟨authentication, zero, hsome, hshapes, hnodup, (hsame _).mp hids, hzero, hsectors⟩
  · rintro ⟨authentication, zero, hsome, hshapes, hnodup, hids, hzero, hsectors⟩
    exact ⟨authentication, hsome, _, checkAuthentications_eq_ok.mpr ⟨hshapes, hnodup, rfl⟩,
      (hsame _).mpr hids, zero, hzero, hsectors⟩

/-- The guard on a binding that looks at the binding and the entries alone. -/
def BindingShape (C : Crypto) (profile : PackingProfile)
    (authentication : List PackedSourceAuthentication)
    (binding : SignedRecord LegacyPackingBinding) : Prop :=
  binding.verify C LegacyPackingBinding.codec legacyPackingBindingDomain = .ok () ∧
    binding.value.formatVersion = 1 ∧ binding.signer = binding.value.owner ∧
    binding.value.owner ≠ ⟨0⟩ ∧ binding.value.protectedRoot ≠ 0 ∧ binding.value.objectId ≠ 0 ∧
    binding.value.flatRoot ≠ 0 ∧ binding.value.sourceCommitment.byteLen = profile.sectorSize ∧
    Succeeds binding.value.sourceCommitment.validate ∧
    Authenticates authentication binding.value.key binding.value.sourceCommitment

/-- **What `validate_legacy_bindings` accepts.**  The bindings are of different objects. -/
lemma validateLegacyBindings_eq_ok : c.validateLegacyBindings C = .ok () ↔
    ∃ bindings authentication, c.legacyBindings = some bindings ∧
      c.sourceAuthentication = some authentication ∧ (bindings = [] → c.formatVersion ≠ 4) ∧
      (∀ binding ∈ bindings, BindingShape C c.profile authentication binding) ∧
      (bindings.map fun binding => binding.value.key).Nodup := by
  have hbody : ∀ authentication seen binding seen',
      checkLegacyBinding C c.profile authentication seen binding = .ok seen' ↔
        BindingShape C c.profile authentication binding ∧
          binding.value.key ∉ seen.map (fun key => key) ∧ seen' = binding.value.key :: seen := by
    intro authentication seen binding seen'
    rw [checkLegacyBinding, BindingShape, map_id']
    simp only [bind_eq_ok, mapErr_eq_ok, reject_eq_ok, exists_unit, pure_eq_ok, not_or, not_not]
    rw [eq_comm (a := seen')]
    tauto
  have hloop : ∀ authentication bindings,
      (∃ seen, replay (checkLegacyBinding C c.profile authentication) [] bindings = .ok seen) ↔
        (∀ binding ∈ bindings, BindingShape C c.profile authentication binding) ∧
          (bindings.map fun binding => binding.value.key).Nodup := by
    intro authentication bindings
    simp [collect_eq_ok (hbody authentication)]
  rw [validateLegacyBindings]
  simp only [bind_eq_ok, okOr_eq_ok, reject_eq_ok, exists_unit, pure_eq_ok, and_true, not_and]
  constructor
  · rintro ⟨bindings, hbindings, hempty, authentication, hauthentication, hrun⟩
    exact ⟨bindings, authentication, hbindings, hauthentication, hempty, (hloop _ _).mp hrun⟩
  · rintro ⟨bindings, authentication, hbindings, hauthentication, hempty, hshapes⟩
    exact ⟨bindings, hbindings, hempty, authentication, hauthentication, (hloop _ _).mpr hshapes⟩

/-- The guard on an attestation that looks at the attestation and the entries alone. -/
def AttestationShape (C : Crypto) (profile : PackingProfile)
    (authentication : List PackedSourceAuthentication)
    (attestation : SignedRecord LegacyPackingAttestation) : Prop :=
  attestation.verify C LegacyPackingAttestation.codec legacyPackingAttestationDomain = .ok () ∧
    attestation.value.formatVersion = 1 ∧ attestation.value.guildId ≠ 0 ∧
    attestation.value.membershipEpoch ≠ 0 ∧ attestation.value.owner ≠ ⟨0⟩ ∧
    attestation.value.protectedRoot ≠ 0 ∧ attestation.value.objectId ≠ 0 ∧
    attestation.value.flatRoot ≠ 0 ∧
    attestation.value.sourceCommitment.byteLen = profile.sectorSize ∧
    Succeeds attestation.value.sourceCommitment.validate ∧
    Authenticates authentication attestation.value.key attestation.value.sourceCommitment

/-- **What `validate_legacy_attestations` accepts.**  No signer attests to an object twice. -/
lemma validateLegacyAttestations_eq_ok : c.validateLegacyAttestations C = .ok () ↔
    ∃ attestations authentication, c.legacyAttestations = some attestations ∧
      c.sourceAuthentication = some authentication ∧ attestations ≠ [] ∧
      (∀ attestation ∈ attestations, AttestationShape C c.profile authentication attestation) ∧
      (attestations.map fun attestation =>
        (attestation.value.key, attestation.signer)).Nodup := by
  have hbody : ∀ authentication seen attestation seen',
      checkLegacyAttestation C c.profile authentication seen attestation = .ok seen' ↔
        AttestationShape C c.profile authentication attestation ∧
          (attestation.value.key, attestation.signer) ∉ seen.map (fun key => key) ∧
          seen' = (attestation.value.key, attestation.signer) :: seen := by
    intro authentication seen attestation seen'
    rw [checkLegacyAttestation, AttestationShape, map_id']
    simp only [bind_eq_ok, mapErr_eq_ok, reject_eq_ok, exists_unit, pure_eq_ok, not_or, not_not]
    rw [eq_comm (a := seen')]
    tauto
  have hloop : ∀ authentication attestations,
      (∃ seen, replay (checkLegacyAttestation C c.profile authentication) [] attestations =
          .ok seen) ↔
        (∀ attestation ∈ attestations, AttestationShape C c.profile authentication attestation) ∧
          (attestations.map fun attestation =>
            (attestation.value.key, attestation.signer)).Nodup := by
    intro authentication attestations
    simp [collect_eq_ok (hbody authentication)]
  rw [validateLegacyAttestations]
  simp only [bind_eq_ok, okOr_eq_ok, reject_eq_ok, exists_unit, pure_eq_ok, and_true]
  constructor
  · rintro ⟨attestations, hattestations, hempty, authentication, hauthentication, hrun⟩
    exact ⟨attestations, authentication, hattestations, hauthentication, hempty,
      (hloop _ _).mp hrun⟩
  · rintro ⟨attestations, authentication, hattestations, hauthentication, hempty, hshapes⟩
    exact ⟨attestations, hattestations, hempty, authentication, hauthentication,
      (hloop _ _).mpr hshapes⟩

/-- The evidence that each version is asked for. -/
lemma validateEvidence_eq_ok :
    c.validateEvidence C sourceIds = .ok () ↔ (2 ≤ c.formatVersion ∧ c.formatVersion ≤ 5 →
        c.validateSourceAuthentication C sourceIds = .ok ()) ∧
      (c.formatVersion = 4 ∨ c.formatVersion = 5 → c.validateLegacyBindings C = .ok ()) ∧
      (c.formatVersion = 5 → c.validateLegacyAttestations C = .ok ()) := by
  -- a guarded step before the rest, as the `do` block nests them
  have hguarded : ∀ (p : Prop) [Decidable p] (x rest : Outcome PackingError Unit),
      (if p then x >>= fun _ => rest else rest) = .ok () ↔ (p → x = .ok ()) ∧ rest = .ok () := by
    intro p _ x rest
    by_cases hp : p <;> simp [hp]
  have hlast : ∀ (p : Prop) [Decidable p] (x : Outcome PackingError Unit),
      (if p then x else pure ()) = .ok () ↔ (p → x = .ok ()) := by
    intro p _ x
    by_cases hp : p <;> simp [hp]
  rw [validateEvidence]
  exact (hguarded _ _ _).trans (and_congr_right fun _ =>
    (hguarded _ _ _).trans (and_congr_right fun _ => hlast _ _))

end PackedCatalog

end MutualBackup
