import MutualBackup.Packing.Step

/-!
# A step of the packer of changed sectors

`packIncrementalAuthenticated` wants the chunks of its sources, whether they come with an input or
from the catalog before (`Updated.scanned`), and lays them out as the full packer would
(`Updated.layout`).
-/

namespace MutualBackup

open Framework List AuthenticatedPackingSource PackingProfile

variable {C : Crypto} {profile : PackingProfile}

/-! ## Sources -/

/-- The chunks of a source. -/
def AuthenticatedPackingSource.ids (profile : PackingProfile)
    (source : AuthenticatedPackingSource) : List SourceChunkId :=
  (List.range profile.width).map fun index => chunkId source.key (Fin.ofNat _ index)

lemma PackingProfile.width_lt : profile.width < 2 ^ 32 :=
  lt_of_le_of_lt (Nat.div_le_self _ _) profile.sectorSize.isLt

lemma PackingProfile.sectorSize_eq (h : profile.validate = .ok ()) :
    profile.sectorSize.val = profile.width * profile.slotSize.val := by
  simp only [PackingProfile.validate, reject_eq_ok, not_or, not_not] at h
  exact (Nat.div_mul_cancel (Nat.dvd_of_mod_eq_zero h.2.2.2.2.2.2.2)).symm

variable {source : AuthenticatedPackingSource}

lemma AuthenticatedPackingSource.nodup_ids : (source.ids profile).Nodup := by
  refine Nodup.map_on (fun i hi j hj hij => ?_) nodup_range
  have hi : i < 2 ^ 32 := (mem_range.mp hi).trans width_lt
  have hj : j < 2 ^ 32 := (mem_range.mp hj).trans width_lt
  have hindex := congrArg (fun id => id.chunkIndex.val) hij
  simp only [chunkId, Fin.val_ofNat] at hindex
  rwa [Nat.mod_eq_of_lt hi, Nat.mod_eq_of_lt hj] at hindex

lemma AuthenticatedPackingSource.key_of_mem_ids {id : SourceChunkId} (h : id ∈ source.ids profile) :
    id.key = source.key := by
  obtain ⟨index, -, rfl⟩ := mem_map.mp h
  exact key_chunkId _ _

/-- An input of a whole sector has as many chunks as a sector has slots. -/
lemma ids_parts {input : PackingInput} (hprofile : profile.validate = .ok ())
    (hbytes : input.bytes.length = profile.sectorSize.val) :
    ((input.parts C profile).map fun chunk => chunk.source.id) =
      (List.range profile.width).map fun index => chunkId input.key (Fin.ofNat _ index) := by
  have hslot := slotSize_pos hprofile
  have hlength : (chunks profile.slotSize.val input.bytes).length = profile.width := by
    rw [length_chunks hslot, hbytes, sectorSize_eq hprofile, Nat.mul_comm]
    exact smul_ceilDiv hslot profile.width
  have hids : ((input.parts C profile).map fun chunk => chunk.source.id) =
      ((chunks profile.slotSize.val input.bytes).zipIdx.map Prod.snd).map fun index =>
        chunkId input.key (Fin.ofNat _ index) := by
    rw [PackingInput.parts, map_map, map_map]
    rfl
  rw [hids, zipIdx_map_snd, ← range_eq_range', hlength]

variable {previous : PackedCatalog} {authentication : List PackedSourceAuthentication}
  {inputs : List PackingInput}

lemma id_of_retainedChunk {index : ℕ} {chunk : InputChunk}
    (h : retainedChunk profile previous authentication source index = .ok chunk) :
    chunk.source.id = chunkId source.key (Fin.ofNat _ index) := by
  simp only [retainedChunk, bind_eq_ok, okOr_eq_ok, reject_eq_ok, exists_unit, pure_eq_ok] at h
  obtain ⟨prior, hprior, evidence, -, -, rfl⟩ := h
  have hid := find?_some hprior
  exact of_decide_eq_true hid

lemma ids_of_sourceChunks {cs : List InputChunk} (hprofile : profile.validate = .ok ())
    (h : sourceChunks C profile previous authentication inputs source = .ok cs) :
    (cs.map fun chunk => chunk.source.id).Perm (source.ids profile) := by
  rw [sourceChunks] at h
  cases hfind : inputs.find? fun input => input.key = source.key with
  | some input =>
    rw [hfind] at h
    simp only [bind_eq_ok, reject_eq_ok, exists_unit, not_or, not_not, inputChunks_eq_ok] at h
    obtain ⟨⟨-, hbytes⟩, -, rfl⟩ := h
    have hfound := find?_some hfind
    have hkey : input.key = source.key := of_decide_eq_true hfound
    have hperm : ((sortedParts C profile [input]).map fun chunk => chunk.source.id).Perm
        ((allParts C profile [input]).map fun chunk => chunk.source.id) :=
      (sortedParts_perm [input]).map _
    rw [allParts, flatMap_singleton, ids_parts hprofile hbytes, hkey] at hperm
    exact hperm
  | none =>
    rw [hfind] at h
    have hids : (cs.map fun chunk => chunk.source.id) = source.ids profile :=
      map_eq_of_mapM h fun index chunk hchunk => id_of_retainedChunk hchunk
    rw [hids]

variable {sources : List AuthenticatedPackingSource} {scan : SourceScan}

/-- What a source adds to the wanted chunks. -/
lemma scanSource_eq_ok {scan' : SourceScan} :
    scanSource C profile previous authentication scan source = .ok scan' ↔
      (source.owner ≠ ⟨0⟩ ∧ source.protectedRoot ≠ 0 ∧ source.objectId ≠ 0 ∧
        source.sourceCommitment.byteLen = profile.sectorSize ∧
        Succeeds source.sourceCommitment.validate ∧ source.key ∉ scan.seen) ∧
      ∃ cs, sourceChunks C profile previous authentication scan.inputs source = .ok cs ∧
        scan' = ⟨scan.inputs.filter fun input => input.key ≠ source.key, source.key :: scan.seen,
          desiredOf cs scan.desired⟩ := by
  simp only [scanSource, bind_eq_ok, reject_eq_ok, exists_unit, not_or, not_not, pure_eq_ok,
    eq_comm (a := scan')]

/-- The state of the loop over the sources: the wanted chunks are those of the sources so far. -/
structure Scanned (profile : PackingProfile) (before : List AuthenticatedPackingSource)
    (scan : SourceScan) : Prop where
  seen : scan.seen = (before.map AuthenticatedPackingSource.key).reverse
  keys : (before.map AuthenticatedPackingSource.key).Nodup
  keyed : Keyed scan.desired
  wanted : ∀ id, Wanted scan.desired id ↔ ∃ source ∈ before, id ∈ source.ids profile

lemma Scanned.step {before : List AuthenticatedPackingSource} {scan' : SourceScan}
    (hprofile : profile.validate = .ok ()) (h : Scanned profile before scan)
    (hstep : scanSource C profile previous authentication scan source = .ok scan') :
    Scanned profile (before ++ [source]) scan' := by
  obtain ⟨⟨-, -, -, -, -, hnew⟩, cs, hcs, rfl⟩ := scanSource_eq_ok.mp hstep
  have hids := ids_of_sourceChunks hprofile hcs
  have hnodup : (cs.map fun chunk => chunk.source.id).Nodup :=
    hids.nodup_iff.mpr nodup_ids
  rw [h.seen, mem_reverse] at hnew
  refine ⟨?_, ?_, ?_, ?_⟩
  · rw [map_append, reverse_append, h.seen]
    rfl
  · rw [map_append, nodup_append]
    refine ⟨h.keys, by simp, ?_⟩
    rintro key hkey key' hkey' rfl
    rw [map_singleton, mem_singleton] at hkey'
    exact hnew (hkey' ▸ hkey)
  · intro id chunk hget
    rcases (get_desiredOf hnodup).mp hget with ⟨-, hid⟩ | ⟨hget, -⟩
    · exact hid
    · exact h.keyed id chunk hget
  · intro id
    rw [Wanted, Option.isSome_iff_exists]
    simp only [get_desiredOf hnodup, mem_append, mem_singleton]
    have hmem : id ∈ source.ids profile ↔ ∃ chunk ∈ cs, chunk.source.id = id := by
      rw [← hids.mem_iff, mem_map]
    have hold : (∃ chunk, scan.desired.get id = some chunk) ↔
        ∃ source ∈ before, id ∈ source.ids profile := by
      rw [← h.wanted, Wanted, Option.isSome_iff_exists]
    constructor
    · rintro ⟨chunk, ⟨hchunk, hid⟩ | ⟨hget, -⟩⟩
      · exact ⟨source, .inr rfl, hmem.mpr ⟨chunk, hchunk, hid⟩⟩
      · obtain ⟨s, hs, hin⟩ := hold.mp ⟨chunk, hget⟩
        exact ⟨s, .inl hs, hin⟩
    · rintro ⟨s, hs | rfl, hin⟩
      · by_cases hthis : id ∈ source.ids profile
        · obtain ⟨chunk, hchunk, hid⟩ := hmem.mp hthis
          exact ⟨chunk, .inl ⟨hchunk, hid⟩⟩
        · obtain ⟨chunk, hget⟩ := hold.mpr ⟨s, hs, hin⟩
          refine ⟨chunk, .inr ⟨hget, fun c hc hid => hthis (hmem.mpr ⟨c, hc, hid⟩)⟩⟩
      · obtain ⟨chunk, hchunk, hid⟩ := hmem.mp hin
        exact ⟨chunk, .inl ⟨hchunk, hid⟩⟩

lemma scanned_of_replay (hprofile : profile.validate = .ok ())
    (h : replay (scanSource C profile previous authentication) ⟨inputs, [], .empty⟩ sources =
      .ok scan) : Scanned profile sources scan := by
  refine replay_history (P := Scanned profile) ⟨rfl, nodup_nil, ?_, ?_⟩ ?_ h
  · intro id chunk hget
    simp at hget
  · intro id
    simp [Wanted]
  · exact fun before scan source scan' hscan hstep => hscan.step hprofile hstep

/-- The wanted chunks are as many as the sources have. -/
lemma Scanned.count (h : Scanned profile sources scan) :
    scan.desired.rows.length = sources.length * profile.width := by
  have hall : (sources.flatMap fun source => source.ids profile).Nodup := by
    rw [nodup_flatMap]
    refine ⟨fun source _ => nodup_ids, ?_⟩
    refine (pairwise_map.mp h.keys).imp fun {a b} hne id ha hb => hne ?_
    rw [← key_of_mem_ids ha,
      ← key_of_mem_ids hb]
  have hperm : (scan.desired.rows.map Prod.fst).Perm
      (sources.flatMap fun source => source.ids profile) := by
    refine (perm_ext_iff_of_nodup scan.desired.ascending.nodup_map hall).mpr fun id => ?_
    rw [Table.mem_keys, mem_flatMap]
    exact h.wanted id
  have hlength := hperm.length_eq
  rw [length_map, length_flatMap] at hlength
  rw [hlength]
  simp [AuthenticatedPackingSource.ids]

/-! ## Sectors -/

variable {load : List PackedSectorDescriptor → PackedSectorDescriptor →
  Outcome PackingError (List UInt8)}

/-- A sector keeps its descriptor or gets a new one, of the same slots. -/
lemma scanSector_descriptors {scan scan' : SectorScan} {entry : List (Option InputChunk) × ℕ}
    (h : scanSector C profile previous load scan entry = .ok scan') :
    ∃ descriptor, scan'.descriptors = scan.descriptors ++ [descriptor] ∧
      descriptor.slots = entry.1.map packedSlot := by
  rw [scanSector] at h
  cases hprior : previous.sectors[entry.2]? with
  | none =>
    rw [hprior] at h
    obtain ⟨base, -, h⟩ := bind_eq_ok.mp h
    obtain ⟨parts, -, h⟩ := bind_eq_ok.mp h
    obtain ⟨sector, hseal, h⟩ := bind_eq_ok.mp h
    obtain rfl := pure_eq_ok.mp h
    exact ⟨sector.descriptor, rfl, (sealSector_eq_ok.mp hseal).2.1⟩
  | some prior =>
    rw [hprior] at h
    dsimp only at h
    split at h
    case isTrue hsame =>
      obtain rfl := pure_eq_ok.mp h
      exact ⟨prior, rfl, hsame.2.2⟩
    case isFalse =>
      obtain ⟨base, -, h⟩ := bind_eq_ok.mp h
      obtain ⟨parts, -, h⟩ := bind_eq_ok.mp h
      obtain ⟨sector, hseal, h⟩ := bind_eq_ok.mp h
      obtain rfl := pure_eq_ok.mp h
      exact ⟨sector.descriptor, rfl, (sealSector_eq_ok.mp hseal).2.1⟩

lemma slots_of_scanSectors {contents : List (List (Option InputChunk))} {scan : SectorScan}
    (h : replay (scanSector C profile previous load) ⟨[], [], []⟩ contents.zipIdx = .ok scan) :
    scan.descriptors.map PackedSectorDescriptor.slots =
      contents.map fun slots => slots.map packedSlot := by
  have hslots : scan.descriptors.map PackedSectorDescriptor.slots =
      contents.zipIdx.map fun entry => entry.1.map packedSlot := by
    refine replay_history (P := fun before scan =>
      scan.descriptors.map PackedSectorDescriptor.slots =
        before.map fun entry => entry.1.map packedSlot) rfl ?_ h
    intro before scan entry scan' hbefore hstep
    obtain ⟨descriptor, hdescriptors, hslots⟩ := scanSector_descriptors hstep
    rw [hdescriptors, map_append, map_append, hbefore, map_singleton, map_singleton, hslots]
  rw [hslots]
  conv_rhs => rw [← zipIdx_map_fst 0 contents, map_map]
  rfl

/-! ## The step -/

/-- What a step of the packer of changed sectors does, with the wanted chunks and the end of the
loop over the sectors. -/
structure Updated (C : Crypto) (profile : PackingProfile) (previous : PackedCatalog)
    (sources : List AuthenticatedPackingSource) (inputs : List PackingInput)
    (load : List PackedSectorDescriptor → PackedSectorDescriptor →
      Outcome PackingError (List UInt8))
    (desired : Table SourceChunkId InputChunk) (scan : SectorScan) (update : PackingUpdate) :
    Prop where
  profile_ok : profile.validate = .ok ()
  previous_ok : previous.validate C = .ok ()
  version : 2 ≤ previous.formatVersion ∧ previous.formatVersion ≤ 5
  same_profile : previous.profile = profile
  inputs_ok : (inputs.map PackingInput.key).Nodup
  sources_ne : sources ≠ []
  sources_ok : ∃ authentication seen, previous.sourceAuthentication = some authentication ∧
    replay (scanSource C profile previous authentication) ⟨inputs, [], .empty⟩ sources =
      .ok ⟨[], seen, desired⟩
  count_le : desired.rows.length ≤ maxPackedChunks
  sectors : replay (scanSector C profile previous load) ⟨[], [], []⟩
    (stepContents profile (some previous) desired).zipIdx = .ok scan
  catalog : ∃ evidence revision,
    (desired.rows.mapM fun row => okOr row.2.authentication PackingError.invalidCatalog) =
      .ok evidence ∧
    previous.revision.checkedSucc = some revision ∧
    sealCatalog C profile 3 revision (some previous.id) scan.descriptors (some evidence) =
      .ok update.catalog
  valid : update.catalog.validate C = .ok ()
  changed : update.changedSectors = scan.changed
  metrics : update.metrics = updateMetrics profile previous
    (keptLayout previous.layout desired).flatten desired
    (stepContents profile (some previous) desired) scan.changed

variable {desired : Table SourceChunkId InputChunk} {update : PackingUpdate}
  {calls : List PackedSectorDescriptor}

/-- **What the packer of changed sectors does.** -/
lemma packIncrementalAuthenticated_eq_ok :
    packIncrementalAuthenticated C profile previous sources inputs load = .ok (update, calls) ↔
      ∃ desired scan, Updated C profile previous sources inputs load desired scan update ∧
        calls = scan.calls := by
  have hprior : ∀ desired, retainedSlots desired previous.sectors =
      (keptLayout previous.layout desired).flatten := fun desired => retainedSlots_eq _
  simp only [packIncrementalAuthenticated, bind_eq_ok, exists_unit, reject_eq_ok, not_or, not_not,
    okOr_eq_ok, slotsPerSector_eq_ok, pure_eq_ok, not_lt, hprior]
  constructor
  · rintro ⟨hprofile, hprevious, ⟨hversion, hsame⟩, authentication, hauthentication,
      ⟨hinputs, hsources⟩, ⟨left, seen, desired⟩, hscan, ⟨rfl, hcount⟩, w, ⟨-, rfl⟩, assignments,
      hallocate, contents, hcontents, scan, hsectors, evidence, hevidence, revision, hrevision,
      catalog, hcatalog, hvalid, heq⟩
    have hchecked : checkPrevious C profile (some previous) = .ok () :=
      checkPrevious_eq_ok.mpr fun p hp => Option.some.inj hp ▸ ⟨hprevious, hsame⟩
    obtain ⟨hallocated, hfound⟩ := allocate_step hprofile hchecked desired
    obtain rfl := Except.ok.inj (hallocate.symm.trans hallocated)
    rw [hfound] at hcontents
    obtain rfl := Except.ok.inj hcontents
    cases heq
    exact ⟨desired, scan, ⟨hprofile, hprevious, hversion, hsame, hinputs, hsources,
      ⟨authentication, seen, hauthentication, hscan⟩, hcount, hsectors,
      ⟨evidence, revision, hevidence, hrevision, hcatalog⟩, hvalid, rfl, rfl⟩, rfl⟩
  · rintro ⟨desired, scan, ⟨hprofile, hprevious, hversion, hsame, hinputs, hsources,
      ⟨authentication, seen, hauthentication, hscan⟩, hcount, hsectors,
      ⟨evidence, revision, hevidence, hrevision, hcatalog⟩, hvalid, hchanged, hmetrics⟩, rfl⟩
    have hchecked : checkPrevious C profile (some previous) = .ok () :=
      checkPrevious_eq_ok.mpr fun p hp => Option.some.inj hp ▸ ⟨hprevious, hsame⟩
    obtain ⟨hallocated, hfound⟩ := allocate_step hprofile hchecked desired
    refine ⟨hprofile, hprevious, ⟨hversion, hsame⟩, authentication, hauthentication,
      ⟨hinputs, hsources⟩, _, hscan, ⟨rfl, hcount⟩, profile.width, ⟨hprofile, rfl⟩, _, hallocated,
      _, hfound, scan, hsectors, evidence, hevidence, revision, hrevision, _, hcatalog, hvalid, ?_⟩
    rw [← hchanged] at hmetrics ⊢
    rw [← hmetrics]

namespace Updated

variable {scan : SectorScan}

section

variable (h : Updated C profile previous sources inputs load desired scan update)

include h

lemma checked : checkPrevious C profile (some previous) = .ok () :=
  checkPrevious_eq_ok.mpr fun _ hp => Option.some.inj hp ▸ ⟨h.previous_ok, h.same_profile⟩

lemma scanned : ∃ left seen, Scanned profile sources ⟨left, seen, desired⟩ := by
  obtain ⟨authentication, seen, -, hscan⟩ := h.sources_ok
  exact ⟨[], seen, scanned_of_replay h.profile_ok hscan⟩

/-- **The wanted chunks are laid out as the full packer lays them out.** -/
lemma layout : update.catalog.layout = stepLayout profile (some previous) desired := by
  obtain ⟨evidence, revision, -, -, hcatalog⟩ := h.catalog
  obtain ⟨left, seen, hscanned⟩ := h.scanned
  rw [PackedCatalog.layout, (sealCatalog_eq_ok.mp hcatalog).1]
  exact layout_of_slots (slots_of_scanSectors h.sectors) hscanned.keyed
    (wanted_of_mem_stepLayout h.profile_ok h.checked)

lemma count : desired.rows.length = sources.length * profile.width := by
  obtain ⟨left, seen, hscanned⟩ := h.scanned
  exact hscanned.count

end

end Updated

end MutualBackup
