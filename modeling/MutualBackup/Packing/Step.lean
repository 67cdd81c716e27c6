import MutualBackup.Packing.Layout

/-!
# A step of the full packer

`packIncremental` succeeds exactly when its inputs are in order, the layout is not too large and the
result passes its own validation, and then the result is a function of the layout
(`packIncremental_eq_ok`).  What the sectors hold follows from what `sealSector` does.
-/

namespace MutualBackup

open Framework List PackingProfile

variable {C : Crypto} {profile : PackingProfile}

/-! ## Sealing -/

lemma sealSector_eq_ok {authenticated : Bool} {index : ℕ} {slots : List PackedSlot}
    {bytes : List UInt8} {sector : PackedSector} :
    sealSector C profile authenticated index slots bytes = .ok sector ↔
      sector.bytes = bytes ∧ sector.descriptor.slots = slots ∧
        sector.descriptor.sectorIndex = Fin.ofNat _ index ∧
        merkleCommit C bytes = .ok sector.descriptor.commitment ∧
        sector.descriptor.flatRoot =
          (if authenticated then sector.descriptor.commitment.root else C.blake3 bytes) ∧
        sector.descriptor.calculateId C profile = .ok sector.descriptor.id := by
  obtain ⟨⟨id, sectorIndex, flatRoot, commitment, slots'⟩, bytes'⟩ := sector
  simp only [sealSector, bind_eq_ok, mapErr_eq_ok, pure_eq_ok]
  constructor
  · rintro ⟨commitment', hcommit, id', hid, heq⟩
    cases heq
    exact ⟨rfl, rfl, rfl, hcommit, rfl, hid⟩
  · rintro ⟨rfl, rfl, rfl, hcommit, rfl, hid⟩
    exact ⟨commitment, hcommit, id, hid, rfl⟩

lemma sealCatalog_eq_ok {formatVersion : U16} {revision : U64} {parent : Option (Bytes 32)}
    {sectors : List PackedSectorDescriptor}
    {authentication : Option (List PackedSourceAuthentication)} {catalog : PackedCatalog} :
    sealCatalog C profile formatVersion revision parent sectors authentication = .ok catalog ↔
      catalog = ⟨catalog.id, formatVersion, revision, parent, profile, sectors, authentication,
        none, none⟩ ∧ catalog.calculateId C = .ok catalog.id := by
  simp only [sealCatalog, bind_eq_ok, pure_eq_ok]
  constructor
  · rintro ⟨id, hid, rfl⟩
    exact ⟨rfl, hid⟩
  · rintro ⟨hcatalog, hid⟩
    refine ⟨catalog.id, ?_, hcatalog.symm⟩
    rw [hcatalog] at hid
    exact hid

/-! ## The step -/

section Step

variable (C profile) (previous : Option PackedCatalog) (inputs : List PackingInput)

/-- The chunks of the inputs by identifier. -/
def inputDesired : Table SourceChunkId InputChunk := desiredOf (sortedParts C profile inputs) .empty

/-- The layout after the step. -/
def stepLayout (desired : Table SourceChunkId InputChunk) : List (List (Option SourceChunkId)) :=
  nextLayout profile.width (priorLayout previous) desired

/-- The chunks in the slots after the step. -/
def stepContents (desired : Table SourceChunkId InputChunk) : List (List (Option InputChunk)) :=
  contentsOf desired (stepLayout profile previous desired)

/-- The inputs have evidence. -/
def inputsAuthenticated : Bool := allAuthenticated (sortedParts C profile inputs)

/-- Inputs that the packer accepts. -/
structure Acceptable : Prop where
  shapes : ∀ input ∈ inputs, input.Shape C profile
  keys : (inputs.map PackingInput.key).Nodup
  count : (allParts C profile inputs).length ≤ maxPackedChunks

/-- What a step of the full packer does. -/
structure Packed (result : PackingResult) : Prop where
  profile_ok : profile.validate = .ok ()
  previous_ok : checkPrevious C profile previous = .ok ()
  inputs_ok : Acceptable C profile inputs
  evidence : inputsAuthenticated C profile inputs ∨
    ∀ chunk ∈ sortedParts C profile inputs, chunk.authentication = none
  slots : (usedSlots (stepLayout profile previous (inputDesired C profile inputs))).length ≤
    maxPackedChunks
  sectors : sealSectors C profile (inputsAuthenticated C profile inputs)
    (stepContents profile previous (inputDesired C profile inputs)) = .ok result.sectors
  catalog : ∃ revision, nextRevision previous = .ok revision ∧
    sealCatalog C profile (if inputsAuthenticated C profile inputs then 3 else 1) revision
      (previous.map PackedCatalog.id) (result.sectors.map PackedSector.descriptor)
      (if inputsAuthenticated C profile inputs then
        some ((sortedParts C profile inputs).filterMap InputChunk.authentication) else none) =
      .ok result.catalog
  metrics : result.metrics = packingMetrics profile previous
    (keptLayout (priorLayout previous) (inputDesired C profile inputs)).flatten
    (stepContents profile previous (inputDesired C profile inputs)) result.sectors
  valid : result.validate C = .ok ()

end Step

variable {previous : Option PackedCatalog} {inputs : List PackingInput}

section

variable (h : Acceptable C profile inputs)

include h

lemma Acceptable.nodup_ids :
    ((sortedParts C profile inputs).map fun chunk => chunk.source.id).Nodup :=
  ((sortedParts_perm inputs).map _).nodup_iff.mpr (nodup_ids_allParts h.shapes h.keys)

lemma Acceptable.get_inputDesired {id : SourceChunkId} {chunk : InputChunk} :
    (inputDesired C profile inputs).get id = some chunk ↔
      chunk ∈ allParts C profile inputs ∧ chunk.source.id = id := by
  rw [inputDesired, get_desiredOf h.nodup_ids, (sortedParts_perm inputs).mem_iff]
  simp

lemma Acceptable.keyed : Keyed (inputDesired C profile inputs) :=
  fun _ _ hget => (h.get_inputDesired.mp hget).2

end

lemma retainedSlots_previous {desired : Table SourceChunkId InputChunk} :
    retainedSlots desired ((previous.map PackedCatalog.sectors).getD []) =
      (keptLayout (priorLayout previous) desired).flatten := by
  rw [retainedSlots_eq]
  cases previous <;> rfl

section

variable (hprofile : profile.validate = .ok ())
  (hprevious : checkPrevious C profile previous = .ok ())

include hprofile hprevious

lemma wanted_of_mem_stepLayout {desired : Table SourceChunkId InputChunk} :
    ∀ id ∈ allItems (stepLayout profile previous desired), Wanted desired id :=
  fun _ => wanted_of_mem_nextLayout (width_pos hprofile)
    (nodup_priorLayout hprevious)

/-- The allocation and the lookups that both packers make, for any wanted chunks. -/
lemma allocate_step (desired : Table SourceChunkId InputChunk) :
    allocate profile.width (keptLayout (priorLayout previous) desired).flatten
        (pendingChunks desired (keptLayout (priorLayout previous) desired).flatten) =
      .ok (usedSlots (stepLayout profile previous desired)) ∧
    ((wholeSectors profile.width (usedSlots (stepLayout profile previous desired))).mapM
        fun slots => slots.mapM (slotContent desired)) =
      .ok (stepContents profile previous desired) := by
  have hw : 0 < profile.width := width_pos hprofile
  have hsized : OfWidth profile.width (priorLayout previous) := sized_priorLayout hprevious
  refine ⟨allocate_kept hsized hw, ?_⟩
  rw [stepLayout, wholeSectors_nextLayout hsized hw]
  exact slotContents_eq (wanted_of_mem_stepLayout hprofile hprevious)

end

/-- **What the full packer does.** -/
lemma packIncremental_eq_ok {result : PackingResult} :
    packIncremental C profile previous inputs = .ok result ↔
      Packed C profile previous inputs result := by
  have huniform : ∀ cs : List InputChunk,
      (¬ (¬ allAuthenticated cs ∧ cs.any fun chunk => chunk.authentication.isSome) ↔
        allAuthenticated cs ∨ ∀ chunk ∈ cs, chunk.authentication = none) := by
    intro cs
    simp [or_iff_not_imp_left]
  have hdesired : desiredOf (sortedParts C profile inputs) .empty = inputDesired C profile inputs :=
    rfl
  simp only [packIncremental, bind_eq_ok, exists_unit, reject_eq_ok, inputChunks_eq_ok,
    slotsPerSector_eq_ok, pure_eq_ok, retainedSlots_previous, huniform, not_lt]
  constructor
  · rintro ⟨hprofile, hprevious, cs, ⟨⟨hshapes, hkeys, hcount⟩, rfl⟩, hevidence, w, ⟨-, rfl⟩,
      assignments, hallocate, hslots, contents, hcontents, sectors, hsectors, revision, hrevision,
      catalog, hcatalog, hvalid, rfl⟩
    obtain ⟨hallocated, hfound⟩ := allocate_step hprofile hprevious (inputDesired C profile inputs)
    rw [hdesired, hallocated] at hallocate
    obtain rfl := Except.ok.inj hallocate
    rw [hdesired, hfound] at hcontents
    obtain rfl := Except.ok.inj hcontents
    exact ⟨hprofile, hprevious, ⟨hshapes, hkeys, hcount⟩, hevidence, hslots, hsectors,
      ⟨revision, hrevision, hcatalog⟩, rfl, hvalid⟩
  · rintro ⟨hprofile, hprevious, ⟨hshapes, hkeys, hcount⟩, hevidence, hslots, hsectors,
      ⟨revision, hrevision, hcatalog⟩, hmetrics, hvalid⟩
    obtain ⟨hallocated, hfound⟩ := allocate_step hprofile hprevious (inputDesired C profile inputs)
    have hresult : (⟨result.catalog, result.sectors, packingMetrics profile previous
        (keptLayout (priorLayout previous) (inputDesired C profile inputs)).flatten
        (stepContents profile previous (inputDesired C profile inputs)) result.sectors⟩ :
          PackingResult) = result := by
      rw [← hmetrics]
    refine ⟨hprofile, hprevious, _, ⟨⟨hshapes, hkeys, hcount⟩, rfl⟩, hevidence, profile.width,
      ⟨hprofile, rfl⟩, ?_⟩
    rw [hdesired]
    refine ⟨_, hallocated, hslots, _, hfound, _, hsectors, revision, hrevision, _, hcatalog, ?_,
      hresult⟩
    rw [hresult]
    exact hvalid

/-! ## What the result holds -/

variable {result : PackingResult}

lemma sealSectors_slots {authenticated : Bool} {contents : List (List (Option InputChunk))}
    {sectors : List PackedSector} (h : sealSectors C profile authenticated contents = .ok sectors) :
    (sectors.map fun sector => sector.descriptor.slots) =
      contents.map fun slots => slots.map packedSlot := by
  rw [map_eq_of_mapM (g := fun entry => entry.1.map packedSlot) h
    fun entry sector hseal => (sealSector_eq_ok.mp hseal).2.1]
  conv_rhs => rw [← zipIdx_map_fst 0 contents, map_map]
  rfl

/-- Descriptors with the slots of the contents have their layout. -/
lemma layout_of_slots {desired : Table SourceChunkId InputChunk}
    {layout : List (List (Option SourceChunkId))} {descriptors : List PackedSectorDescriptor}
    (hslots : descriptors.map PackedSectorDescriptor.slots =
      (contentsOf desired layout).map fun slots => slots.map packedSlot)
    (hkeyed : Keyed desired) (hwanted : ∀ id ∈ allItems layout, Wanted desired id) :
    descriptors.map PackedSectorDescriptor.layout = layout := by
  have hlayout : descriptors.map PackedSectorDescriptor.layout =
      (descriptors.map PackedSectorDescriptor.slots).map fun slots =>
        slots.map fun slot => slot.source.map PackedSourceChunk.id := by
    rw [map_map]
    rfl
  rw [hlayout, hslots, map_map]
  refine Eq.trans (map_congr_left fun contents _ => ?_) (layout_contentsOf hkeyed hwanted)
  rw [Function.comp_apply, map_map]
  rfl

lemma Packed.sectors_eq (h : Packed C profile previous inputs result) :
    result.catalog.sectors = result.sectors.map PackedSector.descriptor := by
  obtain ⟨revision, -, hcatalog⟩ := h.catalog
  rw [(sealCatalog_eq_ok.mp hcatalog).1]

lemma Packed.layout (h : Packed C profile previous inputs result) :
    result.catalog.layout = stepLayout profile previous (inputDesired C profile inputs) := by
  rw [PackedCatalog.layout, h.sectors_eq]
  refine layout_of_slots ?_ h.inputs_ok.keyed (wanted_of_mem_stepLayout h.profile_ok h.previous_ok)
  rw [map_map]
  exact sealSectors_slots h.sectors

/-- The number of chunks of the inputs. -/
def chunkCount (profile : PackingProfile) (inputs : List PackingInput) : ℕ :=
  (inputs.map fun input => input.bytes.length ⌈/⌉ profile.slotSize.val).sum

lemma PackingProfile.slotSize_pos (h : profile.validate = .ok ()) : 0 < profile.slotSize.val := by
  simp only [PackingProfile.validate, reject_eq_ok, not_or, not_lt] at h
  exact lt_of_lt_of_le (by decide) h.2.2.2.2.1

lemma length_allParts (h : profile.validate = .ok ()) :
    (allParts C profile inputs).length = chunkCount profile inputs := by
  rw [allParts, length_flatMap, chunkCount]
  congr 1
  refine map_congr_left fun input _ => ?_
  rw [PackingInput.parts, length_map, length_zipIdx, length_chunks (slotSize_pos h)]

lemma Acceptable.keys_inputDesired (h : Acceptable C profile inputs) :
    ((inputDesired C profile inputs).rows.map Prod.fst).Perm
      ((allParts C profile inputs).map fun chunk => chunk.source.id) := by
  refine (perm_ext_iff_of_nodup (inputDesired C profile inputs).ascending.nodup_map
    (nodup_ids_allParts h.shapes h.keys)).mpr fun id => ?_
  rw [Table.mem_keys, Option.isSome_iff_exists, mem_map]
  exact exists_congr fun chunk => h.get_inputDesired

lemma Packed.count (h : Packed C profile previous inputs result) :
    (inputDesired C profile inputs).rows.length = chunkCount profile inputs := by
  have hlength := h.inputs_ok.keys_inputDesired.length_eq
  rwa [length_map, length_map, length_allParts h.profile_ok] at hlength

end MutualBackup
