import MutualBackup.Packing.Step

/-!
# Reading packed objects back

`unpack_object` returns the bytes of every object that the full packer was given, whatever catalog
it packed over, and finds no other object (`unpackObject_packIncremental`).  Sectors are looked up
by identifier, so two of them must not share one.
-/

namespace MutualBackup

open Framework List

variable {C : Crypto} {profile : PackingProfile}

/-! ## Slots -/

/-- A chunk with its bytes, as `makeChunk` makes it. -/
structure InputChunk.Genuine (profile : PackingProfile) (chunk : InputChunk) : Prop where
  logicalLen : chunk.source.logicalLen.val = chunk.bytes.length
  fits : chunk.bytes.length ≤ profile.slotSize.val
  zeros : chunk.virtualZero → chunk.bytes = replicate chunk.bytes.length 0

/-- The part of an object that a chunk is. -/
def chunkPart (object : ObjectKey) (chunk : InputChunk) : Option (U32 × List UInt8) :=
  if chunk.source.id.key = object then some (chunk.source.id.chunkIndex, chunk.bytes) else none

lemma InputChunk.Genuine.slotBytes_eq {chunk : InputChunk} (h : chunk.Genuine profile) :
    slotBytes profile (some chunk) = filledSlot profile chunk.bytes := by
  rw [slotBytes]
  split
  · next hzero =>
    rw [filledSlot, h.zeros hzero, length_replicate, replicate_append_replicate,
      Nat.add_sub_cancel' h.fits, zeroSlot]
  · rfl

/-- The chunks of an object in a sector are read as they were written. -/
lemma sectorChunks_eq {slots : List (Option InputChunk)} (object : ObjectKey)
    (h : ∀ chunk, some chunk ∈ slots → chunk.Genuine profile) :
    sectorChunks profile.slotSize.val object (slots.map packedSlot)
      (slots.flatMap (slotBytes profile)) =
        slots.filterMap fun slot => slot.bind (chunkPart object) := by
  have hlength : ∀ slot ∈ slots, (slotBytes profile slot).length = profile.slotSize.val := by
    intro slot hslot
    cases slot with
    | none => exact length_replicate
    | some chunk =>
      rw [(h chunk hslot).slotBytes_eq, filledSlot, length_append, length_replicate,
        Nat.add_sub_cancel' (h chunk hslot).fits]
  rw [sectorChunks, zipIdx_map, filterMap_map]
  conv_rhs => rw [← zipIdx_map_fst 0 slots, filterMap_map]
  refine filterMap_congr fun ⟨slot, j⟩ hentry => ?_
  have hget : slots[j]? = some slot := mem_zipIdx_iff_getElem?.mp hentry
  cases slot with
  | none => rfl
  | some chunk =>
    have hgenuine := h chunk (mem_of_getElem? hget)
    have hread : ((slots.flatMap (slotBytes profile)).drop
        (j * profile.slotSize.val)).take chunk.bytes.length = chunk.bytes := by
      rw [← Nat.min_eq_left hgenuine.fits, ← take_take, take_drop_flatMap hlength hget,
        hgenuine.slotBytes_eq, filledSlot, take_left]
    cases hzero : chunk.virtualZero with
    | true =>
      simp [packedSlot, hzero, PackedSlot.isOf, PackedSlot.source, isSomeAnd, chunkPart,
        hgenuine.logicalLen, ← hgenuine.zeros hzero]
    | false =>
      simp [packedSlot, hzero, PackedSlot.isOf, PackedSlot.source, isSomeAnd, chunkPart,
        hgenuine.logicalLen, hread]

/-! ## The chunks that were packed -/

variable {previous : Option PackedCatalog} {inputs : List PackingInput} {result : PackingResult}
  {input : PackingInput} {object : ObjectKey}

lemma PackingInput.genuine (hprofile : profile.validate = .ok ()) {chunk : InputChunk}
    (hchunk : chunk ∈ input.parts C profile) : chunk.Genuine profile := by
  obtain ⟨entry, hentry, rfl⟩ := mem_map.mp hchunk
  have hmem := fst_mem_of_mem_zipIdx hentry
  have hlen := (ne_nil_of_mem_chunks (PackingProfile.slotSize_pos hprofile) hmem).2
  refine ⟨Nat.mod_eq_of_lt (hlen.trans_lt profile.slotSize.isLt), hlen, fun hzero => ?_⟩
  refine eq_replicate_iff.mpr ⟨rfl, fun byte hbyte => ?_⟩
  exact of_decide_eq_true (all_eq_true.mp hzero byte hbyte)

lemma parts_of_notMem (h : object ∉ inputs.map PackingInput.key) :
    (allParts C profile inputs).filterMap (chunkPart object) = [] := by
  refine filterMap_eq_nil_iff.mpr fun chunk hchunk => if_neg fun hkey => h ?_
  obtain ⟨input, hinput, hpart⟩ := mem_flatMap.mp hchunk
  rw [← hkey, PackingInput.key_of_mem_parts hpart]
  exact mem_map_of_mem hinput

/-- The parts that the bytes of an object are cut into. -/
def partsOf (profile : PackingProfile) (bytes : List UInt8) : List (U32 × List UInt8) :=
  (chunks profile.slotSize.val bytes).zipIdx.map fun entry => (Fin.ofNat _ entry.2, entry.1)

lemma PackingInput.Shape.ascending_partsOf (h : input.Shape C profile) :
    Ascending Prod.fst (partsOf profile input.bytes) := by
  have hindexes : (partsOf profile input.bytes).map Prod.fst =
      (range (chunks profile.slotSize.val input.bytes).length).map (Fin.ofNat (2 ^ 32)) := by
    rw [partsOf, map_map, range_eq_range', ← zipIdx_map_snd, map_map]
    rfl
  rw [ascending_iff_map, hindexes, pairwise_map]
  refine pairwise_lt_range.imp_of_mem fun {i j} hi hj hlt => Fin.lt_def.mpr ?_
  have hi := (h.parts i (mem_range.mp hi)).1
  have hj := (h.parts j (mem_range.mp hj)).1
  rwa [Fin.val_ofNat, Fin.val_ofNat, Nat.mod_eq_of_lt hi, Nat.mod_eq_of_lt hj]

lemma Acceptable.partsOf_eq (h : Acceptable C profile inputs) (hinput : input ∈ inputs) :
    (allParts C profile inputs).filterMap (chunkPart input.key) = partsOf profile input.bytes := by
  have hkeys := h.keys
  obtain ⟨before, after, rfl⟩ := append_of_mem hinput
  rw [map_append, map_cons, nodup_append, nodup_cons] at hkeys
  obtain ⟨-, ⟨hafter, -⟩, hbefore⟩ := hkeys
  have hbefore : input.key ∉ before.map PackingInput.key := fun hmem =>
    hbefore _ hmem _ mem_cons_self rfl
  have hsplit : allParts C profile (before ++ input :: after) =
      allParts C profile before ++ (input.parts C profile ++ allParts C profile after) := by
    rw [allParts, flatMap_append, flatMap_cons]
    rfl
  have hself : (input.parts C profile).filterMap (chunkPart input.key) =
      partsOf profile input.bytes := by
    rw [partsOf, PackingInput.parts, filterMap_map, ← filterMap_eq_map]
    exact filterMap_congr fun entry _ => if_pos (key_chunkId _ _)
  rw [hsplit, filterMap_append, filterMap_append, parts_of_notMem hbefore,
    parts_of_notMem hafter, nil_append, append_nil, hself]

/-- Sectors with one identifier are the same. -/
def DistinctIds (sectors : List PackedSector) : Prop :=
  ∀ a ∈ sectors, ∀ b ∈ sectors, a.descriptor.id = b.descriptor.id → a = b
  deriving Decidable

namespace Packed

section

variable (h : Packed C profile previous inputs result)

include h

lemma profile_eq : result.catalog.profile = profile := by
  obtain ⟨revision, -, hcatalog⟩ := h.catalog
  rw [(sealCatalog_eq_ok.mp hcatalog).1]

/-- The slots hold the chunks of the inputs, each of them once. -/
lemma perm_contents {desired : Table SourceChunkId InputChunk}
    (hdesired : inputDesired C profile inputs = desired) :
    (stepContents profile previous desired).flatten.reduceOption.Perm
      (allParts C profile inputs) := by
  have hitems : (stepContents profile previous desired).flatten.reduceOption =
      (allItems (stepLayout profile previous desired)).filterMap desired.get := by
    rw [stepContents, contentsOf, ← map_flatten, allItems, reduceOption, reduceOption,
      filterMap_map, filterMap_filterMap]
    rfl
  have hplaced : (allItems (stepLayout profile previous desired)).Perm
      ((allParts C profile inputs).map fun chunk => chunk.source.id) :=
    (allItems_nextLayout (PackingProfile.width_pos h.profile_ok)
      (nodup_priorLayout h.previous_ok)).trans (hdesired ▸ h.inputs_ok.keys_inputDesired)
  have hfound : ∀ chunk ∈ allParts C profile inputs,
      (desired.get ∘ fun chunk => chunk.source.id) chunk = some chunk :=
    fun chunk hchunk => hdesired ▸ h.inputs_ok.get_inputDesired.mpr ⟨hchunk, rfl⟩
  rw [hitems]
  refine (hplaced.filterMap _).trans ?_
  rw [filterMap_map, filterMap_congr hfound, filterMap_some]

/-- The parts of an object in the sectors are those that were packed. -/
lemma perm_sectorChunks (object : ObjectKey) :
    (result.sectors.map fun sector => sectorChunks profile.slotSize.val object
        sector.descriptor.slots sector.bytes).flatten.Perm
      ((allParts C profile inputs).filterMap (chunkPart object)) := by
  have hcontents := h.perm_contents rfl
  have hparts := hcontents.filterMap (chunkPart object)
  rw [reduceOption, filterMap_filterMap, filterMap_flatten] at hparts
  conv at hparts => lhs; rw [← zipIdx_map_fst 0 (stepContents ..), map_map]
  rw [map_eq_of_mapM h.sectors fun entry sector hseal => by
    obtain ⟨hbytes, hslots, -⟩ := sealSector_eq_ok.mp hseal
    rw [hbytes, hslots]]
  refine Perm.trans (.of_eq (congrArg flatten (map_congr_left fun entry hentry => ?_))) hparts
  refine sectorChunks_eq object fun chunk hchunk => ?_
  have hmem := mem_flatten_of_mem (fst_mem_of_mem_zipIdx hentry) hchunk
  obtain ⟨input, -, hpart⟩ := mem_flatMap.mp (hcontents.subset (reduceOption_mem_iff.mpr hmem))
  exact PackingInput.genuine h.profile_ok hpart

/-- A sector of the result passes the checks of the reader. -/
lemma unpackSector_eq (hids : DistinctIds result.sectors) {sector : PackedSector}
    (hsector : sector ∈ result.sectors) :
    unpackSector C result.catalog result.sectors object sector.descriptor =
      .ok (sectorChunks profile.slotSize.val object sector.descriptor.slots sector.bytes) := by
  have hzip : result.sectors.zip (result.sectors.map PackedSector.descriptor) =
      result.sectors.map fun sector => (sector, sector.descriptor) := by
    simpa using zip_map' (f := id) (g := PackedSector.descriptor) (l := result.sectors)
  have hvalid := h.valid
  simp only [PackingResult.validate, bind_eq_ok, exists_unit, forEach_eq_ok, h.sectors_eq, hzip,
    forall_mem_map, PackingResult.checkSector, reject_eq_ok, mapErr_eq_ok] at hvalid
  obtain ⟨hfields, commitment, hcommit, hsame, -⟩ := hvalid.2.2 sector hsector
  rw [unpackSector, ← h.profile_eq]
  split
  · next hnone =>
    refine congrArg Except.ok
      (filterMap_eq_nil_iff.mpr fun entry hentry => if_neg fun hof => ?_).symm
    rw [any_eq_true] at hnone
    exact hnone ⟨entry.1, fst_mem_of_mem_zipIdx hentry, decide_eq_true hof⟩
  · have hfind : (result.sectors.reverse.find? fun s => s.descriptor.id = sector.descriptor.id) =
        some sector := by
      refine (find?_eq_some_of_unique fun a ha b hb hida hidb => ?_).mpr ⟨by simpa, by simp⟩
      rw [mem_reverse] at ha hb
      exact hids a ha b hb ((of_decide_eq_true hida).trans (of_decide_eq_true hidb).symm)
    simp only [bind_eq_ok, exists_unit, reject_eq_ok, okOr_eq_ok, mapErr_eq_ok, pure_eq_ok]
    exact ⟨sector, hfind, hfields, commitment, hcommit, hsame, rfl⟩

/-- **An object is read as the bytes that its chunks were cut from.** -/
lemma unpackObject_eq (hids : DistinctIds result.sectors) {bytes : List UInt8}
    (hparts : (allParts C profile inputs).filterMap (chunkPart object) = partsOf profile bytes)
    (hascending : Ascending Prod.fst (partsOf profile bytes)) :
    unpackObject C result object = if bytes = [] then fail .missingObject else .ok bytes := by
  have hvalid : result.catalog.validate C = .ok () := by
    obtain ⟨_, hcatalog, -⟩ := bind_eq_ok.mp h.valid
    exact hcatalog
  have hread : result.catalog.sectors.mapM (unpackSector C result.catalog result.sectors object) =
      .ok (result.sectors.map fun sector => sectorChunks profile.slotSize.val object
        sector.descriptor.slots sector.bytes) := by
    rw [h.sectors_eq, mapM_eq_ok, forall₂_map_left_iff, forall₂_map_right_iff, forall₂_same]
    exact fun sector hsector => h.unpackSector_eq hids hsector
  have hsorted := hascending.sortByKey_eq (hparts ▸ h.perm_sectorChunks object)
  rw [sortByKey] at hsorted
  rw [unpackObject, h.valid, ok_bind, unpackObjectFromSectors, hvalid, ok_bind, hread, ok_bind,
    hsorted]
  have hbytes : (partsOf profile bytes).flatMap Prod.snd = bytes := by
    rw [partsOf, flatMap_map]
    have hwhole := flatten_chunks (PackingProfile.slotSize_pos h.profile_ok) bytes
    rwa [← zipIdx_map_fst 0 (chunks _ bytes), ← flatMap_def] at hwhole
  split
  · next hempty =>
    rw [hempty, partsOf, chunks_nil]
    rfl
  · next hne =>
    have hfull : partsOf profile bytes ≠ [] := by
      intro hnil
      rw [hnil] at hbytes
      exact hne hbytes.symm
    have hall : ∀ entry ∈ (partsOf profile bytes).zipIdx, entry.1.1.val = entry.2 % 2 ^ 32 := by
      rintro ⟨part, i⟩ hentry
      have hpart : (partsOf profile bytes)[i]? = some part := mem_zipIdx_iff_getElem?.mp hentry
      rw [partsOf, getElem?_map, getElem?_zipIdx, Option.map_map] at hpart
      obtain ⟨chunk, -, rfl⟩ := Option.map_eq_some_iff.mp hpart
      simp
    refine bind_eq_ok.mpr ⟨(), by simpa using hfull, bind_eq_ok.mpr ⟨(), by simpa using hall, ?_⟩⟩
    rw [hbytes]
    rfl

end

end Packed

/-- **Packing loses nothing and invents nothing.**  Over any catalog before, every object that was
packed is read back byte for byte, and no other object is found. -/
theorem unpackObject_packIncremental (C : Crypto) (profile : PackingProfile)
    (previous : Option PackedCatalog) (inputs : List PackingInput) (result : PackingResult)
    (h : packIncremental C profile previous inputs = .ok result)
    (hids : DistinctIds result.sectors) :
    (∀ input ∈ inputs, unpackObject C result input.key = .ok input.bytes) ∧
      ∀ object ∉ inputs.map PackingInput.key,
        unpackObject C result object = fail .missingObject := by
  have hpacked := packIncremental_eq_ok.mp h
  constructor
  · intro input hinput
    have hshape := hpacked.inputs_ok.shapes input hinput
    rw [hpacked.unpackObject_eq hids (hpacked.inputs_ok.partsOf_eq hinput) hshape.ascending_partsOf,
      if_neg hshape.bytes]
  · intro object hobject
    have hnone : partsOf profile [] = [] := by rw [partsOf, chunks_nil]; rfl
    rw [hpacked.unpackObject_eq hids (hnone ▸ parts_of_notMem hobject)
      (hnone ▸ .nil), if_pos rfl]

/-- An object with a chunk of zeros and a short one, and then another one packed over its catalog.
-/
theorem unpackObject_packIncremental_twice :
    ∃ result next, packIncremental .transparent ⟨1, 32, 16⟩ none
        [⟨⟨1⟩, 1, 1, replicate 16 0 ++ [1], none⟩] = .ok result ∧
      packIncremental .transparent ⟨1, 32, 16⟩ (some result.catalog)
        [⟨⟨1⟩, 1, 1, replicate 16 0 ++ [1], none⟩, ⟨⟨2⟩, 1, 1, [2, 3], none⟩] = .ok next ∧
      unpackObject .transparent next (⟨1⟩, 1, 1) = .ok (replicate 16 0 ++ [1]) ∧
      unpackObject .transparent next (⟨2⟩, 1, 1) = .ok [2, 3] := by
  have hruns : Succeeds (do
      let result ← packIncremental .transparent ⟨1, 32, 16⟩ none
        [⟨⟨1⟩, 1, 1, replicate 16 0 ++ [1], none⟩]
      let next ← packIncremental .transparent ⟨1, 32, 16⟩ (some result.catalog)
        [⟨⟨1⟩, 1, 1, replicate 16 0 ++ [1], none⟩, ⟨⟨2⟩, 1, 1, [2, 3], none⟩]
      reject (¬ DistinctIds next.sectors) PackingError.invalidInput) := by
    decide +kernel
  obtain ⟨_, hruns⟩ := hruns
  obtain ⟨result, hresult, hruns⟩ := bind_eq_ok.mp hruns
  obtain ⟨next, hnext, hids⟩ := bind_eq_ok.mp hruns
  rw [reject_eq_ok, not_not] at hids
  obtain ⟨hread, -⟩ := unpackObject_packIncremental _ _ _ _ _ hnext hids
  exact ⟨result, next, hresult, hnext, hread _ mem_cons_self,
    hread _ (mem_cons_of_mem _ (mem_singleton_self _))⟩

end MutualBackup
