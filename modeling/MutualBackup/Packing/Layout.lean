import MutualBackup.Core.PackingValidity
import MutualBackup.Packing.Allocation
import MutualBackup.Packing.Inputs

/-!
# The layout of a catalog

The layout of a catalog is the chunks in its slots.  A step of either packer takes the layout of the
catalog before and the chunks that are wanted to the layout of the next one (`nextLayout`): chunks
that are wanted stay where they are, the others are placed one after another, and empty sectors at
the end are dropped.
-/

namespace MutualBackup

open Framework List

/-! ## Catalogs -/

def PackedSectorDescriptor.layout (sector : PackedSectorDescriptor) : List (Option SourceChunkId) :=
  sector.slots.map fun slot => slot.source.map PackedSourceChunk.id

def PackedCatalog.layout (c : PackedCatalog) : List (List (Option SourceChunkId)) :=
  c.sectors.map PackedSectorDescriptor.layout

/-- The layout of the catalog before, if there is one. -/
def priorLayout (previous : Option PackedCatalog) : List (List (Option SourceChunkId)) :=
  (previous.map PackedCatalog.layout).getD []

/-- The slots of a sector. -/
def PackingProfile.width (profile : PackingProfile) : ℕ :=
  profile.sectorSize.val / profile.slotSize.val

variable {C : Crypto} {profile : PackingProfile}

lemma PackingProfile.slotsPerSector_eq_ok {w : ℕ} :
    profile.slotsPerSector = .ok w ↔ profile.validate = .ok () ∧ profile.width = w := by
  rw [PackingProfile.slotsPerSector, bind_eq_ok, exists_unit, pure_eq_ok]
  rfl

lemma PackingProfile.width_pos (h : profile.validate = .ok ()) : 0 < profile.width := by
  simp only [PackingProfile.validate, reject_eq_ok, not_or, not_lt, not_not] at h
  obtain ⟨-, -, -, -, hslot, hle, -⟩ := h
  have hpos : 0 < profile.slotSize.val := lt_of_lt_of_le (by decide) hslot
  exact Nat.div_pos hle hpos

namespace PackedCatalog

variable {c : PackedCatalog}

lemma allItems_layout : allItems c.layout = c.sources.map PackedSourceChunk.id := by
  rw [layout, sources]
  induction c.sectors with
  | nil => rfl
  | cons sector sectors ih =>
    have hsector : sector.layout.reduceOption =
        (sector.slots.filterMap PackedSlot.source).map PackedSourceChunk.id := by
      rw [PackedSectorDescriptor.layout, List.reduceOption, filterMap_map, map_filterMap]
      rfl
    rw [map_cons, allItems_cons, ih, flatMap_cons, map_append, hsector]

lemma sized_layout (h : c.validate C = .ok ()) : OfWidth c.profile.width c.layout := by
  obtain ⟨-, -, -, hlaid, -⟩ := validate_eq_ok.mp h
  intro s hs
  obtain ⟨sector, hsector, rfl⟩ := mem_map.mp hs
  obtain ⟨i, hi⟩ := mem_iff_getElem?.mp hsector
  obtain ⟨-, hslots, -⟩ := hlaid.sectors (sector, i) (mem_zipIdx_iff_getElem?.mpr hi)
  rw [PackedSectorDescriptor.layout, length_map, hslots]
  rfl

lemma nodup_layout (h : c.validate C = .ok ()) : (allItems c.layout).Nodup := by
  obtain ⟨-, -, -, hlaid, -⟩ := validate_eq_ok.mp h
  rw [allItems_layout]
  exact hlaid.nodup

end PackedCatalog

variable {previous : Option PackedCatalog}

lemma checkPrevious_eq_ok :
    checkPrevious C profile previous = .ok () ↔
      ∀ p ∈ previous, p.validate C = .ok () ∧ p.profile = profile := by
  cases previous with
  | none => simp [checkPrevious]
  | some p => simp [checkPrevious]

lemma sized_priorLayout (h : checkPrevious C profile previous = .ok ()) :
    OfWidth profile.width (priorLayout previous) := by
  cases previous with
  | none => simp [priorLayout, OfWidth]
  | some p =>
    obtain ⟨hvalid, hprofile⟩ := checkPrevious_eq_ok.mp h p rfl
    rw [← hprofile]
    exact PackedCatalog.sized_layout hvalid

lemma nodup_priorLayout (h : checkPrevious C profile previous = .ok ()) :
    (allItems (priorLayout previous)).Nodup := by
  cases previous with
  | none => exact nodup_nil
  | some p => exact PackedCatalog.nodup_layout (checkPrevious_eq_ok.mp h p rfl).1

/-! ## The next layout -/

variable (w : ℕ) (prior : List (List (Option SourceChunkId)))
  (desired : Table SourceChunkId InputChunk)

/-- The chunk is wanted. -/
def Wanted (id : SourceChunkId) : Prop :=
  (desired.get id).isSome
  deriving Decidable

/-- The chunks that stay, in their slots. -/
def keptLayout : List (List (Option SourceChunkId)) :=
  retainItems (Wanted desired) prior

/-- The sectors after all chunks are placed. -/
def placedLayout : List (List (Option SourceChunkId)) :=
  placeItems SourceChunkId.owner w (keptLayout prior desired)
    (assignOrder (pendingChunks desired (keptLayout prior desired).flatten))

/-- **The layout after a step.** -/
def nextLayout : List (List (Option SourceChunkId)) :=
  trimSectors (placedLayout w prior desired)

variable {w prior desired}

lemma sized_keptLayout (h : OfWidth w prior) : OfWidth w (keptLayout prior desired) := h.retainItems

lemma sized_placedLayout (h : OfWidth w prior) : OfWidth w (placedLayout w prior desired) :=
  (sized_keptLayout h).placeItems _

variable {id : SourceChunkId}

/-- A chunk that is there before and is still wanted keeps its slot. -/
lemma slotItem_nextLayout {i j : ℕ} (h : slotItem prior i j = some id) (hwanted : Wanted desired id)
    : slotItem (nextLayout w prior desired) i j = some id := by
  have hkept : slotItem (keptLayout prior desired) i j = some id := by
    rw [keptLayout, slotItem_retainItems, h]
    simp [Option.filter_some, hwanted]
  rw [nextLayout, slotItem_trimSectors]
  exact slotItem_placeItems hkept _

lemma mixing_nextLayout (h : Mixing SourceChunkId.owner prior) (hsized : OfWidth w prior)
    (hw : 2 ≤ w) : Mixing SourceChunkId.owner (nextLayout w prior desired) :=
  (h.retainItems.placeItems (sized_keptLayout hsized) hw _).trimSectors

lemma mem_allItems {sectors : List (List (Option SourceChunkId))} :
    id ∈ allItems sectors ↔ some id ∈ sectors.flatten := by
  rw [allItems, reduceOption_mem_iff]

/-- **Exactly the wanted chunks are placed.** -/
lemma allItems_nextLayout (hw : 0 < w) (hnodup : (allItems prior).Nodup) :
    (allItems (nextLayout w prior desired)).Perm (desired.rows.map Prod.fst) := by
  have hplaced : (allItems (nextLayout w prior desired)).Perm
      (pendingChunks desired (keptLayout prior desired).flatten ++
        allItems (keptLayout prior desired)) := by
    rw [nextLayout, allItems_trimSectors]
    exact (allItems_placeItems hw _).trans ((assignOrder_perm _).append_right _)
  refine hplaced.trans ?_
  have hkeys : (desired.rows.map Prod.fst).Nodup := desired.ascending.nodup_map
  have hkept : (allItems (keptLayout prior desired)).Nodup := by
    rw [keptLayout, allItems_retainItems]
    exact hnodup.filter _
  have hmem : ∀ id, id ∈ desired.rows.map Prod.fst ↔ Wanted desired id := fun id => Table.mem_keys
  have hpending : ∀ id, id ∈ pendingChunks desired (keptLayout prior desired).flatten ↔
      Wanted desired id ∧ id ∉ allItems (keptLayout prior desired) := by
    intro id
    rw [pendingChunks, mem_filter, hmem, mem_allItems]
    simp
  refine (perm_ext_iff_of_nodup ?_ hkeys).mpr fun id => ?_
  · refine Nodup.append (hkeys.filter _) hkept fun id hid hid' => ?_
    exact ((hpending id).mp hid).2 hid'
  · rw [mem_append, hpending, hmem]
    constructor
    · rintro (⟨hwanted, -⟩ | hid)
      · exact hwanted
      · rw [keptLayout, allItems_retainItems, mem_filter] at hid
        exact of_decide_eq_true hid.2
    · intro hwanted
      by_cases hid : id ∈ allItems (keptLayout prior desired)
      · exact .inr hid
      · exact .inl ⟨hwanted, hid⟩

lemma wanted_of_mem_nextLayout (hw : 0 < w) (hnodup : (allItems prior).Nodup)
    (hid : id ∈ allItems (nextLayout w prior desired)) : Wanted desired id :=
  Table.mem_keys.mp ((allItems_nextLayout hw hnodup).subset hid)

/-- The sectors are at most as many as before, or as the chunks need. -/
lemma length_nextLayout_le (hsized : OfWidth w prior) (hw : 2 ≤ w)
    (hnodup : (allItems prior).Nodup) : (nextLayout w prior desired).length ≤
      max prior.length (desired.rows.length ⌈/⌉ (w - 1)) := by
  have hitems : (allItems (placedLayout w prior desired)).length = desired.rows.length := by
    have hperm : (allItems (nextLayout w prior desired)).Perm (desired.rows.map Prod.fst) :=
      allItems_nextLayout (by omega) hnodup
    rw [nextLayout, allItems_trimSectors] at hperm
    rw [hperm.length_eq, length_map]
  have hplaced : (placedLayout w prior desired).length ≤
      max (keptLayout prior desired).length
        ((allItems (placedLayout w prior desired)).length ⌈/⌉ (w - 1)) :=
    length_placeItems_le (sized_keptLayout hsized) hw _
  have hkept : (keptLayout prior desired).length = prior.length := length_map _
  rw [hitems, hkept] at hplaced
  exact (trimSectors_isPrefix.length_le).trans hplaced

/-! ## The vectors of the source -/

lemma retainedSlots_eq (sectors : List PackedSectorDescriptor) :
    retainedSlots desired sectors =
      (keptLayout (sectors.map PackedSectorDescriptor.layout) desired).flatten := by
  have hwanted : (fun id => (desired.get id).isSome) = fun id => decide (Wanted desired id) :=
    funext fun id => Bool.decide_eq_true.symm
  rw [retainedSlots, keptLayout, retainItems, map_flatMap, flatMap_def, map_map, hwanted]
  congr 1
  refine map_congr_left fun sector _ => ?_
  rw [Function.comp_apply, PackedSectorDescriptor.layout, map_map]
  rfl

lemma wholeSectors_eq {sectors : List (List (Option SourceChunkId))} (h : OfWidth w sectors)
    (hw : 0 < w) : wholeSectors w (usedSlots sectors) = trimSectors sectors := by
  obtain ⟨hcount, hpadded⟩ := h.pad_usedSlots hw
  rw [wholeSectors]
  simp only [hcount, hpadded]
  exact h.trimSectors.slices

/-- The allocation of a step, in terms of layouts. -/
lemma allocate_kept (h : OfWidth w prior) (hw : 0 < w) :
    allocate w (keptLayout prior desired).flatten
      (pendingChunks desired (keptLayout prior desired).flatten) =
      .ok (usedSlots (nextLayout w prior desired)) := by
  rw [allocate_eq (sized_keptLayout h) hw, nextLayout, usedSlots_trimSectors]
  rfl

lemma wholeSectors_nextLayout (h : OfWidth w prior) (hw : 0 < w) :
    wholeSectors w (usedSlots (nextLayout w prior desired)) = nextLayout w prior desired := by
  rw [nextLayout, usedSlots_trimSectors, wholeSectors_eq (sized_placedLayout h) hw]

/-! ## Contents -/

/-- The chunks in the slots. -/
def contentsOf (desired : Table SourceChunkId InputChunk)
    (layout : List (List (Option SourceChunkId))) : List (List (Option InputChunk)) :=
  layout.map fun slots => slots.map fun slot => slot.bind desired.get

/-- Chunks are found under their identifiers. -/
def Keyed (desired : Table SourceChunkId InputChunk) : Prop :=
  ∀ id chunk, desired.get id = some chunk → chunk.source.id = id

variable {layout : List (List (Option SourceChunkId))}

lemma slotContents_eq (h : ∀ id ∈ allItems layout, Wanted desired id) :
    (layout.mapM fun slots => slots.mapM (slotContent desired)) =
      .ok (contentsOf desired layout) := by
  rw [mapM_eq_ok, contentsOf, forall₂_map_right_iff, forall₂_same]
  intro slots hslots
  rw [mapM_eq_ok, forall₂_map_right_iff, forall₂_same]
  intro slot hslot
  cases slot with
  | none => rfl
  | some id =>
    have hwanted := h id (mem_allItems.mpr (mem_flatten_of_mem hslots hslot))
    obtain ⟨chunk, hchunk⟩ := Option.isSome_iff_exists.mp hwanted
    rw [Option.bind_some, hchunk]
    exact bind_eq_ok.mpr ⟨chunk, expect_eq_ok.mpr hchunk, rfl⟩

lemma source_packedSlot (content : Option InputChunk) :
    (packedSlot content).source = content.map InputChunk.source := by
  cases content with
  | none => rfl
  | some chunk =>
    rw [packedSlot]
    split <;> rfl

/-- The contents are laid out as they should be. -/
lemma layout_contentsOf (hkeyed : Keyed desired) (h : ∀ id ∈ allItems layout, Wanted desired id) :
    (contentsOf desired layout).map (fun contents => contents.map fun content =>
      (packedSlot content).source.map PackedSourceChunk.id) = layout := by
  rw [contentsOf, map_map]
  refine (map_congr_left fun slots hslots => ?_).trans (map_id layout)
  rw [Function.comp_apply, map_map]
  refine (map_congr_left fun slot hslot => ?_).trans (map_id slots)
  cases slot with
  | none => rfl
  | some id =>
    have hwanted := h id (mem_allItems.mpr (mem_flatten_of_mem hslots hslot))
    obtain ⟨chunk, hchunk⟩ := Option.isSome_iff_exists.mp hwanted
    rw [Function.comp_apply, Option.bind_some, hchunk, source_packedSlot]
    exact congrArg some (hkeyed id chunk hchunk)

end MutualBackup
