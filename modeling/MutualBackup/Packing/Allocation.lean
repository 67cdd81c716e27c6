import MutualBackup.Framework.RoundRobin
import MutualBackup.Packing.Allocator

/-!
# The allocator places as it should

The allocator keeps its indexes up to date with every change, and so the sector it finds in them is
the one that a scan of all sectors would find: `assign` is `placeItem` (`Represents.assign`), and
none of its expectations fails.  `Classified` is the invariant of the indexes, in terms of what
every sector is classified as; the rest of the state is a function of the slots.
-/

namespace MutualBackup

open Framework List

/-! ## Least elements -/

section First

variable {α : Type} [LinearOrder α] {s : Finset α} {a : α}

lemma firstOf_eq_some : firstOf s = some a ↔ a ∈ s ∧ ∀ b ∈ s, a ≤ b := by
  rw [firstOf]
  split
  case isTrue h =>
    rw [Option.some_inj]
    constructor
    · rintro rfl
      exact ⟨s.min'_mem h, fun b hb => s.min'_le b hb⟩
    · rintro ⟨ha, hle⟩
      exact le_antisymm (s.min'_le a ha) (hle _ (s.min'_mem h))
  case isFalse h =>
    rw [Finset.not_nonempty_iff_eq_empty] at h
    simp [h]

lemma firstOf_eq_none : firstOf s = none ↔ s = ∅ := by
  rw [firstOf]
  split
  case isTrue h => simp [h.ne_empty]
  case isFalse h => simp [Finset.not_nonempty_iff_eq_empty.mp h]

end First

variable {sectors : List (List (Option SourceChunkId))}

/-- An index that holds the sectors with a property names the first of them. -/
lemma firstOf_eq_firstSector {p : List (Option SourceChunkId) → Prop} [DecidablePred p]
    {index : Finset ℕ} (h : ∀ i, i ∈ index ↔ ∃ s, sectors[i]? = some s ∧ p s) :
    firstOf index = firstSector p sectors := by
  cases hfirst : firstSector p sectors with
  | none =>
    rw [firstOf_eq_none, Finset.eq_empty_iff_forall_notMem]
    intro i hi
    obtain ⟨s, hs, hp⟩ := (h i).mp hi
    exact firstSector_eq_none.mp hfirst s (mem_of_getElem? hs) hp
  | some i =>
    obtain ⟨hi, hbefore⟩ := firstSector_eq_some.mp hfirst
    rw [firstOf_eq_some, h]
    refine ⟨hi, fun j hj => ?_⟩
    obtain ⟨s, hs, hp⟩ := (h j).mp hj
    by_contra hlt
    exact hbefore j (not_le.mp hlt) s hs hp

/-! ## Indexes by owner -/

namespace StableSlotAllocator

/-- The sectors that a map has for an owner. -/
def sectorsOf (map : Table NodeId (Finset ℕ)) (owner : NodeId) : Finset ℕ := (map.get owner).getD ∅

/-- No owner is kept without sectors. -/
def NoneEmpty (map : Table NodeId (Finset ℕ)) : Prop :=
  ∀ owner sectors, map.get owner = some sectors → sectors ≠ ∅

variable {map : Table NodeId (Finset ℕ)} {owner other : NodeId} {i j : ℕ}

lemma mem_sectorsOf_insertIndex : j ∈ sectorsOf (insertIndex map owner i) other ↔
    (other = owner ∧ j = i) ∨ j ∈ sectorsOf map other := by
  rw [sectorsOf, insertIndex]
  by_cases hsame : owner = other
  · subst hsame
    rw [Table.get_put_self, Option.getD_some, Finset.mem_insert, sectorsOf]
    simp
  · rw [Table.get_put_of_ne hsame, sectorsOf]
    simp [Ne.symm hsame]

lemma NoneEmpty.insertIndex (h : NoneEmpty map) : NoneEmpty (insertIndex map owner i) := by
  intro o sectors hget
  rw [StableSlotAllocator.insertIndex] at hget
  by_cases hsame : owner = o
  · subst hsame
    rw [Table.get_put_self] at hget
    obtain rfl := Option.some.inj hget
    exact Finset.insert_ne_empty _ _
  · rw [Table.get_put_of_ne hsame] at hget
    exact h o sectors hget

lemma get_removeIndex_of_ne (hne : owner ≠ other) :
    (removeIndex map owner i).get other = map.get other := by
  rw [removeIndex]
  cases map.get owner with
  | none => rfl
  | some sectors =>
    dsimp only
    split
    case isTrue => rw [Table.get_erase, if_neg hne]
    case isFalse => exact Table.get_put_of_ne hne

/-- An owner is dropped with its last sector. -/
lemma get_removeIndex_self : (removeIndex map owner i).get owner =
    ((map.get owner).map fun sectors => sectors.erase i).filter fun sectors => sectors ≠ ∅ := by
  rw [removeIndex]
  cases hget : map.get owner with
  | none => exact hget
  | some sectors =>
    dsimp only [Option.map_some, Option.filter]
    split
    case isTrue hempty => simp [Table.get_erase, hempty]
    case isFalse hne => simp [hne]

lemma mem_sectorsOf_removeIndex : j ∈ sectorsOf (removeIndex map owner i) other ↔
    ¬ (other = owner ∧ j = i) ∧ j ∈ sectorsOf map other := by
  by_cases hsame : owner = other
  · subst hsame
    rw [sectorsOf, get_removeIndex_self, sectorsOf]
    cases map.get owner with
    | none => simp
    | some sectors =>
      rw [Option.map_some, Option.filter_some]
      split
      case isTrue => simp
      case isFalse hempty =>
        have hnot : j ∉ sectors.erase i := by simp_all
        simpa using hnot
  · rw [sectorsOf, get_removeIndex_of_ne hsame, sectorsOf]
    simp [Ne.symm hsame]

lemma NoneEmpty.removeIndex (h : NoneEmpty map) : NoneEmpty (removeIndex map owner i) := by
  intro o kept hkept
  by_cases hsame : owner = o
  · subst hsame
    rw [get_removeIndex_self] at hkept
    exact of_decide_eq_true (Option.filter_eq_some_iff.mp hkept).2
  · rw [get_removeIndex_of_ne hsame] at hkept
    exact h o kept hkept

/-! ## Classification -/

/-- The indexes hold the sectors of each classification, where `kind` is what the sectors that have
been classified are classified as. -/
structure Classified (kind : ℕ → Option Classification) (a : StableSlotAllocator) : Prop where
  mixed : ∀ i, i ∈ a.mixed ↔ kind i = some .mixed
  empty : ∀ i, i ∈ a.empty ↔ kind i = some .empty
  single : ∀ owner i, i ∈ sectorsOf a.single owner ↔
    ∃ fillable, kind i = some (.single owner fillable)
  fillable : ∀ owner i, i ∈ sectorsOf a.singleFillable owner ↔ kind i = some (.single owner true)
  single_ne : NoneEmpty a.single
  fillable_ne : NoneEmpty a.singleFillable

variable {kind : ℕ → Option Classification} {a : StableSlotAllocator}

section Change

variable (c : Classification)

lemma mem_mixed_addAs : j ∈ (a.addAs i c).mixed ↔ (j = i ∧ c = .mixed) ∨ j ∈ a.mixed := by
  cases c <;> simp [addAs]

lemma mem_empty_addAs : j ∈ (a.addAs i c).empty ↔ (j = i ∧ c = .empty) ∨ j ∈ a.empty := by
  cases c <;> simp [addAs]

lemma mem_single_addAs : j ∈ sectorsOf (a.addAs i c).single owner ↔
    (j = i ∧ ∃ fillable, c = .single owner fillable) ∨ j ∈ sectorsOf a.single owner := by
  cases c with
  | single o f =>
    simp only [addAs, mem_sectorsOf_insertIndex, Classification.single.injEq, exists_and_left,
      exists_eq', and_true]
    rw [and_comm, eq_comm (a := owner)]
  | _ => simp [addAs]

lemma mem_fillable_addAs : j ∈ sectorsOf (a.addAs i c).singleFillable owner ↔
    (j = i ∧ c = .single owner true) ∨ j ∈ sectorsOf a.singleFillable owner := by
  cases c with
  | single o f =>
    cases f with
    | false => simp [addAs]
    | true =>
      simp only [addAs, if_true, mem_sectorsOf_insertIndex, Classification.single.injEq, and_true]
      rw [and_comm, eq_comm (a := owner)]
  | _ => simp [addAs]

lemma noneEmpty_addAs (hsingle : NoneEmpty a.single) (hfillable : NoneEmpty a.singleFillable) :
    NoneEmpty (a.addAs i c).single ∧ NoneEmpty (a.addAs i c).singleFillable := by
  cases c with
  | single o f =>
    cases f with
    | false => exact ⟨hsingle.insertIndex, hfillable⟩
    | true => exact ⟨hsingle.insertIndex, hfillable.insertIndex⟩
  | _ => exact ⟨hsingle, hfillable⟩

lemma mem_mixed_removeAs : j ∈ (a.removeAs i c).mixed ↔ ¬ (j = i ∧ c = .mixed) ∧ j ∈ a.mixed := by
  cases c <;> simp [removeAs]

lemma mem_empty_removeAs : j ∈ (a.removeAs i c).empty ↔ ¬ (j = i ∧ c = .empty) ∧ j ∈ a.empty := by
  cases c <;> simp [removeAs]

lemma mem_single_removeAs : j ∈ sectorsOf (a.removeAs i c).single owner ↔
    ¬ (j = i ∧ ∃ fillable, c = .single owner fillable) ∧ j ∈ sectorsOf a.single owner := by
  cases c with
  | single o f =>
    simp only [removeAs, mem_sectorsOf_removeIndex, Classification.single.injEq, exists_and_left,
      exists_eq', and_true]
    rw [and_comm (a := owner = o), eq_comm (a := owner)]
  | _ => simp [removeAs]

lemma mem_fillable_removeAs : j ∈ sectorsOf (a.removeAs i c).singleFillable owner ↔
    ¬ (j = i ∧ c = .single owner true) ∧ j ∈ sectorsOf a.singleFillable owner := by
  cases c with
  | single o f =>
    cases f with
    | false => simp [removeAs]
    | true =>
      simp only [removeAs, if_true, mem_sectorsOf_removeIndex, Classification.single.injEq,
        and_true]
      rw [and_comm (a := owner = o), eq_comm (a := owner)]
  | _ => simp [removeAs]

lemma noneEmpty_removeAs (hsingle : NoneEmpty a.single) (hfillable : NoneEmpty a.singleFillable) :
    NoneEmpty (a.removeAs i c).single ∧ NoneEmpty (a.removeAs i c).singleFillable := by
  cases c with
  | single o f =>
    cases f with
    | false => exact ⟨hsingle.removeIndex, hfillable⟩
    | true => exact ⟨hsingle.removeIndex, hfillable.removeIndex⟩
  | _ => exact ⟨hsingle, hfillable⟩

end Change

/-- A sector that was in no index is added to those of its classification. -/
lemma Classified.addAs (h : Classified kind a) (hnew : kind i = none) (c : Classification) :
    Classified (Function.update kind i (some c)) (a.addAs i c) := by
  have hkind : ∀ j d, Function.update kind i (some c) j = some d ↔
      (j = i ∧ c = d) ∨ kind j = some d := by
    intro j d
    by_cases hj : j = i
    · subst hj
      simp [hnew]
    · simp [hj]
  obtain ⟨hne, hne'⟩ := noneEmpty_addAs c h.single_ne h.fillable_ne (i := i)
  refine ⟨?_, ?_, ?_, ?_, hne, hne'⟩
  · intro j
    rw [mem_mixed_addAs, h.mixed, hkind]
  · intro j
    rw [mem_empty_addAs, h.empty, hkind]
  · intro o j
    simp only [mem_single_addAs, h.single, hkind, exists_or, exists_and_left]
  · intro o j
    rw [mem_fillable_addAs, h.fillable, hkind]

/-- A sector is removed from the indexes that it is in. -/
lemma Classified.removeAs (h : Classified kind a) {c : Classification} (hold : kind i = some c) :
    Classified (Function.update kind i none) (a.removeAs i c) := by
  have hkind : ∀ j d, Function.update kind i none j = some d ↔
      ¬ (j = i ∧ c = d) ∧ kind j = some d := by
    intro j d
    by_cases hj : j = i
    · subst hj
      simp only [Function.update_self, hold, Option.some.injEq, true_and, reduceCtorEq, false_iff]
      tauto
    · simp [hj]
  obtain ⟨hne, hne'⟩ := noneEmpty_removeAs c h.single_ne h.fillable_ne (i := i)
  refine ⟨?_, ?_, ?_, ?_, hne, hne'⟩
  · intro j
    rw [mem_mixed_removeAs, h.mixed, hkind]
  · intro j
    rw [mem_empty_removeAs, h.empty, hkind]
  · intro o j
    simp only [mem_single_removeAs, h.single, hkind]
    constructor
    · rintro ⟨hnot, f, hf⟩
      exact ⟨f, fun hsame => hnot ⟨hsame.1, f, hsame.2⟩, hf⟩
    · rintro ⟨f, hnot, hf⟩
      refine ⟨?_, f, hf⟩
      rintro ⟨rfl, f', rfl⟩
      -- the sector has one classification only
      exact hnot ⟨rfl, Option.some.inj (hold.symm.trans hf)⟩
  · intro o j
    rw [mem_fillable_removeAs, h.fillable, hkind]

/-! ## States -/

variable {s : List (Option SourceChunkId)} {start : ℕ}

lemma mem_free_stateOf {n : ℕ} :
    n ∈ (stateOf start s).free ↔ ∃ slot, s[slot]? = some none ∧ n = start + slot := by
  simp only [stateOf, mem_toFinset, mem_map, mem_filter,
    mem_zipIdx_iff_getElem?, Option.isNone_iff_eq_none, Prod.exists]
  constructor
  · rintro ⟨_, slot, ⟨hget, rfl⟩, rfl⟩
    exact ⟨slot, hget, rfl⟩
  · rintro ⟨slot, hget, rfl⟩
    exact ⟨none, slot, ⟨hget, rfl⟩, rfl⟩

lemma card_free_stateOf : (stateOf start s).free.card = freeSlots s := by
  have hnodup : ((s.zipIdx.filter fun entry => entry.1.isNone).map fun entry =>
      start + entry.2).Nodup := by
    have hindexes : (s.zipIdx.map Prod.snd).Nodup := by
      rw [zipIdx_map_snd]
      exact nodup_range'
    have hfiltered := (filter_sublist (l := s.zipIdx)
      (p := fun entry => entry.1.isNone)).map Prod.snd |>.nodup hindexes
    have hshifted := hfiltered.map (f := fun slot => start + slot) fun x y h => by
      simpa using h
    rwa [map_map] at hshifted
  have hlength : (s.zipIdx.filter fun entry => entry.1.isNone).length = freeSlots s := by
    have hmapped : (s.zipIdx.filter fun entry => entry.1.isNone).map Prod.fst =
        s.filter Option.isNone := by
      conv_rhs => rw [← zipIdx_map_fst 0 s, filter_map]
      rfl
    rw [← length_map Prod.fst, hmapped, freeSlots, countP_eq_length_filter]
  rw [stateOf, toFinset_card_of_nodup hnodup, length_map, hlength]

/-- What a sector is classified as. -/
def kindOf (s : List (Option SourceChunkId)) : Classification :=
  (stateOf 0 s).classification.toOption.getD .full

lemma owners_stateOf : (stateOf start s).owners = sectorOwners SourceChunkId.owner s := rfl

lemma free_stateOf_eq_empty : (stateOf start s).free = ∅ ↔ freeSlots s = 0 := by
  rw [← Finset.card_eq_zero, card_free_stateOf]

/-- The owner that a single-owner sector is expected to have is there. -/
lemma classification_stateOf : (stateOf start s).classification = .ok (kindOf s) := by
  have hcases : ∀ start, (stateOf start s).classification =
      if freeSlots s = 0 then .ok .full
      else if (sectorOwners SourceChunkId.owner s).card = 0 then .ok .empty
      else if (sectorOwners SourceChunkId.owner s).card = 1 then
        (expect (firstOf (sectorOwners SourceChunkId.owner s))).bind fun owner =>
          .ok (.single owner (decide (1 < freeSlots s)))
      else .ok .mixed := by
    intro start
    simp only [PackingSectorState.classification, free_stateOf_eq_empty, owners_stateOf,
      card_free_stateOf]
    rfl
  have hsucceeds : ∃ c, (stateOf 0 s).classification = .ok c := by
    rw [hcases]
    split
    case isTrue => exact ⟨_, rfl⟩
    case isFalse =>
      split
      case isTrue => exact ⟨_, rfl⟩
      case isFalse =>
        split
        case isFalse => exact ⟨_, rfl⟩
        case isTrue hone =>
          obtain ⟨owner, howner⟩ := Finset.card_eq_one.mp hone
          have hfirst : firstOf (sectorOwners SourceChunkId.owner s) = some owner := by
            rw [firstOf_eq_some, howner]
            simp
          rw [hfirst]
          exact ⟨_, rfl⟩
  obtain ⟨c, hc⟩ := hsucceeds
  rw [kindOf, hc, hcases start, ← hcases 0, hc]
  rfl

/-! The classification is what the placing rules look at. -/

lemma kindOf_cases : (freeSlots s = 0 ∧ kindOf s = .full) ∨
    (IsVacant SourceChunkId.owner s ∧ kindOf s = .empty) ∨
    (∃ owner, IsSingle SourceChunkId.owner owner s ∧
      kindOf s = .single owner (decide (1 < freeSlots s))) ∨
    (IsMixed SourceChunkId.owner s ∧ kindOf s = .mixed) := by
  have hok : (stateOf 0 s).classification = .ok (kindOf s) := classification_stateOf
  simp only [PackingSectorState.classification, free_stateOf_eq_empty, owners_stateOf,
    card_free_stateOf] at hok
  split at hok
  case isTrue hfull => exact .inl ⟨hfull, (Except.ok.inj hok).symm⟩
  case isFalse hfree =>
    have hpos : 0 < freeSlots s := Nat.pos_of_ne_zero hfree
    split at hok
    case isTrue hzero =>
      exact .inr (.inl ⟨⟨hpos, Finset.card_eq_zero.mp hzero⟩, (Except.ok.inj hok).symm⟩)
    case isFalse hsome =>
      split at hok
      case isTrue hone =>
        obtain ⟨owner, hfirst, hkind⟩ := bind_eq_ok.mp hok
        obtain ⟨hmem, -⟩ := firstOf_eq_some.mp (expect_eq_ok.mp hfirst)
        obtain ⟨owner', howner⟩ := Finset.card_eq_one.mp hone
        rw [howner, Finset.mem_singleton] at hmem
        subst hmem
        exact .inr (.inr (.inl ⟨owner, ⟨hpos, howner⟩, (pure_eq_ok.mp hkind).symm⟩))
      case isFalse hmany =>
        exact .inr (.inr (.inr ⟨⟨hpos, by omega⟩, (Except.ok.inj hok).symm⟩))

lemma kindOf_eq_mixed : kindOf s = .mixed ↔ IsMixed SourceChunkId.owner s := by
  rcases kindOf_cases (s := s) with ⟨hs, hk⟩ | ⟨hs, hk⟩ | ⟨o, hs, hk⟩ | ⟨hs, hk⟩
  · simp [hk, IsMixed, hs]
  · simp [hk, IsMixed, hs.2]
  · simp [hk, IsMixed, hs.2]
  · simp [hk, hs]

lemma kindOf_eq_empty : kindOf s = .empty ↔ IsVacant SourceChunkId.owner s := by
  rcases kindOf_cases (s := s) with ⟨hs, hk⟩ | ⟨hs, hk⟩ | ⟨o, hs, hk⟩ | ⟨hs, hk⟩
  · simp [hk, IsVacant, hs]
  · simp [hk, hs]
  · simp [hk, IsVacant, hs.2]
  · have hne : sectorOwners SourceChunkId.owner s ≠ ∅ :=
      Finset.card_pos.mp (Nat.zero_lt_of_lt hs.2) |>.ne_empty
    simp [hk, IsVacant, hne]

/-- A sector with more than one owner is nobody's. -/
lemma IsMixed.not_singleton (h : IsMixed SourceChunkId.owner s) (owner : NodeId) :
    sectorOwners SourceChunkId.owner s ≠ {owner} := by
  intro howner
  have hcard := h.2
  rw [howner, Finset.card_singleton] at hcard
  exact absurd hcard (lt_irrefl 1)

lemma kindOf_eq_single : (∃ fillable, kindOf s = .single owner fillable) ↔
    IsSingle SourceChunkId.owner owner s := by
  rcases kindOf_cases (s := s) with ⟨hs, hk⟩ | ⟨hs, hk⟩ | ⟨o, hs, hk⟩ | ⟨hs, hk⟩
  · simp [hk, IsSingle, hs]
  · simp [hk, IsSingle, hs.2, (Finset.singleton_ne_empty owner).symm]
  · simp [hk, IsSingle, hs.1, hs.2]
  · simp [hk, IsSingle, IsMixed.not_singleton hs owner]

lemma kindOf_eq_fillable : kindOf s = .single owner true ↔
    IsFillable SourceChunkId.owner owner s := by
  rcases kindOf_cases (s := s) with ⟨hs, hk⟩ | ⟨hs, hk⟩ | ⟨o, hs, hk⟩ | ⟨hs, hk⟩
  · simp [hk, IsFillable, hs]
  · simp [hk, IsFillable, hs.2, (Finset.singleton_ne_empty owner).symm]
  · simp [hk, IsFillable, hs.2, and_comm]
  · simp [hk, IsFillable, IsMixed.not_singleton hs owner]

lemma stateOf_fillSlot {id : SourceChunkId} {slot : ℕ} (hfree : s[slot]? = some none)
    (hfirst : ∀ k < slot, s[k]? ≠ some none) :
    stateOf start (fillSlot id s) = ⟨insert id.owner (stateOf start s).owners,
      (stateOf start s).free.erase (start + slot)⟩ := by
  have hpos : 0 < freeSlots s := countP_pos_iff.mpr ⟨none, mem_of_getElem? hfree, rfl⟩
  have howners : (stateOf start (fillSlot id s)).owners =
      insert id.owner (stateOf start s).owners := sectorOwners_fillSlot hpos
  have hslots : (stateOf start (fillSlot id s)).free =
      (stateOf start s).free.erase (start + slot) := by
    obtain ⟨hlt, -⟩ := List.getElem?_eq_some_iff.mp hfree
    ext n
    rw [Finset.mem_erase, mem_free_stateOf, mem_free_stateOf, fillSlot_eq_set hfree hfirst]
    constructor
    · rintro ⟨k, hk, rfl⟩
      by_cases hsame : slot = k
      · subst hsame
        rw [getElem?_set_self hlt] at hk
        cases hk
      · rw [getElem?_set_ne hsame] at hk
        exact ⟨by omega, k, hk, rfl⟩
    · rintro ⟨hne, k, hk, rfl⟩
      refine ⟨k, ?_, rfl⟩
      rw [getElem?_set_ne (by omega)]
      exact hk
  rw [← howners, ← hslots]

lemma stateOf_replicate {w : ℕ} : stateOf start (replicate w none) =
    ⟨∅, (Finset.range w).image fun slot => start + slot⟩ := by
  have howners : (stateOf start (replicate w none)).owners = ∅ := by
    simp [stateOf]
  have hslots : (stateOf start (replicate w none)).free =
      (Finset.range w).image fun slot => start + slot := by
    ext n
    simp only [mem_free_stateOf, Finset.mem_image, Finset.mem_range, getElem?_replicate,
      Option.ite_none_right_eq_some, and_true, eq_comm (a := n)]
  rw [← howners, ← hslots]

/-! ## Assignment -/

/-- The states and the indexes are those of the given sectors, of `w` slots. -/
structure Tracks (w : ℕ) (sectors : List (List (Option SourceChunkId)))
    (a : StableSlotAllocator) : Prop where
  width : a.slotsPerSector = w
  sized : OfWidth w sectors
  states : ∀ i, a.sectors[i]? = sectors[i]?.map (stateOf (i * w))
  indexes : Classified (fun i => sectors[i]?.map kindOf) a

/-- The allocator holds the given sectors, of `w` slots. -/
structure Represents (w : ℕ) (sectors : List (List (Option SourceChunkId)))
    (a : StableSlotAllocator) : Prop extends Tracks w sectors a where
  slots : a.assignments = sectors.flatten

variable {w : ℕ} {id : SourceChunkId}

/-- The indexes are all that is classified. -/
lemma Classified.of_indexes (h : Classified kind a) {b : StableSlotAllocator}
    (hmixed : b.mixed = a.mixed) (hempty : b.empty = a.empty) (hsingle : b.single = a.single)
    (hfillable : b.singleFillable = a.singleFillable) : Classified kind b := by
  obtain ⟨hm, he, hs, hf, hsne, hfne⟩ := h
  exact ⟨hmixed ▸ hm, hempty ▸ he, hsingle ▸ hs, hfillable ▸ hf, hsingle ▸ hsne, hfillable ▸ hfne⟩

section Fields

variable (c : Classification)

@[simp] lemma width_addAs : (a.addAs i c).slotsPerSector = a.slotsPerSector := by cases c <;> rfl

@[simp] lemma assignments_addAs : (a.addAs i c).assignments = a.assignments := by cases c <;> rfl

@[simp] lemma sectors_addAs : (a.addAs i c).sectors = a.sectors := by cases c <;> rfl

@[simp] lemma width_removeAs : (a.removeAs i c).slotsPerSector = a.slotsPerSector := by
  cases c <;> rfl

@[simp] lemma assignments_removeAs : (a.removeAs i c).assignments = a.assignments := by
  cases c <;> rfl

@[simp] lemma sectors_removeAs : (a.removeAs i c).sectors = a.sectors := by cases c <;> rfl

end Fields

lemma addClassification_eq (h : a.sectors[i]? = some (stateOf start s)) :
    a.addClassification i = .ok (a.addAs i (kindOf s)) := by
  rw [addClassification]
  exact bind_eq_ok.mpr ⟨_, expect_eq_ok.mpr h, bind_eq_ok.mpr ⟨_, classification_stateOf, rfl⟩⟩

lemma removeClassification_eq (h : a.sectors[i]? = some (stateOf start s)) :
    a.removeClassification i = .ok (a.removeAs i (kindOf s)) := by
  rw [removeClassification]
  exact bind_eq_ok.mpr ⟨_, expect_eq_ok.mpr h, bind_eq_ok.mpr ⟨_, classification_stateOf, rfl⟩⟩

variable {t : List (Option SourceChunkId)}

namespace Tracks

section

variable (h : Tracks w sectors a)

include h

lemma length_sectors : a.sectors.length = sectors.length := by
  have hnone : ∀ i : ℕ, a.sectors.length ≤ i ↔ sectors.length ≤ i := by
    intro i
    rw [← List.getElem?_eq_none_iff, ← List.getElem?_eq_none_iff, h.states, Option.map_eq_none_iff]
  exact le_antisymm ((hnone _).mpr le_rfl) ((hnone _).mp le_rfl)

/-- An owner has sectors in the index just when there are some in which it is alone. -/
lemma get_single : (∃ found, a.single.get owner = some found) ↔
    ∃ s ∈ sectors, IsSingle SourceChunkId.owner owner s := by
  have hmem : ∀ i, i ∈ sectorsOf a.single owner ↔
      ∃ s, sectors[i]? = some s ∧ IsSingle SourceChunkId.owner owner s := by
    intro i
    simp only [h.indexes.single, Option.map_eq_some_iff, ← kindOf_eq_single]
    tauto
  constructor
  · rintro ⟨found, hfound⟩
    obtain ⟨i, hi⟩ := Finset.nonempty_iff_ne_empty.mpr (h.indexes.single_ne owner found hfound)
    have hi' : i ∈ sectorsOf a.single owner := by rwa [sectorsOf, hfound]
    obtain ⟨s, hs, hsingle⟩ := (hmem i).mp hi'
    exact ⟨s, mem_of_getElem? hs, hsingle⟩
  · rintro ⟨s, hs, hsingle⟩
    obtain ⟨i, hi⟩ := mem_iff_getElem?.mp hs
    have hi' := (hmem i).mpr ⟨s, hi, hsingle⟩
    cases hget : a.single.get owner with
    | none => simp [sectorsOf, hget] at hi'
    | some found => exact ⟨found, rfl⟩

lemma firstOf_single {found : Finset ℕ} (hfound : a.single.get owner = some found) :
    firstOf found = firstSector (IsSingle SourceChunkId.owner owner) sectors := by
  refine firstOf_eq_firstSector fun i => ?_
  have hsectors : sectorsOf a.single owner = found := by rw [sectorsOf, hfound]; rfl
  simp only [← hsectors, h.indexes.single, Option.map_eq_some_iff, ← kindOf_eq_single]
  tauto

/-- The rows of the other owners are searched for the least. -/
lemma otherOwnerSector : a.otherOwnerSector owner =
    (otherOwners SourceChunkId.owner owner sectors).min?.bind fun o =>
      firstSector (IsSingle SourceChunkId.owner o) sectors := by
  have hrow : ∀ row ∈ a.single.rows, row.1 ≠ owner →
      row.1 ∈ otherOwners SourceChunkId.owner owner sectors := by
    intro row hrow hne
    exact mem_otherOwners.mpr ⟨hne, h.get_single.mp ⟨row.2, Table.mem_rows.mp hrow⟩⟩
  rw [StableSlotAllocator.otherOwnerSector]
  cases hmin : (otherOwners SourceChunkId.owner owner sectors).min? with
  | none =>
    have hnone : otherOwners SourceChunkId.owner owner sectors = [] := min?_eq_none_iff.mp hmin
    have hlow : (a.single.rows.find? fun row => row.1 < owner) = none := by
      refine find?_eq_none.mpr fun row hmem hlt => ?_
      have := hrow row hmem (ne_of_lt (of_decide_eq_true hlt))
      simp [hnone] at this
    have hhigh : (a.single.rows.find? fun row => owner < row.1) = none := by
      refine find?_eq_none.mpr fun row hmem hlt => ?_
      have := hrow row hmem (ne_of_gt (of_decide_eq_true hlt))
      simp [hnone] at this
    rw [hlow, hhigh]
    rfl
  | some least =>
    obtain ⟨hmem, hle⟩ := min?_eq_some_iff.mp hmin
    obtain ⟨hne, hsector⟩ := mem_otherOwners.mp hmem
    obtain ⟨found, hfound⟩ := h.get_single.mpr hsector
    have hleast : (least, found) ∈ a.single.rows := Table.mem_rows.mpr hfound
    rw [Option.bind_some, ← h.firstOf_single hfound]
    rcases lt_or_gt_of_ne hne with hlt | hlt
    · have hlow : (a.single.rows.find? fun row => row.1 < owner) = some (least, found) :=
        a.single.ascending.find?_of_least hleast (decide_eq_true hlt)
          fun row hr hp => hle _ (hrow row hr (ne_of_lt (of_decide_eq_true hp)))
      rw [hlow]
      rfl
    · have hlow : (a.single.rows.find? fun row => row.1 < owner) = none := by
        refine find?_eq_none.mpr fun row hr hp => ?_
        have hp := of_decide_eq_true hp
        exact absurd (hle _ (hrow row hr (ne_of_lt hp))) (not_le.mpr (hp.trans hlt))
      have hhigh : (a.single.rows.find? fun row => owner < row.1) = some (least, found) :=
        a.single.ascending.find?_of_least hleast (decide_eq_true hlt)
          fun row hr hp => hle _ (hrow row hr (ne_of_gt (of_decide_eq_true hp)))
      rw [hlow, hhigh]
      rfl

/-- **The indexes name the sector that a scan would.** -/
lemma candidate : a.candidate owner = chooseSector SourceChunkId.owner owner sectors := by
  have hmixed : firstOf a.mixed = firstSector (IsMixed SourceChunkId.owner) sectors := by
    refine firstOf_eq_firstSector fun i => ?_
    simp only [h.indexes.mixed, Option.map_eq_some_iff, kindOf_eq_mixed]
  have hempty : firstOf a.empty = firstSector (IsVacant SourceChunkId.owner) sectors := by
    refine firstOf_eq_firstSector fun i => ?_
    simp only [h.indexes.empty, Option.map_eq_some_iff, kindOf_eq_empty]
  have hfillable : (a.singleFillable.get owner).bind firstOf =
      firstSector (IsFillable SourceChunkId.owner owner) sectors := by
    have hfirst : firstOf (sectorsOf a.singleFillable owner) =
        firstSector (IsFillable SourceChunkId.owner owner) sectors := by
      refine firstOf_eq_firstSector fun i => ?_
      simp only [h.indexes.fillable, Option.map_eq_some_iff, kindOf_eq_fillable]
    rw [← hfirst, sectorsOf]
    cases a.singleFillable.get owner with
    | none => exact (firstOf_eq_none.mpr rfl).symm
    | some found => rfl
  rw [StableSlotAllocator.candidate, chooseSector, hmixed, h.otherOwnerSector, hfillable, hempty]

/-- A sector with other contents is classified anew. -/
lemma replace (hs : sectors[i]? = some s) (ht : t.length = w) :
    Represents w (sectors.set i t)
      (addAs { a.removeAs i (kindOf s) with
        sectors := a.sectors.set i (stateOf (i * w) t)
        assignments := (sectors.set i t).flatten } i (kindOf t)) := by
  obtain ⟨hi, -⟩ := List.getElem?_eq_some_iff.mp hs
  have hstate : a.sectors[i]? = some (stateOf (i * w) s) := by rw [h.states, hs]; rfl
  have hi' : i < a.sectors.length := (List.getElem?_eq_some_iff.mp hstate).1
  refine ⟨⟨?_, ?_, ?_, ?_⟩, assignments_addAs _⟩
  · rw [width_addAs, width_removeAs, h.width]
  · intro u hu
    rcases mem_or_eq_of_mem_set hu with hu | rfl
    · exact h.sized u hu
    · exact ht
  · intro j
    rw [sectors_addAs]
    by_cases hj : i = j
    · subst hj
      rw [getElem?_set_self hi, getElem?_set_self hi']
      rfl
    · rw [getElem?_set_ne hj, getElem?_set_ne hj, h.states]
  · have hremoved : Classified (Function.update (fun i => sectors[i]?.map kindOf) i none)
        (a.removeAs i (kindOf s)) := h.indexes.removeAs (by rw [hs]; rfl)
    have hadded := (hremoved.of_indexes (b := { a.removeAs i (kindOf s) with
      sectors := a.sectors.set i (stateOf (i * w) t)
      assignments := (sectors.set i t).flatten }) rfl rfl rfl rfl).addAs
        (Function.update_self i _ _) (kindOf t)
    have hkinds : (fun j => (sectors.set i t)[j]?.map kindOf) =
        Function.update (Function.update (fun i => sectors[i]?.map kindOf) i none) i
          (some (kindOf t)) := by
      funext j
      by_cases hj : j = i
      · subst hj
        rw [Function.update_self, getElem?_set_self hi]
        rfl
      · rw [Function.update_of_ne hj, Function.update_of_ne hj, getElem?_set_ne (Ne.symm hj)]
    rw [hkinds]
    exact hadded

/-- A sector is classified after the others. -/
lemma append (ht : t.length = w) (assignments : List (Option SourceChunkId)) :
    Tracks w (sectors ++ [t])
      (addAs { a with
        sectors := a.sectors ++ [stateOf (sectors.length * w) t]
        assignments := assignments } sectors.length (kindOf t)) := by
  have hlength : a.sectors.length = sectors.length := h.length_sectors
  refine ⟨?_, ?_, ?_, ?_⟩
  · rw [width_addAs, h.width]
  · intro u hu
    rcases mem_append.mp hu with hu | hu
    · exact h.sized u hu
    · rw [mem_singleton.mp hu, ht]
  · intro j
    rw [sectors_addAs]
    rcases Nat.lt_trichotomy j sectors.length with hj | rfl | hj
    · rw [getElem?_append_left (by omega), getElem?_append_left hj, h.states]
    · rw [getElem?_concat_length, ← hlength, getElem?_concat_length]
      rfl
    · rw [getElem?_eq_none (by simp; omega), getElem?_eq_none (by simp; omega)]
      rfl
  · have hnew : (fun i => sectors[i]?.map kindOf) sectors.length = none := by simp
    have hadded := (h.indexes.of_indexes (b := { a with
      sectors := a.sectors ++ [stateOf (sectors.length * w) t]
      assignments := assignments }) rfl rfl rfl rfl).addAs hnew (kindOf t)
    have hkinds : (fun j => (sectors ++ [t])[j]?.map kindOf) =
        Function.update (fun i => sectors[i]?.map kindOf) sectors.length (some (kindOf t)) := by
      funext j
      rcases Nat.lt_trichotomy j sectors.length with hj | rfl | hj
      · rw [Function.update_of_ne hj.ne, getElem?_append_left hj]
      · rw [Function.update_self, getElem?_concat_length]
        rfl
      · rw [Function.update_of_ne hj.ne', getElem?_eq_none (by simp; omega), getElem?_eq_none hj.le]
    rw [hkinds]
    exact hadded

end

end Tracks

namespace Represents

variable (h : Represents w sectors a)

include h

/-- The sector's first free slot is filled, and the indexes follow. -/
lemma assignTo (id : SourceChunkId) (hs : sectors[i]? = some s) (hfree : 0 < freeSlots s) :
    ∃ b, a.assignTo id i = .ok b ∧ Represents w (sectors.modify i (fillSlot id)) b := by
  obtain ⟨hi, -⟩ := List.getElem?_eq_some_iff.mp hs
  have hlength : s.length = w := h.sized s (mem_of_getElem? hs)
  have hstate : a.sectors[i]? = some (stateOf (i * w) s) := by rw [h.states, hs]; rfl
  have hi' : i < a.sectors.length := (List.getElem?_eq_some_iff.mp hstate).1
  obtain ⟨slot, hslot, hfirst⟩ : ∃ slot : ℕ, s[slot]? = some none ∧
      ∀ k < slot, s[k]? ≠ some none := by
    have hexists := exists_free_of_pos hfree
    exact ⟨Nat.find hexists, Nat.find_spec hexists, fun k hk => Nat.find_min hexists hk⟩
  have hlt : slot < w := hlength ▸ (List.getElem?_eq_some_iff.mp hslot).1
  have hflat : firstOf (stateOf (i * w) s).free = some (i * w + slot) := by
    rw [firstOf_eq_some]
    refine ⟨mem_free_stateOf.mpr ⟨slot, hslot, rfl⟩, fun n hn => ?_⟩
    obtain ⟨k, hk, rfl⟩ := mem_free_stateOf.mp hn
    have hle : slot ≤ k := not_lt.mp fun hlt => hfirst k hlt hk
    omega
  have hassigned : (a.removeAs i (kindOf s)).assignments[i * w + slot]? = some none := by
    rw [assignments_removeAs, h.slots, h.sized.getElem?_flatten hs hlt, hslot]
  have hmodify : sectors.modify i (fillSlot id) = sectors.set i (fillSlot id s) := by
    rw [modify_eq_set_getElem?, hs]
    rfl
  have hreplaced := h.replace hs (t := fillSlot id s) (by rw [length_fillSlot, hlength])
  rw [← hmodify] at hreplaced
  refine ⟨_, ?_, hreplaced⟩
  rw [StableSlotAllocator.assignTo]
  refine bind_eq_ok.mpr ⟨_, removeClassification_eq hstate, ?_⟩
  refine bind_eq_ok.mpr ⟨_, expect_eq_ok.mpr (by rw [sectors_removeAs]; exact hstate), ?_⟩
  refine bind_eq_ok.mpr ⟨_, expect_eq_ok.mpr hflat, ?_⟩
  refine bind_eq_ok.mpr ⟨_, expect_eq_ok.mpr hassigned, ?_⟩
  rw [sectors_removeAs, assignments_removeAs, ← stateOf_fillSlot hslot hfirst, h.slots,
    h.sized.set_flatten hs hlt, ← fillSlot_eq_set hslot hfirst, ← hmodify]
  exact addClassification_eq (getElem?_set_self hi')

/-- A sector of free slots is appended. -/
lemma appendEmptySector :
    ∃ b, a.appendEmptySector = .ok (b, sectors.length) ∧
      Represents w (sectors ++ [replicate w none]) b := by
  have happended := h.toTracks.append (length_replicate (n := w) (a := none))
    (a.assignments ++ replicate a.slotsPerSector none)
  refine ⟨_, ?_, happended, ?_⟩
  · rw [StableSlotAllocator.appendEmptySector]
    refine bind_eq_ok.mpr ⟨_, ?_, by rw [h.length_sectors]; rfl⟩
    have hstart : a.assignments.length = sectors.length * w := by
      rw [h.slots, h.sized.length_flatten]
    have hlast : (a.sectors ++ [stateOf (sectors.length * w) (replicate w none)])[
        a.sectors.length]? = some (stateOf (sectors.length * w) (replicate w none)) :=
      getElem?_concat_length
    rw [← h.length_sectors] at hlast ⊢
    rw [hstart, h.width, ← stateOf_replicate, ← h.length_sectors]
    exact addClassification_eq hlast
  · rw [assignments_addAs, h.slots, h.width, flatten_append, flatten_singleton]

/-- **The allocator places a chunk as it should**, and no expectation fails. -/
lemma assign (hw : 0 < w) (id : SourceChunkId) :
    ∃ b, a.assign id = .ok b ∧ Represents w (placeItem SourceChunkId.owner w sectors id) b := by
  rw [StableSlotAllocator.assign, h.candidate, placeItem]
  cases hchoose : chooseSector SourceChunkId.owner id.owner sectors with
  | some i =>
    obtain ⟨s, hs, hsuits⟩ := suits_of_chooseSector hchoose
    exact h.assignTo id hs hsuits.free
  | none =>
    obtain ⟨b, hb, hrep⟩ := h.appendEmptySector
    have hlast : (sectors ++ [replicate w none])[sectors.length]? =
        some (replicate w none) := getElem?_concat_length
    obtain ⟨c, hc, hdone⟩ := hrep.assignTo id hlast (by rwa [freeSlots_replicate])
    refine ⟨c, bind_eq_ok.mpr ⟨_, hb, hc⟩, ?_⟩
    have hmodify : (sectors ++ [replicate w none]).modify sectors.length (fillSlot id) =
        sectors ++ [fillSlot id (replicate w none)] := by
      rw [modify_eq_set_getElem?, hlast]
      simp
    rw [← hmodify]
    exact hdone

end Represents

/-! ## The first state -/

lemma addSector_eq (h : Tracks w sectors a) (ht : t.length = w)
    (hslots : (a.assignments.drop (sectors.length * w)).take w = t) :
    ∃ b, a.addSector sectors.length = .ok b ∧ b.assignments = a.assignments ∧
      Tracks w (sectors ++ [t]) b := by
  have happended := h.append ht a.assignments
  refine ⟨_, ?_, ?_, happended⟩
  case refine_2 => exact assignments_addAs _
  have hlast : (a.sectors ++ [stateOf (sectors.length * w) t])[a.sectors.length]? =
      some (stateOf (sectors.length * w) t) := getElem?_concat_length
  rw [addSector, h.width, hslots]
  rw [h.length_sectors] at hlast
  exact addClassification_eq hlast

/-- The loop over the sectors, up to some of them. -/
lemma foldlM_addSector (before after : List (List (Option SourceChunkId)))
    (h : OfWidth w (before ++ after)) (hslots : a.assignments = (before ++ after).flatten)
    (hstart : Tracks w [] a) :
    ∃ b, (List.range before.length).foldlM addSector a = .ok b ∧
      b.assignments = a.assignments ∧ Tracks w before b := by
  induction before using List.reverseRecOn generalizing after with
  | nil => exact ⟨a, rfl, rfl, hstart⟩
  | append_singleton before t ih =>
    rw [append_assoc, singleton_append] at h hslots
    obtain ⟨b, hb, hassigned, htracks⟩ := ih _ h hslots
    have ht : t.length = w := h t (mem_append_right _ mem_cons_self)
    have hget : (before ++ t :: after)[before.length]? = some t := by simp
    obtain ⟨c, hc, hsame, hdone⟩ := addSector_eq htracks ht
      (by rw [hassigned, hslots, h.take_drop_flatten hget])
    refine ⟨c, ?_, hsame.trans hassigned, hdone⟩
    rw [length_append, length_singleton, range_succ, foldlM_append]
    refine bind_eq_ok.mpr ⟨b, hb, ?_⟩
    rw [foldlM_cons]
    exact bind_eq_ok.mpr ⟨c, hc, rfl⟩

lemma new_eq (h : OfWidth w sectors) (hw : 0 < w) :
    ∃ a, new sectors.flatten w = .ok a ∧ Represents w sectors a := by
  have hempty : Classified (fun _ => none)
      ⟨w, sectors.flatten, [], ∅, .empty, .empty, ∅⟩ := by
    refine ⟨?_, ?_, ?_, ?_, ?_, ?_⟩ <;> simp [sectorsOf, NoneEmpty]
  have hcount : sectors.flatten.length / w = sectors.length := by
    rw [h.length_flatten, Nat.mul_div_cancel _ hw]
  obtain ⟨a, ha, hassigned, htracks⟩ := foldlM_addSector sectors []
    (by rwa [append_nil]) (by rw [append_nil])
    (⟨rfl, by simp [OfWidth], by simp, hempty⟩ : Tracks w [] _)
  refine ⟨a, ?_, htracks, hassigned⟩
  rw [new, hcount]
  exact ha

end StableSlotAllocator

/-! ## Rounds -/

section Rounds

open StableSlotAllocator

variable {w : ℕ} {a : StableSlotAllocator} {queues : List PendingQueue}

/-- A round places the first chunk of every queue. -/
lemma assignRound_eq (queues : List PendingQueue) (h : Represents w sectors a) (hw : 0 < w) :
    ∃ b, assignRound a queues = .ok (b, queues.map (fun queue => (queue.1, queue.2.tail)),
        decide (heads (queues.map Prod.snd) ≠ [])) ∧
      Represents w (placeItems SourceChunkId.owner w sectors (heads (queues.map Prod.snd))) b := by
  induction queues generalizing sectors a with
  | nil => exact ⟨a, rfl, h⟩
  | cons queue queues ih =>
    obtain ⟨owner, ids⟩ := queue
    cases ids with
    | nil =>
      obtain ⟨b, hb, hrep⟩ := ih h
      exact ⟨b, bind_eq_ok.mpr ⟨_, hb, rfl⟩, hrep⟩
    | cons id ids =>
      obtain ⟨b, hb, hplaced⟩ := h.assign hw id
      obtain ⟨c, hc, hrep⟩ := ih hplaced
      exact ⟨c, bind_eq_ok.mpr ⟨b, hb, bind_eq_ok.mpr ⟨_, hc, rfl⟩⟩, hrep⟩

lemma map_tail_queues : (queues.map fun queue => (queue.1, queue.2.tail)).map Prod.snd =
    (queues.map Prod.snd).map List.tail := by
  rw [map_map, map_map]
  rfl

lemma placeItems_append {xs ys : List SourceChunkId} :
    placeItems SourceChunkId.owner w sectors (xs ++ ys) =
      placeItems SourceChunkId.owner w (placeItems SourceChunkId.owner w sectors xs) ys :=
  foldl_append

/-- **The rounds place the chunks of all queues in turn.** -/
lemma assignRounds_eq {n : ℕ} (queues : List PendingQueue) (h : Represents w sectors a) (hw : 0 < w)
    (hfuel : ∀ queue ∈ queues, queue.2.length ≤ n) :
    ∃ b, assignRounds (n + 1) a queues = .ok b ∧ Represents w
      (placeItems SourceChunkId.owner w sectors (roundRobin n (queues.map Prod.snd))) b := by
  induction n generalizing sectors a queues with
  | zero =>
    obtain ⟨b, hb, hrep⟩ := assignRound_eq queues h hw
    have hnone : heads (queues.map Prod.snd) = [] := by
      rw [heads_eq_nil]
      intro queue hqueue
      obtain ⟨full, hfull, rfl⟩ := mem_map.mp hqueue
      exact eq_nil_of_length_eq_zero (Nat.le_zero.mp (hfuel full hfull))
    rw [hnone] at hb hrep
    refine ⟨b, bind_eq_ok.mpr ⟨_, hb, rfl⟩, hrep⟩
  | succ n ih =>
    obtain ⟨b, hb, hrep⟩ := assignRound_eq queues h hw
    by_cases hmore : heads (queues.map Prod.snd) = []
    · -- nothing is left, and the loop ends
      rw [roundRobin_of_empty (heads_eq_nil.mp hmore)]
      rw [hmore] at hb hrep
      exact ⟨b, bind_eq_ok.mpr ⟨_, hb, rfl⟩, hrep⟩
    · have htails : ∀ queue ∈ queues.map fun queue => (queue.1, queue.2.tail),
          queue.2.length ≤ n := by
        intro queue hqueue
        obtain ⟨full, hfull, rfl⟩ := mem_map.mp hqueue
        rw [length_tail]
        have := hfuel full hfull
        omega
      obtain ⟨c, hc, hdone⟩ := ih _ hrep htails
      rw [map_tail_queues, ← placeItems_append] at hdone
      refine ⟨c, bind_eq_ok.mpr ⟨_, hb, ?_⟩, hdone⟩
      simpa [hmore] using hc

/-- Every chunk is enqueued once. -/
lemma count_foldl_enqueue (id : SourceChunkId) (ids : List SourceChunkId)
    (pending : Table NodeId (List SourceChunkId)) :
    (ids.foldl enqueue pending).total (fun _ queue => queue.count id) =
      pending.total (fun _ queue => queue.count id) + ids.count id := by
  induction ids generalizing pending with
  | nil => rfl
  | cons first ids ih =>
    have hput := pending.total_put (k := first.owner)
      (a := (pending.get first.owner).getD [] ++ [first]) (f := fun _ queue => queue.count id)
    have hweight : pending.weight (fun _ queue => queue.count id) first.owner =
        ((pending.get first.owner).getD []).count id := by
      rw [Table.weight]
      cases pending.get first.owner <;> rfl
    have hcons : (first :: ids).count id = [first].count id + ids.count id := by
      rw [← count_append]
      rfl
    rw [hweight, count_append] at hput
    rw [foldl_cons, ih, enqueue]
    omega

lemma pendingByOwner_perm (ids : List SourceChunkId) :
    ((pendingByOwner ids).map Prod.snd).flatten.Perm ids := by
  rw [perm_iff_count]
  intro id
  have hall := count_foldl_enqueue id ids .empty
  rw [Table.total_empty, Nat.zero_add] at hall
  rw [← hall, count_flatten, pendingByOwner, Table.total, map_map, map_map]
  congr 1
  refine map_congr_left fun row _ => ?_
  exact (perm_insertionSort (· ≤ ·) row.2).count_eq id

/-- The order in which chunks are assigned. -/
def assignOrder (ids : List SourceChunkId) : List SourceChunkId :=
  roundRobin ((pendingByOwner ids).map fun queue => queue.2.length).sum
    ((pendingByOwner ids).map Prod.snd)

lemma length_le_sum {queue : PendingQueue} (h : queue ∈ queues) :
    queue.2.length ≤ (queues.map fun queue => queue.2.length).sum :=
  single_le_sum (by simp) _ (mem_map_of_mem h)

lemma assignOrder_perm (ids : List SourceChunkId) : (assignOrder ids).Perm ids := by
  refine (roundRobin_perm ?_).trans (pendingByOwner_perm ids)
  intro queue hqueue
  obtain ⟨full, hfull, rfl⟩ := mem_map.mp hqueue
  exact length_le_sum hfull

/-- **Allocation succeeds, and places the chunks one after another.** -/
lemma allocate_eq (h : OfWidth w sectors) (hw : 0 < w) (ids : List SourceChunkId) :
    allocate w sectors.flatten ids =
      .ok (usedSlots (placeItems SourceChunkId.owner w sectors (assignOrder ids))) := by
  obtain ⟨a, ha, hrep⟩ := new_eq h hw
  obtain ⟨b, hb, hplaced⟩ := assignRounds_eq (pendingByOwner ids) hrep hw
    fun queue hqueue => length_le_sum hqueue
  rw [allocate]
  refine bind_eq_ok.mpr ⟨a, ha, bind_eq_ok.mpr ⟨b, hb, ?_⟩⟩
  rw [hplaced.slots]
  rfl

end Rounds

end MutualBackup
