import Mathlib.Algebra.Order.Floor.Div
import Mathlib.Algebra.Ring.Nat
import Mathlib.Data.Finset.Card
import Mathlib.Data.List.DropRight
import Mathlib.Data.List.Induction
import Mathlib.Data.List.ReduceOption
import Mathlib.Order.Lattice

/-!
# Placing items of several owners in sectors of slots

Sectors have a fixed number of slots, and every slot holds an item or is free.  An item is placed
in the first sector that suits it: one with items of several owners, or one of a single other
owner (the least of them), or one of its own owner that would not be full afterwards, or an empty
one; when there is none, a new sector is opened.

Two things follow from these preferences when sectors have two slots at least.  A sector is only
filled by an item of a second owner, so full sectors are mixed (`Mixing.placeItems`).  And a new
sector is only opened when all others are full but for one slot, which bounds the number of sectors
by the number of items (`length_placeItems_le`).  Items never move (`slotItem_placeItems`).
-/

namespace Framework

open List Option

variable {ι ο : Type} [LinearOrder ο]

/-! ## Sectors -/

/-- The number of free slots. -/
def freeSlots (s : List (Option ι)) : ℕ := s.countP Option.isNone

/-- The owners of the items of a sector. -/
def sectorOwners (owner : ι → ο) (s : List (Option ι)) : Finset ο :=
  (s.reduceOption.map owner).toFinset

/-- The slots with an item in the first that is free. -/
def fillSlot (x : ι) : List (Option ι) → List (Option ι)
  | [] => []
  | none :: s => some x :: s
  | some y :: s => some y :: fillSlot x s

lemma length_fillSlot (x : ι) (s : List (Option ι)) : (fillSlot x s).length = s.length := by
  induction s with
  | nil => rfl
  | cons a s ih => cases a <;> simp [fillSlot, ih]

lemma items_add_free (s : List (Option ι)) : s.reduceOption.length + freeSlots s = s.length := by
  induction s with
  | nil => rfl
  | cons a s ih =>
    cases a with
    | none =>
      simp only [reduceOption_cons_of_none, freeSlots, countP_cons, length_cons,
        isNone_none, if_true] at ih ⊢
      omega
    | some y =>
      simp only [reduceOption_cons_of_some, freeSlots, countP_cons, length_cons,
        isNone_some, Bool.false_eq_true, if_false] at ih ⊢
      omega

variable {s : List (Option ι)} {x : ι}

section

variable (hfree : 0 < freeSlots s)

include hfree

/-- Filling a slot adds the item. -/
lemma reduceOption_fillSlot : (fillSlot x s).reduceOption.Perm (x :: s.reduceOption) := by
  induction s with
  | nil => simp [freeSlots] at hfree
  | cons a s ih =>
    cases a with
    | none => simp [fillSlot]
    | some y =>
      have hfree : 0 < freeSlots s := by simpa [freeSlots] using hfree
      simp only [fillSlot, reduceOption_cons_of_some]
      exact ((ih hfree).cons y).trans (Perm.swap x y _)

lemma freeSlots_fillSlot : freeSlots (fillSlot x s) + 1 = freeSlots s := by
  have hitems := (reduceOption_fillSlot (x := x) hfree).length_eq
  have hbefore := items_add_free s
  have hafter := items_add_free (fillSlot x s)
  rw [length_fillSlot] at hafter
  rw [length_cons] at hitems
  omega

lemma sectorOwners_fillSlot {owner : ι → ο} :
    sectorOwners owner (fillSlot x s) = insert (owner x) (sectorOwners owner s) := by
  ext o
  have hperm := (reduceOption_fillSlot (x := x) hfree).map owner
  simp only [sectorOwners, List.mem_toFinset, Finset.mem_insert, hperm.mem_iff, map_cons, mem_cons]

end

variable {j : ℕ} {y : ι}

/-- An item that is there stays in its slot. -/
lemma getElem?_fillSlot (h : s[j]? = some (some y)) : (fillSlot x s)[j]? = some (some y) := by
  induction s generalizing j with
  | nil => cases h
  | cons a s ih =>
    cases a with
    | none =>
      cases j with
      | zero => cases h
      | succ j => exact h
    | some z =>
      cases j with
      | zero => exact h
      | succ j => exact ih h

/-- The first free slot is the one that is filled. -/
lemma fillSlot_eq_set (hfree : s[j]? = some none) (hfirst : ∀ k < j, s[k]? ≠ some none) :
    fillSlot x s = s.set j (some x) := by
  induction s generalizing j with
  | nil => cases hfree
  | cons a s ih =>
    cases a with
    | none =>
      cases j with
      | zero => rfl
      | succ j => exact absurd rfl (hfirst 0 (Nat.succ_pos j))
    | some y =>
      cases j with
      | zero => cases hfree
      | succ j =>
        have hrest : fillSlot x s = s.set j (some x) :=
          ih hfree fun k hk => hfirst (k + 1) (Nat.succ_lt_succ hk)
        rw [fillSlot, hrest, set_cons_succ]

/-- A free slot exists where the count says so. -/
lemma exists_free_of_pos (hfree : 0 < freeSlots s) : ∃ j : ℕ, s[j]? = some none := by
  obtain ⟨a, ha, hnone⟩ := countP_pos_iff.mp hfree
  obtain ⟨j, hj⟩ := mem_iff_getElem?.mp ha
  rw [isNone_iff_eq_none.mp hnone] at hj
  exact ⟨j, hj⟩

/-! ## Choosing a sector -/

section Choose

variable (owner : ι → ο)

/-- A free slot beside items of several owners. -/
def IsMixed (s : List (Option ι)) : Prop := 0 < freeSlots s ∧ 1 < (sectorOwners owner s).card
  deriving Decidable

/-- A free slot beside items of one owner. -/
def IsSingle (o : ο) (s : List (Option ι)) : Prop := 0 < freeSlots s ∧ sectorOwners owner s = {o}
  deriving Decidable

/-- More than one free slot beside items of one owner. -/
def IsFillable (o : ο) (s : List (Option ι)) : Prop := 1 < freeSlots s ∧ sectorOwners owner s = {o}
  deriving Decidable

/-- Free slots only. -/
def IsVacant (s : List (Option ι)) : Prop := 0 < freeSlots s ∧ sectorOwners owner s = ∅
  deriving Decidable

variable {owner} in
/-- The four kinds are all there is beside full sectors. -/
lemma kind_of_free (hfree : 0 < freeSlots s) :
    IsMixed owner s ∨ (∃ o, IsSingle owner o s) ∨ IsVacant owner s := by
  rcases Nat.lt_trichotomy (sectorOwners owner s).card 1 with hcard | hcard | hcard
  · exact .inr (.inr ⟨hfree, Finset.card_eq_zero.mp (by omega)⟩)
  · obtain ⟨o, ho⟩ := Finset.card_eq_one.mp hcard
    exact .inr (.inl ⟨o, hfree, ho⟩)
  · exact .inl ⟨hfree, hcard⟩

/-- The first sector with a property. -/
def firstSector (p : List (Option ι) → Prop) [DecidablePred p]
    (sectors : List (List (Option ι))) : Option ℕ :=
  sectors.findIdx? fun s => p s

/-- The owners other than `o` that have a sector to themselves, with a free slot. -/
def otherOwners (o : ο) (sectors : List (List (Option ι))) : List ο :=
  sectors.flatMap fun s => (s.reduceOption.map owner).filter fun o' => o' ≠ o ∧ IsSingle owner o' s

/-- The sector for an item of `o`, if no new one is needed. -/
def chooseSector (o : ο) (sectors : List (List (Option ι))) : Option ℕ :=
  (firstSector (IsMixed owner) sectors).or <| ((otherOwners owner o sectors).min?.bind fun o' =>
      firstSector (IsSingle owner o') sectors).or <|
    (firstSector (IsFillable owner o) sectors).or (firstSector (IsVacant owner) sectors)

/-- The sectors with an item more. -/
def placeItem (w : ℕ) (sectors : List (List (Option ι))) (x : ι) : List (List (Option ι)) :=
  match chooseSector owner (owner x) sectors with
  | some i => sectors.modify i (fillSlot x)
  | none => sectors ++ [fillSlot x (List.replicate w none)]

end Choose

variable {owner : ι → ο} {o : ο} {sectors : List (List (Option ι))} {w : ℕ} {i : ℕ}

section First

variable {p : List (Option ι) → Prop} [DecidablePred p]

lemma firstSector_eq_some : firstSector p sectors = some i ↔
    (∃ s, sectors[i]? = some s ∧ p s) ∧ ∀ j < i, ∀ s, sectors[j]? = some s → ¬ p s := by
  rw [firstSector, findIdx?_eq_some_iff_getElem]
  simp only [List.getElem?_eq_some_iff, decide_eq_true_eq]
  constructor
  · rintro ⟨hi, hp, hbefore⟩
    refine ⟨⟨_, ⟨hi, rfl⟩, hp⟩, ?_⟩
    rintro j hj s ⟨hlt, rfl⟩
    exact hbefore j hj
  · rintro ⟨⟨s, ⟨hi, rfl⟩, hp⟩, hbefore⟩
    exact ⟨hi, hp, fun j hj => hbefore j hj _ ⟨hj.trans hi, rfl⟩⟩

lemma firstSector_eq_none : firstSector p sectors = none ↔ ∀ s ∈ sectors, ¬ p s := by
  simp [firstSector]

end First

lemma mem_otherOwners {o' : ο} : o' ∈ otherOwners owner o sectors ↔
    o' ≠ o ∧ ∃ s ∈ sectors, IsSingle owner o' s := by
  simp only [otherOwners, mem_flatMap, mem_filter, decide_eq_true_eq]
  constructor
  · rintro ⟨s, hs, -, hne, hsingle⟩
    exact ⟨hne, s, hs, hsingle⟩
  · rintro ⟨hne, s, hs, hsingle⟩
    refine ⟨s, hs, ?_, hne, hsingle⟩
    have hmem : o' ∈ sectorOwners owner s := by
      rw [hsingle.2]
      exact Finset.mem_singleton_self o'
    exact mem_toFinset.mp hmem

/-- A sector that an item of `o` may go to. -/
def Suits (owner : ι → ο) (o : ο) (s : List (Option ι)) : Prop :=
  IsMixed owner s ∨ (∃ o', o' ≠ o ∧ IsSingle owner o' s) ∨ IsFillable owner o s ∨ IsVacant owner s

lemma Suits.free (h : Suits owner o s) : 0 < freeSlots s := by
  rcases h with h | ⟨o', -, h⟩ | h | h
  · exact h.1
  · exact h.1
  · exact Nat.zero_lt_of_lt h.1
  · exact h.1

lemma suits_of_chooseSector (h : chooseSector owner o sectors = some i) :
    ∃ s, sectors[i]? = some s ∧ Suits owner o s := by
  simp only [chooseSector, or_eq_some_iff, bind_eq_some_iff] at h
  rcases h with h | ⟨-, ⟨o', hmin, h⟩ | ⟨-, h | ⟨-, h⟩⟩⟩
  · obtain ⟨⟨s, hs, hp⟩, -⟩ := firstSector_eq_some.mp h
    exact ⟨s, hs, .inl hp⟩
  · obtain ⟨⟨s, hs, hp⟩, -⟩ := firstSector_eq_some.mp h
    exact ⟨s, hs, .inr (.inl ⟨o', (mem_otherOwners.mp (min?_mem hmin)).1, hp⟩)⟩
  · obtain ⟨⟨s, hs, hp⟩, -⟩ := firstSector_eq_some.mp h
    exact ⟨s, hs, .inr (.inr (.inl hp))⟩
  · obtain ⟨⟨s, hs, hp⟩, -⟩ := firstSector_eq_some.mp h
    exact ⟨s, hs, .inr (.inr (.inr hp))⟩

/-- A new sector is needed only when no sector has room but for one slot of its own owner. -/
lemma freeSlots_le_of_chooseSector (h : chooseSector owner o sectors = none) :
    ∀ s ∈ sectors, freeSlots s ≤ 1 := by
  simp only [chooseSector, or_eq_none_iff] at h
  obtain ⟨hmixed, hother, hfillable, hvacant⟩ := h
  intro s hs
  by_contra hfree
  have hpos : 0 < freeSlots s := by omega
  have hkinds : IsMixed owner s ∨ (∃ o', IsSingle owner o' s) ∨ IsVacant owner s :=
    kind_of_free hpos
  rcases hkinds with hkind | ⟨o', hkind⟩ | hkind
  · exact firstSector_eq_none.mp hmixed s hs hkind
  · by_cases hsame : o' = o
    · subst hsame
      exact firstSector_eq_none.mp hfillable s hs ⟨by omega, hkind.2⟩
    · -- some other owner is the least, and it has a sector
      have hmem := mem_otherOwners.mpr ⟨hsame, s, hs, hkind⟩
      obtain ⟨least, hleast⟩ := isSome_iff_exists.mp (isSome_min?_of_mem hmem)
      obtain ⟨-, s', hs', hsingle⟩ := mem_otherOwners.mp (min?_mem hleast)
      rw [hleast, bind_some] at hother
      exact firstSector_eq_none.mp hother s' hs' hsingle
  · exact firstSector_eq_none.mp hvacant s hs hkind

/-! ## Placing an item -/

/-- **What placing does.** One sector that suits the item is filled by a slot, or a sector is
opened because none has room for more than one item. -/
lemma placeItem_cases (owner : ι → ο) (w : ℕ) (sectors : List (List (Option ι))) (x : ι) :
    (∃ before s after, sectors = before ++ s :: after ∧ Suits owner (owner x) s ∧
      placeItem owner w sectors x = before ++ fillSlot x s :: after) ∨
    ((∀ s ∈ sectors, freeSlots s ≤ 1) ∧
      placeItem owner w sectors x = sectors ++ [fillSlot x (replicate w none)]) := by
  rw [placeItem]
  cases hchoose : chooseSector owner (owner x) sectors with
  | none => exact .inr ⟨freeSlots_le_of_chooseSector hchoose, rfl⟩
  | some i =>
    obtain ⟨s, hs, hsuits⟩ := suits_of_chooseSector hchoose
    obtain ⟨hi, rfl⟩ := List.getElem?_eq_some_iff.mp hs
    refine .inl ⟨sectors.take i, sectors[i], sectors.drop (i + 1), ?_, hsuits, ?_⟩
    · rw [← drop_eq_getElem_cons hi, take_append_drop]
    · exact modify_eq_take_cons_drop hi

lemma freeSlots_replicate : freeSlots (replicate w (none : Option ι)) = w := by
  simp [freeSlots, countP_replicate]

/-- Every sector has `w` slots. -/
def OfWidth (w : ℕ) (sectors : List (List (Option ι))) : Prop := ∀ s ∈ sectors, s.length = w

section

variable (h : OfWidth w sectors)

include h

lemma OfWidth.placeItem (x : ι) : OfWidth w (placeItem owner w sectors x) := by
  intro s hs
  rcases placeItem_cases owner w sectors x with ⟨before, t, after, rfl, -, heq⟩ | ⟨-, heq⟩
  · rw [heq] at hs
    rcases mem_append.mp hs with hs | hs
    · exact h s (mem_append_left _ hs)
    · rcases mem_cons.mp hs with rfl | hs
      · rw [length_fillSlot]
        exact h t (mem_append_right _ mem_cons_self)
      · exact h s (mem_append_right _ (mem_cons_of_mem _ hs))
  · rw [heq] at hs
    rcases mem_append.mp hs with hs | hs
    · exact h s hs
    · rw [mem_singleton.mp hs, length_fillSlot, length_replicate]

lemma OfWidth.length_flatten : sectors.flatten.length = sectors.length * w := by
  induction sectors with
  | nil => simp
  | cons t sectors ih =>
    rw [flatten_cons, length_append, h t mem_cons_self,
      ih fun t' ht' => h t' (mem_cons_of_mem _ ht'), length_cons, Nat.add_mul]
    omega

lemma OfWidth.split (hs : sectors[i]? = some s) : ∃ before after, sectors = before ++ s :: after ∧
    before.length = i ∧ before.flatten.length = i * w ∧ s.length = w := by
  obtain ⟨hi, hget⟩ := List.getElem?_eq_some_iff.mp hs
  refine ⟨sectors.take i, sectors.drop (i + 1), ?_, length_take_of_le hi.le, ?_,
    h s (mem_of_getElem? hs)⟩
  · rw [← hget, ← drop_eq_getElem_cons hi, take_append_drop]
  · rw [OfWidth.length_flatten fun t ht => h t (mem_of_mem_take ht), length_take_of_le hi.le]

/-- Slots are numbered through the sectors. -/
lemma OfWidth.getElem?_flatten (hs : sectors[i]? = some s) (hj : j < w) :
    sectors.flatten[i * w + j]? = s[j]? := by
  obtain ⟨before, after, rfl, -, hbefore, hlength⟩ := h.split hs
  rw [flatten_append, flatten_cons, getElem?_append_right (by omega), hbefore,
    Nat.add_sub_cancel_left, getElem?_append_left (by omega)]

lemma OfWidth.set_flatten {a : Option ι} (hs : sectors[i]? = some s) (hj : j < w) :
    sectors.flatten.set (i * w + j) a = (sectors.set i (s.set j a)).flatten := by
  obtain ⟨before, after, rfl, rfl, hbefore, hlength⟩ := h.split hs
  rw [flatten_append, flatten_cons, set_append_right _ _ (by omega), hbefore,
    Nat.add_sub_cancel_left, set_append_left _ _ (by omega), set_append_right _ _ le_rfl,
    Nat.sub_self, set_cons_zero, flatten_append, flatten_cons]

/-- A sector is a slice of the slots. -/
lemma OfWidth.take_drop_flatten (hs : sectors[i]? = some s) :
    (sectors.flatten.drop (i * w)).take w = s := by
  obtain ⟨hi, rfl⟩ := List.getElem?_eq_some_iff.mp hs
  have hbefore : OfWidth w (sectors.take i) := fun t ht => h t (mem_of_mem_take ht)
  have hlength : (sectors.take i).flatten.length = i * w := by
    rw [hbefore.length_flatten, length_take, Nat.min_eq_left hi.le]
  have hsplit : sectors.flatten = (sectors.take i).flatten ++
      (sectors[i] ++ (sectors.drop (i + 1)).flatten) := by
    rw [← flatten_cons, ← flatten_append, ← drop_eq_getElem_cons hi, take_append_drop]
  rw [hsplit, ← hlength, drop_left, ← h _ (getElem_mem hi), take_left]

lemma OfWidth.slices :
    ((List.range sectors.length).map fun i => (sectors.flatten.drop (i * w)).take w) = sectors := by
  refine ext_getElem? fun i => ?_
  rw [getElem?_map]
  rcases Nat.lt_or_ge i sectors.length with hi | hi
  · rw [getElem?_range hi, map_some,
      h.take_drop_flatten (getElem?_eq_getElem hi), getElem?_eq_getElem hi]
  · rw [getElem?_eq_none (by simpa using hi), getElem?_eq_none hi]
    rfl

end

/-- All items. -/
def allItems (sectors : List (List (Option ι))) : List ι := sectors.flatten.reduceOption

lemma allItems_append (xs ys : List (List (Option ι))) :
    allItems (xs ++ ys) = allItems xs ++ allItems ys := by
  simp [allItems, reduceOption_append]

lemma allItems_cons (s : List (Option ι)) (ys : List (List (Option ι))) :
    allItems (s :: ys) = s.reduceOption ++ allItems ys := by
  simp [allItems, reduceOption_append]

/-- Placing adds the item and nothing else. -/
lemma allItems_placeItem (hw : 0 < w) (x : ι) :
    (allItems (placeItem owner w sectors x)).Perm (x :: allItems sectors) := by
  rcases placeItem_cases owner w sectors x with ⟨before, s, after, rfl, hsuits, heq⟩ | ⟨-, heq⟩
  · rw [heq, allItems_append, allItems_append, allItems_cons, allItems_cons]
    have hfill := reduceOption_fillSlot (x := x) hsuits.free
    exact ((hfill.append_right (allItems after)).append_left (allItems before)).trans
      perm_middle
  · have hfill := reduceOption_fillSlot (x := x) (s := replicate w none)
      (by rw [freeSlots_replicate]; exact hw)
    have hempty : (replicate w (none : Option ι)).reduceOption = [] := by simp
    have hnil : allItems ([] : List (List (Option ι))) = [] := rfl
    rw [heq, allItems_append, allItems_cons, hnil, append_nil]
    rw [hempty] at hfill
    exact (hfill.append_left (allItems sectors)).trans (perm_append_singleton x _)

/-- The item in a slot. -/
def slotItem (sectors : List (List (Option ι))) (i j : ℕ) : Option ι :=
  ((sectors[i]?).bind fun s => s[j]?).join

/-- **Items never move.** -/
lemma slotItem_placeItem (h : slotItem sectors i j = some y) :
    slotItem (placeItem owner w sectors x) i j = some y := by
  rw [slotItem, join_eq_some_iff, bind_eq_some_iff] at h ⊢
  obtain ⟨s, hs, hj⟩ := h
  rcases placeItem_cases owner w sectors x with ⟨before, t, after, rfl, -, heq⟩ | ⟨-, heq⟩
  · rw [heq]
    rcases Nat.lt_trichotomy i before.length with hlt | rfl | hgt
    · rw [getElem?_append_left hlt] at hs ⊢
      exact ⟨s, hs, hj⟩
    · rw [getElem?_append_right le_rfl, Nat.sub_self] at hs ⊢
      obtain rfl := Option.some.inj hs
      exact ⟨fillSlot x t, rfl, getElem?_fillSlot hj⟩
    · rw [getElem?_append_right hgt.le] at hs ⊢
      obtain ⟨k, hk⟩ := Nat.exists_eq_add_of_lt hgt
      have hsub : i - before.length = k + 1 := by omega
      rw [hsub] at hs ⊢
      exact ⟨s, hs, hj⟩
  · obtain ⟨hi, -⟩ := List.getElem?_eq_some_iff.mp hs
    rw [heq, getElem?_append_left hi]
    exact ⟨s, hs, hj⟩

/-- Full sectors have items of two owners at least. -/
def Mixing (owner : ι → ο) (sectors : List (List (Option ι))) : Prop :=
  ∀ s ∈ sectors, freeSlots s = 0 → 1 < (sectorOwners owner s).card

/-- The last free slot of a sector goes to a second owner. -/
lemma Suits.mixing (hsuits : Suits owner (owner x) s) (hlength : 2 ≤ s.length)
    (hfull : freeSlots (fillSlot x s) = 0) : 1 < (sectorOwners owner (fillSlot x s)).card := by
  have hone : freeSlots s = 1 := by
    have := freeSlots_fillSlot (x := x) hsuits.free
    omega
  rw [sectorOwners_fillSlot hsuits.free]
  rcases hsuits with hmixed | ⟨o', hne, hsingle⟩ | hfillable | hvacant
  · exact hmixed.2.trans_le (Finset.card_le_card (Finset.subset_insert _ _))
  · rw [hsingle.2, Finset.card_pair (Ne.symm hne)]
    omega
  · have := hfillable.1
    omega
  · -- an empty sector has as many free slots as it has slots
    have hitems : s.reduceOption = [] := by
      have hempty := hvacant.2
      rw [sectorOwners, toFinset_eq_empty_iff, map_eq_nil_iff] at hempty
      exact hempty
    have hcount := items_add_free s
    rw [hitems, hone] at hcount
    simp at hcount
    omega

lemma Mixing.placeItem (h : Mixing owner sectors) (hsized : OfWidth w sectors) (hw : 2 ≤ w)
    (x : ι) : Mixing owner (placeItem owner w sectors x) := by
  intro s hs hfull
  rcases placeItem_cases owner w sectors x with ⟨before, t, after, rfl, hsuits, heq⟩ | ⟨-, heq⟩
  · rw [heq] at hs
    rcases mem_append.mp hs with hs | hs
    · exact h s (mem_append_left _ hs) hfull
    · rcases mem_cons.mp hs with rfl | hs
      · have hlength := hsized t (mem_append_right _ mem_cons_self)
        exact hsuits.mixing (by omega) hfull
      · exact h s (mem_append_right _ (mem_cons_of_mem _ hs)) hfull
  · rw [heq] at hs
    rcases mem_append.mp hs with hs | hs
    · exact h s hs hfull
    · -- the new sector has a slot left
      rw [mem_singleton.mp hs] at hfull
      have hfree : 0 < freeSlots (replicate w (none : Option ι)) := by
        rw [freeSlots_replicate]
        omega
      have hleft := freeSlots_fillSlot (x := x) hfree
      rw [hfull, freeSlots_replicate] at hleft
      omega

/-- Sectors with at most one free slot each hold at least `w - 1` items each. -/
lemma length_mul_le_items (hsized : OfWidth w sectors) (hfree : ∀ s ∈ sectors, freeSlots s ≤ 1) :
    sectors.length * (w - 1) ≤ (allItems sectors).length := by
  induction sectors with
  | nil => simp
  | cons s sectors ih =>
    have hs := items_add_free s
    have hlength := hsized s mem_cons_self
    have hone := hfree s mem_cons_self
    have hrest := ih (fun t ht => hsized t (mem_cons_of_mem _ ht))
      fun t ht => hfree t (mem_cons_of_mem _ ht)
    rw [allItems_cons, length_append, length_cons, Nat.add_mul]
    omega

/-- **A sector is opened only when the items need it.** -/
lemma length_placeItem_le (hsized : OfWidth w sectors) (hw : 2 ≤ w) (x : ι) :
    (placeItem owner w sectors x).length ≤
      max sectors.length ((allItems (placeItem owner w sectors x)).length ⌈/⌉ (w - 1)) := by
  have hperm : (allItems (placeItem owner w sectors x)).Perm (x :: allItems sectors) :=
    allItems_placeItem (by omega) x
  have hitems := hperm.length_eq
  rw [length_cons] at hitems
  rcases placeItem_cases owner w sectors x with ⟨before, t, after, rfl, -, heq⟩ | ⟨hfree, heq⟩
  · rw [heq]
    simp
  · have hlength : (placeItem owner w sectors x).length = sectors.length + 1 := by rw [heq]; simp
    have hmany := length_mul_le_items hsized hfree
    refine le_max_of_le_right ?_
    rw [hlength, hitems, Nat.succ_le_iff, lt_iff_not_ge,
      ceilDiv_le_iff_le_mul (by omega), Nat.mul_comm]
    omega

/-! ## A step of a chain

A step keeps some items where they are, places new ones, and drops the empty sectors at the end. -/

/-- Place the items one after another. -/
def placeItems (owner : ι → ο) (w : ℕ) (sectors : List (List (Option ι))) (xs : List ι) :
    List (List (Option ι)) :=
  xs.foldl (placeItem owner w) sectors

lemma placeItems_append_singleton (xs : List ι) (x : ι) :
    placeItems owner w sectors (xs ++ [x]) =
      placeItem owner w (placeItems owner w sectors xs) x := by
  rw [placeItems, foldl_append]
  rfl

lemma OfWidth.placeItems (h : OfWidth w sectors) (xs : List ι) :
    OfWidth w (placeItems owner w sectors xs) := by
  induction xs using List.reverseRecOn with
  | nil => exact h
  | append_singleton xs x ih =>
    rw [placeItems_append_singleton]
    exact ih.placeItem x

lemma allItems_placeItems (hw : 0 < w) (xs : List ι) :
    (allItems (placeItems owner w sectors xs)).Perm (xs ++ allItems sectors) := by
  induction xs using List.reverseRecOn with
  | nil => exact Perm.refl _
  | append_singleton xs x ih =>
    rw [placeItems_append_singleton, append_assoc]
    exact ((allItems_placeItem hw x).trans (ih.cons x)).trans perm_middle.symm

lemma slotItem_placeItems (h : slotItem sectors i j = some y) (xs : List ι) :
    slotItem (placeItems owner w sectors xs) i j = some y := by
  induction xs using List.reverseRecOn with
  | nil => exact h
  | append_singleton xs x ih =>
    rw [placeItems_append_singleton]
    exact slotItem_placeItem ih

lemma Mixing.placeItems (h : Mixing owner sectors) (hsized : OfWidth w sectors) (hw : 2 ≤ w)
    (xs : List ι) : Mixing owner (placeItems owner w sectors xs) := by
  induction xs using List.reverseRecOn with
  | nil => exact h
  | append_singleton xs x ih =>
    rw [placeItems_append_singleton]
    exact ih.placeItem (hsized.placeItems xs) hw x

lemma length_placeItems_le (hsized : OfWidth w sectors) (hw : 2 ≤ w) (xs : List ι) :
    (placeItems owner w sectors xs).length ≤
      max sectors.length ((allItems (placeItems owner w sectors xs)).length ⌈/⌉ (w - 1)) := by
  induction xs using List.reverseRecOn with
  | nil => exact le_max_left _ _
  | append_singleton xs x ih =>
    rw [placeItems_append_singleton]
    have hlast : (placeItem owner w (placeItems owner w sectors xs) x).length ≤ _ :=
      length_placeItem_le (hsized.placeItems xs) hw x
    refine hlast.trans (max_le (ih.trans (max_le_max le_rfl ?_)) (le_max_right _ _))
    have hperm : (allItems (placeItem owner w (placeItems owner w sectors xs) x)).Perm
        (x :: allItems (placeItems owner w sectors xs)) := allItems_placeItem (by omega) x
    rw [hperm.length_eq]
    exact (gc_mul_ceilDiv (by omega : 0 < w - 1)).monotone_l (Nat.le_succ _)

section Retain

variable (keep : ι → Prop) [DecidablePred keep]

/-- Keep some of the items, where they are. -/
def retainItems (sectors : List (List (Option ι))) : List (List (Option ι)) :=
  sectors.map fun s => s.map fun slot => slot.filter fun x => keep x

variable {keep}

lemma OfWidth.retainItems (h : OfWidth w sectors) : OfWidth w (retainItems keep sectors) := by
  intro s hs
  obtain ⟨t, ht, rfl⟩ := mem_map.mp hs
  rw [length_map]
  exact h t ht

lemma reduceOption_retain (s : List (Option ι)) :
    (s.map fun slot => slot.filter fun x => keep x).reduceOption =
      s.reduceOption.filter fun x => keep x := by
  induction s with
  | nil => rfl
  | cons a s ih =>
    cases a with
    | none => simpa using ih
    | some x =>
      by_cases hx : keep x
      · simp [filter_some, hx, ih]
      · simp [filter_some, hx, ih]

lemma allItems_retainItems :
    allItems (retainItems keep sectors) = (allItems sectors).filter fun x => keep x := by
  induction sectors with
  | nil => rfl
  | cons s sectors ih =>
    rw [retainItems, map_cons, allItems_cons, allItems_cons, reduceOption_retain,
      filter_append, ← ih]
    rfl

lemma slotItem_retainItems :
    slotItem (retainItems keep sectors) i j = (slotItem sectors i j).filter fun x => keep x := by
  simp only [slotItem, retainItems, getElem?_map]
  cases sectors[i]? with
  | none => rfl
  | some s =>
    simp only [map_some, bind_some, getElem?_map]
    cases s[j]? <;> rfl

/-- A sector that is full afterwards has lost nothing. -/
lemma Mixing.retainItems (h : Mixing owner sectors) : Mixing owner (retainItems keep sectors) := by
  intro s hs hfull
  obtain ⟨t, ht, rfl⟩ := mem_map.mp hs
  have hsame : (t.map fun slot => slot.filter fun x => keep x) = t := by
    rw [freeSlots, countP_eq_zero] at hfull
    refine (map_congr_left ?_).trans (map_id t)
    intro slot hslot
    have hkept := hfull _ (mem_map_of_mem hslot)
    cases slot with
    | none => simp at hkept
    | some x =>
      by_cases hx : keep x
      · simp [Option.filter, hx]
      · simp [Option.filter, hx] at hkept
  rw [hsame] at hfull ⊢
  exact h t ht hfull

end Retain

/-- The slots up to the last that holds an item. -/
def usedSlots (sectors : List (List (Option ι))) : List (Option ι) :=
  sectors.flatten.rdropWhile Option.isNone

/-- Drop the empty sectors at the end. -/
def trimSectors (sectors : List (List (Option ι))) : List (List (Option ι)) :=
  sectors.rdropWhile fun s => s.all Option.isNone

lemma trimSectors_append_singleton (s : List (Option ι)) :
    trimSectors (sectors ++ [s]) =
      if s.all Option.isNone then trimSectors sectors else sectors ++ [s] := by
  rw [trimSectors, rdropWhile_concat]
  rfl

lemma usedSlots_append_singleton (s : List (Option ι)) : usedSlots (sectors ++ [s]) =
    if s.all Option.isNone then usedSlots sectors
    else sectors.flatten ++ s.rdropWhile Option.isNone := by
  rw [usedSlots, flatten_append, flatten_singleton]
  induction s using List.reverseRecOn with
  | nil => simp [usedSlots]
  | append_singleton s a ih =>
    cases a with
    | none =>
      rw [← append_assoc, rdropWhile_concat_pos _ _ _ rfl, ih, rdropWhile_concat_pos _ _ _ rfl]
      simp
    | some x =>
      rw [← append_assoc, rdropWhile_concat_neg _ _ _ (by simp),
        rdropWhile_concat_neg _ _ _ (by simp)]
      simp

lemma usedSlots_trimSectors : usedSlots (trimSectors sectors) = usedSlots sectors := by
  induction sectors using List.reverseRecOn with
  | nil => rfl
  | append_singleton sectors s ih =>
    rw [trimSectors_append_singleton]
    split
    case isTrue hempty => rw [ih, usedSlots_append_singleton, if_pos hempty]
    case isFalse => rfl

lemma rdropWhile_isNone_pad (s : List (Option ι)) : s.rdropWhile Option.isNone ++
    replicate (s.length - (s.rdropWhile Option.isNone).length) none = s := by
  induction s using List.reverseRecOn with
  | nil => rfl
  | append_singleton s a ih =>
    cases a with
    | none =>
      have hpre : s.rdropWhile Option.isNone <+: s := rdropWhile_prefix _ _
      have hle := hpre.length_le
      have hsucc : (s ++ [none]).length - (s.rdropWhile Option.isNone).length =
          s.length - (s.rdropWhile Option.isNone).length + 1 := by
        rw [length_append, length_singleton]
        omega
      rw [rdropWhile_concat_pos _ _ _ rfl, hsucc, replicate_succ', ← append_assoc, ih]
    | some x =>
      rw [rdropWhile_concat_neg _ _ _ (by simp), Nat.sub_self]
      exact append_nil _

/-- The used slots, filled up to a whole sector, are the sectors without the empty ones at the
end. -/
lemma OfWidth.pad_usedSlots (h : OfWidth w sectors) (hw : 0 < w) :
    (usedSlots sectors).length ⌈/⌉ w = (trimSectors sectors).length ∧
      usedSlots sectors ++ replicate
        ((trimSectors sectors).length * w - (usedSlots sectors).length) none =
        (trimSectors sectors).flatten := by
  induction sectors using List.reverseRecOn with
  | nil => simp [usedSlots, trimSectors]
  | append_singleton sectors s ih =>
    have hrest : OfWidth w sectors := fun t ht => h t (mem_append_left _ ht)
    have hs : s.length = w := h s (by simp)
    rw [trimSectors_append_singleton, usedSlots_append_singleton]
    split
    case isTrue => exact ih hrest
    case isFalse hused =>
      have hne : s.rdropWhile Option.isNone ≠ [] := by
        rw [Ne, rdropWhile_eq_nil_iff]
        intro hall
        exact hused (all_eq_true.mpr hall)
      have hpos := length_pos_of_ne_nil hne
      have hpre : s.rdropWhile Option.isNone <+: s := rdropWhile_prefix _ _
      have hle : (s.rdropWhile Option.isNone).length ≤ w := hs ▸ hpre.length_le
      rw [length_append, length_append, length_singleton, hrest.length_flatten]
      constructor
      · refine le_antisymm ?_ ?_
        · rw [ceilDiv_le_iff_le_mul hw, Nat.mul_add, Nat.mul_comm]
          omega
        · rw [Nat.succ_le_iff, lt_iff_not_ge, ceilDiv_le_iff_le_mul hw, Nat.mul_comm]
          omega
      · have hpad : (sectors.length + 1) * w -
            (sectors.length * w + (s.rdropWhile Option.isNone).length) =
            s.length - (s.rdropWhile Option.isNone).length := by
          rw [Nat.add_mul, hs]
          omega
        rw [hpad, append_assoc, rdropWhile_isNone_pad, flatten_append, flatten_singleton]

lemma trimSectors_isPrefix : trimSectors sectors <+: sectors := rdropWhile_prefix _ _

lemma OfWidth.trimSectors (h : OfWidth w sectors) : OfWidth w (trimSectors sectors) :=
  fun s hs => h s (trimSectors_isPrefix.subset hs)

lemma Mixing.trimSectors (h : Mixing owner sectors) : Mixing owner (trimSectors sectors) :=
  fun s hs => h s (trimSectors_isPrefix.subset hs)

lemma reduceOption_of_all_isNone (h : s.all Option.isNone) : s.reduceOption = [] := by
  induction s with
  | nil => rfl
  | cons a s ih =>
    cases a with
    | none => exact ih (by simpa using h)
    | some x => simp at h

lemma allItems_trimSectors : allItems (trimSectors sectors) = allItems sectors := by
  induction sectors using List.reverseRecOn with
  | nil => rfl
  | append_singleton sectors s ih =>
    rw [trimSectors_append_singleton]
    split
    case isTrue hempty =>
      rw [ih, allItems_append, allItems_cons, reduceOption_of_all_isNone hempty]
      simp [allItems]
    case isFalse => rfl

lemma slotItem_trimSectors : slotItem (trimSectors sectors) i j = slotItem sectors i j := by
  induction sectors using List.reverseRecOn with
  | nil => rfl
  | append_singleton sectors s ih =>
    rw [trimSectors_append_singleton]
    split
    case isFalse => rfl
    case isTrue hempty =>
      rw [ih]
      rcases Nat.lt_or_ge i sectors.length with hi | hi
      · rw [slotItem, slotItem, getElem?_append_left hi]
      · -- the slot is in the dropped sector or beyond
        have hout : slotItem sectors i j = none := by
          rw [slotItem, getElem?_eq_none hi]
          rfl
        rw [hout, slotItem, getElem?_append_right hi]
        cases hget : [s][i - sectors.length]? with
        | none => rfl
        | some t =>
          obtain rfl : t = s := mem_singleton.mp (mem_of_getElem? hget)
          rw [bind_some]
          cases hslot : t[j]? with
          | none => rfl
          | some slot =>
            have hnone := all_eq_true.mp hempty slot (mem_of_getElem? hslot)
            rw [isNone_iff_eq_none.mp hnone]
            rfl

end Framework
