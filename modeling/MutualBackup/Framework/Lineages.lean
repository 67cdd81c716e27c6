import Mathlib.Data.List.AList
import Mathlib.Data.List.Chain
import MutualBackup.Framework.ReplicatedLog

/-!
# Lineages

Records of several groups are kept in one vector, and the records of a group form a chain: the
first of them may start the group, and each of the others follows the one before it.  `lineage` is
the part of a vector that belongs to a group, `Chained` says that a list is such a chain, and
`Lineages` says it of every group.  A pass checks it with a memory of the last record of every group
(`lineages_append_singleton`).

Retention cuts a chain from the front: `newest k` keeps its last `k` records, and `lastRetired k` is
the last of the others, which the first one kept follows (`Chained.newest`).
-/

namespace Framework

open List

variable {α γ : Type}

/-! ## Chains -/

section Chains

variable (starts : α → Prop) (follows : α → α → Prop)

/-- The element may come after the last one. -/
def LinksTo (last : Option α) (x : α) : Prop :=
  match last with
  | none => starts x
  | some y => follows y x

/-- The first element may start, and each of the others follows the one before it. -/
def Chained (xs : List α) : Prop := (∀ x ∈ xs.head?, starts x) ∧ xs.IsChain follows

variable {starts follows} {xs ys : List α} {x y : α}

lemma chained_nil : Chained starts follows [] := ⟨by simp, isChain_nil⟩

lemma chained_append_singleton : Chained starts follows (xs ++ [x]) ↔
    Chained starts follows xs ∧ LinksTo starts follows xs.getLast? x := by
  cases xs using List.reverseRecOn with
  | nil => simp [Chained, LinksTo]
  | append_singleton xs y =>
    have hhead : (xs ++ [y] ++ [x]).head? = (xs ++ [y]).head? := by cases xs <;> rfl
    rw [Chained, Chained, hhead, isChain_append, getLast?_concat, LinksTo]
    simp [and_assoc]

/-- The rest of a chain follows what stands before it. -/
lemma Chained.rest (h : Chained starts follows (xs ++ y :: ys)) :
    Chained (follows y) follows ys := by
  have hchain : (y :: ys).IsChain follows := (isChain_append.mp h.2).2.1
  cases ys with
  | nil => exact chained_nil
  | cons z zs =>
    obtain ⟨hfirst, hrest⟩ := isChain_cons_cons.mp hchain
    exact ⟨by simpa using hfirst, hrest⟩

/-- Only the first element has to start. -/
lemma Chained.imp_start {starts' : α → Prop} (h : Chained starts follows xs)
    (himp : ∀ x ∈ xs.head?, starts x → starts' x) : Chained starts' follows xs :=
  ⟨fun x hx => himp x hx (h.1 x hx), h.2⟩

end Chains

/-! ## The newest elements -/

variable {κ : Type} {key : α → κ}

section Newest

variable {k : ℕ} {xs : List α} {x : α}

/-- The last `k` elements, or all of them when there are fewer. -/
def newest (k : ℕ) (xs : List α) : List α := xs.drop (xs.length - k)

/-- The last element that is not among the newest. -/
def lastRetired (k : ℕ) (xs : List α) : Option α :=
  if xs.length ≤ k then none else xs[xs.length - k - 1]?

lemma length_newest : (newest k xs).length = min xs.length k := by
  rw [newest, length_drop]
  omega

lemma lastRetired_eq_none : lastRetired k xs = none ↔ xs.length ≤ k := by
  rw [lastRetired]
  split
  case isTrue h => exact iff_of_true rfl h
  case isFalse h =>
    refine iff_of_false ?_ h
    rw [List.getElem?_eq_none_iff]
    omega

lemma newest_of_none (h : lastRetired k xs = none) : newest k xs = xs := by
  rw [newest, Nat.sub_eq_zero_of_le (lastRetired_eq_none.mp h), drop_zero]

/-- The last element is among the newest. -/
lemma getLast?_newest (hk : k ≠ 0) : (newest k xs).getLast? = xs.getLast? := by
  rw [newest, getLast?_drop]
  split
  case isTrue h =>
    have hnil : xs = [] := length_eq_zero_iff.mp (by omega)
    rw [hnil, getLast?_nil]
  case isFalse => rfl

variable (h : lastRetired k xs = some x)

include h

/-- Retention cuts a vector before its newest elements. -/
lemma exists_retired : ∃ before, xs = before ++ x :: newest k xs := by
  rw [lastRetired] at h
  split at h
  case isTrue => cases h
  case isFalse hlong =>
    obtain ⟨hlt, hx⟩ := List.getElem?_eq_some_iff.mp h
    have hdrop := drop_eq_getElem_cons hlt
    rw [hx, show xs.length - k - 1 + 1 = xs.length - k by omega] at hdrop
    refine ⟨xs.take (xs.length - k - 1), ?_⟩
    rw [newest, ← hdrop, take_append_drop]

lemma mem_of_lastRetired : x ∈ xs := by
  obtain ⟨before, hbefore⟩ := exists_retired h
  rw [hbefore]
  simp

/-- What is retired comes before the last element. -/
lemma lastRetired_mem_dropLast (hk : k ≠ 0) : x ∈ xs.dropLast := by
  rw [lastRetired] at h
  split at h
  case isTrue => cases h
  case isFalse hlong =>
    have hget : xs.dropLast[xs.length - k - 1]? = some x := by
      rw [getElem?_dropLast, if_pos (by omega), h]
    exact mem_of_getElem? hget

/-- In an ascending vector the newest elements are those above the last retired one. -/
lemma Ascending.filter_eq_newest [LinearOrder κ] (hxs : Ascending key xs) :
    (xs.filter fun y => key x < key y) = newest k xs := by
  obtain ⟨before, hsplit⟩ := exists_retired h
  rw [Ascending, hsplit, pairwise_append] at hxs
  obtain ⟨-, hafter, hbefore⟩ := hxs
  have hnone : before.filter (fun y => key x < key y) = [] := by
    refine filter_eq_nil_iff.mpr fun y hy => ?_
    simpa using (hbefore y hy x mem_cons_self).le
  have hall : (newest k xs).filter (fun y => key x < key y) = newest k xs := by
    refine filter_eq_self.mpr fun y hy => ?_
    simpa using (pairwise_cons.mp hafter).1 y hy
  calc xs.filter (fun y => key x < key y)
      = (before ++ x :: newest k xs).filter fun y => key x < key y := by rw [← hsplit]
    _ = newest k xs := by
        rw [filter_append, hnone, nil_append, filter_cons_of_neg (by simp), hall]

/-- **The newest elements of a chain follow the last retired one.** -/
lemma Chained.newest {starts : α → Prop} {follows : α → α → Prop} (hxs : Chained starts follows xs)
    : Chained (follows x) follows (newest k xs) := by
  obtain ⟨before, hsplit⟩ := exists_retired h
  rw [hsplit] at hxs
  exact hxs.rest

end Newest

/-! ## Groups -/

section Groups

variable [DecidableEq γ] (group : α → γ)

/-- The elements of a group, in the order of the vector. -/
def lineage (g : γ) (xs : List α) : List α := xs.filter fun x => group x = g

variable {group} {xs : List α} {x : α} {g : γ}

@[simp] lemma mem_lineage : x ∈ lineage group g xs ↔ x ∈ xs ∧ group x = g := by
  simp [lineage]

lemma group_of_getLast? (h : x ∈ (lineage group g xs).getLast?) : group x = g :=
  (mem_lineage.mp (mem_of_getLast? h)).2

lemma lineage_append_self :
    lineage group (group x) (xs ++ [x]) = lineage group (group x) xs ++ [x] := by
  simp [lineage, filter_append]

lemma lineage_append_ne (h : group x ≠ g) : lineage group g (xs ++ [x]) = lineage group g xs := by
  simp [lineage, filter_append, h]

lemma Ascending.lineage [LinearOrder κ] (h : Ascending key xs) (g : γ) :
    Ascending key (lineage group g xs) := h.filter _

/-- Sorting in a record that comes after its group puts it at the end of the group. -/
lemma lineage_sortByKey [LinearOrder κ] (h : Ascending key xs) (hnew : ∀ y ∈ xs, key y ≠ key x)
    (hlast : ∀ last ∈ (Framework.lineage group (group x) xs).getLast?, key last < key x) :
    Ascending key (sortByKey key (xs ++ [x])) ∧
      ∀ g, Framework.lineage group g (sortByKey key (xs ++ [x])) =
        Framework.lineage group g (xs ++ [x]) := by
  have hsorted : Ascending key (sortByKey key (xs ++ [x])) := by
    refine ascending_sortByKey ?_
    rw [map_append, map_singleton, nodup_append]
    refine ⟨h.nodup_map, nodup_singleton _, fun k hk k' hk' => ?_⟩
    obtain ⟨y, hy, rfl⟩ := mem_map.mp hk
    rw [mem_singleton.mp hk']
    exact hnew y hy
  refine ⟨hsorted, fun g => (hsorted.lineage g).eq_of_mem_iff ?_ fun y => by simp⟩
  by_cases hg : group x = g
  · subst hg
    rw [lineage_append_self, ascending_append_singleton]
    exact ⟨h.lineage _, hlast⟩
  · rw [lineage_append_ne hg]
    exact h.lineage g

variable (group) (starts : α → Prop) (follows : α → α → Prop)

/-- Every group is a chain. -/
def Lineages (xs : List α) : Prop := ∀ g, Chained starts follows (lineage group g xs)

variable {group starts follows}

lemma lineages_nil : Lineages group starts follows [] := fun _ => chained_nil

/-- The step of a pass that remembers the last element of every group. -/
lemma lineages_append_singleton : Lineages group starts follows (xs ++ [x]) ↔
    Lineages group starts follows xs ∧
      LinksTo starts follows (lineage group (group x) xs).getLast? x := by
  constructor
  · intro h
    have hx := h (group x)
    rw [lineage_append_self, chained_append_singleton] at hx
    refine ⟨fun g => ?_, hx.2⟩
    by_cases hg : group x = g
    · rw [← hg]
      exact hx.1
    · have := h g
      rwa [lineage_append_ne hg] at this
  · rintro ⟨h, hx⟩ g
    by_cases hg : group x = g
    · subst hg
      rw [lineage_append_self, chained_append_singleton]
      exact ⟨h _, hx⟩
    · rw [lineage_append_ne hg]
      exact h g

/-- A map that every element enters under its group holds the last one of every group. -/
lemma lookup_foldl_lineage {υ : Type} (value : α → υ) (xs : List α) (g : γ) :
    (xs.foldl (fun m x => m.insert (group x) (value x)) (∅ : AList fun _ : γ => υ)).lookup g =
      (lineage group g xs).getLast?.map value := by
  induction xs using List.reverseRecOn with
  | nil => rfl
  | append_singleton xs x ih =>
    rw [foldl_append]
    by_cases hg : group x = g
    · subst hg
      rw [lineage_append_self, getLast?_concat]
      exact AList.lookup_insert _
    · rw [lineage_append_ne hg, ← ih]
      exact AList.lookup_insert_ne (Ne.symm hg)

end Groups

end Framework
