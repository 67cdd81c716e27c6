import Mathlib.Data.List.AList
import Mathlib.Data.List.Induction
import MutualBackup.Framework.ReplicatedLog

/-!
# Maps and sets filled by a pass

A pass over a vector enters a pair at every element, and refuses an element that would change what
an earlier one entered.  Such a map is the vector seen as a function: it answers a key with a value
exactly when some element entered the pair (`Keeps`).  A pass that collects something at every
element, and refuses a key that it has met, accepts the vectors whose keys differ
(`collect_eq_ok`).
-/

namespace Framework

open List

variable {κ υ : Type} [DecidableEq κ]

/-- The map answers with the pairs that were entered and with no others, so pairs of one key are
equal. -/
def Keeps (m : AList fun _ : κ => υ) (entered : List (κ × υ)) : Prop :=
  ∀ k v, m.lookup k = some v ↔ (k, v) ∈ entered

variable {m : AList fun _ : κ => υ} {entered : List (κ × υ)} {k : κ} {v : υ}

lemma keeps_empty : Keeps (∅ : AList fun _ : κ => υ) [] := by
  intro k v
  simp

lemma Keeps.mem_iff (h : Keeps m entered) : k ∈ m ↔ ∃ v, (k, v) ∈ entered := by
  rw [← AList.lookup_isSome, Option.isSome_iff_exists]
  exact exists_congr fun v => h k v

/-- A pair that agrees with what its key has may be entered again. -/
lemma Keeps.insert (h : Keeps m entered) (hsame : ∀ v' ∈ m.lookup k, v' = v) :
    Keeps (m.insert k v) (entered ++ [(k, v)]) := by
  intro k' w
  by_cases hk : k' = k
  · subst hk
    rw [AList.lookup_insert, mem_append, mem_singleton, ← h]
    constructor
    · intro hw
      rw [Option.some.inj hw]
      exact .inr rfl
    · rintro (hw | hw)
      · rw [hsame w hw]
      · rw [(Prod.mk.inj hw).2]
  · rw [AList.lookup_insert_ne hk, mem_append, mem_singleton, h]
    refine (or_iff_left ?_).symm
    intro hw
    exact hk (Prod.mk.inj hw).1

/-- The same when a key that is there is left alone. -/
lemma Keeps.insertNew (h : Keeps m entered) (hsame : ∀ v' ∈ m.lookup k, v' = v) :
    Keeps (if k ∈ m then m else m.insert k v) (entered ++ [(k, v)]) := by
  split
  case isFalse => exact h.insert hsame
  case isTrue hk =>
    obtain ⟨w, hw⟩ := h.mem_iff.mp hk
    have hwv : w = v := hsame w ((h k w).mpr hw)
    subst hwv
    intro k' w'
    rw [h, mem_append, mem_singleton]
    refine (or_iff_left_of_imp ?_).symm
    rintro ⟨⟩
    exact hw

/-- A vector whose keys differ is kept as it is. -/
lemma keeps_foldl_insert {α : Type} (pair : α → κ × υ) {xs : List α}
    (hnodup : (xs.map fun x => (pair x).1).Nodup) :
    Keeps (xs.foldl (fun m x => m.insert (pair x).1 (pair x).2) ∅) (xs.map pair) := by
  induction xs using List.reverseRecOn with
  | nil => exact keeps_empty
  | append_singleton xs x ih =>
    rw [map_append, nodup_append] at hnodup
    obtain ⟨hxs, -, hdisjoint⟩ := hnodup
    rw [foldl_append, map_append]
    refine (ih hxs).insert ?_
    intro v' hv'
    obtain ⟨y, hy, hpair⟩ := mem_map.mp ((ih hxs _ _).mp hv')
    exact absurd (congrArg Prod.fst hpair)
      (hdisjoint _ (mem_map_of_mem hy) _ (by simp))

omit [DecidableEq κ] in
/-- A loop that collects an entry of every element and refuses a key it has collected. -/
lemma collect_eq_ok {α β ε : Type} {body : List β → α → Outcome ε (List β)} {entry : α → β}
    {key : β → κ} {Good : α → Prop}
    (hbody : ∀ seen a seen', body seen a = .ok seen' ↔
      Good a ∧ key (entry a) ∉ seen.map key ∧ seen' = entry a :: seen)
    {seen seen' : List β} {as : List α} : replay body seen as = .ok seen' ↔
      (∀ a ∈ as, Good a) ∧ (as.map fun a => key (entry a)).Nodup ∧
        (∀ a ∈ as, key (entry a) ∉ seen.map key) ∧ seen' = (as.map entry).reverse ++ seen := by
  induction as generalizing seen with
  | nil =>
    rw [replay_nil, eq_comm]
    simp
  | cons a as ih =>
    simp only [replay_cons, hbody, ih, map_cons, nodup_cons, forall_mem_cons,
      reverse_cons, append_assoc, singleton_append]
    constructor
    · rintro ⟨m, ⟨hgood, hnew, rfl⟩, hrest, hnodup, hfresh, rfl⟩
      simp only [map_cons, mem_cons, not_or] at hfresh
      refine ⟨⟨hgood, hrest⟩, ⟨?_, hnodup⟩, ⟨hnew, fun b hb => (hfresh b hb).2⟩, rfl⟩
      rintro hmem
      obtain ⟨b, hb, hkey⟩ := mem_map.mp hmem
      exact (hfresh b hb).1 hkey
    · rintro ⟨⟨hgood, hrest⟩, ⟨hdistinct, hnodup⟩, ⟨hnew, hfresh⟩, rfl⟩
      refine ⟨_, ⟨hgood, hnew, rfl⟩, hrest, hnodup, fun b hb => ?_, rfl⟩
      simp only [map_cons, mem_cons, not_or]
      refine ⟨fun hkey => hdistinct ?_, hfresh b hb⟩
      exact mem_map.mpr ⟨b, hb, hkey⟩

end Framework
