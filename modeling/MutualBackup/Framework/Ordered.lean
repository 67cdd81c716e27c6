import Mathlib.Data.List.Sort
import Mathlib.Order.MinMax
import MutualBackup.Framework.Outcome

/-!
# Vectors kept in key order

Records that must be canonical are kept as vectors with strictly increasing keys: a validator
walks the vector with the key of the element before (`scanFrom`), and the operations look an
element up by key, insert one at its place, change or remove the one they found.

`Ascending` is the order the walk establishes.  Since it makes keys unique, every lookup is
membership (`Ascending.find?_eq_some`), an in-place change of the first match is a pointwise one
(`modifyFirst_eq_map`), and the operations are specified by the elements of their result
(`mem_orderedInsert`, `mem_modifyFirst`, `mem_eraseP`), so that nothing above this module looks at
positions.
-/

namespace Framework

open List

variable {α κ ε : Type}

/-! ## The order -/

variable {y : α}

section Order

variable [LinearOrder κ] {key : α → κ} {xs : List α}

/-- Strictly increasing keys. -/
def Ascending (key : α → κ) (xs : List α) : Prop := xs.Pairwise fun x y => key x < key y
  deriving Decidable

variable {x : α}

lemma ascending_cons : Ascending key (x :: xs) ↔ (∀ y ∈ xs, key x < key y) ∧ Ascending key xs :=
  pairwise_cons

/-- The last key of an ascending vector is its greatest. -/
lemma Ascending.le_getLast {last : α} (h : Ascending key xs) (hlast : last ∈ xs.getLast?)
    (hx : x ∈ xs) : key x ≤ key last := by
  obtain ⟨init, rfl⟩ := getLast?_eq_some_iff.mp hlast
  rcases mem_append.mp hx with hinit | hend
  · exact ((pairwise_append.mp h).2.2 x hinit last (mem_singleton_self _)).le
  · rw [mem_singleton.mp hend]

/-- One more element is compared with the last one only. -/
lemma ascending_append_singleton : Ascending key (xs ++ [x]) ↔
    Ascending key xs ∧ ∀ last ∈ xs.getLast?, key last < key x := by
  rw [Ascending, pairwise_append]
  constructor
  · rintro ⟨h, -, hlater⟩
    exact ⟨h, fun last hlast => hlater last (mem_of_getLast? hlast) x
      (mem_singleton_self x)⟩
  · rintro ⟨h, hlater⟩
    refine ⟨h, pairwise_singleton _ _, fun y hy z hz => ?_⟩
    rw [mem_singleton.mp hz]
    have hlast := getLast?_eq_some_getLast (ne_nil_of_mem hy)
    exact lt_of_le_of_lt (Ascending.le_getLast h hlast hy) (hlater _ hlast)

section

variable (h : Ascending key xs)

include h

lemma Ascending.filter (p : α → Bool) : Ascending key (xs.filter p) :=
  Pairwise.filter p h

lemma Ascending.nodup_map : (xs.map key).Nodup :=
  pairwise_map.mpr (h.imp fun hlt => ne_of_lt hlt)

/-- In an ascending vector the key identifies the element. -/
lemma Ascending.eq_of_key (hx : x ∈ xs) (hy : y ∈ xs) (hk : key x = key y) : x = y :=
  inj_on_of_nodup_map h.nodup_map hx hy hk

end

/-- Two ascending vectors with the same elements are the same vector. -/
lemma Ascending.eq_of_mem_iff {ys : List α} (hx : Ascending key xs) (hy : Ascending key ys)
    (h : ∀ a, a ∈ xs ↔ a ∈ ys) : xs = ys := by
  have hperm : xs.Perm ys := (perm_ext_iff_of_nodup (Nodup.of_map key hx.nodup_map)
      (Nodup.of_map key hy.nodup_map)).mpr h
  refine hperm.eq_of_pairwise (fun a b _ _ hab hba => ?_) hx hy
  exact absurd hab (not_lt.mpr hba.le)

end Order

/-! ## The walk -/

section Walk

/-- A loop whose body sees the key of the element before. -/
def scanFrom (key : α → κ) (body : Option κ → α → Outcome ε Unit) :
    Option κ → List α → Outcome ε Unit
  | _, [] => .ok ()
  | previous, x :: xs => body previous x >>= fun _ => scanFrom key body (some (key x)) xs

variable {body : Option κ → α → Outcome ε Unit} {key : α → κ}

lemma noOverflow_scanFrom (hbody : ∀ previous x, NoOverflow (body previous x)) (previous : Option κ)
    (xs : List α) : NoOverflow (scanFrom key body previous xs) := by
  induction xs generalizing previous with
  | nil => exact noOverflow_ok ()
  | cons x xs ih => exact noOverflow_bind (hbody previous x) fun _ _ => ih _

variable [LinearOrder κ]

variable {Good : α → Prop}
  (hbody : ∀ previous x, body previous x = .ok () ↔ (∀ p ∈ previous, p < key x) ∧ Good x)
  {xs : List α}

include hbody

/-- A walk whose body compares the key with the one before, and otherwise looks only at the
element, succeeds exactly on ascending vectors of good elements. -/
lemma scanFrom_eq_ok {previous : Option κ} :
    scanFrom key body previous xs = .ok () ↔
      (∀ p ∈ previous, ∀ x ∈ xs, p < key x) ∧ Ascending key xs ∧ ∀ x ∈ xs, Good x := by
  induction xs generalizing previous with
  | nil => simp [scanFrom, Ascending]
  | cons x xs ih =>
    have hcons : scanFrom key body previous (x :: xs) = .ok () ↔
        body previous x = .ok () ∧ scanFrom key body (some (key x)) xs = .ok () := by
      rw [scanFrom, bind_eq_ok]
      exact ⟨fun ⟨_, hx, hs⟩ => ⟨hx, hs⟩, fun ⟨hx, hs⟩ => ⟨(), hx, hs⟩⟩
    rw [hcons, hbody, ih, ascending_cons]
    simp only [Option.mem_def, Option.some.injEq, forall_eq', mem_cons, forall_eq_or_imp]
    constructor
    · rintro ⟨⟨hp, hg⟩, hlt, hasc, hgood⟩
      exact ⟨fun p hprev => ⟨hp p hprev, fun y hy => (hp p hprev).trans (hlt y hy)⟩,
        ⟨hlt, hasc⟩, hg, hgood⟩
    · rintro ⟨hp, ⟨hlt, hasc⟩, hg, hgood⟩
      exact ⟨⟨fun p hprev => (hp p hprev).1, hg⟩, hlt, hasc, hgood⟩

/-- From the start of the vector there is no key to compare with. -/
lemma scanFrom_none_eq_ok :
    scanFrom key body none xs = .ok () ↔ Ascending key xs ∧ ∀ x ∈ xs, Good x := by
  rw [scanFrom_eq_ok hbody]
  simp

end Walk

/-! ## Lookup -/

variable {k : κ}

section Lookup

variable [LinearOrder κ] {key : α → κ} {xs : List α} {p : α → Bool}

variable {x : α}

/-- With at most one match, the first match is the match. -/
lemma find?_eq_some_of_unique (hu : ∀ x ∈ xs, ∀ y ∈ xs, p x → p y → x = y) :
    xs.find? p = some x ↔ x ∈ xs ∧ p x := by
  constructor
  · intro h
    exact ⟨mem_of_find?_eq_some h, find?_some h⟩
  · rintro ⟨hx, hp⟩
    cases hfind : xs.find? p with
    | none =>
      rw [find?_eq_none] at hfind
      exact absurd hp (hfind x hx)
    | some y =>
      rw [hu x hx y (mem_of_find?_eq_some hfind) hp (find?_some hfind)]

/-- Looking an ascending vector up by key is membership. -/
lemma Ascending.find?_eq_some (h : Ascending key xs) :
    xs.find? (fun y => key y = k) = some x ↔ x ∈ xs ∧ key x = k := by
  rw [find?_eq_some_of_unique]
  · simp
  · intro x hx y hy hkx hky
    exact h.eq_of_key hx hy (by rw [of_decide_eq_true hkx, of_decide_eq_true hky])

/-- The first element with a property is the one of the least key. -/
lemma Ascending.find?_of_least (h : Ascending key xs) (hx : x ∈ xs) (hp : p x)
    (hleast : ∀ y ∈ xs, p y → key x ≤ key y) : xs.find? p = some x := by
  cases hfind : xs.find? p with
  | none => exact absurd hp (find?_eq_none.mp hfind x hx)
  | some y =>
    obtain ⟨hpy, before, after, rfl, hbefore⟩ := find?_eq_some_iff_append.mp hfind
    rcases mem_append.mp hx with hx | hx
    · have := hbefore x hx
      simp [hp] at this
    · rcases mem_cons.mp hx with rfl | hx
      · rfl
      · have hlater : key y < key x := (ascending_cons.mp (pairwise_append.mp h).2.1).1 x hx
        have hle := hleast y (mem_append_right _ mem_cons_self) hpy
        exact absurd hlater (not_lt.mpr hle)

end Lookup

/-! ## Insertion -/

section Insert

variable [LinearOrder κ] {key : α → κ} {xs : List α} {x : α}

/-- Insert before the first element whose key is not smaller. -/
def insertByKey (key : α → κ) (x : α) (xs : List α) : List α :=
  xs.orderedInsert (fun a b => key a ≤ key b) x

@[simp] lemma mem_insertByKey : y ∈ insertByKey key x xs ↔ y = x ∨ y ∈ xs := by
  rw [insertByKey, mem_orderedInsert]

/-- Inserting a new key keeps the order. -/
lemma Ascending.insertByKey (h : Ascending key xs) (hnew : ∀ y ∈ xs, key y ≠ key x) :
    Ascending key (insertByKey key x xs) := by
  induction xs with
  | nil => simp [Framework.insertByKey, Ascending]
  | cons y ys ih =>
    obtain ⟨hlt, hasc⟩ := ascending_cons.mp h
    rw [Framework.insertByKey, List.orderedInsert]
    split
    · rename_i hle
      have hxy : key x < key y := lt_of_le_of_ne hle (hnew y mem_cons_self).symm
      refine ascending_cons.mpr ⟨fun z hz => ?_, h⟩
      rcases mem_cons.mp hz with rfl | hz
      · exact hxy
      · exact hxy.trans (hlt z hz)
    · rename_i hle
      refine ascending_cons.mpr ⟨fun z hz => ?_, ih hasc fun z hz => hnew z (by simp [hz])⟩
      rcases mem_insertByKey.mp hz with rfl | hz
      · exact not_le.mp hle
      · exact hlt z hz

/-- `sort_by_key`, which is stable. -/
def sortByKey (key : α → κ) (xs : List α) : List α := xs.insertionSort fun a b => key a ≤ key b

lemma perm_sortByKey (key : α → κ) (xs : List α) : (sortByKey key xs).Perm xs :=
  perm_insertionSort _ _

@[simp] lemma mem_sortByKey : x ∈ sortByKey key xs ↔ x ∈ xs := (perm_sortByKey key xs).mem_iff

/-- Sorting distinct keys. -/
lemma ascending_sortByKey (h : (xs.map key).Nodup) : Ascending key (sortByKey key xs) := by
  have : Std.Total fun a b : α => key a ≤ key b := ⟨fun a b => le_total (key a) (key b)⟩
  have : IsTrans α fun a b => key a ≤ key b := ⟨fun _ _ _ => le_trans⟩
  have hle : (sortByKey key xs).Pairwise fun a b => key a ≤ key b := pairwise_insertionSort _ _
  have hne : (sortByKey key xs).Pairwise fun a b => key a ≠ key b :=
    pairwise_map.mp (((perm_sortByKey key xs).map key).nodup_iff.mpr h)
  exact (hle.and hne).imp fun h => lt_of_le_of_ne h.1 h.2

/-- What is sorted already is found again by sorting. -/
lemma Ascending.sortByKey_eq {ys : List α} (h : Ascending key ys) (hperm : xs.Perm ys) :
    sortByKey key xs = ys := by
  have hnodup := ((hperm.map key).nodup_iff).mpr h.nodup_map
  refine (ascending_sortByKey hnodup).eq_of_mem_iff h fun x => ?_
  rw [mem_sortByKey, hperm.mem_iff]

end Insert

/-! ## Changing and removing the first match -/

section Modify

variable {f : α → α} {p : α → Bool} {xs : List α}

/-- Change the first element that satisfies `p`. -/
def modifyFirst (p : α → Bool) (f : α → α) : List α → List α
  | [] => []
  | x :: xs => if p x then f x :: xs else x :: modifyFirst p f xs

/-- With at most one match, changing the first match is changing every match. -/
lemma modifyFirst_eq_map (hu : xs.Pairwise fun x y => p x → ¬ p y) :
    modifyFirst p f xs = xs.map fun x => if p x then f x else x := by
  induction xs with
  | nil => rfl
  | cons x xs ih =>
    obtain ⟨hx, hxs⟩ := pairwise_cons.mp hu
    rw [modifyFirst, map_cons]
    split
    · rename_i hp
      have hrest : (xs.map fun y => if p y then f y else y) = xs := by
        refine (map_congr_left fun y hy => ?_).trans (map_id xs)
        rw [if_neg (hx y hy hp), id]
      rw [hrest]
    · rw [ih hxs]

/-- A change that keeps the key keeps the keys. -/
lemma map_modifyFirst {β : Type} {g : α → β} (hg : ∀ x, g (f x) = g x) :
    (modifyFirst p f xs).map g = xs.map g := by
  induction xs with
  | nil => rfl
  | cons x xs ih =>
    rw [modifyFirst]
    split
    · rw [map_cons, hg, map_cons]
    · rw [map_cons, ih, map_cons]

lemma length_modifyFirst : (modifyFirst p f xs).length = xs.length := by
  induction xs with
  | nil => rfl
  | cons x xs ih =>
    rw [modifyFirst]
    split
    · rfl
    · rw [length_cons, ih, length_cons]

variable [LinearOrder κ] {key : α → κ}

lemma ascending_iff_map : Ascending key xs ↔ (xs.map key).Pairwise (· < ·) := pairwise_map.symm

variable (h : Ascending key xs)

include h

lemma Ascending.modifyFirst (hkey : ∀ x, key (f x) = key x) :
    Ascending key (modifyFirst p f xs) := by
  rw [ascending_iff_map, map_modifyFirst hkey]
  exact ascending_iff_map.mp h

/-- When the matches share a key, the elements of the changed vector are the changed match and
the elements that do not match. -/
lemma Ascending.mem_modifyFirst (hp : ∀ x, p x → key x = k) :
    y ∈ Framework.modifyFirst p f xs ↔ (∃ x ∈ xs, p x ∧ y = f x) ∨ (y ∈ xs ∧ ¬ p y) := by
  have hu : xs.Pairwise fun x y => p x → ¬ p y :=
    h.imp fun {x y} hlt hx hy => by rw [hp x hx, hp y hy] at hlt; exact lt_irrefl _ hlt
  rw [modifyFirst_eq_map hu, mem_map]
  constructor
  · rintro ⟨x, hx, rfl⟩
    by_cases hpx : p x
    · exact .inl ⟨x, hx, hpx, if_pos hpx⟩
    · rw [if_neg hpx]
      exact .inr ⟨hx, hpx⟩
  · rintro (⟨x, hx, hpx, rfl⟩ | ⟨hy, hpy⟩)
    · exact ⟨x, hx, if_pos hpx⟩
    · exact ⟨y, hy, if_neg hpy⟩

lemma Ascending.eraseP : Ascending key (xs.eraseP p) :=
  Pairwise.sublist eraseP_sublist h

/-- When the matches share a key, removing the first removes them all. -/
lemma Ascending.mem_eraseP (hp : ∀ x, p x → key x = k) : y ∈ xs.eraseP p ↔ y ∈ xs ∧ ¬ p y := by
  induction xs with
  | nil => simp
  | cons x xs ih =>
    obtain ⟨hlt, hasc⟩ := ascending_cons.mp h
    by_cases hpx : p x
    · rw [eraseP_cons_of_pos hpx, mem_cons]
      constructor
      · intro hy
        refine ⟨.inr hy, fun hpy => ?_⟩
        have := hlt y hy
        rw [hp x hpx, hp y hpy] at this
        exact lt_irrefl _ this
      · rintro ⟨rfl | hy, hpy⟩
        · exact absurd hpx hpy
        · exact hy
    · rw [eraseP_cons_of_neg hpx, mem_cons, mem_cons, ih hasc]
      constructor
      · rintro (rfl | ⟨hy, hpy⟩)
        · exact ⟨.inl rfl, hpx⟩
        · exact ⟨.inr hy, hpy⟩
      · rintro ⟨rfl | hy, hpy⟩
        · exact .inl rfl
        · exact .inr ⟨hy, hpy⟩

end Modify

/-! ## The largest key -/

section Max

variable [LinearOrder κ]

/-- The element with the largest key, and the last of them when several share it. -/
def maxByKey (key : α → κ) : List α → Option α
  | [] => none
  | x :: xs => some (xs.foldl (fun best y => if key best ≤ key y then y else best) x)

lemma foldl_best_spec (key : α → κ) (x : α) (xs : List α) :
    let m := xs.foldl (fun best y => if key best ≤ key y then y else best) x
    m ∈ x :: xs ∧ ∀ y ∈ x :: xs, key y ≤ key m := by
  induction xs generalizing x with
  | nil => simp
  | cons z zs ih =>
    obtain ⟨hmem, hmax⟩ := ih (if key x ≤ key z then z else x)
    rw [foldl_cons]
    refine ⟨?_, fun y hy => ?_⟩
    · rcases mem_cons.mp hmem with h | h
      · rw [h]
        split <;> simp
      · simp [h]
    · have hbest := hmax _ mem_cons_self
      rcases mem_cons.mp hy with rfl | hy
      · refine le_trans ?_ hbest
        split
        · assumption
        · exact le_rfl
      rcases mem_cons.mp hy with rfl | hy
      · refine le_trans ?_ hbest
        split
        · exact le_rfl
        · rename_i hle
          exact (not_le.mp hle).le
      · exact hmax y (mem_cons_of_mem _ hy)

/-- Among elements with different keys, the element with the largest key. -/
lemma maxByKey_eq_some {key : α → κ} {xs : List α}
    (hinj : ∀ x ∈ xs, ∀ y ∈ xs, key x = key y → x = y) {m : α} :
    maxByKey key xs = some m ↔ m ∈ xs ∧ ∀ y ∈ xs, key y ≤ key m := by
  cases xs with
  | nil => simp [maxByKey]
  | cons x xs =>
    obtain ⟨hmem, hmax⟩ := foldl_best_spec key x xs
    rw [maxByKey, Option.some_inj]
    constructor
    · rintro rfl
      exact ⟨hmem, hmax⟩
    · rintro ⟨hm, hle⟩
      exact hinj _ hmem _ hm (le_antisymm (hle _ hmem) (hmax _ hm))

lemma Ascending.maxByKey_eq_getLast? {key : α → κ} {xs : List α} (h : Ascending key xs) :
    maxByKey key xs = xs.getLast? := by
  cases hlast : xs.getLast? with
  | none =>
    rw [getLast?_eq_none_iff.mp hlast]
    rfl
  | some last =>
    refine (maxByKey_eq_some fun x hx y hy => h.eq_of_key hx hy).mpr ?_
    exact ⟨mem_of_getLast? hlast, fun y hy => h.le_getLast hlast hy⟩

/-- The largest of the values, or `0` when there is none. -/
lemma le_max?_getD [Zero κ] {xs : List κ} {x : κ} (hx : x ∈ xs) : x ≤ xs.max?.getD 0 := by
  cases hmax : xs.max? with
  | none =>
    rw [max?_eq_none_iff] at hmax
    rw [hmax] at hx
    cases hx
  | some m =>
    obtain ⟨-, hle⟩ := max?_eq_some_iff.mp hmax
    exact hle x hx

end Max

end Framework
