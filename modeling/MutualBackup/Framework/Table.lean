import Mathlib.Algebra.BigOperators.Group.List.Basic
import Mathlib.Algebra.Order.BigOperators.Group.List
import Mathlib.Algebra.Order.Group.Nat
import Mathlib.Algebra.Ring.Nat
import MutualBackup.Framework.Ordered

/-!
# Tables

A table of a database is a finite map that is read by key and scanned in key order.  `Table` keeps
the rows as a vector with increasing keys, so that a scan is the vector, and specifies every
operation by what it does to `get`: nothing above this module looks at positions.

`total` is the sum of a measure over the rows.  Counters that are kept beside a table are meant to
equal such sums, and `total_put` and `total_erase` say how each write moves them: what the row
weighed before is taken off, and what it weighs afterwards is added.
-/

namespace Framework

open List

variable {κ α β : Type} [LinearOrder κ]

/-- Rows by key. -/
structure Table (κ α : Type) [LinearOrder κ] where
  rows : List (κ × α)
  ascending : Ascending Prod.fst rows

namespace Table

variable (t u : Table κ α)

instance [DecidableEq α] : DecidableEq (Table κ α) := fun t u =>
  decidable_of_iff (t.rows = u.rows) ⟨fun h => by cases t; cases u; cases h; rfl,
    fun h => by rw [h]⟩

/-! ## Operations -/

/-- A table without rows. -/
def empty : Table κ α := ⟨[], List.Pairwise.nil⟩

/-- The row of a key. -/
def get (k : κ) : Option α := (t.rows.find? fun r => r.1 = k).map Prod.snd

lemma ascending_filter (p : κ × α → Bool) : Ascending Prod.fst (t.rows.filter p) :=
  List.Pairwise.filter p t.ascending

/-- Delete the row of a key. -/
def erase (k : κ) : Table κ α := ⟨t.rows.filter fun r => r.1 ≠ k, t.ascending_filter _⟩

lemma ascending_insert (k : κ) (a : α) :
    Ascending Prod.fst (insertByKey Prod.fst (k, a) (t.erase k).rows) := by
  refine (t.erase k).ascending.insertByKey fun r hr => ?_
  simpa using (mem_filter.mp hr).2

/-- Write the row of a key, a new one or over the old one. -/
def put (k : κ) (a : α) : Table κ α :=
  ⟨insertByKey Prod.fst (k, a) (t.erase k).rows, t.ascending_insert k a⟩

/-- Delete the rows that meet a condition. -/
def deleteWhere (p : κ → α → Prop) [∀ k a, Decidable (p k a)] : Table κ α :=
  ⟨t.rows.filter fun r => ¬ p r.1 r.2, t.ascending_filter _⟩

lemma ascending_map (f : α → β) : Ascending Prod.fst (t.rows.map fun r => (r.1, f r.2)) :=
  List.Pairwise.map _ (fun _ _ h => h) t.ascending

/-- The same keys with changed rows. -/
def mapValues (f : α → β) : Table κ β := ⟨t.rows.map fun r => (r.1, f r.2), t.ascending_map f⟩

/-- The sum of a measure over the rows. -/
def total (f : κ → α → ℕ) : ℕ := (t.rows.map fun r => f r.1 r.2).sum

/-- The number of rows. -/
def size : ℕ := t.total fun _ _ => 1

variable {t u} {k l : κ} {a b : α}

/-! ## Reading -/

lemma mem_rows : (k, a) ∈ t.rows ↔ t.get k = some a := by
  have hunique : ∀ x ∈ t.rows, ∀ y ∈ t.rows, decide (x.1 = k) → decide (y.1 = k) → x = y := by
    intro x hx y hy hkx hky
    rw [decide_eq_true_eq] at hkx hky
    exact t.ascending.eq_of_key hx hy (hkx.trans hky.symm)
  rw [get, Option.map_eq_some_iff]
  simp only [find?_eq_some_of_unique hunique, decide_eq_true_eq]
  constructor
  · intro h
    exact ⟨(k, a), ⟨h, rfl⟩, rfl⟩
  · rintro ⟨⟨l, b⟩, ⟨hmem, hk⟩, hb⟩
    cases hk
    cases hb
    exact hmem

lemma mem_keys : k ∈ t.rows.map Prod.fst ↔ (t.get k).isSome := by
  rw [mem_map, Option.isSome_iff_exists]
  constructor
  · rintro ⟨⟨_, a⟩, hrow, rfl⟩
    exact ⟨a, mem_rows.mp hrow⟩
  · rintro ⟨a, ha⟩
    exact ⟨(k, a), mem_rows.mpr ha, rfl⟩

/-- Two tables with the same answers are the same table. -/
lemma ext_get (h : ∀ k, t.get k = u.get k) : t = u := by
  have hrows : t.rows = u.rows := by
    refine t.ascending.eq_of_mem_iff u.ascending fun r => ?_
    obtain ⟨k, a⟩ := r
    rw [mem_rows, mem_rows, h]
  cases t
  cases u
  cases hrows
  rfl

@[simp] lemma get_empty : (empty : Table κ α).get k = none := rfl

@[simp] lemma get_erase : (t.erase k).get l = if k = l then none else t.get l := by
  ext a
  rw [← mem_rows, erase, mem_filter, mem_rows]
  split
  · rename_i h
    simp [h]
  · rename_i h
    simpa using fun _ => Ne.symm h

@[simp] lemma get_put : (t.put k a).get l = if k = l then some a else t.get l := by
  ext b
  rw [← mem_rows, put, mem_insertByKey, mem_rows, get_erase, Prod.mk.injEq]
  split
  · rename_i h
    simp [h, eq_comm]
  · rename_i h
    simp [Ne.symm h]

@[simp] lemma get_mapValues {f : α → β} : (t.mapValues f).get k = (t.get k).map f := by
  rw [get, get, mapValues, find?_map, Option.map_map, Option.map_map]
  rfl

lemma get_put_self : (t.put k a).get k = some a := by simp

lemma get_put_of_ne (h : k ≠ l) : (t.put k a).get l = t.get l := by simp [h]

lemma get_erase_of_ne (h : k ≠ l) : (t.erase k).get l = t.get l := by simp [h]

lemma get_of_erase (h : (t.erase k).get l = some a) : t.get l = some a := by
  rw [get_erase] at h
  split at h
  · cases h
  · exact h

lemma get_deleteWhere {p : κ → α → Prop} [∀ k a, Decidable (p k a)] :
    (t.deleteWhere p).get k = some a ↔ t.get k = some a ∧ ¬ p k a := by
  rw [← mem_rows, deleteWhere, mem_filter, mem_rows, decide_eq_true_eq]

/-! ## Totals -/

variable {f g : κ → α → ℕ}

@[simp] lemma total_empty : (empty : Table κ α).total f = 0 := rfl

/-- What the row of a key weighs. -/
def weight (t : Table κ α) (f : κ → α → ℕ) (k : κ) : ℕ := (t.get k).elim 0 (f k)

lemma weight_of_get (h : t.get k = some a) : t.weight f k = f k a := by
  rw [weight, h]
  rfl

lemma weight_of_none (h : t.get k = none) : t.weight f k = 0 := by
  rw [weight, h]
  rfl

/-- A deletion takes off what the row weighed. -/
lemma total_erase : (t.erase k).total f + t.weight f k = t.total f := by
  have hsplit : ∀ rows : List (κ × α), Ascending Prod.fst rows →
      ((rows.filter fun r => r.1 ≠ k).map fun r => f r.1 r.2).sum +
        ((rows.find? fun r => r.1 = k).map Prod.snd).elim 0 (f k) =
      (rows.map fun r => f r.1 r.2).sum := by
    intro rows hasc
    induction rows with
    | nil => rfl
    | cons r rows ih =>
      obtain ⟨hlt, hrest⟩ := ascending_cons.mp hasc
      have htail := ih hrest
      by_cases hk : r.1 = k
      · have hkeep : (rows.filter fun r => r.1 ≠ k) = rows := by
          refine filter_eq_self.mpr fun x hx => ?_
          have hne : x.1 ≠ k := hk ▸ (hlt x hx).ne'
          simpa using hne
        rw [filter_cons_of_neg (by simpa using hk), hkeep,
          find?_cons_of_pos (by simpa using hk), map_cons, sum_cons]
        subst hk
        exact Nat.add_comm _ _
      · rw [filter_cons_of_pos (by simpa using hk),
          find?_cons_of_neg (by simpa using hk), map_cons, sum_cons, map_cons,
          sum_cons, Nat.add_assoc, htail]
  exact hsplit t.rows t.ascending

/-- A write exchanges the weight of the row. -/
lemma total_put : (t.put k a).total f + t.weight f k = t.total f + f k a := by
  have hperm : (insertByKey Prod.fst (k, a) (t.erase k).rows).Perm ((k, a) :: (t.erase k).rows) :=
    perm_orderedInsert _ _ _
  have hsum : (t.put k a).total f = f k a + (t.erase k).total f := by
    rw [total, put, (hperm.map fun r => f r.1 r.2).sum_eq, map_cons, sum_cons]
    rfl
  have herase := t.total_erase (f := f) (k := k)
  omega

lemma total_put_of_none (h : t.get k = none) : (t.put k a).total f = t.total f + f k a := by
  rw [← total_put, weight_of_none h, Nat.add_zero]

/-- A table with fewer rows has a smaller total. -/
lemma total_le_of_subset (h : ∀ k a, u.get k = some a → t.get k = some a) :
    u.total f ≤ t.total f := by
  have hnodup : u.rows.Nodup := u.ascending.imp fun hlt heq => (heq ▸ hlt).false
  have hsubset : u.rows ⊆ t.rows := fun r hr => mem_rows.mpr (h r.1 r.2 (mem_rows.mp hr))
  obtain ⟨rows, hperm, hsublist⟩ := subperm_of_subset hnodup hsubset
  rw [total, total, ← (hperm.map fun r => f r.1 r.2).sum_eq]
  exact (hsublist.map fun r => f r.1 r.2).sum_le_sum fun _ _ => Nat.zero_le _

end Table

end Framework
