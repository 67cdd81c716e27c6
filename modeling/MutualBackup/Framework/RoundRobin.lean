import Mathlib.Data.List.Perm.Basic
import Mathlib.Data.List.Basic
import Mathlib.Tactic.Common

/-!
# Taking from queues in turn

A round takes the first element of every queue that has one, in the order of the queues.
`roundRobin` lists what a number of rounds take; when there are rounds enough, that is every element
of every queue, each once (`roundRobin_perm`).
-/

namespace Framework

variable {ι : Type}

/-- What a round takes. -/
def heads (queues : List (List ι)) : List ι := queues.filterMap List.head?

/-- What `n` rounds take. -/
def roundRobin : ℕ → List (List ι) → List ι
  | 0, _ => []
  | n + 1, queues => heads queues ++ roundRobin n (queues.map List.tail)

variable {queues : List (List ι)}

lemma heads_append_tails_perm : (heads queues ++ (queues.map List.tail).flatten).Perm
    queues.flatten := by
  induction queues with
  | nil => exact List.Perm.refl _
  | cons queue queues ih =>
    cases queue with
    | nil => exact ih
    | cons x xs =>
      have hswap : (heads queues ++ (xs ++ (queues.map List.tail).flatten)).Perm
          (xs ++ (heads queues ++ (queues.map List.tail).flatten)) := by
        rw [← List.append_assoc, ← List.append_assoc]
        exact List.perm_append_comm.append_right _
      exact (hswap.trans (ih.append_left xs)).cons x

lemma heads_eq_nil : heads queues = [] ↔ ∀ queue ∈ queues, queue = [] := by
  simp [heads, List.filterMap_eq_nil_iff]

/-- **Rounds enough take everything once.** -/
lemma roundRobin_perm {n : ℕ} (h : ∀ queue ∈ queues, queue.length ≤ n) :
    (roundRobin n queues).Perm queues.flatten := by
  induction n generalizing queues with
  | zero =>
    have hempty : queues.flatten = [] := by
      rw [List.flatten_eq_nil_iff]
      exact fun queue hqueue => List.eq_nil_of_length_eq_zero (Nat.le_zero.mp (h queue hqueue))
    rw [hempty]
    exact List.Perm.refl _
  | succ n ih =>
    have htails : ∀ queue ∈ queues.map List.tail, queue.length ≤ n := by
      intro queue hqueue
      obtain ⟨full, hfull, rfl⟩ := List.mem_map.mp hqueue
      rw [List.length_tail]
      have := h full hfull
      omega
    exact ((ih htails).append_left (heads queues)).trans heads_append_tails_perm

/-- Rounds of empty queues take nothing. -/
lemma roundRobin_of_empty {n : ℕ} (h : ∀ queue ∈ queues, queue = []) :
    roundRobin n queues = [] := by
  have hnone : ∀ queue ∈ queues, queue.length ≤ n := by
    intro queue hqueue
    rw [h queue hqueue]
    exact Nat.zero_le n
  have hperm := roundRobin_perm hnone
  rw [List.flatten_eq_nil_iff.mpr h] at hperm
  exact hperm.eq_nil

end Framework
