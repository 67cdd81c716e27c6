import Mathlib.Algebra.Order.BigOperators.Group.List
import Mathlib.Algebra.Order.Floor.Div
import Mathlib.Algebra.Order.Group.Nat
import Mathlib.Algebra.Ring.Nat
import Mathlib.Data.List.Forall2
import Mathlib.GroupTheory.GroupAction.Ring

/-!
# Cutting a list into chunks

`chunks n xs` cuts a list into parts of length `n`, with a shorter one for the rest, as the method
of that name on slices does.
-/

namespace Framework

open List

variable {β : Type} {n : ℕ}

/-- Parts of length `n`, and a shorter one for the rest. -/
def chunks (n : ℕ) (xs : List β) : List (List β) :=
  if _ : xs = [] ∨ n = 0 then [] else xs.take n :: chunks n (xs.drop n)
  termination_by xs.length
  decreasing_by
    rename_i hend
    rw [not_or] at hend
    have hpos := length_pos_of_ne_nil hend.1
    rw [length_drop]
    omega

@[simp] lemma chunks_nil : chunks n ([] : List β) = [] := by
  rw [chunks, dif_pos (.inl rfl)]

section

variable (hn : 0 < n)

include hn

lemma chunks_eq_cons {xs : List β} (hxs : xs ≠ []) :
    chunks n xs = xs.take n :: chunks n (xs.drop n) := by
  rw [chunks, dif_neg]
  rw [not_or]
  exact ⟨hxs, hn.ne'⟩

/-- Induction along the chunks of a list. -/
lemma chunks_induction {motive : List β → Prop} (nil : motive [])
    (cons : ∀ xs, xs ≠ [] → motive (xs.drop n) → motive xs) (xs : List β) : motive xs := by
  induction hlen : xs.length using Nat.strong_induction_on generalizing xs with
  | _ k ih =>
  by_cases hxs : xs = []
  · rw [hxs]
    exact nil
  · refine cons xs hxs (ih (xs.drop n).length ?_ _ rfl)
    have hpos := length_pos_of_ne_nil hxs
    rw [length_drop]
    omega

lemma flatten_chunks (xs : List β) : (chunks n xs).flatten = xs := by
  induction xs using chunks_induction hn with
  | nil => rw [chunks_nil, flatten_nil]
  | cons xs hxs ih =>
    rw [chunks_eq_cons hn hxs, flatten_cons, ih, take_append_drop]

lemma flatMap_chunks {γ : Type} (f : β → List γ) (xs : List β) :
    ((chunks n xs).flatMap fun c => c.flatMap f) = xs.flatMap f := by
  induction xs using chunks_induction hn with
  | nil => rw [chunks_nil, flatMap_nil, flatMap_nil]
  | cons xs hxs ih =>
    rw [chunks_eq_cons hn hxs, flatMap_cons, ih, ← flatMap_append, take_append_drop]

lemma ne_nil_of_mem_chunks {xs c : List β} (hc : c ∈ chunks n xs) : c ≠ [] ∧ c.length ≤ n := by
  induction xs using chunks_induction hn with
  | nil =>
    rw [chunks_nil] at hc
    cases hc
  | cons xs hxs ih =>
    rw [chunks_eq_cons hn hxs] at hc
    rcases mem_cons.mp hc with rfl | hc
    · have hpos := length_pos_of_ne_nil hxs
      rw [← length_pos_iff, length_take]
      omega
    · exact ih hc

lemma length_chunks_le {k : ℕ} {xs : List β} (hlen : xs.length ≤ k * n) :
    (chunks n xs).length ≤ k := by
  induction xs using chunks_induction hn generalizing k with
  | nil =>
    rw [chunks_nil]
    exact Nat.zero_le _
  | cons xs hxs ih =>
    have hpos := length_pos_of_ne_nil hxs
    cases k with
    | zero => omega
    | succ k =>
      rw [chunks_eq_cons hn hxs, length_cons]
      refine Nat.succ_le_succ (ih ?_)
      rw [Nat.add_mul] at hlen
      rw [length_drop]
      omega

/-- The number of chunks. -/
lemma length_chunks (xs : List β) : (chunks n xs).length = xs.length ⌈/⌉ n := by
  refine le_antisymm (length_chunks_le hn ?_) ?_
  · rw [Nat.mul_comm]
    exact (ceilDiv_le_iff_le_mul hn).mp le_rfl
  · rw [ceilDiv_le_iff_le_mul hn]
    have hparts : ∀ c ∈ chunks n xs, c.length ≤ n := fun c hc => (ne_nil_of_mem_chunks hn hc).2
    calc xs.length = (chunks n xs).flatten.length := by rw [flatten_chunks hn]
      _ = ((chunks n xs).map List.length).sum := length_flatten
      _ ≤ ((chunks n xs).map List.length).length • n :=
          sum_le_card_nsmul _ n (by simpa using hparts)
      _ = n * (chunks n xs).length := by rw [length_map, smul_eq_mul, Nat.mul_comm]

/-- Related lists have related chunks. -/
lemma forall₂_chunks {γ : Type} {R : β → γ → Prop} {xs : List β} {ys : List γ}
    (hall : Forall₂ R xs ys) : Forall₂ (Forall₂ R) (chunks n xs) (chunks n ys) := by
  induction xs using chunks_induction hn generalizing ys with
  | nil =>
    cases hall
    rw [chunks_nil, chunks_nil]
    exact .nil
  | cons xs hxs ih =>
    have hys : ys ≠ [] := by
      rintro rfl
      exact hxs (eq_nil_of_length_eq_zero hall.length_eq)
    rw [chunks_eq_cons hn hxs, chunks_eq_cons hn hys]
    exact .cons (forall₂_take n hall) (ih (forall₂_drop n hall))

end

/-- A list that is not too long is one chunk. -/
lemma chunks_of_le {xs : List β} (hxs : xs ≠ []) (hlen : xs.length ≤ n) : chunks n xs = [xs] := by
  have hpos := length_pos_of_ne_nil hxs
  rw [chunks_eq_cons (by omega) hxs, take_of_length_le hlen, drop_of_length_le hlen, chunks_nil]

/-- A part of fixed length is a slice of the concatenation. -/
lemma take_drop_flatMap {α : Type} {j : ℕ} {f : α → List β} {xs : List α}
    (hlen : ∀ x ∈ xs, (f x).length = n) {x : α} (hx : xs[j]? = some x) :
    ((xs.flatMap f).drop (j * n)).take n = f x := by
  induction xs generalizing j with
  | nil => cases hx
  | cons y ys ih =>
    have hy := hlen y mem_cons_self
    rw [flatMap_cons]
    cases j with
    | zero =>
      obtain rfl := Option.some.inj hx
      rw [Nat.zero_mul, drop_zero, ← hy, take_left]
    | succ j =>
      rw [Nat.add_mul, Nat.one_mul, Nat.add_comm, ← drop_drop, ← hy, drop_left, hy]
      exact ih (fun x hx => hlen x (mem_cons_of_mem _ hx)) hx

end Framework
