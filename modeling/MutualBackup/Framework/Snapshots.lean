import Mathlib.Data.Nat.Basic
import Mathlib.Order.Basic
import Mathlib.Tactic.Common

/-!
# Logs kept as snapshots

A store of numbered chains of records is published as a sequence of snapshots.  A snapshot holds
some of the records and a floor for every chain, the number through which the chain has been
retired.  From one snapshot to the next a record stays or falls under the floor, and no floor sinks.

A reader compares neighbours only, and that is enough: `Extends` is transitive, so what holds of two
neighbours holds of any two snapshots.  With snapshots that are sound by themselves — numbers unique
and above the floor — it follows that a place in a chain never changes its record
(`Extends.eq_of_same_place`).
-/

namespace Framework

/-- The records held at one moment, and how far each chain has been retired. -/
structure Snapshot (κ ρ : Type) where
  holds : ρ → Prop
  floor : κ → ℕ

namespace Snapshot

variable {κ ρ : Type} (chain : ρ → κ) (number : ρ → ℕ)

/-- Numbers are unique within their chain, and above its floor. -/
structure Sound (s : Snapshot κ ρ) : Prop where
  unique : ∀ r r', s.holds r → s.holds r' → chain r = chain r' → number r = number r' → r = r'
  above : ∀ r, s.holds r → s.floor (chain r) < number r

/-- Records stay or are retired, and no floor sinks. -/
structure Extends (s t : Snapshot κ ρ) : Prop where
  kept : ∀ r, s.holds r → t.holds r ∨ number r ≤ t.floor (chain r)
  floor_le : ∀ k, s.floor k ≤ t.floor k

variable {chain number} {s t u : Snapshot κ ρ}

lemma Extends.trans (h : s.Extends chain number t) (h' : t.Extends chain number u) :
    s.Extends chain number u := by
  refine ⟨fun r hr => ?_, fun k => (h.floor_le k).trans (h'.floor_le k)⟩
  rcases h.kept r hr with hheld | hretired
  · exact h'.kept r hheld
  · exact .inr (hretired.trans (h'.floor_le (chain r)))

/-- A place in a chain never changes its record. -/
lemma Extends.eq_of_same_place (h : s.Extends chain number t) (ht : t.Sound chain number) {r r' : ρ}
    (hr : s.holds r) (hr' : t.holds r') (hchain : chain r = chain r')
    (hnumber : number r = number r') : r = r' := by
  rcases h.kept r hr with hheld | hretired
  · exact ht.unique r r' hheld hr' hchain hnumber
  · have habove := ht.above r' hr'
    rw [← hchain, ← hnumber] at habove
    omega

end Snapshot

end Framework
