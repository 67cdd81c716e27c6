import Mathlib.Order.Nat
import Mathlib.Tactic.Common

/-!
# Vote locks

A voter that may vote once per generation keeps two registers: the `lock`, the last ballot it voted
for, and the `head`, the last ballot it knows to be decided.  It votes for a ballot only when its
lock has been decided or passed by, and it moves both registers when a decided ballot is installed,
whether or not it voted for it.

`Move` is what can happen to the registers.  `Sound` is the invariant of all moves: the lock is the
head or one generation ahead.  What a vote means later is `Voted`: from the vote on, the lock is of
a later generation, or the same ballot, or a ballot of the same generation that has been decided.
One move can break it, the replay of a head behind the lock (`Regresses`), and no other
(`Voted.of_move`).  A voter that looks at its lock before it installs anything (`Extends`) never
votes twice in a generation (`Pledged.of_extends`).
-/

namespace Framework

/-- A proposal of a generation, by its hash. -/
structure Ballot (η : Type) where
  generation : ℕ
  hash : η
  deriving DecidableEq, Repr

/-- The registers of a voter. -/
structure VoteSlot (η : Type) where
  lock : Option (Ballot η)
  head : Option (Ballot η)
  deriving DecidableEq, Repr

namespace VoteSlot

variable {η : Type} {s t : VoteSlot η} {b : Ballot η}

/-- What can happen to the registers. -/
inductive Move (s : VoteSlot η) : VoteSlot η → Prop
  | stay : Move s s
  /-- A vote: the lock is free, and the ballot follows the head. -/
  | vote {b : Ballot η}
      (hfree : ∀ k ∈ s.lock, ∃ r ∈ s.head, r = k ∨ k.generation < r.generation)
      (hnext : ∀ r ∈ s.head, b.generation = r.generation + 1)
      (hfirst : s.head = none → b.generation = 1) : Move s ⟨some b, s.head⟩
  /-- A decided ballot takes both registers. -/
  | install {b : Ballot η} (hnext : ∀ r ∈ s.head, b.generation = r.generation + 1)
      (hpos : 0 < b.generation) : Move s ⟨some b, some b⟩
  /-- The head is installed again. -/
  | replay {b : Ballot η} (hhead : s.head = some b) : Move s ⟨some b, s.head⟩

/-- The lock is the head or one generation ahead. -/
structure Sound (s : VoteSlot η) : Prop where
  ahead : ∀ r ∈ s.head, ∃ k ∈ s.lock, k = r ∨ k.generation = r.generation + 1
  first : s.head = none → ∀ k ∈ s.lock, k.generation = 1

lemma sound_empty : Sound (⟨none, none⟩ : VoteSlot η) := ⟨by simp, by simp⟩

lemma Sound.of_move (hs : s.Sound) (h : Move s t) : t.Sound := by
  cases h with
  | stay => exact hs
  | vote _ hnext hfirst =>
    refine ⟨fun r hr => ⟨_, rfl, .inr (hnext r hr)⟩, fun hnone k hk => ?_⟩
    obtain rfl := Option.some.inj hk
    exact hfirst hnone
  | install =>
    refine ⟨fun r hr => ?_, fun hnone => by cases hnone⟩
    obtain rfl := Option.some.inj hr
    exact ⟨_, rfl, .inl rfl⟩
  | replay hhead =>
    refine ⟨fun r hr => ?_, fun hnone => ?_⟩
    · obtain rfl := Option.some.inj (hhead.symm.trans hr)
      exact ⟨_, rfl, .inl rfl⟩
    · exact absurd (hhead.symm.trans hnone) (Option.some_ne_none _)

/-- The lock of a sound slot is no older than its head. -/
lemma Sound.head_le (hs : s.Sound) {k r : Ballot η} (hk : k ∈ s.lock) (hr : r ∈ s.head) :
    k = r ∨ k.generation = r.generation + 1 := by
  obtain ⟨k', hk', h⟩ := hs.ahead r hr
  obtain rfl := Option.some.inj (hk.symm.trans hk')
  exact h

/-- The head never goes back. -/
lemma Move.head_mono (h : Move s t) {r : Ballot η} (hr : r ∈ s.head) :
    ∃ r' ∈ t.head, r' = r ∨ r.generation < r'.generation := by
  cases h with
  | stay => exact ⟨r, hr, .inl rfl⟩
  | vote => exact ⟨r, hr, .inl rfl⟩
  | install hnext _ => exact ⟨_, rfl, .inr (by rw [hnext r hr]; exact Nat.lt_succ_self _)⟩
  | replay => exact ⟨r, hr, .inl rfl⟩

/-! ## Votes -/

/-- The lock goes back. -/
def Regresses (s t : VoteSlot η) : Prop := ∃ k ∈ s.lock, ∃ k' ∈ t.lock, k'.generation < k.generation

lemma not_regresses_self : ¬ Regresses s s := by
  rintro ⟨k, hk, k', hk', hlt⟩
  obtain rfl := Option.some.inj (hk.symm.trans hk')
  exact lt_irrefl _ hlt

/-- What a vote for `b` means later: the lock has passed it, or is it, or has lost to a decided
ballot of its generation. -/
def Voted (b : Ballot η) (s : VoteSlot η) : Prop := ∃ k ∈ s.lock, b.generation < k.generation ∨
    (k.generation = b.generation ∧ (k = b ∨ s.head = some k))

lemma voted_self (h : b ∈ s.lock) : Voted b s := ⟨b, h, .inr ⟨rfl, .inl rfl⟩⟩

lemma Voted.generation_le (h : Voted b s) : ∃ k ∈ s.lock, b.generation ≤ k.generation := by
  obtain ⟨k, hk, hlt | ⟨heq, -⟩⟩ := h
  · exact ⟨k, hk, hlt.le⟩
  · exact ⟨k, hk, heq.ge⟩

/-- Every move but a regression keeps what a vote means. -/
lemma Voted.of_move (h : Voted b s) (hs : s.Sound) (hmove : Move s t) (hno : ¬ Regresses s t) :
    Voted b t := by
  obtain ⟨k, hk, hb⟩ := h
  have hle : b.generation ≤ k.generation := by
    rcases hb with hlt | ⟨heq, -⟩
    · exact hlt.le
    · exact heq.ge
  cases hmove with
  | stay => exact ⟨k, hk, hb⟩
  | @vote v hfree hnext =>
    -- the lock was free, so the head has reached it, and the vote is for the generation after
    obtain ⟨r, hr, hkr⟩ := hfree k hk
    have hv := hnext r hr
    refine ⟨v, rfl, .inl ?_⟩
    rcases hkr with rfl | hlt <;> omega
  | @install c hnext hpos =>
    -- the installed ballot is at least of the generation of the lock
    have hkc : k.generation ≤ c.generation := by
      cases hhead : s.head with
      | none =>
        have hfirst := hs.first hhead k hk
        omega
      | some r =>
        have hc := hnext r hhead
        rcases hs.head_le hk hhead with rfl | hahead <;> omega
    refine ⟨c, rfl, ?_⟩
    rcases (hle.trans hkc).lt_or_eq with hlt | heq
    · exact .inl hlt
    · exact .inr ⟨heq.symm, .inr rfl⟩
  | @replay c hhead =>
    -- only a lock ahead of the head could change, and that is a regression
    rcases hs.head_le hk hhead with rfl | hahead
    · exact ⟨k, rfl, hb⟩
    · exact absurd ⟨k, hk, c, rfl, by omega⟩ hno

/-! ## Pledges -/

/-- The ballot is the lock or of the generation after it. -/
def Extends (s : VoteSlot η) (b : Ballot η) : Prop :=
  ∀ k ∈ s.lock, b = k ∨ b.generation = k.generation + 1

/-- The lock is `b`, or of a later generation. -/
def Pledged (b : Ballot η) (s : VoteSlot η) : Prop :=
  ∃ k ∈ s.lock, k = b ∨ b.generation < k.generation

lemma pledged_self (h : b ∈ s.lock) : Pledged b s := ⟨b, h, .inl rfl⟩

/-- A voter that only moves its lock to ballots that extend it keeps its pledges. -/
lemma Pledged.of_extends (h : Pledged b s)
    (hlock : t.lock = s.lock ∨ ∃ c, t.lock = some c ∧ s.Extends c) : Pledged b t := by
  obtain ⟨k, hk, hb⟩ := h
  rcases hlock with hsame | ⟨c, hc, hextends⟩
  · exact ⟨k, hsame ▸ hk, hb⟩
  · refine ⟨c, hc, ?_⟩
    rcases hextends k hk with rfl | hnext
    · exact hb
    · right
      rcases hb with rfl | hlt <;> omega

/-- Two ballots of one generation that a voter is pledged to and locked on are the same. -/
lemma Pledged.eq_of_lock {c : Ballot η} (h : Pledged b s) (hc : c ∈ s.lock)
    (hgen : c.generation = b.generation) : c = b := by
  obtain ⟨k, hk, hb⟩ := h
  obtain rfl := Option.some.inj (hk.symm.trans hc)
  rcases hb with rfl | hlt
  · rfl
  · omega

end VoteSlot

end Framework
