import MutualBackup.Framework.Outcome

/-!
# Streams that are pulled

A reader is a state with a call that returns the next item, the end, or an error.  `Pulled` is a
sequence of calls that each returned an item, and `PulledToEnd` one that the next call ended.

What a call keeps is carried along the run by `Pulled.invariant`, where the invariant names the
items that are still to come: a reader that yields these items, whatever else happens, has yielded
an initial part of them, and all of them at the end.
-/

namespace Framework

variable {σ ε β : Type} (next : σ → Outcome ε (Option β) × σ)

/-- Calls that returned these items. -/
inductive Pulled : σ → List β → σ → Prop
  | nil (s : σ) : Pulled s [] s
  | cons {s s' s'' : σ} {b : β} {bs : List β} :
      next s = (.ok (some b), s') → Pulled s' bs s'' → Pulled s (b :: bs) s''

/-- Calls that returned these items and then the end. -/
def PulledToEnd (s : σ) (bs : List β) (s'' : σ) : Prop :=
  ∃ s', Pulled next s bs s' ∧ next s' = (.ok none, s'')

variable {next}

/-- What every call that returned an item preserves, a run preserves. -/
lemma Pulled.invariant {P : List β → σ → Prop} {s t : σ} {bs before : List β}
    (hrun : Pulled next s bs t) (hs : P before s)
    (hstep : ∀ before s b s', P before s → next s = (.ok (some b), s') →
      P (before ++ [b]) s') : P (before ++ bs) t := by
  induction hrun generalizing before with
  | nil s => rwa [List.append_nil]
  | @cons s s' s'' b bs hcall _ ih =>
    have hlater := ih (hstep before s b s' hs hcall)
    rwa [List.append_assoc, List.singleton_append] at hlater

/-- The last call of a run. -/
lemma Pulled.exists_last {s t : σ} {bs : List β} {b : β} (hrun : Pulled next s (bs ++ [b]) t) :
    ∃ m, Pulled next s bs m ∧ next m = (.ok (some b), t) := by
  induction bs generalizing s with
  | nil =>
    obtain _ | ⟨hcall, hrest⟩ := hrun
    cases hrest
    exact ⟨s, .nil s, hcall⟩
  | cons b bs ih =>
    obtain _ | ⟨hcall, hrest⟩ := hrun
    obtain ⟨m, hbefore, hlast⟩ := ih hrest
    exact ⟨m, .cons hcall hbefore, hlast⟩

/-- A reader that answers with the items of a list, one after another, and then with the end,
returns the list. -/
lemma exists_pulledToEnd {P : List β → σ → Prop} {s : σ} {bs : List β} (hs : P bs s)
    (hitem : ∀ b bs s, P (b :: bs) s → ∃ s', next s = (.ok (some b), s') ∧ P bs s')
    (hend : ∀ s, P [] s → ∃ s', next s = (.ok none, s')) : ∃ t, PulledToEnd next s bs t := by
  induction bs generalizing s with
  | nil =>
    obtain ⟨t, hcall⟩ := hend s hs
    exact ⟨t, s, .nil s, hcall⟩
  | cons b bs ih =>
    obtain ⟨s', hcall, hs'⟩ := hitem b bs s hs
    obtain ⟨t, m, hrun, hlast⟩ := ih hs'
    exact ⟨t, m, .cons hcall hrun, hlast⟩

end Framework
