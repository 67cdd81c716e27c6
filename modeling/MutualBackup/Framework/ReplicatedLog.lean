import Mathlib.Data.Finset.Card
import MutualBackup.Framework.Outcome
import MutualBackup.Framework.Ordered

/-!
# Replicated logs

A log is replayed by a partial step function: an entry is accepted in a state and leads to the
next, or it is refused.  `replay` runs a list of entries, and the induction rules carry a property
from the step to the run: an invariant (`replay_invariant`), a preorder between the states a run
connects (`replay_rel`), or an invariant of only those steps that meet a condition
(`along_of_everyStep`, with the converse `everyStep_of_along`).

Agreement of two replays has two halves, and neither mentions what the entries do.  The first is
about lists: two runs from one state whose accepted entries differ somewhere pass through a common
state, and both accept there different entries (`replay_diverges`).  The second is counting: two
sets of more than half of the same members overlap (`quorum_overlap`), so the two entries share
signers.
-/

namespace Framework

open List

variable {σ α β ε : Type}

/-! ## Replay -/

/-- Accept the entries one after another, up to the first that is refused. -/
def replay (step : σ → α → Outcome ε σ) (s : σ) (entries : List α) : Outcome ε σ :=
  entries.foldlM step s

variable {step : σ → α → Outcome ε σ}

variable {s t : σ}

@[simp] lemma replay_nil : replay step s [] = .ok t ↔ s = t := pure_eq_ok

variable {as : List α}

@[simp] lemma replay_cons {a : α} :
    replay step s (a :: as) = .ok t ↔ ∃ m, step s a = .ok m ∧ replay step m as = .ok t := by
  rw [replay, foldlM_cons, bind_eq_ok]
  rfl

variable {bs : List α}

@[simp] lemma replay_append :
    replay step s (as ++ bs) = .ok t ↔
      ∃ m, replay step s as = .ok m ∧ replay step m bs = .ok t := by
  rw [replay, foldlM_append, bind_eq_ok]
  rfl

variable {P : σ → Prop}

/-- What the step preserves, the run preserves. -/
lemma replay_invariant (hstep : ∀ s a t, P s → step s a = .ok t → P t) (hs : P s)
    (h : replay step s as = .ok t) : P t := by
  induction as generalizing s with
  | nil => rwa [← replay_nil.mp h]
  | cons a as ih =>
    obtain ⟨m, hm, hrest⟩ := replay_cons.mp h
    exact ih (hstep s a m hs hm) hrest

/-- A preorder that every step from a state with `P` satisfies relates the ends of a run. -/
lemma replay_rel {R : σ → σ → Prop} (hstep : ∀ s a t, P s → step s a = .ok t → P t ∧ R s t)
    (hrefl : ∀ s, R s s) (htrans : ∀ {s t u}, R s t → R t u → R s u) (hs : P s)
    (h : replay step s as = .ok t) : P t ∧ R s t := by
  induction as generalizing s with
  | nil =>
    rw [← replay_nil.mp h]
    exact ⟨hs, hrefl s⟩
  | cons a as ih =>
    obtain ⟨m, hm, hrest⟩ := replay_cons.mp h
    obtain ⟨hPm, hsm⟩ := hstep s a m hs hm
    obtain ⟨hPt, hmt⟩ := ih hPm hrest
    exact ⟨hPt, htrans hsm hmt⟩

variable {s₀ : σ}

/-- A property of the entries replayed so far and the state they lead to. -/
lemma replay_history {P : List α → σ → Prop} (hs : P [] s₀)
    (hstep : ∀ before s a t, P before s → step s a = .ok t → P (before ++ [a]) t)
    (h : replay step s₀ as = .ok t) : P as t := by
  induction as using List.reverseRecOn generalizing t with
  | nil => rwa [← replay_nil.mp h]
  | append_singleton as a ih =>
    obtain ⟨m, hm, hlast⟩ := replay_append.mp h
    obtain ⟨t', ht', hnil⟩ := replay_cons.mp hlast
    obtain rfl := replay_nil.mp hnil
    exact hstep as m a t' (ih hm) ht'

/-- **Exact acceptance.** When the state is a function of the entries, and each step accepts exactly
the entries that keep a condition on the whole list, the run accepts exactly the lists that meet
it. -/
lemma replay_eq_ok_iff (P : List α → Prop) (summary : List α → σ) (hnil : P [])
    (hinit : ∀ as a, P (as ++ [a]) → P as) (hstep : ∀ as a t, P as →
      (step (summary as) a = .ok t ↔ P (as ++ [a]) ∧ t = summary (as ++ [a]))) :
    replay step (summary []) as = .ok t ↔ P as ∧ t = summary as := by
  induction as using List.reverseRecOn generalizing t with
  | nil =>
    rw [replay_nil]
    exact ⟨fun h => ⟨hnil, h.symm⟩, fun h => h.2.symm⟩
  | append_singleton as a ih =>
    simp only [replay_append, replay_cons, replay_nil, exists_eq_right]
    constructor
    · rintro ⟨m, hm, ht⟩
      obtain ⟨hP, rfl⟩ := ih.mp hm
      exact (hstep as a t hP).mp ht
    · intro h
      have hP := hinit as a h.1
      exact ⟨summary as, ih.mpr ⟨hP, rfl⟩, (hstep as a t hP).mpr h⟩

/-- The same when the entries are only known to lead to the state. -/
lemma replay_succeeds_iff {P : List α → σ → Prop} (Q : List α → Prop) (hs : P [] s₀)
    (htrack : ∀ before s a t, P before s → step s a = .ok t → P (before ++ [a]) t) (hnil : Q [])
    (hinit : ∀ as a, Q (as ++ [a]) → Q as) (hstep : ∀ before s a, P before s → Q before →
      (Succeeds (step s a) ↔ Q (before ++ [a]))) : Succeeds (replay step s₀ as) ↔ Q as := by
  induction as using List.reverseRecOn with
  | nil => exact iff_of_true ⟨s₀, replay_nil.mpr rfl⟩ hnil
  | append_singleton as a ih =>
    constructor
    · rintro ⟨t, ht⟩
      obtain ⟨m, hm, hlast⟩ := replay_append.mp ht
      obtain ⟨t', ht', -⟩ := replay_cons.mp hlast
      exact (hstep as m a (replay_history hs htrack hm) (ih.mp ⟨m, hm⟩)).mp ⟨t', ht'⟩
    · intro h
      have hQ := hinit as a h
      obtain ⟨m, hm⟩ := ih.mpr hQ
      obtain ⟨t, ht⟩ := (hstep as m a (replay_history hs htrack hm) hQ).mpr h
      exact ⟨t, replay_append.mpr ⟨m, hm, replay_cons.mpr ⟨t, ht, replay_nil.mpr rfl⟩⟩⟩

/-- What a step establishes about its entry holds of every entry of a run. -/
lemma forall_of_replay {Q : α → Prop} (hstep : ∀ s a t, step s a = .ok t → Q a)
    (h : replay step s as = .ok t) : ∀ a ∈ as, Q a := by
  induction as generalizing s with
  | nil => simp
  | cons a as ih =>
    obtain ⟨m, hm, hrest⟩ := replay_cons.mp h
    exact forall_mem_cons.mpr ⟨hstep s a m hm, ih hrest⟩

/-- A loop that carries the key before and refuses one that is not larger accepts ascending
vectors only. -/
lemma ascending_of_replay {κ : Type} [LinearOrder κ] {key : α → κ} {last : σ → Option κ}
    (hstep : ∀ s a t, step s a = .ok t → (∀ p ∈ last s, p < key a) ∧ last t = some (key a))
    (h : replay step s as = .ok t) : (∀ p ∈ last s, ∀ a ∈ as, p < key a) ∧ Ascending key as := by
  induction as generalizing s with
  | nil => exact ⟨by simp, Pairwise.nil⟩
  | cons a as ih =>
    obtain ⟨m, hm, hrest⟩ := replay_cons.mp h
    obtain ⟨hlt, hlast⟩ := hstep s a m hm
    obtain ⟨hall, hasc⟩ := ih hrest
    have hafter : ∀ b ∈ as, key a < key b := hall (key a) hlast
    refine ⟨fun p hp b hb => ?_, ascending_cons.mpr ⟨hafter, hasc⟩⟩
    rcases mem_cons.mp hb with rfl | hb
    · exact hlt p hp
    · exact (hlt p hp).trans (hafter b hb)

/-! ## Conditional invariants -/

variable (step)

/-- The property holds in every state the run passes through. -/
def Along (s₀ : σ) (entries : List α) (P : σ → Prop) : Prop :=
  ∀ before after s, entries = before ++ after → replay step s₀ before = .ok s → P s

/-- The condition holds of every step of the run, in the state the step is made in. -/
def EveryStep (s₀ : σ) (entries : List α) (Q : σ → α → Prop) : Prop :=
  ∀ before a after s, entries = before ++ a :: after → replay step s₀ before = .ok s → Q s a

variable {step}

variable {Q : σ → α → Prop}

/-- An invariant of the steps that meet a condition holds along every run of such steps. -/
lemma along_of_everyStep (h₀ : P s₀) (hstep : ∀ s a t, P s → Q s a → step s a = .ok t → P t)
    (h : EveryStep step s₀ as Q) : Along step s₀ as P := by
  intro before
  induction before using List.reverseRecOn with
  | nil =>
    intro after s _ hs
    rwa [← replay_nil.mp hs]
  | append_singleton before a ih =>
    intro after t hsplit ht
    obtain ⟨s, hs, hlast⟩ := replay_append.mp ht
    obtain ⟨t', hstep', hnil⟩ := replay_cons.mp hlast
    obtain rfl := replay_nil.mp hnil
    have hcons : as = before ++ a :: after := by rw [hsplit, append_assoc]; rfl
    exact hstep s a t' (ih (a :: after) s hcons hs) (h before a after s hcons hs) hstep'

/-- A condition whose violation destroys the property holds of every step of a run that keeps the
property. -/
lemma everyStep_of_along (hstep : ∀ s a t, P s → step s a = .ok t → P t → Q s a)
    (hrun : Succeeds (replay step s₀ as)) (h : Along step s₀ as P) : EveryStep step s₀ as Q := by
  intro before a after s hsplit hs
  obtain ⟨last, hrun⟩ := hrun
  rw [hsplit] at hrun
  obtain ⟨m, hm, hrest⟩ := replay_append.mp hrun
  obtain rfl : m = s := Except.ok.inj (hm.symm.trans hs)
  obtain ⟨t, ht, -⟩ := replay_cons.mp hrest
  have hafter : replay step s₀ (before ++ [a]) = .ok t :=
    replay_append.mpr ⟨m, hm, replay_cons.mpr ⟨t, ht, replay_nil.mpr rfl⟩⟩
  have hPt := h (before ++ [a]) after t (by rw [hsplit, append_assoc]; rfl) hafter
  exact hstep m a t (h before (a :: after) m hsplit hm) ht hPt

lemma EveryStep.cons {a : α} (h : EveryStep step s (a :: as) Q) (ht : step s a = .ok t) :
    EveryStep step t as Q := by
  intro before b after u hsplit hu
  exact h (a :: before) b after u (by rw [hsplit, cons_append]) (replay_cons.mpr ⟨t, ht, hu⟩)

/-- The condition holds of the steps of an initial part of the run. -/
lemma EveryStep.of_append (h : EveryStep step s (as ++ bs) Q) : EveryStep step s as Q := by
  intro before a after t hsplit ht
  exact h before a (after ++ bs) t (by rw [hsplit, append_assoc, cons_append]) ht

/-- The rule for a step that cannot fail: what the steps that meet a condition preserve, a run of
such steps preserves. -/
lemma foldl_invariant {f : σ → α → σ} (hstep : ∀ s a, P s → Q s a → P (f s a)) (hs : P s)
    (hQ : ∀ before a after, as = before ++ a :: after → Q (before.foldl f s) a) :
    P (as.foldl f s) := by
  induction as generalizing s with
  | nil => exact hs
  | cons a as ih =>
    refine ih (hstep s a hs (hQ [] a as rfl)) fun before b after hsplit => ?_
    exact hQ (a :: before) b after (by rw [hsplit, cons_append])

/-! ## Simulation -/

/-- **Simulation.** When a step on views answers as the step on states does, as long as the entries
meet a condition, the replay of a run on views answers as the replay on states does. -/
lemma replay_simulation {τ ε' : Type} {view : σ → τ} {stepView : τ → α → Outcome ε' τ}
    (hinv : ∀ s a t, P s → step s a = .ok t → P t) (hsim : ∀ s a v, P s → Q s a →
      (stepView (view s) a = .ok v ↔ ∃ t, step s a = .ok t ∧ v = view t)) (hs : P s)
    (hQ : EveryStep step s as Q) {v : τ} :
    replay stepView (view s) as = .ok v ↔ ∃ t, replay step s as = .ok t ∧ v = view t := by
  induction as generalizing s with
  | nil =>
    simp only [replay_nil]
    constructor
    · intro h
      exact ⟨s, rfl, h.symm⟩
    · rintro ⟨t, rfl, rfl⟩
      rfl
  | cons a as ih =>
    have ha : Q s a := hQ [] a as s rfl (replay_nil.mpr rfl)
    simp only [replay_cons, hsim s a _ hs ha]
    constructor
    · rintro ⟨_, ⟨m, hm, rfl⟩, hrest⟩
      obtain ⟨t, ht, rfl⟩ := (ih (hinv s a m hs hm) (hQ.cons hm)).mp hrest
      exact ⟨t, ⟨m, hm, ht⟩, rfl⟩
    · rintro ⟨t, ⟨m, hm, ht⟩, rfl⟩
      exact ⟨view m, ⟨m, hm, rfl⟩, (ih (hinv s a m hs hm) (hQ.cons hm)).mpr ⟨t, ht, rfl⟩⟩

lemma replay_map {f : β → α} {bs : List β} :
    replay (fun s b => step s (f b)) s bs = replay step s (bs.map f) := by
  rw [replay, replay, foldlM_map]

/-! ## Divergence -/

/-- **Where two replays part.** When the next state depends only on a view of the entry, two runs
from one state have views one of which extends the other, or they accept, in one and the same
state, entries with different views. -/
lemma replay_diverges {view : α → β}
    (hdet : ∀ s a b t u, step s a = .ok t → step s b = .ok u → view a = view b → t = u) {s₁ s₂ : σ}
    (h₁ : replay step s as = .ok s₁) (h₂ : replay step s bs = .ok s₂) :
    as.map view <+: bs.map view ∨ bs.map view <+: as.map view ∨
      ∃ as₁ a as₂ bs₁ b bs₂ m, as = as₁ ++ a :: as₂ ∧ bs = bs₁ ++ b :: bs₂ ∧
        as₁.map view = bs₁.map view ∧ view a ≠ view b ∧
        replay step s as₁ = .ok m ∧ replay step s bs₁ = .ok m ∧
        Succeeds (step m a) ∧ Succeeds (step m b) := by
  classical
  induction as generalizing s bs with
  | nil => exact .inl nil_prefix
  | cons a as ih =>
    cases bs with
    | nil => exact .inr (.inl nil_prefix)
    | cons b bs =>
      obtain ⟨t, ht, hrest₁⟩ := replay_cons.mp h₁
      obtain ⟨u, hu, hrest₂⟩ := replay_cons.mp h₂
      by_cases hview : view a = view b
      · obtain rfl := hdet s a b t u ht hu hview
        simp only [map_cons, hview, cons_prefix_cons, true_and]
        rcases ih hrest₁ hrest₂ with h | h | ⟨as₁, x, as₂, bs₁, y, bs₂, m, rfl, rfl, hpre,
          hne, hm₁, hm₂, hx, hy⟩
        · exact .inl h
        · exact .inr (.inl h)
        · refine .inr (.inr ⟨a :: as₁, x, as₂, b :: bs₁, y, bs₂, m, rfl, rfl, ?_, hne, ?_, ?_,
            hx, hy⟩)
          · rw [map_cons, map_cons, hview, hpre]
          · exact replay_cons.mpr ⟨t, ht, hm₁⟩
          · exact replay_cons.mpr ⟨t, hu, hm₂⟩
      · exact .inr (.inr ⟨[], a, as, [], b, bs, s, rfl, rfl, rfl, hview, replay_nil.mpr rfl,
          replay_nil.mpr rfl, ⟨t, ht⟩, ⟨u, hu⟩⟩)

/-! ## Quorums -/

/-- **Quorum intersection.** Two sets of at least `q` of `n` members share `2 q - n` of them. -/
lemma quorum_overlap {ι : Type} [DecidableEq ι] {members A B : Finset ι} {q : ℕ}
    (hA : A ⊆ members) (hB : B ⊆ members) (hqA : q ≤ A.card) (hqB : q ≤ B.card) :
    2 * q - members.card ≤ (A ∩ B).card := by
  have hunion : (A ∪ B).card ≤ members.card := Finset.card_le_card (Finset.union_subset hA hB)
  have hcount := Finset.card_union_add_card_inter A B
  omega

/-- The distinct signers of a vector in signer order are as many as its entries. -/
lemma Ascending.card_toFinset_map {κ : Type} [LinearOrder κ] {key : α → κ} {xs : List α}
    (h : Ascending key xs) : (xs.map key).toFinset.card = xs.length := by
  rw [toFinset_card_of_nodup h.nodup_map, length_map]

end Framework
