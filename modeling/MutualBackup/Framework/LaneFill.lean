import Mathlib.Data.Finset.Card
import Mathlib.Tactic.Common

/-!
# Filling lanes from capacities

A lane of size `d` takes one use of `d` different places, and a place can be used as often as its
capacity says.  `Fillable c ds` says that lanes of the given sizes can be filled one after another.

The greedy choice is safe: if the lanes can be filled at all, they can be filled when the first one
takes places of the largest capacity, where a capacity counts for no more than the number of lanes
(`Fillable.greedy`).  The argument exchanges one place of a choice at a time, and an exchange moves
one use from a place with more to one with less (`Fillable.balance`).
-/

namespace Framework

variable {δ : Type} [DecidableEq δ]

/-- The capacities after one use of every place of a set. -/
def spend (c : δ → ℕ) (s : Finset δ) : δ → ℕ := fun a => if a ∈ s then c a - 1 else c a

/-- Lanes of the given sizes can be filled, one after another. -/
def Fillable : (δ → ℕ) → List ℕ → Prop
  | _, [] => True
  | c, d :: ds => ∃ s : Finset δ, s.card = d ∧ (∀ a ∈ s, 0 < c a) ∧ Fillable (spend c s) ds

variable {c c' : δ → ℕ} {ds : List ℕ} {d : ℕ} {s : Finset δ} {a b : δ}

lemma spend_of_mem (h : a ∈ s) : spend c s a = c a - 1 := if_pos h

lemma spend_of_notMem (h : a ∉ s) : spend c s a = c a := if_neg h

/-- A place is used at most once a lane, so no capacity counts for more than there are lanes. -/
lemma Fillable.of_min_le (h : Fillable c ds) (hle : ∀ a, min (c a) ds.length ≤ c' a) :
    Fillable c' ds := by
  induction ds generalizing c c' with
  | nil => trivial
  | cons d ds ih =>
    obtain ⟨s, hcard, hpos, hrest⟩ := h
    simp only [List.length_cons] at hle
    refine ⟨s, hcard, fun a ha => ?_, ih hrest fun a => ?_⟩
    · have := hpos a ha
      have := hle a
      omega
    · have := hle a
      by_cases ha : a ∈ s
      · rw [spend_of_mem ha, spend_of_mem ha]
        omega
      · rw [spend_of_notMem ha, spend_of_notMem ha]
        omega

/-- One use moved from a place to another. -/
def moveUse (c : δ → ℕ) (a b : δ) : δ → ℕ :=
  Function.update (Function.update c a (c a - 1)) b (c b + 1)

lemma moveUse_to : moveUse c a b b = c b + 1 := Function.update_self _ _ _

lemma moveUse_of_from (hab : a ≠ b) : moveUse c a b a = c a - 1 := by
  rw [moveUse, Function.update_of_ne hab, Function.update_self]

lemma moveUse_of_ne {x : δ} (ha : x ≠ a) (hb : x ≠ b) : moveUse c a b x = c x := by
  rw [moveUse, Function.update_of_ne hb, Function.update_of_ne ha]

/-- **Capacities may be balanced.** -/
lemma Fillable.balance (h : Fillable c ds) (hlt : c b < c a) : Fillable (moveUse c a b) ds := by
  have hab : a ≠ b := by
    rintro rfl
    exact absurd hlt (lt_irrefl _)
  induction ds generalizing c with
  | nil => trivial
  | cons d ds ih =>
    obtain ⟨s, hcard, hpos, hrest⟩ := h
    -- where the first lane does not use `a` without `b` up to equality, it stays as it is
    have hkeep : (a ∈ s → 1 < c a) → spend c s b < spend c s a →
        Fillable (moveUse c a b) (d :: ds) := by
      intro htwo hless
      refine ⟨s, hcard, fun x hx => ?_, (ih hrest hless).of_min_le fun x => ?_⟩
      · have hx' := hpos x hx
        by_cases hxb : x = b
        · rw [hxb, moveUse_to]
          omega
        · by_cases hxa : x = a
          · subst hxa
            rw [moveUse_of_from hab]
            have := htwo hx
            omega
          · rwa [moveUse_of_ne hxa hxb]
      · refine (min_le_left _ _).trans (le_of_eq ?_)
        by_cases hxb : x = b
        · subst hxb
          by_cases hx : x ∈ s
          · have := hpos x hx
            rw [moveUse_to, spend_of_mem hx, spend_of_mem hx, moveUse_to]
            omega
          · rw [moveUse_to, spend_of_notMem hx, spend_of_notMem hx, moveUse_to]
        · by_cases hxa : x = a
          · subst hxa
            by_cases hx : x ∈ s
            · rw [moveUse_of_from hab, spend_of_mem hx, spend_of_mem hx, moveUse_of_from hab]
            · rw [moveUse_of_from hab, spend_of_notMem hx, spend_of_notMem hx, moveUse_of_from hab]
          · by_cases hx : x ∈ s
            · rw [moveUse_of_ne hxa hxb, spend_of_mem hx, spend_of_mem hx, moveUse_of_ne hxa hxb]
            · rw [moveUse_of_ne hxa hxb, spend_of_notMem hx, spend_of_notMem hx,
                moveUse_of_ne hxa hxb]
    by_cases ha : a ∈ s
    · by_cases hb : b ∈ s
      · have := hpos b hb
        refine hkeep (fun _ => by omega) ?_
        rw [spend_of_mem ha, spend_of_mem hb]
        omega
      · by_cases hmore : c b < c a - 1
        · refine hkeep (fun _ => by omega) ?_
          rw [spend_of_mem ha, spend_of_notMem hb]
          exact hmore
        · -- the two capacities are exchanged, and so are the two places
          have heq : c a = c b + 1 := by omega
          refine ⟨insert b (s.erase a), ?_, fun x hx => ?_, hrest.of_min_le fun x => ?_⟩
          · rw [Finset.card_insert_of_notMem (by simp [hb]), Finset.card_erase_of_mem ha]
            have := Finset.card_pos.mpr ⟨a, ha⟩
            omega
          · rcases Finset.mem_insert.mp hx with rfl | hx
            · rw [moveUse_to]
              omega
            · obtain ⟨hxa, hxs⟩ := Finset.mem_erase.mp hx
              have hxb : x ≠ b := fun heq => hb (heq ▸ hxs)
              rw [moveUse_of_ne hxa hxb]
              exact hpos x hxs
          · refine (min_le_left _ _).trans (le_of_eq ?_)
            by_cases hxb : x = b
            · subst hxb
              rw [spend_of_notMem hb, spend_of_mem (Finset.mem_insert_self _ _), moveUse_to]
              omega
            · by_cases hxa : x = a
              · subst hxa
                rw [spend_of_mem ha, spend_of_notMem (by simp [hxb]), moveUse_of_from hab]
              · by_cases hx : x ∈ s
                · rw [spend_of_mem hx, spend_of_mem (by simp [hxa, hx]), moveUse_of_ne hxa hxb]
                · rw [spend_of_notMem hx, spend_of_notMem (by simp [hxb, hx]),
                    moveUse_of_ne hxa hxb]
    · refine hkeep (fun h => absurd h ha) ?_
      rw [spend_of_notMem ha]
      by_cases hb : b ∈ s
      · rw [spend_of_mem hb]
        omega
      · rw [spend_of_notMem hb]
        exact hlt

/-- One place of the first lane may be exchanged for another that has at least as much capacity. -/
lemma Fillable.exchange (hpos : ∀ x ∈ s, 0 < c x) (h : Fillable (spend c s) ds) (ha : a ∉ s)
    (hb : b ∈ s) (hle : min (c b) (ds.length + 1) ≤ min (c a) (ds.length + 1)) :
    Fillable (spend c (insert a (s.erase b))) ds := by
  have hab : a ≠ b := fun heq => ha (heq ▸ hb)
  have hb' : b ∉ insert a (s.erase b) := by simp [hab.symm]
  have hbpos := hpos b hb
  have hother : ∀ x, x ≠ a → x ≠ b → spend c (insert a (s.erase b)) x = spend c s x := by
    intro x hxa hxb
    by_cases hx : x ∈ s
    · rw [spend_of_mem hx, spend_of_mem (by simp [hxb, hx])]
    · rw [spend_of_notMem hx, spend_of_notMem (by simp [hxa, hx])]
  rcases Nat.lt_or_ge (c a) (c b) with hlt | hge
  · -- `a` has enough for every lane
    refine h.of_min_le fun x => ?_
    by_cases hxa : x = a
    · subst hxa
      rw [spend_of_mem (Finset.mem_insert_self _ _)]
      omega
    · by_cases hxb : x = b
      · subst hxb
        rw [spend_of_mem hb, spend_of_notMem hb']
        omega
      · rw [hother x hxa hxb]
        exact min_le_left _ _
  · have hless : spend c s b < spend c s a := by
      rw [spend_of_mem hb, spend_of_notMem ha]
      omega
    refine (h.balance hless).of_min_le fun x => (min_le_left _ _).trans (le_of_eq ?_)
    by_cases hxb : x = b
    · subst hxb
      rw [moveUse_to, spend_of_mem hb, spend_of_notMem hb']
      omega
    · by_cases hxa : x = a
      · subst hxa
        rw [moveUse_of_from hab, spend_of_notMem ha, spend_of_mem (Finset.mem_insert_self _ _)]
      · rw [moveUse_of_ne hxa hxb, hother x hxa hxb]

/-- **The greedy choice is safe.** -/
lemma Fillable.greedy (h : Fillable c (d :: ds)) {g : Finset δ} (hcard : g.card = d)
    (hlargest : ∀ a ∈ g, ∀ b ∉ g, min (c b) (ds.length + 1) ≤ min (c a) (ds.length + 1)) :
    Fillable (spend c g) ds := by
  obtain ⟨s, hs, hpos, hrest⟩ := h
  -- the choices are made equal one exchange at a time
  induction hn : (s \ g).card generalizing s with
  | zero =>
    have hsub : s ⊆ g := Finset.sdiff_eq_empty_iff_subset.mp (Finset.card_eq_zero.mp hn)
    have hsame : s = g := Finset.eq_of_subset_of_card_le hsub (by omega)
    rwa [hsame] at hrest
  | succ n ih =>
    obtain ⟨b, hb⟩ := Finset.card_pos.mp (by omega : 0 < (s \ g).card)
    obtain ⟨hbs, hbg⟩ := Finset.mem_sdiff.mp hb
    have hcards : (g \ s).card = (s \ g).card := Finset.card_sdiff_comm (by omega)
    obtain ⟨a, ha⟩ := Finset.card_pos.mp (by omega : 0 < (g \ s).card)
    obtain ⟨hag, has⟩ := Finset.mem_sdiff.mp ha
    have hle := hlargest a hag b hbg
    have hbpos := hpos b hbs
    refine ih (insert a (s.erase b)) ?_ (fun x hx => ?_) (hrest.exchange hpos has hbs hle) ?_
    · rw [Finset.card_insert_of_notMem (by simp [has]), Finset.card_erase_of_mem hbs]
      have := Finset.card_pos.mpr ⟨b, hbs⟩
      omega
    · rcases Finset.mem_insert.mp hx with rfl | hx
      · omega
      · exact hpos x (Finset.mem_of_mem_erase hx)
    · have hdiff : insert a (s.erase b) \ g = (s \ g).erase b := by
        ext x
        simp only [Finset.mem_sdiff, Finset.mem_insert, Finset.mem_erase]
        constructor
        · rintro ⟨rfl | ⟨hxb, hxs⟩, hxg⟩
          · exact absurd hag hxg
          · exact ⟨hxb, hxs, hxg⟩
        · rintro ⟨hxb, hxs, hxg⟩
          exact ⟨.inr ⟨hxb, hxs⟩, hxg⟩
      rw [hdiff, Finset.card_erase_of_mem hb, hn]
      rfl

end Framework
