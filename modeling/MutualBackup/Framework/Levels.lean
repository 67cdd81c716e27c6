import Mathlib.Algebra.BigOperators.Group.List.Basic
import Mathlib.Algebra.Order.Floor.Div
import Mathlib.Data.List.Forall2
import Mathlib.Data.Nat.Log
import Mathlib.Tactic.Ring
import MutualBackup.Framework.Outcome

/-!
# Trees built level by level

A tree of bounded fan-out over a stream of items can be built with a few references in hand: one
list of references per height, each shorter than the fan-out.  `carry` adds a reference to the
lowest list, and a list that becomes full is turned into one reference of the next height, as a
carry runs through the digits of a counter.  `close` turns what is left into one root, from the
lowest height up.

What a reference stands for is a parameter, `Stands s h r xs`: in the state `s` (of the store that
nodes are written to) the reference `r` of height `h` holds the items `xs`.  `Holds` says what the
lists hold while items are added: every reference is of a full subtree.  `Open` says what they hold
while the tree is closed: the lowest nonempty list may end in a subtree that is not full.  The two
specifications `carry_spec` and `close_spec` ask of the node constructor only that it succeeds on
children that are all full but the last (`Ragged`).  The root has the least height that has room
for the items, so the tree over `n` items has `nodesUpTo` its height nodes; a weight that every
node passes on from its children (`carry_weight`, `close_weight`) counts them as they are written.
-/

namespace Framework

open List

variable {ρ σ ε β : Type}

/-! ## The operations -/

section Operations

variable (node : ℕ → List ρ → σ → Outcome ε (ρ × σ)) (fanout : ℕ) (full unfinished : ε)

/-- Add a reference to the lists from its height up. -/
def carry : ℕ → List (List ρ) → ρ → σ → Outcome ε (List (List ρ) × σ)
  | _, [], _, _ => fail full
  | height, level :: above, r, s =>
    if (level ++ [r]).length < fanout then .ok ((level ++ [r]) :: above, s)
    else if above = [] then fail full
    else do
      let (parent, s) ← node (height + 1) (level ++ [r]) s
      let (above, s) ← carry (height + 1) above parent s
      pure ([] :: above, s)

/-- Turn the lists from a height up into one root; `n` heights are left. -/
def close : ℕ → ℕ → List (List ρ) → σ → Outcome ε (ρ × σ)
  | n + 1, height, [] :: above, s => close n (height + 1) above s
  | n + 1, height, (r :: rest) :: above, s =>
    if rest = [] ∧ ∀ level ∈ above, level = [] then .ok (r, s)
    else if above = [] then fail full
    else do
      let (parent, s) ← node (height + 1) (r :: rest) s
      let (above, s) ← carry node fanout full (height + 1) above parent s
      close n (height + 1) above s
  | _, _, _, _ => fail unfinished

end Operations

variable {levels : List (List ρ)} {s : σ} {height n : ℕ} {r : ρ}

section

variable {node node' : ℕ → List ρ → σ → Outcome ε (ρ × σ)}
  (hnode : ∀ {height children s x}, node height children s = .ok x →
    node' height children s = .ok x)

include hnode

/-- What carrying does with a node constructor it does with one that succeeds wherever that does. -/
lemma carry_imp {fanout : ℕ} {full : ε} {y : List (List ρ) × σ}
    (hcarry : carry node fanout full height levels r s = .ok y) :
    carry node' fanout full height levels r s = .ok y := by
  induction levels generalizing height r s y with
  | nil => exact hcarry
  | cons level above ih =>
    rw [carry] at hcarry ⊢
    split_ifs at hcarry ⊢ with hroom htop
    · exact hcarry
    · exact hcarry
    · simp only [bind_eq_ok] at hcarry ⊢
      obtain ⟨x, hx, z, hz, heq⟩ := hcarry
      exact ⟨x, hnode hx, z, ih hz, heq⟩

lemma close_imp {fanout : ℕ} {full unfinished : ε} {y : ρ × σ}
    (hclose : close node fanout full unfinished n height levels s = .ok y) :
    close node' fanout full unfinished n height levels s = .ok y := by
  induction n generalizing height levels s with
  | zero => cases hclose
  | succ n ih =>
    cases levels with
    | nil => cases hclose
    | cons level above =>
      cases level with
      | nil =>
        rw [close] at hclose ⊢
        exact ih hclose
      | cons r rest =>
        rw [close] at hclose ⊢
        split_ifs at hclose ⊢ with hsingle htop
        · exact hclose
        · exact hclose
        · simp only [bind_eq_ok] at hclose ⊢
          obtain ⟨x, hx, z, hz, hlater⟩ := hclose
          exact ⟨x, hnode hx, z, carry_imp hnode hz, ih hlater⟩

end

/-! ## What the lists hold -/

section Contents

variable (Stands : σ → ℕ → ρ → List β → Prop) (fanout : ℕ)

/-- All subtrees of height `h` are full, except that the last need not be. -/
def Ragged (h : ℕ) (parts : List (List β)) : Prop :=
  ∃ init last, parts = init ++ [last] ∧ (∀ p ∈ init, p.length = fanout ^ h) ∧
    0 < last.length ∧ last.length ≤ fanout ^ h

/-- The lists from height `h` up hold `xs` in full subtrees. -/
def Holds (s : σ) : ℕ → List (List ρ) → List β → Prop
  | _, [], xs => xs = []
  | h, level :: above, xs =>
    ∃ parts ys, List.Forall₂ (Stands s h) level parts ∧ (∀ p ∈ parts, p.length = fanout ^ h) ∧
      level.length < fanout ∧ Holds s (h + 1) above ys ∧ xs = ys ++ parts.flatten

/-- The lists from height `h` up hold `xs`, and the lowest nonempty one may end in a subtree that
is not full; below it no subtree has room for all of `xs`. -/
def Open (s : σ) : ℕ → List (List ρ) → List β → Prop
  | _, [], _ => False
  | h, level :: above, xs =>
    (level = [] ∧ fanout ^ h < xs.length ∧ Open s (h + 1) above xs) ∨
    ∃ parts ys, List.Forall₂ (Stands s h) level parts ∧ Ragged fanout h parts ∧
      level.length < fanout ∧ Holds Stands fanout s (h + 1) above ys ∧ xs = ys ++ parts.flatten

/-- The assumptions about nodes: what a reference stands for survives later writes, and a node can
be written over good children as long as they hold an end part of `total`. -/
structure Stacks (node : ℕ → List ρ → σ → Outcome ε (ρ × σ)) (Grows : σ → σ → Prop)
    (Good : σ → Prop) (top : ℕ) (total : List β) : Prop where
  two_le : 2 ≤ fanout
  total_le : total.length ≤ fanout ^ top
  refl : ∀ s, Grows s s
  trans : ∀ {s t u}, Grows s t → Grows t u → Grows s u
  mono : ∀ {s t h r xs}, Grows s t → Stands s h r xs → Stands t h r xs
  node : 2 ≤ total.length → ∀ {s h children parts}, h < top → Good s →
    List.Forall₂ (Stands s h) children parts → children.length ≤ fanout → Ragged fanout h parts →
    parts.flatten <:+ total →
    ∃ r t, node (h + 1) children s = .ok (r, t) ∧ Grows s t ∧ Good t ∧
      Stands t (h + 1) r parts.flatten

end Contents

variable {parts : List (List β)} {h : ℕ} {t : σ}

section Specification

variable {Stands : σ → ℕ → ρ → List β → Prop} {fanout : ℕ}
  {node : ℕ → List ρ → σ → Outcome ε (ρ × σ)} {Grows : σ → σ → Prop} {Good : σ → Prop}
  {top : ℕ} {total : List β}

/-- Every element of the first list is paired with one of the second. -/
lemma exists_of_mem_forall₂ {α γ : Type} {R : α → γ → Prop} {as : List α} {cs : List γ}
    (hall : Forall₂ R as cs) {a : α} (ha : a ∈ as) : ∃ c ∈ cs, R a c := by
  induction hall with
  | nil => cases ha
  | cons hfirst _ ih =>
    rcases mem_cons.mp ha with rfl | ha
    · exact ⟨_, mem_cons_self, hfirst⟩
    · obtain ⟨c, hc, hr⟩ := ih ha
      exact ⟨c, mem_cons_of_mem _ hc, hr⟩

lemma length_flatten_of_full (h : ∀ p ∈ parts, p.length = n) :
    parts.flatten.length = parts.length * n := by
  induction parts with
  | nil => simp
  | cons p parts ih =>
    rw [flatten_cons, length_append, h p mem_cons_self,
      ih fun q hq => h q (mem_cons_of_mem _ hq), length_cons]
    ring

/-- Full subtrees are full but for the last. -/
lemma ragged_of_full (hpos : 0 < fanout) (hne : parts ≠ [])
    (hfull : ∀ p ∈ parts, p.length = fanout ^ h) : Ragged fanout h parts := by
  obtain ⟨init, last, rfl⟩ := (eq_nil_or_concat' parts).resolve_left hne
  have hlast : last.length = fanout ^ h := hfull last (by simp)
  refine ⟨init, last, rfl, fun p hp => hfull p (mem_append_left _ hp), ?_, hlast.le⟩
  rw [hlast]
  exact pow_pos hpos h

/-- Empty lists hold nothing. -/
lemma holds_replicate_nil (s : σ) (h n : ℕ) (hpos : 0 < fanout) :
    Holds Stands fanout s h (replicate n []) [] := by
  induction n generalizing h with
  | zero => rfl
  | succ n ih => exact ⟨[], [], .nil, by simp, hpos, ih (h + 1), rfl⟩

variable {xs : List β}

section

variable (hholds : Holds Stands fanout s h levels xs)

include hholds

/-- Lists of full subtrees hold nothing exactly when they are empty. -/
lemma Holds.eq_nil_iff (hpos : 0 < fanout) : xs = [] ↔ ∀ level ∈ levels, level = [] := by
  induction levels generalizing h xs with
  | nil =>
    have hxs : xs = [] := hholds
    simp [hxs]
  | cons level above ih =>
    obtain ⟨parts, ys, hparts, hfull, -, hys, rfl⟩ := hholds
    have hpow : 0 < fanout ^ h := pow_pos hpos h
    have hlevel : parts.flatten = [] ↔ level = [] := by
      constructor
      · intro hflat
        have hlen := length_flatten_of_full hfull
        rw [hflat, length_nil] at hlen
        have hzero : parts.length = 0 := by
          rcases Nat.mul_eq_zero.mp hlen.symm with h | h <;> omega
        exact length_eq_zero_iff.mp (hparts.length_eq.trans hzero)
      · rintro rfl
        cases hparts
        rfl
    rw [append_eq_nil_iff, ih hys, hlevel, forall_mem_cons, and_comm]

/-- Lists of full subtrees that hold something hold at least one of their height. -/
lemma Holds.pow_le (hpos : 0 < fanout) (hne : xs ≠ []) : fanout ^ h ≤ xs.length := by
  induction levels generalizing h xs with
  | nil => exact absurd hholds hne
  | cons level above ih =>
    obtain ⟨parts, ys, hparts, hfull, -, hys, rfl⟩ := hholds
    rw [length_append, length_flatten_of_full hfull]
    by_cases hnil : parts = []
    · rw [hnil, flatten_nil, append_nil] at hne
      have habove := ih hys hne
      have hstep : fanout ^ h ≤ fanout ^ (h + 1) := Nat.pow_le_pow_right hpos (Nat.le_succ h)
      omega
    · have := Nat.le_mul_of_pos_left (fanout ^ h) (length_pos_of_ne_nil hnil)
      omega

/-- Lists of full subtrees that hold something can be closed. -/
lemma Holds.isOpen (htwo : 2 ≤ fanout) (hne : xs ≠ []) : Open Stands fanout s h levels xs := by
  induction levels generalizing h xs with
  | nil => exact hne hholds
  | cons level above ih =>
    obtain ⟨parts, ys, hparts, hfull, hlt, hys, rfl⟩ := hholds
    by_cases hnil : parts = []
    · subst hnil
      cases hparts
      rw [flatten_nil, append_nil] at hne ⊢
      have hroom : fanout ^ h < fanout ^ (h + 1) := Nat.pow_lt_pow_right (by omega) (by omega)
      exact .inl ⟨rfl, hroom.trans_le (hys.pow_le (by omega) hne), ih hys hne⟩
    · exact .inr ⟨parts, ys, hparts, ragged_of_full (by omega) hnil hfull, hlt, hys, rfl⟩

lemma Holds.mono (hstacks : Stacks Stands fanout node Grows Good top total) (hgrows : Grows s t) :
    Holds Stands fanout t h levels xs := by
  induction levels generalizing h xs with
  | nil => exact hholds
  | cons level above ih =>
    obtain ⟨parts, ys, hparts, hfull, hlt, hys, rfl⟩ := hholds
    exact ⟨parts, ys, hparts.imp fun _ _ => hstacks.mono hgrows, hfull, hlt, ih hys, rfl⟩

end

/-- Subtrees that are full but for the last fill at most what the fan-out allows. -/
lemma Ragged.length_le (hragged : Ragged fanout h parts) (hlen : parts.length ≤ fanout) :
    parts.flatten.length ≤ fanout ^ (h + 1) := by
  obtain ⟨init, last, rfl, hinit, -, hlast⟩ := hragged
  rw [length_append, length_singleton] at hlen
  rw [flatten_append, length_append, length_flatten_of_full hinit, flatten_singleton]
  calc init.length * fanout ^ h + last.length
      ≤ init.length * fanout ^ h + fanout ^ h := Nat.add_le_add_left hlast _
    _ = (init.length + 1) * fanout ^ h := by ring
    _ ≤ fanout * fanout ^ h := Nat.mul_le_mul_right _ hlen
    _ = fanout ^ (h + 1) := by rw [pow_succ, Nat.mul_comm]

/-- No subtree is empty. -/
lemma Ragged.part_pos (hpos : 0 < fanout) (hragged : Ragged fanout h parts) :
    ∀ p ∈ parts, 0 < p.length := by
  obtain ⟨init, last, rfl, hinit, hlast, -⟩ := hragged
  intro p hp
  rcases mem_append.mp hp with hp | hp
  · rw [hinit p hp]
    exact pow_pos hpos h
  · rw [mem_singleton.mp hp]
    exact hlast

lemma Ragged.length_pos (hragged : Ragged fanout h parts) : 0 < parts.flatten.length := by
  obtain ⟨init, last, rfl, -, hpos, -⟩ := hragged
  simp only [flatten_append, flatten_singleton, length_append]
  omega

/-- **Adding.**  A subtree added to lists of full subtrees leaves lists that hold it after the
rest; if it is full, the lists are again of full subtrees. -/
lemma carry_spec (full : ε) (hstacks : Stacks Stands fanout node Grows Good top total) {zs : List β}
    (hheight : h + levels.length = top + 1) (hlevels : levels ≠ []) (hgood : Good s)
    (hholds : Holds Stands fanout s h levels xs) (hstands : Stands s h r zs) (hpos : 0 < zs.length)
    (hle : zs.length ≤ fanout ^ h) (htotal : xs ++ zs = total) :
    ∃ levels' t, carry node fanout full h levels r s = .ok (levels', t) ∧ Grows s t ∧ Good t ∧
      levels'.length = levels.length ∧ Open Stands fanout t h levels' total ∧
      (zs.length = fanout ^ h → Holds Stands fanout t h levels' total) := by
  induction levels generalizing h r s xs zs with
  | nil => exact absurd rfl hlevels
  | cons level above ih =>
    obtain ⟨parts, ys, hparts, hfull, hlt, hys, rfl⟩ := hholds
    have hlen : level.length = parts.length := hparts.length_eq
    have hparts' : Forall₂ (Stands s h) (level ++ [r]) (parts ++ [zs]) :=
      rel_append hparts (.cons hstands .nil)
    have hragged : Ragged fanout h (parts ++ [zs]) := ⟨parts, zs, rfl, hfull, hpos, hle⟩
    have hflat : (parts ++ [zs]).flatten = parts.flatten ++ zs := by
      rw [flatten_append, flatten_singleton]
    have hsum : total = ys ++ (parts ++ [zs]).flatten := by
      rw [hflat, ← htotal, append_assoc]
    rw [carry]
    by_cases hroom : (level ++ [r]).length < fanout
    · -- The list has room.
      rw [if_pos hroom]
      refine ⟨_, s, rfl, hstacks.refl s, hgood, rfl,
        .inr ⟨parts ++ [zs], ys, hparts', hragged, hroom, hys, hsum⟩, fun hzs => ?_⟩
      refine ⟨parts ++ [zs], ys, hparts', ?_, hroom, hys, hsum⟩
      intro p hp
      rcases mem_append.mp hp with hp | hp
      · exact hfull p hp
      · rw [mem_singleton.mp hp]
        exact hzs
    · rw [if_neg hroom]
      rw [length_append, length_singleton] at hroom
      have htwo := hstacks.two_le
      have hone : 1 ≤ parts.length := by omega
      have hcount : parts.flatten.length = parts.length * fanout ^ h := length_flatten_of_full hfull
      have hpow : 0 < fanout ^ h := pow_pos (by omega) h
      have htotalLen : total.length = ys.length + parts.length * fanout ^ h + zs.length := by
        rw [← htotal, length_append, length_append, hcount]
      have hge : fanout ^ h ≤ parts.length * fanout ^ h := Nat.le_mul_of_pos_left _ hone
      by_cases htop : above = []
      · -- The highest list is never full: it alone would hold more than `total`.
        have hh : h = top := by
          rw [htop] at hheight
          simpa using hheight
        have hbound := hstacks.total_le
        rw [← hh] at hbound
        omega
      · rw [if_neg htop]
        have habove : 0 < above.length := length_pos_of_ne_nil htop
        have hheight' : h + 1 + above.length = top + 1 := by
          rw [length_cons] at hheight
          omega
        obtain ⟨parent, t, hnode, hgrows, hgoodt, hparent⟩ :=
          hstacks.node (by omega) (by omega) hgood hparts'
            (by rw [length_append, length_singleton]; omega) hragged
            ⟨ys, hsum.symm⟩
        obtain ⟨above', u, hcarry, hgrows', hgoodu, hlength, hopen, hfull'⟩ :=
          ih hheight' htop hgoodt (hys.mono hstacks hgrows) hparent hragged.length_pos
            (hragged.length_le (by rw [length_append, length_singleton]; omega))
            hsum.symm
        refine ⟨[] :: above', u, ?_, hstacks.trans hgrows hgrows', hgoodu, by simp [hlength],
          .inl ⟨rfl, by omega, hopen⟩, fun hzs => ?_⟩
        · rw [hnode, ok_bind]
          simp only
          rw [hcarry, ok_bind]
          rfl
        · -- A full list of full subtrees is a full subtree.
          have hsame : (parts ++ [zs]).flatten.length = fanout ^ (h + 1) := by
            have hk : parts.length + 1 = fanout := by omega
            calc (parts ++ [zs]).flatten.length
                = parts.length * fanout ^ h + fanout ^ h := by
                  rw [hflat, length_append, hcount, hzs]
              _ = (parts.length + 1) * fanout ^ h := by ring
              _ = fanout ^ (h + 1) := by rw [hk, pow_succ, Nat.mul_comm]
          exact ⟨[], total, .nil, by simp, by rw [length_nil]; omega, hfull' hsame, by simp⟩

/-- **Closing.**  Lists that hold `total` are closed into one root that stands for it, of the least
height that has room. -/
lemma close_spec (full unfinished : ε) (hstacks : Stacks Stands fanout node Grows Good top total)
    (hheight : h + levels.length = top + 1) (hgood : Good s)
    (hbelow : h ≤ Nat.clog fanout total.length) (hopen : Open Stands fanout s h levels total) :
    ∃ root t, close node fanout full unfinished levels.length h levels s = .ok (root, t) ∧
      Grows s t ∧ Good t ∧ Stands t (Nat.clog fanout total.length) root total := by
  -- Carrying keeps the number of lists, so the induction is on it.
  obtain ⟨n, hn⟩ : ∃ n, levels.length = n := ⟨_, rfl⟩
  rw [hn]
  induction n generalizing h levels s with
  | zero =>
    rw [length_eq_zero_iff.mp hn] at hopen
    exact absurd hopen id
  | succ n ih =>
    obtain ⟨level, above, rfl⟩ := exists_cons_of_length_eq_add_one hn
    have hn' : above.length = n := by simpa using hn
    have hheight' : h + 1 + above.length = top + 1 := by
      rw [length_cons] at hheight
      omega
    have hbelow' : fanout ^ h < total.length → h + 1 ≤ Nat.clog fanout total.length :=
      (Nat.lt_clog_iff_pow_lt hstacks.two_le).mpr
    rcases hopen with ⟨rfl, hmore, habove⟩ | ⟨parts, ys, hparts, hragged, hlt, hys, hsum⟩
    · exact ih hheight' hgood (hbelow' hmore) habove hn'
    · have htwo := hstacks.two_le
      have hpow : 0 < fanout ^ h := pow_pos (by omega) h
      have hlen : level.length = parts.length := hparts.length_eq
      obtain ⟨init, last, rfl, hinit, hlastPos, hlastLe⟩ := hragged
      cases level with
      | nil =>
        rw [length_append] at hlen
        simp at hlen
      | cons r rest =>
        rw [close]
        by_cases hsingle : rest = [] ∧ ∀ level ∈ above, level = []
        · -- One reference and nothing above: it is the root.
          rw [if_pos hsingle]
          obtain ⟨rfl, hempty⟩ := hsingle
          have hnil : init = [] := by
            rw [length_append] at hlen
            simpa using hlen
          have hysNil : ys = [] := (hys.eq_nil_iff (by omega)).mpr hempty
          subst hnil hysNil
          have hr : Stands s h r total := by
            cases hparts with
            | cons hr _ =>
              rw [hsum]
              simpa using hr
          have hleast : Nat.clog fanout total.length = h := by
            refine Nat.le_antisymm (Nat.clog_le_of_le_pow ?_) hbelow
            rw [hsum]
            simpa using hlastLe
          exact ⟨r, s, rfl, hstacks.refl s, hgood, by rw [hleast]; exact hr⟩
        · rw [if_neg hsingle]
          have htotalLen : total.length = ys.length + init.length * fanout ^ h + last.length := by
            rw [hsum, flatten_append, flatten_singleton, length_append,
              length_append, length_flatten_of_full hinit, Nat.add_assoc]
          have hinitLen : rest.length = init.length := by
            rw [length_cons, length_append, length_singleton] at hlen
            omega
          have hge : rest ≠ [] → fanout ^ h ≤ init.length * fanout ^ h := by
            intro hrest
            have := length_pos_of_ne_nil hrest
            exact Nat.le_mul_of_pos_left _ (by omega)
          by_cases htop : above = []
          · -- In the highest list, two references would hold more than `total`.
            have hrest : rest ≠ [] := by
              rintro rfl
              exact hsingle ⟨rfl, by simp [htop]⟩
            have hh : h = top := by
              rw [htop] at hheight
              simpa using hheight
            have hmany := hge hrest
            have hbound := hstacks.total_le
            rw [← hh] at hbound
            omega
          · rw [if_neg htop]
            -- No subtree of this height has room: a second reference here, or one in a list above.
            have hmore : fanout ^ h < total.length := by
              by_cases hrest : rest = []
              · have hys' : ys ≠ [] := by
                  intro hnil
                  exact hsingle ⟨hrest, (hys.eq_nil_iff (by omega)).mp hnil⟩
                have hstep : fanout ^ h ≤ fanout ^ (h + 1) :=
                  Nat.pow_le_pow_right (by omega) (Nat.le_succ h)
                have := hys.pow_le (by omega) hys'
                omega
              · have := hge hrest
                omega
            have hragged : Ragged fanout h (init ++ [last]) :=
              ⟨init, last, rfl, hinit, hlastPos, hlastLe⟩
            have habove : 0 < above.length := length_pos_of_ne_nil htop
            obtain ⟨parent, t, hnode, hgrows, hgoodt, hparent⟩ :=
              hstacks.node (by omega) (by omega) hgood hparts hlt.le hragged ⟨ys, hsum.symm⟩
            obtain ⟨above', u, hcarry, hgrows', hgoodu, hlength, hopen, -⟩ :=
              carry_spec full hstacks hheight' htop hgoodt
                (hys.mono hstacks hgrows) hparent hragged.length_pos
                (hragged.length_le (by omega)) hsum.symm
            obtain ⟨root, v, hclose, hgrows'', hgoodv, hroot⟩ :=
              ih (by rw [hlength]; exact hheight') hgoodu (hbelow' hmore) hopen
                (by rw [hlength]; exact hn')
            refine ⟨root, v, ?_, hstacks.trans (hstacks.trans hgrows hgrows') hgrows'', hgoodv,
              hroot⟩
            rw [hnode, ok_bind]
            simp only
            rw [hcarry, ok_bind]
            exact hclose

end Specification

/-! ## Counting nodes -/

section Counting

variable {fanout : ℕ}

/-- The nodes of heights `0` to `h` over `n` items. -/
def nodesUpTo (fanout : ℕ) : ℕ → ℕ → ℕ
  | 0, n => n
  | h + 1, n => nodesUpTo fanout h n + n ⌈/⌉ fanout ^ (h + 1)

variable {d : ℕ}

lemma mul_add_ceilDiv (hd : 0 < d) (k n : ℕ) : (d * k + n) ⌈/⌉ d = k + n ⌈/⌉ d := by
  rw [Nat.ceilDiv_eq_add_pred_div, Nat.ceilDiv_eq_add_pred_div,
    show d * k + n + d - 1 = d * k + (n + d - 1) by omega, Nat.mul_add_div hd]

variable {m : ℕ}

lemma ceilDiv_mono (hd : 0 < d) (hmn : m ≤ n) : m ⌈/⌉ d ≤ n ⌈/⌉ d :=
  (gc_mul_ceilDiv hd).monotone_l hmn

/-- One node is enough for what it has room for. -/
lemma ceilDiv_eq_one (hpos : 0 < n) (hle : n ≤ d) : n ⌈/⌉ d = 1 := by
  have hd : 0 < d := by omega
  apply Nat.le_antisymm
  · rw [ceilDiv_le_iff_le_mul hd]
    omega
  · rw [Nat.one_le_iff_ne_zero]
    intro hzero
    have := (ceilDiv_le_iff_le_mul hd).mp hzero.le
    omega

lemma ceilDiv_ceilDiv {c : ℕ} (hc : 0 < c) (hd : 0 < d) (n : ℕ) :
    n ⌈/⌉ c ⌈/⌉ d = n ⌈/⌉ (c * d) := by
  apply eq_of_forall_ge_iff
  intro k
  rw [ceilDiv_le_iff_le_mul hd, ceilDiv_le_iff_le_mul hc, ceilDiv_le_iff_le_mul (Nat.mul_pos hc hd),
    Nat.mul_assoc]

lemma nodesUpTo_mono (hpos : 0 < fanout) {k : ℕ} (hhk : h ≤ k) (hmn : m ≤ n) :
    nodesUpTo fanout h m ≤ nodesUpTo fanout k n := by
  induction k generalizing h with
  | zero =>
    obtain rfl : h = 0 := by omega
    exact hmn
  | succ k ih =>
    have hlevel := ceilDiv_mono (pow_pos hpos (k + 1)) hmn
    rcases Nat.lt_or_ge k h with hlt | hle
    · obtain rfl : h = k + 1 := by omega
      exact Nat.add_le_add (ih le_rfl) hlevel
    · exact (ih hle).trans (Nat.le_add_right _ _)

/-- Full subtrees share no node with what follows them. -/
lemma nodesUpTo_add (hpos : 0 < fanout) (hdvd : fanout ^ h ∣ m) (n : ℕ) :
    nodesUpTo fanout h (m + n) = nodesUpTo fanout h m + nodesUpTo fanout h n := by
  induction h with
  | zero => rfl
  | succ h ih =>
    have hlevel : (m + n) ⌈/⌉ fanout ^ (h + 1) =
        m ⌈/⌉ fanout ^ (h + 1) + n ⌈/⌉ fanout ^ (h + 1) := by
      obtain ⟨k, rfl⟩ := hdvd
      have hk : fanout ^ (h + 1) * k ⌈/⌉ fanout ^ (h + 1) = k := smul_ceilDiv (pow_pos hpos _) k
      rw [mul_add_ceilDiv (pow_pos hpos _), hk]
    rw [nodesUpTo, nodesUpTo, nodesUpTo, ih (dvd_trans (pow_dvd_pow fanout h.le_succ) hdvd), hlevel]
    omega

/-- A node over subtrees that are full but for the last. -/
lemma Ragged.nodesUpTo_succ (hpos : 0 < fanout) (hragged : Ragged fanout h parts)
    (hlen : parts.length ≤ fanout) :
    nodesUpTo fanout (h + 1) parts.flatten.length =
      1 + (parts.map fun p => nodesUpTo fanout h p.length).sum := by
  have hone := ceilDiv_eq_one hragged.length_pos (hragged.length_le hlen)
  obtain ⟨init, last, rfl, hinit, -, -⟩ := hragged
  have hsum : nodesUpTo fanout h (init ++ [last]).flatten.length =
      ((init ++ [last]).map fun p => nodesUpTo fanout h p.length).sum := by
    clear hone hlen
    induction init with
    | nil => simp
    | cons p init ih =>
      have hp : p.length = fanout ^ h := hinit p mem_cons_self
      rw [cons_append, flatten_cons, length_append,
        nodesUpTo_add hpos (Dvd.intro 1 (by rw [hp, Nat.mul_one])), map_cons, sum_cons,
        ih fun q hq => hinit q (mem_cons_of_mem _ hq)]
  rw [nodesUpTo, hone, hsum, Nat.add_comm]

variable {node : ℕ → List ρ → σ → Outcome ε (ρ × σ)} {w : ρ → ℕ} {z : σ → ℕ}

variable (hnode : ∀ {height children s r t}, node height children s = .ok (r, t) →
    z t + (children.map w).sum = z s + w r)

include hnode

/-- A measure of the store that every node raises by what it weighs more than its children is
raised by carrying as much as the weight of the lists. -/
lemma carry_weight {full : ε} {levels' : List (List ρ)}
    (hcarry : carry node fanout full height levels r s = .ok (levels', t)) :
    z t + (levels.flatten.map w).sum + w r = z s + (levels'.flatten.map w).sum := by
  induction levels generalizing height levels' r s t with
  | nil => cases hcarry
  | cons level above ih =>
    rw [carry] at hcarry
    split_ifs at hcarry with hroom htop
    · cases hcarry
      simp only [flatten_cons, map_append, sum_append, map_cons, map_nil, sum_cons, sum_nil]
      omega
    · cases hcarry
    · simp only [bind_eq_ok, pure_eq_ok, Prod.exists] at hcarry
      obtain ⟨parent, s₁, hparent, above', s₂, habove, heq⟩ := hcarry
      cases heq
      have hone := hnode hparent
      have hrest := ih habove
      simp only [flatten_cons, map_append, sum_append, map_cons, map_nil,
        sum_cons, sum_nil, nil_append] at hone hrest ⊢
      omega

lemma close_weight {full unfinished : ε} {root : ρ}
    (hclose : close node fanout full unfinished n height levels s = .ok (root, t)) :
    z t + (levels.flatten.map w).sum = z s + w root := by
  induction n generalizing height levels s with
  | zero => cases hclose
  | succ n ih =>
    cases levels with
    | nil => cases hclose
    | cons level above =>
      cases level with
      | nil =>
        rw [close] at hclose
        rw [flatten_cons, nil_append]
        exact ih hclose
      | cons r rest =>
        rw [close] at hclose
        split_ifs at hclose with hsingle htop
        · cases hclose
          obtain ⟨rfl, hempty⟩ := hsingle
          simp [flatten_eq_nil_iff.mpr hempty]
        · cases hclose
        · simp only [bind_eq_ok, Prod.exists] at hclose
          obtain ⟨parent, s₁, hparent, above', s₂, habove, hlater⟩ := hclose
          have hone := hnode hparent
          have hcarry := carry_weight hnode habove
          have hrest := ih hlater
          rw [flatten_cons, map_append, sum_append]
          omega

end Counting

end Framework
