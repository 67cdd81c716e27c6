import Mathlib.Algebra.Group.Nat.Even
import Mathlib.Algebra.Ring.Parity
import Mathlib.Data.Nat.Bitwise
import Mathlib.Logic.Function.Iterate
import Mathlib.Tactic.Ring

/-!
# Binary hash trees

A level of a tree is a function on positions, and `level k f` is the level `k` steps above `f`:
every node joins two neighbours of the level below.  A subtree is named by its height and its
position, so that nothing here depends on how a program lays out its nodes.

Three things are done with a tree.  `climb` walks from a node to the root with the siblings it is
given, and with those of the tree (`path`) it arrives at the tree's own root.  `carry` adds a node
to a binary counter of pending subtrees, one per height.  And a root is opened: the joining function
is not assumed to be injective, which no function from pairs of digests to digests is, but only to
separate the pairs that were joined in the tree (`inputs`) from those that were joined on the walk
(`climbInputs`) or in another tree.
-/

namespace Framework.HashTree

open List

variable {δ : Type} (node : δ → δ → δ)

/-! ## Levels -/

/-- The level above: every node joins two neighbours. -/
def parents (f : ℕ → δ) (i : ℕ) : δ := node (f (2 * i)) (f (2 * i + 1))

/-- The level `k` steps above. -/
def level (k : ℕ) (f : ℕ → δ) : ℕ → δ := (parents node)^[k] f

variable {node} {f g : ℕ → δ} {i j k m n : ℕ}

@[simp] lemma level_zero : level node 0 f = f := rfl

lemma level_succ' :
    level node (k + 1) f i = node (level node k f (2 * i)) (level node k f (2 * i + 1)) := by
  rw [level, Function.iterate_succ_apply']
  rfl

lemma level_add : level node (j + k) f = level node k (level node j f) := by
  rw [level, Nat.add_comm, Function.iterate_add_apply]
  rfl

/-- A subtree depends on the nodes it stands over. -/
lemma level_congr (h : ∀ a < 2 ^ k, f (2 ^ k * i + a) = g (2 ^ k * j + a)) :
    level node k f i = level node k g j := by
  induction k generalizing i j with
  | zero => simpa using h 0 (by norm_num)
  | succ k ih =>
    have hleft : level node k f (2 * i) = level node k g (2 * j) := by
      refine ih fun a ha => ?_
      have := h a (by rw [pow_succ]; omega)
      rwa [pow_succ, Nat.mul_assoc, Nat.mul_assoc] at this
    have hright : level node k f (2 * i + 1) = level node k g (2 * j + 1) := by
      refine ih fun a ha => ?_
      have := h (2 ^ k + a) (by rw [pow_succ]; omega)
      rwa [pow_succ, Nat.mul_assoc, Nat.mul_assoc, ← Nat.add_assoc, ← Nat.add_assoc,
        ← Nat.mul_succ, ← Nat.mul_succ] at this
    rw [level_succ', level_succ', hleft, hright]

/-- Over equal nodes every level is made of equal nodes. -/
lemma level_of_eq {c : δ} (h : ∀ a < 2 ^ k, f (2 ^ k * i + a) = c) :
    level node k f i = (fun r => node r r)^[k] c := by
  have hconst : ∀ k i, level node k (fun _ => c) i = (fun r => node r r)^[k] c := by
    intro k
    induction k with
    | zero => exact fun _ => rfl
    | succ k ih =>
      intro i
      rw [level_succ', ih, ih, Function.iterate_succ_apply']
  rw [← hconst k i]
  exact level_congr h

/-! ### Levels as lists -/

variable (node)

/-- The levels of a tree of height `m`, from its leaves to its root. -/
def rows : ℕ → (ℕ → δ) → List (List δ)
  | 0, f => [[f 0]]
  | m + 1, f => (List.range (2 ^ (m + 1))).map f :: rows m (parents node f)

variable {node}

lemma head?_rows : (rows node m f).head? = some ((List.range (2 ^ m)).map f) := by
  cases m <;> rfl

lemma drop_rows : (rows node (k + m) f).drop k = rows node m (level node k f) := by
  induction k generalizing f with
  | zero => rw [Nat.zero_add, drop_zero, level_zero]
  | succ k ih =>
    rw [Nat.add_right_comm, rows, drop_succ_cons, ih]
    rfl

lemma getLast?_rows : (rows node m f).getLast? = some [level node m f 0] := by
  induction m generalizing f with
  | zero => rfl
  | succ m ih =>
    rw [rows, getLast?_cons, ih]
    rfl

/-! ## Walks to the root -/

variable (node)

/-- A node and its sibling in the order in which they are joined. -/
def join (i : ℕ) (current sibling : δ) : δ × δ :=
  if i % 2 = 0 then (current, sibling) else (sibling, current)

/-- The walk from a node to the root, with a sibling for every level. -/
def climb : δ → ℕ → List δ → δ
  | current, _, [] => current
  | current, i, sibling :: rest =>
    climb (node (join i current sibling).1 (join i current sibling).2) (i / 2) rest

/-- The siblings in a tree of height `m` on the way from a node to the root. -/
def path : (ℕ → δ) → ℕ → ℕ → List δ
  | _, 0, _ => []
  | f, m + 1, i => f (i ^^^ 1) :: path (parents node f) m (i / 2)

variable {node}

lemma join_sibling : join i (f i) (f (i ^^^ 1)) = (f (2 * (i / 2)), f (2 * (i / 2) + 1)) := by
  rw [join]
  split
  · rename_i h
    rw [Nat.xor_one_of_even (Nat.even_iff.mpr h), show 2 * (i / 2) = i by omega]
  · rename_i h
    rw [Nat.xor_one_of_odd (Nat.odd_iff.mpr (by omega)), show 2 * (i / 2) = i - 1 by omega,
      show i - 1 + 1 = i by omega]

@[simp] lemma length_path : (path node f m i).length = m := by
  induction m generalizing f i with
  | zero => rfl
  | succ m ih => rw [path, length_cons, ih]

/-- Over equal nodes the siblings of a level are equal. -/
lemma path_of_eq {c : δ} (h : ∀ a < 2 ^ m, f a = c) (hi : i < 2 ^ m) :
    path node f m i = (List.range m).map fun j => (fun r => node r r)^[j] c := by
  induction m generalizing f i c with
  | zero => rfl
  | succ m ih =>
    have hsibling : i ^^^ 1 < 2 ^ (m + 1) := Nat.xor_lt_two_pow hi (Nat.one_lt_two_pow (by omega))
    rw [pow_succ] at h hi
    have hparents : ∀ a < 2 ^ m, parents node f a = node c c := by
      intro a ha
      rw [parents, h _ (by omega), h _ (by omega)]
    rw [path, ih hparents (by omega), h _ (by rwa [← pow_succ]), range_succ_eq_map,
      map_cons, map_map]
    rfl

/-- With the siblings of the tree the walk arrives at the root of the tree. -/
lemma climb_path : climb node (f i) i (path node f m i) = level node m f (i / 2 ^ m) := by
  induction m generalizing f i with
  | zero => simp [climb, path]
  | succ m ih =>
    rw [path, climb, join_sibling, pow_succ', ← Nat.div_div_eq_div_mul]
    exact ih (f := parents node f)

/-! ## Opening a root -/

variable (node)

/-- The pairs that are joined in the subtree of height `k` at a position. -/
def inputs : ℕ → (ℕ → δ) → ℕ → List (δ × δ)
  | 0, _, _ => []
  | k + 1, f, i =>
    (level node k f (2 * i), level node k f (2 * i + 1)) ::
      (inputs k f (2 * i) ++ inputs k f (2 * i + 1))

/-- The pairs that are joined on a walk. -/
def climbInputs : δ → ℕ → List δ → List (δ × δ)
  | _, _, [] => []
  | current, i, sibling :: rest =>
    join i current sibling ::
      climbInputs (node (join i current sibling).1 (join i current sibling).2) (i / 2) rest

/-- Different pairs of the two lists are joined to different nodes. -/
def Separates (ps qs : List (δ × δ)) : Prop :=
  ∀ p ∈ ps, ∀ q ∈ qs, node p.1 p.2 = node q.1 q.2 → p = q

variable {node}

lemma Separates.mono {ps qs ps' qs' : List (δ × δ)} (h : Separates node ps' qs') (hps : ps ⊆ ps')
    (hqs : qs ⊆ qs') : Separates node ps qs :=
  fun p hp q hq => h p (hps hp) q (hqs hq)

/-- What is joined below a node is joined below the nodes above it. -/
lemma inputs_subset : inputs node k f i ⊆ inputs node (k + m) f (i / 2 ^ m) := by
  induction m generalizing k i with
  | zero => simp
  | succ m ih =>
    have hstep : inputs node k f i ⊆ inputs node (k + 1) f (i / 2) := by
      intro p hp
      rw [inputs, mem_cons, mem_append]
      rcases Nat.mod_two_eq_zero_or_one i with heven | hodd
      · rw [show 2 * (i / 2) = i by omega]
        exact .inr (.inl hp)
      · rw [show 2 * (i / 2) + 1 = i by omega]
        exact .inr (.inr hp)
    rw [pow_succ', ← Nat.div_div_eq_div_mul, show k + (m + 1) = k + 1 + m by omega]
    exact Subset.trans hstep ih

/-- The pairs joined above a level. -/
lemma inputs_level : inputs node m (level node k f) i ⊆ inputs node (k + m) f i := by
  induction m generalizing i with
  | zero => exact nil_subset _
  | succ m ih =>
    rw [← Nat.add_assoc, inputs, inputs, level_add]
    exact cons_subset_cons _ (append_subset.mpr
      ⟨Subset.trans ih (subset_append_left _ _),
        Subset.trans ih (subset_append_right _ _)⟩)

/-- **Opening.** Two subtrees with one root stand over the same nodes. -/
lemma eq_of_level_eq (hsep : Separates node (inputs node k f i) (inputs node k g j))
    (h : level node k f i = level node k g j) {a : ℕ} (ha : a < 2 ^ k) :
    f (2 ^ k * i + a) = g (2 ^ k * j + a) := by
  induction k generalizing i j a with
  | zero =>
    obtain rfl : a = 0 := by omega
    simpa using h
  | succ k ih =>
    rw [level_succ', level_succ'] at h
    obtain ⟨hleft, hright⟩ := Prod.mk.inj (hsep _ (mem_cons_self ..) _ (mem_cons_self ..) h)
    rcases lt_or_ge a (2 ^ k) with hlt | hge
    · have := ih (hsep.mono (fun p hp => mem_cons_of_mem _ (mem_append_left _ hp))
        (fun p hp => mem_cons_of_mem _ (mem_append_left _ hp))) hleft hlt
      rwa [← Nat.mul_assoc, ← Nat.mul_assoc, ← pow_succ] at this
    · have := ih (hsep.mono (fun p hp => mem_cons_of_mem _ (mem_append_right _ hp))
        (fun p hp => mem_cons_of_mem _ (mem_append_right _ hp))) hright
        (a := a - 2 ^ k) (by rw [pow_succ] at ha; omega)
      have hpos : ∀ n, 2 ^ k * (2 * n + 1) + (a - 2 ^ k) = 2 ^ (k + 1) * n + a := by
        intro n
        rw [pow_succ, Nat.mul_add, Nat.mul_assoc]
        omega
      rwa [hpos, hpos] at this

/-- **Soundness of a walk.** A walk that arrives at the root of a tree started from the node of the
tree and took the siblings of the tree. -/
lemma eq_path_of_climb {current : δ} {siblings : List δ}
    (hsep : Separates node (climbInputs node current i siblings)
      (inputs node siblings.length f (i / 2 ^ siblings.length)))
    (h : climb node current i siblings = level node siblings.length f (i / 2 ^ siblings.length)) :
    current = f i ∧ siblings = path node f siblings.length i := by
  induction siblings generalizing current i f with
  | nil => simpa [climb, path] using h
  | cons sibling rest ih =>
    rw [length_cons, Nat.add_comm, pow_add, pow_one, ← Nat.div_div_eq_div_mul] at h hsep
    rw [level_add] at h
    obtain ⟨hnode, hrest⟩ := ih (hsep.mono (subset_cons_self _ _) inputs_level) h
    have hpair : (f (2 * (i / 2)), f (2 * (i / 2) + 1)) ∈
        inputs node (1 + rest.length) f (i / 2 / 2 ^ rest.length) :=
      inputs_subset (mem_cons_self ..)
    have hjoin := hsep _ (mem_cons_self ..) _ hpair hnode
    rw [← join_sibling, join, join] at hjoin
    have heq : current = f i ∧ sibling = f (i ^^^ 1) := by
      split at hjoin
      · exact Prod.mk.inj hjoin
      · exact (Prod.mk.inj hjoin).symm
    exact ⟨heq.1, congrArg₂ List.cons heq.2 hrest⟩

/-! ## A counter of pending subtrees -/

variable (node)

/-- Add a node to the pending subtrees, one slot per height; `n` nodes were added before.  An
occupied slot is emptied and joined with the node, and the result is carried to the next height.
`none` when a slot is missing or not occupied. -/
def carry : List (Option δ) → ℕ → δ → Option (List (Option δ))
  | [], _, _ => none
  | slot :: above, n, root =>
    if n % 2 ≠ 0 then do
      let left ← slot
      let above ← carry above (n / 2) (node left root)
      pure (none :: above)
    else some (some root :: above)

/-- The slots after `n` nodes: a bit of `n` says whether its slot is occupied. -/
def Pending : (ℕ → δ) → ℕ → List (Option δ) → Prop
  | _, _, [] => True
  | f, n, slot :: above =>
    slot = (if n % 2 ≠ 0 then some (f (n - 1)) else none) ∧ Pending (parents node f) (n / 2) above

variable {node} {slots : List (Option δ)}

lemma pending_zero : Pending node f 0 (replicate k none) := by
  induction k generalizing f with
  | zero => trivial
  | succ k ih => exact ⟨rfl, ih⟩

/-- The slots say nothing about nodes that were not added. -/
lemma Pending.congr (h : Pending node f n slots) (hfg : ∀ i < n, f i = g i) :
    Pending node g n slots := by
  induction slots generalizing f g n with
  | nil => trivial
  | cons slot above ih =>
    refine ⟨?_, ih h.2 fun i hi => ?_⟩
    · rw [h.1]
      split
      · rw [hfg _ (by omega)]
      · rfl
    · rw [parents, parents, hfg _ (by omega), hfg _ (by omega)]

/-- **One more node.** The carry runs through occupied slots only, and the slots stay right. -/
lemma Pending.carry (h : Pending node f n slots) (hroom : n + 1 < 2 ^ slots.length) :
    ∃ slots', HashTree.carry node slots n (f n) = some slots' ∧ slots'.length = slots.length ∧
      Pending node f (n + 1) slots' := by
  induction slots generalizing f n with
  | nil => simp at hroom
  | cons slot above ih =>
    obtain ⟨hslot, habove⟩ := h
    rw [HashTree.carry]
    split
    · rename_i hodd
      have hnode : node (f (n - 1)) (f n) = parents node f (n / 2) := by
        rw [parents, show 2 * (n / 2) = n - 1 by omega, show n - 1 + 1 = n by omega]
      obtain ⟨above', hcarry, hlen, hpending⟩ := ih habove (by
        rw [length_cons, pow_succ] at hroom
        omega)
      refine ⟨none :: above', ?_, by rw [length_cons, length_cons, hlen], ?_, ?_⟩
      · rw [hslot, if_pos hodd, Option.bind_eq_bind, Option.bind_some, hnode, hcarry]
        rfl
      · rw [if_neg (by omega)]
      · rwa [show (n + 1) / 2 = n / 2 + 1 by omega]
    · rename_i heven
      refine ⟨some (f n) :: above, rfl, rfl, ?_, ?_⟩
      · rw [if_pos (by omega), Nat.add_sub_cancel]
      · rwa [show (n + 1) / 2 = n / 2 by omega]

/-- After as many nodes as a tree of some height has leaves, its root is in the slot. -/
lemma Pending.root (h : Pending node f (2 ^ k) slots) (hk : k < slots.length) :
    slots[k]? = some (some (level node k f 0)) := by
  induction k generalizing f slots with
  | zero =>
    rcases slots with _ | ⟨slot, above⟩
    · simp at hk
    · rw [h.1]
      rfl
  | succ k ih =>
    rcases slots with _ | ⟨slot, above⟩
    · simp at hk
    · have := h.2
      rw [pow_succ, Nat.mul_div_cancel _ (by norm_num)] at this
      exact ih this (by simpa using hk)

end Framework.HashTree
