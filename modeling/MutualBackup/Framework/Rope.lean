import Mathlib.Algebra.BigOperators.Group.List.Basic
import Mathlib.Algebra.Order.BigOperators.Group.List
import Mathlib.Algebra.Ring.Nat
import Mathlib.Data.List.Forall2

/-!
# Ropes

A list held as a tree: the leaves hold its pieces in order, all at the same depth, and every node
carries a label.  Nothing is said about the sizes of pieces or nodes, so one list has many ropes,
and equal subtrees may occur more than once.

Every node of a rope stands for a part of the list.  `spans` lists the nodes with these parts,
parents first.  A part of the list, `clip`, is read off the leaves that meet it, and `spansIn`
lists the nodes on the way to them.
-/

namespace Framework

open List

/-! ## Placing -/

section Placing

variable {β γ : Type}

/-- The elements of a list, each with the sum of the sizes before it. -/
def placed (size : β → ℕ) : ℕ → List β → List (ℕ × β)
  | _, [] => []
  | offset, b :: bs => (offset, b) :: placed size (offset + size b) bs

lemma map_snd_placed (size : β → ℕ) (offset : ℕ) (bs : List β) :
    (placed size offset bs).map Prod.snd = bs := by
  induction bs generalizing offset with
  | nil => rfl
  | cons b bs ih => rw [placed, map_cons, ih]

section

variable {size : β → ℕ} {offset : ℕ} {bs : List β} {p : ℕ × β} (h : p ∈ placed size offset bs)

include h

lemma mem_of_mem_placed : p.2 ∈ bs := by
  rw [← map_snd_placed size offset bs]
  exact mem_map_of_mem h

/-- What is placed lies within the whole. -/
lemma bounds_of_mem_placed : offset ≤ p.1 ∧ p.1 + size p.2 ≤ offset + (bs.map size).sum := by
  induction bs generalizing offset with
  | nil => cases h
  | cons b bs ih =>
    rw [map_cons, sum_cons]
    rcases mem_cons.mp h with rfl | h
    · simp only
      omega
    · obtain ⟨hlo, hhi⟩ := ih h
      exact ⟨by omega, by omega⟩

end

lemma placed_append (size : β → ℕ) (offset : ℕ) (bs cs : List β) :
    placed size offset (bs ++ cs) =
      placed size offset bs ++ placed size (offset + (bs.map size).sum) cs := by
  induction bs generalizing offset with
  | nil => rfl
  | cons b bs ih =>
    rw [cons_append, placed, placed, cons_append, ih, map_cons, sum_cons, Nat.add_assoc]

end Placing

/-! ## The part of a list in a range -/

section Clip

variable {α : Type}

/-- The part between `a` and `z` of a list that begins at `offset`. -/
def clip (a z offset : ℕ) (xs : List α) : List α := (xs.take (z - offset)).drop (a - offset)

lemma clip_append (a z offset : ℕ) (xs ys : List α) :
    clip a z offset (xs ++ ys) = clip a z offset xs ++ clip a z (offset + xs.length) ys := by
  unfold clip
  rw [take_append, drop_append, Nat.sub_sub z]
  congr 1
  rcases Nat.lt_or_ge (z - offset) xs.length with hlt | hge
  · -- The range ends before the second list.
    have hzero : z - (offset + xs.length) = 0 := by omega
    rw [hzero, take_zero, drop_nil, drop_nil]
  · rw [length_take, Nat.min_eq_right hge, Nat.sub_sub]

lemma clip_eq_nil {a z offset : ℕ} {xs : List α} (h : z ≤ offset ∨ offset + xs.length ≤ a) :
    clip a z offset xs = [] := by
  unfold clip
  rcases h with h | h
  · rw [Nat.sub_eq_zero_of_le h, take_zero, drop_nil]
  · rw [drop_eq_nil_iff, length_take]
    omega

lemma length_clip (a z offset : ℕ) (xs : List α) :
    (clip a z offset xs).length = min (z - offset) xs.length - (a - offset) := by
  rw [clip, length_drop, length_take]

lemma clip_flatMap {β : Type} (a z offset : ℕ) (f : β → List α) (bs : List β) :
    clip a z offset (bs.flatMap f) =
      (placed (fun b => (f b).length) offset bs).flatMap fun p => clip a z p.1 (f p.2) := by
  induction bs generalizing offset with
  | nil => simp [clip, placed]
  | cons b bs ih => rw [flatMap_cons, clip_append, ih, placed, flatMap_cons]

end Clip

/-! ## Ropes -/

/-- A node with its label. -/
structure Labelled (ν β : Type) where
  label : ν
  body : β

/-- The ropes of a height. -/
def Rope (ν α : Type) : ℕ → Type
  | 0 => Labelled ν (List α)
  | h + 1 => Labelled ν (List (Rope ν α h))

/-- A node of a rope and the part of the list it stands for. -/
structure Span (ν : Type) where
  label : ν
  start : ℕ
  size : ℕ
  deriving DecidableEq

namespace Rope

variable {ν α : Type} {h : ℕ}

/-- A leaf with its piece of the list. -/
def leaf (label : ν) (piece : List α) : Rope ν α 0 := ⟨label, piece⟩

/-- A node over its children. -/
def node (label : ν) (children : List (Rope ν α h)) : Rope ν α (h + 1) := ⟨label, children⟩

/-- Induction over the children of nodes. -/
@[elab_as_elim, induction_eliminator]
theorem inductionOn {motive : ∀ {h : ℕ}, Rope ν α h → Prop}
    (leaf : ∀ label piece, motive (leaf label piece))
    (node : ∀ {h : ℕ} label (children : List (Rope ν α h)),
      (∀ t ∈ children, motive t) → motive (node label children))
    {h : ℕ} (t : Rope ν α h) : motive t := by
  induction h with
  | zero => exact leaf _ _
  | succ h ih => exact node _ _ fun t _ => ih t

def label : {h : ℕ} → Rope ν α h → ν
  | 0, ⟨l, _⟩ => l
  | _ + 1, ⟨l, _⟩ => l

/-- The list a rope holds. -/
def content : {h : ℕ} → Rope ν α h → List α
  | 0, ⟨_, piece⟩ => piece
  | _ + 1, ⟨_, children⟩ => children.flatMap content

def size (t : Rope ν α h) : ℕ := t.content.length

/-- The pieces in order. -/
def pieces : {h : ℕ} → Rope ν α h → List (List α)
  | 0, ⟨_, piece⟩ => [piece]
  | _ + 1, ⟨_, children⟩ => children.flatMap pieces

/-- How many nodes a walk visits. -/
def occurrences : {h : ℕ} → Rope ν α h → ℕ
  | 0, _ => 1
  | _ + 1, ⟨_, children⟩ => 1 + (children.map occurrences).sum

/-- The nodes of a rope that begins at `offset`, parents first. -/
def spans : {h : ℕ} → ℕ → Rope ν α h → List (Span ν)
  | 0, offset, ⟨l, piece⟩ => [⟨l, offset, piece.length⟩]
  | _ + 1, offset, ⟨l, children⟩ =>
    ⟨l, offset, (children.flatMap content).length⟩ ::
      (placed size offset children).flatMap fun p => spans p.1 p.2

section Lemmas

variable (l : ν) (piece : List α) (children : List (Rope ν α h)) (offset : ℕ)

@[simp] lemma label_leaf : (leaf l piece).label = l := rfl

@[simp] lemma label_node : (node l children).label = l := rfl

@[simp] lemma content_leaf : (leaf l piece).content = piece := rfl

@[simp] lemma content_node : (node l children).content = children.flatMap content := rfl

@[simp] lemma pieces_leaf : (leaf l piece).pieces = [piece] := rfl

@[simp] lemma pieces_node : (node l children).pieces = children.flatMap pieces := rfl

@[simp] lemma occurrences_node :
    (node l children).occurrences = 1 + (children.map occurrences).sum := rfl

@[simp] lemma spans_leaf : (leaf l piece).spans offset = [⟨l, offset, piece.length⟩] := rfl

@[simp] lemma spans_node : (node l children).spans offset = ⟨l, offset, (node l children).size⟩ ::
      (placed size offset children).flatMap fun p => p.2.spans p.1 := rfl

lemma size_node : (node l children).size = (children.map size).sum := by
  rw [size, content_node, length_flatMap]
  rfl

end Lemmas

lemma size_le_of_mem {ts : List (Rope ν α h)} {t : Rope ν α h} (ht : t ∈ ts) :
    t.size ≤ (ts.flatMap content).length :=
  (sublist_flatten_of_mem (mem_map_of_mem ht)).length_le

lemma flatten_pieces (t : Rope ν α h) : t.pieces.flatten = t.content := by
  induction t with
  | leaf l piece => rw [pieces_leaf, content_leaf, flatten_singleton]
  | node l children ih =>
    rw [pieces_node, content_node, flatMap_def, flatten_flatten, map_map, flatMap_def]
    exact congrArg _ (map_congr_left ih)

/-- What lies below a node stands for a part of what the node stands for. -/
lemma bounds_of_mem_spans {t : Rope ν α h} {offset : ℕ} {s : Span ν} (hs : s ∈ t.spans offset) :
    offset ≤ s.start ∧ s.start + s.size ≤ offset + t.size := by
  induction t generalizing offset with
  | leaf l piece =>
    rw [spans_leaf, mem_singleton] at hs
    rw [hs]
    exact ⟨le_rfl, le_rfl⟩
  | node l children ih =>
    rw [spans_node, mem_cons, mem_flatMap] at hs
    rcases hs with rfl | ⟨p, hp, hs⟩
    · exact ⟨le_rfl, le_rfl⟩
    · obtain ⟨hlo, hhi⟩ := ih p.2 (mem_of_mem_placed hp) hs
      obtain ⟨hlo', hhi'⟩ := bounds_of_mem_placed hp
      rw [size_node]
      exact ⟨by omega, by omega⟩

end Rope

/-! ## Reading a range -/

/-- The part a node stands for and the range have a place in common. -/
def Span.Meets {ν : Type} (a z : ℕ) (s : Span ν) : Prop := max a s.start < min z (s.start + s.size)
  deriving Decidable

namespace Rope

variable {ν α : Type} {h : ℕ} {a z offset : ℕ}

/-- The nodes whose part of the list meets the range. -/
def spansIn (a z offset : ℕ) (t : Rope ν α h) : List (Span ν) :=
  (t.spans offset).filter fun s => s.Meets a z

lemma spansIn_eq_nil {t : Rope ν α h} (hout : ¬ (offset < z ∧ a < offset + t.size)) :
    t.spansIn a z offset = [] := by
  rw [spansIn, filter_eq_nil_iff]
  intro s hs hmeets
  obtain ⟨hlo, hhi⟩ := bounds_of_mem_spans hs
  have hcommon : max a s.start < min z (s.start + s.size) := of_decide_eq_true hmeets
  exact hout ⟨by omega, by omega⟩

lemma spansIn_of_le {t : Rope ν α h} (hle : z ≤ a) : t.spansIn a z offset = [] := by
  rw [spansIn, filter_eq_nil_iff]
  intro s _ hmeets
  have hcommon : max a s.start < min z (s.start + s.size) := of_decide_eq_true hmeets
  omega

lemma spansIn_leaf {l : ν} {piece : List α} (hin : max a offset < min z (offset + piece.length)) :
    (leaf l piece).spansIn a z offset = [⟨l, offset, piece.length⟩] := by
  have hmeets : Span.Meets a z ⟨l, offset, piece.length⟩ := hin
  rw [spansIn, spans_leaf, filter_singleton, decide_eq_true hmeets]
  rfl

lemma spansIn_node {l : ν} {children : List (Rope ν α h)}
    (hin : max a offset < min z (offset + (node l children).size)) :
    (node l children).spansIn a z offset = ⟨l, offset, (node l children).size⟩ ::
      (placed size offset children).flatMap fun p => p.2.spansIn a z p.1 := by
  have hmeets : Span.Meets a z ⟨l, offset, (node l children).size⟩ := hin
  rw [spansIn, spans_node, filter_cons, decide_eq_true hmeets, if_pos rfl, filter_flatMap]
  rfl

/-- Children that do not meet the range contribute nothing. -/
lemma flatMap_filter_meets {β : Type} {children : List (ℕ × Rope ν α h)}
    {f : ℕ × Rope ν α h → List β}
    (hf : ∀ p ∈ children, ¬ (p.1 < z ∧ a < p.1 + p.2.size) → f p = []) :
    (children.filter fun p => p.1 < z ∧ a < p.1 + p.2.size).flatMap f = children.flatMap f := by
  induction children with
  | nil => rfl
  | cons p children ih =>
    have hrest := ih fun q hq => hf q (mem_cons_of_mem _ hq)
    by_cases hp : p.1 < z ∧ a < p.1 + p.2.size
    · rw [filter_cons, decide_eq_true hp, if_pos rfl, flatMap_cons, hrest, flatMap_cons]
    · rw [filter_cons, decide_eq_false hp, if_neg Bool.false_ne_true, hrest,
        flatMap_cons, hf p mem_cons_self hp, nil_append]

end Rope

end Framework
