import Mathlib.Algebra.Order.Group.Nat
import MutualBackup.Framework.Chunks
import MutualBackup.Framework.Rope

/-!
# Replacing a range of a rope

A range of the list is replaced by copying the nodes on the paths to its ends.  What lies inside the
range is dropped and what lies outside is kept, both without looking at it; a leaf that is opened is
cut and filled, and divided again if it has become too long; a node that is opened is built again
over what its children have become, and divided if there are too many of them.

The replacement goes into one leaf: that of the place where the range begins, or the last one if
the range begins at the end.  `assign` says which child of a node this is.

`edit` is the result as ropes without labels, and `opened` the labels of the nodes that are looked
at, in order.  `content_edit` says that `edit` replaces the range in the list, whatever the shape of
the rope, and `length_opened` that it looks at two nodes a level at most.
-/

namespace Framework

open List Rope

/-! ## The list -/

/-- A replacement of the places from `start` up to `stop`, in ropes whose pieces and nodes hold at
most `piece` and `arity`. -/
structure RopeEdit (α : Type) where
  start : ℕ
  stop : ℕ
  replacement : List α
  piece : ℕ
  arity : ℕ

namespace RopeEdit

variable {α ν : Type} (e : RopeEdit α) {h : ℕ}

/-- What becomes of a part of the list that begins at `offset`, with the replacement or without. -/
def spliced (inserts : Bool) (offset : ℕ) (xs : List α) : List α :=
  xs.take (e.start - offset) ++ (if inserts then e.replacement else []) ++ xs.drop (e.stop - offset)

/-- The range is in order and the limits are not zero. -/
structure Valid : Prop where
  le : e.start ≤ e.stop
  piece_pos : 0 < e.piece
  arity_pos : 0 < e.arity
  replacement_le : e.replacement.length ≤ e.piece

variable {e} {offset : ℕ} {xs : List α}

/-- With the replacement in the first part, the second is only cut. -/
lemma spliced_true_append (hstart : e.start ≤ offset + xs.length) (ys : List α) :
    e.spliced true offset (xs ++ ys) =
      e.spliced true offset xs ++ e.spliced false (offset + xs.length) ys := by
  unfold spliced
  simp only [if_true, Bool.false_eq_true, if_false, append_nil]
  rw [take_append, drop_append, Nat.sub_sub, Nat.sub_sub,
    Nat.sub_eq_zero_of_le hstart, take_zero, append_nil, nil_append]
  simp only [append_assoc]

lemma spliced_eq_nil (hin : e.start ≤ offset ∧ offset + xs.length ≤ e.stop) :
    e.spliced false offset xs = [] := by
  unfold spliced
  rw [Nat.sub_eq_zero_of_le hin.1, drop_of_length_le (by omega)]
  simp

variable (hle : e.start ≤ e.stop)

include hle

/-- Without the replacement, the parts are cut one by one. -/
lemma spliced_false_append (offset : ℕ) (xs ys : List α) :
    e.spliced false offset (xs ++ ys) =
      e.spliced false offset xs ++ e.spliced false (offset + xs.length) ys := by
  unfold spliced
  simp only [Bool.false_eq_true, if_false, append_nil]
  rw [take_append, drop_append, Nat.sub_sub, Nat.sub_sub]
  rcases Nat.lt_or_ge (offset + xs.length) e.start with hstart | hstart
  · have hdrop : xs.drop (e.stop - offset) = [] := drop_of_length_le (by omega)
    rw [hdrop, nil_append, append_nil, append_assoc]
  · rw [Nat.sub_eq_zero_of_le hstart, take_zero, append_nil, nil_append, append_assoc]

/-- With the replacement in the second part, the first is as before. -/
lemma spliced_true_append_right (hstart : offset + xs.length ≤ e.start) (ys : List α) :
    e.spliced true offset (xs ++ ys) = xs ++ e.spliced true (offset + xs.length) ys := by
  unfold spliced
  simp only [if_true]
  rw [take_append, drop_append, Nat.sub_sub, Nat.sub_sub,
    take_of_length_le (by omega), drop_of_length_le (by omega), nil_append]
  simp only [append_assoc]

lemma spliced_eq_self (hout : offset + xs.length ≤ e.start ∨ e.stop ≤ offset) :
    e.spliced false offset xs = xs := by
  unfold spliced
  simp only [Bool.false_eq_true, if_false, append_nil]
  rcases hout with hout | hout
  · rw [take_of_length_le (by omega), drop_of_length_le (by omega), append_nil]
  · rw [Nat.sub_eq_zero_of_le (hle.trans hout), Nat.sub_eq_zero_of_le hout, take_zero,
      nil_append, drop_zero]

/-- Putting back what was cut out. -/
lemma spliced_clip (hsame : e.replacement = clip e.start e.stop offset xs) :
    e.spliced true offset xs = xs := by
  have hsub : e.start - offset ≤ e.stop - offset := Nat.sub_le_sub_right hle offset
  have htake : xs.take (e.start - offset) =
      (xs.take (e.stop - offset)).take (e.start - offset) := by
    rw [take_take, Nat.min_eq_left hsub]
  unfold spliced
  rw [if_pos rfl, hsame, clip, htake, take_append_drop, take_append_drop]

end RopeEdit

/-! ## The rope -/

/-- A rope without its labels. -/
def Rope.erase {ν α : Type} : {h : ℕ} → Rope ν α h → Rope Unit α h
  | 0, ⟨_, piece⟩ => leaf () piece
  | _ + 1, ⟨_, children⟩ => node () (children.map Rope.erase)

section Erase

variable {ν α : Type} {h : ℕ}

@[simp] lemma Rope.erase_node (l : ν) (children : List (Rope ν α h)) :
    (node l children).erase = node () (children.map Rope.erase) := rfl

variable (t : Rope ν α h)

@[simp] lemma Rope.content_erase : t.erase.content = t.content := by
  induction t with
  | leaf l piece => rfl
  | node l children ih =>
    rw [erase_node, content_node, content_node, flatMap_map]
    exact flatMap_congr ih

@[simp] lemma Rope.size_erase : t.erase.size = t.size := by
  rw [Rope.size, content_erase, Rope.size]

@[simp] lemma Rope.occurrences_erase : t.erase.occurrences = t.occurrences := by
  induction t with
  | leaf l piece => rfl
  | node l children ih =>
    rw [erase_node, occurrences_node, occurrences_node, map_map]
    exact congrArg _ (congrArg _ (map_congr_left ih))

end Erase

namespace RopeEdit

variable {α ν : Type} (e : RopeEdit α) {h : ℕ}

/-- The children of a node with their offsets, and which of them takes the replacement. -/
def assign : Bool → ℕ → List (Rope ν α h) → List (Bool × ℕ × Rope ν α h)
  | _, _, [] => []
  | pending, offset, t :: ts =>
    let inserts := pending && (e.start < offset + t.size || ts.isEmpty)
    (inserts, offset, t) :: assign (pending && !inserts) (offset + t.size) ts

/-- The node lies inside the range and is dropped. -/
def Drops (inserts : Bool) (offset size : ℕ) : Prop :=
  inserts = false ∧ e.start ≤ offset ∧ offset + size ≤ e.stop
  deriving Decidable

/-- The node lies outside the range and is kept. -/
def Keeps (inserts : Bool) (offset size : ℕ) : Prop :=
  inserts = false ∧ (offset + size ≤ e.start ∨ e.stop ≤ offset)
  deriving Decidable

/-- Ropes under nodes of the arity. -/
def group (us : List (Rope Unit α h)) : List (Rope Unit α (h + 1)) :=
  (chunks e.arity us).map (node ())

/-- What a rope that begins at `offset` becomes. -/
def edit : {h : ℕ} → Bool → ℕ → Rope ν α h → List (Rope Unit α h)
  | 0, inserts, offset, ⟨_, piece⟩ =>
    if e.Drops inserts offset piece.length then []
    else if e.Keeps inserts offset piece.length then [leaf () piece]
    else (chunks e.piece (e.spliced inserts offset piece)).map (leaf ())
  | _ + 1, inserts, offset, ⟨l, children⟩ =>
    if e.Drops inserts offset (node l children).size then []
    else if e.Keeps inserts offset (node l children).size then [(node l children).erase]
    else e.group ((e.assign inserts offset children).flatMap fun c => edit c.1 c.2.1 c.2.2)

/-- The labels of the nodes that are opened. -/
def opened : {h : ℕ} → Bool → ℕ → Rope ν α h → List ν
  | 0, inserts, offset, ⟨l, piece⟩ =>
    if e.Drops inserts offset piece.length ∨ e.Keeps inserts offset piece.length then [] else [l]
  | _ + 1, inserts, offset, ⟨l, children⟩ =>
    if e.Drops inserts offset (node l children).size ∨
        e.Keeps inserts offset (node l children).size then []
    else l :: (e.assign inserts offset children).flatMap fun c => opened c.1 c.2.1 c.2.2

/-- One rope over what a rope has become. -/
def join : List (Rope Unit α h) → Σ h, Rope Unit α h
  | [] => ⟨0, leaf () []⟩
  | [u] => ⟨h, u⟩
  | us => ⟨h + 1, node () us⟩

/-- The rope that holds what a whole rope has become. -/
def result (t : Rope ν α h) : Σ h, Rope Unit α h := join (e.edit true 0 t)

/-- If the replacement is wanted, the range begins in the part. -/
def Owns (inserts : Bool) (offset size : ℕ) : Prop :=
  inserts = true → offset ≤ e.start ∧ e.start ≤ offset + size

/-- Pieces and nodes within the limits, and no empty child. -/
def Fits : {h : ℕ} → Rope ν α h → Prop
  | 0, ⟨_, piece⟩ => piece.length ≤ e.piece
  | _ + 1, ⟨_, children⟩ =>
    children ≠ [] ∧ children.length ≤ e.arity ∧ ∀ c ∈ children, 0 < c.size ∧ Fits c

variable {e} {inserts : Bool} {offset : ℕ} {t : Rope ν α h} {ts : List (Rope ν α h)}

variable {l : ν} {piece : List α}

lemma fits_leaf : e.Fits (leaf l piece) ↔ piece.length ≤ e.piece := Iff.rfl

lemma fits_node : e.Fits (node l ts) ↔
    ts ≠ [] ∧ ts.length ≤ e.arity ∧ ∀ c ∈ ts, 0 < c.size ∧ e.Fits c := Iff.rfl

/-! ### One node -/

lemma content_group (harity : 0 < e.arity) (us : List (Rope Unit α h)) :
    (e.group us).flatMap content = us.flatMap content := by
  rw [group, flatMap_map]
  exact flatMap_chunks harity _ us

/-- A node counts the nodes below it. -/
lemma exists_mem_group (harity : 0 < e.arity) {us : List (Rope Unit α h)} {u : Rope Unit α h}
    (hu : u ∈ us) : ∃ v ∈ e.group us, u.occurrences ≤ v.occurrences := by
  rw [← flatten_chunks harity us, mem_flatten] at hu
  obtain ⟨part, hpart, hu⟩ := hu
  refine ⟨node () part, mem_map_of_mem hpart, ?_⟩
  have hle := le_sum_of_mem (mem_map_of_mem (f := occurrences) hu)
  rw [occurrences_node]
  omega

lemma edit_of_drops (hdrops : e.Drops inserts offset t.size) : e.edit inserts offset t = [] := by
  cases h with
  | zero => exact if_pos hdrops
  | succ h => exact if_pos hdrops

lemma edit_of_keeps (hdrops : ¬ e.Drops inserts offset t.size)
    (hkeeps : e.Keeps inserts offset t.size) : e.edit inserts offset t = [t.erase] := by
  cases h with
  | zero => exact (if_neg hdrops).trans (if_pos hkeeps)
  | succ h => exact (if_neg hdrops).trans (if_pos hkeeps)

section

variable (hdrops : ¬ e.Drops inserts offset (leaf l piece).size)
  (hkeeps : ¬ e.Keeps inserts offset (leaf l piece).size)

include hdrops hkeeps

lemma edit_leaf :
    e.edit inserts offset (leaf l piece) =
      (chunks e.piece (e.spliced inserts offset piece)).map (leaf ()) :=
  (if_neg hdrops).trans (if_neg hkeeps)

lemma opened_leaf : e.opened inserts offset (leaf l piece) = [l] :=
  if_neg (not_or.mpr ⟨hdrops, hkeeps⟩)

end

section

variable (hdrops : ¬ e.Drops inserts offset (node l ts).size)
  (hkeeps : ¬ e.Keeps inserts offset (node l ts).size)

include hdrops hkeeps

lemma edit_node :
    e.edit inserts offset (node l ts) =
      e.group ((e.assign inserts offset ts).flatMap fun c => e.edit c.1 c.2.1 c.2.2) :=
  (if_neg hdrops).trans (if_neg hkeeps)

lemma opened_node :
    e.opened inserts offset (node l ts) =
      l :: (e.assign inserts offset ts).flatMap fun c => e.opened c.1 c.2.1 c.2.2 :=
  if_neg (not_or.mpr ⟨hdrops, hkeeps⟩)

end

lemma opened_of_skips (hskips : e.Drops inserts offset t.size ∨ e.Keeps inserts offset t.size) :
    e.opened inserts offset t = [] := by
  cases h with
  | zero => exact if_pos hskips
  | succ h => exact if_pos hskips

variable {size : ℕ}

lemma not_drops_true : ¬ e.Drops true offset size := fun h => Bool.noConfusion h.1

lemma not_keeps_true : ¬ e.Keeps true offset size := fun h => Bool.noConfusion h.1

/-! ### The children of a node -/

@[simp] lemma assign_nil : e.assign inserts offset ([] : List (Rope ν α h)) = [] := rfl

lemma assign_false_cons : e.assign false offset (t :: ts) =
    (false, offset, t) :: e.assign false (offset + t.size) ts := rfl

/-- The first child that ends behind the start takes the replacement, or else the last one. -/
lemma assign_here (hhere : e.start < offset + t.size ∨ ts = []) : e.assign true offset (t :: ts) =
    (true, offset, t) :: e.assign false (offset + t.size) ts := by
  have htakes : (e.start < offset + t.size || ts.isEmpty) = true := by
    rcases hhere with hlt | rfl
    · rw [decide_eq_true hlt, Bool.true_or]
    · rw [isEmpty_nil, Bool.or_true]
  rw [assign]
  simp only [htakes, Bool.and_self, Bool.not_true, Bool.and_false]

lemma assign_later (hlater : offset + t.size ≤ e.start) (hne : ts ≠ []) :
    e.assign true offset (t :: ts) = (false, offset, t) :: e.assign true (offset + t.size) ts := by
  have htakes : (e.start < offset + t.size || ts.isEmpty) = false := by
    rw [decide_eq_false (Nat.not_lt.mpr hlater), Bool.false_or, isEmpty_eq_false_iff]
    exact hne
  rw [assign]
  simp only [htakes, Bool.and_false, Bool.not_false, Bool.and_self]

/-- A run along the children: the first one without the replacement, the one that takes it, or
one before that. -/
@[elab_as_elim]
lemma assign_induction {motive : Bool → ℕ → List (Rope ν α h) → Prop}
    (nil : ∀ pending offset, motive pending offset [])
    (done : ∀ offset t ts, motive false (offset + t.size) ts → motive false offset (t :: ts))
    (here : ∀ offset t ts, (e.start < offset + t.size ∨ ts = []) →
      motive false (offset + t.size) ts → motive true offset (t :: ts))
    (later : ∀ offset t ts, offset + t.size ≤ e.start → ts ≠ [] →
      motive true (offset + t.size) ts → motive true offset (t :: ts))
    (pending : Bool) (offset : ℕ) (ts : List (Rope ν α h)) : motive pending offset ts := by
  induction ts generalizing pending offset with
  | nil => exact nil pending offset
  | cons t ts ih =>
    cases pending with
    | false => exact done offset t ts (ih _ _)
    | true =>
      by_cases hhere : e.start < offset + t.size ∨ ts = []
      · exact here offset t ts hhere (ih _ _)
      · rw [not_or, Nat.not_lt] at hhere
        exact later offset t ts hhere.1 hhere.2 (ih _ _)

lemma owns_false : e.Owns false offset size := fun h => Bool.noConfusion h

variable {c : Bool × ℕ × Rope ν α h}

lemma assign_false_fst (hc : c ∈ e.assign false offset ts) : c.1 = false := by
  induction ts generalizing offset with
  | nil => cases hc
  | cons t ts ih =>
    rcases mem_cons.mp hc with rfl | hc
    · rfl
    · exact ih hc

lemma map_assign (ts : List (Rope ν α h)) :
    (e.assign inserts offset ts).map (fun c => c.2.2) = ts := by
  induction ts generalizing inserts offset with
  | nil => rfl
  | cons t ts ih => rw [assign, map_cons, ih]

lemma mem_of_mem_assign (hc : c ∈ e.assign inserts offset ts) : c.2.2 ∈ ts := by
  have hmem := mem_map_of_mem (f := fun c => c.2.2) hc
  rwa [map_assign] at hmem

lemma bounds_of_mem_assign (hc : c ∈ e.assign inserts offset ts) :
    offset ≤ c.2.1 ∧ c.2.1 + c.2.2.size ≤ offset + (ts.map Rope.size).sum := by
  induction ts generalizing inserts offset with
  | nil => cases hc
  | cons t ts ih =>
    rw [map_cons, sum_cons]
    rcases mem_cons.mp hc with rfl | hc
    · simp only
      omega
    · have hrest := ih hc
      omega

/-- The child that takes the replacement is the one the range begins in. -/
lemma owns_of_mem_assign (howns : e.Owns inserts offset (ts.map Rope.size).sum) :
    ∀ c ∈ e.assign inserts offset ts, e.Owns c.1 c.2.1 c.2.2.size := by
  induction inserts, offset, ts using assign_induction (e := e) with
  | nil pending offset => exact forall_mem_nil _
  | done offset t ts ih =>
    rw [assign_false_cons, forall_mem_cons]
    exact ⟨owns_false, ih owns_false⟩
  | here offset t ts hhere ih =>
    obtain ⟨hlo, hhi⟩ := howns rfl
    rw [assign_here hhere, forall_mem_cons]
    refine ⟨fun _ => ⟨hlo, ?_⟩, ih owns_false⟩
    rcases hhere with hlt | rfl
    · exact hlt.le
    · simpa using hhi
  | later offset t ts hlater hne ih =>
    obtain ⟨hlo, hhi⟩ := howns rfl
    rw [map_cons, sum_cons] at hhi
    rw [assign_later hlater hne, forall_mem_cons]
    exact ⟨owns_false, ih fun _ => ⟨hlater, by omega⟩⟩

/-- Every rope is dropped, kept or opened, and an opened node is built from what has become of its
children. -/
theorem edit_induction {motive : ∀ {h : ℕ}, Bool → ℕ → Rope ν α h → List (Rope Unit α h) → Prop}
    (drops : ∀ {h : ℕ} offset (t : Rope ν α h), e.start ≤ offset ∧ offset + t.size ≤ e.stop →
      motive false offset t [])
    (keeps : ∀ {h : ℕ} offset (t : Rope ν α h), offset + t.size ≤ e.start ∨ e.stop ≤ offset →
      motive false offset t [t.erase])
    (leaf : ∀ inserts offset l piece, motive inserts offset (leaf l piece)
      ((chunks e.piece (e.spliced inserts offset piece)).map (leaf ())))
    (node : ∀ {h : ℕ} inserts offset l (children : List (Rope ν α h)),
      (∀ c ∈ e.assign inserts offset children, motive c.1 c.2.1 c.2.2 (e.edit c.1 c.2.1 c.2.2)) →
      motive inserts offset (node l children)
        (e.group ((e.assign inserts offset children).flatMap fun c => e.edit c.1 c.2.1 c.2.2)))
    (inserts : Bool) (offset : ℕ) {h : ℕ} (t : Rope ν α h) :
    motive inserts offset t (e.edit inserts offset t) := by
  have hopened : ∀ {h : ℕ} inserts offset (t : Rope ν α h),
      (¬ e.Drops inserts offset t.size → ¬ e.Keeps inserts offset t.size →
        motive inserts offset t (e.edit inserts offset t)) →
      motive inserts offset t (e.edit inserts offset t) := by
    intro h inserts offset t hopen
    by_cases hdrops : e.Drops inserts offset t.size
    · obtain ⟨rfl, hin⟩ := hdrops
      rw [edit_of_drops ⟨rfl, hin⟩]
      exact drops offset _ hin
    by_cases hkeeps : e.Keeps inserts offset t.size
    · obtain ⟨rfl, hout⟩ := hkeeps
      rw [edit_of_keeps hdrops ⟨rfl, hout⟩]
      exact keeps offset _ hout
    exact hopen hdrops hkeeps
  induction t generalizing inserts offset with
  | leaf l piece =>
    refine hopened _ _ _ fun hdrops hkeeps => ?_
    rw [edit_leaf hdrops hkeeps]
    exact leaf inserts offset l piece
  | node l children ih =>
    refine hopened _ _ _ fun hdrops hkeeps => ?_
    rw [edit_node hdrops hkeeps]
    exact node inserts offset l children fun c hc => ih _ (mem_of_mem_assign hc) _ _

/-! ### The list is replaced -/

/-- If each child becomes what its part of the list becomes, so do all of them. -/
lemma flatMap_assign {f : Bool × ℕ × Rope ν α h → List α} (hle : e.start ≤ e.stop)
    (hne : inserts = true → ts ≠ []) (howns : e.Owns inserts offset (ts.map Rope.size).sum)
    (hf : ∀ c ∈ e.assign inserts offset ts, f c = e.spliced c.1 c.2.1 c.2.2.content) :
    (e.assign inserts offset ts).flatMap f = e.spliced inserts offset (ts.flatMap content) := by
  induction inserts, offset, ts using assign_induction (e := e) with
  | nil pending offset =>
    cases pending with
    | false => simp [spliced]
    | true => exact absurd rfl (hne rfl)
  | done offset t ts ih =>
    rw [assign_false_cons, forall_mem_cons] at hf
    rw [assign_false_cons, flatMap_cons, hf.1, ih (fun h => Bool.noConfusion h) owns_false hf.2,
      flatMap_cons, spliced_false_append hle]
    rfl
  | here offset t ts hhere ih =>
    rw [assign_here hhere, forall_mem_cons] at hf
    have hstart : e.start ≤ offset + t.content.length := by
      obtain ⟨-, hhi⟩ := howns rfl
      rcases hhere with hlt | rfl
      · exact hlt.le
      · simpa [Rope.size] using hhi
    rw [assign_here hhere, flatMap_cons, hf.1, ih (fun h => Bool.noConfusion h) owns_false hf.2,
      flatMap_cons, spliced_true_append hstart]
    rfl
  | later offset t ts hlater hts ih =>
    obtain ⟨-, hhi⟩ := howns rfl
    rw [map_cons, sum_cons] at hhi
    rw [assign_later hlater hts, forall_mem_cons] at hf
    rw [assign_later hlater hts, flatMap_cons, hf.1,
      ih (fun _ => hts) (fun _ => ⟨hlater, by omega⟩) hf.2, flatMap_cons,
      spliced_true_append_right hle hlater, spliced_eq_self hle (.inl hlater)]
    rfl

/-- The list that a rope holds is replaced as a list. -/
theorem content_edit (hvalid : e.Valid) (hfits : e.Fits t) (howns : e.Owns inserts offset t.size) :
    (e.edit inserts offset t).flatMap content = e.spliced inserts offset t.content := by
  revert hfits howns
  refine edit_induction (e := e) (motive := fun inserts offset t rs => e.Fits t →
    e.Owns inserts offset t.size → rs.flatMap content = e.spliced inserts offset t.content)
    ?drops ?keeps ?leaf ?node inserts offset t
  case drops =>
    intro h offset t hin _ _
    exact (spliced_eq_nil hin).symm
  case keeps =>
    intro h offset t hout _ _
    rw [flatMap_singleton, content_erase]
    exact (spliced_eq_self hvalid.le hout).symm
  case leaf =>
    intro inserts offset l piece _ _
    rw [flatMap_map, flatMap_def]
    simp only [content_leaf, map_id']
    exact flatten_chunks hvalid.piece_pos _
  case node =>
    intro h inserts offset l children ih hfits howns
    obtain ⟨hne, -, hchildren⟩ := fits_node.mp hfits
    rw [size_node] at howns
    rw [content_group hvalid.arity_pos, flatMap_assoc]
    refine flatMap_assign hvalid.le (fun _ => hne) howns fun c hc => ?_
    exact ih c hc (hchildren _ (mem_of_mem_assign hc)).2 (owns_of_mem_assign howns c hc)

/-! ### What comes out fits -/

lemma length_spliced_le (hle : e.start ≤ e.stop) (xs : List α) :
    (e.spliced inserts offset xs).length ≤
      xs.length + if inserts then e.replacement.length else 0 := by
  unfold spliced
  rw [length_append, length_append, length_take, length_drop, apply_ite List.length, length_nil]
  omega

lemma fits_erase : e.Fits t.erase ↔ e.Fits t := by
  induction t with
  | leaf l piece => exact Iff.rfl
  | node l children ih =>
    rw [erase_node, fits_node, fits_node, ne_eq, map_eq_nil_iff, length_map, forall_mem_map]
    refine and_congr_right fun _ => and_congr_right fun _ => forall₂_congr fun c hc => ?_
    rw [size_erase, ih c hc]

/-- The ropes that come out are within the limits again, and not empty. -/
lemma fits_edit (hvalid : e.Valid) (hfits : e.Fits t) (hpos : inserts = false → 0 < t.size) :
    ∀ r ∈ e.edit inserts offset t, 0 < r.size ∧ e.Fits r := by
  revert hfits hpos
  refine edit_induction (e := e) (motive := fun inserts _ t rs => e.Fits t →
    (inserts = false → 0 < t.size) → ∀ r ∈ rs, 0 < r.size ∧ e.Fits r)
    ?drops ?keeps ?leaf ?node inserts offset t
  case drops =>
    intro h offset t _ _ _
    exact forall_mem_nil _
  case keeps =>
    intro h offset t _ hfits hpos
    rw [forall_mem_singleton, size_erase, fits_erase]
    exact ⟨hpos rfl, hfits⟩
  case leaf =>
    intro inserts offset l piece _ _
    rw [forall_mem_map]
    intro c hc
    obtain ⟨hne, hlen⟩ := ne_nil_of_mem_chunks hvalid.piece_pos hc
    exact ⟨length_pos_of_ne_nil hne, hlen⟩
  case node =>
    intro h inserts offset l children ih hfits _
    obtain ⟨-, -, hchildren⟩ := fits_node.mp hfits
    rw [group, forall_mem_map]
    intro part hpart
    obtain ⟨hne, hlen⟩ := ne_nil_of_mem_chunks hvalid.arity_pos hpart
    have hparts : ∀ r ∈ part, 0 < r.size ∧ e.Fits r := by
      intro r hr
      have hmem := mem_flatten_of_mem hpart hr
      rw [flatten_chunks hvalid.arity_pos, mem_flatMap] at hmem
      obtain ⟨c, hc, hr⟩ := hmem
      obtain ⟨hcpos, hcfits⟩ := hchildren _ (mem_of_mem_assign hc)
      exact ih c hc hcfits (fun _ => hcpos) r hr
    refine ⟨?_, fits_node.mpr ⟨hne, hlen, hparts⟩⟩
    obtain ⟨r, hr⟩ := exists_mem_of_ne_nil part hne
    rw [size_node]
    exact (hparts r hr).1.trans_le (le_sum_of_mem (mem_map_of_mem hr))

lemma length_flatMap_assign {β : Type} {f : Bool × ℕ × Rope ν α h → List β}
    (hf : ∀ c ∈ e.assign inserts offset ts, (f c).length ≤ 1 + c.1.toNat) :
    ((e.assign inserts offset ts).flatMap f).length ≤ ts.length + inserts.toNat := by
  induction inserts, offset, ts using assign_induction (e := e) with
  | nil pending offset => simp
  | done offset t ts ih =>
    rw [assign_false_cons, forall_mem_cons] at hf
    rw [assign_false_cons, flatMap_cons, length_append, length_cons]
    have hfirst := hf.1
    have hrest := ih hf.2
    simp only [Bool.toNat_false] at hfirst hrest ⊢
    omega
  | here offset t ts hhere ih =>
    rw [assign_here hhere, forall_mem_cons] at hf
    rw [assign_here hhere, flatMap_cons, length_append, length_cons]
    have hfirst := hf.1
    have hrest := ih hf.2
    simp only [Bool.toNat_false, Bool.toNat_true] at hfirst hrest ⊢
    omega
  | later offset t ts hlater hts ih =>
    rw [assign_later hlater hts, forall_mem_cons] at hf
    rw [assign_later hlater hts, flatMap_cons, length_append, length_cons]
    have hfirst := hf.1
    have hrest := ih hf.2
    simp only [Bool.toNat_false, Bool.toNat_true] at hfirst hrest ⊢
    omega

/-- A rope becomes one rope at most, or two where the replacement goes. -/
lemma length_edit_le (hvalid : e.Valid) (hfits : e.Fits t) :
    (e.edit inserts offset t).length ≤ 1 + inserts.toNat := by
  revert hfits
  refine edit_induction (e := e)
    (motive := fun inserts _ t rs => e.Fits t → rs.length ≤ 1 + inserts.toNat)
    ?drops ?keeps ?leaf ?node inserts offset t
  case drops =>
    intro h offset t _ _
    exact Nat.zero_le _
  case keeps =>
    intro h offset t _ _
    exact Nat.le_add_right _ _
  case leaf =>
    intro inserts offset l piece hfits
    have hrep := hvalid.replacement_le
    rw [fits_leaf] at hfits
    rw [length_map]
    refine length_chunks_le hvalid.piece_pos ((length_spliced_le hvalid.le piece).trans ?_)
    cases inserts with
    | false =>
      simp only [Bool.toNat_false, Bool.false_eq_true, if_false]
      omega
    | true =>
      simp only [Bool.toNat_true, if_true]
      omega
  case node =>
    intro h inserts offset l children ih hfits
    obtain ⟨-, hlen, hchildren⟩ := fits_node.mp hfits
    have harity := hvalid.arity_pos
    rw [group, length_map]
    refine length_chunks_le hvalid.arity_pos ((length_flatMap_assign fun c hc =>
      ih c hc (hchildren _ (mem_of_mem_assign hc)).2).trans ?_)
    cases inserts with
    | false =>
      simp only [Bool.toNat_false]
      omega
    | true =>
      simp only [Bool.toNat_true]
      omega

/-! ### How much is opened -/

section

variable (ts : List (Rope ν α h)) (f : Bool × ℕ × Rope ν α h → List ν)
  (hskips : ∀ c, e.Drops c.1 c.2.1 c.2.2.size ∨ e.Keeps c.1 c.2.1 c.2.2.size → f c = [])

include hskips

/-- Behind the start, only the rope that the range ends in is opened. -/
lemma length_flatMap_opened_false {bound : ℕ} (hstart : e.start ≤ offset)
    (hf : ∀ c ∈ e.assign false offset ts, e.start ≤ c.2.1 → (f c).length ≤ bound) :
    ((e.assign false offset ts).flatMap f).length ≤
      if offset < e.stop ∧ e.stop < offset + (ts.map Rope.size).sum then bound else 0 := by
  induction ts generalizing offset with
  | nil =>
    rw [assign_nil, flatMap_nil]
    exact Nat.zero_le _
  | cons t ts ih =>
    rw [assign_false_cons, forall_mem_cons] at hf
    have hrest := ih (hstart.trans (Nat.le_add_right _ _)) hf.2
    rw [assign_false_cons, flatMap_cons, length_append, map_cons, sum_cons]
    rcases Nat.lt_or_ge e.stop (offset + t.size) with hend | hend
    · -- The rest lies behind the range.
      rw [if_neg (by omega)] at hrest
      by_cases hbefore : offset < e.stop
      · rw [if_pos ⟨hbefore, by omega⟩]
        have hfirst := hf.1 hstart
        omega
      · have hfirst := hskips (false, offset, t) (.inr ⟨rfl, .inr (Nat.not_lt.mp hbefore)⟩)
        rw [hfirst, length_nil]
        omega
    · have hfirst := hskips (false, offset, t) (.inl ⟨rfl, hstart, hend⟩)
      rw [hfirst, length_nil, Nat.zero_add]
      refine hrest.trans ?_
      split
      · rw [if_pos (by omega)]
      · exact Nat.zero_le _

/-- Where the replacement is wanted, two ropes at most are opened: the one that takes it and the
one the range ends in. -/
lemma length_flatMap_opened_true (offset : ℕ) (bound : ℕ)
    (hfalse : ∀ c ∈ e.assign true offset ts, c.1 = false → e.start ≤ c.2.1 → (f c).length ≤ bound)
    (htrue : ∀ c ∈ e.assign true offset ts, c.1 = true → (f c).length ≤ 2 * bound ∧
      (c.2.1 + c.2.2.size ≤ e.stop → (f c).length ≤ bound)) :
    ((e.assign true offset ts).flatMap f).length ≤ 2 * bound ∧
      (offset + (ts.map Rope.size).sum ≤ e.stop →
        ((e.assign true offset ts).flatMap f).length ≤ bound) := by
  induction ts generalizing offset with
  | nil =>
    rw [assign_nil, flatMap_nil]
    exact ⟨Nat.zero_le _, fun _ => Nat.zero_le _⟩
  | cons t ts ih =>
    rw [map_cons, sum_cons]
    by_cases hhere : e.start < offset + t.size ∨ ts = []
    · rw [assign_here hhere, forall_mem_cons] at hfalse htrue
      rw [assign_here hhere, flatMap_cons, length_append]
      have hrest : ((e.assign false (offset + t.size) ts).flatMap f).length ≤
          if offset + t.size < e.stop ∧ e.stop < offset + t.size + (ts.map Rope.size).sum
          then bound else 0 := by
        rcases hhere with hlt | rfl
        · refine length_flatMap_opened_false ts f hskips hlt.le fun c hc hstart => ?_
          exact hfalse.2 c hc (assign_false_fst hc) hstart
        · exact Nat.zero_le _
      obtain ⟨hfirst, hends⟩ := htrue.1 rfl
      by_cases hend : offset + t.size ≤ e.stop
      · have hfirst := hends hend
        refine ⟨?_, fun hall => ?_⟩
        · refine (Nat.add_le_add hfirst (hrest.trans (ite_le_sup _ _ _))).trans ?_
          rw [sup_of_le_left (Nat.zero_le _)]
          omega
        · rw [if_neg (by omega)] at hrest
          omega
      · rw [if_neg (by omega)] at hrest
        exact ⟨by omega, fun hall => by omega⟩
    · rw [not_or, Nat.not_lt] at hhere
      rw [assign_later hhere.1 hhere.2, forall_mem_cons] at hfalse htrue
      have hfirst := hskips (false, offset, t) (.inr ⟨rfl, .inl hhere.1⟩)
      rw [assign_later hhere.1 hhere.2, flatMap_cons, hfirst, nil_append, ← Nat.add_assoc]
      exact ih _ hfalse.2 htrue.2

end

/-- Two nodes a level are opened at most, and one a level where the range does not end inside. -/
lemma length_opened : (inserts = false → e.start ≤ offset →
      (e.opened inserts offset t).length ≤ h + 1) ∧
    (inserts = true → (e.opened inserts offset t).length ≤ 2 * h + 1 ∧
      (offset + t.size ≤ e.stop → (e.opened inserts offset t).length ≤ h + 1)) := by
  induction t generalizing inserts offset with
  | leaf l piece =>
    have hone : (e.opened inserts offset (leaf l piece)).length ≤ 1 := by
      by_cases hskips : e.Drops inserts offset (leaf l piece).size ∨
          e.Keeps inserts offset (leaf l piece).size
      · rw [opened_of_skips hskips]
        exact Nat.zero_le _
      · rw [not_or] at hskips
        rw [opened_leaf hskips.1 hskips.2, length_singleton]
    exact ⟨fun _ _ => hone, fun _ => ⟨hone, fun _ => hone⟩⟩
  | @node h l children ih =>
    by_cases hskips : e.Drops inserts offset (node l children).size ∨
        e.Keeps inserts offset (node l children).size
    · rw [opened_of_skips hskips]
      exact ⟨fun _ _ => Nat.zero_le _, fun _ => ⟨Nat.zero_le _, fun _ => Nat.zero_le _⟩⟩
    rw [not_or] at hskips
    rw [opened_node hskips.1 hskips.2, length_cons, size_node]
    refine ⟨?_, ?_⟩
    · rintro rfl hstart
      have hchildren := length_flatMap_opened_false children
        (fun c => e.opened c.1 c.2.1 c.2.2) (fun c => opened_of_skips) hstart
        fun c hc => (ih c.2.2 (mem_of_mem_assign hc)).1 (assign_false_fst hc)
      refine Nat.succ_le_succ (hchildren.trans (ite_le_sup _ _ _) |>.trans ?_)
      rw [sup_of_le_left (Nat.zero_le _)]
    · rintro rfl
      obtain ⟨hall, hend⟩ := length_flatMap_opened_true children
        (fun c => e.opened c.1 c.2.1 c.2.2) (fun c => opened_of_skips) offset (h + 1)
        (fun c hc => (ih c.2.2 (mem_of_mem_assign hc)).1)
        fun c hc hinserts => by
          obtain ⟨hle, hends⟩ := (ih c.2.2 (mem_of_mem_assign hc)).2 hinserts
          exact ⟨hle.trans (by omega), hends⟩
      refine ⟨by omega, fun hstop => ?_⟩
      exact Nat.succ_le_succ (hend hstop)

/-! ### Writing what is there -/

/-- The range is empty, or lies in one piece. -/
def Local (e : RopeEdit α) (offset : ℕ) (pieces : List (List α)) : Prop := e.start = e.stop ∨
    ∃ p ∈ placed List.length offset pieces, p.1 ≤ e.start ∧ e.stop ≤ p.1 + p.2.length

lemma Local.left {ps qs : List (List α)} (hlocal : e.Local offset (ps ++ qs))
    (hstart : e.start < offset + ps.flatten.length ∨ qs = [])
    (hle : e.start ≤ offset + ps.flatten.length) :
    e.Local offset ps ∧ e.stop ≤ offset + ps.flatten.length := by
  rw [length_flatten] at hstart hle ⊢
  rcases hlocal with heq | ⟨p, hp, hlo, hhi⟩
  · exact ⟨.inl heq, by omega⟩
  rw [placed_append, mem_append] at hp
  rcases hp with hp | hp
  · have hbounds := bounds_of_mem_placed hp
    exact ⟨.inr ⟨p, hp, hlo, hhi⟩, by omega⟩
  · have hbounds := bounds_of_mem_placed hp
    rcases hstart with hlt | rfl
    · omega
    · cases hp

lemma Local.right {ps qs : List (List α)} (hlocal : e.Local offset (ps ++ qs))
    (hle : e.start ≤ e.stop) (hlater : offset + ps.flatten.length ≤ e.start) :
    e.Local (offset + ps.flatten.length) qs := by
  rw [length_flatten] at hlater ⊢
  rcases hlocal with heq | ⟨p, hp, hlo, hhi⟩
  · exact .inl heq
  rw [placed_append, mem_append] at hp
  rcases hp with hp | hp
  · have hbounds := bounds_of_mem_placed hp
    exact .inl (by omega)
  · exact .inr ⟨p, hp, hlo, hhi⟩

/-- The edit writes what a part of the list has in the range, and the range is in one piece. -/
structure Rewrites (e : RopeEdit α) (offset : ℕ) (pieces : List (List α)) : Prop where
  starts : offset ≤ e.start ∧ e.start ≤ offset + pieces.flatten.length
  isLocal : e.Local offset pieces
  same : e.replacement = clip e.start e.stop offset pieces.flatten

lemma Rewrites.replacement_eq_nil (hsame : e.Rewrites offset t.pieces) (hzero : t.size = 0) :
    e.replacement = [] := by
  rw [hsame.same, flatten_pieces, eq_nil_of_length_eq_zero hzero, clip, take_nil, drop_nil]

lemma Rewrites.cons_cases (hle : e.start ≤ e.stop)
    (hsame : e.Rewrites offset ((t :: ts).flatMap pieces)) :
    ((e.start < offset + t.size ∨ ts = []) ∧ e.Rewrites offset t.pieces ∧
        e.stop ≤ offset + t.size) ∨
      (offset + t.size ≤ e.start ∧ ts ≠ [] ∧
        e.Rewrites (offset + t.size) (ts.flatMap pieces)) := by
  obtain ⟨⟨hlo, hhi⟩, hlocal, hclip⟩ := hsame
  rw [flatMap_cons] at hlocal
  rw [flatMap_cons, flatten_append, clip_append] at hclip
  rw [flatMap_cons, flatten_append, length_append] at hhi
  have hsize : t.pieces.flatten.length = t.size := by
    rw [flatten_pieces]
    rfl
  rw [hsize] at hhi hclip
  by_cases hhere : e.start < offset + t.size ∨ ts = []
  · have hstart : e.start ≤ offset + t.size := by
      rcases hhere with hlt | rfl
      · exact hlt.le
      · simpa using hhi
    have hrest : e.start < offset + t.pieces.flatten.length ∨ ts.flatMap pieces = [] := by
      rw [hsize]
      refine hhere.imp_right ?_
      rintro rfl
      rfl
    rw [← hsize] at hstart
    obtain ⟨hmine, hstop⟩ := hlocal.left hrest hstart
    rw [hsize] at hstop
    rw [clip_eq_nil (.inl hstop), append_nil] at hclip
    exact .inl ⟨hhere, ⟨⟨hlo, hstart⟩, hmine, hclip⟩, hstop⟩
  · rw [not_or, Nat.not_lt] at hhere
    have hmine := hhere.1
    rw [← hsize] at hmine
    have hright := hlocal.right hle hmine
    rw [clip_eq_nil (.inr hmine), nil_append] at hclip
    rw [hsize] at hright
    exact .inr ⟨hhere.1, hhere.2, ⟨hhere.1, by omega⟩, hright, hclip⟩

lemma keeps_before (hpos : 0 < t.size) (hbefore : offset + t.size ≤ e.start) :
    ¬ e.Drops false offset t.size ∧ e.Keeps false offset t.size := by
  refine ⟨?_, rfl, .inl hbefore⟩
  rintro ⟨-, hbegin, -⟩
  omega

lemma keeps_behind (hpos : 0 < t.size) (hbehind : e.stop ≤ offset) :
    ¬ e.Drops false offset t.size ∧ e.Keeps false offset t.size := by
  refine ⟨?_, rfl, .inr hbehind⟩
  rintro ⟨-, -, hend⟩
  omega

/-- The edit passes the rope by, or writes what it holds. -/
def Spares (e : RopeEdit α) (offset : ℕ) (t : Rope ν α h) : Bool → Prop
  | true => e.Rewrites offset t.pieces
  | false => ¬ e.Drops false offset t.size ∧ e.Keeps false offset t.size

/-- If the range is in one piece of the children and replaced by what it holds, all are spared. -/
lemma spares_of_mem_assign (hle : e.start ≤ e.stop) (hpos : ∀ t ∈ ts, 0 < t.size)
    (hsame : inserts = true → e.Rewrites offset (ts.flatMap pieces))
    (hstop : inserts = false → e.stop ≤ offset) :
    ∀ c ∈ e.assign inserts offset ts, e.Spares c.2.1 c.2.2 c.1 := by
  induction inserts, offset, ts using assign_induction (e := e) with
  | nil => exact forall_mem_nil _
  | done offset t ts ih =>
    rw [forall_mem_cons] at hpos
    rw [assign_false_cons, forall_mem_cons]
    exact ⟨keeps_behind hpos.1 (hstop rfl), ih hpos.2 (fun h => Bool.noConfusion h)
      fun h => (hstop h).trans (Nat.le_add_right _ _)⟩
  | here offset t ts hhere ih =>
    rw [forall_mem_cons] at hpos
    rw [assign_here hhere, forall_mem_cons]
    rcases (hsame rfl).cons_cases hle with ⟨-, hmine, hend⟩ | ⟨hlater, hne, -⟩
    · exact ⟨hmine, ih hpos.2 (fun h => Bool.noConfusion h) fun _ => hend⟩
    · rcases hhere with hlt | hnil
      · omega
      · exact absurd hnil hne
  | later offset t ts hlater hne ih =>
    rw [forall_mem_cons] at hpos
    rw [assign_later hlater hne, forall_mem_cons]
    rcases (hsame rfl).cons_cases hle with ⟨hhere, -⟩ | ⟨-, -, hrest⟩
    · rcases hhere with hlt | hnil
      · omega
      · exact absurd hnil hne
    · exact ⟨keeps_before hpos.1 hlater, ih hpos.2 (fun _ => hrest) fun h => Bool.noConfusion h⟩

/-- A rope that is spared stays as it was. -/
theorem edit_eq_self (hvalid : e.Valid) (hfits : e.Fits t) (hpos : 0 < t.size)
    (hspares : e.Spares offset t inserts) : e.edit inserts offset t = [t.erase] := by
  cases inserts with
  | false => exact edit_of_keeps hspares.1 hspares.2
  | true =>
    induction t generalizing offset with
    | leaf l piece =>
      have hpiece : 0 < piece.length := hpos
      have hclip := hspares.same
      rw [pieces_leaf, flatten_singleton] at hclip
      rw [edit_leaf not_drops_true not_keeps_true, spliced_clip hvalid.le hclip,
        chunks_of_le (ne_nil_of_length_pos hpiece) (fits_leaf.mp hfits)]
      rfl
    | node l children ih =>
      obtain ⟨hne, hlen, hchildren⟩ := fits_node.mp hfits
      have hall : ∀ c ∈ e.assign true offset children, e.Spares c.2.1 c.2.2 c.1 :=
        spares_of_mem_assign hvalid.le (fun c hc => (hchildren c hc).1) (fun _ => hspares)
          fun h => Bool.noConfusion h
      have hedit : ∀ c ∈ e.assign true offset children, e.edit c.1 c.2.1 c.2.2 = [c.2.2.erase] := by
        intro c hc
        obtain ⟨hcpos, hcfits⟩ := hchildren _ (mem_of_mem_assign hc)
        have hspared := hall c hc
        cases hinserts : c.1 with
        | false =>
          rw [hinserts] at hspared
          exact edit_of_keeps hspared.1 hspared.2
        | true =>
          rw [hinserts] at hspared
          exact ih c.2.2 (mem_of_mem_assign hc) hcfits hcpos hspared
      have hedits : ((e.assign true offset children).flatMap fun c => e.edit c.1 c.2.1 c.2.2) =
          children.map Rope.erase := by
        rw [flatMap_congr hedit, ← map_eq_flatMap]
        exact map_map.symm.trans (congrArg (List.map Rope.erase) (map_assign children))
      rw [edit_node not_drops_true not_keeps_true, hedits, group,
        chunks_of_le (by simpa using hne) (by simpa using hlen), erase_node]
      rfl

/-! ### The whole rope -/

lemma content_join (us : List (Rope Unit α h)) :
    (join us).2.content = us.flatMap content := by
  match us with
  | [] => rfl
  | [u] => rw [join, flatMap_singleton]
  | u :: u' :: us => rfl

/-- A rope counts the nodes of what it is joined from. -/
lemma occurrences_le_join {us : List (Rope Unit α h)} {u : Rope Unit α h} (hu : u ∈ us) :
    u.occurrences ≤ (join us).2.occurrences := by
  match us with
  | [] => cases hu
  | [v] =>
    rw [mem_singleton.mp hu]
    rfl
  | v :: v' :: us =>
    have hle := le_sum_of_mem (mem_map_of_mem (f := occurrences) hu)
    show u.occurrences ≤ (node () (v :: v' :: us)).occurrences
    rw [occurrences_node]
    omega

/-- The rope that comes out holds the list with the range replaced. -/
theorem content_result (hvalid : e.Valid) (hfits : e.Fits t) (hstart : e.start ≤ t.size) :
    (e.result t).2.content = e.spliced true 0 t.content := by
  have howns : e.Owns true 0 t.size := fun _ => ⟨Nat.zero_le _, by omega⟩
  rw [result, content_join, content_edit hvalid hfits howns]

/-- Writing what is there leaves a rope that is not empty as it was. -/
lemma result_eq_self (hvalid : e.Valid) (hfits : e.Fits t) (hpos : 0 < t.size)
    (hsame : e.Rewrites 0 t.pieces) : e.result t = ⟨h, t.erase⟩ := by
  have hself : e.edit true 0 t = [t.erase] := edit_eq_self hvalid hfits hpos hsame
  rw [result, hself, join]

end RopeEdit

end Framework
