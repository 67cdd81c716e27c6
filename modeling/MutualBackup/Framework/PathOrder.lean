import Mathlib.Data.List.Lex
import MutualBackup.Framework.Ordered

/-!
# Namespaces in component order

A path is the list of its components and paths are compared component by component.  In this order
what lies below a path is contiguous, so a namespace whose entries arrive in order can be checked
with one open directory: the last entry itself if it is a directory, and its parent if it is not.

`Nested` is the condition on the whole list of entries, with every directory listed before what is
in it.  `nested_append_singleton` is the check of one more entry against the open directory alone.
-/

namespace Framework

open List

/-- What lies above a path lies above or at its parent. -/
lemma prefix_dropLast {α : Type} {p x : List α} (h : p <+: x) (hne : p ≠ x) : p <+: x.dropLast := by
  rcases eq_nil_or_concat' x with rfl | ⟨init, a, rfl⟩
  · exact absurd (prefix_nil.mp h) hne
  · rw [dropLast_concat]
    exact (prefix_concat_iff.mp h).resolve_left hne

variable {α : Type} [LinearOrder α]

/-- Between two paths below `p` there are only paths below `p`. -/
lemma isPrefix_of_between {p x y z : List α} (hx : p <+: x) (hz : p <+: z) (hxy : x ≤ y)
    (hyz : y ≤ z) : p <+: y := by
  induction p generalizing x y z with
  | nil => exact nil_prefix
  | cons a p ih =>
    obtain ⟨x, rfl⟩ := hx
    obtain ⟨z, rfl⟩ := hz
    cases y with
    | nil => exact absurd hxy (not_le_of_gt (nil_lt_cons _ _))
    | cons b y =>
      rw [cons_append, ← not_lt, cons_lt_cons_iff, not_or, not_and] at hxy hyz
      -- The first component is squeezed between two equal ones.
      obtain rfl : a = b := le_antisymm (not_lt.mp hxy.1) (not_lt.mp hyz.1)
      have hxy' : p ++ x ≤ y := not_lt.mp (hxy.2 rfl)
      have hyz' : y ≤ p ++ z := not_lt.mp (hyz.2 rfl)
      rw [prefix_cons_inj]
      exact ih (prefix_append p x) (prefix_append p z) hxy' hyz'

/-- An entry of a namespace: its path, and whether entries may lie below it. -/
structure Entry (α : Type) where
  path : List α
  directory : Bool

/-- Paths ascend, and every entry below the top level comes after its directory. -/
structure Nested (entries : List (Entry α)) : Prop where
  ascending : Ascending Entry.path entries
  parents : ∀ before e after, entries = before ++ e :: after → e.path.dropLast ≠ [] →
    ⟨e.path.dropLast, true⟩ ∈ before

/-- The directory in which an entry can be followed by another: itself, or its parent. -/
def Entry.opens (e : Entry α) : List α := if e.directory then e.path else e.path.dropLast

/-- The directory that is open after these entries; at the start it is the top level. -/
def openDirectory (entries : List (Entry α)) : List α := (entries.getLast?.map Entry.opens).getD []

namespace Nested

variable {entries : List (Entry α)} {e f : Entry α} {p : List α}

section

variable (h : Nested entries) (he : e ∈ entries)

include h he

lemma parent_mem (hne : e.path.dropLast ≠ []) : ⟨e.path.dropLast, true⟩ ∈ entries := by
  obtain ⟨before, after, rfl⟩ := append_of_mem he
  exact mem_append_left _ (h.parents before e after rfl hne)

/-- Every directory above an entry is listed. -/
lemma ancestor_mem (hp : p ≠ []) (hbelow : p <+: e.path) (hne : p ≠ e.path) :
    ⟨p, true⟩ ∈ entries := by
  -- Climb from the entry one directory at a time.
  induction hn : e.path.length generalizing e with
  | zero =>
    rw [eq_nil_of_length_eq_zero hn, prefix_nil] at hbelow
    exact absurd hbelow hp
  | succ n ih =>
    have hdrop : p <+: e.path.dropLast := prefix_dropLast hbelow hne
    have hdropNe : e.path.dropLast ≠ [] := by
      intro hnil
      rw [hnil, prefix_nil] at hdrop
      exact hp hdrop
    have hparent := h.parent_mem he hdropNe
    by_cases hlast : p = e.path.dropLast
    · rw [hlast]
      exact hparent
    · refine ih hparent hdrop hlast ?_
      rw [length_dropLast, hn]
      rfl

/-- Nothing lies below an entry that is not a directory. -/
lemma path_eq_of_below (hf : f ∈ entries) (hpath : e.path ≠ []) (hfile : e.directory = false)
    (hbelow : e.path <+: f.path) : f.path = e.path := by
  by_contra hne
  have hdir := h.ancestor_mem hf hpath hbelow (Ne.symm hne)
  rw [h.ascending.eq_of_key he hdir rfl] at hfile
  exact absurd hfile.symm Bool.false_ne_true

end

end Nested

variable {entries : List (Entry α)} {e last : Entry α} {p : List α}

lemma mem_of_prefix_openDirectory (h : Nested entries) (hp : p ≠ [])
    (hopen : p <+: openDirectory entries) : ⟨p, true⟩ ∈ entries := by
  cases hlast : entries.getLast? with
  | none =>
    rw [openDirectory, hlast, Option.map_none, Option.getD_none, prefix_nil] at hopen
    exact absurd hopen hp
  | some last =>
    rw [openDirectory, hlast, Option.map_some, Option.getD_some, Entry.opens] at hopen
    have hmem : last ∈ entries := mem_of_getLast? hlast
    by_cases hdir : last.directory = true
    · rw [if_pos hdir] at hopen
      by_cases heq : p = last.path
      · rw [heq, ← hdir]
        exact hmem
      · exact h.ancestor_mem hmem hp hopen heq
    · rw [if_neg hdir] at hopen
      refine h.ancestor_mem hmem hp (hopen.trans <| dropLast_prefix _) ?_
      -- The parent of an entry is shorter than the entry.
      intro heq
      have hle := hopen.length_le
      have hpos := length_pos_of_ne_nil hp
      rw [← heq, length_dropLast] at hle
      omega

/-- A directory that has been listed is still open for a path below it that comes later. -/
lemma prefix_openDirectory (h : Nested entries) (hlast : entries.getLast? = some last)
    (hdir : ⟨p, true⟩ ∈ entries) (hbelow : p <+: e.path) (hlater : last.path < e.path) :
    p <+: openDirectory entries := by
  have hmem : last ∈ entries := mem_of_getLast? hlast
  have hle : p ≤ last.path := h.ascending.le_getLast hlast hdir
  have hpre : p <+: last.path := isPrefix_of_between prefix_rfl hbelow hle hlater.le
  rw [openDirectory, hlast, Option.map_some, Option.getD_some, Entry.opens]
  by_cases heq : p = last.path
  · -- The last entry is the directory itself.
    rw [← h.ascending.eq_of_key hdir hmem heq]
    exact prefix_rfl
  · by_cases hd : last.directory = true
    · rw [if_pos hd]
      exact hpre
    · rw [if_neg hd]
      exact prefix_dropLast hpre heq

/-- The check of one more entry needs the last path and the open directory only. -/
lemma nested_append_singleton : Nested (entries ++ [e]) ↔ Nested entries ∧
    (∀ last ∈ entries.getLast?, last.path < e.path) ∧
    (e.path.dropLast = [] ∨ e.path.dropLast <+: openDirectory entries) := by
  constructor
  · intro h
    obtain ⟨hasc, hlater⟩ := ascending_append_singleton.mp h.ascending
    have hentries : Nested entries := by
      refine ⟨hasc, fun before f after hsplit => h.parents before f (after ++ [e]) ?_⟩
      rw [hsplit, append_assoc, cons_append]
    refine ⟨hentries, hlater, ?_⟩
    by_cases htop : e.path.dropLast = []
    · exact .inl htop
    · have hdir := h.parents entries e [] rfl htop
      have hlast := getLast?_eq_some_getLast (ne_nil_of_mem hdir)
      have hparent : e.path.dropLast <+: e.path := dropLast_prefix _
      exact .inr (prefix_openDirectory hentries hlast hdir hparent (hlater _ hlast))
  · rintro ⟨h, hlater, hopen⟩
    refine ⟨ascending_append_singleton.mpr ⟨h.ascending, hlater⟩, ?_⟩
    intro before f after hsplit hne
    rcases eq_nil_or_concat' after with rfl | ⟨after, g, rfl⟩
    · obtain ⟨rfl, hf⟩ := append_inj' hsplit rfl
      rw [← singleton_inj.mp hf] at hne ⊢
      exact mem_of_prefix_openDirectory h hne (hopen.resolve_left hne)
    · rw [← cons_append, ← append_assoc] at hsplit
      exact h.parents before f after (append_inj' hsplit rfl).1 hne

end Framework
