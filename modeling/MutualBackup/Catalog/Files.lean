import MutualBackup.Catalog.Page
import MutualBackup.Framework.PathOrder
import MutualBackup.Framework.ReplicatedLog

/-!
# The file namespace

The records of `catalog/files.rs` and `FileState`, which checks a stream of them while it keeps the
previous path and one directory path.  Names are raw bytes, and paths are compared component by
component, which is not the order of their bytes: the separator does not take part, so a name with
bytes below it still comes after the directory it starts with.

`FileNamespace` is the condition on the whole list of records, with directories looked up among all
earlier records.  `FileState.replay_accept` says that the stream is accepted exactly when it holds,
and that the state then is what `FileState.ofRecords` reads off the list.

The counters `consumed`, `directories`, `files` and `hard_links` are natural numbers: one record is
counted at a time.  The byte totals are added with overflow checks, as in the source.
-/

namespace MutualBackup

open Framework List

/-! ## Paths -/

def catalogFilePathBytes : ℕ := 8 * 1024

/-- The byte `/`. -/
def separator : UInt8 := 47

/-- The components of a path, `split` in the source. -/
def components (path : List UInt8) : List (List UInt8) := path.splitOn separator

/-- `catalog_file_path_order`. -/
def catalogFilePathOrder (left right : List UInt8) : Ordering :=
  compareOfLessAndEq (components left) (components right)

/-- The path before the last separator, or the empty path. -/
def parentPath (path : List UInt8) : List UInt8 :=
  ((path.reverse.dropWhile (· ≠ separator)).drop 1).reverse

/-! ## Records -/

structure CatalogFileStat where
  mode : U32
  modifiedSecs : Int64
  modifiedNanos : U32
  deriving DecidableEq

inductive CatalogFileKind where
  | directory
  | file (fileKey logicalLen : U64) (linkGroup : Option U64)
  | hardLink (logicalLen linkGroup : U64)
  deriving DecidableEq

def CatalogFileKind.isFile : CatalogFileKind → Bool
  | .file _ _ _ => true
  | _ => false

def CatalogFileKind.isHardLink : CatalogFileKind → Bool
  | .hardLink _ _ => true
  | _ => false

structure CatalogFileRecord where
  formatVersion : U16
  path : List UInt8
  stat : CatalogFileStat
  kind : CatalogFileKind
  deriving DecidableEq

/-- `CatalogFileStat::validate`. -/
def CatalogFileStat.validate (s : CatalogFileStat) : Outcome CatalogError Unit :=
  reject (1000000000 ≤ s.modifiedNanos.val) .invalidPage

namespace CatalogFileRecord

/-- `CatalogFileRecord::validate`. -/
def validate (r : CatalogFileRecord) : Outcome CatalogError Unit := do
  r.stat.validate
  reject (r.formatVersion ≠ 1 ∨ r.path = [] ∨ catalogFilePathBytes < r.path.length ∨ 0 ∈ r.path ∨
    ∃ c ∈ components r.path, c = [] ∨ c = [46] ∨ c = [46, 46]) .invalidPage

/-- What the path order needs of a record that passed `validate`. -/
lemma components_ne_nil {r : CatalogFileRecord} (h : r.validate = .ok ()) :
    r.path ≠ [] ∧ ∀ c ∈ components r.path, c ≠ [] := by
  rw [validate, bind_eq_ok, exists_unit, reject_eq_ok] at h
  have hguard := h.2
  push Not at hguard
  obtain ⟨-, hpath, -, -, hall⟩ := hguard
  exact ⟨hpath, fun c hc => (hall c hc).1⟩

end CatalogFileRecord

/-! ## The streaming check -/

structure FileState where
  previous : List UInt8
  directory : List UInt8
  consumed : ℕ
  directories : ℕ
  files : ℕ
  hardLinks : ℕ
  fileBytes : U64
  hardLinkBytes : U64
  deriving DecidableEq

namespace FileState

/-- `FileState::default`. -/
def new : FileState := ⟨[], [], 0, 0, 0, 0, 0, 0⟩

/-- What `accept` does for the kind of a record, once the directory is cut to the parent. -/
def tally (s : FileState) (record : CatalogFileRecord) : Outcome CatalogError FileState :=
  match record.kind with
  | .directory => pure { s with directory := record.path, directories := s.directories + 1 }
  | .file fileKey logicalLen _ => do
    reject (fileKey.val ≠ s.consumed) .invalidPage
    let fileBytes ← okOr (checkedAdd s.fileBytes logicalLen) .bounds
    pure { s with files := s.files + 1, fileBytes }
  | .hardLink logicalLen _ => do
    let hardLinkBytes ← okOr (checkedAdd s.hardLinkBytes logicalLen) .bounds
    pure { s with hardLinks := s.hardLinks + 1, hardLinkBytes }

/-- `FileState::accept`.  A state that refused a record is never used again. -/
def accept (s : FileState) (record : CatalogFileRecord) : Outcome CatalogError FileState := do
  record.validate
  reject (s.previous ≠ [] ∧ catalogFilePathOrder s.previous record.path ≠ .lt) .invalidPage
  let parent := parentPath record.path
  reject (parent ≠ [] ∧ s.directory ≠ parent ∧
    ¬ (parent <+: s.directory ∧ s.directory[parent.length]? = some separator)) .invalidPage
  let s ← tally { s with directory := s.directory.take parent.length } record
  pure { s with consumed := s.consumed + 1, previous := record.path }

end FileState

/-! ## Paths and their components -/

section Paths

variable {path : List UInt8}

lemma components_append (left right : List UInt8) :
    components (left ++ separator :: right) = components left ++ components right :=
  splitOn_append_cons_of_beq left right (beq_self_eq_true separator)

lemma components_of_notMem (h : separator ∉ path) : components path = [path] :=
  splitOn_eq_singleton h

lemma components_injective : Function.Injective components := by
  intro left right h
  have hl : [separator].intercalate (components left) = left := intercalate_splitOn separator
  have hr : [separator].intercalate (components right) = right := intercalate_splitOn separator
  rw [← hl, ← hr, h]

lemma separator_notMem_of_mem_components {c : List UInt8} (hc : c ∈ components path) :
    separator ∉ c := by
  induction path generalizing c with
  | nil =>
    rw [components, splitOn_nil, mem_singleton] at hc
    rw [hc]
    exact not_mem_nil
  | cons b path ih =>
    rw [components, splitOn_cons_eq_if_modifyHead] at hc
    split at hc
    · rcases mem_cons.mp hc with rfl | hc
      · exact not_mem_nil
      · exact ih hc
    · rename_i hb
      obtain ⟨first, rest, hsplit⟩ := exists_cons_of_ne_nil
        (splitOn_ne_nil separator path)
      have hparts : components path = first :: rest := hsplit
      rw [hsplit, modifyHead_cons, mem_cons] at hc
      rw [hparts] at ih
      rcases hc with rfl | hc
      · rw [mem_cons, not_or]
        exact ⟨fun h => hb (beq_iff_eq.mpr h.symm), ih mem_cons_self⟩
      · exact ih (mem_cons_of_mem _ hc)

/-- A path ends in a name without separators. -/
lemma parentPath_spec (path : List UInt8) :
    separator ∉ path ∧ parentPath path = [] ∨
      ∃ name, separator ∉ name ∧ path = parentPath path ++ separator :: name := by
  have hsplit : path.reverse.takeWhile (· ≠ separator) ++ path.reverse.dropWhile (· ≠ separator) =
      path.reverse := takeWhile_append_dropWhile
  have hname : separator ∉ path.reverse.takeWhile (· ≠ separator) := by
    intro h
    have hne := all_eq_true.mp (all_takeWhile (l := path.reverse)) _ h
    exact of_decide_eq_true hne rfl
  cases hdrop : path.reverse.dropWhile (· ≠ separator) with
  | nil =>
    rw [hdrop, append_nil] at hsplit
    rw [hsplit, mem_reverse] at hname
    rw [parentPath, hdrop]
    exact .inl ⟨hname, rfl⟩
  | cons b rest =>
    have hb : b = separator := by
      have hhead := head?_dropWhile_not (· ≠ separator) path.reverse
      rw [hdrop] at hhead
      exact of_not_not (of_decide_eq_false hhead)
    rw [hdrop, hb] at hsplit
    refine .inr ⟨_, mt mem_reverse.mp hname, ?_⟩
    have hpath := congrArg List.reverse hsplit
    rw [reverse_append, reverse_cons, append_assoc, singleton_append, reverse_reverse] at hpath
    rw [parentPath, hdrop]
    exact hpath.symm

/-- The components of the parent, for a path without empty components. -/
lemma components_parentPath (hne : ∀ c ∈ components path, c ≠ []) :
    (parentPath path = [] ∧ (components path).dropLast = []) ∨
      (parentPath path ≠ [] ∧ components (parentPath path) = (components path).dropLast) := by
  rcases parentPath_spec path with ⟨hnone, hparent⟩ | ⟨name, hname, hpath⟩
  · rw [components_of_notMem hnone]
    exact .inl ⟨hparent, rfl⟩
  · have hsplit : components path = components (parentPath path) ++ [name] := by
      conv_lhs => rw [hpath]
      rw [components_append, components_of_notMem hname]
    refine .inr ⟨fun hnil => ?_, by rw [hsplit, dropLast_concat]⟩
    -- A path that starts with a separator has an empty first component.
    refine hne [] ?_ rfl
    rw [hsplit, hnil]
    exact mem_append_left _ mem_cons_self

/-- One path lies at or above another when its components come first in the other. -/
lemma components_prefix_iff {above : List UInt8} : components above <+: components path ↔
    path = above ∨ (above <+: path ∧ path[above.length]? = some separator) := by
  constructor
  · rintro ⟨rest, hrest⟩
    by_cases hnil : rest = []
    · rw [hnil, append_nil] at hrest
      exact .inl (components_injective hrest).symm
    · have hnames : ∀ c ∈ rest, separator ∉ c := fun c hc =>
        separator_notMem_of_mem_components (hrest ▸ mem_append_right _ hc)
      have hcomponents : components path =
          components (above ++ separator :: [separator].intercalate rest) := by
        rw [components_append, ← hrest]
        exact congrArg _ (splitOn_intercalate separator hnames hnil).symm
      rw [components_injective hcomponents]
      refine .inr ⟨prefix_append _ _, ?_⟩
      rw [getElem?_append_right le_rfl, Nat.sub_self, getElem?_cons_zero]
  · rintro (rfl | ⟨⟨rest, rfl⟩, hnext⟩)
    · exact prefix_rfl
    · rw [getElem?_append_right le_rfl, Nat.sub_self, ← head?_eq_getElem?] at hnext
      obtain ⟨tail, rfl⟩ := head?_eq_some_iff.mp hnext
      rw [components_append]
      exact prefix_append _ _

end Paths

/-! ## The whole namespace -/

/-- The bytes a record counts as those of a file. -/
def CatalogFileKind.fileLen : CatalogFileKind → ℕ
  | .file _ logicalLen _ => logicalLen.val
  | _ => 0

/-- The bytes a record counts as those of a hard link. -/
def CatalogFileKind.hardLinkLen : CatalogFileKind → ℕ
  | .hardLink logicalLen _ => logicalLen.val
  | _ => 0

def fileLens (records : List CatalogFileRecord) : ℕ := (records.map fun r => r.kind.fileLen).sum

def hardLinkLens (records : List CatalogFileRecord) : ℕ :=
  (records.map fun r => r.kind.hardLinkLen).sum

/-- A list of records that describes a namespace. -/
structure FileNamespace (records : List CatalogFileRecord) : Prop where
  valid : ∀ r ∈ records, r.validate = .ok ()
  ordered : records.Pairwise fun a b => catalogFilePathOrder a.path b.path = .lt
  /-- The parent of a path below the top level is the path of an earlier directory. -/
  parents : ∀ before r after, records = before ++ r :: after → 1 < (components r.path).length →
    ∃ d ∈ before, d.kind = .directory ∧ components d.path = (components r.path).dropLast
  /-- The key of a file is its place in the list. -/
  keys : ∀ (i : ℕ) r key len group, records[i]? = some r → r.kind = .file key len group →
    key.val = i
  fileLens_lt : fileLens records < 2 ^ 64
  hardLinkLens_lt : hardLinkLens records < 2 ^ 64

namespace CatalogFileRecord

/-- A record as an entry of a namespace in component order. -/
def entry (r : CatalogFileRecord) : Entry (List UInt8) :=
  ⟨components r.path, decide (r.kind = .directory)⟩

/-- The directory path the state keeps after a record. -/
def opens (r : CatalogFileRecord) : List UInt8 :=
  if r.kind = .directory then r.path else parentPath r.path

end CatalogFileRecord

/-- The directory a kept path stands for: the empty path is the top level. -/
def opened (directory : List UInt8) : List (List UInt8) :=
  if directory = [] then [] else components directory

/-- What the state holds after these records. -/
def FileState.ofRecords (records : List CatalogFileRecord) : FileState where
  previous := (records.getLast?.map CatalogFileRecord.path).getD []
  directory := (records.getLast?.map CatalogFileRecord.opens).getD []
  consumed := records.length
  directories := records.countP fun r => r.kind = .directory
  files := records.countP fun r => r.kind.isFile
  hardLinks := records.countP fun r => r.kind.isHardLink
  fileBytes := Fin.ofNat _ (fileLens records)
  hardLinkBytes := Fin.ofNat _ (hardLinkLens records)

/-- A record fits the counts: its key is its ordinal and its bytes can be added. -/
structure FileState.Counts (consumed fileBytes hardLinkBytes : ℕ) (kind : CatalogFileKind) :
    Prop where
  key : ∀ key len group, kind = .file key len group → key.val = consumed
  file_lt : fileBytes + kind.fileLen < 2 ^ 64
  hardLink_lt : hardLinkBytes + kind.hardLinkLen < 2 ^ 64

section Namespace

variable {records : List CatalogFileRecord} {r : CatalogFileRecord}

lemma catalogFilePathOrder_eq_lt {left right : List UInt8} :
    catalogFilePathOrder left right = .lt ↔ components left < components right := by
  rw [catalogFilePathOrder, compareOfLessAndEq_eq_lt]

lemma one_lt_length_iff {α : Type} {xs : List α} : 1 < xs.length ↔ xs.dropLast ≠ [] := by
  rw [← length_pos_iff, length_dropLast]
  omega

lemma nested_iff : Nested (records.map CatalogFileRecord.entry) ↔
    (records.Pairwise fun a b => catalogFilePathOrder a.path b.path = .lt) ∧
    ∀ before r after, records = before ++ r :: after → 1 < (components r.path).length →
      ∃ d ∈ before, d.kind = .directory ∧ components d.path = (components r.path).dropLast := by
  have hdirectory : ∀ (before : List CatalogFileRecord) path,
      ⟨path, true⟩ ∈ before.map CatalogFileRecord.entry ↔
        ∃ d ∈ before, d.kind = .directory ∧ components d.path = path := by
    intro before path
    rw [mem_map]
    refine exists_congr fun d => and_congr_right fun _ => ?_
    rw [CatalogFileRecord.entry, Entry.mk.injEq, decide_eq_true_iff, and_comm]
  have hordered : Ascending Entry.path (records.map CatalogFileRecord.entry) ↔
      records.Pairwise fun a b => catalogFilePathOrder a.path b.path = .lt := by
    rw [Ascending, pairwise_map]
    simp only [catalogFilePathOrder_eq_lt]
    rfl
  constructor
  · intro h
    refine ⟨hordered.mp h.ascending, fun before r after hsplit hlong => ?_⟩
    rw [← hdirectory]
    refine h.parents _ r.entry (after.map CatalogFileRecord.entry) ?_ (one_lt_length_iff.mp hlong)
    rw [hsplit, map_append, map_cons]
  · rintro ⟨hord, hparents⟩
    refine ⟨hordered.mpr hord, fun before e after hsplit hne => ?_⟩
    obtain ⟨before, tail, hrecords, rfl, htail⟩ := map_eq_append_iff.mp hsplit
    obtain ⟨r, after, rfl, rfl, rfl⟩ := map_eq_cons_iff.mp htail
    exact (hdirectory _ _).mpr (hparents before r after hrecords (one_lt_length_iff.mpr hne))

lemma keys_append_singleton :
    (∀ (i : ℕ) q key len group, (records ++ [r])[i]? = some q → q.kind = .file key len group →
      key.val = i) ↔
    (∀ (i : ℕ) q key len group, records[i]? = some q → q.kind = .file key len group →
      key.val = i) ∧ ∀ key len group, r.kind = .file key len group → key.val = records.length := by
  constructor
  · intro h
    refine ⟨fun i q key len group hi => ?_, fun key len group => ?_⟩
    · refine h i q key len group ?_
      rw [getElem?_append_left (List.getElem?_eq_some_iff.mp hi).1, hi]
    · exact h records.length r key len group getElem?_concat_length
  · rintro ⟨hinit, hlast⟩ i q key len group hi
    rcases Nat.lt_or_ge i records.length with hlt | hge
    · rw [getElem?_append_left hlt] at hi
      exact hinit i q key len group hi
    · have hbound := (List.getElem?_eq_some_iff.mp hi).1
      rw [length_append, length_singleton] at hbound
      obtain rfl : i = records.length := by omega
      rw [getElem?_concat_length, Option.some_inj] at hi
      rw [← hi]
      exact hlast key len group

/-- One more record of a namespace. -/
lemma fileNamespace_append_singleton : FileNamespace (records ++ [r]) ↔
    FileNamespace records ∧ r.validate = .ok () ∧
    (∀ last ∈ records.getLast?, catalogFilePathOrder last.path r.path = .lt) ∧
    ((components r.path).dropLast = [] ∨
      (components r.path).dropLast <+: openDirectory (records.map CatalogFileRecord.entry)) ∧
    FileState.Counts records.length (fileLens records) (hardLinkLens records) r.kind := by
  have hnested := @nested_iff records
  have hlonger := @nested_iff (records ++ [r])
  rw [map_append, map_singleton, nested_append_singleton, hnested, getLast?_map]
    at hlonger
  have hlast : (∀ last ∈ records.getLast?.map CatalogFileRecord.entry, last.path < r.entry.path) ↔
      ∀ last ∈ records.getLast?, catalogFilePathOrder last.path r.path = .lt := by
    simp only [catalogFilePathOrder_eq_lt, Option.mem_map, forall_exists_index, and_imp,
      forall_apply_eq_imp_iff₂]
    rfl
  rw [hlast] at hlonger
  have hfile : fileLens (records ++ [r]) = fileLens records + r.kind.fileLen := by
    simp [fileLens]
  have hlink : hardLinkLens (records ++ [r]) = hardLinkLens records + r.kind.hardLinkLen := by
    simp [hardLinkLens]
  constructor
  · intro h
    obtain ⟨⟨hord, hparents⟩, hbefore, hopen⟩ := hlonger.mpr ⟨h.ordered, h.parents⟩
    obtain ⟨hkeys, hkey⟩ := keys_append_singleton.mp h.keys
    have hfileLt := h.fileLens_lt
    have hlinkLt := h.hardLinkLens_lt
    rw [hfile] at hfileLt
    rw [hlink] at hlinkLt
    refine ⟨⟨fun q hq => h.valid q (mem_append_left _ hq), hord, hparents, hkeys, by omega,
      by omega⟩, h.valid r mem_concat_self, hbefore, hopen, hkey, hfileLt, hlinkLt⟩
  · rintro ⟨h, hvalid, hbefore, hopen, hcounts⟩
    obtain ⟨hord, hparents⟩ := hlonger.mp ⟨⟨h.ordered, h.parents⟩, hbefore, hopen⟩
    refine ⟨fun q hq => ?_, hord, hparents, keys_append_singleton.mpr ⟨h.keys, hcounts.key⟩,
      hfile ▸ hcounts.file_lt, hlink ▸ hcounts.hardLink_lt⟩
    rcases mem_append.mp hq with hq | hq
    · exact h.valid q hq
    · rw [mem_singleton.mp hq]
      exact hvalid

end Namespace

namespace FileState

open CatalogFileKind

variable {s t : FileState} {r : CatalogFileRecord} {records : List CatalogFileRecord}

/-- The counts after a record that was accepted. -/
def tallied (s : FileState) (r : CatalogFileRecord) : FileState :=
  { s with
    directory := if r.kind = .directory then r.path else s.directory
    directories := s.directories + if r.kind = .directory then 1 else 0
    files := s.files + if r.kind.isFile then 1 else 0
    hardLinks := s.hardLinks + if r.kind.isHardLink then 1 else 0
    fileBytes := Fin.ofNat _ (s.fileBytes.val + r.kind.fileLen)
    hardLinkBytes := Fin.ofNat _ (s.hardLinkBytes.val + r.kind.hardLinkLen) }

lemma tally_eq_ok : s.tally r = .ok t ↔
    Counts s.consumed s.fileBytes.val s.hardLinkBytes.val r.kind ∧ t = s.tallied r := by
  have hfile := s.fileBytes.isLt
  have hlink := s.hardLinkBytes.isLt
  cases hkind : r.kind with
  | directory =>
    have ht : s.tallied r = { s with directory := r.path, directories := s.directories + 1 } := by
      simp [tallied, hkind, fileLen, hardLinkLen, isFile, isHardLink]
    rw [tally, hkind, ht, pure_eq_ok]
    constructor
    · rintro rfl
      exact ⟨⟨by rintro _ _ _ ⟨⟩, hfile, hlink⟩, rfl⟩
    · rintro ⟨-, rfl⟩
      rfl
  | file key len group =>
    have ht : s.tallied r =
        { s with files := s.files + 1, fileBytes := Fin.ofNat _ (s.fileBytes.val + len.val) } := by
      simp [tallied, hkind, fileLen, hardLinkLen, isFile, isHardLink]
    rw [tally, hkind, ht]
    simp only [bind_eq_ok, exists_unit, reject_eq_ok, not_not, okOr_eq_ok, pure_eq_ok,
      U64.exists_checkedAdd]
    constructor
    · rintro ⟨hkey, hlt, rfl⟩
      refine ⟨⟨?_, hlt, hlink⟩, rfl⟩
      rintro _ _ _ ⟨⟩
      exact hkey
    · rintro ⟨hcounts, rfl⟩
      exact ⟨hcounts.key key len group rfl, hcounts.file_lt, rfl⟩
  | hardLink len group =>
    have ht : s.tallied r =
        { s with hardLinks := s.hardLinks + 1
                 hardLinkBytes := Fin.ofNat _ (s.hardLinkBytes.val + len.val) } := by
      simp [tallied, hkind, fileLen, hardLinkLen, isFile, isHardLink]
    rw [tally, hkind, ht]
    simp only [bind_eq_ok, okOr_eq_ok, pure_eq_ok, U64.exists_checkedAdd]
    constructor
    · rintro ⟨hlt, rfl⟩
      exact ⟨⟨by rintro _ _ _ ⟨⟩, hfile, hlt⟩, rfl⟩
    · rintro ⟨hcounts, rfl⟩
      exact ⟨hcounts.hardLink_lt, rfl⟩

/-- The directory that is kept lies at or below the parent. -/
def Opens (directory parent : List UInt8) : Prop := parent ≠ [] → directory = parent ∨
    (parent <+: directory ∧ directory[parent.length]? = some separator)

lemma accept_eq_ok : s.accept r = .ok t ↔ r.validate = .ok () ∧
    (s.previous ≠ [] → catalogFilePathOrder s.previous r.path = .lt) ∧
    Opens s.directory (parentPath r.path) ∧
    Counts s.consumed s.fileBytes.val s.hardLinkBytes.val r.kind ∧
    t = { tallied { s with directory := s.directory.take (parentPath r.path).length } r with
          consumed := s.consumed + 1, previous := r.path } := by
  have hopens : ¬ (parentPath r.path ≠ [] ∧ s.directory ≠ parentPath r.path ∧
      ¬ (parentPath r.path <+: s.directory ∧
        s.directory[(parentPath r.path).length]? = some separator)) ↔
      Opens s.directory (parentPath r.path) := by
    rw [Opens, not_and, not_and, not_not]
    exact imp_congr_right fun _ => or_iff_not_imp_left.symm
  simp only [accept, bind_eq_ok, exists_unit, reject_eq_ok, hopens, tally_eq_ok, pure_eq_ok]
  rw [not_and, not_not]
  refine and_congr_right fun _ => and_congr_right fun _ => and_congr_right fun _ => ?_
  constructor
  · rintro ⟨_, ⟨hcounts, rfl⟩, rfl⟩
    exact ⟨hcounts, rfl⟩
  · rintro ⟨hcounts, rfl⟩
    exact ⟨_, ⟨hcounts, rfl⟩, rfl⟩

/-! ## Exactness -/

/-- The directory the state keeps stands for the directory that is open. -/
lemma opened_directory (hvalid : ∀ r ∈ records, r.validate = .ok ()) :
    opened (ofRecords records).directory = openDirectory (records.map CatalogFileRecord.entry) := by
  rw [ofRecords, openDirectory, getLast?_map]
  cases hlast : records.getLast? with
  | none => rfl
  | some last =>
    obtain ⟨hpath, hnames⟩ :=
      CatalogFileRecord.components_ne_nil (hvalid last (mem_of_getLast? hlast))
    simp only [Option.map_some, Option.getD_some]
    by_cases hdir : last.kind = .directory
    · simp [CatalogFileRecord.opens, CatalogFileRecord.entry, Entry.opens, opened, hdir, hpath]
    · rcases components_parentPath hnames with ⟨hparent, hdrop⟩ | ⟨hparent, hdrop⟩
      · simp [CatalogFileRecord.opens, CatalogFileRecord.entry, Entry.opens, opened, hdir,
          hparent, hdrop]
      · simp [CatalogFileRecord.opens, CatalogFileRecord.entry, Entry.opens, opened, hdir,
          hparent, hdrop]

/-- The check of the parent is the one against the open directory. -/
lemma opens_iff {directory : List UInt8} (hvalid : r.validate = .ok ()) :
    Opens directory (parentPath r.path) ↔
      (components r.path).dropLast = [] ∨ (components r.path).dropLast <+: opened directory := by
  rcases components_parentPath (CatalogFileRecord.components_ne_nil hvalid).2 with
    ⟨hparent, hdrop⟩ | ⟨hparent, hdrop⟩
  · rw [Opens, hparent, hdrop]
    exact ⟨fun _ => .inl rfl, fun _ h => absurd rfl h⟩
  · have hne : (components r.path).dropLast ≠ [] := by
      rw [← hdrop]
      exact splitOn_ne_nil _ _
    rw [Opens, or_iff_right hne, ← hdrop, opened]
    split
    · rename_i hnil
      rw [hnil, prefix_nil, hdrop]
      simp [hparent, hne, Ne.symm hparent]
    · rw [components_prefix_iff]
      exact forall_prop_of_true hparent

/-- After the parent has passed its check, the kept directory is cut to it. -/
lemma take_of_opens {directory parent : List UInt8} (h : Opens directory parent) :
    directory.take parent.length = parent := by
  by_cases hparent : parent = []
  · rw [hparent]
    exact take_zero
  · rcases h hparent with rfl | ⟨hpre, -⟩
    · exact take_length
    · exact prefix_iff_eq_take.mp hpre |>.symm

/-- The state after one more record is the one read off the longer list. -/
lemma tallied_ofRecords (hopens : Opens (ofRecords records).directory (parentPath r.path))
    (hfile : (ofRecords records).fileBytes.val = fileLens records)
    (hlink : (ofRecords records).hardLinkBytes.val = hardLinkLens records) :
    { tallied { ofRecords records with
        directory := (ofRecords records).directory.take (parentPath r.path).length } r with
      consumed := (ofRecords records).consumed + 1, previous := r.path } =
      ofRecords (records ++ [r]) := by
  rw [take_of_opens hopens]
  simp only [tallied, hfile, hlink]
  simp [ofRecords, CatalogFileRecord.opens, fileLens, hardLinkLens, countP_append, countP_singleton]

/-- One step accepts exactly the records that continue the namespace. -/
lemma accept_ofRecords (h : FileNamespace records) : (ofRecords records).accept r = .ok t ↔
    FileNamespace (records ++ [r]) ∧ t = ofRecords (records ++ [r]) := by
  have hfile : (ofRecords records).fileBytes.val = fileLens records := by
    rw [ofRecords, Fin.val_ofNat, Nat.mod_eq_of_lt h.fileLens_lt]
  have hlink : (ofRecords records).hardLinkBytes.val = hardLinkLens records := by
    rw [ofRecords, Fin.val_ofNat, Nat.mod_eq_of_lt h.hardLinkLens_lt]
  have hprevious : ((ofRecords records).previous ≠ [] →
      catalogFilePathOrder (ofRecords records).previous r.path = .lt) ↔
      ∀ last ∈ records.getLast?, catalogFilePathOrder last.path r.path = .lt := by
    rw [ofRecords]
    cases hlast : records.getLast? with
    | none => simp
    | some last =>
      have hpath := (CatalogFileRecord.components_ne_nil
        (h.valid last (mem_of_getLast? hlast))).1
      simp [hpath]
  rw [accept_eq_ok, fileNamespace_append_singleton, hfile, hlink, hprevious]
  constructor
  · rintro ⟨hvalid, hbefore, hopens, hcounts, rfl⟩
    have hopen := (opens_iff hvalid).mp hopens
    rw [opened_directory h.valid] at hopen
    exact ⟨⟨h, hvalid, hbefore, hopen, hcounts⟩, tallied_ofRecords hopens hfile hlink⟩
  · rintro ⟨⟨-, hvalid, hbefore, hopen, hcounts⟩, rfl⟩
    rw [← opened_directory h.valid] at hopen
    have hopens := (opens_iff hvalid).mpr hopen
    exact ⟨hvalid, hbefore, hopens, hcounts, (tallied_ofRecords hopens hfile hlink).symm⟩

/-- **Exact acceptance.** The stream is accepted exactly when the whole list is a namespace. -/
lemma replay_accept : replay accept new records = .ok t ↔
    FileNamespace records ∧ t = ofRecords records := by
  have hnil : FileNamespace [] :=
    ⟨by simp, Pairwise.nil, by simp, by simp, by decide, by decide⟩
  exact replay_eq_ok_iff _ _ hnil (fun _ _ h => (fileNamespace_append_singleton.mp h).1)
    fun _ _ _ h => accept_ofRecords h

end FileState

namespace FileNamespace

variable {records : List CatalogFileRecord} {r q : CatalogFileRecord}

section

variable (h : FileNamespace records)

include h

lemma nested : Nested (records.map CatalogFileRecord.entry) := nested_iff.mpr ⟨h.ordered, h.parents⟩

/-- The path identifies the record. -/
lemma eq_of_path (hr : r ∈ records) (hq : q ∈ records) (hpath : r.path = q.path) : r = q := by
  have hasc : Ascending (fun r : CatalogFileRecord => components r.path) records :=
    h.ordered.imp fun hlt => catalogFilePathOrder_eq_lt.mp hlt
  exact hasc.eq_of_key hr hq (congrArg components hpath)

lemma nodup_paths : (records.map CatalogFileRecord.path).Nodup := by
  rw [nodup_iff_pairwise_ne, pairwise_map]
  refine h.ordered.imp fun {a b} hlt heq => ?_
  rw [heq, catalogFilePathOrder_eq_lt] at hlt
  exact lt_irrefl _ hlt

/-- Every directory above a record is listed. -/
lemma ancestor (hr : r ∈ records) {p : List (List UInt8)} (hp : p ≠ [])
    (habove : p <+: components r.path) (hne : p ≠ components r.path) :
    ∃ d ∈ records, d.kind = .directory ∧ components d.path = p := by
  have hmem := h.nested.ancestor_mem (mem_map_of_mem hr) hp habove hne
  obtain ⟨d, hd, hentry⟩ := mem_map.mp hmem
  rw [CatalogFileRecord.entry, Entry.mk.injEq, decide_eq_true_iff] at hentry
  exact ⟨d, hd, hentry.2, hentry.1⟩

/-- Nothing lies below a file or a hard link. -/
lemma eq_of_below (hr : r ∈ records) (hq : q ∈ records) (hkind : r.kind ≠ .directory)
    (hbelow : components r.path <+: components q.path) : q = r := by
  have hpath := h.nested.path_eq_of_below (mem_map_of_mem hr) (mem_map_of_mem hq)
    (splitOn_ne_nil _ _) (decide_eq_false hkind) hbelow
  exact h.eq_of_path hq hr (components_injective hpath)

end

end FileNamespace

/-- **The streaming check is the full check.** A stream of records is accepted with two paths of
memory exactly when the whole list is a namespace.  So the paths of an accepted list are distinct,
nothing lies below a file or a hard link, and every directory above a record is listed. -/
theorem file_stream_accepted_iff (records : List CatalogFileRecord) :
    (Succeeds (replay FileState.accept FileState.new records) ↔ FileNamespace records) ∧
    (Succeeds (replay FileState.accept FileState.new records) →
      (records.map CatalogFileRecord.path).Nodup ∧
      (∀ r ∈ records, r.kind ≠ .directory → ∀ q ∈ records,
        components r.path <+: components q.path → q = r) ∧
      ∀ r ∈ records, ∀ p, p ≠ [] → p <+: components r.path → p ≠ components r.path →
        ∃ d ∈ records, d.kind = .directory ∧ components d.path = p) := by
  have haccept : Succeeds (replay FileState.accept FileState.new records) ↔
      FileNamespace records := by
    constructor
    · rintro ⟨t, ht⟩
      exact (FileState.replay_accept.mp ht).1
    · intro h
      exact ⟨_, FileState.replay_accept.mpr ⟨h, rfl⟩⟩
  refine ⟨haccept, fun hrun => ?_⟩
  have h := haccept.mp hrun
  exact ⟨h.nodup_paths, fun r hr hkind q hq => h.eq_of_below hr hq hkind,
    fun r hr p hp habove hne => h.ancestor hr hp habove hne⟩

/-- `a`, the file `a/b` in it, and `a-`, whose bytes come before those of `a/b`. -/
def smallNamespace : List CatalogFileRecord :=
  [⟨1, [97], ⟨0, 0, 0⟩, .directory⟩, ⟨1, [97, 47, 98], ⟨0, 0, 0⟩, .file 1 5 none⟩,
    ⟨1, [97, 45], ⟨0, 0, 0⟩, .hardLink 5 7⟩]

theorem file_stream_accepted_iff_small :
    (smallNamespace.map CatalogFileRecord.path).Nodup ∧ FileNamespace smallNamespace := by
  have hrun : Succeeds (replay FileState.accept FileState.new smallNamespace) := by decide
  obtain ⟨hiff, hconsequences⟩ := file_stream_accepted_iff smallNamespace
  exact ⟨(hconsequences hrun).1, hiff.mp hrun⟩

end MutualBackup
