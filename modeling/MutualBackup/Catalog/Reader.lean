import MutualBackup.Catalog.Page

/-!
# Reading a catalog stream from an untrusted page server

`CatalogReader` walks a page tree from a trusted root reference in the order of the stream.  It
asks a callback for every page, and trusts nothing the callback says: each answer is verified
against the reference that named the page.

The callback is a `PageServer`: it sees the whole history of the calls, its own answers included,
and answers as it likes.  A `Session` is a reader with that history.  `Returned` is a sequence of
`next_leaf` calls that all returned a leaf, and `ReadToEnd` one that the call after it ended with
`Ok(None)`.

Two sessions over one root cannot drift apart: at the same place of the walk they ask for the same
page, and what they accept has the hash the reference names.  So unless two accepted pages collide
they accept the same bytes, and take the same step (`nextInner_agree`).  Everything about two runs
is that step lemma, by induction on the calls.

The source counts visits and bytes in `u64`.  Both stay below the counts of a root that passed its
check plus one leaf, so they are numbers here.
-/

namespace MutualBackup

open Framework List

/-! ## The reader -/

/-- What a server has been asked for, as paths from the root, and what it answered. -/
abbrev PageLog := List (List CatalogPageRef × List UInt8)

/-- A fetch callback: an answer for a path that may depend on everything before. -/
abbrev PageServer (ε : Type) := PageLog → List CatalogPageRef → Except ε (List UInt8)

/-- `CatalogReader`.  The next reference is the head of `pending`, which the source pops from the
end of a vector. -/
structure CatalogReader where
  scope : CatalogScope
  sec : CatalogSection
  root : CatalogPageRef
  pending : List CatalogPageRef
  path : List CatalogPageRef
  visited : ℕ
  byteLen : ℕ
  failed : Bool
  deriving DecidableEq, Repr

namespace CatalogReader

/-- `CatalogReader::new`. -/
def new (scope : CatalogScope) (sec : CatalogSection) (root : CatalogPageRef) :
    Outcome CatalogError CatalogReader := do
  root.validate
  scope.validate sec
  pure ⟨scope, sec, root, [root], [], 0, 0, false⟩

variable (r : CatalogReader)

/-- `check_finished`. -/
def checkFinished : Outcome CatalogError Unit :=
  reject (r.visited ≠ r.root.pageOccurrences.val ∨ r.byteLen ≠ r.root.byteLen.val) .invalidPage

/-- The path to a reference: the part of the last path above it, and the reference. -/
def pathTo (reference : CatalogPageRef) : Outcome CatalogError (List CatalogPageRef) := do
  reject (r.root.height.val < reference.height.val) .invalidPage
  let depth := r.root.height.val - reference.height.val
  reject ((r.path.take depth).length ≠ depth) .invalidPage
  pure (r.path.take depth ++ [reference])

/-- The leaf that ends a call, once it is known to fit. -/
def takeLeaf (bytes : List UInt8) : Outcome CatalogError CatalogReader := do
  let r := { r with byteLen := r.byteLen + bytes.length }
  reject (r.root.byteLen.val < r.byteLen) .bounds
  if r.pending = [] then r.checkFinished
  pure r

end CatalogReader

/-- A reader and the calls its callback has received. -/
structure Session where
  reader : CatalogReader
  log : PageLog
  deriving DecidableEq, Repr

namespace CatalogReader

variable {ε : Type}

/-- The callback's answer, with its error wrapped. -/
def ask (serve : PageServer ε) (log : PageLog) (path : List CatalogPageRef) :
    StreamOutcome ε (List UInt8) :=
  match serve log path with
  | .ok bytes => .ok bytes
  | .error e => fail (.storage e)

section

variable (C : Crypto) (serve : PageServer ε)

/-- One turn of the loop of `next_inner`, up to the body of the page that was read. -/
def visit (s : Session) (reference : CatalogPageRef) (pending : List CatalogPageRef) :
    StreamOutcome ε (PageBody × Session) := do
  let path ← mapErr .catalog (s.reader.pathTo reference)
  let bytes ← ask serve s.log path
  let page ← mapErr .catalog (verifyPage C reference s.reader.scope s.reader.sec bytes)
  pure (page.body, ⟨{ s.reader with pending, path, visited := s.reader.visited + 1 },
    s.log ++ [(path, bytes)]⟩)

/-- `next_inner`.  The first argument is how many more pages may be visited before the count
exceeds that of the root, which is what bounds the loop. -/
def nextInner (budget : ℕ) (s : Session) :
    StreamOutcome ε (Option (List UInt8) × Session) :=
  match s.reader.pending with
  | [] => do
    mapErr .catalog s.reader.checkFinished
    pure (none, s)
  | reference :: pending =>
    match budget with
    | 0 => fail (.catalog .bounds)
    | budget + 1 => do
      let (body, s) ← visit C serve s reference pending
      match body with
      | .index children =>
        nextInner budget ⟨{ s.reader with pending := children ++ pending }, s.log⟩
      | .leaf bytes => do
        let reader ← mapErr .catalog (s.reader.takeLeaf bytes)
        pure (some bytes, ⟨reader, s.log⟩)

/-- `next_leaf_with_path`.  A reader that has failed answers every later call with `Failed`, so
the rest of its fields is as before the call. -/
def nextLeafWithPath (s : Session) :
    StreamOutcome ε (Option (List UInt8)) × Session :=
  if s.reader.failed then (fail (.catalog .failed), s)
  else
    match nextInner C serve (s.reader.root.pageOccurrences.val - s.reader.visited) s with
    | .ok (leaf, s) => (.ok leaf, s)
    | .error e => (.error e, { s with reader := { s.reader with failed := true } })

end

/-- A callback that sees the last reference of the path.  A path is never empty, so the root
stands for nothing. -/
def byReference (root : CatalogPageRef)
    (fetch : PageLog → CatalogPageRef → Except ε (List UInt8)) : PageServer ε :=
  fun log path => fetch log (path.getLastD root)

/-- `next_leaf`. -/
def nextLeaf (C : Crypto) (fetch : PageLog → CatalogPageRef → Except ε (List UInt8))
    (s : Session) : StreamOutcome ε (Option (List UInt8)) × Session :=
  nextLeafWithPath C (byReference s.reader.root fetch) s

end CatalogReader

open CatalogReader

/-! ## Runs -/

section Runs

variable {ε : Type} (C : Crypto) (serve : PageServer ε)

/-- A sequence of calls that returned these leaves. -/
inductive Returned : Session → List (List UInt8) → Session → Prop
  | nil (s : Session) : Returned s [] s
  | cons {s s' s'' : Session} {leaf : List UInt8} {leaves : List (List UInt8)} :
      nextLeafWithPath C serve s = (.ok (some leaf), s') →
      Returned s' leaves s'' → Returned s (leaf :: leaves) s''

/-- A sequence of calls that returned these leaves and then `Ok(None)`. -/
def ReadToEnd (s : Session) (leaves : List (List UInt8)) (s'' : Session) : Prop :=
  ∃ s', Returned C serve s leaves s' ∧ nextLeafWithPath C serve s' = (.ok none, s'')

end Runs

/-! ## What one call does -/

variable {leaf : Option (List UInt8)} {pending : List CatalogPageRef} {budget : ℕ}
  {reference : CatalogPageRef}

namespace CatalogReader

variable {ε : Type} {C : Crypto} {serve : PageServer ε} {s s' : Session}

lemma ask_eq_ok {log : PageLog} {path : List CatalogPageRef} {bytes : List UInt8} :
    ask serve log path = .ok bytes ↔ serve log path = .ok bytes := by
  unfold ask
  cases serve log path <;> simp

variable {body : PageBody}

/-- A visit accepted one page: the one that encodes to the reference. -/
lemma visit_eq_ok :
    visit C serve s reference pending = .ok (body, s') ↔
      ∃ (path : List CatalogPageRef) (bytes : List UInt8) (page : Page),
        s.reader.pathTo reference = .ok path ∧ serve s.log path = .ok bytes ∧
        page.encode C = .ok (reference, bytes) ∧ page.scope = s.reader.scope ∧
        page.sec = s.reader.sec ∧ page.body = body ∧
        s' = ⟨{ s.reader with pending, path, visited := s.reader.visited + 1 },
          s.log ++ [(path, bytes)]⟩ := by
  simp only [visit, bind_eq_ok, mapErr_eq_ok, ask_eq_ok, verifyPage_eq_ok, pure_eq_ok,
    Prod.mk.injEq]
  constructor
  · rintro ⟨path, hpath, bytes, hbytes, page, ⟨hencode, hscope, hsection⟩, hbody, hs⟩
    exact ⟨path, bytes, page, hpath, hbytes, hencode, hscope, hsection, hbody, hs.symm⟩
  · rintro ⟨path, bytes, page, hpath, hbytes, hencode, hscope, hsection, hbody, hs⟩
    exact ⟨path, hpath, bytes, hbytes, page, ⟨hencode, hscope, hsection⟩, hbody, hs.symm⟩

/-- The reader takes a leaf that stays within the root's bytes, and reaches them with the last. -/
lemma takeLeaf_eq_ok {r r' : CatalogReader} {bytes : List UInt8} :
    r.takeLeaf bytes = .ok r' ↔ r' = { r with byteLen := r.byteLen + bytes.length } ∧
      r.byteLen + bytes.length ≤ r.root.byteLen.val ∧
      (r.pending = [] → r'.checkFinished = .ok ()) := by
  by_cases hnil : r.pending = []
  · simp only [takeLeaf, hnil, if_true, bind_eq_ok, exists_unit, reject_eq_ok, not_lt, pure_eq_ok,
      true_imp_iff]
    constructor
    · rintro ⟨hle, hfinished, rfl⟩
      exact ⟨rfl, hle, hfinished⟩
    · rintro ⟨rfl, hle, hfinished⟩
      exact ⟨hle, hfinished, rfl⟩
  · simp only [takeLeaf, hnil, if_false, bind_eq_ok, exists_unit, reject_eq_ok, not_lt, pure_eq_ok,
      false_imp_iff, and_true]
    constructor
    · rintro ⟨hle, rfl⟩
      exact ⟨rfl, hle⟩
    · rintro ⟨rfl, hle⟩
      exact ⟨hle, rfl⟩

/-- How a call goes on once it has read a page: into the children, or out with the leaf. -/
def Resumes (C : Crypto) (serve : PageServer ε) (budget : ℕ) (pending : List CatalogPageRef)
    (body : PageBody) (s : Session) (out : Option (List UInt8) × Session) : Prop :=
  match body with
  | .index children =>
    nextInner C serve budget ⟨{ s.reader with pending := children ++ pending }, s.log⟩ = .ok out
  | .leaf bytes =>
    ∃ reader, s.reader.takeLeaf bytes = .ok reader ∧ out = (some bytes, ⟨reader, s.log⟩)

/-- The cases of a call that succeeded: the stream was at its end, or a page was visited. -/
lemma nextInner_eq_ok {out : Option (List UInt8) × Session} :
    nextInner C serve budget s = .ok out ↔
      (s.reader.pending = [] ∧ s.reader.checkFinished = .ok () ∧ out = (none, s)) ∨
      ∃ reference pending budget' body s₁, s.reader.pending = reference :: pending ∧
        budget = budget' + 1 ∧ visit C serve s reference pending = .ok (body, s₁) ∧
        Resumes C serve budget' pending body s₁ out := by
  rw [nextInner.eq_def]
  cases hpending : s.reader.pending with
  | nil =>
    simp only [bind_eq_ok, mapErr_eq_ok, exists_unit, pure_eq_ok, reduceCtorEq, false_and,
      exists_false, or_false, true_and]
    exact and_congr_right fun _ => eq_comm
  | cons reference pending =>
    cases budget with
    | zero => simp
    | succ budget =>
      simp only [bind_eq_ok, Prod.exists, reduceCtorEq, false_and, false_or,
        List.cons.injEq, Nat.add_right_cancel_iff]
      constructor
      · rintro ⟨body, s₁, hvisit, hrest⟩
        refine ⟨reference, pending, budget, body, s₁, ⟨rfl, rfl⟩, rfl, hvisit, ?_⟩
        cases body with
        | index children => exact hrest
        | leaf bytes =>
          simp only [bind_eq_ok, mapErr_eq_ok, pure_eq_ok] at hrest
          obtain ⟨reader, htake, rfl⟩ := hrest
          exact ⟨reader, htake, rfl⟩
      · rintro ⟨reference, pending, budget, body, s₁, ⟨rfl, rfl⟩, rfl, hvisit, hrest⟩
        refine ⟨body, s₁, hvisit, ?_⟩
        cases body with
        | index children => exact hrest
        | leaf bytes =>
          obtain ⟨reader, htake, rfl⟩ := hrest
          simp only [bind_eq_ok, mapErr_eq_ok, pure_eq_ok]
          exact ⟨reader, htake, rfl⟩

lemma nextLeafWithPath_eq_ok :
    nextLeafWithPath C serve s = (.ok leaf, s') ↔ s.reader.failed = false ∧
      nextInner C serve (s.reader.root.pageOccurrences.val - s.reader.visited) s =
        .ok (leaf, s') := by
  unfold nextLeafWithPath
  cases hfailed : s.reader.failed with
  | true => simp [fail]
  | false =>
    cases nextInner C serve (s.reader.root.pageOccurrences.val - s.reader.visited) s with
    | ok out => simp [Prod.ext_iff]
    | error e => simp

/-- What a successful call keeps and counts: one log entry a visit, and the bytes of its leaf. -/
structure Advanced (s : Session) (leaf : Option (List UInt8)) (s' : Session) : Prop where
  scope : s'.reader.scope = s.reader.scope
  sec : s'.reader.sec = s.reader.sec
  root : s'.reader.root = s.reader.root
  log : s.log <+: s'.log
  visited : s'.reader.visited + s.log.length = s.reader.visited + s'.log.length
  byteLen : s'.reader.byteLen = s.reader.byteLen + (leaf.getD []).length

lemma Advanced.refl (s : Session) : Advanced s none s := ⟨rfl, rfl, rfl, prefix_rfl, rfl, rfl⟩

/-- A visit counts itself, and what comes after it counts the rest. -/
lemma Advanced.of_visit {s₁ : Session} (hvisit : visit C serve s reference pending = .ok (body, s₁))
    (h : Advanced s₁ leaf s') : Advanced s leaf s' := by
  obtain ⟨path, bytes, page, -, -, -, -, -, -, rfl⟩ := visit_eq_ok.mp hvisit
  have hvisited := h.visited
  simp only [length_append, length_cons, length_nil] at hvisited
  exact ⟨h.scope, h.sec, h.root, (prefix_append _ _).trans h.log, by omega, h.byteLen⟩

lemma advanced_of_nextInner (h : nextInner C serve budget s = .ok (leaf, s')) :
    Advanced s leaf s' := by
  induction budget generalizing s with
  | zero =>
    rcases nextInner_eq_ok.mp h with ⟨-, -, hout⟩ | ⟨_, _, _, _, _, -, hzero, -⟩
    · cases hout
      exact .refl _
    · cases hzero
  | succ budget ih =>
    rcases nextInner_eq_ok.mp h with ⟨-, -, hout⟩ |
      ⟨reference, pending, budget', body, s₁, -, hbudget, hvisit, hrest⟩
    · cases hout
      exact .refl _
    · cases hbudget
      refine .of_visit hvisit ?_
      cases body with
      | index children =>
        have hlater := ih hrest
        exact ⟨hlater.scope, hlater.sec, hlater.root, hlater.log, hlater.visited,
          hlater.byteLen⟩
      | leaf bytes =>
        obtain ⟨reader, htake, hout⟩ := hrest
        obtain ⟨rfl, -, -⟩ := takeLeaf_eq_ok.mp htake
        cases hout
        exact ⟨rfl, rfl, rfl, prefix_rfl, rfl, rfl⟩

/-- What a call does after a visit adds to the log of the visit. -/
lemma Resumes.log {out : Option (List UInt8) × Session}
    (h : Resumes C serve budget pending body s out) : s.log <+: out.2.log := by
  cases body with
  | index children =>
    obtain ⟨leaf, s'⟩ := out
    exact (advanced_of_nextInner h).log
  | leaf bytes =>
    obtain ⟨reader, -, rfl⟩ := h
    exact prefix_rfl

lemma checkFinished_of_nextInner (h : nextInner C serve budget s = .ok (none, s')) :
    s'.reader.checkFinished = .ok () := by
  induction budget generalizing s with
  | zero =>
    rcases nextInner_eq_ok.mp h with ⟨-, hfinished, hout⟩ | ⟨_, _, _, _, _, -, hzero, -⟩
    · cases hout
      exact hfinished
    · cases hzero
  | succ budget ih =>
    rcases nextInner_eq_ok.mp h with ⟨-, hfinished, hout⟩ |
      ⟨reference, pending, budget', body, s₁, -, hbudget, hvisit, hrest⟩
    · cases hout
      exact hfinished
    · cases hbudget
      cases body with
      | index children => exact ih hrest
      | leaf bytes =>
        obtain ⟨reader, -, hout⟩ := hrest
        cases hout

end CatalogReader

/-! ## What one run does -/

variable {sec : CatalogSection} {reader : CatalogReader} {root : CatalogPageRef}
  {scope : CatalogScope}

section Run

variable {ε : Type} {C : Crypto} {serve : PageServer ε} {s s' : Session}
  {leaves : List (List UInt8)}

lemma advanced_of_call (h : nextLeafWithPath C serve s = (.ok leaf, s')) :
    CatalogReader.Advanced s leaf s' :=
  advanced_of_nextInner (nextLeafWithPath_eq_ok.mp h).2

/-- A call that returned a leaf has visited a page that the root still counted. -/
lemma visited_of_leaf {leaf : List UInt8} (h : nextLeafWithPath C serve s = (.ok (some leaf), s')) :
    s'.reader.root = s.reader.root ∧ s.reader.visited < s.reader.root.pageOccurrences.val ∧
      s.reader.visited < s'.reader.visited := by
  obtain ⟨-, hinner⟩ := nextLeafWithPath_eq_ok.mp h
  have hadvanced := advanced_of_call h
  rcases nextInner_eq_ok.mp hinner with ⟨-, -, hout⟩ |
    ⟨reference, pending, budget, body, s₁, -, hbudget, hvisit, hrest⟩
  · cases hout
  · obtain ⟨path, bytes, page, -, -, -, -, -, -, rfl⟩ := visit_eq_ok.mp hvisit
    have hlog : _ ≤ s'.log.length := hrest.log.length_le
    have hvisited := hadvanced.visited
    rw [length_append, length_singleton] at hlog
    exact ⟨hadvanced.root, by omega, by omega⟩

/-- Over a run the log grows, one entry a visit, and the reader has counted the bytes returned. -/
lemma Returned.advanced (h : Returned C serve s leaves s') :
    CatalogReader.Advanced s (some leaves.flatten) s' := by
  induction h with
  | nil s => exact ⟨rfl, rfl, rfl, prefix_rfl, rfl, rfl⟩
  | cons hcall hrest ih =>
    have hfirst := advanced_of_call hcall
    have hvisited := hfirst.visited
    have hvisited' := ih.visited
    have hbytes := hfirst.byteLen
    have hbytes' := ih.byteLen
    refine ⟨ih.scope.trans hfirst.scope, ih.sec.trans hfirst.sec,
      ih.root.trans hfirst.root, hfirst.log.trans ih.log, by omega, ?_⟩
    simp only [Option.getD_some, flatten_cons, length_append] at hbytes hbytes' ⊢
    omega

/-- A session before its first call. -/
def Session.start (reader : CatalogReader) : Session := ⟨reader, []⟩

/-- A run to the end has returned the bytes the root counts, for the pages the root counts. -/
lemma ReadToEnd.counts (hnew : CatalogReader.new scope sec root = .ok reader)
    (h : ReadToEnd C serve (.start reader) leaves s') :
    leaves.flatten.length = root.byteLen.val ∧ s'.log.length = root.pageOccurrences.val := by
  obtain ⟨s₁, hreturned, hend⟩ := h
  have hrun := hreturned.advanced
  have hlast := advanced_of_call hend
  have hfinished : s'.reader.checkFinished = .ok () :=
    checkFinished_of_nextInner (nextLeafWithPath_eq_ok.mp hend).2
  simp only [CatalogReader.new, bind_eq_ok, exists_unit, pure_eq_ok] at hnew
  obtain ⟨-, -, rfl⟩ := hnew
  rw [checkFinished, reject_eq_ok, hlast.root, hrun.root] at hfinished
  push Not at hfinished
  have hvisited := hlast.visited
  have hvisited' := hrun.visited
  have hbytes := hlast.byteLen
  have hbytes' := hrun.byteLen
  simp only [Session.start, length_nil, Option.getD_none, Option.getD_some]
    at hfinished hvisited hvisited' hbytes hbytes'
  exact ⟨by omega, by omega⟩

end Run

/-! ## Two runs -/

/-- No page of one log has the hash of a different page of the other. -/
def CollisionFree {α : Type} (C : Crypto) (xs ys : List (α × List UInt8)) : Prop :=
  ∀ x ∈ xs, ∀ y ∈ ys, pageHash C x.2 = pageHash C y.2 → x.2 = y.2
  deriving Decidable

section TwoRuns

variable {ε₁ ε₂ : Type} {C : Crypto} {serve₁ : PageServer ε₁} {serve₂ : PageServer ε₂}
  {s₁ s₂ t₁ t₂ : Session}

lemma CollisionFree.symm {xs ys : PageLog} (h : CollisionFree C xs ys) : CollisionFree C ys xs :=
  fun y hy x hx heq => (h x hx y hy heq.symm).symm

lemma CollisionFree.of_prefix {α : Type} {xs ys xs' ys' : List (α × List UInt8)}
    (h : CollisionFree C xs' ys') (hx : xs <+: xs') (hy : ys <+: ys') : CollisionFree C xs ys :=
  fun x hxs y hys => h x (hx.subset hxs) y (hy.subset hys)

/-- Two encodings to one reference, without a collision, are of one page. -/
lemma page_eq_of_reference {p q : Page} {r : CatalogPageRef} {x y : List UInt8}
    (hp : p.encode C = .ok (r, x)) (hq : q.encode C = .ok (r, y))
    (hfree : pageHash C x = pageHash C y → x = y) : p = q ∧ x = y := by
  have hx := (Page.encode_eq_ok.mp hp).2.2.2.1
  have hy := (Page.encode_eq_ok.mp hq).2.2.2.1
  have hbytes : x = y := hfree (hx.symm.trans hy)
  subst hbytes
  exact ⟨Page.eq_of_encode hp hq, rfl⟩

section

variable (hreader : s₁.reader = s₂.reader) (hfree : CollisionFree C t₁.log t₂.log)

include hreader hfree

namespace CatalogReader

/-- At the same place two sessions accept the same page. -/
lemma visit_agree {body₁ body₂ : PageBody}
    (h₁ : visit C serve₁ s₁ reference pending = .ok (body₁, t₁))
    (h₂ : visit C serve₂ s₂ reference pending = .ok (body₂, t₂)) :
    body₁ = body₂ ∧ t₁.reader = t₂.reader := by
  obtain ⟨path₁, bytes₁, page₁, hpath₁, -, hencode₁, -, -, rfl, rfl⟩ := visit_eq_ok.mp h₁
  obtain ⟨path₂, bytes₂, page₂, hpath₂, -, hencode₂, -, -, rfl, rfl⟩ := visit_eq_ok.mp h₂
  have hpath : path₁ = path₂ := by
    rw [hreader, hpath₂] at hpath₁
    cases hpath₁
    rfl
  have hpage : page₁ = page₂ ∧ bytes₁ = bytes₂ := page_eq_of_reference hencode₁ hencode₂
      (hfree (path₁, bytes₁) (by simp) (path₂, bytes₂) (by simp))
  rw [hpage.1, hpath, hreader]
  exact ⟨rfl, rfl⟩

/-- **The step.**  Two calls from the same place that both succeed return the same leaf and leave
their readers at the same place. -/
lemma nextInner_agree {leaf₁ leaf₂ : Option (List UInt8)}
    (h₁ : nextInner C serve₁ budget s₁ = .ok (leaf₁, t₁))
    (h₂ : nextInner C serve₂ budget s₂ = .ok (leaf₂, t₂)) :
    leaf₁ = leaf₂ ∧ t₁.reader = t₂.reader := by
  induction budget generalizing s₁ s₂ with
  | zero =>
    rcases nextInner_eq_ok.mp h₁ with ⟨-, -, hout₁⟩ | ⟨_, _, _, _, _, -, hzero, -⟩
    · rcases nextInner_eq_ok.mp h₂ with ⟨-, -, hout₂⟩ | ⟨_, _, _, _, _, -, hzero, -⟩
      · cases hout₁
        cases hout₂
        exact ⟨rfl, hreader⟩
      · cases hzero
    · cases hzero
  | succ budget ih =>
    rcases nextInner_eq_ok.mp h₁ with ⟨hnil₁, -, hout₁⟩ |
      ⟨reference, pending, budget₁, body₁, m₁, hcons₁, hbudget₁, hvisit₁, hrest₁⟩
    · rcases nextInner_eq_ok.mp h₂ with ⟨-, -, hout₂⟩ | ⟨_, _, _, _, _, hcons₂, -⟩
      · cases hout₁
        cases hout₂
        exact ⟨rfl, hreader⟩
      · rw [hreader, hcons₂] at hnil₁
        cases hnil₁
    · rcases nextInner_eq_ok.mp h₂ with ⟨hnil₂, -, -⟩ |
        ⟨reference₂, pending₂, budget₂, body₂, m₂, hcons₂, hbudget₂, hvisit₂, hrest₂⟩
      · rw [hreader, hnil₂] at hcons₁
        cases hcons₁
      · cases hbudget₁
        cases hbudget₂
        rw [hreader, hcons₂] at hcons₁
        cases hcons₁
        have hfreeMid := hfree.of_prefix hrest₁.log hrest₂.log
        obtain ⟨hbody, hmid⟩ := visit_agree hreader hfreeMid hvisit₁ hvisit₂
        subst hbody
        cases body₁ with
        | index children => exact ih (by rw [hmid]) hrest₁ hrest₂
        | leaf bytes =>
          obtain ⟨reader₁, htake₁, hout₁⟩ := hrest₁
          obtain ⟨reader₂, htake₂, hout₂⟩ := hrest₂
          rw [hmid, htake₂] at htake₁
          cases htake₁
          cases hout₁
          cases hout₂
          exact ⟨rfl, rfl⟩

end CatalogReader

lemma call_agree {leaf₁ leaf₂ : Option (List UInt8)}
    (h₁ : nextLeafWithPath C serve₁ s₁ = (.ok leaf₁, t₁))
    (h₂ : nextLeafWithPath C serve₂ s₂ = (.ok leaf₂, t₂)) :
    leaf₁ = leaf₂ ∧ t₁.reader = t₂.reader := by
  have hinner₁ := (nextLeafWithPath_eq_ok.mp h₁).2
  have hinner₂ := (nextLeafWithPath_eq_ok.mp h₂).2
  rw [hreader] at hinner₁
  exact nextInner_agree hreader hfree hinner₁ hinner₂

/-- **The run.**  What any session has returned is an initial part of what a session over the same
root returned up to its end. -/
lemma Returned.prefix_of_readToEnd {leaves₁ leaves₂ : List (List UInt8)}
    (h₁ : ReadToEnd C serve₁ s₁ leaves₁ t₁) (h₂ : Returned C serve₂ s₂ leaves₂ t₂) :
    leaves₂ <+: leaves₁ := by
  induction h₂ generalizing s₁ leaves₁ with
  | nil s => exact nil_prefix
  | cons hcall₂ hrest₂ ih =>
    obtain ⟨m₁, hreturned₁, hend₁⟩ := h₁
    cases hreturned₁ with
    | nil =>
      have hsame := call_agree hreader (hfree.of_prefix prefix_rfl hrest₂.advanced.log) hend₁ hcall₂
      cases hsame.1
    | cons hcall₁ hrest₁ =>
      have hlog := hrest₁.advanced.log.trans (advanced_of_call hend₁).log
      obtain ⟨hleaf, hmid⟩ :=
        call_agree hreader (hfree.of_prefix hlog hrest₂.advanced.log) hcall₁ hcall₂
      cases hleaf
      exact cons_prefix_cons.mpr ⟨rfl, ih hmid hfree ⟨m₁, hrest₁, hend₁⟩⟩

end

section

variable {ε : Type} {serve : PageServer ε} {t : Session}
  (hnew : CatalogReader.new scope sec root = .ok reader)

include hnew

/-- The first page a session reads is the root, in the scope and section of its reader. -/
lemma root_page_of_call (h : nextLeafWithPath C serve (.start reader) = (.ok leaf, t)) :
    ∃ entry ∈ t.log, ∃ page : Page, page.encode C = .ok (root, entry.2) ∧ page.scope = scope ∧
      page.sec = sec := by
  simp only [CatalogReader.new, bind_eq_ok, exists_unit, pure_eq_ok] at hnew
  obtain ⟨-, -, rfl⟩ := hnew
  rcases nextInner_eq_ok.mp (nextLeafWithPath_eq_ok.mp h).2 with
    ⟨hnil, -, -⟩ | ⟨reference, pending, budget, body, m, hcons, -, hvisit, hrest⟩
  · cases hnil
  · cases hcons
    have hlog := hrest.log
    obtain ⟨path, bytes, page, -, -, hencode, hscope, hsection, -, rfl⟩ :=
      visit_eq_ok.mp hvisit
    exact ⟨(path, bytes), hlog.subset (by simp), page, hencode, hscope, hsection⟩

lemma ReadToEnd.root_page {leaves : List (List UInt8)}
    (h : ReadToEnd C serve (.start reader) leaves t) :
    ∃ entry ∈ t.log, ∃ page : Page, page.encode C = .ok (root, entry.2) ∧ page.scope = scope ∧
      page.sec = sec := by
  obtain ⟨m, hreturned, hend⟩ := h
  cases hreturned with
  | nil => exact root_page_of_call hnew hend
  | cons hcall hrest =>
    obtain ⟨entry, hentry, hpage⟩ := root_page_of_call hnew hcall
    have hlog := hrest.advanced.log.trans (advanced_of_call hend).log
    exact ⟨entry, hlog.subset hentry, hpage⟩

end

/-- **Reads are authentic.**  A session that reaches the end has returned as many bytes, for as
many pages, as the root counts.  Whatever another server answers over the same root, scope and
section, a session with it that reaches the end returns the same bytes, and one that does not has
returned an initial part of them; and no session reaches the end of the root in another scope or
section.  The pages the two sessions accepted are assumed not to collide. -/
theorem catalog_read_authentic {root : CatalogPageRef} {scope : CatalogScope}
    {sec : CatalogSection} {reader : CatalogReader} {leaves₁ : List (List UInt8)}
    (hnew : CatalogReader.new scope sec root = .ok reader)
    (h₁ : ReadToEnd C serve₁ (.start reader) leaves₁ t₁) :
    (leaves₁.flatten.length = root.byteLen.val ∧ t₁.log.length = root.pageOccurrences.val) ∧
    (∀ leaves₂ t₂, ReadToEnd C serve₂ (.start reader) leaves₂ t₂ → CollisionFree C t₁.log t₂.log →
      leaves₂.flatten = leaves₁.flatten ∧ leaves₂.flatten.length = root.byteLen.val ∧
        t₂.log.length = root.pageOccurrences.val) ∧
    (∀ leaves₂ t₂, Returned C serve₂ (.start reader) leaves₂ t₂ →
      CollisionFree C t₁.log t₂.log → leaves₂.flatten <+: leaves₁.flatten) ∧
    ∀ scope' sec' reader' leaves₂ t₂, CatalogReader.new scope' sec' root = .ok reader' →
      ReadToEnd C serve₂ (.start reader') leaves₂ t₂ → CollisionFree C t₁.log t₂.log →
      scope' = scope ∧ sec' = sec := by
  refine ⟨h₁.counts hnew, fun leaves₂ t₂ h₂ hfree => ?_, fun leaves₂ t₂ h₂ hfree => ?_,
    fun scope' sec' reader' leaves₂ t₂ hnew' h₂ hfree => ?_⟩
  · have hcounts := h₂.counts hnew
    obtain ⟨m₁, hreturned₁, hend₁⟩ := h₁
    obtain ⟨m₂, hreturned₂, hend₂⟩ := h₂
    have hle : leaves₂ <+: leaves₁ := hreturned₂.prefix_of_readToEnd rfl
      (hfree.of_prefix prefix_rfl (advanced_of_call hend₂).log) ⟨m₁, hreturned₁, hend₁⟩
    have hge : leaves₁ <+: leaves₂ := hreturned₁.prefix_of_readToEnd rfl
      (hfree.of_prefix (advanced_of_call hend₁).log prefix_rfl).symm ⟨m₂, hreturned₂, hend₂⟩
    have hsame : leaves₂ = leaves₁ := hle.eq_of_length (le_antisymm hle.length_le hge.length_le)
    exact ⟨by rw [hsame], hcounts⟩
  · obtain ⟨rest, hrest⟩ := h₂.prefix_of_readToEnd rfl hfree h₁
    exact ⟨rest.flatten, by rw [← hrest, flatten_append]⟩
  · obtain ⟨entry₁, hentry₁, page₁, hencode₁, hscope₁, hsection₁⟩ := h₁.root_page hnew
    obtain ⟨entry₂, hentry₂, page₂, hencode₂, hscope₂, hsection₂⟩ := h₂.root_page hnew'
    have hpage := (page_eq_of_reference hencode₁ hencode₂
      (hfree entry₁ hentry₁ entry₂ hentry₂)).1
    rw [← hscope₁, ← hsection₁, ← hscope₂, ← hsection₂, hpage]
    exact ⟨rfl, rfl⟩

end TwoRuns

/-! ### A small tree

An index page over two leaves of one byte, served as it was built. -/

def smallPage (height : U8) (body : PageBody) : Page := ⟨1, .guild 1, .packing, height, body⟩

def smallLeaf (hash : Bytes 32) : CatalogPageRef := ⟨hash, 39, 0, 1, 1⟩

def firstLeaf : CatalogPageRef :=
  smallLeaf 53092735490462088690484969325308054955219445449703600187304170792105769006716

def secondLeaf : CatalogPageRef :=
  smallLeaf 53092735490462088690484969325308054955219445449703600187304170792105769006717

def smallRoot : CatalogPageRef :=
  ⟨32092894325991409997813602765728518764408944045950155979786663517404646489157, 110, 1, 2, 3⟩

/-- The body of each page by its reference. -/
def smallServer : PageServer Unit := fun _ path =>
    let body : PageBody :=
      if path.getLast? = some firstLeaf then .leaf [7]
      else if path.getLast? = some secondLeaf then .leaf [8]
      else .index [firstLeaf, secondLeaf]
    let height : U8 := if path.length = 1 then 1 else 0
    match Page.codec.encode (smallPage height body) with
    | some bytes => .ok bytes
    | none => .error ()

def smallReader : CatalogReader := ⟨.guild 1, .packing, smallRoot, [smallRoot], [], 0, 0, false⟩

/-- The session after `n` calls. -/
def smallSession : ℕ → Session
  | 0 => .start smallReader
  | n + 1 =>
    (nextLeafWithPath .transparent smallServer (smallSession n)).2

lemma smallSession_call {n : ℕ} {r : Outcome (CatalogStreamError Unit) (Option (List UInt8))}
    (h : (nextLeafWithPath .transparent smallServer (smallSession n)).1 = r) :
    nextLeafWithPath .transparent smallServer (smallSession n) =
      (r, smallSession (n + 1)) := Prod.ext h rfl

lemma smallServer_readToEnd :
    ReadToEnd .transparent smallServer (.start smallReader) [[7], [8]] (smallSession 3) :=
  ⟨smallSession 2, .cons (smallSession_call (n := 0) (by decide +kernel))
      (.cons (smallSession_call (n := 1) (by decide +kernel)) (.nil _)),
    smallSession_call (n := 2) (by decide +kernel)⟩

theorem catalog_read_authentic_small :
    CatalogReader.new (.guild 1) .packing smallRoot = .ok smallReader ∧
    ([[7], [8]] : List (List UInt8)).flatten.length = smallRoot.byteLen.val ∧
    ∀ (serve : PageServer Unit) leaves t,
      ReadToEnd .transparent serve (.start smallReader) leaves t →
      CollisionFree .transparent (smallSession 3).log t.log → leaves.flatten = [7, 8] := by
  have hnew : CatalogReader.new (.guild 1) .packing smallRoot = .ok smallReader := by
    decide +kernel
  refine ⟨hnew, smallServer_readToEnd.counts hnew |>.1, fun serve leaves t h hfree => ?_⟩
  exact ((catalog_read_authentic hnew smallServer_readToEnd).2.1 leaves t h hfree).1

end MutualBackup
