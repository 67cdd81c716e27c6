import MutualBackup.Catalog.Tree
import MutualBackup.Framework.Framing
import MutualBackup.Framework.Stream

/-!
# Records over a catalog stream

`CatalogRecordBuilder` writes records as length-prefixed frames behind a header, through the page
builder.  `CatalogRecordReader` takes the frames off the leaves of a page tree, wherever the leaves
are cut, and checks that nothing follows the last record before it hands that record out.

Over a tree that verifies, the reader is a parser of the tree's bytes.  `Unread` is what it has yet
to take; `ensureLeaf`, `readExact` and `readFrame` are specified in terms of it and say nothing of
leaves.  `At` adds the records it has yielded.  `At.of_nextRecord` is what a call can do, and
`At.nextRecord` what it does over a well-formed stream.
-/

namespace MutualBackup

open Framework List CatalogBuilder

/-! ## Roots -/

/-- `HEADER`, the bytes of `MBCATR\x01\x00`. -/
def recordHeader : List UInt8 := [77, 66, 67, 65, 84, 82, 1, 0]

def catalogRecordBytes : ℕ := 48 * 1024

def catalogMaxRecords : ℕ := 64 * 1024 * 1024

/-- Frames with a length of four bytes. -/
def recordFraming : Framing := ⟨4, catalogRecordBytes, by decide⟩

/-- The byte stream of a sequence of records. -/
def recordStream (records : List (List UInt8)) : List UInt8 :=
  recordHeader ++ recordFraming.frames records

lemma recordStream_append (xs ys : List (List UInt8)) :
    recordStream (xs ++ ys) = recordStream xs ++ recordFraming.frames ys := by
  rw [recordStream, Framing.frames_append, ← append_assoc]
  rfl

structure CatalogRecordRoot where
  formatVersion : U16
  page : CatalogPageRef
  records : U64
  deriving DecidableEq, Repr

namespace CatalogRecordRoot

/-- `CatalogRecordRoot::validate`. -/
def validate (r : CatalogRecordRoot) : Outcome CatalogError Unit := do
  r.page.validate
  reject (r.formatVersion ≠ 1 ∨ catalogMaxRecords < r.records.val ∨
    r.page.byteLen.val < recordHeader.length + r.records.val * 5 ∨
    recordHeader.length + r.records.val * (4 + catalogRecordBytes) < r.page.byteLen.val) .bounds

lemma validate_eq_ok {r : CatalogRecordRoot} :
    r.validate = .ok () ↔ r.page.Valid ∧ r.formatVersion = 1 ∧
      r.records.val ≤ catalogMaxRecords ∧ 8 + r.records.val * 5 ≤ r.page.byteLen.val ∧
      r.page.byteLen.val ≤ 8 + r.records.val * (4 + catalogRecordBytes) := by
  have hheader : recordHeader.length = 8 := rfl
  rw [validate, bind_eq_ok, exists_unit, CatalogPageRef.validate_eq_ok, reject_eq_ok, hheader]
  push Not
  rfl

end CatalogRecordRoot

/-! ## The builder -/

/-- `CatalogRecordBuilder`, with a count that stays within its limit. -/
structure CatalogRecordBuilder where
  pages : CatalogBuilder
  records : ℕ
  headerWritten : Bool
  failed : Bool
  records_le : records ≤ catalogMaxRecords

namespace CatalogRecordBuilder

variable {ε α : Type}

/-- `CatalogRecordBuilder::new`. -/
def new (scope : CatalogScope) (sec : CatalogSection) :
    Outcome CatalogError CatalogRecordBuilder := do
  let pages ← CatalogBuilder.new scope sec
  pure { pages, records := 0, headerWritten := false, failed := false, records_le := Nat.zero_le _ }

variable (C : Crypto) (sink : PageSink ε)

/-- `self.pages.push(bytes, sink)?`. -/
def write (state : CatalogBuilder × List Emitted) (bytes : List UInt8) :
    StreamOutcome ε (CatalogBuilder × List Emitted) :=
  match CatalogBuilder.push C sink state bytes with
  | (.ok (), next) => .ok next
  | (.error e, _) => .error e

/-- The header, unless it is there already. -/
def writeHeader (b : CatalogRecordBuilder) (emitted : List Emitted) :
    StreamOutcome ε (CatalogBuilder × List Emitted) :=
  if b.headerWritten then .ok (b.pages, emitted) else write C sink (b.pages, emitted) recordHeader

/-- `push_frame`. -/
def pushFrame (b : CatalogRecordBuilder) (encoded : List UInt8) (emitted : List Emitted) :
    StreamOutcome ε (CatalogRecordBuilder × List Emitted) :=
  if hbounds : encoded = [] ∨ catalogRecordBytes < encoded.length ∨
      b.records = catalogMaxRecords then fail (.catalog .bounds)
  else do
    let state ← b.writeHeader C sink emitted
    let state ← write C sink state (beBytes 4 encoded.length)
    let state ← write C sink state encoded
    pure ({ b with
      pages := state.1, records := b.records + 1, headerWritten := true
      records_le := lt_of_le_of_ne b.records_le fun h => hbounds (.inr (.inr h)) }, state.2)

/-- The builder after a push.  One that has failed answers every later call with `Failed`, so the
rest of its fields is as before the call. -/
def afterPush (state : CatalogRecordBuilder × List Emitted)
    (result : StreamOutcome ε (CatalogRecordBuilder × List Emitted)) :
    StreamOutcome ε Unit × CatalogRecordBuilder × List Emitted :=
  match result with
  | .ok next => (.ok (), next)
  | .error e => (.error e, { state.1 with failed := true }, state.2)

/-- `push_encoded`. -/
def pushEncoded (state : CatalogRecordBuilder × List Emitted) (encoded : List UInt8) :
    StreamOutcome ε Unit × CatalogRecordBuilder × List Emitted :=
  if state.1.failed then (fail (.catalog .failed), state)
  else afterPush state (state.1.pushFrame C sink encoded state.2)

/-- `finish`. -/
def finish (state : CatalogRecordBuilder × List Emitted) :
    StreamOutcome ε (CatalogRecordRoot × List Emitted) := do
  reject state.1.failed (.catalog .failed)
  let pages ← state.1.writeHeader C sink state.2
  let (page, emitted) ← pages.1.finish C sink pages.2
  let root : CatalogRecordRoot := ⟨1, page, Fin.ofNat _ state.1.records⟩
  mapErr .catalog root.validate
  pure (root, emitted)

/-- Successive calls of `push_encoded` that all succeed. -/
def pushAllEncoded :
    CatalogRecordBuilder × List Emitted → List (List UInt8) →
      StreamOutcome ε (CatalogRecordBuilder × List Emitted)
  | state, [] => .ok state
  | state, record :: records =>
    match pushEncoded C sink state record with
    | (.ok (), next) => pushAllEncoded next records
    | (.error e, _) => .error e

end CatalogRecordBuilder

/-! ## The reader -/

/-- `CatalogRecordReader`.  The page reader comes with what its callback has been asked, and
`unread` is `leaf[position..]`. -/
structure CatalogRecordReader where
  pages : Session
  root : CatalogRecordRoot
  unread : List UInt8
  records : ℕ
  headerChecked : Bool
  failed : Bool
  bytePosition : ℕ
  lastRange : Option (ℕ × ℕ)
  deriving DecidableEq, Repr

namespace CatalogRecordReader

variable {ε : Type}

/-- `CatalogRecordReader::new`. -/
def new (scope : CatalogScope) (sec : CatalogSection) (root : CatalogRecordRoot) :
    Outcome CatalogError CatalogRecordReader := do
  root.validate
  let reader ← CatalogReader.new scope sec root.page
  pure
    { pages := .start reader, root, unread := [], records := 0, headerChecked := false
      failed := false, bytePosition := 0, lastRange := none }

section Calls

variable (C : Crypto) (fetch : PageLog → CatalogPageRef → Except ε (List UInt8))

/-- `ensure_leaf`.  What it returns is whether the reader it leaves has unread bytes. -/
def ensureLeaf (r : CatalogRecordReader) :
    StreamOutcome ε CatalogRecordReader :=
  if r.unread ≠ [] then .ok r
  else
    match hnext : CatalogReader.nextLeaf C fetch r.pages with
    | (.error e, _) => .error e
    | (.ok none, pages) => .ok { r with pages }
    | (.ok (some leaf), pages) => ensureLeaf { r with pages, unread := leaf }
  termination_by r.pages.reader.root.pageOccurrences.val - r.pages.reader.visited
  decreasing_by
    obtain ⟨hroot, hlt, hvisited⟩ := visited_of_leaf hnext
    rw [hroot]
    omega

/-- `read_exact`, of a number of bytes.  A position beyond the bytes of the root is refused before
it could leave the range of a `u64`. -/
def readExact (r : CatalogRecordReader) (n : ℕ) :
    StreamOutcome ε (List UInt8 × CatalogRecordReader) :=
  if hn : n = 0 then .ok ([], r)
  else do
    let r ← ensureLeaf C fetch r
    if hunread : r.unread = [] then fail (.catalog .invalidPage)
    else do
      let take := min n r.unread.length
      reject (r.root.page.byteLen.val < r.bytePosition + take) (.catalog .bounds)
      let (rest, next) ← readExact
        { r with unread := r.unread.drop take, bytePosition := r.bytePosition + take } (n - take)
      pure (r.unread.take take ++ rest, next)
  termination_by n
  decreasing_by
    have hpos := length_pos_of_ne_nil hunread
    omega

variable (r : CatalogRecordReader)

/-- The first lines of `next_inner`. -/
def checkHeader : StreamOutcome ε CatalogRecordReader :=
  if r.headerChecked then .ok r
  else do
    let (header, r) ← readExact C fetch r recordHeader.length
    reject (header ≠ recordHeader) (.catalog .invalidPage)
    pure { r with headerChecked := true }

/-- Nothing may follow: an error if a byte is left. -/
def checkEnd : StreamOutcome ε CatalogRecordReader := do
  let r ← ensureLeaf C fetch r
  reject (r.unread ≠ []) (.catalog .invalidPage)
  pure r

/-- Nothing may follow the last record. -/
def checkLast : StreamOutcome ε CatalogRecordReader :=
  if r.records = r.root.records.val then checkEnd C fetch r else .ok r

/-- A length and as many bytes. -/
def readFrame : StreamOutcome ε (List UInt8 × CatalogRecordReader) := do
  let (length, r) ← readExact C fetch r 4
  reject (beValue length = 0 ∨ catalogRecordBytes < beValue length) (.catalog .bounds)
  readExact C fetch r (beValue length)

/-- `next_inner`. -/
def nextInner : StreamOutcome ε (Option (List UInt8) × CatalogRecordReader) := do
  let r ← checkHeader C fetch r
  if r.records = r.root.records.val then do
    let r ← checkEnd C fetch r
    pure (none, r)
  else do
    let start := r.bytePosition
    let (bytes, r) ← readFrame C fetch r
    let r ← checkLast C fetch { r with records := r.records + 1 }
    pure (some bytes, { r with lastRange := some (start, r.bytePosition) })

/-- `next_record`. -/
def nextRecord : StreamOutcome ε (Option (List UInt8)) × CatalogRecordReader :=
  if r.failed then (fail (.catalog .failed), r)
  else
    match nextInner C fetch { r with lastRange := none } with
    | .ok (record, r) => (.ok record, r)
    | .error e => (.error e, { r with lastRange := none, failed := true })

end Calls

/-- `last_record_range`. -/
def lastRecordRange (r : CatalogRecordReader) : Option (ℕ × ℕ) :=
  if r.failed then none else r.lastRange

end CatalogRecordReader

/-! ## Reading a tree that verifies -/

variable {ε : Type} {C : Crypto} {scope : CatalogScope} {sec : CatalogSection}
  {pages : List Emitted} {fetch : PageLog → CatalogPageRef → Except ε (List UInt8)}
  {record : List UInt8} {r r' : CatalogRecordReader}

section Reading

variable {bytes : List UInt8}

/-- The reader has these bytes of the stream left. -/
structure Unread (C : Crypto) (scope : CatalogScope) (sec : CatalogSection)
    (pages : List Emitted) (r : CatalogRecordReader) (bytes : List UInt8) : Prop where
  failed_eq : r.failed = false
  leaves : ∃ chunks, Reading C scope sec pages r.pages.reader chunks ∧
    r.unread ++ chunks.flatten = bytes
  position : r.bytePosition + bytes.length = r.root.page.byteLen.val

namespace CatalogRecordReader

/-- One turn of the loop of `ensure_leaf`. -/
lemma ensureLeaf_of_nil (hnil : r.unread = []) :
    ensureLeaf C fetch r =
      match CatalogReader.nextLeaf C fetch r.pages with
      | (.error e, _) => .error e
      | (.ok none, pages) => .ok { r with pages }
      | (.ok (some leaf), pages) => ensureLeaf C fetch { r with pages, unread := leaf } := by
  rw [ensureLeaf.eq_def, if_neg (not_not.mpr hnil)]
  split <;> rename_i hnext <;> rw [hnext]

/-- The reader after `n` more bytes of the stream. -/
def moved (r : CatalogRecordReader) (s : Session) (unread : List UInt8) (n : ℕ) :
    CatalogRecordReader :=
  { r with pages := s, unread, bytePosition := r.bytePosition + n }

lemma moved_moved (s s' : Session) (unread unread' : List UInt8) (n m : ℕ) :
    (r.moved s unread n).moved s' unread' m = r.moved s' unread' (n + m) := by
  simp only [moved, Nat.add_assoc]

end CatalogRecordReader

open CatalogRecordReader

variable (hfetch : ∀ log, ∀ page ∈ pages, fetch log page.1 = .ok page.2)

include hfetch

section

variable (hunread : Unread C scope sec pages r bytes)

include hunread

/-- After `ensure_leaf` a byte is at hand unless none is left. -/
lemma Unread.ensureLeaf :
    ∃ s unread, ensureLeaf C fetch r = .ok (r.moved s unread 0) ∧
      Unread C scope sec pages (r.moved s unread 0) bytes ∧ (unread = [] ↔ bytes = []) := by
  obtain ⟨hfailed, ⟨chunks, hreading, rfl⟩, hposition⟩ := hunread
  induction chunks generalizing r with
  | nil =>
    by_cases hnil : r.unread = []
    · obtain ⟨s, hnext, hreading'⟩ :=
        hreading.nextLeafWithPath (serves_byReference hfetch r.pages.reader.root)
      refine ⟨s, r.unread, ?_, ⟨hfailed, ⟨[], hreading', rfl⟩, hposition⟩, by simp⟩
      rw [ensureLeaf_of_nil hnil, CatalogReader.nextLeaf, hnext]
      rfl
    · refine ⟨r.pages, r.unread, ?_, ⟨hfailed, ⟨[], hreading, rfl⟩, hposition⟩, by simp⟩
      rw [CatalogRecordReader.ensureLeaf.eq_def, if_pos hnil]
      rfl
  | cons chunk chunks ih =>
    by_cases hnil : r.unread = []
    · obtain ⟨s, hnext, hreading'⟩ :=
        hreading.nextLeafWithPath (serves_byReference hfetch r.pages.reader.root)
      rw [hnil, nil_append, flatten_cons] at hposition ⊢
      obtain ⟨s', unread, hok, hunread, hiff⟩ :=
        ih (r := r.moved s chunk 0) hfailed hreading' hposition
      refine ⟨s', unread, ?_, hunread, hiff⟩
      rw [ensureLeaf_of_nil hnil, CatalogReader.nextLeaf, hnext]
      exact hok
    · refine ⟨r.pages, r.unread, ?_, ⟨hfailed, ⟨_, hreading, rfl⟩, hposition⟩, by simp [hnil]⟩
      rw [CatalogRecordReader.ensureLeaf.eq_def, if_pos hnil]
      rfl

variable {n : ℕ}

/-- One turn of the loop of `read_exact`: it takes at least a byte, unless none is left. -/
lemma Unread.readExact_step (hn : n ≠ 0) :
    (bytes = [] ∧ readExact C fetch r n = fail (.catalog .invalidPage)) ∨
      ∃ s unread take, 0 < take ∧ take ≤ n ∧ take ≤ bytes.length ∧
        Unread C scope sec pages (r.moved s unread take) (bytes.drop take) ∧
        readExact C fetch r n = readExact C fetch (r.moved s unread take) (n - take) >>=
          fun out => pure (bytes.take take ++ out.1, out.2) := by
  obtain ⟨s, unread, hensure, ⟨-, ⟨chunks, hreading, hbytes⟩, hposition⟩, hiff⟩ :=
    hunread.ensureLeaf hfetch
  simp only [moved, Nat.add_zero] at hensure hreading hbytes hposition ⊢
  rw [CatalogRecordReader.readExact, dif_neg hn, hensure, ok_bind]
  by_cases hnil : unread = []
  · exact .inl ⟨hiff.mp hnil, dif_pos hnil⟩
  · have hpos := length_pos_of_ne_nil hnil
    have hle : unread.length ≤ bytes.length := by
      rw [← hbytes, length_append]
      exact Nat.le_add_right _ _
    have hbound : ¬ r.root.page.byteLen.val < r.bytePosition + min n unread.length := by omega
    have htake : unread.take (min n unread.length) = bytes.take (min n unread.length) := by
      rw [← hbytes, take_append_of_le_length (Nat.min_le_right _ _)]
    refine .inr ⟨s, unread.drop (min n unread.length), min n unread.length, by omega,
      Nat.min_le_left _ _, (Nat.min_le_right _ _).trans hle, ⟨hunread.failed_eq,
      ⟨chunks, hreading, ?_⟩, ?_⟩, ?_⟩
    · rw [← hbytes, drop_append_of_le_length (Nat.min_le_right _ _)]
    · rw [length_drop]
      simp only
      omega
    · rw [dif_neg hnil]
      simp only [reject, if_neg hbound, ok_bind, htake]

/-- Bytes that are there are read. -/
lemma Unread.readExact (hn : n ≤ bytes.length) :
    ∃ s unread, readExact C fetch r n = .ok (bytes.take n, r.moved s unread n) ∧
      Unread C scope sec pages (r.moved s unread n) (bytes.drop n) := by
  induction n using Nat.strong_induction_on generalizing r bytes with
  | _ n ih =>
    by_cases hzero : n = 0
    · subst hzero
      refine ⟨r.pages, r.unread, ?_, hunread⟩
      rw [CatalogRecordReader.readExact, dif_pos rfl]
      rfl
    · rcases hunread.readExact_step hfetch hzero with
        ⟨rfl, -⟩ | ⟨s, unread, take, hpos, htake, hle, hrest, hstep⟩
      · exact absurd (Nat.le_zero.mp hn) hzero
      · obtain ⟨s', unread', hread, hdone⟩ := ih (n - take) (by omega) hrest
          (by rw [length_drop]; omega)
        have hsum : take + (n - take) = n := by omega
        rw [moved_moved, hsum] at hread hdone
        rw [drop_drop, hsum] at hdone
        refine ⟨s', unread', ?_, hdone⟩
        rw [hstep, hread, ok_bind, ← take_add, hsum]
        rfl

/-- Bytes that are not there are not. -/
lemma Unread.readExact_short (hn : bytes.length < n) :
    CatalogRecordReader.readExact C fetch r n = fail (.catalog .invalidPage) := by
  induction n using Nat.strong_induction_on generalizing r bytes with
  | _ n ih =>
    rcases hunread.readExact_step hfetch (Nat.ne_zero_of_lt hn) with
      ⟨-, hshort⟩ | ⟨s, unread, take, hpos, -, hle, hrest, hstep⟩
    · exact hshort
    · rw [hstep, ih (n - take) (by omega) hrest (by rw [length_drop]; omega)]
      rfl

/-- What a successful `read_exact` has returned. -/
lemma Unread.of_readExact {out : List UInt8}
    (h : CatalogRecordReader.readExact C fetch r n = .ok (out, r')) :
    n ≤ bytes.length ∧ out = bytes.take n ∧ ∃ s unread, r' = r.moved s unread n ∧
      Unread C scope sec pages r' (bytes.drop n) := by
  rcases Nat.lt_or_ge bytes.length n with hshort | hn
  · rw [hunread.readExact_short hfetch hshort] at h
    cases h
  · obtain ⟨s, unread, hread, hdone⟩ := hunread.readExact hfetch hn
    rw [hread] at h
    cases h
    exact ⟨hn, rfl, s, unread, rfl, hdone⟩

end

/-- A frame that is there is read. -/
lemma Unread.readFrame {rest : List UInt8} (hfits : recordFraming.Fits record)
    (hunread : Unread C scope sec pages r (recordFraming.frame record ++ rest)) :
    ∃ r', CatalogRecordReader.readFrame C fetch r = .ok (record, r') := by
  have hwidth : recordFraming.width = 4 := rfl
  have hlt : record.length < 256 ^ 4 := hfits.2.trans_lt recordFraming.limit_lt
  have hhead : (beBytes 4 record.length).length = 4 := length_beBytes _ _
  obtain ⟨hne, hlimit⟩ := hfits
  rw [Framing.frame, hwidth, append_assoc] at hunread
  obtain ⟨s, unread, hread, hafter⟩ := hunread.readExact hfetch (n := 4) (by simp)
  rw [take_left' hhead] at hread
  rw [drop_left' hhead] at hafter
  obtain ⟨s', unread', hread', -⟩ := hafter.readExact hfetch (n := record.length) (by simp)
  rw [take_left] at hread'
  refine ⟨(r.moved s unread 4).moved s' unread' record.length, ?_⟩
  have hpos := length_pos_of_ne_nil hne
  have hbounds : ¬ (record.length = 0 ∨ catalogRecordBytes < record.length) := by
    have : recordFraming.limit = catalogRecordBytes := rfl
    omega
  rw [CatalogRecordReader.readFrame, hread, ok_bind]
  simp only [beValue_beBytes hlt, reject, if_neg hbounds, ok_bind]
  exact hread'

/-- What is read as a frame is one. -/
lemma Unread.of_readFrame (hunread : Unread C scope sec pages r bytes)
    (h : CatalogRecordReader.readFrame C fetch r = .ok (record, r')) :
    recordFraming.Fits record ∧ ∃ rest, bytes = recordFraming.frame record ++ rest ∧
      Unread C scope sec pages r' rest ∧
      ∃ s unread, r' = r.moved s unread (recordFraming.frame record).length := by
  simp only [CatalogRecordReader.readFrame, bind_eq_ok, Prod.exists, reject_eq_ok, exists_unit] at h
  obtain ⟨head, mid, hhead, hbounds, hbody⟩ := h
  push Not at hbounds
  obtain ⟨hfour, rfl, s, unread, rfl, hmid⟩ := hunread.of_readExact hfetch hhead
  obtain ⟨hlength, rfl, s', unread', rfl, hlast⟩ := hmid.of_readExact hfetch hbody
  rw [length_drop] at hlength
  have hnext : recordFraming.nextFrame bytes = some ((bytes.drop 4).take (beValue (bytes.take 4)),
      bytes.drop (4 + beValue (bytes.take 4))) := by
    refine if_neg ?_
    have hwidth : recordFraming.width = 4 := rfl
    have hlimit : recordFraming.limit = catalogRecordBytes := rfl
    rw [hwidth, hlimit]
    omega
  obtain ⟨hfits, hbytes⟩ := Framing.nextFrame_eq_some.mp hnext
  refine ⟨hfits, _, hbytes, ?_, s', unread', ?_⟩
  · rw [← drop_drop]
    exact hlast
  · rw [moved_moved, Framing.length_frame, length_take, length_drop, Nat.min_eq_left hlength]
    rfl

/-- The check for the end passes where nothing is left. -/
lemma Unread.checkEnd (hunread : Unread C scope sec pages r []) :
    ∃ r', CatalogRecordReader.checkEnd C fetch r = .ok r' := by
  obtain ⟨s, unread, hensure, -, hiff⟩ := hunread.ensureLeaf hfetch
  obtain rfl := hiff.mpr rfl
  rw [CatalogRecordReader.checkEnd, hensure, ok_bind]
  exact ⟨_, rfl⟩

section

variable (hunread : Unread C scope sec pages r bytes)

include hunread

lemma Unread.of_checkEnd (h : CatalogRecordReader.checkEnd C fetch r = .ok r') :
    bytes = [] ∧ Unread C scope sec pages r' bytes ∧ ∃ s unread, r' = r.moved s unread 0 := by
  obtain ⟨s, unread, hensure, hafter, hiff⟩ := hunread.ensureLeaf hfetch
  rw [CatalogRecordReader.checkEnd, hensure, ok_bind] at h
  simp only [bind_eq_ok, exists_unit, reject_eq_ok, not_not, pure_eq_ok] at h
  obtain ⟨hnil, rfl⟩ := h
  exact ⟨hiff.mp hnil, hafter, s, unread, rfl⟩

lemma Unread.checkLast (hlast : r.records = r.root.records.val → bytes = []) :
    ∃ r', CatalogRecordReader.checkLast C fetch r = .ok r' := by
  unfold CatalogRecordReader.checkLast
  split
  · rename_i hcount
    rw [hlast hcount] at hunread
    exact hunread.checkEnd hfetch
  · exact ⟨r, rfl⟩

lemma Unread.of_checkLast (h : CatalogRecordReader.checkLast C fetch r = .ok r') :
    (r.records = r.root.records.val → bytes = []) ∧ Unread C scope sec pages r' bytes ∧
      ∃ s unread, r' = r.moved s unread 0 := by
  unfold CatalogRecordReader.checkLast at h
  split at h
  · obtain ⟨hnil, hafter, hmoved⟩ := hunread.of_checkEnd hfetch h
    exact ⟨fun _ => hnil, hafter, hmoved⟩
  · rename_i hcount
    cases h
    exact ⟨fun heq => absurd heq hcount, hunread, r.pages, r.unread, rfl⟩

end

end Reading

/-! ## Records that were yielded -/

variable {records more : List (List UInt8)} {root : CatalogRecordRoot} {content : List UInt8}

section Yielded

/-- The reader has yielded these records of the content, and the rest is unread. -/
structure At (C : Crypto) (scope : CatalogScope) (sec : CatalogSection)
    (pages : List Emitted) (root : CatalogRecordRoot) (content : List UInt8)
    (records : List (List UInt8)) (r : CatalogRecordReader) : Prop where
  root_eq : r.root = root
  size_eq : content.length = root.page.byteLen.val
  count : r.records = records.length
  fits : ∀ record ∈ records, recordFraming.Fits record
  /-- Only a reader that has yielded nothing can have the header before it. -/
  unstarted : r.headerChecked = false → records = [] ∧ Unread C scope sec pages r content
  started : r.headerChecked = true →
    ∃ rest, recordStream records ++ rest = content ∧ Unread C scope sec pages r rest

namespace CatalogRecordReader

/-- The cases of a call that succeeded. -/
lemma nextInner_eq_ok {out : Option (List UInt8)} :
    nextInner C fetch r = .ok (out, r') ↔ ∃ r₁, checkHeader C fetch r = .ok r₁ ∧
      ((r₁.records = r₁.root.records.val ∧ out = none ∧ checkEnd C fetch r₁ = .ok r') ∨
        (r₁.records ≠ r₁.root.records.val ∧ ∃ bytes r₂ r₃, out = some bytes ∧
          readFrame C fetch r₁ = .ok (bytes, r₂) ∧
          checkLast C fetch { r₂ with records := r₂.records + 1 } = .ok r₃ ∧
          r' = { r₃ with lastRange := some (r₁.bytePosition, r₃.bytePosition) })) := by
  rw [nextInner, bind_eq_ok]
  refine exists_congr fun r₁ => and_congr_right fun _ => ?_
  by_cases hlast : r₁.records = r₁.root.records.val
  · rw [if_pos hlast]
    simp only [bind_eq_ok, pure_eq_ok, Prod.mk.injEq, hlast, true_and, ne_eq, not_true, false_and,
      or_false]
    constructor
    · rintro ⟨r₂, hend, rfl, rfl⟩
      exact ⟨rfl, hend⟩
    · rintro ⟨rfl, hend⟩
      exact ⟨r', hend, rfl, rfl⟩
  · rw [if_neg hlast]
    simp only [bind_eq_ok, pure_eq_ok, Prod.mk.injEq, Prod.exists, hlast, false_and, ne_eq,
      not_false_iff, true_and, false_or]
    constructor
    · rintro ⟨bytes, r₂, hframe, r₃, hend, rfl, rfl⟩
      exact ⟨bytes, r₂, r₃, rfl, hframe, hend, rfl⟩
    · rintro ⟨bytes, r₂, r₃, rfl, hframe, hend, rfl⟩
      exact ⟨bytes, r₂, hframe, r₃, hend, rfl, rfl⟩

lemma nextRecord_eq_ok {out : Option (List UInt8)} :
    nextRecord C fetch r = (.ok out, r') ↔ r.failed = false ∧
      nextInner C fetch { r with lastRange := none } = .ok (out, r') := by
  unfold nextRecord
  cases hfailed : r.failed with
  | true => simp [fail]
  | false =>
    cases nextInner C fetch { r with lastRange := none, failed := false } with
    | ok out => simp [Prod.ext_iff]
    | error e => simp

end CatalogRecordReader

open CatalogRecordReader

section

variable (hat : At C scope sec pages root content records r)

include hat

lemma At.failed_eq : r.failed = false := by
  cases hheader : r.headerChecked with
  | false => exact (hat.unstarted hheader).2.failed_eq
  | true =>
    obtain ⟨rest, -, hunread⟩ := hat.started hheader
    exact hunread.failed_eq

lemma At.forget :
    At C scope sec pages root content records { r with lastRange := none } := by
  refine ⟨hat.root_eq, hat.size_eq, hat.count, hat.fits, fun hheader => ?_, fun hheader => ?_⟩
  · obtain ⟨hnil, hunread⟩ := hat.unstarted hheader
    exact ⟨hnil, { hunread with }⟩
  · obtain ⟨rest, hrest, hunread⟩ := hat.started hheader
    exact ⟨rest, hrest, { hunread with }⟩

variable (hfetch : ∀ log, ∀ page ∈ pages, fetch log page.1 = .ok page.2)

include hfetch

lemma At.checkHeader (hcontent : recordStream records <+: content) :
    ∃ r', checkHeader C fetch r = .ok r' := by
  unfold CatalogRecordReader.checkHeader
  cases hheader : r.headerChecked with
  | true => exact ⟨r, rfl⟩
  | false =>
    obtain ⟨rfl, hunread⟩ := hat.unstarted hheader
    obtain ⟨rest, rfl⟩ := hcontent
    have hnil : recordStream [] = recordHeader := rfl
    rw [hnil] at hunread
    obtain ⟨s, unread, hread, -⟩ := hunread.readExact hfetch (n := recordHeader.length) (by simp)
    rw [take_left] at hread
    rw [if_neg Bool.false_ne_true, hread, ok_bind]
    exact ⟨_, rfl⟩

lemma At.of_checkHeader (h : CatalogRecordReader.checkHeader C fetch r = .ok r') :
    r'.headerChecked = true ∧ At C scope sec pages root content records r' := by
  unfold CatalogRecordReader.checkHeader at h
  cases hheader : r.headerChecked with
  | true =>
    rw [hheader, if_pos rfl] at h
    cases h
    exact ⟨hheader, hat⟩
  | false =>
    obtain ⟨rfl, hunread⟩ := hat.unstarted hheader
    simp only [hheader, Bool.false_eq_true, if_false, bind_eq_ok, Prod.exists, reject_eq_ok,
      exists_unit, pure_eq_ok, not_not] at h
    obtain ⟨header, r₁, hread, rfl, rfl⟩ := h
    obtain ⟨hlen, hheader, s, unread, rfl, hafter⟩ := hunread.of_readExact hfetch hread
    refine ⟨rfl, hat.root_eq, hat.size_eq, hat.count, hat.fits, (by rintro ⟨⟩),
      fun _ => ⟨content.drop recordHeader.length, ?_, { hafter with }⟩⟩
    have hnil : recordStream [] = recordHeader := rfl
    rw [hnil]
    nth_rewrite 1 [hheader]
    exact take_append_drop _ _

/-- **The step of reading records.**  A record that a call yields is the next frame of the content,
the range it leaves is that of the frame, and nothing follows the last one. -/
lemma At.of_nextRecord (h : nextRecord C fetch r = (.ok (some record), r')) :
    At C scope sec pages root content (records ++ [record]) r' ∧
      recordStream (records ++ [record]) <+: content ∧
      (records.length + 1 = root.records.val → content = recordStream (records ++ [record])) ∧
      r'.lastRecordRange =
        some ((recordStream records).length, (recordStream (records ++ [record])).length) := by
  obtain ⟨-, hinner⟩ := nextRecord_eq_ok.mp h
  obtain ⟨r₁, hheader, hcase⟩ := nextInner_eq_ok.mp hinner
  obtain ⟨hchecked, hat₁⟩ := hat.forget.of_checkHeader hfetch hheader
  rcases hcase with ⟨-, hnone, -⟩ | ⟨-, bytes, r₂, r₃, hbytes, hframe, hlast, rfl⟩
  · cases hnone
  · cases hbytes
    obtain ⟨rest, hrest, hunread⟩ := hat₁.started hchecked
    obtain ⟨hfits, rest', rfl, hafter, s, unread, rfl⟩ := hunread.of_readFrame hfetch hframe
    have hcounted : Unread C scope sec pages
        { r₁.moved s unread (recordFraming.frame record).length with records := r₁.records + 1 }
        rest' := { hafter with }
    obtain ⟨hnothing, hdone, s', unread', rfl⟩ := hcounted.of_checkLast hfetch hlast
    have hstream : recordStream (records ++ [record]) =
        recordStream records ++ recordFraming.frame record := by
      rw [recordStream_append, Framing.frames_singleton]
    have hcontent : recordStream (records ++ [record]) ++ rest' = content := by
      rw [hstream, append_assoc, hrest]
    -- The position is the length of what has been read.
    have hposition : r₁.bytePosition = (recordStream records).length := by
      have htotal := hunread.position
      have hlength := congrArg List.length hrest
      rw [hat₁.root_eq, ← hat₁.size_eq] at htotal
      rw [length_append] at hlength
      omega
    refine ⟨⟨hat₁.root_eq, hat₁.size_eq, ?_, ?_, ?_, fun _ =>
      ⟨rest', hcontent, { hdone with }⟩⟩, ⟨rest', hcontent⟩, fun hcount => ?_, ?_⟩
    · rw [length_append, length_singleton, ← hat₁.count]
      rfl
    · rw [forall_mem_append, forall_mem_singleton]
      exact ⟨hat₁.fits, hfits⟩
    · intro hfalse
      exact absurd (hchecked.symm.trans hfalse) (by decide)
    · have hnil := hnothing (by rw [← hat₁.count, ← hat₁.root_eq] at hcount; exact hcount)
      rw [← hcontent, hnil, append_nil]
    · have hfailed : r₁.failed = false := hat₁.failed_eq
      rw [lastRecordRange, if_neg (by simp [moved, hfailed]), hstream, length_append, ← hposition]
      rfl

/-- A call that ends has reached the end of the content, after as many records as promised. -/
lemma At.of_end (h : nextRecord C fetch r = (.ok none, r')) :
    records.length = root.records.val ∧ content = recordStream records := by
  obtain ⟨-, hinner⟩ := nextRecord_eq_ok.mp h
  obtain ⟨r₁, hheader, hcase⟩ := nextInner_eq_ok.mp hinner
  obtain ⟨hchecked, hat₁⟩ := hat.forget.of_checkHeader hfetch hheader
  rcases hcase with ⟨hcount, -, hend⟩ | ⟨-, bytes, r₂, r₃, hsome, -⟩
  · obtain ⟨rest, hrest, hunread⟩ := hat₁.started hchecked
    obtain ⟨rfl, -⟩ := hunread.of_checkEnd hfetch hend
    rw [hat₁.count, hat₁.root_eq] at hcount
    exact ⟨hcount, by rw [← hrest, append_nil]⟩
  · cases hsome

/-- Over a well-formed stream the next record is yielded. -/
lemma At.nextRecord (hcontent : content = recordStream (records ++ record :: more))
    (hfits : recordFraming.Fits record)
    (hcount : (records ++ record :: more).length = root.records.val) :
    ∃ r', CatalogRecordReader.nextRecord C fetch r = (.ok (some record), r') := by
  have hsplit : content =
      recordStream records ++ (recordFraming.frame record ++ recordFraming.frames more) := by
    rw [hcontent, recordStream_append, Framing.frames_cons]
  obtain ⟨r₁, hheader⟩ := hat.forget.checkHeader hfetch ⟨_, hsplit.symm⟩
  obtain ⟨hchecked, hat₁⟩ := hat.forget.of_checkHeader hfetch hheader
  obtain ⟨rest, hrest, hunread⟩ := hat₁.started hchecked
  obtain rfl := append_cancel_left (hrest.trans hsplit)
  obtain ⟨r₂, hframe⟩ := hunread.readFrame hfetch hfits
  obtain ⟨-, rest', hframes, hafter, s, unread, rfl⟩ := hunread.of_readFrame hfetch hframe
  obtain rfl := append_cancel_left hframes
  rw [length_append, length_cons] at hcount
  have hcounted : Unread C scope sec pages
      { r₁.moved s unread (recordFraming.frame record).length with records := r₁.records + 1 }
      (recordFraming.frames more) := { hafter with }
  obtain ⟨r₃, hlast⟩ := hcounted.checkLast hfetch (by
    intro hcount'
    have hlength : r₁.records + 1 = r₁.root.records.val := hcount'
    rw [hat₁.count, hat₁.root_eq] at hlength
    have hnil : more = [] := length_eq_zero_iff.mp (by omega)
    rw [hnil]
    rfl)
  refine ⟨_, nextRecord_eq_ok.mpr ⟨hat.failed_eq, nextInner_eq_ok.mpr ⟨r₁, hheader, .inr ⟨?_,
    record, _, r₃, rfl, hframe, hlast, rfl⟩⟩⟩⟩
  rw [hat₁.count, hat₁.root_eq]
  omega

/-- Over a well-formed stream the end is reached. -/
lemma At.nextRecord_end (hcontent : content = recordStream records)
    (hcount : records.length = root.records.val) :
    ∃ r', CatalogRecordReader.nextRecord C fetch r = (.ok none, r') := by
  obtain ⟨r₁, hheader⟩ := hat.forget.checkHeader hfetch ⟨[], by rw [hcontent, append_nil]⟩
  obtain ⟨hchecked, hat₁⟩ := hat.forget.of_checkHeader hfetch hheader
  obtain ⟨rest, hrest, hunread⟩ := hat₁.started hchecked
  have hnil : rest = [] := by
    rw [hcontent] at hrest
    exact append_right_eq_self.mp hrest
  rw [hnil] at hunread
  obtain ⟨r', hend⟩ := hunread.checkEnd hfetch
  refine ⟨r', nextRecord_eq_ok.mpr ⟨hat.failed_eq, nextInner_eq_ok.mpr ⟨r₁, hheader,
    .inl ⟨?_, rfl, hend⟩⟩⟩⟩
  rw [hat₁.count, hat₁.root_eq, hcount]

end

end Yielded

/-! ## Whole runs -/

section Runs

variable {h : ℕ} {t : PageTree h}

open CatalogRecordReader

lemma length_recordStream (records : List (List UInt8)) :
    (recordStream records).length = 8 + (records.map fun x => 4 + x.length).sum := by
  rw [recordStream, length_append, Framing.frames, length_flatMap]
  simp only [Framing.length_frame]
  rfl

section

variable (hversion : root.formatVersion = 1) (hmax : root.records.val ≤ catalogMaxRecords)
  (hfits : ∀ record ∈ records, recordFraming.Fits record)
  (hcount : records.length = root.records.val)

include hversion hmax hfits hcount

/-- A root over the stream of its records passes its check. -/
lemma validate_of_stream (hvalid : root.page.Valid)
    (hlength : root.page.byteLen.val = (recordStream records).length) : root.validate = .ok () := by
  have hsum : records.length * 5 ≤ (records.map fun x => 4 + x.length).sum ∧
      (records.map fun x => 4 + x.length).sum ≤ records.length * (4 + catalogRecordBytes) := by
    clear hcount hlength
    induction records with
    | nil => exact ⟨le_rfl, Nat.zero_le _⟩
    | cons x xs ih =>
      rw [forall_mem_cons] at hfits
      obtain ⟨hlow, hhigh⟩ := ih hfits.2
      obtain ⟨hne, hle⟩ := hfits.1
      have hpos := length_pos_of_ne_nil hne
      have hlimit : recordFraming.limit = catalogRecordBytes := rfl
      rw [map_cons, sum_cons, length_cons, Nat.succ_mul, Nat.succ_mul]
      omega
  rw [length_recordStream] at hlength
  rw [hcount] at hsum
  exact CatalogRecordRoot.validate_eq_ok.mpr
    ⟨hvalid, hversion, hmax, by omega, by omega⟩

lemma validate_of_content (hs : Stored C scope sec pages t) (hpage : root.page = t.label)
    (hcontent : t.content = recordStream records) : root.validate = .ok () := by
  refine validate_of_stream hversion hmax hfits hcount ?_ ?_
  · rw [hpage]
    exact hs.valid
  · rw [hpage, hs.byteLen, Rope.size, hcontent]

end

lemma valid_of_new (hnew : CatalogRecordReader.new scope sec root = .ok r) :
    root.validate = .ok () := by
  rw [CatalogRecordReader.new, bind_eq_ok, exists_unit] at hnew
  exact hnew.1

section

variable (hs : Stored C scope sec pages t) (hpage : root.page = t.label)

include hs hpage

lemma exists_new (hvalid : root.validate = .ok ()) :
    ∃ reader, CatalogRecordReader.new scope sec root = .ok reader := by
  obtain ⟨pagesReader, hnew, -, -⟩ := reading_new hs.covers hs.height.1 hs.reads
  rw [← hpage] at hnew
  rw [CatalogRecordReader.new, hvalid, ok_bind, hnew, ok_bind]
  exact ⟨_, rfl⟩

/-- A new reader has the whole content of the tree before it. -/
lemma at_new (hnew : CatalogRecordReader.new scope sec root = .ok r) :
    At C scope sec pages root t.content [] r := by
  obtain ⟨pagesReader, hreader, -, hreading⟩ := reading_new hs.covers hs.height.1 hs.reads
  simp only [CatalogRecordReader.new, bind_eq_ok, exists_unit, pure_eq_ok, hpage, hreader] at hnew
  obtain ⟨-, _, hsame, rfl⟩ := hnew
  cases hsame
  have hsize : t.content.length = root.page.byteLen.val := by
    rw [hpage]
    exact hs.byteLen.symm
  refine ⟨rfl, hsize, rfl, forall_mem_nil _, fun _ => ⟨rfl, rfl, ⟨t.pieces, hreading, ?_⟩, ?_⟩,
    (by rintro ⟨⟩)⟩
  · rw [nil_append, t.flatten_pieces]
  · rw [Nat.zero_add, hsize]

end

variable (hfetch : ∀ log, ∀ page ∈ pages, fetch log page.1 = .ok page.2)

include hfetch

/-- What a run has yielded is what the content begins with. -/
lemma At.of_pulled (hat : At C scope sec pages root content records r)
    (hpulled : Pulled (CatalogRecordReader.nextRecord C fetch) r more r') :
    At C scope sec pages root content (records ++ more) r' :=
  hpulled.invariant (P := At C scope sec pages root content) hat
    fun _ _ _ _ hat hcall => (hat.of_nextRecord hfetch hcall).1

/-- **The run over a well-formed stream.**  All its records are yielded, and then the end. -/
lemma At.pulledToEnd (hat : At C scope sec pages root content records r)
    (hcontent : content = recordStream (records ++ more))
    (hfits : ∀ record ∈ more, recordFraming.Fits record)
    (hcount : (records ++ more).length = root.records.val) :
    ∃ r', PulledToEnd (CatalogRecordReader.nextRecord C fetch) r more r' := by
  refine exists_pulledToEnd (P := fun more r => ∃ records,
    At C scope sec pages root content records r ∧
      content = recordStream (records ++ more) ∧ (∀ record ∈ more, recordFraming.Fits record) ∧
      (records ++ more).length = root.records.val) ⟨records, hat, hcontent, hfits, hcount⟩ ?_ ?_
  · rintro record more r ⟨records, hat, hcontent, hfits, hcount⟩
    rw [forall_mem_cons] at hfits
    obtain ⟨r', hcall⟩ := hat.nextRecord hfetch hcontent hfits.1 hcount
    rw [append_cons] at hcontent hcount
    exact ⟨r', hcall, records ++ [record], (hat.of_nextRecord hfetch hcall).1, hcontent, hfits.2,
      hcount⟩
  · rintro r ⟨records, hat, hcontent, -, hcount⟩
    rw [append_nil] at hcontent hcount
    exact hat.nextRecord_end hfetch hcontent hcount

end Runs

/-! ## Building -/

section Building

variable {sink : PageSink ε} {start : CatalogBuilder × List Emitted}
  {state : CatalogRecordBuilder × List Emitted}

/-- The builder has taken these records. -/
structure Wrote (C : Crypto) (sink : PageSink ε) (start : CatalogBuilder × List Emitted)
    (records : List (List UInt8)) (state : CatalogRecordBuilder × List Emitted) : Prop where
  failed_eq : state.1.failed = false
  count : state.1.records = records.length
  unstarted : state.1.headerWritten = false →
    records = [] ∧ CatalogBuilder.After C sink start [] (state.1.pages, state.2)
  started : state.1.headerWritten = true →
    CatalogBuilder.After C sink start (recordStream records) (state.1.pages, state.2)

lemma recordStream_append_singleton (records : List (List UInt8)) (record : List UInt8) :
    recordStream (records ++ [record]) =
      recordStream records ++ beBytes 4 record.length ++ record := by
  rw [recordStream_append, Framing.frames_singleton, append_assoc]
  rfl

lemma wrote_new {builder : CatalogRecordBuilder}
    (hnew : CatalogRecordBuilder.new scope sec = .ok builder) :
    ∃ pages, new scope sec = .ok pages ∧ Wrote C sink (pages, []) [] (builder, []) := by
  simp only [CatalogRecordBuilder.new, bind_eq_ok, pure_eq_ok] at hnew
  obtain ⟨pages, hpages, rfl⟩ := hnew
  exact ⟨pages, hpages, rfl, rfl, fun _ => ⟨rfl, after_new hpages⟩, (by rintro ⟨⟩)⟩

variable (hcovers : scope.validate sec = .ok ()) (hsink : ∀ pages page, sink pages page = .ok ())
  (hstart : Progress C scope sec start [])

include hcovers hsink hstart

lemma write_of_le {xs piece : List UInt8} {pages : CatalogBuilder × List Emitted}
    (hafter : CatalogBuilder.After C sink start xs pages)
    (hlen : (xs ++ piece).length ≤ catalogMaxStreamBytes) :
    ∃ next, CatalogRecordBuilder.write C sink pages piece = .ok next ∧
      CatalogBuilder.After C sink start (xs ++ piece) next := by
  obtain ⟨next, hpush, hnext⟩ := push_of_le hcovers hsink hstart hafter piece hlen
  exact ⟨next, by rw [CatalogRecordBuilder.write, hpush], hnext⟩

section

variable (hwrote : Wrote C sink start records state)

include hwrote

lemma Wrote.writeHeader (hlen : (recordStream records).length ≤ catalogMaxStreamBytes) :
    ∃ pages, state.1.writeHeader C sink state.2 = .ok pages ∧
      CatalogBuilder.After C sink start (recordStream records) pages := by
  unfold CatalogRecordBuilder.writeHeader
  cases hwritten : state.1.headerWritten with
  | true => exact ⟨_, rfl, hwrote.started hwritten⟩
  | false =>
    obtain ⟨rfl, hafter⟩ := hwrote.unstarted hwritten
    exact write_of_le hcovers hsink hstart hafter (by decide)

/-- **The step of building.**  A record that fits is written. -/
lemma Wrote.pushFrame (hfits : recordFraming.Fits record)
    (hcount : records.length < catalogMaxRecords)
    (hlen : (recordStream (records ++ [record])).length ≤ catalogMaxStreamBytes) :
    ∃ next, state.1.pushFrame C sink record state.2 = .ok next ∧
      Wrote C sink start (records ++ [record]) next := by
  rw [recordStream_append_singleton] at hlen
  have hlen₂ :
      (recordStream records ++ beBytes 4 record.length).length ≤ catalogMaxStreamBytes := by
    rw [length_append] at hlen
    omega
  have hlen₁ : (recordStream records).length ≤ catalogMaxStreamBytes := by
    rw [length_append] at hlen₂
    omega
  have hbounds : ¬ (record = [] ∨ catalogRecordBytes < record.length ∨
      state.1.records = catalogMaxRecords) := by
    have hlimit : record.length ≤ catalogRecordBytes := hfits.2
    rw [hwrote.count]
    push Not
    exact ⟨hfits.1, hlimit, hcount.ne⟩
  obtain ⟨pages₁, hheader, hafter₁⟩ := hwrote.writeHeader hcovers hsink hstart hlen₁
  obtain ⟨pages₂, hlength, hafter₂⟩ := write_of_le hcovers hsink hstart hafter₁ hlen₂
  obtain ⟨pages₃, hbody, hafter₃⟩ := write_of_le hcovers hsink hstart hafter₂ hlen
  rw [CatalogRecordBuilder.pushFrame, dif_neg hbounds, hheader, ok_bind, hlength, ok_bind, hbody,
    ok_bind]
  refine ⟨_, rfl, hwrote.failed_eq, ?_, (by rintro ⟨⟩), fun _ => ?_⟩
  · rw [length_append, length_singleton, ← hwrote.count]
  · rw [recordStream_append_singleton]
    exact hafter₃

/-- **The run of building.** -/
lemma Wrote.pushAllEncoded (hfits : ∀ record ∈ more, recordFraming.Fits record)
    (hcount : (records ++ more).length ≤ catalogMaxRecords)
    (hlen : (recordStream (records ++ more)).length ≤ catalogMaxStreamBytes) :
    ∃ next, CatalogRecordBuilder.pushAllEncoded C sink state more = .ok next ∧
      Wrote C sink start (records ++ more) next := by
  induction more generalizing records state with
  | nil =>
    rw [append_nil]
    exact ⟨state, rfl, hwrote⟩
  | cons record more ih =>
    rw [forall_mem_cons] at hfits
    rw [append_cons] at hcount hlen ⊢
    have hlen' : (recordStream (records ++ [record])).length ≤ catalogMaxStreamBytes := by
      rw [recordStream_append, length_append] at hlen
      exact (Nat.le_add_right _ _).trans hlen
    have hcount' : records.length < catalogMaxRecords := by
      rw [length_append, length_append, length_singleton] at hcount
      omega
    obtain ⟨next, hpush, hwrote'⟩ := hwrote.pushFrame hcovers hsink hstart hfits.1 hcount' hlen'
    obtain ⟨last, hall, hdone⟩ := ih hwrote' hfits.2 hcount hlen
    have hencoded : CatalogRecordBuilder.pushEncoded C sink state record = (.ok (), next) := by
      rw [CatalogRecordBuilder.pushEncoded, hwrote.failed_eq, if_neg Bool.false_ne_true, hpush]
      rfl
    refine ⟨last, ?_, hdone⟩
    rw [CatalogRecordBuilder.pushAllEncoded, hencoded]
    exact hall

/-- `finish` leaves a tree that holds the stream of the records. -/
lemma Wrote.finish (hfits : ∀ record ∈ records, recordFraming.Fits record)
    (hcount : records.length ≤ catalogMaxRecords)
    (hlen : (recordStream records).length ≤ catalogMaxStreamBytes) :
    ∃ root emitted, CatalogRecordBuilder.finish C sink state = .ok (root, emitted) ∧
      root.formatVersion = 1 ∧ root.records.val = records.length ∧
      ∃ (h : ℕ) (t : PageTree h), Stored C scope sec emitted t ∧ root.page = t.label ∧
        t.content = recordStream records := by
  obtain ⟨pages, hheader, hafter⟩ := hwrote.writeHeader hcovers hsink hstart hlen
  obtain ⟨hprogress, hbytes⟩ := hafter.progress hcovers hsink hstart hlen
  obtain ⟨page, emitted, hfinish, -, h, -, chunks, -, -, ⟨hreads, -⟩, hchunks⟩ :=
    exists_finish hcovers hsink hprogress hbytes hlen
  obtain ⟨t, hstored, hlabel, hpieces⟩ := exists_stored hreads
  have hcontent : t.content = recordStream records := by
    rw [← t.flatten_pieces, hpieces, hchunks]
  have hrecords : (Fin.ofNat (2 ^ 64) state.1.records).val = records.length := by
    have hmax : catalogMaxRecords = 67108864 := rfl
    rw [Fin.val_ofNat, hwrote.count, Nat.mod_eq_of_lt (by omega)]
  have hvalid : (⟨1, page, Fin.ofNat _ state.1.records⟩ : CatalogRecordRoot).validate = .ok () := by
    refine validate_of_stream rfl ?_ hfits hrecords.symm hreads.valid ?_
    · rw [hrecords]
      exact hcount
    · rw [← hlabel, hstored.byteLen, Rope.size, hcontent]
  refine ⟨⟨1, page, Fin.ofNat _ state.1.records⟩, emitted, ?_, rfl, hrecords, h, t, hstored,
    hlabel.symm, hcontent⟩
  rw [CatalogRecordBuilder.finish, reject, if_neg (by rw [hwrote.failed_eq]; simp), ok_bind,
    hheader, ok_bind, hfinish, ok_bind]
  simp only [hvalid, mapErr_ok, ok_bind]
  rfl

end

end Building

/-! ## The framing is exact -/

/-- The builder takes these records and finishes with this root and these pages. -/
def BuildsRecords {ε : Type} (C : Crypto) (sink : PageSink ε) (builder : CatalogRecordBuilder)
    (records : List (List UInt8)) (root : CatalogRecordRoot) (emitted : List Emitted) : Prop :=
  ∃ state, CatalogRecordBuilder.pushAllEncoded C sink (builder, []) records = .ok state ∧
    CatalogRecordBuilder.finish C sink state = .ok (root, emitted)

lemma exists_buildsRecords {ε : Type} {C : Crypto} {scope : CatalogScope}
    {sec : CatalogSection} {builder : CatalogRecordBuilder}
    (hnew : CatalogRecordBuilder.new scope sec = .ok builder) {sink : PageSink ε}
    (hsink : ∀ pages page, sink pages page = .ok ()) {records : List (List UInt8)}
    (hfits : ∀ record ∈ records, recordFraming.Fits record)
    (hcount : records.length ≤ catalogMaxRecords)
    (hlen : (recordStream records).length ≤ catalogMaxStreamBytes) :
    ∃ root emitted, BuildsRecords C sink builder records root emitted ∧
      root.formatVersion = 1 ∧ root.records.val = records.length ∧
      ∃ (h : ℕ) (t : PageTree h), Stored C scope sec emitted t ∧ root.page = t.label ∧
        t.content = recordStream records := by
  obtain ⟨pages, hpages, hwrote⟩ : ∃ pages, new scope sec = .ok pages ∧
      Wrote C sink (pages, []) [] (builder, []) := wrote_new hnew
  obtain ⟨hcovers, -, hstart⟩ := progress_new (C := C) hpages
  obtain ⟨state, hpush, hwrote'⟩ := hwrote.pushAllEncoded hcovers hsink hstart hfits hcount hlen
  obtain ⟨root, emitted, hfinish, hroot⟩ := hwrote'.finish hcovers hsink hstart hfits hcount hlen
  exact ⟨root, emitted, ⟨state, hpush, hfinish⟩, hroot⟩

/-- **Record framing is exact.**  Every list of records within the limits is built, and a reader
over the pages returns it.  A reader over any tree that verifies ends, after these records, exactly
when the bytes of the tree are the header and the frames of these records, as many as the root says;
building them again then gives the same bytes.  Whatever a reader has yielded, the bytes begin with
its frames, the range it reports is that of the last frame, and the last record is yielded only when
nothing follows it. -/
theorem record_framing_exact {ε : Type} (C : Crypto) {scope : CatalogScope}
    {sec : CatalogSection} {builder : CatalogRecordBuilder}
    (hnew : CatalogRecordBuilder.new scope sec = .ok builder) (sink : PageSink ε)
    (hsink : ∀ pages page, sink pages page = .ok ()) :
    (∀ records : List (List UInt8), (∀ record ∈ records, recordFraming.Fits record) →
      records.length ≤ catalogMaxRecords → (recordStream records).length ≤ catalogMaxStreamBytes →
      ∃ root emitted, BuildsRecords C sink builder records root emitted ∧
        ReadsBack C scope sec emitted root.page (recordStream records) ∧
        ∀ {ε' : Type} (fetch : PageLog → CatalogPageRef → Except ε' (List UInt8)),
          (∀ log, ∀ page ∈ emitted, fetch log page.1 = .ok page.2) →
          ∃ reader r', CatalogRecordReader.new scope sec root = .ok reader ∧
            PulledToEnd (CatalogRecordReader.nextRecord C fetch) reader records r') ∧
    ∀ {h : ℕ} (t : PageTree h) (pages : List Emitted) (root : CatalogRecordRoot),
      Stored C scope sec pages t → root.page = t.label →
      ((∃ reader, CatalogRecordReader.new scope sec root = .ok reader) ↔ root.validate = .ok ()) ∧
      (root.formatVersion = 1 → root.records.val ≤ catalogMaxRecords →
        ∀ records : List (List UInt8), (∀ record ∈ records, recordFraming.Fits record) →
          records.length = root.records.val → t.content = recordStream records →
          root.validate = .ok ()) ∧
      ∀ {ε' : Type} (fetch : PageLog → CatalogPageRef → Except ε' (List UInt8))
        (reader : CatalogRecordReader),
        (∀ log, ∀ page ∈ pages, fetch log page.1 = .ok page.2) →
        CatalogRecordReader.new scope sec root = .ok reader →
        (∀ records : List (List UInt8),
          ((∃ r', PulledToEnd (CatalogRecordReader.nextRecord C fetch) reader records r') ↔
            (∀ record ∈ records, recordFraming.Fits record) ∧ records.length = root.records.val ∧
              t.content = recordStream records) ∧
          ((∃ r', PulledToEnd (CatalogRecordReader.nextRecord C fetch) reader records r') →
            ∃ root' emitted, BuildsRecords C sink builder records root' emitted ∧
              ReadsBack C scope sec emitted root'.page t.content)) ∧
        ∀ (records : List (List UInt8)) (record : List UInt8) (r' : CatalogRecordReader),
          Pulled (CatalogRecordReader.nextRecord C fetch) reader (records ++ [record]) r' →
          r'.lastRecordRange =
            some ((recordStream records).length, (recordStream (records ++ [record])).length) ∧
          recordStream (records ++ [record]) <+: t.content ∧
          (records.length + 1 = root.records.val →
            t.content = recordStream (records ++ [record])) := by
  refine ⟨fun records hfits hcount hlen => ?_, fun t pages root hstored hpage => ⟨?_, ?_, ?_⟩⟩
  · obtain ⟨root, emitted, hbuilds, hversion, hrecords, h, t, hstored, hpage, hcontent⟩ :=
      exists_buildsRecords (C := C) hnew hsink hfits hcount hlen
    refine ⟨root, emitted, hbuilds, ?_, fun fetch hfetch => ?_⟩
    · rw [hpage, ← hcontent]
      exact hstored.readsBack
    · have hvalid : root.validate = .ok () := by
        refine validate_of_content hversion ?_ hfits hrecords.symm hstored hpage hcontent
        rw [hrecords]
        exact hcount
      obtain ⟨reader, hreader⟩ := exists_new hstored hpage hvalid
      obtain ⟨r', hend⟩ :=
        (at_new hstored hpage hreader).pulledToEnd hfetch hcontent hfits hrecords.symm
      exact ⟨reader, r', hreader, hend⟩
  · exact ⟨fun ⟨_, hreader⟩ => valid_of_new hreader, exists_new hstored hpage⟩
  · intro hversion hmax records hfits hcount hcontent
    exact validate_of_content hversion hmax hfits hcount hstored hpage hcontent
  · intro ε' fetch reader hfetch hreader
    have hat := at_new hstored hpage hreader
    refine ⟨fun records => ?_, fun records record r' hpulled => ?_⟩
    · have hiff : (∃ r', PulledToEnd (CatalogRecordReader.nextRecord C fetch) reader records r') ↔
          (∀ record ∈ records, recordFraming.Fits record) ∧ records.length = root.records.val ∧
            t.content = recordStream records := by
        constructor
        · rintro ⟨r', mid, hpulled, hend⟩
          have hmid := hat.of_pulled hfetch hpulled
          obtain ⟨hcount, hcontent⟩ := hmid.of_end hfetch hend
          exact ⟨hmid.fits, hcount, hcontent⟩
        · rintro ⟨hfits, hcount, hcontent⟩
          exact hat.pulledToEnd hfetch hcontent hfits hcount
      refine ⟨hiff, fun hend => ?_⟩
      obtain ⟨hfits, hcount, hcontent⟩ := hiff.mp hend
      obtain ⟨hvalid, -, hmax, -, -⟩ := CatalogRecordRoot.validate_eq_ok.mp (valid_of_new hreader)
      have hlen : (recordStream records).length ≤ catalogMaxStreamBytes := by
        rw [← hcontent, hat.size_eq]
        exact hvalid.byteLen_le
      obtain ⟨root', emitted, hbuilds, -, -, h', t', hstored', hpage', hcontent'⟩ :=
        exists_buildsRecords (C := C) hnew hsink hfits (hcount.trans_le hmax) hlen
      refine ⟨root', emitted, hbuilds, ?_⟩
      rw [hpage', hcontent, ← hcontent']
      exact hstored'.readsBack
    · obtain ⟨mid, hbefore, hcall⟩ := hpulled.exists_last
      have hmid : At C scope sec pages root t.content records mid :=
        hat.of_pulled hfetch hbefore
      obtain ⟨-, hbegins, hlast, hrange⟩ := hmid.of_nextRecord hfetch hcall
      exact ⟨hrange, hbegins, hlast⟩

theorem record_framing_exact_three_records :
    ∃ builder, CatalogRecordBuilder.new (.guild 1) .packing = .ok builder ∧
      ∃ root emitted,
        BuildsRecords .transparent acceptAll builder [[7], [8, 9], [10]] root emitted ∧
        ReadsBack .transparent (.guild 1) .packing emitted root.page
          [77, 66, 67, 65, 84, 82, 1, 0, 0, 0, 0, 1, 7, 0, 0, 0, 2, 8, 9, 0, 0, 0, 1, 10] := by
  have hnew : CatalogRecordBuilder.new (.guild 1) .packing = .ok
      { pages := ⟨.guild 1, .packing, [], List.replicate 4 [], 0, false, by decide⟩
        records := 0, headerWritten := false, failed := false, records_le := Nat.zero_le _ } := rfl
  obtain ⟨root, emitted, hbuilds, hreads, -⟩ :=
    (record_framing_exact .transparent hnew acceptAll (fun _ _ => rfl)).1 [[7], [8, 9], [10]]
      (by simp [Framing.Fits, recordFraming, catalogRecordBytes]) (by decide) (by decide)
  exact ⟨_, hnew, root, emitted, hbuilds, hreads⟩

end MutualBackup
