import MutualBackup.Framework.SlotAllocation
import MutualBackup.Framework.Table
import MutualBackup.Core.Packing

/-!
# The slot allocator

`StableSlotAllocator` of `packing.rs` places the chunks of several owners.  Beside the assignment
of every slot it keeps the owners and the free slots of each sector, and four indexes that classify
the sectors with a free slot, so that the sector for the next chunk is found without a scan.  Sets
and maps are the ordered ones of the source: `BTreeSet` is a finite set read from its least element,
and `BTreeMap` a table.

Chunks that have no slot yet are assigned in rounds, one of every owner each.
-/

namespace MutualBackup

open Framework

/-- The order of the fields, which `derive(Ord)` compares one after another. -/
def SourceChunkId.order (id : SourceChunkId) : NodeId ×ₗ Bytes 32 ×ₗ Bytes 32 ×ₗ U32 :=
  toLex (id.owner, toLex (id.protectedRoot, toLex (id.objectId, id.chunkIndex)))

lemma SourceChunkId.order_injective : Function.Injective SourceChunkId.order := by
  rintro ⟨owner, root, object, index⟩ ⟨owner', root', object', index'⟩ h
  cases h
  rfl

instance : LinearOrder SourceChunkId :=
  LinearOrder.lift' SourceChunkId.order SourceChunkId.order_injective

/-- `BTreeSet::first`. -/
def firstOf {α : Type} [LinearOrder α] (s : Finset α) : Option α :=
  if h : s.Nonempty then some (s.min' h) else none

structure PackingSectorState where
  owners : Finset NodeId
  free : Finset ℕ
  deriving DecidableEq

structure StableSlotAllocator where
  slotsPerSector : ℕ
  assignments : List (Option SourceChunkId)
  sectors : List PackingSectorState
  mixed : Finset ℕ
  single : Table NodeId (Finset ℕ)
  singleFillable : Table NodeId (Finset ℕ)
  empty : Finset ℕ

/-- The indexes that a sector belongs to, by the `match` that adding and removing share. -/
inductive Classification where
  | full
  | empty
  | single (owner : NodeId) (fillable : Bool)
  | mixed
  deriving DecidableEq, Repr

def PackingSectorState.classification (state : PackingSectorState) :
    Outcome PackingError Classification :=
  if state.free = ∅ then pure .full
  else if state.owners.card = 0 then pure .empty
  else if state.owners.card = 1 then do
    let owner ← expect (firstOf state.owners)
    pure (.single owner (decide (1 < state.free.card)))
  else pure .mixed

namespace StableSlotAllocator

/-- `insert_index`. -/
def insertIndex (map : Table NodeId (Finset ℕ)) (owner : NodeId) (sectorIndex : ℕ) :
    Table NodeId (Finset ℕ) :=
  map.put owner (insert sectorIndex ((map.get owner).getD ∅))

/-- `remove_index`: an owner without sectors leaves the map. -/
def removeIndex (map : Table NodeId (Finset ℕ)) (owner : NodeId) (sectorIndex : ℕ) :
    Table NodeId (Finset ℕ) :=
  match map.get owner with
  | none => map
  | some sectors =>
    if sectors.erase sectorIndex = ∅ then map.erase owner
    else map.put owner (sectors.erase sectorIndex)

section

variable (a : StableSlotAllocator) (sectorIndex : ℕ)

/-- `add_classification`, of a sector of the given classification. -/
def addAs : Classification → StableSlotAllocator
  | .full => a
  | .empty => { a with empty := insert sectorIndex a.empty }
  | .single owner fillable =>
    { a with
      single := insertIndex a.single owner sectorIndex
      singleFillable :=
        if fillable then insertIndex a.singleFillable owner sectorIndex else a.singleFillable }
  | .mixed => { a with mixed := insert sectorIndex a.mixed }

/-- `remove_classification`, of a sector of the given classification. -/
def removeAs : Classification → StableSlotAllocator
  | .full => a
  | .empty => { a with empty := a.empty.erase sectorIndex }
  | .single owner fillable =>
    { a with
      single := removeIndex a.single owner sectorIndex
      singleFillable :=
        if fillable then removeIndex a.singleFillable owner sectorIndex else a.singleFillable }
  | .mixed => { a with mixed := a.mixed.erase sectorIndex }

/-- `add_classification`. -/
def addClassification : Outcome PackingError StableSlotAllocator := do
  let state ← expect a.sectors[sectorIndex]?
  let classification ← state.classification
  pure (a.addAs sectorIndex classification)

/-- `remove_classification`. -/
def removeClassification : Outcome PackingError StableSlotAllocator := do
  let state ← expect a.sectors[sectorIndex]?
  let classification ← state.classification
  pure (a.removeAs sectorIndex classification)

end

/-- The state of a sector whose first slot is `start`. -/
def stateOf (start : ℕ) (slots : List (Option SourceChunkId)) : PackingSectorState where
  owners := (slots.reduceOption.map SourceChunkId.owner).toFinset
  free := ((slots.zipIdx.filter fun entry => entry.1.isNone).map fun entry =>
    start + entry.2).toFinset

/-- The body of the loop of `new`. -/
def addSector (a : StableSlotAllocator) (sectorIndex : ℕ) :
    Outcome PackingError StableSlotAllocator :=
  let start := sectorIndex * a.slotsPerSector
  let slots := (a.assignments.drop start).take a.slotsPerSector
  addClassification { a with sectors := a.sectors ++ [stateOf start slots] } sectorIndex

/-- `StableSlotAllocator::new`. -/
def new (assignments : List (Option SourceChunkId)) (slotsPerSector : ℕ) :
    Outcome PackingError StableSlotAllocator :=
  (List.range (assignments.length / slotsPerSector)).foldlM addSector
    { slotsPerSector := slotsPerSector, assignments := assignments, sectors := [], mixed := ∅,
      single := .empty, singleFillable := .empty, empty := ∅ }

variable (a : StableSlotAllocator)

/-- `other_owner_sector`. -/
def otherOwnerSector (owner : NodeId) : Option ℕ :=
  ((a.single.rows.find? fun row => row.1 < owner).or
    (a.single.rows.find? fun row => owner < row.1)).bind fun row => firstOf row.2

/-- `append_empty_sector`. -/
def appendEmptySector : Outcome PackingError (StableSlotAllocator × ℕ) := do
  let sectorIndex := a.sectors.length
  let start := a.assignments.length
  let a ← addClassification
    { a with
      assignments := a.assignments ++ List.replicate a.slotsPerSector none
      sectors := a.sectors ++
        [⟨∅, (Finset.range a.slotsPerSector).image fun slot => start + slot⟩] } sectorIndex
  pure (a, sectorIndex)

/-- The sector that the indexes name for a chunk of an owner. -/
def candidate (owner : NodeId) : Option ℕ :=
  (firstOf a.mixed).or <| (a.otherOwnerSector owner).or <|
    ((a.singleFillable.get owner).bind firstOf).or (firstOf a.empty)

/-- The rest of `assign`, with the sector. -/
def assignTo (id : SourceChunkId) (sectorIndex : ℕ) : Outcome PackingError StableSlotAllocator := do
  let a ← a.removeClassification sectorIndex
  let state ← expect a.sectors[sectorIndex]?
  let flatIndex ← expect (firstOf state.free)
  let state : PackingSectorState := ⟨insert id.owner state.owners, state.free.erase flatIndex⟩
  let _ ← expect a.assignments[flatIndex]?
  addClassification
    { a with
      sectors := a.sectors.set sectorIndex state
      assignments := a.assignments.set flatIndex (some id) } sectorIndex

/-- `assign`. -/
def assign (id : SourceChunkId) : Outcome PackingError StableSlotAllocator :=
  match a.candidate id.owner with
  | some sectorIndex => a.assignTo id sectorIndex
  | none => do
    let (a, sectorIndex) ← a.appendEmptySector
    a.assignTo id sectorIndex

end StableSlotAllocator

/-! ## Rounds -/

/-- The chunks of an owner that have no slot yet.  The source keeps them in a vector and takes the
last; here the next one comes first. -/
abbrev PendingQueue := NodeId × List SourceChunkId

/-- `pending_by_owner.entry(id.owner).or_default().push(id)`. -/
def enqueue (pending : Table NodeId (List SourceChunkId)) (id : SourceChunkId) :
    Table NodeId (List SourceChunkId) :=
  pending.put id.owner ((pending.get id.owner).getD [] ++ [id])

/-- The chunks by owner, each owner's in order. -/
def pendingByOwner (ids : List SourceChunkId) : List PendingQueue :=
  (ids.foldl enqueue .empty).rows.map fun row => (row.1, row.2.insertionSort (· ≤ ·))

/-- One round: a chunk of every owner that has any, and whether there was one. -/
def assignRound : StableSlotAllocator → List PendingQueue →
    Outcome PackingError (StableSlotAllocator × List PendingQueue × Bool)
  | a, [] => pure (a, [], false)
  | a, (owner, []) :: rest => do
    let (a, rest, progress) ← assignRound a rest
    pure (a, (owner, []) :: rest, progress)
  | a, (owner, id :: ids) :: rest => do
    let a ← a.assign id
    let (a, rest, _) ← assignRound a rest
    pure (a, (owner, ids) :: rest, true)

/-- The `loop` over rounds, which ends with one that assigns nothing. -/
def assignRounds : ℕ → StableSlotAllocator → List PendingQueue →
    Outcome PackingError StableSlotAllocator
  | 0, _, _ => .error .overflow
  | fuel + 1, a, pending => do
    let (a, pending, progress) ← assignRound a pending
    if progress then assignRounds fuel a pending else pure a

/-- A round for every chunk is more than enough. -/
def roundFuel (pending : List PendingQueue) : ℕ := (pending.map fun queue => queue.2.length).sum + 1

/-- The allocation that both packers make: the chunks that have a slot keep it, the others are
assigned in rounds, and free slots at the end are dropped. -/
def allocate (slotsPerSector : ℕ) (assignments : List (Option SourceChunkId))
    (pending : List SourceChunkId) : Outcome PackingError (List (Option SourceChunkId)) := do
  let allocator ← StableSlotAllocator.new assignments slotsPerSector
  let queues := pendingByOwner pending
  let allocator ← assignRounds (roundFuel queues) allocator queues
  pure (allocator.assignments.rdropWhile Option.isNone)

end MutualBackup
