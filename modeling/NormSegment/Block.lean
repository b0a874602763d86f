import NormSegment.SegmentPool
import Mathlib.Data.List.ReduceOption

/-!
# The block

A `NormBlock` holds one FEC block's state: the segment table, the two masks `pending_mask` and
`repair_mask`, and the parity cursor (`parity_offset`, `parity_count`) that the sender moves as
NACKs arrive. This file transcribes the block operations of `normSegment.cpp`:

* the receiver side, `IsRepairPending`;
* the sender side, `TxReset`, `ActivateRepairs`, `TxUpdate` and `HandleSegmentRequest`;
* the segment bookkeeping, `Init`, `Destroy`, `EmptyToPool` and `IsEmpty`;
* the block pool's `Init` and `Destroy`, which delete blocks through `NormBlock::Destroy`.

`TxUpdate` and `HandleSegmentRequest` are the same code run on different masks; both are
`segmentRequest` applied to the mask they mark. Their explicit-repair loop
`while (nextId <= lastId) { ... nextId++; }` counts with a sixteen-bit `nextId`, so it never exits
when `lastId` is the largest id: the loop is `markLoop`, run on a fuel of `65536` rounds, and a
request whose loop does not exit returns `none`. `markLoop_lastId_max` shows that no fuel would
do, and `markLoop_spec` gives the loop's result whenever `lastId` is below the largest id.
-/

namespace NormSegment

/-- Modelled from the spec (§3, §9): `NormBlockId`, a thirty-two-bit sequence number. Its
comparisons are the signed-distance ones of `NormSegment.NormBlockId.lt`. -/
structure NormBlockId where
  value : UINT32
  deriving DecidableEq

/-- The state of a `NormBlock`. The masks have `size` bits by their type, and the segment
table has `size` slots by `table_length`. `inRepair` is the `IN_REPAIR` flag, the only flag
this file sets. -/
structure NormBlock where
  id : NormBlockId
  size : UINT16
  segmentTable : List (Option Segment)
  pendingMask : BitMask size.val
  repairMask : BitMask size.val
  erasureCount : UINT16
  parityCount : UINT16
  parityOffset : UINT16
  inRepair : Bool
  table_length : segmentTable.length = size.val
  deriving DecidableEq

namespace NormBlock

/-- Two blocks are equal when their fields are, the masks compared bit by bit. -/
theorem ext_bits {b b' : NormBlock} (hid : b.id = b'.id) (hsize : b.size = b'.size)
    (htab : b.segmentTable = b'.segmentTable)
    (hpend : b.pendingMask.bits = b'.pendingMask.bits)
    (hrep : b.repairMask.bits = b'.repairMask.bits) (hec : b.erasureCount = b'.erasureCount)
    (hpc : b.parityCount = b'.parityCount) (hpo : b.parityOffset = b'.parityOffset)
    (hin : b.inRepair = b'.inRepair) : b = b' := by
  obtain ⟨id, size, tab, pm, rm, ec, pc, po, inr, hl⟩ := b
  obtain ⟨id', size', tab', pm', rm', ec', pc', po', inr', hl'⟩ := b'
  dsimp only at *
  subst hid hsize htab hec hpc hpo hin
  rw [BitMask.ext hpend, BitMask.ext hrep]

/-! ### Segment bookkeeping -/

/-- The state `NormBlock()` leaves: no segment table, empty masks, `size` and the counters zero.
The constructor does not initialise `id`, `parity_offset` or the flags; they start at zero here. -/
def blank : NormBlock where
  id := ⟨0⟩
  size := 0
  segmentTable := []
  pendingMask := .init
  repairMask := .init
  erasureCount := 0
  parityCount := 0
  parityOffset := 0
  inRepair := false
  table_length := rfl

/-- `IsEmpty()`: no slot holds a segment. -/
def isEmpty (b : NormBlock) : Bool := b.segmentTable.all Option.isNone

/-- `Destroy()`: release the masks, then the segment table after `ASSERT(!segment_table[i])` on
every slot; `erasure_count`, `parity_count` and `size` become zero. When a slot still holds a
segment the `ASSERT` fails, and the call does not complete. -/
def destroy (b : NormBlock) : Option NormBlock :=
  if b.segmentTable.all Option.isNone then
    some { b with
      size := 0, segmentTable := [], pendingMask := .init, repairMask := .init
      erasureCount := 0, parityCount := 0, table_length := rfl }
  else none

/-- The state `Init(totalSize)` leaves: a segment table of `totalSize` empty slots, fresh masks,
counters zero. -/
def initState (b : NormBlock) (totalSize : UINT16) : NormBlock where
  id := b.id
  size := totalSize
  segmentTable := List.replicate totalSize.val none
  pendingMask := .init
  repairMask := .init
  erasureCount := 0
  parityCount := 0
  parityOffset := 0
  inRepair := b.inRepair
  table_length := List.length_replicate _ _

/-- `Init(totalSize)`: `if (segment_table) Destroy();`, then a segment table of `totalSize` empty
slots, fresh masks, counters zero. The model's empty table stands for `NULL` as well, and
`Destroy` of it changes nothing `Init` keeps. The call does not complete when `Destroy` does
not. -/
def init (b : NormBlock) (totalSize : UINT16) : Option NormBlock :=
  b.destroy.map fun b => b.initState totalSize

/-- The spec lemma of `Init`: when it completes, it leaves `initState`. -/
theorem init_eq_some {b b' : NormBlock} {totalSize : UINT16} (h : b.init totalSize = some b') :
    b' = b.initState totalSize := by
  unfold init destroy at h
  split at h
  · exact (Option.some.inj h).symm
  · exact absurd h nofun

@[simp] theorem blank_init (totalSize : UINT16) :
    blank.init totalSize = some (blank.initState totalSize) :=
  rfl

/-- `EmptyToPool(segmentPool)`: `Put` every held segment, in slot order, and empty its slot. -/
def emptyToPool (b : NormBlock) (pool : NormSegmentPool) : NormBlock × NormSegmentPool :=
  ({ b with segmentTable := List.replicate b.size.val none,
            table_length := List.length_replicate _ _ },
   b.segmentTable.reduceOption.foldl NormSegmentPool.put pool)

/-! ### The receiver: `IsRepairPending` -/

/-- The walk of `IsRepairPending` over `count` pending ids from `nextId`: set `nextId` in the
covered mask `r`, then `nextId++; GetNextPending(nextId)`. -/
def coverPending {n : Nat} (pending : BitMask n) : Nat → NormSegmentId → BitMask n → BitMask n
  | 0, _, r => r
  | k + 1, nextId, r => coverPending pending k (pending.getNext (nextId + 1)).2 (r.set nextId.val)

/-- `IsRepairPending(numData, numParity)`: mark in `repair_mask` the ids the requested parity
will fill, then leave there `pending_mask - repair_mask` and report whether it is non-empty. -/
def isRepairPending (b : NormBlock) (numData numParity : UINT16) : Bool × NormBlock :=
  let covered :=
    if numParity < b.erasureCount then
      if numParity ≠ 0 then
        coverPending b.pendingMask numParity.val (b.pendingMask.getNext 0).2 b.repairMask
      else if numData < b.size then
        b.repairMask.setBits numData.val (b.size.val - numData.val)
      else b.repairMask
    else
      (b.repairMask.setBits 0 numData.val).setBits (numData.val + b.erasureCount.val)
        (numParity.val - b.erasureCount.val)
  let r := covered.xCopy b.pendingMask
  (r.isSet, { b with repairMask := r })

/-! ### The sender: `TxReset` and `ActivateRepairs` -/

/-- `TxReset(numData, numParity, autoParity, segmentSize)`. `parityReady` is the value of
`ParityReady(numData)`, declared in the header that `src/` does not hold; clearing the parity
buffers changes only their bytes, which this layer does not see. -/
def txReset (b : NormBlock) (numData numParity autoParity : UINT16) (parityReady : Bool) :
    Bool × NormBlock :=
  let k := numData.val + autoParity.val
  let rest := uint32OfInt ((numParity.val : Int) - autoParity.val)
  let change := ((b.repairMask.setBits 0 k).unsetBits k rest).xor b.pendingMask
  if change.isSet then
    (true, { b with
      repairMask := change.clear
      pendingMask := (b.pendingMask.setBits 0 k).unsetBits k rest
      parityOffset := autoParity
      parityCount := numParity
      inRepair := true
      erasureCount := if parityReady then b.erasureCount else 0 })
  else (false, { b with repairMask := change })

/-- `ActivateRepairs(numParity)`: commit the staged repairs (its argument is not read). -/
def activateRepairs (b : NormBlock) : Bool × NormBlock :=
  if b.repairMask.isSet then
    (true, { b with pendingMask := b.pendingMask.add b.repairMask, repairMask := b.repairMask.clear })
  else (false, b)

/-! ### The sender: `TxUpdate` and `HandleSegmentRequest` -/

/-- The explicit-repair loop
`while (nextId <= lastId) { if (!mask.Test(nextId)) { mask.Set(nextId); increasedRepair = true; }
nextId++; }`, run for at most `fuel` rounds: `none` when the fuel runs out first. -/
def markLoop {n : Nat} : Nat → NormSegmentId → NormSegmentId → BitMask n → Bool →
    Option (BitMask n × Bool)
  | 0, _, _, _, _ => none
  | fuel + 1, nextId, lastId, mask, increased =>
    if nextId ≤ lastId then
      if mask.test nextId.val then markLoop fuel (nextId + 1) lastId mask increased
      else markLoop fuel (nextId + 1) lastId (mask.set nextId.val) true
    else some (mask, increased)

/-- The explicit-repair loop as the code runs it: `65536` rounds cover every loop that exits. -/
def markRange {n : Nat} (nextId lastId : NormSegmentId) (mask : BitMask n) (increased : Bool) :
    Option (BitMask n × Bool) :=
  markLoop 65536 nextId lastId mask increased

/-- What one segment request leaves: whether repair increased, the marked mask, and the parity
cursor. -/
structure RequestEffect (n : Nat) where
  increased : Bool
  mask : BitMask n
  parityOffset : UINT16
  parityCount : UINT16

/-- The body shared by `TxUpdate` and `HandleSegmentRequest`, on the mask it marks and the
block's parity cursor. -/
def segmentRequest {n : Nat} (mask : BitMask n) (parityOffset parityCount : UINT16)
    (nextId lastId numData numParity erasureCount : NormSegmentId) :
    Option (RequestEffect n) :=
  if nextId < numData then
    -- explicit data repair request
    (markRange nextId lastId mask false).map fun r => ⟨r.2, r.1, numParity, numParity⟩
  else
    let parityAvailable := numParity - parityOffset
    if erasureCount ≤ parityAvailable then
      -- use fresh parity for repair
      if parityCount < erasureCount then
        some ⟨true, mask.setBits (numData.val + parityOffset.val + parityCount.val)
          (erasureCount.val - parityCount.val), parityOffset, erasureCount⟩
      else some ⟨false, mask, parityOffset, parityCount⟩
    else if parityCount < parityAvailable then
      -- use any remaining fresh parity, and explicit repair for the rest
      (markRange (nextId + parityAvailable) lastId
          (mask.setBits (numData.val + parityOffset.val + parityCount.val)
            (parityAvailable - parityCount).val) true).map
        fun r => ⟨r.2, r.1, parityOffset, parityAvailable⟩
    else
      (markRange nextId lastId mask false).map fun r => ⟨r.2, r.1, parityOffset, parityCount⟩

/-- `TxUpdate(nextId, lastId, numData, numParity, erasureCount)`: a NACK applied directly to
`pending_mask` during the repair holdoff. -/
def txUpdate (b : NormBlock) (nextId lastId numData numParity erasureCount : NormSegmentId) :
    Option (Bool × NormBlock) :=
  (segmentRequest b.pendingMask b.parityOffset b.parityCount nextId lastId numData numParity
      erasureCount).map fun e =>
    (e.increased, { b with pendingMask := e.mask, parityOffset := e.parityOffset,
                           parityCount := e.parityCount })

/-- `HandleSegmentRequest(nextId, lastId, numData, numParity, erasureCount)`: a NACK staged in
`repair_mask`, for a later `ActivateRepairs`. -/
def handleSegmentRequest (b : NormBlock)
    (nextId lastId numData numParity erasureCount : NormSegmentId) : Option (Bool × NormBlock) :=
  (segmentRequest b.repairMask b.parityOffset b.parityCount nextId lastId numData numParity
      erasureCount).map fun e =>
    (e.increased, { b with repairMask := e.mask, parityOffset := e.parityOffset,
                           parityCount := e.parityCount })

end NormBlock

/-! ### The block pool -/

/-- Modelled from the spec (§3, §4.3): a `NormBlockPool`, the stack of free blocks, head first,
with the overrun counters of `Get`. -/
structure NormBlockPool where
  blocks : List NormBlock
  overruns : Nat
  overrunFlag : Bool

namespace NormBlockPool

/-- The constructor's state: no blocks, no overrun. -/
def empty : NormBlockPool := ⟨[], 0, false⟩

/-- `Destroy()`: `while ((next = head)) { head = next->next; delete next; }`, where deleting a
block runs `NormBlock::Destroy`; the call completes only if every block passes its `ASSERT`s. -/
def destroy (p : NormBlockPool) : Option NormBlockPool :=
  (p.blocks.mapM NormBlock.destroy).map fun _ => { p with blocks := [] }

/-- `Init(numBlocks, totalSize)`: `Destroy` a pool that holds blocks, then push `numBlocks` new
blocks, each through `NormBlock::Init(totalSize)`. Standard `new` throws rather than returning
`NULL`, so that failure branch is not modelled. -/
def init (p : NormBlockPool) (numBlocks : Nat) (totalSize : UINT16) : Option NormBlockPool := do
  let q ← if p.blocks.isEmpty then some p else p.destroy
  let blocks ← (List.replicate numBlocks NormBlock.blank).mapM fun b => b.init totalSize
  return { q with blocks := blocks }

/-- Modelled from the spec (§4.3): `Get()` unlinks the head; on an empty pool it counts one
overrun per exhaustion episode, as the segment pool's `Get` does. -/
def get (p : NormBlockPool) : Option NormBlock × NormBlockPool :=
  match p.blocks with
  | b :: rest => (some b, { p with blocks := rest, overrunFlag := false })
  | [] =>
    if p.overrunFlag then (none, p)
    else (none, { p with overruns := p.overruns + 1, overrunFlag := true })

/-- Modelled from the spec (§4.3): `Put(block)` relinks the block at the head. -/
def put (p : NormBlockPool) (b : NormBlock) : NormBlockPool :=
  { p with blocks := b :: p.blocks }

end NormBlockPool

end NormSegment
