import NormSegment.Block

/-!
# Repair requests

`AppendRepairAdv` (the sender's repair advertisement) and `AppendRepairRequest` (the receiver's
NACK) describe a set of symbol ids of a block to a message as a sequence of repair requests
(§4.2.7 of the spec). Both walk the set ids of a mask in ascending order, cut them into maximal
runs of consecutive ids, and write a run of one or two ids as `ITEMS` and a longer run as one
`RANGES` pair; a new request starts whenever the form changes.

The request builder and the messages are the collaborators of §6, declared in headers outside
`src/`; they are modelled from the spec. A request keeps its form and flags across
`AttachRepairRequest`, which only gives it fresh space, and `PackRepairRequest` appends it to the
message as it is. The loop packs a request only behind its guards `INVALID != prevForm`, and those
guards alone keep an empty request out of the message (`NormSegment.EncodesIds`). The space a
message has left is not modelled: §7 leaves packing beyond the MTU to the message layer.

The loop itself is transcribed from the source. Its state is `RepairWalk`; one round is `visit`,
which closes the current run with `closeRun` when the next id is not consecutive or lies past the
window. `AppendRepairAdv` sets the form before attaching, `AppendRepairRequest` after; the flag
`formFirst` of `closeRun` records the order, which does not change the request built.
-/

namespace NormSegment

/-- Modelled from the spec (§6): the form of a repair request. -/
inductive NormRepairRequest.Form
  | invalid
  | items
  | ranges
  | erasures
  deriving DecidableEq, Repr

/-- Modelled from the spec (§6): a repair request, as it is built and as it is packed: its form,
its `SEGMENT` and `INFO` flags, and the symbol ids appended to it since it was attached (one per
item, the first and the last of each range). The object id, block id and `numData` each item also
carries are the same for every item of one call and are left out. -/
structure NormRepairRequest where
  form : NormRepairRequest.Form
  segmentFlag : Bool
  infoFlag : Bool
  items : List NormSegmentId
  deriving DecidableEq, Repr

namespace NormRepairRequest

/-- Modelled from the spec (§6): `NormRepairRequest req;`, no form, no flags, nothing appended. -/
def new : NormRepairRequest := ⟨.invalid, false, false, []⟩

/-- Modelled from the spec (§6): `SetForm(form)`. -/
def setForm (r : NormRepairRequest) (form : Form) : NormRepairRequest := { r with form := form }

/-- Modelled from the spec (§6): `AppendRepairItem(objectId, blockId, numData, symbolId)`. -/
def appendRepairItem (r : NormRepairRequest) (symbolId : NormSegmentId) : NormRepairRequest :=
  { r with items := r.items ++ [symbolId] }

/-- Modelled from the spec (§6): `AppendRepairRange(objectId, blockId, numData, firstId,
objectId, blockId, numData, lastId)`. -/
def appendRepairRange (r : NormRepairRequest) (firstId lastId : NormSegmentId) :
    NormRepairRequest :=
  { r with items := r.items ++ [firstId, lastId] }

/-- Modelled from the spec (§6): `AttachRepairRequest(req, segmentSize)`, fresh space in the
message for the request. -/
def attachRepairRequest (r : NormRepairRequest) : NormRepairRequest := { r with items := [] }

end NormRepairRequest

/-- Modelled from the spec (§6): `PackRepairRequest(req)`, the message, given as the requests
packed into it, with the request it is given appended. -/
def packRepairRequest (msg : List NormRepairRequest) (req : NormRepairRequest) :
    List NormRepairRequest :=
  msg ++ [req]

open NormRepairRequest

/-! ### The run-compression loop -/

/-- The state of the loop: the message, the request being built, the form of the last run written,
and the current run (`segmentCount` ids from `firstId`). -/
structure RepairWalk where
  msg : List NormRepairRequest
  req : NormRepairRequest
  prevForm : Form
  segmentCount : UINT16
  firstId : UINT16

/-- The walk before its first round, on the message `msg` with the request `req`. -/
def RepairWalk.start (msg : List NormRepairRequest) (req : NormRepairRequest) : RepairWalk :=
  ⟨msg, req, .invalid, 0, 0⟩

/-- `switch (segmentCount)`: the form of a run of `segmentCount` ids. -/
def formOf (segmentCount : UINT16) : Form :=
  match segmentCount.val with
  | 0 => .invalid
  | 1 | 2 => .items
  | _ => .ranges

/-- Close the current run, which ends at `currentId`: if its form is not the previous one, pack the
request (unless there was none) and start a new one of this form; then write the run; the count
goes back to zero. `formFirst` is `AppendRepairAdv`'s order, `SetForm` before
`AttachRepairRequest`. -/
def closeRun (formFirst : Bool) (w : RepairWalk) (currentId : UINT16) : RepairWalk :=
  let form := formOf w.segmentCount
  let (msg, req) :=
    if form ≠ w.prevForm then
      (if w.prevForm ≠ .invalid then packRepairRequest w.msg w.req else w.msg,
        if formFirst then (w.req.setForm form).attachRepairRequest
        else w.req.attachRepairRequest.setForm form)
    else (w.msg, w.req)
  let req :=
    match form with
    | .items =>
      if w.segmentCount.val = 2 then (req.appendRepairItem w.firstId).appendRepairItem currentId
      else req.appendRepairItem w.firstId
    | .ranges => req.appendRepairRange w.firstId currentId
    | .invalid | .erasures => req
  { msg := msg, req := req, prevForm := form, segmentCount := 0, firstId := w.firstId }

/-- One round at `currentId`: count it in the current run (which starts at it if the count is
zero), and close the run if `closes`. -/
def visit (formFirst : Bool) (w : RepairWalk) (currentId : UINT16) (closes : Bool) : RepairWalk :=
  let w := { w with
    firstId := if w.segmentCount.val = 0 then currentId else w.firstId
    segmentCount := w.segmentCount + 1 }
  if closes then closeRun formFirst w currentId else w

/-- `while (nextId < endId) { currentId = nextId; if (!GetNext(++nextId)) nextId = endId; ... }`
on the mask the ids come from, for at most `fuel` rounds (`none` when the fuel runs out). The run
closes when `nextId - currentId > 1` or `nextId >= endId`. -/
def repairLoop {n : Nat} (formFirst : Bool) (mask : BitMask n) (endId : UINT16) :
    Nat → UINT16 → RepairWalk → Option RepairWalk
  | 0, _, _ => none
  | fuel + 1, nextId, w =>
    if nextId < endId then
      let found := mask.getNext (nextId + 1)
      let next := if found.1 then found.2 else endId
      repairLoop formFirst mask endId fuel next
        (visit formFirst w nextId (decide ((next.val : Int) - nextId.val > 1 ∨ endId ≤ next)))
    else some w

/-- After the loop: `if (INVALID != prevForm) PackRepairRequest(req)`. -/
def RepairWalk.finish (w : RepairWalk) : List NormRepairRequest :=
  if w.prevForm ≠ .invalid then packRepairRequest w.msg w.req else w.msg

/-- The loop from `nextId` to `endId`, on `65536` rounds (each round moves `nextId` up), and the
final pack. -/
def appendRepairRun {n : Nat} (formFirst : Bool) (mask : BitMask n) (nextId endId : UINT16)
    (msg : List NormRepairRequest) (req : NormRepairRequest) : Option (List NormRepairRequest) :=
  (repairLoop formFirst mask endId 65536 nextId (.start msg req)).map RepairWalk.finish

/-! ### The two callers -/

namespace NormBlock

/-- `AppendRepairAdv(cmd, objectId, repairInfo, numData, segmentSize)`: the ids of `repair_mask`,
from the first one, to the end of the block. -/
def appendRepairAdv (b : NormBlock) (cmd : List NormRepairRequest) (repairInfo : Bool) :
    Option (Bool × List NormRepairRequest) :=
  let req : NormRepairRequest := { NormRepairRequest.new with
    segmentFlag := true, infoFlag := repairInfo }
  match b.repairMask.getNext 0 with
  | (true, nextId) => (appendRepairRun true b.repairMask nextId b.size cmd req).map (true, ·)
  | (false, _) => some (true, cmd)

/-- `while (i--) { nextId++; GetNextPending(nextId); }`: skip `i` pending ids. -/
def skipPending {n : Nat} (pending : BitMask n) : Nat → NormSegmentId → NormSegmentId
  | 0, nextId => nextId
  | i + 1, nextId => skipPending pending i (pending.getNext (nextId + 1)).2

/-- The window `[nextId, endId)` of `AppendRepairRequest`. With more erasures than parity, from the
pending id after the first `numParity` ones to `numData + numParity`; otherwise from the first
pending id at or after `numData` to `numData + erasure_count`. Neither lookup is checked. -/
def repairWindow (b : NormBlock) (numData numParity : UINT16) : NormSegmentId × NormSegmentId :=
  if numParity < b.erasureCount then
    (skipPending b.pendingMask numParity.val (b.pendingMask.getNext 0).2, numData + numParity)
  else ((b.pendingMask.getNext numData).2, numData + b.erasureCount)

/-- `AppendRepairRequest(nack, numData, numParity, objectId, pendingInfo, segmentSize)`: the
pending ids of the window `repairWindow`. -/
def appendRepairRequest (b : NormBlock) (nack : List NormRepairRequest)
    (numData numParity : UINT16) (pendingInfo : Bool) : Option (Bool × List NormRepairRequest) :=
  let req : NormRepairRequest := { NormRepairRequest.new with
    segmentFlag := true, infoFlag := pendingInfo }
  let window := b.repairWindow numData numParity
  (appendRepairRun false b.pendingMask window.1 window.2 nack req).map (true, ·)

/-- The example of §8 (scenario 3): pending ids `3, 7, 8, 9, 10, 15` of a block of `16` data
symbols and no parity, six erasures: `ITEMS 3`, `RANGES 7..10`, `ITEMS 15`. -/
example : ({ blank.initState 20 with
      pendingMask := BitMask.restrict {3, 7, 8, 9, 10, 15}
      erasureCount := 6 } : NormBlock).appendRepairRequest [] 16 0 false =
    some (true, [⟨.items, true, false, [3]⟩, ⟨.ranges, true, false, [7, 10]⟩,
      ⟨.items, true, false, [15]⟩]) := by
  decide

end NormBlock

end NormSegment
