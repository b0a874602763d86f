import NormSegment.BitMask

/-!
# The segment pool

`NormSegmentPool` is a LIFO free list of equally sized payload buffers, threaded through the
buffers themselves. A buffer is identified by its address (`Segment`); its bytes are opaque to
this layer (§3 of the spec), so the model keeps the list of free addresses and the counters.

* `NormSegmentPool.init` first destroys a pool whose free list is not empty, then allocates
  `count` buffers and pushes each one, so the last allocated is the head of the free list.
  Allocation is `new`, which in standard C++ never returns `NULL` (it throws), so the source's
  `NULL` branch is not modelled; `init` draws the addresses from a heap cursor `fresh`, and the
  buffers of one `init` are the addresses `fresh, fresh + 1, ...`.
* `destroy` begins with `ASSERT(seg_count == seg_total)`, the precondition of §4.1 that every
  buffer has come back. As everywhere in this development, a failed `ASSERT` is a call that does
  not complete: `destroy`, and an `init` that calls it, return `none` (`init_isSome`).
* `get` pops the head and records the peak usage; on an empty list it counts one overrun per
  exhaustion episode, `overrun_flag` marking an episode in progress.
* `put` (declared in the header, which is not under `src/`) pushes a buffer back, as §4.1 says.

The free list and `seg_count` are tied together by the field `count_eq`: every operation keeps
`seg_count` equal to the length of the list, so no state breaks it.
-/

namespace NormSegment

/-- A payload buffer, identified by its address. -/
abbrev Segment := Nat

/-- `NormSegmentPool`: the free list `seg_list` (head first) and its counters. -/
structure NormSegmentPool where
  segSize : Nat
  segCount : Nat
  segTotal : Nat
  segList : List Segment
  peakUsage : Nat
  overruns : Nat
  overrunFlag : Bool
  count_eq : segCount = segList.length

namespace NormSegmentPool

/-- The constructor's state: no buffers, counters zero. -/
def empty : NormSegmentPool :=
  ⟨0, 0, 0, [], 0, 0, false, rfl⟩

/-- `Destroy()`: after `ASSERT(seg_count == seg_total)`, free every listed buffer and zero the
counters (`peak_usage`, `overruns` and `overrun_flag` are kept). When a buffer is still out, the
`ASSERT` fails and the call does not complete. -/
def destroy (p : NormSegmentPool) : Option NormSegmentPool :=
  if p.segCount = p.segTotal then
    some { p with segSize := 0, segCount := 0, segTotal := 0, segList := [], count_eq := rfl }
  else none

/-- The buffer size `Init` rounds `size` up to: a whole number of pointers (of eight bytes). -/
def allocSize (size : Nat) : Nat := (size + 7) / 8 * 8

/-- Push the buffers `fresh, fresh + 1, ..., fresh + count - 1`, in that order. -/
def pushFresh (list : List Segment) (fresh : Nat) : Nat → List Segment
  | 0 => list
  | k + 1 => pushFresh (fresh :: list) (fresh + 1) k

/-- `Init(count, size)`, allocating the new buffers from the addresses after `fresh`; it does not
complete when the `Destroy` it calls does not. -/
def init (p : NormSegmentPool) (count size fresh : Nat) : Option NormSegmentPool :=
  (if p.segList ≠ [] then p.destroy else some p).map fun q =>
    let list := pushFresh q.segList fresh count
    { q with
      segSize := allocSize size, segList := list, segCount := list.length, segTotal := list.length
      peakUsage := 0, overruns := 0, count_eq := rfl }

/-- `Get()`: pop the head of the free list, or report exhaustion. -/
def get (p : NormSegmentPool) : Option Segment × NormSegmentPool :=
  match p.segList with
  | s :: rest =>
    let usage := uint32OfInt ((p.segTotal : Int) - rest.length)
    (some s, { p with
      segList := rest, segCount := rest.length, overrunFlag := false
      peakUsage := if p.peakUsage < usage then usage else p.peakUsage, count_eq := rfl })
  | [] =>
    if p.overrunFlag then (none, p)
    else (none, { p with overruns := p.overruns + 1, overrunFlag := true })

/-- `Put(segment)`: push a buffer back onto the free list. -/
def put (p : NormSegmentPool) (s : Segment) : NormSegmentPool :=
  { p with
    segList := s :: p.segList, segCount := p.segCount + 1
    count_eq := by rw [p.count_eq]; rfl }

@[simp] theorem segList_put (p : NormSegmentPool) (s : Segment) :
    (p.put s).segList = s :: p.segList := rfl

@[simp] theorem segTotal_put (p : NormSegmentPool) (s : Segment) :
    (p.put s).segTotal = p.segTotal := rfl

@[simp] theorem segCount_put (p : NormSegmentPool) (s : Segment) :
    (p.put s).segCount = p.segCount + 1 := rfl

theorem pushFresh_eq (list : List Segment) (fresh count : Nat) :
    pushFresh list fresh count = (List.range' fresh count).reverse ++ list := by
  induction count generalizing list fresh with
  | zero => rfl
  | succ k ih =>
    rw [pushFresh, ih, List.range'_succ, List.reverse_cons, List.append_assoc]
    rfl

/-- `Init` completes unless its free list is not empty and a buffer is out. -/
theorem init_isSome (p : NormSegmentPool) (count size fresh : Nat) :
    (p.init count size fresh).isSome =
      (p.segList.isEmpty || decide (p.segCount = p.segTotal)) := by
  by_cases h : p.segList = [] <;> by_cases hc : p.segCount = p.segTotal <;>
    simp [init, destroy, h, hc]

/-- The spec lemma of `Init`: the `count` new buffers, both counters zero, `overrun_flag` as it
was. -/
theorem init_eq_some {p q : NormSegmentPool} {count size fresh : Nat}
    (h : p.init count size fresh = some q) :
    q.segList = (List.range' fresh count).reverse ∧ q.segCount = count ∧ q.segTotal = count ∧
      q.peakUsage = 0 ∧ q.overruns = 0 ∧ q.overrunFlag = p.overrunFlag := by
  unfold init destroy at h
  split_ifs at h <;> (obtain ⟨_, ⟨⟩, rfl⟩ := Option.map_eq_some'.1 h) <;>
    simp_all [pushFresh_eq]

theorem get_of_cons {p : NormSegmentPool} {s : Segment} {rest : List Segment}
    (h : p.segList = s :: rest) :
    (p.get).1 = some s ∧ (p.get).2.segList = rest ∧ (p.get).2.segTotal = p.segTotal := by
  unfold get; split <;> simp_all

theorem get_of_nil {p : NormSegmentPool} (h : p.segList = []) :
    (p.get).1 = none ∧ (p.get).2.segList = [] ∧ (p.get).2.segTotal = p.segTotal := by
  unfold get; split
  · simp_all
  · split <;> simp_all

end NormSegmentPool

end NormSegment
