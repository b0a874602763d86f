import NormSegment.RequestPlan

/-!
# The sender's repair cycle

A sender block goes through `TxReset`, `TxUpdate`, `HandleSegmentRequest` and
`ActivateRepairs` in any order (§5 of the spec), always with the block's own `numData` and
`numParity`. `SenderOp` names the four calls with the arguments that vary, and
`SenderReachable nd np` is the set of states reached from an `Init` that completes by the calls
a sender makes (`SenderOp.Valid`: `autoParity ≤ numParity`, requests for ids of the block).

`SenderInv` is the invariant that makes the parity arithmetic safe: the offset stays at most
`numParity` (so `numParity - parity_offset` does not wrap), no bit beyond the block's symbols is
set, and while fresh parity remains, the fresh ids are clear in both masks. It holds after `Init`
(`senderInv_init`) and every call keeps it (`SenderInv.txReset`, `SenderInv.activateRepairs`,
`SenderInv.txUpdate`, `SenderInv.handleSegmentRequest`). The request lemmas rest on four facts
about the plan of a request (`plan_offset_le`, `plan_fresh_mem`, `plan_fresh_nonempty`,
`plan_cursor`), each read off `requestPlan_cases`.

`txReset_false_iff` says when `TxReset` reports no change: the block then keeps every field but
`repair_mask`, which the comparison leaves empty, so a repair staged there is dropped
(`txReset_drops_staged_repair`).

From the invariant, `plan_increased_iff`: the flag a request returns is exactly "a clear bit was
set" (`SenderInv.txUpdate`, `SenderInv.handleSegmentRequest`).

The second result is about data ids. No call clears a pending data bit
(`SenderOp.pending_data_mono`), and a data id staged in `repair_mask` stays in one of the two masks
until the next `ActivateRepairs` (`runOps_data_held`), which makes it pending, even when a
`TxReset` in between empties `repair_mask`: `TxReset` either marks every data id pending or finds
them all pending already. A data request marks every id it names (`plan_explicit_of_data`),
`TxUpdate` in `pending_mask` and `HandleSegmentRequest` in `repair_mask`, so a requested data id
is pending at once or after the next `ActivateRepairs` (`data_request_marks_range`).
-/

namespace NormSegment

namespace NormBlock

open BitMask

/-! ### The calls of the sender -/

/-- One call of the sender's repair cycle on a block, with the arguments that vary from call to
call. -/
inductive SenderOp
  | txReset (autoParity : UINT16) (parityReady : Bool)
  | txUpdate (nextId lastId erasureCount : NormSegmentId)
  | handleSegmentRequest (nextId lastId erasureCount : NormSegmentId)
  | activateRepairs

/-- Run one call on a block whose `numData` and `numParity` are `nd` and `np`. -/
def SenderOp.run (nd np : UINT16) : SenderOp → NormBlock → Option (Bool × NormBlock)
  | .txReset ap pr, b => some (b.txReset nd np ap pr)
  | .txUpdate i l e, b => b.txUpdate i l nd np e
  | .handleSegmentRequest i l e, b => b.handleSegmentRequest i l nd np e
  | .activateRepairs, b => some b.activateRepairs

/-- The calls a sender makes: `autoParity ≤ numParity`, and requests `nextId ≤ lastId` for ids
of the block. -/
def SenderOp.Valid (nd np : UINT16) : SenderOp → Prop
  | .txReset ap _ => ap.val ≤ np.val
  | .txUpdate i l _ => i.val ≤ l.val ∧ l.val < nd.val + np.val
  | .handleSegmentRequest i l _ => i.val ≤ l.val ∧ l.val < nd.val + np.val
  | .activateRepairs => True

/-- The states of a sender block reached from an `Init` that completes by the calls of its repair
cycle. -/
inductive SenderReachable (nd np : UINT16) : NormBlock → Prop
  | init (b : NormBlock) (totalSize : UINT16) {b' : NormBlock} :
      nd.val + np.val ≤ totalSize.val → b.init totalSize = some b' → SenderReachable nd np b'
  | step {b b' : NormBlock} {r : Bool} (op : SenderOp) :
      SenderReachable nd np b → op.Valid nd np → op.run nd np b = some (r, b') →
      SenderReachable nd np b'

/-- Run a list of calls, keeping the last block. -/
def runOps (nd np : UINT16) : NormBlock → List SenderOp → Option NormBlock
  | b, [] => some b
  | b, op :: ops => (op.run nd np b).bind fun r => runOps nd np r.2 ops

/-! ### Four facts about the plan of a request -/

section Plan

variable {po pc nextId lastId nd np ec : NormSegmentId} {p : RequestPlan}

theorem plan_offset_le (h : requestPlan po pc nextId lastId nd np ec = some p)
    (hpo : po.val ≤ np.val) : p.parityOffset.val ≤ np.val := by
  rcases requestPlan_cases h with ⟨-, -, rfl⟩ | ⟨-, -, -, rfl⟩ | ⟨-, -, -, rfl⟩ |
    ⟨-, -, -, -, rfl⟩ | ⟨-, -, -, -, rfl⟩ <;> simp only [le_refl, hpo]

theorem plan_fresh_mem (h : requestPlan po pc nextId lastId nd np ec = some p)
    (hpo : po.val ≤ np.val) {i : Nat} (hi : i ∈ p.fresh) :
    nd.val + po.val + pc.val ≤ i ∧ i < nd.val + np.val := by
  rcases requestPlan_cases h with ⟨-, -, rfl⟩ | ⟨-, hec, -, rfl⟩ | ⟨-, -, -, rfl⟩ |
    ⟨-, -, -, -, rfl⟩ | ⟨-, -, -, -, rfl⟩ <;>
    simp only [Finset.not_mem_empty, Finset.mem_Ico] at hi <;> omega

theorem plan_fresh_nonempty (h : requestPlan po pc nextId lastId nd np ec = some p)
    (hne : p.fresh.Nonempty) : pc.val < (np - po).val := by
  rcases requestPlan_cases h with ⟨-, -, rfl⟩ | ⟨-, hec, hpc, rfl⟩ | ⟨-, -, -, rfl⟩ |
    ⟨-, -, hpc, -, rfl⟩ | ⟨-, -, -, -, rfl⟩ <;>
    simp only [Finset.not_nonempty_empty] at hne <;> omega

/-- While fresh parity remains after a request, the request kept the offset, only advanced the
count, marked nothing explicitly, and assigned only fresh ids below the new count. -/
theorem plan_cursor (h : requestPlan po pc nextId lastId nd np ec = some p)
    (hrem : p.parityCount.val < (np - p.parityOffset).val) :
    p.parityOffset = po ∧ pc.val ≤ p.parityCount.val ∧ p.explicit = ∅ ∧
      ∀ i ∈ p.fresh, i < nd.val + po.val + p.parityCount.val := by
  rcases requestPlan_cases h with ⟨-, -, rfl⟩ | ⟨-, -, hpc, rfl⟩ | ⟨-, -, -, rfl⟩ |
    ⟨-, -, -, -, rfl⟩ | ⟨-, -, hpc, -, rfl⟩ <;> dsimp only at hrem ⊢
  · omega
  · exact ⟨rfl, by omega, rfl, fun i hi => (Finset.mem_Ico.1 hi).2⟩
  · exact ⟨rfl, le_refl _, rfl, fun i hi => absurd hi (Finset.not_mem_empty i)⟩
  · omega
  · omega

/-- A data request marks `[nextId, lastId]` explicitly. -/
theorem plan_explicit_of_data (h : requestPlan po pc nextId lastId nd np ec = some p)
    (hnext : nextId.val < nd.val) : p.explicit = Finset.Icc nextId.val lastId.val := by
  rcases requestPlan_cases h with ⟨-, -, rfl⟩ | ⟨h1, -⟩ | ⟨h1, -⟩ | ⟨h1, -⟩ | ⟨h1, -⟩
  · rfl
  all_goals omega

theorem plan_explicit_le (h : requestPlan po pc nextId lastId nd np ec = some p) {i : Nat}
    (hi : i ∈ p.explicit) : i ≤ lastId.val := by
  rcases requestPlan_cases h with ⟨-, -, rfl⟩ | ⟨-, -, -, rfl⟩ | ⟨-, -, -, rfl⟩ |
    ⟨-, -, -, -, rfl⟩ | ⟨-, -, -, -, rfl⟩ <;>
    simp only [Finset.not_mem_empty, Finset.mem_Icc] at hi <;> omega

/-- The fresh region a request leaves lies inside the one it found, which was not empty. -/
theorem plan_region_mono (h : requestPlan po pc nextId lastId nd np ec = some p)
    (hrem : p.parityCount.val < (np - p.parityOffset).val) :
    pc.val < (np - po).val ∧ po.val + pc.val ≤ p.parityOffset.val + p.parityCount.val := by
  obtain ⟨hpo, hpc, -, -⟩ := plan_cursor h hrem
  subst hpo; omega

variable {n : Nat} {m : BitMask n}

/-- The mask a request marks stays below `numData + numParity`. -/
theorem plan_apply_lt (h : requestPlan po pc nextId lastId nd np ec = some p)
    (hpo : po.val ≤ np.val) (hlast : lastId.val < nd.val + np.val)
    (hm : ∀ i ∈ m.bits, i < nd.val + np.val) :
    ∀ i ∈ (p.apply m).mask.bits, i < nd.val + np.val := by
  intro i hi
  rcases (mem_apply_mask.1 hi).1 with hi | hi | hi
  exacts [hm i hi, (plan_fresh_mem h hpo hi).2, by have := plan_explicit_le h hi; omega]

/-- The fresh ids a request leaves are clear in the mask it marks. -/
theorem plan_apply_clear (h : requestPlan po pc nextId lastId nd np ec = some p)
    (hclear : pc.val < (np - po).val → ∀ i, nd.val + po.val + pc.val ≤ i →
      i < nd.val + np.val → i ∉ m.bits) :
    p.parityCount.val < (np - p.parityOffset).val → ∀ i,
      nd.val + p.parityOffset.val + p.parityCount.val ≤ i → i < nd.val + np.val →
        i ∉ (p.apply m).mask.bits := by
  intro hrem i h1 h2 hi
  obtain ⟨hpo, -, hexp, hfresh⟩ := plan_cursor h hrem
  obtain ⟨hrem', hle⟩ := plan_region_mono h hrem
  subst hpo
  rcases (mem_apply_mask.1 hi).1 with hi | hi | hi
  · exact hclear hrem' i (by omega) h2 hi
  · have := hfresh i hi; omega
  · simp [hexp] at hi

/-- **The flag of a request is exact**: it is raised just when a clear bit gets set. -/
theorem plan_increased_iff (h : requestPlan po pc nextId lastId nd np ec = some p)
    (hpo : po.val ≤ np.val) (hlast : lastId.val < nd.val + np.val)
    (hfits : nd.val + np.val ≤ n)
    (hclear : pc.val < (np - po).val → ∀ i, nd.val + po.val + pc.val ≤ i →
      i < nd.val + np.val → i ∉ m.bits) :
    (p.apply m).increased = true ↔ ∃ i ∈ (p.apply m).mask.bits, i ∉ m.bits := by
  rw [apply_increased]
  constructor
  · rintro (⟨i, hi⟩ | ⟨i, hi, hm⟩)
    · -- a fresh id: clear, since fresh parity remained
      obtain ⟨h1, h2⟩ := plan_fresh_mem h hpo hi
      exact ⟨i, mem_apply_mask.2 ⟨.inr (.inl hi), by omega⟩,
        hclear (plan_fresh_nonempty h ⟨i, hi⟩) i h1 h2⟩
    · -- an explicit id found clear
      have := plan_explicit_le h hi
      exact ⟨i, mem_apply_mask.2 ⟨.inr (.inr hi), by omega⟩, hm⟩
  · rintro ⟨i, hi, hm⟩
    rcases (mem_apply_mask.1 hi).1 with h' | h' | h'
    exacts [absurd h' hm, .inl ⟨i, h'⟩, .inr ⟨i, h', hm⟩]

end Plan

/-! ### `TxReset` and `ActivateRepairs` -/

/-- **The spec lemma of `TxReset`.** `TxReset` builds the reset pattern over `repair_mask` and
compares it with `pending_mask`. When they differ it installs the pattern in `pending_mask`,
resets the parity cursor and clears `repair_mask`; when they agree it changes only
`repair_mask`, which the comparison leaves empty. -/
theorem txReset_eq (b : NormBlock) (nd np ap : UINT16) (pr : Bool) :
    let k := nd.val + ap.val
    let rest := uint32OfInt ((np.val : Int) - ap.val)
    (b.pendingMask.bits ≠ ((b.repairMask.setBits 0 k).unsetBits k rest).bits ∧
      b.txReset nd np ap pr = (true, { b with
        repairMask := .init, pendingMask := (b.pendingMask.setBits 0 k).unsetBits k rest,
        parityOffset := ap, parityCount := np, inRepair := true,
        erasureCount := if pr then b.erasureCount else 0 })) ∨
    (b.pendingMask.bits = ((b.repairMask.setBits 0 k).unsetBits k rest).bits ∧
      b.txReset nd np ap pr = (false, { b with repairMask := .init })) := by
  intro k rest
  unfold NormBlock.txReset
  dsimp only
  split
  · next hset =>
    refine .inl ⟨fun heq => ?_, rfl⟩
    obtain ⟨j, hj⟩ := isSet_eq_true.1 hset
    rw [mem_xor, heq] at hj
    tauto
  · next hset =>
    simp only [isSet_eq_true, Finset.not_nonempty_iff_eq_empty] at hset
    refine .inr ⟨Finset.ext fun j => ?_, ?_⟩
    · have := Finset.ext_iff.1 hset j
      simp only [mem_xor, Finset.not_mem_empty, iff_false] at this
      tauto
    · congr 2; exact ext (by simpa using hset)

/-- **When `TxReset` reports no change.** With `autoParity ≤ numParity` and the ids
`[0, numData + numParity)` inside the block, `TxReset` returns false exactly when `pending_mask`
holds the reset pattern on those ids (`[0, numData + autoParity)` set, the rest clear) and agrees
with `repair_mask` at every id above them, where the pattern built in `repair_mask` keeps its old
bits. It then changes nothing but `repair_mask`, which it leaves empty. -/
theorem txReset_false_iff {b : NormBlock} {nd np ap : UINT16} (pr : Bool) (hap : ap.val ≤ np.val)
    (hfit : nd.val + np.val ≤ b.size.val) :
    ((b.txReset nd np ap pr).1 = false ↔
      (∀ i < nd.val + np.val, i ∈ b.pendingMask.bits ↔ i < nd.val + ap.val) ∧
      ∀ i, nd.val + np.val ≤ i → (i ∈ b.pendingMask.bits ↔ i ∈ b.repairMask.bits)) ∧
    ((b.txReset nd np ap pr).1 = false →
      (b.txReset nd np ap pr).2 = { b with repairMask := .init }) := by
  have hrest : uint32OfInt ((np.val : Int) - ap.val) = np.val - ap.val := by
    unfold uint32OfInt; omega
  -- the pattern `TxReset` builds over `repair_mask`
  have hpat : ∀ i, i ∈ ((b.repairMask.setBits 0 (nd.val + ap.val)).unsetBits (nd.val + ap.val)
      (uint32OfInt ((np.val : Int) - ap.val))).bits ↔
      (i < nd.val + np.val ∧ i < nd.val + ap.val) ∨
        (nd.val + np.val ≤ i ∧ i ∈ b.repairMask.bits) := by
    intro i
    have := b.repairMask.lt i
    simp only [mem_unsetBits, mem_setBits, hrest]
    by_cases hm : i ∈ b.repairMask.bits <;>
      simp only [hm, true_or, false_or, and_true, and_false, or_false, true_and] <;> omega
  have hiff : b.pendingMask.bits = ((b.repairMask.setBits 0 (nd.val + ap.val)).unsetBits
      (nd.val + ap.val) (uint32OfInt ((np.val : Int) - ap.val))).bits ↔
      (∀ i < nd.val + np.val, i ∈ b.pendingMask.bits ↔ i < nd.val + ap.val) ∧
      ∀ i, nd.val + np.val ≤ i → (i ∈ b.pendingMask.bits ↔ i ∈ b.repairMask.bits) := by
    simp only [Finset.ext_iff, hpat]
    constructor
    · intro h
      refine ⟨fun i hi => ?_, fun i hi => ?_⟩ <;> rw [h i]
      · simp [hi, Nat.not_le.2 hi]
      · simp [hi, Nat.not_lt.2 hi]
    · rintro ⟨hlo, hhi⟩ i
      by_cases hi : i < nd.val + np.val
      · rw [hlo i hi]; simp [hi, Nat.not_le.2 hi]
      · rw [hhi i (Nat.not_lt.1 hi)]; simp [hi, Nat.not_lt.1 hi]
  rcases txReset_eq b nd np ap pr with ⟨hne, heq⟩ | ⟨hpe, heq⟩ <;> rw [heq]
  · exact ⟨iff_of_false Bool.noConfusion (mt hiff.2 hne), fun h => absurd h Bool.noConfusion⟩
  · exact ⟨iff_of_true rfl (hiff.1 hpe), fun _ => rfl⟩

/-- The second `TxReset(10, 4, 2)` of a block of `14` symbols finds the reset pattern pending,
returns false, and changes nothing but the already empty `repair_mask`. -/
theorem txReset_false_iff_second_reset :
    (((blank.initState 14).txReset 10 4 2 true).2.txReset 10 4 2 true).1 = false ∧
      (((blank.initState 14).txReset 10 4 2 true).2.txReset 10 4 2 true).2 =
        { ((blank.initState 14).txReset 10 4 2 true).2 with repairMask := .init } :=
  ⟨by decide, (txReset_false_iff true (by decide) (by decide)).2 (by decide)⟩

/-- **`TxReset` drops a staged repair.** After a first `TxReset(10, 4, 2)` of a block of `14`
symbols, `HandleSegmentRequest(12, 12, 10, 4, 3)` stages parity id `12` in `repair_mask`. A second
`TxReset(10, 4, 2)` finds `pending_mask` already reset and returns false, but leaves
`repair_mask` empty: the staged repair is gone before `ActivateRepairs` can commit it. -/
theorem txReset_drops_staged_repair :
    ∃ b, ((blank.initState 14).txReset 10 4 2 true).2.handleSegmentRequest 12 12 10 4 3 =
        some (true, b) ∧ b.repairMask.bits = {12} ∧ (b.txReset 10 4 2 true).1 = false ∧
      (b.txReset 10 4 2 true).2.repairMask.bits = ∅ :=
  ⟨_, rfl, by decide, by decide, by decide⟩

/-- **The spec lemma of `ActivateRepairs`**: a non-empty `repair_mask` is added to
`pending_mask` and cleared; an empty one changes nothing. -/
theorem activateRepairs_eq (b : NormBlock) :
    (b.repairMask.bits.Nonempty ∧ b.activateRepairs =
      (true, { b with pendingMask := b.pendingMask.add b.repairMask, repairMask := .init })) ∨
    (b.repairMask.bits = ∅ ∧ b.activateRepairs = (false, b)) := by
  unfold NormBlock.activateRepairs
  split
  · exact .inl ⟨isSet_eq_true.1 ‹_›, rfl⟩
  · next hset =>
    simp only [isSet_eq_true, Finset.not_nonempty_iff_eq_empty] at hset
    exact .inr ⟨hset, rfl⟩

/-! ### The invariant -/

/-- **The sender invariant** of a block with `numData = nd` and `numParity = np`. -/
structure SenderInv (nd np : UINT16) (b : NormBlock) : Prop where
  fits : nd.val + np.val ≤ b.size.val
  offset_le : b.parityOffset.val ≤ np.val
  pending_lt : ∀ i ∈ b.pendingMask.bits, i < nd.val + np.val
  repair_lt : ∀ i ∈ b.repairMask.bits, i < nd.val + np.val
  fresh_clear : b.parityCount.val < (np - b.parityOffset).val →
    ∀ i, nd.val + b.parityOffset.val + b.parityCount.val ≤ i → i < nd.val + np.val →
      i ∉ b.pendingMask.bits ∧ i ∉ b.repairMask.bits

variable {nd np : UINT16} {b b' : NormBlock} {r : Bool}

theorem senderInv_init {totalSize : UINT16} (h : nd.val + np.val ≤ totalSize.val)
    (hinit : b.init totalSize = some b') : SenderInv nd np b' := by
  obtain rfl := init_eq_some hinit
  exact ⟨h, Nat.zero_le _, by simp [initState], by simp [initState],
    fun _ _ _ _ => by simp [initState]⟩

/-- `numParity - parity_offset` does not wrap. -/
theorem SenderInv.available_val (hb : SenderInv nd np b) :
    (np - b.parityOffset).val = np.val - b.parityOffset.val := by
  have := hb.offset_le; omega

theorem SenderInv.txReset {ap : UINT16} (pr : Bool) (hap : ap.val ≤ np.val)
    (hb : SenderInv nd np b) : SenderInv nd np (b.txReset nd np ap pr).2 := by
  have hrest : uint32OfInt ((np.val : Int) - ap.val) = np.val - ap.val := by
    unfold uint32OfInt; omega
  rcases txReset_eq b nd np ap pr with ⟨-, heq⟩ | ⟨-, heq⟩ <;> rw [heq]
  · refine ⟨hb.fits, hap, fun i hi => ?_, by simp, fun h => by dsimp only at h; omega⟩
    simp only [mem_unsetBits, mem_setBits, hrest] at hi
    rcases hi with ⟨hi | hi, hk⟩
    · have := hb.pending_lt i hi; omega
    · omega
  · exact ⟨hb.fits, hb.offset_le, hb.pending_lt, by simp,
      fun h i h1 h2 => ⟨(hb.fresh_clear h i h1 h2).1, by simp⟩⟩

theorem SenderInv.activateRepairs (hb : SenderInv nd np b) :
    SenderInv nd np b.activateRepairs.2 := by
  rcases activateRepairs_eq b with ⟨-, heq⟩ | ⟨-, heq⟩ <;> rw [heq]
  · refine ⟨hb.fits, hb.offset_le, fun i hi => ?_, by simp, fun h i h1 h2 => ?_⟩
    · rcases mem_add.1 hi with hi | hi
      exacts [hb.pending_lt i hi, hb.repair_lt i hi]
    · have := hb.fresh_clear h i h1 h2
      simp only [mem_add, bits_init, Finset.not_mem_empty, not_false_eq_true, and_true]
      tauto
  · exact hb

/-- `TxUpdate` keeps the invariant, and returns `true` exactly when it sets a clear bit of
`pending_mask`. -/
theorem SenderInv.txUpdate {nextId lastId ec : NormSegmentId} (hb : SenderInv nd np b)
    (hlast : lastId.val < nd.val + np.val) (h : b.txUpdate nextId lastId nd np ec = some (r, b')) :
    SenderInv nd np b' ∧ (r = true ↔ ∃ i ∈ b'.pendingMask.bits, i ∉ b.pendingMask.bits) := by
  rw [txUpdate_eq] at h
  obtain ⟨p, hp, hpe⟩ := Option.map_eq_some'.1 h
  cases hpe
  have hclear := fun hrem i h1 h2 => (hb.fresh_clear hrem i h1 h2).1
  refine ⟨⟨hb.fits, plan_offset_le hp hb.offset_le,
    plan_apply_lt hp hb.offset_le hlast hb.pending_lt, hb.repair_lt, fun hrem i h1 h2 => ?_⟩,
    plan_increased_iff hp hb.offset_le hlast hb.fits hclear⟩
  obtain ⟨hrem', hle⟩ := plan_region_mono hp hrem
  dsimp only at h1
  exact ⟨plan_apply_clear hp hclear hrem i h1 h2,
    (hb.fresh_clear hrem' i (by omega) h2).2⟩

/-- `HandleSegmentRequest` keeps the invariant, and returns `true` exactly when it sets a clear
bit of `repair_mask`. -/
theorem SenderInv.handleSegmentRequest {nextId lastId ec : NormSegmentId}
    (hb : SenderInv nd np b) (hlast : lastId.val < nd.val + np.val)
    (h : b.handleSegmentRequest nextId lastId nd np ec = some (r, b')) :
    SenderInv nd np b' ∧ (r = true ↔ ∃ i ∈ b'.repairMask.bits, i ∉ b.repairMask.bits) := by
  rw [handleSegmentRequest_eq] at h
  obtain ⟨p, hp, hpe⟩ := Option.map_eq_some'.1 h
  cases hpe
  have hclear := fun hrem i h1 h2 => (hb.fresh_clear hrem i h1 h2).2
  refine ⟨⟨hb.fits, plan_offset_le hp hb.offset_le, hb.pending_lt,
    plan_apply_lt hp hb.offset_le hlast hb.repair_lt, fun hrem i h1 h2 => ?_⟩,
    plan_increased_iff hp hb.offset_le hlast hb.fits hclear⟩
  obtain ⟨hrem', hle⟩ := plan_region_mono hp hrem
  dsimp only at h1
  exact ⟨(hb.fresh_clear hrem' i (by omega) h2).1,
    plan_apply_clear hp hclear hrem i h1 h2⟩

/-- Every call of the repair cycle keeps the invariant. -/
theorem SenderInv.run {op : SenderOp} (hb : SenderInv nd np b) (hop : op.Valid nd np)
    (h : op.run nd np b = some (r, b')) : SenderInv nd np b' := by
  cases op with
  | txReset ap pr =>
    obtain rfl := congrArg Prod.snd (Option.some.inj h)
    exact hb.txReset pr hop
  | txUpdate i l e => exact (hb.txUpdate hop.2 h).1
  | handleSegmentRequest i l e => exact (hb.handleSegmentRequest hop.2 h).1
  | activateRepairs =>
    obtain rfl := congrArg Prod.snd (Option.some.inj h)
    exact hb.activateRepairs

theorem SenderReachable.senderInv (h : SenderReachable nd np b) : SenderInv nd np b := by
  induction h with
  | init b _ hfit hinit => exact senderInv_init hfit hinit
  | step op _ hop hrun ih => exact ih.run hop hrun

/-- **The sender's repair state stays consistent.** In every state a sender block reaches
from `Init`: the invariant holds (so `numParity - parity_offset` does not wrap), and a request
for ids of the block returns, with `true` exactly when it sets a bit of the mask it marks that
was clear. -/
theorem sender_state_consistent (h : SenderReachable nd np b) :
    SenderInv nd np b ∧ (np - b.parityOffset).val = np.val - b.parityOffset.val ∧
    (∀ nextId lastId ec : NormSegmentId, lastId.val < nd.val + np.val →
      ∃ r b', b.txUpdate nextId lastId nd np ec = some (r, b') ∧
        (r = true ↔ ∃ i ∈ b'.pendingMask.bits, i ∉ b.pendingMask.bits)) ∧
    (∀ nextId lastId ec : NormSegmentId, lastId.val < nd.val + np.val →
      ∃ r b', b.handleSegmentRequest nextId lastId nd np ec = some (r, b') ∧
        (r = true ↔ ∃ i ∈ b'.repairMask.bits, i ∉ b.repairMask.bits)) := by
  have hb := h.senderInv
  -- every request for ids of the block has a plan, so both operations return
  have hplan (nextId lastId ec : NormSegmentId) (hlast : lastId.val < nd.val + np.val) :
      ∃ p, requestPlan b.parityOffset b.parityCount nextId lastId nd np ec = some p :=
    Option.isSome_iff_exists.1 (requestPlan_isSome (by have := hb.fits; have := b.size.isLt; omega))
  refine ⟨hb, hb.available_val, fun nextId lastId ec hlast => ?_, fun nextId lastId ec hlast => ?_⟩
  · obtain ⟨p, hp⟩ := hplan nextId lastId ec hlast
    have hrun := txUpdate_eq b nextId lastId nd np ec
    rw [hp, Option.map_some'] at hrun
    exact ⟨_, _, hrun, (hb.txUpdate hlast hrun).2⟩
  · obtain ⟨p, hp⟩ := hplan nextId lastId ec hlast
    have hrun := handleSegmentRequest_eq b nextId lastId nd np ec
    rw [hp, Option.map_some'] at hrun
    exact ⟨_, _, hrun, (hb.handleSegmentRequest hlast hrun).2⟩

/-- After `Init(14)`, `TxReset(10, 4, 2)` and `HandleSegmentRequest(12, 12, 10, 4, 3)`, which
stages parity id `12`, a data request `HandleSegmentRequest(3, 5, 10, 4, 0)` returns, its flag
telling whether it set a clear bit. -/
theorem sender_state_consistent_after_staged_request :
    ∃ b, SenderReachable 10 4 b ∧ b.repairMask.bits = {12} ∧
      ∃ r b', b.handleSegmentRequest 3 5 10 4 0 = some (r, b') ∧
        (r = true ↔ ∃ i ∈ b'.repairMask.bits, i ∉ b.repairMask.bits) := by
  have h₀ : SenderReachable 10 4 (blank.initState 14) := .init blank 14 (by decide) (blank_init 14)
  have h := (h₀.step (.txReset 2 true) (by unfold SenderOp.Valid; decide) rfl).step
    (.handleSegmentRequest 12 12 3) (by unfold SenderOp.Valid; decide) rfl
  exact ⟨_, h, by decide, (sender_state_consistent h).2.2.2 3 5 0 (by decide)⟩

/-! ### Data ids are never dropped -/

/-- No call of the repair cycle clears a pending data bit. -/
theorem SenderOp.pending_data_mono (op : SenderOp) (h : op.run nd np b = some (r, b'))
    {i : Nat} (hi : i < nd.val) (hp : i ∈ b.pendingMask.bits) : i ∈ b'.pendingMask.bits := by
  have hn := b.pendingMask.lt i hp
  cases op with
  | txReset ap pr =>
    obtain rfl := congrArg Prod.snd (Option.some.inj h)
    rcases txReset_eq b nd np ap pr with ⟨-, heq⟩ | ⟨-, heq⟩ <;> rw [heq]
    · simp only [mem_unsetBits, mem_setBits]; omega
    · exact hp
  | txUpdate j l e =>
    rw [SenderOp.run, txUpdate_eq] at h
    obtain ⟨p, -, hpe⟩ := Option.map_eq_some'.1 h
    cases hpe
    exact mem_apply_mask.2 ⟨.inl hp, hn⟩
  | handleSegmentRequest j l e =>
    rw [SenderOp.run, handleSegmentRequest_eq] at h
    obtain ⟨p, -, hpe⟩ := Option.map_eq_some'.1 h
    cases hpe
    exact hp
  | activateRepairs =>
    obtain rfl := congrArg Prod.snd (Option.some.inj h)
    rcases activateRepairs_eq b with ⟨-, heq⟩ | ⟨-, heq⟩ <;> rw [heq]
    · exact mem_add.2 (.inl hp)
    · exact hp

/-- A data id held in either mask stays held through every call but `ActivateRepairs`. A
`TxReset` that finds nothing to change empties `repair_mask`, but then `pending_mask` already
equals its reset pattern, which holds every data id. -/
theorem SenderOp.data_held (op : SenderOp) (hop : op ≠ .activateRepairs)
    (h : op.run nd np b = some (r, b')) {i : Nat} (hi : i < nd.val)
    (hh : i ∈ b.repairMask.bits ∨ i ∈ b.pendingMask.bits) :
    i ∈ b'.repairMask.bits ∨ i ∈ b'.pendingMask.bits := by
  have hn : i < b.size.val := hh.elim (b.repairMask.lt i) (b.pendingMask.lt i)
  cases op with
  | txReset ap pr =>
    obtain rfl := congrArg Prod.snd (Option.some.inj h)
    rcases txReset_eq b nd np ap pr with ⟨-, heq⟩ | ⟨hpat, heq⟩ <;> rw [heq]
    · exact .inr (by simp only [mem_unsetBits, mem_setBits]; omega)
    · -- nothing changed: `pending_mask` is the pattern, which holds every data id
      refine .inr (hh.elim (fun hr => ?_) fun hp => hp)
      rw [hpat]
      simp only [mem_unsetBits, mem_setBits]
      omega
  | txUpdate j l e =>
    rw [SenderOp.run, txUpdate_eq] at h
    obtain ⟨p, -, hpe⟩ := Option.map_eq_some'.1 h
    cases hpe
    exact hh.imp (fun hr => hr) fun hp => mem_apply_mask.2 ⟨.inl hp, hn⟩
  | handleSegmentRequest j l e =>
    rw [SenderOp.run, handleSegmentRequest_eq] at h
    obtain ⟨p, -, hpe⟩ := Option.map_eq_some'.1 h
    cases hpe
    exact hh.imp (fun hr => mem_apply_mask.2 ⟨.inl hr, hn⟩) fun hp => hp
  | activateRepairs => exact absurd rfl hop

theorem runOps_data_held {i : Nat} (hi : i < nd.val) :
    ∀ (ops : List SenderOp) (b b' : NormBlock), (∀ op ∈ ops, op ≠ .activateRepairs) →
      runOps nd np b ops = some b' →
      (i ∈ b.repairMask.bits ∨ i ∈ b.pendingMask.bits) →
      i ∈ b'.repairMask.bits ∨ i ∈ b'.pendingMask.bits
  | [], b, b', _, h, hh => by cases h; exact hh
  | op :: ops, b, b', hops, h, hh => by
    obtain ⟨⟨r, b₁⟩, h₁, h₂⟩ := Option.bind_eq_some.1 h
    exact runOps_data_held hi ops b₁ b' (fun o ho => hops o (List.mem_cons_of_mem _ ho)) h₂
      ((op.data_held (hops op (List.mem_cons_self _ _)) h₁ hi hh))

theorem runOps_append (b : NormBlock) (ops ops' : List SenderOp) :
    runOps nd np b (ops ++ ops') = (runOps nd np b ops).bind fun b₁ => runOps nd np b₁ ops' := by
  induction ops generalizing b with
  | nil => rfl
  | cons op ops ih =>
    simp only [List.cons_append, runOps, Option.bind_assoc, List.append_eq, ih]

/-- A data id held in either mask is pending after the next `ActivateRepairs`. -/
theorem runOps_activate_pending {i : Nat} (hi : i < nd.val) {ops : List SenderOp}
    (hops : ∀ op ∈ ops, op ≠ .activateRepairs)
    (h : runOps nd np b (ops ++ [.activateRepairs]) = some b')
    (hh : i ∈ b.repairMask.bits ∨ i ∈ b.pendingMask.bits) : i ∈ b'.pendingMask.bits := by
  rw [runOps_append] at h
  obtain ⟨b₁, h₁, h₂⟩ := Option.bind_eq_some.1 h
  have hh₁ := runOps_data_held hi ops b b₁ hops h₁ hh
  simp only [runOps, SenderOp.run, Option.some_bind, Option.some.injEq] at h₂
  subst h₂
  rcases activateRepairs_eq b₁ with ⟨-, heq⟩ | ⟨hempty, heq⟩ <;> rw [heq]
  · exact mem_add.2 hh₁.symm
  · exact hh₁.resolve_left (by simp [hempty])

/-- **No data repair is dropped.** No call of the repair cycle clears a pending data bit, and a
data id staged in `repair_mask` is pending after the next `ActivateRepairs`, whatever `TxReset`,
`TxUpdate` and `HandleSegmentRequest` calls come in between. -/
theorem data_repair_never_dropped (nd np : UINT16) :
    (∀ (op : SenderOp) (b b' : NormBlock) (r : Bool), op.run nd np b = some (r, b') →
      ∀ i < nd.val, i ∈ b.pendingMask.bits → i ∈ b'.pendingMask.bits) ∧
    (∀ (ops : List SenderOp) (b b' : NormBlock), (∀ op ∈ ops, op ≠ .activateRepairs) →
      runOps nd np b (ops ++ [.activateRepairs]) = some b' →
      ∀ i < nd.val, i ∈ b.repairMask.bits → i ∈ b'.pendingMask.bits) := by
  exact ⟨fun op b b' r h i hi hp => op.pending_data_mono h hi hp,
    fun ops b b' hops h i hi hr => runOps_activate_pending hi hops h (.inl hr)⟩

/-- **A data request marks the ids it names.** A request whose first id is a data id and whose
last id is below `65535` returns. Every id of `[nextId, lastId]` in the block is then marked:
`TxUpdate` sets it in `pending_mask`, and `HandleSegmentRequest` in `repair_mask`, from where a
data id is pending after the next `ActivateRepairs`, whatever `TxReset`, `TxUpdate` and
`HandleSegmentRequest` calls come in between. -/
theorem data_request_marks_range {nextId lastId ec : NormSegmentId} (hnext : nextId.val < nd.val)
    (hlast : lastId.val < 65535) :
    (∃ r b', b.txUpdate nextId lastId nd np ec = some (r, b') ∧
      ∀ i, nextId.val ≤ i → i ≤ lastId.val → i < b.size.val → i ∈ b'.pendingMask.bits) ∧
    (∃ r b', b.handleSegmentRequest nextId lastId nd np ec = some (r, b') ∧
      ∀ i, nextId.val ≤ i → i ≤ lastId.val → i < b.size.val → i ∈ b'.repairMask.bits ∧
        (i < nd.val → ∀ (ops : List SenderOp) (b'' : NormBlock),
          (∀ op ∈ ops, op ≠ .activateRepairs) →
            runOps nd np b' (ops ++ [.activateRepairs]) = some b'' →
              i ∈ b''.pendingMask.bits)) := by
  obtain ⟨p, hp⟩ : ∃ p, requestPlan b.parityOffset b.parityCount nextId lastId nd np ec = some p :=
    Option.isSome_iff_exists.1 (requestPlan_isSome hlast)
  -- the plan marks `[nextId, lastId]`, whatever mask it is applied to
  have hmark (n : Nat) (m : BitMask n) (i : Nat) (h1 : nextId.val ≤ i) (h2 : i ≤ lastId.val)
      (h3 : i < n) : i ∈ (p.apply m).mask.bits :=
    mem_apply_mask.2 ⟨.inr (.inr (plan_explicit_of_data hp hnext ▸ Finset.mem_Icc.2 ⟨h1, h2⟩)), h3⟩
  have hup := txUpdate_eq b nextId lastId nd np ec
  have hsr := handleSegmentRequest_eq b nextId lastId nd np ec
  rw [hp, Option.map_some'] at hup hsr
  refine ⟨⟨_, _, hup, fun i h1 h2 h3 => hmark _ _ i h1 h2 h3⟩,
    ⟨_, _, hsr, fun i h1 h2 h3 => ⟨hmark _ _ i h1 h2 h3, fun hi ops b'' hops h => ?_⟩⟩⟩
  exact runOps_activate_pending hi hops h (.inl (hmark _ _ i h1 h2 h3))

/-- The data request `(3, 5)` on a block of `14` symbols stages id `4` in `repair_mask`; after a
`TxReset(10, 4, 2)` and an `ActivateRepairs` it is pending. -/
theorem data_request_marks_three_ids :
    ∃ r b', (blank.initState 14).handleSegmentRequest 3 5 10 4 0 = some (r, b') ∧
      4 ∈ b'.repairMask.bits ∧
        ∀ b'', runOps 10 4 b' [.txReset 2 true, .activateRepairs] = some b'' →
          4 ∈ b''.pendingMask.bits := by
  obtain ⟨r, b', h, hmark⟩ := (@data_request_marks_range 10 4 (blank.initState 14) 3 5 0
    (by decide) (by decide)).2
  exact ⟨r, b', h, (hmark 4 (by decide) (by decide) (by decide)).1, fun b'' hrun =>
    (hmark 4 (by decide) (by decide) (by decide)).2 (by decide) [.txReset 2 true] b''
      (by simp) hrun⟩

end NormBlock

end NormSegment
