import NormSegment.Block

/-!
# What a segment request does

`segmentRequest` is the body of both `TxUpdate` and `HandleSegmentRequest`. Whatever mask it is
run on, the ids it marks, the parity cursor it leaves and whether it returns at all depend only
on the cursor and the request; only the returned flag reads the mask. `RequestPlan` records that
mask-free part and `requestPlan` computes it, branch for branch:

* an explicit data request marks `[nextId, lastId]` and moves the cursor to `numParity`;
* a parity request the fresh parity covers marks the fresh ids
  `[numData + parity_offset + parity_count, numData + parity_offset + erasureCount)`;
* a larger parity request first marks all remaining fresh parity, then `[nextId + parityAvailable,
  lastId]` explicitly (sixteen-bit addition), or `[nextId, lastId]` when no fresh parity is left.

`segmentRequest_eq` is the spec lemma: the request is its plan applied to the mask
(`RequestPlan.apply`). The loop lemmas behind it are `markLoop_spec`, the result of a loop that
exits, and `markLoop_lastId_max`, the loop that does not. `requestPlan_cases` lists the plans a
request can have, with the conditions of its branch; the invariants of `NormSegment.Sender` are
proved from it alone.

`requestPlan_isSome_iff` says when a request returns: `TxUpdate` and `HandleSegmentRequest`
complete exactly when `lastId` is below `65535` or the fresh parity covers the request
(`segmentRequests_return_iff`); a NACK naming the largest id hangs both
(`explicit_repair_hangs_at_last_id`).
-/

namespace NormSegment

namespace BitMask

variable {n : Nat} {m : BitMask n} {s c : Nat}

@[simp] theorem restrict_bits (m : BitMask n) : restrict m.bits = m :=
  ext (Finset.ext fun _ => by simp only [mem_restrict, and_iff_left_iff_imp]; exact m.lt _)

theorem setBits_eq_restrict : m.setBits s c = restrict (m.bits ∪ Finset.Ico s (s + c)) := rfl

end BitMask

namespace NormBlock

open BitMask

variable {n : Nat} {fuel : Nat} {nextId lastId : NormSegmentId} {inc : Bool}

/-- The explicit-repair loop never exits when `lastId` is the largest id: every `nextId` is
`<= lastId`, and `nextId++` wraps to `0`. -/
theorem markLoop_lastId_max (h : lastId.val = 65535) :
    ∀ (fuel : Nat) (nextId : NormSegmentId) (m : BitMask n) (inc : Bool),
      markLoop fuel nextId lastId m inc = none
  | 0, _, _, _ => rfl
  | fuel + 1, nextId, m, inc => by
    have hle : nextId ≤ lastId := by rw [Fin.le_def]; omega
    simp only [markLoop, if_pos hle]
    split <;> exact markLoop_lastId_max h fuel _ _ _

/-- With enough fuel, the explicit-repair loop sets `[nextId, lastId]` and raises its flag when
one of those ids was clear. -/
theorem markLoop_spec (hlast : lastId.val < 65535) :
    ∀ (fuel : Nat) (nextId : NormSegmentId) (m : BitMask n) (inc : Bool),
      lastId.val + 1 - nextId.val < fuel →
      markLoop fuel nextId lastId m inc =
        some (restrict (m.bits ∪ Finset.Icc nextId.val lastId.val),
          decide (inc = true ∨ ∃ i ∈ Finset.Icc nextId.val lastId.val, i ∉ m.bits))
  | 0, _, _, _, h => absurd h (Nat.not_lt_zero _)
  | fuel + 1, nextId, m, inc, hfuel => by
    simp only [markLoop]
    by_cases hle : nextId ≤ lastId
    · rw [if_pos hle]
      rw [Fin.le_def] at hle
      have hsucc : (nextId + 1).val = nextId.val + 1 := by omega
      have hIcc : Finset.Icc nextId.val lastId.val =
          insert nextId.val (Finset.Icc (nextId + 1).val lastId.val) := by
        rw [hsucc, Nat.Icc_insert_succ_left hle]
      rw [markLoop_spec hlast fuel _ _ _ (by omega), markLoop_spec hlast fuel _ _ _ (by omega)]
      simp only [hIcc, Finset.union_insert, Finset.exists_mem_insert]
      split
      · -- `nextId` already set: nothing changes at this id
        next hm =>
        rw [test_eq_true] at hm
        rw [Finset.insert_eq_of_mem (Finset.mem_union_left _ hm)]
        simp only [hm, not_true_eq_false, false_or]
      · -- `nextId` clear: set it and raise the flag
        next hm =>
        rw [test_eq_true] at hm
        simp only [hm, not_false_eq_true, true_or, or_true, Option.some.injEq, Prod.mk.injEq,
          and_true]
        refine ext (Finset.ext fun i => ?_)
        simp only [mem_restrict, mem_set, Finset.mem_union, Finset.mem_insert, Finset.mem_Icc,
          hsucc]
        constructor
        · rintro ⟨(h | ⟨rfl, -⟩) | h, hi⟩ <;> simp [*]
        · rintro ⟨rfl | h | h, hi⟩ <;> simp [*]
    · rw [if_neg hle]
      rw [Fin.le_def, not_le] at hle
      have hempty : Finset.Icc nextId.val lastId.val = ∅ := Finset.Icc_eq_empty (by omega)
      simp only [hempty, Finset.union_empty, restrict_bits, Finset.not_mem_empty, false_and,
        exists_false, or_false]
      cases inc <;> rfl

/-- `markRange`, whose fuel covers every loop that exits. -/
theorem markRange_spec {m : BitMask n} (hlast : lastId.val < 65535) :
    markRange nextId lastId m inc =
      some (restrict (m.bits ∪ Finset.Icc nextId.val lastId.val),
        decide (inc = true ∨ ∃ i ∈ Finset.Icc nextId.val lastId.val, i ∉ m.bits)) :=
  markLoop_spec hlast _ _ _ _ (by omega)

/-! ### The plan of a request -/

/-- The mask-free part of a segment request: the fresh parity ids it assigns, the ids it marks
explicitly, and the parity cursor it leaves. -/
structure RequestPlan where
  fresh : Finset Nat
  explicit : Finset Nat
  parityOffset : UINT16
  parityCount : UINT16

/-- A plan run on a mask: it marks `fresh ∪ explicit`, and reports an increase when it assigns
fresh parity or finds one of its explicit ids clear. -/
def RequestPlan.apply (p : RequestPlan) (m : BitMask n) : RequestEffect n :=
  ⟨decide (p.fresh.Nonempty ∨ ∃ i ∈ p.explicit, i ∉ m.bits),
    restrict (m.bits ∪ p.fresh ∪ p.explicit), p.parityOffset, p.parityCount⟩

/-- The ids `[a, lastId]` of an explicit-repair loop from `a`; `none` when the loop never exits. -/
def explicitIds (a lastId : NormSegmentId) : Option (Finset Nat) :=
  if lastId.val = 65535 then none else some (Finset.Icc a.val lastId.val)

/-- The plan of the request `(nextId, lastId, erasureCount)` from the cursor
`(parityOffset, parityCount)`, by the branches of `segmentRequest`. -/
def requestPlan (parityOffset parityCount nextId lastId numData numParity erasureCount :
    NormSegmentId) : Option RequestPlan :=
  let fresh (count : UINT16) :=
    Finset.Ico (numData.val + parityOffset.val + parityCount.val)
      (numData.val + parityOffset.val + count.val)
  if nextId < numData then
    (explicitIds nextId lastId).map fun e => ⟨∅, e, numParity, numParity⟩
  else
    let parityAvailable := numParity - parityOffset
    if erasureCount ≤ parityAvailable then
      if parityCount < erasureCount then
        some ⟨fresh erasureCount, ∅, parityOffset, erasureCount⟩
      else some ⟨∅, ∅, parityOffset, parityCount⟩
    else if parityCount < parityAvailable then
      (explicitIds (nextId + parityAvailable) lastId).map
        fun e => ⟨fresh parityAvailable, e, parityOffset, parityAvailable⟩
    else
      (explicitIds nextId lastId).map fun e => ⟨∅, e, parityOffset, parityCount⟩

/-- An explicit-repair loop from `a` is `explicitIds a lastId`. -/
theorem markRange_eq_explicitIds {m : BitMask n} (a : NormSegmentId) :
    markRange a lastId m inc = (explicitIds a lastId).map fun e =>
      (restrict (m.bits ∪ e), decide (inc = true ∨ ∃ i ∈ e, i ∉ m.bits)) := by
  unfold explicitIds
  split
  · exact markLoop_lastId_max (by assumption) _ _ _ _
  · exact markRange_spec (by omega)

/-- **The spec lemma of `segmentRequest`**: a request is its plan applied to the mask. -/
theorem segmentRequest_eq (m : BitMask n)
    (parityOffset parityCount nextId lastId numData numParity erasureCount : NormSegmentId) :
    segmentRequest m parityOffset parityCount nextId lastId numData numParity erasureCount =
      (requestPlan parityOffset parityCount nextId lastId numData numParity erasureCount).map
        (·.apply m) := by
  unfold segmentRequest requestPlan
  dsimp only
  split_ifs with hdata hfits hfresh hrest
  · -- explicit data repair request
    rw [markRange_eq_explicitIds, Option.map_map, Option.map_map]
    congr 1; funext e
    simp [RequestPlan.apply]
  · -- fresh parity for repair
    rw [Fin.lt_def] at hfresh
    have hsub : (erasureCount - parityCount).val = erasureCount.val - parityCount.val := by
      omega
    have hne : (Finset.Ico (numData.val + parityOffset.val + parityCount.val)
        (numData.val + parityOffset.val + erasureCount.val)).Nonempty :=
      Finset.nonempty_Ico.2 (by omega)
    simp only [Option.map_some', RequestPlan.apply, setBits_eq_restrict, hne, true_or,
      decide_True, Finset.union_empty, Option.some.injEq, RequestEffect.mk.injEq, and_true,
      true_and]
    congr 3; omega
  · simp [RequestPlan.apply]
  · -- remaining fresh parity, then explicit repair for the rest
    rw [markRange_eq_explicitIds, Option.map_map, Option.map_map]
    congr 1; funext e
    rw [Fin.lt_def] at hrest
    have hsub : ((numParity - parityOffset) - parityCount).val =
        (numParity - parityOffset).val - parityCount.val := by omega
    have hne : (Finset.Ico (numData.val + parityOffset.val + parityCount.val)
        (numData.val + parityOffset.val + (numParity - parityOffset).val)).Nonempty :=
      Finset.nonempty_Ico.2 (by omega)
    simp only [Function.comp, RequestPlan.apply, hne, true_or, decide_True, or_self,
      setBits_eq_restrict, RequestEffect.mk.injEq, and_true, true_and]
    refine ext (Finset.ext fun i => ?_)
    simp only [mem_restrict, Finset.mem_union, Finset.mem_Ico]
    constructor
    · rintro ⟨⟨h | h, -⟩ | h, hi⟩
      · exact ⟨.inl (.inl h), hi⟩
      · exact ⟨.inl (.inr ⟨h.1, by omega⟩), hi⟩
      · exact ⟨.inr h, hi⟩
    · rintro ⟨(h | h) | h, hi⟩
      · exact ⟨.inl ⟨.inl h, hi⟩, hi⟩
      · exact ⟨.inl ⟨.inr ⟨h.1, by omega⟩, hi⟩, hi⟩
      · exact ⟨.inr h, hi⟩
  · -- explicit repair, no fresh parity left
    rw [markRange_eq_explicitIds, Option.map_map, Option.map_map]
    congr 1; funext e
    simp [RequestPlan.apply]


variable {po pc nd np ec : NormSegmentId} {p : RequestPlan}

/-- **The plans a request can have**, each with the conditions of its branch. -/
theorem requestPlan_cases (h : requestPlan po pc nextId lastId nd np ec = some p) :
    -- explicit data request
    (nextId.val < nd.val ∧ lastId.val < 65535 ∧
      p = ⟨∅, Finset.Icc nextId.val lastId.val, np, np⟩) ∨
    -- the fresh parity covers the request
    (nd.val ≤ nextId.val ∧ ec.val ≤ (np - po).val ∧ pc.val < ec.val ∧
      p = ⟨Finset.Ico (nd.val + po.val + pc.val) (nd.val + po.val + ec.val), ∅, po, ec⟩) ∨
    -- the fresh parity already assigned covers it
    (nd.val ≤ nextId.val ∧ ec.val ≤ (np - po).val ∧ ec.val ≤ pc.val ∧ p = ⟨∅, ∅, po, pc⟩) ∨
    -- the remaining fresh parity, then explicit repair
    (nd.val ≤ nextId.val ∧ (np - po).val < ec.val ∧ pc.val < (np - po).val ∧
      lastId.val < 65535 ∧
      p = ⟨Finset.Ico (nd.val + po.val + pc.val) (nd.val + po.val + (np - po).val),
        Finset.Icc (nextId + (np - po)).val lastId.val, po, np - po⟩) ∨
    -- explicit repair only
    (nd.val ≤ nextId.val ∧ (np - po).val < ec.val ∧ (np - po).val ≤ pc.val ∧
      lastId.val < 65535 ∧ p = ⟨∅, Finset.Icc nextId.val lastId.val, po, pc⟩) := by
  unfold requestPlan explicitIds at h
  dsimp only at h
  split_ifs at h with h1 h2 h3 h4 h5 h6 h7 <;>
    simp only [Option.map_none', Option.map_some', Option.some.injEq, reduceCtorEq] at h <;>
    subst h
  · exact .inl ⟨h1, by omega, rfl⟩
  · exact .inr (.inl ⟨Fin.not_lt.1 h1, h3, h4, rfl⟩)
  · exact .inr (.inr (.inl ⟨Fin.not_lt.1 h1, h3, Fin.not_lt.1 h4, rfl⟩))
  · exact .inr (.inr (.inr (.inl ⟨Fin.not_lt.1 h1, Fin.not_le.1 h3, h5, by omega, rfl⟩)))
  · exact .inr (.inr (.inr (.inr ⟨Fin.not_lt.1 h1, Fin.not_le.1 h3, Fin.not_lt.1 h5, by omega,
      rfl⟩)))

/-- **When a request returns.** Exactly when `lastId` is below the largest id or the fresh parity
covers the request: every other branch runs the explicit-repair loop. -/
theorem requestPlan_isSome_iff :
    (requestPlan po pc nextId lastId nd np ec).isSome ↔
      lastId.val < 65535 ∨ (nd.val ≤ nextId.val ∧ ec.val ≤ (np - po).val) := by
  unfold requestPlan explicitIds
  dsimp only
  split_ifs <;> simp only [Option.map_none', Option.map_some', Option.isSome_none,
    Option.isSome_some, Bool.false_eq_true, true_iff, false_iff] <;>
    simp only [Fin.lt_def, Fin.le_def, not_lt] at * <;> omega

/-- A request whose `lastId` is below the largest id returns. -/
theorem requestPlan_isSome (h : lastId.val < 65535) :
    (requestPlan po pc nextId lastId nd np ec).isSome :=
  requestPlan_isSome_iff.2 (.inl h)

/-- `TxUpdate` is its plan applied to `pending_mask`. -/
theorem txUpdate_eq (b : NormBlock) (nextId lastId nd np ec : NormSegmentId) :
    b.txUpdate nextId lastId nd np ec =
      (requestPlan b.parityOffset b.parityCount nextId lastId nd np ec).map fun p =>
        ((p.apply b.pendingMask).increased,
          { b with pendingMask := (p.apply b.pendingMask).mask, parityOffset := p.parityOffset,
                   parityCount := p.parityCount }) := by
  rw [txUpdate, segmentRequest_eq, Option.map_map]; rfl

/-- `HandleSegmentRequest` is its plan applied to `repair_mask`. -/
theorem handleSegmentRequest_eq (b : NormBlock) (nextId lastId nd np ec : NormSegmentId) :
    b.handleSegmentRequest nextId lastId nd np ec =
      (requestPlan b.parityOffset b.parityCount nextId lastId nd np ec).map fun p =>
        ((p.apply b.repairMask).increased,
          { b with repairMask := (p.apply b.repairMask).mask, parityOffset := p.parityOffset,
                   parityCount := p.parityCount }) := by
  rw [handleSegmentRequest, segmentRequest_eq, Option.map_map]; rfl

/-- `TxUpdate` and `HandleSegmentRequest` return exactly when `lastId` is below the largest id or
the fresh parity covers the request. -/
theorem segmentRequests_return_iff (b : NormBlock) (nextId lastId nd np ec : NormSegmentId) :
    ((b.txUpdate nextId lastId nd np ec).isSome ↔
      lastId.val < 65535 ∨ (nd.val ≤ nextId.val ∧ ec.val ≤ (np - b.parityOffset).val)) ∧
    ((b.handleSegmentRequest nextId lastId nd np ec).isSome ↔
      lastId.val < 65535 ∨ (nd.val ≤ nextId.val ∧ ec.val ≤ (np - b.parityOffset).val)) := by
  rw [txUpdate_eq, handleSegmentRequest_eq, Option.isSome_map', Option.isSome_map']
  exact ⟨requestPlan_isSome_iff, requestPlan_isSome_iff⟩

/-- **A NACK for `[0, 65535]` hangs the sender.** For every block, the explicit data request
`(nextId, lastId) = (0, 65535)` with `numData = 10`, `numParity = 4` makes neither `TxUpdate` nor
`HandleSegmentRequest` return: their loop `while (nextId <= lastId)` runs with every `nextId`
at most `65535`, and `nextId++` wraps to `0`, so no number of rounds exits it. -/
theorem explicit_repair_hangs_at_last_id (b : NormBlock) :
    b.txUpdate 0 65535 10 4 0 = none ∧ b.handleSegmentRequest 0 65535 10 4 0 = none ∧
      ∀ (fuel : Nat) (m : BitMask b.size.val) (inc : Bool), markLoop fuel 0 65535 m inc = none := by
  have h := segmentRequests_return_iff b 0 65535 10 4 0
  have hno : ¬((65535 : NormSegmentId).val < 65535 ∨
      ((10 : NormSegmentId).val ≤ (0 : NormSegmentId).val ∧
        (0 : NormSegmentId).val ≤ (4 - b.parityOffset).val)) := by
    rintro (h | ⟨h, -⟩) <;> exact absurd h (by decide)
  exact ⟨Option.not_isSome_iff_eq_none.1 (h.1.not.2 hno),
    Option.not_isSome_iff_eq_none.1 (h.2.not.2 hno), fun fuel => markLoop_lastId_max rfl fuel 0⟩

@[simp] theorem mem_apply_mask {m : BitMask n} {i : Nat} :
    i ∈ (p.apply m).mask.bits ↔ (i ∈ m.bits ∨ i ∈ p.fresh ∨ i ∈ p.explicit) ∧ i < n := by
  simp only [RequestPlan.apply, mem_restrict, Finset.mem_union, or_assoc]

@[simp] theorem apply_parityOffset {m : BitMask n} :
    (p.apply m).parityOffset = p.parityOffset := rfl

@[simp] theorem apply_parityCount {m : BitMask n} : (p.apply m).parityCount = p.parityCount := rfl

@[simp] theorem apply_increased {m : BitMask n} :
    (p.apply m).increased = true ↔ p.fresh.Nonempty ∨ ∃ i ∈ p.explicit, i ∉ m.bits := by
  simp only [RequestPlan.apply, decide_eq_true_iff]

end NormBlock

end NormSegment
