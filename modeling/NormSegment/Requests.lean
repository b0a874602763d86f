import NormSegment.RequestPlan

/-!
# Repeated requests and parity requests

Two properties a sender wants of `TxUpdate` and `HandleSegmentRequest`, both read off the plan of
a request (`requestPlan`), so each holds for the two functions at once.

* **Duplicate NACKs.** A request repeated after itself finds the parity cursor it left
  (`requestPlan_repeat`). The repeat assigns no fresh parity; it marks nothing new and returns
  `false`, except after a request that took the branch "remaining fresh parity, then explicit
  repair". That branch advanced `nextId` by `numParity - parity_offset` before marking; the repeat
  finds no fresh parity left and marks all of `[nextId, lastId]` (`segmentRequest_repeat`).
  When `parity_offset > 0` the ids it skipped were not the fresh ones it assigned, and the repeat
  requests them again.
* **Parity requests.** A request for `erasureCount` parity ids is served by fresh parity and by an
  explicit range after the skipped ids. When the explicit range starts inside the fresh run, the two
  overlap and fewer than `erasureCount` ids are marked (`parityRequest_marks`; on an empty mask,
  `segmentRequest_parity`).
-/

namespace NormSegment

namespace NormBlock

open BitMask

variable {n : Nat} {nextId lastId po pc nd np ec : NormSegmentId} {p : RequestPlan}

/-! ### A request repeated after itself -/

/-- **The plan of a request repeated after it**: no fresh parity, the cursor the first left, and
the ids `[nextId, lastId]` marked explicitly unless the fresh parity covered the request. -/
theorem requestPlan_repeat (h : requestPlan po pc nextId lastId nd np ec = some p) :
    requestPlan p.parityOffset p.parityCount nextId lastId nd np ec =
      some ⟨∅, if nd.val ≤ nextId.val ∧ ec.val ≤ (np - po).val then ∅
        else Finset.Icc nextId.val lastId.val, p.parityOffset, p.parityCount⟩ := by
  rcases requestPlan_cases h with ⟨h1, h2, rfl⟩ | ⟨h1, h2, h3, rfl⟩ | ⟨h1, h2, h3, rfl⟩ |
    ⟨h1, h2, h3, h4, rfl⟩ | ⟨h1, h2, h3, h4, rfl⟩ <;>
    simp (disch := omega) only [requestPlan, explicitIds, Fin.lt_def, Fin.le_def, if_pos, if_neg,
      Option.map_some']

/-- A plan with no fresh parity marks its explicit ids, and reports whether one was clear. -/
theorem apply_of_fresh_empty {m : BitMask n} {e : Finset Nat} {o c : UINT16} :
    (⟨∅, e, o, c⟩ : RequestPlan).apply m =
      ⟨decide (∃ i ∈ e, i ∉ m.bits), restrict (m.bits ∪ e), o, c⟩ := by
  simp [RequestPlan.apply]

/-- **A repeated request.** Run again with the same arguments on what it left, a request marks
nothing and returns `false`, unless it took the branch "remaining fresh parity, then explicit
repair": the repeat then marks every id of `[nextId, lastId]`. This holds for `TxUpdate` and
`HandleSegmentRequest` alike, whenever the requested ids are bits of the mask. -/
theorem segmentRequest_repeat {m : BitMask n} {e : RequestEffect n} (hn : lastId.val < n)
    (h : segmentRequest m po pc nextId lastId nd np ec = some e) :
    segmentRequest e.mask e.parityOffset e.parityCount nextId lastId nd np ec =
      if nd.val ≤ nextId.val ∧ (np - po).val < ec.val ∧ pc.val < (np - po).val then
        some ⟨decide (∃ i ∈ Finset.Icc nextId.val lastId.val, i ∉ e.mask.bits),
          restrict (e.mask.bits ∪ Finset.Icc nextId.val lastId.val), e.parityOffset,
          e.parityCount⟩
      else some ⟨false, e.mask, e.parityOffset, e.parityCount⟩ := by
  rw [segmentRequest_eq] at h ⊢
  obtain ⟨p, hp, rfl⟩ := Option.map_eq_some'.1 h
  -- the ids `[nextId, lastId]` are bits of the mask once the first request marked them
  have hmarked (hm : p.explicit = Finset.Icc nextId.val lastId.val) :
      ∀ i ∈ Finset.Icc nextId.val lastId.val, i ∈ (p.apply m).mask.bits := fun i hi =>
    mem_apply_mask.2 ⟨.inr (.inr (hm ▸ hi)), by have := (Finset.mem_Icc.1 hi).2; omega⟩
  rw [apply_parityOffset, apply_parityCount, requestPlan_repeat hp, Option.map_some',
    apply_of_fresh_empty]
  split_ifs with hcov hprom hprom
  · omega
  · -- covered by fresh parity: nothing to mark
    simp
  · rfl
  · -- the data branch or the explicit branch, which marked `[nextId, lastId]` already
    have hm : p.explicit = Finset.Icc nextId.val lastId.val := by
      rcases requestPlan_cases hp with ⟨-, -, rfl⟩ | ⟨h1, h2, -, -⟩ | ⟨h1, h2, -, -⟩ |
        ⟨h1, h2, h3, -, -⟩ | ⟨-, -, -, -, rfl⟩ <;> first | rfl | omega
    have hsub := hmarked hm
    simp only [Option.some.injEq, RequestEffect.mk.injEq, decide_eq_false_iff_not, not_exists,
      not_and, not_not, and_true]
    refine ⟨hsub, ext (Finset.ext fun i => ?_)⟩
    simp only [mem_restrict, Finset.mem_union]
    exact ⟨fun h => h.1.elim (fun h => h) (hsub i), fun h => ⟨.inl h, (p.apply m).mask.lt i h⟩⟩

/-- The request `[10, 13]` with `erasureCount = 4` from `parity_offset = 2` on an empty mask of
`14` bits takes the branch "remaining fresh parity, then explicit repair", so its repeat marks all
of `[10, 13]`. -/
theorem segmentRequest_repeat_after_skip :
    ∃ e, segmentRequest (BitMask.init : BitMask 14) 2 0 10 13 10 4 4 = some e ∧
      (segmentRequest e.mask e.parityOffset e.parityCount 10 13 10 4 4).map RequestEffect.mask =
        some (restrict (e.mask.bits ∪ Finset.Icc 10 13)) := by
  obtain ⟨e, he⟩ : ∃ e, segmentRequest (BitMask.init : BitMask 14) 2 0 10 13 10 4 4 = some e :=
    ⟨_, rfl⟩
  refine ⟨e, he, ?_⟩
  rw [segmentRequest_repeat (by decide) he, if_pos (by decide), Option.map_some']
  rfl

/-- A duplicate request from `parity_offset = 2`. On a block of `numData = 10` data and
`numParity = 4` parity symbols, the request `[10, 13]` with `erasureCount = 4` is served by the
fresh parity `12, 13` and returns `true`; the same request again marks `10` and `11` too and returns
`true`. `TxUpdate` does the same to `pending_mask`. (The ids listed are those below `14` that
`Test` finds set.) -/
theorem duplicate_request_marks_skipped_ids :
    let b : NormBlock := { blank.initState 14 with parityOffset := 2 }
    (b.handleSegmentRequest 10 13 10 4 4).map
        (fun r => (r.1, (List.range 14).filter r.2.repairMask.test)) = some (true, [12, 13]) ∧
    ((b.handleSegmentRequest 10 13 10 4 4).bind fun r =>
        r.2.handleSegmentRequest 10 13 10 4 4).map
        (fun r => (r.1, (List.range 14).filter r.2.repairMask.test)) =
      some (true, [10, 11, 12, 13]) ∧
    (b.txUpdate 10 13 10 4 4).map
        (fun r => (r.1, (List.range 14).filter r.2.pendingMask.test)) = some (true, [12, 13]) ∧
    ((b.txUpdate 10 13 10 4 4).bind fun r => r.2.txUpdate 10 13 10 4 4).map
        (fun r => (r.1, (List.range 14).filter r.2.pendingMask.test)) =
      some (true, [10, 11, 12, 13]) := by
  decide

/-! ### A request for parity ids -/

/-- **What a parity request marks.** From a cursor with no parity assigned yet, a request for the
`erasureCount = lastId - nextId + 1` parity ids `[nextId, lastId]` marks only parity ids, and at
least `erasureCount` of them exactly when the fresh parity covers the request or the explicit ids
after the skip lie below the fresh run `[numData + parity_offset, numData + numParity)`. -/
theorem parityRequest_marks (h : requestPlan po 0 nextId lastId nd np ec = some p)
    (hpo : po.val ≤ np.val) (hnext : nd.val ≤ nextId.val) (hle : nextId.val ≤ lastId.val)
    (hlast : lastId.val < nd.val + np.val) (hec : ec.val = lastId.val - nextId.val + 1) :
    p.fresh ∪ p.explicit ⊆ Finset.Ico nd.val (nd.val + np.val) ∧
      (ec.val ≤ (p.fresh ∪ p.explicit).card ↔
        ec.val ≤ (np - po).val ∨ lastId.val < nd.val + po.val) := by
  -- the parity left after the offset, and the request's length, without truncated subtraction
  have hpa : po.val + (np - po).val = np.val := by rw [Fin.sub_val_of_le hpo]; omega
  replace hec : ec.val + nextId.val = lastId.val + 1 := by omega
  rcases requestPlan_cases h with ⟨h1, -⟩ | ⟨-, h2, -, rfl⟩ | ⟨-, -, h3, -⟩ |
    ⟨-, h2, h3, -, rfl⟩ | ⟨-, h2, h3, -, rfl⟩
  · omega
  · -- the fresh parity covers the request
    refine ⟨fun i hi => ?_, ?_⟩
    · simp only [Finset.union_empty, Finset.mem_Ico] at hi ⊢; omega
    · simp only [Finset.union_empty, Nat.card_Ico]; omega
  · omega
  · -- the remaining fresh parity, then the ids after the skip
    simp only [Fin.val_zero, add_zero] at h3 ⊢
    have hskip : (nextId + (np - po)).val = nextId.val + (np - po).val := by
      rw [Fin.val_add]; omega
    rw [hskip]
    refine ⟨fun i hi => ?_, ?_⟩
    · simp only [Finset.mem_union, Finset.mem_Ico, Finset.mem_Icc] at hi ⊢; omega
    by_cases hbelow : lastId.val < nd.val + po.val
    · -- the two parts are disjoint
      rw [Finset.card_union_of_disjoint (Finset.disjoint_left.2 fun i hi hi' => by
        simp only [Finset.mem_Ico, Finset.mem_Icc] at hi hi'; omega)]
      simp only [Nat.card_Ico, Nat.card_Icc]; omega
    · -- they overlap, inside `[min (nd + po) (nextId + skip), nd + np)`
      have hsub : Finset.Ico (nd.val + po.val) (nd.val + po.val + (np - po).val) ∪
          Finset.Icc (nextId.val + (np - po).val) lastId.val ⊆
          Finset.Ico (min (nd.val + po.val) (nextId.val + (np - po).val)) (nd.val + np.val) :=
        fun i hi => by
          simp only [Finset.mem_union, Finset.mem_Ico, Finset.mem_Icc] at hi ⊢; omega
      have := Finset.card_le_card hsub
      simp only [Nat.card_Ico] at this; omega
  · -- explicit repair only: no fresh parity was left
    dsimp only at h3 ⊢
    refine ⟨fun i hi => ?_, ?_⟩
    · simp only [Finset.empty_union, Finset.mem_Icc, Finset.mem_Ico] at hi ⊢; omega
    · simp only [Finset.empty_union, Nat.card_Icc]; omega

/-- **A parity request on an empty mask**, for `TxUpdate` and `HandleSegmentRequest` alike: with
no parity assigned yet and a mask with room for `numData + numParity` symbols, the request returns,
leaves only parity ids set, and at least `erasureCount` of them exactly when the fresh parity covers
the request or `lastId` lies below the fresh run. -/
theorem segmentRequest_parity {m : BitMask n} (hm : m.bits = ∅) (hn : nd.val + np.val ≤ n)
    (hsize : n ≤ 65535) (hpo : po.val ≤ np.val) (hnext : nd.val ≤ nextId.val)
    (hle : nextId.val ≤ lastId.val) (hlast : lastId.val < nd.val + np.val)
    (hec : ec.val = lastId.val - nextId.val + 1) :
    ∃ e, segmentRequest m po 0 nextId lastId nd np ec = some e ∧
      e.mask.bits ⊆ Finset.Ico nd.val (nd.val + np.val) ∧
      (ec.val ≤ e.mask.bits.card ↔ ec.val ≤ (np - po).val ∨ lastId.val < nd.val + po.val) := by
  obtain ⟨p, hp⟩ := Option.isSome_iff_exists.1
    (requestPlan_isSome (by omega) : (requestPlan po 0 nextId lastId nd np ec).isSome)
  obtain ⟨hsub, hcard⟩ := parityRequest_marks hp hpo hnext hle hlast hec
  -- on an empty mask the request leaves exactly the ids its plan marks
  have hbits : (p.apply m).mask.bits = p.fresh ∪ p.explicit := by
    ext i
    simp only [mem_apply_mask, hm, Finset.not_mem_empty, false_or, Finset.mem_union]
    refine ⟨fun h => h.1, fun h => ⟨h, ?_⟩⟩
    have := Finset.mem_Ico.1 (hsub (Finset.mem_union.2 h))
    omega
  exact ⟨_, by rw [segmentRequest_eq, hp, Option.map_some'], hbits ▸ hsub, hbits ▸ hcard⟩

/-- From `parity_offset = 1`, the request `[10, 13]` with `erasureCount = 4` on an empty mask
of `14` bits sets parity ids only, and fewer than four of them. -/
theorem segmentRequest_parity_short :
    ∃ e, segmentRequest (BitMask.init : BitMask 14) 1 0 10 13 10 4 4 = some e ∧
      e.mask.bits ⊆ Finset.Ico 10 14 ∧ e.mask.bits.card < 4 := by
  obtain ⟨e, he, hsub, hcard⟩ := @segmentRequest_parity 14 10 13 1 10 4 4 BitMask.init rfl
    (by decide) (by decide) (by decide) (by decide) (by decide) (by decide) (by decide)
  exact ⟨e, he, hsub, Nat.lt_of_not_le fun h => by
    rcases hcard.1 h with h | h <;> exact absurd h (by decide)⟩

/-- A parity request from `parity_offset = 1`. On a block of `numData = 10` data and
`numParity = 4` parity symbols, the request `[10, 13]` with `erasureCount = 4` assigns the fresh
parity `11, 12, 13` and re-requests `13` explicitly after skipping three ids: three ids are marked,
by `HandleSegmentRequest` in `repair_mask` and by `TxUpdate` in `pending_mask`. -/
theorem parity_request_marks_three_of_four :
    let b : NormBlock := { blank.initState 14 with parityOffset := 1 }
    (b.handleSegmentRequest 10 13 10 4 4).map
        (fun r => (List.range 14).filter r.2.repairMask.test) = some [11, 12, 13] ∧
    (b.txUpdate 10 13 10 4 4).map
        (fun r => (List.range 14).filter r.2.pendingMask.test) = some [11, 12, 13] := by
  decide

end NormBlock

end NormSegment
