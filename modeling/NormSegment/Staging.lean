import NormSegment.Sender

/-!
# Staged repairs and direct repairs

A sender marks the symbols a NACK asks for in one of two ways (§5 of the spec). During the repair
holdoff it applies each request to `pending_mask` at once (`TxUpdate`); outside it, it stages the
requests in `repair_mask` (`HandleSegmentRequest`) and commits the batch with `ActivateRepairs`.
The two functions are copies of one body on different masks, and the plan of a request reads only
the parity cursor, which both advance alike. So staging then committing is applying directly:

* `commit` is the block `ActivateRepairs` leaves (`activateRepairs_snd`), the staged ids added to
  `pending_mask`;
* `commit_handleSegmentRequest`: one staged request, committed, is one direct request on the
  committed block;
* `handleSegmentRequests_commit`: by induction, the same for a whole batch, both runs failing
  together when a request's loop does not exit.

The flag `ActivateRepairs` returns is "something was staged". It is "some `HandleSegmentRequest` of
the batch returned `true`" when every id a request marks is a bit of the block
(`handleSegmentRequests_flags`), which holds when `parity_offset ≤ numParity` and
`numData + numParity ≤ size`. Without them a request can assign fresh parity past the end of the
mask: it returns `true` and stages nothing.
-/

namespace NormSegment

namespace NormBlock

open BitMask

/-! ### Batches of requests -/

/-- One segment request of a NACK for this block: the ids `nextId ..= lastId`, and the
`erasureCount` the receiver reported. -/
structure SegmentNack where
  nextId : NormSegmentId
  lastId : NormSegmentId
  erasureCount : NormSegmentId
  deriving DecidableEq

/-- `TxUpdate` on each request of a batch, in order. -/
def txUpdates (nd np : UINT16) : NormBlock → List SegmentNack → Option NormBlock
  | b, [] => some b
  | b, q :: qs =>
    (b.txUpdate q.nextId q.lastId nd np q.erasureCount).bind fun r => txUpdates nd np r.2 qs

/-- `HandleSegmentRequest` on each request of a batch, in order, keeping the flags it returns. -/
def handleSegmentRequests (nd np : UINT16) :
    NormBlock → List SegmentNack → Option (List Bool × NormBlock)
  | b, [] => some ([], b)
  | b, q :: qs =>
    (b.handleSegmentRequest q.nextId q.lastId nd np q.erasureCount).bind fun r =>
      (handleSegmentRequests nd np r.2 qs).map fun t => (r.1 :: t.1, t.2)

/-- The block a staged block stands for: the staged ids added to `pending_mask`, and
`repair_mask` empty. -/
def commit (b : NormBlock) : NormBlock :=
  { b with pendingMask := b.pendingMask.add b.repairMask, repairMask := .init }

variable {b : NormBlock}

@[simp] theorem pendingMask_commit_bits :
    b.commit.pendingMask.bits = b.pendingMask.bits ∪ b.repairMask.bits := by
  ext i; simp [commit]

theorem commit_eq_self (h : b.repairMask.bits = ∅) : b.commit = b :=
  ext_bits rfl rfl rfl (by simp [h]) h.symm rfl rfl rfl rfl

/-- `ActivateRepairs` leaves the committed block, whether or not anything was staged. -/
theorem activateRepairs_snd (b : NormBlock) : b.activateRepairs.2 = b.commit := by
  rcases activateRepairs_eq b with ⟨-, heq⟩ | ⟨hempty, heq⟩ <;> rw [heq]
  exacts [rfl, (commit_eq_self hempty).symm]

/-- `ActivateRepairs` reports whether anything was staged. -/
theorem activateRepairs_fst (b : NormBlock) :
    b.activateRepairs.1 = true ↔ b.repairMask.bits.Nonempty := by
  rcases activateRepairs_eq b with ⟨hne, heq⟩ | ⟨hempty, heq⟩ <;> rw [heq]
  · simp only [hne]
  · simp [hempty]

/-! ### Staging simulates direct application -/

/-- **One staged request, committed, is one direct request.** Both compute the plan from the
same parity cursor; the staged ids reach `pending_mask` at the commit instead of at once. -/
theorem commit_handleSegmentRequest (b : NormBlock) (nextId lastId nd np ec : NormSegmentId) :
    (b.handleSegmentRequest nextId lastId nd np ec).map (·.2.commit) =
      (b.commit.txUpdate nextId lastId nd np ec).map (·.2) := by
  rw [handleSegmentRequest_eq, txUpdate_eq, Option.map_map, Option.map_map]
  refine congrArg (Option.map · _) (funext fun p => ext_bits rfl rfl rfl ?_ rfl rfl rfl rfl rfl)
  ext i
  have := b.pendingMask.lt i
  simp only [Function.comp, pendingMask_commit_bits, mem_apply_mask, Finset.mem_union]
  tauto

/-- **A staged batch, committed, is the direct batch**, both runs failing together. -/
theorem handleSegmentRequests_commit (nd np : UINT16) (b : NormBlock) (qs : List SegmentNack) :
    (handleSegmentRequests nd np b qs).map (·.2.commit) = txUpdates nd np b.commit qs := by
  induction qs generalizing b with
  | nil => rfl
  | cons q qs ih =>
    have hstep := commit_handleSegmentRequest b q.nextId q.lastId nd np q.erasureCount
    calc _ = (b.handleSegmentRequest q.nextId q.lastId nd np q.erasureCount).bind
            fun r => txUpdates nd np r.2.commit qs := by
          simp only [handleSegmentRequests, Option.map_bind, Function.comp_def, Option.map_map,
            ih]
      _ = ((b.commit.txUpdate q.nextId q.lastId nd np q.erasureCount).map (·.2)).bind
            (txUpdates nd np · qs) := by rw [← hstep, Option.bind_map]; rfl
      _ = _ := by rw [Option.bind_map]; rfl

/-! ### The flags of a staged batch -/

section Flags

variable {nd np : UINT16}

/-- **One staged request inside the block.** When `parity_offset ≤ numParity` and the block has
room for `numData + numParity` symbols, a request for ids of the block returns, keeps both bounds,
and leaves something staged exactly when something was staged before or it returned `true`. -/
theorem handleSegmentRequest_flag (nextId lastId ec : NormSegmentId)
    (hpo : b.parityOffset.val ≤ np.val) (hfits : nd.val + np.val ≤ b.size.val)
    (hlast : lastId.val < nd.val + np.val) :
    ∃ r b', b.handleSegmentRequest nextId lastId nd np ec = some (r, b') ∧
      b'.parityOffset.val ≤ np.val ∧ b'.size = b.size ∧
      (b'.repairMask.bits.Nonempty ↔ b.repairMask.bits.Nonempty ∨ r = true) := by
  obtain ⟨p, hp⟩ := Option.isSome_iff_exists.1
    (requestPlan_isSome (by have := b.size.isLt; omega) :
      (requestPlan b.parityOffset b.parityCount nextId lastId nd np ec).isSome)
  rw [handleSegmentRequest_eq, hp, Option.map_some']
  refine ⟨_, _, rfl, plan_offset_le hp hpo, rfl, ?_⟩
  -- every id the plan marks is a bit of the block
  have hfresh (i) (hi : i ∈ p.fresh) : i < b.size.val := by
    have := (plan_fresh_mem hp hpo hi).2; omega
  have hexp (i) (hi : i ∈ p.explicit) : i < b.size.val := by
    have := plan_explicit_le hp hi; omega
  simp only [apply_increased, decide_eq_true_eq]
  constructor
  · rintro ⟨i, hi⟩
    rcases (mem_apply_mask.1 hi).1 with hr | hf | he
    · exact .inl ⟨i, hr⟩
    · exact .inr (.inl ⟨i, hf⟩)
    · by_cases hr : i ∈ b.repairMask.bits
      exacts [.inl ⟨i, hr⟩, .inr (.inr ⟨i, he, hr⟩)]
  · rintro (⟨i, hr⟩ | ⟨i, hf⟩ | ⟨i, he, -⟩)
    · exact ⟨i, mem_apply_mask.2 ⟨.inl hr, b.repairMask.lt i hr⟩⟩
    · exact ⟨i, mem_apply_mask.2 ⟨.inr (.inl hf), hfresh i hf⟩⟩
    · exact ⟨i, mem_apply_mask.2 ⟨.inr (.inr he), hexp i he⟩⟩

/-- **A staged batch inside the block** returns, and leaves something staged exactly when
something was staged before or some request of the batch returned `true`. -/
theorem handleSegmentRequests_flags :
    ∀ (b : NormBlock) (qs : List SegmentNack), b.parityOffset.val ≤ np.val →
      nd.val + np.val ≤ b.size.val → (∀ q ∈ qs, q.lastId.val < nd.val + np.val) →
      ∃ rs b', handleSegmentRequests nd np b qs = some (rs, b') ∧
        (b'.repairMask.bits.Nonempty ↔ b.repairMask.bits.Nonempty ∨ true ∈ rs)
  | b, [], _, _, _ => ⟨[], b, rfl, by simp⟩
  | b, q :: qs, hpo, hfits, hqs => by
    obtain ⟨r, b₁, h₁, hpo₁, hsize, hiff₁⟩ :=
      handleSegmentRequest_flag q.nextId q.lastId q.erasureCount hpo hfits
        (hqs q (List.mem_cons_self _ _))
    obtain ⟨rs, b', h', hiff'⟩ := handleSegmentRequests_flags b₁ qs hpo₁ (hsize ▸ hfits)
      fun q' hq' => hqs q' (List.mem_cons_of_mem _ hq')
    refine ⟨r :: rs, b', by simp only [handleSegmentRequests, h₁, h', Option.some_bind,
      Option.map_some'], ?_⟩
    rw [hiff', hiff₁, List.mem_cons]
    cases r <;> simp

end Flags

/-- **Staging a batch and committing it is applying it directly.** From a block with nothing
staged, `parity_offset ≤ numParity` and room for `numData + numParity` symbols, the
`HandleSegmentRequest` calls of a batch of requests for ids of the block return, the
`ActivateRepairs` after them leaves the very block the `TxUpdate` calls of the batch leave (so the
same `pending_mask`, `parity_offset` and `parity_count`, and nothing staged), and it returns
`true` exactly when some `HandleSegmentRequest` of the batch did. -/
theorem staged_batch_matches_direct (nd np : UINT16) (b : NormBlock) (qs : List SegmentNack)
    (hempty : b.repairMask.bits = ∅) (hpo : b.parityOffset.val ≤ np.val)
    (hfits : nd.val + np.val ≤ b.size.val)
    (hqs : ∀ q ∈ qs, q.nextId.val ≤ q.lastId.val ∧ q.lastId.val < nd.val + np.val) :
    ∃ rs s, handleSegmentRequests nd np b qs = some (rs, s) ∧
      txUpdates nd np b qs = some s.activateRepairs.2 ∧
      s.activateRepairs.2.repairMask.bits = ∅ ∧
      (s.activateRepairs.1 = true ↔ true ∈ rs) := by
  obtain ⟨rs, s, hrun, hiff⟩ :=
    handleSegmentRequests_flags b qs hpo hfits fun q hq => (hqs q hq).2
  refine ⟨rs, s, hrun, ?_, by rw [activateRepairs_snd]; rfl, ?_⟩
  · have hsim := handleSegmentRequests_commit nd np b qs
    rw [hrun, commit_eq_self hempty] at hsim
    rw [← hsim, activateRepairs_snd]; rfl
  · rw [activateRepairs_fst, hiff, hempty]
    simp

/-- A batch of three requests on a block of `14` symbols that moves the parity cursor: fresh
parity ids `10` and `11`, then `12`, then the data ids `2` and `3`, which move the cursor to
`numParity`. -/
theorem staged_batch_matches_direct_three_requests :
    (blank.initState 14).repairMask.bits = ∅ ∧
      (blank.initState 14).parityOffset.val ≤ (4 : UINT16).val ∧
      (10 : UINT16).val + (4 : UINT16).val ≤ (blank.initState 14).size.val ∧
      ∃ rs s, handleSegmentRequests 10 4 (blank.initState 14)
          [⟨10, 11, 2⟩, ⟨10, 12, 3⟩, ⟨2, 3, 0⟩] = some (rs, s) ∧
        txUpdates 10 4 (blank.initState 14) [⟨10, 11, 2⟩, ⟨10, 12, 3⟩, ⟨2, 3, 0⟩] =
          some s.activateRepairs.2 ∧
        s.activateRepairs.2.repairMask.bits = ∅ ∧ (s.activateRepairs.1 = true ↔ true ∈ rs) :=
  ⟨rfl, by decide, by decide, staged_batch_matches_direct 10 4 (blank.initState 14)
    [⟨10, 11, 2⟩, ⟨10, 12, 3⟩, ⟨2, 3, 0⟩] rfl (by decide) (by decide) (by decide)⟩

/-- A request can raise its flag and stage nothing: with a one-symbol block, or with
`parity_offset` past `numParity`, the fresh parity it assigns lies past the end of the mask. -/
theorem staged_flag_past_mask_end :
    (handleSegmentRequests 1 1 (blank.initState 1) [⟨1, 1, 1⟩]).map
        (fun s => (s.1, s.2.activateRepairs.1)) = some ([true], false) ∧
    (handleSegmentRequests 1 1 { blank.initState 2 with parityOffset := 2 } [⟨1, 1, 1⟩]).map
        (fun s => (s.1, s.2.activateRepairs.1)) = some ([true], false) := by
  decide

end NormBlock

end NormSegment
