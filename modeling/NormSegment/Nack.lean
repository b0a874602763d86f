import NormSegment.RepairEncoding

/-!
# The receiver's NACK: `IsRepairPending` and `AppendRepairRequest`

A receiver calls `IsRepairPending(numData, numParity)`, which leaves in `repair_mask` the pending
ids that the parity it asks for cannot fill, and then `AppendRepairRequest`, which finds those ids
again from `pending_mask` alone. Both split on `erasure_count > numParity` the same way.
`NackReady` is the receiver state both are called in (§4.2.6): `repair_mask` empty, the ids
`[0, numData + numParity)` inside the block with nothing pending past them, and `erasure_count`
the number of pending data ids.

* With more erasures than parity, `IsRepairPending` covers the first `numParity` pending ids
  (`coverPending_bits`) and `AppendRepairRequest` starts its window after them
  (`skipPending_window`); the two agree (`repairMask_of_short`).
* Otherwise both keep the pending ids of `[numData, numData + erasure_count)`
  (`mem_repairMask_of_enough`). `AppendRepairRequest` finds the start of that window with
  `GetNextPending(numData)` and does not check what it returns.

`nack_matches_repairMask` is the agreement. It fails exactly when erasures are at most the parity
and no id at or above `numData` is pending: the lookup then finds nothing, the window stays at
`numData`, and the NACK names that id, which is not pending (`nack_names_numData`).

`NackReady` asks for an empty `repair_mask`, because `IsRepairPending` reads it: it adds its
covered set to whatever `repair_mask` holds before subtracting, so the bits held on entry count as
covered, the NACK suppression the source's comments describe ("This invalidates the block's
`repair_mask` state"). It leaves what it would leave from an empty mask, less those bits, and
returns false exactly when they hold every id a call from an empty mask would still request
(`isRepairPending_repairMask`). A second call with the same arguments therefore sees the first
call's result and can answer otherwise (`isRepairPending_repeat_differs`).
-/

namespace NormSegment

open NormRepairRequest

/-! ### Walking the pending ids -/

theorem mem_drop_iff_of_nodup {L : List Nat} (hL : L.Nodup) (k : Nat) {j : Nat} :
    j ∈ L.drop k ↔ j ∈ L ∧ j ∉ L.take k := by
  have hd : (L.take k ++ L.drop k).Nodup := (List.take_append_drop k L).symm ▸ hL
  constructor
  · exact fun hj => ⟨List.mem_of_mem_drop hj, fun ht => List.disjoint_of_nodup_append hd ht hj⟩
  · rintro ⟨hj, ht⟩
    rw [← List.take_append_drop k L] at hj
    exact (List.mem_append.1 hj).resolve_left ht

/-- From a set id `x` below the largest id, `GetNextSet(x + 1)` finds the next id of the window. -/
theorem getNext_succ_of_window {n : Nat} (hn : n ≤ 65535) {mask : BitMask n} {hi x y : Nat}
    {rest : List Nat} (hx : x ∈ mask.bits) (h : windowIds mask (x + 1) hi = y :: rest) :
    mask.getNext (Fin.ofNat x + 1) = (true, Fin.ofNat y) ∧ windowIds mask y hi = y :: rest := by
  obtain ⟨hy, hxy, hyhi, hmin, hrest⟩ := windowIds_eq_cons h
  have hxv : (Fin.ofNat x + 1 : UINT16).val = x + 1 := by
    rw [ofNat_add_one, val_ofNat_of_lt (by have := mask.lt x hx; omega)]
  exact ⟨BitMask.getNext_of_mem hy (hxv ▸ hxy) (hxv ▸ hmin),
    hrest ▸ windowIds_of_min hy le_rfl hyhi fun _ _ h => h⟩

namespace NormBlock

/-- `skipPending` from a set id `x` moves `k` set ids on, to the first id of the rest. -/
theorem skipPending_window {n : Nat} (hn : n ≤ 65535) {mask : BitMask n} {hi : Nat} :
    ∀ (k x : Nat) (rest : List Nat), windowIds mask x hi = x :: rest → k ≤ rest.length →
      ∃ y rest', skipPending mask k (Fin.ofNat x) = Fin.ofNat y ∧
        (x :: rest).drop k = y :: rest' ∧ windowIds mask y hi = y :: rest'
  | 0, x, rest, h, _ => ⟨x, rest, rfl, rfl, h⟩
  | k + 1, x, rest, h, hk => by
    obtain ⟨hx, -, -, -, hrest⟩ := windowIds_eq_cons h
    rcases rest with _ | ⟨y, rest⟩
    · simp at hk
    obtain ⟨hget, hwy⟩ := getNext_succ_of_window hn hx hrest.symm
    rw [skipPending, hget]
    exact skipPending_window hn k y rest hwy (by simpa using hk)

/-- `coverPending` from a set id `x` sets the first `k` set ids from `x`. -/
theorem coverPending_bits {n : Nat} (hn : n ≤ 65535) {mask : BitMask n} {hi : Nat} :
    ∀ (k x : Nat) (rest : List Nat) (r : BitMask n), windowIds mask x hi = x :: rest →
      k ≤ rest.length + 1 →
      (coverPending mask k (Fin.ofNat x) r).bits = r.bits ∪ ((x :: rest).take k).toFinset
  | 0, _, _, r, _, _ => by simp [coverPending]
  | k + 1, x, rest, r, h, hk => by
    obtain ⟨hx, -, -, -, hrest⟩ := windowIds_eq_cons h
    have hxv : (Fin.ofNat x : UINT16).val = x := val_ofNat_of_lt (by have := mask.lt x hx; omega)
    have hset : (r.set x).bits = insert x r.bits := by
      ext j; simp [BitMask.mem_set, mask.lt x hx]; tauto
    rcases rest with _ | ⟨y, rest⟩
    · obtain rfl : k = 0 := by simpa using hk
      ext j
      simp [coverPending, hxv, hset, or_comm]
    obtain ⟨hget, hwy⟩ := getNext_succ_of_window hn hx hrest.symm
    rw [coverPending, hget, hxv, coverPending_bits hn k y rest _ hwy (by simpa using hk), hset]
    simp [Finset.insert_union]

/-! ### The two branches -/

/-- The receiver state in which `IsRepairPending` and `AppendRepairRequest` are called (§4.2.6):
nothing staged in `repair_mask`, the ids `[0, numData + numParity)` inside the block and nothing
pending past them, and `erasure_count` the number of pending data ids. -/
structure NackReady (b : NormBlock) (numData numParity : UINT16) : Prop where
  repair_empty : b.repairMask.bits = ∅
  fits : numData.val + numParity.val ≤ b.size.val
  pending_lt : ∀ k ∈ b.pendingMask.bits, k < numData.val + numParity.val
  erasures : b.erasureCount.val = (b.pendingMask.bits.filter (· < numData.val)).card

variable {b : NormBlock} {numData numParity : UINT16}

theorem isRepairPending_fst (b : NormBlock) (numData numParity : UINT16) :
    (b.isRepairPending numData numParity).1 =
      (b.isRepairPending numData numParity).2.repairMask.isSet := rfl

/-- **More erasures than parity.** The window of `AppendRepairRequest` starts at a pending id,
and its ids are those `IsRepairPending` leaves in `repair_mask`: all pending ids but the first
`numParity`. -/
theorem repairMask_of_short (h : NackReady b numData numParity)
    (hshort : numParity < b.erasureCount) :
    (b.repairWindow numData numParity).1.val ∈ b.pendingMask.bits ∧
      (b.isRepairPending numData numParity).2.repairMask.bits =
        (windowIds b.pendingMask (b.repairWindow numData numParity).1.val
          (b.repairWindow numData numParity).2.val).toFinset := by
  have hn : b.size.val ≤ 65535 := by omega
  have hmemL : ∀ k, k ∈ windowIds b.pendingMask 0 (numData.val + numParity.val) ↔
      k ∈ b.pendingMask.bits := fun k => by
    have := h.pending_lt k
    rw [mem_windowIds]
    exact ⟨fun h' => h'.1, fun h' => ⟨h', Nat.zero_le _, this h'⟩⟩
  -- the pending ids, in order, number at least `erasure_count`
  have hlen : numParity.val < (windowIds b.pendingMask 0 (numData.val + numParity.val)).length := by
    have hcard := List.toFinset_card_of_nodup
      (nodup_windowIds : (windowIds b.pendingMask 0 (numData.val + numParity.val)).Nodup)
    have hset : (windowIds b.pendingMask 0 (numData.val + numParity.val)).toFinset =
        b.pendingMask.bits := by ext; simp [hmemL]
    have := Finset.card_filter_le b.pendingMask.bits (· < numData.val)
    have := h.erasures
    rw [hset] at hcard
    rw [Fin.lt_def] at hshort
    omega
  obtain ⟨f, rest, hfr⟩ := List.exists_cons_of_ne_nil (List.ne_nil_of_length_pos
    (by omega : 0 < (windowIds b.pendingMask 0 (numData.val + numParity.val)).length))
  rw [hfr] at hlen
  obtain ⟨hf, -, hfhi, hmin, hrest⟩ := windowIds_eq_cons hfr
  have hwf : windowIds b.pendingMask f (numData.val + numParity.val) = f :: rest :=
    hrest ▸ windowIds_of_min hf le_rfl hfhi fun _ _ h => h
  obtain ⟨y, rest', hskip, hdrop, hwy⟩ :=
    skipPending_window hn numParity.val f rest hwf (by simp at hlen; omega)
  have hget0 : b.pendingMask.getNext 0 = (true, Fin.ofNat f) :=
    BitMask.getNext_of_mem hf (Nat.zero_le _) hmin
  have hwindow : b.repairWindow numData numParity = (Fin.ofNat y, numData + numParity) := by
    simp only [repairWindow, if_pos hshort, hget0, hskip]
  have hend : (numData + numParity).val = numData.val + numParity.val := by
    have := h.fits
    rw [Fin.val_add]; omega
  obtain ⟨hy, -⟩ := windowIds_eq_cons hwy
  have hyv : (Fin.ofNat y : UINT16).val = y := val_ofNat_of_lt (by have := b.pendingMask.lt y hy; omega)
  refine ⟨by rw [hwindow, hyv]; exact hy, ?_⟩
  rw [hwindow, hyv, hend, hwy, ← hdrop, ← hfr]
  ext j
  rw [List.mem_toFinset, mem_drop_iff_of_nodup nodup_windowIds, hmemL]
  simp only [isRepairPending, if_pos hshort, BitMask.mem_xCopy]
  by_cases hp0 : numParity = 0
  · -- no parity: every pending id is a data id, and only ids past `numData` are covered
    subst hp0
    have h0 : (0 : UINT16).val = 0 := rfl
    simp only [ne_eq, not_true_eq_false, if_false, h0, List.take_zero, List.not_mem_nil,
      not_false_eq_true, and_true]
    refine and_iff_left_of_imp fun hj => ?_
    have hj' : j < numData.val := by simpa [h0] using h.pending_lt j hj
    split_ifs <;> simp [h.repair_empty]
    omega
  · -- the first `numParity` pending ids are covered
    rw [if_pos hp0, hget0, coverPending_bits hn numParity.val f rest b.repairMask hwf
      (by simp at hlen; omega), h.repair_empty, Finset.empty_union, ← hfr, List.mem_toFinset]

/-- **Erasures at most the parity.** `IsRepairPending` leaves in `repair_mask` the pending ids of
`[numData, numData + erasure_count)`. -/
theorem mem_repairMask_of_enough (h : NackReady b numData numParity)
    (henough : ¬numParity < b.erasureCount) (j : Nat) :
    j ∈ (b.isRepairPending numData numParity).2.repairMask.bits ↔
      j ∈ b.pendingMask.bits ∧ numData.val ≤ j ∧ j < numData.val + b.erasureCount.val := by
  have hec : b.erasureCount.val ≤ numParity.val := by rw [Fin.lt_def] at henough; omega
  simp only [isRepairPending, if_neg henough, BitMask.mem_xCopy, BitMask.mem_setBits,
    h.repair_empty, Finset.not_mem_empty, false_or]
  constructor
  · rintro ⟨hj, hc⟩
    have := h.pending_lt j hj
    have := b.pendingMask.lt j hj
    exact ⟨hj, by omega, by omega⟩
  · rintro ⟨hj, h1, h2⟩
    exact ⟨hj, by omega⟩

/-- With erasures at most the parity, and some id at or above `numData` pending or no erasure, the
window of `AppendRepairRequest` starts at a pending id or is empty, and its ids are those
`IsRepairPending` leaves in `repair_mask`. -/
theorem repairMask_of_enough (h : NackReady b numData numParity)
    (henough : ¬numParity < b.erasureCount)
    (hcase : b.erasureCount = 0 ∨ ∃ k ∈ b.pendingMask.bits, numData.val ≤ k) :
    ((b.repairWindow numData numParity).1.val ∈ b.pendingMask.bits ∨
        ¬(b.repairWindow numData numParity).1 < (b.repairWindow numData numParity).2) ∧
      (b.isRepairPending numData numParity).2.repairMask.bits =
        (windowIds b.pendingMask (b.repairWindow numData numParity).1.val
          (b.repairWindow numData numParity).2.val).toFinset := by
  have hend : (numData + b.erasureCount).val = numData.val + b.erasureCount.val := by
    have := h.fits
    rw [Fin.lt_def] at henough
    rw [Fin.val_add]; omega
  rw [repairWindow, if_neg henough]
  cases hnext : b.pendingMask.nextSet numData.val with
  | none =>
    -- nothing pending from `numData`: then there is no erasure, and the window is empty
    have hnone := BitMask.nextSet_eq_none_iff.1 hnext
    obtain hec | ⟨k, hk, hle⟩ := hcase
    · have hec' : b.erasureCount.val = 0 := by rw [hec]; rfl
      rw [BitMask.getNext_of_none hnone]
      refine ⟨.inr (by dsimp only; rw [Fin.lt_def, hend]; omega), ?_⟩
      ext j
      rw [mem_repairMask_of_enough h henough, List.mem_toFinset, mem_windowIds, hend]
    · exact absurd (hnone k hk) (by omega)
  | some y =>
    -- the window starts at the first pending id from `numData`
    obtain ⟨hy, hle, hmin⟩ := BitMask.nextSet_eq_some_iff.1 hnext
    have hyv : (Fin.ofNat y : UINT16).val = y :=
      val_ofNat_of_lt (by have := b.pendingMask.lt y hy; omega)
    rw [BitMask.getNext_of_mem hy hle hmin, hyv, hend]
    refine ⟨.inl hy, ?_⟩
    ext j
    rw [mem_repairMask_of_enough h henough, List.mem_toFinset, mem_windowIds]
    constructor
    · rintro ⟨hj, h1, h2⟩
      exact ⟨hj, hmin j hj h1, h2⟩
    · rintro ⟨hj, h1, h2⟩
      exact ⟨hj, by omega, h2⟩

/-- A window that starts at a pending id or is empty is encoded by the NACK. -/
theorem appendRepairRequest_encodes_of_start (b : NormBlock) (nack : List NormRepairRequest)
    (numData numParity : UINT16) (pendingInfo : Bool)
    (hstart : (b.repairWindow numData numParity).1.val ∈ b.pendingMask.bits ∨
      ¬(b.repairWindow numData numParity).1 < (b.repairWindow numData numParity).2) :
    ∃ E, b.appendRepairRequest nack numData numParity pendingInfo = some (true, nack ++ E) ∧
      EncodesIds (windowIds b.pendingMask (b.repairWindow numData numParity).1.val
        (b.repairWindow numData numParity).2.val) E := by
  rcases hstart with hs | hge
  · exact b.appendRepairRequest_encodes nack numData numParity pendingInfo hs
  · refine ⟨[], by simp [appendRepairRequest, appendRepairRun_of_not_lt false b.pendingMask hge], ?_⟩
    rw [Fin.lt_def] at hge
    rw [windowIds_of_none fun k _ hk => by omega]
    exact EncodesIds.nil

/-- **The NACK encodes what `IsRepairPending` leaves in `repair_mask`**: the requests
`AppendRepairRequest` appends decode to the ids left there, and `IsRepairPending` returns true
exactly when they name some id. This needs more erasures than parity, no erasure, or some pending
id at or above `numData` (`nack_names_numData` is the remaining case). -/
theorem nack_matches_repairMask (h : NackReady b numData numParity)
    (hcase : numParity < b.erasureCount ∨ b.erasureCount = 0 ∨
      ∃ k ∈ b.pendingMask.bits, numData.val ≤ k)
    (nack : List NormRepairRequest) (pendingInfo : Bool) :
    ∃ E, b.appendRepairRequest nack numData numParity pendingInfo = some (true, nack ++ E) ∧
      EncodesIds (windowIds b.pendingMask (b.repairWindow numData numParity).1.val
        (b.repairWindow numData numParity).2.val) E ∧
      (b.isRepairPending numData numParity).2.repairMask.bits = (E.flatMap decode).toFinset ∧
      ((b.isRepairPending numData numParity).1 = true ↔ E.flatMap decode ≠ []) := by
  obtain ⟨hstart, hbits⟩ : ((b.repairWindow numData numParity).1.val ∈ b.pendingMask.bits ∨
        ¬(b.repairWindow numData numParity).1 < (b.repairWindow numData numParity).2) ∧
      (b.isRepairPending numData numParity).2.repairMask.bits =
        (windowIds b.pendingMask (b.repairWindow numData numParity).1.val
          (b.repairWindow numData numParity).2.val).toFinset := by
    by_cases hshort : numParity < b.erasureCount
    · exact ⟨.inl (repairMask_of_short h hshort).1, (repairMask_of_short h hshort).2⟩
    · exact repairMask_of_enough h hshort (hcase.resolve_left hshort)
  obtain ⟨E, hE, henc⟩ := b.appendRepairRequest_encodes_of_start nack numData numParity
    pendingInfo hstart
  refine ⟨E, hE, henc, by rw [hbits, henc.decode_eq], ?_⟩
  rw [isRepairPending_fst, BitMask.isSet_eq_true, hbits, henc.decode_eq, List.toFinset_nonempty_iff]

/-- The block of §8 (scenario 3), six data ids pending and no parity asked for, is in the receiver
state: the NACK names exactly the ids `IsRepairPending` leaves, `3, 7, 8, 9, 10, 15`. -/
theorem nack_matches_repairMask_scenario :
    ∃ b : NormBlock, b.size = 20 ∧ b.pendingMask.bits = {3, 7, 8, 9, 10, 15} ∧
      b.erasureCount = 6 ∧ NackReady b 16 0 ∧
      ∃ E, b.appendRepairRequest [] 16 0 false = some (true, [] ++ E) ∧
        (b.isRepairPending 16 0).2.repairMask.bits = (E.flatMap decode).toFinset := by
  let B : NormBlock :=
    { blank.initState 20 with
      pendingMask := BitMask.restrict {3, 7, 8, 9, 10, 15}, erasureCount := 6 }
  have hb : NackReady B 16 0 := ⟨by decide, by decide, by decide, by decide⟩
  obtain ⟨E, hE, -, hbits, -⟩ := nack_matches_repairMask hb (.inl (by decide)) [] false
  exact ⟨B, rfl, by decide, rfl, hb, E, hE, hbits⟩

/-- **Where the agreement fails.** With some erasures, no more than the parity, and nothing pending
at or above `numData`, `IsRepairPending` leaves nothing in `repair_mask` and returns false. But
`GetNextPending(numData)` finds nothing, the window of `AppendRepairRequest` stays at `numData`,
and its NACK names `numData`, which is not pending. -/
theorem nack_names_numData (h : NackReady b numData numParity)
    (henough : ¬numParity < b.erasureCount) (hec : b.erasureCount ≠ 0)
    (hnone : ∀ k ∈ b.pendingMask.bits, k < numData.val) (nack : List NormRepairRequest)
    (pendingInfo : Bool) :
    (b.isRepairPending numData numParity).1 = false ∧ numData.val ∉ b.pendingMask.bits ∧
      b.appendRepairRequest nack numData numParity pendingInfo =
        some (true, nack ++ [⟨.items, true, pendingInfo, [numData]⟩]) := by
  have hn : b.size.val ≤ 65535 := by omega
  have hec' : 0 < b.erasureCount.val := Nat.pos_of_ne_zero (fun h0 => hec (Fin.ext h0))
  have hend : (numData + b.erasureCount).val = numData.val + b.erasureCount.val := by
    have := h.fits
    rw [Fin.lt_def] at henough
    rw [Fin.val_add]; omega
  refine ⟨?_, fun hk => absurd (hnone _ hk) (lt_irrefl _), ?_⟩
  · -- nothing is left in `repair_mask`
    rw [isRepairPending_fst, Bool.eq_false_iff, Ne, BitMask.isSet_eq_true,
      Finset.not_nonempty_iff_eq_empty, Finset.eq_empty_iff_forall_not_mem]
    intro j hj
    obtain ⟨hj, h1, -⟩ := (mem_repairMask_of_enough h henough j).1 hj
    exact absurd (hnone j hj) (by omega)
  · -- one round, at `numData`, which closes a run of one id
    have hwin : b.repairWindow numData numParity = (numData, numData + b.erasureCount) := by
      rw [repairWindow, if_neg henough, BitMask.getNext_of_none hnone]
    have hempty : windowIds b.pendingMask (numData.val + 1) (numData + b.erasureCount).val = [] :=
      windowIds_of_none fun k hk _ => absurd (hnone k hk) (by omega)
    have hloop := repairLoop_eq_walkIds hn false b.pendingMask (numData + b.erasureCount) 65536
      numData.val (.start nack ⟨.invalid, true, pendingInfo, []⟩) (by omega)
      (by simp [hempty])
    rw [hempty, ofNat_val] at hloop
    simp only [appendRepairRequest, hwin, appendRepairRun, NormRepairRequest.new]
    rw [hloop, Option.map_some', Option.map_some', walkIds, ofNat_val]
    rfl

/-- A block of one data and one parity symbol, the data symbol `0` missing, is in the case
`nack_names_numData` describes. -/
theorem nack_names_numData_smallest :
    ∃ b : NormBlock, b.size = 2 ∧ b.pendingMask.bits = {0} ∧ b.erasureCount = 1 ∧
      NackReady b 1 1 ∧ (b.isRepairPending 1 1).1 = false ∧ (1 : UINT16).val ∉ b.pendingMask.bits ∧
      b.appendRepairRequest [] 1 1 false = some (true, [] ++ [⟨.items, true, false, [1]⟩]) := by
  let B : NormBlock :=
    { blank.initState 2 with pendingMask := BitMask.restrict {0}, erasureCount := 1 }
  have hb : NackReady B 1 1 := ⟨by decide, by decide, by decide, by decide⟩
  obtain ⟨h1, h2, h3⟩ := nack_names_numData hb (by decide) (by decide) (by decide) [] false
  exact ⟨B, rfl, by decide, rfl, hb, h1, h2, h3⟩

/-- The smallest such state: a block of one data and one parity symbol, the data symbol `0`
missing and the parity received. `IsRepairPending(1, 1)` returns false and leaves `repair_mask`
empty, but `AppendRepairRequest(nack, 1, 1, ...)` asks for the symbol `1`, which is not pending. -/
theorem nack_requests_unpending_id :
    let b : NormBlock := { blank.initState 2 with
      pendingMask := BitMask.restrict {0}
      erasureCount := 1 }
    (b.isRepairPending 1 1).1 = false ∧
      (List.range 2).filter (b.isRepairPending 1 1).2.repairMask.test = [] ∧
      b.pendingMask.test 1 = false ∧
      b.appendRepairRequest [] 1 1 false = some (true, [⟨.items, true, false, [1]⟩]) := by
  decide

/-! ### A `repair_mask` left from an earlier call -/

/-- The walk of `IsRepairPending` only sets bits: it adds to `r` the bits it sets in an empty
mask. -/
theorem coverPending_bits_union {n : Nat} (pending : BitMask n) :
    ∀ (k : Nat) (x : NormSegmentId) (r : BitMask n),
      (coverPending pending k x r).bits = r.bits ∪ (coverPending pending k x .init).bits
  | 0, _, r => by simp [coverPending]
  | k + 1, x, r => by
    rw [coverPending, coverPending, coverPending_bits_union pending k _ (r.set x.val),
      coverPending_bits_union pending k _ (BitMask.init.set x.val), ← Finset.union_assoc]
    congr 1
    ext j
    simp [or_comm]

/-- What `IsRepairPending` leaves is what it would leave from an empty `repair_mask`, less the bits
`repair_mask` held on entry. -/
theorem isRepairPending_repairMask_bits (b : NormBlock) (numData numParity : UINT16) :
    (b.isRepairPending numData numParity).2.repairMask.bits =
      ({ b with repairMask := .init }.isRepairPending numData numParity).2.repairMask.bits \
        b.repairMask.bits := by
  unfold isRepairPending
  dsimp only
  ext j
  simp only [BitMask.mem_xCopy, Finset.mem_sdiff, and_assoc, ← not_or]
  -- in each branch the covered set from `repair_mask` is the one from an empty mask, plus it
  refine and_congr_right fun _ => not_congr (Iff.trans ?_ or_comm)
  split_ifs
  · rw [coverPending_bits_union _ _ _ b.repairMask, Finset.mem_union]
  · simp
  · simp
  · simp [or_assoc]

/-- **`IsRepairPending` counts what `repair_mask` held as covered.** For every block and every
`numData`, `numParity`: it leaves in `repair_mask` what it would leave starting from an empty one,
less the bits `repair_mask` held on entry, since the covered set is added to the old mask before
the subtraction; and it returns false exactly when those bits hold every id that a call from an
empty mask would still request. -/
theorem isRepairPending_repairMask (b : NormBlock) (numData numParity : UINT16) :
    (b.isRepairPending numData numParity).2.repairMask.bits =
        ({ b with repairMask := .init }.isRepairPending numData numParity).2.repairMask.bits \
          b.repairMask.bits ∧
      ((b.isRepairPending numData numParity).1 = false ↔
        ({ b with repairMask := .init }.isRepairPending numData numParity).2.repairMask.bits ⊆
          b.repairMask.bits) := by
  have hbits := isRepairPending_repairMask_bits b numData numParity
  refine ⟨hbits, ?_⟩
  rw [isRepairPending_fst, Bool.eq_false_iff, Ne, BitMask.isSet_eq_true, hbits,
    Finset.not_nonempty_iff_eq_empty, Finset.sdiff_eq_empty_iff_subset]

/-- **A repeated `IsRepairPending` changes its answer.** A block of `14` symbols with data id `3`
and the parity `10` to `13` pending, one erasure and `repair_mask` empty: `IsRepairPending(10, 4)`
covers the data ids and the parity `11` to `13`, leaves `{10}` and returns true. Called again with
the same arguments, it covers the same ids on top of that `{10}`, leaves nothing and returns
false. -/
theorem isRepairPending_repeat_differs :
    ∃ b : NormBlock, b.size = 14 ∧ b.pendingMask.bits = {3, 10, 11, 12, 13} ∧
      b.repairMask.bits = ∅ ∧ b.erasureCount = 1 ∧ (b.isRepairPending 10 4).1 = true ∧
      ((b.isRepairPending 10 4).2.isRepairPending 10 4).1 = false :=
  ⟨{ blank.initState 14 with
      pendingMask := (BitMask.init.set 3).setBits 10 4, erasureCount := 1 },
    rfl, by decide, rfl, rfl, by decide, by decide⟩

end NormBlock

end NormSegment
