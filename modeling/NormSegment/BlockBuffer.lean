import NormSegment.Block

/-!
# The block buffer

`NormBlockBuffer` (§4.4) keeps the blocks of a window of block ids in a hash table of chains:
the block with id `blockId` sits in the chain of bucket `((UINT32)blockId) & hash_mask`. Beside the
table it keeps the span of the stored ids: `range_lo` and `range_hi`, and `range`, the number of
ids from one to the other (zero when the buffer is empty).

Block ids are sequence numbers (§3): `NormBlockId.lt` compares two of them by the sign of their
difference. The header that declares `NormBlockId` and the buffer's fields is outside `src/`;
the comparison and the fields are modelled from the spec.

When `Remove` takes out the block at `range_lo` or `range_hi`, it finds the new end by a circular
scan over the buckets (`bucketScan`): at each step it probes the chain of the next bucket for the
one id that would hash there, and remembers the best other id the chains show.
`Iterator::GetNextBlock` runs the same scan. The scans stop when a probe hits or when the bucket
index comes back to `endex`; whether that happens depends on the table, so the model runs them on
fuel, and `none` means that the call does not complete.

`Destroy` zeroes `range_max` and `range` and then deletes the block `Find(range_lo)` returns until
it returns `NULL`; `destroy` returns the blocks its loop deletes and the buffer whose table is
released.
-/

namespace NormSegment

namespace NormBlockId

/-- Modelled from the spec (§3): `a < b` when the signed distance from `b` to `a` is negative,
that is when `a - b`, as a `UINT32`, is at least `2^31`. -/
instance : LT NormBlockId := ⟨fun a b => 2147483648 ≤ (a.value - b.value).val⟩

instance (a b : NormBlockId) : Decidable (a < b) :=
  inferInstanceAs (Decidable (2147483648 ≤ (a.value - b.value).val))

/-- `(UINT32)blockId + offset`. -/
def addOffset (a : NormBlockId) (offset : Nat) : NormBlockId := ⟨a.value + Fin.ofNat offset⟩

/-- `(UINT32)blockId - offset`. -/
def subOffset (a : NormBlockId) (offset : Nat) : NormBlockId := ⟨a.value - Fin.ofNat offset⟩

end NormBlockId

/-- Modelled from the spec (§3): a `NormBlockBuffer` once `Init` has allocated its table.
`table i` is the chain of bucket `i`, head first. -/
structure NormBlockBuffer where
  table : Nat → List NormBlock
  hashMask : Nat
  rangeMax : Nat
  range : UINT32
  rangeLo : NormBlockId
  rangeHi : NormBlockId

namespace NormBlockBuffer

/-- `Init(rangeMax, tableSize)`: refuse a zero range or table size; otherwise take
`(tableSize >> 3) + 1` buckets unless `tableSize` is a multiple of `8`, and start empty. The
constructor leaves `range_lo` and `range_hi` unset; they start at zero here. -/
def init (rangeMax tableSize : Nat) : Option NormBlockBuffer :=
  if rangeMax = 0 ∨ tableSize = 0 then none
  else
    let tableSize := if tableSize &&& 7 ≠ 0 then (tableSize >>> 3) + 1 else tableSize
    some ⟨fun _ => [], tableSize - 1, rangeMax, 0, ⟨0⟩, ⟨0⟩⟩

/-- `((UINT32)blockId) & hash_mask`: the bucket of a block id. -/
def bucket (buf : NormBlockBuffer) (blockId : NormBlockId) : Nat :=
  blockId.value.val &&& buf.hashMask

/-- The buffer with the chain of bucket `i` replaced. -/
def setChain (buf : NormBlockBuffer) (i : Nat) (chain : List NormBlock) : NormBlockBuffer :=
  { buf with table := Function.update buf.table i chain }

@[simp] theorem setChain_table (buf : NormBlockBuffer) (i : Nat) (chain : List NormBlock) :
    (buf.setChain i chain).table = Function.update buf.table i chain := rfl

@[simp] theorem setChain_hashMask (buf : NormBlockBuffer) (i : Nat) (chain : List NormBlock) :
    (buf.setChain i chain).hashMask = buf.hashMask := rfl

@[simp] theorem setChain_rangeMax (buf : NormBlockBuffer) (i : Nat) (chain : List NormBlock) :
    (buf.setChain i chain).rangeMax = buf.rangeMax := rfl

@[simp] theorem setChain_range (buf : NormBlockBuffer) (i : Nat) (chain : List NormBlock) :
    (buf.setChain i chain).range = buf.range := rfl

@[simp] theorem setChain_rangeLo (buf : NormBlockBuffer) (i : Nat) (chain : List NormBlock) :
    (buf.setChain i chain).rangeLo = buf.rangeLo := rfl

@[simp] theorem setChain_rangeHi (buf : NormBlockBuffer) (i : Nat) (chain : List NormBlock) :
    (buf.setChain i chain).rangeHi = buf.rangeHi := rfl

/-- `Find(blockId)`: nothing outside `[range_lo, range_hi]`; otherwise the first block of the
bucket's chain with that id. -/
def find (buf : NormBlockBuffer) (blockId : NormBlockId) : Option NormBlock :=
  if buf.range ≠ 0 then
    if blockId < buf.rangeLo ∨ buf.rangeHi < blockId then none
    else (buf.table (buf.bucket blockId)).find? (·.id = blockId)
  else none

/-- `CanInsert(blockId)`: the span the buffer would have with `blockId` is at most `range_max`. -/
def canInsert (buf : NormBlockBuffer) (blockId : NormBlockId) : Bool :=
  if buf.range ≠ 0 then
    if blockId < buf.rangeLo then
      decide ((buf.rangeLo.value - blockId.value + buf.range).val ≤ buf.rangeMax)
    else if buf.rangeHi < blockId then
      decide ((blockId.value - buf.rangeHi.value + buf.range).val ≤ buf.rangeMax)
    else true
  else true

/-- The threading step of `Insert`: the block goes into its bucket's chain before the first entry
whose id is not below its own. -/
def link (buf : NormBlockBuffer) (theBlock : NormBlock) : NormBlockBuffer :=
  let chain := buf.table (buf.bucket theBlock.id)
  buf.setChain (buf.bucket theBlock.id)
    (chain.takeWhile (·.id < theBlock.id) ++ theBlock :: chain.dropWhile (·.id < theBlock.id))

@[simp] theorem link_hashMask (buf : NormBlockBuffer) (b : NormBlock) :
    (buf.link b).hashMask = buf.hashMask := rfl

@[simp] theorem link_rangeMax (buf : NormBlockBuffer) (b : NormBlock) :
    (buf.link b).rangeMax = buf.rangeMax := rfl

@[simp] theorem link_range (buf : NormBlockBuffer) (b : NormBlock) :
    (buf.link b).range = buf.range := rfl

@[simp] theorem link_rangeLo (buf : NormBlockBuffer) (b : NormBlock) :
    (buf.link b).rangeLo = buf.rangeLo := rfl

@[simp] theorem link_rangeHi (buf : NormBlockBuffer) (b : NormBlock) :
    (buf.link b).rangeHi = buf.rangeHi := rfl

/-- `Insert(theBlock)`: an empty buffer first takes the block's id as both ends of its span; a
block below `range_lo` or above `range_hi` widens the span, unless the new span `newRange` would
exceed `range_max`, in which case nothing more changes and the call returns false. -/
def insert (buf : NormBlockBuffer) (theBlock : NormBlock) : Bool × NormBlockBuffer :=
  let blockId := theBlock.id
  let buf := if buf.range = 0 then { buf with rangeLo := blockId, rangeHi := blockId, range := 1 }
    else buf
  if blockId < buf.rangeLo then
    let newRange := buf.rangeLo.value - blockId.value + buf.range
    if buf.rangeMax < newRange.val then (false, buf)
    else (true, link { buf with rangeLo := blockId, range := newRange } theBlock)
  else if buf.rangeHi < blockId then
    let newRange := blockId.value - buf.rangeHi.value + buf.range
    if buf.rangeMax < newRange.val then (false, buf)
    else (true, link { buf with rangeHi := blockId, range := newRange } theBlock)
  else (true, link buf theBlock)

theorem lt_irrefl_id (x : NormBlockId) : ¬x < x := by
  show ¬2147483648 ≤ (x.value - x.value).val
  simp

/-- `Insert` answers what `CanInsert` answers for the block's id. -/
theorem insert_fst (buf : NormBlockBuffer) (theBlock : NormBlock) :
    (buf.insert theBlock).1 = buf.canInsert theBlock.id := by
  unfold insert canInsert
  by_cases hr : buf.range = 0
  · simp [hr, lt_irrefl_id]
  · simp only [hr, if_false, ne_eq, not_false_eq_true, if_true]
    split_ifs <;> simp_all

/-- The entry `Insert` links its block before: the first of its bucket's chain whose id is not
below the block's, `NULL` when there is none. -/
def linkEntry (buf : NormBlockBuffer) (blockId : NormBlockId) : Option NormBlock :=
  ((buf.table (buf.bucket blockId)).dropWhile (·.id < blockId)).head?

/-- `Insert(theBlock)` with its `ASSERT((entry ? (blockId != entry->GetId()) : true))`, checked
when the block is linked: a call that links it before an entry of the same id does not complete.
The runs of the model give `Insert` only new ids, exactly where the `ASSERT` holds
(`insertChecked_eq_iff`), and there the call is `insert`. -/
def insertChecked (buf : NormBlockBuffer) (theBlock : NormBlock) :
    Option (Bool × NormBlockBuffer) :=
  if (buf.insert theBlock).1 && (buf.linkEntry theBlock.id).any (·.id = theBlock.id) then none
  else some (buf.insert theBlock)

/-- The spec lemma of `Insert` into an empty buffer: the block's id becomes both ends. -/
theorem insert_of_range_zero {buf : NormBlockBuffer} {theBlock : NormBlock} (hr : buf.range = 0) :
    buf.insert theBlock =
      (true, link { buf with rangeLo := theBlock.id, rangeHi := theBlock.id, range := 1 } theBlock) := by
  simp [insert, hr, lt_irrefl_id]

/-- The spec lemma of `Insert` into a buffer that is not empty. -/
theorem insert_of_range_ne_zero {buf : NormBlockBuffer} {theBlock : NormBlock} (hr : buf.range ≠ 0) :
    buf.insert theBlock =
      if theBlock.id < buf.rangeLo then
        if buf.rangeMax < (buf.rangeLo.value - theBlock.id.value + buf.range).val then (false, buf)
        else (true, link { buf with
          rangeLo := theBlock.id
          range := buf.rangeLo.value - theBlock.id.value + buf.range } theBlock)
      else if buf.rangeHi < theBlock.id then
        if buf.rangeMax < (theBlock.id.value - buf.rangeHi.value + buf.range).val then (false, buf)
        else (true, link { buf with
          rangeHi := theBlock.id
          range := theBlock.id.value - buf.rangeHi.value + buf.range } theBlock)
      else (true, link buf theBlock) := by
  simp only [insert, hr, if_false]

/-- A refused `Insert` leaves the buffer as it was. -/
theorem insert_snd_of_refused {buf : NormBlockBuffer} {theBlock : NormBlock}
    (h : (buf.insert theBlock).1 = false) : (buf.insert theBlock).2 = buf := by
  by_cases hr : buf.range = 0
  · rw [insert_of_range_zero hr] at h
    exact Bool.noConfusion h
  · rw [insert_of_range_ne_zero hr] at h ⊢
    split_ifs at h ⊢ <;> rfl

/-- An accepted `Insert` links the block, and besides sets only the span fields. -/
theorem insert_accepted {buf : NormBlockBuffer} {theBlock : NormBlock}
    (h : (buf.insert theBlock).1 = true) :
    ∃ lo hi r, (buf.insert theBlock).2 =
      { buf.link theBlock with rangeLo := lo, rangeHi := hi, range := r } := by
  by_cases hr : buf.range = 0
  · rw [insert_of_range_zero hr]
    exact ⟨_, _, _, rfl⟩
  · rw [insert_of_range_ne_zero hr] at h ⊢
    split_ifs at h ⊢ <;> exact ⟨_, _, _, rfl⟩

/-- `Insert` keeps `hash_mask` and `range_max`. -/
theorem insert_frame (buf : NormBlockBuffer) (theBlock : NormBlock) :
    (buf.insert theBlock).2.hashMask = buf.hashMask ∧
      (buf.insert theBlock).2.rangeMax = buf.rangeMax := by
  cases h : (buf.insert theBlock).1
  · rw [insert_snd_of_refused h]
    exact ⟨rfl, rfl⟩
  · obtain ⟨lo, hi, r, heq⟩ := insert_accepted h
    rw [heq]
    exact ⟨rfl, rfl⟩

theorem insert_rangeMax (buf : NormBlockBuffer) (theBlock : NormBlock) :
    (buf.insert theBlock).2.rangeMax = buf.rangeMax :=
  (insert_frame buf theBlock).2

theorem insert_hashMask (buf : NormBlockBuffer) (theBlock : NormBlock) :
    (buf.insert theBlock).2.hashMask = buf.hashMask :=
  (insert_frame buf theBlock).1

/-- An accepted `Insert` changes the table only by linking the block. -/
theorem insert_table {buf : NormBlockBuffer} {theBlock : NormBlock}
    (h : (buf.insert theBlock).1 = true) :
    (buf.insert theBlock).2.table = (buf.link theBlock).table := by
  obtain ⟨lo, hi, r, heq⟩ := insert_accepted h
  rw [heq]

/-- The walk of one chain in a scan: stop at the block with id `target`; until then, replace
`best` by every id that `better` prefers to it. -/
def probeChain (target : NormBlockId) (better : NormBlockId → NormBlockId → Bool) :
    List NormBlock → NormBlockId → Option NormBlock × NormBlockId
  | [], best => (none, best)
  | e :: rest, best =>
    if e.id = target then (some e, best)
    else probeChain target better rest (if better e.id best then e.id else best)

/-- `do { ++i &= hash_mask; offset++; ... } while (i != endex)` (with `--i` when `up` is false):
at the bucket `i` reached at step `offset`, probe for the id `origin + offset` (or
`origin - offset`); a hit ends the scan, and so does reaching `endex`, with the best id seen.
`check` is an `ASSERT` on the bucket index; when it fails, or the fuel runs out, the call does not
complete. -/
def bucketScan (buf : NormBlockBuffer) (up : Bool) (origin : NormBlockId)
    (better : NormBlockId → NormBlockId → Bool) (check : Nat → Bool) (endex : Nat) :
    Nat → Nat → Nat → NormBlockId → Option (Option NormBlock × NormBlockId)
  | 0, _, _, _ => none
  | fuel + 1, i, offset, best =>
    let i := (if up then (i + 1) % 4294967296 else (i + 4294967295) % 4294967296) &&& buf.hashMask
    if check i then
      match probeChain (if up then origin.addOffset (offset + 1) else origin.subOffset (offset + 1))
          better (buf.table i) best with
      | (some e, best) => some (some e, best)
      | (none, best) =>
        if i = endex then some (none, best)
        else bucketScan buf up origin better check endex fuel i (offset + 1) best
    else none

/-- The buffer with a new `range_lo`, and `range = range_hi - range_lo + 1`. -/
def withLo (buf : NormBlockBuffer) (lo : NormBlockId) : NormBlockBuffer :=
  { buf with rangeLo := lo, range := buf.rangeHi.value - lo.value + 1 }

/-- The buffer with a new `range_hi`, and `range = range_hi - range_lo + 1`. -/
def withHi (buf : NormBlockBuffer) (hi : NormBlockId) : NormBlockBuffer :=
  { buf with rangeHi := hi, range := hi.value - buf.rangeLo.value + 1 }

/-- `Remove(theBlock)`, with `fuel` rounds for its scan: false, and no change, unless a block with
that id is in its bucket's chain; otherwise unlink it, and if it was the only block, empty the
span; if it was at `range_lo` (or `range_hi`), scan up (or down) from its bucket for the new end:
the first id a probe hits, else the best id seen, starting from the other end. -/
def remove (fuel : Nat) (buf : NormBlockBuffer) (theBlock : NormBlock) :
    Option (Bool × NormBlockBuffer) :=
  let blockId := theBlock.id
  if buf.range = 0 then some (false, buf)
  else if blockId < buf.rangeLo ∨ buf.rangeHi < blockId then some (false, buf)
  else
    let index := buf.bucket blockId
    if (buf.table index).any (·.id = blockId) then
      let buf := buf.setChain index ((buf.table index).eraseP (·.id = blockId))
      if 1 < buf.range.val then
        if blockId = buf.rangeLo then
          let endex := if buf.range.val ≤ buf.hashMask then
              (index + buf.range.val - 1) % 4294967296 &&& buf.hashMask
            else index
          match bucketScan buf true blockId (fun e best => decide (blockId < e ∧ e < best))
              (fun _ => true) endex fuel index 0 buf.rangeHi with
          | some (some entry, _) => some (true, buf.withLo entry.id)
          | some (none, nextId) => some (true, buf.withLo nextId)
          | none => none
        else if blockId = buf.rangeHi then
          let endex := if buf.range.val ≤ buf.hashMask then
              (index + 4294967296 - buf.range.val + 1) % 4294967296 &&& buf.hashMask
            else index
          match bucketScan buf false blockId (fun e best => decide (e < blockId ∧ best < e))
              (fun _ => true) endex fuel index 0 buf.rangeLo with
          | some (some entry, _) => some (true, buf.withHi entry.id)
          | some (none, prevId) => some (true, buf.withHi prevId)
          | none => none
        else some (true, buf)
      else some (true, { buf with range := 0 })
    else some (false, buf)

/-- The spec lemma of `Remove` at `range_lo`, in a buffer of more than one id: unlink the block,
then scan up for the new `range_lo`. -/
theorem remove_of_lo {fuel : Nat} {buf : NormBlockBuffer} {theBlock : NormBlock}
    (hr : buf.range ≠ 0) (hlo : theBlock.id = buf.rangeLo) (hhi : ¬buf.rangeHi < theBlock.id)
    (hany : (buf.table (buf.bucket theBlock.id)).any (·.id = theBlock.id) = true)
    (hgt : 1 < buf.range.val) :
    buf.remove fuel theBlock =
      let index := buf.bucket theBlock.id
      let unlinked := buf.setChain index ((buf.table index).eraseP (·.id = theBlock.id))
      let endex := if buf.range.val ≤ buf.hashMask then
          (index + buf.range.val - 1) % 4294967296 &&& buf.hashMask
        else index
      (bucketScan unlinked true theBlock.id (fun e best => decide (theBlock.id < e ∧ e < best))
          (fun _ => true) endex fuel index 0 buf.rangeHi).map
        fun r => (true, unlinked.withLo ((r.1.map NormBlock.id).getD r.2)) := by
  have hnlt : ¬theBlock.id < buf.rangeLo := by
    rw [hlo]; show ¬2147483648 ≤ (buf.rangeLo.value - buf.rangeLo.value).val; simp
  simp only [remove, setChain_range, setChain_rangeLo, setChain_rangeHi, setChain_hashMask,
    iff_false_intro hr, iff_false_intro hnlt, iff_false_intro hhi, or_self, hany,
    iff_true_intro hgt, iff_true_intro hlo, if_true, if_false]
  split <;> rename_i heq <;> rw [heq] <;> rfl

/-- A scan that completes with some fuel completes alike with more. -/
theorem bucketScan_of_le {buf : NormBlockBuffer} {up : Bool} {origin : NormBlockId}
    {better : NormBlockId → NormBlockId → Bool} {check : Nat → Bool} {endex : Nat} :
    ∀ {fuel fuel' i offset : Nat} {best : NormBlockId} {r : Option NormBlock × NormBlockId},
      fuel ≤ fuel' → buf.bucketScan up origin better check endex fuel i offset best = some r →
        buf.bucketScan up origin better check endex fuel' i offset best = some r
  | 0, _, _, _, _, _, _, h => by simp [bucketScan] at h
  | _ + 1, 0, _, _, _, _, hle, _ => absurd hle (by omega)
  | fuel + 1, fuel' + 1, i, offset, best, r, hle, h => by
    unfold bucketScan at h ⊢
    dsimp only at h ⊢
    generalize (if up = true then (i + 1) % 4294967296 else (i + 4294967295) % 4294967296) &&&
      buf.hashMask = j at h ⊢
    generalize (if up = true then origin.addOffset (offset + 1)
      else origin.subOffset (offset + 1)) = target at h ⊢
    by_cases hc : check j = true
    · rw [if_pos hc] at h ⊢
      generalize probeChain target better (buf.table j) best = p at h ⊢
      obtain ⟨_ | e, best'⟩ := p <;> dsimp only at h ⊢
      · by_cases hend : j = endex
        · simpa [hend] using h
        · simp only [hend, if_false] at h ⊢
          exact bucketScan_of_le (by omega) h
      · exact h
    · simp [hc] at h

/-- The spec lemma of `Remove` at `range_hi`, in a buffer of more than one id: unlink the block,
then scan down for the new `range_hi`. -/
theorem remove_of_hi {fuel : Nat} {buf : NormBlockBuffer} {theBlock : NormBlock}
    (hr : buf.range ≠ 0) (hlt : ¬theBlock.id < buf.rangeLo) (hlo : theBlock.id ≠ buf.rangeLo)
    (hhi : theBlock.id = buf.rangeHi)
    (hany : (buf.table (buf.bucket theBlock.id)).any (·.id = theBlock.id) = true)
    (hgt : 1 < buf.range.val) :
    buf.remove fuel theBlock =
      let index := buf.bucket theBlock.id
      let unlinked := buf.setChain index ((buf.table index).eraseP (·.id = theBlock.id))
      let endex := if buf.range.val ≤ buf.hashMask then
          (index + 4294967296 - buf.range.val + 1) % 4294967296 &&& buf.hashMask
        else index
      (bucketScan unlinked false theBlock.id (fun e best => decide (e < theBlock.id ∧ best < e))
          (fun _ => true) endex fuel index 0 buf.rangeLo).map
        fun r => (true, unlinked.withHi ((r.1.map NormBlock.id).getD r.2)) := by
  have hngt : ¬buf.rangeHi < theBlock.id := hhi ▸ lt_irrefl_id _
  simp only [remove, setChain_range, setChain_rangeLo, setChain_rangeHi, setChain_hashMask,
    iff_false_intro hr, iff_false_intro hlt, iff_false_intro hngt, or_self, hany,
    iff_true_intro hgt, iff_false_intro hlo, iff_true_intro hhi, if_true, if_false]
  split <;> rename_i heq <;> rw [heq] <;> rfl

/-- The spec lemma of `Remove` strictly inside the span: unlink the block; the span stays. -/
theorem remove_of_inner {fuel : Nat} {buf : NormBlockBuffer} {theBlock : NormBlock}
    (hr : buf.range ≠ 0) (hin : ¬(theBlock.id < buf.rangeLo ∨ buf.rangeHi < theBlock.id))
    (hany : (buf.table (buf.bucket theBlock.id)).any (·.id = theBlock.id) = true)
    (hgt : 1 < buf.range.val) (hlo : theBlock.id ≠ buf.rangeLo) (hhi : theBlock.id ≠ buf.rangeHi) :
    buf.remove fuel theBlock = some (true, buf.setChain (buf.bucket theBlock.id)
      ((buf.table (buf.bucket theBlock.id)).eraseP (·.id = theBlock.id))) := by
  simp only [remove, setChain_range, setChain_rangeLo, setChain_rangeHi, iff_false_intro hr,
    iff_false_intro hin, hany, iff_true_intro hgt, iff_false_intro hlo, iff_false_intro hhi,
    if_true, if_false]

/-- The spec lemma of `Remove` of the only id of the span: unlink the block; the span is empty. -/
theorem remove_of_single {fuel : Nat} {buf : NormBlockBuffer} {theBlock : NormBlock}
    (hr : buf.range ≠ 0) (hin : ¬(theBlock.id < buf.rangeLo ∨ buf.rangeHi < theBlock.id))
    (hany : (buf.table (buf.bucket theBlock.id)).any (·.id = theBlock.id) = true)
    (hle : ¬1 < buf.range.val) :
    buf.remove fuel theBlock = some (true, { buf.setChain (buf.bucket theBlock.id)
      ((buf.table (buf.bucket theBlock.id)).eraseP (·.id = theBlock.id)) with range := 0 }) := by
  simp only [remove, setChain_range, iff_false_intro hr, iff_false_intro hin, hany,
    iff_false_intro hle, if_true, if_false]

/-- `Remove` of an id that its bucket's chain does not hold returns false and changes nothing. -/
theorem remove_of_not_any {fuel : Nat} {buf : NormBlockBuffer} {theBlock : NormBlock}
    (hany : (buf.table (buf.bucket theBlock.id)).any (·.id = theBlock.id) = false) :
    buf.remove fuel theBlock = some (false, buf) := by
  unfold remove
  simp only [hany, Bool.false_eq_true, if_false]
  split_ifs <;> rfl

/-- `Remove` of an empty buffer returns false and changes nothing. -/
theorem remove_of_range_zero {fuel : Nat} {buf : NormBlockBuffer} {theBlock : NormBlock}
    (hr : buf.range = 0) : buf.remove fuel theBlock = some (false, buf) := by
  simp only [remove, hr, if_true]

/-- `Remove` of an id outside `[range_lo, range_hi]` returns false and changes nothing. -/
theorem remove_of_outside {fuel : Nat} {buf : NormBlockBuffer} {theBlock : NormBlock}
    (hr : buf.range ≠ 0) (hout : theBlock.id < buf.rangeLo ∨ buf.rangeHi < theBlock.id) :
    buf.remove fuel theBlock = some (false, buf) := by
  simp only [remove, iff_false_intro hr, iff_true_intro hout, if_true, if_false]

/-- What `Remove` leaves: the table with the block unlinked when it returns true, and as it was
when it returns false; besides, only the span fields change. -/
theorem remove_shape {fuel : Nat} {buf buf' : NormBlockBuffer} {theBlock : NormBlock} {ok : Bool}
    (h : buf.remove fuel theBlock = some (ok, buf')) :
    ∃ lo hi r, buf' = { (if ok then buf.setChain (buf.bucket theBlock.id)
      ((buf.table (buf.bucket theBlock.id)).eraseP (·.id = theBlock.id)) else buf) with
        rangeLo := lo, rangeHi := hi, range := r } := by
  by_cases hany : (buf.table (buf.bucket theBlock.id)).any (·.id = theBlock.id) = true
  · by_cases hr : buf.range = 0
    · rw [remove_of_range_zero hr] at h; cases h; exact ⟨_, _, _, rfl⟩
    by_cases hin : theBlock.id < buf.rangeLo ∨ buf.rangeHi < theBlock.id
    · rw [remove_of_outside hr hin] at h; cases h; exact ⟨_, _, _, rfl⟩
    by_cases hgt : 1 < buf.range.val
    · by_cases hlo : theBlock.id = buf.rangeLo
      · rw [remove_of_lo hr hlo (by tauto) hany hgt] at h
        obtain ⟨_, -, hx⟩ := Option.map_eq_some'.1 h
        cases hx; exact ⟨_, _, _, rfl⟩
      by_cases hhi : theBlock.id = buf.rangeHi
      · rw [remove_of_hi hr (by tauto) hlo hhi hany hgt] at h
        obtain ⟨_, -, hx⟩ := Option.map_eq_some'.1 h
        cases hx; exact ⟨_, _, _, rfl⟩
      · rw [remove_of_inner hr hin hany hgt hlo hhi] at h; cases h; exact ⟨_, _, _, rfl⟩
    · rw [remove_of_single hr hin hany hgt] at h; cases h; exact ⟨_, _, _, rfl⟩
  · rw [remove_of_not_any (Bool.eq_false_iff.2 hany)] at h; cases h; exact ⟨_, _, _, rfl⟩

/-- `Remove` keeps `hash_mask` and `range_max`. -/
theorem remove_frame {fuel : Nat} {buf buf' : NormBlockBuffer} {theBlock : NormBlock} {ok : Bool}
    (h : buf.remove fuel theBlock = some (ok, buf')) :
    buf'.hashMask = buf.hashMask ∧ buf'.rangeMax = buf.rangeMax := by
  obtain ⟨lo, hi, r, rfl⟩ := remove_shape h
  cases ok <;> exact ⟨rfl, rfl⟩

/-- `Remove` keeps `range_max`. -/
theorem remove_rangeMax {fuel : Nat} {buf buf' : NormBlockBuffer} {theBlock : NormBlock} {ok : Bool}
    (h : buf.remove fuel theBlock = some (ok, buf')) : buf'.rangeMax = buf.rangeMax :=
  (remove_frame h).2

/-- A `Remove` that completes with some fuel for its scan completes alike with more. -/
theorem remove_of_le {fuel fuel' : Nat} {buf : NormBlockBuffer} {theBlock : NormBlock}
    {r : Bool × NormBlockBuffer} (hle : fuel ≤ fuel') (h : buf.remove fuel theBlock = some r) :
    buf.remove fuel' theBlock = some r := by
  by_cases hany : (buf.table (buf.bucket theBlock.id)).any (·.id = theBlock.id) = true
  · by_cases hr : buf.range = 0
    · rwa [remove_of_range_zero hr] at h ⊢
    by_cases hin : theBlock.id < buf.rangeLo ∨ buf.rangeHi < theBlock.id
    · rwa [remove_of_outside hr hin] at h ⊢
    by_cases hgt : 1 < buf.range.val
    · by_cases hlo : theBlock.id = buf.rangeLo
      · rw [remove_of_lo hr hlo (by tauto) hany hgt] at h ⊢
        dsimp only at h ⊢
        obtain ⟨x, hx, rfl⟩ := Option.map_eq_some'.1 h
        rw [bucketScan_of_le hle hx]; rfl
      by_cases hhi : theBlock.id = buf.rangeHi
      · rw [remove_of_hi hr (by tauto) hlo hhi hany hgt] at h ⊢
        dsimp only at h ⊢
        obtain ⟨x, hx, rfl⟩ := Option.map_eq_some'.1 h
        rw [bucketScan_of_le hle hx]; rfl
      · rwa [remove_of_inner hr hin hany hgt hlo hhi] at h ⊢
    · rwa [remove_of_single hr hin hany hgt] at h ⊢
  · rwa [remove_of_not_any (Bool.eq_false_iff.2 hany)] at h ⊢

/-- A scan whose step takes bucket `i` back to `i`, through an empty chain, short of `endex`,
never ends. -/
theorem bucketScan_stuck {buf : NormBlockBuffer} {up : Bool} {origin : NormBlockId}
    {better : NormBlockId → NormBlockId → Bool} {check : Nat → Bool} {endex i : Nat}
    (hstep : (if up then (i + 1) % 4294967296 else (i + 4294967295) % 4294967296) &&&
      buf.hashMask = i)
    (hempty : buf.table i = []) (hcheck : check i = true) (hend : i ≠ endex) :
    ∀ fuel offset best, buf.bucketScan up origin better check endex fuel i offset best = none
  | 0, _, _ => rfl
  | fuel + 1, offset, best => by
    simp only [bucketScan, hstep, hcheck, if_true, hempty, probeChain, if_neg hend]
    exact bucketScan_stuck hstep hempty hcheck hend fuel _ _

/-- **`Remove` can run forever.** `Init(8, 100)` takes `(100 >> 3) + 1 = 13` buckets, so
`hash_mask = 12`, which is not one less than a power of two. After inserting blocks `1` and `8`,
removing block `1` scans up from its bucket `0` for the new `range_lo`, towards
`endex = (0 + 8 - 1) & 12 = 4`. But `++i &= hash_mask` takes bucket `0` to `1 & 12 = 0`, whose
chain is now empty, again and again: with any amount of fuel the call does not return. -/
theorem remove_never_returns (fuel : Nat) :
    let b1 : NormBlock := { NormBlock.blank with id := ⟨1⟩ }
    let b8 : NormBlock := { NormBlock.blank with id := ⟨8⟩ }
    ∃ buf, init 8 100 = some buf ∧ buf.hashMask = 12 ∧ (buf.insert b1).1 = true ∧
      ((buf.insert b1).2.insert b8).1 = true ∧
      ((buf.insert b1).2.insert b8).2.remove fuel b1 = none := by
  refine ⟨_, rfl, by decide, by decide, by decide, ?_⟩
  rw [remove_of_lo (by decide) (by decide) (by decide) (by decide) (by decide)]
  dsimp only
  rw [bucketScan_stuck ?_ ?_ ?_ ?_, Option.map_none']
  · decide
  · exact List.isEmpty_iff.1 (by decide)
  · rfl
  · decide

/-- The state of a `NormBlockBuffer::Iterator`: `reset` until its first call, then the id it
returned last. -/
structure Iterator where
  reset : Bool
  index : NormBlockId

/-- A fresh iterator. -/
def Iterator.new : Iterator := ⟨true, ⟨0⟩⟩

/-- The `ASSERT(i < 256)` of `GetNextBlock()`, on a bucket index. -/
def Iterator.bucketAssert (i : Nat) : Bool := decide (i < 256)

/-- `GetNextBlock()`, with `fuel` rounds for its scan and `check` in place of its `ASSERT(i < 256)`
on each bucket index: `Iterator.bucketAssert` where the `ASSERT` is compiled in, `fun _ => true`
where it is compiled out. First `Find(range_lo)`; after that, while
`range_lo <= index < range_hi`, scan up from the unmasked `index` for the next stored id, and
return the block a probe hits, else `Find(nextId)` for the best id seen. -/
def Iterator.nextBlock (check : Nat → Bool) (fuel : Nat) (buf : NormBlockBuffer) (it : Iterator) :
    Option (Option NormBlock × Iterator) :=
  if it.reset then
    if buf.range ≠ 0 then some (buf.find buf.rangeLo, ⟨false, buf.rangeLo⟩)
    else some (none, it)
  else if buf.range ≠ 0 ∧ it.index < buf.rangeHi ∧ ¬it.index < buf.rangeLo then
    let index := it.index
    let endex := if (buf.rangeHi.value - index.value).val ≤ buf.hashMask then
        buf.rangeHi.value.val &&& buf.hashMask
      else index.value.val
    match bucketScan buf true index (fun e best => decide (index < e ∧ e < best)) check endex fuel
        index.value.val 0 buf.rangeHi with
    | some (some entry, _) => some (some entry, ⟨false, entry.id⟩)
    | some (none, nextId) => some (buf.find nextId, ⟨false, nextId⟩)
    | none => none
  else some (none, it)

/-- `GetNextBlock()` as the source has it, with its `ASSERT(i < 256)`, and `fuel` rounds for its
scan. -/
def Iterator.getNextBlock (fuel : Nat) (buf : NormBlockBuffer) (it : Iterator) :
    Option (Option NormBlock × Iterator) :=
  it.nextBlock Iterator.bucketAssert fuel buf

/-- The spec lemma of `GetNextBlock` after its first call, with `range_lo <= index < range_hi`:
scan up from the unmasked `index`. -/
theorem Iterator.nextBlock_of_scan {check : Nat → Bool} {fuel : Nat} {buf : NormBlockBuffer}
    {it : Iterator} (hreset : it.reset = false) (hr : buf.range ≠ 0)
    (hhi : it.index < buf.rangeHi) (hlo : ¬it.index < buf.rangeLo) :
    it.nextBlock check fuel buf =
      let endex := if (buf.rangeHi.value - it.index.value).val ≤ buf.hashMask then
          buf.rangeHi.value.val &&& buf.hashMask
        else it.index.value.val
      (bucketScan buf true it.index (fun e best => decide (it.index < e ∧ e < best)) check endex
          fuel it.index.value.val 0 buf.rangeHi).map
        fun r => (r.1.elim (buf.find r.2) some, ⟨false, (r.1.map NormBlock.id).getD r.2⟩) := by
  simp only [nextBlock, hreset, Bool.false_eq_true, if_false, iff_true_intro hr,
    iff_true_intro hhi, iff_false_intro hlo, not_false_eq_true, and_self, if_true, ne_eq]
  split <;> rename_i heq <;> rw [heq] <;> rfl

/-- A scan up through empty buckets after `start`, up to a bucket `stop` that its check refuses,
short of `endex`, does not complete. -/
theorem bucketScan_up_refused {buf : NormBlockBuffer} {origin : NormBlockId}
    {better : NormBlockId → NormBlockId → Bool} {check : Nat → Bool} {endex start : Nat}
    (stop : Nat)
    (hbits : ∀ j ≤ stop, j &&& buf.hashMask = j) (hstop : stop < 4294967296)
    (hempty : ∀ j, j < stop → start < j → buf.table j = [])
    (hcheck : ∀ j, j < stop → start < j → check j = true) (hrefuse : check stop = false)
    (hend : ∀ j, j < stop → start < j → j ≠ endex) :
    ∀ fuel i offset best, start ≤ i → i < stop →
      buf.bucketScan true origin better check endex fuel i offset best = none
  | 0, _, _, _, _, _ => rfl
  | fuel + 1, i, offset, best, hs, hi => by
    have hnext : (i + 1) % 4294967296 &&& buf.hashMask = i + 1 := by
      rw [Nat.mod_eq_of_lt (by omega), hbits _ (by omega)]
    by_cases hstop' : i + 1 = stop
    · subst hstop'
      simp only [bucketScan, if_true, hnext, hrefuse, Bool.false_eq_true, if_false]
    · have h1 : start < i + 1 := by omega
      have h2 : i + 1 < stop := by omega
      simp only [bucketScan, if_true, hnext, hcheck _ h2 h1, hempty _ h2 h1, probeChain,
        if_neg (hend _ h2 h1)]
      exact bucketScan_up_refused stop hbits hstop hempty hcheck hrefuse hend fuel _ _ _
        (by omega) h2

set_option maxRecDepth 4000 in
/-- **`GetNextBlock`'s `ASSERT(i < 256)` fails** on a table of a power-of-two size. `Init(512, 512)`
keeps the `512` buckets (`hash_mask = 511`). With blocks `0` and `300` stored, the first call
returns block `0`; the second scans up from bucket `0` towards `endex = 300 & 511 = 300`, through
the empty buckets `1` to `255`, and its `ASSERT` refuses bucket `256`. -/
theorem getNextBlock_assert_fails (fuel : Nat) :
    let b0 : NormBlock := { NormBlock.blank with id := ⟨0⟩ }
    let b300 : NormBlock := { NormBlock.blank with id := ⟨300⟩ }
    ∃ buf, init 512 512 = some buf ∧ buf.hashMask = 511 ∧ (buf.insert b0).1 = true ∧
      ((buf.insert b0).2.insert b300).1 = true ∧
      (Iterator.new.getNextBlock fuel ((buf.insert b0).2.insert b300).2).map (·.2.index) =
        some ⟨0⟩ ∧
      Iterator.getNextBlock fuel ((buf.insert b0).2.insert b300).2 ⟨false, ⟨0⟩⟩ = none := by
  refine ⟨_, rfl, by decide, by decide, by decide, ?_, ?_⟩
  · simp only [Iterator.getNextBlock, Iterator.nextBlock, Iterator.new, if_true]
    decide
  · rw [Iterator.getNextBlock, Iterator.nextBlock_of_scan rfl (by decide) (by decide) (by decide)]
    dsimp only
    -- every bucket up to `256` is its own index; the scan refuses `256`, short of `endex = 300`
    have hcheck : ∀ j, j < 256 → 0 < j → Iterator.bucketAssert j = true :=
      fun j hj _ => decide_eq_true hj
    rw [bucketScan_up_refused 256 (fun j hj => ?_) (by decide) (by decide) hcheck rfl
      (fun j hj _ => Nat.ne_of_lt (Nat.lt_of_lt_of_le hj
        (by decide))) fuel _ 0 _ (Nat.zero_le _) (by decide), Option.map_none']
    rw [insert_hashMask, insert_hashMask]
    show j &&& (2 ^ 9 - 1) = j
    exact Nat.and_pow_two_sub_one_of_lt_two_pow (by omega)

/-- The loop `while ((block = Find(range_lo))) { Remove(block); delete block; }` of `Destroy`,
with `fuel` rounds for itself and for each `Remove`: the blocks it deletes, in order, and the
buffer it leaves. -/
def destroyLoop : Nat → NormBlockBuffer → Option (List NormBlock × NormBlockBuffer)
  | 0, _ => none
  | fuel + 1, buf =>
    match buf.find buf.rangeLo with
    | none => some ([], buf)
    | some block =>
      match buf.remove fuel block with
      | some (_, buf') => (destroyLoop fuel buf').map fun r => (block :: r.1, r.2)
      | none => none

/-- `Destroy()`: zero `range_max` and `range`, run the clean-up loop, then release the table.
The result is the blocks the loop deletes and the buffer whose table `delete []table` releases;
the model keeps that last table to show what is still linked in it. -/
def destroy (fuel : Nat) (buf : NormBlockBuffer) : Option (List NormBlock × NormBlockBuffer) :=
  destroyLoop fuel { buf with rangeMax := 0, range := 0 }

/-- `Destroy` zeroes `range` before its loop, and `Find` returns `NULL` whenever `range` is zero:
the loop ends at once, having deleted nothing. -/
theorem destroy_eq (fuel : Nat) (buf : NormBlockBuffer) :
    buf.destroy (fuel + 1) = some ([], { buf with rangeMax := 0, range := 0 }) := by
  simp [destroy, destroyLoop, find]

end NormBlockBuffer

end NormSegment
