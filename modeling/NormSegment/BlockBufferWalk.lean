import NormSegment.BlockBufferRefinement

/-!
# Walking the block buffer: the iterator and `Destroy`

Two parts of `normSegment.cpp` walk the stored blocks one at a time.

`Iterator::GetNextBlock` first returns `Find(range_lo)`, then scans up from the id it returned
last for the next stored id, with the scan of `Remove`'s reseek. `Iterator.calls` runs successive
calls on a buffer that does not change between them. The scan's `ASSERT(i < 256)` is a debug
check, a parameter here. With it compiled out, and with it compiled in for a table of at most
`256` buckets, where it always holds, the calls of a fresh iterator return the stored blocks in
ascending order, each once, and then `NULL` (`iterator_lists_blocks`):

* `Refines.scan_above`: the scan from an id in the span returns the nearest stored block above
  it, after as many rounds as that block is ids away. Its chains also hold the blocks at or below
  the id, which it never probes for and never prefers (`Refines.chainScan_above`,
  `Refines.key_of_not_above`); it starts from the unmasked id, whose next bucket is the one after
  its own (`bucketScan_up_start`); and it ends in one of three ways: at the nearest block before
  the bucket of `range_hi`, at the nearest block or back at the start bucket after a full turn,
  or, when the unmasked id is no bucket, at the hit;
* `Refines.nextBlock_above`: one call moves to that block;
* `Refines.calls_from`, `Refines.calls_new`: the run, by induction on the blocks left above.

The iterator holds only the id it returned last, and the buffer may change between calls: a call
from any index in `[range_lo, range_hi)` returns the nearest stored block above it
(`getNextBlock_resumes`), but once the block at `range_lo` is removed its id fails the guard
`index >= range_lo`, and the next call returns `NULL` whatever is left
(`getNextBlock_after_remove_lo`).

With `512` buckets, which `Init` accepts, the `ASSERT` fails on the second call
(`iterator_fails_past_256_buckets`).

`Destroy` zeroes `range` before its clean-up loop `while ((block = Find(range_lo)))`, and `Find`
returns `NULL` whenever `range` is zero: the loop deletes no block, and the table is released with
every stored block still linked in it (`Refines.destroy_leaves`, `destroy_leaks_stored_block`).
-/

namespace NormSegment

namespace NormBlockBuffer

open NormBlockId

/-! ### Runs of `GetNextBlock` -/

/-- `n` successive calls of `GetNextBlock`, with `check` for its `ASSERT`, on a buffer that does
not change between them: what they return, in order, or `none` when one of them does not
complete. -/
def Iterator.calls (check : Nat → Bool) (fuel : Nat) (buf : NormBlockBuffer) :
    Nat → Iterator → Option (List (Option NormBlock))
  | 0, _ => some []
  | n + 1, it =>
    match it.nextBlock check fuel buf with
    | some (r, it') => (Iterator.calls check fuel buf n it').map (r :: ·)
    | none => none

theorem Iterator.calls_succ {check : Nat → Bool} {fuel n : Nat} {buf : NormBlockBuffer}
    {it it' : Iterator} {r : Option NormBlock} (h : it.nextBlock check fuel buf = some (r, it')) :
    Iterator.calls check fuel buf (n + 1) it =
      (Iterator.calls check fuel buf n it').map (r :: ·) := by
  rw [Iterator.calls, h]

/-- An iterator that a call leaves as it was, returning `NULL`, returns `NULL` from then on. -/
theorem Iterator.calls_of_exhausted {check : Nat → Bool} {fuel : Nat} {buf : NormBlockBuffer}
    {it : Iterator} (h : it.nextBlock check fuel buf = some (none, it)) :
    ∀ m, Iterator.calls check fuel buf m it = some (List.replicate m none)
  | 0 => rfl
  | m + 1 => by rw [calls_succ h, calls_of_exhausted h m]; rfl

section EndsOrder

variable {ids : Finset NormBlockId} {lo hi : NormBlockId}

/-- Inside the span of the stored ids, the order of ids is the order of their keys from
`range_lo`. -/
theorem Ends.lt_iff_of_le (h : Ends ids lo hi) {x y : NormBlockId}
    (hx : key true lo x ≤ key true lo hi) (hy : key true lo y ≤ key true lo hi) :
    x < y ↔ key true lo x < key true lo y :=
  lt_iff_key_lt (by have := h.span_lt; omega) (by have := h.span_lt; omega)

theorem Ends.lt_iff (h : Ends ids lo hi) {x y : NormBlockId} (hx : x ∈ ids) (hy : y ∈ ids) :
    x < y ↔ key true lo x < key true lo y :=
  h.lt_iff_of_le (h.le_hi x hx) (h.le_hi y hy)

/-- The guard of `GetNextBlock`, `range_lo <= index < range_hi`, puts the index in the span,
short of its high end. -/
theorem Ends.key_lt_of_guard (h : Ends ids lo hi) {x : NormBlockId} (hlo : ¬x < lo)
    (hhi : x < hi) : key true lo x < key true lo hi := by
  rw [lt_iff_key, not_le] at hlo
  exact (lt_iff_key_lt hlo (by have := h.span_lt; omega)).1 hhi

/-- A stored id other than the high end passes the guard of `GetNextBlock`. -/
theorem Ends.guard_of_mem (h : Ends ids lo hi) {x : NormBlockId} (hx : x ∈ ids) (hxhi : x ≠ hi) :
    ¬x < lo ∧ x < hi :=
  ⟨(h.between hx).1, (h.lt_iff hx h.hi_mem).2
    (lt_of_le_of_ne (h.le_hi x hx) fun heq => hxhi (key_inj heq))⟩

end EndsOrder

/-- A scan up moves from its start index to the next bucket, so two starts that step to the same
bucket give the same scan. -/
theorem bucketScan_up_start {origin : NormBlockId} {better : NormBlockId → NormBlockId → Bool}
    {check : Nat → Bool} {endex fuel offset : Nat} {best : NormBlockId} {buf : NormBlockBuffer}
    {i i' : Nat}
    (h : (i + 1) % 4294967296 &&& buf.hashMask = (i' + 1) % 4294967296 &&& buf.hashMask) :
    buf.bucketScan true origin better check endex fuel i offset best =
      buf.bucketScan true origin better check endex fuel i' offset best := by
  cases fuel with
  | zero => rfl
  | succ fuel => simp only [bucketScan, if_true, h]

/-- The first call of a fresh iterator on a buffer that is not empty: `Find(range_lo)`. -/
theorem Iterator.nextBlock_new {check : Nat → Bool} {fuel : Nat} {buf : NormBlockBuffer}
    (hr : buf.range ≠ 0) :
    Iterator.new.nextBlock check fuel buf = some (buf.find buf.rangeLo, ⟨false, buf.rangeLo⟩) := by
  simp [Iterator.nextBlock, Iterator.new, hr]

namespace Refines

variable {buf : NormBlockBuffer} {S : Finset NormBlock} {check : Nat → Bool}

/-- Seen from an id `x` in the span, a stored id that is not above it is `x` itself or lies more
than `2^31` ids further on. -/
theorem key_of_not_above (h : Refines buf S) (hne : S.Nonempty) {x : NormBlockId}
    (hx : key true buf.rangeLo x ≤ key true buf.rangeLo buf.rangeHi) {e : NormBlock} (he : e ∈ S)
    (hn : ¬x < e.id) : key true x e.id = 0 ∨ 2147483648 ≤ key true x e.id := by
  have hends := h.range.ends hne
  have hem := Finset.mem_image_of_mem NormBlock.id he
  rw [hends.lt_iff_of_le hx (hends.le_hi _ hem)] at hn
  have := hends.key_lt hem; have := key_add buf.rangeLo x e.id
  have := key_lt true x e.id; have := hends.span_lt
  omega

/-- The scan of `GetNextBlock` from an id `x` in the span: it looks for the blocks above `x`, in
chains that hold every stored block. -/
theorem chainScan_above (h : Refines buf S) {T : Nat} (hspan : BucketSpan buf.hashMask T)
    (hne : S.Nonempty) {x : NormBlockId}
    (hx : key true buf.rangeLo x ≤ key true buf.rangeLo buf.rangeHi) :
    ChainScan buf true x (fun e best => decide (x < e ∧ e < best)) S (S.filter (x < ·.id)) T := by
  have hends := h.range.ends hne
  -- above `x`, the key from `x` is the key from `range_lo` less that of `x`
  have hkeys : ∀ e ∈ S.filter (x < ·.id), 0 < key true x e.id ∧ key true x e.id < 2147483647 := by
    intro e he
    obtain ⟨he, hlt⟩ := Finset.mem_filter.1 he
    have hem := Finset.mem_image_of_mem NormBlock.id he
    rw [hends.lt_iff_of_le hx (hends.le_hi _ hem)] at hlt
    rw [key_rebase hlt.le]
    have := hends.key_lt hem
    omega
  exact ⟨hspan, h.chains.mem_iff, Finset.filter_subset _ _, fun e he => (hkeys e he).1,
    fun a ha b hb => decide_eq_decide.2 (better_up_iff (hkeys a ha).1
      (by have := (hkeys a ha).2; omega) (by have := (hkeys b hb).2; omega)),
    fun a _ ha _ _ => by simp only [Finset.mem_filter, not_and] at ha; simp [ha ‹_›]⟩

/-- **The scan of `GetNextBlock`.** When its `check` passes every bucket, the scan up from an id
`x` in the span, short of `range_hi`, returns the stored block nearest above `x`, or its id as the
best seen. It needs as many rounds as some stored block above `x` is ids away: it stops at the
first hit. -/
theorem scan_above (h : Refines buf S) (hcheck : ∀ i ≤ buf.hashMask, check i = true)
    (hne : S.Nonempty)
    {x : NormBlockId} (hx : key true buf.rangeLo x < key true buf.rangeLo buf.rangeHi)
    {fuel : Nat} (hfuel : ∃ e ∈ S, x < e.id ∧ key true x e.id ≤ fuel) {endex : Nat}
    (hendex : endex = if (buf.rangeHi.value - x.value).val ≤ buf.hashMask then
      buf.rangeHi.value.val &&& buf.hashMask else x.value.val) :
    ∃ r, buf.bucketScan true x (fun e best => decide (x < e ∧ e < best)) check endex fuel
        x.value.val 0 buf.rangeHi = some r ∧
      ∃ b ∈ S.filter (x < ·.id), (r.1 = some b ∨ (r.1 = none ∧ r.2 = b.id)) ∧
        ∀ e ∈ S.filter (x < ·.id), key true x b.id ≤ key true x e.id := by
  obtain ⟨k, hk⟩ := h.mask_pow
  have hspan : BucketSpan buf.hashMask (2 ^ min k 32) := hk ▸ bucketSpan_pow k
  have := hspan.pos; have := hspan.le_succ
  have hscan := h.chainScan_above hspan hne hx.le
  have hends := h.range.ends hne
  obtain ⟨bh, hbh, hbhid⟩ := Finset.mem_image.1 hends.hi_mem
  have hbhS : bh ∈ S.filter (x < ·.id) :=
    Finset.mem_filter.2 ⟨hbh, by rw [hbhid, hends.lt_iff_of_le hx.le le_rfl]; exact hx⟩
  -- `D`, the span from `x` to `range_hi`, holds every block above `x`
  have hD := key_rebase hx.le
  have hspan31 := hends.span_lt
  have hwithin : ∀ e ∈ S.filter (x < ·.id), key true x e.id ≤ key true x buf.rangeHi := by
    intro e he
    obtain ⟨he, hlt⟩ := Finset.mem_filter.1 he
    have hem := Finset.mem_image_of_mem NormBlock.id he
    rw [hends.lt_iff_of_le hx.le (hends.le_hi _ hem)] at hlt
    rw [key_rebase hlt.le, hD]
    have := hends.le_hi _ hem
    omega
  -- `g`, the nearest block above `x`, lies within the fuel
  obtain ⟨g, hg, hgmin⟩ := Finset.exists_min_image _ (fun e => key true x e.id) ⟨bh, hbhS⟩
  have hgfuel : key true x g.id ≤ fuel := by
    obtain ⟨e, he, hxe, hle⟩ := hfuel
    exact (hgmin e (Finset.mem_filter.2 ⟨he, hxe⟩)).trans hle
  have hgD := hwithin g hg
  have hg0 := hscan.key_pos g hg
  -- every bucket passes the check, and no probe is for a block not above `x`
  have hbucket : ∀ E j, 0 < j → j ≤ E → check ((step true x j).value.val % 2 ^ min k 32) = true :=
    fun _ j _ _ => hcheck _ (by have := Nat.mod_lt (step true x j).value.val hspan.pos; omega)
  have hother : ∀ E, E < 2147483648 → ∀ e ∈ S, e ∉ S.filter (x < ·.id) →
      ∀ j, 0 < j → j ≤ E → key true x e.id ≠ j := by
    intro E hE e he hn j hj hjE
    have := h.key_of_not_above hne hx.le he fun hlt => hn (Finset.mem_filter.2 ⟨he, hlt⟩)
    omega
  have hseen0 : ∀ e ∈ S.filter (x < ·.id),
      (∃ l, 0 < l ∧ l ≤ 0 ∧ key true x e.id % 2 ^ min k 32 = l % 2 ^ min k 32) →
        key true x bh.id ≤ key true x e.id := by
    rintro e _ ⟨l, hl0, hl, _⟩; omega
  -- the scan starts from the unmasked `index`, which steps to the bucket after its own
  have hstart : (x.value.val + 1) % 4294967296 &&& buf.hashMask =
      ((step true x 0).value.val % 2 ^ min k 32 + 1) % 4294967296 &&& buf.hashMask := by
    rw [hspan.and_mask _ (Nat.mod_lt _ (by omega)), hspan.and_mask _ (Nat.mod_lt _ (by omega)),
      Nat.mod_mod_of_dvd _ hspan.dvd, Nat.mod_mod_of_dvd _ hspan.dvd, step_zero, Nat.mod_add_mod]
  rw [bucketScan_up_start hstart, ← hbhid]
  subst hendex
  split
  · -- the span from `x` fits the table: the scan hits the nearest block before the bucket of
    -- `range_hi`
    rename_i hfit
    have hT := hspan.full
    have hDk : (buf.rangeHi.value - x.value).val = key true x buf.rangeHi := rfl
    have hstepD : step true x (key true x buf.rangeHi) = buf.rangeHi :=
      key_inj (key_step x (by omega))
    rw [hspan.and_mask _ buf.rangeHi.value.isLt, ← hstepD]
    refine hscan.bucketScan_least (key true x g.id) (by omega) (hbucket _)
      (fun j hj hjg heq => ?_) (.inl ⟨g, hg, le_rfl⟩) (hother _ (by omega)) fuel 0 bh hg0
      (by omega) hscan.key_pos hbhS hseen0
    rw [hspan.bucket_step_iff, key_step x (show j < 4294967296 by omega),
      Nat.mod_eq_of_lt (show j < 2 ^ min k 32 by omega),
      Nat.mod_eq_of_lt (show key true x buf.rangeHi < 2 ^ min k 32 by omega)] at heq
    omega
  · by_cases hlow : x.value.val < 2 ^ min k 32
    · -- `endex` is the bucket of `x`: the scan ends at the nearest block, or back there after a
      -- round
      have hx0 : x.value.val % 2 ^ min k 32 = x.value.val := Nat.mod_eq_of_lt hlow
      have hcover : (∃ e ∈ S.filter (x < ·.id),
          key true x e.id ≤ min (key true x g.id) (2 ^ min k 32)) ∨
          (2 ^ min k 32 ≤ min (key true x g.id) (2 ^ min k 32) ∧
            (step true x (min (key true x g.id) (2 ^ min k 32))).value.val % 2 ^ min k 32 =
              x.value.val) := by
        rcases le_total (key true x g.id) (2 ^ min k 32) with hgT | hgT
        · exact .inl ⟨g, hg, le_min le_rfl hgT⟩
        · rw [min_eq_right hgT, ← hx0, eq_comm, hspan.bucket_step_iff, key_self, Nat.zero_mod,
            Nat.mod_self]
          exact .inr ⟨le_rfl, rfl⟩
      have hEg := min_le_left (key true x g.id) (2 ^ min k 32)
      have hET := min_le_right (key true x g.id) (2 ^ min k 32)
      have hE0 : 0 < min (key true x g.id) (2 ^ min k 32) := lt_min hg0 hspan.pos
      generalize min (key true x g.id) (2 ^ min k 32) = E at hcover hEg hET hE0
      refine hscan.bucketScan_least _ (by omega) (hbucket _) (fun j hj hjE heq => ?_) hcover
        (hother _ (by omega)) fuel 0 bh (by omega) (by omega) hscan.key_pos hbhS hseen0
      rw [← hx0, eq_comm, hspan.bucket_step_iff, key_self, Nat.zero_mod,
        Nat.mod_eq_of_lt (show j < 2 ^ min k 32 by omega)] at heq
      omega
    · -- `endex` is no bucket: the scan ends at the probe that hits the nearest block
      refine hscan.bucketScan_least (key true x g.id) (by omega) (hbucket _)
        (fun j _ _ heq => ?_) (.inl ⟨g, hg, le_rfl⟩) (hother _ (by omega)) fuel 0 bh hg0
        (by omega) hscan.key_pos hbhS hseen0
      have := Nat.mod_lt (step true x j).value.val hspan.pos
      omega

/-- **One call of `GetNextBlock` after the first.** When its `check` passes every bucket, a call
from an index in `[range_lo, range_hi)` returns the stored block nearest above the index and moves
the iterator to its id, with as many rounds for its scan as some stored block above the index is
ids away. -/
theorem nextBlock_above (h : Refines buf S) (hcheck : ∀ i ≤ buf.hashMask, check i = true)
    {x : NormBlockId} (hlo : ¬x < buf.rangeLo) (hhi : x < buf.rangeHi) {fuel : Nat}
    (hfuel : ∃ e ∈ S, x < e.id ∧ key true x e.id ≤ fuel) :
    ∃ b ∈ S, x < b.id ∧ (∀ e ∈ S, x < e.id → e = b ∨ b.id < e.id) ∧
      Iterator.nextBlock check fuel buf ⟨false, x⟩ = some (some b, ⟨false, b.id⟩) := by
  have hne : S.Nonempty := hfuel.imp fun _ he => he.1
  have hends := h.range.ends hne
  have hx := hends.key_lt_of_guard hlo hhi
  rw [Iterator.nextBlock_of_scan rfl (h.range.range_ne_zero hne) hhi hlo]
  dsimp only
  obtain ⟨r, hr, b, hb, hfound, hleast⟩ := h.scan_above hcheck hne hx hfuel rfl
  obtain ⟨hbS, hxb⟩ := Finset.mem_filter.1 hb
  refine ⟨b, hbS, hxb, fun e he hxe => ?_, ?_⟩
  · -- the nearest: any other block above `x` is above `b`
    have hem := hends.le_hi _ (Finset.mem_image_of_mem NormBlock.id he)
    have hbm := hends.le_hi _ (Finset.mem_image_of_mem NormBlock.id hbS)
    have hle := hleast e (Finset.mem_filter.2 ⟨he, hxe⟩)
    rw [hends.lt_iff_of_le hx.le hem] at hxe
    rw [hends.lt_iff_of_le hx.le hbm] at hxb
    rw [key_rebase hxb.le, key_rebase hxe.le] at hle
    rcases Nat.lt_or_ge (key true buf.rangeLo b.id) (key true buf.rangeLo e.id) with hlt | hge
    · exact .inr ((hends.lt_iff_of_le hbm hem).2 hlt)
    · exact .inl (h.chains.id_inj e he b hbS
        (key_inj (show key true buf.rangeLo e.id = key true buf.rangeLo b.id by omega)))
  · rw [hr, Option.map_some']
    rcases hfound with hf | ⟨hf, hid⟩
    · rw [hf]; rfl
    · rw [hf, hid]
      simp only [Option.elim, Option.map_none', Option.getD_none]
      rw [(h.find_eq_some_iff b.id b).2 ⟨hbS, rfl⟩]

/-- The call from a stored block `x` below `range_hi`, with `hash_mask + range_max` rounds:
the block at `range_hi` is above `x`, and less than `range_max` ids away. -/
theorem nextBlock_next (h : Refines buf S) (hcheck : ∀ i ≤ buf.hashMask, check i = true)
    {fuel : Nat} (hfuel : buf.hashMask + buf.rangeMax ≤ fuel) {x : NormBlock} (hx : x ∈ S)
    (hxhi : x.id ≠ buf.rangeHi) :
    ∃ b ∈ S, x.id < b.id ∧ (∀ e ∈ S, x.id < e.id → e = b ∨ b.id < e.id) ∧
      Iterator.nextBlock check fuel buf ⟨false, x.id⟩ = some (some b, ⟨false, b.id⟩) := by
  have hends := h.range.ends ⟨x, hx⟩
  have hxm := Finset.mem_image_of_mem NormBlock.id hx
  obtain ⟨hlo, hhi⟩ := hends.guard_of_mem hxm hxhi
  obtain ⟨bh, hbh, hbhid⟩ := Finset.mem_image.1 hends.hi_mem
  refine h.nextBlock_above hcheck hlo hhi ⟨bh, hbh, hbhid ▸ hhi, ?_⟩
  have := key_rebase (hends.le_hi _ hxm)
  have := h.range.range_val ⟨x, hx⟩
  have := h.range.range_le
  rw [hbhid]
  omega

/-- **The calls from a stored block.** From a stored block `x`, the next calls return the stored
blocks above `x` in ascending order, each once, and then `NULL` on every call: by induction on
the number of blocks above `x`, each call moving to the nearest of them. -/
theorem calls_from (h : Refines buf S) (hcheck : ∀ i ≤ buf.hashMask, check i = true)
    {fuel : Nat} (hfuel : buf.hashMask + buf.rangeMax ≤ fuel) :
    ∀ (n : Nat) (x : NormBlock), x ∈ S → (S.filter (x.id < ·.id)).card = n →
      ∃ l : List NormBlock, (l.map NormBlock.id).Pairwise (· < ·) ∧
        (∀ e, e ∈ l ↔ e ∈ S ∧ x.id < e.id) ∧
        ∀ m, Iterator.calls check fuel buf (l.length + m) ⟨false, x.id⟩ =
          some (l.map some ++ List.replicate m none) := by
  intro n
  induction n with
  | zero =>
    -- nothing above `x`: it is `range_hi`, and every call returns `NULL`
    intro x hx hcard
    have hnone : ∀ e ∈ S, ¬x.id < e.id := fun e he hlt =>
      Finset.not_mem_empty e (Finset.card_eq_zero.1 hcard ▸ Finset.mem_filter.2 ⟨he, hlt⟩)
    obtain ⟨bh, hbh, hbhid⟩ := Finset.mem_image.1 (h.range.ends ⟨x, hx⟩).hi_mem
    have hexh : Iterator.nextBlock check fuel buf ⟨false, x.id⟩ = some (none, ⟨false, x.id⟩) := by
      simp [Iterator.nextBlock, ← hbhid, hnone bh hbh]
    exact ⟨[], List.Pairwise.nil, fun e => by simpa using hnone e,
      fun m => by simpa using Iterator.calls_of_exhausted hexh m⟩
  | succ n ih =>
    intro x hx hcard
    have hends := h.range.ends ⟨x, hx⟩
    have hxm := Finset.mem_image_of_mem NormBlock.id hx
    have hxhi : x.id ≠ buf.rangeHi := by
      intro heq
      obtain ⟨e, he⟩ := Finset.card_pos.1 (by omega : 0 < (S.filter (x.id < ·.id)).card)
      obtain ⟨he, hlt⟩ := Finset.mem_filter.1 he
      exact (hends.between (Finset.mem_image_of_mem _ he)).2 (heq ▸ hlt)
    obtain ⟨b, hb, hxb, hleast, hstep⟩ := h.nextBlock_next hcheck hfuel hx hxhi
    have hbm := Finset.mem_image_of_mem NormBlock.id hb
    have htrans : ∀ e ∈ S, b.id < e.id → x.id < e.id := by
      intro e he hbe
      have hem := Finset.mem_image_of_mem NormBlock.id he
      rw [hends.lt_iff hbm hem] at hbe
      rw [hends.lt_iff hxm hbm] at hxb
      exact (hends.lt_iff hxm hem).2 (hxb.trans hbe)
    -- the blocks above `b` are those above `x` but `b`
    have habove : S.filter (b.id < ·.id) = (S.filter (x.id < ·.id)).erase b := by
      ext e
      simp only [Finset.mem_filter, Finset.mem_erase]
      constructor
      · rintro ⟨he, hbe⟩
        exact ⟨fun heq => lt_irrefl_id _ (heq ▸ hbe), he, htrans e he hbe⟩
      · rintro ⟨hne, he, hxe⟩
        exact ⟨he, (hleast e he hxe).resolve_left hne⟩
    obtain ⟨l, hl, hmem, hcalls⟩ := ih b hb (by
      rw [habove, Finset.card_erase_of_mem (Finset.mem_filter.2 ⟨hb, hxb⟩), hcard]; rfl)
    refine ⟨b :: l, ?_, fun e => ?_, fun m => ?_⟩
    · simp only [List.map_cons, List.pairwise_cons, List.mem_map]
      exact ⟨by rintro _ ⟨e, he, rfl⟩; exact ((hmem e).1 he).2, hl⟩
    · rw [List.mem_cons, hmem]
      constructor
      · rintro (rfl | ⟨he, hbe⟩)
        exacts [⟨hb, hxb⟩, ⟨he, htrans e he hbe⟩]
      · rintro ⟨he, hxe⟩
        rcases hleast e he hxe with rfl | hbe
        exacts [.inl rfl, .inr ⟨he, hbe⟩]
    · rw [List.length_cons, Nat.add_right_comm, Iterator.calls_succ hstep, hcalls]
      rfl

/-- **A fresh iterator lists the stored blocks.** When its `check` passes every bucket, with
`hash_mask + range_max` rounds for each scan, the calls of a fresh iterator return the stored
blocks in ascending order, each once, and then `NULL` on every call. -/
theorem calls_new (h : Refines buf S) (hcheck : ∀ i ≤ buf.hashMask, check i = true) {fuel : Nat}
    (hfuel : buf.hashMask + buf.rangeMax ≤ fuel) :
    ∃ l : List NormBlock, (l.map NormBlock.id).Pairwise (· < ·) ∧ (∀ e, e ∈ l ↔ e ∈ S) ∧
      ∀ m, Iterator.calls check fuel buf (l.length + m) Iterator.new =
        some (l.map some ++ List.replicate m none) := by
  rcases S.eq_empty_or_nonempty with rfl | hne
  · -- an empty buffer: every call returns `NULL`
    have hexh : Iterator.new.nextBlock check fuel buf = some (none, Iterator.new) := by
      simp [Iterator.nextBlock, Iterator.new, h.range.range_eq_zero.2 rfl]
    exact ⟨[], List.Pairwise.nil, by simp,
      fun m => by simpa using Iterator.calls_of_exhausted hexh m⟩
  · -- the first call returns the block at `range_lo`, the rest those above it
    have hends := h.range.ends hne
    obtain ⟨bl, hbl, hblid⟩ := Finset.mem_image.1 hends.lo_mem
    have hfirst : Iterator.new.nextBlock check fuel buf = some (some bl, ⟨false, bl.id⟩) := by
      rw [Iterator.nextBlock_new (h.range.range_ne_zero hne),
        (h.find_eq_some_iff _ bl).2 ⟨hbl, hblid⟩, hblid]
    obtain ⟨l, hl, hmem, hcalls⟩ := h.calls_from hcheck hfuel _ bl hbl rfl
    refine ⟨bl :: l, ?_, fun e => ?_, fun m => ?_⟩
    · simp only [List.map_cons, List.pairwise_cons, List.mem_map]
      exact ⟨by rintro _ ⟨e, he, rfl⟩; exact ((hmem e).1 he).2, hl⟩
    · rw [List.mem_cons, hmem]
      constructor
      · rintro (rfl | ⟨he, -⟩) <;> assumption
      · intro he
        by_cases heq : e = bl
        · exact .inl heq
        · -- every other block is above `range_lo`
          have hem := Finset.mem_image_of_mem NormBlock.id he
          refine .inr ⟨he, (hends.lt_iff (hblid ▸ hends.lo_mem) hem).2 ?_⟩
          rw [hblid, key_self]
          exact Nat.pos_of_ne_zero fun h0 =>
            heq (h.chains.id_inj e he bl hbl
              (key_inj (h0.trans (key_self true _).symm) |>.trans hblid.symm))
    · rw [List.length_cons, Nat.add_right_comm, Iterator.calls_succ hfirst, hcalls]
      rfl

end Refines

/-! ### Runs from `Init` -/

/-- **The iterator lists the stored blocks.** After `Init(rangeMax, 2^k)`, along any sequence of
calls that gives `Insert` only new ids within a window of fewer than `2^31` ids with the stored
ones, the successive `GetNextBlock` calls of a fresh iterator, each with `2^k + rangeMax` rounds
for its scan, return the stored blocks in ascending id order, each once, and then `NULL` on every
further call: with the `ASSERT(i < 256)` compiled out, for every table size, and with it compiled
in, for tables of at most `256` buckets, where it always holds. -/
theorem iterator_lists_blocks {rangeMax k : Nat} {buf : NormBlockBuffer} {S : Finset NormBlock}
    (h : Reachable rangeMax (2 ^ k) buf S) {fuel : Nat} (hfuel : 2 ^ k + rangeMax ≤ fuel) :
    (∃ l : List NormBlock, (l.map NormBlock.id).Pairwise (· < ·) ∧ (∀ b, b ∈ l ↔ b ∈ S) ∧
      ∀ m, Iterator.calls (fun _ => true) fuel buf (l.length + m) Iterator.new =
        some (l.map some ++ List.replicate m none)) ∧
    (k ≤ 8 → ∃ l : List NormBlock, (l.map NormBlock.id).Pairwise (· < ·) ∧
      (∀ b, b ∈ l ↔ b ∈ S) ∧
      ∀ m, Iterator.calls Iterator.bucketAssert fuel buf (l.length + m) Iterator.new =
        some (l.map some ++ List.replicate m none)) := by
  obtain ⟨hmask, hpos⟩ := h.hashMask_lt
  obtain ⟨href, hmax⟩ := h.refines hpos
  refine ⟨href.calls_new (fun _ _ => rfl) (by omega), fun hk => ?_⟩
  have h256 : 2 ^ k ≤ 256 := Nat.pow_le_pow_right (by omega) hk
  exact href.calls_new (fun i hi => decide_eq_true (by omega)) (by omega)

/-- The blocks `3`, `9`, `17` and `23` in a buffer of `8` buckets with `range_max = 24`. -/
theorem iterator_lists_four_blocks :
    ∃ buf S, Reachable 24 (2 ^ 3) buf S ∧ S.image NormBlock.id = {⟨3⟩, ⟨9⟩, ⟨17⟩, ⟨23⟩} ∧
      (∃ l : List NormBlock, (l.map NormBlock.id).Pairwise (· < ·) ∧ (∀ b, b ∈ l ↔ b ∈ S) ∧
        ∀ m, Iterator.calls (fun _ => true) 32 buf (l.length + m) Iterator.new =
          some (l.map some ++ List.replicate m none)) ∧
      ∃ l : List NormBlock, (l.map NormBlock.id).Pairwise (· < ·) ∧ (∀ b, b ∈ l ↔ b ∈ S) ∧
        ∀ m, Iterator.calls Iterator.bucketAssert 32 buf (l.length + m) Iterator.new =
          some (l.map some ++ List.replicate m none) := by
  have h1 := (@Reachable.init 24 (2 ^ 3) ⟨fun _ => [], 7, 24, 0, ⟨0⟩, ⟨0⟩⟩
    (by simp [NormBlockBuffer.init]; rfl)).insert_of_accepted
    { NormBlock.blank with id := ⟨3⟩ } (by simp) ⟨⟨0⟩, by decide⟩ (by decide)
  have h2 := h1.insert_of_accepted { NormBlock.blank with id := ⟨9⟩ } (by decide)
    ⟨⟨0⟩, by decide⟩ (by decide)
  have h3 := h2.insert_of_accepted { NormBlock.blank with id := ⟨17⟩ } (by decide)
    ⟨⟨0⟩, by decide⟩ (by decide)
  have h4 := h3.insert_of_accepted { NormBlock.blank with id := ⟨23⟩ } (by decide)
    ⟨⟨0⟩, by decide⟩ (by decide)
  have hl := iterator_lists_blocks h4 (show 2 ^ 3 + 24 ≤ 32 by decide)
  exact ⟨_, _, h4, by decide, hl.1, hl.2 (by decide)⟩

/-- **With `512` buckets the `ASSERT` stops the iterator.** After `Init(512, 512)` and the blocks
`0` and `300`, the first call returns block `0`, and the second trips `ASSERT(i < 256)` on its way
from bucket `0` to bucket `300`: whatever the rounds, the two calls do not complete. -/
theorem iterator_fails_past_256_buckets :
    ∃ buf S, Reachable 512 (2 ^ 9) buf S ∧ S.image NormBlock.id = {⟨0⟩, ⟨300⟩} ∧
      ∀ fuel, Iterator.calls Iterator.bucketAssert fuel buf 2 Iterator.new = none := by
  have hr := ((@Reachable.init 512 (2 ^ 9) ⟨fun _ => [], 511, 512, 0, ⟨0⟩, ⟨0⟩⟩
    (by simp [NormBlockBuffer.init]; rfl)).insert_of_accepted
    { NormBlock.blank with id := ⟨0⟩ } (by simp) ⟨⟨0⟩, by decide⟩ (by decide)).insert_of_accepted
    { NormBlock.blank with id := ⟨300⟩ } (by decide) ⟨⟨0⟩, by decide⟩ (by decide)
  refine ⟨_, _, hr, by decide, fun fuel => ?_⟩
  -- the first call returns `Find(range_lo)` and moves to id `0`, where the second one fails
  obtain ⟨buf, hinit, -, -, -, -, hnone⟩ := getNextBlock_assert_fails fuel
  obtain rfl : buf = ⟨fun _ => [], 511, 512, 0, ⟨0⟩, ⟨0⟩⟩ := Option.some.inj (hinit.symm.trans rfl)
  rw [Iterator.getNextBlock] at hnone
  rw [Iterator.calls_succ (Iterator.nextBlock_new (by decide)), Iterator.calls]
  erw [hnone]
  rfl

/-! ### Iteration interleaved with updates

An `Iterator` holds a reference to its buffer and only the id it returned last, so the buffer may
change between two calls. -/

/-- **`GetNextBlock` resumes from any index in the span.** In a state reached from
`Init(rangeMax, 2^k)` with `2^k ≤ 256`, whatever calls have changed the buffer since the
iterator's last call, a call from an index `x` with `range_lo <= x < range_hi` returns the stored
block nearest above `x` and moves the iterator to it, with as many rounds for its scan as some
stored block above `x` is ids away. -/
theorem getNextBlock_resumes {rangeMax k fuel : Nat} (hk : k ≤ 8) {buf : NormBlockBuffer}
    {S : Finset NormBlock} (h : Reachable rangeMax (2 ^ k) buf S) {x : NormBlockId}
    (hlo : ¬x < buf.rangeLo) (hhi : x < buf.rangeHi)
    (hfuel : ∃ e ∈ S, x < e.id ∧ key true x e.id ≤ fuel) :
    ∃ b ∈ S, x < b.id ∧ (∀ e ∈ S, x < e.id → e = b ∨ b.id < e.id) ∧
      Iterator.getNextBlock fuel buf ⟨false, x⟩ = some (some b, ⟨false, b.id⟩) := by
  obtain ⟨hmask, hpos⟩ := h.hashMask_lt
  have h256 : 2 ^ k ≤ 256 := Nat.pow_le_pow_right (by omega) hk
  exact (h.refines hpos).1.nextBlock_above (fun i hi => decide_eq_true (by omega)) hlo hhi hfuel

/-- From index `5`, between the stored blocks `3`, `9` and `17`, four rounds take the iterator to
block `9`. -/
theorem getNextBlock_resumes_between_blocks :
    ∃ buf S, Reachable 24 (2 ^ 3) buf S ∧ S.image NormBlock.id = {⟨3⟩, ⟨9⟩, ⟨17⟩} ∧
      ∃ b ∈ S, (⟨5⟩ : NormBlockId) < b.id ∧ (∀ e ∈ S, ⟨5⟩ < e.id → e = b ∨ b.id < e.id) ∧
        Iterator.getNextBlock 4 buf ⟨false, ⟨5⟩⟩ = some (some b, ⟨false, b.id⟩) := by
  have h₉ := ((@Reachable.init 24 (2 ^ 3) ⟨fun _ => [], 7, 24, 0, ⟨0⟩, ⟨0⟩⟩
    (by simp [NormBlockBuffer.init]; rfl)).insert_of_accepted
    { NormBlock.blank with id := ⟨3⟩ } (by simp) ⟨⟨0⟩, by decide⟩ (by decide)).insert_of_accepted
    { NormBlock.blank with id := ⟨9⟩ } (by decide) ⟨⟨0⟩, by decide⟩ (by decide)
  have h₁₇ := h₉.insert_of_accepted { NormBlock.blank with id := ⟨17⟩ } (by decide)
    ⟨⟨0⟩, by decide⟩ (by decide)
  exact ⟨_, _, h₁₇, by decide, getNextBlock_resumes (by decide) h₁₇ (by decide) (by decide)
    ⟨_, Finset.mem_insert_of_mem (Finset.mem_insert_self _ _), by decide, by decide⟩⟩

/-- **Removing the block at `range_lo` ends the iteration there.** In a state reached from
`Init`, once `Remove` has taken out the block at `range_lo`, such as the block a fresh iterator
returns first, a call from its id returns `NULL` and leaves the iterator as it was, whatever
blocks are left: the id is now below `range_lo`, outside the guard `index >= range_lo`. -/
theorem getNextBlock_after_remove_lo {rangeMax k fuel fuel' : Nat} {buf buf' : NormBlockBuffer}
    {S : Finset NormBlock} (h : Reachable rangeMax (2 ^ k) buf S) {x : NormBlock} (hx : x ∈ S)
    (hxlo : x.id = buf.rangeLo) (hrem : buf.remove fuel x = some (true, buf')) :
    Iterator.getNextBlock fuel' buf' ⟨false, x.id⟩ = some (none, ⟨false, x.id⟩) := by
  have href := (h.refines h.hashMask_lt.2).1
  have href' := (href.remove_eq hrem).2
  rw [if_pos rfl] at href'
  -- what is left lies above the removed id, so the new `range_lo` does too
  have hguard : ¬(buf'.range ≠ 0 ∧ x.id < buf'.rangeHi ∧ ¬x.id < buf'.rangeLo) := by
    rintro ⟨hr, -, hlo⟩
    have hne' := Finset.nonempty_iff_ne_empty.2 (mt href'.range.range_eq_zero.2 hr)
    obtain ⟨e, he, hid⟩ := Finset.mem_image.1 (href'.range.ends hne').lo_mem
    obtain ⟨he, hne⟩ := Finset.mem_filter.1 he
    have hends := href.range.ends ⟨x, hx⟩
    have hk := hends.le_hi _ (Finset.mem_image_of_mem NormBlock.id he)
    have hspan := hends.span_lt
    rw [← hxlo] at hk hspan
    have h0 : key true x.id e.id ≠ 0 := fun h0 => hne (key_inj (h0.trans (key_self true _).symm))
    refine hlo (hid ▸ (lt_iff_key_lt (by rw [key_self]; omega) (by omega)).2 ?_)
    rw [key_self]
    omega
  unfold Iterator.getNextBlock Iterator.nextBlock
  rw [if_neg Bool.false_ne_true, if_neg hguard]

/-- A fresh iterator over the blocks `3`, `9` and `17` returns block `3`; after `Remove` of block
`3`, the next call returns `NULL` although blocks `9` and `17` are still stored. -/
theorem iteration_ends_after_remove_lo :
    ∃ buf S, Reachable 24 (2 ^ 3) buf S ∧ S.image NormBlock.id = {⟨3⟩, ⟨9⟩, ⟨17⟩} ∧
      Iterator.new.getNextBlock 8 buf =
        some (some { NormBlock.blank with id := ⟨3⟩ }, ⟨false, ⟨3⟩⟩) ∧
      ∃ buf', buf.remove 8 { NormBlock.blank with id := ⟨3⟩ } = some (true, buf') ∧
        buf'.range ≠ 0 ∧ Iterator.getNextBlock 8 buf' ⟨false, ⟨3⟩⟩ = some (none, ⟨false, ⟨3⟩⟩) := by
  have h₉ := ((@Reachable.init 24 (2 ^ 3) ⟨fun _ => [], 7, 24, 0, ⟨0⟩, ⟨0⟩⟩
    (by simp [NormBlockBuffer.init]; rfl)).insert_of_accepted
    { NormBlock.blank with id := ⟨3⟩ } (by simp) ⟨⟨0⟩, by decide⟩ (by decide)).insert_of_accepted
    { NormBlock.blank with id := ⟨9⟩ } (by decide) ⟨⟨0⟩, by decide⟩ (by decide)
  have h₁₇ := h₉.insert_of_accepted { NormBlock.blank with id := ⟨17⟩ } (by decide)
    ⟨⟨0⟩, by decide⟩ (by decide)
  have href := (h₁₇.refines (by decide)).1
  have hlo : (((⟨fun _ => [], 7, 24, 0, ⟨0⟩, ⟨0⟩⟩ : NormBlockBuffer).insert
      { NormBlock.blank with id := ⟨3⟩ }).2.insert { NormBlock.blank with id := ⟨9⟩ }).2.insert
      { NormBlock.blank with id := ⟨17⟩ } |>.2.rangeLo = ⟨3⟩ := by decide
  have h₃ : { NormBlock.blank with id := ⟨3⟩ } ∈ Insert.insert { NormBlock.blank with id := ⟨17⟩ }
      (Insert.insert { NormBlock.blank with id := ⟨9⟩ }
        (Insert.insert { NormBlock.blank with id := ⟨3⟩ } (∅ : Finset NormBlock))) :=
    Finset.mem_insert_of_mem (Finset.mem_insert_of_mem (Finset.mem_insert_self _ _))
  obtain ⟨buf', hr, href', -⟩ := href.remove_step { NormBlock.blank with id := ⟨3⟩ }
    (show _ ≤ 8 by decide)
  rw [decide_eq_true ⟨_, h₃, rfl⟩] at hr
  refine ⟨_, _, h₁₇, by decide, ?_, buf', hr,
    href'.range.range_ne_zero ⟨{ NormBlock.blank with id := ⟨9⟩ }, by decide⟩,
    getNextBlock_after_remove_lo h₁₇ h₃ hlo.symm hr⟩
  rw [Iterator.getNextBlock, Iterator.nextBlock_new (href.range.range_ne_zero ⟨_, h₃⟩), hlo,
    (href.find_eq_some_iff ⟨3⟩ _).2 ⟨h₃, rfl⟩]

/-! ### `Destroy` -/

/-- **`Destroy` deletes no block.** For every buffer that refines `S`, `Destroy` returns after one
round having deleted nothing, and releases a table whose chains still hold every block of `S`. -/
theorem Refines.destroy_leaves {buf : NormBlockBuffer} {S : Finset NormBlock} (h : Refines buf S)
    (fuel : Nat) :
    ∃ buf', buf.destroy (fuel + 1) = some ([], buf') ∧ buf'.range = 0 ∧ buf'.rangeMax = 0 ∧
      ∀ e ∈ S, e ∈ buf'.table (buf'.bucket e.id) :=
  ⟨_, destroy_eq fuel buf, rfl, rfl, fun e he => (h.chains.mem_iff _ e).2 ⟨he, rfl⟩⟩

/-- **`Destroy` leaks a stored block.** After `Init(8, 8)` and `Insert` of block `5`, `Destroy`
deletes no block, and the table it releases still links block `5`. -/
theorem destroy_leaks_stored_block :
    ∃ buf S, Reachable 8 (2 ^ 3) buf S ∧ S.image NormBlock.id = {⟨5⟩} ∧
      ∀ fuel, ∃ buf', buf.destroy (fuel + 1) = some ([], buf') ∧ buf'.range = 0 ∧
        ∀ e ∈ S, e ∈ buf'.table (buf'.bucket e.id) := by
  have h1 := (@Reachable.init 8 (2 ^ 3) ⟨fun _ => [], 7, 8, 0, ⟨0⟩, ⟨0⟩⟩
    (by simp [NormBlockBuffer.init]; rfl)).insert_of_accepted
    { NormBlock.blank with id := ⟨5⟩ } (by simp) ⟨⟨0⟩, by decide⟩ (by decide)
  refine ⟨_, _, h1, by decide, fun fuel => ?_⟩
  obtain ⟨buf', hd, hr, -, hS⟩ := (h1.refines (by decide)).1.destroy_leaves fuel
  exact ⟨buf', hd, hr, hS⟩

end NormBlockBuffer

end NormSegment
