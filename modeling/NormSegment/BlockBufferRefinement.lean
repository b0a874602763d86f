import Mathlib.Data.Nat.Dist
import NormSegment.BlockBufferScan

/-!
# The block buffer refines a set of blocks

What a `NormBlockBuffer` is for (§4.4): it stores a set `S` of blocks, at most one per id, whose
ids lie in a window of fewer than `2^31` ids, where the order of `NormBlockId` is a total order.
`Refines buf S` says that the buffer represents `S`:

* `ChainsHold`: each chain of the table holds exactly the blocks of `S` whose ids hash to its
  bucket, each once;
* `RangeHolds`: `range` is zero exactly when `S` is empty; otherwise `range_lo` and `range_hi`
  are the `Ends` of the ids of `S`, and `range` counts the ids from one to the other.

Each call keeps the relation and answers as the set does: `Refines.find_eq_some_iff`,
`Refines.canInsert_iff`, `Refines.insert_step` and `Refines.remove_step`. The hard case is
`Remove` at an end of the span, whose reseek scan finds the new end by
`ScanSetup.bucketScan_reseek`. `Reachable` collects the states that calls reach from `Init`,
and `blockBuffer_refines` states the whole contract for each of them.

The reseek stops at the first stored id it meets, so its cost is the gap it closes, not the size
of the table: `Refines.remove_step_within` asks for as many rounds as some other stored block is
ids away from the removed one, or as the table has buckets, and `remove_within_gap` states it for
every reachable state.
-/

namespace NormSegment

namespace NormBlockBuffer

open NormBlockId

/-! ### Windows of ids -/

/-- The ids lie in a window of `n` consecutive block ids: each less than `n` above some id `o`. -/
def InWindow (ids : Finset NormBlockId) (n : Nat) : Prop :=
  ∃ o : NormBlockId, ∀ x ∈ ids, key true o x < n

/-- `lo` and `hi` are the ends of a set of ids spanning fewer than `2^31` ids: both are in the
set, and every id of it lies from `lo` up to `hi`. -/
structure Ends (ids : Finset NormBlockId) (lo hi : NormBlockId) : Prop where
  lo_mem : lo ∈ ids
  hi_mem : hi ∈ ids
  le_hi : ∀ x ∈ ids, key true lo x ≤ key true lo hi
  span_lt : key true lo hi < 2147483647

namespace Ends

variable {ids : Finset NormBlockId} {lo hi : NormBlockId}

theorem key_lt (h : Ends ids lo hi) {x : NormBlockId} (hx : x ∈ ids) :
    key true lo x < 2147483647 :=
  (h.le_hi x hx).trans_lt h.span_lt

/-- The ends are the least and the greatest id in the order of `NormBlockId`. -/
theorem between (h : Ends ids lo hi) {x : NormBlockId} (hx : x ∈ ids) : ¬x < lo ∧ ¬hi < x := by
  have h1 := h.key_lt hx; have h2 := h.le_hi x hx; have h3 := h.span_lt
  have h0 := key_self true lo
  rw [lt_iff_key_lt (show key true lo x < 2147483648 by omega)
      (show key true lo lo < 2147483648 by omega),
    lt_iff_key_lt (show key true lo hi < 2147483648 by omega)
      (show key true lo x < 2147483648 by omega)]
  omega

/-- Seen from the base `o` of any window of fewer than `2^31` ids that holds the set, `lo` is the
nearest id and `hi` the farthest. -/
theorem base_keys (h : Ends ids lo hi) {o : NormBlockId}
    (ho : ∀ x ∈ ids, key true o x < 2147483647) {x : NormBlockId} (hx : x ∈ ids) :
    key true o lo ≤ key true o x ∧ key true o x ≤ key true o hi ∧
      key true lo x = key true o x - key true o lo := by
  have := ho lo h.lo_mem; have := h.key_lt hx; have := h.span_lt; have := h.le_hi x hx
  have := key_add o lo x; have := key_add o lo hi
  omega

/-- **The span of the set.** The ids lie in a window of `n` ids exactly when `n` covers the ids
from `lo` to `hi`. -/
theorem inWindow_iff (h : Ends ids lo hi) (n : Nat) :
    InWindow ids n ↔ key true lo hi + 1 ≤ n := by
  constructor
  · rintro ⟨o, ho⟩
    by_cases hn : 2147483647 ≤ n
    · have := h.span_lt; omega
    · have := (h.base_keys (fun x hx => (ho x hx).trans_le (by omega)) h.hi_mem).2.2
      have := ho hi h.hi_mem
      omega
  · intro hn
    exact ⟨lo, fun x hx => by have := h.le_hi x hx; omega⟩

/-- A subset that keeps both ends has the same ends. -/
theorem of_subset (h : Ends ids lo hi) {ids' : Finset NormBlockId} (hsub : ids' ⊆ ids)
    (hlo : lo ∈ ids') (hhi : hi ∈ ids') : Ends ids' lo hi :=
  ⟨hlo, hhi, fun x hx => h.le_hi x (hsub hx), h.span_lt⟩

/-- A subset that keeps `hi` has for its low end its id nearest to `lo`. -/
theorem of_least (h : Ends ids lo hi) {ids' : Finset NormBlockId} (hsub : ids' ⊆ ids)
    {l : NormBlockId} (hl : l ∈ ids') (hhi : hi ∈ ids')
    (hleast : ∀ x ∈ ids', key true lo l ≤ key true lo x) : Ends ids' l hi := by
  have hlh := h.le_hi hi h.hi_mem
  refine ⟨hl, hhi, fun x hx => ?_, ?_⟩
  · have := h.le_hi x (hsub hx)
    rw [key_rebase (hleast x hx), key_rebase (hleast hi hhi)]
    omega
  · rw [key_rebase (hleast hi hhi)]
    have := h.span_lt
    omega

/-- A subset that keeps `lo` has for its high end its id nearest to `hi`. -/
theorem of_greatest (h : Ends ids lo hi) {ids' : Finset NormBlockId} (hsub : ids' ⊆ ids)
    (hlo : lo ∈ ids') {u : NormBlockId} (hu : u ∈ ids')
    (hgreatest : ∀ x ∈ ids', key true u hi ≤ key true x hi) : Ends ids' lo u := by
  have hdown : ∀ x ∈ ids, key true x hi = key true lo hi - key true lo x :=
    fun x hx => key_rebase (h.le_hi x hx)
  have hu' := h.le_hi u (hsub hu); have := hdown u (hsub hu)
  refine ⟨hlo, hu, fun x hx => ?_, by have := h.span_lt; omega⟩
  have := h.le_hi x (hsub hx); have := hdown x (hsub hx); have := hgreatest x hx
  omega

/-- **Widening below.** An id below `lo`, in a window of fewer than `2^31` ids with the set,
becomes the low end, and the span grows by its distance below `lo`. -/
theorem insert_below (h : Ends ids lo hi) {x : NormBlockId}
    (hw : InWindow (Insert.insert x ids) 2147483647) (hlt : x < lo) :
    Ends (Insert.insert x ids) x hi ∧ key true x hi = key true x lo + key true lo hi := by
  obtain ⟨o, ho⟩ := hw
  have hoS : ∀ y ∈ ids, key true o y < 2147483647 := fun y hy => ho y (Finset.mem_insert_of_mem hy)
  have hox := ho x (Finset.mem_insert_self x ids)
  have hol := hoS lo h.lo_mem; have hoh := hoS hi h.hi_mem
  have hxlo : key true o x < key true o lo :=
    (lt_iff_key_lt (show key true o x < 2147483648 by omega)
      (show key true o lo < 2147483648 by omega)).1 hlt
  obtain ⟨hlohi, -, hlh⟩ := h.base_keys hoS h.hi_mem
  have hxhi := key_rebase (show key true o x ≤ key true o hi by omega)
  refine ⟨⟨Finset.mem_insert_self x ids, Finset.mem_insert_of_mem h.hi_mem, fun y hy => ?_,
    by omega⟩, by rw [key_rebase hxlo.le]; omega⟩
  rcases Finset.mem_insert.1 hy with rfl | hy
  · rw [key_self]; exact Nat.zero_le _
  · obtain ⟨h1, h2, -⟩ := h.base_keys hoS hy
    rw [key_rebase (show key true o x ≤ key true o y by omega)]
    omega

/-- **Widening above.** An id above `hi`, in a window of fewer than `2^31` ids with the set,
becomes the high end, and the span grows by its distance above `hi`. -/
theorem insert_above (h : Ends ids lo hi) {x : NormBlockId}
    (hw : InWindow (Insert.insert x ids) 2147483647) (hgt : hi < x) :
    Ends (Insert.insert x ids) lo x ∧ key true lo x = key true lo hi + key true hi x := by
  obtain ⟨o, ho⟩ := hw
  have hoS : ∀ y ∈ ids, key true o y < 2147483647 := fun y hy => ho y (Finset.mem_insert_of_mem hy)
  have hox := ho x (Finset.mem_insert_self x ids)
  have hoh := hoS hi h.hi_mem
  have hhix : key true o hi < key true o x :=
    (lt_iff_key_lt (show key true o hi < 2147483648 by omega)
      (show key true o x < 2147483648 by omega)).1 hgt
  obtain ⟨hlohi, -, hlh⟩ := h.base_keys hoS h.hi_mem
  have hlox := key_rebase (show key true o lo ≤ key true o x by omega)
  refine ⟨⟨Finset.mem_insert_of_mem h.lo_mem, Finset.mem_insert_self x ids, fun y hy => ?_,
    by omega⟩, by rw [key_rebase hhix.le]; omega⟩
  rcases Finset.mem_insert.1 hy with rfl | hy
  · exact le_rfl
  · obtain ⟨-, h2, h3⟩ := h.base_keys hoS hy
    omega

/-- An id from `lo` up to `hi` leaves the ends as they are. -/
theorem insert_within (h : Ends ids lo hi) {x : NormBlockId} (hlt : ¬x < lo) (hgt : ¬hi < x) :
    Ends (Insert.insert x ids) lo hi := by
  rw [lt_iff_key] at hlt hgt
  have := key_add lo x hi; have := h.span_lt
  refine ⟨Finset.mem_insert_of_mem h.lo_mem, Finset.mem_insert_of_mem h.hi_mem, fun y hy => ?_,
    h.span_lt⟩
  rcases Finset.mem_insert.1 hy with rfl | hy
  · omega
  · exact h.le_hi y hy

end Ends

/-- `hi - lo + 1` counts the ids from `lo` to `hi`. -/
theorem val_sub_add_one {lo hi : NormBlockId} (h : key true lo hi < 4294967295) :
    (hi.value - lo.value + 1).val = key true lo hi + 1 := by
  rw [Fin.val_add]
  show (key true lo hi + 1) % 4294967296 = _
  omega

/-! ### The table holds the blocks -/

/-- The table holds the set `S`: each chain holds exactly the blocks of `S` whose ids hash to its
bucket, each once, and no two blocks of `S` share an id. -/
structure ChainsHold (buf : NormBlockBuffer) (S : Finset NormBlock) : Prop where
  mem_iff : ∀ i e, e ∈ buf.table i ↔ e ∈ S ∧ buf.bucket e.id = i
  nodup : ∀ i, (buf.table i).Nodup
  id_inj : ∀ a ∈ S, ∀ b ∈ S, a.id = b.id → a = b

/-- Linking a block puts it in its bucket's chain and leaves every other block where it was. -/
theorem mem_link_table {buf : NormBlockBuffer} {b e : NormBlock} {i : Nat} :
    e ∈ (buf.link b).table i ↔ e ∈ buf.table i ∨ (e = b ∧ buf.bucket b.id = i) := by
  simp only [link, setChain_table, Function.update_apply]
  split_ifs with hi
  · subst hi
    rw [List.perm_middle.mem_iff, List.takeWhile_append_dropWhile]
    simp [or_comm]
  · simp [Ne.symm hi]

/-- Erasing by id from a chain whose blocks have distinct ids takes out exactly the block with
that id. -/
theorem mem_eraseP_id {l : List NormBlock} (hnd : l.Nodup)
    (hinj : ∀ a ∈ l, ∀ b ∈ l, a.id = b.id → a = b) {blockId : NormBlockId} {e : NormBlock} :
    e ∈ l.eraseP (·.id = blockId) ↔ e ∈ l ∧ e.id ≠ blockId := by
  by_cases he : e.id = blockId
  · simp only [he, ne_eq, not_true_eq_false, and_false, iff_false]
    intro hmem
    have hel := List.mem_of_mem_eraseP hmem
    obtain ⟨a, l₁, l₂, hl₁, ha, rfl, heq⟩ :=
      @List.exists_of_eraseP _ (fun x => decide (x.id = blockId)) _ _ hel (by simpa using he)
    obtain rfl : a = e :=
      hinj a (by simp) e hel ((by simpa using ha : a.id = blockId).trans he.symm)
    rw [heq, List.mem_append] at hmem
    rcases hmem with h1 | h2
    · exact hl₁ a h1 ha
    · exact (List.nodup_cons.1 (List.nodup_append.1 hnd).2.1).1 h2
  · rw [List.mem_eraseP_of_neg (by simpa using he)]
    simp [he]

namespace ChainsHold

variable {buf : NormBlockBuffer} {S : Finset NormBlock}

/-- The relation reads only the table and the mask. -/
theorem congr {buf' : NormBlockBuffer} (h : ChainsHold buf S) (ht : buf'.table = buf.table)
    (hm : buf'.hashMask = buf.hashMask) : ChainsHold buf' S where
  mem_iff i e := by rw [ht, bucket, hm]; exact h.mem_iff i e
  nodup i := ht ▸ h.nodup i
  id_inj := h.id_inj

theorem of_empty (h : ∀ i, buf.table i = []) : ChainsHold buf ∅ where
  mem_iff i e := by simp [h]
  nodup i := by simp [h]
  id_inj := by simp

/-- `Find`'s walk of a chain stops at a block exactly when it is the block of `S` with the id
sought. -/
theorem find?_eq_some_iff (h : ChainsHold buf S) (blockId : NormBlockId) (e : NormBlock) :
    (buf.table (buf.bucket blockId)).find? (·.id = blockId) = some e ↔ e ∈ S ∧ e.id = blockId := by
  constructor
  · intro hf
    exact ⟨((h.mem_iff _ e).1 (List.mem_of_find?_eq_some hf)).1, by simpa using List.find?_some hf⟩
  · rintro ⟨he, rfl⟩
    have hmem : e ∈ buf.table (buf.bucket e.id) := (h.mem_iff _ e).2 ⟨he, rfl⟩
    cases hf : (buf.table (buf.bucket e.id)).find? (·.id = e.id) with
    | none => exact absurd (List.find?_eq_none.1 hf e hmem) (by simp)
    | some e' =>
      rw [h.id_inj e' ((h.mem_iff _ e').1 (List.mem_of_find?_eq_some hf)).1 e he
        (by simpa using List.find?_some hf)]

/-- `Remove`'s walk of a chain finds the id exactly when a block of `S` has it. -/
theorem any_iff (h : ChainsHold buf S) (blockId : NormBlockId) :
    (buf.table (buf.bucket blockId)).any (·.id = blockId) = true ↔ ∃ e ∈ S, e.id = blockId := by
  rw [List.any_eq_true]
  constructor
  · rintro ⟨e, he, hid⟩
    exact ⟨e, ((h.mem_iff _ e).1 he).1, by simpa using hid⟩
  · rintro ⟨e, he, rfl⟩
    exact ⟨e, (h.mem_iff _ e).2 ⟨he, rfl⟩, decide_eq_true rfl⟩

/-- Linking a block with a new id makes the table hold `S` with the block. -/
theorem link (h : ChainsHold buf S) {b : NormBlock} (hnew : ∀ e ∈ S, e.id ≠ b.id) :
    ChainsHold (buf.link b) (Insert.insert b S) where
  mem_iff i e := by
    rw [mem_link_table, h.mem_iff, Finset.mem_insert]
    show _ ↔ _ ∧ buf.bucket e.id = i
    constructor
    · rintro (⟨he, hi⟩ | ⟨rfl, hi⟩)
      exacts [⟨Or.inr he, hi⟩, ⟨Or.inl rfl, hi⟩]
    · rintro ⟨rfl | he, hi⟩
      exacts [Or.inr ⟨rfl, hi⟩, Or.inl ⟨he, hi⟩]
  nodup i := by
    simp only [NormBlockBuffer.link, setChain_table, Function.update_apply]
    split_ifs
    · rw [List.perm_middle.nodup_iff, List.takeWhile_append_dropWhile, List.nodup_cons]
      exact ⟨fun hb => hnew b ((h.mem_iff _ b).1 hb).1 rfl, h.nodup _⟩
    · exact h.nodup i
  id_inj x hx y hy hxy := by
    rw [Finset.mem_insert] at hx hy
    rcases hx with rfl | hx <;> rcases hy with rfl | hy
    · rfl
    · exact absurd hxy.symm (hnew y hy)
    · exact absurd hxy (hnew x hx)
    · exact h.id_inj x hx y hy hxy

/-- Unlinking by id makes the table hold the blocks of `S` with other ids. -/
theorem unlink (h : ChainsHold buf S) (blockId : NormBlockId) :
    ChainsHold (buf.setChain (buf.bucket blockId)
      ((buf.table (buf.bucket blockId)).eraseP (·.id = blockId))) (S.filter (·.id ≠ blockId)) where
  mem_iff i e := by
    simp only [setChain_table, Function.update_apply, Finset.mem_filter]
    show _ ↔ (e ∈ S ∧ e.id ≠ blockId) ∧ buf.bucket e.id = i
    split_ifs with hi
    · subst hi
      rw [mem_eraseP_id (h.nodup _) (fun a ha b hb =>
        h.id_inj a ((h.mem_iff _ a).1 ha).1 b ((h.mem_iff _ b).1 hb).1), h.mem_iff]
      constructor
      · rintro ⟨⟨he, hb⟩, hne⟩; exact ⟨⟨he, hne⟩, hb⟩
      · rintro ⟨⟨he, hne⟩, hb⟩; exact ⟨⟨he, hb⟩, hne⟩
    · rw [h.mem_iff]
      constructor
      · rintro ⟨he, rfl⟩; exact ⟨⟨he, fun hid => hi (by rw [hid])⟩, rfl⟩
      · rintro ⟨⟨he, _⟩, hb⟩; exact ⟨he, hb⟩
  nodup i := by
    simp only [setChain_table, Function.update_apply]
    split_ifs
    · exact (h.nodup _).sublist (List.eraseP_sublist _)
    · exact h.nodup i
  id_inj a ha b hb := h.id_inj a (Finset.mem_filter.1 ha).1 b (Finset.mem_filter.1 hb).1

end ChainsHold

/-! ### The span fields describe the blocks -/

/-- The span fields describe `S`: `range` is zero exactly when `S` is empty; otherwise `range_lo`
and `range_hi` are the ends of the ids of `S` and `range` counts the ids from one to the other;
and `range` is at most `range_max`. -/
structure RangeHolds (buf : NormBlockBuffer) (S : Finset NormBlock) : Prop where
  range_eq_zero : buf.range = 0 ↔ S = ∅
  ends : S.Nonempty → Ends (S.image NormBlock.id) buf.rangeLo buf.rangeHi
  range_val : S.Nonempty → buf.range.val = key true buf.rangeLo buf.rangeHi + 1
  range_le : buf.range.val ≤ buf.rangeMax

namespace RangeHolds

variable {buf : NormBlockBuffer} {S : Finset NormBlock}

/-- The span fields of a set that is not empty. -/
theorem of_ends (hne : S.Nonempty) (hends : Ends (S.image NormBlock.id) buf.rangeLo buf.rangeHi)
    (hval : buf.range.val = key true buf.rangeLo buf.rangeHi + 1)
    (hle : buf.range.val ≤ buf.rangeMax) : RangeHolds buf S where
  range_eq_zero := by
    rw [← Finset.not_nonempty_iff_eq_empty, iff_false_intro (not_not.2 hne), iff_false]
    intro h0
    rw [h0] at hval
    simp at hval
  ends _ := hends
  range_val _ := hval
  range_le := hle

theorem of_empty (hr : buf.range = 0) : RangeHolds buf ∅ where
  range_eq_zero := iff_of_true hr rfl
  ends h := absurd h Finset.not_nonempty_empty
  range_val h := absurd h Finset.not_nonempty_empty
  range_le := by rw [hr]; exact Nat.zero_le _

theorem range_ne_zero (h : RangeHolds buf S) (hne : S.Nonempty) : buf.range ≠ 0 :=
  fun h0 => hne.ne_empty (h.range_eq_zero.1 h0)

/-- `range = range_hi - range_lo + 1`. -/
theorem range_eq_sub (h : RangeHolds buf S) (hne : S.Nonempty) :
    buf.range = buf.rangeHi.value - buf.rangeLo.value + 1 :=
  Fin.ext (by rw [val_sub_add_one (by have := (h.ends hne).span_lt; omega), h.range_val hne])

end RangeHolds

theorem mem_image_filter_ne {S : Finset NormBlock} {x y : NormBlockId} :
    x ∈ (S.filter (·.id ≠ y)).image NormBlock.id ↔ x ∈ S.image NormBlock.id ∧ x ≠ y := by
  simp only [Finset.mem_image, Finset.mem_filter]
  constructor
  · rintro ⟨e, ⟨he, hne⟩, rfl⟩; exact ⟨⟨e, he, rfl⟩, hne⟩
  · rintro ⟨⟨e, he, rfl⟩, hne⟩; exact ⟨e, ⟨he, hne⟩, rfl⟩

/-! ### The refinement and the calls -/

/-- **The buffer refines the set `S` of stored blocks**: a power-of-two table that holds `S`,
span fields that describe it, and a positive `range_max`. -/
structure Refines (buf : NormBlockBuffer) (S : Finset NormBlock) : Prop where
  mask_pow : ∃ k, buf.hashMask = 2 ^ k - 1
  rangeMax_pos : 0 < buf.rangeMax
  chains : ChainsHold buf S
  range : RangeHolds buf S

/-- `Init` keeps a table size that is a power of two, and takes one bucket for sizes below `8`. -/
theorem init_tableSize_pow (k : Nat) :
    ∃ k', (if 2 ^ k &&& 7 ≠ 0 then (2 ^ k >>> 3) + 1 else 2 ^ k) = 2 ^ k' := by
  rcases Nat.lt_or_ge k 3 with hk | hk
  · obtain rfl | rfl | rfl : k = 0 ∨ k = 1 ∨ k = 2 := by omega
    all_goals exact ⟨0, by decide⟩
  · refine ⟨k, if_neg (not_not.2 ?_)⟩
    rw [show (7 : Nat) = 2 ^ 3 - 1 from rfl, Nat.and_pow_two_sub_one_eq_mod]
    exact Nat.mod_eq_zero_of_dvd (Nat.pow_dvd_pow 2 hk)

/-- **`Init`.** With a positive `range_max` and a power-of-two table size, `Init` starts a buffer
that refines the empty set. -/
theorem Refines.init {rangeMax k : Nat} (hpos : 0 < rangeMax) {buf : NormBlockBuffer}
    (h : NormBlockBuffer.init rangeMax (2 ^ k) = some buf) :
    Refines buf ∅ ∧ buf.rangeMax = rangeMax := by
  obtain ⟨k', hk'⟩ := init_tableSize_pow k
  simp only [NormBlockBuffer.init, Nat.pos_iff_ne_zero.1 hpos, (Nat.two_pow_pos k).ne', or_self,
    if_false, hk', Option.some.injEq] at h
  subst h
  exact ⟨⟨⟨k', rfl⟩, hpos, ChainsHold.of_empty fun _ => rfl, RangeHolds.of_empty rfl⟩, rfl⟩

namespace Refines

variable {buf : NormBlockBuffer} {S : Finset NormBlock}

/-- **`Find`.** The buffer finds a block exactly when it is the block of `S` with the id sought. -/
theorem find_eq_some_iff (h : Refines buf S) (blockId : NormBlockId) (e : NormBlock) :
    buf.find blockId = some e ↔ e ∈ S ∧ e.id = blockId := by
  unfold find
  by_cases hr : buf.range = 0
  · simp [hr, h.range.range_eq_zero.1 hr]
  · simp only [ne_eq, hr, not_false_eq_true, if_true]
    split_ifs with hout
    · refine iff_of_false (by simp) ?_
      rintro ⟨he, rfl⟩
      have := (h.range.ends ⟨e, he⟩).between (Finset.mem_image_of_mem _ he)
      tauto
    · exact h.chains.find?_eq_some_iff blockId e

/-- **`CanInsert`.** For an id in a window of fewer than `2^31` ids with the stored ones,
`CanInsert` holds exactly when the stored ids and the new one lie in a window of `range_max`
ids. -/
theorem canInsert_iff (h : Refines buf S) {blockId : NormBlockId}
    (hw : InWindow (Insert.insert blockId (S.image NormBlock.id)) 2147483647) :
    buf.canInsert blockId = true ↔
      InWindow (Insert.insert blockId (S.image NormBlock.id)) buf.rangeMax := by
  rcases S.eq_empty_or_nonempty with rfl | hne
  · simp only [canInsert, h.range.range_eq_zero.2 rfl, ne_eq, not_true_eq_false, if_false,
      true_iff]
    exact ⟨blockId, by simp [key_self, h.rangeMax_pos]⟩
  · have hends := h.range.ends hne
    have hval := h.range.range_val hne
    simp only [canInsert, ne_eq, h.range.range_ne_zero hne, not_false_eq_true, if_true]
    split_ifs with hlt hgt
    · obtain ⟨hends', hkey⟩ := hends.insert_below hw hlt
      have := hends'.span_lt
      rw [hends'.inWindow_iff, decide_eq_true_iff, Fin.val_add, hval]
      show (key true blockId buf.rangeLo + (key true buf.rangeLo buf.rangeHi + 1)) %
        4294967296 ≤ _ ↔ _
      omega
    · obtain ⟨hends', hkey⟩ := hends.insert_above hw hgt
      have := hends'.span_lt
      rw [hends'.inWindow_iff, decide_eq_true_iff, Fin.val_add, hval]
      show (key true buf.rangeHi blockId + (key true buf.rangeLo buf.rangeHi + 1)) %
        4294967296 ≤ _ ↔ _
      omega
    · rw [(hends.insert_within hlt hgt).inWindow_iff, ← hval]
      exact iff_of_true rfl h.range.range_le

/-- **`Insert`.** A block with a new id, in a window of fewer than `2^31` ids with the stored
ones, that `Insert` accepts, leaves a buffer that refines `S` with the block. -/
theorem insert_step (h : Refines buf S) {b : NormBlock} (hnew : ∀ e ∈ S, e.id ≠ b.id)
    (hw : InWindow (Insert.insert b.id (S.image NormBlock.id)) 2147483647)
    (hok : (buf.insert b).1 = true) : Refines (buf.insert b).2 (Insert.insert b S) := by
  have hchains := h.chains.link hnew
  rcases S.eq_empty_or_nonempty with rfl | hne
  · rw [insert_of_range_zero (h.range.range_eq_zero.2 rfl)]
    refine ⟨h.mask_pow, h.rangeMax_pos, hchains.congr rfl rfl,
      RangeHolds.of_ends (Finset.insert_nonempty _ _)
        ⟨by simp, by simp, by simp, by simp [key_self]⟩ (by simp [key_self]) h.rangeMax_pos⟩
  · have hends := h.range.ends hne
    have hval := h.range.range_val hne
    rw [insert_of_range_ne_zero (h.range.range_ne_zero hne)] at hok ⊢
    split_ifs at hok ⊢ with hlt hfail hgt hfail'
    · -- below `range_lo`: the block's id becomes the low end
      obtain ⟨hends', hkey⟩ := hends.insert_below hw hlt
      have := hends'.span_lt
      have hv : (buf.rangeLo.value - b.id.value + buf.range).val =
          key true b.id buf.rangeHi + 1 := by
        rw [Fin.val_add, hval]
        show (key true b.id buf.rangeLo + (key true buf.rangeLo buf.rangeHi + 1)) %
          4294967296 = _
        omega
      refine ⟨h.mask_pow, h.rangeMax_pos, hchains.congr rfl rfl,
        RangeHolds.of_ends (Finset.insert_nonempty _ _) (by rw [Finset.image_insert]; exact hends')
          hv (show (buf.rangeLo.value - b.id.value + buf.range).val ≤ buf.rangeMax by omega)⟩
    · -- above `range_hi`: the block's id becomes the high end
      obtain ⟨hends', hkey⟩ := hends.insert_above hw hgt
      have := hends'.span_lt
      have hv : (b.id.value - buf.rangeHi.value + buf.range).val =
          key true buf.rangeLo b.id + 1 := by
        rw [Fin.val_add, hval]
        show (key true buf.rangeHi b.id + (key true buf.rangeLo buf.rangeHi + 1)) %
          4294967296 = _
        omega
      refine ⟨h.mask_pow, h.rangeMax_pos, hchains.congr rfl rfl,
        RangeHolds.of_ends (Finset.insert_nonempty _ _) (by rw [Finset.image_insert]; exact hends')
          hv (show (b.id.value - buf.rangeHi.value + buf.range).val ≤ buf.rangeMax by omega)⟩
    · -- inside the span: only the chain changes
      exact ⟨h.mask_pow, h.rangeMax_pos, hchains,
        RangeHolds.of_ends (Finset.insert_nonempty _ _)
          (by rw [Finset.image_insert]; exact hends.insert_within hlt hgt) hval h.range.range_le⟩

/-- `Remove` of an id that no block of `S` has returns false and leaves the buffer as it was. -/
theorem remove_absent (h : Refines buf S) {b : NormBlock} (hmem : ¬∃ e ∈ S, e.id = b.id)
    (fuel : Nat) : buf.remove fuel b = some (false, buf) :=
  remove_of_not_any (Bool.eq_false_iff.2 (mt (h.chains.any_iff b.id).1 hmem))

/-- `Remove` of the only stored block empties the span. -/
theorem remove_single (h : Refines buf S) {b : NormBlock} (hmem : ∃ e ∈ S, e.id = b.id)
    (hle : ¬1 < buf.range.val) (fuel : Nat) :
    ∃ buf', buf.remove fuel b = some (true, buf') ∧ Refines buf' (S.filter (·.id ≠ b.id)) := by
  obtain ⟨e0, he0, hid0⟩ := hmem
  have hends := h.range.ends ⟨e0, he0⟩
  have hval := h.range.range_val ⟨e0, he0⟩
  have hin := hends.between (hid0 ▸ Finset.mem_image_of_mem NormBlock.id he0)
  rw [remove_of_single (h.range.range_ne_zero ⟨e0, he0⟩) (by tauto)
    ((h.chains.any_iff b.id).2 ⟨e0, he0, hid0⟩) hle]
  -- a span of one id: every stored block has the removed id
  have hone : ∀ e ∈ S, e.id = buf.rangeLo := fun e he =>
    key_inj ((by have := hends.le_hi _ (Finset.mem_image_of_mem _ he); omega :
      key true buf.rangeLo e.id = 0).trans (key_self true _).symm)
  have hempty : S.filter (·.id ≠ b.id) = ∅ := Finset.filter_false_of_mem fun e he =>
    not_not.2 (by rw [hone e he, ← hone e0 he0, hid0])
  refine ⟨_, rfl, h.mask_pow, h.rangeMax_pos, (h.chains.unlink b.id).congr rfl rfl, ?_⟩
  rw [hempty]
  exact RangeHolds.of_empty rfl

/-- `Remove` strictly inside the span keeps both ends. -/
theorem remove_inner (h : Refines buf S) {b : NormBlock} (hmem : ∃ e ∈ S, e.id = b.id)
    (hgt : 1 < buf.range.val) (hlo : b.id ≠ buf.rangeLo) (hhi : b.id ≠ buf.rangeHi) (fuel : Nat) :
    ∃ buf', buf.remove fuel b = some (true, buf') ∧ Refines buf' (S.filter (·.id ≠ b.id)) := by
  obtain ⟨e0, he0, hid0⟩ := hmem
  have hne : S.Nonempty := ⟨e0, he0⟩
  have hends := h.range.ends hne
  have hin := hends.between (hid0 ▸ Finset.mem_image_of_mem NormBlock.id he0)
  rw [remove_of_inner (h.range.range_ne_zero hne) (by tauto)
    ((h.chains.any_iff b.id).2 ⟨e0, he0, hid0⟩) hgt hlo hhi]
  have hsub : (S.filter (·.id ≠ b.id)).image NormBlock.id ⊆ S.image NormBlock.id :=
    Finset.image_subset_image (Finset.filter_subset _ _)
  have hlo' := mem_image_filter_ne.2 ⟨hends.lo_mem, Ne.symm hlo⟩
  have hhi' := mem_image_filter_ne.2 ⟨hends.hi_mem, Ne.symm hhi⟩
  exact ⟨_, rfl, h.mask_pow, h.rangeMax_pos, h.chains.unlink b.id,
    RangeHolds.of_ends (Finset.image_nonempty.1 ⟨_, hlo'⟩) (hends.of_subset hsub hlo' hhi')
      (h.range.range_val hne) h.range.range_le⟩

/-- **`Remove` at `range_lo`.** In a span of more than one id, the reseek scan up from the
removed id returns the stored id nearest above it, which becomes the low end; it needs as many
rounds as some other stored block is ids away, or as the table has buckets. -/
theorem remove_lo (h : Refines buf S) {b : NormBlock} (hmem : ∃ e ∈ S, e.id = b.id)
    (hlo : b.id = buf.rangeLo) (hgt : 1 < buf.range.val) {fuel : Nat}
    (hfuel : (∃ e ∈ S, e.id ≠ b.id ∧
      Nat.dist (key true buf.rangeLo b.id) (key true buf.rangeLo e.id) ≤ fuel) ∨
      buf.hashMask + 1 ≤ fuel) :
    ∃ buf', buf.remove fuel b = some (true, buf') ∧ Refines buf' (S.filter (·.id ≠ b.id)) := by
  obtain ⟨k, hk⟩ := h.mask_pow
  obtain ⟨e0, he0, hid0⟩ := hmem
  have hne : S.Nonempty := ⟨e0, he0⟩
  have hends := h.range.ends hne
  have hval : buf.range.val = key true b.id buf.rangeHi + 1 := hlo ▸ h.range.range_val hne
  have hspan : key true b.id buf.rangeHi < 2147483647 := hlo ▸ hends.span_lt
  have hin := hends.between (hid0 ▸ Finset.mem_image_of_mem NormBlock.id he0)
  have hchains := h.chains.unlink b.id
  -- what is left lies between one and `range - 1` ids above the removed id
  have hkeys : ∀ e ∈ S.filter (·.id ≠ b.id),
      0 < key true b.id e.id ∧ key true b.id e.id ≤ key true b.id buf.rangeHi := by
    intro e he
    obtain ⟨he, hne'⟩ := Finset.mem_filter.1 he
    refine ⟨Nat.pos_of_ne_zero fun h0 => hne' (key_inj (h0.trans (key_self true _).symm)),
      hlo ▸ hends.le_hi _ (Finset.mem_image_of_mem _ he)⟩
  -- the block at `range_hi` stays
  obtain ⟨eh, heh, hidh⟩ := Finset.mem_image.1 hends.hi_mem
  have hehS : eh ∈ S.filter (·.id ≠ b.id) := by
    refine Finset.mem_filter.2 ⟨heh, fun heq => ?_⟩
    have : key true b.id buf.rangeHi = 0 := by rw [← hidh, heq, key_self]
    omega
  have hsetup : ScanSetup (buf.setChain (buf.bucket b.id)
      ((buf.table (buf.bucket b.id)).eraseP (·.id = b.id))) true b.id
      (fun e best => decide (b.id < e ∧ e < best)) (S.filter (·.id ≠ b.id)) (2 ^ min k 32) :=
    ⟨by rw [setChain_hashMask, hk]; exact bucketSpan_pow k, hchains.mem_iff,
      fun e he => (hkeys e he).1, fun e he => by have := (hkeys e he).2; omega,
      fun x hx y hy => decide_eq_decide.2 (better_up_iff (hkeys x hx).1
        (by have := (hkeys x hx).2; omega) (by have := (hkeys y hy).2; omega))⟩
  have hidx : buf.bucket b.id = b.id.value.val % 2 ^ min k 32 := hsetup.bucket_eq b.id
  have hendex : (if buf.range.val ≤ buf.hashMask then
      (buf.bucket b.id + buf.range.val - 1) % 4294967296 &&& buf.hashMask else buf.bucket b.id) =
      if key true b.id buf.rangeHi + 1 ≤ buf.hashMask then
        (step true b.id (key true b.id buf.rangeHi)).value.val % 2 ^ min k 32
      else buf.bucket b.id := by
    rw [hval]
    split_ifs
    · rw [hidx, ← Nat.add_assoc, Nat.add_sub_cancel]
      exact (hk ▸ bucketSpan_pow k).endex_up b.id _
    · rfl
  have hfuel' : (∃ e ∈ S.filter (·.id ≠ b.id), key true b.id e.id ≤ fuel) ∨
      buf.hashMask + 1 ≤ fuel := hfuel.imp_left fun ⟨e, he, hne, hd⟩ =>
    ⟨e, Finset.mem_filter.2 ⟨he, hne⟩, by rwa [← hlo, key_self, Nat.dist_zero_left] at hd⟩
  obtain ⟨r, hr, b', hb', hid', hleast⟩ := hsetup.bucketScan_reseek (fun e he => (hkeys e he).2)
    (by omega) hehS hfuel' hidx hendex
  rw [hidh] at hr
  rw [remove_of_lo (h.range.range_ne_zero hne) hlo hin.2 ((h.chains.any_iff b.id).2
    ⟨e0, he0, hid0⟩) hgt]
  dsimp only
  rw [hr, Option.map_some', hid']
  refine ⟨_, rfl, h.mask_pow, h.rangeMax_pos, hchains.congr rfl rfl, ?_⟩
  -- the nearest id above becomes the low end
  have hb'hi : key true b.id b'.id ≤ key true b.id buf.rangeHi := hidh ▸ hleast eh hehS
  have hrebase := key_rebase hb'hi
  have hends' : Ends ((S.filter (·.id ≠ b.id)).image NormBlock.id) b'.id buf.rangeHi :=
    (hlo ▸ hends).of_least (Finset.image_subset_image (Finset.filter_subset _ _))
      (Finset.mem_image_of_mem _ hb') (hidh ▸ Finset.mem_image_of_mem _ hehS)
      fun x hx => by obtain ⟨e, he, rfl⟩ := Finset.mem_image.1 hx; exact hleast e he
  have hrange := val_sub_add_one (show key true b'.id buf.rangeHi < 4294967295 by omega)
  exact RangeHolds.of_ends ⟨eh, hehS⟩ hends' hrange
    (show (buf.rangeHi.value - b'.id.value + 1).val ≤ buf.rangeMax by
      have := h.range.range_le; omega)

/-- **`Remove` at `range_hi`.** In a span of more than one id, the reseek scan down from the
removed id returns the stored id nearest below it, which becomes the high end; it needs as many
rounds as some other stored block is ids away, or as the table has buckets. -/
theorem remove_hi (h : Refines buf S) {b : NormBlock} (hmem : ∃ e ∈ S, e.id = b.id)
    (hlo : b.id ≠ buf.rangeLo) (hhi : b.id = buf.rangeHi) (hgt : 1 < buf.range.val) {fuel : Nat}
    (hfuel : (∃ e ∈ S, e.id ≠ b.id ∧
      Nat.dist (key true buf.rangeLo b.id) (key true buf.rangeLo e.id) ≤ fuel) ∨
      buf.hashMask + 1 ≤ fuel) :
    ∃ buf', buf.remove fuel b = some (true, buf') ∧ Refines buf' (S.filter (·.id ≠ b.id)) := by
  obtain ⟨k, hk⟩ := h.mask_pow
  obtain ⟨e0, he0, hid0⟩ := hmem
  have hne : S.Nonempty := ⟨e0, he0⟩
  have hends : Ends (S.image NormBlock.id) buf.rangeLo b.id := hhi ▸ h.range.ends hne
  have hval : buf.range.val = key true buf.rangeLo b.id + 1 := hhi ▸ h.range.range_val hne
  have hspan := hends.span_lt
  have hin := hends.between (hid0 ▸ Finset.mem_image_of_mem NormBlock.id he0)
  have hchains := h.chains.unlink b.id
  -- going down from the removed id, what is left lies between one and `range - 1` ids away
  have hkeys : ∀ e ∈ S.filter (·.id ≠ b.id),
      0 < key false b.id e.id ∧ key false b.id e.id ≤ key true buf.rangeLo b.id := by
    intro e he
    obtain ⟨he, hne'⟩ := Finset.mem_filter.1 he
    have hle := hends.le_hi _ (Finset.mem_image_of_mem _ he)
    rw [key_false_eq, key_rebase hle]
    refine ⟨Nat.pos_of_ne_zero fun h0 => hne' ?_, Nat.sub_le _ _⟩
    exact key_inj (show key true buf.rangeLo e.id = key true buf.rangeLo b.id by omega)
  -- the block at `range_lo` stays
  obtain ⟨el, hel, hidl⟩ := Finset.mem_image.1 hends.lo_mem
  have helS : el ∈ S.filter (·.id ≠ b.id) := by
    refine Finset.mem_filter.2 ⟨hel, fun heq => ?_⟩
    have : key true buf.rangeLo b.id = 0 := by rw [← hidl, heq, key_self]
    omega
  have hsetup : ScanSetup (buf.setChain (buf.bucket b.id)
      ((buf.table (buf.bucket b.id)).eraseP (·.id = b.id))) false b.id
      (fun e best => decide (e < b.id ∧ best < e)) (S.filter (·.id ≠ b.id)) (2 ^ min k 32) :=
    ⟨by rw [setChain_hashMask, hk]; exact bucketSpan_pow k, hchains.mem_iff,
      fun e he => (hkeys e he).1, fun e he => by have := (hkeys e he).2; omega,
      fun x hx y hy => decide_eq_decide.2 (better_down_iff (hkeys x hx).1
        (by have := (hkeys x hx).2; omega) (by have := (hkeys y hy).2; omega))⟩
  have hidx : buf.bucket b.id = b.id.value.val % 2 ^ min k 32 := hsetup.bucket_eq b.id
  have hendex : (if buf.range.val ≤ buf.hashMask then
      (buf.bucket b.id + 4294967296 - buf.range.val + 1) % 4294967296 &&& buf.hashMask
      else buf.bucket b.id) =
      if key true buf.rangeLo b.id + 1 ≤ buf.hashMask then
        (step false b.id (key true buf.rangeLo b.id)).value.val % 2 ^ min k 32
      else buf.bucket b.id := by
    rw [hval]
    split_ifs
    · rw [hidx, show b.id.value.val % 2 ^ min k 32 + 4294967296 - (key true buf.rangeLo b.id + 1) + 1
        = b.id.value.val % 2 ^ min k 32 + (4294967296 - key true buf.rangeLo b.id) by omega]
      exact (hk ▸ bucketSpan_pow k).endex_down b.id (by omega)
    · rfl
  have hfuel' : (∃ e ∈ S.filter (·.id ≠ b.id), key false b.id e.id ≤ fuel) ∨
      buf.hashMask + 1 ≤ fuel := hfuel.imp_left fun ⟨e, he, hne, hd⟩ => by
    refine ⟨e, Finset.mem_filter.2 ⟨he, hne⟩, ?_⟩
    have hle := hends.le_hi _ (Finset.mem_image_of_mem _ he)
    rw [key_false_eq, key_rebase hle]
    unfold Nat.dist at hd
    omega
  obtain ⟨r, hr, b', hb', hid', hleast⟩ := hsetup.bucketScan_reseek (fun e he => (hkeys e he).2)
    (by omega) helS hfuel' hidx hendex
  rw [hidl] at hr
  rw [remove_of_hi (h.range.range_ne_zero hne) hin.1 hlo hhi ((h.chains.any_iff b.id).2
    ⟨e0, he0, hid0⟩) hgt]
  dsimp only
  rw [hr, Option.map_some', hid']
  refine ⟨_, rfl, h.mask_pow, h.rangeMax_pos, hchains.congr rfl rfl, ?_⟩
  -- the nearest id below becomes the high end
  have hends' : Ends ((S.filter (·.id ≠ b.id)).image NormBlock.id) buf.rangeLo b'.id :=
    hends.of_greatest (Finset.image_subset_image (Finset.filter_subset _ _))
      (hidl ▸ Finset.mem_image_of_mem _ helS) (Finset.mem_image_of_mem _ hb')
      fun x hx => by obtain ⟨e, he, rfl⟩ := Finset.mem_image.1 hx; exact hleast e he
  have hb'le := hends.le_hi _ (Finset.mem_image_of_mem _ (Finset.mem_filter.1 hb').1)
  have hrange := val_sub_add_one (show key true buf.rangeLo b'.id < 4294967295 by omega)
  exact RangeHolds.of_ends ⟨el, helS⟩ hends' hrange
    (show (b'.id.value - buf.rangeLo.value + 1).val ≤ buf.rangeMax by
      have := h.range.range_le; omega)

/-- **`Remove`.** With as many rounds for its scan as some other stored block is ids away from the
removed one, or as the table has buckets, `Remove` returns whether a block of `S` has the id, and
leaves a buffer that refines `S` without it; when no block has the id, the buffer is unchanged. -/
theorem remove_step_within (h : Refines buf S) (b : NormBlock) {fuel : Nat}
    (hfuel : (∃ e ∈ S, e.id ≠ b.id ∧
      Nat.dist (key true buf.rangeLo b.id) (key true buf.rangeLo e.id) ≤ fuel) ∨
      buf.hashMask + 1 ≤ fuel) :
    ∃ buf', buf.remove fuel b = some (decide (∃ e ∈ S, e.id = b.id), buf') ∧
      Refines buf' (S.filter (·.id ≠ b.id)) ∧ ((¬∃ e ∈ S, e.id = b.id) → buf' = buf) := by
  by_cases hmem : ∃ e ∈ S, e.id = b.id
  · obtain ⟨buf', hr, href⟩ : ∃ buf', buf.remove fuel b = some (true, buf') ∧
        Refines buf' (S.filter (·.id ≠ b.id)) := by
      by_cases hgt : 1 < buf.range.val
      · by_cases hlo : b.id = buf.rangeLo
        · exact h.remove_lo hmem hlo hgt hfuel
        · by_cases hhi : b.id = buf.rangeHi
          · exact h.remove_hi hmem hlo hhi hgt hfuel
          · exact h.remove_inner hmem hgt hlo hhi fuel
      · exact h.remove_single hmem hgt fuel
    exact ⟨buf', by rw [hr, decide_eq_true hmem], href, fun hn => absurd hmem hn⟩
  · refine ⟨buf, by rw [h.remove_absent hmem, decide_eq_false hmem], ?_, fun _ => rfl⟩
    have hS : S.filter (·.id ≠ b.id) = S :=
      Finset.filter_true_of_mem fun e he hid => hmem ⟨e, he, hid⟩
    rwa [hS]

/-- **`Remove`.** With at least `hash_mask + 1` rounds for its scan, `Remove` returns whether a
block of `S` has the id, and leaves a buffer that refines `S` without it; when no block has the
id, the buffer is unchanged. -/
theorem remove_step (h : Refines buf S) (b : NormBlock) {fuel : Nat}
    (hfuel : buf.hashMask + 1 ≤ fuel) :
    ∃ buf', buf.remove fuel b = some (decide (∃ e ∈ S, e.id = b.id), buf') ∧
      Refines buf' (S.filter (·.id ≠ b.id)) ∧ ((¬∃ e ∈ S, e.id = b.id) → buf' = buf) :=
  h.remove_step_within b (.inr hfuel)

/-- Whatever fuel it ran with, a `Remove` that completes answers as `remove_step` says. -/
theorem remove_eq (h : Refines buf S) {b : NormBlock} {fuel : Nat} {ok : Bool}
    {buf' : NormBlockBuffer} (hr : buf.remove fuel b = some (ok, buf')) :
    ok = decide (∃ e ∈ S, e.id = b.id) ∧ Refines buf' (if ok then S.filter (·.id ≠ b.id) else S) := by
  obtain ⟨buf'', hr', href, hsame⟩ := h.remove_step b (le_max_right fuel (buf.hashMask + 1))
  have heq := hr'.symm.trans (remove_of_le (le_max_left _ _) hr)
  simp only [Option.some.injEq, Prod.mk.injEq] at heq
  obtain ⟨hok, rfl⟩ := heq
  refine ⟨hok.symm, ?_⟩
  by_cases hmem : ∃ e ∈ S, e.id = b.id
  · rwa [← hok, decide_eq_true hmem, if_pos rfl]
  · rw [← hok, decide_eq_false hmem, if_neg Bool.false_ne_true, hsame hmem]
    exact h

end Refines

/-! ### Runs from `Init` -/

/-- The states a block buffer reaches from `Init(rangeMax, tableSize)`, each with the set of
blocks that the calls so far have stored. `Insert` is given only blocks whose ids are not stored
and lie with the stored ones in a window of fewer than `2^31` ids, and stores the blocks it
accepts; a `Remove` that returns true takes out the block with the given id. `Find` and
`CanInsert` change nothing. -/
inductive Reachable (rangeMax tableSize : Nat) : NormBlockBuffer → Finset NormBlock → Prop
  | init {buf : NormBlockBuffer} :
      NormBlockBuffer.init rangeMax tableSize = some buf → Reachable rangeMax tableSize buf ∅
  | insert {buf : NormBlockBuffer} {S : Finset NormBlock} (b : NormBlock) :
      Reachable rangeMax tableSize buf S → (∀ e ∈ S, e.id ≠ b.id) →
      InWindow (Insert.insert b.id (S.image NormBlock.id)) 2147483647 →
      Reachable rangeMax tableSize (buf.insert b).2
        (if (buf.insert b).1 then Insert.insert b S else S)
  | remove {buf buf' : NormBlockBuffer} {S : Finset NormBlock} (fuel : Nat) (b : NormBlock)
      (ok : Bool) : Reachable rangeMax tableSize buf S → buf.remove fuel b = some (ok, buf') →
      Reachable rangeMax tableSize buf' (if ok then S.filter (·.id ≠ b.id) else S)

/-- An accepted `Insert` stores the block. -/
theorem Reachable.insert_of_accepted {rangeMax tableSize : Nat} {buf : NormBlockBuffer}
    {S : Finset NormBlock} (h : Reachable rangeMax tableSize buf S) (b : NormBlock)
    (hnew : ∀ e ∈ S, e.id ≠ b.id) (hw : InWindow (Insert.insert b.id (S.image NormBlock.id)) 2147483647)
    (hok : (buf.insert b).1 = true) :
    Reachable rangeMax tableSize (buf.insert b).2 (Insert.insert b S) := by
  simpa [hok] using h.insert b hnew hw

/-- Every reachable state refines its set, and keeps `Init`'s `range_max`: the run lemma,
by induction over the calls. -/
theorem Reachable.refines {rangeMax k : Nat} (hpos : 0 < rangeMax) {buf : NormBlockBuffer}
    {S : Finset NormBlock} (h : Reachable rangeMax (2 ^ k) buf S) :
    Refines buf S ∧ buf.rangeMax = rangeMax := by
  induction h with
  | init hinit => exact Refines.init hpos hinit
  | @insert buf S b _ hnew hw ih =>
    rw [insert_rangeMax]
    refine ⟨?_, ih.2⟩
    cases hok : (buf.insert b).1
    · simpa [insert_snd_of_refused hok] using ih.1
    · simpa using ih.1.insert_step hnew hw hok
  | remove fuel b ok _ hrem ih =>
    exact ⟨(ih.1.remove_eq hrem).2, (remove_rangeMax hrem).trans ih.2⟩

/-- `Init` succeeds only with a positive `range_max`, and leaves fewer buckets than `tableSize`;
the calls keep the mask. -/
theorem Reachable.hashMask_lt {rangeMax tableSize : Nat} {buf : NormBlockBuffer}
    {S : Finset NormBlock} (h : Reachable rangeMax tableSize buf S) :
    buf.hashMask < tableSize ∧ 0 < rangeMax := by
  induction h with
  | init hinit =>
    unfold NormBlockBuffer.init at hinit
    split_ifs at hinit with h0 h7 <;> simp only [reduceCtorEq, Option.some.injEq] at hinit <;>
      subst hinit
    · dsimp only; rw [Nat.shiftRight_eq_div_pow]; omega
    · dsimp only; omega
  | insert b _ _ _ ih => rwa [insert_hashMask]
  | remove fuel b ok _ hrem ih => rwa [(remove_frame hrem).1]

/-- The contract of a block buffer that stores the set `S` of blocks, after `Init` with
`rangeMax`. -/
structure Contract (rangeMax : Nat) (buf : NormBlockBuffer) (S : Finset NormBlock) : Prop where
  /-- `Find` returns exactly the stored block with the id, and `NULL` when there is none. -/
  find_iff : ∀ blockId e, buf.find blockId = some e ↔ e ∈ S ∧ e.id = blockId
  /-- For an id within `2^31` ids of the stored ones, `CanInsert` holds exactly when the stored
  ids and the new one fit in a window of `rangeMax` ids. -/
  canInsert_iff : ∀ blockId, InWindow (Insert.insert blockId (S.image NormBlock.id)) 2147483647 →
    (buf.canInsert blockId = true ↔
      InWindow (Insert.insert blockId (S.image NormBlock.id)) rangeMax)
  /-- `Insert` answers as `CanInsert`, and leaves the buffer as it was when it refuses. -/
  insert_eq : ∀ b : NormBlock, (buf.insert b).1 = buf.canInsert b.id ∧
    ((buf.insert b).1 = false → (buf.insert b).2 = buf)
  /-- `Remove` completes, returns whether the id is stored, and changes nothing when it is not. -/
  remove_eq : ∀ (b : NormBlock) (fuel : Nat), buf.hashMask + 1 ≤ fuel →
    ∃ buf', buf.remove fuel b = some (decide (∃ e ∈ S, e.id = b.id), buf') ∧
      ((¬∃ e ∈ S, e.id = b.id) → buf' = buf)
  /-- `range` is zero exactly when nothing is stored. -/
  range_eq_zero : buf.range = 0 ↔ S = ∅
  /-- Otherwise `range_lo` and `range_hi` are the least and the greatest stored id, and
  `range = range_hi - range_lo + 1`. -/
  span : S.Nonempty → (∃ e ∈ S, e.id = buf.rangeLo) ∧ (∃ e ∈ S, e.id = buf.rangeHi) ∧
    (∀ e ∈ S, ¬e.id < buf.rangeLo ∧ ¬buf.rangeHi < e.id) ∧
    buf.range = buf.rangeHi.value - buf.rangeLo.value + 1

/-- **The block buffer refines the set of blocks it stores.** After `Init(rangeMax, 2^k)` with
`rangeMax > 0`, along any sequence of calls that gives `Insert` only new ids, within a window of
fewer than `2^31` ids with the stored ones, the buffer keeps the contract of the stored set. The
heart of it is `Remove` at an end of the span, whose reseek scan finds the new end in every
power-of-two table. -/
theorem blockBuffer_refines {rangeMax k : Nat} (hpos : 0 < rangeMax) {buf : NormBlockBuffer}
    {S : Finset NormBlock} (h : Reachable rangeMax (2 ^ k) buf S) : Contract rangeMax buf S := by
  obtain ⟨href, hmax⟩ := h.refines hpos
  refine ⟨href.find_eq_some_iff, fun blockId hw => hmax ▸ href.canInsert_iff hw,
    fun b => ⟨insert_fst buf b, insert_snd_of_refused⟩,
    fun b fuel hfuel => (href.remove_step b hfuel).imp fun _ hb => ⟨hb.1, hb.2.2⟩,
    href.range.range_eq_zero, fun hne => ?_⟩
  have hends := href.range.ends hne
  obtain ⟨el, hel, hidl⟩ := Finset.mem_image.1 hends.lo_mem
  obtain ⟨eh, heh, hidh⟩ := Finset.mem_image.1 hends.hi_mem
  exact ⟨⟨el, hel, hidl⟩, ⟨eh, heh, hidh⟩,
    fun e he => hends.between (Finset.mem_image_of_mem _ he), href.range.range_eq_sub hne⟩

/-- Blocks `5` and `7` inserted into a buffer of `8` buckets with `range_max = 8`. -/
theorem blockBuffer_refines_two_blocks :
    ∃ buf S, Reachable 8 (2 ^ 3) buf S ∧ S.image NormBlock.id = {⟨5⟩, ⟨7⟩} ∧
      Contract 8 buf S := by
  have h1 := (@Reachable.init 8 (2 ^ 3) ⟨fun _ => [], 7, 8, 0, ⟨0⟩, ⟨0⟩⟩
    (by simp [NormBlockBuffer.init]; rfl)).insert_of_accepted
    { NormBlock.blank with id := ⟨5⟩ } (by simp) ⟨⟨0⟩, by decide⟩ (by decide)
  have h2 := h1.insert_of_accepted { NormBlock.blank with id := ⟨7⟩ } (by simp) ⟨⟨0⟩, by decide⟩
    (by decide)
  exact ⟨_, _, h2, by decide, blockBuffer_refines (by decide) h2⟩

/-! ### The cost of `Remove` -/

/-- **`Remove` scans no further than the gap it closes.** In a state reached from `Init`, a
`Remove` completes, and answers as `remove_step` says, with as many rounds for its reseek as some
other stored block is ids away from the removed one, however many buckets the table has: the scan
stops at the first stored id it meets. -/
theorem remove_within_gap {rangeMax k fuel : Nat} {buf : NormBlockBuffer} {S : Finset NormBlock}
    (h : Reachable rangeMax (2 ^ k) buf S) (b : NormBlock) {e : NormBlock} (he : e ∈ S)
    (hne : e.id ≠ b.id)
    (hfuel : Nat.dist (key true buf.rangeLo b.id) (key true buf.rangeLo e.id) ≤ fuel) :
    ∃ buf', buf.remove fuel b = some (decide (∃ e ∈ S, e.id = b.id), buf') ∧
      Refines buf' (S.filter (·.id ≠ b.id)) := by
  obtain ⟨buf', hr, href, -⟩ :=
    (h.refines h.hashMask_lt.2).1.remove_step_within b (.inl ⟨e, he, hne, hfuel⟩)
  exact ⟨buf', hr, href⟩

/-- In a table of `256` buckets that stores blocks `5` and `7`, `Remove` of block `5` completes
with two rounds. -/
theorem remove_within_gap_two_rounds :
    ∃ buf S, Reachable 8 (2 ^ 8) buf S ∧ S.image NormBlock.id = {⟨5⟩, ⟨7⟩} ∧ buf.hashMask = 255 ∧
      ∃ buf', buf.remove 2 { NormBlock.blank with id := ⟨5⟩ } = some (true, buf') ∧
        Refines buf' (S.filter (·.id ≠ ⟨5⟩)) := by
  have h₅₇ := ((@Reachable.init 8 (2 ^ 8) ⟨fun _ => [], 255, 8, 0, ⟨0⟩, ⟨0⟩⟩
    (by simp [NormBlockBuffer.init]; rfl)).insert_of_accepted
    { NormBlock.blank with id := ⟨5⟩ } (by simp) ⟨⟨0⟩, by decide⟩ (by decide)).insert_of_accepted
    { NormBlock.blank with id := ⟨7⟩ } (by decide) ⟨⟨0⟩, by decide⟩ (by decide)
  obtain ⟨buf', hr, href⟩ := remove_within_gap h₅₇ { NormBlock.blank with id := ⟨5⟩ }
    (Finset.mem_insert_self _ _) (by decide) (show _ ≤ 2 by decide)
  exact ⟨_, _, h₅₇, by decide, rfl, buf', by rw [hr]; rfl, href⟩

end NormBlockBuffer

end NormSegment
