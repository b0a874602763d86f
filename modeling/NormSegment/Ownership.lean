import NormSegment.Block
import Mathlib.Data.List.Nodup

/-!
# Who owns a segment

A segment buffer of a pool is always in one place: on the pool's free list, in a slot of a block,
or with the caller that took it by `Get` (§3 of the spec, "Ownership"). `SegmentWorld` is a pool
with the blocks it supplies and the segments its caller holds, and `PoolOp` names the calls that
move segments between them: the pool's `Init`, `Get` and `Put`, and a block's `AttachSegment` and
`EmptyToPool`.

Apart from `Init`, no call creates or destroys a segment; each moves segments from one place to
another, so the list of all places is the same up to order (`PoolOp.places_get` and its
siblings). `Init` frees the listed segments and allocates new ones, at addresses no live segment
has. From these two facts `PoolInv` follows for every reachable world (`PoolReachable.poolInv`):
no segment is in two places, and the segments of the last `Init` are, up to order, those on the
free list, with the caller and in block slots, so `seg_count` plus the segments of that `Init`
outside the pool is `seg_total` (`PoolInv.count_add`).

`Init` on a pool whose free list is not empty runs `Destroy`, whose `ASSERT(seg_count ==
seg_total)` fails when a segment is out; the call then does not complete, and a run cannot go on
past it. By the count, `Init` completes exactly when the free list is empty or every segment of
the last `Init` is back on it (`init_completes_iff`).

The block-side lemmas come first: `EmptyToPool` puts the block's segments on the free list in
reverse slot order and empties every slot (`emptyToPool_segList`, `segments_emptyToPool`), and
`AttachSegment` into an empty slot adds one segment to the block (`segments_attachSegment`).
-/

namespace NormSegment

/-! ### Lists of places -/

theorem reduceOption_set_some_perm {α : Type} (a : α) :
    ∀ (l : List (Option α)) (i : Nat), l[i]? = some none →
      (l.set i (some a)).reduceOption.Perm (a :: l.reduceOption)
  | [], _, h => by simp at h
  | x :: l, 0, h => by
    simp only [List.getElem?_cons_zero, Option.some.injEq] at h
    subst h
    simp [List.reduceOption_cons_of_some, List.reduceOption_cons_of_none]
  | x :: l, i + 1, h => by
    simp only [List.getElem?_cons_succ] at h
    have ih := reduceOption_set_some_perm a l i h
    cases x with
    | none => simpa [List.reduceOption_cons_of_none] using ih
    | some y =>
      simp only [List.set_cons_succ, List.reduceOption_cons_of_some]
      exact (ih.cons y).trans (List.Perm.swap a y _)

theorem flatMap_set_perm {α β : Type} [DecidableEq β] (g : α → List β) (a b : α) :
    ∀ (l : List α) (k : Nat), l[k]? = some b →
      ((l.set k a).flatMap g ++ g b).Perm (l.flatMap g ++ g a)
  | [], _, h => by simp at h
  | x :: l, 0, h => by
    simp only [List.getElem?_cons_zero, Option.some.injEq] at h
    subst h
    refine List.perm_iff_count.2 fun y => ?_
    simp only [List.set_cons_zero, List.flatMap_cons, List.count_append]
    omega
  | x :: l, k + 1, h => by
    simp only [List.getElem?_cons_succ] at h
    simp only [List.set_cons_succ, List.flatMap_cons, List.append_assoc]
    exact (flatMap_set_perm g a b l k h).append_left _

/-! ### The segments of a block -/

namespace NormBlock

/-- The segments a block owns, in slot order. -/
def segments (b : NormBlock) : List Segment := b.segmentTable.reduceOption

/-- Modelled from the spec (§3, "Ownership"): `AttachSegment(sid, segment)`, the block taking
ownership of a segment in slot `sid`. -/
def attachSegment (b : NormBlock) (sid : Nat) (s : Segment) : NormBlock :=
  { b with segmentTable := b.segmentTable.set sid (some s),
           table_length := by rw [List.length_set, b.table_length] }

theorem segments_attachSegment {b : NormBlock} {sid : Nat} (s : Segment)
    (h : b.segmentTable[sid]? = some none) : (b.attachSegment sid s).segments.Perm (s :: b.segments) :=
  reduceOption_set_some_perm s _ _ h

theorem foldl_put_segList (segs : List Segment) (p : NormSegmentPool) :
    (segs.foldl NormSegmentPool.put p).segList = segs.reverse ++ p.segList := by
  induction segs generalizing p with
  | nil => rfl
  | cons s segs ih => simp [ih]

/-- `EmptyToPool` pushes the block's segments on the free list, in slot order. -/
theorem emptyToPool_segList (b : NormBlock) (p : NormSegmentPool) :
    (b.emptyToPool p).2.segList = b.segments.reverse ++ p.segList :=
  foldl_put_segList _ _

theorem emptyToPool_segTotal (b : NormBlock) (p : NormSegmentPool) :
    (b.emptyToPool p).2.segTotal = p.segTotal := by
  unfold emptyToPool
  induction b.segmentTable.reduceOption generalizing p with
  | nil => rfl
  | cons s segs ih => exact ih (p.put s)

/-- `EmptyToPool` leaves no segment in the block. -/
theorem segments_emptyToPool (b : NormBlock) (p : NormSegmentPool) :
    (b.emptyToPool p).1.segments = [] := by
  simp [emptyToPool, segments, List.reduceOption, List.filterMap_replicate]

/-- **`EmptyToPool`** leaves the block empty and raises `seg_count` by the block's number of
occupied slots. -/
theorem emptyToPool_isEmpty_segCount (b : NormBlock) (p : NormSegmentPool) :
    (b.emptyToPool p).1.isEmpty = true ∧
      (b.emptyToPool p).2.segCount = p.segCount + (b.segmentTable.filter Option.isSome).length := by
  refine ⟨by simp [isEmpty, emptyToPool], ?_⟩
  rw [NormSegmentPool.count_eq, emptyToPool_segList, p.count_eq, List.length_append,
    List.length_reverse, segments, List.reduceOption_length_eq, Nat.add_comm]

end NormBlock

/-! ### The world of a pool -/

/-- A pool, the blocks it supplies and its caller. `held` are the segments the caller holds, taken
by `Get` since the last `Init` and not yet returned; `generation` the segments the last `Init`
allocated; `fresh` the first address no allocation has returned yet (the model allocates upward
from it, so a new segment is never a live one). -/
structure SegmentWorld where
  pool : NormSegmentPool
  blocks : List NormBlock
  held : List Segment
  generation : List Segment
  fresh : Nat

/-- Every place a segment can be: the free list, the caller, the slots of the blocks. -/
def SegmentWorld.places (w : SegmentWorld) : List Segment :=
  w.pool.segList ++ w.held ++ w.blocks.flatMap NormBlock.segments

/-- The calls that move segments; a block is named by its position `k`, a slot by `sid`. -/
inductive PoolOp
  | init (count size : Nat)
  | get
  | put (s : Segment)
  | attachSegment (k sid : Nat) (s : Segment)
  | emptyToPool (k : Nat)

namespace SegmentWorld

/-- `Init` on the world: it draws its `count` new segments from `fresh`; the segments the caller
held before it are of an older generation and are no longer followed. It does not complete when
the pool's `Init` does not. -/
def init (w : SegmentWorld) (count size : Nat) : Option SegmentWorld :=
  (w.pool.init count size w.fresh).map fun pool =>
    { w with pool := pool, held := [], generation := List.range' w.fresh count,
             fresh := w.fresh + count }

/-- `Get` on the world: its result, if any, goes to the caller. -/
def get (w : SegmentWorld) : SegmentWorld :=
  { w with pool := w.pool.get.2, held := w.pool.get.1.toList ++ w.held }

/-- `Put` on the world: the caller gives the segment back. -/
def put (w : SegmentWorld) (s : Segment) : SegmentWorld :=
  { w with pool := w.pool.put s, held := w.held.erase s }

/-- `AttachSegment` on the `k`-th block: the caller gives the segment to it. -/
def attachSegment (w : SegmentWorld) (k sid : Nat) (s : Segment) : SegmentWorld :=
  match w.blocks[k]? with
  | some b => { w with blocks := w.blocks.set k (b.attachSegment sid s), held := w.held.erase s }
  | none => w

/-- `EmptyToPool` of the `k`-th block into the pool. -/
def emptyToPool (w : SegmentWorld) (k : Nat) : SegmentWorld :=
  match w.blocks[k]? with
  | some b => { w with blocks := w.blocks.set k (b.emptyToPool w.pool).1,
                       pool := (b.emptyToPool w.pool).2 }
  | none => w

end SegmentWorld

namespace PoolOp

/-- A call on the world, `none` when it does not complete: only `Init` may not. -/
def run : PoolOp → SegmentWorld → Option SegmentWorld
  | .init count size, w => w.init count size
  | .get, w => some w.get
  | .put s, w => some (w.put s)
  | .attachSegment k sid s, w => some (w.attachSegment k sid s)
  | .emptyToPool k, w => some (w.emptyToPool k)

/-- The calls a caller may make: `Put` and `AttachSegment` (into an empty slot) of a segment it
holds, and `EmptyToPool` of a block whose segments all come from the last `Init`. -/
def Valid (w : SegmentWorld) : PoolOp → Prop
  | .init _ _ | .get => True
  | .put s => s ∈ w.held
  | .attachSegment k sid s =>
    s ∈ w.held ∧ ∀ b, w.blocks[k]? = some b → b.segmentTable[sid]? = some none
  | .emptyToPool k => ∀ b, w.blocks[k]? = some b → ∀ s ∈ b.segments, s ∈ w.generation

end PoolOp

/-! ### Calls other than `Init` only move segments -/

namespace PoolOp

variable {w : SegmentWorld}

theorem places_get : w.get.places.Perm w.places := by
  simp only [SegmentWorld.get, SegmentWorld.places]
  rcases hl : w.pool.segList with _ | ⟨s, rest⟩
  · obtain ⟨h1, h2, -⟩ := NormSegmentPool.get_of_nil hl
    rw [h1, h2]; rfl
  · obtain ⟨h1, h2, -⟩ := NormSegmentPool.get_of_cons hl
    rw [h1, h2]
    refine List.perm_iff_count.2 fun y => ?_
    simp only [Option.toList_some, List.singleton_append, List.count_append, List.count_cons]
    omega

theorem places_put {s : Segment} (hs : s ∈ w.held) : (w.put s).places.Perm w.places := by
  refine List.perm_iff_count.2 fun y => ?_
  have h := (List.perm_cons_erase hs).count_eq y
  simp only [List.count_cons] at h
  simp only [SegmentWorld.put, SegmentWorld.places, NormSegmentPool.segList_put,
    List.count_append, List.count_cons]
  omega

theorem places_attachSegment {k sid : Nat} {s : Segment}
    (hop : (PoolOp.attachSegment k sid s).Valid w) :
    (w.attachSegment k sid s).places.Perm w.places := by
  obtain ⟨hs, hslot⟩ := hop
  cases hk : w.blocks[k]? with
  | none => simp only [SegmentWorld.attachSegment, hk]; rfl
  | some b =>
    simp only [SegmentWorld.attachSegment, hk]
    refine List.perm_iff_count.2 fun y => ?_
    have h₁ := (List.perm_cons_erase hs).count_eq y
    have h₂ := (flatMap_set_perm NormBlock.segments (b.attachSegment sid s) b _ _ hk).count_eq y
    have h₃ := (NormBlock.segments_attachSegment s (hslot b hk)).count_eq y
    simp only [List.count_cons, List.count_append] at h₁ h₂ h₃
    simp only [SegmentWorld.places, List.count_append]
    omega

theorem places_emptyToPool {k : Nat} : (w.emptyToPool k).places.Perm w.places := by
  cases hk : w.blocks[k]? with
  | none => simp only [SegmentWorld.emptyToPool, hk]; rfl
  | some b =>
    simp only [SegmentWorld.emptyToPool, hk]
    refine List.perm_iff_count.2 fun y => ?_
    have h := (flatMap_set_perm NormBlock.segments (b.emptyToPool w.pool).1 b _ _ hk).count_eq y
    simp only [List.count_append, NormBlock.segments_emptyToPool, List.count_nil] at h
    simp only [SegmentWorld.places, NormBlock.emptyToPool_segList, List.count_append,
      List.count_reverse]
    omega

end PoolOp

/-- The worlds reached from pool construction, with blocks that own no segment, by the calls a
caller may make, each completing. -/
inductive PoolReachable : SegmentWorld → Prop
  | start (blocks : List NormBlock) (fresh : Nat) :
      (∀ b ∈ blocks, b.segments = []) → PoolReachable ⟨.empty, blocks, [], [], fresh⟩
  | step {w w' : SegmentWorld} (op : PoolOp) :
      PoolReachable w → op.Valid w → op.run w = some w' → PoolReachable w'

/-! ### The ownership invariant -/

/-- **The ownership invariant.** No segment is in two places; live segments and those of the last
`Init` lie below `fresh`; the free list and the caller hold only segments of the last `Init`; the
segments of the last `Init` are, up to order, the places' segments that belong to it, and
`seg_total` counts them. -/
structure PoolInv (w : SegmentWorld) : Prop where
  nodup : w.places.Nodup
  places_lt : ∀ s : ℕ, s ∈ w.places → s < w.fresh
  generation_lt : ∀ s : ℕ, s ∈ w.generation → s < w.fresh
  free_mem : ∀ s ∈ w.pool.segList, s ∈ w.generation
  held_mem : ∀ s ∈ w.held, s ∈ w.generation
  generation_perm : (w.places.filter (· ∈ w.generation)).Perm w.generation
  total_eq : w.pool.segTotal = w.generation.length

variable {w w' : SegmentWorld}

/-- A call that only moves segments, within the last `Init`'s generation, keeps the invariant. -/
theorem PoolInv.of_perm (hw : PoolInv w) (hp : w'.places.Perm w.places)
    (hgen : w'.generation = w.generation) (hfresh : w'.fresh = w.fresh)
    (hfree : ∀ s ∈ w'.pool.segList, s ∈ w.generation)
    (hheld : ∀ s ∈ w'.held, s ∈ w.generation) (htotal : w'.pool.segTotal = w.pool.segTotal) :
    PoolInv w' where
  nodup := hp.nodup_iff.2 hw.nodup
  places_lt s hs := hfresh ▸ hw.places_lt s (hp.mem_iff.1 hs)
  generation_lt s hs := hfresh ▸ hw.generation_lt s (hgen ▸ hs)
  free_mem s hs := hgen ▸ hfree s hs
  held_mem s hs := hgen ▸ hheld s hs
  generation_perm := hgen ▸ (hp.filter _).trans hw.generation_perm
  total_eq := htotal.trans (hgen ▸ hw.total_eq)

/-- `Init` frees the listed segments and lists `count` new ones, above every live segment. -/
theorem PoolInv.init (hw : PoolInv w) {count size : Nat} (h : w.init count size = some w') :
    PoolInv w' := by
  simp only [SegmentWorld.init, Option.map_eq_some'] at h
  obtain ⟨q, hq, rfl⟩ := h
  obtain ⟨hlist, -, htotal, -⟩ := NormSegmentPool.init_eq_some hq
  have hslots : (w.blocks.flatMap NormBlock.segments).Nodup :=
    hw.nodup.sublist (List.sublist_append_right _ _)
  have hlt (s : ℕ) (hs : s ∈ w.blocks.flatMap NormBlock.segments) : s < w.fresh :=
    hw.places_lt s (List.mem_append_right _ hs)
  have hplaces : SegmentWorld.places ⟨q, w.blocks, [], List.range' w.fresh count, w.fresh + count⟩ =
      (List.range' w.fresh count).reverse ++ w.blocks.flatMap NormBlock.segments := by
    rw [SegmentWorld.places, hlist, List.append_nil]
  refine ⟨?_, fun s hs => ?_, fun s hs => ?_, fun s hs => ?_, nofun, ?_, ?_⟩ <;>
    (try rw [hplaces] at *) <;> (try dsimp only at *)
  · -- the new segments are distinct, and distinct from every live one
    refine List.nodup_append.2 ⟨List.nodup_reverse.2 (List.nodup_range' _ _), hslots,
      fun a ha hb => ?_⟩
    have := hlt a hb
    simp only [List.mem_reverse, List.mem_range'_1] at ha
    omega
  · simp only [List.mem_append, List.mem_reverse, List.mem_range'_1] at hs
    rcases hs with hs | hs
    · omega
    · have := hlt s hs; omega
  · simp only [List.mem_range'_1] at hs; omega
  · simpa [hlist] using hs
  · -- the places of the new generation are its listed segments
    rw [List.filter_append, List.filter_eq_self.2 (fun a ha => by simpa using ha),
      List.filter_eq_nil_iff.2 (fun a ha h => by
        have := hlt a ha
        simp only [List.mem_range'_1, decide_eq_true_eq] at h
        omega), List.append_nil]
    exact List.reverse_perm _
  · simp [htotal]

/-- The calls a caller may make keep the invariant. -/
theorem PoolInv.run (hw : PoolInv w) {op : PoolOp} (hop : op.Valid w)
    (hrun : op.run w = some w') : PoolInv w' := by
  cases op with
  | init count size => exact hw.init hrun
  | get =>
    obtain rfl := Option.some.inj hrun
    -- `Get` takes the head of the free list, if any, and leaves `seg_total` alone
    have hget : (∀ s ∈ w.pool.get.2.segList, s ∈ w.pool.segList) ∧
        (∀ s ∈ w.pool.get.1.toList, s ∈ w.pool.segList) ∧
        w.pool.get.2.segTotal = w.pool.segTotal := by
      rcases hl : w.pool.segList with _ | ⟨s, rest⟩
      · obtain ⟨h1, h2, h3⟩ := NormSegmentPool.get_of_nil hl
        simp [h1, h2, h3]
      · obtain ⟨h1, h2, h3⟩ := NormSegmentPool.get_of_cons hl
        refine ⟨fun a ha => ?_, fun a ha => ?_, h3⟩ <;> simp_all
    refine hw.of_perm PoolOp.places_get rfl rfl (fun s hs => hw.free_mem s (hget.1 s hs))
      (fun s hs => ?_) hget.2.2
    rcases List.mem_append.1 hs with hs | hs
    exacts [hw.free_mem s (hget.2.1 s hs), hw.held_mem s hs]
  | put s =>
    obtain rfl := Option.some.inj hrun
    refine hw.of_perm (PoolOp.places_put hop) rfl rfl (fun a ha => ?_)
      (fun a ha => hw.held_mem a (List.mem_of_mem_erase ha)) rfl
    rcases List.mem_cons.1 ha with rfl | ha
    exacts [hw.held_mem _ hop, hw.free_mem a ha]
  | attachSegment k sid s =>
    obtain rfl := Option.some.inj hrun
    have hp := PoolOp.places_attachSegment hop
    cases hk : w.blocks[k]? with
    | none => simpa only [SegmentWorld.attachSegment, hk] using hw
    | some b =>
      simp only [SegmentWorld.attachSegment, hk] at hp ⊢
      exact hw.of_perm hp rfl rfl hw.free_mem (fun a ha => hw.held_mem a (List.mem_of_mem_erase ha))
        rfl
  | emptyToPool k =>
    obtain rfl := Option.some.inj hrun
    have hp : (w.emptyToPool k).places.Perm w.places := PoolOp.places_emptyToPool
    cases hk : w.blocks[k]? with
    | none => simpa only [SegmentWorld.emptyToPool, hk] using hw
    | some b =>
      simp only [SegmentWorld.emptyToPool, hk] at hp ⊢
      refine hw.of_perm hp rfl rfl (fun a ha => ?_) hw.held_mem
        (NormBlock.emptyToPool_segTotal b w.pool)
      rw [NormBlock.emptyToPool_segList, List.mem_append, List.mem_reverse] at ha
      rcases ha with ha | ha
      exacts [hop b hk a ha, hw.free_mem a ha]

/-- The count the invariant gives: `seg_count` plus the segments of the last `Init` with the
caller and in block slots is `seg_total`. -/
theorem PoolInv.count_add (hw : PoolInv w) :
    w.pool.segCount + w.held.length +
      ((w.blocks.flatMap NormBlock.segments).filter (· ∈ w.generation)).length =
        w.pool.segTotal := by
  -- the free list and the caller hold only segments of the last `Init`
  have hlen := hw.generation_perm.length_eq
  rw [SegmentWorld.places, List.filter_append, List.filter_append,
    List.filter_eq_self.2 (fun a ha => by simpa using hw.free_mem a ha),
    List.filter_eq_self.2 (fun a ha => by simpa using hw.held_mem a ha)] at hlen
  simp only [List.length_append] at hlen
  rw [w.pool.count_eq, hw.total_eq, ← hlen]

theorem poolInv_start (blocks : List NormBlock) (fresh : Nat)
    (h : ∀ b ∈ blocks, b.segments = []) : PoolInv ⟨.empty, blocks, [], [], fresh⟩ := by
  have hplaces : (⟨.empty, blocks, [], [], fresh⟩ : SegmentWorld).places = [] :=
    List.eq_nil_iff_forall_not_mem.2 fun a ha => by
      simp only [SegmentWorld.places, NormSegmentPool.empty, List.nil_append, List.mem_flatMap] at ha
      obtain ⟨b, hb, ha⟩ := ha
      simp [h b hb] at ha
  refine ⟨by rw [hplaces]; exact List.nodup_nil, fun s hs => ?_, nofun, nofun, nofun,
    by rw [hplaces]; rfl, rfl⟩
  rw [hplaces] at hs; exact absurd hs (List.not_mem_nil s)

theorem PoolReachable.poolInv (h : PoolReachable w) : PoolInv w := by
  induction h with
  | start blocks fresh hb => exact poolInv_start blocks fresh hb
  | step op _ hop hrun ih => exact ih.run hop hrun

/-- **Every segment is in exactly one place.** In every world reached by `Init`, `Get`, `Put`,
`AttachSegment` and `EmptyToPool` as a caller may call them, the free list holds `seg_count`
distinct segments, and every segment of the last `Init` is exactly once on the free list, with the
caller or in a block slot, so `seg_count` plus the segments of that `Init` outside the pool is
`seg_total`. `EmptyToPool` leaves a block empty and raises `seg_count` by its number of occupied
slots. -/
theorem segments_conserved (h : PoolReachable w) :
    w.pool.segCount = w.pool.segList.length ∧ w.pool.segList.Nodup ∧
    (∀ s ∈ w.generation, w.places.count s = 1) ∧
    w.pool.segCount + w.held.length +
      ((w.blocks.flatMap NormBlock.segments).filter (· ∈ w.generation)).length =
        w.pool.segTotal ∧
    (∀ (b : NormBlock) (p : NormSegmentPool), (b.emptyToPool p).1.isEmpty = true ∧
      (b.emptyToPool p).2.segCount = p.segCount + (b.segmentTable.filter Option.isSome).length) := by
  have hw := h.poolInv
  exact ⟨w.pool.count_eq, hw.nodup.of_append_left.of_append_left,
    fun s hs => List.count_eq_one_of_mem hw.nodup
      (List.mem_of_mem_filter (hw.generation_perm.mem_iff.2 hs)),
    hw.count_add, NormBlock.emptyToPool_isEmpty_segCount⟩

/-- After `Init(2)` and a `Get`, segment `0` is on the free list and segment `1` with the caller,
each in one place. -/
theorem segments_conserved_after_init_get :
    ∃ w, PoolReachable w ∧ w.pool.segList = [0] ∧ w.held = [1] ∧ w.generation = [0, 1] ∧
      ∀ s ∈ w.generation, w.places.count s = 1 := by
  have h := ((PoolReachable.start [] 0 (by simp)).step (.init 2 8) trivial rfl).step .get
    trivial rfl
  exact ⟨_, h, rfl, rfl, rfl, (segments_conserved h).2.2.1⟩

/-! ### When `Init` completes -/

/-- **`Init` completes exactly when every segment is back.** In every reachable world, `Init`
completes, its `Destroy` passing `ASSERT(seg_count == seg_total)`, exactly when the free list is
empty, so that `Destroy` is not called, or when no segment of the last `Init` is with the caller
or in a block slot. -/
theorem init_completes_iff (h : PoolReachable w) (count size : Nat) :
    ((PoolOp.init count size).run w).isSome ↔
      w.pool.segList = [] ∨
        (w.held = [] ∧ ∀ s ∈ w.blocks.flatMap NormBlock.segments, s ∉ w.generation) := by
  have hcount := h.poolInv.count_add
  rw [PoolOp.run, SegmentWorld.init, Option.isSome_map', NormSegmentPool.init_isSome,
    Bool.or_eq_true, List.isEmpty_iff, decide_eq_true_iff]
  -- by the count, `seg_count = seg_total` exactly when nothing of the last `Init` is out
  refine or_congr_right ⟨fun heq => ?_, fun ⟨hheld, hblocks⟩ => ?_⟩
  · have hout : ((w.blocks.flatMap NormBlock.segments).filter (· ∈ w.generation)).length = 0 := by
      omega
    refine ⟨List.eq_nil_of_length_eq_zero (by omega), fun s hs hg => ?_⟩
    exact List.filter_eq_nil_iff.1 (List.eq_nil_of_length_eq_zero hout) s hs (by simpa using hg)
  · rw [hheld, List.filter_eq_nil_iff.2 fun s hs => by simpa using hblocks s hs] at hcount
    simpa using hcount

/-- After `Init(2)` and a `Get`, the caller holds segment `1` and segment `0` is listed: a second
`Init` trips the `ASSERT`. -/
theorem init_fails_with_segment_held :
    ∃ w, PoolReachable w ∧ w.pool.segList = [0] ∧ w.held = [1] ∧
      ((PoolOp.init 3 8).run w).isSome = false := by
  have h := ((PoolReachable.start [] 0 (by simp)).step (.init 2 8) trivial rfl).step .get
    trivial rfl
  refine ⟨_, h, rfl, rfl, Bool.eq_false_iff.2 fun hs => ?_⟩
  rcases (init_completes_iff h 3 8).1 hs with hl | ⟨hheld, -⟩
  exacts [List.cons_ne_nil _ _ hl, List.cons_ne_nil _ _ hheld]

end NormSegment
