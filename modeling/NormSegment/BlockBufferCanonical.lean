import NormSegment.BlockBufferWalk

/-!
# The block buffer's state is determined by the blocks it stores

`Insert` threads a block into its bucket's chain before the first entry whose id is not below its
own (`while (entry && (entry->GetId() < blockId))`), and `Remove` only unlinks. So every chain
stays in ascending id order, as the spec asks (`Reachable.chains_sorted`, `chain_ascending`).
With the refinement of the stored set, that makes the concrete state canonical: each chain is the
one sorted list of the stored blocks of its bucket, and the span fields are the ends of the stored
ids. Two buffers that calls reach from the same `Init` and that store the same blocks are equal,
whatever the calls were (`reachable_state_determined`); only `range_lo` and `range_hi` of an empty
buffer keep a trace of the past. `Insert` and `Remove` of one block undo each other exactly
(`insert_then_remove`, `remove_then_insert`). The sorted chains also decide `Insert`'s `ASSERT`
that the entry it links before has another id: it fails exactly on a stored id
(`insertChecked_eq_iff`), which the runs never give it.

* `pairwise_threaded`: threading an element into a sorted list at its place keeps it sorted, for
  an order that is total and transitive on the list and the element;
* `Refines.table_eq`, `Refines.span_eq`: two sorted buffers that refine the same set have the same
  table and, when the set is not empty, the same span fields.
-/

namespace NormSegment

namespace NormBlockBuffer

open NormBlockId

/-! ### Threading into a sorted chain -/

/-- Threading `b` before the first element that `R` does not put before it keeps a list sorted by
`R`, when `R` puts `b` before every element it does not follow, and chains through `b`. -/
theorem pairwise_threaded {α : Type*} {R : α → α → Prop} [DecidableRel R] (b : α) :
    ∀ {l : List α}, l.Pairwise R → (∀ x ∈ l, ¬R x b → R b x) →
      (∀ x ∈ l, ∀ y ∈ l, R b x → R x y → R b y) →
      (l.takeWhile (fun x => decide (R x b)) ++
        b :: l.dropWhile (fun x => decide (R x b))).Pairwise R
  | [], _, _, _ => List.pairwise_singleton _ _
  | x :: l, hl, htot, htrans => by
    obtain ⟨hx, hl⟩ := List.pairwise_cons.1 hl
    by_cases hxb : R x b
    · -- `x` stays in front
      simp only [List.takeWhile_cons_of_pos, List.dropWhile_cons_of_pos, hxb, decide_True,
        List.cons_append, List.pairwise_cons]
      refine ⟨fun y hy => ?_, pairwise_threaded b hl (fun y hy => htot y (.tail _ hy))
        fun y hy z hz => htrans y (.tail _ hy) z (.tail _ hz)⟩
      rcases List.mem_append.1 hy with hy | hy
      · exact hx y ((List.takeWhile_sublist _).subset hy)
      · rcases List.mem_cons.1 hy with rfl | hy
        exacts [hxb, hx y ((List.dropWhile_sublist _).subset hy)]
    · -- `b` goes in front of `x`, hence of everything after it
      simp only [List.takeWhile_cons_of_neg, List.dropWhile_cons_of_neg, hxb, decide_False,
        Bool.false_eq_true, not_false_eq_true, List.nil_append, List.pairwise_cons]
      have hbx := htot x (.head _) hxb
      refine ⟨fun y hy => ?_, hx, hl⟩
      rcases List.mem_cons.1 hy with rfl | hy
      exacts [hbx, htrans x (.head _) y (.tail _ hy) hbx (hx y hy)]

/-- Every chain of the table is in ascending id order. -/
def ChainsSorted (buf : NormBlockBuffer) : Prop :=
  ∀ i, (buf.table i).Pairwise fun a b => a.id < b.id

/-- Linking a new block into a sorted buffer keeps it sorted, when the block and its bucket's chain
lie in a window of fewer than `2^31` ids above `o`, where `<` on ids is a strict total order. -/
theorem pairwise_link {buf : NormBlockBuffer} {b : NormBlock} (o : NormBlockId)
    (hs : ChainsSorted buf) (hnew : ∀ x ∈ buf.table (buf.bucket b.id), x.id ≠ b.id)
    (hwin : ∀ x ∈ buf.table (buf.bucket b.id), key true o x.id < 2147483648)
    (hb : key true o b.id < 2147483648) : ChainsSorted (buf.link b) := by
  intro i
  simp only [link, setChain_table, Function.update_apply]
  split_ifs with hi
  · subst hi
    refine pairwise_threaded b (hs _) (fun x hx hxb => ?_) fun x hx y hy hbx hxy => ?_
    · have hne : key true o x.id ≠ key true o b.id := fun h => hnew x hx (key_inj h)
      rw [lt_iff_key_lt (hwin x hx) hb] at hxb
      rw [lt_iff_key_lt hb (hwin x hx)]
      omega
    · replace hbx : b.id < x.id := hbx
      replace hxy : x.id < y.id := hxy
      rw [lt_iff_key_lt hb (hwin x hx)] at hbx
      rw [lt_iff_key_lt (hwin x hx) (hwin y hy)] at hxy
      rw [lt_iff_key_lt hb (hwin y hy)]
      omega
  · exact hs i

/-! ### Runs from `Init` -/

/-- Every state reached from `Init` keeps `Init`'s `hash_mask` and `range_max`. -/
theorem Reachable.frame {rangeMax tableSize : Nat} {buf : NormBlockBuffer} {S : Finset NormBlock}
    (h : Reachable rangeMax tableSize buf S) :
    ∃ buf₀, NormBlockBuffer.init rangeMax tableSize = some buf₀ ∧
      buf.hashMask = buf₀.hashMask ∧ buf.rangeMax = buf₀.rangeMax := by
  induction h with
  | init hinit => exact ⟨_, hinit, rfl, rfl⟩
  | insert b _ _ _ ih =>
    obtain ⟨buf₀, h₀, hm, hr⟩ := ih
    exact ⟨buf₀, h₀, (insert_hashMask _ b).trans hm, (insert_rangeMax _ b).trans hr⟩
  | remove fuel b ok _ hrem ih =>
    obtain ⟨buf₀, h₀, hm, hr⟩ := ih
    exact ⟨buf₀, h₀, (remove_frame hrem).1.trans hm, (remove_frame hrem).2.trans hr⟩

/-- **The chains stay sorted.** In every state reached from `Init(rangeMax, 2^k)`, every chain of
the table is in ascending id order: `Insert` threads each block in at its place, and `Remove`
only unlinks. -/
theorem Reachable.chains_sorted {rangeMax k : Nat} {buf : NormBlockBuffer} {S : Finset NormBlock}
    (h : Reachable rangeMax (2 ^ k) buf S) : ChainsSorted buf := by
  induction h with
  | init hinit =>
    unfold NormBlockBuffer.init at hinit
    split_ifs at hinit <;> simp only [reduceCtorEq, Option.some.injEq] at hinit <;> subst hinit <;>
      exact fun _ => List.Pairwise.nil
  | @insert buf S b hr hnew hw ih =>
    cases hok : (buf.insert b).1
    · rwa [insert_snd_of_refused hok]
    · -- the chain of `b`'s bucket holds blocks of `S`, all in the window of the new id
      have href := (hr.refines hr.hashMask_lt.2).1
      obtain ⟨o, ho⟩ := hw
      have hmem : ∀ x ∈ buf.table (buf.bucket b.id), x ∈ S := fun x hx =>
        ((href.chains.mem_iff _ x).1 hx).1
      have hlink := pairwise_link o ih (fun x hx => hnew x (hmem x hx))
        (fun x hx => by have := ho x.id (Finset.mem_insert_of_mem
          (Finset.mem_image_of_mem _ (hmem x hx))); omega)
        (by have := ho b.id (Finset.mem_insert_self _ _); omega)
      intro i
      rw [insert_table hok]
      exact hlink i
  | @remove buf _ _ fuel b ok _ hrem ih =>
    obtain ⟨lo, hi, r, rfl⟩ := remove_shape hrem
    cases ok
    · exact ih
    · intro i
      show (Function.update buf.table _ _ i).Pairwise _
      rw [Function.update_apply]
      split_ifs with hi
      · exact (ih _).sublist (List.eraseP_sublist _)
      · exact ih i

/-- **Each chain is the ascending list of its bucket's blocks.** In every state reached from
`Init(rangeMax, 2^k)`, the chain of bucket `i` holds exactly the stored blocks whose ids hash to
`i`, in ascending id order. -/
theorem chain_ascending {rangeMax k : Nat} {buf : NormBlockBuffer} {S : Finset NormBlock}
    (h : Reachable rangeMax (2 ^ k) buf S) (i : Nat) :
    (buf.table i).Pairwise (fun a b => a.id < b.id) ∧
      ∀ e, e ∈ buf.table i ↔ e ∈ S ∧ buf.bucket e.id = i :=
  ⟨h.chains_sorted i, (h.refines h.hashMask_lt.2).1.chains.mem_iff i⟩

/-- Blocks `13` and `5`, inserted in that order into a buffer of `8` buckets, share bucket `5`. -/
theorem chain_ascending_shared_bucket :
    ∃ buf S, Reachable 16 (2 ^ 3) buf S ∧ S.image NormBlock.id = {⟨5⟩, ⟨13⟩} ∧
      (buf.table 5).Pairwise (fun a b => a.id < b.id) ∧
        ∀ e, e ∈ buf.table 5 ↔ e ∈ S ∧ buf.bucket e.id = 5 := by
  have h := ((@Reachable.init 16 (2 ^ 3) ⟨fun _ => [], 7, 16, 0, ⟨0⟩, ⟨0⟩⟩
    (by simp [NormBlockBuffer.init]; rfl)).insert_of_accepted
    { NormBlock.blank with id := ⟨13⟩ } (by simp) ⟨⟨0⟩, by decide⟩ (by decide)).insert_of_accepted
    { NormBlock.blank with id := ⟨5⟩ } (by decide) ⟨⟨0⟩, by decide⟩ (by decide)
  exact ⟨_, _, h, by decide, chain_ascending h 5⟩

/-! ### The canonical state -/

/-- The ends of a set of ids spanning fewer than `2^31` ids are unique. -/
theorem Ends.unique {ids : Finset NormBlockId} {lo hi lo' hi' : NormBlockId} (h : Ends ids lo hi)
    (h' : Ends ids lo' hi') : lo = lo' ∧ hi = hi' := by
  have h1 := h.key_lt h'.lo_mem
  have h2 := h'.key_lt h.lo_mem
  have hsum := key_add lo lo' lo
  rw [key_self] at hsum
  obtain rfl : lo = lo' :=
    (key_inj ((show key true lo lo' = 0 by omega).trans (key_self true lo).symm)).symm
  have := h.le_hi _ h'.hi_mem
  have := h'.le_hi _ h.hi_mem
  exact ⟨rfl, key_inj (show key true lo hi = key true lo hi' by omega)⟩

namespace Refines

variable {buf buf' : NormBlockBuffer} {S : Finset NormBlock}

/-- **The table is canonical.** Two buffers with one `hash_mask` that refine the same set, with
sorted chains, have the same table: each chain is the sorted list of the stored blocks of its
bucket. -/
theorem table_eq (h : Refines buf S) (h' : Refines buf' S) (hs : ChainsSorted buf)
    (hs' : ChainsSorted buf') (hmask : buf.hashMask = buf'.hashMask) : buf.table = buf'.table := by
  funext i
  refine List.Perm.eq_of_sorted (fun a c ha hc hac hca => ?_) (hs i) (hs' i) ?_
  · -- stored ids lie in the span, where `<` is a strict order
    have haS := ((h.chains.mem_iff i a).1 ha).1
    have hcS := ((h'.chains.mem_iff i c).1 hc).1
    have hends := h.range.ends ⟨a, haS⟩
    have ka : key true buf.rangeLo a.id < 2147483648 :=
      Nat.lt_succ_of_lt (hends.key_lt (Finset.mem_image_of_mem NormBlock.id haS))
    have kc : key true buf.rangeLo c.id < 2147483648 :=
      Nat.lt_succ_of_lt (hends.key_lt (Finset.mem_image_of_mem NormBlock.id hcS))
    replace hac : a.id < c.id := hac
    replace hca : c.id < a.id := hca
    rw [lt_iff_key_lt ka kc] at hac
    rw [lt_iff_key_lt kc ka] at hca
    omega
  · rw [List.perm_ext_iff_of_nodup (h.chains.nodup i) (h'.chains.nodup i)]
    intro e
    rw [h.chains.mem_iff, h'.chains.mem_iff, bucket, bucket, hmask]

/-- **The span fields are canonical.** Two buffers that refine the same set have the same
`range`, and the same ends when the set is not empty. -/
theorem span_eq (h : Refines buf S) (h' : Refines buf' S) :
    buf.range = buf'.range ∧
      (S.Nonempty → buf.rangeLo = buf'.rangeLo ∧ buf.rangeHi = buf'.rangeHi) := by
  rcases S.eq_empty_or_nonempty with rfl | hne
  · exact ⟨(h.range.range_eq_zero.2 rfl).trans (h'.range.range_eq_zero.2 rfl).symm,
      fun hne => absurd hne Finset.not_nonempty_empty⟩
  · obtain ⟨hlo, hhi⟩ := (h.range.ends hne).unique (h'.range.ends hne)
    refine ⟨?_, fun _ => ⟨hlo, hhi⟩⟩
    rw [h.range.range_eq_sub hne, h'.range.range_eq_sub hne, hlo, hhi]

/-- Two sorted buffers with one `hash_mask` and `range_max` that refine the same set differ at
most in the ends of an empty span. -/
theorem eq_of_sorted (h : Refines buf S) (h' : Refines buf' S) (hs : ChainsSorted buf)
    (hs' : ChainsSorted buf') (hmask : buf.hashMask = buf'.hashMask)
    (hmax : buf.rangeMax = buf'.rangeMax) :
    buf' = { buf with rangeLo := buf'.rangeLo, rangeHi := buf'.rangeHi } ∧
      (S.Nonempty → buf' = buf) := by
  have ht := h.table_eq h' hs hs' hmask
  obtain ⟨hr, hends⟩ := h.span_eq h'
  obtain ⟨t, m, rm, r, lo, hi⟩ := buf
  obtain ⟨t', m', rm', r', lo', hi'⟩ := buf'
  dsimp only at ht hmask hmax hr hends ⊢
  subst ht hmask hmax hr
  exact ⟨rfl, fun hne => by obtain ⟨rfl, rfl⟩ := hends hne; rfl⟩

end Refines

/-- Two reachable states with one `hash_mask` and `range_max` that store the same set differ at
most in the ends of an empty span. -/
theorem Reachable.eq_of_frame {rangeMax rangeMax' k k' : Nat} {buf buf' : NormBlockBuffer}
    {S : Finset NormBlock} (h : Reachable rangeMax (2 ^ k) buf S)
    (h' : Reachable rangeMax' (2 ^ k') buf' S) (hmask : buf.hashMask = buf'.hashMask)
    (hmax : buf.rangeMax = buf'.rangeMax) :
    buf' = { buf with rangeLo := buf'.rangeLo, rangeHi := buf'.rangeHi } ∧
      (S.Nonempty → buf' = buf) :=
  (h.refines h.hashMask_lt.2).1.eq_of_sorted (h'.refines h'.hashMask_lt.2).1 h.chains_sorted
    h'.chains_sorted hmask hmax

/-- **The state of a block buffer is determined by the blocks it stores.** Two states reached from
`Init(rangeMax, 2^k)`, by any two sequences of calls, that store the same set of blocks are equal;
when the set is empty they can differ only in `range_lo` and `range_hi`, which an empty buffer
keeps from its past. -/
theorem reachable_state_determined {rangeMax k : Nat} {buf buf' : NormBlockBuffer}
    {S : Finset NormBlock} (h : Reachable rangeMax (2 ^ k) buf S)
    (h' : Reachable rangeMax (2 ^ k) buf' S) :
    buf' = { buf with rangeLo := buf'.rangeLo, rangeHi := buf'.rangeHi } ∧
      (S.Nonempty → buf' = buf) := by
  obtain ⟨buf₀, h₀, hm, hr⟩ := h.frame
  obtain ⟨buf₀', h₀', hm', hr'⟩ := h'.frame
  obtain rfl : buf₀ = buf₀' := Option.some.inj (h₀.symm.trans h₀')
  exact h.eq_of_frame h' (hm.trans hm'.symm) (hr.trans hr'.symm)

/-- Blocks `5` and `7` inserted into an empty buffer of `8` buckets with `range_max = 8`, in either
order, leave one state. -/
theorem insert_order_forgotten :
    (((⟨fun _ => [], 7, 8, 0, ⟨0⟩, ⟨0⟩⟩ : NormBlockBuffer).insert
        { NormBlock.blank with id := ⟨7⟩ }).2.insert { NormBlock.blank with id := ⟨5⟩ }).2 =
      (((⟨fun _ => [], 7, 8, 0, ⟨0⟩, ⟨0⟩⟩ : NormBlockBuffer).insert
        { NormBlock.blank with id := ⟨5⟩ }).2.insert { NormBlock.blank with id := ⟨7⟩ }).2 := by
  have h₀ : Reachable 8 (2 ^ 3) ⟨fun _ => [], 7, 8, 0, ⟨0⟩, ⟨0⟩⟩ ∅ :=
    .init (by simp [NormBlockBuffer.init]; rfl)
  have h₅₇ := (h₀.insert_of_accepted { NormBlock.blank with id := ⟨5⟩ } (by simp) ⟨⟨0⟩, by decide⟩
    (by decide)).insert_of_accepted { NormBlock.blank with id := ⟨7⟩ } (by decide)
    ⟨⟨0⟩, by decide⟩ (by decide)
  have h₇₅ := (h₀.insert_of_accepted { NormBlock.blank with id := ⟨7⟩ } (by simp) ⟨⟨0⟩, by decide⟩
    (by decide)).insert_of_accepted { NormBlock.blank with id := ⟨5⟩ } (by decide)
    ⟨⟨0⟩, by decide⟩ (by decide)
  rw [Finset.Insert.comm] at h₇₅
  exact (reachable_state_determined h₅₇ h₇₅).2 ⟨_, Finset.mem_insert_self _ _⟩

/-! ### Round trips -/

/-- **`Insert` then `Remove` of a block is the identity.** In a state reached from
`Init(rangeMax, 2^k)`, an accepted `Insert` of a new block, followed by a `Remove` of it with
`hash_mask + 1` rounds for its scan, returns true and leaves the buffer as it was before the
`Insert`, but for the ends of an empty span. -/
theorem insert_then_remove {rangeMax k fuel : Nat} {buf : NormBlockBuffer} {S : Finset NormBlock}
    (h : Reachable rangeMax (2 ^ k) buf S) (b : NormBlock) (hnew : ∀ e ∈ S, e.id ≠ b.id)
    (hw : InWindow (Insert.insert b.id (S.image NormBlock.id)) 2147483647)
    (hok : (buf.insert b).1 = true) (hfuel : buf.hashMask + 1 ≤ fuel) :
    ∃ lo hi, (buf.insert b).2.remove fuel b =
        some (true, { buf with rangeLo := lo, rangeHi := hi }) ∧
      (S.Nonempty → lo = buf.rangeLo ∧ hi = buf.rangeHi) := by
  have h₁ := h.insert_of_accepted b hnew hw hok
  obtain ⟨buf', hrem, -⟩ :=
    (h₁.refines h.hashMask_lt.2).1.remove_step b ((insert_hashMask buf b).symm ▸ hfuel)
  rw [decide_eq_true ⟨b, Finset.mem_insert_self b S, rfl⟩] at hrem
  have h₂ := h₁.remove fuel b true hrem
  have hS : (Insert.insert b S).filter (·.id ≠ b.id) = S := by
    rw [Finset.filter_insert, if_neg (not_not.2 rfl)]
    exact Finset.filter_true_of_mem hnew
  rw [if_pos rfl, hS] at h₂
  obtain ⟨heq, hne⟩ := h.eq_of_frame h₂ ((remove_frame hrem).1.trans (insert_hashMask buf b)).symm
    ((remove_frame hrem).2.trans (insert_rangeMax buf b)).symm
  refine ⟨buf'.rangeLo, buf'.rangeHi, heq ▸ hrem, fun hS => ?_⟩
  rw [hne hS]
  exact ⟨rfl, rfl⟩

/-- Block `7` inserted into, and removed from, a buffer of `8` buckets that stores block `5`. -/
theorem insert_then_remove_restores_one_block :
    ∃ buf S, Reachable 8 (2 ^ 3) buf S ∧ S.image NormBlock.id = {⟨5⟩} ∧
      (buf.insert { NormBlock.blank with id := ⟨7⟩ }).2.remove 8
        { NormBlock.blank with id := ⟨7⟩ } = some (true, buf) := by
  have h₅ := (@Reachable.init 8 (2 ^ 3) ⟨fun _ => [], 7, 8, 0, ⟨0⟩, ⟨0⟩⟩
    (by simp [NormBlockBuffer.init]; rfl)).insert_of_accepted
    { NormBlock.blank with id := ⟨5⟩ } (by simp) ⟨⟨0⟩, by decide⟩ (by decide)
  obtain ⟨lo, hi, hr, hends⟩ := insert_then_remove h₅ { NormBlock.blank with id := ⟨7⟩ }
    (by decide) ⟨⟨0⟩, by decide⟩ (by decide) (show _ ≤ 8 by decide)
  obtain ⟨rfl, rfl⟩ := hends ⟨_, Finset.mem_insert_self _ _⟩
  exact ⟨_, _, h₅, by decide, hr⟩

/-- **`Remove` then `Insert` of a stored block is the identity.** In a state reached from
`Init(rangeMax, 2^k)`, a `Remove` of a stored block with `hash_mask + 1` rounds for its scan
returns true, and an `Insert` of the block after it is accepted and gives back the buffer as it
was. -/
theorem remove_then_insert {rangeMax k fuel : Nat} {buf : NormBlockBuffer} {S : Finset NormBlock}
    {b : NormBlock} (h : Reachable rangeMax (2 ^ k) buf S) (hb : b ∈ S)
    (hfuel : buf.hashMask + 1 ≤ fuel) :
    ∃ buf', buf.remove fuel b = some (true, buf') ∧ buf'.insert b = (true, buf) := by
  have href := (h.refines h.hashMask_lt.2).1
  obtain ⟨buf', hrem, href', -⟩ := href.remove_step b hfuel
  rw [decide_eq_true ⟨b, hb, rfl⟩] at hrem
  have h₁ := h.remove fuel b true hrem
  rw [if_pos rfl] at h₁
  -- the stored ids with `b`'s put back are those of `S`, which lie in the span of `buf`
  have hnew : ∀ e ∈ S.filter (·.id ≠ b.id), e.id ≠ b.id := fun e he => (Finset.mem_filter.1 he).2
  have hS : Insert.insert b (S.filter (·.id ≠ b.id)) = S := by
    ext e
    rw [Finset.mem_insert, Finset.mem_filter]
    by_cases he : e.id = b.id
    · simp only [he, ne_eq, not_true_eq_false, and_false, or_false]
      exact ⟨fun h => h ▸ hb, fun heS => href.chains.id_inj e heS b hb he⟩
    · exact ⟨fun h => h.elim (fun h => absurd (congrArg NormBlock.id h) he) And.left,
        fun heS => .inr ⟨heS, he⟩⟩
  have hids : Insert.insert b.id ((S.filter (·.id ≠ b.id)).image NormBlock.id) =
      S.image NormBlock.id := by
    rw [← Finset.image_insert, hS]
  have hends := href.range.ends ⟨b, hb⟩
  have hw : InWindow (S.image NormBlock.id) 2147483647 :=
    (hends.inWindow_iff _).2 (by have := hends.span_lt; omega)
  rw [← hids] at hw
  have hok : (buf'.insert b).1 = true := by
    rw [insert_fst, href'.canInsert_iff hw, hids, hends.inWindow_iff, (remove_frame hrem).2,
      ← href.range.range_val ⟨b, hb⟩]
    exact href.range.range_le
  have h₂ := h₁.insert_of_accepted b hnew hw hok
  rw [hS] at h₂
  have heq := (h.eq_of_frame h₂ ((insert_hashMask _ b).trans (remove_frame hrem).1).symm
    ((insert_rangeMax _ b).trans (remove_frame hrem).2).symm).2 ⟨b, hb⟩
  exact ⟨buf', hrem, Prod.ext hok heq⟩

/-- Block `5` removed from, and inserted back into, a buffer of `8` buckets that stores blocks `5`
and `7`. -/
theorem remove_then_insert_restores_two_blocks :
    ∃ buf S, Reachable 8 (2 ^ 3) buf S ∧ S.image NormBlock.id = {⟨5⟩, ⟨7⟩} ∧
      ∃ buf', buf.remove 8 { NormBlock.blank with id := ⟨5⟩ } = some (true, buf') ∧
        buf'.insert { NormBlock.blank with id := ⟨5⟩ } = (true, buf) := by
  have h₅₇ := ((@Reachable.init 8 (2 ^ 3) ⟨fun _ => [], 7, 8, 0, ⟨0⟩, ⟨0⟩⟩
    (by simp [NormBlockBuffer.init]; rfl)).insert_of_accepted
    { NormBlock.blank with id := ⟨5⟩ } (by simp) ⟨⟨0⟩, by decide⟩ (by decide)).insert_of_accepted
    { NormBlock.blank with id := ⟨7⟩ } (by decide) ⟨⟨0⟩, by decide⟩ (by decide)
  exact ⟨_, _, h₅₇, by decide, remove_then_insert h₅₇ (by simp) (show _ ≤ 8 by decide)⟩

/-! ### The `ASSERT` of `Insert` -/

/-- In a chain in ascending id order, the first entry whose id is not below that of one of its
blocks is that block. -/
theorem head_dropWhile_of_pairwise {b : NormBlock} : ∀ {l : List NormBlock},
    l.Pairwise (fun x y => x.id < y.id) → b ∈ l → (l.dropWhile (·.id < b.id)).head? = some b
  | x :: l, hl, hb => by
    rw [List.pairwise_cons] at hl
    rcases List.mem_cons.1 hb with rfl | hb
    · simp [List.dropWhile_cons, lt_irrefl_id]
    · simp only [List.dropWhile_cons, hl.1 b hb, decide_True, if_true]
      exact head_dropWhile_of_pairwise hl.2 hb

/-- **`Insert`'s `ASSERT` fails exactly on a stored id.** In every state reached from
`Init(rangeMax, 2^k)`, `Insert` with its `ASSERT` completes, and then is `insert`, exactly when no
stored block has the new block's id: the runs of `Reachable` give it only such blocks. A stored id
lies in the span, so `Insert` accepts the block and links it, and in the ascending chain of its
bucket the entry it is linked before is the stored block of that id. -/
theorem insertChecked_eq_iff {rangeMax k : Nat} {buf : NormBlockBuffer} {S : Finset NormBlock}
    (h : Reachable rangeMax (2 ^ k) buf S) (b : NormBlock) :
    buf.insertChecked b = some (buf.insert b) ↔ ∀ e ∈ S, e.id ≠ b.id := by
  have href := (h.refines h.hashMask_lt.2).1
  unfold insertChecked
  constructor
  · intro hsome e he hid
    -- a stored id passes `CanInsert`, and its block is the entry
    have hends := href.range.ends ⟨e, he⟩
    obtain ⟨hlo, hhi⟩ := hends.between (hid ▸ Finset.mem_image_of_mem NormBlock.id he)
    have hacc : (buf.insert b).1 = true := by
      rw [insert_fst, canInsert, if_pos (href.range.range_ne_zero ⟨e, he⟩), if_neg hlo,
        if_neg hhi]
    have hentry : buf.linkEntry b.id = some e := hid ▸ head_dropWhile_of_pairwise
      (h.chains_sorted _) ((href.chains.mem_iff _ e).2 ⟨he, hid ▸ rfl⟩)
    simp [hacc, hentry, hid] at hsome
  · intro hnew
    rw [if_neg]
    -- the entry, when there is one, is a stored block
    cases hl : buf.linkEntry b.id with
    | none => simp
    | some x =>
      have hx := (List.dropWhile_suffix _).subset (List.mem_of_mem_head? hl)
      simp [hnew x ((href.chains.mem_iff _ x).1 hx).1]

/-- Block `5` stored in a buffer of `8` buckets: a second `Insert` of id `5` trips the `ASSERT`,
an `Insert` of id `6` does not. -/
theorem insert_assert_trips_on_stored_id :
    ∃ buf S, Reachable 8 (2 ^ 3) buf S ∧ S.image NormBlock.id = {⟨5⟩} ∧
      buf.insertChecked { NormBlock.blank with id := ⟨5⟩ } ≠
        some (buf.insert { NormBlock.blank with id := ⟨5⟩ }) ∧
      buf.insertChecked { NormBlock.blank with id := ⟨6⟩ } =
        some (buf.insert { NormBlock.blank with id := ⟨6⟩ }) := by
  have h₅ := (@Reachable.init 8 (2 ^ 3) ⟨fun _ => [], 7, 8, 0, ⟨0⟩, ⟨0⟩⟩
    (by simp [NormBlockBuffer.init]; rfl)).insert_of_accepted
    { NormBlock.blank with id := ⟨5⟩ } (by simp) ⟨⟨0⟩, by decide⟩ (by decide)
  refine ⟨_, _, h₅, by decide, fun h => ?_, (insertChecked_eq_iff h₅ _).2 (by decide)⟩
  exact absurd ((insertChecked_eq_iff h₅ _).1 h) (by decide)

end NormBlockBuffer

end NormSegment
