import NormSegment.BlockIdWindow

/-!
# The reseek scan of the block buffer

When `Remove` takes out the block at `range_lo`, it scans up from the block's bucket for the new
`range_lo` (down, for `range_hi`). At step `j` it probes the chain of the `j`-th bucket after the
removed block's own for the id `j` above it; a hit is the new end, and otherwise it keeps the best
id that the walked chains show. This module proves that, in a power-of-two table, the scan returns
the block of `S` nearest to the removed id, for any set `S` of stored blocks within `2^31` ids:

* `probeChain_hit`, `probeChain_miss`: the walk of one chain;
* `foldl_better_least`: a walk that meets no target keeps the nearest id it has seen;
* `ChainScan.bucketScan_least`: the scan, step after step, from any step `j` before the nearest
  key, by induction on the fuel; the invariant is that no candidate lies within `j` of the origin
  and that the best id is nearest among the buckets already walked. A `ChainScan` names the
  blocks `A` the chains hold and the candidates `S` among them, so that the iterator's scan,
  whose candidates are only the blocks above its position, is a case of it too;
* `ScanSetup.bucketScan_reseek`: the scan of `Remove` in both of its `endex` cases: when the span
  is shorter than the table the scan stops at the bucket of the far end, and by then a probe has
  hit; otherwise it walks every bucket at most once. Either way it stops at the step of the
  nearest block, so it needs no more rounds than that block is ids away.
-/

namespace NormSegment

namespace NormBlockBuffer

open NormBlockId

/-- The probe of step `offset + 1`. -/
theorem probe_eq_step (up : Bool) (o : NormBlockId) (offset : Nat) :
    (if up then o.addOffset (offset + 1) else o.subOffset (offset + 1)) = step up o (offset + 1) := by
  cases up <;> rfl

section Probe

variable {target : NormBlockId} {better : NormBlockId → NormBlockId → Bool}

/-- A chain that holds the target returns one of its blocks with the target's id. -/
theorem probeChain_hit : ∀ (chain : List NormBlock) (best : NormBlockId),
    (∃ e ∈ chain, e.id = target) →
      ∃ e best', probeChain target better chain best = (some e, best') ∧ e ∈ chain ∧
        e.id = target
  | [], _, h => by simp at h
  | e :: rest, best, h => by
    by_cases he : e.id = target
    · exact ⟨e, best, by simp [probeChain, he], List.mem_cons_self _ _, he⟩
    · simp only [probeChain, if_neg he]
      obtain ⟨x, hx, hxt⟩ := h
      rcases List.mem_cons.1 hx with rfl | hx
      · exact absurd hxt he
      · obtain ⟨e', best', hp, hm, hid⟩ := probeChain_hit rest _ ⟨x, hx, hxt⟩
        exact ⟨e', best', hp, List.mem_cons_of_mem _ hm, hid⟩

/-- A chain without the target is walked to its end, folding `better` over its ids. -/
theorem probeChain_miss : ∀ (chain : List NormBlock) (best : NormBlockId),
    (∀ e ∈ chain, e.id ≠ target) →
      probeChain target better chain best =
        (none, chain.foldl (fun best e => if better e.id best then e.id else best) best)
  | [], _, _ => rfl
  | e :: rest, best, h => by
    simp only [probeChain, if_neg (h e (List.mem_cons_self _ _)), List.foldl_cons]
    exact probeChain_miss rest _ fun x hx => h x (List.mem_cons_of_mem _ hx)

/-- Folding a `better` that prefers the smaller `f` among the blocks of `S`, and never prefers a
block of `A` outside `S` to one of `S`, over a chain of blocks of `A` keeps a block of `S` whose
`f` is at most the start's and that of every block of `S` walked. -/
theorem foldl_better_least {A S : Finset NormBlock} {f : NormBlockId → Nat}
    (hbetter : ∀ x ∈ S, ∀ y ∈ S, better x.id y.id = decide (f x.id < f y.id))
    (hother : ∀ x ∈ A, x ∉ S → ∀ y ∈ S, better x.id y.id = false) :
    ∀ (chain : List NormBlock) (b : NormBlock), (∀ e ∈ chain, e ∈ A) → b ∈ S →
      ∃ b' ∈ S, chain.foldl (fun best e => if better e.id best then e.id else best) b.id = b'.id ∧
        f b'.id ≤ f b.id ∧ ∀ e ∈ chain, e ∈ S → f b'.id ≤ f e.id
  | [], b, _, hb => ⟨b, hb, rfl, le_rfl, by simp⟩
  | e :: rest, b, hc, hb => by
    have he := hc e (List.mem_cons_self _ _)
    obtain ⟨c, hcS, hcb, hcle, hce⟩ : ∃ c ∈ S,
        (if better e.id b.id then e.id else b.id) = c.id ∧ f c.id ≤ f b.id ∧
          (e ∈ S → f c.id ≤ f e.id) := by
      by_cases heS : e ∈ S
      · rw [hbetter e heS b hb]
        by_cases h : f e.id < f b.id
        · exact ⟨e, heS, by simp [h], h.le, fun _ => le_rfl⟩
        · exact ⟨b, hb, by simp [h], le_rfl, fun _ => by omega⟩
      · exact ⟨b, hb, by simp [hother e he heS b hb], le_rfl, fun h => absurd h heS⟩
    obtain ⟨b', hb', heq, hle, hall⟩ :=
      foldl_better_least hbetter hother rest c (fun x hx => hc x (List.mem_cons_of_mem _ hx)) hcS
    refine ⟨b', hb', by rw [List.foldl_cons, hcb, heq], hle.trans hcle, fun x hx hxS => ?_⟩
    rcases List.mem_cons.1 hx with rfl | hx
    · exact hle.trans (hce hxS)
    · exact hall x hx hxS

end Probe

/-- Every key is `l` modulo `T` for some step `l` of the first `T`. -/
theorem exists_step_of_key {T : Nat} (hT : 0 < T) (k : Nat) :
    ∃ l, 0 < l ∧ l ≤ T ∧ k % T = l % T := by
  by_cases hk : k % T = 0
  · exact ⟨T, hT, le_rfl, by simp [hk]⟩
  · exact ⟨k % T, Nat.pos_of_ne_zero hk, (Nat.mod_lt _ hT).le, (Nat.mod_mod _ _).symm⟩

/-- What a scan from `origin` rests on: a table of `T` buckets whose chains hold exactly the
blocks of `A`, each in its id's bucket; the blocks `S ⊆ A` it looks for, each between one and
`2^31` ids from `origin` in the scan's direction, with `better` preferring the nearer; and
`better` never preferring a block of `A` outside `S` to one of `S`. -/
structure ChainScan (buf : NormBlockBuffer) (up : Bool) (origin : NormBlockId)
    (better : NormBlockId → NormBlockId → Bool) (A S : Finset NormBlock) (T : Nat) : Prop where
  span : BucketSpan buf.hashMask T
  chains : ∀ i e, e ∈ buf.table i ↔ e ∈ A ∧ buf.bucket e.id = i
  subset : S ⊆ A
  key_pos : ∀ e ∈ S, 0 < key up origin e.id
  better_iff : ∀ x ∈ S, ∀ y ∈ S,
    better x.id y.id = decide (key up origin x.id < key up origin y.id)
  better_other : ∀ x ∈ A, x ∉ S → ∀ y ∈ S, better x.id y.id = false

namespace ChainScan

variable {buf : NormBlockBuffer} {up : Bool} {o : NormBlockId}
  {better : NormBlockId → NormBlockId → Bool} {A S : Finset NormBlock} {T : Nat}

theorem bucket_eq (h : ChainScan buf up o better A S T) (x : NormBlockId) :
    buf.bucket x = x.value.val % T :=
  h.span.and_mask _ x.value.isLt

/-- A block of `S` lies in the chain of step `j` exactly when its key is `j` modulo `T`. -/
theorem mem_chain_step_iff (h : ChainScan buf up o better A S T) {e : NormBlock} (he : e ∈ S)
    (j : Nat) : e ∈ buf.table ((step up o j).value.val % T) ↔ key up o e.id % T = j % T := by
  rw [h.chains, h.bucket_eq, h.span.bucket_step_iff]
  simp [h.subset he]

/-- **The scan finds the nearest block.** From step `j`, with no block of `S` within `j` of the
origin and `b` nearest among the buckets walked, the scan returns the block of `S` nearest to the
origin, or its id as the best seen. It ends by step `E`: either some block of `S` is within `E`,
so that a probe hits it first, or the scan walks all `T` buckets and is at `endex` at step `E`.
No probe up to `E` is for a block of `A` outside `S`. -/
theorem bucketScan_least (h : ChainScan buf up o better A S T) {check : Nat → Bool}
    {endex : Nat} (E : Nat) (hE32 : E < 4294967296)
    (hcheck : ∀ j, 0 < j → j ≤ E → check ((step up o j).value.val % T) = true)
    (hend : ∀ j, 0 < j → j < E → (step up o j).value.val % T ≠ endex)
    (hcover : (∃ e ∈ S, key up o e.id ≤ E) ∨ (T ≤ E ∧ (step up o E).value.val % T = endex))
    (hother : ∀ e ∈ A, e ∉ S → ∀ j, 0 < j → j ≤ E → key up o e.id ≠ j) :
    ∀ fuel j (b : NormBlock), j < E → E ≤ j + fuel → (∀ e ∈ S, j < key up o e.id) → b ∈ S →
      (∀ e ∈ S, (∃ l, 0 < l ∧ l ≤ j ∧ key up o e.id % T = l % T) →
        key up o b.id ≤ key up o e.id) →
      ∃ r, buf.bucketScan up o better check endex fuel ((step up o j).value.val % T) j b.id =
          some r ∧
        ∃ b' ∈ S, (r.1 = some b' ∨ (r.1 = none ∧ r.2 = b'.id)) ∧
          ∀ e ∈ S, key up o b'.id ≤ key up o e.id
  | 0, j, _, hj, hfuel, _, _, _ => absurd hfuel (by omega)
  | fuel + 1, j, b, hj, hfuel, hfar, hb, hseen => by
    have hkey : key up o (step up o (j + 1)) = j + 1 := key_step o (by omega)
    simp only [bucketScan, h.span.scanNext_eq, hcheck (j + 1) (by omega) (by omega), if_true,
      probe_eq_step]
    by_cases hhit : ∃ e ∈ buf.table ((step up o (j + 1)).value.val % T),
        e.id = step up o (j + 1)
    · -- a probe hits: the block `j + 1` away is the nearest
      obtain ⟨e, best', hp, hem, he⟩ := probeChain_hit _ b.id hhit
      have heS : e ∈ S := by
        by_contra hn
        exact hother e ((h.chains _ e).1 hem).1 hn (j + 1) (by omega) (by omega)
          (by rw [he, hkey])
      refine ⟨_, by rw [hp], e, heS, .inl rfl, fun y hy => ?_⟩
      rw [he, hkey]
      exact hfar y hy
    · -- a miss: walk the chain, keep the nearest id, and go on unless at `endex`
      push_neg at hhit
      rw [probeChain_miss _ _ hhit]
      obtain ⟨b', hb', hfold, hle, hall⟩ := foldl_better_least h.better_iff h.better_other _ b
        (fun e he => ((h.chains _ e).1 he).1) hb
      have hfar' : ∀ e ∈ S, j + 1 < key up o e.id := by
        intro e he
        have := hfar e he
        by_contra hk
        have hek : key up o e.id = key up o (step up o (j + 1)) := by omega
        have hmem : e ∈ buf.table ((step up o (j + 1)).value.val % T) :=
          (h.mem_chain_step_iff he _).2 (by rw [hek, hkey])
        exact hhit e hmem (key_inj hek)
      have hseen' : ∀ e ∈ S, (∃ l, 0 < l ∧ l ≤ j + 1 ∧ key up o e.id % T = l % T) →
          key up o b'.id ≤ key up o e.id := by
        rintro e he ⟨l, hl0, hlj, hl⟩
        rcases Nat.lt_or_ge l (j + 1) with hl' | hl'
        · exact hle.trans (hseen e he ⟨l, hl0, by omega, hl⟩)
        · have hl'' : l = j + 1 := by omega
          exact hall e ((h.mem_chain_step_iff he _).2 (hl'' ▸ hl)) he
      rw [hfold]
      dsimp only
      by_cases hi : (step up o (j + 1)).value.val % T = endex
      · -- the scan ends at step `E`, having walked every bucket
        have hjE : j + 1 = E := by
          by_contra hne
          exact hend (j + 1) (by omega) (by omega) hi
        refine ⟨(none, b'.id), by rw [if_pos hi], b', hb', .inr ⟨rfl, rfl⟩, fun e he => ?_⟩
        rcases hcover with ⟨x, hx, hxE⟩ | ⟨hTE, -⟩
        · exact absurd (hfar' x hx) (by omega)
        · obtain ⟨l, hl0, hlT, hl⟩ := exists_step_of_key h.span.pos (key up o e.id)
          exact hseen' e he ⟨l, hl0, by omega, hl⟩
      · have hjE : j + 1 < E := by
          by_contra hne
          rcases hcover with ⟨x, hx, hxE⟩ | ⟨-, hE⟩
          · exact absurd (hfar' x hx) (by omega)
          · exact hi (by rw [show j + 1 = E by omega, hE])
        rw [if_neg hi]
        exact bucketScan_least h E hE32 hcheck hend hcover hother fuel (j + 1) b' hjE (by omega)
          hfar' hb' hseen'

end ChainScan

/-- What the reseek scan from the removed id `origin` rests on: a table of `T` buckets whose
chains hold exactly the blocks of `S`, each in its id's bucket; every block of `S` between one
and `2^31` ids from `origin` in the scan's direction; and `better` preferring the nearer id. -/
structure ScanSetup (buf : NormBlockBuffer) (up : Bool) (origin : NormBlockId)
    (better : NormBlockId → NormBlockId → Bool) (S : Finset NormBlock) (T : Nat) : Prop where
  span : BucketSpan buf.hashMask T
  chains : ∀ i e, e ∈ buf.table i ↔ e ∈ S ∧ buf.bucket e.id = i
  key_pos : ∀ e ∈ S, 0 < key up origin e.id
  key_lt : ∀ e ∈ S, key up origin e.id < 2147483648
  better_iff : ∀ x ∈ S, ∀ y ∈ S,
    better x.id y.id = decide (key up origin x.id < key up origin y.id)

namespace ScanSetup

variable {buf : NormBlockBuffer} {up : Bool} {o : NormBlockId}
  {better : NormBlockId → NormBlockId → Bool} {S : Finset NormBlock} {T : Nat}

/-- The reseek looks for every block the chains hold. -/
theorem toChainScan (h : ScanSetup buf up o better S T) : ChainScan buf up o better S S T :=
  ⟨h.span, h.chains, subset_rfl, h.key_pos, h.better_iff, fun _ hx hn => absurd hx hn⟩

theorem bucket_eq (h : ScanSetup buf up o better S T) (x : NormBlockId) :
    buf.bucket x = x.value.val % T :=
  h.span.and_mask _ x.value.isLt

/-- The scan's answer as `Remove` reads it: the hit's id, else the best id seen. -/
theorem getD_of_found {r : Option NormBlock × NormBlockId} {b : NormBlock}
    (h : r.1 = some b ∨ (r.1 = none ∧ r.2 = b.id)) : (r.1.map NormBlock.id).getD r.2 = b.id := by
  rcases h with h | ⟨h, hid⟩
  · simp [h]
  · simp [h, hid]

/-- **The reseek of `Remove` finds the nearest block.** Scanning from the removed id's bucket,
over a span of `d + 1` ids that holds every block of `S`, with `endex` the bucket of the far end
when the span fits the table and the start bucket otherwise, the scan returns the block of `S`
nearest to the removed id. It needs as many rounds of fuel as that block is ids away, or as the
table has buckets: the scan stops at the first hit, and in any case after one round. -/
theorem bucketScan_reseek (h : ScanSetup buf up o better S T) {d fuel index endex : Nat}
    {b : NormBlock} (hd : ∀ e ∈ S, key up o e.id ≤ d) (hd31 : d < 2147483648) (hb : b ∈ S)
    (hfuel : (∃ e ∈ S, key up o e.id ≤ fuel) ∨ buf.hashMask + 1 ≤ fuel)
    (hindex : index = o.value.val % T)
    (hendex : endex = if d + 1 ≤ buf.hashMask then (step up o d).value.val % T else index) :
    ∃ r, buf.bucketScan up o better (fun _ => true) endex fuel index 0 b.id = some r ∧
      ∃ b' ∈ S, (r.1.map NormBlock.id).getD r.2 = b'.id ∧
        ∀ e ∈ S, key up o b'.id ≤ key up o e.id := by
  subst hindex hendex
  have hT := h.span
  have hstart : o.value.val % T = (step up o 0).value.val % T := by rw [step_zero]
  have hseen : ∀ e ∈ S, (∃ l, 0 < l ∧ l ≤ 0 ∧ key up o e.id % T = l % T) →
      key up o b.id ≤ key up o e.id := by
    rintro e _ ⟨l, hl0, hl, _⟩; omega
  -- the scan stops by the nearest block's step, and by the end of one round
  obtain ⟨g, hg, hgmin⟩ := S.exists_min_image (fun e => key up o e.id) ⟨b, hb⟩
  have hg0 := h.key_pos g hg
  have hgfuel : min (key up o g.id) T ≤ fuel := by
    have := hT.le_succ
    rcases hfuel with ⟨e, he, hle⟩ | hle
    · have := hgmin e he; omega
    · omega
  rw [hstart]
  split
  · -- the span fits the table: the scan stops at the nearest block, before the far end's bucket
    have hdT : d < T := by rcases hT.full with hfull | hfull <;> omega
    have hgd := hd g hg
    refine (h.toChainScan.bucketScan_least (key up o g.id) (by omega) (fun _ _ _ => rfl)
      (fun j hj hjg heq => ?_) (.inl ⟨g, hg, le_rfl⟩) (fun _ he hn => absurd he hn) fuel 0 b hg0
      (by omega) h.key_pos hb hseen).imp fun r ⟨hr, b', hb', hf, hl⟩ =>
        ⟨hr, b', hb', getD_of_found hf, hl⟩
    rw [hT.bucket_step_iff, key_step o (show j < 4294967296 by omega),
      Nat.mod_eq_of_lt (show j < T by omega), Nat.mod_eq_of_lt hdT] at heq
    omega
  · -- a span longer than the table: the scan stops at the nearest block, or after a round
    have hTd : T ≤ d + 1 := by have := hT.le_succ; omega
    have := hT.pos
    have hcover : (∃ e ∈ S, key up o e.id ≤ min (key up o g.id) T) ∨
        (T ≤ min (key up o g.id) T ∧
          (step up o (min (key up o g.id) T)).value.val % T = (step up o 0).value.val % T) := by
      rcases le_total (key up o g.id) T with hgT | hgT
      · exact .inl ⟨g, hg, le_min le_rfl hgT⟩
      · rw [min_eq_right hgT, hT.bucket_step_iff, key_step o (show T < 4294967296 by omega),
          Nat.mod_self, Nat.zero_mod]
        exact .inr ⟨le_rfl, rfl⟩
    refine (h.toChainScan.bucketScan_least _ (by omega) (fun _ _ _ => rfl)
      (fun j hj hjE heq => ?_) hcover (fun _ he hn => absurd he hn) fuel 0 b (by omega)
      (by omega) h.key_pos hb hseen).imp fun r ⟨hr, b', hb', hf, hl⟩ =>
        ⟨hr, b', hb', getD_of_found hf, hl⟩
    rw [hT.bucket_step_iff, key_step o (show j < 4294967296 by omega),
      Nat.mod_eq_of_lt (show j < T by omega), Nat.zero_mod] at heq
    omega

end ScanSetup

end NormBlockBuffer

end NormSegment
