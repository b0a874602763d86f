import NormSegment.SegmentPool

/-!
# The pool's counters

`NormSegmentPool` keeps two counters for telemetry (§3 of the spec): `peak_usage`, the largest
`seg_total - seg_count` seen, and `overruns`, the number of exhaustion episodes, an episode being
a run of failing `Get`s that ends when a `Get` succeeds; `overrun_flag` marks an episode in
progress. The constructor clears all three; `Init` zeroes the two counters and leaves
`overrun_flag` as it was.

`Call` names the three calls and `runCalls` runs a sequence of them, up to an `Init` whose
`Destroy` trips its `ASSERT`; `states` lists the states a run passes through, and `getFails` the
outcome of each `Get`. What the counters are for is stated without the flag: `peakOf` is the
largest `seg_total - seg_count` over some states, and `episodeStarts` counts the failing `Get`s
whose previous `Get` did not fail.

* `runCalls_overrunFlag`: the flag is the outcome of the last `Get`, whatever `Init`s and `Put`s
  came after it;
* `apply_overruns`, `apply_peakUsage`: one call other than `Init`, one case per call; from them,
  by induction on the run, a run without `Init` (`runCalls_overruns`, `runCalls_peakUsage`);
* `peakUsage_since_init`: since the last `Init`, `peak_usage` is the largest usage over the
  states since, as long as no more segments are put back than were handed out;
* `overruns_since_init`: `overruns` counts the episodes that start after the last `Init`, where
  the `Get`s before that `Init` decide whether the first failing `Get` after it starts one. The
  constructor starts with the flag clear, but `Init` does not clear it, so an episode in progress
  at an `Init` hides the first failing `Get` after it (`overruns_miss_episode_across_init`).
-/

namespace NormSegment

namespace NormSegmentPool

/-- A call on a segment pool: `Init(count, size)`, allocating from the heap cursor `fresh`;
`Get()`; or `Put(segment)`. -/
inductive Call
  | init (count : UINT32) (size fresh : Nat)
  | get
  | put (s : Segment)

/-- The state a call leaves, `none` when it does not complete. -/
def Call.apply : Call → NormSegmentPool → Option NormSegmentPool
  | .init count size fresh, p => p.init count.val size fresh
  | .get, p => some p.get.2
  | .put s, p => some (p.put s)

/-- The state a sequence of calls leaves, `none` when one of them does not complete. -/
def runCalls (p : NormSegmentPool) : List Call → Option NormSegmentPool
  | [] => some p
  | c :: cs => (c.apply p).bind fun q => runCalls q cs

/-- The states a sequence of calls passes through, from `p` to the last, or to the last before a
call that does not complete. -/
def states (p : NormSegmentPool) : List Call → List NormSegmentPool
  | [] => [p]
  | c :: cs => p :: ((c.apply p).map fun q => states q cs).getD []

/-- The outcome of a `Get`, whether it found the pool empty; no outcome for another call. -/
def Call.getFail : Call → NormSegmentPool → List Bool
  | .init .., _ => []
  | .get, p => [p.segList.isEmpty]
  | .put _, _ => []

/-- For each `Get` of a sequence of calls, in order, whether it found the pool empty. -/
def getFails (p : NormSegmentPool) : List Call → List Bool
  | [] => []
  | c :: cs => c.getFail p ++ ((c.apply p).map fun q => getFails q cs).getD []

/-- `Init` is the only call that resets the counters, and the only one that may not complete. -/
def Call.isInit : Call → Bool
  | .init .. => true
  | _ => false

/-! ### What the counters are for -/

/-- The largest `seg_total - seg_count` over some states. -/
def peakOf (qs : List NormSegmentPool) : Nat :=
  (qs.map fun q => q.segTotal - q.segCount).foldr max 0

/-- The failing `Get`s of a sequence of `Get` outcomes that start an exhaustion episode: those
whose previous `Get` succeeded, `prev` telling whether the `Get` before the first failed. -/
def episodeStarts (prev : Bool) (fails : List Bool) : Nat :=
  ((prev :: fails).zip fails).countP fun x => x.2 && !x.1

@[simp] theorem episodeStarts_nil (prev : Bool) : episodeStarts prev [] = 0 := rfl

theorem episodeStarts_cons (prev f : Bool) (fs : List Bool) :
    episodeStarts prev (f :: fs) = episodeStarts f fs + if f && !prev then 1 else 0 := by
  simp [episodeStarts, List.countP_cons]

/-- Counting over two pieces: the last outcome of the first decides for the head of the second. -/
theorem episodeStarts_append (prev : Bool) (fs gs : List Bool) :
    episodeStarts prev (fs ++ gs) =
      episodeStarts prev fs + episodeStarts (fs.getLast?.getD prev) gs := by
  induction fs generalizing prev with
  | nil => simp
  | cons f fs ih =>
    simp only [List.cons_append, episodeStarts_cons, ih, List.getLast?_cons, Option.getD_some]
    omega

/-! ### One call -/

/-- A call other than `Init` completes. -/
theorem Call.apply_of_not_isInit {c : Call} (hc : c.isInit = false) (p : NormSegmentPool) :
    ∃ q, c.apply p = some q := by
  cases c with
  | init => exact absurd hc Bool.noConfusion
  | get => exact ⟨_, rfl⟩
  | put s => exact ⟨_, rfl⟩

/-- A successful `Get` pops the head, clears `overrun_flag` and raises `peak_usage` to the new
`seg_total - seg_count` when that is higher. -/
theorem get_counters_of_cons {p : NormSegmentPool} {s : Segment} {rest : List Segment}
    (h : p.segList = s :: rest) :
    p.get.2.segCount = rest.length ∧ p.get.2.segTotal = p.segTotal ∧
      p.get.2.overrunFlag = false ∧ p.get.2.overruns = p.overruns ∧
      p.get.2.peakUsage = max p.peakUsage (uint32OfInt ((p.segTotal : Int) - rest.length)) := by
  unfold get
  split <;> simp_all [max_def]
  split_ifs <;> omega

/-- A failing `Get` counts an overrun unless one is in progress, and marks it. -/
theorem get_counters_of_nil {p : NormSegmentPool} (h : p.segList = []) :
    p.get.2.segCount = p.segCount ∧ p.get.2.segTotal = p.segTotal ∧
      p.get.2.overrunFlag = true ∧
      p.get.2.overruns = p.overruns + (if p.overrunFlag then 0 else 1) ∧
      p.get.2.peakUsage = p.peakUsage := by
  unfold get
  split
  · simp_all
  · split <;> simp_all

/-- A call leaves `overrun_flag` at the outcome of its `Get`, if it is one, and else as it was. -/
theorem apply_overrunFlag {p q : NormSegmentPool} {c : Call} (h : c.apply p = some q) :
    q.overrunFlag = ((c.getFail p).getLast?).getD p.overrunFlag := by
  cases c with
  | init => exact (init_eq_some h).2.2.2.2.2
  | get =>
    obtain rfl := Option.some.inj h
    rcases hl : p.segList with _ | ⟨s, rest⟩
    · simp [Call.getFail, hl, (get_counters_of_nil hl).2.2.1]
    · simp [Call.getFail, hl, (get_counters_of_cons hl).2.2.1]
  | put s => obtain rfl := Option.some.inj h; rfl

/-- **One call other than `Init`, for `overruns`.** It counts an overrun when it is a failing
`Get` after one that succeeded. -/
theorem apply_overruns {p q : NormSegmentPool} {c : Call} (hc : c.isInit = false)
    (h : c.apply p = some q) :
    q.overruns = p.overruns + episodeStarts p.overrunFlag (c.getFail p) := by
  cases c with
  | init => exact absurd hc Bool.noConfusion
  | get =>
    obtain rfl := Option.some.inj h
    rcases hl : p.segList with _ | ⟨s, rest⟩
    · -- `Get` on an empty pool
      rw [(get_counters_of_nil hl).2.2.2.1]
      cases p.overrunFlag <;> simp [Call.getFail, hl, episodeStarts_cons]
    · -- `Get` pops a segment
      simp [Call.getFail, hl, episodeStarts_cons, (get_counters_of_cons hl).2.2.2.1]
  | put s => obtain rfl := Option.some.inj h; rfl

/-- **One call other than `Init`, for `peak_usage`.** It keeps `seg_total` and raises
`peak_usage` to the `seg_total - seg_count` it leaves. -/
theorem apply_peakUsage {p q : NormSegmentPool} {c : Call} (hc : c.isInit = false)
    (h : c.apply p = some q) (hle : q.segCount ≤ q.segTotal) (htot : p.segTotal < 4294967296)
    (hpeak : p.segTotal - p.segCount ≤ p.peakUsage) :
    q.segTotal = p.segTotal ∧ q.peakUsage = max p.peakUsage (q.segTotal - q.segCount) := by
  cases c with
  | init => exact absurd hc Bool.noConfusion
  | get =>
    obtain rfl := Option.some.inj h
    rcases hl : p.segList with _ | ⟨s, rest⟩
    · -- `Get` on an empty pool
      obtain ⟨h1, h2, -, -, h5⟩ := get_counters_of_nil hl
      rw [h1, h2, h5]
      exact ⟨rfl, by omega⟩
    · -- `Get` pops a segment
      obtain ⟨h1, h2, -, -, h5⟩ := get_counters_of_cons hl
      rw [h1, h2] at hle
      have husage : uint32OfInt ((p.segTotal : Int) - rest.length) = p.segTotal - rest.length := by
        unfold uint32OfInt; omega
      rw [h1, h2, h5, husage]
      exact ⟨rfl, rfl⟩
  | put s =>
    obtain rfl := Option.some.inj h
    exact ⟨rfl, show p.peakUsage = max p.peakUsage (p.segTotal - (p.segCount + 1)) by omega⟩

/-! ### The counters along a run -/

theorem runCalls_append (p : NormSegmentPool) (cs cs' : List Call) :
    runCalls p (cs ++ cs') = (runCalls p cs).bind fun q => runCalls q cs' := by
  induction cs generalizing p with
  | nil => rfl
  | cons c cs ih =>
    show ((c.apply p).bind fun q => runCalls q (cs ++ cs')) = _
    simp only [ih, runCalls, Option.bind_assoc]

/-- Along a run that completes, the next state of each call. -/
theorem runCalls_cons_eq_some {p r : NormSegmentPool} {c : Call} {cs : List Call}
    (h : runCalls p (c :: cs) = some r) :
    ∃ q, c.apply p = some q ∧ runCalls q cs = some r ∧ states p (c :: cs) = p :: states q cs ∧
      getFails p (c :: cs) = c.getFail p ++ getFails q cs := by
  obtain ⟨q, hq, hr⟩ := Option.bind_eq_some.1 h
  exact ⟨q, hq, hr, by rw [states, hq]; rfl, by rw [getFails, hq]; rfl⟩

/-- A run without `Init` completes. -/
theorem runCalls_isSome {cs : List Call} (hcs : ∀ c ∈ cs, c.isInit = false) :
    ∀ p : NormSegmentPool, ∃ r, runCalls p cs = some r := by
  induction cs with
  | nil => exact fun p => ⟨p, rfl⟩
  | cons c cs ih =>
    intro p
    obtain ⟨q, hq⟩ := Call.apply_of_not_isInit (hcs c (List.mem_cons_self _ _)) p
    obtain ⟨r, hr⟩ := ih (fun c' hc' => hcs c' (List.mem_cons_of_mem _ hc')) q
    exact ⟨r, by rw [runCalls, hq, Option.some_bind, hr]⟩

/-- `overrun_flag` tells whether the last `Get` failed: `Init` and `Put` leave it alone. -/
theorem runCalls_overrunFlag {p r : NormSegmentPool} {cs : List Call}
    (h : runCalls p cs = some r) :
    r.overrunFlag = ((getFails p cs).getLast?).getD p.overrunFlag := by
  induction cs generalizing p with
  | nil => obtain rfl := Option.some.inj h; rfl
  | cons c cs ih =>
    obtain ⟨q, hq, hr, -, hfails⟩ := runCalls_cons_eq_some h
    rw [ih hr, apply_overrunFlag hq, hfails, List.getLast?_append]
    cases (getFails q cs).getLast? <;> rfl

/-- **The overruns over a run without `Init`.** `overruns` grows by the failing `Get`s that start
an episode, `overrun_flag` telling whether the `Get` before the run failed. -/
theorem runCalls_overruns {p r : NormSegmentPool} {cs : List Call}
    (hcs : ∀ c ∈ cs, c.isInit = false) (h : runCalls p cs = some r) :
    r.overruns = p.overruns + episodeStarts p.overrunFlag (getFails p cs) := by
  induction cs generalizing p with
  | nil => obtain rfl := Option.some.inj h; rfl
  | cons c cs ih =>
    obtain ⟨q, hq, hr, -, hfails⟩ := runCalls_cons_eq_some h
    have hc := hcs c (List.mem_cons_self _ _)
    rw [ih (fun c' hc' => hcs c' (List.mem_cons_of_mem _ hc')) hr, apply_overruns hc hq, hfails,
      episodeStarts_append, apply_overrunFlag hq, Nat.add_assoc]

/-- The first state of a run is among its states. -/
theorem usage_le_peakOf (p : NormSegmentPool) (cs : List Call) :
    p.segTotal - p.segCount ≤ peakOf (states p cs) := by
  cases cs <;> simp [states, peakOf]

theorem self_mem_states (p : NormSegmentPool) (cs : List Call) : p ∈ states p cs := by
  cases cs <;> simp [states]

/-- **The peak over a run without `Init`.** When `seg_count ≤ seg_total` holds in every state of
the run, `peak_usage` ends as the largest of its start value and the `seg_total - seg_count` of
every state. -/
theorem runCalls_peakUsage {p r : NormSegmentPool} {cs : List Call}
    (hcs : ∀ c ∈ cs, c.isInit = false) (hle : ∀ q ∈ states p cs, q.segCount ≤ q.segTotal)
    (htot : p.segTotal < 4294967296) (hpeak : p.segTotal - p.segCount ≤ p.peakUsage)
    (h : runCalls p cs = some r) :
    r.peakUsage = max p.peakUsage (peakOf (states p cs)) := by
  induction cs generalizing p with
  | nil => obtain rfl := Option.some.inj h; simp [states, peakOf, hpeak]
  | cons c cs ih =>
    obtain ⟨q, hq, hr, hstates, -⟩ := runCalls_cons_eq_some h
    rw [hstates] at hle ⊢
    have hq' : ∀ q' ∈ states q cs, q'.segCount ≤ q'.segTotal :=
      fun q' h' => hle q' (List.mem_cons_of_mem _ h')
    obtain ⟨h1, h2⟩ := apply_peakUsage (hcs c (List.mem_cons_self _ _)) hq
      (hq' q (self_mem_states q cs)) htot hpeak
    have hfirst := usage_le_peakOf q cs
    have hpeakOf : peakOf (p :: states q cs) =
        max (p.segTotal - p.segCount) (peakOf (states q cs)) := rfl
    rw [ih (fun c' hc' => hcs c' (List.mem_cons_of_mem _ hc')) hq' (h1 ▸ htot) (by omega) hr, h2,
      hpeakOf]
    omega

/-! ### Since the last `Init` -/

/-- A run through an `Init` that completes goes on from the state it leaves. -/
theorem runCalls_through_init {pre post : List Call} {count : UINT32} {size fresh : Nat}
    {p q : NormSegmentPool} (hpre : runCalls empty pre = some p)
    (hinit : p.init count.val size fresh = some q) :
    runCalls empty (pre ++ .init count size fresh :: post) = runCalls q post := by
  rw [runCalls_append, hpre, Option.some_bind, runCalls, Call.apply, hinit, Option.some_bind]

/-- **`peak_usage` since the last `Init`.** After any calls `pre`, an `Init(count, size)` that
completes and calls `post` with no `Init`, in whose states `seg_count ≤ seg_total` holds, the run
completes, and `peak_usage` is the largest `seg_total - seg_count` over the states since the
`Init`. -/
theorem peakUsage_since_init (pre post : List Call) (count : UINT32) (size fresh : Nat)
    {p q : NormSegmentPool} (hpre : runCalls empty pre = some p)
    (hinit : p.init count.val size fresh = some q) (hpost : ∀ c ∈ post, c.isInit = false)
    (hle : ∀ r ∈ states q post, r.segCount ≤ r.segTotal) :
    ∃ r, runCalls empty (pre ++ .init count size fresh :: post) = some r ∧
      r.peakUsage = peakOf (states q post) := by
  obtain ⟨-, h2, h3, h4, -⟩ := init_eq_some hinit
  obtain ⟨r, hr⟩ := runCalls_isSome hpost q
  refine ⟨r, (runCalls_through_init hpre hinit).trans hr, ?_⟩
  rw [runCalls_peakUsage hpost hle (by rw [h3]; exact count.isLt) (by omega) hr, h4]
  exact Nat.zero_max _

/-- From `Init(1)`: two `Get`s, the second failing, and a `Put`. -/
theorem peakUsage_after_two_gets :
    ∃ q, (empty.init 1 0 0 = some q ∧ (∀ c ∈ [Call.get, .get, .put 0], c.isInit = false) ∧
      ∀ r ∈ states q [.get, .get, .put 0], r.segCount ≤ r.segTotal) ∧
      ∃ r, runCalls empty ([] ++ .init 1 0 0 :: [.get, .get, .put 0]) = some r ∧
        r.peakUsage = peakOf (states q [.get, .get, .put 0]) := by
  have hpost : ∀ c ∈ [Call.get, .get, .put 0], c.isInit = false := by decide
  have hle : ∀ r ∈ states ((empty.init 1 0 0).getD empty) [.get, .get, .put 0],
      r.segCount ≤ r.segTotal := by decide
  exact ⟨_, ⟨rfl, hpost, hle⟩, peakUsage_since_init [] _ 1 0 0 rfl rfl hpost hle⟩

/-- **`overruns` since the last `Init`.** After any calls `pre`, an `Init(count, size)` that
completes and calls `post` with no `Init`, the run completes, and `overruns` counts the failing
`Get`s since the `Init` whose previous `Get` succeeded, the `Get`s before the `Init` included: an
episode in progress at the `Init` goes on after it. -/
theorem overruns_since_init (pre post : List Call) (count : UINT32) (size fresh : Nat)
    {p q : NormSegmentPool} (hpre : runCalls empty pre = some p)
    (hinit : p.init count.val size fresh = some q) (hpost : ∀ c ∈ post, c.isInit = false) :
    ∃ r, runCalls empty (pre ++ .init count size fresh :: post) = some r ∧
      r.overruns = episodeStarts ((getFails empty pre).getLast?.getD false) (getFails q post) := by
  obtain ⟨-, -, -, -, h5, h6⟩ := init_eq_some hinit
  obtain ⟨r, hr⟩ := runCalls_isSome hpost q
  refine ⟨r, (runCalls_through_init hpre hinit).trans hr, ?_⟩
  rw [runCalls_overruns hpost hr, h5, h6, runCalls_overrunFlag hpre, Nat.zero_add]
  rfl

/-- From `Init(1)`: three `Get`s, the last two failing in one episode. -/
theorem overruns_after_three_gets :
    ∃ q, (empty.init 1 0 0 = some q ∧ ∀ c ∈ [Call.get, .get, .get], c.isInit = false) ∧
      ∃ r, runCalls empty ([] ++ .init 1 0 0 :: [.get, .get, .get]) = some r ∧
        r.overruns = episodeStarts false (getFails q [.get, .get, .get]) := by
  have hpost : ∀ c ∈ [Call.get, .get, .get], c.isInit = false := by decide
  exact ⟨_, ⟨rfl, hpost⟩, overruns_since_init [] _ 1 0 0 rfl rfl hpost⟩

/-- **An episode across `Init` is not counted.** `Init(1)`, `Get`, `Get`, `Put`, `Init(0)`, `Get`:
the second `Get` fails and sets `overrun_flag`; the `Put` does not clear it, nor does `Init(0)`,
although the constructor starts with it clear. The last `Get` fails, and no `Get` since that
`Init` failed before it, but the flag is still set, so `overruns` stays `0`. -/
theorem overruns_miss_episode_across_init :
    empty.overrunFlag = false ∧
      (runCalls empty [.init 1 0 0, .get, .get, .put 0, .init 0 0 1]).map overrunFlag =
        some true ∧
      getFails empty [.init 1 0 0, .get, .get, .put 0, .init 0 0 1, .get] = [false, true, true] ∧
      (runCalls empty [.init 1 0 0, .get, .get, .put 0, .init 0 0 1, .get]).map overruns =
        some 0 := by
  decide

end NormSegmentPool

end NormSegment
