import NormSegment.RepairRequest
import Mathlib.Data.List.SplitBy

/-!
# What the repair requests encode

A receiver reads a repair request by its form: the items of an `ITEMS` request are ids, each pair
of a `RANGES` request stands for every id from its first to its last (`NormRepairRequest.decode`).
`EncodesIds ids reqs` is what the run-compression loop of §4.2.7 promises for the ids it walks:
the requests decode to exactly `ids`; each maximal run of consecutive ids (`List.splitBy`) is
written as `runWire` says, a run of one or two ids as `ITEMS`, a longer run as one `RANGES` pair;
no request is empty; and no two requests in a row have the same form.

The proof that the loop keeps this promise has three layers.

* `repairLoop_eq_walkIds`: the loop, driven by the mask, visits the ids of its window in
  ascending order, and closes a run exactly where the next id is not consecutive; `walkIds` is
  the same rounds driven by the list of those ids.
* `walkIds_eq_emitRuns`: closing runs where the next id is not consecutive is closing the groups
  of `List.splitBy` one after another (`emitRuns`).
* `EmitInv`: closing one good run after another keeps the message an encoding of the runs closed
  so far (`EmitInv.closeRun`).
-/

namespace NormSegment

open NormRepairRequest

/-! ### What a receiver reads -/

/-- Two ids are consecutive. -/
def consecutive (a b : Nat) : Bool := a + 1 == b

/-- Every id of each `first, last` pair of a `RANGES` request. -/
def expandRanges : List Nat → List Nat
  | first :: last :: rest => List.range' first (last + 1 - first) ++ expandRanges rest
  | _ => []

namespace NormRepairRequest

/-- The ids a receiver reads from a request: its items, or every id of each of its ranges. -/
def decode (r : NormRepairRequest) : List Nat :=
  match r.form with
  | .items => r.items.map (·.val)
  | .ranges => expandRanges (r.items.map (·.val))
  | .invalid | .erasures => []

/-- The entries of a request, each tagged with the request's form. -/
def wire (r : NormRepairRequest) : List (Form × Nat) := r.items.map fun i => (r.form, i.val)

end NormRepairRequest

/-- How a run of consecutive ids is written: a run of one or two ids as `ITEMS`, a longer run as
the `RANGES` pair of its first and last id. -/
def runWire (run : List Nat) : List (Form × Nat) :=
  if run.length ≤ 2 then run.map (.items, ·)
  else [(.ranges, run.headD 0), (.ranges, run.getLastD 0)]

/-- A sequence of requests writes the runs `runs`: it decodes to their ids, writes each as
`runWire`, has no empty request, and changes form from each request to the next. -/
structure WritesRuns (runs : List (List Nat)) (reqs : List NormRepairRequest) : Prop where
  decode_eq : reqs.flatMap decode = runs.flatten
  wire_eq : reqs.flatMap wire = runs.flatMap runWire
  items_ne_nil : ∀ r ∈ reqs, r.items ≠ []
  forms_differ : reqs.Chain' fun r r' => r.form ≠ r'.form

/-- **A sequence of requests encodes a list of ids**: it decodes to exactly `ids`, writes each
maximal run of consecutive ids of `ids` as `runWire` says, has no empty request, and changes form
from each request to the next. -/
structure EncodesIds (ids : List Nat) (reqs : List NormRepairRequest) : Prop where
  decode_eq : reqs.flatMap decode = ids
  wire_eq : reqs.flatMap wire = (ids.splitBy consecutive).flatMap runWire
  items_ne_nil : ∀ r ∈ reqs, r.items ≠ []
  forms_differ : reqs.Chain' fun r r' => r.form ≠ r'.form

theorem EncodesIds.nil : EncodesIds [] [] := ⟨rfl, rfl, nofun, List.chain'_nil⟩

theorem WritesRuns.encodesIds {ids : List Nat} {reqs : List NormRepairRequest}
    (h : WritesRuns (ids.splitBy consecutive) reqs) : EncodesIds ids reqs :=
  ⟨h.decode_eq.trans (List.flatten_splitBy _ _), h.wire_eq, h.items_ne_nil, h.forms_differ⟩

/-! ### Runs -/

/-- A run the loop can close: non-empty, of consecutive ids, all below the largest id. -/
structure GoodRun (run : List Nat) : Prop where
  ne_nil : run ≠ []
  chain : run.Chain' fun a b => consecutive a b
  lt : ∀ x ∈ run, x < 65535

/-- A run of consecutive ids is the range from its first id. -/
theorem range'_of_chain : ∀ {run : List Nat}, run.Chain' (fun a b => consecutive a b) →
    run = List.range' (run.headD 0) run.length
  | [], _ => rfl
  | [a], _ => rfl
  | a :: b :: rest, h => by
    obtain ⟨hab, h⟩ := List.chain'_cons.1 h
    have hb : a + 1 = b := by simpa [consecutive] using hab
    have := range'_of_chain h
    subst hb
    simp only [List.headD_cons, List.length_cons, List.range'_succ] at this ⊢
    rw [this]

namespace GoodRun

variable {run : List Nat} (h : GoodRun run)
include h

theorem eq_range' : run = List.range' (run.headD 0) run.length := range'_of_chain h.chain

theorem length_pos : 0 < run.length := List.length_pos.2 h.ne_nil

theorem getLastD_eq : run.getLastD 0 = run.headD 0 + run.length - 1 := by
  have hpos := h.length_pos
  conv_lhs => rw [h.eq_range']
  rw [List.getLastD_eq_getLast?, List.getLast?_range', if_neg (by omega), Option.getD_some]

/-- The run ends below the largest id. -/
theorem headD_add_length_le : run.headD 0 + run.length ≤ 65535 := by
  have hpos := h.length_pos
  have hr := h.eq_range'
  generalize run.headD 0 = a at hr ⊢
  generalize hn : run.length = n at hr hpos ⊢
  have := h.lt (a + n - 1) (hr ▸ List.mem_range'_1.2 ⟨by omega, by omega⟩)
  omega

theorem length_le : run.length ≤ 65535 := by
  have := h.headD_add_length_le; omega

end GoodRun

/-- The form a run is written in. -/
def runForm (run : List Nat) : Form := if run.length ≤ 2 then .items else .ranges

theorem runForm_ne_invalid (run : List Nat) : runForm run ≠ .invalid := by
  unfold runForm; split_ifs <;> simp

/-- The ids the loop appends for a run: its ids if it has one or two, else its first and last. -/
def runItems (run : List Nat) : List UINT16 :=
  if run.length ≤ 2 then run.map Fin.ofNat
  else [Fin.ofNat (run.headD 0), Fin.ofNat (run.getLastD 0)]

theorem even_runItems {run : List Nat} (hr : runForm run = .ranges) :
    Even (runItems run).length := by
  unfold runForm at hr
  unfold runItems
  split_ifs at hr ⊢
  exact ⟨1, rfl⟩

/-- The walk about to close `run` as its current run. -/
def RepairWalk.withRun (w : RepairWalk) (run : List Nat) : RepairWalk :=
  { w with firstId := Fin.ofNat (run.headD 0), segmentCount := Fin.ofNat run.length }

theorem formOf_length {run : List Nat} (h : GoodRun run) :
    formOf (Fin.ofNat run.length) = runForm run := by
  have hpos := h.length_pos
  have hle := h.length_le
  have hval : (Fin.ofNat run.length : UINT16).val = run.length :=
    Nat.mod_eq_of_lt (by omega)
  unfold formOf runForm
  rw [hval]
  generalize run.length = n at hpos hle
  match n, hpos with
  | 1, _ => rfl
  | 2, _ => rfl
  | n + 3, _ => simp

/-- How `closeRun` writes a run of `segmentCount` ids from `firstId` to `currentId` in the form
`form`. -/
def appendRun (form : Form) (segmentCount firstId currentId : UINT16) (req : NormRepairRequest) :
    NormRepairRequest :=
  match form with
  | .items =>
    if segmentCount.val = 2 then (req.appendRepairItem firstId).appendRepairItem currentId
    else req.appendRepairItem firstId
  | .ranges => req.appendRepairRange firstId currentId
  | .invalid | .erasures => req

/-- The spec lemma of `closeRun`: start a request if the form changes, then append the run. -/
theorem closeRun_eq (formFirst : Bool) (w : RepairWalk) (currentId : UINT16) :
    closeRun formFirst w currentId =
      { msg := if formOf w.segmentCount ≠ w.prevForm then
                 (if w.prevForm ≠ .invalid then packRepairRequest w.msg w.req else w.msg) else w.msg
        req := appendRun (formOf w.segmentCount) w.segmentCount w.firstId currentId
                 (if formOf w.segmentCount ≠ w.prevForm then
                   { w.req with form := formOf w.segmentCount, items := [] } else w.req)
        prevForm := formOf w.segmentCount, segmentCount := 0, firstId := w.firstId } := by
  rw [show closeRun formFirst w currentId = closeRun true w currentId by cases formFirst <;> rfl]
  unfold closeRun appendRun
  dsimp only
  split_ifs <;> rfl

theorem appendRun_withRun (req : NormRepairRequest) {run : List Nat} (h : GoodRun run) :
    appendRun (runForm run) (Fin.ofNat run.length) (Fin.ofNat (run.headD 0))
      (Fin.ofNat (run.getLastD 0)) req = { req with items := req.items ++ runItems run } := by
  have hr := h.eq_range'
  rcases run with _ | ⟨a, _ | ⟨b, _ | ⟨c, rest⟩⟩⟩
  · exact absurd rfl h.ne_nil
  · rfl
  · obtain ⟨-, rfl, -⟩ : True ∧ b = a + 1 ∧ True := by simpa [List.range'] using hr
    simp [runForm, runItems, appendRun, appendRepairItem, show (Fin.ofNat 2 : UINT16).val = 2 from rfl]
  · simp [runForm, runItems, appendRun, appendRepairRange]

/-- **Closing a good run.** If its form is new, the previous request is packed (unless there was
none) and a fresh request of this form started; the run's items are appended. -/
theorem closeRun_withRun (formFirst : Bool) (w : RepairWalk) {run : List Nat} (h : GoodRun run) :
    closeRun formFirst (w.withRun run) (Fin.ofNat (run.getLastD 0)) =
      { msg := if runForm run ≠ w.prevForm then
                 (if w.prevForm ≠ .invalid then packRepairRequest w.msg w.req else w.msg) else w.msg
        req := if runForm run ≠ w.prevForm then
                 { w.req with form := runForm run, items := runItems run }
               else { w.req with items := w.req.items ++ runItems run }
        prevForm := runForm run, segmentCount := 0, firstId := Fin.ofNat (run.headD 0) } := by
  rw [closeRun_eq]
  simp only [RepairWalk.withRun, formOf_length h, appendRun_withRun _ h]
  split_ifs <;> rfl

/-! ### Writing one run -/

theorem expandRanges_append : ∀ (l m : List Nat), Even l.length →
    expandRanges (l ++ m) = expandRanges l ++ expandRanges m
  | [], _, _ => rfl
  | [_], _, h => by simp at h
  | a :: b :: l, m, h => by
    have hl : Even l.length := by
      simpa [Nat.even_add_one, parity_simps] using h
    simp only [List.cons_append, expandRanges, List.append_eq, expandRanges_append l m hl,
      List.append_assoc]

theorem val_ofNat_of_lt {x : Nat} (h : x < 65536) : (Fin.ofNat x : UINT16).val = x :=
  Nat.mod_eq_of_lt h

theorem ofNat_val (x : UINT16) : (Fin.ofNat x.val : UINT16) = x := Fin.ext (val_ofNat_of_lt x.isLt)

namespace GoodRun

variable {run : List Nat} (h : GoodRun run)
include h

theorem map_val_runItems : (runItems run).map (·.val) =
    if run.length ≤ 2 then run else [run.headD 0, run.getLastD 0] := by
  have hne := h.ne_nil
  unfold runItems
  split_ifs
  · rw [List.map_map]
    conv_rhs => rw [← List.map_id run]
    exact List.map_congr_left fun x hx => val_ofNat_of_lt (by have := h.lt x hx; omega)
  · have h1 := h.headD_add_length_le
    have h2 := h.getLastD_eq
    have := h.length_pos
    simp only [List.map_cons, List.map_nil, val_ofNat_of_lt (show run.headD 0 < 65536 by omega),
      val_ofNat_of_lt (show run.getLastD 0 < 65536 by omega)]

/-- Appending a good run to a request of its form adds the run to what the request decodes to,
and its `runWire` to the request's entries. -/
theorem decode_wire_append {req : NormRepairRequest} (hform : req.form = runForm run)
    (heven : runForm run = .ranges → Even req.items.length) :
    decode { req with items := req.items ++ runItems run } = req.decode ++ run ∧
      wire { req with items := req.items ++ runItems run } = req.wire ++ runWire run := by
  have hvals := h.map_val_runItems
  have hwire : (runItems run).map (fun i => (runForm run, i.val)) = runWire run := by
    have : (runItems run).map (fun i => (runForm run, i.val)) =
        ((runItems run).map (·.val)).map ((runForm run, ·)) := by simp only [List.map_map]; rfl
    rw [this, hvals]
    unfold runWire runForm
    split_ifs <;> rfl
  refine ⟨?_, by simp only [wire, List.map_append, hform, hwire]⟩
  unfold decode
  rw [hform]
  unfold runForm at hvals heven ⊢
  split_ifs at hvals heven ⊢ with hlen
  · simp only [List.map_append, hvals]
  · rw [List.map_append, hvals, expandRanges_append _ _ (by simpa using heven rfl)]
    have hlast := h.getLastD_eq
    have hpos := h.length_pos
    simp only [expandRanges, List.append_nil]
    conv_rhs => rw [h.eq_range']
    congr 2
    omega

theorem runItems_ne_nil : runItems run ≠ [] := by
  unfold runItems
  split_ifs
  · simpa using h.ne_nil
  · simp

/-- A fresh request of the run's form, with the run appended, decodes to the run. -/
theorem decode_wire_new (req : NormRepairRequest) :
    decode { req with form := runForm run, items := runItems run } = run ∧
      wire { req with form := runForm run, items := runItems run } = runWire run := by
  obtain ⟨hd, hw⟩ := h.decode_wire_append
    (show ({ req with form := runForm run, items := [] } : NormRepairRequest).form = runForm run
      from rfl) (fun _ => ⟨0, rfl⟩)
  exact ⟨hd.trans (by unfold decode; split <;> rfl), hw⟩

end GoodRun

/-! ### Closing runs one after another -/

namespace WritesRuns

variable {runs : List (List Nat)} {reqs : List NormRepairRequest} {run : List Nat}

theorem nil : WritesRuns [] [] := ⟨rfl, rfl, nofun, List.chain'_nil⟩

/-- A run in a new form is written by a new request. -/
theorem append_new (hw : WritesRuns runs reqs) (h : GoodRun run) (req : NormRepairRequest)
    (hlast : ∀ r ∈ reqs.getLast?, r.form ≠ runForm run) :
    WritesRuns (runs ++ [run]) (reqs ++ [{ req with form := runForm run, items := runItems run }]) := by
  obtain ⟨hdec, hwire⟩ := h.decode_wire_new req
  refine ⟨?_, ?_, fun r hr => ?_, List.chain'_append.2 ⟨hw.forms_differ, List.chain'_singleton _,
    fun x hx y hy => ?_⟩⟩
  · simp only [List.flatMap_append, List.flatMap_singleton, hw.decode_eq, hdec,
      List.flatten_append, List.flatten_singleton]
  · simp only [List.flatMap_append, List.flatMap_singleton, hw.wire_eq, hwire]
  · rcases List.mem_append.1 hr with hr | hr
    · exact hw.items_ne_nil r hr
    · rw [List.mem_singleton.1 hr]; exact h.runItems_ne_nil
  · cases hy
    exact hlast x hx

/-- A run in the form of the last request is appended to it. -/
theorem append_last {req : NormRepairRequest} (hw : WritesRuns runs (reqs ++ [req]))
    (h : GoodRun run) (hform : req.form = runForm run)
    (heven : runForm run = .ranges → Even req.items.length) :
    WritesRuns (runs ++ [run]) (reqs ++ [{ req with items := req.items ++ runItems run }]) := by
  obtain ⟨hdec, hwire⟩ := h.decode_wire_append hform heven
  have hchain := List.chain'_append.1 hw.forms_differ
  have hd := hw.decode_eq
  have hw' := hw.wire_eq
  simp only [List.flatMap_append, List.flatMap_singleton] at hd hw'
  refine ⟨?_, ?_, fun r hr => ?_, List.chain'_append.2 ⟨hchain.1, List.chain'_singleton _,
    fun x hx y hy => ?_⟩⟩
  · simp only [List.flatMap_append, List.flatMap_singleton, hdec, ← List.append_assoc, hd,
      List.flatten_append, List.flatten_singleton]
  · simp only [List.flatMap_append, List.flatMap_singleton, hwire, ← List.append_assoc, hw',
      List.flatMap_append, List.flatMap_singleton]
  · rcases List.mem_append.1 hr with hr | hr
    · exact hw.items_ne_nil r (List.mem_append_left _ hr)
    · rw [List.mem_singleton.1 hr]; simp [h.runItems_ne_nil]
  · cases hy
    exact hchain.2.2 x hx req rfl

end WritesRuns

/-- The request a walk is building, once it has written a run. -/
def RepairWalk.openReq (w : RepairWalk) : List NormRepairRequest :=
  if w.prevForm = .invalid then [] else [w.req]

/-- Close the runs `runs` one after another. -/
def emitRuns (formFirst : Bool) : RepairWalk → List (List Nat) → RepairWalk
  | w, [] => w
  | w, run :: runs =>
    emitRuns formFirst (closeRun formFirst (w.withRun run) (Fin.ofNat (run.getLastD 0))) runs

/-- **The emission invariant** of a walk that has closed the runs `runs` on the message `msg0`:
what it packed, followed by the request it is building, writes those runs. The open request has
the form of the last run, and holds whole pairs if that form is `RANGES`. -/
structure EmitInv (msg0 : List NormRepairRequest) (runs : List (List Nat)) (w : RepairWalk) :
    Prop where
  form_eq : w.req.form = w.prevForm
  ranges_even : w.prevForm = .ranges → Even w.req.items.length
  start : w.prevForm = .invalid → runs = [] ∧ w.msg = msg0
  written : ∃ E, w.msg = msg0 ++ E ∧ WritesRuns runs (E ++ w.openReq)

namespace EmitInv

variable {msg0 : List NormRepairRequest} {runs : List (List Nat)} {w : RepairWalk}

theorem start_walk (msg0 : List NormRepairRequest) {req : NormRepairRequest}
    (hreq : req.form = .invalid) : EmitInv msg0 [] (RepairWalk.start msg0 req) :=
  ⟨hreq, nofun, fun _ => ⟨rfl, rfl⟩, [], by simp [RepairWalk.start],
    by simpa [RepairWalk.openReq, RepairWalk.start] using WritesRuns.nil⟩

/-- **Step lemma**: closing a good run keeps the invariant, with the run added. -/
theorem closeRun (hw : EmitInv msg0 runs w) {run : List Nat} (h : GoodRun run)
    (formFirst : Bool) :
    EmitInv msg0 (runs ++ [run])
      (NormSegment.closeRun formFirst (w.withRun run) (Fin.ofNat (run.getLastD 0))) := by
  rw [closeRun_withRun formFirst w h]
  obtain ⟨E, hmsg, hE⟩ := hw.written
  have hnew := runForm_ne_invalid run
  by_cases hf : runForm run = w.prevForm
  · -- the same form: the run is appended to the open request
    have hopen : w.prevForm ≠ .invalid := hf ▸ hnew
    rw [if_neg (not_not.2 hf), if_neg (not_not.2 hf)]
    rw [RepairWalk.openReq, if_neg hopen] at hE
    refine ⟨hw.form_eq.trans hf.symm, fun hr => ?_, fun hi => absurd hi hnew, E, hmsg, ?_⟩
    · rw [List.length_append]
      exact (hw.ranges_even (hf ▸ hr)).add (even_runItems hr)
    · simpa [RepairWalk.openReq, runForm_ne_invalid] using
        hE.append_last h (hw.form_eq.trans hf.symm) (fun hr => hw.ranges_even (hf ▸ hr))
  · -- a new form: the open request, if any, is packed and a new one started
    rw [if_pos hf, if_pos hf]
    refine ⟨rfl, even_runItems, fun hi => absurd hi hnew, ?_⟩
    by_cases hi : w.prevForm = .invalid
    · obtain ⟨rfl, hm⟩ := hw.start hi
      obtain rfl : E = [] := List.append_right_eq_self.1 (hm ▸ hmsg).symm
      refine ⟨[], by simp [hi, hm], ?_⟩
      simpa [RepairWalk.openReq, runForm_ne_invalid] using
        WritesRuns.nil.append_new h w.req (by simp)
    · -- the guard `INVALID != prevForm` holds: the open request, which wrote a run, is packed
      rw [RepairWalk.openReq, if_neg hi] at hE
      refine ⟨E ++ [w.req], by simp [hi, packRepairRequest, hmsg], ?_⟩
      simpa [RepairWalk.openReq, hnew] using
        hE.append_new h w.req (by simpa [hw.form_eq] using Ne.symm hf)

/-- **Run lemma**: closing good runs one after another keeps the invariant. -/
theorem closeRuns (formFirst : Bool) : ∀ {runs rs : List (List Nat)} {w : RepairWalk},
    EmitInv msg0 runs w → (∀ r ∈ rs, GoodRun r) →
      EmitInv msg0 (runs ++ rs) (emitRuns formFirst w rs)
  | _, [], _, hw, _ => by simpa [emitRuns] using hw
  | _, r :: rs, _, hw, hrs => by
    simpa [emitRuns] using closeRuns formFirst (hw.closeRun (hrs r (List.mem_cons_self _ _)) formFirst)
      fun r' hr' => hrs r' (List.mem_cons_of_mem _ hr')

/-- After the last run, the final pack leaves a message that writes every run closed. -/
theorem finish (hw : EmitInv msg0 runs w) : ∃ E, w.finish = msg0 ++ E ∧ WritesRuns runs E := by
  obtain ⟨E, hmsg, hE⟩ := hw.written
  by_cases hi : w.prevForm = .invalid
  · obtain ⟨rfl, hm⟩ := hw.start hi
    exact ⟨[], by simp [RepairWalk.finish, hi, hm], WritesRuns.nil⟩
  · rw [RepairWalk.openReq, if_neg hi] at hE
    exact ⟨E ++ [w.req], by simp [RepairWalk.finish, hi, packRepairRequest, hmsg], hE⟩

end EmitInv

/-! ### The rounds, driven by the list of ids -/

/-- The rounds of the loop over the ids `ids`, in order: the run closes at the last id and
wherever the next id is not consecutive. -/
def walkIds (formFirst : Bool) : List Nat → RepairWalk → RepairWalk
  | [], w => w
  | [a], w => visit formFirst w (Fin.ofNat a) true
  | a :: b :: rest, w => walkIds formFirst (b :: rest) (visit formFirst w (Fin.ofNat a) (!consecutive a b))

theorem ofNat_add_one (k : Nat) : (Fin.ofNat k + 1 : UINT16) = Fin.ofNat (k + 1) :=
  Fin.ext (by simp [Fin.val_add, Fin.ofNat])

/-- A round in the middle of the run `pre` extends it by one id. -/
theorem visit_withRun (formFirst : Bool) (w : RepairWalk) {pre : List Nat}
    (hpre : pre.length < 65535) (x : Nat) (c : Bool) :
    visit formFirst (w.withRun pre) (Fin.ofNat x) c =
      if c then closeRun formFirst (w.withRun (pre ++ [x])) (Fin.ofNat x)
      else w.withRun (pre ++ [x]) := by
  have hcount : ((Fin.ofNat pre.length : UINT16).val = 0) ↔ pre = [] := by
    rw [val_ofNat_of_lt (by omega), List.length_eq_zero]
  have hfirst : (if (Fin.ofNat pre.length : UINT16).val = 0 then Fin.ofNat x
      else Fin.ofNat (pre.headD 0)) = (Fin.ofNat ((pre ++ [x]).headD 0) : UINT16) := by
    rcases pre with _ | ⟨a, pre⟩
    · exact if_pos rfl
    · exact if_neg (mt hcount.1 (List.cons_ne_nil _ _))
  simp only [visit, RepairWalk.withRun, hfirst, ofNat_add_one, List.length_append,
    List.length_singleton]

/-- A walk with no open run starts its next run at the id it visits, whatever its `firstId`. -/
theorem visit_of_count_zero (formFirst : Bool) {w : RepairWalk} (hw : w.segmentCount = 0)
    (x : UINT16) (c : Bool) : visit formFirst w x c = visit formFirst (w.withRun []) x c := by
  obtain ⟨msg, req, prevForm, count, first⟩ := w
  subst hw
  rfl

theorem walkIds_of_count_zero (formFirst : Bool) {w : RepairWalk} (hw : w.segmentCount = 0) :
    ∀ {l : List Nat}, l ≠ [] → walkIds formFirst l w = walkIds formFirst l (w.withRun [])
  | [_], _ => by simp only [walkIds, visit_of_count_zero formFirst hw]
  | _ :: _ :: _, _ => by simp only [walkIds, visit_of_count_zero formFirst hw]

/-- The rounds over a run `r`, after the part `pre` of it, close it at its last id when the next
id `t` starts with is not consecutive. -/
theorem walkIds_run (formFirst : Bool) (w : RepairWalk) (t : List Nat) :
    ∀ (pre r : List Nat), r ≠ [] → (pre ++ r).Chain' (fun a b => consecutive a b) →
      (pre ++ r).length ≤ 65535 → (∀ y ∈ t.head?, consecutive (r.getLastD 0) y = false) →
      walkIds formFirst (r ++ t) (w.withRun pre) =
        walkIds formFirst t (closeRun formFirst (w.withRun (pre ++ r)) (Fin.ofNat (r.getLastD 0)))
  | _, [], h, _, _, _ => absurd rfl h
  | pre, [x], _, _, hlen, hsep => by
    have hpre : pre.length < 65535 := by simp at hlen; omega
    rcases t with _ | ⟨y, t⟩
    · simp [walkIds, visit_withRun formFirst w hpre]
    · have hxy : consecutive x y = false := hsep y rfl
      simp [walkIds, visit_withRun formFirst w hpre, hxy]
  | pre, x :: y :: r, _, hchain, hlen, hsep => by
    have hpre : pre.length < 65535 := by simp at hlen; omega
    have hxy : consecutive x y = true := (List.chain'_cons.1 (List.chain'_append.1 hchain).2.1).1
    have := walkIds_run formFirst w t (pre ++ [x]) (y :: r) (List.cons_ne_nil _ _)
      (by simpa using hchain) (by simpa using hlen) (by simpa using hsep)
    simpa [walkIds, visit_withRun formFirst w hpre, hxy] using this

/-- Where a group of `List.splitBy` ends, the next group's first id is not consecutive. -/
theorem head_flatten_not_consecutive {g : List Nat} {G : List (List Nat)} (hg : g ≠ [])
    (hG : ∀ g' ∈ G, g' ≠ [])
    (h : (g :: G).Chain' fun a b => ∃ ha hb, consecutive (a.getLast ha) (b.head hb) = false) :
    ∀ y ∈ G.flatten.head?, consecutive (g.getLastD 0) y = false := by
  rcases G with _ | ⟨_ | ⟨z, g'⟩, G⟩
  · simp
  · exact absurd rfl (hG [] (List.mem_cons_self _ _))
  · obtain ⟨_, _, hc⟩ := (List.chain'_cons.1 h).1
    simpa [List.getLastD_eq_getLast?, List.getLast?_eq_getLast g hg] using hc

/-- **Walking the groups**: the rounds over the ids of a list of good runs, each separated from the
next, close exactly those runs. -/
theorem walkIds_flatten (formFirst : Bool) : ∀ (G : List (List Nat)) (w : RepairWalk),
    (∀ g ∈ G, GoodRun g) →
    G.Chain' (fun a b => ∃ ha hb, consecutive (a.getLast ha) (b.head hb) = false) →
    w.segmentCount = 0 → walkIds formFirst G.flatten w = emitRuns formFirst w G
  | [], _, _, _, _ => rfl
  | g :: G, w, hG, hchain, hw => by
    have hg := hG g (List.mem_cons_self _ _)
    rw [List.flatten_cons, walkIds_of_count_zero formFirst hw (by simp [hg.ne_nil]),
      walkIds_run formFirst w _ [] g hg.ne_nil (by simpa using hg.chain)
        (by simpa using hg.length_le)
        (head_flatten_not_consecutive hg.ne_nil (fun g' h' => (hG g' (List.mem_cons_of_mem _ h')).ne_nil)
          hchain)]
    exact walkIds_flatten formFirst G _ (fun g' h' => hG g' (List.mem_cons_of_mem _ h'))
      hchain.tail rfl

/-! ### The rounds, driven by the mask -/

/-- The ascending list of the ids set in `mask` from `lo` to `hi` (exclusive). -/
def windowIds {n : Nat} (mask : BitMask n) (lo hi : Nat) : List Nat :=
  (List.range' lo (hi - lo)).filter mask.test

section Window

variable {n : Nat} {mask : BitMask n} {lo hi : Nat}

theorem mem_windowIds {x : Nat} : x ∈ windowIds mask lo hi ↔ x ∈ mask.bits ∧ lo ≤ x ∧ x < hi := by
  simp only [windowIds, List.mem_filter, List.mem_range'_1, BitMask.test_eq_true]
  constructor
  · rintro ⟨⟨h1, h2⟩, h3⟩; exact ⟨h3, h1, by omega⟩
  · rintro ⟨h3, h1, h2⟩; exact ⟨⟨h1, by omega⟩, h3⟩

/-- The window starts at its least set id. -/
theorem windowIds_of_min {y : Nat} (hy : y ∈ mask.bits) (hlo : lo ≤ y) (hhi : y < hi)
    (hmin : ∀ k ∈ mask.bits, lo ≤ k → y ≤ k) : windowIds mask lo hi = y :: windowIds mask (y + 1) hi := by
  obtain ⟨a, rfl⟩ := Nat.exists_eq_add_of_le hlo
  obtain ⟨b, rfl⟩ := Nat.exists_eq_add_of_lt hhi
  have e1 : lo + a + b + 1 - lo = b + 1 + a := by omega
  have e2 : lo + a + b + 1 - (lo + a + 1) = b := by omega
  rw [windowIds, windowIds, e1, e2, ← List.range'_append_1 lo a (b + 1), List.range'_succ,
    List.filter_append, List.filter_cons_of_pos (by simpa using hy), List.filter_eq_nil_iff.2,
    List.nil_append]
  intro k hk hkset
  have := hmin k (by simpa using hkset) (List.mem_range'_1.1 hk).1
  have := (List.mem_range'_1.1 hk).2
  omega

/-- No id is set in the window. -/
theorem windowIds_of_none (h : ∀ k ∈ mask.bits, lo ≤ k → hi ≤ k) : windowIds mask lo hi = [] :=
  List.eq_nil_iff_forall_not_mem.2 fun k hk => by
    obtain ⟨hk, hlo, hhi⟩ := mem_windowIds.1 hk
    have := h k hk hlo
    omega

theorem length_windowIds_le : (windowIds mask lo hi).length ≤ hi - lo :=
  (List.length_filter_le _ _).trans (List.length_range' _ _ _).le

theorem nodup_windowIds : (windowIds mask lo hi).Nodup := (List.nodup_range' _ _).filter _

/-- A window that starts with `y` starts at the least set id from `lo`, and goes on from `y + 1`. -/
theorem windowIds_eq_cons {y : Nat} {rest : List Nat} (h : windowIds mask lo hi = y :: rest) :
    y ∈ mask.bits ∧ lo ≤ y ∧ y < hi ∧ (∀ k ∈ mask.bits, lo ≤ k → y ≤ k) ∧
      rest = windowIds mask (y + 1) hi := by
  obtain ⟨hy, hlo, hhi⟩ := mem_windowIds.1 (h ▸ List.mem_cons_self y rest)
  cases hnext : mask.nextSet lo with
  | none => exact absurd (BitMask.nextSet_eq_none_iff.1 hnext y hy) (by omega)
  | some z =>
    obtain ⟨hz, hlz, hmin⟩ := BitMask.nextSet_eq_some_iff.1 hnext
    have hzy := hmin y hy hlo
    rw [windowIds_of_min hz hlz (by omega) hmin] at h
    obtain ⟨rfl, rfl⟩ := List.cons.inj h
    exact ⟨hy, hlo, hhi, hmin, rfl⟩

end Window

/-- The loop stops at the end of the window. -/
theorem repairLoop_of_ge {n : Nat} (formFirst : Bool) (mask : BitMask n) (endId nextId : UINT16)
    (w : RepairWalk) (fuel : Nat) (h : ¬nextId < endId) :
    repairLoop formFirst mask endId (fuel + 1) nextId w = some w := by
  rw [repairLoop, if_neg h]

/-- **The loop walks the window**: from an id `x` below `endId`, with enough fuel, the loop makes
the rounds of `walkIds` over `x` and the ids set after it in the window. -/
theorem repairLoop_eq_walkIds {n : Nat} (hn : n ≤ 65535) (formFirst : Bool) (mask : BitMask n)
    (endId : UINT16) : ∀ (fuel x : Nat) (w : RepairWalk), x < endId.val →
      (windowIds mask (x + 1) endId.val).length + 2 ≤ fuel →
      repairLoop formFirst mask endId fuel (Fin.ofNat x) w =
        some (walkIds formFirst (x :: windowIds mask (x + 1) endId.val) w)
  | 0, _, _, _, hf => absurd hf (by omega)
  | fuel + 1, x, w, hx, hf => by
    have hxv : (Fin.ofNat x : UINT16).val = x := val_ofNat_of_lt (by omega)
    have hx1 : (Fin.ofNat x + 1 : UINT16).val = x + 1 := by
      rw [ofNat_add_one, val_ofNat_of_lt (by omega)]
    rw [repairLoop, if_pos (by rw [Fin.lt_def, hxv]; exact hx)]
    cases hnext : mask.nextSet (x + 1) with
    | none =>
      -- no id is set after `x`: the run closes and the loop stops at `endId`
      have hnone := BitMask.nextSet_eq_none_iff.1 hnext
      rw [BitMask.getNext_of_none (hx1 ▸ hnone),
        windowIds_of_none fun k hk hle => absurd (hnone k hk) (by omega)]
      obtain ⟨fuel, rfl⟩ : ∃ f, fuel = f + 1 := ⟨fuel - 1, by simp at hf; omega⟩
      simp [walkIds, repairLoop_of_ge]
    | some y =>
      obtain ⟨hy, hxy, hmin⟩ := BitMask.nextSet_eq_some_iff.1 hnext
      have hyv : (Fin.ofNat y : UINT16).val = y := val_ofNat_of_lt (by have := mask.lt y hy; omega)
      rw [BitMask.getNext_of_mem hy (hx1 ▸ hxy) (hx1 ▸ hmin)]
      by_cases hye : y < endId.val
      · -- the next id `y` is in the window: the run closes unless `y = x + 1`
        rw [windowIds_of_min hy hxy hye hmin] at hf ⊢
        have hcl : decide (((Fin.ofNat y : UINT16).val : Int) - (Fin.ofNat x : UINT16).val > 1 ∨
            endId ≤ Fin.ofNat y) = !consecutive x y := by
          have hle : ¬endId ≤ Fin.ofNat y := by rw [Fin.le_def, hyv]; omega
          have hd : ((Fin.ofNat y : UINT16).val : Int) - (Fin.ofNat x : UINT16).val > 1 ↔
              x + 1 ≠ y := by rw [hyv, hxv]; omega
          rw [Bool.eq_iff_iff]
          simp only [decide_eq_true_eq, hd, hle, or_false, consecutive, Bool.not_eq_true',
            beq_eq_false_iff_ne]
        simp only [if_true, hcl]
        rw [repairLoop_eq_walkIds hn formFirst mask endId fuel y _ hye (by simp at hf; omega)]
        rfl
      · -- the next id lies past the window: the run closes and the loop stops
        rw [windowIds_of_none fun k hk hle => by have := hmin k hk hle; omega]
        obtain ⟨fuel, rfl⟩ : ∃ f, fuel = f + 1 := ⟨fuel - 1, by simp at hf; omega⟩
        have hge : ¬(Fin.ofNat y : UINT16) < endId := by rw [Fin.lt_def, hyv]; omega
        have hcl : endId ≤ Fin.ofNat y := by rw [Fin.le_def, hyv]; omega
        simp [hcl, repairLoop_of_ge _ _ _ _ _ _ hge, walkIds]

/-! ### The two callers -/

/-- The groups of the ids of a mask of at most `65535` bits are good runs. -/
theorem goodRun_of_mem_splitBy {n : Nat} (hn : n ≤ 65535) {mask : BitMask n} {ids g : List Nat}
    (hids : ∀ x ∈ ids, x ∈ mask.bits) (hg : g ∈ ids.splitBy consecutive) : GoodRun g := by
  refine ⟨List.ne_nil_of_mem_splitBy _ hg, List.chain'_of_mem_splitBy hg, fun x hx => ?_⟩
  have := mask.lt x (hids x (List.flatten_splitBy consecutive ids ▸ List.mem_flatten_of_mem hg hx))
  omega

/-- The rounds over ids of a mask of at most `65535` bits close the groups of `List.splitBy`. -/
theorem walkIds_eq_emitRuns {n : Nat} (hn : n ≤ 65535) (formFirst : Bool) {mask : BitMask n}
    {ids : List Nat} (hids : ∀ x ∈ ids, x ∈ mask.bits) {w : RepairWalk} (hw : w.segmentCount = 0) :
    walkIds formFirst ids w = emitRuns formFirst w (ids.splitBy consecutive) := by
  conv_lhs => rw [← List.flatten_splitBy consecutive ids]
  exact walkIds_flatten formFirst _ w (fun _ hg => goodRun_of_mem_splitBy hn hids hg)
    (List.chain'_getLast_head_splitBy _ _) hw

/-- **The run-compression loop encodes its window**: from a set id `s` of a mask of at most
`65535` bits, with a request of no form, the loop and the final pack append to the message
requests that encode the ids set from `s` to `endId`. -/
theorem appendRepairRun_encodes {n : Nat} (hn : n ≤ 65535) (formFirst : Bool) (mask : BitMask n)
    {s : Nat} (hs : s ∈ mask.bits) (endId : UINT16) (msg : List NormRepairRequest)
    (req : NormRepairRequest) (hreq : req.form = .invalid) :
    ∃ E, appendRepairRun formFirst mask (Fin.ofNat s) endId msg req = some (msg ++ E) ∧
      EncodesIds (windowIds mask s endId.val) E := by
  have hsv : (Fin.ofNat s : UINT16).val = s := val_ofNat_of_lt (by have := mask.lt s hs; omega)
  have hids : ∀ x ∈ windowIds mask s endId.val, x ∈ mask.bits := fun x hx => (mem_windowIds.1 hx).1
  have hloop : repairLoop formFirst mask endId 65536 (Fin.ofNat s) (.start msg req) =
      some (walkIds formFirst (windowIds mask s endId.val) (.start msg req)) := by
    by_cases hse : s < endId.val
    · rw [windowIds_of_min hs le_rfl hse fun _ _ => id]
      have : (windowIds mask (s + 1) endId.val).length ≤ endId.val - (s + 1) := length_windowIds_le
      exact repairLoop_eq_walkIds hn formFirst mask endId _ s _ hse (by omega)
    · rw [windowIds_of_none fun k _ hk => by omega]
      exact repairLoop_of_ge _ _ _ _ _ _ (by rw [Fin.lt_def, hsv]; exact hse)
  obtain ⟨E, hE, hwr⟩ := ((EmitInv.start_walk msg hreq).closeRuns formFirst
    fun _ hg => goodRun_of_mem_splitBy hn hids hg).finish
  refine ⟨E, ?_, hwr.encodesIds⟩
  rw [appendRepairRun, hloop, walkIds_eq_emitRuns hn formFirst hids rfl, Option.map_some', hE]

/-- A loop that starts at or past the end of its window appends nothing. -/
theorem appendRepairRun_of_not_lt {n : Nat} (formFirst : Bool) (mask : BitMask n)
    {nextId endId : UINT16} (h : ¬nextId < endId) (msg : List NormRepairRequest)
    (req : NormRepairRequest) : appendRepairRun formFirst mask nextId endId msg req = some msg := by
  rw [appendRepairRun, repairLoop_of_ge _ _ _ _ _ _ h]
  rfl

namespace NormBlock

/-- `AppendRepairAdv` appends requests that encode every id set in `repair_mask`. -/
theorem appendRepairAdv_encodes (b : NormBlock) (cmd : List NormRepairRequest) (repairInfo : Bool) :
    ∃ E, b.appendRepairAdv cmd repairInfo = some (true, cmd ++ E) ∧
      EncodesIds (windowIds b.repairMask 0 b.size.val) E := by
  have hn : b.size.val ≤ 65535 := by omega
  unfold appendRepairAdv
  cases hnext : b.repairMask.nextSet 0 with
  | none =>
    have hnone := BitMask.nextSet_eq_none_iff.1 hnext
    rw [BitMask.getNext_of_none hnone, windowIds_of_none fun k hk _ => absurd (hnone k hk) (by omega)]
    exact ⟨[], by simp, EncodesIds.nil⟩
  | some s =>
    obtain ⟨hs, -, hmin⟩ := BitMask.nextSet_eq_some_iff.1 hnext
    have hlt := b.repairMask.lt s hs
    rw [BitMask.getNext_of_mem hs (Nat.zero_le _) hmin, windowIds_of_min hs (Nat.zero_le _) hlt hmin,
      ← windowIds_of_min hs le_rfl hlt fun _ _ h => h]
    obtain ⟨E, hE, henc⟩ := appendRepairRun_encodes hn true b.repairMask hs b.size cmd
      { NormRepairRequest.new with segmentFlag := true, infoFlag := repairInfo } rfl
    exact ⟨E, by simp [hE], henc⟩

/-- `AppendRepairRequest`, when its window starts at a pending id, appends requests that encode
the pending ids of the window. -/
theorem appendRepairRequest_encodes (b : NormBlock) (nack : List NormRepairRequest)
    (numData numParity : UINT16) (pendingInfo : Bool)
    (hstart : (b.repairWindow numData numParity).1.val ∈ b.pendingMask.bits) :
    ∃ E, b.appendRepairRequest nack numData numParity pendingInfo = some (true, nack ++ E) ∧
      EncodesIds (windowIds b.pendingMask (b.repairWindow numData numParity).1.val
        (b.repairWindow numData numParity).2.val) E := by
  obtain ⟨E, hE, henc⟩ := appendRepairRun_encodes (by omega) false b.pendingMask hstart
    (b.repairWindow numData numParity).2 nack
    { NormRepairRequest.new with segmentFlag := true, infoFlag := pendingInfo } rfl
  rw [ofNat_val] at hE
  exact ⟨E, by simp [appendRepairRequest, hE], henc⟩

/-- **Both callers encode their window.** `AppendRepairAdv` appends to the command requests that
encode every id set in `repair_mask`; `AppendRepairRequest`, when its window starts at a pending
id, appends to the NACK requests that encode the pending ids of its window. -/
theorem repair_requests_encode_windows (b : NormBlock) (cmd nack : List NormRepairRequest)
    (repairInfo pendingInfo : Bool) (numData numParity : UINT16)
    (hstart : (b.repairWindow numData numParity).1.val ∈ b.pendingMask.bits) :
    (∃ E, b.appendRepairAdv cmd repairInfo = some (true, cmd ++ E) ∧
      EncodesIds (windowIds b.repairMask 0 b.size.val) E) ∧
    ∃ E, b.appendRepairRequest nack numData numParity pendingInfo = some (true, nack ++ E) ∧
      EncodesIds (windowIds b.pendingMask (b.repairWindow numData numParity).1.val
        (b.repairWindow numData numParity).2.val) E :=
  ⟨b.appendRepairAdv_encodes cmd repairInfo,
    b.appendRepairRequest_encodes nack numData numParity pendingInfo hstart⟩

/-- The block of the example of §8 (scenario 3), whose NACK window starts at the pending id `3`. -/
theorem repair_requests_encode_windows_scenario :
    let b : NormBlock := { blank.initState 20 with
      pendingMask := BitMask.restrict {3, 7, 8, 9, 10, 15}
      erasureCount := 6 }
    (b.repairWindow 16 0).1.val ∈ b.pendingMask.bits ∧
      (∃ E, b.appendRepairAdv [] false = some (true, [] ++ E) ∧
        EncodesIds (windowIds b.repairMask 0 b.size.val) E) ∧
      ∃ E, b.appendRepairRequest [] 16 0 false = some (true, [] ++ E) ∧
        EncodesIds (windowIds b.pendingMask (b.repairWindow 16 0).1.val
          (b.repairWindow 16 0).2.val) E :=
  ⟨by decide, repair_requests_encode_windows _ [] [] false false 16 0 (by decide)⟩

end NormBlock

end NormSegment
