import Mathlib.Data.Finset.Max
import Mathlib.Order.Interval.Finset.Nat

/-!
# Machine words and the bit mask of a block

`normSegment.cpp` computes with `UINT16` and `UINT32` words and keeps, for each block, two
bit masks of `size` bits (`pending_mask` and `repair_mask`). Neither the word typedefs nor the
mask class are under `src/`; this file gives both the meaning the code relies on.

* The words are `Fin (2^w)`: their arithmetic wraps exactly as the machine's does, and `omega`
  reads `Fin` values, sums and comparisons directly.
* `BitMask n` is a mask of `n` bits, represented by the set of its set bits. The length is a
  type index, so the two masks of a block have the same length by construction, and a bit at or
  above the length cannot be set: `set`, `setBits` and the two-mask operations keep only the bits
  that exist.

Every operation comes with one membership lemma (`mem_set`, `mem_setBits`, ...), tagged `@[simp]`;
later files never unfold an operation. The scan `nextSet` is characterised by
`nextSet_eq_some_iff` and `nextSet_eq_none_iff`, and the in/out-parameter form the block uses,
`getNext`, by `getNext_of_mem` and `getNext_of_none`.
-/

namespace NormSegment

/-- `UINT16`: sixteen-bit unsigned words, whose arithmetic wraps modulo `2^16`. -/
abbrev UINT16 := Fin 65536

/-- `UINT32`: thirty-two-bit unsigned words, whose arithmetic wraps modulo `2^32`. -/
abbrev UINT32 := Fin 4294967296

/-- Modelled from the spec: `NormSegmentId` (and `NormSymbolId`) index a symbol of a block
(§3, "does not wrap within a block"). They are sixteen bits wide, the width of the `UINT16`
variables the code copies them into (`UINT16 currentId = nextId`). -/
abbrev NormSegmentId := UINT16

/-- The `UINT32` value of a C `int`, as when an `int` expression is passed for a `UINT32`
parameter of the mask (`UnsetBits(numData+autoParity, numParity-autoParity)`). -/
def uint32OfInt (x : Int) : Nat := (x % 4294967296).toNat

/-- Modelled from the spec (§4.2.1): a bit mask of `n` bits, given by the set of its set bits.
Bit `k` of a block's mask refers to symbol `k`. -/
structure BitMask (n : Nat) where
  bits : Finset Nat
  lt : ∀ i ∈ bits, i < n
  deriving DecidableEq

namespace BitMask

variable {n : Nat}

theorem ext {m m' : BitMask n} (h : m.bits = m'.bits) : m = m' := by
  cases m; cases m'; cases h; rfl

/-- The mask holding those elements of `s` that are bits of an `n`-bit mask. -/
def restrict (s : Finset Nat) : BitMask n :=
  ⟨s.filter (· < n), fun _ h => (Finset.mem_filter.1 h).2⟩

@[simp] theorem mem_restrict {s : Finset Nat} {i : Nat} :
    i ∈ (restrict s : BitMask n).bits ↔ i ∈ s ∧ i < n :=
  Finset.mem_filter

/-- `Init(numBits)`: a fresh mask, every bit clear. -/
def init : BitMask n := ⟨∅, by simp⟩

/-- `Clear()`. -/
def clear (_ : BitMask n) : BitMask n := init

/-- `Test(i)`. -/
def test (m : BitMask n) (i : Nat) : Bool := decide (i ∈ m.bits)

/-- `Set(i)`; a bit at or above the length does not exist and is left alone. -/
def set (m : BitMask n) (i : Nat) : BitMask n := restrict (insert i m.bits)

/-- `SetBits(start, count)`: set bits `[start, start + count)`. -/
def setBits (m : BitMask n) (start count : Nat) : BitMask n :=
  restrict (m.bits ∪ Finset.Ico start (start + count))

/-- `UnsetBits(start, count)`: clear bits `[start, start + count)`. -/
def unsetBits (m : BitMask n) (start count : Nat) : BitMask n :=
  restrict (m.bits \ Finset.Ico start (start + count))

/-- `IsSet()`: some bit is set. -/
def isSet (m : BitMask n) : Bool := decide m.bits.Nonempty

/-- `Xor(b)`: `this = this ^ b`. -/
def xor (m b : BitMask n) : BitMask n := restrict ((m.bits \ b.bits) ∪ (b.bits \ m.bits))

/-- `Add(b)`: `this = this | b`. -/
def add (m b : BitMask n) : BitMask n := restrict (m.bits ∪ b.bits)

/-- `XCopy(b)`: `this = b & ~this`, the bits of `b` that are clear in `this`; `IsRepairPending`
uses it to compute `pending_mask - repair_mask` (its comment in the source). -/
def xCopy (m b : BitMask n) : BitMask n := restrict (b.bits \ m.bits)

/-- `GetNextSet(index)`: the first set bit at or after `index`, if there is one. -/
def nextSet (m : BitMask n) (i : Nat) : Option Nat := (m.bits.filter (i ≤ ·)).min

variable {m b : BitMask n} {i j s c : Nat}

@[simp] theorem bits_init : (init : BitMask n).bits = ∅ := rfl

@[simp] theorem bits_clear : (m.clear).bits = ∅ := rfl

@[simp] theorem test_eq_true : m.test i = true ↔ i ∈ m.bits := decide_eq_true_iff

@[simp] theorem mem_set : j ∈ (m.set i).bits ↔ j ∈ m.bits ∨ (j = i ∧ i < n) := by
  simp only [set, mem_restrict, Finset.mem_insert]
  constructor
  · rintro ⟨rfl | h, hj⟩
    · exact .inr ⟨rfl, hj⟩
    · exact .inl h
  · rintro (h | ⟨rfl, hi⟩)
    · exact ⟨.inr h, m.lt _ h⟩
    · exact ⟨.inl rfl, hi⟩

@[simp] theorem mem_setBits :
    j ∈ (m.setBits s c).bits ↔ j ∈ m.bits ∨ (s ≤ j ∧ j < s + c ∧ j < n) := by
  simp only [setBits, mem_restrict, Finset.mem_union, Finset.mem_Ico]
  have := m.lt j
  tauto

@[simp] theorem mem_unsetBits :
    j ∈ (m.unsetBits s c).bits ↔ j ∈ m.bits ∧ ¬(s ≤ j ∧ j < s + c) := by
  simp only [unsetBits, mem_restrict, Finset.mem_sdiff, Finset.mem_Ico]
  have := m.lt j
  tauto

@[simp] theorem isSet_eq_true : m.isSet = true ↔ m.bits.Nonempty := decide_eq_true_iff

@[simp] theorem mem_xor : j ∈ (m.xor b).bits ↔ (j ∈ m.bits ∧ j ∉ b.bits ∨ j ∈ b.bits ∧ j ∉ m.bits) := by
  simp only [xor, mem_restrict, Finset.mem_union, Finset.mem_sdiff]
  have := m.lt j
  have := b.lt j
  tauto

@[simp] theorem mem_add : j ∈ (m.add b).bits ↔ j ∈ m.bits ∨ j ∈ b.bits := by
  simp only [add, mem_restrict, Finset.mem_union]
  have := m.lt j
  have := b.lt j
  tauto

@[simp] theorem mem_xCopy : j ∈ (m.xCopy b).bits ↔ j ∈ b.bits ∧ j ∉ m.bits := by
  simp only [xCopy, mem_restrict, Finset.mem_sdiff]
  have := b.lt j
  tauto

/-- The scan finds `j` exactly when `j` is the least set bit at or after `i`. -/
theorem nextSet_eq_some_iff :
    m.nextSet i = some j ↔ j ∈ m.bits ∧ i ≤ j ∧ ∀ k ∈ m.bits, i ≤ k → j ≤ k := by
  constructor
  · intro h
    obtain ⟨hj, hij⟩ := Finset.mem_filter.1 (Finset.mem_of_min h)
    exact ⟨hj, hij, fun k hk hik => Finset.min_le_of_eq (Finset.mem_filter.2 ⟨hk, hik⟩) h⟩
  · rintro ⟨hj, hij, hmin⟩
    show (m.bits.filter (i ≤ ·)).min = ((j : ℕ) : WithTop ℕ)
    refine le_antisymm ?_ (Finset.le_min fun k hk => ?_)
    · exact Finset.min_le (Finset.mem_filter.2 ⟨hj, hij⟩)
    · obtain ⟨hk, hik⟩ := Finset.mem_filter.1 hk
      exact WithTop.coe_le_coe.2 (hmin k hk hik)

/-- The scan finds nothing exactly when every set bit lies before `i`. -/
theorem nextSet_eq_none_iff : m.nextSet i = none ↔ ∀ k ∈ m.bits, k < i := by
  refine Finset.min_eq_top.trans (Finset.filter_eq_empty_iff.trans ?_)
  simp only [not_le]

/-- `GetNextSet` through an in/out index of type `NormSegmentId`, as `GetNextPending(symbolId)`
and `GetNextRepair(symbolId)` call it: on a hit the index moves to the bit found, on a miss it is
left as it was. -/
def getNext (m : BitMask n) (id : NormSegmentId) : Bool × NormSegmentId :=
  match m.nextSet id.val with
  | some j => (true, Fin.ofNat j)
  | none => (false, id)

theorem getNext_of_mem {id : NormSegmentId} (hj : j ∈ m.bits)
    (hid : id.val ≤ j) (hmin : ∀ k ∈ m.bits, id.val ≤ k → j ≤ k) :
    m.getNext id = (true, Fin.ofNat j) := by
  have h : m.nextSet id.val = some j := nextSet_eq_some_iff.2 ⟨hj, hid, hmin⟩
  simp only [getNext, h]

theorem getNext_of_none {id : NormSegmentId} (h : ∀ k ∈ m.bits, k < id.val) :
    m.getNext id = (false, id) := by
  have h : m.nextSet id.val = none := nextSet_eq_none_iff.2 h
  simp only [getNext, h]

end BitMask

end NormSegment
