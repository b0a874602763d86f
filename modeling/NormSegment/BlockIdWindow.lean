import NormSegment.BlockBuffer
import Mathlib.Data.Nat.ModEq

/-!
# Block ids in a window

`NormBlockId` compares ids by the sign of their difference modulo `2^32`. Inside a window of
fewer than `2^31` ids that order is the order of the distances from the window's first id: the
`key` of an id, seen from an id `o`, is its distance from `o` going up (or going down), and
`lt_iff_key_lt` says that the sequence-number order is the order of the keys.

The bucket scans of the buffer probe, at step `j`, the id `step up o j`, `j` ids above or below
the origin `o`, whose key is `j` (`key_step`). With a table of `T` buckets, `T` dividing `2^32`,
the scan's `++i &= hash_mask` (or `--i`) moves from the bucket of one probe to the bucket of the
next (`scanNext_eq`), and an id lies in the bucket of step `j` exactly when its key is `j`
modulo `T` (`bucket_eq_iff`).
-/

namespace NormSegment

namespace NormBlockId

/-- The distance from `o` to `x`, going up when `up`, else going down, modulo `2^32`. -/
def key (up : Bool) (o x : NormBlockId) : Nat :=
  if up then (x.value - o.value).val else (o.value - x.value).val

/-- The id `j` steps above `o` (when `up`) or below it: what a scan probes at step `j`. -/
def step (up : Bool) (o : NormBlockId) (j : Nat) : NormBlockId :=
  if up then o.addOffset j else o.subOffset j

theorem val_sub (a b : UINT32) : (a - b).val = (4294967296 - b.val + a.val) % 4294967296 :=
  Fin.coe_sub a b

theorem lt_def {a b : NormBlockId} : a < b ↔ 2147483648 ≤ (a.value - b.value).val := Iff.rfl

theorem ext_val {a b : NormBlockId} (h : a.value.val = b.value.val) : a = b := by
  cases a; cases b; congr; exact Fin.ext h

theorem key_lt (up : Bool) (o x : NormBlockId) : key up o x < 4294967296 := by
  unfold key; split <;> exact Fin.isLt _

theorem key_self (up : Bool) (o : NormBlockId) : key up o o = 0 := by
  unfold key; split <;> simp

/-- Seen from `o` going up, `x` is `o` plus its key. -/
theorem key_up_modEq (o x : NormBlockId) :
    o.value.val + key true o x ≡ x.value.val [MOD 4294967296] := by
  have := o.value.isLt; have := x.value.isLt
  simp only [key, if_true, val_sub, Nat.ModEq]
  omega

/-- Seen from `o` going down, `x` plus its key is `o`. -/
theorem key_down_modEq (o x : NormBlockId) :
    x.value.val + key false o x ≡ o.value.val [MOD 4294967296] := by
  have := o.value.isLt; have := x.value.isLt
  simp only [key, Bool.false_eq_true, if_false, val_sub, Nat.ModEq]
  omega

theorem step_up_modEq (o : NormBlockId) (j : Nat) :
    (step true o j).value.val ≡ o.value.val + j [MOD 4294967296] := by
  simp only [step, if_true, addOffset, Fin.val_add, Nat.ModEq]
  show (o.value.val + j % 4294967296) % 4294967296 % 4294967296 = _
  omega

theorem step_down_modEq (o : NormBlockId) (j : Nat) :
    (step false o j).value.val + j ≡ o.value.val [MOD 4294967296] := by
  have := o.value.isLt
  simp only [step, Bool.false_eq_true, if_false, subOffset, val_sub, Nat.ModEq]
  show ((4294967296 - j % 4294967296 + o.value.val) % 4294967296 + j) % 4294967296 = _
  omega

/-- Two ids with the same key from `o` are the same id. -/
theorem key_inj {up : Bool} {o x y : NormBlockId} (h : key up o x = key up o y) : x = y := by
  have hx := x.value.isLt; have hy := y.value.isLt
  apply ext_val
  cases up
  · have h1 := key_down_modEq o x; have h2 := key_down_modEq o y
    rw [h] at h1
    exact Nat.ModEq.eq_of_lt_of_lt (Nat.ModEq.add_right_cancel' _ (h1.trans h2.symm)) hx hy
  · have h1 := key_up_modEq o x; have h2 := key_up_modEq o y
    rw [h] at h1
    exact Nat.ModEq.eq_of_lt_of_lt (h1.symm.trans h2) hx hy

/-- The probe of step `j` is `j` away from the origin. -/
theorem key_step {up : Bool} (o : NormBlockId) {j : Nat} (hj : j < 4294967296) :
    key up o (step up o j) = j := by
  have hk := key_lt up o (step up o j)
  cases up
  · have h1 := key_down_modEq o (step false o j); have h2 := step_down_modEq o j
    exact Nat.ModEq.eq_of_lt_of_lt (Nat.ModEq.add_left_cancel' _ (h1.trans h2.symm)) hk hj
  · have h1 := key_up_modEq o (step true o j); have h2 := step_up_modEq o j
    exact Nat.ModEq.eq_of_lt_of_lt (Nat.ModEq.add_left_cancel' _ (h1.trans h2)) hk hj

theorem step_zero (up : Bool) (o : NormBlockId) : step up o 0 = o := by
  have := o.value.isLt
  apply ext_val
  cases up
  · show (o.value - Fin.ofNat 0).val = _
    rw [val_sub]
    show (4294967296 - 0 % 4294967296 + o.value.val) % 4294967296 = _
    omega
  · show (o.value + Fin.ofNat 0).val = _
    rw [Fin.val_add]
    show (o.value.val + 0 % 4294967296) % 4294967296 = _
    omega

theorem key_true_val (o x : NormBlockId) :
    key true o x = (4294967296 - o.value.val + x.value.val) % 4294967296 :=
  val_sub _ _

theorem key_false_val (o x : NormBlockId) :
    key false o x = (4294967296 - x.value.val + o.value.val) % 4294967296 :=
  val_sub _ _

/-- Going down from `o` to `x` is going up from `x` to `o`. -/
theorem key_false_eq (o x : NormBlockId) : key false o x = key true x o := rfl

/-- `x < y` exactly when `x` is at least `2^31` ids above `y`: the key of `x` seen from `y`. -/
theorem lt_iff_key {x y : NormBlockId} : x < y ↔ 2147483648 ≤ key true y x := Iff.rfl

/-- Keys add up: from `o` to `y` is from `o` to `x`, then on from `x` to `y`. -/
theorem key_add (o x y : NormBlockId) :
    key true o y = (key true o x + key true x y) % 4294967296 := by
  have := o.value.isLt; have := x.value.isLt; have := y.value.isLt
  simp only [key_true_val]
  omega

/-- From a base `o` inside the window, `x` lies below `y` exactly when its key is smaller. -/
theorem lt_iff_key_lt {o x y : NormBlockId} (hx : key true o x < 2147483648)
    (hy : key true o y < 2147483648) : x < y ↔ key true o x < key true o y := by
  have := key_add o y x; have := key_add o x y; have := key_lt true y x
  rw [lt_iff_key]
  omega

/-- The new-`range_lo` test of `Remove`, `id > blockId && id < nextId`, compares keys going up
from the removed `blockId`. -/
theorem better_up_iff {o x b : NormBlockId} (hx0 : 0 < key true o x)
    (hx : key true o x < 2147483648) (hb : key true o b < 2147483648) :
    (o < x ∧ x < b) ↔ key true o x < key true o b := by
  have := o.value.isLt; have := x.value.isLt; have := b.value.isLt
  simp only [lt_iff_key, key_true_val] at *
  omega

/-- The new-`range_hi` test of `Remove`, `id < blockId && id > prevId`, compares keys going down
from the removed `blockId`. -/
theorem better_down_iff {o x b : NormBlockId} (hx0 : 0 < key false o x)
    (hx : key false o x < 2147483648) (hb : key false o b < 2147483648) :
    (x < o ∧ b < x) ↔ key false o x < key false o b := by
  have := o.value.isLt; have := x.value.isLt; have := b.value.isLt
  simp only [lt_iff_key, key_true_val, key_false_val] at *
  omega

/-- Re-basing a window at one of its ids `x`: what lies above `x` is its key from the old base
less that of `x`. -/
theorem key_rebase {o x y : NormBlockId} (h : key true o x ≤ key true o y) :
    key true x y = key true o y - key true o x := by
  have := key_add o x y; have := key_lt true x y; have := key_lt true o y
  omega

/-! ### Buckets of a power-of-two table -/

/-- A table of `T` buckets indexed by `x & hash_mask`: for a 32-bit `x` that is `x % T`, and `T`
divides `2^32`, so that an index stepped modulo `2^32` stays in step modulo `T`. -/
structure BucketSpan (hashMask T : Nat) : Prop where
  pos : 0 < T
  dvd : T ∣ 4294967296
  le_succ : T ≤ hashMask + 1
  full : T = hashMask + 1 ∨ T = 4294967296
  and_mask : ∀ x < 4294967296, x &&& hashMask = x % T

/-- A mask `2^k - 1` indexes `2^min k 32` buckets: beyond `2^32` the ids stop short of the mask. -/
theorem bucketSpan_pow (k : Nat) : BucketSpan (2 ^ k - 1) (2 ^ min k 32) where
  pos := Nat.two_pow_pos _
  dvd := Nat.pow_dvd_pow 2 (min_le_right k 32)
  le_succ := by
    rw [Nat.sub_add_cancel Nat.one_le_two_pow]
    exact Nat.pow_le_pow_right (by omega) (min_le_left k 32)
  full := by
    rcases le_total k 32 with hk | hk
    · left; rw [min_eq_left hk, Nat.sub_add_cancel Nat.one_le_two_pow]
    · right; rw [min_eq_right hk]; rfl
  and_mask x hx := by
    rw [Nat.and_pow_two_sub_one_eq_mod]
    rcases le_total k 32 with hk | hk
    · rw [min_eq_left hk]
    · have hx' : x < 2 ^ 32 := hx
      rw [min_eq_right hk, Nat.mod_eq_of_lt hx',
        Nat.mod_eq_of_lt (lt_of_lt_of_le hx' (Nat.pow_le_pow_right (by omega) hk))]

section Buckets

variable {hashMask T : Nat} (hs : BucketSpan hashMask T)
include hs

theorem BucketSpan.mod_eq {a b : Nat} (h : a ≡ b [MOD 4294967296]) : a % T = b % T :=
  Nat.ModEq.of_dvd hs.dvd h

/-- `++i &= hash_mask` (or `--i`) takes the bucket of one probe to the bucket of the next. -/
theorem BucketSpan.scanNext_eq (up : Bool) (o : NormBlockId) (j : Nat) :
    (if up then ((step up o j).value.val % T + 1) % 4294967296
      else ((step up o j).value.val % T + 4294967295) % 4294967296) &&& hashMask =
      (step up o (j + 1)).value.val % T := by
  rw [hs.and_mask _ (by split <;> exact Nat.mod_lt _ (by omega))]
  cases up
  · have h1 := step_down_modEq o j; have h2 := step_down_modEq o (j + 1)
    simp only [Bool.false_eq_true, if_false, Nat.mod_mod_of_dvd _ hs.dvd, Nat.mod_add_mod]
    apply hs.mod_eq
    unfold Nat.ModEq at *
    omega
  · have h1 := step_up_modEq o j; have h2 := step_up_modEq o (j + 1)
    simp only [if_true, Nat.mod_mod_of_dvd _ hs.dvd, Nat.mod_add_mod]
    apply hs.mod_eq
    unfold Nat.ModEq at *
    omega

/-- An id hashes to the bucket of the probe of step `j` exactly when its key is `j` modulo the
number of buckets. -/
theorem BucketSpan.bucket_step_iff (up : Bool) (o x : NormBlockId) (j : Nat) :
    x.value.val % T = (step up o j).value.val % T ↔ key up o x % T = j % T := by
  cases up
  · have h1 := hs.mod_eq (key_down_modEq o x); have h2 := hs.mod_eq (step_down_modEq o j)
    constructor
    · intro h
      exact Nat.ModEq.add_left_cancel' x.value.val
        ((h1.trans h2.symm).trans (Nat.ModEq.add_right j h.symm))
    · intro h
      exact Nat.ModEq.add_right_cancel' (key false o x)
        ((h1.trans h2.symm).trans (Nat.ModEq.add_left _ h.symm))
  · have h1 := hs.mod_eq (key_up_modEq o x); have h2 := hs.mod_eq (step_up_modEq o j)
    constructor
    · intro h
      exact Nat.ModEq.add_left_cancel' o.value.val (h1.trans (h.trans h2))
    · intro h
      exact (h1.symm.trans (Nat.ModEq.add_left _ h)).trans h2.symm

/-- The `endex` of the scan up: `(index + range - 1) & hash_mask` is the bucket of the probe of
step `range - 1`. -/
theorem BucketSpan.endex_up (o : NormBlockId) (d : Nat) :
    (o.value.val % T + d) % 4294967296 &&& hashMask = (step true o d).value.val % T := by
  rw [hs.and_mask _ (Nat.mod_lt _ (by omega)), Nat.mod_mod_of_dvd _ hs.dvd, Nat.mod_add_mod]
  exact hs.mod_eq (step_up_modEq o d).symm

/-- The `endex` of the scan down: `(index - range + 1) & hash_mask` is the bucket of the probe of
step `range - 1`. -/
theorem BucketSpan.endex_down (o : NormBlockId) {d : Nat} (hd : d ≤ 4294967296) :
    (o.value.val % T + (4294967296 - d)) % 4294967296 &&& hashMask =
      (step false o d).value.val % T := by
  rw [hs.and_mask _ (Nat.mod_lt _ (by omega)), Nat.mod_mod_of_dvd _ hs.dvd, Nat.mod_add_mod]
  have h := step_down_modEq o d
  apply hs.mod_eq
  unfold Nat.ModEq at *
  omega

end Buckets

end NormBlockId

end NormSegment
