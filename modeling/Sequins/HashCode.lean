import Mathlib.Algebra.BigOperators.Fin
import Mathlib.Data.List.Lex
import Mathlib.Data.Int.ModEq
import Mathlib.Tactic.Ring

/-!
# Hash codes and key partitions

The arithmetic layer everything else is sharded by (`blocks/hashcode.go`):

* `hashCode` — `java.lang.String#hashCode` on bytes, an `int32` accumulator that
  wraps at every step. It is modelled on Lean's `Int32`, so the wrap-around, the
  sign-bit mask and the signed comparison are the machine's own. Wrapping once at
  the end gives the same (`toInt_foldl`), and so the hash is a sum of powers of
  `31` (`hashCode_eq_sum`).
* `keyPartition` — the partition Hadoop would shuffle the key to, together with
  the *alternate* one a Cascading job may have put it in. Partition numbers are
  Go `int`s: integers, with `wrap64` at the two places where the 64-bit sum or
  difference could leave the range.

A Cascading job hashes the one-element tuple of the key, which is `31` more than
the key's own hash; a file of such a job is found under the partition `31` below
the tuple's (`cascadingFile`). The two agree unless adding `31` crosses the sign
bit, and that happens in two zones: just below `MaxInt32` and just below zero.
The code looks at the first zone only. `keyPartition_covers_iff` says exactly what
follows from that.
-/

namespace Sequins

/-- A Go byte slice, or string. -/
abbrev Bytes : Type := List UInt8

/-- Bytes are ordered by value, as `bytes.Compare` has it; Mathlib then orders
byte strings lexicographically. -/
instance uint8LinearOrder : LinearOrder UInt8 where
  le_refl _ := UInt8.le_refl _
  le_trans _ _ _ := UInt8.le_trans
  le_antisymm _ _ := UInt8.le_antisymm
  le_total := UInt8.le_total
  lt_iff_le_not_ge a b :=
    ⟨fun h => ⟨UInt8.le_of_lt h, UInt8.not_le.mpr h⟩, fun h => UInt8.not_le.mp h.2⟩
  toDecidableLE := inferInstance
  toDecidableEq := inferInstance
  toDecidableLT := inferInstance

/-! ## The functions of the source -/

/-- `hashCode` implements `java.lang.String#hashCode`. -/
def hashCode (b : Bytes) : Int32 :=
  b.foldl (fun v b => v * 31 + Int32.ofNat b.toNat) 0

/-- `math.MaxInt32`. -/
def maxInt32 : Int32 := 2147483647

/-- The two's-complement reading of an integer as a 64-bit Go `int`. -/
def wrap64 (z : ℤ) : ℤ := z.bmod (2 ^ 64)

/-- Where a pathological key may be instead: `-1` when the hash does not look
pathological. Go's `%` truncates, hence `Int.tmod`. -/
def alternatePathologicalKeyPartition (hc : Int32) (totalPartitions : ℤ) : ℤ :=
  if hc > maxInt32 - 32 then
    let tupleHC := ((hc + 31) &&& maxInt32).toInt.tmod totalPartitions
    let rotate := wrap64 (totalPartitions - Int.tmod 31 totalPartitions)
    (wrap64 (tupleHC + rotate)).tmod totalPartitions
  else
    -1

/-- `KeyPartition`: the normal partition of a key, and the alternate one (the
normal one again when the key is not pathological). -/
def keyPartition (key : Bytes) (totalPartitions : ℤ) : ℤ × ℤ :=
  let hc := hashCode key
  let normal := (hashCode key &&& maxInt32).toInt.tmod totalPartitions
  let alternate := alternatePathologicalKeyPartition hc totalPartitions
  if alternate = -1 then (normal, normal) else (normal, alternate)

/-! ## A sum of powers

The loop multiplies by 31 and adds a byte, wrapping each time. Wrapping is a homomorphism, so it
may as well be done once at the end, and what is left is Horner's rule. -/

/-- **Horner's rule**, for a loop that goes through a list from the left. -/
theorem foldl_mul_add {R α : Type*} [CommSemiring R] (r : R) (f : α → R) (l : List α) (v : R) :
    l.foldl (fun v x => v * r + f x) v =
      v * r ^ l.length + ∑ i : Fin l.length, f (l.get i) * r ^ (l.length - 1 - i) := by
  induction l generalizing v with
  | nil => simp
  | cons x l ih =>
    have hsum : ∑ i : Fin (x :: l).length,
        f ((x :: l).get i) * r ^ ((x :: l).length - 1 - (i : ℕ)) =
          f x * r ^ l.length + ∑ i : Fin l.length, f (l.get i) * r ^ (l.length - 1 - i) := by
      refine (Fin.sum_univ_succ _).trans (congrArg _ (Finset.sum_congr rfl fun i _ => ?_))
      have hexp : l.length - (i + 1) = l.length - 1 - i := by omega
      exact congrArg (fun n => f (l.get i) * r ^ n) hexp
    rw [List.foldl_cons, ih, hsum, List.length_cons]
    ring

/-- The two's-complement reading of an integer as an `int32`. -/
def wrap32 (z : ℤ) : ℤ := z.bmod (2 ^ 32)

/-- One step of the loop. -/
theorem toInt_mul_31_add (v : Int32) (b : UInt8) :
    (v * 31 + Int32.ofNat b.toNat).toInt = wrap32 (v.toInt * 31 + b.toNat) := by
  have h31 : (31 : Int32).toInt = 31 := by decide
  have hbyte : (Int32.ofNat b.toNat).toInt = b.toNat :=
    Int32.toInt_ofNat_of_lt (b.toNat_lt.trans (by decide))
  rw [Int32.toInt_add, Int32.toInt_mul, h31, hbyte]
  exact Int.bmod_add_bmod

/-- The whole loop: it does not matter that every step wraps. -/
theorem toInt_foldl (b : Bytes) {v : Int32} {z : ℤ} (h : v.toInt = wrap32 z) :
    (b.foldl (fun v b => v * 31 + Int32.ofNat b.toNat) v).toInt =
      wrap32 (b.foldl (fun v b => v * 31 + (b.toNat : ℤ)) z) := by
  induction b generalizing v z with
  | nil => exact h
  | cons c b ih =>
    have hmul : (wrap32 z * 31).bmod (2 ^ 32) = (z * 31).bmod (2 ^ 32) := Int.bmod_mul_bmod
    refine ih ?_
    calc (v * 31 + Int32.ofNat c.toNat).toInt
        = wrap32 (wrap32 z * 31 + c.toNat) := by rw [toInt_mul_31_add, h]
      _ = wrap32 ((wrap32 z * 31).bmod (2 ^ 32) + c.toNat) := Int.bmod_add_bmod.symm
      _ = wrap32 ((z * 31).bmod (2 ^ 32) + c.toNat) := by rw [hmul]
      _ = wrap32 (z * 31 + c.toNat) := Int.bmod_add_bmod

/-- **`java.lang.String#hashCode`, for all bytes.** The hash is the sum of the bytes, each times the
power of `31` that there are bytes after it, as an `int32`. So the hash of two strings one after the
other comes from their hashes. -/
theorem hashCode_eq_sum :
    (∀ b : Bytes, (hashCode b).toInt =
      wrap32 ((∑ i : Fin b.length, ((b.get i).toNat : ℤ) * 31 ^ (b.length - 1 - i)) % 2 ^ 32)) ∧
    ∀ a b : Bytes, (hashCode (a ++ b)).toInt =
      wrap32 ((hashCode a).toInt * 31 ^ b.length + (hashCode b).toInt) := by
  have hloop : ∀ (b : Bytes) (v : Int32),
      (b.foldl (fun v b => v * 31 + Int32.ofNat b.toNat) v).toInt =
        wrap32 (v.toInt * 31 ^ b.length +
          ∑ i : Fin b.length, ((b.get i).toNat : ℤ) * 31 ^ (b.length - 1 - i)) := by
    intro b v
    rw [toInt_foldl b (Int32.toInt_bmod v).symm, foldl_mul_add]
  have hsum : ∀ b : Bytes, (hashCode b).toInt =
      wrap32 (∑ i : Fin b.length, ((b.get i).toNat : ℤ) * 31 ^ (b.length - 1 - i)) := by
    intro b
    rw [hashCode, hloop, Int32.toInt_zero, zero_mul, zero_add]
  refine ⟨fun b => ?_, fun a b => ?_⟩
  · rw [hsum]
    exact (Int.emod_bmod _ _).symm
  · rw [hsum b, hashCode, List.foldl_append, hloop]
    exact Int.add_bmod_bmod.symm

-- the values that the source's tests have for `foo bar baz` and `foobarbaz`
example : hashCode [102, 111, 111, 32, 98, 97, 114, 32, 98, 97, 122] = 1892173108 := by decide
example : hashCode [102, 111, 111, 98, 97, 114, 98, 97, 122] = -1165917330 := by decide

/-! ## What the two shuffles do

These are the formulas of the source's comment, not functions of the source. -/

/-- Hadoop's default partition: `(key.hashCode & MaxInt32) % n`. -/
def hadoopPartition (key : Bytes) (n : ℤ) : ℤ :=
  (hashCode key &&& maxInt32).toInt % n

/-- Cascading's partition: `(new Tuple(key).hashCode & MaxInt32) % n`. -/
def cascadingPartition (key : Bytes) (n : ℤ) : ℤ :=
  ((hashCode key + 31) &&& maxInt32).toInt % n

/-- The partition number under which the file holding the key is known to this
program when a Cascading job wrote it. -/
def cascadingFile (key : Bytes) (n : ℤ) : ℤ :=
  (cascadingPartition key n - 31) % n

/-! ## Arithmetic of the mask and of the two zones

`& MaxInt32` takes the sign bit away, which is a reduction modulo `2 ^ 31`. Cascading adds 31 to
the hash before that. If the sum has another sign bit than the hash, the two results are `2 ^ 31`
apart before they are reduced by the number of partitions; there are two zones of hashes where
that happens, and the source knows one of them. -/

/-- Masking the sign bit away is reduction modulo `2 ^ 31`. -/
theorem toInt_and_maxInt32 (x : Int32) : (x &&& maxInt32).toInt = x.toInt % 2 ^ 31 := by
  have hnat : (x &&& maxInt32).toBitVec.toNat = x.toBitVec.toNat % 2 ^ 31 := by
    rw [Int32.toBitVec_and, BitVec.toNat_and]
    exact Nat.and_two_pow_sub_one_eq_mod _ 31
  have hlt := x.toBitVec.isLt
  change (x &&& maxInt32).toBitVec.toInt = x.toBitVec.toInt % 2 ^ 31
  rw [BitVec.toInt_eq_toNat_cond (x &&& maxInt32).toBitVec,
    BitVec.toInt_eq_toNat_cond x.toBitVec, hnat]
  split <;> split <;> omega

theorem toInt_and_maxInt32_nonneg (x : Int32) : 0 ≤ (x &&& maxInt32).toInt := by
  rw [toInt_and_maxInt32]
  exact Int.emod_nonneg _ (by decide)

/-- Adding `31` to a hash, unmasked: it wraps exactly above `MaxInt32 - 31`. -/
theorem toInt_add_31 (x : Int32) :
    (x + 31).toInt = if x.toInt ≤ 2 ^ 31 - 32 then x.toInt + 31 else x.toInt + 31 - 2 ^ 32 := by
  have hlo := x.le_toInt
  have hhi := x.toInt_lt
  have h31 : (31 : Int32).toInt = 31 := by decide
  rw [Int32.toInt_add, h31]
  split
  · exact Int.bmod_eq_of_le (by omega) (by omega)
  · rw [← Int.sub_bmod_right]
    exact Int.bmod_eq_of_le (by omega) (by omega)

/-- The branch condition of `alternatePathologicalKeyPartition`. -/
theorem gt_maxInt32_sub_32_iff (x : Int32) : x > maxInt32 - 32 ↔ 2 ^ 31 - 32 ≤ x.toInt := by
  have h : (maxInt32 - 32).toInt = 2 ^ 31 - 33 := by decide
  change maxInt32 - 32 < x ↔ _
  rw [Int32.lt_iff_toInt_lt, h]
  omega

/-- The first result of `KeyPartition` is Hadoop's partition. -/
theorem fst_keyPartition (key : Bytes) (n : ℤ) :
    (keyPartition key n).1 = hadoopPartition key n := by
  have h : (keyPartition key n).1 = (hashCode key &&& maxInt32).toInt.tmod n := by
    unfold keyPartition
    dsimp only
    split <;> rfl
  rw [h, Int.tmod_eq_emod_of_nonneg (toInt_and_maxInt32_nonneg _), hadoopPartition]

theorem hadoopPartition_nonneg (key : Bytes) {n : ℤ} (hn : 1 ≤ n) : 0 ≤ hadoopPartition key n :=
  Int.emod_nonneg _ (by omega)

theorem hadoopPartition_lt (key : Bytes) {n : ℤ} (hn : 1 ≤ n) : hadoopPartition key n < n :=
  Int.emod_lt_of_pos _ (by omega)

/-- The Hadoop partition in terms of the signed hash. -/
theorem hadoopPartition_eq (key : Bytes) (n : ℤ) :
    hadoopPartition key n = ((hashCode key).toInt % 2 ^ 31) % n := by
  rw [hadoopPartition, toInt_and_maxInt32]

/-- A hash whose sum with `31` keeps its sign bit: the two danger zones of the
source's comment are excluded. -/
def Regular (h : ℤ) : Prop := h ≤ 2 ^ 31 - 32 ∧ ¬ (-31 ≤ h ∧ h < 0)

instance (h : ℤ) : Decidable (Regular h) := inferInstanceAs (Decidable (_ ∧ _))

/-- The Cascading file partition in terms of the signed hash, before the case
split on the zones. -/
theorem cascadingFile_eq (key : Bytes) (n : ℤ) :
    cascadingFile key n = ((hashCode key + 31).toInt % 2 ^ 31 - 31) % n := by
  rw [cascadingFile, cascadingPartition, toInt_and_maxInt32, Int.emod_sub_emod]

/-- Away from the two zones the Cascading file is the Hadoop one. -/
theorem cascadingFile_of_regular {key : Bytes} (h : Regular (hashCode key).toInt) (n : ℤ) :
    cascadingFile key n = hadoopPartition key n := by
  obtain ⟨hle, hnz⟩ := h
  have hlo := (hashCode key).le_toInt
  have hmask : (hashCode key + 31).toInt % 2 ^ 31 - 31 = (hashCode key).toInt % 2 ^ 31 := by
    rw [toInt_add_31, if_pos hle]
    omega
  rw [cascadingFile_eq, hadoopPartition_eq, hmask]

/-- In either zone the Cascading file is `2 ^ 31` away from the Hadoop one. -/
theorem hadoopPartition_of_not_regular {key : Bytes} (h : ¬ Regular (hashCode key).toInt) (n : ℤ) :
    hadoopPartition key n = (cascadingFile key n + 2 ^ 31) % n := by
  have hhi := (hashCode key).toInt_lt
  have hmask : (hashCode key + 31).toInt % 2 ^ 31 - 31 + 2 ^ 31 =
      (hashCode key).toInt % 2 ^ 31 := by
    rw [toInt_add_31]
    unfold Regular at h
    split <;> omega
  rw [cascadingFile_eq, hadoopPartition_eq, Int.emod_add_emod, hmask]

/-- Shifting by `2 ^ 31` leaves a residue alone exactly when the modulus divides it. -/
theorem add_two_pow_31_emod_eq_iff (q n : ℤ) (hq : q % n = q) :
    (q + 2 ^ 31) % n = q ↔ n ∣ 2 ^ 31 := by
  constructor
  · intro h
    have h' : (q + 2 ^ 31) % n = q % n := by rw [h, hq]
    have hdvd : n ∣ (q + 2 ^ 31) - q := 
      Int.dvd_of_emod_eq_zero (Int.emod_eq_emod_iff_emod_sub_eq_zero.mp h')
    simpa using hdvd
  · rintro ⟨k, hk⟩
    rw [hk, Int.add_mul_emod_self_left, hq]

/-! ## The alternate partition

The code computes the Cascading file from the difference of the two hashes, in an `int` of 64
bits. The sum stays in its range unless the number of partitions is close to the largest `int`. -/

theorem wrap64_of_fits {z : ℤ} (hlo : 0 ≤ z) (hhi : z < 2 ^ 63) : wrap64 z = z :=
  Int.bmod_eq_of_le (by omega) (by omega)

/-- The hash does not look pathological: the second result repeats the first. -/
theorem snd_keyPartition_of_le {key : Bytes} (h : (hashCode key).toInt < 2 ^ 31 - 32) (n : ℤ) :
    (keyPartition key n).2 = hadoopPartition key n := by
  have halt : alternatePathologicalKeyPartition (hashCode key) n = -1 := by
    unfold alternatePathologicalKeyPartition
    rw [if_neg]
    rw [gt_maxInt32_sub_32_iff]
    omega
  have hsnd : (keyPartition key n).2 = (keyPartition key n).1 := by
    unfold keyPartition
    dsimp only
    rw [halt, if_pos rfl]
  rw [hsnd, fst_keyPartition]

/-- The alternate the code computes for a hash that looks pathological, once the
difference that cannot overflow is simplified. -/
theorem alternate_of_ge {key : Bytes} {n : ℤ} (hn : 1 ≤ n) (hn64 : n < 2 ^ 63)
    (h : 2 ^ 31 - 32 ≤ (hashCode key).toInt) :
    alternatePathologicalKeyPartition (hashCode key) n =
      (wrap64 (cascadingPartition key n + (n - 31 % n))).tmod n := by
  have hmod := Int.emod_nonneg 31 (show n ≠ 0 by omega)
  have hmod' := Int.emod_lt_of_pos 31 (show 0 < n by omega)
  unfold alternatePathologicalKeyPartition
  rw [if_pos ((gt_maxInt32_sub_32_iff _).mpr h)]
  dsimp only
  rw [Int.tmod_eq_emod_of_nonneg (toInt_and_maxInt32_nonneg _),
    Int.tmod_eq_emod_of_nonneg (show (0 : ℤ) ≤ 31 by decide),
    wrap64_of_fits (z := n - 31 % n) (by omega) (by omega), cascadingPartition]

/-- As long as the sum fits an `int`, the alternate is the Cascading file. -/
theorem snd_keyPartition_of_fits {key : Bytes} {n : ℤ} (hn : 1 ≤ n) (hn64 : n < 2 ^ 63)
    (h : 2 ^ 31 - 32 ≤ (hashCode key).toInt)
    (hfit : cascadingPartition key n + (n - 31 % n) < 2 ^ 63) :
    (keyPartition key n).2 = cascadingFile key n := by
  have hmod' := Int.emod_lt_of_pos 31 (show 0 < n by omega)
  have hT : 0 ≤ cascadingPartition key n := Int.emod_nonneg _ (by omega)
  have halt : alternatePathologicalKeyPartition (hashCode key) n = cascadingFile key n := by
    rw [alternate_of_ge hn hn64 h, wrap64_of_fits (by omega) hfit,
      Int.tmod_eq_emod_of_nonneg (by omega), cascadingFile,
      show cascadingPartition key n + (n - 31 % n) = cascadingPartition key n - 31 % n + n by ring,
      Int.add_emod_right, Int.sub_emod_emod]
  have hne : cascadingFile key n ≠ -1 := by
    have := Int.emod_nonneg (cascadingPartition key n - 31) (show n ≠ 0 by omega)
    unfold cascadingFile
    omega
  unfold keyPartition
  dsimp only
  rw [halt, if_neg hne]

/-- Above `MaxInt32 - 31` the tuple hash is small, and the sum always fits. -/
theorem snd_keyPartition_of_wraps {key : Bytes} {n : ℤ} (hn : 1 ≤ n) (hn64 : n < 2 ^ 63)
    (h : 2 ^ 31 - 32 < (hashCode key).toInt) :
    (keyPartition key n).2 = cascadingFile key n := by
  apply snd_keyPartition_of_fits hn hn64 (by omega)
  have hhi := (hashCode key).toInt_lt
  have hT : cascadingPartition key n = ((hashCode key).toInt + 31 - 2 ^ 31) % n := by
    rw [cascadingPartition, toInt_and_maxInt32, toInt_add_31, if_neg (by omega)]
    congr 1
    omega
  have hmod := Int.emod_nonneg 31 (show n ≠ 0 by omega)
  have hlt := Int.emod_lt_of_pos ((hashCode key).toInt + 31 - 2 ^ 31) (show 0 < n by omega)
  rcases lt_or_ge 31 n with hn31 | hn31
  · have h31 : (31 : ℤ) % n = 31 := Int.emod_eq_of_lt (by decide) hn31
    rw [hT, Int.emod_eq_of_lt (by omega) (by omega), h31]
    omega
  · omega

/-- The hash on the border, `MaxInt32 - 31`: the tuple hash is `MaxInt32` itself. -/
theorem cascadingPartition_of_border {key : Bytes} {n : ℤ}
    (h : (hashCode key).toInt = 2 ^ 31 - 32) : cascadingPartition key n = (2 ^ 31 - 1) % n := by
  rw [cascadingPartition, toInt_and_maxInt32, toInt_add_31, if_pos (by omega), h]
  rfl

/-- On the border the sum overflows for partition counts within `2 ^ 31` of the
largest `int`. Go's remainder then keeps the sign of the wrapped sum, and the
alternate is negative, with one exception where the wrapped sum is `-n`. -/
theorem snd_keyPartition_of_overflow {key : Bytes} {n : ℤ} (hn64 : n < 2 ^ 63)
    (h : (hashCode key).toInt = 2 ^ 31 - 32) (hbig : 2 ^ 63 - 2 ^ 31 + 32 ≤ n) :
    (keyPartition key n).2 ≤ 0 ∧
      ((keyPartition key n).2 = 0 ↔ n = 2 ^ 63 - 2 ^ 30 + 16) := by
  have h31 : (31 : ℤ) % n = 31 := Int.emod_eq_of_lt (by decide) (by omega)
  have hT : (2 ^ 31 - 1 : ℤ) % n = 2 ^ 31 - 1 := Int.emod_eq_of_lt (by decide) (by omega)
  have hwrap : wrap64 (2 ^ 31 - 1 + (n - 31)) = 2 ^ 31 - 32 + n - 2 ^ 64 := by
    unfold wrap64
    rw [← Int.sub_bmod_right, Int.bmod_eq_of_le (by omega) (by omega)]
    omega
  have halt := alternate_of_ge (n := n) (by omega) hn64 h.ge
  rw [cascadingPartition_of_border h, h31, hT, hwrap,
    show (2 ^ 31 - 32 + n - 2 ^ 64 : ℤ) = -(2 ^ 64 - 2 ^ 31 + 32 - n) by ring, Int.neg_tmod,
    Int.tmod_eq_emod_of_nonneg (by omega)] at halt
  have hsnd : (keyPartition key n).2 = alternatePathologicalKeyPartition (hashCode key) n := by
    unfold keyPartition
    dsimp only
    split
    · rename_i hm
      -- the sentinel is not hit: the wrapped sum is even below `-n` and huge above
      rw [halt] at hm
      rcases lt_or_ge (2 ^ 64 - 2 ^ 31 + 32 - n) n with hlt | hge
      · rw [Int.emod_eq_of_lt (by omega) hlt] at hm
        omega
      · rw [← Int.sub_emod_right, Int.emod_eq_of_lt (by omega) (by omega)] at hm
        omega
    · rfl
  rw [hsnd, halt]
  rcases lt_or_ge (2 ^ 64 - 2 ^ 31 + 32 - n) n with hlt | hge
  · rw [Int.emod_eq_of_lt (by omega) hlt]
    omega
  · rw [← Int.sub_emod_right, Int.emod_eq_of_lt (by omega) (by omega)]
    omega

/-! ## Coverage -/

theorem cascadingFile_nonneg (key : Bytes) {n : ℤ} (hn : 1 ≤ n) : 0 ≤ cascadingFile key n :=
  Int.emod_nonneg _ (by omega)

theorem cascadingFile_lt (key : Bytes) {n : ℤ} (hn : 1 ≤ n) : cascadingFile key n < n :=
  Int.emod_lt_of_pos _ (by omega)

/-- The file is a partition number already. -/
theorem cascadingFile_emod (key : Bytes) (n : ℤ) : cascadingFile key n % n = cascadingFile key n :=
  Int.emod_emod_of_dvd _ (dvd_refl n)

/-- On the border the two partitions agree, and the second result is in range
unless the sum overflows. -/
theorem snd_keyPartition_of_border {key : Bytes} {n : ℤ} (hn : 1 ≤ n) (hn64 : n < 2 ^ 63)
    (h : (hashCode key).toInt = 2 ^ 31 - 32) (hsmall : n < 2 ^ 63 - 2 ^ 31 + 32) :
    (keyPartition key n).2 = cascadingFile key n := by
  apply snd_keyPartition_of_fits hn hn64 h.ge
  rw [cascadingPartition_of_border h]
  have hmod := Int.emod_nonneg 31 (show n ≠ 0 by omega)
  have hle : (2 ^ 31 - 1 : ℤ) % n ≤ 2 ^ 31 - 1 := by
    rcases lt_or_ge (2 ^ 31 - 1) n with hbig | hle
    · exact (Int.emod_eq_of_lt (by decide) hbig).le
    · exact (Int.emod_lt_of_pos _ (by omega)).le.trans hle
  rcases lt_or_ge 31 n with hn31 | hn31
  · have h31 : (31 : ℤ) % n = 31 := Int.emod_eq_of_lt (by decide) hn31
    omega
  · omega

/-- **Pathological keys, exactly.** Both results are partitions of the version and
one of them is the file the key is found in under Cascading, except in two cases:
a hash within `31` below zero, when the partition count does not divide `2 ^ 31`
(the zone the code does not look at); and the border hash `MaxInt32 - 31` under a
partition count so large that the rotation overflows. -/
theorem keyPartition_covers_iff (key : Bytes) (n : ℤ) (hn : 1 ≤ n) (hn64 : n < 2 ^ 63) :
    ((0 ≤ (keyPartition key n).1 ∧ (keyPartition key n).1 < n) ∧
      (0 ≤ (keyPartition key n).2 ∧ (keyPartition key n).2 < n) ∧
      (cascadingFile key n = (keyPartition key n).1 ∨
        cascadingFile key n = (keyPartition key n).2)) ↔
    (¬ (-31 ≤ (hashCode key).toInt ∧ (hashCode key).toInt < 0) ∨ n ∣ 2 ^ 31) ∧
      ((hashCode key).toInt = 2 ^ 31 - 32 →
        n < 2 ^ 63 - 2 ^ 31 + 32 ∨ n = 2 ^ 63 - 2 ^ 30 + 16) := by
  have hfst := fst_keyPartition key n
  have h0 := hadoopPartition_nonneg key hn
  have h1 := hadoopPartition_lt key hn
  have hq0 := cascadingFile_nonneg key hn
  have hq1 := cascadingFile_lt key hn
  rcases lt_trichotomy (hashCode key).toInt (2 ^ 31 - 32) with hlt | hborder | hgt
  · -- not pathological for the code: one candidate, the Hadoop partition
    have hsnd := snd_keyPartition_of_le hlt n
    rw [hfst, hsnd]
    by_cases hreg : Regular (hashCode key).toInt
    · have hq := cascadingFile_of_regular hreg n
      exact ⟨fun _ => ⟨.inl hreg.2, fun he => by omega⟩,
        fun _ => ⟨⟨h0, h1⟩, ⟨h0, h1⟩, .inl hq⟩⟩
    · have hz := hadoopPartition_of_not_regular hreg n
      have hiff := add_two_pow_31_emod_eq_iff _ n (cascadingFile_emod key n)
      have hzone : -31 ≤ (hashCode key).toInt ∧ (hashCode key).toInt < 0 := by
        unfold Regular at hreg
        omega
      rw [← hz] at hiff
      constructor
      · rintro ⟨-, -, hq⟩
        have hq' : hadoopPartition key n = cascadingFile key n := by
          rcases hq with hq | hq <;> exact hq.symm
        exact ⟨.inr (hiff.mp hq'), fun he => by omega⟩
      · rintro ⟨hnot | hdvd, -⟩
        · exact absurd hzone hnot
        · exact ⟨⟨h0, h1⟩, ⟨h0, h1⟩, .inl (hiff.mpr hdvd).symm⟩
  · -- the border: the file is the Hadoop one, only the range can fail
    have hreg : Regular (hashCode key).toInt := by
      unfold Regular
      omega
    have hq := cascadingFile_of_regular hreg n
    rw [hfst]
    rcases lt_or_ge n (2 ^ 63 - 2 ^ 31 + 32) with hsmall | hbig
    · have hsnd := snd_keyPartition_of_border hn hn64 hborder hsmall
      rw [hsnd]
      exact ⟨fun _ => ⟨.inl hreg.2, fun _ => .inl hsmall⟩,
        fun _ => ⟨⟨h0, h1⟩, ⟨hq0, hq1⟩, .inl hq⟩⟩
    · obtain ⟨hneg, hzero⟩ := snd_keyPartition_of_overflow hn64 hborder hbig
      constructor
      · rintro ⟨-, ⟨hr, -⟩, -⟩
        exact ⟨.inl hreg.2, fun _ => .inr (hzero.mp (by omega))⟩
      · rintro ⟨-, himp⟩
        rcases himp hborder with hlt | heq
        · omega
        · have hsnd := hzero.mpr heq
          exact ⟨⟨h0, h1⟩, ⟨by omega, by omega⟩, .inl hq⟩
  · -- just below `MaxInt32`: the alternate is the Cascading file
    have hsnd := snd_keyPartition_of_wraps hn hn64 hgt
    rw [hfst, hsnd]
    exact ⟨fun _ => ⟨.inl (by omega), fun he => by omega⟩,
      fun _ => ⟨⟨h0, h1⟩, ⟨hq0, hq1⟩, .inr rfl⟩⟩

/-- The pathological key of the source's tests, `28` below `MaxInt32`. -/
def pathologicalKey : Bytes :=
  [0x70, 0x17, 0xad, 0x78, 0x8c, 0x5e, 0x85, 0xf1, 0x43, 0x27, 0xf8, 0x67]

/-- With twenty partitions, as in the source's test. -/
theorem keyPartition_covers_pathologicalKey :
    (0 ≤ (keyPartition pathologicalKey 20).1 ∧ (keyPartition pathologicalKey 20).1 < 20) ∧
    (0 ≤ (keyPartition pathologicalKey 20).2 ∧ (keyPartition pathologicalKey 20).2 < 20) ∧
    (cascadingFile pathologicalKey 20 = (keyPartition pathologicalKey 20).1 ∨
      cascadingFile pathologicalKey 20 = (keyPartition pathologicalKey 20).2) :=
  (keyPartition_covers_iff pathologicalKey 20 (by decide) (by decide)).mpr (by decide)

/-- The key `zsjpxag`, whose hash is `-1`. -/
def zsjpxag : Bytes := [122, 115, 106, 112, 120, 97, 103]

/-- With three partitions Cascading leaves `zsjpxag` in file `2`, and both results
are `1`. -/
theorem keyPartition_misses_zsjpxag :
    ¬ (cascadingFile zsjpxag 3 = (keyPartition zsjpxag 3).1 ∨
      cascadingFile zsjpxag 3 = (keyPartition zsjpxag 3).2) := by
  decide

end Sequins
