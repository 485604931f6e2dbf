import Mathlib.Order.Basic
import Mathlib.Tactic.IntervalCases

/-!
# Go strings

The functions of the packages `strings`, `strconv` and `fmt` by which names are put together
and taken apart, on byte strings:

* `cut` — `SplitN(s, sep, 2)` with a separator of one byte, as the two parts;
* `atoi` — `Atoi` with its error dropped: zero for what is no number, and the nearest `int64`
  for what does not fit;
* `padded` — the verb `%0wd`;
* `blank` — `TrimSpace(s) == ""`.

A number that fits is read back from its text, padded or not (`atoi_padded`).
-/

namespace GoString

/-! ## Splitting

What was put together with a separator is taken apart at the first one. This gives back the two
parts exactly if the first of them does not contain the separator. -/

/-- What is before and after the first separator, if there is one. -/
def cut (sep : UInt8) : List UInt8 → Option (List UInt8 × List UInt8)
  | [] => none
  | c :: s => if c = sep then some ([], s) else (cut sep s).map fun p => (c :: p.1, p.2)

/-- A part without a separator is found again. -/
theorem cut_append {sep : UInt8} {a : List UInt8} (ha : sep ∉ a) (b : List UInt8) :
    cut sep (a ++ sep :: b) = some (a, b) := by
  induction a with
  | nil => simp [cut]
  | cons c a ih =>
    rw [List.mem_cons, not_or] at ha
    simp [cut, Ne.symm ha.1, ih ha.2]

/-- A text is parted where it was put together, if that is the first separator. -/
theorem cut_append_iff {sep : UInt8} {a b : List UInt8} :
    cut sep (a ++ sep :: b) = some (a, b) ↔ sep ∉ a := by
  refine ⟨fun h ha => ?_, fun ha => cut_append ha b⟩
  obtain ⟨a₁, a₂, rfl, ha₁⟩ := List.eq_append_cons_of_mem ha
  rw [List.append_assoc, List.cons_append, cut_append ha₁] at h
  have hlen : a₁.length = (a₁ ++ sep :: a₂).length :=
    congrArg (fun p => p.1.length) (Option.some.inj h)
  simp at hlen

/-- A loop that reads every text of a list, and fails at none. -/
theorem mapM_of_forall {α β : Type} {f : α → Option β} {g : α → β} {l : List α}
    (h : ∀ x ∈ l, f x = some (g x)) : l.mapM f = some (l.map g) := by
  induction l with
  | nil => rfl
  | cons x l ih =>
    obtain ⟨hx, hl⟩ := List.forall_mem_cons.mp h
    simp [List.mapM_cons, hx, ih hl]

/-! ## White space -/

/-- Whether `TrimSpace` leaves nothing: every rune is white space, in one to three bytes of
UTF-8. -/
def blank : List UInt8 → Bool
  | [] => true
  | 194 :: b :: s => (b == 133 || b == 160) && blank s
  | 225 :: 154 :: 128 :: s => blank s
  | 226 :: 128 :: b :: s =>
    (decide (128 ≤ b ∧ b ≤ 138) || b == 168 || b == 169 || b == 175) && blank s
  | 226 :: 129 :: 159 :: s => blank s
  | 227 :: 128 :: 128 :: s => blank s
  | c :: s => (decide (9 ≤ c ∧ c ≤ 13) || c == 32) && blank s

-- a tab, a no-break space and an ideographic space; then a cut-off one
example : blank [9, 194, 160, 227, 128, 128] = true := by decide
example : blank [32, 227, 128] = false := by decide

/-! ## Numbers

Reading goes on digit by digit, with what was read as the accumulator, so the text of a number is
read back by induction on the number. Zeros in front do not matter to that, and neither does the
sign; what makes texts different is reading them back. -/

/-- The text of a number. -/
def decimal (n : ℕ) : List UInt8 := (Nat.toDigits 10 n).map fun c => c.toNat.toUInt8

/-- `%0wd` of a number that is not negative. -/
def padded (width n : ℕ) : List UInt8 :=
  List.replicate (width - (decimal n).length) 48 ++ decimal n

/-- `%0wd`: a sign counts for the width. -/
def paddedInt (width : ℕ) (n : ℤ) : List UInt8 :=
  if n < 0 then 45 :: padded (width - 1) n.natAbs else padded width n.natAbs

/-- The value of a digit. -/
def digit (c : UInt8) : Option ℕ := if 48 ≤ c ∧ c ≤ 57 then some (c.toNat - 48) else none

/-- Reading on after the digits of `n`. -/
def digits : ℕ → List UInt8 → Option ℕ
  | n, [] => some n
  | n, c :: s => (digit c).bind fun d => digits (10 * n + d) s

/-- The digits of an unsigned number; there has to be one. -/
def unsigned (s : List UInt8) : Option ℕ := if s = [] then none else digits 0 s

/-- `Atoi`, without its error. -/
def atoi (s : List UInt8) : ℤ :=
  match s with
  | 45 :: s => max (-2 ^ 63) (-((unsigned s).getD 0 : ℤ))
  | 43 :: s => min (2 ^ 63 - 1) ((unsigned s).getD 0)
  | s => min (2 ^ 63 - 1) ((unsigned s).getD 0)

theorem decimal_eq (n : ℕ) :
    decimal n = (if n < 10 then [] else decimal (n / 10)) ++ [(48 + n % 10).toUInt8] := by
  have hdigit : ∀ d < 10, (Nat.digitChar d).toNat.toUInt8 = (48 + d).toUInt8 := by
    intro d hd
    interval_cases d <;> rfl
  rw [decimal, Nat.toDigits_eq_if (by omega)]
  split
  · rename_i hn
    simp [hdigit n hn, Nat.mod_eq_of_lt hn]
  · rw [List.map_append, List.map_singleton, hdigit _ (Nat.mod_lt _ (by omega)), decimal]

theorem digit_toUInt8 {d : ℕ} (hd : d < 10) : digit (48 + d).toUInt8 = some d := by
  interval_cases d <;> rfl

theorem decimal_ne_nil (n : ℕ) : decimal n ≠ [] := by
  rw [decimal_eq]
  simp

theorem digits_append (n : ℕ) (s t : List UInt8) :
    digits n (s ++ t) = (digits n s).bind fun m => digits m t := by
  induction s generalizing n with
  | nil => rfl
  | cons c s ih => rcases hc : digit c with _ | d <;> simp [digits, hc, ih]

/-- By induction on the number, which has one digit more than its tenth. -/
theorem digits_decimal (n : ℕ) : digits 0 (decimal n) = some n := by
  induction n using Nat.strongRecOn with
  | ind n ih =>
    have hlast : digit (48 + n % 10).toUInt8 = some (n % 10) := digit_toUInt8 (by omega)
    rw [decimal_eq, digits_append]
    split
    · rename_i hn
      rw [Nat.mod_eq_of_lt hn] at hlast ⊢
      simp only [digits, hlast, Option.bind_some, Nat.mul_zero, Nat.zero_add]
    · rw [ih (n / 10) (by omega)]
      simp only [digits, hlast, Option.bind_some]
      congr 1
      omega

/-- Zeros in front are read, and change nothing. -/
theorem digits_padded (width n : ℕ) : digits 0 (padded width n) = some n := by
  have hzeros : ∀ k, digits 0 (List.replicate k 48) = some 0 := by
    intro k
    induction k with
    | zero => rfl
    | succ k ih => simpa [List.replicate_succ, digits, digit] using ih
  rw [padded, digits_append, hzeros, Option.bind_some, digits_decimal]

/-- The text of a number is made of digits. -/
theorem digit_of_mem_padded {width n : ℕ} {c : UInt8} (hc : c ∈ padded width n) :
    ∃ d, digit c = some d := by
  have hall : ∀ (s : List UInt8) (m k : ℕ), digits m s = some k → ∀ c ∈ s, ∃ d, digit c = some d := by
    intro s
    induction s with
    | nil => simp
    | cons a s ih =>
      intro m k h
      obtain ⟨d, hd, h⟩ := Option.bind_eq_some_iff.mp h
      exact List.forall_mem_cons.mpr ⟨⟨d, hd⟩, ih _ _ h⟩
  exact hall _ _ _ (digits_padded width n) c hc

theorem not_mem_padded {width n : ℕ} {c : UInt8} (hc : digit c = none) : c ∉ padded width n := by
  intro h
  obtain ⟨d, hd⟩ := digit_of_mem_padded h
  rw [hc] at hd
  cases hd

theorem unsigned_padded (width n : ℕ) : unsigned (padded width n) = some n := by
  rw [unsigned, if_neg, digits_padded]
  rw [padded, List.append_eq_nil_iff]
  exact fun h => decimal_ne_nil n h.2

/-- **Numbers are read back.** -/
theorem atoi_padded (width : ℕ) {n : ℕ} (hn : n < 2 ^ 63) : atoi (padded width n) = n := by
  rcases hs : padded width n with _ | ⟨c, s⟩
  · have h := unsigned_padded width n
    rw [hs] at h
    cases h
  · obtain ⟨d, hd⟩ : ∃ d, digit c = some d :=
      digit_of_mem_padded (hs ▸ List.mem_cons_self ..)
    -- a digit is no sign
    have hread : atoi (c :: s) = min (2 ^ 63 - 1) (((unsigned (c :: s)).getD 0 : ℕ) : ℤ) := by
      rw [atoi]
      · intro s hs
        obtain ⟨rfl, -⟩ := List.cons.inj hs
        cases hd
      · intro s hs
        obtain ⟨rfl, -⟩ := List.cons.inj hs
        cases hd
    rw [hread, ← hs, unsigned_padded, Option.getD_some]
    omega

/-- A number that is not negative has no sign. -/
theorem paddedInt_natCast (width n : ℕ) : paddedInt width n = padded width n := by
  rw [paddedInt, if_neg (by omega), Int.natAbs_natCast]

/-- Every byte of the text of a number is a digit or a sign. -/
theorem not_mem_paddedInt {width : ℕ} {n : ℤ} {c : UInt8} (hc : digit c = none) (hsign : c ≠ 45) :
    c ∉ paddedInt width n := by
  rw [paddedInt]
  split
  · rw [List.mem_cons, not_or]
    exact ⟨hsign, not_mem_padded hc⟩
  · exact not_mem_padded hc

/-- Different numbers have different texts, since they are read back. -/
theorem padded_injective (width : ℕ) : Function.Injective (padded width) := by
  intro m n h
  have hread := congrArg unsigned h
  rw [unsigned_padded, unsigned_padded] at hread
  exact Option.some.inj hread

/-- **Different numbers have different texts.** -/
theorem paddedInt_injective (width : ℕ) : Function.Injective (paddedInt width) := by
  have hsign : ∀ (s : List UInt8) (n : ℕ), 45 :: s ≠ padded width n := by
    intro s n h
    exact not_mem_padded rfl (h ▸ List.mem_cons_self ..)
  intro m n h
  rw [paddedInt, paddedInt] at h
  split at h <;> split at h
  · have habs := padded_injective _ (List.cons.inj h).2
    omega
  · exact absurd h (hsign _ _)
  · exact absurd h.symm (hsign _ _)
  · have habs := padded_injective _ h
    omega

end GoString
