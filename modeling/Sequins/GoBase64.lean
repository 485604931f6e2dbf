import Mathlib.Data.Nat.Notation

/-!
# Bytes in JSON

How `encoding/json` writes a `[]byte` and reads it back: a nil slice is `null`, and any other one is
a string in the standard encoding of `encoding/base64`, three bytes in four digits, with `=` for
the digits that are missing at the end. `unmarshal_marshal`: both directions fit, and an empty slice
is still not nil.
-/

namespace GoBase64

/-- A digit: `A` to `Z`, `a` to `z`, `0` to `9`, `+` and `/`. -/
def digit (n : ℕ) : UInt8 :=
  if n < 26 then .ofNat (n + 65)
  else if n < 52 then .ofNat (n + 71)
  else if n < 62 then .ofNat (n - 4)
  else if n = 62 then 43
  else 47

/-- The value of a digit. -/
def value (c : UInt8) : Option ℕ :=
  if 65 ≤ c ∧ c ≤ 90 then some (c.toNat - 65)
  else if 97 ≤ c ∧ c ≤ 122 then some (c.toNat - 71)
  else if 48 ≤ c ∧ c ≤ 57 then some (c.toNat + 4)
  else if c = 43 then some 62
  else if c = 47 then some 63
  else none

/-- `EncodeToString` -/
def encode : List UInt8 → List UInt8
  | [] => []
  | [a] => [digit (a.toNat / 4), digit (a.toNat % 4 * 16), 61, 61]
  | [a, b] =>
    [digit (a.toNat / 4), digit (a.toNat % 4 * 16 + b.toNat / 16), digit (b.toNat % 16 * 4), 61]
  | a :: b :: c :: rest =>
    digit (a.toNat / 4) :: digit (a.toNat % 4 * 16 + b.toNat / 16) ::
      digit (b.toNat % 16 * 4 + c.toNat / 64) :: digit (c.toNat % 64) :: encode rest

/-- The three bytes of four digits. -/
def first (v₀ v₁ : ℕ) : UInt8 := .ofNat (v₀ * 4 + v₁ / 16)

@[inherit_doc first]
def second (v₁ v₂ : ℕ) : UInt8 := .ofNat (v₁ % 16 * 16 + v₂ / 4)

@[inherit_doc first]
def third (v₂ v₃ : ℕ) : UInt8 := .ofNat (v₂ % 4 * 64 + v₃)

/-- Four digits at a time, of which the last ones may be missing at the end. -/
def decodeQuanta : List UInt8 → Option (List UInt8)
  | [] => some []
  | c₀ :: c₁ :: c₂ :: c₃ :: rest => do
    let v₀ ← value c₀
    let v₁ ← value c₁
    if c₂ = 61 ∧ c₃ = 61 ∧ rest = [] then
      return [first v₀ v₁]
    let v₂ ← value c₂
    if c₃ = 61 ∧ rest = [] then
      return [first v₀ v₁, second v₁ v₂]
    let v₃ ← value c₃
    return first v₀ v₁ :: second v₁ v₂ :: third v₂ v₃ :: (← decodeQuanta rest)
  | _ => none

/-- `DecodeString`, which skips line breaks. -/
def decode (s : List UInt8) : Option (List UInt8) :=
  decodeQuanta (s.filter fun c => c ≠ 13 ∧ c ≠ 10)

/-- **Each digit has its value.** -/
theorem value_digit {n : ℕ} (h : n < 64) : value (digit n) = some n := by
  have hall : ∀ n : Fin 64, value (digit n) = some n.val := by decide
  exact hall ⟨n, h⟩

/-- No digit stands for something else. -/
theorem digit_ne (n : ℕ) : digit n ≠ 61 ∧ digit n ≠ 13 ∧ digit n ≠ 10 := by
  rcases Nat.lt_or_ge n 64 with h | h
  · have hall : ∀ n : Fin 64, digit n ≠ 61 ∧ digit n ≠ 13 ∧ digit n ≠ 10 := by decide
    exact hall ⟨n, h⟩
  · have hlast : digit n = 47 := by
      rw [digit, if_neg (by omega), if_neg (by omega), if_neg (by omega), if_neg (by omega)]
    rw [hlast]
    decide

/-- There are no line breaks to skip. -/
theorem filter_encode (bs : List UInt8) :
    (encode bs).filter (fun c => c ≠ 13 ∧ c ≠ 10) = encode bs := by
  fun_induction encode bs with
  | case1 => rfl
  | case2 a => simp [digit_ne]
  | case3 a b => simp [digit_ne]
  | case4 a b c rest ih => simpa [digit_ne] using ih

theorem ofNat_eq {n : ℕ} {a : UInt8} (h : n = a.toNat) : UInt8.ofNat n = a := by
  rw [h, UInt8.ofNat_toNat]

/-- The three bytes are put together again, whatever the neighbours have in their halves. -/
theorem first_eq (a : UInt8) {y : ℕ} (hy : y < 16) :
    first (a.toNat / 4) (a.toNat % 4 * 16 + y) = a :=
  ofNat_eq (by omega)

theorem second_eq (b : UInt8) (x : ℕ) {z : ℕ} (hz : z < 4) :
    second (x * 16 + b.toNat / 16) (b.toNat % 16 * 4 + z) = b := by
  have hb := b.toNat_lt
  exact ofNat_eq (by omega)

theorem third_eq (c : UInt8) (y : ℕ) : third (y * 4 + c.toNat / 64) (c.toNat % 64) = c := by
  have hc := c.toNat_lt
  exact ofNat_eq (by omega)

/-- Three bytes at a time, and one or two at the end. -/
theorem decodeQuanta_encode (bs : List UInt8) : decodeQuanta (encode bs) = some bs := by
  fun_induction encode bs with
  | case1 => rfl
  | case2 a =>
    have ha := a.toNat_lt
    have hv₀ := value_digit (n := a.toNat / 4) (by omega)
    have hv₁ := value_digit (n := a.toNat % 4 * 16) (by omega)
    have hfirst := first_eq a (y := 0) (by omega)
    rw [Nat.add_zero] at hfirst
    simp [decodeQuanta, hv₀, hv₁, hfirst]
  | case3 a b =>
    have ha := a.toNat_lt
    have hb := b.toNat_lt
    have hv₀ := value_digit (n := a.toNat / 4) (by omega)
    have hv₁ := value_digit (n := a.toNat % 4 * 16 + b.toNat / 16) (by omega)
    have hv₂ := value_digit (n := b.toNat % 16 * 4) (by omega)
    have hfirst := first_eq a (y := b.toNat / 16) (by omega)
    have hsecond := second_eq b (a.toNat % 4) (z := 0) (by omega)
    rw [Nat.add_zero] at hsecond
    simp [decodeQuanta, hv₀, hv₁, hv₂, hfirst, hsecond, digit_ne]
  | case4 a b c rest ih =>
    have ha := a.toNat_lt
    have hb := b.toNat_lt
    have hc := c.toNat_lt
    have hv₀ := value_digit (n := a.toNat / 4) (by omega)
    have hv₁ := value_digit (n := a.toNat % 4 * 16 + b.toNat / 16) (by omega)
    have hv₂ := value_digit (n := b.toNat % 16 * 4 + c.toNat / 64) (by omega)
    have hv₃ := value_digit (n := c.toNat % 64) (by omega)
    have hfirst := first_eq a (y := b.toNat / 16) (by omega)
    have hsecond := second_eq b (a.toNat % 4) (z := c.toNat / 64) (by omega)
    simp [decodeQuanta, hv₀, hv₁, hv₂, hv₃, hfirst, hsecond, third_eq, digit_ne, ih]

/-- **What is encoded is decoded again.** -/
theorem decode_encode (bs : List UInt8) : decode (encode bs) = some bs := by
  rw [decode, filter_encode, decodeQuanta_encode]

/-! ## JSON -/

/-- The JSON of a slice of bytes. -/
inductive Value where
  | null
  | string (s : List UInt8)
  deriving DecidableEq, Repr

/-- `json.Marshal`, of a slice that may be nil. -/
def marshal : Option (List UInt8) → Value
  | none => .null
  | some bs => .string (encode bs)

/-- `json.Unmarshal`, to a slice; a string may not be base64. -/
def unmarshal : Value → Option (Option (List UInt8))
  | .null => some none
  | .string s => (decode s).map some

/-- **A slice is read back, nil or not.** -/
@[simp] theorem unmarshal_marshal (bs : Option (List UInt8)) :
    unmarshal (marshal bs) = some bs := by
  cases bs with
  | none => rfl
  | some bs => rw [marshal, unmarshal, decode_encode, Option.map_some]

-- an empty slice is not nil, and `Mano` is `TWFubw==`
example : marshal (some []) = .string [] := rfl
example : marshal (some [77, 97, 110, 111]) = .string [84, 87, 70, 117, 98, 119, 61, 61] := rfl

end GoBase64
