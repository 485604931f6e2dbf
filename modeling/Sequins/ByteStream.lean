import Mathlib.Data.Nat.Digits.Lemmas

/-!
# Streams of bytes

What a reader sees of a file: bytes, and how they end. Reading so many bytes gives just these and
the rest (`Stream.read_append`), or else what the stream ends with (`Stream.read_of_lt`). Readers
made of such reads only go forward (`Stream.Forward`), which is why loops of them end. What a
reader of a whole text makes of a text that is cut short is put together from its parts
(`Breaks.bind`).

Numbers are written big-endian, in as few bytes as they need (`toBytes`) or in a fixed number of
them (`fixed`), and are read back from either (`ofBytes_toBytes`, `ofBytes_fixed`).
-/

namespace ByteStream

/-- A step whose first part went well is the rest of it. -/
theorem bind_of_ok {ε α β : Type} {x : Except ε α} {a : α} (h : x = .ok a) {f : α → Except ε β} :
    x >>= f = f a := by
  rw [h]
  rfl

/-- A step went well iff its first part did and the rest did. -/
theorem bind_eq_ok {ε α β : Type} {x : Except ε α} {f : α → Except ε β} {b : β} :
    x >>= f = .ok b ↔ ∃ a, x = .ok a ∧ f a = .ok b := by
  cases x <;> simp [bind, Except.bind]

/-- Naming the error in another way makes no success. -/
theorem ok_of_mapError {ε δ α : Type} {f : ε → δ} {x : Except ε α} {a : α}
    (h : x.mapError f = .ok a) : x = .ok a := by
  cases x with
  | error err => cases h
  | ok b =>
    obtain rfl := Except.ok.inj h
    rfl

/-- How a stream ends. -/
inductive Ending where
  /-- the end of the file -/
  | eof
  /-- an error of whoever delivers the bytes -/
  | failed
  deriving DecidableEq, Repr

/-- The bytes that are still to come. -/
structure Stream where
  /-- the bytes -/
  bytes : List UInt8
  /-- what comes after them -/
  ending : Ending
  deriving DecidableEq, Repr

namespace Stream

/-- Reads so many bytes, if there are so many. -/
def read (n : ℕ) (s : Stream) : Except Ending (List UInt8 × Stream) :=
  if n ≤ s.bytes.length then .ok (s.bytes.take n, ⟨s.bytes.drop n, s.ending⟩) else .error s.ending

/-- **What stands at the beginning is read, and the rest is left.** -/
theorem read_append (a b : List UInt8) (ending : Ending) :
    read a.length ⟨a ++ b, ending⟩ = .ok (a, ⟨b, ending⟩) := by
  simp [read]

/-- What was read stood at the beginning, and what was left is the rest. -/
theorem read_eq_ok_iff {n : ℕ} {s s' : Stream} {b : List UInt8} :
    s.read n = .ok (b, s') ↔ b.length = n ∧ s = ⟨b ++ s'.bytes, s'.ending⟩ := by
  constructor
  · intro h
    rw [read] at h
    split at h
    · obtain ⟨rfl, rfl⟩ := Prod.mk.inj (Except.ok.inj h)
      simp_all
    · cases h
  · rintro ⟨rfl, rfl⟩
    exact read_append b s'.bytes s'.ending

/-- **A stream that is too short** gives nothing but its ending. -/
theorem read_of_lt {n : ℕ} {s : Stream} (h : s.bytes.length < n) : s.read n = .error s.ending :=
  if_neg (by omega)

/-- A reader that only takes bytes away. -/
def Forward {ε α : Type} (f : Stream → Except ε (α × Stream)) : Prop :=
  ∀ ⦃s : Stream⦄ ⦃a : α⦄ ⦃s' : Stream⦄, f s = .ok (a, s') → s'.bytes.length ≤ s.bytes.length

end Stream

/-! ## Texts and their readers

A text that is made of pieces, and a reader made of readers for the pieces. If the text is cut
short, the reader of the piece with the cut fails, and its error may be the one that stands for the
end (`fin`). -/

section Texts

variable {ε α β : Type}

/-- The reader takes just this text off a stream. -/
def Reads (f : Stream → Except ε (α × Stream)) (text : List UInt8) (a : α) : Prop :=
  ∀ rest ending, f ⟨text ++ rest, ending⟩ = .ok (a, ⟨rest, ending⟩)

/-- A piece of a text, and the cuts of it that are taken for the end. -/
structure Piece where
  /-- the piece -/
  bytes : List UInt8
  /-- what is left of it may be taken for the end -/
  quiet : List UInt8 → Prop

/-- The text that pieces make up. -/
def textOf (xs : List Piece) : List UInt8 := xs.flatMap Piece.bytes

@[simp] theorem textOf_cons (x : Piece) (xs : List Piece) :
    textOf (x :: xs) = x.bytes ++ textOf xs := List.flatMap_cons

@[simp] theorem textOf_nil : textOf [] = [] := rfl

theorem textOf_append (xs ys : List Piece) : textOf (xs ++ ys) = textOf xs ++ textOf ys :=
  List.flatMap_append

/-- The cut falls into a piece that is taken for the end then. -/
def Quiet : List Piece → List UInt8 → Prop
  | [], _ => False
  | x :: xs, p => p.length < x.bytes.length ∧ x.quiet p ∨ ∃ p', p = x.bytes ++ p' ∧ Quiet xs p'

/-- The reader fails on every cut of the text, with `fin` on those that are quiet. -/
def Breaks (f : Stream → Except ε (α × Stream)) (fin : ε) (xs : List Piece) : Prop :=
  ∀ p, p <+: textOf xs → p ≠ textOf xs → ∃ err, f ⟨p, .eof⟩ = .error err ∧ (err = fin ↔ Quiet xs p)

/-- A cut in the first part is quiet or not by the first part alone. -/
theorem quiet_append_of_lt {xs ys : List Piece} {p : List UInt8}
    (h : p.length < (textOf xs).length) : Quiet (xs ++ ys) p ↔ Quiet xs p := by
  induction xs generalizing p with
  | nil => simp at h
  | cons x xs ih =>
    rw [textOf_cons, List.length_append] at h
    simp only [List.cons_append, Quiet]
    refine or_congr_right (exists_congr fun p' => and_congr_right ?_)
    rintro rfl
    exact ih (by rw [List.length_append] at h; omega)

theorem quiet_append (xs ys : List Piece) (p : List UInt8) :
    Quiet (xs ++ ys) (textOf xs ++ p) ↔ Quiet ys p := by
  induction xs with
  | nil => rfl
  | cons x xs ih =>
    simp only [List.cons_append, Quiet, textOf_cons, List.append_assoc, List.length_append]
    rw [← ih]
    constructor
    · rintro (⟨hlt, -⟩ | ⟨p', hp', hquiet⟩)
      · omega
      · rwa [List.append_cancel_left hp']
    · intro hquiet
      exact .inr ⟨_, rfl, hquiet⟩

section Bind

variable {f : Stream → Except ε (α × Stream)} {g : α × Stream → Except ε (β × Stream)} {a : α} {b : β}

/-- **One reader after another reads one text after another.** -/
theorem Reads.bind {v w : List UInt8} (hf : Reads f v a) (hg : Reads (fun s => g (a, s)) w b) :
    Reads (fun s => f s >>= g) (v ++ w) b := by
  intro rest ending
  have hfirst := hf (w ++ rest) ending
  rw [← List.append_assoc] at hfirst
  exact (bind_of_ok hfirst).trans (hg rest ending)

/-- **A cut of both texts is a cut of one of them.** -/
theorem Breaks.bind {fin : ε} {xs ys : List Piece} (hread : Reads f (textOf xs) a)
    (hf : Breaks f fin xs) (hg : Breaks (fun s => g (a, s)) fin ys) :
    Breaks (fun s => f s >>= g) fin (xs ++ ys) := by
  intro p hp hcut
  rw [textOf_append] at hp hcut
  by_cases hlt : p.length < (textOf xs).length
  · -- the cut is in the first text
    have hbegins : p <+: textOf xs :=
      List.prefix_of_prefix_length_le hp (List.prefix_append _ _) hlt.le
    obtain ⟨err, herr, hiff⟩ := hf p hbegins (by rintro rfl; omega)
    refine ⟨err, ?_, by rw [quiet_append_of_lt hlt, hiff]⟩
    simp only [herr]
    rfl
  · -- the first text is there, and the cut is in the second one
    obtain ⟨p, rfl⟩ : textOf xs <+: p :=
      List.prefix_of_prefix_length_le (List.prefix_append _ _) hp (by omega)
    obtain ⟨err, herr, hiff⟩ := hg p ((List.prefix_append_right_inj _).mp hp)
      (fun h => hcut (by rw [h]))
    exact ⟨err, (bind_of_ok (hread p .eof)).trans herr, by rw [quiet_append, hiff]⟩

end Bind

section Known

variable {γ : Type} {x : Except ε γ} {c : γ} {g : γ → Stream → Except ε (β × Stream)}

/-- A step that reads nothing. -/
theorem Reads.of_ok (hx : x = .ok c) {b : β} {w : List UInt8} (hg : Reads (g c) w b) :
    Reads (fun s => x >>= fun c => g c s) w b := by
  subst hx
  exact hg

/-- A cut of what comes after a step that reads nothing. -/
theorem Breaks.of_ok (hx : x = .ok c) {fin : ε} {ys : List Piece} (hg : Breaks (g c) fin ys) :
    Breaks (fun s => x >>= fun c => g c s) fin ys := by
  subst hx
  exact hg

end Known

/-- Naming the errors otherwise does not matter where there are none. -/
theorem Reads.mapError {f : Stream → Except ε (α × Stream)} {w : List UInt8} {a : α}
    (h : Reads f w a) {ε' : Type} (k : ε → ε') : Reads (fun s => (f s).mapError k) w a := by
  intro rest ending
  simp only [h rest ending]
  rfl

theorem Reads.map {f : Stream → Except ε (α × Stream)} {w : List UInt8} {a : α} (h : Reads f w a)
    (k : α → β) : Reads (fun s => f s >>= fun r => Pure.pure (k r.1, r.2)) w (k a) := by
  intro rest ending
  exact bind_of_ok (h rest ending)

theorem Reads.pure (a : α) : Reads (fun s => (Pure.pure (a, s) : Except ε (α × Stream))) [] a :=
  fun _ _ => rfl

theorem Breaks.pure (a : α) (fin : ε) :
    Breaks (fun s => (Pure.pure (a, s) : Except ε (α × Stream))) fin [] := by
  intro p hp hcut
  exact absurd (List.prefix_nil.mp hp) hcut

end Texts

/-! ## Numbers

Lengths are written in 256s, the highest byte first: `fixed` with a number of bytes that is
agreed on, `toBytes` with as few as possible. Both are Mathlib's digits, in reverse. -/

/-- The number that bytes stand for, the first one being the highest. -/
def ofBytes (b : List UInt8) : ℕ := b.foldl (fun n c => n * 256 + c.toNat) 0

/-- The bytes of a number, as few as it needs. -/
def toBytes (n : ℕ) : List UInt8 := (Nat.digits 256 n).reverse.map Nat.toUInt8

/-- The bytes of a number, so many. -/
def fixed (width n : ℕ) : List UInt8 :=
  List.replicate (width - (toBytes n).length) 0 ++ toBytes n

/-- In Mathlib's digits the lowest comes first. -/
theorem ofBytes_map_reverse (digits : List ℕ) (h : ∀ d ∈ digits, d < 256) :
    ofBytes (digits.reverse.map Nat.toUInt8) = Nat.ofDigits 256 digits := by
  induction digits with
  | nil => rfl
  | cons d digits ih =>
    obtain ⟨hd, hdigits⟩ := List.forall_mem_cons.mp h
    have hbyte : d.toUInt8.toNat = d := Nat.mod_eq_of_lt hd
    rw [List.reverse_cons, List.map_append, ofBytes, List.foldl_append, ← ofBytes, ih hdigits,
      List.map_singleton, List.foldl_cons, List.foldl_nil, hbyte, Nat.ofDigits_cons]
    ring

/-- **Numbers are read back.** -/
theorem ofBytes_toBytes (n : ℕ) : ofBytes (toBytes n) = n := by
  rw [toBytes, ofBytes_map_reverse _ fun d hd => Nat.digits_lt_base (by decide) hd,
    Nat.ofDigits_digits]

/-- The bytes of a number that fits into `width` bytes are no more than that. -/
theorem length_toBytes_le {n width : ℕ} (h : n < 256 ^ width) : (toBytes n).length ≤ width := by
  rw [toBytes, List.length_map, List.length_reverse]
  exact (Nat.digits_length_le_iff (by decide) n).mpr h

theorem toBytes_ne_nil {n : ℕ} (h : n ≠ 0) : toBytes n ≠ [] := by
  intro hnil
  have hread := ofBytes_toBytes n
  rw [hnil] at hread
  exact h hread.symm

theorem length_fixed {n width : ℕ} (h : n < 256 ^ width) : (fixed width n).length = width := by
  have hle := length_toBytes_le h
  rw [fixed, List.length_append, List.length_replicate]
  omega

/-- Zeros in front do not change the number. -/
theorem ofBytes_fixed (width n : ℕ) : ofBytes (fixed width n) = n := by
  have hzeros : ∀ k, (List.replicate k (0 : UInt8)).foldl (fun n c => n * 256 + c.toNat) 0 = 0 := by
    intro k
    induction k with
    | zero => rfl
    | succ k ih => simpa [List.replicate_succ] using ih
  rw [fixed, ofBytes, List.foldl_append, hzeros, ← ofBytes, ofBytes_toBytes]

/-- Bytes of one length are told apart by the number they stand for. -/
theorem ofBytes_inj {a b : List UInt8} (hlength : a.length = b.length) (h : ofBytes a = ofBytes b) :
    a = b := by
  induction a using List.reverseRecOn generalizing b with
  | nil => exact (List.eq_nil_of_length_eq_zero hlength.symm).symm
  | append_singleton a c ih =>
    obtain rfl | ⟨b, d, rfl⟩ := List.eq_nil_or_concat' b
    · simp at hlength
    simp only [ofBytes, List.foldl_append, List.foldl_cons, List.foldl_nil] at h
    rw [← ofBytes, ← ofBytes] at h
    have hc := c.toNat_lt
    have hd := d.toNat_lt
    rw [ih (by simpa using hlength) (by omega), UInt8.toNat_inj.mp (by omega : c.toNat = d.toNat)]

theorem ofBytes_lt (b : List UInt8) : ofBytes b < 256 ^ b.length := by
  induction b using List.reverseRecOn with
  | nil => decide
  | append_singleton b c ih =>
    rw [ofBytes, List.foldl_append, ← ofBytes, List.foldl_cons, List.foldl_nil, List.length_append,
      List.length_singleton, pow_succ]
    have hc := c.toNat_lt
    omega

theorem fixed_ofBytes (b : List UInt8) : fixed b.length (ofBytes b) = b :=
  ofBytes_inj (length_fixed (ofBytes_lt b)) (ofBytes_fixed _ _)

end ByteStream
