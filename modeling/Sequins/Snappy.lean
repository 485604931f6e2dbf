import Mathlib.Data.List.GetD
import Sequins.ByteStream
import Sequins.HashCode

/-!
# Snappy

The vendored decoder of snappy, `decode.go` and the portable `decode_other.go`. A block is the
length of what it stands for, as a varint, and then elements: literals, which stand for the bytes
that follow, and copies, which stand for bytes that the block has produced before. A copy may reach
into what it produces itself, and then repeats it: the loop of `decode` copies one byte after the
other, and what comes out is periodic (`forwardCopy_eq`).

`decode_eq_ok_iff` says which blocks are accepted, and what they stand for, without the decoder.
-/

namespace Sequins.Snappy

open ByteStream

/-- The errors of `Decode` where `int` has 64 bits. -/
inductive DecodeError where
  /-- `ErrCorrupt` -/
  | corrupt
  /-- `errUnsupportedLiteralLength` -/
  | unsupportedLiteralLength
  deriving DecidableEq, Repr

/-! ## The decoder -/

/-- `binary.Uvarint`, behind `i` bytes that make `x`; `none` if there is no number, or if it does
not fit into 64 bits. -/
def uvarint (x i : ℕ) : Bytes → Option (ℕ × Bytes)
  | [] => none
  | b :: buf =>
    if b.toNat < 0x80 then
      if 9 < i ∨ i = 9 ∧ 1 < b.toNat then none else some (x + b.toNat * 128 ^ i, buf)
    else
      uvarint (x + b.toNat % 128 * 128 ^ i) (i + 1) buf

/-- `decodedLen`, with what follows the header. -/
def decodedLen (src : Bytes) : Except DecodeError (ℕ × Bytes) :=
  match uvarint 0 0 src with
  | none => .error .corrupt
  | some (v, rest) => if 0xffffffff < v then .error .corrupt else .ok (v, rest)

/-- A number of `k` bytes, the lowest first. -/
def takeLittle (k : ℕ) (src : Bytes) : Option (ℕ × Bytes) :=
  if src.length < k then none else some (ofBytes (src.take k).reverse, src.drop k)

/-- The loop that copies an earlier part of `dst` behind its end. -/
def forwardCopy (offset : ℕ) : ℕ → Bytes → Bytes
  | 0, dst => dst
  | n + 1, dst => forwardCopy offset n (dst ++ [dst.getD (dst.length - offset) 0])

/-- A literal, with its checks. -/
def literal (dLen : ℕ) (dst : Bytes) (length : ℤ) (src : Bytes) :
    Except DecodeError (Bytes × Bytes) :=
  if length ≤ 0 then
    .error .unsupportedLiteralLength
  else if (dLen : ℤ) - dst.length < length ∨ (src.length : ℤ) < length then
    .error .corrupt
  else
    .ok (dst ++ src.take length.toNat, src.drop length.toNat)

/-- A copy, with its checks. -/
def copy (dLen : ℕ) (dst : Bytes) (offset length : ℕ) (src : Bytes) :
    Except DecodeError (Bytes × Bytes) :=
  if offset ≤ 0 ∨ dst.length < offset ∨ (dLen : ℤ) - dst.length < length then
    .error .corrupt
  else
    .ok (forwardCopy offset length dst, src)

/-- One turn of the loop of `decode`: the element whose first byte is `tag` goes from `src` to
`dst`, which has room for `dLen` bytes. -/
def decodeElement (dLen : ℕ) (dst : Bytes) (tag : UInt8) (src : Bytes) :
    Except DecodeError (Bytes × Bytes) :=
  match tag.toNat % 4 with
  | 0 =>
    -- lengths from 60 on stand for one to four bytes with the length
    match takeLittle (tag.toNat / 4 - 59) src with
    | none => .error .corrupt
    | some (x, src) =>
      literal dLen dst ((if tag.toNat / 4 < 60 then tag.toNat / 4 else x : ℕ) + 1) src
  | 1 =>
    match takeLittle 1 src with
    | none => .error .corrupt
    | some (x, src) => copy dLen dst (tag.toNat / 32 * 256 + x) (4 + tag.toNat / 4 % 8) src
  | 2 =>
    match takeLittle 2 src with
    | none => .error .corrupt
    | some (x, src) => copy dLen dst x (1 + tag.toNat / 4) src
  | _ =>
    match takeLittle 4 src with
    | none => .error .corrupt
    | some (x, src) => copy dLen dst x (1 + tag.toNat / 4) src

/-! ## Numbers -/

/-- The bytes of a number, the lowest first. -/
def little (k n : ℕ) : Bytes := (fixed k n).reverse

theorem length_little {k n : ℕ} (h : n < 256 ^ k) : (little k n).length = k := by
  rw [little, List.length_reverse, length_fixed h]

/-- A number is read if its bytes stand there. -/
theorem takeLittle_eq_some_iff {k n : ℕ} {src rest : Bytes} :
    takeLittle k src = some (n, rest) ↔ n < 256 ^ k ∧ src = little k n ++ rest := by
  constructor
  · intro h
    rw [takeLittle] at h
    split_ifs at h with hlength
    obtain ⟨rfl, rfl⟩ := Prod.mk.inj (Option.some.inj h)
    have htake : (src.take k).reverse.length = k := by simp; omega
    have hlt := ofBytes_lt (src.take k).reverse
    have hfixed := fixed_ofBytes (src.take k).reverse
    rw [htake] at hlt hfixed
    exact ⟨hlt, by rw [little, hfixed, List.reverse_reverse, List.take_append_drop]⟩
  · rintro ⟨hn, rfl⟩
    have hlength := length_little hn
    rw [takeLittle, if_neg (by simp; omega), List.take_left' hlength, List.drop_left' hlength,
      little, List.reverse_reverse, ofBytes_fixed]

/-- A literal is accepted if its bytes are there, and there is room for them. -/
theorem literal_eq_ok_iff {dLen : ℕ} {dst dst' src src' : Bytes} {length : ℕ} :
    literal dLen dst (length + 1) src = .ok (dst', src') ↔
      ∃ b : Bytes, b.length = length + 1 ∧ src = b ++ src' ∧ dst' = dst ++ b ∧
        dst'.length ≤ dLen := by
  rw [literal, if_neg (by omega)]
  constructor
  · intro h
    split_ifs at h with hroom
    obtain ⟨rfl, rfl⟩ := Prod.mk.inj (Except.ok.inj h)
    refine ⟨src.take (length + 1), ?_, (List.take_append_drop ..).symm, rfl, ?_⟩
    all_goals
      simp
      omega
  · rintro ⟨b, hb, rfl, rfl, hlength⟩
    rw [if_neg (by simp at hlength ⊢; omega)]
    have htoNat : ((length : ℤ) + 1).toNat = b.length := by omega
    rw [htoNat, List.take_left, List.drop_left]

/-- A copy is accepted if it goes back to what is there, and there is room for it. -/
theorem copy_eq_ok_iff {dLen : ℕ} {dst dst' src src' : Bytes} {offset length : ℕ} :
    copy dLen dst offset length src = .ok (dst', src') ↔
      (1 ≤ offset ∧ offset ≤ dst.length) ∧ dst.length + length ≤ dLen ∧
        dst' = forwardCopy offset length dst ∧ src' = src := by
  rw [copy]
  constructor
  · intro h
    split_ifs at h with hcheck
    obtain ⟨rfl, rfl⟩ := Prod.mk.inj (Except.ok.inj h)
    exact ⟨by omega, by omega, rfl, rfl⟩
  · rintro ⟨hoffset, hlength, rfl, rfl⟩
    rw [if_neg (by omega)]

/-- An element takes bytes away, or none. -/
theorem decodeElement_length_le {dLen : ℕ} {dst dst' src src' : Bytes} {tag : UInt8}
    (h : decodeElement dLen dst tag src = .ok (dst', src')) : src'.length ≤ src.length := by
  rw [decodeElement] at h
  split at h
  all_goals
    split at h
    · cases h
    · rename_i htake
      obtain ⟨-, rfl⟩ := takeLittle_eq_some_iff.mp htake
      first
      | obtain ⟨b, -, rfl, -⟩ := literal_eq_ok_iff.mp h
        simp
        omega
      | obtain ⟨-, -, -, rfl⟩ := copy_eq_ok_iff.mp h
        simp

/-- The loop of `decode`. -/
def decodeLoop (dLen : ℕ) (dst : Bytes) : Bytes → Except DecodeError Bytes
  | [] => if dst.length ≠ dLen then .error .corrupt else .ok dst
  | tag :: src =>
    match _h : decodeElement dLen dst tag src with
    | .error err => .error err
    | .ok (dst, src) => decodeLoop dLen dst src
termination_by src => src.length
decreasing_by
  have hle := decodeElement_length_le _h
  simp only [List.length_cons]
  omega

/-- `Decode`. -/
def decode (src : Bytes) : Except DecodeError Bytes := do
  let (dLen, src) ← decodedLen src
  decodeLoop dLen [] src

/-! ## Elements

What the elements of a block stand for, given what came before them. The constructors are the
ways to store an element, so a copy that could be stored in another way is another element. -/

/-- An element, as it is stored. -/
inductive Element where
  /-- `tagLiteral`: bytes, behind their length in `k` bytes; if there is none, the tag has it -/
  | literal (k : ℕ) (b : Bytes)
  /-- `tagCopy1` -/
  | copy1 (offset length : ℕ)
  /-- `tagCopy2` -/
  | copy2 (offset length : ℕ)
  /-- `tagCopy4` -/
  | copy4 (offset length : ℕ)
  deriving DecidableEq, Repr

/-- The bytes that repeat the last `offset` ones. -/
def repeated (offset length : ℕ) (dst : Bytes) : Bytes :=
  (List.range length).map fun i => dst.getD (dst.length - offset + i % offset) 0

namespace Element

/-- The tag. -/
def tag : Element → ℕ
  | .literal 0 b => 4 * (b.length - 1)
  | .literal (k + 1) _ => 4 * (60 + k)
  | .copy1 offset length => 1 + 4 * (length - 4) + 32 * (offset / 256)
  | .copy2 _ length => 2 + 4 * (length - 1)
  | .copy4 _ length => 3 + 4 * (length - 1)

/-- What follows the tag. -/
def operand : Element → Bytes
  | .literal 0 b => b
  | .literal (k + 1) b => little (k + 1) (b.length - 1) ++ b
  | .copy1 offset _ => little 1 (offset % 256)
  | .copy2 offset _ => little 2 offset
  | .copy4 offset _ => little 4 offset

/-- An element in a block. -/
def bytes (e : Element) : Bytes := e.tag.toUInt8 :: e.operand

/-- What there is room for. -/
def Valid : Element → Prop
  | .literal k b => 1 ≤ b.length ∧ k ≤ 4 ∧ b.length ≤ if k = 0 then 60 else 256 ^ k
  | .copy1 offset length => offset < 2 ^ 11 ∧ 4 ≤ length ∧ length ≤ 11
  | .copy2 offset length => offset < 2 ^ 16 ∧ 1 ≤ length ∧ length ≤ 64
  | .copy4 offset length => offset < 2 ^ 32 ∧ 1 ≤ length ∧ length ≤ 64

instance : DecidablePred Valid
  | .literal .. => inferInstanceAs (Decidable (_ ∧ _))
  | .copy1 .. => inferInstanceAs (Decidable (_ ∧ _))
  | .copy2 .. => inferInstanceAs (Decidable (_ ∧ _))
  | .copy4 .. => inferInstanceAs (Decidable (_ ∧ _))

/-- What an element stands for behind the bytes there are; a copy has to find its bytes there. -/
def extend (e : Element) (dst : Bytes) : Option Bytes :=
  match e with
  | .literal _ b => some (dst ++ b)
  | .copy1 offset length | .copy2 offset length | .copy4 offset length =>
    if 1 ≤ offset ∧ offset ≤ dst.length then some (dst ++ repeated offset length dst) else none

end Element

/-- What elements stand for. -/
def expand (dst : Bytes) (es : List Element) : Option Bytes :=
  es.foldlM (fun dst e => e.extend dst) dst

example : expand [] [.literal 0 [97, 98], .copy1 2 5] = some [97, 98, 97, 98, 97, 98, 97] := by
  decide

/-- **Copying forwards repeats.** -/
theorem forwardCopy_eq {offset : ℕ} (length : ℕ) {dst : Bytes}
    (h : 1 ≤ offset ∧ offset ≤ dst.length) :
    forwardCopy offset length dst = dst ++ repeated offset length dst := by
  induction length generalizing dst with
  | zero => simp [forwardCopy, repeated]
  | succ n ih =>
    rw [forwardCopy, ih (by simp; omega), List.append_assoc]
    congr 1
    rw [repeated, repeated, List.range_succ_eq_map, List.map_cons, List.map_map,
      List.singleton_append, Nat.zero_mod, Nat.add_zero]
    congr 1
    refine List.map_congr_left fun i _ => ?_
    have hlt := Nat.mod_lt i h.1
    rw [Function.comp_apply, ← Nat.mod_add_mod i offset 1, List.length_append,
      List.length_singleton]
    by_cases hnext : i % offset + 1 < offset
    · rw [Nat.mod_eq_of_lt hnext, List.getD_append _ _ _ _ (by omega)]
      congr 1
      omega
    · -- the byte that was copied first is next
      have hlast : i % offset + 1 = offset := by omega
      rw [hlast, Nat.mod_self, Nat.add_zero, List.getD_append_right _ _ _ _ (by omega),
        show dst.length + 1 - offset + i % offset - dst.length = 0 by omega]
      rfl

theorem length_forwardCopy (offset length : ℕ) (dst : Bytes) :
    (forwardCopy offset length dst).length = dst.length + length := by
  induction length generalizing dst with
  | zero => rfl
  | succ n ih =>
    rw [forwardCopy, ih, List.length_append, List.length_singleton]
    omega

namespace Element

theorem toNat_tag {e : Element} (h : e.Valid) : e.tag.toUInt8.toNat = e.tag := by
  refine Nat.mod_eq_of_lt ?_
  cases e with
  | literal k b =>
    obtain ⟨hpos, hk, hlength⟩ := h
    cases k with
    | zero =>
      rw [if_pos rfl] at hlength
      simp only [tag]
      omega
    | succ k =>
      simp only [tag]
      omega
  | copy1 offset length =>
    obtain ⟨hoffset, hmin, hmax⟩ := h
    simp only [tag]
    omega
  | copy2 offset length =>
    obtain ⟨-, hmin, hmax⟩ := h
    simp only [tag]
    omega
  | copy4 offset length =>
    obtain ⟨-, hmin, hmax⟩ := h
    simp only [tag]
    omega

theorem length_le_of_extend {e : Element} {dst dst' : Bytes} (h : e.extend dst = some dst') :
    dst.length ≤ dst'.length := by
  cases e with
  | literal k b =>
    obtain rfl := Option.some.inj h
    simp
  | _ =>
    rw [extend] at h
    split_ifs at h
    obtain rfl := Option.some.inj h
    simp

end Element

theorem length_le_of_expand {es : List Element} {dst dst' : Bytes} (h : expand dst es = some dst') :
    dst.length ≤ dst'.length := by
  induction es generalizing dst with
  | nil =>
    obtain rfl : dst = dst' := Option.some.inj h
    exact le_rfl
  | cons e es ih =>
    obtain ⟨mid, hmid, hrest⟩ := Option.bind_eq_some_iff.mp h
    exact (Element.length_le_of_extend hmid).trans (ih hrest)

/-! ## What is accepted

The loop ends with an element at a time, so it accepts runs of elements whose result has the
length that was announced. By induction on the length of what is left. -/

/-- A copy as the decoder makes it. -/
theorem copy_eq_ok_iff_repeated {dLen : ℕ} {dst dst' src src' : Bytes} {offset length : ℕ} :
    copy dLen dst offset length src = .ok (dst', src') ↔
      (if 1 ≤ offset ∧ offset ≤ dst.length then some (dst ++ repeated offset length dst)
        else none) = some dst' ∧ dst'.length ≤ dLen ∧ src' = src := by
  rw [copy_eq_ok_iff]
  constructor
  · rintro ⟨hoffset, hlength, rfl, rfl⟩
    rw [if_pos hoffset, length_forwardCopy, forwardCopy_eq length hoffset]
    exact ⟨rfl, hlength, rfl⟩
  · rintro ⟨hmeaning, hlength, rfl⟩
    split_ifs at hmeaning with hoffset
    obtain rfl := Option.some.inj hmeaning
    rw [← forwardCopy_eq length hoffset, length_forwardCopy] at hlength
    exact ⟨hoffset, hlength, (forwardCopy_eq length hoffset).symm, rfl⟩

theorem tag_eq {e : Element} (h : e.Valid) {tag : UInt8} (htag : tag.toNat = e.tag) :
    tag = e.tag.toUInt8 :=
  UInt8.toNat_inj.mp (htag.trans (Element.toNat_tag h).symm)

/-- What a turn reads is an element. -/
theorem element_of_decodeElement {dLen : ℕ} {dst dst' src src' : Bytes} {tag : UInt8}
    (h : decodeElement dLen dst tag src = .ok (dst', src')) :
    ∃ e : Element, e.Valid ∧ tag :: src = e.bytes ++ src' ∧ e.extend dst = some dst' ∧
      dst'.length ≤ dLen := by
  have hlt := tag.toNat_lt
  rw [decodeElement] at h
  split at h
  all_goals
    rename_i hmod
    split at h
    · cases h
    rename_i x rest htake
    obtain ⟨hx, rfl⟩ := takeLittle_eq_some_iff.mp htake
  · obtain ⟨b, hb, rfl, rfl, hlength⟩ := literal_eq_ok_iff.mp h
    obtain ⟨k, hk⟩ : ∃ k, tag.toNat / 4 - 59 = k := ⟨_, rfl⟩
    rw [hk] at hx ⊢
    cases k with
    | zero =>
      rw [if_pos (by omega)] at hb
      have hvalid : (Element.literal 0 b).Valid := ⟨by omega, by omega, by rw [if_pos rfl]; omega⟩
      have htag : tag.toNat = (Element.literal 0 b).tag := by simp only [Element.tag]; omega
      have hnone : little 0 x = [] := List.eq_nil_of_length_eq_zero (length_little hx)
      exact ⟨.literal 0 b, hvalid, by rw [tag_eq hvalid htag, hnone]; rfl, rfl, hlength⟩
    | succ k =>
      rw [if_neg (by omega)] at hb
      have hvalid : (Element.literal (k + 1) b).Valid :=
        ⟨by omega, by omega, by rw [if_neg (by omega)]; omega⟩
      have htag : tag.toNat = (Element.literal (k + 1) b).tag := by simp only [Element.tag]; omega
      obtain rfl : b.length - 1 = x := by omega
      refine ⟨.literal (k + 1) b, hvalid, ?_, rfl, hlength⟩
      rw [tag_eq hvalid htag, Element.bytes, Element.operand, List.cons_append, List.append_assoc]
  · obtain ⟨hextend, hlength, rfl⟩ := copy_eq_ok_iff_repeated.mp h
    have hvalid : (Element.copy1 (tag.toNat / 32 * 256 + x) (4 + tag.toNat / 4 % 8)).Valid :=
      ⟨by omega, by omega, by omega⟩
    have htag : tag.toNat =
        (Element.copy1 (tag.toNat / 32 * 256 + x) (4 + tag.toNat / 4 % 8)).tag := by
      simp only [Element.tag]
      omega
    have hbyte : (tag.toNat / 32 * 256 + x) % 256 = x := by omega
    refine ⟨_, hvalid, ?_, hextend, hlength⟩
    rw [Element.bytes, ← tag_eq hvalid htag, Element.operand, hbyte, List.cons_append]
  · obtain ⟨hextend, hlength, rfl⟩ := copy_eq_ok_iff_repeated.mp h
    have hvalid : (Element.copy2 x (1 + tag.toNat / 4)).Valid := ⟨by omega, by omega, by omega⟩
    have htag : tag.toNat = (Element.copy2 x (1 + tag.toNat / 4)).tag := by
      simp only [Element.tag]
      omega
    refine ⟨_, hvalid, ?_, hextend, hlength⟩
    rw [Element.bytes, ← tag_eq hvalid htag, Element.operand, List.cons_append]
  · obtain ⟨hextend, hlength, rfl⟩ := copy_eq_ok_iff_repeated.mp h
    have hmod : tag.toNat % 4 = 3 := by grind
    have hvalid : (Element.copy4 x (1 + tag.toNat / 4)).Valid := ⟨by omega, by omega, by omega⟩
    have htag : tag.toNat = (Element.copy4 x (1 + tag.toNat / 4)).tag := by
      simp only [Element.tag]
      omega
    refine ⟨_, hvalid, ?_, hextend, hlength⟩
    rw [Element.bytes, ← tag_eq hvalid htag, Element.operand, List.cons_append]

/-- Every element that fits is read. -/
theorem decodeElement_of_element {dLen : ℕ} {dst dst' : Bytes} {e : Element} (hvalid : e.Valid)
    (hextend : e.extend dst = some dst') (hlength : dst'.length ≤ dLen) (src : Bytes) :
    decodeElement dLen dst e.tag.toUInt8 (e.operand ++ src) = .ok (dst', src) := by
  have htag := Element.toNat_tag hvalid
  have htake : ∀ {k n : ℕ} {rest : Bytes}, n < 256 ^ k →
      takeLittle k (little k n ++ rest) = some (n, rest) := fun hn =>
    takeLittle_eq_some_iff.mpr ⟨hn, rfl⟩
  rw [decodeElement, htag]
  cases e with
  | literal k b =>
    obtain ⟨hpos, hk, hmax⟩ := hvalid
    obtain ⟨n, hn⟩ : ∃ n, b.length = n + 1 := ⟨b.length - 1, by omega⟩
    have hliteral : literal dLen dst (n + 1) (b ++ src) = .ok (dst', src) :=
      literal_eq_ok_iff.mpr ⟨b, hn, rfl, (Option.some.inj hextend).symm, hlength⟩
    cases k with
    | zero =>
      rw [if_pos rfl] at hmax
      have hmod : (Element.literal 0 b).tag % 4 = 0 := by simp only [Element.tag]; omega
      have hx : (Element.literal 0 b).tag / 4 = n := by simp only [Element.tag]; omega
      have hnone : takeLittle (n - 59) (b ++ src) = some (0, b ++ src) := by
        rw [show n - 59 = 0 by omega]
        exact takeLittle_eq_some_iff.mpr ⟨by omega, rfl⟩
      simp only [hmod, hx, Element.operand, hnone, if_pos (show n < 60 by omega)]
      exact hliteral
    | succ k =>
      rw [if_neg (by omega)] at hmax
      have hmod : (Element.literal (k + 1) b).tag % 4 = 0 := by simp only [Element.tag]; omega
      have hx : (Element.literal (k + 1) b).tag / 4 = 60 + k := by simp only [Element.tag]; omega
      have hk' : 60 + k - 59 = k + 1 := by omega
      simp only [hmod, hx, hk', Element.operand, List.append_assoc,
        htake (show b.length - 1 < 256 ^ (k + 1) by omega), if_neg (show ¬ 60 + k < 60 by omega)]
      rw [show b.length - 1 = n by omega]
      exact hliteral
  | copy1 offset length =>
    obtain ⟨hoffset, hmin, hmax⟩ := hvalid
    have hmod : (Element.copy1 offset length).tag % 4 = 1 := by simp only [Element.tag]; omega
    have hfrom : (Element.copy1 offset length).tag / 32 * 256 + offset % 256 = offset := by
      simp only [Element.tag]
      omega
    have hfor : 4 + (Element.copy1 offset length).tag / 4 % 8 = length := by
      simp only [Element.tag]
      omega
    simp only [hmod, Element.operand, htake (show offset % 256 < 256 ^ 1 by omega), hfrom, hfor]
    exact copy_eq_ok_iff_repeated.mpr ⟨hextend, hlength, rfl⟩
  | copy2 offset length =>
    obtain ⟨hoffset, hmin, hmax⟩ := hvalid
    have hmod : (Element.copy2 offset length).tag % 4 = 2 := by simp only [Element.tag]; omega
    have hfor : 1 + (Element.copy2 offset length).tag / 4 = length := by
      simp only [Element.tag]
      omega
    simp only [hmod, Element.operand, htake (show offset < 256 ^ 2 by omega), hfor]
    exact copy_eq_ok_iff_repeated.mpr ⟨hextend, hlength, rfl⟩
  | copy4 offset length =>
    obtain ⟨hoffset, hmin, hmax⟩ := hvalid
    have hmod : (Element.copy4 offset length).tag % 4 = 3 := by simp only [Element.tag]; omega
    have hfor : 1 + (Element.copy4 offset length).tag / 4 = length := by
      simp only [Element.tag]
      omega
    simp only [hmod, Element.operand, htake (show offset < 256 ^ 4 by omega), hfor]
    exact copy_eq_ok_iff_repeated.mpr ⟨hextend, hlength, rfl⟩

/-- **The loop accepts runs of elements**, and expands them. -/
theorem decodeLoop_eq_ok_iff {dLen : ℕ} {dst dst' src : Bytes} :
    decodeLoop dLen dst src = .ok dst' ↔
      ∃ es : List Element, (∀ e ∈ es, e.Valid) ∧ src = es.flatMap Element.bytes ∧
        expand dst es = some dst' ∧ dst'.length = dLen := by
  constructor
  · intro h
    fun_induction decodeLoop dLen dst src with
    | case1 => cases h
    | case2 dst hfull =>
      obtain rfl := Except.ok.inj h
      exact ⟨[], by simp, rfl, rfl, not_not.mp hfull⟩
    | case3 => cases h
    | case4 dst tag src dst₁ src₁ hstep ih =>
      obtain ⟨e, hvalid, hbytes, hextend, -⟩ := element_of_decodeElement hstep
      obtain ⟨es, hes, rfl, hexpand, hlength⟩ := ih h
      refine ⟨e :: es, List.forall_mem_cons.mpr ⟨hvalid, hes⟩, hbytes, ?_, hlength⟩
      exact Option.bind_eq_some_iff.mpr ⟨dst₁, hextend, hexpand⟩
  · rintro ⟨es, hvalid, rfl, hexpand, hlength⟩
    induction es generalizing dst with
    | nil =>
      obtain rfl : dst = dst' := Option.some.inj hexpand
      rw [List.flatMap_nil, decodeLoop, if_neg (not_not.mpr hlength)]
    | cons e es ih =>
      obtain ⟨he, hes⟩ := List.forall_mem_cons.mp hvalid
      obtain ⟨mid, hmid, hrest⟩ := Option.bind_eq_some_iff.mp hexpand
      have hroom : mid.length ≤ dLen := hlength ▸ length_le_of_expand hrest
      rw [List.flatMap_cons, Element.bytes, List.cons_append, decodeLoop]
      split
      · rename_i herr
        rw [decodeElement_of_element he hmid hroom] at herr
        cases herr
      · rename_i hok
        rw [decodeElement_of_element he hmid hroom] at hok
        obtain ⟨rfl, rfl⟩ := Prod.mk.inj (Except.ok.inj hok)
        exact ih hes hrest

/-- The number that a varint stands for. -/
def ofVarint : Bytes → ℕ
  | [] => 0
  | b :: bs => b.toNat % 128 + 128 * ofVarint bs

/-- A varint: all bytes but the last have their highest bit set, and there are at most ten. -/
def IsVarint (header : Bytes) : Prop :=
  ∃ init last, header = init ++ [last] ∧ (∀ b ∈ init, 128 ≤ b.toNat) ∧ last.toNat < 128 ∧
    header.length ≤ 10

/-- A varint ends at the first byte that does not say that there are more. -/
theorem uvarint_eq_some_iff {x i n : ℕ} {buf rest : Bytes} :
    uvarint x i buf = some (n, rest) ↔
      ∃ init last, buf = init ++ last :: rest ∧ (∀ b ∈ init, 128 ≤ b.toNat) ∧ last.toNat < 128 ∧
        i + init.length ≤ 9 ∧ (i + init.length = 9 → last.toNat ≤ 1) ∧
        n = x + ofVarint (init ++ [last]) * 128 ^ i := by
  induction buf generalizing x i with
  | nil => simp [uvarint]
  | cons b buf ih =>
    rw [uvarint]
    by_cases hlast : b.toNat < 0x80
    · rw [if_pos hlast]
      constructor
      · intro h
        split_ifs at h with hfits
        obtain ⟨rfl, rfl⟩ := Prod.mk.inj (Option.some.inj h)
        refine ⟨[], b, rfl, by simp, hlast, by simp; omega, by simp; omega, ?_⟩
        simp [ofVarint, Nat.mod_eq_of_lt hlast]
      · rintro ⟨init, last, hbuf, hinit, -, hi, hnine, rfl⟩
        -- a byte without the highest bit is the last one
        cases init with
        | nil =>
          obtain ⟨rfl, rfl⟩ := List.cons.inj hbuf
          simp only [List.length_nil, Nat.add_zero] at hi hnine
          rw [if_neg (by omega)]
          simp [ofVarint, Nat.mod_eq_of_lt hlast]
        | cons c init =>
          obtain ⟨rfl, -⟩ := List.cons.inj hbuf
          have hc := hinit b (List.mem_cons_self ..)
          omega
    · rw [if_neg hlast, ih]
      constructor
      · rintro ⟨init, last, rfl, hinit, hlt, hi, hnine, rfl⟩
        refine ⟨b :: init, last, rfl, List.forall_mem_cons.mpr ⟨by omega, hinit⟩, hlt, ?_, ?_, ?_⟩
        · simp only [List.length_cons]
          omega
        · simp only [List.length_cons]
          omega
        · rw [List.cons_append, ofVarint, pow_succ]
          ring
      · rintro ⟨init, last, hbuf, hinit, hlt, hi, hnine, rfl⟩
        cases init with
        | nil =>
          obtain ⟨rfl, -⟩ := List.cons.inj hbuf
          exact absurd hlt hlast
        | cons c init =>
          obtain ⟨rfl, rfl⟩ := List.cons.inj hbuf
          simp only [List.length_cons] at hi hnine
          refine ⟨init, last, rfl, (List.forall_mem_cons.mp hinit).2, hlt, by omega, by omega, ?_⟩
          rw [List.cons_append, ofVarint, pow_succ]
          ring

/-- The last byte counts for most. -/
theorem ofVarint_append (init : Bytes) (last : UInt8) (h : last.toNat < 128) :
    ofVarint (init ++ [last]) = ofVarint init + last.toNat * 128 ^ init.length := by
  induction init with
  | nil => simp [ofVarint, Nat.mod_eq_of_lt h]
  | cons b init ih =>
    rw [List.cons_append, ofVarint, ih, ofVarint, List.length_cons, pow_succ]
    ring

/-- A block says truthfully how long its result is. -/
theorem decodedLen_of_decode {src dst : Bytes} (h : decode src = .ok dst) :
    ∃ rest, decodedLen src = .ok (dst.length, rest) := by
  obtain ⟨⟨dLen, rest⟩, hlen, hloop⟩ := bind_eq_ok.mp h
  obtain ⟨-, -, -, -, rfl⟩ := decodeLoop_eq_ok_iff.mp hloop
  exact ⟨rest, hlen⟩

theorem ne_nil_of_decode {src dst : Bytes} (h : decode src = .ok dst) : src ≠ [] := by
  rintro rfl
  obtain ⟨rest, hlen⟩ := decodedLen_of_decode h
  cases hlen

/-- Every block of literals and copies is decoded. -/
theorem decode_of_expand {dst header : Bytes} {es : List Element} (hmax : dst.length < 2 ^ 32)
    (hheader : IsVarint header) (hn : ofVarint header = dst.length) (hvalid : ∀ e ∈ es, e.Valid)
    (hexpand : expand [] es = some dst) :
    decode (header ++ es.flatMap Element.bytes) = .ok dst := by
  obtain ⟨init, last, rfl, hinit, hlast, hten⟩ := hheader
  have hvarint : uvarint 0 0 (init ++ [last] ++ es.flatMap Element.bytes) =
      some (dst.length, es.flatMap Element.bytes) := by
    refine uvarint_eq_some_iff.mpr ⟨init, last, by simp, hinit, hlast, ?_, ?_, by simp [hn]⟩
    · simp at hten
      omega
    · -- the tenth byte would be worth more than the length
      intro hnine
      rw [ofVarint_append _ _ hlast, show init.length = 9 by omega] at hn
      omega
  have hlen : decodedLen (init ++ [last] ++ es.flatMap Element.bytes) =
      .ok (dst.length, es.flatMap Element.bytes) := by
    rw [decodedLen, hvarint]
    exact if_neg (by omega)
  rw [decode, bind_of_ok hlen]
  exact decodeLoop_eq_ok_iff.mpr ⟨es, hvalid, rfl, hexpand, rfl⟩

/-- **Which blocks are accepted.** A block is decoded without an error iff it is a varint for the
length of the result and then literals and copies that produce the result from nothing, each copy
repeating what is already there. -/
theorem decode_eq_ok_iff {src dst : Bytes} :
    decode src = .ok dst ↔
      dst.length < 2 ^ 32 ∧ ∃ header es, IsVarint header ∧ ofVarint header = dst.length ∧
        (∀ e ∈ es, e.Valid) ∧ src = header ++ es.flatMap Element.bytes ∧
        expand [] es = some dst := by
  constructor
  · intro h
    obtain ⟨⟨dLen, rest⟩, hlen, hloop⟩ := bind_eq_ok.mp h
    obtain ⟨es, hvalid, rfl, hexpand, rfl⟩ := decodeLoop_eq_ok_iff.mp hloop
    rw [decodedLen] at hlen
    split at hlen
    · cases hlen
    · rename_i v rest hvarint
      split_ifs at hlen with hmax
      obtain ⟨rfl, rfl⟩ := Prod.mk.inj (Except.ok.inj hlen)
      obtain ⟨init, last, rfl, hinit, hlast, hi, -, hn⟩ := uvarint_eq_some_iff.mp hvarint
      refine ⟨by omega, init ++ [last], es, ⟨init, last, rfl, hinit, hlast, ?_⟩, ?_, hvalid, ?_,
        hexpand⟩
      · simp
        omega
      · simpa using hn.symm
      · simp
  · rintro ⟨hmax, header, es, hheader, hn, hvalid, rfl, hexpand⟩
    exact decode_of_expand hmax hheader hn hvalid hexpand

end Sequins.Snappy
