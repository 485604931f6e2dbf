import Mathlib.Data.List.Dedup
import Mathlib.Data.List.Lex
import Mathlib.Data.List.Sort
import Mathlib.Data.List.TakeWhile

/-!
# Listing an object store

A bucket holds objects under keys, which are strings over an ordered alphabet. It has no
directories: a listing asks for the keys with a given prefix, and a delimiter folds the keys that
continue past it into one *common prefix*. What is listed comes in order, strictly after a marker,
and a request is answered with at most so many entries.

- `mem_entries`, `entries_pairwise`: what a listing without a bound holds, in order.
- `mem_entries_common`: the common prefixes are what the keys show of the directories.
- `entries_of_lt`, `entries_of_gt`: a marker that is no continuation of the prefix lists
  everything or nothing.
-/

namespace ObjectStore

/-! ## Up to the first delimiter -/

section FirstPart

variable {α : Type*} [DecidableEq α] {c : α}

theorem not_mem_takeWhile (c : α) (s : List α) : c ∉ s.takeWhile (· ≠ c) := by
  intro hmem
  simpa using List.mem_takeWhile_imp hmem

theorem takeWhile_of_not_mem {s : List α} (hs : c ∉ s) : s.takeWhile (· ≠ c) = s := by
  rw [List.takeWhile_eq_self_iff]
  intro d hd
  exact decide_eq_true fun h => hs (h ▸ hd)

theorem takeWhile_append_cons {s : List α} (hs : c ∉ s) (rest : List α) :
    (s ++ c :: rest).takeWhile (· ≠ c) = s := by
  rw [List.takeWhile_append, takeWhile_of_not_mem hs, if_pos rfl]
  simp

/-- A string is its first part, or has a delimiter behind it. -/
theorem takeWhile_cases (c : α) (s : List α) :
    s = s.takeWhile (· ≠ c) ∨ ∃ rest, s = s.takeWhile (· ≠ c) ++ c :: rest := by
  by_cases hmem : c ∈ s
  · obtain ⟨first, rest, rfl, hfirst⟩ := List.eq_append_cons_of_mem hmem
    exact .inr ⟨rest, by rw [takeWhile_append_cons hfirst]⟩
  · exact .inl (takeWhile_of_not_mem hmem).symm

/-- The first part is one of the parts. -/
theorem takeWhile_mem_splitOn (c : α) (s : List α) : s.takeWhile (· ≠ c) ∈ s.splitOn c := by
  rcases takeWhile_cases c s with hs | ⟨rest, hs⟩
  · rw [List.splitOn_eq_singleton (hs ▸ not_mem_takeWhile c s)]
    exact List.mem_singleton.mpr hs.symm
  · have hsplit : s.splitOn c = s.takeWhile (· ≠ c) :: rest.splitOn c := by
      conv_lhs => rw [hs]
      exact List.splitOn_append_cons_self_of_not_mem (not_mem_takeWhile c s) rest
    rw [hsplit]
    exact List.mem_cons_self ..

end FirstPart

variable {α : Type*} [LinearOrder α]

/-! ## Order and prefixes -/

/-- A string comes before its continuations. -/
theorem le_of_isPrefix {a b : List α} (h : a <+: b) : a ≤ b := not_lt.mp h.le

/-- Where a string differs from the strings under it, what follows makes no difference. -/
theorem append_lt_of_lt {a b : List α} (hlt : a < b) (hab : ¬ a <+: b) (c : List α) :
    a ++ c < b := by
  induction hlt with
  | nil => exact absurd List.nil_prefix hab
  | rel h => exact List.Lex.rel h
  | cons _ ih => exact List.Lex.cons (ih fun h => hab (List.cons_prefix_cons.mpr ⟨rfl, h⟩))

/-- **A continuation does not change the order**, unless the other string is a continuation, too. -/
theorem append_lt_iff {a b : List α} (hab : ¬ a <+: b) (c : List α) : a ++ c < b ↔ a < b :=
  ⟨fun h => (le_of_isPrefix (List.prefix_append a c)).trans_lt h, fun h => append_lt_of_lt h hab c⟩

omit [LinearOrder α] in
/-- Two strings whose first delimiters are apart: neither is a continuation of the other, up to
the later one. -/
theorem not_prefix_of_length_lt {c : α} {first head : List α} (hhead : c ∉ head)
    (hlen : first.length < head.length) (rest tail : List α) :
    ¬ head <+: first ++ c :: rest ∧ ¬ first ++ c :: rest <+: head ++ tail := by
  have hshort : first ++ [c] <+: first ++ c :: rest := ⟨rest, by simp⟩
  have hmem : ∀ {s : List α}, first ++ [c] <+: s → head <+: s → False := by
    intro s hfirst hs
    have hpre : first ++ [c] <+: head :=
      List.prefix_of_prefix_length_le hfirst hs (by rw [List.length_append]; exact hlen)
    exact hhead (hpre.subset (by simp))
  exact ⟨fun h => hmem hshort h, fun h => hmem (hshort.trans h) (List.prefix_append _ _)⟩

/-- In a list in order, what is taken is what has not too many before it. -/
theorem mem_take_iff {β : Type*} [Preorder β] [DecidableLT β] {l : List β}
    (hl : l.Pairwise (· < ·)) {n : ℕ} {x : β} :
    x ∈ l.take n ↔ x ∈ l ∧ (l.filter (· < x)).length < n := by
  induction l generalizing n with
  | nil => simp
  | cons a l ih =>
    obtain ⟨ha, hl⟩ := List.pairwise_cons.mp hl
    rcases n with _ | n
    · simp
    · rw [List.take_succ_cons, List.mem_cons, List.mem_cons, ih hl]
      rcases eq_or_ne x a with rfl | hne
      · have hfirst : (x :: l).filter (· < x) = [] := by
          simpa using fun b hb => (ha b hb).not_gt
        simp [hfirst]
      · by_cases hx : x ∈ l
        · have hcount : (a :: l).filter (· < x) = a :: l.filter (· < x) :=
            List.filter_cons_of_pos (by simpa using ha x hx)
          rw [hcount]
          simp [hne, hx]
        · simp [hne, hx]

/-! ## Listings

A key shows itself, or its common prefix: what it has up to the first delimiter behind the prefix
that was asked for. Many keys show the same common prefix, so the entries are a set, in order. -/

/-- What a listing shows of a key: the key, or its part up to the first delimiter after the
prefix. -/
def entry (pre : List α) (delimiter : Option α) (key : List α) : List α :=
  match delimiter with
  | none => key
  | some c =>
    if c ∈ key.drop pre.length then
      pre ++ (key.drop pre.length).takeWhile (· ≠ c) ++ [c]
    else
      key

/-- Whether an entry is a common prefix. -/
def isCommon (pre : List α) (delimiter : Option α) (e : List α) : Bool :=
  delimiter.any fun c => decide (c ∈ e.drop pre.length)

/-- Everything there is to list after a marker, in order. -/
def entries (keys : List (List α)) (pre : List α) (delimiter : Option α) (marker : List α) :
    List (List α) :=
  (((keys.filter (pre <+: ·)).map (entry pre delimiter)).dedup.filter (marker < ·)).insertionSort
    (· ≤ ·)

/-- The answer to a listing request. -/
structure Listing (α : Type*) where
  contents : List (List α)
  commonPrefixes : List (List α)
  /-- Whether there is more than was asked for. -/
  isTruncated : Bool

/-- Listing at most `maxKeys` entries. -/
def listObjects (keys : List (List α)) (pre : List α) (delimiter : Option α) (marker : List α)
    (maxKeys : ℕ) : Listing α :=
  let listed := entries keys pre delimiter marker
  { contents := (listed.take maxKeys).filter fun e => !isCommon pre delimiter e
    commonPrefixes := (listed.take maxKeys).filter (isCommon pre delimiter)
    isTruncated := decide (maxKeys < listed.length) }

variable {keys : List (List α)} {pre : List α} {delimiter : Option α} {marker : List α}

theorem entry_none (pre key : List α) : entry pre none key = key := rfl

theorem prefix_entry {key : List α} (h : pre <+: key) : pre <+: entry pre delimiter key := by
  rcases delimiter with _ | c
  · exact h
  · rw [entry]
    split
    · rw [List.append_assoc]
      exact List.prefix_append _ _
    · exact h

/-- What is listed is what some key shows, if it comes after the marker. -/
theorem mem_entries {e : List α} :
    e ∈ entries keys pre delimiter marker ↔
      marker < e ∧ ∃ key ∈ keys, pre <+: key ∧ entry pre delimiter key = e := by
  simp only [entries, List.mem_insertionSort, List.mem_filter, List.mem_dedup, List.mem_map,
    decide_eq_true_eq]
  tauto

/-- Without a delimiter the keys are listed. -/
theorem mem_entries_none {key : List α} :
    key ∈ entries keys pre none marker ↔ marker < key ∧ key ∈ keys ∧ pre <+: key := by
  simp only [mem_entries, entry_none]
  refine ⟨?_, ?_⟩
  · rintro ⟨hlt, _, hk, hpre, rfl⟩
    exact ⟨hlt, hk, hpre⟩
  · rintro ⟨hlt, hk, hpre⟩
    exact ⟨hlt, key, hk, hpre, rfl⟩

/-- A listing is in strict order. -/
theorem entries_pairwise (keys : List (List α)) (pre : List α) (delimiter : Option α)
    (marker : List α) : (entries keys pre delimiter marker).Pairwise (· < ·) :=
  (List.sortedLE_insertionSort.sortedLT_of_nodup <|
    (List.perm_insertionSort _ _).nodup_iff.mpr ((List.nodup_dedup _).filter _)).pairwise

/-- What is on a page of a listing. -/
theorem mem_take_entries {n : ℕ} {e : List α} :
    e ∈ (entries keys pre delimiter marker).take n ↔
      e ∈ entries keys pre delimiter marker ∧
        ((entries keys pre delimiter marker).filter (· < e)).length < n :=
  mem_take_iff (entries_pairwise keys pre delimiter marker)

/-- The entry of a key with a directory under the prefix. -/
theorem entry_some {c : α} {v : List α} (hv : c ∉ v) (x : List α) :
    entry pre (some c) (pre ++ (v ++ c :: x)) = pre ++ (v ++ [c]) := by
  simp only [entry, List.drop_left, List.mem_append, List.mem_cons, true_or, or_true, if_true,
    takeWhile_append_cons hv, List.append_assoc]

/-- **The common prefixes of a listing are the directories that hold a key.** -/
theorem mem_entries_common {c : α} {e : List α} :
    e ∈ entries keys pre (some c) marker ∧ isCommon pre (some c) e = true ↔
      ∃ v, c ∉ v ∧ e = pre ++ (v ++ [c]) ∧ marker < e ∧ ∃ key ∈ keys, e <+: key := by
  simp only [mem_entries, isCommon, Option.any_some, decide_eq_true_eq]
  refine ⟨?_, ?_⟩
  · rintro ⟨⟨hlt, key, hk, ⟨rest, rfl⟩, rfl⟩, hcommon⟩
    rcases takeWhile_cases c rest with hrest | ⟨x, hrest⟩
    · have hc : c ∉ rest := hrest ▸ not_mem_takeWhile c rest
      simp only [entry, List.drop_left, hc, if_false] at hcommon
    · rw [hrest] at hlt hk ⊢
      have hv := not_mem_takeWhile c rest
      rw [entry_some hv] at hlt ⊢
      exact ⟨_, hv, rfl, hlt, _, hk, x, by simp⟩
  · rintro ⟨v, hv, rfl, hlt, _, hk, x, rfl⟩
    refine ⟨⟨hlt, _, hk, ?_, ?_⟩, by simp⟩
    · rw [List.append_assoc]
      exact List.prefix_append _ _
    · rw [List.append_assoc, List.append_assoc, List.singleton_append]
      exact entry_some hv x

/-! ## Markers -/

/-- A marker before the prefix leaves nothing out. -/
theorem entries_of_lt (h : marker < pre) :
    entries keys pre delimiter marker = entries keys pre delimiter [] := by
  rw [entries, entries]
  congr 1
  apply List.filter_congr
  intro e he
  simp only [List.mem_dedup, List.mem_map, List.mem_filter, decide_eq_true_eq] at he
  obtain ⟨key, ⟨-, hpre⟩, rfl⟩ := he
  have hle : pre ≤ entry pre delimiter key := le_of_isPrefix (prefix_entry hpre)
  have hnil : ([] : List α) < pre :=
    lt_of_le_of_ne (le_of_isPrefix List.nil_prefix) fun h' => List.not_lt_nil _ (h' ▸ h)
  exact decide_eq_decide.mpr ⟨fun _ => hnil.trans_le hle, fun _ => h.trans_le hle⟩

/-- A marker after the prefix, and not under it, leaves everything out. -/
theorem entries_of_gt (h : pre < marker) (hpre : ¬ pre <+: marker) :
    entries keys pre delimiter marker = [] := by
  refine List.eq_nil_iff_forall_not_mem.mpr fun e he => ?_
  obtain ⟨hlt, key, -, hkey, rfl⟩ := mem_entries.mp he
  obtain ⟨x, hx⟩ : pre <+: entry pre delimiter key := prefix_entry hkey
  rw [← hx] at hlt
  exact lt_asymm hlt (append_lt_of_lt h hpre x)

/-- The listing after a later marker is no longer. -/
theorem length_entries_le (keys : List (List α)) (pre : List α) (delimiter : Option α)
    (marker : List α) (hpre : pre ≠ []) :
    (entries keys pre delimiter marker).length ≤ (entries keys pre delimiter []).length := by
  have hnodup := (entries_pairwise keys pre delimiter marker).imp ne_of_lt
  refine (List.subperm_of_subset hnodup fun e he => ?_).length_le
  obtain ⟨-, key, hk, hkey, rfl⟩ := mem_entries.mp he
  refine mem_entries.mpr ⟨?_, key, hk, hkey, rfl⟩
  refine lt_of_le_of_ne (le_of_isPrefix List.nil_prefix) fun hnil => hpre ?_
  exact List.prefix_nil.mp (hnil ▸ prefix_entry hkey)

end ObjectStore
