import Mathlib.Data.List.AList
import Mathlib.Data.Finset.Basic
import Mathlib.Data.List.Sort

/-!
# Iterating over a map

A Go map is an association list with distinct keys (Mathlib's `AList`). Ranging over
it visits every entry once, in an order that is unspecified: an `IterOrder` is any
choice of such an order. What a loop over a map computes must then be shown not to
depend on it; `AList.filter_arrange_key` is the fact that does it, since whatever the
order, exactly the entry under a key is found under that key. `AList.lookup_range` is the rule
for a loop that assigns under the keys it visits. A map to `true` is a set, which is ranged over
in a `SetOrder`.
-/

universe u v w

/-- An order in which a range loop visits the entries of a map: some rearrangement
of them. -/
structure IterOrder (α : Type u) where
  /-- the entries in the order they are visited -/
  arrange : List α → List α
  /-- every entry is visited once -/
  perm : ∀ l, (arrange l).Perm l

namespace IterOrder

variable {α : Type u} {β : α → Type v}

/-- Visiting the entries as they are stored. -/
def stored (α : Type u) : IterOrder α := ⟨id, fun _ => List.Perm.refl _⟩

@[simp] theorem mem_arrange {γ : Type u} (o : IterOrder γ) {l : List γ} {x : γ} :
    x ∈ o.arrange l ↔ x ∈ l := (o.perm l).mem_iff

@[simp] theorem arrange_eq_nil {γ : Type u} (o : IterOrder γ) {l : List γ} :
    o.arrange l = [] ↔ l = [] :=
  ⟨fun h => List.Perm.eq_nil (h ▸ o.perm l).symm, fun h => List.Perm.eq_nil (h ▸ o.perm l)⟩

end IterOrder

/-- An order in which a range loop visits the members of a set. -/
structure SetOrder (α : Type u) where
  /-- the members in the order they are visited -/
  visit : Finset α → List α
  /-- none is visited twice -/
  nodup : ∀ s, (visit s).Nodup
  /-- and every one is visited -/
  mem_visit : ∀ s a, a ∈ visit s ↔ a ∈ s

namespace SetOrder

variable {α : Type u} [LinearOrder α]

/-- Sorting forgets the order in which a map was walked. -/
theorem insertionSort_eq_of_perm {l l' : List α} (h : l.Perm l') :
    l.insertionSort (· ≤ ·) = l'.insertionSort (· ≤ ·) := by
  have hperm : (l.insertionSort (· ≤ ·)).Perm (l'.insertionSort (· ≤ ·)) :=
    (List.perm_insertionSort _ l).trans (h.trans (List.perm_insertionSort _ l').symm)
  exact hperm.eq_of_sortedLE List.sortedLE_insertionSort List.sortedLE_insertionSort

variable (α) in
/-- Visiting the smaller ones first. -/
def ascending : SetOrder α where
  visit s := s.val.liftOn (List.insertionSort (· ≤ ·)) fun _ _ => insertionSort_eq_of_perm
  nodup s := by
    obtain ⟨⟨l⟩, hl⟩ := s
    exact (List.perm_insertionSort _ l).nodup_iff.mpr hl
  mem_visit s a := by
    obtain ⟨⟨l⟩, hl⟩ := s
    exact (List.perm_insertionSort _ l).mem_iff

/-- The other way round. -/
def reverse {α : Type u} (o : SetOrder α) : SetOrder α where
  visit s := (o.visit s).reverse
  nodup s := List.nodup_reverse.mpr (o.nodup s)
  mem_visit s a := List.mem_reverse.trans (o.mem_visit s a)

end SetOrder

namespace AList

variable {α : Type u} [DecidableEq α] {β : α → Type v}

/-- Among entries with distinct keys, those under a given key are the one that
lookup finds. -/
theorem filter_entries_key (s : AList β) (a : α) :
    s.entries.filter (fun e => decide (e.1 = a)) = (s.lookup a).toList.map (Sigma.mk a) := by
  obtain ⟨l, hl⟩ := s
  change l.filter _ = (l.dlookup a).toList.map _
  induction l with
  | nil => rfl
  | cons e l ih =>
    obtain ⟨a', b⟩ := e
    obtain ⟨hnot, hl'⟩ := List.nodupKeys_cons.mp hl
    by_cases ha : a' = a
    · subst ha
      have hrest : l.filter (fun e => decide (e.1 = a')) = [] := by
        rw [List.filter_eq_nil_iff]
        rintro ⟨a'', b''⟩ he hk
        obtain rfl : a'' = a' := of_decide_eq_true hk
        exact hnot (List.mem_keys.mpr ⟨b'', he⟩)
      simp [hrest]
    · rw [List.filter_cons_of_neg (by simpa using ha), List.dlookup_cons_ne _ _ (Ne.symm ha)]
      exact ih hl'

/-- The same in whatever order the map is visited. -/
theorem filter_arrange_key (o : IterOrder (Sigma β)) (s : AList β) (a : α) :
    (o.arrange s.entries).filter (fun e => decide (e.1 = a)) =
      (s.lookup a).toList.map (Sigma.mk a) := by
  have hperm := (o.perm s.entries).filter fun e => decide (e.1 = a)
  rw [filter_entries_key] at hperm
  rcases hb : s.lookup a with _ | b
  · rw [hb] at hperm
    exact hperm.eq_nil
  · rw [hb] at hperm
    exact List.perm_singleton.mp hperm

theorem mem_entries_iff_lookup {s : AList β} {a : α} {b : β a} :
    ⟨a, b⟩ ∈ s.entries ↔ s.lookup a = some b := mem_lookup_iff.symm

section Const

variable {γ : Type v} {s : AList fun _ : α => γ} {a a' : α} {b b' : γ}

/-- What is found after an assignment was assigned, or was there under another key. -/
theorem lookup_insert_eq_some (h : (s.insert a b).lookup a' = some b') :
    (a' = a ∧ b' = b) ∨ (a' ≠ a ∧ s.lookup a' = some b') := by
  by_cases ha : a' = a
  · subst ha
    rw [lookup_insert] at h
    exact .inl ⟨rfl, (Option.some.inj h).symm⟩
  · rw [lookup_insert_ne ha] at h
    exact .inr ⟨ha, h⟩

/-- What is found after a deletion was there under another key. -/
theorem lookup_erase_eq_some (h : (s.erase a).lookup a' = some b') :
    a' ≠ a ∧ s.lookup a' = some b' := by
  by_cases ha : a' = a
  · subst ha
    rw [lookup_erase] at h
    cases h
  · rw [lookup_erase_ne ha] at h
    exact ⟨ha, h⟩

variable {δ : Type w}

/-- The loop over the entries, from any map: a key is visited once, so each assignment is the last
one under its key. -/
theorem lookup_foldl_insert (g : α → γ → Option δ → δ) {l : List (Σ _ : α, γ)}
    (hl : l.NodupKeys) (start : AList fun _ : α => δ) (k : α) :
    (l.foldl (fun t e => t.insert e.1 (g e.1 e.2 (t.lookup e.1))) start).lookup k =
      (l.dlookup k).elim (start.lookup k) fun x => some (g k x (start.lookup k)) := by
  induction l generalizing start with
  | nil => rfl
  | cons e l ih =>
    obtain ⟨a, x⟩ := e
    obtain ⟨hnot, hl⟩ := List.nodupKeys_cons.mp hl
    rw [List.foldl_cons, ih hl]
    by_cases hk : k = a
    · subst hk
      rw [List.dlookup_eq_none.mpr hnot, List.dlookup_cons_eq]
      simp
    · rw [List.dlookup_cons_ne _ _ hk, lookup_insert_ne hk]

/-- **A loop that assigns under the keys it visits**, from what was there, changes exactly these
keys, in whatever order they come. -/
theorem lookup_range (o : IterOrder (Σ _ : α, γ)) (g : α → γ → Option δ → δ)
    (s : AList fun _ : α => γ) (start : AList fun _ : α => δ) (k : α) :
    ((o.arrange s.entries).foldl
        (fun t e => t.insert e.1 (g e.1 e.2 (t.lookup e.1))) start).lookup k =
      (s.lookup k).elim (start.lookup k) fun x => some (g k x (start.lookup k)) := by
  have hnodup : (o.arrange s.entries).NodupKeys :=
    (List.perm_nodupKeys (o.perm s.entries)).mpr s.nodupKeys
  rw [lookup_foldl_insert g hnodup, List.perm_dlookup k hnodup (o.perm s.entries)]
  rfl

/-- A loop that assigns the same value under some keys. -/
theorem lookup_insertAll (keys : List α) (b : γ) (s : AList fun _ : α => γ) (k : α) :
    (keys.foldl (fun t a => t.insert a b) s).lookup k =
      if k ∈ keys then some b else s.lookup k := by
  induction keys generalizing s with
  | nil => simp
  | cons a keys ih =>
    rw [List.foldl_cons, ih]
    by_cases hk : k = a
    · subst hk
      simp
    · rw [lookup_insert_ne hk]
      simp [hk]

/-- A loop that deletes under some keys. -/
theorem lookup_eraseAll (keys : List α) (s : AList fun _ : α => γ) (k : α) :
    (keys.foldl (fun t a => t.erase a) s).lookup k = if k ∈ keys then none else s.lookup k := by
  induction keys generalizing s with
  | nil => simp
  | cons a keys ih =>
    rw [List.foldl_cons, ih]
    by_cases hk : k = a
    · subst hk
      simp
    · rw [lookup_erase_ne hk]
      simp [hk]

/-- Maps with the same values have the same entries, up to order. -/
theorem entries_perm_of_lookup {t : AList fun _ : α => γ} (h : ∀ k, s.lookup k = t.lookup k) :
    s.entries.Perm t.entries :=
  List.lookup_ext s.nodupKeys t.nodupKeys fun k y => by
    change y ∈ s.lookup k ↔ y ∈ t.lookup k
    rw [h k]

end Const

end AList
