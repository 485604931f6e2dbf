import Mathlib.Data.Finset.Card
import Mathlib.Data.List.Sort

/-!
# The foremost members of a set

A set whose members are ranked, and a number `n` of them to be picked: `Foremost` says that a list
has the `n` members of least rank, in order of rank. Such a list is unique (`Foremost.unique`), and
who is on it can be told for each member alone, by counting those before it (`Foremost.mem_iff`). So
members that are taken out of the set make room for others, and displace nobody
(`Foremost.mem_of_subset`).

The members may be found by walking through points, of which each member owns some: the rank of a
member is how far away its nearest point is. If the walk comes by the points in order of distance,
then the owners, each where it is met first, are in order of rank (`Course.foremost`).
-/

universe u v w

variable {α : Type u} {κ : Type v} [LinearOrder κ]

/-- The `n` members of least rank, in order of rank. -/
structure Foremost (rank : α → κ) (s : Finset α) (n : ℕ) (l : List α) : Prop where
  /-- they are members -/
  mem : ∀ a ∈ l, a ∈ s
  /-- in order of rank, so that none is there twice -/
  sorted : l.Pairwise fun a b => rank a < rank b
  /-- whoever is not there comes after -/
  before : ∀ a ∈ l, ∀ b ∈ s, b ∉ l → rank a < rank b
  /-- and there are `n` of them, if there are so many -/
  length : l.length = min n s.card

namespace Foremost

variable {rank : α → κ} {s t : Finset α} {n : ℕ} {l l' : List α} {a : α}

/-- The ranks increase along the list, so nobody is on it twice. -/
theorem nodup (h : Foremost rank s n l) : l.Nodup :=
  h.sorted.imp fun hlt heq => absurd (heq ▸ hlt) (lt_irrefl _)

/-- **A member is picked if fewer than `n` come before it.** -/
theorem mem_iff (h : Foremost rank s n l) :
    a ∈ l ↔ a ∈ s ∧ (s.filter fun b => rank b < rank a).card < n := by
  classical
  have hcard : l.toFinset.card = min n s.card := by
    rw [List.toFinset_card_of_nodup h.nodup, h.length]
  constructor
  · intro ha
    have hsub : (s.filter fun b => rank b < rank a) ⊆ l.toFinset.erase a := by
      intro b hb
      obtain ⟨hbs, hlt⟩ := Finset.mem_filter.mp hb
      refine Finset.mem_erase.mpr ⟨fun heq => lt_irrefl _ (heq ▸ hlt), ?_⟩
      by_contra hbl
      exact lt_asymm hlt (h.before a ha b hbs fun hmem => hbl (List.mem_toFinset.mpr hmem))
    have hle := Finset.card_le_card hsub
    have hpos := Finset.card_pos.mpr ⟨a, List.mem_toFinset.mpr ha⟩
    rw [Finset.card_erase_of_mem (List.mem_toFinset.mpr ha), hcard] at hle
    exact ⟨h.mem a ha, by omega⟩
  · rintro ⟨has, hlt⟩
    by_contra ha
    have hsub : l.toFinset ⊆ s.filter fun b => rank b < rank a := by
      intro b hb
      have hbl := List.mem_toFinset.mp hb
      exact Finset.mem_filter.mpr ⟨h.mem b hbl, h.before b hbl a has ha⟩
    -- all `n` are before it, or else all members are there, and it is one
    have hle := Finset.card_le_card hsub
    have hproper : (s.filter fun b => rank b < rank a).card < s.card :=
      Finset.card_lt_card (Finset.filter_ssubset.mpr ⟨a, has, lt_irrefl _⟩)
    rw [hcard] at hle
    omega

/-- **There is one such list.** It has the same members, and they are in the order of their ranks.
-/
theorem unique (h : Foremost rank s n l) (h' : Foremost rank s n l') : l = l' := by
  have hperm : l.Perm l' := (List.perm_ext_iff_of_nodup h.nodup h'.nodup).mpr fun a => by
    rw [h.mem_iff, h'.mem_iff]
  exact hperm.eq_of_pairwise (fun _ _ _ _ hab hba => absurd hba (lt_asymm hab)) h.sorted h'.sorted

/-- **Nobody is displaced when others leave.** -/
theorem mem_of_subset (hl : Foremost rank t n l) (hl' : Foremost rank s n l') (hst : s ⊆ t)
    (ha : a ∈ s) (hal : a ∈ l) : a ∈ l' := by
  refine hl'.mem_iff.mpr ⟨ha, lt_of_le_of_lt (Finset.card_le_card ?_) (hl.mem_iff.mp hal).2⟩
  exact Finset.filter_subset_filter _ hst

/-- **If none of those who leave was picked, nothing changes.** -/
theorem eq_of_subset (hl : Foremost rank t n l) (hl' : Foremost rank s n l') (hst : s ⊆ t)
    (hls : ∀ a ∈ l, a ∈ s) : l' = l := by
  refine hl'.unique ⟨hls, hl.sorted, fun a ha b hb hbl => hl.before a ha b (hst hb) hbl, ?_⟩
  classical
  have hle : l.length ≤ s.card := by
    rw [← List.toFinset_card_of_nodup hl.nodup]
    exact Finset.card_le_card fun a ha => hls a (List.mem_toFinset.mp ha)
  have hst' := Finset.card_le_card hst
  have hlen := hl.length
  omega

/-- Sorting by rank gives the foremost, if no two have the same rank. -/
theorem take_insertionSort (rank : α → κ) (s : Finset α) (hinj : Set.InjOn rank s) (n : ℕ) :
    Foremost rank s n ((s.toList.insertionSort fun a b => rank a ≤ rank b).take n) := by
  set sorted := s.toList.insertionSort fun a b => rank a ≤ rank b with hsorted
  have hperm : sorted.Perm s.toList := List.perm_insertionSort _ _
  have hmem : ∀ a, a ∈ sorted ↔ a ∈ s := fun a => hperm.mem_iff.trans Finset.mem_toList
  have hnodup : sorted.Nodup := hperm.nodup_iff.mpr s.nodup_toList
  have hlt : sorted.Pairwise fun a b => rank a < rank b := by
    refine ((List.pairwise_insertionSort _ _).and hnodup).imp_of_mem fun {a b} ha hb hab => ?_
    exact lt_of_le_of_ne hab.1 fun heq =>
      hab.2 (hinj ((hmem a).mp ha) ((hmem b).mp hb) heq)
  refine ⟨fun a ha => (hmem a).mp (List.mem_of_mem_take ha), hlt.sublist (List.take_sublist _ _),
    fun a ha b hb hbt => ?_, ?_⟩
  · have hb' := (hmem b).mpr hb
    rw [← List.take_append_drop n sorted] at hlt hb'
    exact (List.pairwise_append.mp hlt).2.2 a ha b
      ((List.mem_append.mp hb').resolve_left hbt)
  · rw [List.length_take, hperm.length_eq, Finset.length_toList]

end Foremost

/-! ## Walking through points

A member may have many points, and its rank is how far it is to the first of them. A walk along
the points, nearest first, then meets the members in the order of their ranks, if each is counted
where it is met first. -/

section Walk

variable {π : Type w} {owner : π → α} {dist : π → κ} {rank : α → κ} {s : Finset α}

/-- A walk that comes by the points of all members, in order of distance. -/
structure Course (owner : π → α) (dist : π → κ) (rank : α → κ) (s : Finset α) (points : List π) :
    Prop where
  /-- the points are met in order of distance -/
  sorted : points.Pairwise fun p q => dist p < dist q
  /-- each belongs to a member -/
  owned : ∀ p ∈ points, owner p ∈ s
  /-- which is no farther away than its points -/
  rank_le : ∀ p ∈ points, rank (owner p) ≤ dist p
  /-- and as near as the nearest of them -/
  reached : ∀ a ∈ s, ∃ p ∈ points, owner p = a ∧ dist p = rank a

/-- The owners of the points met, each where it is met first. -/
def heads (owner : π → α) (dist : π → κ) (rank : α → κ) (points : List π) : List α :=
  (points.filter fun p => dist p = rank (owner p)).map owner

theorem heads_append (met rest : List π) :
    heads owner dist rank (met ++ rest) = heads owner dist rank met ++ heads owner dist rank rest := by
  rw [heads, List.filter_append, List.map_append, heads, heads]

/-- A head is the owner of a point that is as near as its rank. -/
theorem mem_heads {points : List π} {a : α} :
    a ∈ heads owner dist rank points ↔ ∃ p ∈ points, dist p = rank (owner p) ∧ owner p = a := by
  simp only [heads, List.mem_map, List.mem_filter, decide_eq_true_eq, and_assoc]

namespace Course

variable {points met rest : List π} {p : π}

/-- **A point is the first of its owner exactly if the owner has not been met.** -/
theorem isHead_iff (h : Course owner dist rank s (met ++ p :: rest)) :
    dist p = rank (owner p) ↔ owner p ∉ heads owner dist rank met := by
  obtain ⟨-, hsorted, hcross⟩ := List.pairwise_append.mp h.sorted
  have hp : p ∈ met ++ p :: rest := List.mem_append_right _ (List.mem_cons_self ..)
  constructor
  · rintro hfirst hmem
    obtain ⟨q, hq, hdist, howner⟩ := mem_heads.mp hmem
    have hlt := hcross q hq p (List.mem_cons_self ..)
    rw [hdist, howner, ← hfirst] at hlt
    exact lt_irrefl _ hlt
  · intro hnew
    by_contra hne
    -- the nearest point of the owner is another one, and was met before
    obtain ⟨q, hq, howner, hdist⟩ := h.reached _ (h.owned p hp)
    have hlt : dist q < dist p := hdist ▸ lt_of_le_of_ne (h.rank_le p hp) (Ne.symm hne)
    refine hnew (mem_heads.mpr ⟨q, ?_, by rw [hdist, howner], howner⟩)
    rcases List.mem_append.mp hq with hq | hq
    · exact hq
    · rcases List.mem_cons.mp hq with rfl | hq
      · exact absurd hlt (lt_irrefl _)
      · exact absurd ((List.pairwise_cons.mp hsorted).1 q hq) (lt_asymm hlt)

/-- Whom a walk has met, one point further. -/
theorem heads_concat [DecidableEq α] (h : Course owner dist rank s (met ++ p :: rest)) :
    heads owner dist rank (met ++ [p]) =
      if owner p ∈ heads owner dist rank met then heads owner dist rank met
      else heads owner dist rank met ++ [owner p] := by
  rw [heads_append]
  split
  · rename_i hmem
    have hlater : ¬ dist p = rank (owner p) := fun hfirst => h.isHead_iff.mp hfirst hmem
    simp [heads, hlater]
  · rename_i hnew
    simp [heads, h.isHead_iff.mpr hnew]

/-- The heads come in the order of their ranks, since the points come in that of their distances. -/
theorem sorted_heads (h : Course owner dist rank s points) :
    (heads owner dist rank points).Pairwise fun a b => rank a < rank b := by
  refine List.pairwise_map.mpr ((h.sorted.sublist List.filter_sublist).imp_of_mem ?_)
  intro p q hp hq hlt
  rw [← of_decide_eq_true (List.mem_filter.mp hp).2, ← of_decide_eq_true (List.mem_filter.mp hq).2]
  exact hlt

/-- All members are met, and nobody else. -/
theorem mem_heads_iff (h : Course owner dist rank s points) {a : α} :
    a ∈ heads owner dist rank points ↔ a ∈ s := by
  rw [mem_heads]
  constructor
  · rintro ⟨p, hp, -, rfl⟩
    exact h.owned p hp
  · intro ha
    obtain ⟨p, hp, rfl, hdist⟩ := h.reached a ha
    exact ⟨p, hp, hdist, rfl⟩

theorem length_heads (h : Course owner dist rank s points) :
    (heads owner dist rank points).length = s.card := by
  classical
  have hnodup : (heads owner dist rank points).Nodup :=
    h.sorted_heads.imp fun hlt heq => absurd (heq ▸ hlt) (lt_irrefl _)
  rw [← List.toFinset_card_of_nodup hnodup]
  congr 1
  ext a
  rw [List.mem_toFinset, h.mem_heads_iff]

/-- **The first `n` owners met are the foremost.** -/
theorem foremost (h : Course owner dist rank s points) (n : ℕ) :
    Foremost rank s n ((heads owner dist rank points).take n) := by
  refine ⟨fun a ha => h.mem_heads_iff.mp (List.mem_of_mem_take ha),
    h.sorted_heads.sublist (List.take_sublist _ _), fun a ha b hb hbt => ?_, ?_⟩
  · have hsorted := h.sorted_heads
    have hb' := h.mem_heads_iff.mpr hb
    rw [← List.take_append_drop n (heads owner dist rank points)] at hsorted hb'
    exact (List.pairwise_append.mp hsorted).2.2 a ha b ((List.mem_append.mp hb').resolve_left hbt)
  · rw [List.length_take, h.length_heads]

end Course

end Walk
