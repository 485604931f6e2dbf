import Mathlib.Data.Finset.Erase
import Mathlib.Data.Finset.Insert
import Mathlib.Data.List.Count

/-!
# Threads and locks

A program with any number of threads, as the list of what they are at, in no particular order. A
step takes one thread to what it does next, or ends it (`Threads.goesOn`); what a step does to the
number of threads of some kind is one equation (`Threads.countP_goesOn`).

The locks that threads take are kept apart from the threads themselves. That they belong together is
an invariant: of a family of mutexes, that each is locked exactly if there is a thread that holds
it, and then there is one (`Mutexes`); of a lock with several slots, that the free ones and the
holders make up all of them (`Slots`). For both there is a rule for a step that takes the lock, one
for a step that gives it back, and one for a step that does neither.
-/

universe u v

namespace Threads

variable {α : Type u} [DecidableEq α] {l : List α} {t : α}

/-- A thread goes on, or ends. -/
def goesOn (l : List α) (t : α) (next : Option α) : List α := next.toList ++ l.erase t

theorem mem_goesOn {next : Option α} {x : α} (hx : x ∈ goesOn l t next) :
    next = some x ∨ x ∈ l.erase t := by
  obtain hx | hx := List.mem_append.mp hx
  · exact .inl (Option.mem_toList.mp hx)
  · exact .inr hx

/-- How a thread that goes on counts. -/
theorem countP_goesOn (ht : t ∈ l) (next : Option α) (p : α → Bool) :
    (goesOn l t next).countP p + [t].countP p = l.countP p + next.toList.countP p := by
  rw [goesOn, List.countP_append, (List.perm_cons_erase ht).countP_eq p]
  simp only [List.countP_cons, List.countP_nil]
  omega

/-! ## Mutexes

Mutexes are told apart by a key, and a thread holds at most the one of its own key. Whether it
does is a function of what it is at, so taking and releasing are moves of the thread. -/

section Mutexes

variable {κ : Type v} [DecidableEq κ] {key : α → κ} {holds : α → Bool} {locks : Finset κ}

/-- A mutex for each key. Those that are locked are held by one thread each, the others by none. -/
def Mutexes (l : List α) (key : α → κ) (holds : α → Bool) (locks : Finset κ) : Prop :=
  ∀ k, l.countP (fun t => key t = k && holds t) = if k ∈ locks then 1 else 0

namespace Mutexes

omit [DecidableEq α] in
theorem nil : Mutexes ([] : List α) key holds ∅ := fun _ => rfl

omit [DecidableEq α] in
theorem cons (h : Mutexes l key holds locks) {t : α} (ht : holds t = false) :
    Mutexes (t :: l) key holds locks := by
  intro k
  rw [List.countP_cons_of_neg (by simp [ht]), h k]

/-- A thread goes on with what it holds. -/
theorem keep (h : Mutexes l key holds locks) (ht : t ∈ l) {t' : α} (hkey : key t' = key t)
    (hholds : holds t' = holds t) : Mutexes (goesOn l t (some t')) key holds locks := by
  intro k
  have hcount := countP_goesOn ht (some t') fun t => key t = k && holds t
  rw [Option.toList_some, List.countP_singleton, List.countP_singleton, hkey, hholds] at hcount
  rw [← h k]
  omega

/-- A thread ends that holds nothing. -/
theorem ends (h : Mutexes l key holds locks) (ht : t ∈ l) (hholds : holds t = false) :
    Mutexes (goesOn l t none) key holds locks := by
  intro k
  have hcount := countP_goesOn ht none fun t => key t = k && holds t
  rw [Option.toList_none, List.countP_nil, List.countP_singleton, hholds, Bool.and_false] at hcount
  rw [← h k]
  exact hcount

/-- A thread takes a mutex that is not locked. -/
theorem take (h : Mutexes l key holds locks) (ht : t ∈ l) {t' : α} (hkey : key t' = key t)
    (hholds : holds t = false) (hholds' : holds t' = true) (hfree : key t ∉ locks) :
    Mutexes (goesOn l t (some t')) key holds (insert (key t) locks) := by
  intro k
  have hcount := countP_goesOn ht (some t') fun t => key t = k && holds t
  rw [Option.toList_some, List.countP_singleton, List.countP_singleton, hkey, hholds, hholds',
    h k] at hcount
  by_cases hk : key t = k
  · subst hk
    rw [if_neg hfree] at hcount
    rw [if_pos (Finset.mem_insert_self ..)]
    simpa using hcount
  · have hmem : k ∈ insert (key t) locks ↔ k ∈ locks := by
      rw [Finset.mem_insert, or_iff_right (Ne.symm hk)]
    simpa [hk, hmem] using hcount

omit [DecidableEq α] in
/-- Who holds a mutex has locked it. -/
theorem locked (h : Mutexes l key holds locks) (ht : t ∈ l) (hholds : holds t = true) :
    key t ∈ locks := by
  by_contra hnot
  have hcount := h (key t)
  rw [if_neg hnot, List.countP_eq_zero] at hcount
  exact hcount t ht (by simp [hholds])

/-- A thread unlocks the mutex it holds, and goes on or ends. -/
theorem release (h : Mutexes l key holds locks) (ht : t ∈ l) {next : Option α}
    (hholds : holds t = true) (hnext : ∀ t' ∈ next, holds t' = false) :
    Mutexes (goesOn l t next) key holds (locks.erase (key t)) := by
  intro k
  have hcount := countP_goesOn ht next fun t => key t = k && holds t
  have hnone : next.toList.countP (fun t => key t = k && holds t) = 0 := by
    rw [List.countP_eq_zero]
    intro t' ht'
    simp [hnext t' (Option.mem_toList.mp ht')]
  rw [hnone, List.countP_singleton, hholds, h k] at hcount
  by_cases hk : key t = k
  · subst hk
    rw [if_pos (h.locked ht hholds)] at hcount
    rw [if_neg (Finset.notMem_erase _ _)]
    simpa using hcount
  · have hmem : k ∈ locks.erase (key t) ↔ k ∈ locks := by
      rw [Finset.mem_erase, and_iff_right (Ne.symm hk)]
    simpa [hk, hmem] using hcount

/-- **Nobody else holds it.** -/
theorem exclusive (h : Mutexes l key holds locks) (ht : t ∈ l) (hholds : holds t = true) {t' : α}
    (ht' : t' ∈ l.erase t) (hkey : key t' = key t) : holds t' = false := by
  have hcount := h (key t)
  rw [(List.perm_cons_erase ht).countP_eq, List.countP_cons_of_pos (by simp [hholds]),
    if_pos (h.locked ht hholds), Nat.add_eq_right, List.countP_eq_zero] at hcount
  simpa [hkey] using hcount t' ht'

omit [DecidableEq α] in
/-- At most one of the threads with a key is one of those that hold its mutex. -/
theorem countP_le_one (h : Mutexes l key holds locks) {p : α → Bool}
    (hp : ∀ t, p t = true → holds t = true) (k : κ) :
    l.countP (fun t => key t = k && p t) ≤ 1 := by
  have hle : l.countP (fun t => key t = k && p t) ≤ l.countP fun t => key t = k && holds t := by
    refine List.countP_mono_left fun t _ ht => ?_
    rw [Bool.and_eq_true] at ht ⊢
    exact ⟨ht.1, hp t ht.2⟩
  rw [h k] at hle
  split at hle <;> omega

end Mutexes

end Mutexes

/-! ## Slots -/

section Slots

variable {holds : α → Bool} {free n : ℕ}

/-- A lock with `n` slots, each free or held. -/
def Slots (l : List α) (holds : α → Bool) (free n : ℕ) : Prop := free + l.countP holds = n

namespace Slots

omit [DecidableEq α] in
theorem nil : Slots ([] : List α) holds n n := rfl

omit [DecidableEq α] in
theorem cons (h : Slots l holds free n) {t : α} (ht : holds t = false) :
    Slots (t :: l) holds free n := by
  rw [Slots, List.countP_cons_of_neg (by simp [ht])]
  exact h

/-- A thread goes on, or ends, with what it holds. -/
theorem keep (h : Slots l holds free n) (ht : t ∈ l) {next : Option α}
    (hnext : next.toList.countP holds = [t].countP holds) :
    Slots (goesOn l t next) holds free n := by
  have hcount := countP_goesOn ht next holds
  rw [Slots] at h ⊢
  omega

/-- A thread takes a free slot. -/
theorem take (h : Slots l holds free n) (ht : t ∈ l) {t' : α} (hholds : holds t = false)
    (hholds' : holds t' = true) (hfree : free ≠ 0) :
    Slots (goesOn l t (some t')) holds (free - 1) n := by
  have hcount := countP_goesOn ht (some t') holds
  rw [Option.toList_some, List.countP_singleton, List.countP_singleton, hholds, hholds'] at hcount
  rw [Slots] at h ⊢
  simp at hcount
  omega

/-- A thread gives its slot back. -/
theorem release (h : Slots l holds free n) (ht : t ∈ l) {t' : α} (hholds : holds t = true)
    (hholds' : holds t' = false) : Slots (goesOn l t (some t')) holds (free + 1) n := by
  have hcount := countP_goesOn ht (some t') holds
  rw [Option.toList_some, List.countP_singleton, List.countP_singleton, hholds, hholds'] at hcount
  rw [Slots] at h ⊢
  simp at hcount
  omega

omit [DecidableEq α] in
/-- There is room for the slot that a thread gives back. -/
theorem lt_of_holds (h : Slots l holds free n) (ht : t ∈ l) (hholds : holds t = true) :
    free < n := by
  have hpos : 0 < l.countP holds := List.countP_pos_iff.mpr ⟨t, ht, hholds⟩
  rw [Slots] at h
  omega

end Slots

end Slots

end Threads
