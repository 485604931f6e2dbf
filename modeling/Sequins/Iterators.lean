import Sequins.Block
import Sequins.Machine
import Sequins.Threads

/-!
# Iterators

A lookup in a block needs a sparkey iterator, which is taken from a `sync.Pool` or opened, and which
the record that is found keeps for its reader; `Record.Close` puts it into the pool.
`iterMachine` interleaves any number of lookups and records of one block, step by step: `getIter`,
`Seek`, the look at the state of the iterator, and then any number of calls of `Close`. The pool may
drop what it has, and is not asked for a particular one.

As long as no record is closed twice, each iterator has one owner (`Single`): the pool, a lookup on
its way, or an open record, if it is not left to the garbage collector. But `Close` does not forget
the iterator, so a second call puts it into the pool once more, and then there may be two open
records on it.
-/

namespace Sequins

open Threads

/-! ## The machine

A lookup and the record it returns are one thread: the iterator passes from the one to the other.
`sync.Pool` may drop an iterator at any time, and may give out any that it has. -/

/-- Where a call of `get` stands, and then the record it returned. -/
inductive LookupStage where
  /-- before `getIter` -/
  | started
  /-- before `Seek` -/
  | holds (iter : ℕ)
  /-- before the look at the state of the iterator -/
  | sought (iter : ℕ)
  /-- it returned an error -/
  | failed
  /-- it returned nil -/
  | absent
  /-- it returned a record, which was closed so many times -/
  | record (iter closes : ℕ)
  deriving DecidableEq, Repr

namespace LookupStage

/-- A record that was closed is not open any more. -/
def owns : LookupStage → ℕ → Bool
  | .holds iter, it | .sought iter, it => iter == it
  | .record iter closes, it => iter == it && closes == 0
  | _, _ => false

def closes : LookupStage → ℕ
  | .record _ closes => closes
  | _ => 0

/-- The iterator that was moved to the key. -/
def positioned : LookupStage → Option ℕ
  | .sought iter => some iter
  | .record iter 0 => some iter
  | _ => none

/-- A lookup moves only its own iterator. -/
theorem owns_of_positioned {stage : LookupStage} {it : ℕ} (h : stage.positioned = some it) :
    stage.owns it = true := by
  cases stage with
  | sought iter =>
    obtain rfl := Option.some.inj h
    exact beq_self_eq_true _
  | record iter closes =>
    cases closes with
    | zero =>
      obtain rfl := Option.some.inj h
      simp [owns]
    | succ closes => cases h
  | _ => cases h

end LookupStage

/-- A call of `get`. -/
structure Lookup where
  /-- which one it is -/
  id : ℕ
  key : Bytes
  stage : LookupStage
  deriving DecidableEq, Repr

/-- The pool of a block, and its lookups. -/
structure IterPool where
  /-- the items of the `sync.Pool` -/
  pool : List ℕ
  /-- how many iterators were opened -/
  opened : ℕ
  /-- how many lookups were started -/
  started : ℕ
  lookups : List Lookup
  /-- the lookup that was the last to move an iterator, and its key -/
  position : ℕ → Option (ℕ × Bytes)
  /-- history: the iterators that were dropped by the pool, or after an error of `Seek` -/
  dropped : List ℕ

/-- How a step can turn out. -/
inductive LookupOutcome where
  /-- nothing goes wrong; in `getIter`, the pool returned nil and an iterator was opened -/
  | ok
  /-- the pool returned an iterator -/
  | pooled (iter : ℕ)
  /-- an error -/
  | fails
  deriving DecidableEq, Repr

/-- What can happen. -/
inductive IterEvent where
  /-- `get` is called -/
  | get (key : Bytes)
  /-- a lookup goes on, or its record is closed -/
  | go (l : Lookup) (outcome : LookupOutcome)
  /-- the pool drops an iterator -/
  | drop (iter : ℕ)

namespace IterPool

/-- Nothing was looked up. -/
def new : IterPool := ⟨[], 0, 0, [], fun _ => none, []⟩

def goesOn (s : IterPool) (l : Lookup) (stage : LookupStage) : IterPool :=
  { s with lookups := Threads.goesOn s.lookups l (some { l with stage := stage }) }

@[simp] theorem goesOn_pool (s : IterPool) (l : Lookup) (stage : LookupStage) :
    (s.goesOn l stage).pool = s.pool := rfl

@[simp] theorem goesOn_dropped (s : IterPool) (l : Lookup) (stage : LookupStage) :
    (s.goesOn l stage).dropped = s.dropped := rfl

/-- A lookup takes the next step; the one of a record is `Close`. -/
def advance (b : Block) (s : IterPool) (l : Lookup) (outcome : LookupOutcome) : Option IterPool :=
  match l.stage, outcome with
  | .started, .pooled iter =>
    if iter ∈ s.pool then some { s.goesOn l (.holds iter) with pool := s.pool.erase iter } else none
  | .started, .ok => some { s.goesOn l (.holds s.opened) with opened := s.opened + 1 }
  | .started, .fails => some (s.goesOn l .failed)
  | .holds iter, .ok =>
    some { s.goesOn l (.sought iter) with
      position := Function.update s.position iter (some (l.id, l.key)) }
  | .holds iter, .fails =>
    some { s.goesOn l .failed with
      position := Function.update s.position iter none
      dropped := iter :: s.dropped }
  | .sought iter, .ok =>
    if (b.reader.seek l.key).isSome then some (s.goesOn l (.record iter 0))
    else some { s.goesOn l .absent with pool := iter :: s.pool }
  | .record iter closes, .ok =>
    some { s.goesOn l (.record iter (closes + 1)) with pool := iter :: s.pool }
  | _, _ => none

/-- One event. -/
def act (b : Block) (s : IterPool) : IterEvent → Option IterPool
  | .get key =>
    some { s with
      started := s.started + 1
      lookups := ⟨s.started, key, .started⟩ :: s.lookups }
  | .go l outcome => if l ∈ s.lookups then s.advance b l outcome else none
  | .drop iter =>
    if iter ∈ s.pool then
      some { s with pool := s.pool.erase iter, dropped := iter :: s.dropped }
    else none

/-- Who has an iterator. -/
def owners (s : IterPool) (it : ℕ) : ℕ :=
  s.pool.count it + s.lookups.countP (fun l => l.stage.owns it) + s.dropped.count it

end IterPool

/-- Every interleaving of lookups in a block, with the records they return. -/
def iterMachine (b : Block) : Machine IterPool IterEvent := .ofStep .new (IterPool.act b)

/-! ## One owner

An iterator is in the pool, dropped, or with one lookup; `owners` counts these, and every step
moves an iterator from one of them to another, so the count stays. A second `Close` puts an
iterator into the pool that is not there to be given. Since records are closed from outside, this
is a condition on the run, and `ClosedOnce` says it of the state that is reached. -/

theorem count_cons_toNat (a b : ℕ) (l : List ℕ) :
    (b :: l).count a = l.count a + (b == a).toNat := by
  rw [List.count_cons]
  cases b == a <;> rfl

theorem countP_singleton_toNat {α : Type*} (p : α → Bool) (a : α) : [a].countP p = (p a).toNat := by
  rw [List.countP_singleton]
  cases p a <;> rfl

namespace IterPool

variable {b : Block} {s s' : IterPool} {l : Lookup} {outcome : LookupOutcome}

/-- The steps of a lookup, and of its record. -/
inductive Advances (b : Block) (s : IterPool) (l : Lookup) : IterPool → Prop
  | takes {iter : ℕ} (hstage : l.stage = .started) (hmem : iter ∈ s.pool) :
      Advances b s l { s.goesOn l (.holds iter) with pool := s.pool.erase iter }
  | opens (hstage : l.stage = .started) :
      Advances b s l { s.goesOn l (.holds s.opened) with opened := s.opened + 1 }
  | noIter (hstage : l.stage = .started) : Advances b s l (s.goesOn l .failed)
  | seeks {iter : ℕ} (hstage : l.stage = .holds iter) :
      Advances b s l { s.goesOn l (.sought iter) with
        position := Function.update s.position iter (some (l.id, l.key)) }
  | seekFails {iter : ℕ} (hstage : l.stage = .holds iter) :
      Advances b s l { s.goesOn l .failed with
        position := Function.update s.position iter none
        dropped := iter :: s.dropped }
  | finds {iter : ℕ} (hstage : l.stage = .sought iter) :
      Advances b s l (s.goesOn l (.record iter 0))
  | findsNothing {iter : ℕ} (hstage : l.stage = .sought iter) :
      Advances b s l { s.goesOn l .absent with pool := iter :: s.pool }
  | closes {iter closes : ℕ} (hstage : l.stage = .record iter closes) :
      Advances b s l { s.goesOn l (.record iter (closes + 1)) with pool := iter :: s.pool }

theorem advances_of_advance (hs : s.advance b l outcome = some s') : s.Advances b l s' := by
  unfold advance at hs
  split at hs
  · next hstage =>
    obtain ⟨hmem, hs⟩ := Option.ite_none_right_eq_some.mp hs
    exact Option.some.inj hs ▸ .takes hstage hmem
  · next hstage => exact Option.some.inj hs ▸ .opens hstage
  · next hstage => exact Option.some.inj hs ▸ .noIter hstage
  · next hstage => exact Option.some.inj hs ▸ .seeks hstage
  · next hstage => exact Option.some.inj hs ▸ .seekFails hstage
  · next hstage =>
    split at hs
    · exact Option.some.inj hs ▸ .finds hstage
    · exact Option.some.inj hs ▸ .findsNothing hstage
  · next hstage => exact Option.some.inj hs ▸ .closes hstage
  · cases hs

/-- No record is closed twice. -/
def ClosedOnce (s : IterPool) : Prop := ∀ l ∈ s.lookups, l.stage.closes ≤ 1

instance : DecidablePred ClosedOnce := fun s =>
  inferInstanceAs (Decidable (∀ l ∈ s.lookups, l.stage.closes ≤ 1))

/-- Each iterator that was opened has one owner, and is where that left it. -/
structure Single (s : IterPool) : Prop where
  owners : ∀ it, s.owners it = if it < s.opened then 1 else 0
  position : ∀ l ∈ s.lookups, ∀ it, l.stage.positioned = some it →
    s.position it = some (l.id, l.key)

theorem single_new : Single new := ⟨fun _ => rfl, by simp [new]⟩

namespace Single

variable (h : s.Single)
include h

/-- Nobody else has the iterator of a lookup. -/
theorem eq_false_of_mem_erase (hl : l ∈ s.lookups) {it : ℕ} (howns : l.stage.owns it = true)
    {l' : Lookup} (hl' : l' ∈ s.lookups.erase l) : l'.stage.owns it = false := by
  by_contra howns'
  have hone := h.owners it
  have hcount := (List.perm_cons_erase hl).countP_eq fun l => l.stage.owns it
  have hpos : 0 < (s.lookups.erase l).countP fun l => l.stage.owns it :=
    List.countP_pos_iff.mpr ⟨l', hl', by simpa using howns'⟩
  rw [List.countP_cons, if_pos howns] at hcount
  rw [IterPool.owners] at hone
  split at hone
  all_goals omega

/-- How many have an iterator after a step of a lookup. -/
theorem owners_goesOn (hl : l ∈ s.lookups) {stage : LookupStage}
    (hlookups : s'.lookups = (s.goesOn l stage).lookups) (it : ℕ) :
    s'.owners it + (s.pool.count it + s.dropped.count it + (l.stage.owns it).toNat) =
      (if it < s.opened then 1 else 0) +
        (s'.pool.count it + s'.dropped.count it + (stage.owns it).toNat) := by
  have hcount := countP_goesOn hl (some { l with stage := stage }) fun l => l.stage.owns it
  have hone := h.owners it
  rw [Option.toList_some, countP_singleton_toNat, countP_singleton_toNat] at hcount
  rw [IterPool.owners] at hone ⊢
  rw [hlookups, IterPool.goesOn, ← hone]
  dsimp only at hcount ⊢
  omega

/-- A step that opens no iterator gives away what it takes. -/
theorem balance (hl : l ∈ s.lookups) {stage : LookupStage}
    (hlookups : s'.lookups = (s.goesOn l stage).lookups) (hopened : s'.opened = s.opened)
    (hbalance : ∀ it, s'.pool.count it + s'.dropped.count it + (stage.owns it).toNat =
      s.pool.count it + s.dropped.count it + (l.stage.owns it).toNat) (it : ℕ) :
    s'.owners it = if it < s'.opened then 1 else 0 := by
  have howners := h.owners_goesOn hl hlookups it
  rw [hbalance it] at howners
  rw [hopened]
  exact Nat.add_right_cancel howners

/-- A step that opens an iterator takes that, too. -/
theorem opens (hl : l ∈ s.lookups) {stage : LookupStage}
    (hlookups : s'.lookups = (s.goesOn l stage).lookups) (hopened : s'.opened = s.opened + 1)
    (hbalance : ∀ it, s'.pool.count it + s'.dropped.count it + (stage.owns it).toNat =
      s.pool.count it + s.dropped.count it + (l.stage.owns it).toNat + (s.opened == it).toNat)
    (it : ℕ) : s'.owners it = if it < s'.opened then 1 else 0 := by
  have howners := h.owners_goesOn hl hlookups it
  have hone : (if it < s.opened then 1 else 0) + (s.opened == it).toNat =
      if it < s.opened + 1 then 1 else 0 := by
    rcases eq_or_ne it s.opened with rfl | hne
    · simp
    · have hlt : it < s.opened + 1 ↔ it < s.opened := by omega
      simp [hne.symm, hlt]
  rw [hbalance it] at howners
  rw [hopened, ← hone]
  omega

/-- A step that moves no iterator. -/
theorem position_goesOn (hl : l ∈ s.lookups) {stage : LookupStage}
    (hstage : ∀ it, stage.positioned = some it → l.stage.positioned = some it) :
    ∀ l' ∈ (s.goesOn l stage).lookups, ∀ it, l'.stage.positioned = some it →
      s.position it = some (l'.id, l'.key) := by
  intro l' hl' it hit
  obtain hself | hl' := mem_goesOn hl'
  · obtain rfl := Option.some.inj hself
    exact h.position l hl it (hstage it hit)
  · exact h.position l' (List.mem_of_mem_erase hl') it hit

/-- A step that moves the iterator of a lookup. -/
theorem position_update (hl : l ∈ s.lookups) {iter : ℕ} (howns : l.stage.owns iter = true)
    {stage : LookupStage} {p : Option (ℕ × Bytes)}
    (hstage : ∀ it, stage.positioned = some it → it = iter ∧ p = some (l.id, l.key)) :
    ∀ l' ∈ (s.goesOn l stage).lookups, ∀ it, l'.stage.positioned = some it →
      Function.update s.position iter p it = some (l'.id, l'.key) := by
  intro l' hl' it hit
  obtain hself | hl' := mem_goesOn hl'
  · obtain rfl := Option.some.inj hself
    obtain ⟨rfl, hp⟩ := hstage it hit
    rw [Function.update_self, hp]
  · have hne : it ≠ iter := by
      rintro rfl
      have hfalse := h.eq_false_of_mem_erase hl howns hl'
      rw [LookupStage.owns_of_positioned hit] at hfalse
      cases hfalse
    rw [Function.update_of_ne hne]
    exact h.position l' (List.mem_of_mem_erase hl') it hit

/-- **Every step keeps one owner**, except for a second `Close`. -/
theorem advance (hl : l ∈ s.lookups) (hs : s.Advances b l s') (hclosed : s'.ClosedOnce) :
    s'.Single := by
  cases hs with
  | @takes iter hstage hmem =>
    refine ⟨h.balance hl rfl rfl fun it => ?_, h.position_goesOn hl (by rintro it ⟨⟩)⟩
    have herase := (List.perm_cons_erase hmem).count_eq it
    rw [count_cons_toNat] at herase
    simp only [goesOn_dropped, hstage, LookupStage.owns, Bool.toNat_false]
    omega
  | opens hstage =>
    refine ⟨h.opens hl rfl rfl fun it => ?_, h.position_goesOn hl (by rintro it ⟨⟩)⟩
    rw [hstage]
    rfl
  | noIter hstage =>
    refine ⟨h.balance hl rfl rfl fun it => ?_, h.position_goesOn hl (by rintro it ⟨⟩)⟩
    rw [hstage]
    rfl
  | @seeks iter hstage =>
    have howns : l.stage.owns iter = true := by
      rw [hstage]
      exact beq_self_eq_true _
    refine ⟨h.balance hl rfl rfl fun it => ?_, h.position_update hl howns fun it hit => ?_⟩
    · rw [hstage]
      rfl
    · exact ⟨(Option.some.inj hit).symm, rfl⟩
  | @seekFails iter hstage =>
    have howns : l.stage.owns iter = true := by
      rw [hstage]
      exact beq_self_eq_true _
    refine ⟨h.balance hl rfl rfl fun it => ?_, h.position_update hl howns (by rintro it ⟨⟩)⟩
    simp only [goesOn_pool, hstage, LookupStage.owns, count_cons_toNat, Bool.toNat_false]
    omega
  | @finds iter hstage =>
    refine ⟨h.balance hl rfl rfl fun it => ?_, h.position_goesOn hl fun it hit => ?_⟩
    · simp only [goesOn_pool, goesOn_dropped, hstage, LookupStage.owns, beq_self_eq_true,
        Bool.and_true]
    · rw [hstage]
      exact hit
  | @findsNothing iter hstage =>
    refine ⟨h.balance hl rfl rfl fun it => ?_, h.position_goesOn hl (by rintro it ⟨⟩)⟩
    simp only [goesOn_dropped, hstage, LookupStage.owns, count_cons_toNat, Bool.toNat_false]
    omega
  | @closes iter closes hstage =>
    -- it is the first one
    have hfirst : closes = 0 := by
      have hle := hclosed { l with stage := .record iter (closes + 1) } (List.mem_cons_self ..)
      exact Nat.le_zero.mp (Nat.le_of_succ_le_succ hle)
    subst hfirst
    refine ⟨h.balance hl rfl rfl fun it => ?_, h.position_goesOn hl (by rintro it ⟨⟩)⟩
    have hshut : (LookupStage.record iter 1).owns it = false := Bool.and_false _
    have hopen : (LookupStage.record iter 0).owns it = (iter == it) := Bool.and_true _
    simp only [goesOn_dropped, hstage, hshut, hopen, count_cons_toNat, Bool.toNat_false]
    omega

/-- A lookup starts. -/
theorem get (key : Bytes) :
    Single { s with
      started := s.started + 1
      lookups := ⟨s.started, key, .started⟩ :: s.lookups } where
  owners it := h.owners it
  position := by
    intro l hl it hit
    obtain rfl | hl := List.mem_cons.mp hl
    · cases hit
    · exact h.position l hl it hit

/-- The pool drops an iterator. -/
theorem drop {iter : ℕ} (hmem : iter ∈ s.pool) :
    Single { s with pool := s.pool.erase iter, dropped := iter :: s.dropped } where
  owners it := by
    have hone := h.owners it
    have herase := (List.perm_cons_erase hmem).count_eq it
    rw [count_cons_toNat] at herase
    simp only [IterPool.owners, count_cons_toNat] at hone ⊢
    omega
  position := h.position

end Single

/-- What a step does to the lookups: one of them goes on, and its record is not opened again. -/
theorem Advances.lookups (hs : s.Advances b l s') :
    s'.started = s.started ∧ ∃ stage, s'.lookups = (s.goesOn l stage).lookups ∧
      l.stage.closes ≤ stage.closes := by
  cases hs with
  | closes hstage =>
    refine ⟨rfl, _, rfl, ?_⟩
    rw [hstage]
    exact Nat.le_succ _
  | takes hstage | opens hstage | noIter hstage | seeks hstage | seekFails hstage | finds hstage
  | findsNothing hstage =>
    refine ⟨rfl, _, rfl, ?_⟩
    rw [hstage]
    exact Nat.zero_le _

/-- What was closed once at the end was closed once before. -/
theorem Advances.closedOnce (hs : s.Advances b l s') (hclosed : s'.ClosedOnce) :
    s.ClosedOnce := by
  obtain ⟨-, stage, hlookups, hle⟩ := hs.lookups
  rw [ClosedOnce, hlookups] at hclosed
  intro l' hl'
  by_cases heq : l' = l
  · rw [heq]
    exact hle.trans (hclosed _ (List.mem_cons_self ..))
  · exact hclosed l' (List.mem_cons_of_mem _ ((List.mem_erase_of_ne heq).mpr hl'))

/-- **Each iterator has one owner**, as long as no record is closed twice. -/
theorem single_of_reachable (h : (iterMachine b).Reachable s) (hclosed : s.ClosedOnce) :
    s.Single := by
  revert hclosed
  refine h.invariant (P := fun s => s.ClosedOnce → s.Single) ?_ ?_
  · rintro s rfl -
    exact single_new
  · rintro s e s' - hsingle hs hclosed
    cases e with
    | get key =>
      obtain rfl := Option.some.inj hs
      exact (hsingle fun l hl => hclosed l (List.mem_cons_of_mem _ hl)).get key
    | go l outcome =>
      obtain ⟨hl, hs⟩ := Option.ite_none_right_eq_some.mp hs
      have hs := advances_of_advance hs
      exact (hsingle (hs.closedOnce hclosed)).advance hl hs hclosed
    | drop iter =>
      obtain ⟨hmem, hs⟩ := Option.ite_none_right_eq_some.mp hs
      obtain rfl := Option.some.inj hs
      exact (hsingle hclosed).drop hmem

/-- Lookups are told apart by their numbers. -/
theorem nodup_of_reachable (h : (iterMachine b).Reachable s) :
    (s.lookups.map Lookup.id).Nodup := by
  suffices hnumbered : (s.lookups.map Lookup.id).Nodup ∧
      ∀ id ∈ s.lookups.map Lookup.id, id < s.started from hnumbered.1
  refine h.invariant (P := fun s => (s.lookups.map Lookup.id).Nodup ∧
    ∀ id ∈ s.lookups.map Lookup.id, id < s.started) ?_ ?_
  · rintro s rfl
    exact ⟨List.nodup_nil, by simp [new]⟩
  · rintro s e s' - ⟨hnodup, hless⟩ hs
    cases e with
    | get key =>
      obtain rfl := Option.some.inj hs
      refine ⟨List.nodup_cons.mpr ⟨fun hmem => (hless _ hmem).false, hnodup⟩, ?_⟩
      rw [List.map_cons, List.forall_mem_cons]
      exact ⟨Nat.lt_succ_self _, fun id hid => (hless id hid).trans (Nat.lt_succ_self _)⟩
    | go l outcome =>
      obtain ⟨hl, hs⟩ := Option.ite_none_right_eq_some.mp hs
      obtain ⟨hstarted, stage, hlookups, -⟩ := (advances_of_advance hs).lookups
      have hperm : (s.lookups.map Lookup.id).Perm (s'.lookups.map Lookup.id) := by
        rw [hlookups]
        exact (List.perm_cons_erase hl).map Lookup.id
      rw [hstarted]
      exact ⟨hperm.nodup_iff.mp hnodup, fun id hid => hless id (hperm.mem_iff.mpr hid)⟩
    | drop iter =>
      obtain ⟨-, hs⟩ := Option.ite_none_right_eq_some.mp hs
      obtain rfl := Option.some.inj hs
      exact ⟨hnodup, hless⟩

/-- What is read from an iterator, where it is. -/
def reads (b : Block) (s : IterPool) (it : ℕ) : Option Record :=
  (s.position it).bind fun p => b.get' p.2

end IterPool

/-- **Iterators are not shared, if no record is closed twice.** Each iterator that was opened has
one owner: it is in the pool, or with one lookup, or with one open record, or it was dropped. And an
open record reads what its own lookup has found. -/
theorem iterators_never_shared (b : Block) (s : IterPool) (h : (iterMachine b).Reachable s)
    (hclosed : s.ClosedOnce) :
    (∀ it < s.opened, s.owners it = 1) ∧ (s.lookups.map Lookup.id).Nodup ∧
    ∀ l ∈ s.lookups, ∀ it, l.stage = .record it 0 →
      s.position it = some (l.id, l.key) ∧ s.reads b it = b.get' l.key := by
  have hsingle := IterPool.single_of_reachable h hclosed
  refine ⟨fun it hit => ?_, IterPool.nodup_of_reachable h, fun l hl it hstage => ?_⟩
  · rw [hsingle.owners, if_pos hit]
  · have hposition := hsingle.position l hl it (by rw [hstage]; rfl)
    exact ⟨hposition, by rw [IterPool.reads, hposition]; rfl⟩

/-- A block with two keys. -/
def twoKeys : Block := (newBlock 0 0).toBlock [([1], [10]), ([2], [20])]

/-- A lookup from its start to a record, with an iterator from the pool or a new one. -/
def lookupEvents (id : ℕ) (key : Bytes) (outcome : LookupOutcome) (iter : ℕ) : List IterEvent :=
  [.get key, .go ⟨id, key, .started⟩ outcome, .go ⟨id, key, .holds iter⟩ .ok,
    .go ⟨id, key, .sought iter⟩ .ok]

/-- What some events lead to. -/
def IterPool.after (es : List IterEvent) : IterPool :=
  (Machine.runEvents (IterPool.act twoKeys) .new es).getD .new

/-- A record is closed, and another one found with its iterator. -/
theorem iterators_never_shared_reused :
    (IterPool.after (lookupEvents 0 [1] .ok 0 ++ [.go ⟨0, [1], .record 0 0⟩ .ok] ++
      lookupEvents 1 [2] (.pooled 0) 0)).reads twoKeys 0 = some ⟨1, [20]⟩ :=
  ((iterators_never_shared twoKeys _
    (.run (.start rfl) (lookupEvents 0 [1] .ok 0 ++ [.go ⟨0, [1], .record 0 0⟩ .ok] ++
      lookupEvents 1 [2] (.pooled 0) 0) rfl) (by decide)).2.2 ⟨1, [2], .record 0 0⟩ (by decide) 0
    rfl).2.trans rfl

/-- A record is closed twice, and two others are found with its iterator. The first of them reads
what is the value of the second. -/
theorem shared_after_second_close :
    ∃ s, (iterMachine twoKeys).Reachable s ∧ ⟨1, [1], .record 0 0⟩ ∈ s.lookups ∧
      ⟨2, [2], .record 0 0⟩ ∈ s.lookups ∧ s.reads twoKeys 0 = twoKeys.get' [2] ∧
      twoKeys.get' [2] ≠ twoKeys.get' [1] :=
  ⟨_, .run (.start rfl) (lookupEvents 0 [1] .ok 0 ++
      [.go ⟨0, [1], .record 0 0⟩ .ok, .go ⟨0, [1], .record 0 1⟩ .ok] ++
      lookupEvents 1 [1] (.pooled 0) 0 ++ lookupEvents 2 [2] (.pooled 0) 0) rfl,
    by decide, by decide, rfl, by decide⟩

end Sequins
