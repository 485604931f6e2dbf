import Sequins.Machine
import Sequins.Threads

/-!
# The locks of a build

`version.build` takes three locks: that of the version, that of its db, and a slot of the
`multilock`, of which the process has as many as `MaxParallelLoads` says. Each `refresh` starts
another build of the version it finds, so there may be any number of them. `buildsMachine`
interleaves them, for any versions and dbs; the goroutine of `version.close` takes the lock of the
version, too.

The locks are taken one by one, with a look at `built` after the first, and given back in the
reverse order. What a call holds is a function of where it stands, and by the rules for `Mutexes`
and `Slots` every step keeps that the locks are held by those who have taken them (`Locked`). Who
finds that a version is not built keeps its lock until it has built it, so once it is built nobody
is left who has seen it otherwise: `Once`.
-/

namespace Sequins

open Threads

universe u v

/-! ## The machine -/

/-- Where a goroutine stands. -/
inductive CallStage where
  /-- `build`, before it takes the version's `buildLock` -/
  | called
  /-- `build`, before it looks at `built` -/
  | checks
  /-- `build`, before it takes the db's `buildLock` -/
  | waitsDB
  /-- `build`, before it takes the process's `buildLock`, if there is one -/
  | waitsSlot
  /-- `build`, past its locks, before it looks what is needed -/
  | plans
  /-- `build`, in `addFiles` -/
  | adds
  /-- `build`, before the first of its deferred calls of `Unlock` -/
  | unlocksSlot
  /-- before the second -/
  | unlocksDB
  /-- before the third -/
  | unlocksVersion
  /-- the goroutine of `version.close`, before it takes the version's `buildLock` -/
  | closing
  /-- the same, before it unlocks it -/
  | closes
  deriving DecidableEq, Repr

namespace CallStage

def holdsVersion : CallStage → Bool
  | .called | .closing => false
  | _ => true

def holdsDB : CallStage → Bool
  | .waitsSlot | .plans | .adds | .unlocksSlot | .unlocksDB => true
  | _ => false

/-- Past lock acquisition. -/
def holdsSlot : CallStage → Bool
  | .plans | .adds | .unlocksSlot => true
  | _ => false

/-- It has found that the version is not built, and may still build it. -/
def mayAdd : CallStage → Bool
  | .waitsDB | .waitsSlot | .plans | .adds => true
  | _ => false

/-! Locks are taken in this order. -/

/-- The lock of the version is taken first. -/
theorem holdsVersion_of_holdsSlot (stage : CallStage) (h : stage.holdsSlot = true) :
    stage.holdsVersion = true := by
  cases stage with
  | called | closing => cases h
  | _ => rfl

theorem holdsDB_of_holdsSlot (stage : CallStage) (h : stage.holdsSlot = true) :
    stage.holdsDB = true := by
  cases stage with
  | plans | adds | unlocksSlot => rfl
  | _ => cases h

end CallStage

/-- A goroutine, with the version it is about. -/
structure BuildCall (ν : Type u) where
  /-- the version -/
  version : ν
  /-- where it stands -/
  stage : CallStage
  deriving DecidableEq, Repr

/-- How a step of `build` can turn out. -/
inductive BuildOutcome where
  /-- nothing goes wrong; in `addFiles`, that is the end of it -/
  | ok
  /-- nothing is needed -/
  | nothingNeeded
  /-- `addFiles` adds a record to the block store -/
  | adds
  /-- an error, or the version is canceled -/
  | fails
  deriving DecidableEq, Repr

/-- What can happen. -/
inductive BuildEvent (ν : Type u) where
  /-- `switchVersion` or `refresh` starts `build` -/
  | build (v : ν)
  /-- `version.close` starts its goroutine -/
  | close (v : ν)
  /-- a goroutine goes on -/
  | go (c : BuildCall ν) (outcome : BuildOutcome)

/-- The goroutines and their locks. -/
structure Builds (ν : Type u) (δ : Type v) where
  /-- the goroutines -/
  calls : List (BuildCall ν)
  /-- the versions whose `buildLock` is locked -/
  versionLocks : Finset ν
  /-- the dbs whose `buildLock` is locked -/
  dbLocks : Finset δ
  /-- the length of the channel in the `multilock` -/
  slots : ℕ
  /-- the versions that are `built` -/
  built : Finset ν
  /-- history: how many records were added to the block store of a version -/
  added : ν → ℕ

namespace Builds

variable {ν : Type u} {δ : Type v} [DecidableEq ν] [DecidableEq δ]

/-- Nothing is going on; `multilock.New` has filled its channel. -/
def new (maxLoads : ℕ) : Builds ν δ := ⟨[], ∅, ∅, maxLoads, ∅, fun _ => 0⟩

/-- A goroutine goes on, or ends. -/
def goesOn (s : Builds ν δ) (c : BuildCall ν) (next : Option CallStage) : Builds ν δ :=
  { s with calls := Threads.goesOn s.calls c (next.map (BuildCall.mk c.version)) }

/-- A goroutine takes the next step. `Lock` blocks while a mutex is locked, or the channel of the
`multilock` is empty; `Unlock` blocks while the channel is full, and is fatal for a mutex that is
not locked. -/
def advance (db : ν → δ) (maxLoads : ℕ) (s : Builds ν δ) (c : BuildCall ν) :
    BuildOutcome → Option (Builds ν δ)
  | .ok =>
    match c.stage with
    | .called =>
      if c.version ∈ s.versionLocks then none
      else some { s.goesOn c (some .checks) with versionLocks := insert c.version s.versionLocks }
    | .checks =>
      some (s.goesOn c (some (if c.version ∈ s.built then .unlocksVersion else .waitsDB)))
    | .waitsDB =>
      if db c.version ∈ s.dbLocks then none
      else some { s.goesOn c (some .waitsSlot) with dbLocks := insert (db c.version) s.dbLocks }
    | .waitsSlot =>
      if maxLoads = 0 then some (s.goesOn c (some .plans))
      else if s.slots = 0 then none
      else some { s.goesOn c (some .plans) with slots := s.slots - 1 }
    | .plans => some (s.goesOn c (some .adds))
    | .adds => some { s.goesOn c (some .unlocksSlot) with built := insert c.version s.built }
    | .unlocksSlot =>
      if maxLoads = 0 then some (s.goesOn c (some .unlocksDB))
      else if s.slots < maxLoads then
        some { s.goesOn c (some .unlocksDB) with slots := s.slots + 1 }
      else none
    | .unlocksDB =>
      if db c.version ∈ s.dbLocks then
        some { s.goesOn c (some .unlocksVersion) with dbLocks := s.dbLocks.erase (db c.version) }
      else none
    | .unlocksVersion | .closes =>
      if c.version ∈ s.versionLocks then
        some { s.goesOn c none with versionLocks := s.versionLocks.erase c.version }
      else none
    | .closing =>
      if c.version ∈ s.versionLocks then none
      else some { s.goesOn c (some .closes) with versionLocks := insert c.version s.versionLocks }
  | .nothingNeeded =>
    if c.stage = .plans then
      some { s.goesOn c (some .unlocksSlot) with built := insert c.version s.built }
    else none
  | .adds =>
    if c.stage = .adds then
      some { s with added := Function.update s.added c.version (s.added c.version + 1) }
    else none
  | .fails =>
    if c.stage = .plans ∨ c.stage = .adds then some (s.goesOn c (some .unlocksSlot)) else none

/-- One event. -/
def act (db : ν → δ) (maxLoads : ℕ) (s : Builds ν δ) : BuildEvent ν → Option (Builds ν δ)
  | .build v => some { s with calls := ⟨v, .called⟩ :: s.calls }
  | .close v => some { s with calls := ⟨v, .closing⟩ :: s.calls }
  | .go c outcome => if c ∈ s.calls then s.advance db maxLoads c outcome else none

end Builds

/-- Every interleaving of builds of versions, each of which belongs to a db, in a process with that
`MaxParallelLoads`. -/
def buildsMachine {ν : Type u} {δ : Type v} [DecidableEq ν] [DecidableEq δ] (db : ν → δ)
    (maxLoads : ℕ) : Machine (Builds ν δ) (BuildEvent ν) :=
  .ofStep (.new maxLoads) (Builds.act db maxLoads)

/-! ## Who holds the locks

A lock that is locked is held by one goroutine, and a slot that is gone from the channel by one.
A step either leaves what its goroutine holds alone or takes or gives back a single lock; `keep`
covers the former, and the rules of `Mutexes` and `Slots` the latter. -/

namespace Builds

variable {ν : Type u} {δ : Type v} [DecidableEq ν] [DecidableEq δ] {db : ν → δ} {maxLoads : ℕ}
  {s s' : Builds ν δ} {c : BuildCall ν} {outcome : BuildOutcome}

/-- The locks are held by those who have taken them. -/
structure Locked (db : ν → δ) (maxLoads : ℕ) (s : Builds ν δ) : Prop where
  /-- the locks of versions -/
  version : Mutexes s.calls BuildCall.version (fun c => c.stage.holdsVersion) s.versionLocks
  /-- the locks of dbs -/
  db : Mutexes s.calls (fun c => db c.version) (fun c => c.stage.holdsDB) s.dbLocks
  /-- the slots of the process -/
  slot : 1 ≤ maxLoads → Slots s.calls (fun c => c.stage.holdsSlot) s.slots maxLoads

theorem locked_new : Locked db maxLoads (new maxLoads) := ⟨.nil, .nil, fun _ => .nil⟩

namespace Locked

variable (h : s.Locked db maxLoads)
include h

/-- A goroutine starts, without any lock. -/
theorem cons {c : BuildCall ν} (hc : c.stage = .called ∨ c.stage = .closing) :
    Locked db maxLoads { s with calls := c :: s.calls } := by
  obtain hc | hc := hc
  · exact ⟨h.version.cons (by rw [hc]; rfl), h.db.cons (by rw [hc]; rfl),
      fun hmax => (h.slot hmax).cons (by rw [hc]; rfl)⟩
  · exact ⟨h.version.cons (by rw [hc]; rfl), h.db.cons (by rw [hc]; rfl),
      fun hmax => (h.slot hmax).cons (by rw [hc]; rfl)⟩

/-- The locks of dbs, for a goroutine that goes on with what it holds. -/
theorem keep_db (hc : c ∈ s.calls) {stage : CallStage} (hstage : stage.holdsDB = c.stage.holdsDB) :
    Mutexes (s.goesOn c (some stage)).calls (fun c => db c.version) (fun c => c.stage.holdsDB)
      s.dbLocks :=
  h.db.keep hc rfl hstage

/-- The locks of versions. -/
theorem keep_version (hc : c ∈ s.calls) {stage : CallStage}
    (hstage : stage.holdsVersion = c.stage.holdsVersion) :
    Mutexes (s.goesOn c (some stage)).calls BuildCall.version (fun c => c.stage.holdsVersion)
      s.versionLocks :=
  h.version.keep hc rfl hstage

/-- The slots. -/
theorem keep_slot (hc : c ∈ s.calls) {next : Option CallStage}
    (hnext : next.elim false CallStage.holdsSlot = c.stage.holdsSlot) (hmax : 1 ≤ maxLoads) :
    Slots (s.goesOn c next).calls (fun c => c.stage.holdsSlot) s.slots maxLoads := by
  refine (h.slot hmax).keep hc ?_
  cases next with
  | none => simp [← hnext]
  | some stage => simp [← hnext]

/-- A goroutine goes on with what it holds. -/
theorem keep (hc : c ∈ s.calls) {stage : CallStage}
    (hversion : stage.holdsVersion = c.stage.holdsVersion)
    (hdb : stage.holdsDB = c.stage.holdsDB) (hslot : stage.holdsSlot = c.stage.holdsSlot) :
    Locked db maxLoads (s.goesOn c (some stage)) :=
  ⟨h.keep_version hc hversion, h.keep_db hc hdb, h.keep_slot hc hslot⟩

/-- **Every step keeps the locks with those who have taken them.** -/
theorem advance (hc : c ∈ s.calls) (hs : s.advance db maxLoads c outcome = some s') :
    s'.Locked db maxLoads := by
  obtain ⟨v, stage⟩ := c
  cases outcome with
  | ok =>
    cases stage with
    | called | closing =>
      obtain ⟨hfree, hs⟩ := Option.ite_none_left_eq_some.mp hs
      obtain rfl := Option.some.inj hs
      exact ⟨h.version.take hc rfl rfl rfl hfree, h.keep_db hc rfl, h.keep_slot hc rfl⟩
    | checks =>
      obtain rfl := Option.some.inj hs
      split
      · exact h.keep hc rfl rfl rfl
      · exact h.keep hc rfl rfl rfl
    | waitsDB =>
      obtain ⟨hfree, hs⟩ := Option.ite_none_left_eq_some.mp hs
      obtain rfl := Option.some.inj hs
      exact ⟨h.keep_version hc rfl, h.db.take hc rfl rfl rfl hfree, h.keep_slot hc rfl⟩
    | waitsSlot =>
      simp only [Builds.advance] at hs
      split_ifs at hs with hnil hfree
      · obtain rfl := Option.some.inj hs
        exact ⟨h.keep_version hc rfl, h.keep_db hc rfl, fun hmax => by omega⟩
      · obtain rfl := Option.some.inj hs
        exact ⟨h.keep_version hc rfl, h.keep_db hc rfl,
          fun hmax => (h.slot hmax).take hc rfl rfl hfree⟩
    | plans | adds =>
      obtain rfl := Option.some.inj hs
      exact ⟨h.keep_version hc rfl, h.keep_db hc rfl, h.keep_slot hc rfl⟩
    | unlocksSlot =>
      simp only [Builds.advance] at hs
      split_ifs at hs with hnil hroom
      · obtain rfl := Option.some.inj hs
        exact ⟨h.keep_version hc rfl, h.keep_db hc rfl, fun hmax => by omega⟩
      · obtain rfl := Option.some.inj hs
        exact ⟨h.keep_version hc rfl, h.keep_db hc rfl,
          fun hmax => (h.slot hmax).release hc rfl rfl⟩
    | unlocksDB =>
      obtain ⟨-, hs⟩ := Option.ite_none_right_eq_some.mp hs
      obtain rfl := Option.some.inj hs
      exact ⟨h.keep_version hc rfl, h.db.release hc rfl (by simp [CallStage.holdsDB]),
        h.keep_slot hc rfl⟩
    | unlocksVersion | closes =>
      obtain ⟨-, hs⟩ := Option.ite_none_right_eq_some.mp hs
      obtain rfl := Option.some.inj hs
      exact ⟨h.version.release hc rfl (by simp), h.db.ends hc rfl, h.keep_slot hc rfl⟩
  | nothingNeeded =>
    obtain ⟨rfl, hs⟩ := Option.ite_none_right_eq_some.mp hs
    obtain rfl := Option.some.inj hs
    exact ⟨h.keep_version hc rfl, h.keep_db hc rfl, h.keep_slot hc rfl⟩
  | adds =>
    obtain ⟨rfl, hs⟩ := Option.ite_none_right_eq_some.mp hs
    obtain rfl := Option.some.inj hs
    exact ⟨h.version, h.db, h.slot⟩
  | fails =>
    obtain ⟨hstage, hs⟩ := Option.ite_none_right_eq_some.mp hs
    obtain rfl := Option.some.inj hs
    obtain rfl | rfl := hstage
    · exact h.keep hc rfl rfl rfl
    · exact h.keep hc rfl rfl rfl

end Locked

/-- An event starts a goroutine without locks, or is a step of one. -/
theorem act_cases {e : BuildEvent ν} (hs : s.act db maxLoads e = some s') :
    (∃ c : BuildCall ν, (c.stage = .called ∨ c.stage = .closing) ∧
      s' = { s with calls := c :: s.calls }) ∨
      ∃ c ∈ s.calls, ∃ outcome, s.advance db maxLoads c outcome = some s' := by
  cases e with
  | build v => exact .inl ⟨⟨v, .called⟩, .inl rfl, (Option.some.inj hs).symm⟩
  | close v => exact .inl ⟨⟨v, .closing⟩, .inr rfl, (Option.some.inj hs).symm⟩
  | go c outcome =>
    obtain ⟨hc, hs⟩ := Option.ite_none_right_eq_some.mp hs
    exact .inr ⟨c, hc, outcome, hs⟩

theorem locked_of_reachable (h : (buildsMachine db maxLoads).Reachable s) :
    s.Locked db maxLoads := by
  refine Machine.Reachable.invariant (P := Locked db maxLoads) (fun s hs => ?_)
    (fun s e s' _ hlocked hs => ?_) h
  · rw [show s = new maxLoads from hs]
    exact locked_new
  · obtain ⟨c, hc, rfl⟩ | ⟨c, hc, outcome, hs⟩ := act_cases hs
    · exact hlocked.cons hc
    · exact hlocked.advance hc hs

/-- **Nobody is stuck with a lock.** A goroutine that has come to giving a lock back can do so. -/
theorem Locked.unlocks (h : s.Locked db maxLoads) (hc : c ∈ s.calls)
    (hstage : c.stage ∈ [.unlocksSlot, .unlocksDB, .unlocksVersion, .closes]) :
    ∃ s', s.advance db maxLoads c .ok = some s' := by
  obtain ⟨v, stage⟩ := c
  simp only [List.mem_cons, List.not_mem_nil, or_false] at hstage
  obtain rfl | rfl | rfl | rfl := hstage
  · by_cases hmax : maxLoads = 0
    · exact ⟨_, if_pos hmax⟩
    · have hroom := (h.slot (Nat.one_le_iff_ne_zero.mpr hmax)).lt_of_holds hc rfl
      exact ⟨_, (if_neg hmax).trans (if_pos hroom)⟩
  · exact ⟨_, if_pos (h.db.locked hc rfl)⟩
  · exact ⟨_, if_pos (h.version.locked hc rfl)⟩
  · exact ⟨_, if_pos (h.version.locked hc rfl)⟩

/-! ## What is built stays as it is

Whoever has found `built` false holds the lock of the version until it has built it. So a version
that is built has nobody left who `mayAdd`; a step that sets `built` is taken by the only
goroutine that held the lock. -/

/-- What a step has to do with `built`, and with the records: a record is added, or somebody goes on
who has not found the version to be built, or the version is built now. -/
inductive Effect (s : Builds ν δ) (c : BuildCall ν) (s' : Builds ν δ) : Prop
  | adds (stage : c.stage = .adds) (calls : s'.calls = s.calls) (built : s'.built = s.built)
      (added : s'.added = Function.update s.added c.version (s.added c.version + 1))
  | goesOn (next : Option CallStage) (calls : s'.calls = (s.goesOn c next).calls)
      (mayAdd : ∀ stage ∈ next, stage.mayAdd = true → c.version ∈ s.built → c.stage.mayAdd = true)
      (built : s'.built = s.built) (added : s'.added = s.added)
  | builds (stage : c.stage.holdsVersion = true)
      (calls : s'.calls = (s.goesOn c (some .unlocksSlot)).calls)
      (built : s'.built = insert c.version s.built) (added : s'.added = s.added)

theorem effect_of_advance (hs : s.advance db maxLoads c outcome = some s') : Effect s c s' := by
  obtain ⟨v, stage⟩ := c
  cases outcome with
  | ok =>
    cases stage with
    | called | closing | waitsDB =>
      obtain ⟨-, hs⟩ := Option.ite_none_left_eq_some.mp hs
      obtain rfl := Option.some.inj hs
      exact .goesOn _ rfl (by simp [CallStage.mayAdd]) rfl rfl
    | checks =>
      obtain rfl := Option.some.inj hs
      refine .goesOn _ rfl ?_ rfl rfl
      intro stage hstage hadd hbuilt
      obtain rfl := Option.some.inj hstage
      rw [if_pos hbuilt] at hadd
      cases hadd
    | waitsSlot =>
      simp only [advance] at hs
      split_ifs at hs
      · obtain rfl := Option.some.inj hs
        exact .goesOn _ rfl (by simp [CallStage.mayAdd]) rfl rfl
      · obtain rfl := Option.some.inj hs
        exact .goesOn (some .plans) rfl (by simp [CallStage.mayAdd]) rfl rfl
    | plans =>
      obtain rfl := Option.some.inj hs
      exact .goesOn _ rfl (by simp [CallStage.mayAdd]) rfl rfl
    | adds =>
      obtain rfl := Option.some.inj hs
      exact .builds rfl rfl rfl rfl
    | unlocksSlot =>
      simp only [advance] at hs
      split_ifs at hs
      · obtain rfl := Option.some.inj hs
        exact .goesOn _ rfl (by simp [CallStage.mayAdd]) rfl rfl
      · obtain rfl := Option.some.inj hs
        exact .goesOn (some .unlocksDB) rfl (by simp [CallStage.mayAdd]) rfl rfl
    | unlocksDB =>
      obtain ⟨-, hs⟩ := Option.ite_none_right_eq_some.mp hs
      obtain rfl := Option.some.inj hs
      exact .goesOn (some .unlocksVersion) rfl (by simp [CallStage.mayAdd]) rfl rfl
    | unlocksVersion | closes =>
      obtain ⟨-, hs⟩ := Option.ite_none_right_eq_some.mp hs
      obtain rfl := Option.some.inj hs
      exact .goesOn none rfl (by simp) rfl rfl
  | nothingNeeded =>
    obtain ⟨rfl, hs⟩ := Option.ite_none_right_eq_some.mp hs
    obtain rfl := Option.some.inj hs
    exact .builds rfl rfl rfl rfl
  | adds =>
    obtain ⟨rfl, hs⟩ := Option.ite_none_right_eq_some.mp hs
    obtain rfl := Option.some.inj hs
    exact .adds rfl rfl rfl rfl
  | fails =>
    obtain ⟨-, hs⟩ := Option.ite_none_right_eq_some.mp hs
    obtain rfl := Option.some.inj hs
    exact .goesOn _ rfl (by simp [CallStage.mayAdd]) rfl rfl

/-- Nobody is going to build a version that is built. -/
def Once (s : Builds ν δ) : Prop :=
  ∀ c ∈ s.calls, c.version ∈ s.built → c.stage.mayAdd = false

omit [DecidableEq ν] [DecidableEq δ] in
/-- Who starts has not looked yet. -/
theorem Once.cons (h : s.Once) {c : BuildCall ν} (hc : c.stage = .called ∨ c.stage = .closing) :
    Once { s with calls := c :: s.calls } := by
  intro c' hc' hbuilt
  obtain rfl | hc' := List.mem_cons.mp hc'
  · obtain hc | hc := hc
    · rw [hc]
      rfl
    · rw [hc]
      rfl
  · exact h c' hc' hbuilt

/-- The one who builds is alone with the lock of the version. -/
theorem Once.advance (h : s.Once) (hlocked : s.Locked db maxLoads) (hc : c ∈ s.calls)
    (hs : s.advance db maxLoads c outcome = some s') : s'.Once := by
  intro c' hc' hbuilt'
  cases effect_of_advance hs with
  | adds stage calls built =>
    rw [calls] at hc'
    rw [built] at hbuilt'
    exact h c' hc' hbuilt'
  | goesOn next calls mayAdd built =>
    rw [calls] at hc'
    rw [built] at hbuilt'
    obtain hnext | hold := mem_goesOn hc'
    · obtain ⟨stage, hstage, rfl⟩ := Option.map_eq_some_iff.mp hnext
      by_contra hadd
      have hadd' := mayAdd stage hstage (Bool.eq_true_of_not_eq_false hadd) hbuilt'
      rw [h c hc hbuilt'] at hadd'
      cases hadd'
    · exact h c' (List.mem_of_mem_erase hold) hbuilt'
  | builds stage calls built =>
    rw [calls] at hc'
    rw [built] at hbuilt'
    obtain hnext | hold := mem_goesOn hc'
    · obtain rfl := Option.some.inj hnext
      rfl
    · obtain hversion | hbuilt' := Finset.mem_insert.mp hbuilt'
      · -- whoever may add has the lock of the version, which `c` has
        have hfree := hlocked.version.exclusive hc stage hold hversion
        obtain ⟨v, stage'⟩ := c'
        cases stage' with
        | called | closing => rfl
        | _ => cases hfree
      · exact h c' (List.mem_of_mem_erase hold) hbuilt'

theorem once_of_reachable (h : (buildsMachine db maxLoads).Reachable s) : s.Once := by
  refine Machine.Reachable.invariant (P := Once) (fun s hs => ?_)
    (fun s e s' hreach honce hs => ?_) h
  · rw [show s = new maxLoads from hs]
    exact fun c hc => by cases hc
  · obtain ⟨c, hc, rfl⟩ | ⟨c, hc, outcome, hs⟩ := act_cases hs
    · exact honce.cons hc
    · exact honce.advance (locked_of_reachable hreach) hc hs

/-- What is built stays built, and gets no records. -/
theorem Once.step (h : s.Once) {e : BuildEvent ν} (hs : (buildsMachine db maxLoads).step s e s')
    {v : ν} (hv : v ∈ s.built) : v ∈ s'.built ∧ s'.added v = s.added v := by
  obtain ⟨c, hc, rfl⟩ | ⟨c, hc, outcome, hs⟩ := act_cases hs
  · exact ⟨hv, rfl⟩
  · cases effect_of_advance hs with
    | adds stage calls built added =>
      rw [built, added]
      refine ⟨hv, Function.update_of_ne ?_ _ _⟩
      rintro rfl
      have hadd := h c hc hv
      rw [stage] at hadd
      cases hadd
    | goesOn next calls mayAdd built added =>
      rw [built, added]
      exact ⟨hv, rfl⟩
    | builds stage calls built added =>
      rw [built, added]
      exact ⟨Finset.mem_insert_of_mem hv, rfl⟩

end Builds

/-- **Builds are serialised and run once.** Whatever builds are started, of whatever versions and
dbs, with a `MaxParallelLoads` of at least 1, at any time: the free slots and the builds that are
past the locks are together that many, so there are at most that many of these; they are builds of
different dbs, and so of different versions. And whatever happens after a version is built, no
record is added to it anymore. -/
theorem builds_serialised {ν : Type u} {δ : Type v} [DecidableEq ν] [DecidableEq δ] (db : ν → δ)
    (maxLoads : ℕ) (hmax : 1 ≤ maxLoads) {s : Builds ν δ}
    (h : (buildsMachine db maxLoads).Reachable s) :
    s.slots + s.calls.countP (fun c => c.stage.holdsSlot) = maxLoads ∧
      s.calls.countP (fun c => c.stage.holdsSlot) ≤ maxLoads ∧
      (∀ d, s.calls.countP (fun c => db c.version = d && c.stage.holdsSlot) ≤ 1) ∧
      (∀ v, s.calls.countP (fun c => c.version = v && c.stage.holdsSlot) ≤ 1) ∧
      ∀ v ∈ s.built, ∀ s', Relation.ReflTransGen
        (fun s s' => ∃ e, (buildsMachine db maxLoads).step s e s') s s' →
        v ∈ s'.built ∧ s'.added v = s.added v := by
  have hlocked := Builds.locked_of_reachable h
  have hslots : s.slots + s.calls.countP (fun c => c.stage.holdsSlot) = maxLoads :=
    hlocked.slot hmax
  refine ⟨hslots, by omega, ?_, ?_, ?_⟩
  · apply hlocked.db.countP_le_one
    intro c hc
    exact c.stage.holdsDB_of_holdsSlot hc
  · apply hlocked.version.countP_le_one
    intro c hc
    exact c.stage.holdsVersion_of_holdsSlot hc
  · intro v hv s' hrun
    have hrun' : (buildsMachine db maxLoads).Reachable s' ∧ v ∈ s'.built ∧
        s'.added v = s.added v := by
      induction hrun with
      | refl => exact ⟨h, hv, rfl⟩
      | tail _ hs ih =>
        obtain ⟨e, hs⟩ := hs
        obtain ⟨hreach, hv, hadded⟩ := ih
        obtain ⟨hv', hadded'⟩ := (Builds.once_of_reachable hreach).step hs hv
        exact ⟨hreach.step hs, hv', hadded'.trans hadded⟩
    exact hrun'.2

/-- Version `0` is built, while another call of `build` waits for it. -/
def buildsZero : List (BuildEvent ℕ) :=
  [.build 0, .build 0, .go ⟨0, .called⟩ .ok, .go ⟨0, .checks⟩ .ok, .go ⟨0, .waitsDB⟩ .ok,
    .go ⟨0, .waitsSlot⟩ .ok, .go ⟨0, .plans⟩ .ok, .go ⟨0, .adds⟩ .adds, .go ⟨0, .adds⟩ .ok]

/-- Version `1`, of another db, takes the second slot. -/
def buildsOne : List (BuildEvent ℕ) :=
  [.build 1, .go ⟨1, .called⟩ .ok, .go ⟨1, .checks⟩ .ok, .go ⟨1, .waitsDB⟩ .ok,
    .go ⟨1, .waitsSlot⟩ .ok]

/-- Two slots, both taken. -/
theorem builds_serialised_two :
    ∃ s : Builds ℕ ℕ, (buildsMachine id 2).Reachable s ∧ 0 ∈ s.built ∧ s.added 0 = 1 ∧
      s.slots = 0 ∧ s.calls.countP (fun c => c.stage.holdsSlot) ≤ 2 ∧
      ∀ s', Relation.ReflTransGen (fun s s' => ∃ e, (buildsMachine id 2).step s e s') s s' →
        s'.added 0 = 1 := by
  have hreach : (buildsMachine (ν := ℕ) id 2).Reachable _ :=
    .run (.start rfl) (buildsZero ++ buildsOne) rfl
  obtain ⟨-, hle, -, -, honce⟩ := builds_serialised id 2 (Nat.le_succ 1) hreach
  refine ⟨_, hreach, by decide, rfl, rfl, hle, fun s' hrun => ?_⟩
  exact (honce 0 (by decide) s' hrun).2

end Sequins
