import Sequins.GoMap
import Sequins.HashCode
import Sequins.Machine
import Mathlib.Data.List.Count

/-!
# The version multiplexer

`version_mux.go`: the versions of a db by name, which of them is current, and how many
requests are using each. Every method but `remove` is one critical section, a function on
`Mux` here. `remove` marks, arms a timer, waits for it, deletes and waits for the
references in separate critical sections; they are the stages of a `RemoveCall`.

Entries of the map are values in the source: `remove` changes a copy and only sometimes
stores it back. What the copies share is the wait group, which is therefore kept by its
address. `Mux.Known` says that addresses are not mixed up: each entry, wherever a copy of
it is, has the wait group its version was prepared with.

`muxMachine` interleaves the methods. A version's count is then the number of its
unreleased references plus the number of references that were released too late: once
`remove` has taken the version out of the map, `release` no longer finds the wait group
(`count_eq_unreleased_iff`).
-/

namespace Sequins

/-! ## The data -/

/-- A pointer to a version object, with the name of that version. -/
structure VersionRef where
  /-- the address -/
  id : ℕ
  /-- `name` -/
  name : Bytes
  deriving DecidableEq, Repr

/-- `versionReferenceCount`. -/
structure Entry where
  /-- the version -/
  version : VersionRef
  /-- the address of its wait group -/
  count : ℕ
  /-- there is a timer, which requests reset -/
  closeTimer : Bool
  /-- `removing` -/
  removing : Bool
  deriving DecidableEq, Repr

/-- The version of an entry with its wait group: what copies of an entry agree on. -/
def Entry.pair (e : Entry) : VersionRef × ℕ := (e.version, e.count)

/-- `versionMux`. -/
structure Mux where
  /-- the prepared versions, by name -/
  versions : AList fun _ : Bytes => Entry
  /-- the version that serves clients -/
  currentVersion : Option Entry
  /-- the counters of the wait groups -/
  counts : ℕ → ℕ
  /-- the next free address for a wait group -/
  nextCount : ℕ
  /-- history: what was prepared, each with its wait group -/
  prepared : List (VersionRef × ℕ)

/-- The panics of the multiplexer. -/
inductive Panic where
  /-- `version already prepared` -/
  | alreadyPrepared (name : Bytes)
  /-- `version doesn't exist` -/
  | doesNotExist (name : Bytes)
  /-- `somehow got another reference to the same version` -/
  | anotherReference (name : Bytes)
  /-- a wait group's `negative WaitGroup counter` -/
  | negativeCounter
  /-- `close of closed channel`, from `version.close` -/
  | closeOfClosedChannel
  deriving DecidableEq, Repr

namespace Mux

/-- `newVersionMux`. -/
def new : Mux := ⟨∅, none, fun _ => 0, 0, []⟩

/-- `Add(1)` on the wait group of an entry, if one was found, and the version in it.
Resetting the timer only postpones when it fires, which is arbitrary anyway. -/
def acquire (m : Mux) : Option Entry → Mux × Option VersionRef
  | none => (m, none)
  | some vs =>
    ({ m with counts := Function.update m.counts vs.count (m.counts vs.count + 1) },
      some vs.version)

/-- `getCurrent`. -/
def getCurrent (m : Mux) : Mux × Option VersionRef := m.acquire m.currentVersion

/-- `getVersion`. -/
def getVersion (m : Mux) (name : Bytes) : Mux × Option VersionRef :=
  m.acquire (m.versions.lookup name)

/-- `getAll`. -/
def getAll (m : Mux) (order : IterOrder (Σ _ : Bytes, Entry)) : List VersionRef :=
  (order.arrange m.versions.entries).map fun e => e.2.version

/-- `release`: the wait group is looked up by the version's name. -/
def release (m : Mux) : Option VersionRef → Except Panic Mux
  | none => .ok m
  | some v =>
    match m.versions.lookup v.name with
    | none => .ok m
    | some vs =>
      if m.counts vs.count = 0 then
        .error .negativeCounter
      else
        .ok { m with counts := Function.update m.counts vs.count (m.counts vs.count - 1) }

/-- `prepare`. -/
def prepare (m : Mux) (v : VersionRef) : Except Panic Mux :=
  match m.versions.lookup v.name with
  | some _ => .error (.alreadyPrepared v.name)
  | none =>
    .ok {
      versions := m.versions.insert v.name ⟨v, m.nextCount, false, false⟩
      currentVersion := m.currentVersion
      counts := Function.update m.counts m.nextCount 0
      nextCount := m.nextCount + 1
      prepared := (v, m.nextCount) :: m.prepared }

/-- `mustGet`. -/
def mustGet (m : Mux) (v : VersionRef) : Except Panic Entry :=
  match m.versions.lookup v.name with
  | none => .error (.doesNotExist v.name)
  | some vs => if vs.version ≠ v then .error (.anotherReference v.name) else .ok vs

/-- `upgrade`. -/
def upgrade (m : Mux) (v : VersionRef) : Except Panic Mux :=
  match m.mustGet v with
  | .error p => .error p
  | .ok vs => .ok { m with currentVersion := some vs }

/-! The critical sections of `remove`. -/

/-- The first: nil if there is nothing to remove, and otherwise a copy of the entry, marked.
The entry in the map is not changed. -/
def markRemoving (m : Mux) (v : VersionRef) : Option Entry :=
  match m.versions.lookup v.name with
  | none => none
  | some vs => if vs.removing then none else some { vs with removing := true }

/-- The second, only if `remove` should wait: the copy gets a timer and is stored. -/
def armTimer (m : Mux) (v : VersionRef) (vs : Entry) : Mux :=
  { m with versions := m.versions.insert v.name vs }

/-- The third. -/
def delete (m : Mux) (v : VersionRef) : Mux := { m with versions := m.versions.erase v.name }

end Mux

/-- Where a call of `remove` stands. -/
inductive RemoveStage where
  /-- before the first critical section -/
  | called
  /-- the copy is marked -/
  | marked (vs : Entry)
  /-- waiting for the timer -/
  | armed (vs : Entry)
  /-- before the entry is deleted -/
  | expired (vs : Entry)
  /-- waiting for the references -/
  | deleted (vs : Entry)
  deriving DecidableEq, Repr

/-- The entry a call of `remove` has a copy of. -/
def RemoveStage.entry : RemoveStage → Option Entry
  | .called => none
  | .marked vs => some vs
  | .armed vs => some vs
  | .expired vs => some vs
  | .deleted vs => some vs

/-- A call of `remove`. -/
structure RemoveCall where
  /-- the version to be removed -/
  version : VersionRef
  /-- `shouldWait` -/
  shouldWait : Bool
  /-- how far it has come -/
  stage : RemoveStage
  deriving DecidableEq, Repr

/-- What the next action of a call of `remove` leads to. -/
inductive RemoveOutcome where
  /-- the call goes on -/
  | next (m : Mux) (stage : RemoveStage)
  /-- the call returns nil -/
  | returnsNil
  /-- the call returns the version it was called with -/
  | returnsVersion
  /-- the wait group is not at zero -/
  | blocked

/-- The next action of a call of `remove`. The timer may fire at any moment. -/
def RemoveCall.advance (call : RemoveCall) (m : Mux) : RemoveOutcome :=
  match call.stage with
  | .called =>
    match m.markRemoving call.version with
    | none => .returnsNil
    | some vs => .next m (if call.shouldWait then .marked vs else .expired vs)
  | .marked vs =>
    .next (m.armTimer call.version { vs with closeTimer := true })
      (.armed { vs with closeTimer := true })
  | .armed vs => .next m (.expired vs)
  | .expired vs => .next (m.delete call.version) (.deleted vs)
  | .deleted vs => if m.counts vs.count = 0 then .returnsVersion else .blocked

namespace Mux

variable {m m' : Mux} {v : VersionRef} {e : Entry}

/-! ## What each method does -/

@[simp] theorem acquire_versions (oe : Option Entry) : (m.acquire oe).1.versions = m.versions := by
  cases oe <;> rfl

@[simp] theorem acquire_currentVersion (oe : Option Entry) :
    (m.acquire oe).1.currentVersion = m.currentVersion := by
  cases oe <;> rfl

@[simp] theorem acquire_nextCount (oe : Option Entry) :
    (m.acquire oe).1.nextCount = m.nextCount := by
  cases oe <;> rfl

@[simp] theorem acquire_prepared (oe : Option Entry) :
    (m.acquire oe).1.prepared = m.prepared := by
  cases oe <;> rfl

theorem acquire_snd (oe : Option Entry) : (m.acquire oe).2 = oe.map Entry.version := by
  cases oe <;> rfl

/-- A release finds no entry and does nothing, or takes one off the count of the entry it
finds. -/
theorem release_cases (h : m.release (some v) = .ok m') :
    (m.versions.lookup v.name = none ∧ m' = m) ∨
      ∃ e, m.versions.lookup v.name = some e ∧ 0 < m.counts e.count ∧
        m' = { m with counts := Function.update m.counts e.count (m.counts e.count - 1) } := by
  rw [release] at h
  rcases he : m.versions.lookup v.name with _ | e
  · rw [he] at h
    exact .inl ⟨rfl, (Except.ok.inj h).symm⟩
  · simp only [he] at h
    by_cases hzero : m.counts e.count = 0
    · rw [if_pos hzero] at h
      cases h
    · rw [if_neg hzero] at h
      exact .inr ⟨e, rfl, Nat.pos_of_ne_zero hzero, (Except.ok.inj h).symm⟩

/-- The only panic of `release` is that of the wait group. -/
theorem release_error {v : Option VersionRef} {p : Panic} (h : m.release v = .error p) :
    p = .negativeCounter := by
  cases v with
  | none => cases h
  | some v =>
    rw [release] at h
    split at h
    · cases h
    · split at h
      · exact (Except.error.inj h).symm
      · cases h

/-- A release only changes counts. -/
theorem release_frame {v : Option VersionRef} (h : m.release v = .ok m') :
    m'.versions = m.versions ∧ m'.currentVersion = m.currentVersion ∧
      m'.nextCount = m.nextCount ∧ m'.prepared = m.prepared := by
  cases v with
  | none =>
    obtain rfl := Except.ok.inj h
    exact ⟨rfl, rfl, rfl, rfl⟩
  | some v =>
    obtain ⟨-, rfl⟩ | ⟨e, -, -, rfl⟩ := release_cases h
    · exact ⟨rfl, rfl, rfl, rfl⟩
    · exact ⟨rfl, rfl, rfl, rfl⟩

/-- A name that is there already is a panic. -/
theorem prepare_cases (h : m.prepare v = .ok m') :
    m.versions.lookup v.name = none ∧
      m' = {
        versions := m.versions.insert v.name ⟨v, m.nextCount, false, false⟩
        currentVersion := m.currentVersion
        counts := Function.update m.counts m.nextCount 0
        nextCount := m.nextCount + 1
        prepared := (v, m.nextCount) :: m.prepared } := by
  rw [prepare] at h
  rcases he : m.versions.lookup v.name with _ | e
  · rw [he] at h
    exact ⟨rfl, (Except.ok.inj h).symm⟩
  · rw [he] at h
    cases h

/-- The entry is found under the name, and its pointer is compared. -/
theorem mustGet_eq_ok :
    m.mustGet v = .ok e ↔ m.versions.lookup v.name = some e ∧ e.version = v := by
  rw [mustGet]
  rcases m.versions.lookup v.name with _ | e'
  · simp
  · by_cases hv : e'.version = v
    · simp only [ne_eq, hv, not_true_eq_false, if_false, Except.ok.injEq, Option.some.injEq]
      constructor
      · rintro rfl
        exact ⟨rfl, hv⟩
      · exact And.left
    · simp only [ne_eq, hv, not_false_eq_true, if_true, Option.some.injEq, reduceCtorEq, false_iff]
      rintro ⟨rfl, hv'⟩
      exact hv hv'

/-- The current version is a copy of the entry. -/
theorem upgrade_cases (h : m.upgrade v = .ok m') :
    ∃ e, m.versions.lookup v.name = some e ∧ e.version = v ∧
      m' = { m with currentVersion := some e } := by
  rw [upgrade] at h
  rcases he : m.mustGet v with p | e
  · rw [he] at h
    cases h
  · rw [he] at h
    obtain ⟨hlook, hv⟩ := mustGet_eq_ok.mp he
    exact ⟨e, hlook, hv, (Except.ok.inj h).symm⟩

/-- The mark is on the copy that is returned, and not on the entry. -/
theorem markRemoving_cases (h : m.markRemoving v = some e) :
    ∃ vs, m.versions.lookup v.name = some vs ∧ e = { vs with removing := true } := by
  rw [markRemoving] at h
  rcases hvs : m.versions.lookup v.name with _ | vs
  · rw [hvs] at h
    cases h
  · rw [hvs] at h
    by_cases hrem : vs.removing = true
    · simp [hrem] at h
    · simp only [hrem] at h
      exact ⟨vs, rfl, (Option.some.inj h).symm⟩

end Mux

/-- What a call of `remove` can do next. -/
theorem RemoveCall.advance_next {call : RemoveCall} {m m' : Mux} {stage : RemoveStage}
    (h : call.advance m = .next m' stage) :
    (∃ vs, call.stage = .called ∧ m.versions.lookup call.version.name = some vs ∧ m' = m ∧
        (stage = .marked { vs with removing := true } ∨
          stage = .expired { vs with removing := true })) ∨
      (∃ vs, call.stage = .marked vs ∧
        m' = m.armTimer call.version { vs with closeTimer := true } ∧
        stage = .armed { vs with closeTimer := true }) ∨
      (∃ vs, call.stage = .armed vs ∧ m' = m ∧ stage = .expired vs) ∨
      (∃ vs, call.stage = .expired vs ∧ m' = m.delete call.version ∧ stage = .deleted vs) := by
  rw [advance] at h
  rcases hstage : call.stage with _ | vs | vs | vs | vs
  · rw [hstage] at h
    rcases hmark : m.markRemoving call.version with _ | vs
    · simp [hmark] at h
    · obtain ⟨vs, hlook, rfl⟩ := Mux.markRemoving_cases hmark
      simp only [hmark, RemoveOutcome.next.injEq] at h
      obtain ⟨rfl, hnext⟩ := h
      refine .inl ⟨vs, rfl, hlook, rfl, ?_⟩
      cases hwait : call.shouldWait with
      | true => exact .inl (by simpa [hwait] using hnext.symm)
      | false => exact .inr (by simpa [hwait] using hnext.symm)
  · simp only [hstage, RemoveOutcome.next.injEq] at h
    exact .inr (.inl ⟨vs, rfl, h.1.symm, h.2.symm⟩)
  · simp only [hstage, RemoveOutcome.next.injEq] at h
    exact .inr (.inr (.inl ⟨vs, rfl, h.1.symm, h.2.symm⟩))
  · simp only [hstage, RemoveOutcome.next.injEq] at h
    exact .inr (.inr (.inr ⟨vs, rfl, h.1.symm, h.2.symm⟩))
  · simp only [hstage] at h
    split at h
    · cases h
    · cases h

/-- It goes on from its first critical section if the entry is there and not marked. -/
theorem RemoveCall.advance_called {call : RemoveCall} {m m' : Mux} {stage : RemoveStage}
    (hstage : call.stage = .called) (h : call.advance m = .next m' stage) :
    ∃ vs, m.versions.lookup call.version.name = some vs ∧ vs.removing = false ∧
      stage = if call.shouldWait then .marked { vs with removing := true }
        else .expired { vs with removing := true } := by
  rw [advance, hstage] at h
  rcases hvs : m.versions.lookup call.version.name with _ | vs
  · simp [Mux.markRemoving, hvs] at h
  · cases hrem : vs.removing with
    | true => simp [Mux.markRemoving, hvs, hrem] at h
    | false =>
      simp only [Mux.markRemoving, hvs, hrem, Bool.false_eq_true, if_false,
        RemoveOutcome.next.injEq] at h
      exact ⟨vs, rfl, hrem, h.2.symm⟩

/-- A call of `remove` returns its version when the wait group is at zero. -/
theorem RemoveCall.advance_returnsVersion {call : RemoveCall} {m : Mux}
    (h : call.advance m = .returnsVersion) :
    ∃ vs, call.stage = .deleted vs ∧ m.counts vs.count = 0 := by
  rw [advance] at h
  rcases hstage : call.stage with _ | vs | vs | vs | vs
  · simp only [hstage] at h
    split at h
    · cases h
    · cases h
  · simp [hstage] at h
  · simp [hstage] at h
  · simp [hstage] at h
  · simp only [hstage] at h
    split at h
    · exact ⟨vs, rfl, ‹_›⟩
    · cases h

/-- It returns nil from its first critical section only. -/
theorem RemoveCall.advance_returnsNil {call : RemoveCall} {m : Mux}
    (h : call.advance m = .returnsNil) : call.stage = .called := by
  rw [advance] at h
  rcases hstage : call.stage with _ | vs | vs | vs | vs
  · rfl
  · simp [hstage] at h
  · simp [hstage] at h
  · simp [hstage] at h
  · simp only [hstage] at h
    split at h
    · cases h
    · cases h

/-! ## Wait groups are not mixed up -/

namespace Mux

variable {m m' : Mux} {v : VersionRef} {e : Entry}

/-- Every copy of an entry has the wait group its version was prepared with, and no two
versions share one. -/
structure Known (m : Mux) : Prop where
  /-- a version is in the map under its name -/
  name : ∀ name e, m.versions.lookup name = some e → e.version.name = name
  /-- what is in the map was prepared -/
  entry : ∀ name e, m.versions.lookup name = some e → e.pair ∈ m.prepared
  /-- what is current was prepared -/
  current : ∀ e, m.currentVersion = some e → e.pair ∈ m.prepared
  /-- wait groups are allocated -/
  allocated : ∀ p ∈ m.prepared, p.2 < m.nextCount
  /-- a version has one wait group -/
  version : ∀ p ∈ m.prepared, ∀ q ∈ m.prepared, p.1 = q.1 → p = q
  /-- a wait group has one version -/
  group : ∀ p ∈ m.prepared, ∀ q ∈ m.prepared, p.2 = q.2 → p = q

theorem known_new : new.Known where
  name := fun _ _ h => by simp [new] at h
  entry := fun _ _ h => by simp [new] at h
  current := fun _ h => by simp [new] at h
  allocated := fun _ h => absurd h List.not_mem_nil
  version := fun _ h => absurd h List.not_mem_nil
  group := fun _ h => absurd h List.not_mem_nil

/-- Counting does not touch entries. -/
theorem Known.of_frame (h : m.Known)
    (hm : m'.versions = m.versions ∧ m'.currentVersion = m.currentVersion ∧
      m'.nextCount = m.nextCount ∧ m'.prepared = m.prepared) : m'.Known := by
  obtain ⟨hversions, hcurrent, hnext, hprepared⟩ := hm
  constructor
  · rw [hversions]; exact h.name
  · rw [hversions, hprepared]; exact h.entry
  · rw [hcurrent, hprepared]; exact h.current
  · rw [hprepared, hnext]; exact h.allocated
  · rw [hprepared]; exact h.version
  · rw [hprepared]; exact h.group

theorem Known.acquire (h : m.Known) (oe : Option Entry) : (m.acquire oe).1.Known :=
  h.of_frame ⟨acquire_versions oe, acquire_currentVersion oe, acquire_nextCount oe,
    acquire_prepared oe⟩

theorem Known.release (h : m.Known) {v : Option VersionRef} (hm : m.release v = .ok m') :
    m'.Known := h.of_frame (release_frame hm)

/-- A new version gets a new wait group. -/
theorem Known.prepare (h : m.Known) (hm : m.prepare v = .ok m')
    (hfresh : ∀ p ∈ m.prepared, p.1 ≠ v) : m'.Known := by
  obtain ⟨-, rfl⟩ := prepare_cases hm
  have hgroup : ∀ p ∈ m.prepared, p.2 ≠ m.nextCount := fun p hp => (h.allocated p hp).ne
  constructor
  · intro name e he
    obtain ⟨rfl, rfl⟩ | ⟨-, he⟩ := AList.lookup_insert_eq_some he
    · rfl
    · exact h.name name e he
  · intro name e he
    obtain ⟨rfl, rfl⟩ | ⟨-, he⟩ := AList.lookup_insert_eq_some he
    · exact List.mem_cons_self
    · exact List.mem_cons_of_mem _ (h.entry name e he)
  · exact fun e he => List.mem_cons_of_mem _ (h.current e he)
  · intro p hp
    obtain rfl | hp := List.mem_cons.mp hp
    · exact Nat.lt_succ_self _
    · exact Nat.lt_succ_of_lt (h.allocated p hp)
  · intro p hp q hq hpq
    obtain rfl | hp := List.mem_cons.mp hp <;> obtain rfl | hq := List.mem_cons.mp hq
    · rfl
    · exact absurd hpq.symm (hfresh q hq)
    · exact absurd hpq (hfresh p hp)
    · exact h.version p hp q hq hpq
  · intro p hp q hq hpq
    obtain rfl | hp := List.mem_cons.mp hp <;> obtain rfl | hq := List.mem_cons.mp hq
    · rfl
    · exact absurd hpq.symm (hgroup q hq)
    · exact absurd hpq (hgroup p hp)
    · exact h.group p hp q hq hpq

theorem Known.upgrade (h : m.Known) (hm : m.upgrade v = .ok m') : m'.Known := by
  obtain ⟨e, he, -, rfl⟩ := upgrade_cases hm
  refine ⟨h.name, h.entry, fun e' he' => ?_, h.allocated, h.version, h.group⟩
  obtain rfl := Option.some.inj he'
  exact h.entry _ e he

/-- A copy that is stored has the wait group it was copied with. -/
theorem Known.armTimer (h : m.Known) (hname : e.version.name = v.name)
    (he : e.pair ∈ m.prepared) : (m.armTimer v e).Known := by
  refine ⟨fun name e' he' => ?_, fun name e' he' => ?_, h.current, h.allocated, h.version,
    h.group⟩
  · obtain ⟨rfl, rfl⟩ | ⟨-, he'⟩ := AList.lookup_insert_eq_some he'
    · exact hname
    · exact h.name name e' he'
  · obtain ⟨rfl, rfl⟩ | ⟨-, he'⟩ := AList.lookup_insert_eq_some he'
    · exact he
    · exact h.entry name e' he'

theorem Known.delete (h : m.Known) (v : VersionRef) : (m.delete v).Known :=
  ⟨fun name e he => h.name name e (AList.lookup_erase_eq_some he).2,
    fun name e he => h.entry name e (AList.lookup_erase_eq_some he).2, h.current, h.allocated,
    h.version, h.group⟩

/-- An acquired version counts once more, every other as before. -/
theorem Known.counts_acquire (h : m.Known) {oe : Option Entry}
    (he : ∀ e, oe = some e → e.pair ∈ m.prepared) {p : VersionRef × ℕ} (hp : p ∈ m.prepared) :
    (m.acquire oe).1.counts p.2 = (m.acquire oe).2.toList.count p.1 + m.counts p.2 := by
  cases oe with
  | none => simp [Mux.acquire]
  | some e =>
    by_cases hpe : p = e.pair
    · subst hpe
      simp [Mux.acquire, Entry.pair, Nat.add_comm]
    · have hgroup : p.2 ≠ e.count := fun heq => hpe (h.group p hp e.pair (he e rfl) heq)
      have hversion : e.version ≠ p.1 := fun heq =>
        hpe (h.version p hp e.pair (he e rfl) heq.symm)
      simp [Mux.acquire, Function.update_of_ne hgroup, hversion]

/-- A release that finds an entry takes one off the count of that version, and changes no
other. -/
theorem Known.counts_release (h : m.Known) (hm : m.release (some v) = .ok m')
    (he : m.versions.lookup v.name = some e) {p : VersionRef × ℕ} (hp : p ∈ m.prepared) :
    m.counts p.2 = [e.version].count p.1 + m'.counts p.2 := by
  obtain ⟨hnone, -⟩ | ⟨e', he', hpos, rfl⟩ := release_cases hm
  · rw [he] at hnone
    cases hnone
  · obtain rfl := Option.some.inj (he.symm.trans he')
    by_cases hpe : p = e.pair
    · subst hpe
      simp only [Entry.pair, List.count_singleton_self, Function.update_self]
      omega
    · have hpair : e.pair ∈ m.prepared := h.entry _ e he
      have hgroup : p.2 ≠ e.count := fun heq => hpe (h.group p hp e.pair hpair heq)
      have hversion : e.version ≠ p.1 := fun heq => hpe (h.version p hp e.pair hpair heq.symm)
      simp [Function.update_of_ne hgroup, hversion]

/-- A prepared version starts with no references. -/
theorem Known.counts_prepare (h : m.Known) (hm : m.prepare v = .ok m') {p : VersionRef × ℕ}
    (hp : p ∈ m'.prepared) :
    p = (v, m.nextCount) ∧ m'.counts p.2 = 0 ∨ p ∈ m.prepared ∧ m'.counts p.2 = m.counts p.2 := by
  obtain ⟨-, rfl⟩ := prepare_cases hm
  obtain rfl | hp := List.mem_cons.mp hp
  · exact .inl ⟨rfl, Function.update_self ..⟩
  · exact .inr ⟨hp, Function.update_of_ne (h.allocated p hp).ne ..⟩

end Mux

/-! ## Interleaving the methods

Callers are well behaved: they release what they were handed, once. Even so a release can come
too late, and then its count is never taken back. -/

/-- A multiplexer in use. -/
structure MuxState where
  /-- the multiplexer -/
  mux : Mux
  /-- the references that were handed out and not released -/
  refs : List VersionRef
  /-- the calls of `remove` that have not returned -/
  removals : List RemoveCall
  /-- history: the releases that found no entry -/
  late : List VersionRef

/-- What can happen to a multiplexer. -/
inductive MuxEvent where
  /-- `prepare` -/
  | prepare (v : VersionRef)
  /-- `upgrade` -/
  | upgrade (v : VersionRef)
  /-- `getCurrent` -/
  | getCurrent
  /-- `getVersion` -/
  | getVersion (name : Bytes)
  /-- `release` of a version that was handed out -/
  | release (v : VersionRef)
  /-- `remove` is called -/
  | remove (v : VersionRef) (shouldWait : Bool)
  /-- a call of `remove` goes on -/
  | advance (call : RemoveCall)

namespace MuxState

def new : MuxState := ⟨.new, [], [], []⟩

/-- A caller takes what `getCurrent` or `getVersion` returned. -/
def take (s : MuxState) (got : Mux × Option VersionRef) : MuxState :=
  { s with mux := got.1, refs := got.2.toList ++ s.refs }

/-- A method that may panic: a panic ends the run. -/
def attempt (s : MuxState) : Except Panic Mux → Option MuxState
  | .error _ => none
  | .ok m => some { s with mux := m }

/-- One event. Callers release what they were handed, once, and prepare no name twice. -/
def step (s : MuxState) : MuxEvent → Option MuxState
  | .prepare v =>
    if ∃ p ∈ s.mux.prepared, p.1.name = v.name then none else s.attempt (s.mux.prepare v)
  | .upgrade v => s.attempt (s.mux.upgrade v)
  | .getCurrent => some (s.take s.mux.getCurrent)
  | .getVersion name => some (s.take (s.mux.getVersion name))
  | .release v =>
    if v ∈ s.refs then
      ({ s with
        refs := s.refs.erase v
        late := if s.mux.versions.lookup v.name = none then v :: s.late else s.late }
        : MuxState).attempt (s.mux.release (some v))
    else
      none
  | .remove v shouldWait => some { s with removals := ⟨v, shouldWait, .called⟩ :: s.removals }
  | .advance call =>
    if call ∈ s.removals then
      match call.advance s.mux with
      | .next m stage =>
        some { s with mux := m, removals := { call with stage := stage } :: s.removals.erase call }
      | .returnsNil => some { s with removals := s.removals.erase call }
      | .returnsVersion => some { s with removals := s.removals.erase call }
      | .blocked => none
    else
      none

/-- What the events can do: `step` as a relation. -/
inductive Steps (s : MuxState) : MuxEvent → MuxState → Prop
  | prepare {v : VersionRef} {m : Mux} (hnew : ¬ ∃ p ∈ s.mux.prepared, p.1.name = v.name)
      (hm : s.mux.prepare v = .ok m) : Steps s (.prepare v) { s with mux := m }
  | upgrade {v : VersionRef} {m : Mux} (hm : s.mux.upgrade v = .ok m) :
      Steps s (.upgrade v) { s with mux := m }
  | getCurrent : Steps s .getCurrent (s.take s.mux.getCurrent)
  | getVersion (name : Bytes) : Steps s (.getVersion name) (s.take (s.mux.getVersion name))
  | release {v : VersionRef} {m : Mux} (hv : v ∈ s.refs) (hm : s.mux.release (some v) = .ok m) :
      Steps s (.release v) { s with
        mux := m
        refs := s.refs.erase v
        late := if s.mux.versions.lookup v.name = none then v :: s.late else s.late }
  | remove (v : VersionRef) (shouldWait : Bool) :
      Steps s (.remove v shouldWait) { s with removals := ⟨v, shouldWait, .called⟩ :: s.removals }
  | next {call : RemoveCall} (hcall : call ∈ s.removals) {m : Mux} {stage : RemoveStage}
      (hm : call.advance s.mux = .next m stage) :
      Steps s (.advance call)
        { s with mux := m, removals := { call with stage := stage } :: s.removals.erase call }
  | returnsNil {call : RemoveCall} (hcall : call ∈ s.removals)
      (hm : call.advance s.mux = .returnsNil) :
      Steps s (.advance call) { s with removals := s.removals.erase call }
  | returnsVersion {call : RemoveCall} (hcall : call ∈ s.removals)
      (hm : call.advance s.mux = .returnsVersion) :
      Steps s (.advance call) { s with removals := s.removals.erase call }

end MuxState

/-- Every interleaving of calls on a new multiplexer. -/
def muxMachine : Machine MuxState MuxEvent := .ofStep .new MuxState.step

namespace MuxState

variable {s s' : MuxState}

/-- What holds between the calls. -/
structure Counted (s : MuxState) : Prop where
  /-- wait groups are not mixed up -/
  known : s.mux.Known
  /-- no name was prepared twice -/
  distinct : ∀ p ∈ s.mux.prepared, ∀ q ∈ s.mux.prepared, p.1.name = q.1.name → p = q
  /-- only prepared versions were handed out -/
  handed : ∀ v ∈ s.refs ++ s.late, ∃ g, (v, g) ∈ s.mux.prepared
  /-- the copies that calls of `remove` have -/
  copies : ∀ call ∈ s.removals, ∀ e, call.stage.entry = some e →
    e.version.name = call.version.name ∧ e.pair ∈ s.mux.prepared
  /-- a count is too high by the releases that were late -/
  counts : ∀ p ∈ s.mux.prepared, s.mux.counts p.2 = s.refs.count p.1 + s.late.count p.1

theorem counted_new : new.Counted where
  known := Mux.known_new
  distinct := fun _ h => absurd h List.not_mem_nil
  handed := fun _ h => absurd h List.not_mem_nil
  copies := fun _ h => absurd h List.not_mem_nil
  counts := fun _ h => absurd h List.not_mem_nil

theorem attempt_eq_some {r : Except Panic Mux} (h : s.attempt r = some s') :
    ∃ m, r = .ok m ∧ s' = { s with mux := m } := by
  cases r with
  | error p => cases h
  | ok m => exact ⟨m, rfl, (Option.some.inj h).symm⟩

/-- Handing out a version that was prepared. -/
theorem Counted.take (h : s.Counted) {oe : Option Entry}
    (he : ∀ e, oe = some e → e.pair ∈ s.mux.prepared) : (s.take (s.mux.acquire oe)).Counted where
  known := h.known.acquire oe
  distinct := by
    rw [MuxState.take, Mux.acquire_prepared]
    exact h.distinct
  handed := by
    rw [MuxState.take, Mux.acquire_prepared]
    intro v hv
    rw [List.append_assoc, List.mem_append] at hv
    obtain hv | hv := hv
    · cases oe with
      | none => cases hv
      | some e =>
        obtain rfl : v = e.version := List.mem_singleton.mp hv
        exact ⟨e.count, he e rfl⟩
    · exact h.handed v hv
  copies := by
    rw [MuxState.take, Mux.acquire_prepared]
    exact h.copies
  counts := by
    rw [MuxState.take, Mux.acquire_prepared]
    intro p hp
    rw [h.known.counts_acquire he hp, List.count_append, h.counts p hp, Nat.add_assoc]

/-- Nobody can hold what was not there before. -/
theorem Counted.prepare (h : s.Counted) {v : VersionRef} {m : Mux}
    (hnew : ¬ ∃ p ∈ s.mux.prepared, p.1.name = v.name) (hm : s.mux.prepare v = .ok m) :
    ({ s with mux := m } : MuxState).Counted := by
  have hfresh : ∀ p ∈ s.mux.prepared, p.1.name ≠ v.name := fun p hp heq => hnew ⟨p, hp, heq⟩
  have hprepared : m.prepared = (v, s.mux.nextCount) :: s.mux.prepared := by
    rw [(Mux.prepare_cases hm).2]
  refine ⟨h.known.prepare hm fun p hp heq => hfresh p hp (heq ▸ rfl), ?_, ?_, ?_, ?_⟩
  · rw [hprepared]
    intro p hp q hq hpq
    obtain rfl | hp := List.mem_cons.mp hp <;> obtain rfl | hq := List.mem_cons.mp hq
    · rfl
    · exact absurd hpq.symm (hfresh q hq)
    · exact absurd hpq (hfresh p hp)
    · exact h.distinct p hp q hq hpq
  · rw [hprepared]
    intro w hw
    obtain ⟨g, hg⟩ := h.handed w hw
    exact ⟨g, List.mem_cons_of_mem _ hg⟩
  · rw [hprepared]
    intro call hcall e he
    obtain ⟨hname, hpair⟩ := h.copies call hcall e he
    exact ⟨hname, List.mem_cons_of_mem _ hpair⟩
  · intro p hp
    obtain ⟨rfl, hzero⟩ | ⟨hp, hsame⟩ := h.known.counts_prepare hm hp
    · -- a version nobody was handed yet
      have hnot : v ∉ s.refs ++ s.late := by
        intro hv
        obtain ⟨g, hg⟩ := h.handed v hv
        exact hfresh _ hg rfl
      rw [List.mem_append, not_or] at hnot
      rw [hzero, List.count_eq_zero.mpr hnot.1, List.count_eq_zero.mpr hnot.2]
    · rw [hsame, h.counts p hp]

theorem count_erase_add {v w : VersionRef} {l : List VersionRef} (h : v ∈ l) :
    l.count w = [v].count w + (l.erase v).count w := by
  rw [(List.perm_cons_erase h).count_eq w, ← List.count_append]
  rfl

/-- **A release.** If it finds the version, the count goes down with the references; if not,
the reference is late. -/
theorem Counted.release (h : s.Counted) {v : VersionRef} {m : Mux} (hv : v ∈ s.refs)
    (hm : s.mux.release (some v) = .ok m) :
    ({ s with
      mux := m
      refs := s.refs.erase v
      late := if s.mux.versions.lookup v.name = none then v :: s.late else s.late }
      : MuxState).Counted := by
  obtain ⟨g, hg⟩ := h.handed v (List.mem_append_left _ hv)
  have hprepared : m.prepared = s.mux.prepared := (Mux.release_frame hm).2.2.2
  refine ⟨h.known.release hm, ?_, ?_, ?_, ?_⟩
  · rw [hprepared]
    exact h.distinct
  · rw [hprepared]
    intro w hw
    obtain hw | hw := List.mem_append.mp hw
    · exact h.handed w (List.mem_append_left _ (List.mem_of_mem_erase hw))
    · split at hw
      · obtain rfl | hw := List.mem_cons.mp hw
        · exact ⟨g, hg⟩
        · exact h.handed w (List.mem_append_right _ hw)
      · exact h.handed w (List.mem_append_right _ hw)
  · rw [hprepared]
    exact h.copies
  · rw [hprepared]
    intro p hp
    have hcount := h.counts p hp
    rw [count_erase_add hv] at hcount
    obtain ⟨hnone, rfl⟩ | ⟨e, he, -, -⟩ := Mux.release_cases hm
    · simp only [if_pos hnone]
      rw [← List.singleton_append, List.count_append]
      omega
    · -- the entry under the version's name is the version's own
      have hpair : e.pair = (v, g) :=
        h.distinct _ (h.known.entry _ e he) _ hg (h.known.name _ e he)
      have hversion : e.version = v := congrArg Prod.fst hpair
      have hrel := h.known.counts_release hm he hp
      rw [hversion] at hrel
      simp only [he, reduceCtorEq, if_false]
      omega

/-- A call of `remove` goes on: counts and history stay, and its copy keeps its wait
group. -/
theorem Counted.advance (h : s.Counted) {call : RemoveCall} (hcall : call ∈ s.removals) {m : Mux}
    {stage : RemoveStage} (hm : call.advance s.mux = .next m stage) :
    ({ s with mux := m, removals := { call with stage := stage } :: s.removals.erase call }
      : MuxState).Counted := by
  have hcopy := h.copies call hcall
  have hrest : ∀ c ∈ s.removals.erase call, ∀ e, c.stage.entry = some e →
      e.version.name = c.version.name ∧ e.pair ∈ s.mux.prepared :=
    fun c hc => h.copies c (List.mem_of_mem_erase hc)
  obtain ⟨vs, hstage, hlook, rfl, hnext⟩ | ⟨vs, hstage, rfl, rfl⟩ | ⟨vs, hstage, rfl, rfl⟩ |
    ⟨vs, hstage, rfl, rfl⟩ := RemoveCall.advance_next hm
  · refine ⟨h.known, h.distinct, h.handed, fun c hc e he => ?_, h.counts⟩
    obtain rfl | hc := List.mem_cons.mp hc
    · have hname := h.known.name _ vs hlook
      have hpair := h.known.entry _ vs hlook
      obtain rfl | rfl := hnext
      · obtain rfl := Option.some.inj he
        exact ⟨hname, hpair⟩
      · obtain rfl := Option.some.inj he
        exact ⟨hname, hpair⟩
    · exact hrest c hc e he
  · rw [hstage] at hcopy
    obtain ⟨hname, hpair⟩ := hcopy vs rfl
    refine ⟨h.known.armTimer hname hpair, h.distinct, h.handed, fun c hc e he => ?_, h.counts⟩
    obtain rfl | hc := List.mem_cons.mp hc
    · obtain rfl := Option.some.inj he
      exact ⟨hname, hpair⟩
    · exact hrest c hc e he
  · rw [hstage] at hcopy
    refine ⟨h.known, h.distinct, h.handed, fun c hc e he => ?_, h.counts⟩
    obtain rfl | hc := List.mem_cons.mp hc
    · exact hcopy e he
    · exact hrest c hc e he
  · rw [hstage] at hcopy
    refine ⟨h.known.delete _, h.distinct, h.handed, fun c hc e he => ?_, h.counts⟩
    obtain rfl | hc := List.mem_cons.mp hc
    · exact hcopy e he
    · exact hrest c hc e he

theorem steps_of_step {e : MuxEvent} (hs : s.step e = some s') : s.Steps e s' := by
  cases e with
  | prepare v =>
    rw [step] at hs
    split at hs
    · cases hs
    · obtain ⟨m, hm, rfl⟩ := attempt_eq_some hs
      exact .prepare ‹_› hm
  | upgrade v =>
    obtain ⟨m, hm, rfl⟩ := attempt_eq_some hs
    exact .upgrade hm
  | getCurrent => exact Option.some.inj hs ▸ .getCurrent
  | getVersion name => exact Option.some.inj hs ▸ .getVersion name
  | release v =>
    rw [step] at hs
    split at hs
    · obtain ⟨m, hm, rfl⟩ := attempt_eq_some hs
      exact .release ‹_› hm
    · cases hs
  | remove v shouldWait => exact Option.some.inj hs ▸ .remove v shouldWait
  | advance call =>
    rw [step] at hs
    split at hs
    · rename_i hcall
      split at hs
      · rename_i hm
        exact Option.some.inj hs ▸ .next hcall hm
      · rename_i hm
        exact Option.some.inj hs ▸ .returnsNil hcall hm
      · rename_i hm
        exact Option.some.inj hs ▸ .returnsVersion hcall hm
      · cases hs
    · cases hs

/-- **Every event keeps the counts.** -/
theorem Counted.step (h : s.Counted) {e : MuxEvent} (hs : s.Steps e s') : s'.Counted := by
  have hreturned : ∀ call, ({ s with removals := s.removals.erase call } : MuxState).Counted :=
    fun call => ⟨h.known, h.distinct, h.handed,
      fun c hc => h.copies c (List.mem_of_mem_erase hc), h.counts⟩
  cases hs with
  | prepare hnew hm => exact h.prepare hnew hm
  | upgrade hm =>
    have hknown := h.known.upgrade hm
    obtain ⟨e, -, -, rfl⟩ := Mux.upgrade_cases hm
    exact ⟨hknown, h.distinct, h.handed, h.copies, h.counts⟩
  | getCurrent => exact h.take h.known.current
  | getVersion name => exact h.take (h.known.entry name)
  | release hv hm => exact h.release hv hm
  | remove v shouldWait =>
    refine ⟨h.known, h.distinct, h.handed, fun c hc e he => ?_, h.counts⟩
    obtain rfl | hc := List.mem_cons.mp hc
    · cases he
    · exact h.copies c hc e he
  | next hcall hm => exact h.advance hcall hm
  | returnsNil hcall hm => exact hreturned _
  | returnsVersion hcall hm => exact hreturned _

theorem counted_of_reachable (h : muxMachine.Reachable s) : s.Counted :=
  h.invariant (fun _ hs => hs ▸ counted_new) fun _ _ _ _ hc hs => hc.step (steps_of_step hs)

/-- A release of a version that was handed out does not panic. -/
theorem Counted.release_ok (hc : s.Counted) {v : VersionRef} (hv : v ∈ s.refs) :
    ∃ m, s.mux.release (some v) = .ok m := by
  obtain ⟨g, hg⟩ := hc.handed v (List.mem_append_left _ hv)
  rw [Mux.release]
  rcases he : s.mux.versions.lookup v.name with _ | e
  · exact ⟨_, rfl⟩
  · have hpair : e.pair = (v, g) :=
      hc.distinct _ (hc.known.entry _ e he) _ hg (hc.known.name _ e he)
    have hcount := hc.counts _ (hc.known.entry _ e he)
    have hpos : 0 < s.refs.count e.version := by
      rw [show e.version = v from congrArg Prod.fst hpair]
      exact List.count_pos_iff.mpr hv
    have hne : s.mux.counts e.count ≠ 0 := by
      simp only [Entry.pair] at hcount
      omega
    simp only [if_neg hne]
    exact ⟨_, rfl⟩

end MuxState

/-- **A count is the number of unreleased references exactly as long as no release was
late.** In every state of every run, for every version that was ever prepared; and a call of
`remove` whose version nobody uses any more is blocked by those late releases and by nothing
else. -/
theorem count_eq_unreleased_iff {s : MuxState} (h : muxMachine.Reachable s) :
    (∀ p ∈ s.mux.prepared, s.mux.counts p.2 = s.refs.count p.1 ↔ p.1 ∉ s.late) ∧
      ∀ call ∈ s.removals, ∀ vs, call.stage = .deleted vs → s.refs.count vs.version = 0 →
        (call.advance s.mux = .returnsVersion ↔ vs.version ∉ s.late) := by
  have hc := MuxState.counted_of_reachable h
  have hcount : ∀ p ∈ s.mux.prepared, s.mux.counts p.2 = s.refs.count p.1 ↔ p.1 ∉ s.late := by
    intro p hp
    rw [hc.counts p hp, ← List.count_eq_zero]
    omega
  refine ⟨hcount, fun call hcall vs hstage hrefs => ?_⟩
  have hpair := (hc.copies call hcall vs (by rw [hstage]; rfl)).2
  have hzero : s.mux.counts vs.count = 0 ↔ vs.version ∉ s.late := by
    rw [← hrefs]
    exact hcount _ hpair
  rw [← hzero, RemoveCall.advance, hstage]
  by_cases h0 : s.mux.counts vs.count = 0
  · simp [h0]
  · simp [h0]

/-- A request holds version `1` when it is removed, and finishes afterwards. -/
def finishesLate : List MuxEvent :=
  let v : VersionRef := ⟨0, [49]⟩
  [.prepare v, .getVersion [49], .remove v false, .advance ⟨v, false, .called⟩,
    .advance ⟨v, false, .expired ⟨v, 0, false, true⟩⟩, .release v]

/-- Without the last release the count is right. -/
theorem count_eq_unreleased_held :
    ∃ s, muxMachine.Reachable s ∧ (⟨0, [49]⟩, 0) ∈ s.mux.prepared ∧
      s.mux.counts 0 = s.refs.count ⟨0, [49]⟩ := by
  have hreach : muxMachine.Reachable _ :=
    .run (.start rfl) (finishesLate.take 5) rfl
  exact ⟨_, hreach, by decide, ((count_eq_unreleased_iff hreach).1 (⟨0, [49]⟩, 0) (by decide)).mpr
    (by decide)⟩

/-- With it nothing is held any more, and yet the count is one and `remove` waits forever. -/
theorem finishesLate_blocks :
    ∃ s, muxMachine.Reachable s ∧ (⟨0, [49]⟩, 0) ∈ s.mux.prepared ∧ s.refs = [] ∧
      s.mux.counts 0 = 1 ∧ ∃ call ∈ s.removals, call.advance s.mux = .blocked :=
  ⟨_, .run (.start rfl) finishesLate rfl, by decide, by decide, by decide,
    ⟨_, List.mem_singleton_self _, rfl⟩⟩

end Sequins
