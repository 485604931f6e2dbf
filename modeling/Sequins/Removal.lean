import Sequins.VersionMux

/-!
# What `remove` promises

Two things that callers of `remove` rely on. A version it has returned is used by nobody and is
not handed out again; and of all the calls for one version at most one returns it, since
afterwards the version is closed.

Both rest on the mark that the first critical section puts on the entry. But it puts it on a
copy, which only a call that waits stores later on, so a second call may come in between:

* if it deletes the entry first, the call that waits puts it back (`returned_unused`,
  `timer_brings_back`);
* if neither of them waits, both return the version (`returned_once`, `both_return`).

The first goes well as long as only entries that are still there are stored, the second as long
as no call begins before the mark of another is stored. A lock around the calls gives both.
-/

namespace Sequins

/-! ## Histories -/

/-- The calls of `remove` that an event makes. -/
def MuxEvent.called : MuxEvent → List VersionRef
  | .remove v _ => [v]
  | _ => []

/-- The versions that calls of `remove` return at an event. -/
def MuxEvent.returned (m : Mux) : MuxEvent → List VersionRef
  | .advance call =>
    match call.advance m with
    | .returnsVersion => [call.version]
    | _ => []
  | _ => []

/-- A multiplexer in use, with what calls of `remove` were made and what they returned. -/
structure MuxHistory where
  /-- the multiplexer -/
  state : MuxState
  /-- history: the versions `remove` was called on -/
  called : List VersionRef
  /-- history: the versions it returned -/
  returned : List VersionRef

namespace MuxHistory

def new : MuxHistory := ⟨.new, [], []⟩

def step (h : MuxHistory) (e : MuxEvent) : Option MuxHistory :=
  (h.state.step e).map fun s => ⟨s, e.called ++ h.called, e.returned h.state.mux ++ h.returned⟩

/-- `remove` is not called on the current version, and a version is not upgraded after it was
called on it. -/
def Orderly (h : MuxHistory) : MuxEvent → Prop
  | .remove v _ => h.state.mux.currentVersion.map Entry.version ≠ some v
  | .upgrade v => v ∉ h.called
  | _ => True

instance (h : MuxHistory) : DecidablePred h.Orderly := fun e =>
  match e with
  | .remove v _ =>
    inferInstanceAs (Decidable (h.state.mux.currentVersion.map Entry.version ≠ some v))
  | .upgrade v => inferInstanceAs (Decidable (v ∉ h.called))
  | .prepare _ | .getCurrent | .getVersion _ | .release _ | .advance _ => isTrue trivial

/-- Only entries that are still in the map are stored with a timer. -/
def InPlace (h : MuxHistory) : MuxEvent → Prop
  | .advance ⟨v, _, .marked _⟩ => h.state.mux.versions.lookup v.name ≠ none
  | _ => True

instance (h : MuxHistory) : DecidablePred h.InPlace := fun e =>
  match e with
  | .advance ⟨v, _, .marked _⟩ =>
    inferInstanceAs (Decidable (h.state.mux.versions.lookup v.name ≠ none))
  | .advance ⟨_, _, .called⟩ | .advance ⟨_, _, .armed _⟩ | .advance ⟨_, _, .expired _⟩
  | .advance ⟨_, _, .deleted _⟩ => isTrue trivial
  | .prepare _ | .upgrade _ | .getCurrent | .getVersion _ | .release _ | .remove _ _ =>
    isTrue trivial

end MuxHistory

/-- Every interleaving of calls on a new multiplexer. -/
def muxHistoryMachine : Machine MuxHistory MuxEvent := .ofStep .new MuxHistory.step

/-! ## Names that are gone

A name that was prepared is not prepared again, so once its entry is deleted the map changes
under it in one way only: a call of `remove` stores its copy. -/

namespace MuxState

variable {s s' : MuxState} {e : MuxEvent} {name : Bytes}

/-- The name was prepared and is no longer in the map. -/
def Gone (s : MuxState) (name : Bytes) : Prop :=
  (∃ p ∈ s.mux.prepared, p.1.name = name) ∧ s.mux.versions.lookup name = none

theorem mem_removals_of_steps {call : RemoveCall} (hs : s.Steps (.advance call) s') :
    call ∈ s.removals := by
  cases hs with
  | next hcall hm => exact hcall
  | returnsNil hcall hm => exact hcall
  | returnsVersion hcall hm => exact hcall

/-- Nothing is forgotten of what was prepared. -/
theorem prepared_of_steps (hs : s.Steps e s') : ∀ p ∈ s.mux.prepared, p ∈ s'.mux.prepared := by
  intro p hp
  cases hs with
  | prepare hnew hm =>
    rw [(Mux.prepare_cases hm).2]
    exact List.mem_cons_of_mem _ hp
  | upgrade hm =>
    obtain ⟨c, -, -, rfl⟩ := Mux.upgrade_cases hm
    exact hp
  | getCurrent => rwa [take, Mux.getCurrent, Mux.acquire_prepared]
  | getVersion name => rwa [take, Mux.getVersion, Mux.acquire_prepared]
  | release hv hm => rwa [(Mux.release_frame hm).2.2.2]
  | next hcall hm =>
    obtain ⟨_, _, _, rfl, _⟩ | ⟨_, _, rfl, _⟩ | ⟨_, _, rfl, _⟩ | ⟨_, _, rfl, _⟩ :=
      RemoveCall.advance_next hm
    all_goals exact hp
  | remove v shouldWait => exact hp
  | returnsNil hcall hm => exact hp
  | returnsVersion hcall hm => exact hp

/-- Once a name was prepared, only calls of `remove` for it change what is in the map under
it. -/
theorem lookup_of_steps (hs : s.Steps e s') (hname : ∃ p ∈ s.mux.prepared, p.1.name = name)
    (he : ∀ call, e = .advance call → call.version.name ≠ name) :
    s'.mux.versions.lookup name = s.mux.versions.lookup name := by
  cases hs with
  | prepare hnew hm =>
    rw [(Mux.prepare_cases hm).2]
    refine AList.lookup_insert_ne ?_
    rintro rfl
    exact hnew hname
  | upgrade hm =>
    obtain ⟨c, -, -, rfl⟩ := Mux.upgrade_cases hm
    rfl
  | getCurrent => rw [take, Mux.getCurrent, Mux.acquire_versions]
  | getVersion name => rw [take, Mux.getVersion, Mux.acquire_versions]
  | release hv hm => rw [(Mux.release_frame hm).1]
  | next hcall hm =>
    have hne := (he _ rfl).symm
    obtain ⟨_, _, _, rfl, _⟩ | ⟨_, _, rfl, _⟩ | ⟨_, _, rfl, _⟩ | ⟨_, _, rfl, _⟩ :=
      RemoveCall.advance_next hm
    · rfl
    · exact AList.lookup_insert_ne hne
    · rfl
    · exact AList.lookup_erase_ne hne
  | remove v shouldWait => rfl
  | returnsNil hcall hm => rfl
  | returnsVersion hcall hm => rfl

/-- A name that is gone stays gone, unless a call that waits puts its entry back. -/
theorem Gone.step (h : s.Gone name) (hs : s.Steps e s')
    (hplace : ∀ call vs, e = .advance call → call.stage = .marked vs →
      s.mux.versions.lookup call.version.name ≠ none) : s'.Gone name := by
  obtain ⟨⟨p, hp, hpname⟩, hnone⟩ := h
  refine ⟨⟨p, prepared_of_steps hs p hp, hpname⟩, ?_⟩
  by_cases he : ∀ call, e = .advance call → call.version.name ≠ name
  · rw [lookup_of_steps hs ⟨p, hp, hpname⟩ he]
    exact hnone
  · push Not at he
    obtain ⟨call, rfl, rfl⟩ := he
    cases hs with
    | next hcall hm =>
      obtain ⟨_, _, _, rfl, _⟩ | ⟨vs, hstage, rfl, _⟩ | ⟨_, _, rfl, _⟩ | ⟨_, _, rfl, _⟩ :=
        RemoveCall.advance_next hm
      · exact hnone
      · exact absurd hnone (hplace _ vs rfl hstage)
      · exact hnone
      · exact AList.lookup_erase _ _
    | returnsNil hcall hm => exact hnone
    | returnsVersion hcall hm => exact hnone

end MuxState

/-! ## Returned versions are unused

The wait group of a version that is in the map is found by `release`, so a count of zero means
that nobody holds it. What could hand it out again is an entry that comes back. -/

namespace MuxHistory

variable {h h' : MuxHistory} {e : MuxEvent}

theorem steps_of_step (hs : h.step e = some h') :
    h.state.Steps e h'.state ∧ h'.called = e.called ++ h.called ∧
      h'.returned = e.returned h.state.mux ++ h.returned := by
  obtain ⟨s, hstep, rfl⟩ := Option.map_eq_some_iff.mp hs
  exact ⟨MuxState.steps_of_step hstep, rfl, rfl⟩

/-- Only a call that returns its version adds to what was returned. -/
theorem mem_returned {m : Mux} {v : VersionRef} (hv : v ∈ e.returned m) :
    ∃ call, e = .advance call ∧ call.advance m = .returnsVersion ∧ v = call.version := by
  cases e with
  | advance call =>
    rw [MuxEvent.returned] at hv
    split at hv
    · exact ⟨call, rfl, ‹_›, List.mem_singleton.mp hv⟩
    · cases hv
  | _ => cases hv

/-- What holds as long as entries are only stored in place. -/
structure Unused (h : MuxHistory) : Prop where
  /-- counts are right -/
  counted : h.state.Counted
  /-- what `remove` was called on is not current -/
  current : ∀ v ∈ h.called, h.state.mux.currentVersion.map Entry.version ≠ some v
  /-- the calls that have not returned were made -/
  removals : ∀ call ∈ h.state.removals, call.version ∈ h.called
  /-- what was deleted is not in the map -/
  deleted : ∀ call ∈ h.state.removals, ∀ vs, call.stage = .deleted vs →
    h.state.Gone call.version.name
  /-- what was returned is neither in the map nor in use -/
  returned : ∀ v ∈ h.returned, v ∈ h.called ∧ h.state.Gone v.name ∧ v ∉ h.state.refs

theorem unused_new : new.Unused where
  counted := MuxState.counted_new
  current := fun _ hv => by cases hv
  removals := fun _ hc => by cases hc
  deleted := fun _ hc => by cases hc
  returned := fun _ hv => by cases hv

/-- What was called or returned before is not handed out. -/
theorem Unused.not_mem_refs (hu : h.Unused) {v : VersionRef} (hcalled : v ∈ h.called)
    (hgone : h.state.Gone v.name) (hrefs : v ∉ h.state.refs) (hs : h.state.Steps e h'.state) :
    v ∉ h'.state.refs := by
  -- an entry that is handed out is current or in the map
  have htake : ∀ oe : Option Entry, (∀ c, oe = some c → c.version ≠ v) →
      v ∉ (h.state.take (h.state.mux.acquire oe)).refs := by
    intro oe hne hv
    rcases List.mem_append.mp hv with hv | hv
    · cases oe with
      | none => cases hv
      | some c => exact hne c rfl (List.mem_singleton.mp hv).symm
    · exact hrefs hv
  generalize h'.state = s' at hs
  cases hs with
  | getCurrent =>
    refine htake _ fun c hc hcv => hu.current v hcalled ?_
    rw [hc, Option.map_some, hcv]
  | getVersion name =>
    refine htake _ fun c hc hcv => ?_
    obtain rfl := hu.counted.known.name _ c hc
    rw [hcv, hgone.2] at hc
    cases hc
  | release hv hm => exact fun hv' => hrefs (List.mem_of_mem_erase hv')
  | _ => exact hrefs

/-- A version is returned when its count is zero, hence when nobody holds it. -/
theorem Unused.not_mem_refs_of_returns (hu : h.Unused) {call : RemoveCall}
    (hcall : call ∈ h.state.removals) (hm : call.advance h.state.mux = .returnsVersion) :
    h.state.Gone call.version.name ∧ call.version ∉ h.state.refs := by
  obtain ⟨vs, hstage, hzero⟩ := RemoveCall.advance_returnsVersion hm
  refine ⟨hu.deleted call hcall vs hstage, fun hv => ?_⟩
  obtain ⟨hname, hpair⟩ := hu.counted.copies call hcall vs (by rw [hstage]; rfl)
  obtain ⟨g, hg⟩ := hu.counted.handed _ (List.mem_append_left _ hv)
  -- the entry that was removed is the version's own
  have heq : vs.pair = (call.version, g) := hu.counted.distinct _ hpair _ hg hname
  have hcount := hu.counted.counts _ hpair
  rw [heq] at hcount
  have hgroup : vs.count = g := congrArg Prod.snd heq
  have hpos : 0 < h.state.refs.count call.version := List.count_pos_iff.mpr hv
  dsimp only at hcount
  rw [hgroup] at hzero
  omega

theorem InPlace.lookup (hplace : h.InPlace e) {call : RemoveCall} {vs : Entry}
    (he : e = .advance call) (hstage : call.stage = .marked vs) :
    h.state.mux.versions.lookup call.version.name ≠ none := by
  obtain ⟨v, shouldWait, stage⟩ := call
  subst he
  obtain rfl : stage = .marked vs := hstage
  exact hplace

/-- What `remove` was called with is not current, then or later. -/
theorem Unused.current_step (hu : h.Unused) (horderly : h.Orderly e)
    (hs : h.state.Steps e h'.state) (hcalled : h'.called = e.called ++ h.called) :
    ∀ v ∈ h'.called, h'.state.mux.currentVersion.map Entry.version ≠ some v := by
  rw [hcalled]
  generalize h'.state = s' at hs
  cases hs with
  | prepare hnew hm =>
    rw [(Mux.prepare_cases hm).2]
    exact hu.current
  | upgrade hm =>
    obtain ⟨c, -, rfl, rfl⟩ := Mux.upgrade_cases hm
    rintro v hv heq
    obtain rfl := Option.some.inj heq
    exact horderly hv
  | getCurrent =>
    rw [MuxState.take, Mux.getCurrent, Mux.acquire_currentVersion]
    exact hu.current
  | getVersion name =>
    rw [MuxState.take, Mux.getVersion, Mux.acquire_currentVersion]
    exact hu.current
  | release hv hm =>
    rw [(Mux.release_frame hm).2.1]
    exact hu.current
  | remove v shouldWait => exact List.forall_mem_cons.mpr ⟨horderly, hu.current⟩
  | next hcall hm =>
    obtain ⟨_, _, _, rfl, _⟩ | ⟨_, _, rfl, _⟩ | ⟨_, _, rfl, _⟩ | ⟨_, _, rfl, _⟩ :=
      RemoveCall.advance_next hm
    all_goals exact hu.current
  | returnsNil hcall hm => exact hu.current
  | returnsVersion hcall hm => exact hu.current

theorem Unused.removals_step (hu : h.Unused) (hs : h.state.Steps e h'.state)
    (hcalled : h'.called = e.called ++ h.called) :
    ∀ call ∈ h'.state.removals, call.version ∈ h'.called := by
  rw [hcalled]
  have hkeep : ∀ call ∈ h.state.removals, call.version ∈ e.called ++ h.called :=
    fun call hcall => List.mem_append_right _ (hu.removals call hcall)
  generalize h'.state = s' at hs
  cases hs with
  | remove v shouldWait => exact List.forall_mem_cons.mpr ⟨List.mem_cons_self, hkeep⟩
  | @next call hcall m stage hm =>
    exact List.forall_mem_cons.mpr
      ⟨hkeep call hcall, fun c hc => hkeep c (List.mem_of_mem_erase hc)⟩
  | returnsNil hcall hm => exact fun call hc => hkeep call (List.mem_of_mem_erase hc)
  | returnsVersion hcall hm => exact fun call hc => hkeep call (List.mem_of_mem_erase hc)
  | _ => exact hkeep

/-- A call reaches its last stage by deleting the entry. -/
theorem Unused.deleted_step (hu : h.Unused) (hplace : h.InPlace e)
    (hs : h.state.Steps e h'.state) :
    ∀ call ∈ h'.state.removals, ∀ vs, call.stage = .deleted vs →
      h'.state.Gone call.version.name := by
  have hkeep : ∀ call ∈ h.state.removals, ∀ vs, call.stage = .deleted vs →
      h'.state.Gone call.version.name := fun call hcall vs hstage =>
    (hu.deleted call hcall vs hstage).step hs fun _ _ => hplace.lookup
  generalize h'.state = s' at hs hkeep
  cases hs with
  | remove v shouldWait =>
    refine List.forall_mem_cons.mpr ⟨fun vs hstage => ?_, hkeep⟩
    cases hstage
  | @next call hcall m stage hm =>
    refine List.forall_mem_cons.mpr ⟨fun vs hstage => ?_, fun c hc =>
      hkeep c (List.mem_of_mem_erase hc)⟩
    obtain ⟨w, -, -, -, hnext⟩ | ⟨w, -, -, rfl⟩ | ⟨w, -, -, rfl⟩ | ⟨w, hexpired, rfl, rfl⟩ :=
      RemoveCall.advance_next hm
    · obtain rfl | rfl := hnext <;> cases hstage
    · cases hstage
    · cases hstage
    · obtain ⟨hname, hpair⟩ := hu.counted.copies call hcall w (by rw [hexpired]; rfl)
      exact ⟨⟨_, hpair, hname⟩, AList.lookup_erase _ _⟩
  | returnsNil hcall hm => exact fun call hc => hkeep call (List.mem_of_mem_erase hc)
  | returnsVersion hcall hm => exact fun call hc => hkeep call (List.mem_of_mem_erase hc)
  | _ => exact hkeep

theorem Unused.step (hu : h.Unused) (horderly : h.Orderly e) (hplace : h.InPlace e)
    (hs : h.step e = some h') : h'.Unused := by
  obtain ⟨hs, hcalled, hreturned⟩ := steps_of_step hs
  refine ⟨hu.counted.step hs, hu.current_step horderly hs hcalled,
    hu.removals_step hs hcalled, hu.deleted_step hplace hs, fun v hv => ?_⟩
  have hunused : v ∈ h.called ∧ h.state.Gone v.name ∧ v ∉ h.state.refs := by
    rw [hreturned] at hv
    obtain hv | hv := List.mem_append.mp hv
    · obtain ⟨call, rfl, hm, rfl⟩ := mem_returned hv
      have hcall := MuxState.mem_removals_of_steps hs
      exact ⟨hu.removals call hcall, hu.not_mem_refs_of_returns hcall hm⟩
    · exact hu.returned v hv
  obtain ⟨hv, hgone, hrefs⟩ := hunused
  refine ⟨?_, hgone.step hs fun _ _ => hplace.lookup, hu.not_mem_refs hv hgone hrefs hs⟩
  rw [hcalled]
  exact List.mem_append_right _ hv

end MuxHistory

/-- **What `remove` has returned is unused, as long as it only stores entries that are still in
the map.** In every state of every such run: a version that was returned is held by nobody, is
not in the map, and is not what `getCurrent` or `getVersion` would return; and no reference that
is left makes a count negative when it is released. -/
theorem returned_unused {h : MuxHistory}
    (hreach : (muxHistoryMachine.restrict fun h e => h.Orderly e ∧ h.InPlace e).Reachable h) :
    (∀ v ∈ h.returned, v ∉ h.state.refs ∧ h.state.mux.versions.lookup v.name = none ∧
      h.state.mux.getCurrent.2 ≠ some v ∧ ∀ name, (h.state.mux.getVersion name).2 ≠ some v) ∧
    ∀ v ∈ h.state.refs, ∃ m, h.state.mux.release (some v) = .ok m := by
  have hu : h.Unused := by
    refine hreach.invariant (fun h hh => ?_) fun h e h' _ hu hs => ?_
    · obtain rfl : h = .new := hh
      exact MuxHistory.unused_new
    · obtain ⟨⟨horderly, hplace⟩, hs⟩ := hs
      exact hu.step horderly hplace hs
  refine ⟨fun v hv => ?_, fun v hv => ?_⟩
  · obtain ⟨hcalled, hgone, hrefs⟩ := hu.returned v hv
    refine ⟨hrefs, hgone.2, ?_, fun name => ?_⟩
    · rw [Mux.getCurrent, Mux.acquire_snd]
      exact hu.current v hcalled
    · rw [Mux.getVersion, Mux.acquire_snd]
      intro hmap
      obtain ⟨c, hc, rfl⟩ := Option.map_eq_some_iff.mp hmap
      obtain rfl := hu.counted.known.name _ c hc
      rw [hgone.2] at hc
      cases hc
  · exact hu.counted.release_ok hv

/-- Version `1` is used, and then removed by a call that waits. -/
def removesIdle : List MuxEvent :=
  let v : VersionRef := ⟨0, [49]⟩
  [.prepare v, .getVersion [49], .release v, .remove v true, .advance ⟨v, true, .called⟩,
    .advance ⟨v, true, .marked ⟨v, 0, false, true⟩⟩, .advance ⟨v, true, .armed ⟨v, 0, true, true⟩⟩,
    .advance ⟨v, true, .expired ⟨v, 0, true, true⟩⟩,
    .advance ⟨v, true, .deleted ⟨v, 0, true, true⟩⟩]

theorem returned_unused_idle :
    ∃ h : MuxHistory, h.returned = [⟨0, [49]⟩] ∧
      (h.state.mux.getVersion [49]).2 ≠ some ⟨0, [49]⟩ := by
  have hreach :
      (muxHistoryMachine.restrict fun h e => h.Orderly e ∧ h.InPlace e).Reachable _ :=
    .runGuarded (.start rfl) removesIdle rfl
  exact ⟨_, by decide, ((returned_unused hreach).1 ⟨0, [49]⟩ (by decide)).2.2.2 [49]⟩

/-- Two calls remove version `1`, one of them waits. The other deletes the entry and returns
before the timer is set. -/
def removesTwice : List MuxEvent :=
  let v : VersionRef := ⟨0, [49]⟩
  [.prepare v, .remove v true, .remove v false, .advance ⟨v, true, .called⟩,
    .advance ⟨v, false, .called⟩, .advance ⟨v, false, .expired ⟨v, 0, false, true⟩⟩,
    .advance ⟨v, false, .deleted ⟨v, 0, false, true⟩⟩,
    .advance ⟨v, true, .marked ⟨v, 0, false, true⟩⟩]

/-- Then the version is back in the map, and requests get it although it was returned. -/
theorem timer_brings_back :
    ∃ h, (muxHistoryMachine.restrict MuxHistory.Orderly).Reachable h ∧
      ⟨0, [49]⟩ ∈ h.returned ∧ (h.state.mux.getVersion [49]).2 = some ⟨0, [49]⟩ :=
  ⟨_, .runGuarded (.start rfl) removesTwice rfl, by decide, by decide⟩

/-! ## At most one call returns a version

A call takes a version for its own at its first critical section, if it finds the entry unmarked.
`owners` counts those that have: it stays at one at most if the mark is stored, or the entry is
gone, before the next call looks. -/

/-- The call has marked its copy of the entry, and the map does not show it: the copy is not
stored, and the entry not deleted. -/
def RemoveCall.unstored : RemoveCall → Bool
  | ⟨_, _, .marked _⟩ => true
  | ⟨_, shouldWait, .expired _⟩ => !shouldWait
  | _ => false

/-- The call is for the name, and has got past its first critical section. -/
def RemoveCall.busy (name : Bytes) (call : RemoveCall) : Bool :=
  decide (call.version.name = name) && call.stage.entry.isSome

/-- Where a call stands shows in the map. -/
def RemoveCall.Shows (s : MuxState) (call : RemoveCall) : Prop :=
  match call.stage with
  | .called => True
  | .marked vs => call.shouldWait = true ∧ vs.removing = true ∧
    ∃ e, s.mux.versions.lookup call.version.name = some e
  | .armed vs => call.shouldWait = true ∧ vs.removing = true ∧
    ∃ e, s.mux.versions.lookup call.version.name = some e ∧ e.removing = true
  | .expired vs => vs.removing = true ∧
    ∃ e, s.mux.versions.lookup call.version.name = some e ∧
      (call.shouldWait = true → e.removing = true)
  | .deleted _ => s.Gone call.version.name

namespace MuxHistory

variable {h h' : MuxHistory} {e : MuxEvent}

/-- No call takes a version for its own as long as another has marked it and not stored the
mark. -/
def Alone (h : MuxHistory) : MuxEvent → Prop
  | .advance ⟨v, _, .called⟩ =>
    ∀ c ∈ h.state.removals, c.version.name = v.name → c.unstored = false
  | _ => True

instance (h : MuxHistory) : DecidablePred h.Alone := fun e =>
  match e with
  | .advance ⟨v, _, .called⟩ => inferInstanceAs
    (Decidable (∀ c ∈ h.state.removals, c.version.name = v.name → c.unstored = false))
  | .advance ⟨_, _, .marked _⟩ | .advance ⟨_, _, .armed _⟩ | .advance ⟨_, _, .expired _⟩
  | .advance ⟨_, _, .deleted _⟩ => isTrue trivial
  | .prepare _ | .upgrade _ | .getCurrent | .getVersion _ | .release _ | .remove _ _ =>
    isTrue trivial

/-- How many calls have, or had, taken the version with the name for their own. -/
def owners (h : MuxHistory) (name : Bytes) : ℕ :=
  h.state.removals.countP (RemoveCall.busy name) + (h.returned.map VersionRef.name).count name

/-- What holds as long as no call takes what another has marked. -/
structure Single (h : MuxHistory) : Prop where
  /-- counts are right -/
  counted : h.state.Counted
  /-- one call has taken a version, or none -/
  one : ∀ name, h.owners name ≤ 1
  /-- where the calls stand -/
  removals : ∀ call ∈ h.state.removals, call.Shows h.state
  /-- what was returned is gone -/
  returned : ∀ v ∈ h.returned, h.state.Gone v.name

theorem single_new : new.Single where
  counted := MuxState.counted_new
  one := fun _ => Nat.zero_le _
  removals := fun _ hc => by cases hc
  returned := fun _ hv => by cases hv

theorem countP_erase_add {p : RemoveCall → Bool} {call : RemoveCall} {calls : List RemoveCall}
    (hcall : call ∈ calls) :
    calls.countP p = (calls.erase call).countP p + if p call then 1 else 0 := by
  rw [(List.perm_cons_erase hcall).countP_eq, List.countP_cons]

/-- The call that has taken a version is the only one. -/
theorem Single.alone (hs : h.Single) {call : RemoveCall} (hcall : call ∈ h.state.removals)
    (hbusy : call.stage.entry.isSome = true) :
    (∀ c ∈ h.state.removals.erase call, c.stage.entry.isSome = true →
      c.version.name ≠ call.version.name) ∧
    ∀ v ∈ h.returned, v.name ≠ call.version.name := by
  have hone := hs.one call.version.name
  rw [owners, countP_erase_add hcall, if_pos (by simp [RemoveCall.busy, hbusy])] at hone
  refine ⟨fun c hc hcbusy hname => ?_, fun v hv hname => ?_⟩
  · have hpos : 0 < (h.state.removals.erase call).countP (RemoveCall.busy call.version.name) :=
      List.countP_pos_iff.mpr ⟨c, hc, by simp [RemoveCall.busy, hname, hcbusy]⟩
    omega
  · have hpos : 0 < (h.returned.map VersionRef.name).count call.version.name :=
      List.count_pos_iff.mpr (hname ▸ List.mem_map_of_mem hv)
    omega

/-- What a call has taken is not changed by other calls. -/
theorem Single.lookup_of_steps (hsingle : h.Single) (hs : h.state.Steps e h'.state)
    {c : RemoveCall} (hc : c ∈ h.state.removals) (hbusy : c.stage.entry.isSome = true)
    (hother : ∀ call, e = .advance call → c ∈ h.state.removals.erase call) :
    h'.state.mux.versions.lookup c.version.name = h.state.mux.versions.lookup c.version.name := by
  by_cases hfree : ∃ call, e = .advance call ∧ call.stage = .called
  · -- the first critical section leaves the map alone
    obtain ⟨call, rfl, hcalled⟩ := hfree
    generalize h'.state = s' at hs
    cases hs with
    | next hcall hm =>
      obtain ⟨_, _, _, rfl, _⟩ | ⟨_, hstage, _, _⟩ | ⟨_, hstage, _, _⟩ | ⟨_, hstage, _, _⟩ :=
        RemoveCall.advance_next hm
      · rfl
      all_goals cases hcalled.symm.trans hstage
    | returnsNil hcall hm => rfl
    | returnsVersion hcall hm => rfl
  · obtain ⟨vs, hvs⟩ := Option.isSome_iff_exists.mp hbusy
    obtain ⟨hname, hpair⟩ := hsingle.counted.copies c hc vs hvs
    refine MuxState.lookup_of_steps hs ⟨_, hpair, hname⟩ fun call he hsame => ?_
    subst he
    have hcallbusy : call.stage.entry.isSome = true := by
      rcases hcase : call.stage with _ | vs | vs | vs | vs
      · exact absurd ⟨call, rfl, hcase⟩ hfree
      all_goals rfl
    exact (hsingle.alone (MuxState.mem_removals_of_steps hs) hcallbusy).1 c (hother call rfl) hbusy
      hsame.symm

/-- Other calls do not notice an event. -/
theorem Single.shows_of_steps (hsingle : h.Single) (hs : h.state.Steps e h'.state)
    {c : RemoveCall} (hc : c ∈ h.state.removals)
    (hother : ∀ call, e = .advance call → c ∈ h.state.removals.erase call) :
    c.Shows h'.state := by
  have hshows := hsingle.removals c hc
  have hlookup := hsingle.lookup_of_steps hs hc
  have hcopies := hsingle.counted.copies c hc
  obtain ⟨v, shouldWait, stage⟩ := c
  cases stage with
  | called => trivial
  | deleted vs =>
    obtain ⟨hname, hpair⟩ := hcopies vs rfl
    refine ⟨⟨_, MuxState.prepared_of_steps hs _ hpair, hname⟩, ?_⟩
    exact (hlookup rfl hother).trans hshows.2
  | marked vs | armed vs | expired vs =>
    dsimp only [RemoveCall.Shows] at hshows ⊢
    rw [hlookup rfl hother]
    exact hshows

/-- A call takes a version that no other call has taken. -/
theorem Single.owners_of_called (hsingle : h.Single) {call : RemoveCall} {m : Mux}
    {stage : RemoveStage} (halone : h.Alone (.advance call)) (hstage : call.stage = .called)
    (hm : call.advance h.state.mux = .next m stage) : h.owners call.version.name = 0 := by
  obtain ⟨vs, hlook, hremoving, -⟩ := RemoveCall.advance_called hstage hm
  have hunstored : ∀ c ∈ h.state.removals, c.version.name = call.version.name →
      c.unstored = false := by
    obtain ⟨v, shouldWait, stage'⟩ := call
    obtain rfl : stage' = .called := hstage
    exact halone
  have hnot : ¬ h.state.Gone call.version.name := by
    rintro ⟨-, hnone⟩
    rw [hlook] at hnone
    cases hnone
  rw [owners, Nat.add_eq_zero_iff, List.countP_eq_zero, List.count_eq_zero]
  refine ⟨fun c hc hbusy => ?_, fun hmem => ?_⟩
  · rw [RemoveCall.busy, Bool.and_eq_true, decide_eq_true_iff] at hbusy
    obtain ⟨hname, hbusy⟩ := hbusy
    have hstored := hunstored c hc hname
    have hshows := hsingle.removals c hc
    obtain ⟨w, shouldWait, stage'⟩ := c
    -- each stage would show in the entry that the call has found
    cases stage' with
    | called => cases hbusy
    | marked vs' => cases hstored
    | armed vs' =>
      obtain ⟨-, -, e', he', hrem⟩ := hshows
      rw [hname, hlook] at he'
      obtain rfl := Option.some.inj he'
      rw [hremoving] at hrem
      cases hrem
    | expired vs' =>
      obtain ⟨-, e', he', hrem⟩ := hshows
      rw [hname, hlook] at he'
      obtain rfl := Option.some.inj he'
      rw [hrem (by simpa [RemoveCall.unstored] using hstored)] at hremoving
      cases hremoving
    | deleted vs' => exact hnot (hname ▸ hshows)
  · obtain ⟨v, hv, hname⟩ := List.mem_map.mp hmem
    exact hnot (hname ▸ hsingle.returned v hv)

/-- Where a call stands after its next action. -/
theorem Single.shows_next (hsingle : h.Single) {call : RemoveCall}
    (hcall : call ∈ h.state.removals) {m : Mux} {stage : RemoveStage}
    (hm : call.advance h.state.mux = .next m stage) (removals : List RemoveCall) :
    RemoveCall.Shows { h.state with mux := m, removals := removals }
      { call with stage := stage } := by
  have hshows := hsingle.removals call hcall
  have hcopies := hsingle.counted.copies call hcall
  rw [RemoveCall.Shows.eq_def] at hshows
  obtain ⟨vs, hstage, -, rfl, -⟩ | ⟨vs, hstage, rfl, rfl⟩ | ⟨vs, hstage, rfl, rfl⟩ |
    ⟨vs, hstage, rfl, rfl⟩ := RemoveCall.advance_next hm
  · obtain ⟨e, hlook, -, rfl⟩ := RemoveCall.advance_called hstage hm
    cases hwait : call.shouldWait with
    | true => exact ⟨rfl, rfl, e, hlook⟩
    | false => exact ⟨rfl, e, hlook, fun h => by cases h⟩
  · simp only [hstage] at hshows
    obtain ⟨hwait, hremoving, -⟩ := hshows
    exact ⟨hwait, hremoving, _, AList.lookup_insert _, hremoving⟩
  · simp only [hstage] at hshows
    obtain ⟨-, hremoving, e, he, hrem⟩ := hshows
    exact ⟨hremoving, e, he, fun _ => hrem⟩
  · obtain ⟨hname, hpair⟩ := hcopies vs (by rw [hstage]; rfl)
    exact ⟨⟨_, hpair, hname⟩, AList.lookup_erase _ _⟩

/-- An action of a call that goes on: it takes a version at its first critical section, and
keeps it. -/
theorem Single.owners_next (hsingle : h.Single) {call : RemoveCall}
    (halone : h.Alone (.advance call)) (hcall : call ∈ h.state.removals) {m : Mux}
    {stage : RemoveStage} (hm : call.advance h.state.mux = .next m stage) (name : Bytes) :
    ({ call with stage := stage } :: h.state.removals.erase call).countP (RemoveCall.busy name) +
      (h.returned.map VersionRef.name).count name ≤ 1 := by
  have hone := hsingle.one name
  rw [owners, countP_erase_add hcall] at hone
  rw [List.countP_cons]
  by_cases hname : call.version.name = name
  · by_cases hstage : call.stage = .called
    · have hzero := hsingle.owners_of_called halone hstage hm
      rw [owners, countP_erase_add hcall, hname] at hzero
      split <;> omega
    · have hbusy : call.busy name = true := by
        rw [RemoveCall.busy, Bool.and_eq_true, decide_eq_true_iff]
        refine ⟨hname, ?_⟩
        rcases hcase : call.stage with _ | vs | vs | vs | vs
        · exact absurd hcase hstage
        all_goals rfl
      rw [if_pos hbusy] at hone
      split <;> omega
  · have hnot : ∀ stage', ({ call with stage := stage' } : RemoveCall).busy name = false := by
      intro stage'
      simp [RemoveCall.busy, hname]
    rw [if_neg (by rw [hnot]; simp)]
    omega

/-- What is gone stays gone: a call that stores its copy has found the entry, and nobody else
has deleted it. -/
theorem Single.gone_of_steps (hsingle : h.Single) (hs : h.state.Steps e h'.state) {name : Bytes}
    (hgone : h.state.Gone name) : h'.state.Gone name := by
  refine hgone.step hs fun call vs he hstage hnone => ?_
  subst he
  have hshows := hsingle.removals call (MuxState.mem_removals_of_steps hs)
  rw [RemoveCall.Shows, hstage] at hshows
  obtain ⟨-, -, c, hc⟩ := hshows
  rw [hc] at hnone
  cases hnone

theorem Single.removals_step (hsingle : h.Single) (hs : h.state.Steps e h'.state) :
    ∀ call ∈ h'.state.removals, call.Shows h'.state := by
  have hkeep : (∀ call, e ≠ .advance call) → ∀ c ∈ h.state.removals, c.Shows h'.state :=
    fun he c hc => hsingle.shows_of_steps hs hc fun call hcall => absurd hcall (he call)
  have hrest : ∀ call, e = .advance call → ∀ c ∈ h.state.removals.erase call,
      c.Shows h'.state := by
    rintro call rfl c hc
    refine hsingle.shows_of_steps hs (List.mem_of_mem_erase hc) fun call' he => ?_
    obtain rfl := MuxEvent.advance.inj he
    exact hc
  generalize h'.state = s' at hs hkeep hrest
  cases hs with
  | remove v shouldWait =>
    exact List.forall_mem_cons.mpr ⟨trivial, hkeep fun _ he => by cases he⟩
  | next hcall hm =>
    exact List.forall_mem_cons.mpr ⟨hsingle.shows_next hcall hm _, hrest _ rfl⟩
  | returnsNil hcall hm => exact hrest _ rfl
  | returnsVersion hcall hm => exact hrest _ rfl
  | _ => exact hkeep fun _ he => by cases he

/-- A call that returns a version had taken it. -/
theorem Single.owners_step (hsingle : h.Single) (halone : h.Alone e) (hs : h.state.Steps e h'.state)
    (hreturned : h'.returned = e.returned h.state.mux ++ h.returned) (name : Bytes) :
    h'.owners name ≤ 1 := by
  have hone := hsingle.one name
  rw [owners, hreturned]
  generalize h'.state = s' at hs
  cases hs with
  | remove v shouldWait =>
    have hidle : RemoveCall.busy name ⟨v, shouldWait, .called⟩ = false := Bool.and_false _
    rw [List.countP_cons_of_neg (by rw [hidle]; simp)]
    exact hone
  | @next call hcall m stage hm =>
    rw [MuxEvent.returned, hm]
    exact hsingle.owners_next halone hcall hm name
  | @returnsNil call hcall hm =>
    rw [owners, countP_erase_add hcall] at hone
    rw [MuxEvent.returned, hm]
    dsimp only [List.nil_append]
    omega
  | @returnsVersion call hcall hm =>
    obtain ⟨vs, hstage, -⟩ := RemoveCall.advance_returnsVersion hm
    have hbusy : call.busy name = decide (call.version.name = name) := by
      rw [RemoveCall.busy, hstage]
      exact Bool.and_true _
    rw [owners, countP_erase_add hcall, hbusy] at hone
    rw [MuxEvent.returned, hm]
    simp only [List.singleton_append, List.map_cons, List.count_cons, beq_iff_eq]
    simp only [decide_eq_true_eq] at hone
    omega
  | _ => exact hone

theorem Single.step (hsingle : h.Single) (halone : h.Alone e) (hs : h.step e = some h') :
    h'.Single := by
  obtain ⟨hs, -, hreturned⟩ := steps_of_step hs
  refine ⟨hsingle.counted.step hs, hsingle.owners_step halone hs hreturned,
    hsingle.removals_step hs, fun v hv => hsingle.gone_of_steps hs ?_⟩
  rw [hreturned] at hv
  obtain hv | hv := List.mem_append.mp hv
  · obtain ⟨call, rfl, hm, rfl⟩ := mem_returned hv
    obtain ⟨vs, hstage, -⟩ := RemoveCall.advance_returnsVersion hm
    have hshows := hsingle.removals call (MuxState.mem_removals_of_steps hs)
    rw [RemoveCall.Shows, hstage] at hshows
    exact hshows
  · exact hsingle.returned v hv

end MuxHistory

/-- **At most one call of `remove` returns a version, as long as no call begins between the mark
of another and its being stored.** In every state of every such run, whatever the calls wait
for and whoever uses the version. -/
theorem returned_once {h : MuxHistory}
    (hreach : (muxHistoryMachine.restrict MuxHistory.Alone).Reachable h) :
    (h.returned.map VersionRef.name).Nodup := by
  have hsingle : h.Single := by
    refine hreach.invariant (fun h hh => ?_) fun h e h' _ hsingle hs => ?_
    · obtain rfl : h = .new := hh
      exact MuxHistory.single_new
    · obtain ⟨halone, hs⟩ := hs
      exact hsingle.step halone hs
  refine List.nodup_iff_count_le_one.mpr fun name => ?_
  have hone := hsingle.one name
  rw [MuxHistory.owners] at hone
  omega

/-- A second call for version `1` begins when the first has stored its mark, and returns nil. -/
def removesAgain : List MuxEvent :=
  let v : VersionRef := ⟨0, [49]⟩
  [.prepare v, .remove v true, .remove v false, .advance ⟨v, true, .called⟩,
    .advance ⟨v, true, .marked ⟨v, 0, false, true⟩⟩, .advance ⟨v, false, .called⟩,
    .advance ⟨v, true, .armed ⟨v, 0, true, true⟩⟩, .advance ⟨v, true, .expired ⟨v, 0, true, true⟩⟩,
    .advance ⟨v, true, .deleted ⟨v, 0, true, true⟩⟩]

theorem returned_once_again :
    ∃ h : MuxHistory, h.returned = [⟨0, [49]⟩] ∧ (h.returned.map VersionRef.name).Nodup := by
  have hreach : (muxHistoryMachine.restrict MuxHistory.Alone).Reachable _ :=
    .runGuarded (.start rfl) removesAgain rfl
  exact ⟨_, by decide, returned_once hreach⟩

/-- Two calls that do not wait both find the entry unmarked. -/
def removesBoth : List MuxEvent :=
  let v : VersionRef := ⟨0, [49]⟩
  let vs : Entry := ⟨v, 0, false, true⟩
  [.prepare v, .remove v false, .remove v false, .advance ⟨v, false, .called⟩,
    .advance ⟨v, false, .called⟩, .advance ⟨v, false, .expired vs⟩,
    .advance ⟨v, false, .expired vs⟩, .advance ⟨v, false, .deleted vs⟩,
    .advance ⟨v, false, .deleted vs⟩]

/-- Then both return the version. -/
theorem both_return :
    ∃ h, muxHistoryMachine.Reachable h ∧ h.returned = [⟨0, [49]⟩, ⟨0, [49]⟩] :=
  ⟨_, .run (.start rfl) removesBoth rfl, by decide⟩

end Sequins
