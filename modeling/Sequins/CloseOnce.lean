import Sequins.Handover
import Sequins.Node

/-!
# Closing a version once

`version.close` closes a channel, so a second call for the same version panics. Two paths lead
to it. `removeVersion` closes what it took out of the multiplexer, and takes out each version at
most once, as long as nobody puts another one under the same name. `db.close` closes what is in
the multiplexer and leaves it there; closing a version also closes its `ready`, which wakes up
the goroutine that upgrades to it, which removes the versions before it, closed or not.

So a version can be closed twice (`dropsPrepared_closes_twice`). It is not, if `db.close` finds
one version at most, nothing newer is prepared in a db that was closed, and no name is prepared
again while somebody is left who may remove an earlier version of that name
(`closed_at_most_once`).
-/

namespace Sequins

instance (m : Mux) (v : VersionRef) : Decidable (m.Has v) :=
  decidable_of_iff ((m.versions.lookup v.name).map Entry.version = some v) (by
    rw [Option.map_eq_some_iff]
    rfl)

/-- With one entry at most, what `getAll` finds is all there is. -/
theorem Mux.getAll_eq_singleton {m : Mux} {order : IterOrder (Σ _ : Bytes, Entry)} {v : VersionRef}
    (hlen : m.versions.entries.length ≤ 1) (hv : v ∈ m.getAll order) : m.getAll order = [v] := by
  have hlen' : (m.getAll order).length ≤ 1 := by
    rw [Mux.getAll, List.length_map, (order.perm _).length_eq]
    exact hlen
  obtain ⟨w, hw⟩ := List.length_eq_one_iff.mp (le_antisymm hlen' (List.length_pos_of_mem hv))
  rw [hw] at hv ⊢
  rw [List.mem_singleton.mp hv]

namespace DB

variable {d d' : DB} {e : DBEvent} {peers : Bool}

/-! ## The multiplexer over one event -/

/-- What was in the multiplexer is there still, unless it is what `removeVersion` deletes. -/
theorem Effect.keeps (h : d.Effect e d') (hsound : d.Sound) {v : VersionRef} (hv : d.mux.Has v) :
    d'.mux.Has v ∨ d.mux.Outdated v ∧ d'.removing = [] := by
  obtain ⟨vs, hvs, rfl⟩ := hv
  cases h with
  | keep mux | close v byDB mux | drained e zero mux =>
    rw [mux]
    exact .inl ⟨vs, hvs, rfl⟩
  | acquire oe found _ mux => exact .inl ⟨vs, by rwa [mux, Mux.acquire_versions], rfl⟩
  | release v mux => exact .inl ⟨vs, by rwa [(Mux.release_frame mux).1], rfl⟩
  | prepare v caller refresher mux =>
    have hgrows := Mux.grows_prepare mux (hsound.refresher _ refresher).2.2
    exact .inl ⟨vs, hgrows.entries _ vs hvs, rfl⟩
  | upgrade v mux =>
    obtain ⟨e, -, -, hm⟩ := Mux.upgrade_cases mux
    exact .inl ⟨vs, by rwa [hm], rfl⟩
  | arm call e cleaner stage mux =>
    obtain ⟨-, hok⟩ := hsound.cleaner _ cleaner
    rw [stage] at hok
    obtain ⟨old, hold, hpair⟩ := hok
    rw [mux]
    have hcopy := Mux.has_armTimer (e := { e with closeTimer := true }) hold hpair vs.version
    exact .inl (hcopy.mpr ⟨vs, hvs, rfl⟩)
  | delete call e cleaner stage mux unreleased before drain =>
    by_cases hname : vs.version.name = call.version.name
    · right
      obtain ⟨⟨-, hout⟩, -⟩ := hsound.cleaner _ cleaner
      refine ⟨Mux.Outdated.of_le hout hname.le, ?_⟩
      rw [DB.drain] at drain
      split at drain
      · rw [removing, ‹d'.cleaner = _›]
        rfl
      · cases drain
    · left
      refine ⟨vs, ?_, rfl⟩
      rwa [mux, Mux.delete, AList.lookup_erase_ne hname]

/-- `switchVersion` stays before `prepare` until it goes on itself. -/
theorem act_switch {v : VersionRef} {caller : SwitchCaller}
    (hr : d.refresher = some (.switch v caller)) (hs : d.act peers e = some d') :
    e = .refresherNext ∨ d'.refresher = some (.switch v caller) := by
  have hattempt : ∀ (r : Except Panic Mux) (go : Mux → DB),
      (∀ m, (go m).refresher = some (.switch v caller)) →
        (d.attempt r go).refresher = some (.switch v caller) := by
    intro r go hgo
    cases r with
    | error p => exact hr
    | ok m => exact hgo m
  have hreturns : ∀ (d₁ : DB) call, d₁.refresher = some (.switch v caller) →
      (d₁.upgradeReturns call).refresher = some (.switch v caller) := by
    intro d₁ call h
    rw [upgradeReturns]
    dsimp only
    rw [h, ite_self]
  cases acts_of_act hs with
  | refresherNext => exact .inl rfl
  | release => exact .inr (hattempt _ _ fun _ => hr)
  | refresh hnone | close hnone =>
    rw [hr] at hnone
    cases hnone
  | listVersions hs => simp [onListVersions, hr] at hs
  | newVersion hs => simp [onNewVersion, hr] at hs
  | upgraderNext hs =>
    cases upgrades_of_upgraderNext hs with
    | outdated | same => exact .inr (hattempt _ _ fun _ => hreturns _ _ hr)
    | newer | switch => exact .inr (hattempt _ _ fun _ => hr)
    | sweep => exact .inr (hreturns _ _ hr)
  | cleanerNext hs =>
    cases cleans_of_cleanerNext hs with
    | next | returnsNil | returnsVersion | cleaned | loop | clear => exact .inr hr
    | close =>
      rw [closeVersion_eq]
      exact .inr hr
    | gotVersion => exact .inr (hattempt _ _ fun _ => hr)
  | getCurrent | getVersion | partitionsReady | ready | wake | upgrade | remove | cleanup =>
    exact .inr hr

/-- The version that `switchVersion` is going to prepare. -/
def toPrepare (d : DB) : List VersionRef :=
  match d.refresher with
  | some (.switch v _) => [v]
  | _ => []

/-- What is under a name was there before, or was just prepared by `switchVersion`. -/
theorem lookup_act (hsound : d.Sound) (hsound' : d'.Sound) (hs : d.act peers e = some d')
    {name : Bytes} {vs : Entry} (hvs : d'.mux.versions.lookup name = some vs) :
    (∃ old, d.mux.versions.lookup name = some old ∧ old.version = vs.version) ∨
      e = .refresherNext ∧ name = vs.version.name ∧ vs.version ∈ d.toPrepare ∧
        ∃ caller, d.refresher = some (.switch vs.version caller) := by
  refine ((effect_act hs).lookup hsound hvs).imp id ?_
  rintro ⟨⟨caller, hr⟩, rfl⟩
  obtain rfl | hr' := act_switch hr hs
  · refine ⟨rfl, rfl, ?_, caller, hr⟩
    rw [toPrepare, hr]
    exact List.mem_singleton_self _
  · -- it is not prepared yet
    have habsent := (hsound'.refresher _ hr').1.2 _ List.mem_cons_self
    rw [hvs] at habsent
    cases habsent

/-! ## The condition

`db.close` takes its list once and closes it one by one, so two versions are enough for trouble:
the one that it closes is made ready by that, and upgrading to it has the other one removed. And
when a name comes back while an old version of that name is still to be removed, the new one is
removed in its place. -/

/-- The event does not lead to a second close: `db.close` finds one version at most, and a version
is prepared when no older one that was closed is in the multiplexer, and nobody is left who may
remove an earlier version of its name. -/
def Careful (d : DB) : DBEvent → Prop
  | .close _ => d.mux.versions.entries.length ≤ 1
  | .refresherNext => ∀ v ∈ d.toPrepare,
    (∀ w ∈ d.cancelled, d.mux.Has w → v.name < w.name) ∧ ∀ w ∈ d.pending, w.name ≠ v.name
  | _ => True

instance (d : DB) : DecidablePred d.Careful
  | .close _ => inferInstanceAs (Decidable (_ ≤ 1))
  | .refresherNext => inferInstanceAs (Decidable (∀ v ∈ d.toPrepare, _ ∧ _))
  | .getCurrent | .getVersion _ | .release _ | .partitionsReady _ | .ready _ | .wake _ | .refresh
  | .listVersions _ | .newVersion _ | .upgrade _ | .upgraderNext _ | .remove _ | .cleanup _
  | .cleanerNext => .isTrue trivial

/-- `db.close` was not called. -/
def Unclosed (d : DB) : Prop := d.toClose = [] ∧ ∀ c ∈ d.closes, c.byDB = false

/-! ## The invariant

A version is on its way to being closed in one of two lists, `removed` or `toClose`, and each of
its stations must rule out the others. That is what the fields before `closes` are for. -/

/-- What holds of a db as long as its events are careful. -/
structure Once (d : DB) : Prop where
  /-- under the name of a pending version there is no other -/
  pending : ∀ v ∈ d.pending, ∀ vs, d.mux.versions.lookup v.name = some vs → vs.version = v
  /-- the entry that is being removed is that of the version -/
  removing : ∀ v ∈ d.removing, d.mux.Has v
  /-- what `removeVersion` is going to close is open -/
  removed : ∀ v ∈ d.removed, v ∉ d.cancelled
  /-- so is what `db.close` is going to close, and there is nothing else -/
  toClose : ∀ v ∈ d.toClose,
    d.toClose = [v] ∧ d.mux.Has v ∧ (∀ w, d.mux.Has w → w = v) ∧ v ∉ d.cancelled
  /-- a closed version that is still there was closed by `db.close`, and nothing is newer -/
  cancelled : ∀ v ∈ d.cancelled, d.mux.Prepared v ∧
    (d.mux.Has v → (∀ w, d.mux.Has w → w.name ≤ v.name) ∧ ∃ c ∈ d.closes, c.byDB = true)
  /-- no version was closed twice -/
  closes : (d.closes.map Close.version).Nodup ∧ ∀ c ∈ d.closes, c.version ∈ d.cancelled
  /-- nor tried to -/
  panic : d.panic ≠ some .closeOfClosedChannel

theorem once_new : new.Once where
  pending := fun _ hv => by cases hv
  removing := fun _ hv => by cases hv
  removed := fun _ hv => by cases hv
  toClose := fun _ hv => by cases hv
  cancelled := fun _ hv => by cases hv
  closes := ⟨List.nodup_nil, fun _ hc => by cases hc⟩
  panic := fun h => by cases h

/-- A version with nothing newer beside it is not outdated. -/
theorem Sound.not_outdated (h : d.Sound) {v : VersionRef}
    (hv : ∀ w, d.mux.Has w → w.name ≤ v.name) : ¬ d.mux.Outdated v := by
  rintro ⟨vs, hvs, hlt⟩
  exact absurd (hv _ (h.current vs hvs)) (not_le.mpr hlt)

/-! ## One event

The fields of `Once`, one by one; `act` puts them together. What may have changed in the
multiplexer is in `Careful.lookup`, and what has been handed from one goroutine to another is in
`Handover`. -/

/-- What is under a name was there before, or was prepared with care. -/
theorem Careful.lookup (hcareful : d.Careful e) (hsound : d.Sound) (hsound' : d'.Sound)
    (hs : d.act peers e = some d') {name : Bytes} {vs : Entry}
    (hvs : d'.mux.versions.lookup name = some vs) :
    (∃ old, d.mux.versions.lookup name = some old ∧ old.version = vs.version) ∨
      name = vs.version.name ∧ d.toClose = [] ∧ ¬ d.mux.Prepared vs.version ∧
        (∀ w ∈ d.cancelled, d.mux.Has w → vs.version.name < w.name) ∧
        ∀ w ∈ d.pending, w.name ≠ vs.version.name := by
  refine (lookup_act hsound hsound' hs hvs).imp id ?_
  rintro ⟨rfl, hname, hprepare, caller, hr⟩
  exact ⟨hname, by rw [DB.toClose, hr]; rfl, (hsound.refresher _ hr).2.2, hcareful _ hprepare⟩

/-- The same for versions: one that is there now was there, or is prepared with care. -/
theorem Careful.has (hcareful : d.Careful e) (hsound : d.Sound) (hsound' : d'.Sound)
    (hs : d.act peers e = some d') {v : VersionRef} (hv : d'.mux.Has v) :
    d.mux.Has v ∨ d.toClose = [] ∧ ¬ d.mux.Prepared v ∧
      ∀ w ∈ d.cancelled, d.mux.Has w → v.name < w.name := by
  obtain ⟨vs, hvs, rfl⟩ := hv
  obtain hold | ⟨-, hclose, hprepared, hnewer, -⟩ := hcareful.lookup hsound hsound' hs hvs
  · exact .inl hold
  · exact .inr ⟨hclose, hprepared, hnewer⟩

namespace Once

/-- Under the name of a pending version nothing else appears. -/
theorem lookup_pending (h : d.Once) (hcareful : d.Careful e) (hsound : d.Sound) (hsound' : d'.Sound)
    (hs : d.act peers e = some d') {v : VersionRef} (hv : v ∈ d.pending) {vs : Entry}
    (hvs : d'.mux.versions.lookup v.name = some vs) : vs.version = v := by
  obtain ⟨old, hold, hversion⟩ | ⟨hname, -, -, -, hother⟩ := hcareful.lookup hsound hsound' hs hvs
  · exact hversion.symm.trans (h.pending v hv old hold)
  · exact absurd hname (hother v hv)

/-- What becomes pending is in the multiplexer then. -/
theorem pending_keeps (h : d.Once) (hcareful : d.Careful e) (hsound : d.Sound) (hsound' : d'.Sound)
    (hs : d.act peers e = some d') (hhand : Handover e d d') {v : VersionRef} (hv : v ∈ d'.pending)
    {w : Entry} (hw : d'.mux.versions.lookup v.name = some w) : w.version = v := by
  obtain hv | ⟨w', hw', rfl⟩ := hhand.pending v hv
  · exact h.lookup_pending hcareful hsound hsound' hs hv hw
  · rw [Option.some.inj (hw.symm.trans hw')]

/-- The entry that `removeVersion` waits for stays that of its version. -/
theorem removing_keeps (h : d.Once) (hcareful : d.Careful e) (hsound : d.Sound)
    (hsound' : d'.Sound) (hs : d.act peers e = some d') (hhand : Handover e d d') {v : VersionRef}
    (hv : v ∈ d'.removing) : d'.mux.Has v := by
  obtain hold | ⟨hpend, vs, hvs⟩ := hhand.removing v hv
  · obtain hhas | ⟨-, hnil⟩ := (effect_act hs).keeps hsound (h.removing v hold)
    · exact hhas
    · rw [hnil] at hv
      cases hv
  · exact ⟨vs, hvs, h.lookup_pending hcareful hsound hsound' hs hpend hvs⟩

/-- What `removeVersion` goes on to close is open. -/
theorem removed_open (h : d.Once) (hsound : d.Sound) (hhand : Handover e d d') {v : VersionRef}
    (hv : v ∈ d'.removed) : v ∉ d.cancelled := by
  obtain hv | hv := hhand.removed v hv
  · exact h.removed v hv
  · intro hc
    have hnewest := ((h.cancelled v hc).2 (h.removing v hv)).1
    exact hsound.not_outdated hnewest (hsound.removing hv)

/-- What was closed stays closed, and nothing newer is put beside it. -/
theorem cancelled_keeps (h : d.Once) (hcareful : d.Careful e) (hsound : d.Sound)
    (hsound' : d'.Sound) (hs : d.act peers e = some d') {v : VersionRef} (hv : v ∈ d.cancelled) :
    d'.mux.Prepared v ∧ (d'.mux.Has v →
      (∀ w, d'.mux.Has w → w.name ≤ v.name) ∧ ∃ c ∈ d.closes, c.byDB = true) := by
  obtain ⟨hprepared, hnewest⟩ := h.cancelled v hv
  refine ⟨(effect_act hs).prepared hprepared, fun hhas => ?_⟩
  have hbefore : d.mux.Has v := by
    obtain hbefore | ⟨-, hnot, -⟩ := hcareful.has hsound hsound' hs hhas
    · exact hbefore
    · exact absurd hprepared hnot
  refine ⟨fun w hw => ?_, (hnewest hbefore).2⟩
  obtain hw | ⟨-, -, hnewer⟩ := hcareful.has hsound hsound' hs hw
  · exact (hnewest hbefore).1 w hw
  · exact (hnewer v hv hbefore).le

/-- As long as `db.close` is at work, its version is the only one. -/
theorem toClose_keeps (h : d.Once) (hcareful : d.Careful e) (hsound : d.Sound)
    (hsound' : d'.Sound) (hs : d.act peers e = some d') {v : VersionRef} (hv : v ∈ d.toClose) :
    d'.mux.Has v ∧ ∀ w, d'.mux.Has w → w = v := by
  obtain ⟨-, hhas, honly, -⟩ := h.toClose v hv
  constructor
  · obtain hhas' | ⟨hout, -⟩ := (effect_act hs).keeps hsound hhas
    · exact hhas'
    · refine absurd hout (hsound.not_outdated fun w hw => ?_)
      rw [honly w hw]
  · intro w hw
    obtain hw | ⟨hnil, -, -⟩ := hcareful.has hsound hsound' hs hw
    · exact honly w hw
    · rw [hnil] at hv
      cases hv

/-- A version is closed that was open. -/
theorem closes_cons (h : d.Once) {v : VersionRef} (hv : v ∉ d.cancelled) (byDB : Bool) :
    (((⟨v, byDB⟩ : Close) :: d.closes).map Close.version).Nodup ∧
      ∀ c ∈ (⟨v, byDB⟩ : Close) :: d.closes, c.version ∈ insert v d.cancelled := by
  refine ⟨List.nodup_cons.mpr ⟨fun hmem => ?_, h.closes.1⟩, fun c hc => ?_⟩
  · obtain ⟨c, hc, rfl⟩ := List.mem_map.mp hmem
    exact hv (h.closes.2 c hc)
  · obtain rfl | hc := List.mem_cons.mp hc
    · exact Finset.mem_insert_self _ _
    · exact Finset.mem_insert_of_mem (h.closes.2 c hc)

/-- One more close leaves what is known of the versions closed before. -/
theorem closed_before {m : Mux} {closes : List Close} {w : VersionRef} (c : Close)
    (h : m.Prepared w ∧ (m.Has w →
      (∀ u, m.Has u → u.name ≤ w.name) ∧ ∃ c ∈ closes, c.byDB = true)) :
    m.Prepared w ∧ (m.Has w →
      (∀ u, m.Has u → u.name ≤ w.name) ∧ ∃ c' ∈ c :: closes, c'.byDB = true) := by
  refine ⟨h.1, fun hhas => ?_⟩
  obtain ⟨hnewest, c', hc', hby⟩ := h.2 hhas
  exact ⟨hnewest, c', List.mem_cons_of_mem _ hc', hby⟩

/-- **A careful event closes no version that was closed.** -/
theorem act (h : d.Once) (hsound : d.Sound) (hsound' : d'.Sound) (hpanic : d.panic = none)
    (hcareful : d.Careful e) (hunclosed : ∀ order, e = .close order → d.Unclosed)
    (hs : d.act peers e = some d') : d'.Once := by
  have hhand := handover_act hpanic hsound.known hs
  have hpending := fun v hv vs hvs =>
    h.pending_keeps (v := v) (w := vs) hcareful hsound hsound' hs hhand hv hvs
  have hremoving := fun v hv => h.removing_keeps (v := v) hcareful hsound hsound' hs hhand hv
  have hremoved : ∀ v ∈ d'.removed, v ∉ d.cancelled := fun v hv => h.removed_open hsound hhand hv
  have hcancelled := fun v hv => h.cancelled_keeps (v := v) hcareful hsound hsound' hs hv
  have htoClose := fun v hv => h.toClose_keeps (v := v) hcareful hsound hsound' hs hv
  obtain ⟨cancelled, closes, toClose, panic⟩ | ⟨order, rfl, hnone, rfl⟩ | ⟨v, vs, -, hr, hnext⟩ |
    ⟨v, hc, hnext⟩ := hhand.shuts
  · refine ⟨hpending, hremoving, ?_, ?_, ?_, ?_, panic⟩
    · rwa [cancelled]
    · rw [toClose, cancelled]
      intro v hv
      exact ⟨(h.toClose v hv).1, (htoClose v hv).1, (htoClose v hv).2, (h.toClose v hv).2.2.2⟩
    · rwa [cancelled, closes]
    · rw [closes, cancelled]
      exact h.closes
  · -- `db.close` takes its list
    refine ⟨hpending, hremoving, hremoved, fun v hv => ?_, hcancelled, h.closes, h.panic⟩
    have hsingle : d.mux.getAll order = [v] := Mux.getAll_eq_singleton hcareful hv
    have hhas : d.mux.Has v := hsound.known.has_of_mem_getAll hv
    refine ⟨hsingle, hhas, fun w hw => ?_, fun hc => ?_⟩
    · exact List.mem_singleton.mp (hsingle ▸ Mux.mem_getAll_of_has order hw)
    · obtain ⟨c, hc, hby⟩ := ((h.cancelled v hc).2 hhas).2
      rw [(hunclosed order rfl).2 c hc] at hby
      cases hby
  · -- `db.close` closes the one version there is
    have hv : v ∈ d.toClose := by
      rw [DB.toClose, hr]
      exact List.mem_cons_self
    obtain ⟨hsingle, hhas, honly, hopen⟩ := h.toClose v hv
    obtain rfl : vs = [] := by
      rw [DB.toClose, hr] at hsingle
      exact (List.cons.inj hsingle).2
    rw [closeVersion, if_neg hopen] at hnext
    subst hnext
    refine ⟨hpending, hremoving, fun w hw hmem => ?_, fun w hw => (by cases hw), fun w hw => ?_,
      h.closes_cons hopen _, h.panic⟩
    · obtain rfl | hmem := Finset.mem_insert.mp hmem
      · exact (hsound'.removed hw).2 hhas
      · exact hremoved w hw hmem
    · obtain rfl | hw := Finset.mem_insert.mp hw
      · refine ⟨hsound.known.prepared_of_has hhas, fun _ => ⟨fun u hu => ?_, ?_⟩⟩
        · rw [honly u hu]
        · exact ⟨_, List.mem_cons_self, rfl⟩
      · exact closed_before _ (hcancelled w hw)
  · -- `removeVersion` closes what it has deleted
    have hv : v ∈ d.removed := by
      rw [DB.removed, hc]
      exact List.mem_cons_self
    have hopen := h.removed v hv
    obtain ⟨hprepared, hgone⟩ := hsound.removed hv
    rw [closeVersion, if_neg hopen] at hnext
    subst hnext
    refine ⟨hpending, hremoving, fun w hw => (by cases hw), fun w hw => ?_, fun w hw => ?_,
      h.closes_cons hopen _, h.panic⟩
    · obtain ⟨hsingle, hhas, honly, hopen'⟩ := h.toClose w hw
      refine ⟨hsingle, hhas, honly, fun hmem => ?_⟩
      obtain rfl | hmem := Finset.mem_insert.mp hmem
      · exact hgone hhas
      · exact hopen' hmem
    · obtain rfl | hw := Finset.mem_insert.mp hw
      · exact ⟨hprepared, fun hhas => absurd hhas hgone⟩
      · exact closed_before _ (hcancelled w hw)

end Once

/-- Only a call of `close` closes a db. -/
theorem Unclosed.act (h : d.Unclosed) (hhand : Handover e d d') (hne : ∀ order, e ≠ .close order) :
    d'.Unclosed := by
  obtain ⟨hnil, hcloses⟩ := h
  obtain ⟨-, closes, toClose, -⟩ | ⟨order, hclose, -, -⟩ | ⟨v, vs, -, hr, -⟩ | ⟨v, hc, rfl⟩ :=
    hhand.shuts
  · exact ⟨toClose.trans hnil, closes ▸ hcloses⟩
  · exact absurd hclose (hne order)
  · rw [DB.toClose, hr] at hnil
    cases hnil
  · rw [closeVersion]
    split
    · exact ⟨hnil, hcloses⟩
    · exact ⟨hnil, List.forall_mem_cons.mpr ⟨rfl, hcloses⟩⟩

end DB

/-! ## The dbs of a node

`refreshAll` closes what is no longer in the map, and a db has one name there, so it closes every db
at most once. -/

/-- There is a db at the address, and it was not closed. -/
def Node.Open (n : Node) (i : ℕ) : Prop := ∃ d, n.heap[i]? = some d ∧ d.Unclosed

/-- No db has two names. -/
def Distinct (dbs : AList fun _ : Bytes => ℕ) : Prop :=
  ∀ name name' i, dbs.lookup name = some i → dbs.lookup name' = some i → name = name'

/-- What `refreshAll` knows of the dbs it is going to keep, and of those it is going to close. -/
def RefreshAllStage.Ok (n : Node) : RefreshAllStage → Prop
  | .list => True
  | .add _ newDBs _ => Distinct newDBs ∧ ∀ name i, newDBs.lookup name = some i →
    n.Open i ∧ ∀ name', n.dbs.lookup name' = some i → name' = name
  | .close dropped | .closing _ dropped =>
    dropped.Nodup ∧ ∀ i ∈ dropped, n.Open i ∧ ∀ name, n.dbs.lookup name ≠ some i

/-- Dbs that stay open do not matter to where `refreshAll` stands. -/
theorem RefreshAllStage.Ok.mono {n n' : Node} {r : RefreshAllStage} (h : r.Ok n)
    (hdbs : n'.dbs = n.dbs) (hopen : ∀ j, n.Open j → n'.Open j) : r.Ok n' := by
  cases r with
  | list => trivial
  | add names newDBs backfills =>
    refine ⟨h.1, fun name i hi => ?_⟩
    rw [hdbs]
    exact ⟨hopen i (h.2 name i hi).1, (h.2 name i hi).2⟩
  | close dropped | closing i dropped =>
    refine ⟨h.1, fun i hi => ?_⟩
    rw [hdbs]
    exact ⟨hopen i (h.2 i hi).1, (h.2 i hi).2⟩

namespace Node

variable {peers : Bool} {n n' : Node} {i j : ℕ} {e : DBEvent}

/-- What holds of the dbs in the map, and of those that `refreshAll` is going to close. -/
structure Orderly (n : Node) : Prop where
  /-- the names of the map are of different dbs -/
  distinct : Distinct n.dbs
  /-- which were not closed -/
  listed : ∀ name i, n.dbs.lookup name = some i → n.Open i
  /-- the holder of the node's `refreshLock` -/
  refresher : ∀ r, n.refresher = some r → r.Ok n

theorem orderly_new : new.Orderly where
  distinct := fun _ _ _ hi => by cases hi
  listed := fun _ _ hi => by cases hi
  refresher := fun _ hr => by cases hr

/-- A db stays open, unless it is the one that is closed. -/
theorem Open.onDB (h : n.Open j) (hreach : n.AllDBs (dbMachine peers).Reachable)
    (hs : n.onDB peers i e = some n') (hother : i ≠ j ∨ ∀ order, e ≠ .close order) : n'.Open j := by
  obtain ⟨d, d', hd, hpanic, hact, rfl⟩ := onDB_cases hs
  obtain ⟨dj, hdj, hunclosed⟩ := h
  by_cases hij : i = j
  · subst hij
    obtain rfl := Option.some.inj (hd.symm.trans hdj)
    obtain ⟨hlt, -⟩ := List.getElem?_eq_some_iff.mp hd
    have hsound := DB.sound_of_reachable (hreach d (List.mem_of_getElem? hd))
    refine ⟨d', List.getElem?_set_self hlt, ?_⟩
    exact hunclosed.act (DB.handover_act hpanic hsound.known hact) (hother.resolve_left (· rfl))
  · exact ⟨dj, by rwa [List.getElem?_set_ne hij], hunclosed⟩

/-- An event of a db that is not `close`. -/
theorem Orderly.onDB (h : n.Orderly) (hreach : n.AllDBs (dbMachine peers).Reachable)
    (hne : ∀ order, e ≠ .close order) (hs : n.onDB peers i e = some n') : n'.Orderly := by
  have hopen : ∀ j, n.Open j → n'.Open j := fun j hj => hj.onDB hreach hs (.inr hne)
  obtain ⟨d, d', -, -, -, rfl⟩ := onDB_cases hs
  exact ⟨h.distinct, fun name i hi => hopen i (h.listed name i hi),
    fun r hr => (h.refresher r hr).mono rfl hopen⟩

/-! ## `refreshAll`

One lemma for each of its steps. The map is replaced as a whole, and only after that are the dbs
closed that are not in the new one, so a db that is open and listed is never among them. -/

/-- A new db is put into the new map. -/
theorem Orderly.addNew (h : n.Orderly) {name : Bytes} {names : List Bytes}
    {newDBs : AList fun _ : Bytes => ℕ} {backfills : List ℕ}
    (hr : n.refresher = some (.add (name :: names) newDBs backfills)) :
    ({ n with
      heap := n.heap ++ [.new]
      refresher := some (.add names (newDBs.insert name n.heap.length)
        (n.heap.length :: backfills)) } : Node).Orderly := by
  obtain ⟨hdistinct, hnew⟩ := h.refresher _ hr
  have hopen : ∀ j, n.Open j →
      ∀ r, ({ n with heap := n.heap ++ [.new], refresher := r } : Node).Open j := by
    rintro j ⟨d, hd, hunclosed⟩ r
    obtain ⟨hlt, -⟩ := List.getElem?_eq_some_iff.mp hd
    exact ⟨d, by rwa [List.getElem?_append_left hlt], hunclosed⟩
  have hlt : ∀ j, n.Open j → j ≠ n.heap.length := by
    rintro j ⟨d, hd, -⟩ rfl
    rw [List.getElem?_eq_none (le_refl _)] at hd
    cases hd
  refine ⟨h.distinct, fun name i hi => hopen i (h.listed name i hi) _, fun r hr' => ?_⟩
  obtain rfl := Option.some.inj hr'
  refine ⟨fun a b i ha hb => ?_, fun a i ha => ?_⟩
  · obtain ⟨rfl, rfl⟩ | ⟨-, ha'⟩ := AList.lookup_insert_eq_some ha
    · obtain ⟨rfl, -⟩ | ⟨-, hb'⟩ := AList.lookup_insert_eq_some hb
      · rfl
      · exact absurd rfl (hlt _ (hnew _ _ hb').1)
    · obtain ⟨rfl, rfl⟩ | ⟨-, hb'⟩ := AList.lookup_insert_eq_some hb
      · exact absurd rfl (hlt _ (hnew _ _ ha').1)
      · exact hdistinct a b i ha' hb'
  · obtain ⟨rfl, rfl⟩ | ⟨-, ha⟩ := AList.lookup_insert_eq_some ha
    · refine ⟨⟨.new, List.getElem?_concat_length, rfl, fun _ hc => by cases hc⟩, fun b hb => ?_⟩
      exact absurd rfl (hlt _ (h.listed b _ hb))
    · exact ⟨hopen i (hnew a i ha).1 _, (hnew a i ha).2⟩

/-- A db that is there already is kept. -/
theorem Orderly.addOld (h : n.Orderly) {name : Bytes} {names : List Bytes}
    {newDBs : AList fun _ : Bytes => ℕ} {backfills : List ℕ}
    (hr : n.refresher = some (.add (name :: names) newDBs backfills))
    (hi : n.dbs.lookup name = some i) :
    ({ n with
      refreshes := i :: n.refreshes
      refresher := some (.add names (newDBs.insert name i) backfills) } : Node).Orderly := by
  obtain ⟨hdistinct, hnew⟩ := h.refresher _ hr
  refine ⟨h.distinct, h.listed, fun r hr' => ?_⟩
  obtain rfl := Option.some.inj hr'
  refine ⟨fun a b j ha hb => ?_, fun a j ha => ?_⟩
  · obtain ⟨rfl, rfl⟩ | ⟨-, ha'⟩ := AList.lookup_insert_eq_some ha
    · obtain ⟨rfl, -⟩ | ⟨-, hb'⟩ := AList.lookup_insert_eq_some hb
      · rfl
      · exact (hnew b _ hb').2 a hi
    · obtain ⟨rfl, rfl⟩ | ⟨-, hb'⟩ := AList.lookup_insert_eq_some hb
      · exact ((hnew a _ ha').2 b hi).symm
      · exact hdistinct a b j ha' hb'
  · obtain ⟨rfl, rfl⟩ | ⟨-, ha⟩ := AList.lookup_insert_eq_some ha
    · exact ⟨h.listed a _ hi, fun b hb => h.distinct b a _ hb hi⟩
    · exact hnew a j ha

/-- The new map is switched in. -/
theorem Orderly.switchDBs (h : n.Orderly) {newDBs : AList fun _ : Bytes => ℕ}
    {backfills published : List ℕ} (hr : n.refresher = some (.add [] newDBs backfills))
    (order : IterOrder (Σ _ : Bytes, ℕ)) :
    ({ n with
      dbs := newDBs
      published := published
      refresher := some (.close (dropped n.dbs newDBs order)) } : Node).Orderly := by
  obtain ⟨hdistinct, hnew⟩ := h.refresher _ hr
  refine ⟨hdistinct, fun name i hi => (hnew name i hi).1, fun r hr' => ?_⟩
  obtain rfl := Option.some.inj hr'
  have hmem : ∀ e ∈ order.arrange n.dbs.entries, n.dbs.lookup e.1 = some e.2 := fun e he =>
    AList.mem_entries_iff_lookup.mp (order.mem_arrange.mp he)
  constructor
  · -- entries with one address are one entry
    have hnodup : (order.arrange n.dbs.entries).Nodup :=
      (order.perm _).nodup_iff.mpr n.dbs.nodupKeys.nodup
    rw [dropped, List.Nodup, List.pairwise_filterMap]
    refine hnodup.imp_of_mem fun {a b} ha hb hne i hi i' hi' => ?_
    rintro rfl
    split at hi
    · split at hi'
      · obtain rfl := Option.some.inj hi
        have hsame : b.2 = a.2 := Option.some.inj hi'
        have hname := h.distinct a.1 b.1 a.2 (hmem a ha) (hsame ▸ hmem b hb)
        exact hne (Sigma.ext hname (heq_of_eq hsame.symm))
      · cases hi'
    · cases hi
  · intro i hi
    obtain ⟨e, he, hdrop⟩ := List.mem_filterMap.mp hi
    split at hdrop
    · obtain rfl := Option.some.inj hdrop
      refine ⟨h.listed e.1 e.2 (hmem e he), fun name hname => ?_⟩
      -- a db that is kept has kept its name
      have hkept : newDBs.lookup e.1 = some e.2 := (hnew name e.2 hname).2 e.1 (hmem e he) ▸ hname
      cases hkept.symm.trans ‹newDBs.lookup e.1 = none›
    · cases hdrop

/-- `close` of a db that was dropped is called, for the first time. -/
theorem Orderly.closeDB (h : n.Orderly) (hreach : n.AllDBs (dbMachine peers).Reachable)
    {order : IterOrder (Σ _ : Bytes, Entry)} {rest : List ℕ}
    (hr : n.refresher = some (.close (i :: rest)))
    (hs : n.onDB peers i (.close order) = some n') :
    ({ n' with refresher := some (.closing i rest) } : Node).Orderly := by
  obtain ⟨hnodup, hdropped⟩ := h.refresher _ hr
  obtain ⟨-, hnot⟩ := hdropped i List.mem_cons_self
  have hother : ∀ j, i ≠ j → n.Open j → n'.Open j := fun j hij hj => hj.onDB hreach hs (.inl hij)
  obtain ⟨d, d', -, -, -, rfl⟩ := onDB_cases hs
  refine ⟨h.distinct, fun name j hj => hother j ?_ (h.listed name j hj), fun r hr' => ?_⟩
  · rintro rfl
    exact hnot name hj
  · obtain rfl := Option.some.inj hr'
    refine ⟨hnodup.of_cons, fun j hj => ?_⟩
    obtain ⟨hopenj, hnotj⟩ := hdropped j (List.mem_cons_of_mem _ hj)
    refine ⟨hother j ?_ hopenj, hnotj⟩
    rintro rfl
    exact (List.nodup_cons.mp hnodup).1 hj

theorem Orderly.setRefresher (h : n.Orderly) {r : Option RefreshAllStage}
    (hr : ∀ stage, r = some stage → stage.Ok n) : ({ n with refresher := r } : Node).Orderly :=
  ⟨h.distinct, h.listed, fun stage hstage => (hr stage hstage).mono rfl fun _ hj => hj⟩

theorem Orderly.refreshAllNext (h : n.Orderly) (hreach : n.AllDBs (dbMachine peers).Reachable)
    {dbOrder : IterOrder (Σ _ : Bytes, ℕ)} {order : IterOrder (Σ _ : Bytes, Entry)}
    (hs : n.refreshAllNext peers dbOrder order = some n') : n'.Orderly := by
  rcases hr : n.refresher with _ | r
  · simp [Node.refreshAllNext, hr] at hs
  cases r with
  | list => simp [Node.refreshAllNext, hr] at hs
  | add names newDBs backfills =>
    cases names with
    | nil =>
      simp only [Node.refreshAllNext, hr] at hs
      split_ifs at hs
      obtain rfl := Option.some.inj hs
      exact h.switchDBs hr dbOrder
    | cons name names =>
      simp only [Node.refreshAllNext, hr] at hs
      rcases hi : n.dbs.lookup name with _ | i
      · rw [hi] at hs
        obtain rfl := Option.some.inj hs
        exact h.addNew hr
      · rw [hi] at hs
        obtain rfl := Option.some.inj hs
        exact h.addOld hr hi
  | close rest =>
    cases rest with
    | nil =>
      simp only [Node.refreshAllNext, hr] at hs
      obtain rfl := Option.some.inj hs
      exact h.setRefresher fun _ hstage => by cases hstage
    | cons i rest =>
      simp only [Node.refreshAllNext, hr] at hs
      obtain ⟨n₁, hn₁, rfl⟩ := Option.map_eq_some_iff.mp hs
      exact h.closeDB hreach hr hn₁
  | closing i rest =>
    simp only [Node.refreshAllNext, hr] at hs
    split_ifs at hs
    obtain rfl := Option.some.inj hs
    refine h.setRefresher fun stage hstage => ?_
    obtain rfl := Option.some.inj hstage
    have hrest := h.refresher _ hr
    exact hrest

theorem Orderly.act (h : n.Orderly) (hreach : n.AllDBs (dbMachine peers).Reachable) {e : NodeEvent}
    (hs : n.act peers e = some n') : n'.Orderly := by
  cases e with
  | db i e =>
    have hne : e.origin ≠ .close → ∀ order, e ≠ .close order := by
      rintro horigin order rfl
      exact horigin rfl
    rw [Node.act] at hs
    split at hs
    · split at hs
      · exact h.onDB hreach (hne (by simp [*])) hs
      · cases hs
    · split at hs
      · obtain ⟨n₁, hn₁, rfl⟩ := Option.map_eq_some_iff.mp hs
        have h₁ := h.onDB hreach (hne (by simp [*])) hn₁
        exact { h₁ with refresher := fun r hr => (h₁.refresher r hr).mono rfl fun _ hj => hj }
      · cases hs
    · cases hs
    · exact h.onDB hreach (hne (by simp [*])) hs
  | refreshAll =>
    rw [Node.act] at hs
    split at hs
    · obtain rfl := Option.some.inj hs
      refine h.setRefresher fun stage hstage => ?_
      obtain rfl := Option.some.inj hstage
      trivial
    · cases hs
  | listDBs names =>
    simp only [Node.act] at hs
    split at hs
    · obtain rfl := Option.some.inj hs
      exact h.setRefresher fun _ hstage => by cases hstage
    · obtain rfl := Option.some.inj hs
      refine h.setRefresher fun stage hstage => ?_
      obtain rfl := Option.some.inj hstage
      exact ⟨fun _ _ _ hi => (by cases hi), fun _ _ hi => (by cases hi)⟩
    · cases hs
  | refreshAllNext dbOrder order => exact h.refreshAllNext hreach hs

theorem orderly_of_reachable (h : (nodeMachine peers).Reachable n) : n.Orderly := by
  refine h.invariant (fun s hs => ?_) fun s e s' hreach horderly hs => ?_
  · obtain rfl : s = .new := hs
    exact orderly_new
  · change Node.step peers s e = some s' at hs
    rw [Node.step] at hs
    split at hs
    · exact horderly.act (Node.reachable_db hreach) hs
    · cases hs

/-- `refreshAll` closes a db for the first time. -/
theorem Orderly.unclosed (h : n.Orderly) (hi : n.toClose = some i) {d : DB}
    (hd : n.heap[i]? = some d) : d.Unclosed := by
  rw [toClose] at hi
  split at hi
  · rename_i hr
    obtain rfl := Option.some.inj hi
    obtain ⟨-, hdropped⟩ := h.refresher _ hr
    obtain ⟨d', hd', hunclosed⟩ := (hdropped _ List.mem_cons_self).1
    obtain rfl := Option.some.inj (hd.symm.trans hd')
    exact hunclosed
  · cases hi

end Node

/-! ## The node

The events of a node are careful if those of its dbs are. -/

/-- The events of the dbs are careful. -/
def Node.Careful (n : Node) : NodeEvent → Prop
  | .db i e => ∀ d ∈ n.heap[i]?, d.Careful e
  | .refreshAllNext _ order => ∀ i ∈ n.toClose, ∀ d ∈ n.heap[i]?, d.Careful (.close order)
  | _ => True

instance (n : Node) : DecidablePred n.Careful
  | .db i e => inferInstanceAs (Decidable (∀ d ∈ n.heap[i]?, d.Careful e))
  | .refreshAllNext _ order =>
    inferInstanceAs (Decidable (∀ i ∈ n.toClose, ∀ d ∈ n.heap[i]?, d.Careful (.close order)))
  | .refreshAll | .listDBs _ => .isTrue trivial

/-- **A version is closed at most once**, in every run of a node whose events are careful. -/
theorem closed_at_most_once {peers : Bool} {n : Node}
    (h : ((nodeMachine peers).restrict Node.Careful).Reachable n) :
    ∀ d ∈ n.heap, (d.closes.map Close.version).Nodup ∧ d.panic ≠ some .closeOfClosedChannel := by
  have honce : n.AllDBs DB.Once := by
    refine h.invariant (fun s hs => ?_) fun s e s' hreach honce hs => ?_
    · obtain rfl : s = .new := hs
      exact fun _ hd => by cases hd
    · obtain ⟨hcareful, hs⟩ := hs
      have hdbs := Node.reachable_db hreach.of_restrict
      have hdbs' := Node.reachable_db (.step hreach.of_restrict hs)
      have horderly := Node.orderly_of_reachable hreach.of_restrict
      change Node.step peers s e = some s' at hs
      rw [Node.step] at hs
      split at hs
      · intro d' hd'
        obtain ⟨i, hi⟩ := List.getElem?_of_mem hd'
        obtain heap | ⟨-, after⟩ | ⟨d, d₁, ev, before, after, panic, act, event⟩ :=
          Node.heapStep_act (i := i) hs
        · exact honce d' (List.mem_of_getElem? (heap ▸ hi))
        · obtain rfl := Option.some.inj (hi.symm.trans after)
          exact DB.once_new
        · obtain rfl := Option.some.inj (hi.symm.trans after)
          have hd := List.mem_of_getElem? before
          have hsound := DB.sound_of_reachable (hdbs d hd)
          refine (honce d hd).act hsound (DB.sound_of_reachable (hdbs' d' hd')) panic ?_ ?_ act
          · obtain ⟨rfl, -⟩ | ⟨dbOrder, order, rfl, rfl, hclose⟩ := event
            · exact hcareful d before
            · exact hcareful i hclose d before
          · rintro order rfl
            obtain ⟨-, horigin⟩ | ⟨-, -, -, -, hclose⟩ := event
            · exact absurd rfl horigin
            · exact horderly.unclosed hclose before
      · cases hs
  exact fun d hd => ⟨(honce d hd).closes.1, (honce d hd).panic⟩

/-- A db with one version is dropped. -/
theorem closed_at_most_once_single :
    ∃ n, ((nodeMachine false).restrict Node.Careful).Reachable n ∧ ∃ d ∈ n.heap,
      d.closes.map Close.version = [⟨0, [49]⟩] ∧ d.panic ≠ some .closeOfClosedChannel := by
  have hreach : ((nodeMachine false).restrict Node.Careful).Reachable _ :=
    .runGuarded (.start rfl) (comesUp ++ dropsDB) rfl
  exact ⟨_, hreach, _, List.mem_singleton_self _, rfl,
    (closed_at_most_once hreach _ (List.mem_singleton_self _)).2⟩

/-- The db has a version `2` that is not complete when it is dropped. Closing that version makes it
ready, so the db upgrades to it and removes version `1`. -/
def dropsPrepared : List NodeEvent :=
  [.refreshAll, .listDBs (some [[97]]), .refreshAllNext (.stored _) (.stored _),
    .refreshAllNext (.stored _) (.stored _), .refreshAllNext (.stored _) (.stored _)] ++
  ([.refresh, .refresherNext, .listVersions (some [[50]]), .refresherNext, .refresherNext,
    .newVersion (some false), .refresherNext, .refresherNext] : List DBEvent).map (.db 0) ++
  [.refreshAll, .listDBs (some []), .refreshAllNext (.stored _) (.stored _),
    .refreshAllNext (.stored _) (.stored _)] ++
  ([.refresherNext, .refresherNext, .ready ⟨1, [50]⟩, .wake ⟨1, [50]⟩, .upgrade ⟨⟨1, [50]⟩, false⟩,
    .upgraderNext (.stored _), .upgraderNext (.stored _), .upgraderNext (.stored _),
    .remove (⟨0, [49]⟩, true), .cleanerNext, .cleanerNext, .cleanerNext,
    .cleanerNext] : List DBEvent).map (.db 0)

/-- Version `1` is closed by `db.close` and by `removeVersion`. -/
theorem dropsPrepared_closes_twice :
    ∃ n, (nodeMachine false).Reachable n ∧ ∃ d ∈ n.heap, d.panic = some .closeOfClosedChannel := by
  have hreach : (nodeMachine false).Reachable _ :=
    .run (.start rfl) (comesUp ++ dropsPrepared) rfl
  exact ⟨_, hreach, _, List.mem_singleton_self _, rfl⟩

end Sequins
