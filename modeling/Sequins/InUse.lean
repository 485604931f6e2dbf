import Sequins.RollForward

/-!
# Which versions are in use

The reference counts of a db, over whole runs. `removeVersion` holds `cleanupLock` while it
waits, so at most one wait group is being drained at a time; `Ledger` is what the counts then
say:

* a version that was taken out of the multiplexer is not in use, unless it is the one being
  drained, whose count is at least the number of its references;
* a version in the multiplexer has the count of its references, unless the one being drained
  will never reach zero, after which nothing is removed any more.

The exception is real. A reference released after its version was deleted is not counted down,
and if the name was prepared again the release even counts down the wrong wait group. But in
both cases `removeVersion` waits forever. So a version that `removeVersion` closes is not in
use (`DB.closed_unused`); `db.close` does not look at the counts at all.
-/

namespace Sequins

/-! ## The ledger

Counts are kept by name, and references are to objects, so a count may be about two objects of
one name: the one in the map and the one being drained. The ledger keeps them apart. It has a
rule for each thing that can happen to the multiplexer. -/

/-- How the counts of a multiplexer relate to the unreleased references, while at most one
wait group is being drained. -/
structure Ledger (m : Mux) (unreleased : VersionRef → ℕ) (drain : Option Entry) : Prop where
  /-- only prepared versions are handed out -/
  handed : ∀ v, 0 < unreleased v → m.Prepared v
  /-- what is being drained was deleted -/
  deleted : ∀ e, drain = some e → e.pair ∈ m.prepared ∧ ¬ m.Has e.version
  /-- its count is at least the number of its references -/
  draining : ∀ e, drain = some e → unreleased e.version ≤ m.counts e.count
  /-- nothing else that was deleted is in use -/
  gone : ∀ p ∈ m.prepared, ¬ m.Has p.1 → (∀ e, drain = some e → e.count ≠ p.2) →
    unreleased p.1 = 0
  /-- what is in the map has the count of its references, or the drain is stuck -/
  used : ∀ p ∈ m.prepared, m.Has p.1 →
    m.counts p.2 = unreleased p.1 ∨ ∃ e, drain = some e ∧ 0 < m.counts e.count

namespace Ledger

variable {m m' : Mux} {unreleased unreleased' : VersionRef → ℕ} {drain : Option Entry}

theorem new : Ledger .new (fun _ => 0) none where
  handed := fun _ h => absurd h (lt_irrefl 0)
  deleted := fun _ h => by cases h
  draining := fun _ h => by cases h
  gone := fun _ h => by cases h
  used := fun _ h => by cases h

/-- Only the counts, the map and the history matter. -/
theorem congr (h : Ledger m unreleased drain) (hhas : ∀ v, m'.Has v ↔ m.Has v)
    (hcounts : m'.counts = m.counts) (hprepared : m'.prepared = m.prepared)
    (hu : ∀ v, unreleased' v = unreleased v) : Ledger m' unreleased' drain where
  handed := fun v hv => by
    rw [hu] at hv
    rw [Mux.Prepared, hprepared]
    exact h.handed v hv
  deleted := fun e he => by
    rw [hprepared, hhas]
    exact h.deleted e he
  draining := fun e he => by
    rw [hu, hcounts]
    exact h.draining e he
  gone := fun p hp hnot hother => by
    rw [hu]
    exact h.gone p (hprepared ▸ hp) (fun hp' => hnot ((hhas _).mpr hp')) hother
  used := fun p hp hhas' => by
    rw [hu, hcounts]
    exact h.used p (hprepared ▸ hp) ((hhas _).mp hhas')

/-- A reference to one version does not count for another. -/
theorem count_other_add {v w : VersionRef} (h : w ≠ v) (k : ℕ) : [v].count w + k = k := by
  rw [List.count_eq_zero.mpr (by simpa using h), Nat.zero_add]

/-- What is drained is not in the map. -/
theorem drained_ne (h : Ledger m unreleased drain) {e : Entry} (he : drain = some e)
    {v : VersionRef} (hhas : m.Has v) : e.version ≠ v := by
  rintro rfl
  exact (h.deleted e he).2 hhas

/-- A version in the map is handed out. -/
theorem acquire (h : Ledger m unreleased drain) (hknown : m.Known) {oe : Option Entry}
    (hoe : ∀ e, oe = some e → e.pair ∈ m.prepared ∧ m.Has e.version)
    (hu : ∀ v, unreleased' v = (m.acquire oe).2.toList.count v + unreleased v) :
    Ledger (m.acquire oe).1 unreleased' drain := by
  cases oe with
  | none => exact h.congr (fun _ => Iff.rfl) rfl rfl fun v => by simp [hu, Mux.acquire]
  | some e =>
    obtain ⟨hpair, hhas⟩ := hoe e rfl
    have hcounts : ∀ p ∈ m.prepared, (m.acquire (some e)).1.counts p.2 =
        [e.version].count p.1 + m.counts p.2 := fun p hp =>
      hknown.counts_acquire (fun e' he' => (hoe e' he').1) hp
    have hother : ∀ v, ¬ m.Has v → unreleased' v = unreleased v := by
      intro v hv
      have hne : v ≠ e.version := by
        rintro rfl
        exact hv hhas
      rw [hu, Mux.acquire, Option.toList_some, count_other_add hne]
    have hdrain : ∀ e', drain = some e' →
        (m.acquire (some e)).1.counts e'.count = m.counts e'.count := by
      intro e' he'
      have hne := h.drained_ne he' hhas
      exact (hcounts _ (h.deleted e' he').1).trans (count_other_add hne _)
    refine ⟨fun v hv => ?_, h.deleted, fun e' he' => ?_, fun p hp hnot hne => ?_,
      fun p hp hp' => ?_⟩
    · rw [hu, Mux.acquire, Option.toList_some] at hv
      by_cases hve : v = e.version
      · exact ⟨e.count, hve ▸ hpair⟩
      · rw [count_other_add hve] at hv
        exact h.handed v hv
    · rw [hother _ (h.deleted e' he').2, hdrain e' he']
      exact h.draining e' he'
    · rw [hother _ hnot]
      exact h.gone p hp hnot hne
    · obtain heq | ⟨e', he', hpos⟩ := h.used p hp hp'
      · left
        rw [hcounts p hp, heq, hu]
        rfl
      · exact .inr ⟨e', he', (hdrain e' he').symm ▸ hpos⟩

/-- A reference is released to a version that was deleted: nothing is counted. -/
theorem release_unknown (h : Ledger m unreleased drain) {v : VersionRef}
    (hnone : m.versions.lookup v.name = none)
    (hu : ∀ w, unreleased w = [v].count w + unreleased' w) : Ledger m unreleased' drain := by
  have hle : ∀ w, unreleased' w ≤ unreleased w := fun w => by
    rw [hu]
    exact Nat.le_add_left _ _
  refine ⟨fun w hw => h.handed w (lt_of_lt_of_le hw (hle w)), h.deleted,
    fun e he => (hle _).trans (h.draining e he),
    fun p hp hnot hne => Nat.le_zero.mp ((hle _).trans (h.gone p hp hnot hne).le),
    fun p hp hp' => ?_⟩
  have hne : p.1 ≠ v := by
    obtain ⟨e, he, -⟩ := hp'
    intro heq
    rw [heq, hnone] at he
    cases he
  refine (h.used p hp hp').imp (fun heq => ?_) id
  rw [heq, hu, count_other_add hne]

/-- A reference is released to the version whose name was prepared again: it is the one that is
drained. -/
theorem drained_of_renamed (h : Ledger m unreleased drain) (hknown : m.Known) {v : VersionRef}
    {e : Entry} (he : m.versions.lookup v.name = some e) (hev : e.version ≠ v)
    (hheld : 0 < unreleased v) : ∃ e', drain = some e' ∧ 0 < m.counts e'.count := by
  obtain ⟨g, hg⟩ := h.handed v hheld
  have hnot : ¬ m.Has v := by
    rintro ⟨e', he', hv⟩
    obtain rfl := Option.some.inj (he.symm.trans he')
    exact hev hv
  by_contra hstuck
  refine absurd (h.gone _ hg hnot fun e' he' heq => hstuck ⟨e', he', ?_⟩) hheld.ne'
  have hpair : e'.pair = (v, g) := hknown.group _ (h.deleted e' he').1 _ hg heq
  have hversion : e'.version = v := congrArg Prod.fst hpair
  exact lt_of_lt_of_le (hversion ▸ hheld) (h.draining e' he')

/-- A reference is released, and counted under the name of its version. -/
theorem release_known (h : Ledger m unreleased drain) (hknown : m.Known) {v : VersionRef}
    {e : Entry} (hm : m.release (some v) = .ok m') (he : m.versions.lookup v.name = some e)
    (hu : ∀ w, unreleased w = [v].count w + unreleased' w) : Ledger m' unreleased' drain := by
  have hle : ∀ w, unreleased' w ≤ unreleased w := fun w => by
    rw [hu]
    exact Nat.le_add_left _ _
  have hheld : 0 < unreleased v := by
    rw [hu, List.count_singleton_self]
    exact Nat.add_pos_left Nat.one_pos _
  obtain ⟨hversions, -, -, hprepared⟩ := Mux.release_frame hm
  have hhas : ∀ w, m'.Has w ↔ m.Has w := fun w => by rw [Mux.Has, hversions, Mux.Has]
  have hhasE : m.Has e.version := ⟨e, by rwa [hknown.name _ e he], rfl⟩
  have hcounts := fun p hp => hknown.counts_release (p := p) hm he hp
  have hdrain : ∀ e', drain = some e' → m'.counts e'.count = m.counts e'.count := by
    intro e' he'
    have hne := h.drained_ne he' hhasE
    exact ((hcounts _ (h.deleted e' he').1).trans (count_other_add hne _)).symm
  refine ⟨fun w hw => ?_, fun e' he' => ?_, fun e' he' => ?_, fun p hp hnot hne => ?_,
    fun p hp hp' => ?_⟩
  · rw [Mux.Prepared, hprepared]
    exact h.handed w (lt_of_lt_of_le hw (hle w))
  · rw [hprepared, hhas]
    exact h.deleted e' he'
  · rw [hdrain e' he']
    exact (hle _).trans (h.draining e' he')
  · rw [hprepared] at hp
    rw [hhas] at hnot
    exact Nat.le_zero.mp ((hle _).trans (h.gone p hp hnot hne).le)
  · rw [hprepared] at hp
    rw [hhas] at hp'
    by_cases hev : e.version = v
    · obtain heq | ⟨e', he', hpos⟩ := h.used p hp hp'
      · left
        have hcount := hcounts p hp
        rw [heq, hu, hev] at hcount
        exact (Nat.add_left_cancel hcount).symm
      · exact .inr ⟨e', he', (hdrain e' he').symm ▸ hpos⟩
    · obtain ⟨e', he', hpos⟩ := h.drained_of_renamed hknown he hev hheld
      exact .inr ⟨e', he', (hdrain e' he').symm ▸ hpos⟩

/-- A reference is released. -/
theorem release (h : Ledger m unreleased drain) (hknown : m.Known) {v : Option VersionRef}
    (hm : m.release v = .ok m')
    (hu : ∀ w, unreleased w = v.toList.count w + unreleased' w) : Ledger m' unreleased' drain := by
  cases v with
  | none =>
    obtain rfl := Except.ok.inj hm
    exact h.congr (fun _ => Iff.rfl) rfl rfl fun w => by simp [hu]
  | some v =>
    obtain ⟨hnone, rfl⟩ | ⟨e, he, -, -⟩ := Mux.release_cases hm
    · exact h.release_unknown hnone hu
    · exact h.release_known hknown hm he hu

/-- A new version comes in. -/
theorem prepare (h : Ledger m unreleased drain) (hknown : m.Known) {v : VersionRef}
    (hm : m.prepare v = .ok m') (hfresh : ¬ m.Prepared v)
    (hu : ∀ w, unreleased' w = unreleased w) : Ledger m' unreleased' drain := by
  have hgrows := Mux.grows_prepare hm hfresh
  have hprepared : m'.prepared = (v, m.nextCount) :: m.prepared := by
    rw [(Mux.prepare_cases hm).2]
  have hcounts : ∀ p ∈ m.prepared, m'.counts p.2 = m.counts p.2 := by
    intro p hp
    obtain ⟨rfl, -⟩ | ⟨-, hsame⟩ := hknown.counts_prepare hm (hprepared ▸ List.mem_cons_of_mem _ hp)
    · exact absurd ⟨_, hp⟩ hfresh
    · exact hsame
  have hdrain : ∀ e, drain = some e → m'.counts e.count = m.counts e.count := fun e he =>
    hcounts _ (h.deleted e he).1
  have hnew : unreleased v = 0 := by
    by_contra hne
    exact hfresh (h.handed v (Nat.pos_of_ne_zero hne))
  refine ⟨fun w hw => ?_, fun e he => ?_, fun e he => ?_, fun p hp hnot hne => ?_,
    fun p hp hp' => ?_⟩
  · obtain ⟨g, hg⟩ := h.handed w (hu w ▸ hw)
    exact ⟨g, hgrows.history _ hg⟩
  · obtain ⟨hpair, hnot⟩ := h.deleted e he
    exact ⟨hgrows.history _ hpair, hgrows.gone _ ⟨_, hpair⟩ hnot⟩
  · rw [hu, hdrain e he]
    exact h.draining e he
  · rw [hu]
    rw [hprepared] at hp
    obtain rfl | hp := List.mem_cons.mp hp
    · exact hnew
    · refine h.gone p hp (fun hhas => hnot ?_) hne
      obtain ⟨e, he, hv⟩ := hhas
      exact ⟨e, hgrows.entries _ e he, hv⟩
  · obtain ⟨rfl, hzero⟩ | ⟨hp, hsame⟩ := hknown.counts_prepare hm hp
    · exact .inl (by rw [hzero, hu, hnew])
    · have hhas : m.Has p.1 := by
        by_contra hnot
        exact hgrows.gone p.1 ⟨_, hp⟩ hnot hp'
      rw [hsame, hu]
      obtain heq | ⟨e, he, hpos⟩ := h.used p hp hhas
      · exact .inl heq
      · exact .inr ⟨e, he, (hdrain e he).symm ▸ hpos⟩

/-- An entry is deleted, and its wait group starts to be drained. -/
theorem delete (h : Ledger m unreleased none) (hknown : m.Known) {v : VersionRef} {e e' : Entry}
    (he' : m.versions.lookup v.name = some e') (hpair : e'.pair = e.pair)
    (hu : ∀ w, unreleased' w = unreleased w) : Ledger (m.delete v) unreleased' (some e) := by
  obtain ⟨hname, hprepared⟩ := hknown.copy he' hpair
  have hhas : ∀ w, (m.delete v).Has w → m.Has w := by
    rintro w ⟨c, hc, hv⟩
    exact ⟨c, (AList.lookup_erase_eq_some hc).2, hv⟩
  have hused : ∀ p ∈ m.prepared, m.Has p.1 → m.counts p.2 = unreleased p.1 := by
    intro p hp hp'
    obtain heq | ⟨_, hnone, -⟩ := h.used p hp hp'
    · exact heq
    · cases hnone
  have hcopy : m.Has e.version := by
    refine ⟨e', ?_, congrArg Prod.fst hpair⟩
    rw [hname]
    exact he'
  refine ⟨fun w hw => h.handed w (hu w ▸ hw), fun c hc => ?_, fun c hc => ?_,
    fun p hp hnot hne => ?_, fun p hp hp' => .inl ?_⟩
  · obtain rfl := Option.some.inj hc
    exact ⟨hprepared, Mux.not_has_delete hname⟩
  · obtain rfl := Option.some.inj hc
    rw [hu]
    exact (hused _ hprepared hcopy).ge
  · rw [hu]
    refine h.gone p hp (fun hp' => ?_) fun _ hnone => by cases hnone
    -- only the entry under the name that was deleted is gone now
    obtain ⟨c, hc, hv⟩ := hp'
    by_cases hpv : p.1.name = v.name
    · rw [hpv, he'] at hc
      obtain rfl := Option.some.inj hc
      have hp'' : p = e'.pair := hknown.version p hp _ (hpair ▸ hprepared) hv.symm
      exact hne e rfl (by rw [hp'', hpair]; rfl)
    · exact hnot ⟨c, by rwa [Mux.delete, AList.lookup_erase_ne hpv], hv⟩
  · rw [hu]
    exact hused p hp (hhas p.1 hp')

/-- The wait group being drained is at zero. -/
theorem drained {e : Entry} (h : Ledger m unreleased (some e)) (hknown : m.Known)
    (hzero : m.counts e.count = 0) (hu : ∀ w, unreleased' w = unreleased w) :
    Ledger m unreleased' none := by
  refine ⟨fun w hw => h.handed w (hu w ▸ hw), fun _ hc => (by cases hc), fun _ hc => (by cases hc),
    fun p hp hnot _ => ?_, fun p hp hp' => .inl ?_⟩
  · rw [hu]
    by_cases hpe : e.count = p.2
    · obtain rfl : e.pair = p := hknown.group _ (h.deleted e rfl).1 p hp hpe
      exact Nat.le_zero.mp (hzero ▸ h.draining e rfl)
    · refine h.gone p hp hnot fun c hc => ?_
      obtain rfl := Option.some.inj hc
      exact hpe
  · obtain heq | ⟨c, hc, hpos⟩ := h.used p hp hp'
    · rw [hu, heq]
    · obtain rfl := Option.some.inj hc
      exact absurd hzero hpos.ne'

end Ledger

/-! ## What an event does to it

By cases on the event, once. `Effect` says which rule of the ledger applies; it also tells which
version is handed out and which is closed, so that nothing else has to look at the events again. -/

namespace DB

/-- The entry whose wait group is being drained. -/
def drain (d : DB) : Option Entry :=
  match d.cleaner with
  | some (.remove ⟨_, _, .deleted e⟩) => some e
  | _ => none

/-- The version that an event hands out a reference to. -/
def handsOut (d : DB) : DBEvent → Option VersionRef
  | .getCurrent | .refresh | .upgrade _ => d.mux.getCurrent.2
  | .getVersion name => (d.mux.getVersion name).2
  | .refresherNext =>
    match d.refresher with
    | some (.check latest) => (d.mux.getVersion latest).2
    | _ => none
  | .cleanerNext =>
    match d.cleaner with
    | some (.loop (dir :: _)) => (d.mux.getVersion dir).2
    | _ => none
  | _ => none

/-- What an event can do to the counts, the references and the closes. -/
inductive Effect (ev : DBEvent) (d d' : DB) : Prop where
  /-- nothing -/
  | keep (mux : d'.mux = d.mux) (unreleased : ∀ v, d'.unreleased v = d.unreleased v)
      (drain : d'.drain = d.drain) (closes : d'.closes = d.closes)
  /-- a version is closed -/
  | close (v : VersionRef) (byDB : Bool) (mux : d'.mux = d.mux)
      (unreleased : ∀ v, d'.unreleased v = d.unreleased v) (drain : d'.drain = d.drain)
      (closes : d'.closes = ⟨v, byDB⟩ :: d.closes)
      (cleaner : byDB = false → d.cleaner = some (.close v))
  /-- a reference is handed out -/
  | acquire (oe : Option Entry)
      (found : oe = d.mux.currentVersion ∨ ∃ name, oe = d.mux.versions.lookup name)
      (handsOut : d.handsOut ev = (d.mux.acquire oe).2) (mux : d'.mux = (d.mux.acquire oe).1)
      (unreleased : ∀ v, d'.unreleased v = (d.mux.acquire oe).2.toList.count v + d.unreleased v)
      (drain : d'.drain = d.drain) (closes : d'.closes = d.closes)
  /-- a reference is released -/
  | release (v : Option VersionRef) (mux : d.mux.release v = .ok d'.mux)
      (unreleased : ∀ w, d.unreleased w = v.toList.count w + d'.unreleased w)
      (drain : d'.drain = d.drain) (closes : d'.closes = d.closes)
  /-- a version is prepared -/
  | prepare (v : VersionRef) (caller : SwitchCaller)
      (refresher : d.refresher = some (.switch v caller)) (mux : d.mux.prepare v = .ok d'.mux)
      (unreleased : ∀ w, d'.unreleased w = d.unreleased w) (drain : d'.drain = d.drain)
      (closes : d'.closes = d.closes)
  /-- a version becomes current -/
  | upgrade (v : VersionRef) (mux : d.mux.upgrade v = .ok d'.mux)
      (unreleased : ∀ w, d'.unreleased w = d.unreleased w) (drain : d'.drain = d.drain)
      (closes : d'.closes = d.closes)
  /-- `mux.remove` stores its copy -/
  | arm (call : RemoveCall) (e : Entry) (cleaner : d.cleaner = some (.remove call))
      (stage : call.stage = .marked e)
      (mux : d'.mux = d.mux.armTimer call.version { e with closeTimer := true })
      (unreleased : ∀ w, d'.unreleased w = d.unreleased w) (drain : d'.drain = d.drain)
      (closes : d'.closes = d.closes)
  /-- `mux.remove` deletes the entry -/
  | delete (call : RemoveCall) (e : Entry) (cleaner : d.cleaner = some (.remove call))
      (stage : call.stage = .expired e) (mux : d'.mux = d.mux.delete call.version)
      (unreleased : ∀ w, d'.unreleased w = d.unreleased w) (before : d.drain = none)
      (drain : d'.drain = some e) (closes : d'.closes = d.closes)
  /-- `mux.remove` has seen the wait group at zero -/
  | drained (e : Entry) (zero : d.mux.counts e.count = 0) (mux : d'.mux = d.mux)
      (unreleased : ∀ w, d'.unreleased w = d.unreleased w) (before : d.drain = some e)
      (drain : d'.drain = none) (closes : d'.closes = d.closes)

variable {d d' : DB} {e : DBEvent}

/-- Who may hold a reference. -/
theorem unreleased_eq (d : DB) (v : VersionRef) :
    d.unreleased v = d.clients.count v + (d.refresher.elim [] RefreshStage.held).count v +
      (d.upgrader.elim [] fun u => u.2.held).count v +
      (d.cleaner.elim [] CleanStage.held).count v := by
  rw [unreleased, references, List.count_append, List.count_append, List.count_append]

/-- Panicking, or releasing a reference and going on. -/
theorem effect_release {v : Option VersionRef} {go : Mux → DB} (hmux : ∀ m, (go m).mux = m)
    (hu : ∀ m w, d.unreleased w = v.toList.count w + (go m).unreleased w)
    (hdrain : ∀ m, (go m).drain = d.drain) (hcloses : ∀ m, (go m).closes = d.closes) :
    d.Effect e (d.attempt (d.mux.release v) go) := by
  rcases hm : d.mux.release v with p | m
  · exact .keep rfl (fun _ => rfl) rfl rfl
  · exact .release v (by rw [hm, attempt, hmux]) (hu m) (hdrain m) (hcloses m)

/-- `version.close` closes, or panics. -/
theorem effect_closeVersion {v : VersionRef} {byDB : Bool} (go : DB → DB)
    (hmux : ∀ d, (go d).mux = d.mux) (hcloses : ∀ d, (go d).closes = d.closes)
    (hu : ∀ c p l w, (go { d with cancelled := c, panic := p, closes := l }).unreleased w =
      d.unreleased w)
    (hdrain : ∀ c p l, (go { d with cancelled := c, panic := p, closes := l }).drain = d.drain)
    (hcleaner : byDB = false → d.cleaner = some (.close v)) :
    d.Effect e (go (d.closeVersion v byDB)) := by
  rw [closeVersion]
  split
  · exact .keep (hmux _) (hu _ _ _) (hdrain _ _ _) (hcloses _)
  · exact .close v byDB (hmux _) (hu _ _ _) (hdrain _ _ _) (hcloses _) hcleaner

theorem held_resume (caller : SwitchCaller) (ready : Bool) :
    (caller.resume ready).elim [] RefreshStage.held = [] := by
  cases caller <;> rfl

/-- The holder of `refreshLock` moves between stages that hold nothing. -/
theorem unreleased_setRefresher {r : Option RefreshStage}
    (hbefore : d.refresher.elim [] RefreshStage.held = [])
    (hafter : r.elim [] RefreshStage.held = []) (v : VersionRef) :
    ({ d with refresher := r } : DB).unreleased v = d.unreleased v := by
  rw [unreleased_eq, unreleased_eq, hbefore]
  simp only [hafter]

theorem effect_onListVersions {names : Option (List Bytes)}
    (hs : d.onListVersions names = some d') : d.Effect e d' := by
  obtain ⟨r, r', hr, hlisted, rfl⟩ := listed_of_onListVersions hs
  refine .keep rfl (unreleased_setRefresher ?_ ?_) rfl rfl
  · rw [hr]
    cases hlisted <;> rfl
  · cases hlisted <;> rfl

theorem effect_onNewVersion {complete : Option Bool} (hs : d.onNewVersion complete = some d') :
    d.Effect e d' := by
  have hcreate : d.refresher.elim [] RefreshStage.held = [] → ∀ name complete caller,
      d.Effect e (d.createVersion name complete caller) := fun hbefore name complete caller =>
    .keep rfl (fun v => by rw [unreleased_eq, unreleased_eq, hbefore]; rfl) rfl rfl
  cases creates_of_onNewVersion hs with
  | backfillFails hr | refreshFails hr =>
    exact .keep rfl (unreleased_setRefresher (by rw [hr]; rfl) rfl) rfl rfl
  | backfill hr complete => exact hcreate (by rw [hr]; rfl) _ _ _
  | refresh hr complete => exact hcreate (by rw [hr]; rfl) _ _ _

/-- The references counted with what the holder of `refreshLock` has. -/
theorem unreleased_refresher {r : RefreshStage} (hr : d.refresher = some r) (w : VersionRef) :
    d.unreleased w = d.clients.count w + r.held.count w +
      (d.upgrader.elim [] fun u => u.2.held).count w +
      (d.cleaner.elim [] CleanStage.held).count w := by
  rw [unreleased_eq, hr]
  rfl

theorem effect_refresherNext (hs : d.refresherNext = some d') : d.Effect .refresherNext d' := by
  cases refreshes_of_refresherNext hs with
  | backfilled hr | closed hr | selectReady hr =>
    exact .keep rfl (fun w => by rw [unreleased_eq, unreleased_refresher hr]; rfl) rfl rfl
  | gotCurrent hr =>
    refine effect_release (fun _ => rfl) (fun m w => ?_) (fun _ => rfl) fun _ => rfl
    rw [unreleased_refresher hr, unreleased_eq]
    simp only [RefreshStage.held, Option.elim, List.count_nil]
    omega
  | @check latest hr =>
    refine .acquire (d.mux.versions.lookup latest) (.inr ⟨latest, rfl⟩) ?_ rfl (fun w => ?_) rfl rfl
    · rw [handsOut, hr]
      rfl
    rw [unreleased_eq, unreleased_refresher hr]
    simp only [RefreshStage.held, Option.elim, List.count_nil, Mux.getVersion]
    omega
  | @gotExisting latest existing hr =>
    refine effect_release (fun _ => rfl) (fun m w => ?_) (fun _ => rfl) fun _ => rfl
    rw [unreleased_refresher hr, unreleased_eq]
    cases existing with
    | none => simp [RefreshStage.held]
    | some v =>
      simp only [RefreshStage.held, Option.isSome_some, if_true, Option.elim, List.count_nil]
      omega
  | @switch v caller hr =>
    rcases hm : d.mux.prepare v with p | m
    · exact .keep rfl (fun _ => rfl) rfl rfl
    · exact .prepare v caller hr (by rw [hm]; rfl)
        (fun w => by rw [unreleased_eq, unreleased_refresher hr]; rfl) rfl rfl
  | selectWaits hr =>
    refine .keep rfl (fun w => ?_) rfl rfl
    rw [unreleased_eq, unreleased_refresher hr]
    simp only [held_resume, RefreshStage.held]
  | @close v vs hr =>
    exact effect_closeVersion (fun d => { d with refresher := some (.close vs) })
      (fun _ => rfl) (fun _ => rfl)
      (fun _ _ _ w => by rw [unreleased_eq, unreleased_refresher hr]; rfl)
      (fun _ _ _ => rfl) fun h => by cases h

/-- What is held without the holder of `upgradeLock`, who has released its own. -/
theorem unreleased_upgradeReturns (call : UpgradeCall) (w : VersionRef) :
    (d.upgradeReturns call).unreleased w = d.clients.count w +
      (d.refresher.elim [] RefreshStage.held).count w +
      (d.cleaner.elim [] CleanStage.held).count w := by
  have hheld : (d.upgradeReturns call).refresher.elim [] RefreshStage.held =
      d.refresher.elim [] RefreshStage.held := by
    rw [upgradeReturns]
    split
    · rcases hr : d.refresher with _ | r
      · rfl
      · cases r with
        | upgrade v caller => exact held_resume caller true
        | _ => rfl
    · rfl
  rw [unreleased_eq, hheld]
  simp only [upgradeReturns, Option.elim, List.count_nil, Nat.add_zero]

theorem effect_upgraderNext {order : IterOrder (Σ _ : Bytes, Entry)}
    (hs : d.upgraderNext order = some d') : d.Effect e d' := by
  have hu : ∀ {call stage}, d.upgrader = some (call, stage) → ∀ w, d.unreleased w =
      d.clients.count w + (d.refresher.elim [] RefreshStage.held).count w + stage.held.count w +
      (d.cleaner.elim [] CleanStage.held).count w :=
    fun hu w => by rw [unreleased_eq, hu]; rfl
  cases upgrades_of_upgraderNext hs with
  | outdated hup | same hup =>
    refine effect_release (fun _ => rfl) (fun m w => ?_) (fun _ => rfl) fun _ => rfl
    rw [hu hup, unreleased_upgradeReturns]
    simp only [UpgradeStage.held]
    omega
  | newer hup =>
    refine effect_release (fun _ => rfl) (fun m w => ?_) (fun _ => rfl) fun _ => rfl
    rw [hu hup, unreleased_eq]
    simp only [UpgradeStage.held, Option.elim, List.count_nil]
    omega
  | @switch call current hup =>
    rcases hm : d.mux.upgrade call.version with p | m
    · exact .keep rfl (fun _ => rfl) rfl rfl
    · exact .upgrade call.version (by rw [hm]; rfl)
        (fun w => by rw [unreleased_eq, hu hup]; rfl) rfl rfl
  | sweep hup =>
    refine .keep rfl (fun w => ?_) rfl rfl
    rw [unreleased_upgradeReturns, hu hup]
    rfl

/-- The references counted with what the holder of `cleanupLock` has. -/
theorem unreleased_cleaner {c : CleanStage} (hc : d.cleaner = some c) (w : VersionRef) :
    d.unreleased w = d.clients.count w + (d.refresher.elim [] RefreshStage.held).count w +
      (d.upgrader.elim [] fun u => u.2.held).count w + c.held.count w := by
  rw [unreleased_eq, hc]
  rfl

/-- `mux.remove` goes on with the same version. -/
theorem effect_advance {v : VersionRef} {shouldWait : Bool} {stage stage' : RemoveStage} {m : Mux}
    (hc : d.cleaner = some (.remove ⟨v, shouldWait, stage⟩))
    (hm : RemoveCall.advance ⟨v, shouldWait, stage⟩ d.mux = .next m stage') :
    d.Effect e { d with mux := m, cleaner := some (.remove ⟨v, shouldWait, stage'⟩) } := by
  have hu : ∀ w, ({ d with mux := m, cleaner := some (.remove ⟨v, shouldWait, stage'⟩) }
      : DB).unreleased w = d.unreleased w := fun w => by
    rw [unreleased_eq, unreleased_cleaner hc]
    rfl
  obtain ⟨vs, rfl, -, rfl, hnext⟩ | ⟨vs, rfl, rfl, rfl⟩ | ⟨vs, rfl, rfl, rfl⟩ |
    ⟨vs, rfl, rfl, rfl⟩ := RemoveCall.advance_next hm
  · refine .keep rfl hu ?_ rfl
    rw [drain, drain, hc]
    obtain rfl | rfl := hnext
    · rfl
    · rfl
  · exact .arm _ vs hc rfl rfl hu (by rw [drain, drain, hc]) rfl
  · exact .keep rfl hu (by rw [drain, drain, hc]) rfl
  · exact .delete _ vs hc rfl rfl hu (by rw [drain, hc]) rfl rfl

theorem effect_cleanerNext (hs : d.cleanerNext = some d') : d.Effect .cleanerNext d' := by
  cases cleans_of_cleanerNext hs with
  | next hc hm => exact effect_advance hc hm
  | @returnsNil call hc hm =>
    obtain ⟨v, shouldWait, stage⟩ := call
    obtain rfl : stage = .called := RemoveCall.advance_returnsNil hm
    exact .keep rfl (fun w => by rw [unreleased_eq, unreleased_cleaner hc]; rfl)
      (by rw [drain, drain, hc]) rfl
  | @returnsVersion call hc hm =>
    obtain ⟨v, shouldWait, stage⟩ := call
    obtain ⟨vs, rfl, hzero⟩ := RemoveCall.advance_returnsVersion hm
    exact .drained vs hzero rfl (fun w => by rw [unreleased_eq, unreleased_cleaner hc]; rfl)
      (by rw [drain, hc]) rfl rfl
  | close hc =>
    exact effect_closeVersion (fun d => { d with cleaner := none }) (fun _ => rfl) (fun _ => rfl)
      (fun _ _ _ w => by rw [unreleased_eq, unreleased_cleaner hc]; rfl)
      (fun _ _ _ => by rw [drain, drain, hc]) fun _ => hc
  | cleaned hc | clear hc =>
    exact .keep rfl (fun w => by rw [unreleased_eq, unreleased_cleaner hc]; rfl)
      (by rw [drain, drain, hc]) rfl
  | @loop dir dirs hc =>
    refine .acquire (d.mux.versions.lookup dir) (.inr ⟨dir, rfl⟩) ?_ rfl (fun w => ?_)
      (by rw [drain, drain, hc]) rfl
    · rw [handsOut, hc]
      rfl
    rw [unreleased_eq, unreleased_cleaner hc]
    simp only [CleanStage.held, Option.elim, List.count_nil, Mux.getVersion]
    omega
  | @gotVersion dir v dirs hc =>
    refine effect_release (fun _ => rfl) (fun m w => ?_) (fun m => ?_) fun _ => rfl
    · rw [unreleased_cleaner hc, unreleased_eq]
      cases v with
      | none => simp [CleanStage.held]
      | some v =>
        simp only [CleanStage.held, Option.isSome_some, if_true, Option.elim, List.count_nil]
        omega
    · rw [drain, drain, hc]
      cases v <;> rfl

/-- **What an event can do.** -/
theorem effect_act {peers : Bool} (hs : d.act peers e = some d') : d.Effect e d' := by
  cases acts_of_act hs with
  | getCurrent =>
    refine .acquire d.mux.currentVersion (.inl rfl) rfl rfl (fun w => ?_) rfl rfl
    rw [unreleased_eq, unreleased_eq]
    simp only [List.count_append, Mux.getCurrent]
    omega
  | getVersion name =>
    refine .acquire (d.mux.versions.lookup name) (.inr ⟨name, rfl⟩) rfl rfl (fun w => ?_) rfl
      rfl
    rw [unreleased_eq, unreleased_eq]
    simp only [List.count_append, Mux.getVersion]
    omega
  | release hv =>
    refine effect_release (fun _ => rfl) (fun m w => ?_) (fun _ => rfl) fun _ => rfl
    rw [unreleased_eq, unreleased_eq, MuxState.count_erase_add hv]
    simp only [Option.toList_some]
    omega
  | partitionsReady | ready | wake => exact .keep rfl (fun _ => rfl) rfl rfl
  | refresh hnone =>
    refine .acquire d.mux.currentVersion (.inl rfl) rfl rfl (fun w => ?_) rfl rfl
    rw [unreleased_eq, unreleased_eq, hnone]
    simp only [RefreshStage.held, Option.elim, List.count_nil, Mux.getCurrent]
    omega
  | close hnone order =>
    refine .keep rfl (unreleased_setRefresher ?_ rfl) rfl rfl
    rw [hnone]
    rfl
  | listVersions hs => exact effect_onListVersions hs
  | newVersion hs => exact effect_onNewVersion hs
  | refresherNext hs => exact effect_refresherNext hs
  | upgrade hcall hnone =>
    refine .acquire d.mux.currentVersion (.inl rfl) rfl rfl (fun w => ?_) rfl rfl
    rw [unreleased_eq, unreleased_eq, hnone]
    simp only [UpgradeStage.held, Option.elim, List.count_nil, Mux.getCurrent]
    omega
  | upgraderNext hs => exact effect_upgraderNext hs
  | remove hremoval hnone =>
    exact .keep rfl (fun w => by rw [unreleased_eq, unreleased_eq, hnone]; rfl)
      (by rw [drain, drain, hnone]) rfl
  | cleanup hdue hnone dirs =>
    exact .keep rfl (fun w => by rw [unreleased_eq, unreleased_eq, hnone]; rfl)
      (by rw [drain, drain, hnone]) rfl
  | cleanerNext hs => exact effect_cleanerNext hs

/-! ## The multiplexer over one event -/

theorem Effect.lookup (h : d.Effect e d') (hsound : d.Sound) {name : Bytes} {vs : Entry}
    (hvs : d'.mux.versions.lookup name = some vs) :
    (∃ old, d.mux.versions.lookup name = some old ∧ old.version = vs.version) ∨
      (∃ caller, d.refresher = some (.switch vs.version caller)) ∧ name = vs.version.name := by
  cases h with
  | keep mux | close v byDB mux | drained e zero mux =>
    rw [mux] at hvs
    exact .inl ⟨vs, hvs, rfl⟩
  | acquire oe found _ mux =>
    rw [mux, Mux.acquire_versions] at hvs
    exact .inl ⟨vs, hvs, rfl⟩
  | release v mux =>
    rw [(Mux.release_frame mux).1] at hvs
    exact .inl ⟨vs, hvs, rfl⟩
  | prepare v caller refresher mux =>
    rw [(Mux.prepare_cases mux).2] at hvs
    obtain ⟨rfl, rfl⟩ | ⟨-, hvs⟩ := AList.lookup_insert_eq_some hvs
    · exact .inr ⟨⟨caller, refresher⟩, rfl⟩
    · exact .inl ⟨vs, hvs, rfl⟩
  | upgrade v mux =>
    obtain ⟨e, -, -, hm⟩ := Mux.upgrade_cases mux
    rw [hm] at hvs
    exact .inl ⟨vs, hvs, rfl⟩
  | arm call e cleaner stage mux =>
    rw [mux] at hvs
    obtain ⟨-, hok⟩ := hsound.cleaner _ cleaner
    rw [stage] at hok
    obtain ⟨old, hold, hpair⟩ := hok
    obtain ⟨rfl, rfl⟩ | ⟨-, hvs⟩ := AList.lookup_insert_eq_some hvs
    · exact .inl ⟨old, hold, congrArg Prod.fst hpair⟩
    · exact .inl ⟨vs, hvs, rfl⟩
  | delete call e cleaner stage mux =>
    rw [mux] at hvs
    exact .inl ⟨vs, (AList.lookup_erase_eq_some hvs).2, rfl⟩

/-- What is in the multiplexer was there before, or was just prepared. -/
theorem Effect.has (h : d.Effect e d') (hsound : d.Sound) {v : VersionRef} (hv : d'.mux.Has v) :
    d.mux.Has v ∨ ∃ caller, d.refresher = some (.switch v caller) := by
  obtain ⟨vs, hvs, rfl⟩ := hv
  exact (h.lookup hsound hvs).imp id And.left

theorem Effect.prepared (h : d.Effect e d') {v : VersionRef} (hv : d.mux.Prepared v) :
    d'.mux.Prepared v := by
  obtain ⟨g, hg⟩ := hv
  refine ⟨g, ?_⟩
  cases h with
  | keep mux | close v byDB mux | drained e zero mux => rwa [mux]
  | acquire oe found _ mux => rwa [mux, Mux.acquire_prepared]
  | release v mux => rwa [(Mux.release_frame mux).2.2.2]
  | prepare v caller refresher mux =>
    rw [(Mux.prepare_cases mux).2]
    exact List.mem_cons_of_mem _ hg
  | upgrade v mux =>
    obtain ⟨e, -, -, hm⟩ := Mux.upgrade_cases mux
    rwa [hm]
  | arm call e cleaner stage mux | delete call e cleaner stage mux =>
    rw [mux]
    exact hg

/-! ## The counts over a run -/

/-- An entry that is found is in the map, with the wait group its version was prepared
with. -/
theorem Sound.found (h : d.Sound) {oe : Option Entry}
    (hoe : oe = d.mux.currentVersion ∨ ∃ name, oe = d.mux.versions.lookup name) {vs : Entry}
    (he : oe = some vs) : vs.pair ∈ d.mux.prepared ∧ d.mux.Has vs.version := by
  obtain rfl | ⟨name, rfl⟩ := hoe
  · exact ⟨h.known.current vs he, h.current vs he⟩
  · refine ⟨h.known.entry name vs he, vs, ?_, rfl⟩
    rw [h.known.name name vs he]
    exact he

/-- **An event keeps the ledger**, by the rule that it names. -/
theorem Effect.ledger (he : d.Effect e d') (hsound : d.Sound)
    (h : Ledger d.mux d.unreleased d.drain) : Ledger d'.mux d'.unreleased d'.drain := by
  have hknown := hsound.known
  cases he with
  | keep mux unreleased drain | close v byDB mux unreleased drain =>
    rw [mux, drain]
    exact h.congr (fun _ => Iff.rfl) rfl rfl unreleased
  | acquire oe found _ mux unreleased drain =>
    rw [mux, drain]
    exact h.acquire hknown (fun e he => hsound.found found he) unreleased
  | release v mux unreleased drain =>
    rw [drain]
    exact h.release hknown mux unreleased
  | prepare v caller refresher mux unreleased drain =>
    rw [drain]
    exact h.prepare hknown mux (hsound.refresher _ refresher).2.2 unreleased
  | upgrade v mux unreleased drain =>
    obtain ⟨e, -, -, hm⟩ := Mux.upgrade_cases mux
    rw [drain, hm]
    exact h.congr (fun _ => Iff.rfl) rfl rfl unreleased
  | arm call e cleaner stage mux unreleased drain =>
    obtain ⟨-, hok⟩ := hsound.cleaner _ cleaner
    rw [stage] at hok
    obtain ⟨e', he', hpair⟩ := hok
    rw [mux, drain]
    exact h.congr (Mux.has_armTimer he' hpair) rfl rfl unreleased
  | delete call e cleaner stage mux unreleased before drain =>
    obtain ⟨-, hok⟩ := hsound.cleaner _ cleaner
    rw [stage] at hok
    obtain ⟨e', he', hpair⟩ := hok
    rw [before] at h
    rw [mux, drain]
    exact h.delete hknown he' hpair unreleased
  | drained e zero mux unreleased before drain =>
    rw [before] at h
    rw [mux, drain]
    exact h.drained hknown zero unreleased

/-- **The counts are those of a ledger**, in every run of a db. -/
theorem ledger_of_reachable {peers : Bool} (h : (dbMachine peers).Reachable d) :
    Ledger d.mux d.unreleased d.drain := by
  refine h.invariant (P := fun d => Ledger d.mux d.unreleased d.drain) (fun s hs => ?_)
    fun s e s' hr hledger hs => ?_
  · obtain rfl : s = .new := hs
    exact Ledger.new.congr (fun _ => Iff.rfl) rfl rfl fun _ => rfl
  · change DB.step peers s e = some s' at hs
    rw [DB.step] at hs
    split at hs
    · exact (effect_act hs).ledger (sound_of_reachable hr) hledger
    · cases hs

/-! ## What `removeVersion` has closed

A version that is out of the multiplexer and not being drained is out of use for good: it is not
handed out any more, and its name can only come back with another object. -/

/-- The version was deleted and drained. -/
structure Retired (d : DB) (v : VersionRef) : Prop where
  /-- it was in the multiplexer once -/
  prepared : d.mux.Prepared v
  /-- it is not any more -/
  gone : ¬ d.mux.Has v
  /-- and `mux.remove` does not wait for it -/
  drained : ∀ vs, d.drain = some vs → vs.version ≠ v

/-- It stays that way, whatever happens. -/
theorem Retired.effect {v : VersionRef} (h : d.Retired v) (hsound : d.Sound)
    (he : d.Effect e d') : d'.Retired v where
  prepared := he.prepared h.prepared
  gone := fun hhas => by
    obtain hhas | ⟨caller, hr⟩ := he.has hsound hhas
    · exact h.gone hhas
    · exact (hsound.refresher _ hr).2.2 h.prepared
  drained := by
    cases he with
    | keep _ _ drain | close _ _ _ _ drain | acquire _ _ _ _ _ drain | release _ _ _ drain
    | prepare _ _ _ _ _ drain | upgrade _ _ _ drain | arm _ _ _ _ _ _ drain =>
      rw [drain]
      exact h.drained
    | delete call vs cleaner stage mux unreleased before drain =>
      -- what starts to be drained was in the multiplexer until now
      obtain ⟨-, hok⟩ := hsound.cleaner _ cleaner
      rw [stage] at hok
      obtain ⟨vs', hvs', hpair⟩ := hok
      rw [drain]
      rintro _ ⟨⟩ rfl
      refine h.gone ⟨vs', ?_, congrArg Prod.fst hpair⟩
      rw [(hsound.known.copy hvs' hpair).1]
      exact hvs'
    | drained _ _ _ _ _ drain =>
      rw [drain]
      exact fun _ hvs => by cases hvs

/-- What was retired is not in use. -/
theorem Retired.unreleased {v : VersionRef} (h : d.Retired v) (hsound : d.Sound)
    (hledger : Ledger d.mux d.unreleased d.drain) : d.unreleased v = 0 := by
  obtain ⟨g, hg⟩ := h.prepared
  refine hledger.gone _ hg h.gone fun vs hvs hcount => h.drained vs hvs ?_
  exact congrArg Prod.fst (hsound.known.group _ (hledger.deleted vs hvs).1 _ hg hcount)

/-- What `removeVersion` closes was retired before. -/
theorem Sound.retired (h : d.Sound) {v : VersionRef} (hc : d.cleaner = some (.close v)) :
    d.Retired v where
  prepared := (h.cleaner _ hc).1
  gone := (h.cleaner _ hc).2
  drained := fun vs hvs => by
    rw [drain, hc] at hvs
    cases hvs

theorem retired_of_reachable {peers : Bool} (h : (dbMachine peers).Reachable d) :
    ∀ c ∈ d.closes, c.byDB = false → d.Retired c.version := by
  refine h.invariant (P := fun d => ∀ c ∈ d.closes, c.byDB = false → d.Retired c.version)
    (fun s hs => ?_) fun s e s' hr hretired hs => ?_
  · obtain rfl : s = .new := hs
    exact fun _ hc => by cases hc
  · change DB.step peers s e = some s' at hs
    rw [DB.step] at hs
    split at hs
    · have hsound := sound_of_reachable hr
      have heffect := effect_act hs
      have hkept : ∀ c ∈ s.closes, c.byDB = false → s'.Retired c.version :=
        fun c hc hby => (hretired c hc hby).effect hsound heffect
      cases heffect with
      | close v byDB mux unreleased drain closes cleaner =>
        rw [closes]
        refine List.forall_mem_cons.mpr ⟨fun hby => ?_, hkept⟩
        exact (hsound.retired (cleaner hby)).effect hsound (effect_act hs)
      | keep _ _ _ closes | acquire _ _ _ _ _ _ closes | release _ _ _ _ closes
      | prepare _ _ _ _ _ _ closes | upgrade _ _ _ _ closes | arm _ _ _ _ _ _ _ closes
      | delete _ _ _ _ _ _ _ _ closes | drained _ _ _ _ _ _ closes =>
        rwa [closes]
    · cases hs

/-- **What `removeVersion` closes is not in use, then or later**, in every run of a db. -/
theorem closed_unused {peers : Bool} (h : (dbMachine peers).Reachable d) {c : Close}
    (hc : c ∈ d.closes) (hby : c.byDB = false) : d.unreleased c.version = 0 :=
  (retired_of_reachable h c hc hby).unreleased (sound_of_reachable h) (ledger_of_reachable h)

/-! ## Handing out -/

/-- A reference is unreleased if it was before or is handed out. -/
theorem unreleased_act_le {peers : Bool} (hs : d.act peers e = some d') (v : VersionRef) :
    d'.unreleased v ≤ (d.handsOut e).toList.count v + d.unreleased v := by
  cases effect_act hs with
  | keep _ unreleased | close _ _ _ unreleased | prepare _ _ _ _ unreleased | upgrade _ _ unreleased
  | arm _ _ _ _ _ unreleased | delete _ _ _ _ _ unreleased | drained _ _ _ unreleased =>
    rw [unreleased]
    exact Nat.le_add_left _ _
  | acquire _ _ handsOut _ unreleased => rw [unreleased, handsOut]
  | release w _ unreleased =>
    rw [unreleased v]
    omega

end DB

end Sequins
