import Sequins.Build
import Mathlib.Data.Finset.Sort

/-!
# Status pages

`status.go`: what a node reports about its dbs (`ServedDB.status`), and how reports are put
together: `mergeDBStatus` writes one into another, and `calculateReplicationStats` counts, at
the end, how many nodes have each partition.

All of these range over maps. What they make of the maps is stated through a *view*: the maps as
functions, so that two statuses with the same view differ in nothing but the order of entries.
Merging is then a function of the views (`view_mergeDBStatus`), and so is counting
(`view_calculateReplicationStats`). What reports are put together in a status is
said by `Collects`; it does not depend on how they were merged (`Collects.unique`).
-/

namespace Sequins

/-! ## Statuses -/

/-- `nodeVersionStatus`, with times in seconds. -/
structure NodeVersionStatus where
  /-- `CreatedAt` -/
  createdAt : ℕ
  /-- `AvailableAt` -/
  availableAt : Option ℕ
  /-- `Current` -/
  current : Bool
  /-- `State` -/
  state : VersionState
  /-- `Partitions` -/
  partitions : List ℤ
  deriving DecidableEq, Repr

/-- `versionStatus`. -/
structure VersionStatus where
  /-- `Path` -/
  path : Bytes
  /-- `NumPartitions` -/
  numPartitions : ℕ
  /-- `UnderreplicatedPartitions` -/
  underreplicatedPartitions : ℕ
  /-- `OverreplicatedPartitions` -/
  overreplicatedPartitions : ℕ
  /-- `MissingPartitions` -/
  missingPartitions : ℕ
  /-- `TargetReplication` -/
  targetReplication : ℕ
  /-- `AverageReplication` -/
  averageReplication : Float32
  /-- `Nodes` -/
  nodes : AList fun _ : Address => NodeVersionStatus

/-- `dbStatus`: its versions. -/
abbrev DBStatus : Type := AList fun _ : Bytes => VersionStatus

/-- `status`: its dbs. -/
abbrev Status : Type := AList fun _ : Bytes => DBStatus

/-- The part of a db that its status is made from. -/
structure ServedDB where
  /-- the versions in the multiplexer, each with when it became available -/
  versions : List (Version × Option ℕ)
  /-- the name of the current version -/
  current : Option Bytes
  /-- the multiplexer has one version of each name -/
  nodup : (versions.map fun v => v.1.name).Nodup

/-- The orders in which the maps are ranged over. -/
structure StatusOrders where
  /-- the peers, in `getAll` -/
  peers : IterOrder Address
  /-- the dbs of a node -/
  dbs : IterOrder (Σ _ : Bytes, ServedDB)
  /-- the dbs of a status -/
  status : IterOrder (Σ _ : Bytes, DBStatus)
  /-- the versions of a db -/
  versions : IterOrder (Σ _ : Bytes, VersionStatus)
  /-- the nodes of a version -/
  nodes : IterOrder (Σ _ : Address, NodeVersionStatus)

variable (o : StatusOrders)

/-! ## Merging and counting -/

/-- A version's status with another one's entries for its nodes written into it, or, if there
was none, into a fresh one. -/
def mergeVersionStatus (left : Option VersionStatus) (vst : VersionStatus) : VersionStatus :=
  let left := left.getD ⟨vst.path, vst.numPartitions, 0, 0, 0, vst.targetReplication, 0, ∅⟩
  { left with
    nodes := (o.nodes.arrange vst.nodes.entries).foldl (fun nodes e => nodes.insert e.1 e.2)
      left.nodes }

/-- `mergeDBStatus`. -/
def mergeDBStatus (left right : DBStatus) : DBStatus :=
  (o.versions.arrange right.entries).foldl
    (fun left e => left.insert e.1 (mergeVersionStatus o (left.lookup e.1) e.2)) left

/-- `copyDBStatus`. -/
def copyDBStatus (status : DBStatus) : DBStatus := mergeDBStatus o ∅ status

/-- What a node adds to `replication`. -/
def countNode (replication : ℤ → ℕ) (node : NodeVersionStatus) : ℤ → ℕ :=
  if node.state = .available ∨ node.state = .removing then
    node.partitions.foldl (fun replication p => Function.update replication p (replication p + 1))
      replication
  else
    replication

/-- One partition in the counters of a version, and in the total. -/
def countPartition (replication : ℤ → ℕ) (acc : ℕ × VersionStatus) (p : ℕ) : ℕ × VersionStatus :=
  let r := replication p
  let vst := acc.2
  (acc.1 + r,
    if r = 0 then
      { vst with missingPartitions := vst.missingPartitions + 1 }
    else if r < vst.targetReplication then
      { vst with underreplicatedPartitions := vst.underreplicatedPartitions + 1 }
    else if vst.targetReplication < r then
      { vst with overreplicatedPartitions := vst.overreplicatedPartitions + 1 }
    else
      vst)

/-- `calculateReplicationStats`. -/
def calculateReplicationStats (vst : VersionStatus) : VersionStatus :=
  let replication := (o.nodes.arrange vst.nodes.entries).foldl (fun r e => countNode r e.2)
    fun _ => 0
  let counted := (List.range vst.numPartitions).foldl (countPartition replication) (0, vst)
  { counted.2 with
    averageReplication :=
      if vst.numPartitions = 0 then 0
      else Float32.ofNat counted.1 / Float32.ofNat vst.numPartitions }

/-- The loop at the end of a handler: every version is counted. -/
def calculateDBStats (s : DBStatus) : DBStatus :=
  (o.versions.arrange s.entries).foldl
    (fun s e => s.insert e.1 (calculateReplicationStats o e.2)) s

/-! ## What a node reports -/

/-- `status` of a version: it names the node that has it. -/
def Version.status (v : Version) (available : Option ℕ) (hostname : Address) (path : Bytes) :
    VersionStatus :=
  ⟨path, v.numPartitions, 0, 0, 0, 0, 0,
    AList.singleton hostname
      ⟨v.created, available, false, v.state, v.partitions.selected.sort (· ≤ ·)⟩⟩

/-- Which of the versions is the current one, in the entry of a node (which is there). -/
def markCurrent (current : Option Bytes) (hostname : Address) (name : Bytes) (vst : VersionStatus) :
    VersionStatus :=
  let st := (vst.nodes.lookup hostname).getD ⟨0, none, false, .error, []⟩
  { vst with nodes := vst.nodes.insert hostname { st with current := current == some name } }

/-- The statuses of the versions of a db. -/
def ServedDB.listed (db : ServedDB) (hostname : Address) (displayPath : Bytes → Bytes) : DBStatus :=
  db.versions.foldl
    (fun status v => status.insert v.1.name (v.1.status v.2 hostname (displayPath v.1.name))) ∅

/-- `status` of a db. -/
def ServedDB.status (db : ServedDB) (hostname : Address) (displayPath : Bytes → Bytes) : DBStatus :=
  let status := db.listed hostname displayPath
  (o.versions.arrange status.entries).foldl
    (fun status e => status.insert e.1 (markCurrent db.current hostname e.1 e.2)) status

/-! ## Views

A map as a function has no order of entries. What is proved of the views holds of the maps up to
that order, which is all that JSON shows of them. -/

/-- A version's status, its nodes as a function. -/
@[ext]
structure VersionView where
  /-- `Path` -/
  path : Bytes
  /-- `NumPartitions` -/
  numPartitions : ℕ
  /-- `UnderreplicatedPartitions` -/
  underreplicatedPartitions : ℕ
  /-- `OverreplicatedPartitions` -/
  overreplicatedPartitions : ℕ
  /-- `MissingPartitions` -/
  missingPartitions : ℕ
  /-- `TargetReplication` -/
  targetReplication : ℕ
  /-- `AverageReplication` -/
  averageReplication : Float32
  /-- `Nodes` -/
  nodes : Address → Option NodeVersionStatus

/-- A db's status as a function. -/
abbrev DBView : Type := Bytes → Option VersionView

/-- The view of a version's status. -/
def VersionStatus.view (vst : VersionStatus) : VersionView :=
  ⟨vst.path, vst.numPartitions, vst.underreplicatedPartitions, vst.overreplicatedPartitions,
    vst.missingPartitions, vst.targetReplication, vst.averageReplication,
    fun host => vst.nodes.lookup host⟩

/-- The view of a db's status. -/
def DBStatus.view (s : DBStatus) : DBView := fun name => (s.lookup name).map VersionStatus.view

/-- The view of a status. -/
def Status.view (st : Status) : Bytes → Option DBView := fun name =>
  (st.lookup name).map DBStatus.view

/-- The view of a fresh status for the same version. -/
def VersionView.fresh (x : VersionView) : VersionView :=
  ⟨x.path, x.numPartitions, 0, 0, 0, x.targetReplication, 0, fun _ => none⟩

/-- Merging, of views. -/
def VersionView.merge (left : Option VersionView) (x : VersionView) : VersionView :=
  let left := left.getD x.fresh
  { left with nodes := fun host => (x.nodes host).or (left.nodes host) }

/-- Merging, of views. -/
def DBView.merge (left right : DBView) : DBView := fun name =>
  (right name).elim (left name) fun x => some (VersionView.merge (left name) x)

/-- Merging is a function of the views. -/
theorem view_mergeVersionStatus (left : Option VersionStatus) (vst : VersionStatus) :
    (mergeVersionStatus o left vst).view =
      VersionView.merge (left.map VersionStatus.view) vst.view := by
  have hnodes : ∀ start : AList fun _ : Address => NodeVersionStatus, ∀ host,
      ((o.nodes.arrange vst.nodes.entries).foldl (fun nodes e => nodes.insert e.1 e.2)
        start).lookup host = (vst.nodes.lookup host).or (start.lookup host) := by
    intro start host
    rw [AList.lookup_range o.nodes (fun _ x _ => x)]
    cases vst.nodes.lookup host <;> rfl
  cases left with
  | none =>
    ext1 <;> try rfl
    funext host
    exact hnodes _ host
  | some left =>
    ext1 <;> try rfl
    funext host
    exact hnodes _ host

/-- **Merging does not depend on the order in which the maps are visited.** -/
theorem view_mergeDBStatus (left right : DBStatus) :
    DBStatus.view (mergeDBStatus o left right) = DBView.merge left.view right.view := by
  funext name
  rw [DBStatus.view, mergeDBStatus,
    AList.lookup_range o.versions (fun _ x left => mergeVersionStatus o left x), DBView.merge,
    DBStatus.view]
  cases right.lookup name with
  | none => rfl
  | some vst => simp [view_mergeVersionStatus, DBStatus.view]

/-- What a node adds: its partitions, if it serves them. -/
theorem countNode_apply (replication : ℤ → ℕ) (node : NodeVersionStatus) (p : ℤ) :
    countNode replication node p = replication p +
      if node.state = .available ∨ node.state = .removing then node.partitions.count p else 0 := by
  have hfold : ∀ (l : List ℤ) (r : ℤ → ℕ),
      l.foldl (fun r p => Function.update r p (r p + 1)) r p = r p + l.count p := by
    intro l
    induction l with
    | nil => simp
    | cons q l ih =>
      intro r
      rw [List.foldl_cons, ih, List.count_cons]
      by_cases hq : q = p
      · subst hq
        simp
        omega
      · simp [Function.update_of_ne (Ne.symm hq), hq]
  rw [countNode]
  split
  · exact hfold _ _
  · rfl

/-- The nodes of a version are counted in any order. -/
theorem replication_eq {vst vst' : VersionStatus} (h : vst.view = vst'.view) (o' : StatusOrders) :
    (o.nodes.arrange vst.nodes.entries).foldl (fun r e => countNode r e.2) (fun _ => 0) =
      (o'.nodes.arrange vst'.nodes.entries).foldl (fun r e => countNode r e.2) fun _ => 0 := by
  have hlookup : ∀ host, vst.nodes.lookup host = vst'.nodes.lookup host :=
    congrFun (congrArg VersionView.nodes h)
  have hperm : (o.nodes.arrange vst.nodes.entries).Perm (o'.nodes.arrange vst'.nodes.entries) :=
    (o.nodes.perm _).trans ((AList.entries_perm_of_lookup hlookup).trans (o'.nodes.perm _).symm)
  have hcomm : RightCommutative
      fun (r : ℤ → ℕ) (e : Σ _ : Address, NodeVersionStatus) => countNode r e.2 := by
    refine ⟨fun r e e' => funext fun p => ?_⟩
    simp only [countNode_apply]
    omega
  exact hperm.foldl_eq _

/-- One partition in the counters, of views. -/
def VersionView.count (x : VersionView) (r : ℕ) : VersionView :=
  if r = 0 then
    { x with missingPartitions := x.missingPartitions + 1 }
  else if r < x.targetReplication then
    { x with underreplicatedPartitions := x.underreplicatedPartitions + 1 }
  else if x.targetReplication < r then
    { x with overreplicatedPartitions := x.overreplicatedPartitions + 1 }
  else
    x

theorem countPartition_spec (replication : ℤ → ℕ) (acc : ℕ × VersionStatus) (p : ℕ) :
    (countPartition replication acc p).1 = acc.1 + replication p ∧
      (countPartition replication acc p).2.view = acc.2.view.count (replication p) := by
  refine ⟨rfl, ?_⟩
  simp only [countPartition, apply_ite VersionStatus.view]
  rfl

theorem foldl_countPartition (replication : ℤ → ℕ) (l : List ℕ) (acc : ℕ × VersionStatus) :
    (l.foldl (countPartition replication) acc).1 = acc.1 + (l.map fun p : ℕ => replication p).sum ∧
      (l.foldl (countPartition replication) acc).2.view =
        l.foldl (fun x p => x.count (replication p)) acc.2.view := by
  induction l generalizing acc with
  | nil => exact ⟨rfl, rfl⟩
  | cons p l ih =>
    obtain ⟨htotal, hview⟩ := ih (countPartition replication acc p)
    obtain ⟨htotal', hview'⟩ := countPartition_spec replication acc p
    rw [List.foldl_cons, List.foldl_cons, List.map_cons, List.sum_cons, htotal, hview, htotal',
      hview']
    exact ⟨Nat.add_assoc .., rfl⟩

/-- **Counting does not depend on the order either.** -/
theorem view_calculateReplicationStats {vst vst' : VersionStatus} (h : vst.view = vst'.view)
    (o' : StatusOrders) :
    (calculateReplicationStats o vst).view = (calculateReplicationStats o' vst').view := by
  have hcalculate : ∀ (o : StatusOrders) (vst : VersionStatus) (replication : ℤ → ℕ),
      (o.nodes.arrange vst.nodes.entries).foldl (fun r e => countNode r e.2) (fun _ => 0) =
        replication →
      (calculateReplicationStats o vst).view =
        { (List.range vst.view.numPartitions).foldl (fun x p => x.count (replication p))
            vst.view with
          averageReplication :=
            if vst.view.numPartitions = 0 then 0
            else Float32.ofNat
                (0 + ((List.range vst.view.numPartitions).map fun p : ℕ => replication p).sum) /
              Float32.ofNat vst.view.numPartitions } := by
    rintro o vst replication rfl
    obtain ⟨htotal, hview⟩ := foldl_countPartition _ (List.range vst.view.numPartitions) (0, vst)
    rw [← htotal, ← hview]
    rfl
  rw [hcalculate o vst _ (replication_eq o h o'), hcalculate o' vst' _ rfl, h]

/-- Counting leaves the nodes as they are. -/
theorem nodes_calculateReplicationStats (vst : VersionStatus) :
    (calculateReplicationStats o vst).view.nodes = vst.view.nodes := by
  have hcount : ∀ (x : VersionView) (r : ℕ), (x.count r).nodes = x.nodes := by
    intro x r
    simp only [VersionView.count, apply_ite VersionView.nodes, ite_self]
  have hfold : ∀ (replication : ℤ → ℕ) (l : List ℕ) (x : VersionView),
      (l.foldl (fun x p => x.count (replication p)) x).nodes = x.nodes := by
    intro replication l
    induction l with
    | nil => exact fun x => rfl
    | cons p l ih => exact fun x => (ih _).trans (hcount _ _)
  have hview := fun replication =>
    (foldl_countPartition replication (List.range vst.numPartitions) (0, vst)).2
  exact (congrArg VersionView.nodes (hview _)).trans (hfold _ _ _)

theorem lookup_calculateDBStats (s : DBStatus) (name : Bytes) :
    (calculateDBStats o s).lookup name = (s.lookup name).map (calculateReplicationStats o) := by
  rw [calculateDBStats, AList.lookup_range o.versions (fun _ x _ => calculateReplicationStats o x)]
  cases s.lookup name <;> rfl

theorem view_calculateDBStats {s s' : DBStatus} (h : DBStatus.view s = DBStatus.view s')
    (o' : StatusOrders) :
    DBStatus.view (calculateDBStats o s) = DBStatus.view (calculateDBStats o' s') := by
  funext name
  have hname := congrFun h name
  rw [DBStatus.view, DBStatus.view] at hname ⊢
  rw [lookup_calculateDBStats, lookup_calculateDBStats]
  cases hs : s.lookup name with
  | none =>
    rw [hs] at hname
    rw [Option.map_eq_none_iff.mp hname.symm]
    rfl
  | some vst =>
    rw [hs] at hname
    obtain ⟨vst', hs', hview⟩ := Option.map_eq_some_iff.mp hname.symm
    rw [hs']
    exact congrArg some (view_calculateReplicationStats o hview.symm o')

/-! ## Reports -/

theorem ServedDB.listed_eq_some {db : ServedDB} {hostname : Address} {displayPath : Bytes → Bytes}
    {name : Bytes} {vst : VersionStatus}
    (h : (db.listed hostname displayPath).lookup name = some vst) :
    ∃ v ∈ db.versions, v.1.name = name ∧ vst = v.1.status v.2 hostname (displayPath name) := by
  have hfold : ∀ (l : List (Version × Option ℕ)) (start : DBStatus),
      (l.foldl (fun status v =>
        status.insert v.1.name (v.1.status v.2 hostname (displayPath v.1.name)))
        start).lookup name = some vst →
      start.lookup name = some vst ∨
        ∃ v ∈ l, v.1.name = name ∧ vst = v.1.status v.2 hostname (displayPath name) := by
    intro l
    induction l with
    | nil => exact fun start h => .inl h
    | cons v l ih =>
      intro start h
      obtain h | ⟨w, hw, hwname, hwst⟩ := ih _ h
      · obtain ⟨rfl, rfl⟩ | ⟨-, h⟩ := AList.lookup_insert_eq_some h
        · exact .inr ⟨v, List.mem_cons_self .., rfl, rfl⟩
        · exact .inl h
      · exact .inr ⟨w, List.mem_cons_of_mem _ hw, hwname, hwst⟩
  obtain h | h := hfold _ _ h
  · cases h
  · exact h

/-- A report has what is listed, with the current version marked. -/
theorem ServedDB.lookup_status (db : ServedDB) (hostname : Address) (displayPath : Bytes → Bytes)
    (name : Bytes) :
    (db.status o hostname displayPath).lookup name =
      ((db.listed hostname displayPath).lookup name).map
        (markCurrent db.current hostname name) := by
  rw [ServedDB.status,
    AList.lookup_range o.versions (fun name x _ => markCurrent db.current hostname name x)]
  cases (db.listed hostname displayPath).lookup name <;> rfl

/-- What a db reports, in whatever order it is put together. -/
def ServedDB.report (db : ServedDB) (hostname : Address) (displayPath : Bytes → Bytes) : DBView :=
  fun name => ((db.listed hostname displayPath).lookup name).map fun vst =>
    (markCurrent db.current hostname name vst).view

/-- Reporting does not depend on the order of the map. -/
theorem ServedDB.view_status (db : ServedDB) (hostname : Address) (displayPath : Bytes → Bytes) :
    DBStatus.view (db.status o hostname displayPath) = db.report hostname displayPath := by
  funext name
  rw [DBStatus.view, ServedDB.lookup_status, Option.map_map]
  rfl

/-- All but the nodes. -/
def VersionView.header (x : VersionView) : VersionView := { x with nodes := fun _ => none }

/-- **What a node reports about a version**: nothing but itself, and nothing counted. -/
theorem ServedDB.report_eq_some {db : ServedDB} {hostname : Address} {displayPath : Bytes → Bytes}
    {name : Bytes} {x : VersionView} (h : db.report hostname displayPath name = some x) :
    ∃ v ∈ db.versions, v.1.name = name ∧
      x.header = ⟨displayPath name, v.1.numPartitions, 0, 0, 0, 0, 0, fun _ => none⟩ ∧
      ∀ host, (x.nodes host).isSome ↔ host = hostname := by
  obtain ⟨vst, hvst, rfl⟩ := Option.map_eq_some_iff.mp h
  obtain ⟨v, hv, hname, rfl⟩ := ServedDB.listed_eq_some hvst
  refine ⟨v, hv, hname, rfl, fun host => ?_⟩
  change (((AList.singleton hostname _).insert hostname _).lookup host).isSome ↔ _
  by_cases hhost : host = hostname
  · subst hhost
    rw [AList.lookup_insert]
    simp
  · rw [AList.lookup_insert_ne hhost, AList.lookup_isSome, AList.mem_keys, AList.keys_singleton,
      List.mem_singleton]

/-! ## What a status is made of

`Collects R s` says what is in `s` without saying how it got there: for every version and node,
what some report of `R` has. Two statuses that collect the same reports are the same, so of
merging it is enough to show that it collects. -/

/-- The status has what is in the reports, and nothing else. -/
structure Collects (R : Set DBView) (s : DBView) : Prop where
  /-- the versions -/
  versions : ∀ v, (s v).isSome ↔ ∃ r ∈ R, (r v).isSome
  /-- what is said about a version -/
  header : ∀ v x, s v = some x → ∀ r ∈ R, ∀ y, r v = some y → x.header = y.header
  /-- the nodes of a version -/
  nodes : ∀ v x, s v = some x → ∀ host st,
    x.nodes host = some st ↔ ∃ r ∈ R, ∃ y, r v = some y ∧ y.nodes host = some st

/-- Reports that do not contradict each other, of nodes that have not counted anything. -/
structure Compatible (R : Set DBView) : Prop where
  /-- they agree on a version -/
  header : ∀ r ∈ R, ∀ r' ∈ R, ∀ v y y', r v = some y → r' v = some y' → y.header = y'.header
  /-- they agree on a node -/
  nodes : ∀ r ∈ R, ∀ r' ∈ R, ∀ v y y', r v = some y → r' v = some y' → ∀ host st st',
    y.nodes host = some st → y'.nodes host = some st' → st = st'
  /-- nothing is counted -/
  fresh : ∀ r ∈ R, ∀ v y, r v = some y → y.header = y.fresh

theorem collects_singleton (r : DBView) : Collects {r} r where
  versions := fun v => by simp
  header := fun v x hx r' hr' y hy => by
    obtain rfl := Set.mem_singleton_iff.mp hr'
    rw [hx] at hy
    rw [Option.some.inj hy]
  nodes := fun v x hx host st => by
    constructor
    · exact fun h => ⟨r, rfl, x, hx, h⟩
    · rintro ⟨r', rfl, y, hy, h⟩
      rw [hx] at hy
      rw [Option.some.inj hy]
      exact h

/-- **It does not matter how the reports were put together.** -/
theorem Collects.unique {R : Set DBView} {s s' : DBView} (h : Collects R s) (h' : Collects R s') :
    s = s' := by
  funext v
  have hiff : (s v).isSome ↔ (s' v).isSome := (h.versions v).trans (h'.versions v).symm
  cases hs : s v with
  | none =>
    rw [hs] at hiff
    cases hs' : s' v with
    | none => rfl
    | some x' => exact absurd (hiff.mpr (by rw [hs']; rfl)) (by simp)
  | some x =>
    obtain ⟨x', hs'⟩ := Option.isSome_iff_exists.mp (hiff.mp (by rw [hs]; rfl))
    rw [hs', Option.some.injEq]
    obtain ⟨r, hr, hrv⟩ := (h.versions v).mp (by rw [hs]; rfl)
    obtain ⟨y, hy⟩ := Option.isSome_iff_exists.mp hrv
    have hheader : x.header = x'.header :=
      (h.header v x hs r hr y hy).trans (h'.header v x' hs' r hr y hy).symm
    have hnodes : x.nodes = x'.nodes := by
      funext host
      ext st
      exact (h.nodes v x hs host st).trans (h'.nodes v x' hs' host st).symm
    calc x = { x.header with nodes := x.nodes } := rfl
      _ = { x'.header with nodes := x'.nodes } := by rw [hheader, hnodes]
      _ = x' := rfl

/-- What a status says of a version, some report says. -/
theorem Collects.exists_report {R : Set DBView} {s : DBView} (h : Collects R s) {v : Bytes}
    {x : VersionView} (hs : s v = some x) : ∃ r ∈ R, ∃ y, r v = some y ∧ x.header = y.header := by
  obtain ⟨r, hr, hrv⟩ := (h.versions v).mp (by rw [hs]; rfl)
  obtain ⟨y, hy⟩ := Option.isSome_iff_exists.mp hrv
  exact ⟨r, hr, y, hy, h.header v x hs r hr y hy⟩

theorem Collects.isSome_of_report {R : Set DBView} {s r : DBView} (h : Collects R s) (hr : r ∈ R)
    {v : Bytes} {y : VersionView} (hy : r v = some y) : ∃ x, s v = some x :=
  Option.isSome_iff_exists.mp ((h.versions v).mpr ⟨r, hr, by rw [hy]; rfl⟩)

/-- A version of a merged status is that of one side, or of both. -/
theorem DBView.merge_eq_some {l r : DBView} {v : Bytes} {x : VersionView}
    (h : DBView.merge l r v = some x) :
    (r v = none ∧ l v = some x) ∨ ∃ xr, r v = some xr ∧ x = VersionView.merge (l v) xr := by
  rw [DBView.merge] at h
  cases hr : r v with
  | none =>
    rw [hr] at h
    exact .inl ⟨rfl, h⟩
  | some xr =>
    rw [hr] at h
    exact .inr ⟨xr, rfl, (Option.some.inj h).symm⟩

/-- The header of a merged status is that of some report. -/
theorem Collects.header_merge {R R' : Set DBView} {l r : DBView} (hl : Collects R l)
    (hr : Collects R' r) (hfresh : Compatible R') {v : Bytes} {x : VersionView}
    (h : DBView.merge l r v = some x) :
    ∃ r₀ ∈ R ∪ R', ∃ y, r₀ v = some y ∧ x.header = y.header := by
  obtain ⟨-, hlv⟩ | ⟨xr, hrv, rfl⟩ := DBView.merge_eq_some h
  · obtain ⟨r₀, hr₀, y, hy, hheader⟩ := hl.exists_report hlv
    exact ⟨r₀, .inl hr₀, y, hy, hheader⟩
  · cases hlv : l v with
    | some xl =>
      obtain ⟨r₀, hr₀, y, hy, hheader⟩ := hl.exists_report hlv
      exact ⟨r₀, .inl hr₀, y, hy, hheader⟩
    | none =>
      -- a fresh status has the header of a report, which has not counted anything
      obtain ⟨r₀, hr₀, y, hy, hheader⟩ := hr.exists_report hrv
      refine ⟨r₀, .inr hr₀, y, hy, ?_⟩
      calc (VersionView.merge none xr).header = xr.header.fresh := rfl
        _ = y.header.fresh := by rw [hheader]
        _ = y.fresh := rfl
        _ = y.header := (hfresh.fresh r₀ hr₀ v y hy).symm

theorem Compatible.mono {R R' : Set DBView} (h : Compatible R') (hR : R ⊆ R') : Compatible R where
  header := fun r hr r' hr' => h.header r (hR hr) r' (hR hr')
  nodes := fun r hr r' hr' => h.nodes r (hR hr) r' (hR hr')
  fresh := fun r hr => h.fresh r (hR hr)

/-- **Merging puts reports together.** -/
theorem Collects.merge {R R' : Set DBView} {l r : DBView} (hl : Collects R l) (hr : Collects R' r)
    (hcompat : Compatible (R ∪ R')) : Collects (R ∪ R') (DBView.merge l r) where
  versions := fun v => by
    have hmerge : (DBView.merge l r v).isSome ↔ (l v).isSome ∨ (r v).isSome := by
      rw [DBView.merge]
      cases r v <;> simp
    rw [hmerge, hl.versions, hr.versions]
    simp only [Set.mem_union, or_and_right, exists_or]
  header := fun v x hx r' hr' y hy => by
    obtain ⟨r₀, hr₀, y₀, hy₀, hheader⟩ :=
      hl.header_merge hr (hcompat.mono Set.subset_union_right) hx
    rw [hheader]
    exact hcompat.header r₀ hr₀ r' hr' v y₀ y hy₀ hy
  nodes := fun v x hx host st => by
    obtain ⟨hrv, hlv⟩ | ⟨xr, hrv, rfl⟩ := DBView.merge_eq_some hx
    · rw [hl.nodes v x hlv]
      constructor
      · rintro ⟨r', hr', h⟩
        exact ⟨r', .inl hr', h⟩
      · rintro ⟨r', hr' | hr', y, hy, h⟩
        · exact ⟨r', hr', y, hy, h⟩
        · obtain ⟨x', hx'⟩ := hr.isSome_of_report hr' hy
          rw [hrv] at hx'
          cases hx'
    · change (xr.nodes host).or (((l v).getD xr.fresh).nodes host) = some st ↔ _
      constructor
      · intro h
        obtain h | ⟨-, h⟩ := Option.or_eq_some_iff.mp h
        · obtain ⟨r', hr', h⟩ := (hr.nodes v xr hrv host st).mp h
          exact ⟨r', .inr hr', h⟩
        · cases hlv : l v with
          | none =>
            rw [hlv] at h
            cases h
          | some xl =>
            rw [hlv] at h
            obtain ⟨r', hr', h⟩ := (hl.nodes v xl hlv host st).mp h
            exact ⟨r', .inl hr', h⟩
      · rintro ⟨r', hr' | hr', y, hy, h⟩
        · obtain ⟨xl, hlv⟩ := hl.isSome_of_report hr' hy
          have hleft : xl.nodes host = some st :=
            (hl.nodes v xl hlv host st).mpr ⟨r', hr', y, hy, h⟩
          rw [hlv, Option.getD_some, hleft]
          cases hright : xr.nodes host with
          | none => rfl
          | some st' =>
            -- both have an entry for the node, and it is the same
            obtain ⟨r'', hr'', y', hy', h'⟩ := (hr.nodes v xr hrv host st').mp hright
            rw [hcompat.nodes r' (.inl hr') r'' (.inr hr'') v y y' hy hy' host st st' h h']
            rfl
        · rw [(hr.nodes v xr hrv host st).mpr ⟨r', hr', y, hy, h⟩]
          rfl

/-- A copy says what the original says, if that has not counted anything. -/
theorem view_copyDBStatus {s : DBStatus}
    (h : ∀ v y, DBStatus.view s v = some y → y.header = y.fresh) :
    DBStatus.view (copyDBStatus o s) = DBStatus.view s := by
  rw [copyDBStatus, view_mergeDBStatus]
  funext v
  rw [DBView.merge]
  cases hv : DBStatus.view s v with
  | none => rfl
  | some y =>
    have hor : ∀ host, (y.nodes host).or none = y.nodes host := fun host => Option.or_none
    change some (VersionView.merge none y) = some y
    rw [Option.some.injEq]
    calc VersionView.merge none y
      _ = { y.fresh with nodes := fun host => (y.nodes host).or none } := rfl
      _ = { y.header with nodes := y.nodes } := by rw [h v y hv, funext hor]
      _ = y := rfl

end Sequins
