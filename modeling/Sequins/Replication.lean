import Sequins.StatusPage

/-!
# How often a partition is there

What the counters on a status page say. `calculateReplicationStats` sorts the partitions of a
version by how many nodes list them, against the target that stands in the status it is given
(`classified_calculateReplicationStats`). Through reporting, merging and serving, a page comes to
count the nodes of the cluster that list a partition (`Serves.classified`), and the target comes
to be 0: `version.status` does not fill it in. So nothing is ever underreplicated, and whatever is
there at all is overreplicated.
-/

namespace AList

variable {α γ ι : Type*} [DecidableEq α]

/-- A map that has what the members of a list have to say, each under a key of its own. -/
theorem entries_perm_filterMap {s : AList fun _ : α => γ} {l : List ι} {k : ι → α}
    {f : ι → Option γ} (hl : (l.map k).Nodup)
    (h : ∀ a b, s.lookup a = some b ↔ ∃ m ∈ l, k m = a ∧ f m = some b) :
    s.entries.Perm (l.filterMap fun m => (f m).map (Sigma.mk (k m))) := by
  have hnodup : (l.filterMap fun m => (f m).map (Sigma.mk (β := fun _ => γ) (k m))).Nodup := by
    rw [List.Nodup, List.pairwise_filterMap]
    refine (List.pairwise_map.mp hl).imp fun hne e he e' he' heq => hne ?_
    obtain ⟨b, -, rfl⟩ := Option.map_eq_some_iff.mp he
    obtain ⟨b', -, rfl⟩ := Option.map_eq_some_iff.mp he'
    exact congrArg Sigma.fst heq
  rw [List.perm_ext_iff_of_nodup s.nodupKeys.nodup hnodup]
  rintro ⟨a, b⟩
  rw [mem_entries_iff_lookup, h, List.mem_filterMap]
  constructor
  · rintro ⟨m, hm, rfl, hb⟩
    exact ⟨m, hm, by rw [hb]; rfl⟩
  · rintro ⟨m, hm, he⟩
    obtain ⟨b', hb', he⟩ := Option.map_eq_some_iff.mp he
    cases he
    exact ⟨m, hm, rfl, hb'⟩

/-- What its values add up to. -/
theorem sum_entries {s : AList fun _ : α => γ} {l : List ι} {k : ι → α} {f : ι → Option γ}
    (hl : (l.map k).Nodup)
    (h : ∀ a b, s.lookup a = some b ↔ ∃ m ∈ l, k m = a ∧ f m = some b) (g : γ → ℕ) :
    (s.entries.map fun e => g e.2).sum = (l.map fun m => (f m).elim 0 g).sum := by
  rw [((entries_perm_filterMap hl h).map _).sum_nat]
  clear hl h
  induction l with
  | nil => rfl
  | cons m l ih =>
    rw [List.filterMap_cons, List.map_cons, List.sum_cons, ← ih]
    cases f m with
    | none => exact (Nat.zero_add _).symm
    | some b => rfl

end AList

namespace Sequins

/-! ## Counting -/

/-- What a node adds to the count of a partition. -/
def NodeVersionStatus.adds (node : NodeVersionStatus) (p : ℤ) : ℕ :=
  if node.state = .available ∨ node.state = .removing then node.partitions.count p else 0

/-- The loop over the nodes of a version adds up what they list. -/
theorem foldl_countNode (l : List (Σ _ : Address, NodeVersionStatus)) (r : ℤ → ℕ) (p : ℤ) :
    l.foldl (fun r e => countNode r e.2) r p = r p + (l.map fun e => e.2.adds p).sum := by
  induction l generalizing r with
  | nil => rfl
  | cons e l ih =>
    rw [List.foldl_cons, ih, countNode_apply, List.map_cons, List.sum_cons, Nat.add_assoc]
    rfl

/-- A version's status whose counters say how many partitions are listed never, not often enough
and too often, for a target. -/
structure Classified (target : ℕ) (replication : ℕ → ℕ) (x : VersionView) : Prop where
  /-- `MissingPartitions` -/
  missing : x.missingPartitions =
    (List.range x.numPartitions).countP fun p => replication p = 0
  /-- `UnderreplicatedPartitions` -/
  underreplicated : x.underreplicatedPartitions =
    (List.range x.numPartitions).countP fun p => 1 ≤ replication p ∧ replication p < target
  /-- `OverreplicatedPartitions` -/
  overreplicated : x.overreplicatedPartitions =
    (List.range x.numPartitions).countP fun p => target < replication p

/-! What one partition does to the counters. -/

theorem VersionView.missingPartitions_count (x : VersionView) (r : ℕ) :
    (x.count r).missingPartitions = x.missingPartitions + if r = 0 then 1 else 0 := by
  rw [VersionView.count]
  split_ifs <;> rfl

theorem VersionView.underreplicatedPartitions_count (x : VersionView) (r : ℕ) :
    (x.count r).underreplicatedPartitions =
      x.underreplicatedPartitions + if 1 ≤ r ∧ r < x.targetReplication then 1 else 0 := by
  rw [VersionView.count]
  split_ifs <;> first | rfl | omega

theorem VersionView.overreplicatedPartitions_count (x : VersionView) (r : ℕ) :
    (x.count r).overreplicatedPartitions =
      x.overreplicatedPartitions + if x.targetReplication < r then 1 else 0 := by
  rw [VersionView.count]
  split_ifs <;> first | rfl | omega

theorem VersionView.header_count (x : VersionView) (r : ℕ) :
    (x.count r).numPartitions = x.numPartitions ∧
      (x.count r).targetReplication = x.targetReplication := by
  rw [VersionView.count]
  split_ifs <;> exact ⟨rfl, rfl⟩

/-- What the loop over the partitions does to the counters. -/
theorem foldl_count (replication : ℕ → ℕ) (l : List ℕ) (x : VersionView) :
    let y := l.foldl (fun x p => x.count (replication p)) x
    y.numPartitions = x.numPartitions ∧
      y.missingPartitions = x.missingPartitions + l.countP (fun p => replication p = 0) ∧
      y.underreplicatedPartitions = x.underreplicatedPartitions +
        l.countP (fun p => 1 ≤ replication p ∧ replication p < x.targetReplication) ∧
      y.overreplicatedPartitions = x.overreplicatedPartitions +
        l.countP fun p => x.targetReplication < replication p := by
  induction l generalizing x with
  | nil => exact ⟨rfl, rfl, rfl, rfl⟩
  | cons p l ih =>
    obtain ⟨hnum, hmissing, hunder, hover⟩ := ih (x.count (replication p))
    obtain ⟨hnum', htarget'⟩ := x.header_count (replication p)
    rw [htarget'] at hunder hover
    rw [VersionView.missingPartitions_count] at hmissing
    rw [VersionView.underreplicatedPartitions_count] at hunder
    rw [VersionView.overreplicatedPartitions_count] at hover
    simp only [List.foldl_cons, List.countP_cons, decide_eq_true_eq]
    refine ⟨hnum.trans hnum', ?_, ?_, ?_⟩
    · omega
    · omega
    · omega

theorem numPartitions_calculateReplicationStats (o : StatusOrders) (vst : VersionStatus) :
    (calculateReplicationStats o vst).view.numPartitions = vst.numPartitions := by
  have hview := (foldl_countPartition
    ((o.nodes.arrange vst.nodes.entries).foldl (fun r e => countNode r e.2) fun _ => 0)
    (List.range vst.numPartitions) (0, vst)).2
  exact (congrArg VersionView.numPartitions hview).trans (foldl_count _ _ vst.view).1

/-- **Partitions are sorted by the target in the status**, and by how many of its nodes list
them. -/
theorem classified_calculateReplicationStats (o : StatusOrders) {vst : VersionStatus}
    (hunder : vst.underreplicatedPartitions = 0) (hover : vst.overreplicatedPartitions = 0)
    (hmissing : vst.missingPartitions = 0) :
    Classified vst.targetReplication
      (fun p => (vst.nodes.entries.map fun e => e.2.adds p).sum)
      (calculateReplicationStats o vst).view := by
  have hreplication : ∀ p : ℤ,
      (o.nodes.arrange vst.nodes.entries).foldl (fun r e => countNode r e.2) (fun _ => 0) p =
        (vst.nodes.entries.map fun e => e.2.adds p).sum := by
    intro p
    rw [foldl_countNode, Nat.zero_add]
    exact ((o.nodes.perm _).map _).sum_nat
  have hview := (foldl_countPartition
    ((o.nodes.arrange vst.nodes.entries).foldl (fun r e => countNode r e.2) fun _ => 0)
    (List.range vst.numPartitions) (0, vst)).2
  simp only [hreplication] at hview
  have hnum := numPartitions_calculateReplicationStats o vst
  obtain ⟨-, hcount⟩ := foldl_count
    (fun p => (vst.nodes.entries.map fun e => e.2.adds p).sum) (List.range vst.numPartitions)
    vst.view
  rw [← hview] at hcount
  obtain ⟨hmissing', hunder', hover'⟩ := hcount
  change (calculateReplicationStats o vst).view.missingPartitions = vst.missingPartitions + _
    at hmissing'
  change (calculateReplicationStats o vst).view.underreplicatedPartitions =
    vst.underreplicatedPartitions + _ at hunder'
  change (calculateReplicationStats o vst).view.overreplicatedPartitions =
    vst.overreplicatedPartitions + _ at hover'
  constructor
  · rw [hmissing', hmissing, Nat.zero_add, hnum]
  · rw [hunder', hunder, Nat.zero_add, hnum]
    rfl
  · rw [hover', hover, Nat.zero_add, hnum]
    rfl

/-! ## Who lists a partition -/

/-- A version says that it has a partition. -/
def Version.lists (v : Version) (p : ℕ) : Bool :=
  (v.state == .available || v.state == .removing) && decide ((p : ℤ) ∈ v.partitions.selected)

/-- A version in the multiplexer of a db. -/
def ServedDB.version (db : ServedDB) (v : Bytes) : Option Version :=
  (db.versions.find? fun w => w.1.name = v).map Prod.fst

theorem ServedDB.version_eq_some_iff {db : ServedDB} {v : Bytes} {w : Version} :
    db.version v = some w ↔ ∃ u ∈ db.versions, u.1 = w ∧ w.name = v := by
  constructor
  · intro h
    obtain ⟨u, hu, rfl⟩ := Option.map_eq_some_iff.mp h
    have hname := List.find?_some hu
    rw [decide_eq_true_eq] at hname
    exact ⟨u, List.mem_of_find?_eq_some hu, rfl, hname⟩
  · rintro ⟨u, hu, rfl, hname⟩
    have hsome : (db.versions.find? fun w => w.1.name = v).isSome := by
      rw [List.find?_isSome]
      exact ⟨u, hu, decide_eq_true hname⟩
    obtain ⟨u', hu'⟩ := Option.isSome_iff_exists.mp hsome
    have hname' := List.find?_some hu'
    rw [decide_eq_true_eq] at hname'
    obtain rfl := List.inj_on_of_nodup_map db.nodup (List.mem_of_find?_eq_some hu') hu
      (hname'.trans hname.symm)
    rw [ServedDB.version, hu']
    rfl

/-- A version in the multiplexer of a db of a node. -/
def StatusNode.version (n : StatusNode) (name v : Bytes) : Option Version :=
  (n.dbs.lookup name).bind fun db => db.version v

/-- How many nodes of a cluster list a partition. -/
def StatusCluster.holders (c : StatusCluster) (name v : Bytes) (p : ℕ) : ℕ :=
  c.nodes.countP fun n => (n.version name v).any fun w => w.lists p

/-- What a node says about itself. -/
def StatusNode.entry (n : StatusNode) (name v : Bytes) : Option NodeVersionStatus :=
  ((n.report name).bind (· v)).bind fun y => y.nodes n.hostname

theorem ServedDB.lookup_listed (db : ServedDB) (hostname : Address) (displayPath : Bytes → Bytes)
    (name : Bytes) :
    (db.listed hostname displayPath).lookup name =
      (db.versions.find? fun w => w.1.name = name).map fun w =>
        w.1.status w.2 hostname (displayPath name) := by
  have hfold : ∀ (l : List (Version × Option ℕ)), (l.map fun w => w.1.name).Nodup →
      ∀ start : DBStatus, (l.foldl (fun status v =>
        status.insert v.1.name (v.1.status v.2 hostname (displayPath v.1.name)))
        start).lookup name =
      ((l.find? fun w => w.1.name = name).map fun w =>
        w.1.status w.2 hostname (displayPath name)).or (start.lookup name) := by
    intro l
    induction l with
    | nil => exact fun _ _ => rfl
    | cons w l ih =>
      intro hnodup start
      obtain ⟨hnot, hnodup⟩ := List.nodup_cons.mp hnodup
      rw [List.foldl_cons, ih hnodup, List.find?_cons]
      by_cases hname : w.1.name = name
      · -- no later version has the name
        subst hname
        have hnone : (l.find? fun w' => w'.1.name = w.1.name) = none := by
          rw [List.find?_eq_none]
          intro w' hw' heq
          exact hnot (List.mem_map.mpr ⟨w', hw', of_decide_eq_true heq⟩)
        rw [hnone, AList.lookup_insert]
        simp
      · rw [AList.lookup_insert_ne (Ne.symm hname)]
        simp [hname]
  rw [ServedDB.listed, hfold _ db.nodup]
  exact Option.or_none

/-- **What a node says about itself** is what its version is like. -/
theorem StatusNode.entry_eq (n : StatusNode) (name v : Bytes) :
    (n.version name v = none ∧ n.entry name v = none) ∨
      ∃ w st, n.version name v = some w ∧ n.entry name v = some st ∧ st.state = w.state ∧
        st.partitions.Nodup ∧ ∀ p, p ∈ st.partitions ↔ p ∈ w.partitions.selected := by
  rw [version, entry, report]
  cases n.dbs.lookup name with
  | none => exact .inl ⟨rfl, rfl⟩
  | some db =>
    simp only [Option.map_some, Option.bind_some, ServedDB.report, ServedDB.lookup_listed,
      ServedDB.version]
    cases db.versions.find? fun w => w.1.name = v with
    | none => exact .inl ⟨rfl, rfl⟩
    | some w =>
      refine .inr ⟨w.1, ⟨w.1.created, w.2, db.current == some v, w.1.state,
        w.1.partitions.selected.sort (· ≤ ·)⟩, rfl, ?_, rfl, Finset.sort_nodup _ _,
        fun p => Finset.mem_sort _⟩
      have hself : (w.1.status w.2 n.hostname (n.displayPath name v)).nodes.lookup n.hostname =
          some ⟨w.1.created, w.2, false, w.1.state, w.1.partitions.selected.sort (· ≤ ·)⟩ :=
        AList.mem_entries_iff_lookup.mp (List.mem_singleton_self _)
      simp only [Option.map_some, Option.bind_some, markCurrent, VersionStatus.view, hself,
        Option.getD_some, AList.lookup_insert]

/-- A node counts once for what it lists. -/
theorem StatusNode.adds_entry (n : StatusNode) (name v : Bytes) (p : ℕ) :
    ((n.entry name v).elim 0 fun st => st.adds p) =
      if (n.version name v).any (fun w => w.lists p) then 1 else 0 := by
  obtain ⟨hversion, hentry⟩ | ⟨w, st, hversion, hentry, hstate, hnodup, hmem⟩ := n.entry_eq name v
  · rw [hversion, hentry]
    rfl
  · have hcount : st.partitions.count (p : ℤ) =
        if (p : ℤ) ∈ w.partitions.selected then 1 else 0 := by
      rw [hnodup.count]
      simp only [hmem]
    rw [hversion, hentry]
    simp only [Option.elim_some, NodeVersionStatus.adds, hstate, hcount, Option.any_some,
      Version.lists, Bool.and_eq_true, Bool.or_eq_true, beq_iff_eq, decide_eq_true_eq, ite_and]

theorem sum_eq_countP {α : Type*} (l : List α) (q : α → Bool) :
    (l.map fun a => if q a then 1 else 0).sum = l.countP q := by
  induction l with
  | nil => rfl
  | cons a l ih =>
    rw [List.map_cons, List.sum_cons, ih, List.countP_cons, Nat.add_comm]

namespace StatusCluster

variable (c : StatusCluster)

/-- A node of the cluster has what it says about itself under its address. -/
theorem mem_reports_iff {name v : Bytes} {host : Address} {st : NodeVersionStatus} :
    (∃ r ∈ reports {m | m ∈ c.nodes} name, ∃ y, r v = some y ∧ y.nodes host = some st) ↔
      ∃ m ∈ c.nodes, m.address = host ∧ m.entry name v = some st := by
  constructor
  · rintro ⟨r, ⟨m, hm, hr⟩, y, hy, hst⟩
    have hhost : host = m.hostname := by
      obtain ⟨db, -, rfl⟩ := Option.map_eq_some_iff.mp hr
      obtain ⟨-, -, -, -, honly⟩ := ServedDB.report_eq_some hy
      exact (honly host).mp (by rw [hst]; rfl)
    subst hhost
    refine ⟨m, hm, (c.hostname_eq hm).symm, ?_⟩
    rw [StatusNode.entry, hr, Option.bind_some, hy]
    exact hst
  · rintro ⟨m, hm, rfl, hentry⟩
    obtain ⟨y, hy, hst⟩ := Option.bind_eq_some_iff.mp hentry
    obtain ⟨r, hr, hy⟩ := Option.bind_eq_some_iff.mp hy
    rw [c.hostname_eq hm] at hst
    exact ⟨r, ⟨m, hm, hr⟩, y, hy, hst⟩

/-- **What is counted, when the reports of all nodes are there.** The target is 0. -/
theorem classified_of_collects {name v : Bytes} {s : DBStatus} {x : VersionView}
    (h : Collects (reports {m | m ∈ c.nodes} name) (DBStatus.view s)) (o : StatusOrders)
    (hx : DBStatus.view (calculateDBStats o s) v = some x) :
    Classified 0 (c.holders name v) x := by
  rw [DBStatus.view, lookup_calculateDBStats, Option.map_map] at hx
  obtain ⟨vst, hvst, rfl⟩ := Option.map_eq_some_iff.mp hx
  have hview : DBStatus.view s v = some vst.view := by
    rw [DBStatus.view, hvst]
    rfl
  -- nothing is counted yet, and there is no target
  obtain ⟨r, ⟨m, -, hr⟩, y, hy, hheader⟩ := h.exists_report hview
  obtain ⟨db, -, rfl⟩ := Option.map_eq_some_iff.mp hr
  obtain ⟨w, -, -, hfresh, -⟩ := ServedDB.report_eq_some hy
  rw [hfresh] at hheader
  have hclassified := classified_calculateReplicationStats o
    (congrArg VersionView.underreplicatedPartitions hheader)
    (congrArg VersionView.overreplicatedPartitions hheader)
    (congrArg VersionView.missingPartitions hheader)
  have htarget : vst.targetReplication = 0 := congrArg VersionView.targetReplication hheader
  have hholders : ∀ p : ℕ, (vst.nodes.entries.map fun e => e.2.adds p).sum =
      c.holders name v p := by
    intro p
    calc (vst.nodes.entries.map fun e => e.2.adds p).sum
      _ = (c.nodes.map fun m => (m.entry name v).elim 0 fun st => st.adds p).sum :=
        AList.sum_entries c.distinct
          (fun host st => (h.nodes v vst.view hview host st).trans c.mem_reports_iff)
          fun st => st.adds p
      _ = (c.nodes.map fun m => if (m.version name v).any (fun w => w.lists p) then 1 else 0).sum :=
        congrArg List.sum (List.map_congr_left fun m _ => m.adds_entry name v p)
      _ = c.holders name v p := sum_eq_countP _ _
  rw [htarget, funext hholders] at hclassified
  exact hclassified

/-- What a page that a node of the cluster serves says about a version: the page of everything,
or that of the db, if the db can be asked for. -/
inductive Serves (name v : Bytes) (x : VersionView) : Prop
  | all {n : StatusNode} {o : StatusOrders} {depth : ℕ} {status : Status} :
    n ∈ c.nodes → n.serveStatus o (answer o c.nodes (depth + 1)) false = some status →
    (Status.view status name).bind (· v) = some x → Serves name v x
  | one {n : StatusNode} {o : StatusOrders} {depth : ℕ} {db : ServedDB} {s : DBStatus} :
    n ∈ c.nodes → name ≠ [] → 47 ∉ name → (∀ b ∈ name, b ∉ [35, 37, 63]) →
    n.dbs.lookup name = some db →
    n.serveDBStatus o (answer o c.nodes (depth + 1)) name db false = some s →
    DBStatus.view s v = some x → Serves name v x

variable {c} in
/-- **The counters of every page are those of the whole cluster, for a target of 0.** -/
theorem Serves.classified {name v : Bytes} {x : VersionView} (h : c.Serves name v x) :
    Classified 0 (c.holders name v) x := by
  cases h with
  | @all n o depth status hn hstatus hx =>
    obtain ⟨status', hserved, hgathers⟩ := c.serveStatus_spec hn o depth
    obtain rfl := Option.some.inj (hstatus.symm.trans hserved)
    rw [Status.view, lookup_calculateStats] at hx
    obtain ⟨hs, -⟩ | ⟨s, hs, -, hcollects⟩ := hgathers name
    · rw [hs] at hx
      cases hx
    · rw [hs] at hx
      exact c.classified_of_collects hcollects o hx
  | @one n o depth db s hn hne hslash hname hdb hs hx =>
    obtain ⟨s', hserved, hcollects⟩ := c.serveDBStatus_spec hn o depth hne hslash hname hdb
    obtain rfl := Option.some.inj (hs.symm.trans hserved)
    exact c.classified_of_collects hcollects o hx

/-- **Every page has every version**, with all its partitions. -/
theorem exists_serves {n m : StatusNode} (hn : n ∈ c.nodes) (hm : m ∈ c.nodes) {name v : Bytes}
    {w : Version} (hw : m.version name v = some w) (o : StatusOrders) :
    ∃ status x, n.serveStatus o (answer o c.nodes 1) false = some status ∧
      (Status.view status name).bind (· v) = some x ∧ x.numPartitions = w.numPartitions := by
  obtain ⟨status, hstatus, hgathers⟩ := c.serveStatus_spec hn o 0
  obtain ⟨hnone, -⟩ | ⟨w', st, hw', hst, -⟩ := m.entry_eq name v
  · rw [hnone] at hw
    cases hw
  obtain ⟨y, hy, -⟩ := Option.bind_eq_some_iff.mp hst
  obtain ⟨r, hr, hy⟩ := Option.bind_eq_some_iff.mp hy
  have hmem : r ∈ reports {m | m ∈ c.nodes} name := ⟨m, hm, hr⟩
  obtain ⟨-, hempty⟩ | ⟨s, hs, -, hcollects⟩ := hgathers name
  · rw [hempty] at hmem
    cases hmem
  obtain ⟨x, hx⟩ := hcollects.isSome_of_report hmem hy
  obtain ⟨vst, hvst, rfl⟩ := Option.map_eq_some_iff.mp hx
  refine ⟨_, (calculateReplicationStats o vst).view, hstatus, ?_, ?_⟩
  · rw [Status.view, lookup_calculateStats, hs]
    change DBStatus.view (calculateDBStats o s) v = _
    rw [DBStatus.view, lookup_calculateDBStats, hvst]
    rfl
  · obtain ⟨db, hdb, rfl⟩ := Option.map_eq_some_iff.mp hr
    obtain ⟨u, hu, hname, hheader, -⟩ := ServedDB.report_eq_some hy
    rw [StatusNode.version, hdb] at hw
    obtain ⟨u', hu', rfl, hname'⟩ := ServedDB.version_eq_some_iff.mp hw
    calc (calculateReplicationStats o vst).view.numPartitions
      _ = vst.numPartitions := numPartitions_calculateReplicationStats o vst
      _ = y.header.numPartitions :=
        congrArg VersionView.numPartitions (hcollects.header v _ hx _ hmem y hy)
      _ = u.1.numPartitions := congrArg VersionView.numPartitions hheader
      _ = u'.1.numPartitions := (c.agree m hm m hm name db db hdb hdb u hu u' hu'
        (hname.trans hname'.symm)).2

end StatusCluster

/-! ## The target

`version.status` leaves the target out, and merging keeps what is there, so on every page it is
0. A partition that some node lists is then above the target, and none is between 1 and it. -/

/-- Of two counts, one of which counts more, they are the same if nothing more is there. -/
theorem countP_eq_iff_of_imp {α : Type*} {q q' : α → Bool} (himp : ∀ a, q' a = true → q a = true)
    (l : List α) : l.countP q = l.countP q' ↔ ∀ a ∈ l, q a = true → q' a = true := by
  constructor
  · intro h a ha hq
    by_contra hq'
    -- what is counted only once makes a difference
    have hlt : l.countP q' < l.countP q := by
      obtain ⟨l₁, l₂, rfl⟩ := List.append_of_mem ha
      have h₁ := List.countP_mono_left (l := l₁) fun a _ => himp a
      have h₂ := List.countP_mono_left (l := l₂) fun a _ => himp a
      simp only [List.countP_append, List.countP_cons, hq, hq', if_true, if_false]
      omega
    omega
  · intro h
    exact List.countP_congr fun a ha => ⟨h a ha, himp a⟩

/-- Counters for a target of 0 are those for another one if nothing is listed, but not more often
than that. -/
theorem Classified.iff_of_zero {replication : ℕ → ℕ} {x : VersionView}
    (h : Classified 0 replication x) (target : ℕ) :
    Classified target replication x ↔
      ∀ p < x.numPartitions, replication p = 0 ∨ target < replication p := by
  have hmore : (List.range x.numPartitions).countP (fun p => 0 < replication p) =
      (List.range x.numPartitions).countP (fun p => target < replication p) ↔
        ∀ p < x.numPartitions, replication p = 0 ∨ target < replication p := by
    rw [countP_eq_iff_of_imp fun p hp => by simp only [decide_eq_true_eq] at hp ⊢; omega]
    simp only [List.mem_range, decide_eq_true_eq, Nat.pos_iff_ne_zero, imp_iff_not_or, not_not]
  rw [← hmore, ← h.overreplicated]
  constructor
  · exact fun h' => h'.overreplicated
  · intro hover
    refine ⟨h.missing, ?_, hover⟩
    have hall := hmore.mp (h.overreplicated.symm.trans hover)
    have hnone : ∀ t ≤ target, (List.range x.numPartitions).countP
        (fun p => 1 ≤ replication p ∧ replication p < t) = 0 := by
      intro t ht
      rw [List.countP_eq_zero]
      intro p hp
      have hp := hall p (List.mem_range.mp hp)
      rw [decide_eq_true_eq]
      omega
    rw [h.underreplicated, hnone 0 (Nat.zero_le _), hnone target le_rfl]

/-- A cluster with what `Sharding.Replication` is set to. -/
structure ReplicatedCluster extends StatusCluster where
  /-- the target -/
  replication : ℕ
  /-- at least one -/
  positive : 1 ≤ replication

/-- **Replication is held against a target of 0.** Whatever cluster, and whatever a page says about
a version: what it counts as missing is what no node lists. What it counts as under- and
overreplicated is right for the replication that the cluster is configured with exactly if no
partition is listed by at least one node, but not by more nodes than that. -/
theorem replication_classified_iff (c : ReplicatedCluster) (name v : Bytes) (x : VersionView)
    (h : c.Serves name v x) :
    x.missingPartitions =
        (List.range x.numPartitions).countP (fun p => c.holders name v p = 0) ∧
      (Classified c.replication (c.holders name v) x ↔ ∀ p < x.numPartitions,
        c.holders name v p = 0 ∨ c.replication < c.holders name v p) :=
  ⟨h.classified.missing, h.classified.iff_of_zero c.replication⟩

/-! ## Two nodes -/

/-- Nodes at the given addresses, that know each other. -/
def StatusCluster.ofDBs (addresses : List Address) (distinct : addresses.Nodup)
    (plain : ∀ a ∈ addresses, ∀ b ∈ a, GoURL.hostByte b = true)
    (displayPath : Bytes → Bytes → Bytes)
    (dbs : Address → AList fun _ : Bytes => ServedDB)
    (agree : ∀ a ∈ addresses, ∀ a' ∈ addresses, ∀ name db db', (dbs a).lookup name = some db →
      (dbs a').lookup name = some db' → ∀ v ∈ db.versions, ∀ v' ∈ db'.versions,
      v.1.name = v'.1.name → v.1.numPartitions = v'.1.numPartitions) :
    StatusCluster where
  nodes := addresses.map fun a => ⟨a, some (addresses.erase a), displayPath, dbs a⟩
  distinct := by
    rw [List.map_map]
    exact (List.map_id addresses).symm ▸ distinct
  plain := by
    intro n hn
    obtain ⟨a, ha, rfl⟩ := List.mem_map.mp hn
    exact plain a ha
  peers := by
    intro n hn
    obtain ⟨a, ha, rfl⟩ := List.mem_map.mp hn
    refine ⟨_, rfl, ?_⟩
    rw [List.map_map]
    exact (List.map_id addresses).symm ▸ List.Perm.refl _
  agree := by
    intro n hn m hm name db db' hdb hdb' v hv v' hv' hname
    obtain ⟨a, ha, rfl⟩ := List.mem_map.mp hn
    obtain ⟨a', ha', rfl⟩ := List.mem_map.mp hm
    exact ⟨rfl, agree a ha a' ha' name db db' hdb hdb' v hv v' hv' hname⟩

/-- Version `1`, with one partition, that has been switched to. -/
def switchedVersion : Version := (versionNamed [49]).setState .available

/-- A db with this version. -/
def switchedDB : ServedDB := ⟨[(switchedVersion, none)], none, List.nodup_singleton _⟩

/-- Two nodes, `a` and `b`, that both have the partition of version `1` of the db `d`. -/
def bothHave (replication : ℕ) (positive : 1 ≤ replication) : ReplicatedCluster where
  toStatusCluster := .ofDBs [[97], [98]] (by decide) (by simp [GoURL.hostByte, GoURL.alphanumeric])
    (fun _ _ => [])
    (fun _ => AList.singleton [100] switchedDB) (by
      intro a _ a' _ name db db' hdb hdb' v hv v' hv' _
      rw [hdb] at hdb'
      obtain rfl := Option.some.inj hdb'
      have hmem := AList.mem_entries_iff_lookup.mpr hdb
      obtain ⟨-, rfl⟩ := Sigma.mk.inj (List.mem_singleton.mp hmem)
      rw [List.mem_singleton.mp hv, List.mem_singleton.mp hv'])
  replication := replication
  positive := positive

theorem serves_bothHave (replication : ℕ) (positive : 1 ≤ replication) :
    ∃ x, (bothHave replication positive).Serves [100] [49] x ∧ x.numPartitions = 1 := by
  have hversion : StatusNode.version ⟨[97], some [[98]], fun _ _ => [],
      AList.singleton [100] switchedDB⟩ [100] [49] = some switchedVersion := rfl
  obtain ⟨status, x, hstatus, hx, hnum⟩ := (bothHave replication positive).exists_serves
    (List.mem_cons_self ..) (List.mem_cons_self ..) hversion storedOrders
  exact ⟨x, .all (List.mem_cons_self ..) hstatus hx, hnum⟩

/-- With a replication of 1, two nodes are too many, and counted as such. -/
theorem replication_classified_iff_both :
    ∃ x, (bothHave 1 le_rfl).Serves [100] [49] x ∧ x.numPartitions = 1 ∧
      Classified 1 ((bothHave 1 le_rfl).holders [100] [49]) x := by
  obtain ⟨x, hserves, hnum⟩ := serves_bothHave 1 le_rfl
  refine ⟨x, hserves, hnum, (replication_classified_iff _ _ _ x hserves).2.mpr ?_⟩
  intro p hp
  rw [hnum] at hp
  obtain rfl : p = 0 := Nat.lt_one_iff.mp hp
  exact .inr (by decide)

/-- **A partition that is where it should be counts as too much.** Two nodes have the partition, as
the configuration asks for, and it is counted as overreplicated. -/
theorem exactly_enough_is_too_much :
    ∃ x, (bothHave 2 one_le_two).Serves [100] [49] x ∧ x.numPartitions = 1 ∧
      (bothHave 2 one_le_two).holders [100] [49] 0 = 2 ∧ x.overreplicatedPartitions = 1 := by
  obtain ⟨x, hserves, hnum⟩ := serves_bothHave 2 one_le_two
  have hover := hserves.classified.overreplicated
  rw [hnum] at hover
  exact ⟨x, hserves, hnum, rfl, hover⟩

end Sequins
