import Sequins.Ephemeral
import Sequins.PartitionNode
import Sequins.GoMap

/-!
# Advertising partitions

A node tells the others which partitions of a version it has with one ephemeral znode for each.
`advertisePartitions` creates them, and from then on so does every `updateLocalPartitions`, each
time for all partitions and not only for the new ones.

Over one healthy session the znodes come out right: after any sequence of calls they are those
of the local partitions (`Progress.owns`). But a znode that is created again is an error for the
run loop, so the session is left in peace exactly if nothing is advertised yet when the last call
is made (`advertising_undisturbed_iff`). A build that finishes after a manifest has supplied some
partitions is a call too many (`build_after_manifest_disturbs`).
-/

namespace Sequins

/-- `partitions`, with what it takes to advertise them. -/
structure Advertiser where
  partitions : Partitions
  /-- the znode of the version -/
  zkPath : Bytes
  /-- whether new local partitions are to be advertised -/
  shouldAdvertise : Bool

namespace Advertiser

/-- What the loops over `p.local` hand to the watcher. A node without peers never gets there. -/
def nodes (a : Advertiser) (order : SetOrder ℤ) : List Bytes :=
  match a.partitions.peers with
  | none => []
  | some address =>
    (order.visit a.partitions.localPartitions).map (partitionZKNode a.zkPath address)

/-- `advertisePartitions`. -/
def advertisePartitions (a : Advertiser) (w : ZkSession) (order : SetOrder ℤ) :
    Advertiser × ZkSession :=
  if a.partitions.peers.isNone then
    (a, w)
  else
    ({ a with shouldAdvertise := true }, (a.nodes order).foldl ZkSession.createEphemeral w)

/-- `updateLocalPartitions`. -/
def updateLocalPartitions (a : Advertiser) (w : ZkSession) (loaded : Finset ℤ)
    (order : SetOrder ℤ) : Advertiser × ZkSession :=
  let a := { a with partitions := a.partitions.updateLocalPartitions loaded }
  (a, if a.shouldAdvertise then (a.nodes order).foldl ZkSession.createEphemeral w else w)

/-- `unadvertisePartitions`. -/
def unadvertisePartitions (a : Advertiser) (w : ZkSession) (order : SetOrder ℤ) :
    Advertiser × ZkSession :=
  if a.partitions.peers.isNone then
    (a, w)
  else
    ({ a with shouldAdvertise := false }, (a.nodes order).foldl ZkSession.removeEphemeral w)

end Advertiser

/-- A call that may advertise, with the order in which its loop visits the partitions. -/
inductive AdvertiseCall where
  | advertisePartitions (order : SetOrder ℤ)
  | updateLocalPartitions (loaded : Finset ℤ) (order : SetOrder ℤ)

/-- What a call does to the partitions and to the session. -/
def AdvertiseCall.apply (s : Advertiser × ZkSession) : AdvertiseCall → Advertiser × ZkSession
  | .advertisePartitions order => s.1.advertisePartitions s.2 order
  | .updateLocalPartitions loaded order => s.1.updateLocalPartitions s.2 loaded order

/-- What a sequence of calls does. -/
def AdvertiseCall.run (calls : List AdvertiseCall) (s : Advertiser × ZkSession) :
    Advertiser × ZkSession :=
  calls.foldl AdvertiseCall.apply s

theorem AdvertiseCall.run_concat (calls : List AdvertiseCall) (c : AdvertiseCall)
    (s : Advertiser × ZkSession) : run (calls ++ [c]) s = apply (run calls s) c := by
  rw [run, List.foldl_append]
  rfl

/-! ## The znodes of a version

Of the path of a partition's znode only two things matter below: different partitions have
different paths, and all of them are names in one directory. So the parents that `createAll`
makes on the way are shorter than any of them, and cannot be taken for one. -/

/-- The path of a partition's znode on the server. -/
def partitionPath (root zkPath : Bytes) (address : Address) (partition : ℤ) : Bytes :=
  GoPath.join [root, partitionZKNode zkPath address partition]

theorem Advertiser.mem_nodes {a : Advertiser} {address : Address}
    (hpeers : a.partitions.peers = some address) (order : SetOrder ℤ) {node : Bytes} :
    node ∈ a.nodes order ↔
      ∃ i ∈ a.partitions.localPartitions, partitionZKNode a.zkPath address i = node := by
  rw [nodes, hpeers]
  simp only [List.mem_map, order.mem_visit]

/-- They are names in one directory. -/
theorem exists_partitionPath {root : Bytes} (hroot : root.head? = some 47) (zkPath : Bytes)
    {address : Address} (haddress : 47 ∉ address) :
    ∃ parts dir, GoPath.Settled true parts ∧ GoPath.dirOf true parts = dir ++ [47] ∧
      ∀ i, partitionPath root zkPath address i = dir ++ 47 :: partitionName address i := by
  obtain ⟨parts, hsettled, hjoin⟩ := GoPath.exists_join_rooted hroot zkPath
  obtain ⟨dir, hdir⟩ := GoPath.exists_dirOf parts
  refine ⟨parts, dir, hsettled, hdir, fun i => ?_⟩
  rw [partitionPath, partitionZKNode, hjoin _ (proper_partitionName address i)
    (slash_not_mem_partitionName haddress i), hdir]
  simp

/-- **Creating the znodes of some partitions.** -/
theorem exists_created {root : Bytes} (hroot : root.head? = some 47) (zkPath : Bytes)
    {address : Address} (haddress : 47 ∉ address) :
    ∃ n, (∀ i, n ≤ (partitionPath root zkPath address i).length) ∧
      Function.Injective (partitionPath root zkPath address) ∧
      ∀ (l : List ℤ) (w : ZkSession), w.root = root → l.Nodup →
        ZkSession.Created n (l.map (partitionPath root zkPath address)) w
          ((l.map (partitionZKNode zkPath address)).foldl ZkSession.createEphemeral w) := by
  obtain ⟨parts, dir, hsettled, hdir, hpath⟩ := exists_partitionPath hroot zkPath haddress
  have hlong : ∀ i, (dir ++ [47]).length ≤ (partitionPath root zkPath address i).length := by
    intro i
    rw [hpath]
    simp
  have hinj : Function.Injective (partitionPath root zkPath address) := by
    intro i j hij
    rw [hpath, hpath] at hij
    exact partitionName_inj (List.cons.inj (List.append_cancel_left hij)).2
  refine ⟨_, hlong, hinj, fun l => ?_⟩
  induction l with
  | nil => exact fun w _ _ => .nil _ w
  | cons i l ih =>
    intro w hw hnodup
    obtain ⟨hi, hl⟩ := List.nodup_cons.mp hnodup
    have hone : ZkSession.Created (dir ++ [47]).length [partitionPath root zkPath address i] w
        (w.createEphemeral (partitionZKNode zkPath address i)) := by
      rw [hpath]
      refine ZkSession.created_createEphemeral hsettled hdir ?_ (proper_partitionName address i).1
        (slash_not_mem_partitionName haddress i)
      rw [hw]
      exact hpath i
    refine hone.cons (ih _ hw hl) ?_ ?_
    · rwa [List.mem_map_of_injective hinj]
    · intro q hq
      obtain ⟨j, -, rfl⟩ := List.mem_map.mp hq
      exact hlong j

/-! ## What one call does

`advertisePartitions` and `updateLocalPartitions` end in the same loop over `p.local`, so one
relation describes both. `hcreated` stands for `exists_created`: with it the section does not
speak of paths at all. -/

/-- One call: the local partitions only grow, advertising is never given up, and if the version is
advertised after the call, then the call has created the znode of every local partition. -/
structure Advances (n : ℕ) (path : ℤ → Bytes) (s s' : Advertiser × ZkSession) : Prop where
  peers : s'.1.partitions.peers = s.1.partitions.peers
  zkPath : s'.1.zkPath = s.1.zkPath
  grows : s.1.partitions.localPartitions ⊆ s'.1.partitions.localPartitions
  advertises : s.1.shouldAdvertise → s'.1.shouldAdvertise
  created : ∃ nodes, ZkSession.Created n nodes s.2 s'.2 ∧
    ∀ q, q ∈ nodes ↔ s'.1.shouldAdvertise ∧ ∃ i ∈ s'.1.partitions.localPartitions, path i = q

section Call

variable {root zkPath : Bytes} {address : Address} {n : ℕ}
  (hcreated : ∀ (l : List ℤ) (w : ZkSession), w.root = root → l.Nodup →
    ZkSession.Created n (l.map (partitionPath root zkPath address)) w
      ((l.map (partitionZKNode zkPath address)).foldl ZkSession.createEphemeral w))
include hcreated

/-- The loop creates the znodes of the local partitions, and no others. -/
theorem created_nodes {a : Advertiser} {w : ZkSession} (hpeers : a.partitions.peers = some address)
    (hzk : a.zkPath = zkPath) (hroot : w.root = root) (hadvertise : a.shouldAdvertise)
    (order : SetOrder ℤ) :
    ∃ nodes, ZkSession.Created n nodes w ((a.nodes order).foldl ZkSession.createEphemeral w) ∧
      ∀ q, q ∈ nodes ↔ a.shouldAdvertise ∧ ∃ i ∈ a.partitions.localPartitions,
        partitionPath root zkPath address i = q := by
  have hnodes : a.nodes order = (order.visit a.partitions.localPartitions).map
      (partitionZKNode zkPath address) := by
    rw [Advertiser.nodes, hpeers, hzk]
  rw [hnodes]
  refine ⟨_, hcreated _ w hroot (order.nodup _), fun q => ?_⟩
  simp only [List.mem_map, order.mem_visit, hadvertise, true_and]

/-- **Both calls advance.** A version that is not advertised after the call has created nothing. -/
theorem advances_apply {s : Advertiser × ZkSession} (hpeers : s.1.partitions.peers = some address)
    (hzk : s.1.zkPath = zkPath) (hroot : s.2.root = root) (c : AdvertiseCall) :
    Advances n (partitionPath root zkPath address) s (AdvertiseCall.apply s c) := by
  cases c with
  | advertisePartitions order =>
    have happly : AdvertiseCall.apply s (.advertisePartitions order) =
        ({ s.1 with shouldAdvertise := true },
          (s.1.nodes order).foldl ZkSession.createEphemeral s.2) := by
      rw [AdvertiseCall.apply, Advertiser.advertisePartitions, hpeers, if_neg (by simp)]
    rw [happly]
    exact ⟨rfl, rfl, subset_rfl, fun _ => rfl, created_nodes hcreated
      (a := { s.1 with shouldAdvertise := true }) hpeers hzk hroot rfl order⟩
  | updateLocalPartitions loaded order =>
    have hpeers' : (s.1.partitions.updateLocalPartitions loaded).peers = s.1.partitions.peers :=
      Partitions.updateLocalPartitions_peers ..
    have hgrows : s.1.partitions.localPartitions ⊆
        (s.1.partitions.updateLocalPartitions loaded).localPartitions := by
      rw [Partitions.updateLocalPartitions_localPartitions]
      exact Finset.subset_union_left
    refine ⟨hpeers', rfl, hgrows, id, ?_⟩
    simp only [AdvertiseCall.apply, Advertiser.updateLocalPartitions]
    by_cases hadvertise : s.1.shouldAdvertise = true
    · rw [if_pos hadvertise]
      exact created_nodes hcreated
        (a := { s.1 with partitions := s.1.partitions.updateLocalPartitions loaded })
        (hpeers'.trans hpeers) hzk hroot hadvertise order
    · rw [if_neg hadvertise]
      exact ⟨[], .nil _ _, by simp [hadvertise]⟩

end Call

/-! ## What a sequence of calls does -/

/-- Where a sequence of calls has got, from `s₀` to `s`. -/
structure Progress (path : ℤ → Bytes) (s₀ s : Advertiser × ZkSession) : Prop where
  peers : s.1.partitions.peers = s₀.1.partitions.peers
  zkPath : s.1.zkPath = s₀.1.zkPath
  root : s.2.root = s₀.2.root
  owns : ∀ q, s.2.Owns q ↔ s₀.2.Owns q ∨ s.1.shouldAdvertise ∧
    ∃ i ∈ s.1.partitions.localPartitions, path i = q ∧ s₀.2.tree q = none
  present : ∀ i, (s.2.tree (path i)).isSome ↔ (s₀.2.tree (path i)).isSome ∨
    s.1.shouldAdvertise ∧ i ∈ s.1.partitions.localPartitions
  idle : (s.1.shouldAdvertise → s.1.partitions.localPartitions = ∅) → s.2.errs = []

namespace Progress

variable {path : ℤ → Bytes} {s₀ s s' : Advertiser × ZkSession} {n : ℕ}

theorem refl (h : s₀.1.shouldAdvertise = false) (herrs : s₀.2.errs = []) : Progress path s₀ s₀ :=
  ⟨rfl, rfl, rfl, fun q => by simp [h], fun i => by simp [h], fun _ => herrs⟩

/-- What a call finds. -/
theorem tree_eq_none (h : Progress path s₀ s) (i : ℤ) :
    s.2.tree (path i) = none ↔ s₀.2.tree (path i) = none ∧
      (s.1.shouldAdvertise → i ∉ s.1.partitions.localPartitions) := by
  rw [← Option.not_isSome_iff_eq_none, h.present, not_or, Option.not_isSome_iff_eq_none,
    not_and]

/-- When a call leaves the run loop alone. -/
theorem errs_eq_nil (h : Progress path s₀ s) (hstep : Advances n path s s') :
    s'.2.errs = [] ↔ s.2.errs = [] ∧ (s'.1.shouldAdvertise →
      ∀ i ∈ s'.1.partitions.localPartitions, s₀.2.tree (path i) = none) ∧
      (s.1.shouldAdvertise → s.1.partitions.localPartitions = ∅) := by
  obtain ⟨nodes, hcreated, hnodes⟩ := hstep.created
  rw [hcreated.errs]
  refine and_congr_right fun _ => ?_
  constructor
  · intro hnone
    have hfind : s'.1.shouldAdvertise → ∀ i ∈ s'.1.partitions.localPartitions,
        s.2.tree (path i) = none :=
      fun hadv i hi => hnone _ ((hnodes _).mpr ⟨hadv, i, hi, rfl⟩)
    refine ⟨fun hadv i hi => ((h.tree_eq_none i).mp (hfind hadv i hi)).1, fun hadv => ?_⟩
    rw [Finset.eq_empty_iff_forall_notMem]
    intro i hi
    exact ((h.tree_eq_none i).mp (hfind (hstep.advertises hadv) i (hstep.grows hi))).2 hadv hi
  · rintro ⟨hfresh, hempty⟩ q hq
    obtain ⟨hadv, i, hi, rfl⟩ := (hnodes q).mp hq
    refine (h.tree_eq_none i).mpr ⟨hfresh hadv i hi, fun hadv' => ?_⟩
    rw [hempty hadv']
    exact Finset.notMem_empty i

/-- One more call. That its loop names again what was created before does no harm to the tree. -/
theorem step (h : Progress path s₀ s) (hinj : Function.Injective path)
    (hlong : ∀ i, n ≤ (path i).length) (hstep : Advances n path s s') : Progress path s₀ s' := by
  obtain ⟨nodes, hcreated, hnodes⟩ := hstep.created
  refine ⟨hstep.peers.trans h.peers, hstep.zkPath.trans h.zkPath, hcreated.root.trans h.root,
    fun q => ?_, fun i => ?_, fun hidle => ?_⟩
  · rw [hcreated.owns, h.owns, hnodes]
    constructor
    · rintro ((hown | ⟨hadv, i, hi, rfl, hnone⟩) | ⟨⟨hadv, i, hi, rfl⟩, hnone⟩)
      · exact .inl hown
      · exact .inr ⟨hstep.advertises hadv, i, hstep.grows hi, rfl, hnone⟩
      · exact .inr ⟨hadv, i, hi, rfl, ((h.tree_eq_none i).mp hnone).1⟩
    · rintro (hown | ⟨hadv, i, hi, rfl, hnone⟩)
      · exact .inl (.inl hown)
      · -- it is new, or the session had it before the call
        by_cases hold : s.1.shouldAdvertise ∧ i ∈ s.1.partitions.localPartitions
        · exact .inl (.inr ⟨hold.1, i, hold.2, rfl, hnone⟩)
        · exact .inr ⟨⟨hadv, i, hi, rfl⟩, (h.tree_eq_none i).mpr ⟨hnone, not_and.mp hold⟩⟩
  · rw [hcreated.present _ (hlong i), h.present, hnodes, or_assoc]
    refine or_congr_right ?_
    constructor
    · rintro (⟨hadv, hi⟩ | ⟨hadv, j, hj, hij⟩)
      · exact ⟨hstep.advertises hadv, hstep.grows hi⟩
      · exact ⟨hadv, hinj hij ▸ hj⟩
    · rintro ⟨hadv, hi⟩
      exact .inr ⟨hadv, i, hi, rfl⟩
  · have hempty : s.1.shouldAdvertise → s.1.partitions.localPartitions = ∅ :=
      fun hadv => Finset.subset_empty.mp (hidle (hstep.advertises hadv) ▸ hstep.grows)
    refine (h.errs_eq_nil hstep).mpr ⟨h.idle hempty, fun hadv i hi => ?_, hempty⟩
    rw [hidle hadv] at hi
    exact absurd hi (Finset.notMem_empty i)

end Progress

/-- **The session is left in peace exactly if nothing is advertised twice.** After a sequence of
calls over a healthy session, no error waits for the run loop and the session has gained the znodes
of the local partitions, if and only if no partition was advertised yet when the last call was
made and no znode stood in the way from the start. -/
theorem advertising_undisturbed_iff (a : Advertiser) (w : ZkSession) {address : Address}
    (hpeers : a.partitions.peers = some address) (haddress : 47 ∉ address)
    (hroot : w.root.head? = some 47) (hstart : a.shouldAdvertise = false) (herrs : w.errs = [])
    (calls : List AdvertiseCall) :
    let before := AdvertiseCall.run calls.dropLast (a, w)
    let after := AdvertiseCall.run calls (a, w)
    let path := partitionPath w.root a.zkPath address
    (after.2.errs = [] ∧ ∀ q, after.2.Owns q ↔ w.Owns q ∨ after.1.shouldAdvertise ∧
        ∃ i ∈ after.1.partitions.localPartitions, path i = q) ↔
      (before.1.shouldAdvertise → before.1.partitions.localPartitions = ∅) ∧
        (after.1.shouldAdvertise →
          ∀ i ∈ after.1.partitions.localPartitions, w.tree (path i) = none) := by
  intro before after path
  obtain ⟨n, hlong, hinj, hcreated⟩ := exists_created hroot a.zkPath haddress
  have hstep : ∀ s, Progress path (a, w) s → ∀ c, Advances n path s (AdvertiseCall.apply s c) :=
    fun s h c => advances_apply hcreated (h.peers.trans hpeers) h.zkPath h.root c
  have hrun : ∀ calls, Progress path (a, w) (AdvertiseCall.run calls (a, w)) := by
    intro calls
    refine List.foldlRecOn calls AdvertiseCall.apply (.refl hstart herrs) ?_
    intro s h c _
    exact h.step hinj hlong (hstep s h c)
  have hquiet : after.2.errs = [] ↔
      (before.1.shouldAdvertise → before.1.partitions.localPartitions = ∅) ∧
        (after.1.shouldAdvertise →
          ∀ i ∈ after.1.partitions.localPartitions, w.tree (path i) = none) := by
    rcases List.eq_nil_or_concat' calls with rfl | ⟨calls, c, rfl⟩
    · refine iff_of_true herrs ⟨fun h => ?_, fun h => ?_⟩
      all_goals exact absurd (hstart.symm.trans h) Bool.false_ne_true
    · simp only [before, after, List.dropLast_concat, AdvertiseCall.run_concat]
      rw [(hrun calls).errs_eq_nil (hstep _ (hrun calls) c)]
      constructor
      · rintro ⟨-, hfresh, hempty⟩
        exact ⟨hempty, hfresh⟩
      · rintro ⟨hempty, hfresh⟩
        exact ⟨(hrun calls).idle hempty, hfresh, hempty⟩
  constructor
  · rintro ⟨hnil, -⟩
    exact hquiet.mp hnil
  · intro h
    refine ⟨hquiet.mpr h, fun q => ?_⟩
    rw [(hrun _).owns]
    refine or_congr_right (and_congr_right fun hadv => exists_congr fun i => ?_)
    refine and_congr_right fun hi => and_iff_left_of_imp ?_
    rintro rfl
    exact h.2 hadv i hi

/-- A node that has partition 0 of a version of two, in a session without znodes. -/
def manifestStart : Advertiser × ZkSession :=
  (⟨(Partitions.watchPartitions (some [97]) 2 {0, 1} fun _ => []).updateLocalPartitions {0},
    [112], false⟩, ⟨[47, 115], 1, fun _ => none, ∅, []⟩)

/-- The build is through before the version is advertised: both znodes are created at once. -/
theorem advertising_undisturbed_buildFirst :
    let after := AdvertiseCall.run [.updateLocalPartitions {1} (.ascending ℤ),
      .advertisePartitions (.ascending ℤ)] manifestStart
    after.2.errs = [] ∧ after.2.Owns (partitionPath [47, 115] [112] [97] 1) := by
  have hpeers : manifestStart.1.partitions.peers = some [97] := rfl
  have h := (advertising_undisturbed_iff manifestStart.1 manifestStart.2 hpeers (by decide) rfl rfl
    rfl [.updateLocalPartitions {1} (.ascending ℤ), .advertisePartitions (.ascending ℤ)]).mpr
    ⟨fun h => absurd h (by decide), fun _ _ _ => rfl⟩
  refine ⟨h.1, (h.2 _).mpr (.inr ⟨rfl, 1, ?_, rfl⟩)⟩
  decide

/-- **A build that finishes after a manifest supplied partition 0** creates the znode of partition 0
again, and the run loop finds an error. -/
theorem build_after_manifest_disturbs :
    (AdvertiseCall.run [.advertisePartitions (.ascending ℤ),
      .updateLocalPartitions {1} (.ascending ℤ)] manifestStart).2.errs =
      [.call .nodeExists] := by
  decide

end Sequins
