import Sequins.Consistent
import Sequins.Peers

/-!
# Placing partitions with the ring

`updatePeers`, `pick` and `pickLocalPartitions` with the ring they really use. `Sequins.Peers` says
what nodes make of a ring that picks by its members alone (`Ring`). The ring of the library is one
that nodes have built up from the lists of registrations they happened to read, each time in the
random order of a map.

* If no two shards that a node has ever read share a point, its ring does pick by its members alone,
  and picks the nearest ones (`nearestRing`, `pickLocalPartitions_eq`). So nodes that have read the
  same registrations agree, and cover all partitions, whatever they have read before
  (`ringed_cluster_covers`).
* Which shards are nearest is a matter of each shard by itself. So when nodes leave, the others keep
  what they have selected, and a partition is selected anew only if it was on one that left
  (`leaving_keeps_selected`).
* Two shards that share a point may be seen in different orders, so that each node takes the other
  one for the owner. With a replication of one, nobody then selects the partitions
  nearest to it (`shared_point_unselected`).
-/

namespace Sequins

/-- `peers`, with its ring. -/
structure RingedPeers where
  /-- the other fields, and the members of the ring -/
  peers : Peers
  /-- `ring` -/
  ring : Consistent

namespace RingedPeers

/-- What `watchPeers` starts from. -/
def start (shardID : Bytes) (address : Address) : RingedPeers :=
  ⟨⟨shardID, address, ∅, ∅⟩, Consistent.new⟩

section

variable (hashKey : Bytes → UInt32)

/-- `updatePeers`; `none` is an index out of range. The orders are those of the ranges over the
shards, the members of the ring, and its circle. -/
def updatePeers (shardOrder range : SetOrder Bytes) (order : IterOrder (Σ _ : UInt32, Bytes))
    (p : RingedPeers) (addrs : List Bytes) : Option RingedPeers :=
  (p.peers.updatePeers addrs).map fun peers =>
    ⟨peers, p.ring.set hashKey range order (shardOrder.visit peers.ring)⟩

/-- `pick`; `none` if `GetN` has not returned after `fuel` rounds. Its error is dropped. -/
def pick (p : RingedPeers) (fuel : ℕ) (order : IterOrder (Σ _ : Peer, Bool)) (partitionId : Bytes)
    (n : ℕ) : Option (List Address) :=
  (p.ring.getN hashKey fuel partitionId n).map fun result =>
    let shards := match result with
      | .ok picked => picked
      | .error _ => []
    ((order.arrange p.peers.peers.entries).filter fun e => shards.contains e.1.shardID).map
        (fun e => e.1.address) ++
      if shards.contains p.peers.shardID then [peerSelf] else []

/-- `pickLocalPartitions`. The order is that of the map of peers, in each call of `pick`. -/
def pickLocalPartitions (p : RingedPeers) (fuel : ℕ) (order : ℕ → IterOrder (Σ _ : Peer, Bool))
    (zkPath : Bytes) (numPartitions replication : ℕ) : Option (Finset ℤ) :=
  ((List.range numPartitions).mapM fun i =>
      (p.pick hashKey fuel (order i) (partitionId zkPath i) replication).map fun replicas =>
        (i, replicas)).map fun picks =>
    ((picks.filter fun e => e.2.any fun replica => decide (replica = peerSelf)).map
      fun e => Int.ofNat e.1).toFinset

/-- What a node may know: it has read any number of lists of registrations, with shards from the
pool. -/
inductive Learned (pool : Set Bytes) (shardID : Bytes) (address : Address) : RingedPeers → Prop where
  /-- nothing yet -/
  | start : Learned pool shardID address (RingedPeers.start shardID address)
  /-- a list is read -/
  | update {p p' : RingedPeers} {addrs : List Bytes} (shardOrder range : SetOrder Bytes)
    (order : IterOrder (Σ _ : UInt32, Bytes)) : Learned pool shardID address p →
    p.updatePeers hashKey shardOrder range order addrs = some p' →
    (∀ shard ∈ p'.peers.ring, shard ∈ pool) → Learned pool shardID address p'

end

/-! ## The ring picks by its members

`nearestRing` is a ring as `Sequins.Peers` wants it, a function of the members. Where no points
are shared, `GetN` of the library gives the same, so what was proved of such rings carries over. -/

section

variable {hashKey : Bytes → UInt32} {pool : Set Bytes} {shardID : Bytes} {address : Address}
  {p : RingedPeers}

/-- The ring has come about by calls of `Set`, and has the shards that the node knows. -/
theorem Learned.history (h : Learned hashKey pool shardID address p) :
    Consistent.History hashKey pool p.ring ∧ p.ring.members = p.peers.ring := by
  induction h with
  | start => exact ⟨.new, rfl⟩
  | update shardOrder range order _ hupdate hpool ih =>
    obtain ⟨peers, -, rfl⟩ := Option.map_eq_some_iff.mp hupdate
    refine ⟨.set range order ih.1 fun v hv => hpool v ((shardOrder.mem_visit _ _).mp hv), ?_⟩
    ext m
    rw [Consistent.mem_members_set, shardOrder.mem_visit]

end

end RingedPeers

/-- Distances from a key are all different. -/
theorem Consistent.distance_injective (key : UInt32) :
    Function.Injective (Consistent.distance key) := by
  intro p q hpq
  have hsub : p - key - 1 = q - key - 1 := UInt32.toNat_inj.mp hpq
  have hsub' := congrArg (fun h => h + 1 + key) hsub
  simpa using hsub'

/-- Members of a ring are at different distances, since they do not share their points. -/
theorem Consistent.Placed.reach_injOn {hashKey : Bytes → UInt32} {c : Consistent}
    (h : Consistent.Placed hashKey c) (key : UInt32) :
    Set.InjOn (Consistent.reach hashKey key) c.members := by
  intro a ha b hb hab
  obtain ⟨p, hp, hpa⟩ := Consistent.exists_distance_eq_reach hashKey key a
  obtain ⟨q, hq, hqb⟩ := Consistent.exists_distance_eq_reach hashKey key b
  obtain rfl := Consistent.distance_injective key (hpa.trans (hab.trans hqb.symm))
  have hlookup := (h.circle p a).mpr ⟨ha, hp⟩
  rw [(h.circle p b).mpr ⟨hb, hq⟩] at hlookup
  exact (Option.some.inj hlookup).symm

/-- **The ring by which nodes agree**: it picks the nearest shards. -/
noncomputable def nearestRing (hashKey : Bytes → UInt32) : Ring where
  getN members key n := (members.toList.insertionSort fun a b =>
    Consistent.reach hashKey (hashKey key) a ≤ Consistent.reach hashKey (hashKey key) b).take n
  mem members key n shard h :=
    Finset.mem_toList.mp ((List.mem_insertionSort _).mp (List.mem_of_mem_take h))
  nodup members key n :=
    ((List.perm_insertionSort _ _).nodup_iff.mpr members.nodup_toList).sublist
      (List.take_sublist _ _)
  length members key n _ _ := by
    rw [List.length_take, (List.perm_insertionSort _ _).length_eq, Finset.length_toList]

theorem foremost_nearestRing {hashKey : Bytes → UInt32} {c : Consistent}
    (h : Consistent.Placed hashKey c) (key : Bytes) (n : ℕ) :
    Foremost (Consistent.reach hashKey (hashKey key)) c.members n
      ((nearestRing hashKey).getN c.members key n) :=
  Foremost.take_insertionSort _ _ (h.reach_injOn _) n

/-- `GetN` picks what `nearestRing` does. -/
theorem Consistent.Placed.getN_nearestRing {hashKey : Bytes → UInt32} {c : Consistent}
    (h : Consistent.Placed hashKey c) (hne : c.members.Nonempty) (key : Bytes) {n : ℕ} (hn : 1 ≤ n)
    {fuel : ℕ} (hfuel : Consistent.numberOfReplicas * c.members.card ≤ fuel) :
    c.getN hashKey fuel key n = some (.ok ((nearestRing hashKey).getN c.members key n)) := by
  have hpicked : (Consistent.met hashKey c (hashKey key) (c.walk (hashKey key))).take n =
      (nearestRing hashKey).getN c.members key n :=
    ((h.course (hashKey key)).foremost n).unique (foremost_nearestRing h key n)
  rw [h.getN_eq hne key hn (h.length_sortedHashes_le.trans hfuel), hpicked]

namespace RingedPeers

section

variable {hashKey : Bytes → UInt32} {pool : Set Bytes} {shardID : Bytes} {address : Address}
  {p : RingedPeers}

theorem Learned.placed (hspread : Consistent.Spread hashKey pool)
    (h : Learned hashKey pool shardID address p) : Consistent.Placed hashKey p.ring :=
  h.history.1.placed hspread

/-- `pick`, with enough fuel, is `pick` of the other model. -/
theorem pick_eq (hplaced : Consistent.Placed hashKey p.ring)
    (hmembers : p.ring.members = p.peers.ring) (hne : p.peers.ring.Nonempty)
    (order : IterOrder (Σ _ : Peer, Bool)) (id : Bytes) {n : ℕ} (hn : 1 ≤ n) {fuel : ℕ}
    (hfuel : Consistent.numberOfReplicas * p.peers.ring.card ≤ fuel) :
    p.pick hashKey fuel order id n = some (p.peers.pick (nearestRing hashKey) order id n) := by
  rw [← hmembers] at hne hfuel
  rw [pick, hplaced.getN_nearestRing hne id hn hfuel, hmembers, Peers.pick]
  simp only [Option.map_some, List.contains_eq_mem, decide_eq_true_eq]

/-- **The partitions a node selects are those of a ring that knows nothing but its members.** -/
theorem pickLocalPartitions_eq (hplaced : Consistent.Placed hashKey p.ring)
    (hmembers : p.ring.members = p.peers.ring) (hne : p.peers.ring.Nonempty)
    (order : ℕ → IterOrder (Σ _ : Peer, Bool)) (zk : Bytes) (numPartitions : ℕ) {r : ℕ}
    (hr : 1 ≤ r) {fuel : ℕ}
    (hfuel : Consistent.numberOfReplicas * p.peers.ring.card ≤ fuel) :
    p.pickLocalPartitions hashKey fuel order zk numPartitions r =
      some (Sequins.pickLocalPartitions (nearestRing hashKey) (some p.peers) order zk
        numPartitions r) := by
  have hpick : ∀ i ∈ List.range numPartitions,
      (p.pick hashKey fuel (order i) (partitionId zk i) r).map (fun replicas => (i, replicas)) =
        some (i, p.peers.pick (nearestRing hashKey) (order i) (partitionId zk i) r) := by
    intro i _
    rw [pick_eq hplaced hmembers hne (order i) _ hr hfuel, Option.map_some]
  rw [pickLocalPartitions, GoString.mapM_of_forall hpick, Option.map_some, List.filter_map,
    List.map_map]
  rfl

end

end RingedPeers

/-! ## A cluster -/

/-- A node that has read anything, and last the full list of registrations, in some order. -/
def RingedConverged (hashKey : Bytes → UInt32) (pool : Set Bytes) (nodes : List NodeConfig)
    (c : NodeConfig) (p : RingedPeers) : Prop :=
  ∃ (before : RingedPeers) (listed : List NodeConfig) (shardOrder range : SetOrder Bytes)
    (order : IterOrder (Σ _ : UInt32, Bytes)),
    RingedPeers.Learned hashKey pool c.shard c.address before ∧ listed.Perm nodes ∧
    before.updatePeers hashKey shardOrder range order (listed.map fun c => c.registration) = some p

section

variable {hashKey : Bytes → UInt32} {pool : Set Bytes} {nodes : List NodeConfig} {c : NodeConfig}
  {p : RingedPeers}

theorem Peers.updatePeers_self {q q' : Peers} {addrs : List Bytes}
    (h : q.updatePeers addrs = some q') : q'.shardID = q.shardID ∧ q'.address = q.address := by
  obtain ⟨entries, -, rfl⟩ := Option.map_eq_some_iff.mp h
  exact ⟨rfl, rfl⟩

theorem RingedPeers.Learned.self {shardID : Bytes} {address : Address}
    (h : RingedPeers.Learned hashKey pool shardID address p) :
    p.peers.shardID = shardID ∧ p.peers.address = address := by
  induction h with
  | start => exact ⟨rfl, rfl⟩
  | update _ _ _ _ hupdate _ ih =>
    obtain ⟨peers, hpeers, rfl⟩ := Option.map_eq_some_iff.mp hupdate
    obtain ⟨hshard, haddress⟩ := Peers.updatePeers_self hpeers
    exact ⟨hshard.trans ih.1, haddress.trans ih.2⟩

/-- A converged node is one in the sense of the other model. -/
theorem RingedConverged.converged (h : RingedConverged hashKey pool nodes c p) :
    Converged nodes c p.peers := by
  obtain ⟨before, listed, _, _, _, hlearned, hperm, hupdate⟩ := h
  obtain ⟨peers, hpeers, rfl⟩ := Option.map_eq_some_iff.mp hupdate
  exact ⟨before.peers, listed, hlearned.self.1, hlearned.self.2, hperm, hpeers⟩

/-- What there is to know of a converged node. -/
theorem RingedConverged.selects (hspread : Consistent.Spread hashKey pool)
    (hdistinct : (nodes.map fun c => c.address).Nodup)
    (hpool : ∀ d ∈ nodes, d.shard ∈ pool) (hc : c ∈ nodes)
    (h : RingedConverged hashKey pool nodes c p) (order : ℕ → IterOrder (Σ _ : Peer, Bool))
    (zk : Bytes) (n : ℕ) {r : ℕ} (hr : 1 ≤ r) {fuel : ℕ}
    (hfuel : Consistent.numberOfReplicas * (shards nodes).card ≤ fuel) :
    (∀ key, Foremost (Consistent.reach hashKey (hashKey key)) (shards nodes) r
      ((nearestRing hashKey).getN (shards nodes) key r)) ∧
    ∃ selected, p.pickLocalPartitions hashKey fuel order zk n r = some selected ∧
      ∀ i : ℤ, i ∈ selected ↔ ∃ k < n, (k : ℤ) = i ∧
        c.shard ∈ (nearestRing hashKey).getN (shards nodes) (partitionId zk k) r := by
  have hagrees := h.converged.agrees hdistinct hc
  have hlearned : RingedPeers.Learned hashKey pool c.shard c.address p := by
    obtain ⟨before, listed, _, _, _, hlearned, -, hupdate⟩ := h
    refine .update _ _ _ hlearned hupdate fun shard hshard => ?_
    rw [hagrees.ring, mem_shards] at hshard
    obtain ⟨d, hd, rfl⟩ := hshard
    exact hpool d hd
  have hplaced := hlearned.placed hspread
  have hmembers := hlearned.history.2
  rw [← hagrees.ring] at hfuel
  refine ⟨fun key => ?_, _, RingedPeers.pickLocalPartitions_eq hplaced hmembers ?_ order zk n hr hfuel,
    fun i => hagrees.mem_pickLocalPartitions ..⟩
  · rw [← hagrees.ring, ← hmembers]
    exact foremost_nearestRing hplaced key r
  · rw [hagrees.ring]
    exact ⟨c.shard, mem_shards.mpr ⟨c, hc, rfl⟩⟩

/-- **A converged cluster covers every partition, with the ring it has.** Whatever lists the nodes
have read before, and in whatever order, each partition is selected on the nodes of the shards
nearest to it, of which there are `min r` of all the shards. -/
theorem ringed_cluster_covers (hspread : Consistent.Spread hashKey pool) (hne : nodes ≠ [])
    (hdistinct : (nodes.map fun c => c.address).Nodup) (hpool : ∀ c ∈ nodes, c.shard ∈ pool)
    {r : ℕ} (hr : 1 ≤ r) (db version : Bytes) (n : ℕ) (peers : NodeConfig → RingedPeers)
    (hconverged : ∀ c ∈ nodes, RingedConverged hashKey pool nodes c (peers c))
    (order : NodeConfig → ℕ → IterOrder (Σ _ : Peer, Bool)) {fuel : ℕ}
    (hfuel : Consistent.numberOfReplicas * (shards nodes).card ≤ fuel) :
    ∃ selected : NodeConfig → Finset ℤ,
      (∀ c ∈ nodes, (peers c).pickLocalPartitions hashKey fuel (order c) (zkPath db version) n r =
        some (selected c)) ∧
      ∀ i : ℕ, i < n → ∃ picked : List Bytes,
        Foremost (Consistent.reach hashKey (hashKey (partitionId (zkPath db version) i)))
          (shards nodes) r picked ∧
        (∀ c ∈ nodes, (i : ℤ) ∈ selected c ↔ c.shard ∈ picked) ∧
        ∃ c ∈ nodes, (i : ℤ) ∈ selected c := by
  have hselects := fun c hc => (hconverged c hc).selects hspread hdistinct hpool hc (order c)
    (zkPath db version) n hr hfuel
  choose! selected hselected hmem using fun c hc => (hselects c hc).2
  refine ⟨selected, hselected, fun i hi => ⟨_, (hselects _ (List.head_mem hne)).1 _, ?_⟩⟩
  have hiff : ∀ c ∈ nodes, (i : ℤ) ∈ selected c ↔
      c.shard ∈ (nearestRing hashKey).getN (shards nodes) (partitionId (zkPath db version) i) r := by
    intro c hc
    rw [hmem c hc]
    constructor
    · rintro ⟨k, -, hk, hpicked⟩
      obtain rfl := Int.ofNat.inj hk
      exact hpicked
    · exact fun hpicked => ⟨i, hi, rfl, hpicked⟩
  refine ⟨hiff, ?_⟩
  -- at least one shard is picked, and it has a node
  have hforemost := (hselects _ (List.head_mem hne)).1 (partitionId (zkPath db version) i)
  have hcard : 0 < (shards nodes).card :=
    Finset.card_pos.mpr ⟨_, mem_shards.mpr ⟨_, List.head_mem hne, rfl⟩⟩
  obtain ⟨shard, hshard⟩ := List.exists_mem_of_length_pos
    (hforemost.length ▸ lt_min hr hcard)
  obtain ⟨c, hc, rfl⟩ := mem_shards.mp (hforemost.mem _ hshard)
  exact ⟨c, hc, (hiff c hc).mpr hshard⟩

/-- What a node of `twoShards` knows once it has read a list. -/
def ringedAfter (listed : List NodeConfig) (c : NodeConfig) : RingedPeers :=
  ((RingedPeers.start c.shard c.address).updatePeers Consistent.checksumIEEE
    (SetOrder.ascending Bytes) (SetOrder.ascending Bytes) (IterOrder.stored _)
    (listed.map fun c => c.registration)).getD (RingedPeers.start c.shard c.address)

theorem ringedConverged_ringedAfter (pool : Set Bytes) (listed : List NodeConfig) (c : NodeConfig) :
    RingedConverged Consistent.checksumIEEE pool listed c (ringedAfter listed c) := by
  refine ⟨_, listed, SetOrder.ascending Bytes, SetOrder.ascending Bytes, IterOrder.stored _, .start,
    .refl _, ?_⟩
  rw [ringedAfter, RingedPeers.updatePeers, Peers.updatePeers, mapM_cut_registration]
  rfl

theorem shards_twoShards_mem : ∀ c ∈ twoShards,
    c.shard ∈ {m | m ∈ ([[97], [98]] : List Bytes)} := by
  intro c hc
  rcases List.mem_pair.mp hc with rfl | rfl <;> simp [ShardConfig.shard]

theorem ringed_cluster_covers_twoShards : ∃ c ∈ twoShards, ∃ selected,
    (ringedAfter twoShards c).pickLocalPartitions Consistent.checksumIEEE 40 (fun _ => .stored _)
      (zkPath [100] [118]) 2 1 = some selected ∧ (1 : ℤ) ∈ selected := by
  obtain ⟨selected, hselected, hcovers⟩ := ringed_cluster_covers Consistent.spread_twoElements
    (by decide) (by decide) shards_twoShards_mem (le_refl 1) [100] [118] 2 (ringedAfter twoShards)
    (fun c _ => ringedConverged_ringedAfter _ twoShards c) (fun _ _ => .stored _)
    (show Consistent.numberOfReplicas * (shards twoShards).card ≤ 40 by decide)
  obtain ⟨-, -, -, c, hc, hmem⟩ := hcovers 1 (by decide)
  exact ⟨c, hc, selected c, hselected c hc, hmem⟩

/-- The ring that stands for the library with these shards answers as it does. -/
example : ∀ i ∈ List.range 2,
    Consistent.twoElements.getN Consistent.checksumIEEE 40 (partitionId (zkPath [100] [118]) i) 1 =
      some (.ok (twoShardsRing.getN (shards twoShards) (partitionId (zkPath [100] [118]) i) 1)) := by
  decide +kernel

/-- **Nodes that leave take nothing from the others.** A node that stays selects what it selected
before; and if it selects a partition anew, it was selected by a node of a shard that is gone. -/
theorem leaving_keeps_selected (hspread : Consistent.Spread hashKey pool)
    {nodes' : List NodeConfig} (hstay : ∀ d ∈ nodes', d ∈ nodes)
    (hdistinct : (nodes.map fun c => c.address).Nodup)
    (hdistinct' : (nodes'.map fun c => c.address).Nodup) (hpool : ∀ d ∈ nodes, d.shard ∈ pool)
    (hc : c ∈ nodes') {p' : RingedPeers} (h : RingedConverged hashKey pool nodes c p)
    (h' : RingedConverged hashKey pool nodes' c p')
    (order order' : ℕ → IterOrder (Σ _ : Peer, Bool)) (zk : Bytes) (n : ℕ) {r : ℕ} (hr : 1 ≤ r)
    {fuel : ℕ} (hfuel : Consistent.numberOfReplicas * (shards nodes).card ≤ fuel) :
    ∃ selected selected', p.pickLocalPartitions hashKey fuel order zk n r = some selected ∧
      p'.pickLocalPartitions hashKey fuel order' zk n r = some selected' ∧
      selected ⊆ selected' ∧
      ∀ i ∈ selected', i ∉ selected → ∃ d ∈ nodes, (∀ d' ∈ nodes', d'.shard ≠ d.shard) ∧
        ∀ q, RingedConverged hashKey pool nodes d q →
          ∃ gone, q.pickLocalPartitions hashKey fuel order zk n r = some gone ∧ i ∈ gone := by
  have hsub : shards nodes' ⊆ shards nodes := by
    intro shard hshard
    obtain ⟨d, hd, rfl⟩ := mem_shards.mp hshard
    exact mem_shards.mpr ⟨d, hstay d hd, rfl⟩
  obtain ⟨hnearest, selected, hselected, hmem⟩ :=
    h.selects hspread hdistinct hpool (hstay c hc) order zk n hr hfuel
  obtain ⟨hnearest', selected', hselected', hmem'⟩ :=
    h'.selects hspread hdistinct' (fun d hd => hpool d (hstay d hd)) hc order' zk n hr
      ((Nat.mul_le_mul_left _ (Finset.card_le_card hsub)).trans hfuel)
  refine ⟨selected, selected', hselected, hselected', fun i hi => ?_, fun i hi hnew => ?_⟩
  · obtain ⟨k, hk, rfl, hpicked⟩ := (hmem i).mp hi
    refine (hmem' _).mpr ⟨k, hk, rfl, ?_⟩
    exact (hnearest _).mem_of_subset (hnearest' _) hsub (mem_shards.mpr ⟨c, hc, rfl⟩) hpicked
  · obtain ⟨k, hk, rfl, hpicked⟩ := (hmem' i).mp hi
    -- if all that were picked had stayed, the picks would be the same
    obtain ⟨shard, hshard, hgone⟩ : ∃ shard ∈ (nearestRing hashKey).getN (shards nodes)
        (partitionId zk k) r, shard ∉ shards nodes' := by
      by_contra hall
      push Not at hall
      have hsame := (hnearest _).eq_of_subset (hnearest' _) hsub hall
      exact hnew ((hmem _).mpr ⟨k, hk, rfl, hsame ▸ hpicked⟩)
    obtain ⟨d, hd, rfl⟩ := mem_shards.mp ((hnearest _).mem _ hshard)
    refine ⟨d, hd, fun d' hd' heq => hgone (mem_shards.mpr ⟨d', hd', heq⟩), fun q hq => ?_⟩
    obtain ⟨-, gone, hgone, hmemgone⟩ := hq.selects hspread hdistinct hpool hd order zk n hr hfuel
    exact ⟨gone, hgone, (hmemgone _).mpr ⟨k, hk, rfl, hshard⟩⟩

/-- The first of `twoShards`, by itself. -/
def oneShard : List NodeConfig := twoShards.take 1

theorem leaving_keeps_selected_oneShard : ∃ c ∈ oneShard, ∃ selected selected',
    (ringedAfter twoShards c).pickLocalPartitions Consistent.checksumIEEE 40 (fun _ => .stored _)
      (zkPath [100] [118]) 2 1 = some selected ∧
    (ringedAfter oneShard c).pickLocalPartitions Consistent.checksumIEEE 40 (fun _ => .stored _)
      (zkPath [100] [118]) 2 1 = some selected' ∧ selected ⊆ selected' := by
  obtain ⟨c, hc⟩ : ∃ c, c ∈ oneShard := List.exists_mem_of_ne_nil _ (by decide)
  obtain ⟨selected, selected', hselected, hselected', hsub, -⟩ :=
    leaving_keeps_selected Consistent.spread_twoElements
      (fun d hd => List.mem_of_mem_take hd) (by decide) (by decide) shards_twoShards_mem hc
      (ringedConverged_ringedAfter _ twoShards c) (ringedConverged_ringedAfter _ oneShard c)
      (fun _ => .stored _) (fun _ => .stored _) (zkPath [100] [118]) 2 (le_refl 1)
      (show Consistent.numberOfReplicas * (shards twoShards).card ≤ 40 by decide)
  exact ⟨c, hc, selected, selected', hselected, hselected', hsub⟩

end

/-! ## A shared point

Two nodes that have put each other on the ring last. Each gives the shared point to the other
one, and a partition for which that is the nearest point is nobody's. -/

section

variable {hashKey : Bytes → UInt32} {p : RingedPeers} {nodes : List NodeConfig} {c : NodeConfig}

/-- A node selects what it is among the picks for. -/
theorem RingedPeers.peerSelf_mem_of_mem_pickLocalPartitions (p : RingedPeers) (fuel n r : ℕ)
    (zk : Bytes) (order : ℕ → IterOrder (Σ _ : Peer, Bool))
    (hreturns : ∀ i, (p.pick hashKey fuel (order i) (partitionId zk i) r).isSome) :
    ∃ selected, p.pickLocalPartitions hashKey fuel order zk n r = some selected ∧
      ∀ (i : ℕ) (picks : List Address), (i : ℤ) ∈ selected →
        p.pick hashKey fuel (order i) (partitionId zk i) r = some picks → peerSelf ∈ picks := by
  choose found hfound using fun i => Option.isSome_iff_exists.mp (hreturns i)
  have hfounds : ∀ i ∈ List.range n,
      (p.pick hashKey fuel (order i) (partitionId zk i) r).map (fun replicas => (i, replicas)) =
        some (i, found i) := by
    intro i _
    rw [hfound, Option.map_some]
  rw [pickLocalPartitions, GoString.mapM_of_forall hfounds, Option.map_some]
  refine ⟨_, rfl, fun i picks hi hpick => ?_⟩
  obtain rfl : picks = found i := Option.some.inj (hpick.symm.trans (hfound i))
  obtain ⟨e, he, heq⟩ := List.mem_map.mp (List.mem_toFinset.mp hi)
  obtain ⟨hmem, hany⟩ := List.mem_filter.mp he
  obtain ⟨k, -, rfl⟩ := List.mem_map.mp hmem
  obtain rfl : k = i := Int.ofNat.inj heq
  simpa using hany

/-- A node is among the picks exactly if its shard is. -/
theorem RingedPeers.peerSelf_mem_pick (hagrees : p.peers.Agrees nodes c) {fuel n : ℕ} {id : Bytes}
    {picked : List Bytes} (hgetN : p.ring.getN hashKey fuel id n = some (.ok picked))
    (order : IterOrder (Σ _ : Peer, Bool)) :
    ∃ picks, p.pick hashKey fuel order id n = some picks ∧
      (peerSelf ∈ picks → c.shard ∈ picked) := by
  rw [pick, hgetN]
  refine ⟨_, rfl, fun hself => ?_⟩
  rcases List.mem_append.mp hself with hpeer | hown
  · obtain ⟨e, he, haddress⟩ := List.mem_map.mp hpeer
    exact absurd haddress (hagrees.peers e.1 (List.mem_keys_of_mem
      (order.mem_arrange.mp (List.mem_of_mem_filter he))))
  · rw [← hagrees.shardID]
    by_contra hnot
    dsimp only at hown
    rw [if_neg fun hin => hnot (List.contains_iff_mem.mp hin)] at hown
    cases hown

/-- A node that has put the other one on its ring last leaves a shared point to it. -/
theorem unselected_of_added_last (hagrees : p.peers.Agrees nodes c) {other : Bytes}
    (hne : c.shard ≠ other) (range : SetOrder Bytes) (ringOrder : IterOrder (Σ _ : UInt32, Bytes))
    (hring : p.ring = Consistent.new.set hashKey range ringOrder [c.shard, other]) {h : UInt32}
    (hshared : h ∈ Consistent.points hashKey other) (order : ℕ → IterOrder (Σ _ : Peer, Bool))
    (zk : Bytes) (n : ℕ) {i : ℕ}
    (hnear : ∀ q ∈ Consistent.points hashKey c.shard ++ Consistent.points hashKey other,
      Consistent.distance (hashKey (partitionId zk i)) h ≤
        Consistent.distance (hashKey (partitionId zk i)) q) (fuel : ℕ) :
    ∃ selected, p.pickLocalPartitions hashKey fuel order zk n 1 = some selected ∧
      (i : ℤ) ∉ selected := by
  have hreturns : ∀ k, (p.pick hashKey fuel (order k) (partitionId zk k) 1).isSome := by
    intro k
    obtain ⟨picks, hpick, -⟩ := RingedPeers.peerSelf_mem_pick hagrees
      (hring ▸ Consistent.getN_one_set_pair range ringOrder hne fuel (partitionId zk k)) (order k)
    rw [hpick]
    rfl
  obtain ⟨selected, hselected, hself⟩ :=
    RingedPeers.peerSelf_mem_of_mem_pickLocalPartitions p fuel n 1 zk order hreturns
  obtain ⟨picks, hpick, hshard⟩ := RingedPeers.peerSelf_mem_pick hagrees
    (hring ▸ Consistent.getN_set_pair range ringOrder hne hshared hnear fuel) (order i)
  exact ⟨selected, hselected, fun hi =>
    hne (List.mem_singleton.mp (hshard (hself i picks hi hpick)))⟩

/-- A node that has read one list. -/
theorem agrees_of_update_start {listed : List NodeConfig}
    (hdistinct : (listed.map fun c => c.address).Nodup) (hc : c ∈ listed)
    {shardOrder range : SetOrder Bytes} {ringOrder : IterOrder (Σ _ : UInt32, Bytes)}
    (h : (RingedPeers.start c.shard c.address).updatePeers hashKey shardOrder range ringOrder
      (listed.map fun c => c.registration) = some p) :
    p.peers.Agrees listed c ∧ p.ring =
      Consistent.new.set hashKey range ringOrder (shardOrder.visit (shards listed)) := by
  obtain ⟨peers, hpeers, rfl⟩ := Option.map_eq_some_iff.mp h
  have hagrees : peers.Agrees listed c :=
    Converged.agrees hdistinct hc ⟨_, listed, rfl, rfl, .refl _, hpeers⟩
  refine ⟨hagrees, ?_⟩
  rw [← hagrees.ring]
  rfl

/-- **A partition that nobody selects.** Two nodes whose shards have the same name, but for a digit
before it, share a point, whatever the hash function. If each of them comes by the other one last
in the range over its shards, neither selects the partitions nearest to that point. -/
theorem shared_point_unselected {c₁ c₂ : NodeConfig} {d : ℕ} (hd : d < 10)
    (hshard : c₂.shard = (48 + d).toUInt8 :: c₁.shard) (haddress : c₁.address ≠ c₂.address)
    {o₁ o₂ : SetOrder Bytes} (ho₁ : o₁.visit (shards [c₁, c₂]) = [c₁.shard, c₂.shard])
    (ho₂ : o₂.visit (shards [c₁, c₂]) = [c₂.shard, c₁.shard]) (range : SetOrder Bytes)
    (ringOrder : IterOrder (Σ _ : UInt32, Bytes)) {p₁ p₂ : RingedPeers}
    (h₁ : (RingedPeers.start c₁.shard c₁.address).updatePeers hashKey o₁ range ringOrder
      [c₁.registration, c₂.registration] = some p₁)
    (h₂ : (RingedPeers.start c₂.shard c₂.address).updatePeers hashKey o₂ range ringOrder
      [c₁.registration, c₂.registration] = some p₂)
    (order : ℕ → IterOrder (Σ _ : Peer, Bool)) (zk : Bytes) (n : ℕ) {i : ℕ}
    (hnear : ∀ q ∈ Consistent.points hashKey c₁.shard ++ Consistent.points hashKey c₂.shard,
      Consistent.distance (hashKey (partitionId zk i))
          (hashKey (49 :: (48 + d).toUInt8 :: c₁.shard)) ≤
        Consistent.distance (hashKey (partitionId zk i)) q) (fuel : ℕ) :
    (hashKey (49 :: (48 + d).toUInt8 :: c₁.shard) ∈ Consistent.points hashKey c₁.shard ∧
      hashKey (49 :: (48 + d).toUInt8 :: c₁.shard) ∈ Consistent.points hashKey c₂.shard) ∧
    ∃ selected₁ selected₂,
      p₁.pickLocalPartitions hashKey fuel order zk n 1 = some selected₁ ∧
      p₂.pickLocalPartitions hashKey fuel order zk n 1 = some selected₂ ∧
      (i : ℤ) ∉ selected₁ ∧ (i : ℤ) ∉ selected₂ := by
  obtain ⟨hpoint₁, hpoint⟩ := Consistent.shared_point hashKey c₁.shard hd
  have hpoint₂ : hashKey (49 :: (48 + d).toUInt8 :: c₁.shard) ∈
      Consistent.points hashKey c₂.shard := by
    rw [hshard]
    exact hpoint
  have hne : c₁.shard ≠ c₂.shard := by
    rw [hshard]
    exact (List.cons_ne_self _ _).symm
  have hdistinct : ([c₁, c₂].map fun c => c.address).Nodup := by simpa using haddress
  obtain ⟨hagrees₁, hring₁⟩ := agrees_of_update_start hdistinct (by simp) h₁
  obtain ⟨hagrees₂, hring₂⟩ := agrees_of_update_start hdistinct (by simp) h₂
  rw [ho₁] at hring₁
  rw [ho₂] at hring₂
  obtain ⟨selected₁, hselected₁, hnot₁⟩ := unselected_of_added_last hagrees₁ hne range ringOrder
    hring₁ hpoint₂ order zk n hnear fuel
  obtain ⟨selected₂, hselected₂, hnot₂⟩ := unselected_of_added_last hagrees₂ hne.symm range
    ringOrder hring₂ hpoint₁ order zk n
    (fun q hq => hnear q (List.mem_append.mpr (List.mem_append.mp hq).symm)) fuel
  exact ⟨⟨hpoint₁, hpoint₂⟩, selected₁, selected₂, hselected₁, hselected₂, hnot₁, hnot₂⟩

/-- The shards `1` and `41`, on ports `1` and `2` of one host. -/
def numberedShards : NodeConfig × NodeConfig :=
  (⟨⟨[49], [104], [49]⟩, by decide⟩, ⟨⟨[52, 49], [104], [50]⟩, by decide⟩)

/-- What such a node knows once it has read the list, with its shards in the given order. -/
def numberedAfter (shardOrder : SetOrder Bytes) (c : NodeConfig) : RingedPeers :=
  ((RingedPeers.start c.shard c.address).updatePeers Consistent.checksumIEEE shardOrder
    (SetOrder.ascending Bytes) (IterOrder.stored _)
    ([numberedShards.1, numberedShards.2].map fun c => c.registration)).getD
      (RingedPeers.start c.shard c.address)

theorem shared_point_unselected_numbered : ∃ selected₁ selected₂,
    (numberedAfter (.ascending Bytes) numberedShards.1).pickLocalPartitions
      Consistent.checksumIEEE 0 (fun _ => .stored _) (zkPath [100] [118]) 2 1 = some selected₁ ∧
    (numberedAfter (SetOrder.ascending Bytes).reverse numberedShards.2).pickLocalPartitions
      Consistent.checksumIEEE 0 (fun _ => .stored _) (zkPath [100] [118]) 2 1 = some selected₂ ∧
    (1 : ℤ) ∉ selected₁ ∧ (1 : ℤ) ∉ selected₂ := by
  have hupdate : ∀ (shardOrder : SetOrder Bytes) (c : NodeConfig),
      (RingedPeers.start c.shard c.address).updatePeers Consistent.checksumIEEE shardOrder
        (SetOrder.ascending Bytes) (IterOrder.stored _)
        ([numberedShards.1, numberedShards.2].map fun c => c.registration) =
          some (numberedAfter shardOrder c) := by
    intro shardOrder c
    rw [numberedAfter, RingedPeers.updatePeers, Peers.updatePeers, mapM_cut_registration]
    rfl
  -- the point of both is the nearest one to the second partition
  have hall : ((Consistent.points Consistent.checksumIEEE [49] ++
      Consistent.points Consistent.checksumIEEE [52, 49]).all fun q =>
        decide (Consistent.distance (Consistent.checksumIEEE (partitionId (zkPath [100] [118]) 1))
            (Consistent.checksumIEEE [49, 52, 49]) ≤
          Consistent.distance (Consistent.checksumIEEE (partitionId (zkPath [100] [118]) 1)) q)) =
        true := by decide +kernel
  exact (shared_point_unselected (d := 4) (i := 1) (by decide) rfl (by decide) (by decide) (by decide)
    (SetOrder.ascending Bytes) (IterOrder.stored _) (hupdate _ _) (hupdate _ _)
    (fun _ => .stored _) (zkPath [100] [118]) 2
    (fun q hq => of_decide_eq_true (List.all_eq_true.mp hall q hq)) 0).2

end

end Sequins
