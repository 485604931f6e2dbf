import Sequins.Partitions
import Sequins.GoMap
import Sequins.GoPath

/-!
# Who holds which partition

`peers.go` and `pickLocalPartitions`. Every node computes its share offline: it puts the shards
of all nodes it knows on a hash ring, and takes a partition if its own shard is among those
the ring picks for it. It treats itself specially on the way: its own registration is passed
over by address, its shard is added by hand, and among the picks it appears as `(self)`.

A cluster has converged when every node has processed the full list of registrations, each in
the order it happened to get it. Then all rings have the same members, so the nodes agree
without having talked to each other (`converged_cluster_covers`).

The ring is a library (`Ring`); what is assumed of it stands in its fields.
-/

namespace Sequins

/-! ## Peers

`updatePeers` makes the ring and the map of peers anew from a list of registrations. Its own is
known by the address, and the node's shard is on the ring even if nobody is registered. -/

/-- `peerSelf`, which is `(self)`. -/
def peerSelf : Address := [40, 115, 101, 108, 102, 41]

/-- `net.JoinHostPort`: an address with a colon or a percent sign is put in brackets. -/
def joinHostPort (host port : Bytes) : Address :=
  if 58 ∈ host ∨ 37 ∈ host then 91 :: host ++ 93 :: 58 :: port else host ++ 58 :: port

/-- `peer`. -/
structure Peer where
  /-- `shardID` -/
  shardID : Bytes
  /-- `address` -/
  address : Address
  deriving DecidableEq, Repr

/-- `consistent.Consistent`: what `GetN` makes of the members, a key and a number. -/
structure Ring where
  /-- `GetN` -/
  getN : Finset Bytes → Bytes → ℕ → List Bytes
  /-- it picks members -/
  mem : ∀ members key n, ∀ shard ∈ getN members key n, shard ∈ members
  /-- each of them once -/
  nodup : ∀ members key n, (getN members key n).Nodup
  /-- as many as were asked for, if there are so many -/
  length : ∀ members key n, members.Nonempty → 1 ≤ n →
    (getN members key n).length = min n members.card

/-- `peers`. -/
structure Peers where
  /-- `shardID` -/
  shardID : Bytes
  /-- `address` -/
  address : Address
  /-- `peers` -/
  peers : AList fun _ : Peer => Bool
  /-- the members of `ring` -/
  ring : Finset Bytes

namespace Peers

/-- `updatePeers`; `none` is an index out of range. -/
def updatePeers (p : Peers) (addrs : List Bytes) : Option Peers :=
  (addrs.mapM (GoString.cut 64)).map fun entries =>
    let others := entries.filter fun e => decide (e.2 ≠ p.address)
    { p with
      peers := others.foldl (fun newPeers e => newPeers.insert ⟨e.1, e.2⟩ true) ∅
      ring := insert p.shardID (others.foldl (fun shards e => insert e.1 shards) ∅) }

/-- `pick`. -/
def pick (ring : Ring) (p : Peers) (order : IterOrder (Σ _ : Peer, Bool)) (partitionId : Bytes)
    (n : ℕ) : List Address :=
  let shards := ring.getN p.ring partitionId n
  ((order.arrange p.peers.entries).filter fun e => decide (e.1.shardID ∈ shards)).map
      (fun e => e.1.address) ++
    if p.shardID ∈ shards then [peerSelf] else []

end Peers

/-- `zkPath`. -/
def zkPath (db version : Bytes) : Bytes :=
  GoPath.join [[112, 97, 114, 116, 105, 116, 105, 111, 110, 115], db, version]

/-- `partitionId`. -/
def partitionId (zkPath : Bytes) (partition : ℕ) : Bytes :=
  zkPath ++ 58 :: GoString.padded 5 partition

/-- `pickLocalPartitions`. The order is that of the map of peers, in each call of `pick`. -/
def pickLocalPartitions (ring : Ring) (peers : Option Peers)
    (order : ℕ → IterOrder (Σ _ : Peer, Bool)) (zkPath : Bytes) (numPartitions replication : ℕ) :
    Finset ℤ :=
  match peers with
  | none => ((List.range numPartitions).map Int.ofNat).toFinset
  | some p =>
    (((List.range numPartitions).filter fun i =>
      (p.pick ring (order i) (partitionId zkPath i) replication).any
        fun replica => decide (replica = peerSelf)).map Int.ofNat).toFinset

/-! ## A cluster -/

/-- What the configuration of a node says about its place in a cluster. -/
structure ShardConfig where
  /-- `shard_id` -/
  shardID : Bytes
  /-- `advertised_hostname`, or the name of the host -/
  hostname : Bytes
  /-- the port of `bind` -/
  port : Bytes

namespace ShardConfig

/-- `routableAddress`. -/
def address (c : ShardConfig) : Address := joinHostPort c.hostname c.port

/-- The shard that `initCluster` hands to `watchPeers`. -/
def shard (c : ShardConfig) : Bytes := if c.shardID = [] then c.address else c.shardID

/-- What `watchPeers` formats: `%s@%s`. -/
def registration (c : ShardConfig) : Bytes := c.shard ++ 64 :: c.address

end ShardConfig

/-- A node whose registration can be read. -/
structure NodeConfig extends ShardConfig where
  /-- the separator does not occur in the shard -/
  shard_ok : 64 ∉ toShardConfig.shard

/-- The shards of a cluster. -/
def shards (nodes : List NodeConfig) : Finset Bytes := (nodes.map fun c => c.shard).toFinset

/-- A node that has processed the full list of registrations, in some order. -/
def Converged (nodes : List NodeConfig) (c : NodeConfig) (p : Peers) : Prop :=
  ∃ (before : Peers) (listed : List NodeConfig), before.shardID = c.shard ∧
    before.address = c.address ∧ listed.Perm nodes ∧
    before.updatePeers (listed.map fun c => c.registration) = some p

/-! ## Agreement

The ring of a converged node has the shards of all nodes, its own among them, whatever the order
of the list. So `GetN` picks the same shards everywhere, and the nodes of a picked shard, which
take themselves for `(self)`, are the ones to select the partition. -/

/-- An address has a colon. -/
theorem colon_mem_joinHostPort (host port : Bytes) : 58 ∈ joinHostPort host port := by
  rw [joinHostPort]
  split <;> simp

/-- The name that stands for the node itself is nobody's address, since it has no colon. -/
theorem ShardConfig.address_ne_peerSelf (c : ShardConfig) : c.address ≠ peerSelf := by
  intro h
  have hcolon := colon_mem_joinHostPort c.hostname c.port
  rw [← ShardConfig.address, h] at hcolon
  exact absurd hcolon (by decide)

/-- All registrations of a cluster can be parted. -/
theorem mapM_cut_registration (listed : List NodeConfig) :
    (listed.map fun c => c.registration).mapM (GoString.cut 64) =
      some (listed.map fun c => (c.shard, c.address)) := by
  rw [List.mapM_map]
  exact GoString.mapM_of_forall fun c _ => GoString.cut_append c.shard_ok c.address

/-- The two loops of `updatePeers` collect the shards and the peers. -/
theorem mem_foldl_shards (others : List (Bytes × Address)) (start : Finset Bytes) (shard : Bytes) :
    shard ∈ others.foldl (fun shards e => insert e.1 shards) start ↔
      shard ∈ start ∨ ∃ e ∈ others, e.1 = shard := by
  induction others generalizing start with
  | nil => simp
  | cons e others ih =>
    rw [List.foldl_cons, ih, Finset.mem_insert, List.exists_mem_cons_iff]
    tauto

theorem mem_foldl_peers (others : List (Bytes × Address)) (start : AList fun _ : Peer => Bool)
    (peer : Peer) :
    peer ∈ others.foldl (fun newPeers e => newPeers.insert ⟨e.1, e.2⟩ true) start ↔
      peer ∈ start ∨ ∃ e ∈ others, ⟨e.1, e.2⟩ = peer := by
  induction others generalizing start with
  | nil => simp
  | cons e others ih =>
    rw [List.foldl_cons, ih, AList.mem_insert, List.exists_mem_cons_iff, eq_comm (a := peer)]
    tauto

/-- What `updatePeers` makes of names that can be parted. -/
theorem Peers.updatePeers_spec {p : Peers} {addrs : List Bytes} {read : Bytes → Bytes × Address}
    (hread : ∀ addr ∈ addrs, GoString.cut 64 addr = some (read addr)) :
    ∃ p', p.updatePeers addrs = some p' ∧ p'.shardID = p.shardID ∧
      (∀ peer, peer ∈ p'.peers ↔ ∃ addr ∈ addrs, (read addr).2 ≠ p.address ∧
        ⟨(read addr).1, (read addr).2⟩ = peer) ∧
      ∀ shard, shard ∈ p'.ring ↔ shard = p.shardID ∨ ∃ addr ∈ addrs,
        (read addr).2 ≠ p.address ∧ (read addr).1 = shard := by
  have hothers : ∀ e, e ∈ (addrs.map read).filter (fun e => decide (e.2 ≠ p.address)) ↔
      ∃ addr ∈ addrs, (read addr).2 ≠ p.address ∧ read addr = e := by
    intro e
    rw [List.mem_filter, List.mem_map, decide_eq_true_eq]
    constructor
    · rintro ⟨⟨addr, haddr, rfl⟩, hne⟩
      exact ⟨addr, haddr, hne, rfl⟩
    · rintro ⟨addr, haddr, hne, rfl⟩
      exact ⟨⟨addr, haddr, rfl⟩, hne⟩
  rw [updatePeers, GoString.mapM_of_forall hread, Option.map_some]
  refine ⟨_, rfl, rfl, fun peer => ?_, fun shard => ?_⟩
  · dsimp only
    rw [mem_foldl_peers, or_iff_right (AList.notMem_empty _)]
    simp only [hothers]
    constructor
    · rintro ⟨e, ⟨addr, haddr, hne, rfl⟩, rfl⟩
      exact ⟨addr, haddr, hne, rfl⟩
    · rintro ⟨addr, haddr, hne, rfl⟩
      exact ⟨_, ⟨addr, haddr, hne, rfl⟩, rfl⟩
  · dsimp only
    rw [Finset.mem_insert, mem_foldl_shards, or_iff_right (Finset.notMem_empty _)]
    simp only [hothers]
    refine or_congr Iff.rfl ⟨?_, ?_⟩
    · rintro ⟨e, ⟨addr, haddr, hne, rfl⟩, rfl⟩
      exact ⟨addr, haddr, hne, rfl⟩
    · rintro ⟨addr, haddr, hne, rfl⟩
      exact ⟨_, ⟨addr, haddr, hne, rfl⟩, rfl⟩

/-- What a converged node knows: the shards of all nodes, and no peer by the name of `(self)`. -/
structure Peers.Agrees (nodes : List NodeConfig) (c : NodeConfig) (p : Peers) : Prop where
  /-- its own shard -/
  shardID : p.shardID = c.shard
  /-- the ring has all shards -/
  ring : p.ring = shards nodes
  /-- no peer is taken for this node -/
  peers : ∀ peer ∈ p.peers, peer.address ≠ peerSelf

theorem mem_shards {nodes : List NodeConfig} {shard : Bytes} :
    shard ∈ shards nodes ↔ ∃ c ∈ nodes, c.shard = shard := by
  simp [shards]

/-- **Whoever has read the full list knows all shards.** -/
theorem Converged.agrees {nodes : List NodeConfig}
    (hdistinct : (nodes.map fun c => c.address).Nodup) {c : NodeConfig} (hc : c ∈ nodes) {p : Peers}
    (h : Converged nodes c p) : p.Agrees nodes c := by
  obtain ⟨before, listed, hshard, haddress, hperm, hupdate⟩ := h
  have hcut : ∀ d : NodeConfig, GoString.cut 64 d.registration = some (d.shard, d.address) :=
    fun d => GoString.cut_append d.shard_ok d.address
  have hread : ∀ addr ∈ listed.map fun c => c.registration,
      GoString.cut 64 addr = some ((GoString.cut 64 addr).getD ([], [])) := by
    intro addr haddr
    obtain ⟨d, -, rfl⟩ := List.mem_map.mp haddr
    rw [hcut, Option.getD_some]
  obtain ⟨p', hupdate', hshard', hpeers, hring⟩ := Peers.updatePeers_spec (p := before) hread
  obtain rfl : p = p' := Option.some.inj (hupdate.symm.trans hupdate')
  refine ⟨hshard'.trans hshard, ?_, fun peer hpeer => ?_⟩
  · ext shard
    rw [hring, hshard, haddress, mem_shards]
    constructor
    · rintro (rfl | ⟨addr, haddr, -, rfl⟩)
      · exact ⟨c, hc, rfl⟩
      · obtain ⟨d, hd, rfl⟩ := List.mem_map.mp haddr
        exact ⟨d, hperm.mem_iff.mp hd, by rw [hcut, Option.getD_some]⟩
    · rintro ⟨d, hd, rfl⟩
      by_cases hsame : d.address = c.address
      · obtain rfl := List.inj_on_of_nodup_map hdistinct hd hc hsame
        exact .inl rfl
      · refine .inr ⟨d.registration, List.mem_map_of_mem (hperm.mem_iff.mpr hd), ?_⟩
        rw [hcut, Option.getD_some]
        exact ⟨hsame, rfl⟩
  · obtain ⟨addr, haddr, -, rfl⟩ := (hpeers peer).mp hpeer
    obtain ⟨d, -, rfl⟩ := List.mem_map.mp haddr
    rw [hcut, Option.getD_some]
    exact d.address_ne_peerSelf

/-- A node finds itself among the picks exactly if the ring picks its shard. -/
theorem Peers.Agrees.peerSelf_mem_pick {nodes : List NodeConfig} {c : NodeConfig} {p : Peers}
    (h : p.Agrees nodes c) (ring : Ring) (order : IterOrder (Σ _ : Peer, Bool)) (key : Bytes)
    (n : ℕ) : peerSelf ∈ p.pick ring order key n ↔ c.shard ∈ ring.getN (shards nodes) key n := by
  rw [Peers.pick, List.mem_append, h.ring, h.shardID]
  constructor
  · rintro (hpeer | hself)
    · obtain ⟨e, he, haddress⟩ := List.mem_map.mp hpeer
      have hmem : e.1 ∈ p.peers :=
        List.mem_keys_of_mem (order.mem_arrange.mp (List.mem_of_mem_filter he))
      exact absurd haddress (h.peers e.1 hmem)
    · split at hself
      · assumption
      · cases hself
  · intro hpicked
    rw [if_pos hpicked]
    exact .inr (List.mem_singleton_self _)

/-- What a node selects, in terms of the ring. -/
theorem Peers.Agrees.mem_pickLocalPartitions {nodes : List NodeConfig} {c : NodeConfig} {p : Peers}
    (h : p.Agrees nodes c) (ring : Ring) (order : ℕ → IterOrder (Σ _ : Peer, Bool)) (zk : Bytes)
    (n r : ℕ) (i : ℤ) :
    i ∈ pickLocalPartitions ring (some p) order zk n r ↔ ∃ k < n, (k : ℤ) = i ∧
      c.shard ∈ ring.getN (shards nodes) (partitionId zk k) r := by
  simp only [pickLocalPartitions, List.mem_toFinset, List.mem_map, List.mem_filter, List.mem_range,
    List.any_eq_true, decide_eq_true_eq, exists_eq_right, h.peerSelf_mem_pick]
  constructor
  · rintro ⟨k, ⟨hk, hpicked⟩, rfl⟩
    exact ⟨k, hk, rfl, hpicked⟩
  · rintro ⟨k, hk, rfl, hpicked⟩
    exact ⟨k, ⟨hk, hpicked⟩, rfl⟩

/-- **A converged cluster covers every partition.** The nodes that select a partition are those
of the shards the ring picks for it, which are `min r` of all the shards; so some node selects
it, and nodes of one shard select the same. -/
theorem converged_cluster_covers (ring : Ring) {nodes : List NodeConfig} (hne : nodes ≠ [])
    (hdistinct : (nodes.map fun c => c.address).Nodup) {r : ℕ} (hr : 1 ≤ r) (db version : Bytes)
    (n : ℕ) (peers : NodeConfig → Peers) (hconverged : ∀ c ∈ nodes, Converged nodes c (peers c))
    (order : NodeConfig → ℕ → IterOrder (Σ _ : Peer, Bool)) (selected : NodeConfig → Finset ℤ)
    (hselected : ∀ c, selected c =
      pickLocalPartitions ring (some (peers c)) (order c) (zkPath db version) n r) :
    (∀ i : ℕ, i < n → ∃ picked : Finset Bytes,
      picked = (ring.getN (shards nodes) (partitionId (zkPath db version) i) r).toFinset ∧
      (∀ c ∈ nodes, (i : ℤ) ∈ selected c ↔ c.shard ∈ picked) ∧
      picked ⊆ shards nodes ∧ picked.card = min r (shards nodes).card ∧
      ∃ c ∈ nodes, (i : ℤ) ∈ selected c) ∧
    ∀ c ∈ nodes, ∀ d ∈ nodes, c.shard = d.shard → selected c = selected d := by
  have hmem : ∀ c ∈ nodes, ∀ i : ℤ, i ∈ selected c ↔ ∃ k < n, (k : ℤ) = i ∧
      c.shard ∈ ring.getN (shards nodes) (partitionId (zkPath db version) k) r := by
    intro c hc i
    rw [hselected]
    exact ((hconverged c hc).agrees hdistinct hc).mem_pickLocalPartitions ..
  refine ⟨fun i hi => ?_, fun c hc d hd hsame => ?_⟩
  · have hcard : (ring.getN (shards nodes) (partitionId (zkPath db version) i) r).toFinset.card =
        min r (shards nodes).card := by
      obtain ⟨c, hc⟩ := List.exists_mem_of_ne_nil nodes hne
      rw [List.toFinset_card_of_nodup (ring.nodup ..)]
      exact ring.length _ _ _ ⟨c.shard, mem_shards.mpr ⟨c, hc, rfl⟩⟩ hr
    have hsubset : (ring.getN (shards nodes) (partitionId (zkPath db version) i) r).toFinset ⊆
        shards nodes := fun shard hshard => ring.mem _ _ _ _ (List.mem_toFinset.mp hshard)
    have hiff : ∀ c ∈ nodes, (i : ℤ) ∈ selected c ↔
        c.shard ∈ (ring.getN (shards nodes) (partitionId (zkPath db version) i) r).toFinset := by
      intro c hc
      rw [hmem c hc, List.mem_toFinset]
      constructor
      · rintro ⟨k, -, hk, hpicked⟩
        obtain rfl := Int.ofNat.inj hk
        exact hpicked
      · exact fun hpicked => ⟨i, hi, rfl, hpicked⟩
    refine ⟨_, rfl, hiff, hsubset, hcard, ?_⟩
    -- at least one shard is picked, and it has a node
    have hpos : 0 < (shards nodes).card := by
      obtain ⟨c, hc⟩ := List.exists_mem_of_ne_nil nodes hne
      exact Finset.card_pos.mpr ⟨c.shard, mem_shards.mpr ⟨c, hc, rfl⟩⟩
    obtain ⟨shard, hshard⟩ := Finset.card_pos.mp (hcard ▸ lt_min hr hpos)
    obtain ⟨c, hc, rfl⟩ := mem_shards.mp (hsubset hshard)
    exact ⟨c, hc, (hiff c hc).mpr hshard⟩
  · ext i
    rw [hmem c hc, hmem d hd, hsame]

/-- A ring that takes the members in an order that depends on the key. -/
def orderedRing (order : Bytes → SetOrder Bytes) : Ring where
  getN := fun members key n => ((order key).visit members).take n
  mem := fun members key _ _ h => ((order key).mem_visit _ _).mp (List.mem_of_mem_take h)
  nodup := fun members key _ => ((order key).nodup members).sublist (List.take_sublist _ _)
  length := fun members key _ _ _ => by
    have hvisit : ((order key).visit members).toFinset = members := by
      ext shard
      rw [List.mem_toFinset, (order key).mem_visit]
    rw [List.length_take, ← List.toFinset_card_of_nodup ((order key).nodup members), hvisit]

/-- A ring that answers for two partitions as `consistent` does, with the shards `a` and `b`. -/
def twoShardsRing : Ring := orderedRing fun key =>
  if key.getLast? = some 49 then (SetOrder.ascending Bytes).reverse else SetOrder.ascending Bytes

/-- Two nodes of different shards, on ports `1` and `2` of one host. -/
def twoShards : List NodeConfig :=
  [⟨⟨[97], [104], [49]⟩, by decide⟩, ⟨⟨[98], [104], [50]⟩, by decide⟩]

/-- Each of them has read the list. -/
def twoShardsPeers (c : NodeConfig) : Peers :=
  ((⟨c.shard, c.address, ∅, ∅⟩ : Peers).updatePeers (twoShards.map fun c => c.registration)).getD
    ⟨c.shard, c.address, ∅, ∅⟩

/-- Partition `1` is on shard `b`, and the node of that shard selects it. -/
theorem converged_cluster_covers_twoShards :
    ∃ c ∈ twoShards, c.shard = [98] ∧ (1 : ℤ) ∈ pickLocalPartitions twoShardsRing
      (some (twoShardsPeers c)) (fun _ => .stored _) (zkPath [100] [118]) 2 1 := by
  have hconverged : ∀ c ∈ twoShards, Converged twoShards c (twoShardsPeers c) := by
    intro c hc
    refine ⟨⟨c.shard, c.address, ∅, ∅⟩, twoShards, rfl, rfl, List.Perm.refl _, ?_⟩
    rw [twoShardsPeers, Peers.updatePeers, mapM_cut_registration]
    rfl
  obtain ⟨picked, hpicked, hselects, -, -, c, hc, hcovered⟩ :=
    (converged_cluster_covers twoShardsRing (by decide) (by decide) (le_refl 1) [100] [118] 2
      twoShardsPeers hconverged (fun _ _ => .stored _) _ fun _ => rfl).1 1 (by decide)
  have hb : picked = {[98]} := hpicked.trans (by decide)
  refine ⟨c, hc, ?_, hcovered⟩
  simpa [hb] using (hselects c hc).mp hcovered

end Sequins
