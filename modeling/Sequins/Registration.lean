import Sequins.Peers

/-!
# Registrations of nodes

A node registers with a znode whose name is its shard and its address, with an `@` between
(`watchPeers`), and every node reads the names of all registrations (`updatePeers`). The shard is
what the configuration says, and nobody looks whether it contains the separator. If it does, the
name is parted in the wrong place: the node does not recognise itself, and a shard that nobody
has is on the ring (`shard_with_separator`). Otherwise what is read is what was configured, unless
two shards have one address: then a node that passes over its own address passes over the other
shard as well, which is missing on its ring if nobody else has it (`registrations_decoded_iff`).
-/

namespace Sequins

/-- There are no slashes in a configuration. -/
structure ShardConfig.SlashFree (c : ShardConfig) : Prop where
  /-- not in `shard_id` -/
  shardID : 47 ∉ c.shardID
  /-- not in the name of the host -/
  hostname : 47 ∉ c.hostname
  /-- not in the port -/
  port : 47 ∉ c.port

/-- The znode below which nodes register, `nodes`. -/
def nodesPath : Bytes := [110, 111, 100, 101, 115]

/-- The prefix of the znodes of a cluster, with `coordinationVersion` at its end. -/
def clusterPrefix (clusterName : Bytes) : Bytes :=
  GoPath.join [GoPath.join [[47], clusterName], [118, 49]]

namespace ShardConfig

/-- The znode that `watchPeers` creates. -/
def znode (c : ShardConfig) : Bytes := GoPath.join [nodesPath, c.registration]

theorem SlashFree.address {c : ShardConfig} (h : c.SlashFree) : 47 ∉ c.address := by
  have hhost := h.hostname
  have hport := h.port
  rw [ShardConfig.address, joinHostPort]
  split
  · simp [hhost, hport]
  · simp [hhost, hport]

/-- A registration is a single name. -/
theorem SlashFree.registration {c : ShardConfig} (h : c.SlashFree) : 47 ∉ c.registration := by
  have hshard : 47 ∉ c.shard := by
    rw [shard]
    split
    · exact h.address
    · exact h.shardID
  rw [ShardConfig.registration, List.mem_append, List.mem_cons, not_or, not_or]
  exact ⟨hshard, by decide, h.address⟩

theorem proper_registration (c : ShardConfig) : GoPath.Proper c.registration := by
  have hmem : 64 ∈ c.registration := List.mem_append_right _ (List.mem_cons_self ..)
  refine ⟨?_, ?_, ?_⟩
  all_goals
    intro h
    rw [h] at hmem
    exact absurd hmem (by decide)

end ShardConfig

/-! ## The znode

The name is joined to the prefix of the cluster, with `path.Join`. A slash in it would make two
znodes of one. -/

theorem named_clusterPrefix (clusterName : Bytes) :
    GoPath.Named (clusterPrefix clusterName) := by
  obtain ⟨rooted, parts, hjoin⟩ := GoPath.exists_join_name [GoPath.join [[47], clusterName]]
  have hjoined : clusterPrefix clusterName = GoPath.dirOf rooted parts ++ [118, 49] :=
    hjoin [118, 49] (by decide) (by decide)
  have hlen : 2 ≤ (clusterPrefix clusterName).length := by
    rw [hjoined, List.length_append]
    exact Nat.le_add_left _ _
  refine ⟨?_, ?_, ?_⟩
  all_goals
    intro h
    rw [h] at hlen
    exact absurd hlen (by decide)

/-- The path of a znode below the prefix. -/
theorem join_clusterPrefix (clusterName : Bytes) {p : Bytes} :
    GoPath.join [clusterPrefix clusterName, p] =
      GoPath.clean (clusterPrefix clusterName ++ 47 :: p) := by
  have hne := (named_clusterPrefix clusterName).1
  rw [GoPath.join, List.dropWhile_cons_of_neg (by simpa using hne)]
  simp

/-- **The znode of a registration** is the one of its name, below the znode that is watched. -/
theorem join_znode (clusterName : Bytes) {c : ShardConfig} (hslash : c.SlashFree) :
    GoPath.join [clusterPrefix clusterName, c.znode] =
      GoPath.join [clusterPrefix clusterName, nodesPath] ++ 47 :: c.registration := by
  have hroot := named_clusterPrefix clusterName
  have hclean : GoPath.clean (clusterPrefix clusterName) = clusterPrefix clusterName :=
    GoPath.clean_join hroot.1
  have hnodes : GoPath.clean (clusterPrefix clusterName ++ 47 :: nodesPath) =
      clusterPrefix clusterName ++ 47 :: nodesPath := by
    rw [GoPath.clean_append_slash hroot.1 (by decide) (by decide) (by rwa [hclean]), hclean]
  have hnamed : GoPath.Named (GoPath.join [nodesPath]) := by decide
  have hznode : c.znode = nodesPath ++ 47 :: c.registration :=
    GoPath.join_concat c.proper_registration hslash.registration hnamed
  calc
    GoPath.join [clusterPrefix clusterName, c.znode]
      = GoPath.clean (clusterPrefix clusterName ++ 47 :: nodesPath ++ 47 :: c.registration) := by
        rw [join_clusterPrefix, hznode, List.append_assoc, List.cons_append]
    _ = clusterPrefix clusterName ++ 47 :: nodesPath ++ 47 :: c.registration := by
        rw [GoPath.clean_append_slash (by simp) c.proper_registration
          hslash.registration, hnodes]
        rw [hnodes]
        exact GoPath.named_append_slash (by decide)
    _ = GoPath.join [clusterPrefix clusterName, nodesPath] ++ 47 :: c.registration := by
        rw [join_clusterPrefix, hnodes]

/-! ## Reading it -/

/-- A registration is read as it was written exactly if the shard does not contain the
separator. -/
theorem ShardConfig.cut_registration_iff (c : ShardConfig) :
    GoString.cut 64 c.registration = some (c.shard, c.address) ↔ 64 ∉ c.shard :=
  GoString.cut_append_iff

/-- What a list of names that can be read makes of the peers: the node's own are passed over, and
its shard is added. -/
theorem updatePeers_registrations {nodes : List ShardConfig} (hseparator : ∀ d ∈ nodes, 64 ∉ d.shard)
    {children : List Bytes} (hchildren : ∀ name, name ∈ children ↔ ∃ d ∈ nodes, d.registration = name)
    (p : Peers) : ∃ p', p.updatePeers children = some p' ∧
      (∀ peer, peer ∈ p'.peers ↔ ∃ d ∈ nodes, d.address ≠ p.address ∧ ⟨d.shard, d.address⟩ = peer) ∧
      ∀ shard, shard ∈ p'.ring ↔
        shard = p.shardID ∨ ∃ d ∈ nodes, d.address ≠ p.address ∧ d.shard = shard := by
  have hcut : ∀ d ∈ nodes, GoString.cut 64 d.registration = some (d.shard, d.address) :=
    fun d hd => d.cut_registration_iff.mpr (hseparator d hd)
  have hread : ∀ name ∈ children,
      GoString.cut 64 name = some ((GoString.cut 64 name).getD ([], [])) := by
    intro name hname
    obtain ⟨d, hd, rfl⟩ := (hchildren name).mp hname
    rw [hcut d hd, Option.getD_some]
  -- what is true of the name of some registration is true of some node
  have hexists : ∀ q : Bytes × Address → Prop,
      (∃ name ∈ children, q ((GoString.cut 64 name).getD ([], []))) ↔
        ∃ d ∈ nodes, q (d.shard, d.address) := by
    intro q
    constructor
    · rintro ⟨name, hname, hq⟩
      obtain ⟨d, hd, rfl⟩ := (hchildren name).mp hname
      rw [hcut d hd] at hq
      exact ⟨d, hd, hq⟩
    · rintro ⟨d, hd, hq⟩
      refine ⟨d.registration, (hchildren _).mpr ⟨d, hd, rfl⟩, ?_⟩
      rwa [hcut d hd]
  obtain ⟨p', hupdate, -, hpeers, hring⟩ := Peers.updatePeers_spec (p := p) hread
  refine ⟨p', hupdate, fun peer => ?_, fun shard => ?_⟩
  · rw [hpeers, hexists fun e => e.2 ≠ p.address ∧ ⟨e.1, e.2⟩ = peer]
  · rw [hring, hexists fun e => e.2 ≠ p.address ∧ e.1 = shard]

/-- **Registrations are decoded to what was configured**, exactly if no shard contains the separator
and every shard of an address is on a ring beside it: of two nodes with one address, the shard of
the one is that of the other or of some node elsewhere. Decoded means: on every node of a cluster,
once it has processed the names below the watched znode, each is read as the shard and the address
of the node that created it, the node's own are passed over and all others are peers, and the
ring has the shards of the cluster. -/
theorem registrations_decoded_iff (clusterName : Bytes) {nodes : List ShardConfig}
    (hslash : ∀ d ∈ nodes, d.SlashFree) {children : List Bytes}
    (hchildren : ∀ name, name ∈ children ↔ ∃ d ∈ nodes,
      GoPath.join [clusterPrefix clusterName, d.znode] =
        GoPath.join [clusterPrefix clusterName, nodesPath] ++ 47 :: name) :
    ((∀ d ∈ nodes, ∃ name ∈ children, GoPath.join [clusterPrefix clusterName, d.znode] =
        GoPath.join [clusterPrefix clusterName, nodesPath] ++ 47 :: name ∧
      GoString.cut 64 name = some (d.shard, d.address)) ∧
    ∀ c ∈ nodes, ∀ p : Peers, p.shardID = c.shard → p.address = c.address →
      ∃ p', p.updatePeers children = some p' ∧
        (∀ peer, peer ∈ p'.peers ↔ ∃ d ∈ nodes, d.address ≠ c.address ∧
          ⟨d.shard, d.address⟩ = peer) ∧
        p'.ring = (nodes.map ShardConfig.shard).toFinset) ↔
    (∀ d ∈ nodes, 64 ∉ d.shard) ∧
      ∀ c ∈ nodes, ∀ d ∈ nodes, d.address = c.address →
        d.shard = c.shard ∨ ∃ e ∈ nodes, e.address ≠ c.address ∧ e.shard = d.shard := by
  have hmem : ∀ name, name ∈ children ↔ ∃ d ∈ nodes, d.registration = name := by
    intro name
    rw [hchildren]
    refine exists_congr fun d => and_congr_right fun hd => ?_
    rw [join_znode clusterName (hslash d hd), List.append_cancel_left_eq, List.cons.injEq]
    exact and_iff_right rfl
  constructor
  · rintro ⟨hcut, hupdate⟩
    have hseparator : ∀ d ∈ nodes, 64 ∉ d.shard := by
      intro d hd
      obtain ⟨name, -, hname, hread⟩ := hcut d hd
      rw [join_znode clusterName (hslash d hd), List.append_cancel_left_eq, List.cons.injEq] at hname
      rw [← hname.2] at hread
      exact d.cut_registration_iff.mp hread
    refine ⟨hseparator, fun c hc d hd _ => ?_⟩
    obtain ⟨p', hp', -, hring⟩ := hupdate c hc ⟨c.shard, c.address, ∅, ∅⟩ rfl rfl
    obtain ⟨p'', hp'', -, hshards⟩ :=
      updatePeers_registrations hseparator hmem ⟨c.shard, c.address, ∅, ∅⟩
    obtain rfl := Option.some.inj (hp'.symm.trans hp'')
    exact (hshards d.shard).mp (hring ▸ List.mem_toFinset.mpr (List.mem_map_of_mem hd))
  · rintro ⟨hseparator, hsame⟩
    refine ⟨fun d hd => ⟨d.registration, (hmem _).mpr ⟨d, hd, rfl⟩, join_znode _ (hslash d hd),
      d.cut_registration_iff.mpr (hseparator d hd)⟩, fun c hc p hp hp' => ?_⟩
    obtain ⟨p', hupdate, hpeers, hshards⟩ := updatePeers_registrations hseparator hmem p
    rw [hp'] at hpeers hshards
    refine ⟨p', hupdate, hpeers, ?_⟩
    ext shard
    rw [hshards, hp, List.mem_toFinset, List.mem_map]
    constructor
    · rintro (rfl | ⟨d, hd, -, rfl⟩)
      · exact ⟨c, hc, rfl⟩
      · exact ⟨d, hd, rfl⟩
    · rintro ⟨d, hd, rfl⟩
      by_cases haddress : d.address = c.address
      · exact hsame c hc d hd haddress
      · exact .inr ⟨d, hd, haddress, rfl⟩

/-- A node of shard `a` and one that is its own shard, on ports `1` and `2` of one host, and
registrations of shards `a` and `b` with the address of port `3`, where `b` is on port `4` as well. -/
def sharedAddress : List ShardConfig :=
  [⟨[97], [104], [49]⟩, ⟨[], [104], [50]⟩, ⟨[97], [104], [51]⟩, ⟨[98], [104], [51]⟩,
    ⟨[98], [104], [52]⟩]

theorem registrations_decoded_sharedAddress :
    ∃ p', (⟨[97], [104, 58, 51], ∅, ∅⟩ : Peers).updatePeers
        (sharedAddress.map ShardConfig.registration) = some p' ∧
      p'.ring = {[97], [104, 58, 50], [98]} := by
  have hslash : ∀ d ∈ sharedAddress, d.SlashFree := by
    intro d hd
    simp only [sharedAddress, List.mem_cons, List.not_mem_nil, or_false] at hd
    obtain rfl | rfl | rfl | rfl | rfl := hd <;> exact ⟨by decide, by decide, by decide⟩
  have hchildren : ∀ name, name ∈ sharedAddress.map ShardConfig.registration ↔
      ∃ d ∈ sharedAddress, GoPath.join [clusterPrefix [115], d.znode] =
        GoPath.join [clusterPrefix [115], nodesPath] ++ 47 :: name := by
    intro name
    rw [List.mem_map]
    refine exists_congr fun d => and_congr_right fun hd => ?_
    rw [join_znode [115] (hslash d hd), List.append_cancel_left_eq, List.cons.injEq]
    exact (and_iff_right rfl).symm
  obtain ⟨-, hupdate⟩ := (registrations_decoded_iff [115] hslash hchildren).mpr
    ⟨by decide, by decide⟩
  obtain ⟨p', hp', -, hring⟩ := hupdate ⟨[97], [104], [51]⟩ (by simp [sharedAddress])
    ⟨[97], [104, 58, 51], ∅, ∅⟩ rfl rfl
  exact ⟨p', hp', hring.trans (by decide)⟩

/-- A node of shard `a@b`. -/
def separatorConfig : ShardConfig := ⟨[97, 64, 98], [104], [49]⟩

/-- **A shard with the separator in it.** The only node of a cluster, of shard `a@b`, takes its own
registration for a peer of shard `a`, and the ring has both. -/
theorem shard_with_separator :
    GoPath.join [clusterPrefix [115], separatorConfig.znode] =
        GoPath.join [clusterPrefix [115], nodesPath] ++ 47 :: separatorConfig.registration ∧
      ∃ p', (⟨separatorConfig.shard, separatorConfig.address, ∅, ∅⟩ : Peers).updatePeers
          [separatorConfig.registration] = some p' ∧
        ⟨[97], [98, 64, 104, 58, 49]⟩ ∈ p'.peers ∧ p'.ring = {[97], [97, 64, 98]} :=
  ⟨by decide, _, rfl, by decide, by decide⟩

end Sequins
