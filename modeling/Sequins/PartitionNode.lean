import Sequins.Readiness
import Sequins.GoPath

/-!
# The znodes of partitions

A node that has a partition creates a znode for it, with the number of the partition and its own
address in the name (`partitionZKNode`). Every other node reads the names off the list of children
(`updateRemotePartitions`) and so learns whom to ask for a partition.

The number is padded to five digits but may have more, and the address may contain anything but
a slash, also the separator. What is read is what was written, so the map of the reader
mirrors what is advertised, whatever the order of the children (`partition_map_mirrors`).
-/

namespace Sequins

/-- `partitionZKNode`. -/
def partitionZKNode (zkPath : Bytes) (address : Address) (partition : ℤ) : Bytes :=
  GoPath.join [zkPath, partitionName address partition]

/-! ## The name -/

/-- It contains an `@`, so it is not one of the names that paths treat specially. -/
theorem proper_partitionName (address : Address) (partition : ℤ) :
    GoPath.Proper (partitionName address partition) := by
  have hmem : 64 ∈ partitionName address partition :=
    List.mem_append_right _ (List.mem_cons_self ..)
  refine ⟨?_, ?_, ?_⟩
  all_goals
    intro h
    rw [h] at hmem
    exact absurd hmem (by decide)

/-- An address without slashes makes a name without slashes. -/
theorem slash_not_mem_partitionName {address : Address} (haddress : 47 ∉ address)
    (partition : ℤ) : 47 ∉ partitionName address partition := by
  rw [partitionName, List.mem_append, List.mem_cons, not_or, not_or]
  exact ⟨GoString.not_mem_paddedInt rfl (by decide), by decide, haddress⟩

/-- **A node's partitions have different znodes.** -/
theorem partitionName_inj {address : Address} {i j : ℤ}
    (h : partitionName address i = partitionName address j) : i = j :=
  GoString.paddedInt_injective 5 (List.append_cancel_right h)

/-- The name under which the znode is listed among the children of its parent. -/
theorem base_partitionZKNode (zkPath : Bytes) {address : Address} (haddress : 47 ∉ address)
    (partition : ℤ) :
    GoPath.base (partitionZKNode zkPath address partition) = partitionName address partition := by
  obtain ⟨rooted, parts, hjoin⟩ := GoPath.exists_join_name [zkPath]
  have hname := proper_partitionName address partition
  have hslash := slash_not_mem_partitionName haddress partition
  rw [partitionZKNode, ← List.singleton_append, hjoin _ hname hslash,
    GoPath.base_dirOf _ _ hname.1 hslash]

/-! ## The map -/

/-- Once its children are read, the peers of a partition are what the loop has collected. -/
theorem getPeers_updateRemotePartitions {p : Partitions} {self : Address}
    (hself : p.peers = some self) {children : List Bytes} {entries : List (ℤ × Address)}
    (hentries : children.mapM Partitions.readNode = some entries) :
    ∃ p', p.updateRemotePartitions children = some p' ∧
      ∀ i, p'.getPeers i = entries.foldl (Partitions.addRemote self) (fun _ => []) i := by
  have hupdate : p.updateRemotePartitions children = some (Partitions.updateMissing
      { p with remotePartitions := entries.foldl (Partitions.addRemote self) fun _ => [] }) := by
    rw [Partitions.updateRemotePartitions, hself]
    dsimp only
    rw [hentries, Option.map_some, ← hself]
  refine ⟨_, hupdate, fun i => ?_⟩
  rw [Partitions.getPeers, Partitions.updateMissing_eq]
  dsimp only
  rw [hself]

/-- The peers of a partition, among entries without duplicates. -/
theorem count_foldl_addRemote {entries : List (ℤ × Address)} (h : entries.Nodup)
    (self : Address) (i : ℤ) (b : Address) :
    (entries.foldl (Partitions.addRemote self) (fun _ => []) i).count b =
      if (i, b) ∈ entries ∧ b ≠ self then 1 else 0 := by
  rw [Partitions.foldl_addRemote, List.nil_append, List.count_eq_countP, List.countP_map,
    List.countP_filter]
  by_cases hb : b = self
  · subst hb
    rw [if_neg fun hor => hor.2 rfl, List.countP_eq_zero]
    intro e _ he
    simp only [Bool.and_eq_true, Function.comp_apply, beq_iff_eq, decide_eq_true_eq] at he
    exact he.2.2 he.1
  · have hcount : entries.countP (fun e => (e.2 == b) && decide (e.1 = i ∧ e.2 ≠ self)) =
        entries.count (i, b) := by
      rw [List.count_eq_countP]
      refine List.countP_congr fun e _ => ?_
      simp only [Bool.and_eq_true, beq_iff_eq, decide_eq_true_eq, Prod.ext_iff]
      constructor
      · rintro ⟨rfl, rfl, -⟩
        exact ⟨rfl, rfl⟩
      · rintro ⟨rfl, rfl⟩
        exact ⟨rfl, rfl, hb⟩
    calc
      _ = entries.count (i, b) := hcount
      _ = if (i, b) ∈ entries ∧ b ≠ self then 1 else 0 := by
        rw [h.count]
        simp [hb]

/-- **The partition map mirrors what is advertised.** The children of a version's znode are the
names that the nodes have created for their partitions, in any order. Once a node has processed
them, its peers for a partition are the other nodes that advertise it, each once. -/
theorem partition_map_mirrors (p : Partitions) {self : Address} (hself : p.peers = some self)
    (zkPath : Bytes) (nodes : Finset Address) (hslash : ∀ a ∈ nodes, 47 ∉ a)
    (advertised : Address → Finset ℕ) (hint : ∀ a ∈ nodes, ∀ i ∈ advertised a, i < 2 ^ 63)
    (children : List Bytes) (hnodup : children.Nodup)
    (hchildren : ∀ c, c ∈ children ↔ ∃ a ∈ nodes, ∃ i ∈ advertised a,
      c = GoPath.base (partitionZKNode zkPath a i)) :
    ∃ p', p.updateRemotePartitions children = some p' ∧
      ∀ (i : ℤ) (b : Address), (p'.getPeers i).count b =
        if b ∈ nodes ∧ b ≠ self ∧ ∃ j ∈ advertised b, i = j then 1 else 0 := by
  -- every child is read, and says which node has which partition
  let read : Bytes → ℤ × Address := fun c => (Partitions.readNode c).getD (0, [])
  have hread : ∀ c ∈ children, ∃ a ∈ nodes, ∃ i ∈ advertised a,
      c = partitionName a i ∧ Partitions.readNode c = some ((i : ℤ), a) := by
    intro c hc
    obtain ⟨a, ha, i, hi, rfl⟩ := (hchildren c).mp hc
    rw [base_partitionZKNode zkPath (hslash a ha)]
    exact ⟨a, ha, i, hi, rfl, readNode_partitionName a (hint a ha i hi)⟩
  have hentries : children.mapM Partitions.readNode = some (children.map read) := by
    refine GoString.mapM_of_forall fun c hc => ?_
    obtain ⟨a, -, i, -, -, hr⟩ := hread c hc
    simp only [read, hr, Option.getD_some]
  have hdistinct : (children.map read).Nodup := by
    refine hnodup.map_on fun c hc c' hc' heq => ?_
    obtain ⟨a, -, i, -, rfl, hr⟩ := hread c hc
    obtain ⟨a', -, i', -, rfl, hr'⟩ := hread c' hc'
    simp only [read, hr, hr', Option.getD_some, Prod.mk.injEq] at heq
    rw [heq.1, heq.2]
  have hmem : ∀ (i : ℤ) (b : Address),
      (i, b) ∈ children.map read ↔ b ∈ nodes ∧ ∃ j ∈ advertised b, i = j := by
    intro i b
    rw [List.mem_map]
    constructor
    · rintro ⟨c, hc, heq⟩
      obtain ⟨a, ha, j, hj, rfl, hr⟩ := hread c hc
      simp only [read, hr, Option.getD_some, Prod.mk.injEq] at heq
      obtain ⟨rfl, rfl⟩ := heq
      exact ⟨ha, j, hj, rfl⟩
    · rintro ⟨hb, j, hj, rfl⟩
      refine ⟨partitionName b j, (hchildren _).mpr ⟨b, hb, j, hj, ?_⟩, ?_⟩
      · exact (base_partitionZKNode zkPath (hslash b hb) j).symm
      · simp only [read, readNode_partitionName b (hint b hb j hj), Option.getD_some]
  obtain ⟨p', hupdate, hpeers⟩ := getPeers_updateRemotePartitions hself hentries
  refine ⟨p', hupdate, fun i b => ?_⟩
  rw [hpeers, count_foldl_addRemote hdistinct]
  refine if_congr ?_ rfl rfl
  rw [hmem, and_right_comm, and_assoc]

/-- Nodes `a` and `b` advertise partition 100000, `b` also partition 7; `a` reads the children. -/
theorem partition_map_mirrors_two :
    ∃ p', (Partitions.watchPartitions (some [97]) 8 ∅ fun _ => []).updateRemotePartitions
        [[48, 48, 48, 48, 55, 64, 98], [49, 48, 48, 48, 48, 48, 64, 97],
          [49, 48, 48, 48, 48, 48, 64, 98]] = some p' ∧
      (p'.getPeers 100000).count [98] = 1 ∧ (p'.getPeers 100000).count [97] = 0 := by
  obtain ⟨p', hupdate, hcount⟩ := partition_map_mirrors
    (Partitions.watchPartitions (some [97]) 8 ∅ fun _ => [])
    (Partitions.watchPartitions_peers _ _ _ _) [112] {[97], [98]} (by decide)
    (fun b => if b = [98] then {7, 100000} else {100000}) (by decide)
    [[48, 48, 48, 48, 55, 64, 98], [49, 48, 48, 48, 48, 48, 64, 97],
      [49, 48, 48, 48, 48, 48, 64, 98]]
    (by decide) (by
      intro c
      constructor
      · intro hc
        simp only [List.mem_cons, List.not_mem_nil, or_false] at hc
        obtain rfl | rfl | rfl := hc
        · exact ⟨[98], by decide, 7, by decide, by decide⟩
        · exact ⟨[97], by decide, 100000, by decide, by decide⟩
        · exact ⟨[98], by decide, 100000, by decide, by decide⟩
      · rintro ⟨a, ha, i, hi, rfl⟩
        revert a i
        decide)
  refine ⟨p', hupdate, ?_, ?_⟩
  · rw [hcount]
    decide
  · rw [hcount]
    decide

end Sequins
