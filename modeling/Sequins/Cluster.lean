import Sequins.Serve

/-!
# A cluster of nodes

Any number of nodes share the partitions of one version. Each builds the partitions it
selected, learns which other nodes have which, and answers requests by `serveKey`, itself
or through a peer. A request is followed from `version.serveKey` on; which version it is
for has been decided before. `Cluster` is such a cluster once it has settled: the
selections cover all partitions, everybody is built, and the remote maps are right.

Where a key is stored is decided at ingestion, by the file it is in: under its normal
partition, or under its alternate one if the file was assumed to be of that partition
(`AssignedTo`). Where it is looked for is decided from the key alone. `read_complete_iff`
compares the two.
-/

namespace Sequins

/-- The nodes of a cluster and what they are given. -/
structure Deployment where
  /-- the name of the version -/
  name : Bytes
  /-- the files of the version -/
  contents : Contents
  /-- the nodes -/
  nodes : List Address
  /-- the partitions each node selected -/
  selected : Address → Finset ℤ
  /-- the remote map of each node -/
  remote : Address → ℤ → List Address
  /-- when each node created the version -/
  created : Address → ℕ
  /-- the compression each node is configured with -/
  compression : Address → Compression
  /-- the block size each node is configured with -/
  blockSize : Address → ℤ
  /-- the order in which each node flushed its blocks -/
  order : Address → IterOrder (Σ _ : ℤ, BlockWriter)

namespace Deployment

/-- The number of partitions. -/
def numPartitions (d : Deployment) : ℕ := d.contents.length

/-- The version at a node after its build. -/
def built (d : Deployment) (node : Address) : Version :=
  builtVersion d.name (d.created node)
    (.watchPartitions (some node) d.numPartitions (d.selected node) fun _ => [])
    (d.compression node) (d.blockSize node) d.contents (d.order node)

/-- The version at a node, with the remote map it has arrived at. -/
def version (d : Deployment) (node : Address) : Version :=
  { d.built node with
    partitions := { (d.built node).partitions with remotePartitions := d.remote node } }

theorem version_numPartitions (d : Deployment) (node : Address) :
    (d.version node).numPartitions = (d.built node).numPartitions := by rw [version]

theorem version_blockStore (d : Deployment) (node : Address) :
    (d.version node).blockStore = (d.built node).blockStore := by rw [version]

theorem version_localPartitions (d : Deployment) (node : Address) :
    (d.version node).partitions.localPartitions = (d.built node).partitions.localPartitions := by
  rw [version]

theorem version_peers (d : Deployment) (node : Address) :
    (d.version node).partitions.peers = (d.built node).partitions.peers := by rw [version]

theorem version_remotePartitions (d : Deployment) (node : Address) :
    (d.version node).partitions.remotePartitions = d.remote node := by rw [version]

/-- The records a node has loaded. -/
def log (d : Deployment) (node : Address) : Log :=
  loaded d.numPartitions (d.selected node) d.contents

/-- Every node answers for what it has loaded. -/
theorem loaded_version (d : Deployment) (hfiles : d.contents ≠ []) (node : Address) :
    (d.version node).Loaded d.numPartitions (d.selected node) (d.log node) := by
  have h := builtVersion_loaded d.name (d.created node) (d.compression node) (d.blockSize node)
    (d.order node)
    (Partitions.watchPartitions_localPartitions (some node) d.numPartitions (d.selected node)
      fun _ => []) hfiles
  rw [Partitions.watchPartitions_selected, ← numPartitions, ← built] at h
  refine ⟨?_, ?_, fun key => ?_⟩
  · rw [version_numPartitions]
    exact h.numPartitions
  · rw [version_localPartitions]
    exact h.localPartitions
  · rw [version_blockStore]
    exact h.get key

/-- What a node answers to a request that was proxied to it. -/
def answer (d : Deployment) (key : Bytes) (node : Address) : Response :=
  ((d.version node).serveKey d.name (fun _ _ => none) key).getD serveError

/-- What a node answers to a client. -/
def get (d : Deployment) (node : Address) (c : ProxyChoices) (key : Bytes) : Option Response :=
  (d.version node).serveKey [] ((d.version node).serveProxied (d.answer key) c) key

/-- Some occurrence of the key is placed in the partition. -/
def AssignedTo (d : Deployment) (key : Bytes) (partition : ℤ) : Prop :=
  ∃ file ∈ d.contents, ∃ value,
    ((key, value), partition) ∈ file.2.zip (placement d.numPartitions (file.2.map Prod.fst))

end Deployment

/-- A cluster that has settled. -/
structure Cluster extends Deployment where
  /-- the version has a name -/
  name_ne : name ≠ []
  /-- the version has files -/
  files : contents ≠ []
  /-- the selections cover all partitions -/
  covers : ∀ p : ℤ, 0 ≤ p → p < toDeployment.numPartitions → ∃ node ∈ nodes, p ∈ selected node
  /-- nobody gave up on a file that had a record for it -/
  harmless : ∀ node ∈ nodes, ∀ file ∈ contents,
    Abandons toDeployment.numPartitions (selected node) (file.2.map Prod.fst) →
      placedIn toDeployment.numPartitions (selected node) .start file.2 = []
  /-- the remote maps list the other nodes' local partitions -/
  remote_iff : ∀ node ∈ nodes, ∀ p peer, peer ∈ remote node p ↔
    peer ∈ nodes ∧ peer ≠ node ∧ p ∈ (toDeployment.version peer).partitions.localPartitions

namespace Cluster

variable (c : Cluster)

/-- There is a file, and a partition for each file. -/
theorem numPartitions_ne : c.numPartitions ≠ 0 :=
  fun h => c.files (List.length_eq_zero_iff.mp h)

theorem one_le : (1 : ℤ) ≤ c.numPartitions := by
  have := c.numPartitions_ne
  omega

/-- A version that has loaded what was selected, with the records of these partitions. -/
theorem loaded_version (node : Address) :
    (c.version node).Loaded c.numPartitions (c.selected node) (c.log node) :=
  c.toDeployment.loaded_version c.files node

/-- The remote map of a settled cluster, seen from one node. -/
theorem mem_remote {node : Address} (hnode : node ∈ c.nodes) {p : ℤ} {peer : Address} :
    peer ∈ c.remote node p ↔ peer ∈ c.nodes ∧ peer ≠ node ∧ p ∈ c.selected peer := by
  rw [c.remote_iff node hnode, (c.loaded_version peer).localPartitions]

/-! ## Who has a key

A key has a normal and an alternate partition, and each of its occurrences was placed in one of
them. So a node may have a key although it does not have the partition that `serveKey` asks for
first. -/

/-- A node has loaded the key exactly if it selected a partition the key is assigned to. -/
theorem mem_log_iff {node : Address} (hnode : node ∈ c.nodes) {key : Bytes} :
    (∃ r ∈ c.log node, r.1 = key) ↔ ∃ p ∈ c.selected node, c.AssignedTo key p := by
  constructor
  · rintro ⟨r, hr, rfl⟩
    obtain ⟨file, hfile, hr⟩ := List.mem_flatMap.mp hr
    rw [loadedFrom] at hr
    split at hr
    · exact absurd hr List.not_mem_nil
    · obtain ⟨x, hx, rfl⟩ := List.mem_map.mp hr
      obtain ⟨hzip, hp⟩ := List.mem_filter.mp hx
      exact ⟨x.2, of_decide_eq_true hp, file, hfile, x.1.2, hzip⟩
  · rintro ⟨p, hp, file, hfile, value, hzip⟩
    have hplaced : (key, value) ∈ placedIn c.numPartitions (c.selected node) .start file.2 :=
      List.mem_map.mpr ⟨_, List.mem_filter.mpr ⟨hzip, decide_eq_true hp⟩, rfl⟩
    refine ⟨(key, value), List.mem_flatMap.mpr ⟨file, hfile, ?_⟩, rfl⟩
    rw [loadedFrom, if_neg]
    · exact hplaced
    · -- giving the file up would have been harmful
      intro hab
      rw [c.harmless node hnode file hfile hab] at hplaced
      exact List.not_mem_nil hplaced

/-- A key is assigned to one of its two partitions. -/
theorem assignedTo_mem {key : Bytes} {p : ℤ} (h : c.AssignedTo key p) :
    p = (keyPartition key c.numPartitions).1 ∨ p = (keyPartition key c.numPartitions).2 := by
  obtain ⟨file, -, value, hzip⟩ := h
  have hmem : (key, p) ∈ (file.2.map Prod.fst).zip
      (placement c.numPartitions (file.2.map Prod.fst)) := by
    rw [List.zip_map_left]
    exact List.mem_map.mpr ⟨_, hzip, rfl⟩
  exact placementFrom_mem c.numPartitions .start _ _ hmem

/-- A partition that a key is assigned to is somebody's. -/
theorem assignedTo_covered {key : Bytes} {p : ℤ} (h : c.AssignedTo key p) :
    ∃ node ∈ c.nodes, p ∈ c.selected node := by
  obtain ⟨file, -, value, hzip⟩ := h
  obtain ⟨hnonneg, hlt⟩ := placement_range c.one_le (List.of_mem_zip hzip).2
  exact c.covers p hnonneg hlt

/-- The normal partition of a key is somebody's. -/
theorem normal_covered (key : Bytes) :
    ∃ node ∈ c.nodes, (keyPartition key c.numPartitions).1 ∈ c.selected node := by
  refine c.covers _ ?_ ?_
  · rw [fst_keyPartition]
    exact hadoopPartition_nonneg key c.one_le
  · rw [fst_keyPartition]
    exact hadoopPartition_lt key c.one_le

/-- A key that is in some file is assigned to some partition. -/
theorem exists_assignedTo {key : Bytes} (h : ∃ file ∈ c.contents, ∃ r ∈ file.2, r.1 = key) :
    ∃ p, c.AssignedTo key p := by
  obtain ⟨file, hfile, r, hr, rfl⟩ := h
  obtain ⟨i, hi⟩ := List.mem_iff_getElem?.mp hr
  have hlt : i < file.2.length := (List.getElem?_eq_some_iff.mp hi).1
  have hlen : i < (placement c.numPartitions (file.2.map Prod.fst)).length := by
    simpa [placement] using hlt
  refine ⟨(placement c.numPartitions (file.2.map Prod.fst))[i], file, hfile, r.2, ?_⟩
  refine List.mem_iff_getElem?.mpr ⟨i, List.getElem?_zip_eq_some.mpr ⟨hi, ?_⟩⟩
  exact List.getElem?_eq_getElem hlen

/-! ## What the nodes answer -/

/-- A right answer: a value that some file records for the key. -/
def Right (key : Bytes) (resp : Response) : Prop :=
  resp.status = 200 ∧ ∃ file ∈ c.contents, (key, resp.body) ∈ file.2

/-- A node with one of the key's partitions, asked by a peer. -/
theorem answer_eq {key : Bytes} {node : Address}
    (hlocal : (keyPartition key c.numPartitions).1 ∈ c.selected node ∨
      (keyPartition key c.numPartitions).2 ∈ c.selected node) :
    c.answer key node =
      if Holds c.numPartitions (c.log node) key then
        (c.version node).serveLocal
          (((c.log node).seek key).map fun value => ⟨value.length, value⟩)
      else
        serveError := by
  rw [Deployment.answer, (c.loaded_version node).serveKey_local c.numPartitions_ne c.name _ hlocal]
  split <;> rfl

/-- A record that is found is in a file. -/
theorem right_of_seek {key value : Bytes} {node : Address} (v : Version)
    (h : (c.log node).seek key = some value) :
    c.Right key (v.serveLocal (some ⟨value.length, value⟩)) := by
  obtain ⟨file, hfile, hr⟩ := mem_loaded (Log.mem_of_seek h)
  exact ⟨rfl, file, hfile, hr⟩

/-- A node that selected a partition the key is assigned to finds it. -/
theorem seek_of_assignedTo {key : Bytes} {node : Address} (hnode : node ∈ c.nodes) {p : ℤ}
    (hp : p ∈ c.selected node) (h : c.AssignedTo key p) :
    Holds c.numPartitions (c.log node) key ∧ ∃ value, (c.log node).seek key = some value := by
  obtain ⟨r, hr, rfl⟩ := (c.mem_log_iff hnode).mpr ⟨p, hp, h⟩
  refine ⟨⟨r, hr, .inl rfl⟩, ?_⟩
  rcases hseek : (c.log node).seek r.1 with _ | value
  · exact absurd rfl (Log.seek_eq_none_iff.mp hseek r hr)
  · exact ⟨value, rfl⟩

/-- What a node with one of the key's partitions answers with `200` is right. -/
theorem right_of_status {key : Bytes} {node : Address}
    (hlocal : (keyPartition key c.numPartitions).1 ∈ c.selected node ∨
      (keyPartition key c.numPartitions).2 ∈ c.selected node)
    (hok : (c.answer key node).status = 200) : c.Right key (c.answer key node) := by
  rw [c.answer_eq hlocal] at hok ⊢
  split at hok
  · rename_i hholds
    rcases hseek : (c.log node).seek key with _ | value
    · rw [hseek] at hok
      cases hok
    · rw [if_pos hholds]
      exact c.right_of_seek _ hseek
  · cases hok

/-- A node that has the partition of some occurrence answers right. -/
theorem right_answer {key : Bytes} {node : Address} (hnode : node ∈ c.nodes) {p : ℤ}
    (hp : p ∈ c.selected node) (h : c.AssignedTo key p) : c.Right key (c.answer key node) := by
  have hlocal : (keyPartition key c.numPartitions).1 ∈ c.selected node ∨
      (keyPartition key c.numPartitions).2 ∈ c.selected node := by
    rcases c.assignedTo_mem h with rfl | rfl
    · exact .inl hp
    · exact .inr hp
  obtain ⟨hholds, value, hseek⟩ := c.seek_of_assignedTo hnode hp h
  rw [c.answer_eq hlocal, if_pos hholds, hseek]
  exact c.right_of_seek _ hseek

/-! ## Reading

A node with one of the two partitions answers itself, be it with a `404`. Any other one asks the
peers of the normal partition, and those of the alternate one only after a `404`: if none of the
former has a record under either partition, they all answer with an error, and nobody else is
asked. `ReadSafe` is what this comes to. -/

/-- A settled node asks the peers of its remote map. -/
theorem getPeers_version (node : Address) (p : ℤ) :
    (c.version node).partitions.getPeers p = c.remote node p := by
  have hpeers : (c.version node).partitions.peers = some node := by
    rw [Deployment.version_peers, Deployment.built, builtVersion, Version.build_peers,
      newVersion_empty]
    exact Partitions.watchPartitions_peers ..
  rw [Partitions.getPeers, hpeers, Deployment.version_remotePartitions]

/-- Forwarding keeps the status and the body. -/
theorem right_forward {key : Bytes} {v : Version} {peers : List Address} {resp : Response} {i : ℕ} :
    c.Right key (v.forward peers (.response resp i)) ↔ c.Right key resp := Iff.rfl

/-- Where a request at a node is bound to succeed. A node with one of the key's partitions
must have loaded the key. For any other node, the key is under its normal partition, or some
node with that partition has a record in one of the key's partitions and thus answers that
it does not have the key. -/
def ReadSafe (node : Address) (key : Bytes) : Prop :=
  ((keyPartition key c.numPartitions).1 ∈ c.selected node ∨
      (keyPartition key c.numPartitions).2 ∈ c.selected node →
    ∃ p ∈ c.selected node, c.AssignedTo key p) ∧
  (¬ ((keyPartition key c.numPartitions).1 ∈ c.selected node ∨
      (keyPartition key c.numPartitions).2 ∈ c.selected node) →
    c.AssignedTo key (keyPartition key c.numPartitions).1 ∨
    ∃ peer ∈ c.nodes, (keyPartition key c.numPartitions).1 ∈ c.selected peer ∧
      Holds c.numPartitions (c.log peer) key)

/-- A node with one of the key's partitions, asked by a client. -/
theorem get_local {node : Address} {key : Bytes} (choices : ProxyChoices)
    (hlocal : (keyPartition key c.numPartitions).1 ∈ c.selected node ∨
      (keyPartition key c.numPartitions).2 ∈ c.selected node) :
    c.get node choices key = some (c.answer key node) := by
  rw [Deployment.get, (c.loaded_version node).serveKey_local c.numPartitions_ne [] _ hlocal,
    c.answer_eq hlocal]
  split <;> rfl

/-- Any other node, asked by a client. -/
theorem get_remote {node : Address} {key : Bytes} (choices : ProxyChoices)
    (hremote : ¬ ((keyPartition key c.numPartitions).1 ∈ c.selected node ∨
      (keyPartition key c.numPartitions).2 ∈ c.selected node)) :
    c.get node choices key = (c.version node).serveProxied (c.answer key) choices
      (keyPartition key c.numPartitions).1 (keyPartition key c.numPartitions).2 := by
  rw [Deployment.get, (c.loaded_version node).serveKey_remote c.numPartitions_ne [] _ hremote,
    if_pos rfl]

/-- A node with one of the key's partitions answers right exactly if it has the key. -/
theorem right_answer_iff {node : Address} (hnode : node ∈ c.nodes) {key : Bytes}
    (hlocal : (keyPartition key c.numPartitions).1 ∈ c.selected node ∨
      (keyPartition key c.numPartitions).2 ∈ c.selected node) :
    c.Right key (c.answer key node) ↔ ∃ p ∈ c.selected node, c.AssignedTo key p := by
  constructor
  · rintro ⟨hstatus, -⟩
    rw [c.answer_eq hlocal] at hstatus
    split at hstatus
    · rcases hseek : (c.log node).seek key with _ | value
      · rw [hseek] at hstatus
        cases hstatus
      · exact (c.mem_log_iff hnode).mp ⟨_, Log.mem_of_seek hseek, rfl⟩
    · cases hstatus
  · rintro ⟨p, hp, h⟩
    exact c.right_answer hnode hp h

/-- A node with the normal partition gives an answer that is passed on exactly if it has a
record in one of the key's partitions. -/
theorem good_answer_iff {node : Address} {key : Bytes}
    (hlocal : (keyPartition key c.numPartitions).1 ∈ c.selected node) :
    (c.answer key node).Good ↔ Holds c.numPartitions (c.log node) key := by
  rw [c.answer_eq (.inl hlocal)]
  split
  · rename_i hholds
    refine iff_of_true ?_ hholds
    rcases ((c.log node).seek key) with _ | value
    · exact .inr rfl
    · exact .inl rfl
  · rename_i hholds
    refine iff_of_false ?_ hholds
    simp [Response.Good, serveError, statusOnly]

/-- A node that does not have a partition counts every node that has it among its peers. -/
theorem mem_remote_of_selected {node peer : Address} (hnode : node ∈ c.nodes) {p : ℤ}
    (hp : p ∉ c.selected node) (hmem : peer ∈ c.nodes) (hsel : p ∈ c.selected peer) :
    peer ∈ c.remote node p := by
  have hne : peer ≠ node := fun heq => hp (heq ▸ hsel)
  exact (c.mem_remote hnode).mpr ⟨hmem, hne, hsel⟩

/-- The alternate partition is not asked after a `200`. -/
theorem not_retried {resp : Response} (h : resp.status = 200) (p alternate : ℤ) :
    ¬ (resp.status = 404 ∧ alternate ≠ p) := by
  rw [h]
  simp

/-- Asking the peers of a partition, one of which somebody has: if each of them is right, so
is what the call returns. -/
theorem proxy_right {node : Address} (hnode : node ∈ c.nodes) {key : Bytes} {p : ℤ}
    (hp : p ∉ c.selected node) (h : c.AssignedTo key p) (shuffle : IterOrder Address)
    (ticks : List Tick) :
    ∃ resp i, proxy (c.answer key) (shuffle.arrange (c.remote node p)) ticks =
      some (.response resp i) ∧ c.Right key resp := by
  have hright : ∀ peer ∈ shuffle.arrange (c.remote node p), c.Right key (c.answer key peer) := by
    intro peer hpeer
    obtain ⟨hmem, -, hsel⟩ := (c.mem_remote hnode).mp (shuffle.mem_arrange.mp hpeer)
    exact c.right_answer hmem hsel h
  rcases proxy_spec (c.answer key) (shuffle.arrange (c.remote node p)) ticks with
    ⟨i, peer, hpeer, -, heq⟩ | ⟨hbad, -⟩
  · exact ⟨_, i, heq, hright peer (List.mem_of_getElem? hpeer)⟩
  · -- somebody has the partition, and it is not this node
    obtain ⟨peer, hmem, hsel⟩ := c.assignedTo_covered h
    have hpeer := shuffle.mem_arrange.mpr (c.mem_remote_of_selected hnode hp hmem hsel)
    exact absurd (.inl (hright peer hpeer).1) (hbad peer hpeer)

/-- The peers of the normal partition are not none. -/
theorem remote_ne_nil {node : Address} (hnode : node ∈ c.nodes) {key : Bytes}
    (hp : (keyPartition key c.numPartitions).1 ∉ c.selected node) (shuffle : IterOrder Address) :
    (shuffle.arrange (c.remote node (keyPartition key c.numPartitions).1)).isEmpty = false := by
  obtain ⟨peer, hmem, hsel⟩ := c.normal_covered key
  have hpeer := c.mem_remote_of_selected hnode hp hmem hsel
  rw [List.isEmpty_eq_false_iff, ne_eq, IterOrder.arrange_eq_nil]
  exact List.ne_nil_of_mem hpeer

/-- A request that is proxied and safe is answered right: by the peers of the normal
partition or, if these do not have the key, by those of the alternate one. -/
theorem right_serveProxied {node : Address} (hnode : node ∈ c.nodes) {key : Bytes}
    (hkey : ∃ file ∈ c.contents, ∃ r ∈ file.2, r.1 = key)
    (hp : (keyPartition key c.numPartitions).1 ∉ c.selected node)
    (ha : (keyPartition key c.numPartitions).2 ∉ c.selected node)
    (hsafe : c.AssignedTo key (keyPartition key c.numPartitions).1 ∨
      ∃ peer ∈ c.nodes, (keyPartition key c.numPartitions).1 ∈ c.selected peer ∧
        Holds c.numPartitions (c.log peer) key) (choices : ProxyChoices) :
    ∃ resp, (c.version node).serveProxied (c.answer key) choices
        (keyPartition key c.numPartitions).1 (keyPartition key c.numPartitions).2 = some resp ∧
      c.Right key resp := by
  simp only [Version.serveProxied, getPeers_version, c.remote_ne_nil hnode hp, Bool.false_eq_true,
    if_false]
  by_cases hnormal : c.AssignedTo key (keyPartition key c.numPartitions).1
  · obtain ⟨resp, i, heq, hright⟩ := c.proxy_right hnode hp hnormal choices.shuffle choices.ticks
    rw [heq]
    simp only [not_retried hright.1, if_false]
    exact ⟨_, rfl, c.right_forward.mpr hright⟩
  · -- the key is under its alternate partition
    obtain ⟨q, hq⟩ := c.exists_assignedTo hkey
    have halt : c.AssignedTo key (keyPartition key c.numPartitions).2 := by
      rcases c.assignedTo_mem hq with rfl | rfl
      · exact absurd hq hnormal
      · exact hq
    have hne : (keyPartition key c.numPartitions).2 ≠ (keyPartition key c.numPartitions).1 :=
      fun heq => hnormal (heq ▸ halt)
    obtain ⟨peer, hmem, hsel, hholds⟩ := hsafe.resolve_left hnormal
    rcases proxy_spec (c.answer key)
      (choices.shuffle.arrange (c.remote node (keyPartition key c.numPartitions).1))
      choices.ticks with ⟨i, peer', hpeer', hgood, heq⟩ | ⟨hbad, -⟩
    · rw [heq]
      rcases hgood with hok | hnotFound
      · -- this peer has the alternate partition as well
        have hpeer := choices.shuffle.mem_arrange.mp (List.mem_of_getElem? hpeer')
        obtain ⟨-, -, hsel'⟩ := (c.mem_remote hnode).mp hpeer
        simp only [not_retried hok, if_false]
        exact ⟨_, rfl, c.right_forward.mpr (c.right_of_status (.inl hsel') hok)⟩
      · obtain ⟨resp, j, heq', hright⟩ :=
          c.proxy_right hnode ha halt choices.alternateShuffle choices.alternateTicks
        simp only [hnotFound, hne, ne_eq, not_false_eq_true, and_self, if_true, heq']
        exact ⟨_, rfl, c.right_forward.mpr hright⟩
    · have hpeer :=
        choices.shuffle.mem_arrange.mpr (c.mem_remote_of_selected hnode hp hmem hsel)
      exact absurd ((c.good_answer_iff hsel).mpr hholds) (hbad peer hpeer)

/-- A request that is proxied and not safe is a bad gateway: every peer of the normal
partition answers with an error, and the alternate partition is never tried. -/
theorem serveProxied_of_not_safe {node : Address} (hnode : node ∈ c.nodes) {key : Bytes}
    (hp : (keyPartition key c.numPartitions).1 ∉ c.selected node)
    (hlost : ∀ peer ∈ c.nodes, (keyPartition key c.numPartitions).1 ∈ c.selected peer →
      ¬ Holds c.numPartitions (c.log peer) key) (choices : ProxyChoices) :
    (c.version node).serveProxied (c.answer key) choices
      (keyPartition key c.numPartitions).1 (keyPartition key c.numPartitions).2 =
        some (statusOnly 502) := by
  simp only [Version.serveProxied, getPeers_version, c.remote_ne_nil hnode hp, Bool.false_eq_true,
    if_false]
  rcases proxy_spec (c.answer key)
    (choices.shuffle.arrange (c.remote node (keyPartition key c.numPartitions).1))
    choices.ticks with ⟨i, peer, hpeer, hgood, -⟩ | ⟨-, heq⟩
  · obtain ⟨hmem, -, hsel⟩ :=
      (c.mem_remote hnode).mp (choices.shuffle.mem_arrange.mp (List.mem_of_getElem? hpeer))
    exact absurd ((c.good_answer_iff hsel).mp hgood) (hlost peer hmem hsel)
  · rw [heq]
    rfl

end Cluster

/-- **Reads are complete exactly where they are safe.** In a settled cluster a request for a
key of some file, sent to any node, is answered `200` with a value some file records for the
key, however the peers are shuffled and in whatever order things happen, exactly if it is
`ReadSafe`. -/
theorem read_complete_iff (c : Cluster) {node : Address} (hnode : node ∈ c.nodes) {key : Bytes}
    (hkey : ∃ file ∈ c.contents, ∃ r ∈ file.2, r.1 = key) :
    (∀ choices : ProxyChoices, ∃ resp, c.get node choices key = some resp ∧ resp.status = 200 ∧
      ∃ file ∈ c.contents, (key, resp.body) ∈ file.2) ↔ c.ReadSafe node key := by
  by_cases hlocal : (keyPartition key c.numPartitions).1 ∈ c.selected node ∨
      (keyPartition key c.numPartitions).2 ∈ c.selected node
  · constructor
    · intro h
      obtain ⟨resp, hget, hright⟩ := h ⟨IterOrder.stored _, [], IterOrder.stored _, []⟩
      rw [c.get_local _ hlocal] at hget
      obtain rfl := Option.some.inj hget
      exact ⟨fun _ => (c.right_answer_iff hnode hlocal).mp hright, fun hno => absurd hlocal hno⟩
    · intro h choices
      exact ⟨_, c.get_local choices hlocal, (c.right_answer_iff hnode hlocal).mpr (h.1 hlocal)⟩
  · obtain ⟨hp, ha⟩ := not_or.mp hlocal
    constructor
    · intro h
      refine ⟨fun hyes => absurd hyes hlocal, fun _ => ?_⟩
      by_contra hlost
      rw [not_or] at hlost
      obtain ⟨resp, hget, hstatus, -⟩ := h ⟨IterOrder.stored _, [], IterOrder.stored _, []⟩
      rw [c.get_remote _ hlocal, c.serveProxied_of_not_safe hnode hp fun peer hmem hsel hholds =>
        hlost.2 ⟨peer, hmem, hsel, hholds⟩] at hget
      obtain rfl := Option.some.inj hget
      cases hstatus
    · intro h choices
      rw [c.get_remote choices hlocal]
      exact c.right_serveProxied hnode hkey hp ha (h.2 hlocal) choices

/-! ## A key under its alternate partition -/

/-- Node `x` has partition `1`, node `y` the two others. -/
def splitSelected (node : Address) : Finset ℤ := if node = [120] then {1} else {0, 2}

/-- Three files as Cascading writes them. The first has `b` and `skiqyzz`, both in partition
`2` there; the second has `a`, in partition `1`. -/
def splitDeployment : Deployment where
  name := [118]
  contents := [([], [([98], [1]), (skiqyzz, [2])]), ([], [([97], [3])]), ([], [])]
  nodes := [[120], [121]]
  selected := splitSelected
  remote := fun node p =>
    [[120], [121]].filter fun peer => decide (peer ≠ node ∧ p ∈ splitSelected peer)
  created := fun _ => 0
  compression := fun _ => .snappy
  blockSize := fun _ => 4096
  order := fun _ => IterOrder.stored _

/-- The cluster has settled. -/
def splitCluster : Cluster where
  toDeployment := splitDeployment
  name_ne := List.cons_ne_nil _ _
  files := List.cons_ne_nil _ _
  covers := by
    intro p hnonneg hlt
    change p < 3 at hlt
    obtain rfl | rfl | rfl : p = 0 ∨ p = 1 ∨ p = 2 := by omega
    · exact ⟨[121], by decide, by decide⟩
    · exact ⟨[120], by decide, by decide⟩
    · exact ⟨[121], by decide, by decide⟩
  harmless := by decide
  remote_iff := by
    intro node hnode p peer
    rw [(splitDeployment.loaded_version (List.cons_ne_nil _ _) peer).localPartitions]
    exact List.mem_filter.trans (and_congr_right fun _ => decide_eq_true_iff)

/-- Node `y` has the key, and says so. -/
theorem read_complete_splitCluster :
    [121] ∈ splitCluster.nodes ∧ ∀ choices : ProxyChoices,
      ∃ resp, splitCluster.get [121] choices skiqyzz = some resp ∧ resp.status = 200 ∧
        ∃ file ∈ splitCluster.contents, (skiqyzz, resp.body) ∈ file.2 := by
  refine ⟨by decide, ?_⟩
  refine (read_complete_iff splitCluster (by decide) (by decide)).mpr ⟨fun _ => ?_, fun h => ?_⟩
  · exact ⟨2, by decide, _, List.mem_cons_self .., [2], by decide⟩
  · exact absurd (.inr (by decide)) h

/-- **A key under its alternate partition is lost to the nodes of its normal one.** Node `x`
has partition `1`, so it looks for `skiqyzz` in its own store and answers `404`, although
node `y` has the key. -/
theorem splitCluster_misses :
    [120] ∈ splitCluster.nodes ∧ (∃ file ∈ splitCluster.contents, ∃ r ∈ file.2, r.1 = skiqyzz) ∧
    ∀ choices : ProxyChoices,
      splitCluster.get [120] choices skiqyzz = some ⟨404, some [118], none, none, none, []⟩ := by
  refine ⟨by decide, by decide, fun choices => ?_⟩
  rw [splitCluster.get_local choices (.inl (by decide))]
  rfl

end Sequins
