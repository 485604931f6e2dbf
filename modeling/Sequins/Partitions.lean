import Sequins.HashCode
import Sequins.GoString
import Mathlib.Data.Finset.Basic

/-!
# Partitions of a version

`partitions.go`: which partitions of a version a node should hold (`selected`), which
it holds (`localPartitions`), and who else holds which (`remotePartitions`). A version
is ready once every partition is held somewhere.

The sets of the source are maps to `true`, hence finite sets here. Its mutex makes
every method atomic. Who holds what is read off the names of the children of a znode, each
the number of a partition and an address with an `@` between (`updateRemotePartitions`).
The calls to ZooKeeper that advertise a partition have no effect on the record itself and
are in `Sequins.Advertise`.
-/

namespace Sequins

/-- The address of a node, as it is advertised. -/
abbrev Address : Type := Bytes

/-- `partitions`. -/
structure Partitions where
  /-- this node's own address; `none` when sharding is off and `peers` is nil -/
  peers : Option Address
  /-- how many there are: the number of files of the version -/
  numPartitions : ℕ
  /-- the ones the hash ring gave to this node -/
  selected : Finset ℤ
  /-- `local`: the ones this node has loaded -/
  localPartitions : Finset ℤ
  /-- `remote`: the other nodes that advertise a partition; the source only ever appends to
  an entry, so an absent one is the empty list -/
  remotePartitions : ℤ → List Address
  /-- the number of partitions nobody has -/
  numMissing : ℕ
  /-- how many times `close(p.ready)` was executed -/
  readyCloses : ℕ
  /-- `readyClosed` -/
  readyClosed : Bool

namespace Partitions

/-- The partitions that are neither local nor remote. -/
def missingPartitions (p : Partitions) : List ℕ :=
  (List.range p.numPartitions).filter fun i =>
    decide ((i : ℤ) ∉ p.localPartitions) && (p.remotePartitions i).isEmpty

/-- `updateMissing`. -/
def updateMissing (p : Partitions) : Partitions :=
  let missing := p.missingPartitions.length
  if missing = 0 ∧ ¬ p.readyClosed then
    { p with numMissing := missing, readyCloses := p.readyCloses + 1, readyClosed := true }
  else
    { p with numMissing := missing }

/-- `watchPartitions`, once the partitions are picked and the first list of remote ones is
read. -/
def watchPartitions (peers : Option Address) (numPartitions : ℕ) (selected : Finset ℤ)
    (remote : ℤ → List Address) : Partitions :=
  updateMissing ⟨peers, numPartitions, selected, ∅, remote, 0, 0, false⟩

/-- `updateLocalPartitions`. -/
def updateLocalPartitions (p : Partitions) (loaded : Finset ℤ) : Partitions :=
  { p with localPartitions := p.localPartitions ∪ loaded }.updateMissing

/-- An entry of the list of children, as `updateRemotePartitions` reads it. Without an `@`
there is no `parts[1]`. -/
def readNode (node : Bytes) : Option (ℤ × Address) :=
  (GoString.cut 64 node).map fun parts => (GoString.atoi parts.1, parts.2)

/-- The body of its loop: what this node advertises itself is passed over. -/
def addRemote (address : Address) (remote : ℤ → List Address) (entry : ℤ × Address) :
    ℤ → List Address :=
  if entry.2 ≠ address then
    Function.update remote entry.1 (remote entry.1 ++ [entry.2])
  else
    remote

/-- `updateRemotePartitions`; `none` is an index out of range. -/
def updateRemotePartitions (p : Partitions) (nodes : List Bytes) : Option Partitions :=
  match p.peers with
  | none => some p
  | some address =>
    (nodes.mapM readNode).map fun entries =>
      { p with remotePartitions := entries.foldl (addRemote address) fun _ => [] }.updateMissing

/-- `watchPartitions`, from the first list of children on. -/
def watchChildren (peers : Option Address) (numPartitions : ℕ) (selected : Finset ℤ)
    (nodes : List Bytes) : Option Partitions :=
  (updateRemotePartitions ⟨peers, numPartitions, selected, ∅, fun _ => [], 0, 0, false⟩ nodes).map
    updateMissing

/-- `needed`. -/
def needed (p : Partitions) : Finset ℤ := p.selected.filter (· ∉ p.localPartitions)

/-- `have`, a keyword here. -/
def hasLocal (p : Partitions) (partition : ℤ) : Bool := decide (partition ∈ p.localPartitions)

/-- `getPeers`. -/
def getPeers (p : Partitions) (partition : ℤ) : List Address :=
  match p.peers with
  | none => []
  | some _ => p.remotePartitions partition

/-- `updateMissing` only touches the bookkeeping of what is missing. -/
theorem updateMissing_eq (p : Partitions) :
    p.updateMissing = { p with
      numMissing := p.updateMissing.numMissing
      readyCloses := p.updateMissing.readyCloses
      readyClosed := p.updateMissing.readyClosed } := by
  simp only [updateMissing]
  split <;> rfl

@[simp] theorem watchPartitions_localPartitions (peers : Option Address) (numPartitions : ℕ)
    (selected : Finset ℤ) (remote : ℤ → List Address) :
    (watchPartitions peers numPartitions selected remote).localPartitions = ∅ := by
  rw [watchPartitions, updateMissing_eq]

@[simp] theorem watchPartitions_selected (peers : Option Address) (numPartitions : ℕ)
    (selected : Finset ℤ) (remote : ℤ → List Address) :
    (watchPartitions peers numPartitions selected remote).selected = selected := by
  rw [watchPartitions, updateMissing_eq]

@[simp] theorem watchPartitions_peers (peers : Option Address) (numPartitions : ℕ)
    (selected : Finset ℤ) (remote : ℤ → List Address) :
    (watchPartitions peers numPartitions selected remote).peers = peers := by
  rw [watchPartitions, updateMissing_eq]

@[simp] theorem updateLocalPartitions_localPartitions (p : Partitions) (loaded : Finset ℤ) :
    (p.updateLocalPartitions loaded).localPartitions = p.localPartitions ∪ loaded := by
  rw [updateLocalPartitions, updateMissing_eq]

@[simp] theorem updateLocalPartitions_selected (p : Partitions) (loaded : Finset ℤ) :
    (p.updateLocalPartitions loaded).selected = p.selected := by
  rw [updateLocalPartitions, updateMissing_eq]

@[simp] theorem updateLocalPartitions_peers (p : Partitions) (loaded : Finset ℤ) :
    (p.updateLocalPartitions loaded).peers = p.peers := by
  rw [updateLocalPartitions, updateMissing_eq]

/-- A list of children has no part in what the node itself holds. -/
theorem updateRemotePartitions_frame {p p' : Partitions} {nodes : List Bytes}
    (h : p.updateRemotePartitions nodes = some p') :
    p'.peers = p.peers ∧ p'.localPartitions = p.localPartitions := by
  rw [updateRemotePartitions] at h
  split at h
  · obtain rfl := Option.some.inj h
    exact ⟨rfl, rfl⟩
  · obtain ⟨entries, -, rfl⟩ := Option.map_eq_some_iff.mp h
    rw [updateMissing_eq]
    exact ⟨rfl, rfl⟩

/-- What the node has selected is decided before. -/
theorem updateRemotePartitions_selected {p p' : Partitions} {nodes : List Bytes}
    (h : p.updateRemotePartitions nodes = some p') : p'.selected = p.selected := by
  rw [updateRemotePartitions] at h
  split at h
  · obtain rfl := Option.some.inj h
    rfl
  · obtain ⟨entries, -, rfl⟩ := Option.map_eq_some_iff.mp h
    rw [updateMissing_eq]

end Partitions

end Sequins
