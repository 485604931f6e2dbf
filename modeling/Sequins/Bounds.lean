import Sequins.BlockStore
import Sequins.GoBase64
import Mathlib.Order.Bounds.Basic

/-!
# The bounds of a block

A block knows its least and greatest key, and answers without a seek for what is outside. The bounds
are kept by `blockWriter.add`, where a nil slice means that there is none yet and an empty key is
not nil; they are copied by `save`, and go to the manifest and back in JSON. `bounds_exact`:
whatever is added, in whatever order and however often, they are what they should be, and so is the
count, also if some of the Puts fail.
-/

namespace Sequins

/-- A call of `blockWriter.add`, and whether its Put succeeds. -/
structure AddCall where
  key : Bytes
  value : Bytes
  put : Bool
  deriving DecidableEq, Repr

/-- What the Put is about. -/
def AddCall.record (call : AddCall) : Bytes × Bytes := (call.key, call.value)

namespace BlockWriter

/-- `add`, with the log. -/
def addPut (s : BlockWriter × Disk) (call : AddCall) : (BlockWriter × Disk) × Option StoreError :=
  if call.put then
    ((s.1.add call.key, s.2.put s.1.name call.key call.value), none)
  else
    ((s.1.add call.key, s.2), some .put)

/-- A block from `newBlock` on, through some calls of `add`. -/
def addAll (partition : ℤ) (disk : Disk) (calls : List AddCall) : BlockWriter × Disk :=
  calls.foldl (fun s call => (addPut s call).1)
    (newBlock partition disk.nextId, disk.create (newBlock partition disk.nextId).name)

/-- What the calls leave behind: the description is that of all calls, and the log has those that
succeeded. -/
structure Added (calls : List AddCall) (s : BlockWriter × Disk) : Prop where
  describes : s.1.Describes (calls.map AddCall.record)
  log : s.2.logs s.1.name = some ((calls.filter AddCall.put).map AddCall.record)

/-- One more call. The description goes on even if the Put fails, and the log does not. -/
theorem Added.addPut {calls : List AddCall} {s : BlockWriter × Disk} (h : Added calls s)
    (call : AddCall) : Added (calls ++ [call]) (addPut s call).1 := by
  have hdescribes : (s.1.add call.key).Describes ((calls ++ [call]).map AddCall.record) := by
    rw [List.map_append]
    exact h.describes.add call.key call.value
  rw [BlockWriter.addPut]
  split
  · next hput =>
    refine ⟨hdescribes, ?_⟩
    simp [Disk.put, h.log, List.filter_append, hput, AddCall.record]
  · next hput =>
    refine ⟨hdescribes, ?_⟩
    simp [h.log, List.filter_append, hput]

theorem added_addAll (partition : ℤ) (disk : Disk) (calls : List AddCall) :
    Added calls (addAll partition disk calls) := by
  induction calls using List.reverseRecOn with
  | nil => exact ⟨describes_newBlock .., by simp [addAll, Disk.create]⟩
  | append_singleton calls call ih =>
    rw [addAll, List.foldl_append]
    exact ih.addPut call

end BlockWriter

/-- An entry of the manifest, written and read again. -/
def BlockManifest.reread (m : BlockManifest) : Option BlockManifest := do
  let minKey ← GoBase64.unmarshal (GoBase64.marshal m.minKey)
  let maxKey ← GoBase64.unmarshal (GoBase64.marshal m.maxKey)
  return { m with minKey := minKey, maxKey := maxKey }

/-- JSON writes the bounds in base64, and a nil slice as `null`, so neither is lost. -/
@[simp] theorem BlockManifest.reread_eq (m : BlockManifest) : m.reread = some m := by
  simp [BlockManifest.reread]

/-- A block that is right about what was added to it. -/
structure Block.Right (calls : List AddCall) (b : Block) : Prop where
  count : b.count = calls.length
  minKey : ∀ key, b.minKey = some key ↔ IsLeast {k | ∃ call ∈ calls, call.key = k} key
  maxKey : ∀ key, b.maxKey = some key ↔ IsGreatest {k | ∃ call ∈ calls, call.key = k} key
  get : ∀ key, b.get key = b.get' key

/-- **Bounds of all calls are bounds of the log**, which has the keys of those that succeeded. -/
theorem BlockWriter.Added.right {calls : List AddCall} {s : BlockWriter × Disk}
    (h : Added calls s) :
    (s.1.toBlock ((calls.filter AddCall.put).map AddCall.record)).Right calls := by
  have hkeys : (calls.map AddCall.record).map Prod.fst = calls.map AddCall.key := by
    rw [List.map_map]
    rfl
  have hset : {k | ∃ call ∈ calls, call.key = k} = {k | k ∈ calls.map AddCall.key} := by
    ext k
    exact List.mem_map.symm
  have hmin : s.1.minKey = (calls.map AddCall.key).min? := hkeys ▸ h.describes.minKey
  have hmax : s.1.maxKey = (calls.map AddCall.key).max? := hkeys ▸ h.describes.maxKey
  refine ⟨h.describes.count.trans (List.length_map _), fun key => ?_, fun key => ?_, ?_⟩
  · rw [BlockWriter.toBlock, hset, hmin]
    exact List.min?_eq_some_iff
  · rw [BlockWriter.toBlock, hset, hmax]
    exact List.max?_eq_some_iff
  · refine Block.get_eq_of_bounds hmin hmax fun e he => ?_
    obtain ⟨call, hcall, rfl⟩ := List.mem_map.mp he
    exact List.mem_map_of_mem (List.mem_filter.mp hcall).1

/-- **The filter never changes an answer.** After any calls of `add`, `save` succeeds if nothing
fails, and then the count is the number of calls, the bounds are the least and the greatest key, and
`Get` answers as it would without the bounds; and that is so for the block that is loaded from the
manifest, wherever the log is still the same. -/
theorem bounds_exact (partition : ℤ) (disk : Disk) (calls : List AddCall) :
    ∃ b, (BlockWriter.addAll partition disk calls).1.save .ok
        (BlockWriter.addAll partition disk calls).2 = .ok b ∧ b.Right calls ∧
      ∀ disk' : Disk, disk'.logs b.name = (BlockWriter.addAll partition disk calls).2.logs b.name →
        ∃ m b', b.manifest.reread = some m ∧ loadBlock disk' m = .ok b' ∧ b'.Right calls := by
  have hadded := BlockWriter.added_addAll partition disk calls
  generalize BlockWriter.addAll partition disk calls = s at hadded ⊢
  have hsave : s.1.save .ok s.2 =
      .ok (s.1.toBlock ((calls.filter AddCall.put).map AddCall.record)) := by
    rw [BlockWriter.save, hadded.log]
  refine ⟨_, hsave, hadded.right, fun disk' hlog => ?_⟩
  have hload :
      loadBlock disk' (s.1.toBlock ((calls.filter AddCall.put).map AddCall.record)).manifest =
        .ok (s.1.toBlock ((calls.filter AddCall.put).map AddCall.record)) := by
    have hlog' : disk'.logs s.1.name = _ := hlog.trans hadded.log
    rw [loadBlock, Block.manifest, BlockWriter.toBlock, hlog']
    rfl
  exact ⟨_, _, BlockManifest.reread_eq _, hload, hadded.right⟩

end Sequins
