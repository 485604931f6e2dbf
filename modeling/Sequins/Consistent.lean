import Sequins.Foremost
import Sequins.GoMap
import Sequins.GoString
import Sequins.HashCode

/-!
# The hash ring

`stathat.com/c/consistent`, the library by which nodes agree on who holds a partition without
talking to each other. Every shard has twenty points on a circle of hashes, and a key is given to
the owners of the points that come next, going up from the hash of the key.

* The circle is a map from hashes to shards. A point that two shards have in common belongs to
  the one that was added last, and is gone when either is removed. So what the circle looks like
  depends on how it came about, unless no two shards share a point (`Spread`); then it is a
  function of the members (`circle_determined_iff`).
* The hashes are those of the index followed by the name of the shard, with nothing between. So
  whatever the hash function is, a shard shares a point with the shard of the same name with a
  digit before it (`shared_point`).
* `GetN` walks along the sorted hashes. When it starts at the first one, the test that ends the
  loop never succeeds, and it is only left with as many shards as were asked for. There are enough
  if every shard has a point, and then they are the nearest (`getN_nearest`).

How near a shard is to a key does not depend on the other shards (`reach`).
-/

namespace Sequins

instance uint32LinearOrder : LinearOrder UInt32 where
  le_refl _ := UInt32.le_refl _
  le_trans _ _ _ := UInt32.le_trans
  le_antisymm _ _ := UInt32.le_antisymm
  le_total := UInt32.le_total
  lt_iff_le_not_ge a b :=
    ⟨fun h => ⟨UInt32.le_of_lt h, UInt32.not_le.mpr h⟩, fun h => UInt32.not_le.mp h.2⟩
  toDecidableLE := inferInstance
  toDecidableEq := inferInstance
  toDecidableLT := inferInstance

/-! ## The functions of the source

`getNLoop` has fuel, since the loop of the source has no bound of its own: it is left when the
index is back at the start, a test that never succeeds when the start is the first hash, or with
as many shards as were asked for. `getN_nearest` says how many rounds are enough. -/

/-- `Consistent`. -/
structure Consistent where
  /-- `circle` -/
  circle : AList fun _ : UInt32 => Bytes
  /-- `members` -/
  members : Finset Bytes
  /-- `sortedHashes` -/
  sortedHashes : List UInt32
  /-- `count` -/
  count : ℤ

/-- `ErrEmptyCircle`, the only error. -/
inductive RingError where
  /-- `ErrEmptyCircle` -/
  | emptyCircle
  deriving DecidableEq, Repr

namespace Consistent

/-- `NumberOfReplicas`, as `New` sets it. -/
def numberOfReplicas : ℕ := 20

/-- `New`. -/
def new : Consistent := ⟨∅, ∅, [], 0⟩

/-- `crc32.ChecksumIEEE`, bit by bit. `hashKey` is this, whether the key fits its scratch buffer or
not; what follows is about any hash function. -/
def checksumIEEE (data : Bytes) : UInt32 :=
  ~~~data.foldl (fun crc b => Nat.repeat
    (fun crc => if crc &&& 1 = 1 then (crc >>> 1) ^^^ 0xEDB88320 else crc >>> 1) 8
    (crc ^^^ b.toUInt32)) (~~~0)

-- of `123456789`
example : checksumIEEE [49, 50, 51, 52, 53, 54, 55, 56, 57] = 0xCBF43926 := by decide +kernel

/-- `eltKey`. -/
def eltKey (elt : Bytes) (idx : ℕ) : Bytes := GoString.decimal idx ++ elt

/-- `updateSortedHashes`. The order is that of the range over the circle. -/
def updateSortedHashes (order : IterOrder (Σ _ : UInt32, Bytes)) (c : Consistent) : Consistent :=
  { c with
    sortedHashes := ((order.arrange c.circle.entries).map Sigma.fst).insertionSort (· ≤ ·) }

/-- `search`: `sort.Search` finds the first hash above the key. -/
def search (c : Consistent) (key : UInt32) : ℕ :=
  let i := c.sortedHashes.findIdx fun h => decide (key < h)
  if c.sortedHashes.length ≤ i then 0 else i

/-- `c.circle[c.sortedHashes[i]]`. -/
def elemAt (c : Consistent) (i : ℕ) : Bytes :=
  ((c.sortedHashes[i]?).bind fun h => c.circle.lookup h).getD []

/-- The loop of `GetN`; `none` if it has not come to an end by then. -/
def getNLoop (c : Consistent) (start n : ℕ) : ℕ → ℕ → List Bytes → Option (List Bytes)
  | 0, _, _ => none
  | fuel + 1, i, res =>
    if i = start then
      some res
    else
      let i := if c.sortedHashes.length ≤ i then 0 else i
      let elem := c.elemAt i
      let res := if res.contains elem then res else res ++ [elem]
      if res.length = n then some res else getNLoop c start n fuel (i + 1) res

section

variable (hashKey : Bytes → UInt32)

/-- The points of an element. -/
def points (elt : Bytes) : List UInt32 :=
  (List.range numberOfReplicas).map fun i => hashKey (eltKey elt i)

/-- `add`. -/
def add (order : IterOrder (Σ _ : UInt32, Bytes)) (c : Consistent) (elt : Bytes) : Consistent :=
  let c := updateSortedHashes order
    { c with
      circle := (points hashKey elt).foldl (fun circle h => circle.insert h elt) c.circle
      members := insert elt c.members }
  { c with count := c.count + 1 }

/-- `remove`. -/
def remove (order : IterOrder (Σ _ : UInt32, Bytes)) (c : Consistent) (elt : Bytes) : Consistent :=
  let c := updateSortedHashes order
    { c with
      circle := (points hashKey elt).foldl (fun circle h => circle.erase h) c.circle
      members := c.members.erase elt }
  { c with count := c.count - 1 }

/-- `Set`. -/
def set (range : SetOrder Bytes) (order : IterOrder (Σ _ : UInt32, Bytes)) (c : Consistent)
    (elts : List Bytes) : Consistent :=
  elts.foldl (fun c v => if v ∈ c.members then c else c.add hashKey order v)
    ((range.visit c.members).foldl
      (fun c k => if elts.contains k then c else c.remove hashKey order k) c)

/-- `GetN`; `none` if its loop has not come to an end after `fuel` rounds. -/
def getN (c : Consistent) (fuel : ℕ) (name : Bytes) (n : ℕ) :
    Option (Except RingError (List Bytes)) :=
  if c.circle.entries.length = 0 then
    some (.error .emptyCircle)
  else
    let n := if c.count < n then c.count.toNat else n
    let start := c.search (hashKey name)
    let res := [c.elemAt start]
    if res.length = n then some (.ok res)
    else (c.getNLoop start n fuel (start + 1) res).map .ok

end

/-! ## What the circle looks like

`Placed` is what one would expect of a ring: the hashes on the circle are the points of the
members, each with its owner. Adding and removing keep it as long as no points are shared.
`circle_determined_iff` is the converse: two shards that share a point can be set in two orders,
with different circles. -/

section

variable (hashKey : Bytes → UInt32)

/-- No two elements share a point. -/
def Spread (pool : Set Bytes) : Prop :=
  ∀ a ∈ pool, ∀ b ∈ pool, ∀ h ∈ points hashKey a, h ∈ points hashKey b → a = b

/-- What has come out of `New` by calls of `Set`, with elements from the pool. -/
inductive History (pool : Set Bytes) : Consistent → Prop where
  /-- `New` -/
  | new : History pool Consistent.new
  /-- `Set` -/
  | set {c : Consistent} {elts : List Bytes} (range : SetOrder Bytes)
    (order : IterOrder (Σ _ : UInt32, Bytes)) :
    History pool c → (∀ v ∈ elts, v ∈ pool) → History pool (c.set hashKey range order elts)

/-- The circle has the points of the members, and the rest goes with it. -/
structure Placed (c : Consistent) : Prop where
  /-- a point belongs to the member whose point it is -/
  circle : ∀ h m, c.circle.lookup h = some m ↔ m ∈ c.members ∧ h ∈ points hashKey m
  /-- the hashes are sorted -/
  hashes : c.sortedHashes = c.circle.keys.insertionSort (· ≤ ·)
  /-- and the members counted -/
  count : c.count = c.members.card

end

section

variable {hashKey : Bytes → UInt32} {pool : Set Bytes} {c : Consistent} {elt : Bytes}
  (order : IterOrder (Σ _ : UInt32, Bytes))

/-- Fewer elements have fewer points to share. -/
theorem Spread.mono {pool' : Set Bytes} (h : Spread hashKey pool) (hsub : pool' ⊆ pool) :
    Spread hashKey pool' :=
  fun a ha b hb => h a (hsub ha) b (hsub hb)

/-- Sorting forgets the order of the range. -/
theorem updateSortedHashes_eq (c : Consistent) :
    c.updateSortedHashes order =
      { c with sortedHashes := c.circle.keys.insertionSort (· ≤ ·) } := by
  rw [updateSortedHashes]
  congr 1
  exact SetOrder.insertionSort_eq_of_perm ((order.perm c.circle.entries).map Sigma.fst)

@[simp] theorem members_add : (c.add hashKey order elt).members = insert elt c.members := by
  rw [add, updateSortedHashes_eq]

@[simp] theorem members_remove : (c.remove hashKey order elt).members = c.members.erase elt := by
  rw [remove, updateSortedHashes_eq]

/-- The last one to be added has the point. -/
theorem lookup_add (h : UInt32) : (c.add hashKey order elt).circle.lookup h =
    if h ∈ points hashKey elt then some elt else c.circle.lookup h := by
  rw [add, updateSortedHashes_eq]
  exact AList.lookup_insertAll ..

/-- A point is gone for everybody. -/
theorem lookup_remove (h : UInt32) : (c.remove hashKey order elt).circle.lookup h =
    if h ∈ points hashKey elt then none else c.circle.lookup h := by
  rw [remove, updateSortedHashes_eq]
  exact AList.lookup_eraseAll ..

theorem placed_new : Placed hashKey new where
  circle h m := by simp [new]
  hashes := rfl
  count := rfl

/-- An element that shares no point with the members is added beside them. -/
theorem Placed.add (h : Placed hashKey c) (hspread : Spread hashKey (insert elt c.members))
    (helt : elt ∉ c.members) : Placed hashKey (c.add hashKey order elt) where
  circle p m := by
    rw [lookup_add, members_add, Finset.mem_insert]
    split
    · rename_i hp
      rw [Option.some.injEq]
      constructor
      · rintro rfl
        exact ⟨.inl rfl, hp⟩
      · rintro ⟨hm, hpm⟩
        exact hspread elt (.inl rfl) m (hm.imp id id) p hp hpm
    · rename_i hp
      rw [h.circle]
      refine and_congr_left fun hpm => ⟨.inr, fun hm => hm.resolve_left ?_⟩
      rintro rfl
      exact hp hpm
  hashes := by rw [Consistent.add, updateSortedHashes_eq]
  count := by
    have hcount : (c.add hashKey order elt).count = c.count + 1 := by
      rw [Consistent.add, updateSortedHashes_eq]
    rw [hcount, members_add, Finset.card_insert_of_notMem helt, h.count]
    push_cast
    rfl

/-- A member that shares no point with the others is removed without them. -/
theorem Placed.remove (h : Placed hashKey c) (hspread : Spread hashKey c.members)
    (helt : elt ∈ c.members) : Placed hashKey (c.remove hashKey order elt) where
  circle p m := by
    rw [lookup_remove, members_remove, Finset.mem_erase]
    split
    · rename_i hp
      refine iff_of_false (by simp) ?_
      rintro ⟨⟨hne, hm⟩, hpm⟩
      exact hne (hspread m hm elt helt p hpm hp)
    · rename_i hp
      rw [h.circle]
      refine and_congr_left fun hpm => ⟨fun hm => ⟨?_, hm⟩, And.right⟩
      rintro rfl
      exact hp hpm
  hashes := by rw [Consistent.remove, updateSortedHashes_eq]
  count := by
    have hcount : (c.remove hashKey order elt).count = c.count - 1 := by
      rw [Consistent.remove, updateSortedHashes_eq]
    have hpos := Finset.card_pos.mpr ⟨elt, helt⟩
    rw [hcount, members_remove, Finset.card_erase_of_mem helt, h.count]
    omega

/-- The first loop of `Set`. -/
theorem mem_members_removing (elts keys : List Bytes) (c : Consistent) (m : Bytes) :
    m ∈ (keys.foldl (fun c k => if elts.contains k then c else c.remove hashKey order k) c).members ↔
      m ∈ c.members ∧ (m ∈ keys → m ∈ elts) := by
  induction keys generalizing c with
  | nil => simp
  | cons k keys ih =>
    rw [List.foldl_cons, ih, List.mem_cons]
    split
    · rename_i hk
      rw [List.contains_iff_mem] at hk
      grind
    · rename_i hk
      rw [List.contains_iff_mem] at hk
      rw [members_remove, Finset.mem_erase]
      grind

/-- The second loop of `Set`. -/
theorem mem_members_adding (elts : List Bytes) (c : Consistent) (m : Bytes) :
    m ∈ (elts.foldl (fun c v => if v ∈ c.members then c else c.add hashKey order v) c).members ↔
      m ∈ c.members ∨ m ∈ elts := by
  induction elts generalizing c with
  | nil => simp
  | cons v elts ih =>
    rw [List.foldl_cons, ih, List.mem_cons]
    split
    · grind
    · rw [members_add, Finset.mem_insert]
      grind

/-- **`Set` leaves the elements it is given.** -/
@[simp] theorem mem_members_set (range : SetOrder Bytes) {elts : List Bytes} {m : Bytes} :
    m ∈ (c.set hashKey range order elts).members ↔ m ∈ elts := by
  rw [set, mem_members_adding, mem_members_removing, range.mem_visit]
  grind

theorem Placed.removing (hspread : Spread hashKey c.members) (elts : List Bytes) {keys : List Bytes}
    (hnodup : keys.Nodup) (hkeys : ∀ k ∈ keys, k ∈ c.members) (h : Placed hashKey c) :
    Placed hashKey
      (keys.foldl (fun c k => if elts.contains k then c else c.remove hashKey order k) c) := by
  induction keys generalizing c with
  | nil => exact h
  | cons k keys ih =>
    obtain ⟨hk, hnodup⟩ := List.nodup_cons.mp hnodup
    obtain ⟨hmem, hkeys⟩ := List.forall_mem_cons.mp hkeys
    rw [List.foldl_cons]
    split
    · exact ih hspread hnodup hkeys h
    · refine ih (hspread.mono fun m hm => ?_) hnodup (fun k' hk' => ?_)
        (h.remove order hspread hmem)
      · exact Finset.mem_of_mem_erase (members_remove order ▸ hm)
      · rw [members_remove]
        exact Finset.mem_erase.mpr ⟨fun heq => hk (heq ▸ hk'), hkeys k' hk'⟩

theorem Placed.adding (hspread : Spread hashKey pool) {elts : List Bytes}
    (helts : ∀ v ∈ elts, v ∈ pool) (hmembers : ∀ m ∈ c.members, m ∈ pool) (h : Placed hashKey c) :
    Placed hashKey
      (elts.foldl (fun c v => if v ∈ c.members then c else c.add hashKey order v) c) := by
  induction elts generalizing c with
  | nil => exact h
  | cons v elts ih =>
    obtain ⟨hv, helts⟩ := List.forall_mem_cons.mp helts
    rw [List.foldl_cons]
    split
    · exact ih helts hmembers h
    · rename_i hnew
      have hall : ∀ m ∈ (insert v c.members : Finset Bytes), m ∈ pool := by
        intro m hm
        rcases Finset.mem_insert.mp hm with rfl | hm
        · exact hv
        · exact hmembers m hm
      refine ih helts (by rwa [members_add]) (h.add order (hspread.mono fun m hm => ?_) hnew)
      exact hall m (Finset.mem_insert.mpr hm)

/-- Members come from the pool. -/
theorem History.members_subset (h : History hashKey pool c) : ∀ m ∈ c.members, m ∈ pool := by
  cases h with
  | new => simp [Consistent.new]
  | set range order h helts =>
    intro m hm
    exact helts m ((mem_members_set order range).mp hm)

/-- **Whatever a ring went through, it has the points of its members**, if no two elements it ever
had share one. -/
theorem History.placed (hspread : Spread hashKey pool) (h : History hashKey pool c) :
    Placed hashKey c := by
  induction h with
  | new => exact placed_new
  | @set c elts range order h helts ih =>
    refine Placed.adding order hspread helts (fun m hm => ?_)
      (ih.removing order (hspread.mono h.members_subset) elts (range.nodup _)
        fun k hk => (range.mem_visit _ _).mp hk)
    exact h.members_subset m ((mem_members_removing order ..).mp hm).1

/-- Two rings with the points of the same members. -/
theorem Placed.same {d : Consistent} (hc : Placed hashKey c) (hd : Placed hashKey d)
    (hmembers : c.members = d.members) : (∀ h, c.circle.lookup h = d.circle.lookup h) ∧
      c.sortedHashes = d.sortedHashes ∧ c.count = d.count := by
  have hlookup : ∀ h, c.circle.lookup h = d.circle.lookup h := by
    intro h
    ext m
    rw [hc.circle, hd.circle, hmembers]
  refine ⟨hlookup, ?_, by rw [hc.count, hd.count, hmembers]⟩
  rw [hc.hashes, hd.hashes]
  exact SetOrder.insertionSort_eq_of_perm ((AList.entries_perm_of_lookup hlookup).map Sigma.fst)

/-- `Set` on a new ring. -/
theorem set_pair (range : SetOrder Bytes) {a b : Bytes} (hne : a ≠ b) :
    new.set hashKey range order [a, b] = (new.add hashKey order a).add hashKey order b := by
  have hvisit : range.visit (new : Consistent).members = [] :=
    List.eq_nil_iff_forall_not_mem.mpr fun m hm =>
      Finset.notMem_empty m ((range.mem_visit _ _).mp hm)
  have hfirst : a ∉ (new : Consistent).members := Finset.notMem_empty a
  have hsecond : b ∉ (new.add hashKey order a).members := by
    rw [members_add, Finset.mem_insert, not_or]
    exact ⟨hne.symm, Finset.notMem_empty b⟩
  rw [set, hvisit, List.foldl_nil, List.foldl_cons, if_neg hfirst, List.foldl_cons,
    if_neg hsecond, List.foldl_nil]

/-- The element that `Set` comes by last has all its points. -/
theorem lookup_set_pair (range : SetOrder Bytes) {a b : Bytes} (hne : a ≠ b) {h : UInt32}
    (hb : h ∈ points hashKey b) : (new.set hashKey range order [a, b]).circle.lookup h = some b := by
  rw [set_pair order range hne, lookup_add, if_pos hb]

/-- **The members say what the ring is, exactly if no two elements share a point.** -/
theorem circle_determined_iff (hashKey : Bytes → UInt32) (pool : Set Bytes) :
    (∀ c d, History hashKey pool c → History hashKey pool d → c.members = d.members →
      (∀ h, c.circle.lookup h = d.circle.lookup h) ∧ c.sortedHashes = d.sortedHashes ∧
        c.count = d.count) ↔ Spread hashKey pool := by
  constructor
  · intro hsame a ha b hb h hpa hpb
    by_contra hne
    have hpool : ∀ l : List Bytes, (∀ v ∈ l, v = a ∨ v = b) → ∀ v ∈ l, v ∈ pool := by
      intro l hl v hv
      rcases hl v hv with rfl | rfl
      · exact ha
      · exact hb
    let range := SetOrder.ascending Bytes
    let order := IterOrder.stored (Σ _ : UInt32, Bytes)
    have hmembers : (new.set hashKey range order [a, b]).members =
        (new.set hashKey range order [b, a]).members := by
      ext m
      rw [mem_members_set, mem_members_set]
      exact List.mem_pair.trans (Or.comm.trans List.mem_pair.symm)
    have hlookup := (hsame _ _ (.set range order .new (hpool [a, b] (by simp)))
      (.set range order .new (hpool [b, a] (by simp))) hmembers).1 h
    rw [lookup_set_pair order range hne hpb, lookup_set_pair order range (Ne.symm hne) hpa] at hlookup
    exact hne (Option.some.inj hlookup).symm
  · intro hspread c d hc hd hmembers
    exact (hc.placed hspread).same (hd.placed hspread) hmembers

end

/-! ## Who is nearest

The order in which `GetN` comes by the hashes is that of their distance from the key, going up
and around. So it meets the owners in the order of `reach`, which depends on nothing but the key
and the owner: this is what makes the choice the same on all nodes. `Course` is the general form
of such a walk. -/

/-- How far it is from a key up to a hash, around the circle. The hash of the key itself is the
farthest. -/
def distance (key h : UInt32) : ℕ := (h - key - 1).toNat

/-- How far it is to the nearest point of an element. -/
def reach (hashKey : Bytes → UInt32) (key : UInt32) (elt : Bytes) : ℕ :=
  (points hashKey elt).foldr (fun h least => min (distance key h) least) (2 ^ 32)

/-- The hashes in the order in which `GetN` comes by them. -/
def walk (c : Consistent) (key : UInt32) : List UInt32 := c.sortedHashes.rotate (c.search key)

/-- Whose point a hash is. -/
def owner (c : Consistent) (h : UInt32) : Bytes := (c.circle.lookup h).getD []

theorem foldr_min_le {key h : UInt32} {hashes : List UInt32} (hh : h ∈ hashes) (far : ℕ) :
    hashes.foldr (fun h least => min (distance key h) least) far ≤ distance key h := by
  induction hashes with
  | nil => cases hh
  | cons h' hashes ih =>
    rcases List.mem_cons.mp hh with rfl | hh
    · exact min_le_left _ _
    · exact (min_le_right _ _).trans (ih hh)

theorem foldr_min_mem (key : UInt32) (hashes : List UInt32) (far : ℕ) :
    hashes.foldr (fun h least => min (distance key h) least) far = far ∨
      ∃ h ∈ hashes, distance key h =
        hashes.foldr (fun h least => min (distance key h) least) far := by
  induction hashes with
  | nil => exact .inl rfl
  | cons h hashes ih =>
    rw [List.foldr_cons]
    rcases min_choice (distance key h)
        (hashes.foldr (fun h least => min (distance key h) least) far) with hmin | hmin
    · exact .inr ⟨h, List.mem_cons_self .., hmin.symm⟩
    · rw [hmin]
      exact ih.imp id fun ⟨h', hh', heq⟩ => ⟨h', List.mem_cons_of_mem _ hh', heq⟩

theorem reach_le {hashKey : Bytes → UInt32} {key h : UInt32} {elt : Bytes}
    (hh : h ∈ points hashKey elt) : reach hashKey key elt ≤ distance key h :=
  foldr_min_le hh _

/-- An element has a point, so one of them is the nearest. -/
theorem exists_distance_eq_reach (hashKey : Bytes → UInt32) (key : UInt32) (elt : Bytes) :
    ∃ h ∈ points hashKey elt, distance key h = reach hashKey key elt := by
  refine (foldr_min_mem key (points hashKey elt) (2 ^ 32)).resolve_left fun hfar => ?_
  have hpoint : hashKey (eltKey elt 0) ∈ points hashKey elt :=
    List.mem_map_of_mem (List.mem_range.mpr (by decide))
  have hle : reach hashKey key elt ≤ distance key (hashKey (eltKey elt 0)) := reach_le hpoint
  rw [reach, hfar] at hle
  exact absurd (UInt32.toNat_lt (hashKey (eltKey elt 0) - key - 1)) (not_lt.mpr hle)

section

variable {hashKey : Bytes → UInt32} {c : Consistent}

/-- The keys of a map are different, so sorting puts them in strict order. -/
theorem sorted_of_hashes (h : c.sortedHashes = c.circle.keys.insertionSort (· ≤ ·)) :
    c.sortedHashes.Pairwise (· < ·) := by
  rw [h]
  refine (List.sortedLE_insertionSort.sortedLT_of_nodup ?_).pairwise
  exact (List.perm_insertionSort _ _).nodup_iff.mpr c.circle.keys_nodup

theorem Placed.sorted (h : Placed hashKey c) : c.sortedHashes.Pairwise (· < ·) :=
  sorted_of_hashes h.hashes

/-- The hashes are the points of the members. -/
theorem Placed.mem_hashes_iff (h : Placed hashKey c) {p : UInt32} :
    p ∈ c.sortedHashes ↔ ∃ m ∈ c.members, p ∈ points hashKey m := by
  rw [h.hashes, List.mem_insertionSort]
  change p ∈ c.circle ↔ _
  rw [← AList.lookup_isSome, Option.isSome_iff_exists]
  simp only [h.circle]

/-- Going up from the key: first what is above it, then what is not. -/
theorem distance_lt {key p q : UInt32}
    (h : (key < p ∧ key < q ∧ p < q) ∨ (key < p ∧ ¬ key < q) ∨ (¬ key < p ∧ ¬ key < q ∧ p < q)) :
    distance key p < distance key q := by
  simp only [distance, UInt32.toNat_sub, UInt32.lt_iff_toNat_lt] at h ⊢
  have hp := UInt32.toNat_lt p
  have hq := UInt32.toNat_lt q
  have hkey := UInt32.toNat_lt key
  have hone : (1 : UInt32).toNat = 1 := rfl
  omega

/-- From the index that `sort.Search` finds, the hashes are above the key. -/
theorem lt_getElem_of_findIdx_le {hashes : List UInt32} (hsorted : hashes.Pairwise (· < ·))
    {key : UInt32} {j : ℕ} (hj : j < hashes.length)
    (hle : (hashes.findIdx fun h => decide (key < h)) ≤ j) : key < hashes[j] := by
  have hi : hashes.findIdx (fun h => decide (key < h)) < hashes.length := lt_of_le_of_lt hle hj
  have hfound : key < hashes[hashes.findIdx fun h => decide (key < h)] :=
    of_decide_eq_true (List.findIdx_getElem (w := hi))
  rcases hle.eq_or_lt with heq | hlt
  · simpa only [heq] using hfound
  · exact hfound.trans (List.pairwise_iff_getElem.mp hsorted _ _ hi hj hlt)

/-- **`GetN` comes by the hashes in order of distance.** -/
theorem sorted_walk (hsorted : c.sortedHashes.Pairwise (· < ·)) (key : UInt32) :
    (c.walk key).Pairwise fun p q => distance key p < distance key q := by
  set i := c.sortedHashes.findIdx fun h => decide (key < h) with hi
  have hbelow : ∀ p ∈ c.sortedHashes.take i, ¬ key < p := by
    intro p hp
    obtain ⟨j, hj, rfl⟩ := List.mem_take_iff_getElem.mp hp
    exact of_decide_eq_false (List.not_of_lt_findIdx (p := fun h => decide (key < h)) (by omega))
  have habove : ∀ p ∈ c.sortedHashes.drop i, key < p := by
    intro p hp
    obtain ⟨j, hj, rfl⟩ := List.mem_drop_iff_getElem.mp hp
    exact lt_getElem_of_findIdx_le hsorted _ (by omega)
  have hle : i ≤ c.sortedHashes.length := List.findIdx_le_length
  have hwalk : c.walk key = c.sortedHashes.drop i ++ c.sortedHashes.take i := by
    rw [walk, search, ← hi]
    split
    · have hlen : i = c.sortedHashes.length := by omega
      rw [hlen, List.rotate_zero, List.drop_length, List.take_length, List.nil_append]
    · exact List.rotate_eq_drop_append_take hle
  rw [hwalk, List.pairwise_append]
  refine ⟨(hsorted.sublist (List.drop_sublist _ _)).imp_of_mem fun hp hq hlt => ?_,
    (hsorted.sublist (List.take_sublist _ _)).imp_of_mem fun hp hq hlt => ?_,
    fun p hp q hq => ?_⟩
  · exact distance_lt (.inl ⟨habove _ hp, habove _ hq, hlt⟩)
  · exact distance_lt (.inr (.inr ⟨hbelow _ hp, hbelow _ hq, hlt⟩))
  · exact distance_lt (.inr (.inl ⟨habove _ hp, hbelow _ hq⟩))

/-- **The walk of `GetN` is a course**, on which every member is met and its nearest point is met
first. -/
theorem Placed.course (h : Placed hashKey c) (key : UInt32) :
    Course c.owner (distance key) (reach hashKey key) c.members (c.walk key) := by
  have howner : ∀ p ∈ c.walk key, c.owner p ∈ c.members ∧ p ∈ points hashKey (c.owner p) := by
    intro p hp
    obtain ⟨m, hm, hpm⟩ := h.mem_hashes_iff.mp (List.mem_rotate.mp hp)
    have hlookup := (h.circle p m).mpr ⟨hm, hpm⟩
    rw [owner, hlookup, Option.getD_some]
    exact ⟨hm, hpm⟩
  refine ⟨sorted_walk h.sorted key, fun p hp => (howner p hp).1,
    fun p hp => reach_le (howner p hp).2, fun m hm => ?_⟩
  obtain ⟨p, hp, hreach⟩ := exists_distance_eq_reach hashKey key m
  refine ⟨p, List.mem_rotate.mpr (h.mem_hashes_iff.mpr ⟨m, hm, hp⟩), ?_, hreach⟩
  rw [owner, (h.circle p m).mpr ⟨hm, hp⟩, Option.getD_some]

/-! ## Walking

By induction on what is left of the walk, with the owners met so far as the result of the loop.
The index of the loop wraps around once; `indexAfter` is where it stands before the test that
wraps it. -/

variable (hashKey c) in
/-- The owners of the hashes met, each where it is met first. -/
def met (key : UInt32) (hashes : List UInt32) : List Bytes :=
  heads c.owner (distance key) (reach hashKey key) hashes

/-- What is met on the way is met in one part of it or in the other. -/
theorem met_append (key : UInt32) (passed rest : List UInt32) :
    met hashKey c key (passed ++ rest) = met hashKey c key passed ++ met hashKey c key rest :=
  heads_append ..

/-- What the loop does with an element. -/
theorem Placed.met_concat (h : Placed hashKey c) {key p : UInt32} {passed rest : List UInt32}
    (hwalk : c.walk key = passed ++ p :: rest) :
    met hashKey c key (passed ++ [p]) =
      if (met hashKey c key passed).contains (c.owner p) then met hashKey c key passed
      else met hashKey c key passed ++ [c.owner p] := by
  have hcourse := h.course key
  rw [hwalk] at hcourse
  rw [met, hcourse.heads_concat]
  by_cases hmem : c.owner p ∈ heads c.owner (distance key) (reach hashKey key) passed <;>
    simp [met, hmem]

/-- What the walk comes by after `k` hashes is at an index that wraps around. -/
theorem elemAt_eq_owner {key p : UInt32} {passed rest : List UInt32}
    (hwalk : c.walk key = passed ++ p :: rest) :
    c.elemAt ((passed.length + c.search key) % c.sortedHashes.length) = c.owner p := by
  have hlt : passed.length < (c.walk key).length := by
    rw [hwalk]
    simp
  have hget : (c.walk key)[passed.length] = p := by simp [hwalk]
  have hlen : (passed.length + c.search key) % c.sortedHashes.length < c.sortedHashes.length := by
    refine Nat.mod_lt _ ?_
    rw [walk, List.length_rotate] at hlt
    omega
  simp only [walk, List.getElem_rotate] at hget
  rw [elemAt, List.getElem?_eq_getElem hlen, hget]
  rfl

theorem length_of_walk {key : UInt32} {passed rest : List UInt32}
    (hwalk : c.walk key = passed ++ rest) :
    c.sortedHashes.length = passed.length + rest.length := by
  rw [← List.length_rotate c.sortedHashes (c.search key), ← walk, hwalk, List.length_append]

/-- The first hash above the key, or the first of all: an index in any case. -/
theorem search_lt (hpos : 0 < c.sortedHashes.length) (key : UInt32) :
    c.search key < c.sortedHashes.length := by
  simp only [search]
  split <;> omega

/-- The element that `GetN` begins with. -/
theorem elemAt_search_of_walk {key p : UInt32} {rest : List UInt32}
    (hwalk : c.walk key = p :: rest) : c.elemAt (c.search key) = c.owner p := by
  have hwalk' : c.walk key = [] ++ p :: rest := hwalk
  have hpos : 0 < c.sortedHashes.length := by
    rw [length_of_walk hwalk']
    simp
  have helem := elemAt_eq_owner hwalk'
  rwa [List.length_nil, Nat.zero_add, Nat.mod_eq_of_lt (search_lt hpos key)] at helem

/-- The index of the loop after `k` hashes, before it is wrapped. -/
def indexAfter (len start k : ℕ) : ℕ := if start + k ≤ len then start + k else start + k - len

theorem wrap_indexAfter {len start k : ℕ} (hstart : start < len) (hk : k < len) :
    (if len ≤ indexAfter len start k then 0 else indexAfter len start k) = (k + start) % len := by
  rcases lt_trichotomy (start + k) len with hlt | heq | hgt
  · rw [Nat.mod_eq_of_lt (by omega)]
    grind [indexAfter]
  · rw [show k + start = len by omega, Nat.mod_self]
    grind [indexAfter]
  · rw [Nat.mod_eq_sub_mod (by omega), Nat.mod_eq_of_lt (by omega)]
    grind [indexAfter]

theorem mod_add_one_eq_indexAfter {len start k : ℕ} (hstart : start < len) (hk : k < len) :
    (k + start) % len + 1 = indexAfter len start (k + 1) := by
  rw [← wrap_indexAfter hstart hk]
  grind [indexAfter]

/-- The test at the head of the loop fails until all hashes have been met. -/
theorem indexAfter_ne {len start k : ℕ} (hpos : 0 < k) (hk : k < len) :
    indexAfter len start k ≠ start := by
  grind [indexAfter]

/-- **The loop of `GetN` collects owners until there are enough.** There is a round for each hash
that has not been met, so it does not matter what the loop does when it is back at the start. -/
theorem Placed.getNLoop_eq (h : Placed hashKey c) {key : UInt32} {n : ℕ}
    (hn : n ≤ c.members.card) {passed rest : List UInt32} (hwalk : c.walk key = passed ++ rest)
    (hpassed : passed ≠ []) (hfew : (met hashKey c key passed).length < n) {fuel : ℕ}
    (hfuel : rest.length ≤ fuel) :
    c.getNLoop (c.search key) n fuel
        (indexAfter c.sortedHashes.length (c.search key) passed.length)
        (met hashKey c key passed) = some ((met hashKey c key (c.walk key)).take n) := by
  induction rest generalizing passed fuel with
  | nil =>
    -- all have been met, so there are enough
    rw [List.append_nil] at hwalk
    rw [← hwalk, met, (h.course key).length_heads] at hfew
    omega
  | cons p rest ih =>
    obtain ⟨fuel, rfl⟩ : ∃ k, fuel = k + 1 := ⟨fuel - 1, by simp at hfuel; omega⟩
    have hlen := length_of_walk hwalk
    rw [List.length_cons] at hlen
    have hpos : 0 < passed.length := List.length_pos_of_ne_nil hpassed
    have hlt : passed.length < c.sortedHashes.length := by omega
    have hstart : c.search key < c.sortedHashes.length := search_lt (by omega) key
    have hwalk' : c.walk key = (passed ++ [p]) ++ rest := by rw [hwalk, List.append_assoc]; rfl
    rw [getNLoop, if_neg (indexAfter_ne hpos hlt)]
    simp only [wrap_indexAfter hstart hlt, elemAt_eq_owner hwalk, ← h.met_concat hwalk]
    split
    · rename_i henough
      rw [hwalk', met_append key (passed ++ [p]), ← henough, List.take_left]
    · rename_i hmore
      have hstep : (met hashKey c key (passed ++ [p])).length ≤
          (met hashKey c key passed).length + 1 := by
        rw [h.met_concat hwalk]
        split <;> simp
      have hlength : (passed ++ [p]).length = passed.length + 1 := by simp
      rw [mod_add_one_eq_indexAfter hstart hlt, ← hlength]
      exact ih hwalk' (by simp) (by omega) (by simpa using hfuel)

/-- `GetN` as a whole. -/
theorem Placed.getN_eq (h : Placed hashKey c) (hne : c.members.Nonempty) (name : Bytes) {n : ℕ}
    (hn : 1 ≤ n) {fuel : ℕ} (hfuel : c.sortedHashes.length ≤ fuel) :
    c.getN hashKey fuel name n =
      some (.ok ((met hashKey c (hashKey name) (c.walk (hashKey name))).take n)) := by
  have hlength := (h.course (hashKey name)).length_heads
  have hcard := Finset.card_pos.mpr hne
  obtain ⟨p, rest, hwalk⟩ : ∃ p rest, c.walk (hashKey name) = [] ++ p :: rest := by
    refine List.exists_cons_of_ne_nil fun hnil => ?_
    rw [hnil] at hlength
    exact hcard.ne hlength
  have hlen := length_of_walk hwalk
  rw [List.length_nil, List.length_cons] at hlen
  have hentries : c.circle.entries.length ≠ 0 := by
    have hkeys := (List.perm_insertionSort (· ≤ ·) c.circle.keys).length_eq
    rw [← h.hashes, AList.keys, List.keys, List.length_map] at hkeys
    omega
  have hfirst : [c.elemAt (c.search (hashKey name))] = met hashKey c (hashKey name) [p] := by
    rw [elemAt_search_of_walk hwalk, ← List.nil_append [p], h.met_concat hwalk]
    rfl
  have hcount : (if c.count < n then c.count.toNat else n) = min n c.members.card := by
    rw [h.count]
    split <;> omega
  have htake : (met hashKey c (hashKey name) (c.walk (hashKey name))).take (min n c.members.card) =
      (met hashKey c (hashKey name) (c.walk (hashKey name))).take n := by
    rw [← hlength, met]
    exact List.take_eq_take_min.symm
  have hwalk' : c.walk (hashKey name) = [p] ++ rest := hwalk
  rw [getN, if_neg hentries]
  simp only [hcount, hfirst]
  split
  · rename_i henough
    rw [← htake, hwalk', met_append, ← henough, List.take_left]
  · rename_i hmore
    have hone : (met hashKey c (hashKey name) [p]).length = 1 := congrArg List.length hfirst.symm
    have hindex : c.search (hashKey name) + 1 =
        indexAfter c.sortedHashes.length (c.search (hashKey name)) [p].length := by
      have hstart : c.search (hashKey name) < c.sortedHashes.length := search_lt (by omega) _
      rw [List.length_singleton]
      grind [indexAfter]
    rw [hindex, h.getNLoop_eq (min_le_right _ _) hwalk' (by simp) (by omega) (by omega), htake,
      Option.map_some]

/-- There are at most as many hashes as the members have points. -/
theorem Placed.length_sortedHashes_le (h : Placed hashKey c) :
    c.sortedHashes.length ≤ numberOfReplicas * c.members.card := by
  have hsub : c.sortedHashes ⊆ c.members.toList.flatMap (points hashKey) := by
    intro p hp
    obtain ⟨m, hm, hpm⟩ := h.mem_hashes_iff.mp hp
    exact List.mem_flatMap.mpr ⟨m, Finset.mem_toList.mpr hm, hpm⟩
  have hle := (List.subperm_of_subset (h.sorted.imp fun hlt => hlt.ne) hsub).length_le
  have hpoints : ∀ m, (points hashKey m).length = numberOfReplicas := by simp [points]
  rw [List.length_flatMap, List.map_congr_left fun m _ => hpoints m, List.map_const',
    List.sum_replicate, Finset.length_toList] at hle
  rw [Nat.mul_comm]
  exact hle

/-- **`GetN` returns, with the nearest members.** Whatever a ring went through, as long as no two
of the elements it ever had share a point. -/
theorem getN_nearest {pool : Set Bytes} (hspread : Spread hashKey pool)
    (h : History hashKey pool c) (hne : c.members.Nonempty) (name : Bytes) {n : ℕ} (hn : 1 ≤ n)
    {fuel : ℕ} (hfuel : numberOfReplicas * c.members.card ≤ fuel) :
    ∃ picked, c.getN hashKey fuel name n = some (.ok picked) ∧
      Foremost (reach hashKey (hashKey name)) c.members n picked :=
  have hplaced := h.placed hspread
  ⟨_, hplaced.getN_eq hne name hn (hplaced.length_sortedHashes_le.trans hfuel),
    (hplaced.course _).foremost n⟩

/-- The shards `a` and `b`. -/
def twoElements : Consistent :=
  new.set checksumIEEE (SetOrder.ascending Bytes) (IterOrder.stored _) [[97], [98]]

/-- Their forty points are different. -/
theorem spread_twoElements : Spread checksumIEEE {m | m ∈ ([[97], [98]] : List Bytes)} := by
  have hall : ((points checksumIEEE [97]).all fun h => !(points checksumIEEE [98]).contains h) =
      true := by decide +kernel
  have hapart : ∀ h ∈ points checksumIEEE [97], h ∉ points checksumIEEE [98] := by
    intro h hh
    simpa using List.all_eq_true.mp hall h hh
  intro a ha b hb h hpa hpb
  rcases List.mem_pair.mp ha with rfl | rfl <;> rcases List.mem_pair.mp hb with rfl | rfl
  · rfl
  · exact absurd hpb (hapart h hpa)
  · exact absurd hpa (hapart h hpb)
  · rfl

/-- One shard is picked for `k`, and it is the nearer one. -/
theorem getN_nearest_twoElements : ∃ picked,
    twoElements.getN checksumIEEE 40 [107] 1 = some (.ok picked) ∧
      Foremost (reach checksumIEEE (checksumIEEE [107])) twoElements.members 1 picked := by
  have hmembers : twoElements.members = {[97], [98]} := by
    ext m
    rw [twoElements, mem_members_set]
    simp
  have hhistory : History checksumIEEE {m | m ∈ ([[97], [98]] : List Bytes)} twoElements :=
    .set _ _ .new fun v hv => hv
  refine getN_nearest spread_twoElements hhistory ?_ [107] (le_refl 1) ?_
  · exact ⟨[97], by simp [hmembers]⟩
  · rw [hmembers]
    decide

/-! ## Shared points

A shared point is not a matter of bad luck with the hash function: the key of a point is the
index followed by the name, so `1` and `0a` make the same text as `10` and `a`. -/

/-- **Whatever the hash function is**, a shard shares a point with the one that has a digit before
its name: the name with the index `1` before the digit is the name with an index from `10` to `19`
before it. -/
theorem shared_point (hashKey : Bytes → UInt32) (elt : Bytes) {d : ℕ} (hd : d < 10) :
    hashKey (49 :: (48 + d).toUInt8 :: elt) ∈ points hashKey elt ∧
      hashKey (49 :: (48 + d).toUInt8 :: elt) ∈ points hashKey ((48 + d).toUInt8 :: elt) := by
  constructor
  · refine List.mem_map.mpr ⟨10 + d, List.mem_range.mpr (by simp [numberOfReplicas]; omega), ?_⟩
    rw [eltKey, GoString.decimal_eq, if_neg (by omega), show (10 + d) / 10 = 1 by omega,
      show (10 + d) % 10 = d by omega]
    rfl
  · refine List.mem_map.mpr ⟨1, List.mem_range.mpr (by decide), ?_⟩
    rfl

/-- From a ring of two elements, one is picked without a loop. -/
theorem getN_one_set_pair (range : SetOrder Bytes) (order : IterOrder (Σ _ : UInt32, Bytes))
    {a b : Bytes} (hne : a ≠ b) (fuel : ℕ) (name : Bytes) :
    (new.set hashKey range order [a, b]).getN hashKey fuel name 1 =
      some (.ok [(new.set hashKey range order [a, b]).elemAt
        ((new.set hashKey range order [a, b]).search (hashKey name))]) := by
  have hpoint : hashKey (eltKey b 0) ∈ points hashKey b :=
    List.mem_map_of_mem (List.mem_range.mpr (by decide))
  have hlookup := lookup_set_pair order range hne hpoint
  have hcount : (new.set hashKey range order [a, b]).count = 2 := by
    rw [set_pair order range hne, add, updateSortedHashes_eq, add, updateSortedHashes_eq]
    rfl
  have hentries : (new.set hashKey range order [a, b]).circle.entries.length ≠ 0 := by
    intro hzero
    have hempty : (new.set hashKey range order [a, b]).circle = ∅ :=
      AList.ext (List.length_eq_zero_iff.mp hzero)
    rw [hempty] at hlookup
    cases hlookup
  rw [getN, if_neg hentries]
  simp only [hcount, List.length_singleton]
  rfl

/-- It is the owner of the nearest hash. -/
theorem elemAt_search (hsorted : c.sortedHashes.Pairwise (· < ·)) {key p : UInt32}
    (hp : p ∈ c.sortedHashes) (hnear : ∀ q ∈ c.sortedHashes, distance key p ≤ distance key q) :
    c.elemAt (c.search key) = c.owner p := by
  obtain ⟨q, rest, hwalk⟩ : ∃ q rest, c.walk key = q :: rest := by
    refine List.exists_cons_of_ne_nil fun hnil => ?_
    rw [← List.mem_rotate, ← walk, hnil] at hp
    cases hp
  have hwalkSorted := sorted_walk hsorted key
  rw [hwalk] at hwalkSorted
  have hmem : ∀ q', q' ∈ c.sortedHashes ↔ q' ∈ q :: rest := by
    intro q'
    rw [← List.mem_rotate, ← walk, hwalk]
  have hq : q ∈ c.sortedHashes := (hmem q).mpr (List.mem_cons_self ..)
  rcases List.mem_cons.mp ((hmem p).mp hp) with rfl | hlater
  · exact elemAt_search_of_walk hwalk
  · exact absurd ((List.pairwise_cons.mp hwalkSorted).1 p hlater) (not_lt.mpr (hnear q hq))

/-- **A shared point is given to the element that was added last.** -/
theorem getN_set_pair (range : SetOrder Bytes) (order : IterOrder (Σ _ : UInt32, Bytes))
    {a b : Bytes} (hne : a ≠ b) {h : UInt32} (hb : h ∈ points hashKey b) {name : Bytes}
    (hnear : ∀ q ∈ points hashKey a ++ points hashKey b,
      distance (hashKey name) h ≤ distance (hashKey name) q) (fuel : ℕ) :
    (new.set hashKey range order [a, b]).getN hashKey fuel name 1 = some (.ok [b]) := by
  have hlookup := lookup_set_pair order range hne hb
  rw [getN_one_set_pair range order hne]
  rw [set_pair order range hne] at hlookup ⊢
  set c := (new.add hashKey order a).add hashKey order b with hc
  have hhashes : c.sortedHashes = c.circle.keys.insertionSort (· ≤ ·) := by
    rw [hc, add, updateSortedHashes_eq]
  have hmem : ∀ q, q ∈ c.sortedHashes ↔ (c.circle.lookup q).isSome := by
    intro q
    rw [hhashes, List.mem_insertionSort]
    exact AList.lookup_isSome.symm
  have hpoints : ∀ q ∈ c.sortedHashes, q ∈ points hashKey a ++ points hashKey b := by
    intro q hq
    rw [hmem, hc, lookup_add, lookup_add] at hq
    rw [List.mem_append]
    by_contra hnone
    rw [not_or] at hnone
    rw [if_neg hnone.2, if_neg hnone.1] at hq
    cases hq
  have howner : c.owner h = b := by rw [owner, hlookup, Option.getD_some]
  rw [elemAt_search (sorted_of_hashes hhashes) ((hmem h).mpr (by rw [hlookup]; rfl))
    (fun q hq => hnear q (hpoints q hq)), howner]

end

end Consistent

end Sequins
