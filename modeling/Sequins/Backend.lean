import Sequins.GoPath
import Sequins.GoString
import Sequins.HashCode
import Sequins.ObjectStore

/-!
# The backends and their file listings

A backend keeps `<root>/<db>/<version>/<file>`. On disk that is a tree of directories; in S3 it is
a bucket of keys, in which a directory is only a prefix that keys share. Both are given here by
the same thing, the keys of the files, so that the two backends can be compared on one tree.

`S3Backend.listFiles` asks for the keys that continue `<root>/<db>/<version>` — without a slash
behind it — and keeps of each key its last part. Nothing says that a key with this prefix is a
file of this version: version `1` also sees the files of `10`, and a file further down is taken
for one of the version. `files_exact_iff` says when the listing is right all the same.
-/

namespace Sequins

open GoPath (join base)
open GoString (blank)

/-! ## Names in order -/

/-- A list of exactly the names with a property, sorted and without duplicates. -/
def Enumerates (l : List Bytes) (p : Bytes → Prop) : Prop := l.Pairwise (· < ·) ∧ ∀ x, x ∈ l ↔ p x

/-- The keys of a Go map, sorted. -/
def sortedNames (names : List Bytes) : List Bytes := names.dedup.insertionSort (· ≤ ·)

/-- A map has each key once, and sorting puts them in order. -/
theorem sortedNames_enumerates (names : List Bytes) :
    Enumerates (sortedNames names) (· ∈ names) := by
  refine ⟨?_, ?_⟩
  · have hnodup : (sortedNames names).Nodup :=
      (List.perm_insertionSort _ _).nodup_iff.mpr (List.nodup_dedup names)
    exact (List.sortedLE_insertionSort.sortedLT_of_nodup hnodup).pairwise
  · intro x
    rw [sortedNames, List.mem_insertionSort, List.mem_dedup]

/-! ## The local backend -/

/-- `LocalBackend`. -/
structure LocalBackend where
  path : Bytes

/-- The paths of the files under a directory, from there. -/
def underDir (keys : List Bytes) (dir : Bytes) : List Bytes :=
  (keys.filter ((dir ++ [47]) <+: ·)).map (·.drop (dir.length + 1))

/-- The names in a directory. -/
def dirNames (keys : List Bytes) (dir : Bytes) : List Bytes :=
  sortedNames ((underDir keys dir).map (·.takeWhile (· ≠ 47)))

/-- Whether a name in a directory is a directory itself. -/
def isDir (keys : List Bytes) (dir name : Bytes) : Bool :=
  (underDir keys dir).any ((name ++ [47]) <+: ·)

/-- `ioutil.ReadDir` on the tree of the given files: the names in a directory, in order, each with
whether it is a directory. There is no directory without files. -/
def readDir (keys : List Bytes) (dir : Bytes) : Option (List (Bytes × Bool)) :=
  if underDir keys dir = [] then
    none
  else
    some ((dirNames keys dir).map fun name => (name, isDir keys dir name))

/-- Whether the name of a file begins with `_` or `.`. -/
def hidden (name : Bytes) : Bool := name.head? == some 95 || name.head? == some 46

/-- `LocalBackend.ListFiles`. -/
def LocalBackend.listFiles (lb : LocalBackend) (keys : List Bytes) (db version : Bytes) :
    Option (List Bytes) :=
  (readDir keys (join [lb.path, db, version])).map fun infos =>
    (infos.filter fun info => !info.2 && !hidden info.1).map fun info => base info.1

/-! ## The S3 backend -/

/-- `S3Backend`, for one bucket. -/
structure S3Backend where
  path : Bytes

/-- What `ListObjectsPages` hands out of a bucket: pages that hold every key with the prefix that
was asked for, and no other. The service may list a key more than once. -/
structure ObjectPages (keys : List Bytes) where
  pages : Bytes → List (List Bytes)
  listed : ∀ pre key, key ∈ (pages pre).flatten ↔ key ∈ keys ∧ pre <+: key

/-- The names that `ListFiles` keeps. -/
def dataName (name : Bytes) : Bool := !blank name && !hidden name

/-- `S3Backend.ListFiles`. -/
def S3Backend.listFiles (s : S3Backend) {keys : List Bytes} (svc : ObjectPages keys)
    (db version : Bytes) : List Bytes :=
  let versionPrefix := join [s.path, db, version]
  sortedNames (((svc.pages versionPrefix).flatten.map base).filter dataName)

/-! ## The files of a version

What a listing should be: the data files right inside the directory of the version. The local
backend gives just that, for every tree. For S3 it takes that no other key begins with the path
of the directory, or that such a key ends in a name that is there anyway. -/

/-- The data files right inside a directory. -/
def DataFile (keys : List Bytes) (dir name : Bytes) : Prop :=
  47 ∉ name ∧ dir ++ 47 :: name ∈ keys ∧ dataName name = true

/-- The keys under a directory make a tree: their parts are names, and no file is a directory. -/
structure IsTree (keys : List Bytes) (dir : Bytes) : Prop where
  proper : ∀ rest, dir ++ 47 :: rest ∈ keys → ∀ part ∈ rest.splitOn 47, GoPath.Proper part
  leaf : ∀ name, dir ++ 47 :: name ∈ keys → ∀ key ∈ keys, ¬ dir ++ 47 :: (name ++ [47]) <+: key

theorem dataName_ne_nil {name : Bytes} (h : dataName name = true) : name ≠ [] := by
  rintro rfl
  cases h

/-- The files of a version are always listed, whatever comes with them. -/
theorem DataFile.base_eq {keys : List Bytes} {dir name : Bytes} (h : DataFile keys dir name) :
    base (dir ++ 47 :: name) = name :=
  GoPath.base_append_slash (dataName_ne_nil h.2.2) h.1

section Tree

variable {keys : List Bytes} {dir : Bytes}

theorem mem_underDir {rest : Bytes} : rest ∈ underDir keys dir ↔ dir ++ 47 :: rest ∈ keys := by
  simp only [underDir, List.mem_map, List.mem_filter, decide_eq_true_eq]
  refine ⟨?_, ?_⟩
  · rintro ⟨key, ⟨hk, x, rfl⟩, rfl⟩
    have hdrop : (dir ++ [47] ++ x).drop (dir.length + 1) = x := List.drop_left' (by simp)
    rw [hdrop]
    simpa using hk
  · intro hk
    refine ⟨_, ⟨hk, rest, by simp⟩, ?_⟩
    rw [← List.singleton_append, ← List.append_assoc]
    exact List.drop_left' (by simp)

/-- A directory is there if some file is in it, at whatever depth. -/
theorem isDir_iff {name : Bytes} :
    isDir keys dir name = true ↔ ∃ rest, dir ++ 47 :: (name ++ 47 :: rest) ∈ keys := by
  simp only [isDir, List.any_eq_true, decide_eq_true_eq, mem_underDir]
  refine ⟨?_, ?_⟩
  · rintro ⟨_, hmem, x, rfl⟩
    exact ⟨x, by simpa using hmem⟩
  · rintro ⟨x, hx⟩
    exact ⟨_, hx, x, by simp⟩

/-- A name in a directory is that of a file or of a directory. -/
theorem mem_dirNames {name : Bytes} :
    name ∈ dirNames keys dir ↔
      47 ∉ name ∧ (dir ++ 47 :: name ∈ keys ∨ isDir keys dir name = true) := by
  simp only [dirNames, (sortedNames_enumerates _).2, List.mem_map, mem_underDir, isDir_iff]
  refine ⟨?_, ?_⟩
  · rintro ⟨rest, hrest, rfl⟩
    refine ⟨ObjectStore.not_mem_takeWhile 47 rest, ?_⟩
    rcases ObjectStore.takeWhile_cases 47 rest with heq | ⟨x, heq⟩
    · exact .inl (heq ▸ hrest)
    · exact .inr ⟨x, heq ▸ hrest⟩
  · rintro ⟨hname, hfile | ⟨rest, hrest⟩⟩
    · exact ⟨name, hfile, ObjectStore.takeWhile_of_not_mem hname⟩
    · exact ⟨_, hrest, ObjectStore.takeWhile_append_cons hname rest⟩

/-- Names in a tree are neither empty nor dots, so `path.Join` keeps them. -/
theorem IsTree.proper_name (htree : IsTree keys dir) {name : Bytes}
    (hname : name ∈ dirNames keys dir) : GoPath.Proper name := by
  simp only [dirNames, (sortedNames_enumerates _).2, List.mem_map, mem_underDir] at hname
  obtain ⟨rest, hrest, rfl⟩ := hname
  exact htree.proper rest hrest _ (ObjectStore.takeWhile_mem_splitOn 47 rest)

/-- Reading a directory that is there. -/
theorem readDir_eq (hdir : ∃ rest, dir ++ 47 :: rest ∈ keys) :
    readDir keys dir = some ((dirNames keys dir).map fun name => (name, isDir keys dir name)) := by
  obtain ⟨rest, hrest⟩ := hdir
  rw [readDir, if_neg (List.ne_nil_of_mem (mem_underDir.mpr hrest))]

/-- **On disk the files of a version are listed exactly.** -/
theorem LocalBackend.listFiles_enumerates (lb : LocalBackend) {db version : Bytes}
    (hpath : join [lb.path, db, version] = dir) (htree : IsTree keys dir)
    (hdir : ∃ rest, dir ++ 47 :: rest ∈ keys)
    (hblank : ∀ name, dir ++ 47 :: name ∈ keys → 47 ∉ name → blank name = false) :
    ∃ l, lb.listFiles keys db version = some l ∧ Enumerates l (DataFile keys dir) := by
  have hbase : ∀ name ∈ dirNames keys dir, base name = name := by
    intro name hname
    exact GoPath.base_of_not_mem (htree.proper_name hname).1 (mem_dirNames.mp hname).1
  have hlist : lb.listFiles keys db version =
      some ((dirNames keys dir).filter fun name => !isDir keys dir name && !hidden name) := by
    rw [listFiles, hpath, readDir_eq hdir, Option.map_some, List.filter_map, List.map_map]
    refine congrArg some (Eq.trans (List.map_congr_left fun name hname => ?_) (List.map_id _))
    exact hbase name (List.mem_of_mem_filter hname)
  refine ⟨_, hlist, (sortedNames_enumerates _).1.filter _, fun name => ?_⟩
  simp only [List.mem_filter, mem_dirNames, DataFile, dataName, Bool.and_eq_true,
    Bool.not_eq_true']
  refine ⟨?_, ?_⟩
  · rintro ⟨⟨hname, hfile | hisDir⟩, hnot, hvisible⟩
    · exact ⟨hname, hfile, hblank name hfile hname, hvisible⟩
    · rw [hnot] at hisDir
      cases hisDir
  · rintro ⟨hname, hfile, -, hvisible⟩
    refine ⟨⟨hname, .inl hfile⟩, ?_, hvisible⟩
    rw [← Bool.not_eq_true, isDir_iff]
    rintro ⟨rest, hrest⟩
    exact htree.leaf name hfile _ hrest ⟨rest, by simp⟩

end Tree

/-- What S3 lists: the last part of every key that *begins* with the path of the version. -/
theorem S3Backend.mem_listFiles (s : S3Backend) {keys : List Bytes} (svc : ObjectPages keys)
    {db version name : Bytes} :
    name ∈ s.listFiles svc db version ↔
      (∃ key ∈ keys, join [s.path, db, version] <+: key ∧ base key = name) ∧
        dataName name = true := by
  simp only [listFiles, (sortedNames_enumerates _).2, List.mem_filter, List.mem_map, svc.listed,
    and_assoc]

/-- A key that continues the path of a directory without being that of a file right inside: one
of a sibling whose name goes on, one further down, or the directory's own. -/
def Stray (keys : List Bytes) (dir key : Bytes) : Prop :=
  key ∈ keys ∧ dir <+: key ∧ ∀ name, name ≠ [] → 47 ∉ name → key ≠ dir ++ 47 :: name

/-- **The listing of a version's files is exact just when no stray key shows a new name.** Each of
them has to end in a name that is none of a data file, or that is the name of a file of the version
as well. On disk the listing is always exact. -/
theorem files_exact_iff (s : S3Backend) {keys : List Bytes} (svc : ObjectPages keys)
    (db version : Bytes) :
    (Enumerates (s.listFiles svc db version) (DataFile keys (join [s.path, db, version])) ↔
      ∀ key, Stray keys (join [s.path, db, version]) key → dataName (base key) = true →
        DataFile keys (join [s.path, db, version]) (base key)) ∧
    ∀ lb : LocalBackend, lb.path = s.path → IsTree keys (join [s.path, db, version]) →
      (∃ rest, join [s.path, db, version] ++ 47 :: rest ∈ keys) →
      (∀ name, join [s.path, db, version] ++ 47 :: name ∈ keys → 47 ∉ name →
        blank name = false) →
      ∃ l, lb.listFiles keys db version = some l ∧
        Enumerates l (DataFile keys (join [s.path, db, version])) := by
  refine ⟨?_, ?_⟩
  · constructor
    · rintro h key ⟨hk, hpre, -⟩ hname
      exact (h.2 (base key)).mp ((s.mem_listFiles svc).mpr ⟨⟨key, hk, hpre, rfl⟩, hname⟩)
    · intro h
      refine ⟨(sortedNames_enumerates _).1, fun name => ?_⟩
      rw [s.mem_listFiles]
      refine ⟨?_, ?_⟩
      · rintro ⟨⟨key, hk, hpre, rfl⟩, hname⟩
        by_cases hinside :
            ∃ name, name ≠ [] ∧ 47 ∉ name ∧ key = join [s.path, db, version] ++ 47 :: name
        · obtain ⟨name, hne, hslash, rfl⟩ := hinside
          rw [GoPath.base_append_slash hne hslash] at hname ⊢
          exact ⟨hslash, hk, hname⟩
        · refine h key ⟨hk, hpre, fun name hne hslash heq => ?_⟩ hname
          exact hinside ⟨name, hne, hslash, heq⟩
      · intro hfile
        exact ⟨⟨_, hfile.2.1, List.prefix_append _ _, hfile.base_eq⟩, hfile.2.2⟩
  · intro lb hpath htree hdir hblank
    exact lb.listFiles_enumerates (by rw [hpath]) htree hdir hblank

/-- A bucket whose listings fit on one page. -/
def onePage (keys : List Bytes) : ObjectPages keys where
  pages pre := [keys.filter (pre <+: ·)]
  listed pre key := by simp

/-- What there is under `p/d`: version `1` with the files `f` and `g` and a `_SUCCESS`, version `2`
with `f` and a `_SUCCESS`, and version `3` with `f` alone. -/
def bucketRests : List Bytes :=
  [[49, 47, 95, 83, 85, 67, 67, 69, 83, 83], [49, 47, 102], [49, 47, 103],
    [50, 47, 95, 83, 85, 67, 67, 69, 83, 83], [50, 47, 102], [51, 47, 102]]

/-- The names in version `1`. -/
def firstFiles : List Bytes := [[95, 83, 85, 67, 67, 69, 83, 83], [102], [103]]

/-- The bucket with these keys. -/
def bucket : List Bytes := bucketRests.map ([112, 47, 100, 47] ++ ·)

/-- The keys under `p/d`, for the checks of the two backends by cases. -/
theorem mem_bucketRests (rest : Bytes) (h : [112, 47, 100] ++ 47 :: rest ∈ bucket) :
    rest ∈ bucketRests := by
  obtain ⟨rest', hrest', heq⟩ := List.mem_map.mp h
  obtain rfl : rest' = rest := by simpa using heq
  exact hrest'

/-- Version `1` is exact in both backends: its keys are those of its files and its `_SUCCESS`. -/
theorem files_exact_bucket :
    Enumerates ((S3Backend.mk [112]).listFiles (onePage bucket) [100] [49])
        (DataFile bucket [112, 47, 100, 47, 49]) ∧
      ∃ l, (LocalBackend.mk [112]).listFiles bucket [100] [49] = some l ∧
        Enumerates l (DataFile bucket [112, 47, 100, 47, 49]) := by
  obtain ⟨hiff, hlocal⟩ := files_exact_iff ⟨[112]⟩ (onePage bucket) [100] [49]
  have hname : ∀ name : Bytes, [112, 47, 100, 47, 49] ++ 47 :: name ∈ bucket →
      name ∈ firstFiles := by
    intro name hkey
    have hrest := mem_bucketRests ([49, 47] ++ name) (by simpa using hkey)
    simpa [bucketRests, firstFiles] using hrest
  have hinside : ∀ key ∈ bucket, [112, 47, 100, 47, 49] <+: key →
      key.drop 6 ≠ [] ∧ 47 ∉ key.drop 6 ∧ key = [112, 47, 100, 47, 49] ++ 47 :: key.drop 6 := by
    decide
  refine ⟨hiff.mpr fun key hstray => ?_, ?_⟩
  · obtain ⟨hne, hslash, heq⟩ := hinside key hstray.1 hstray.2.1
    exact absurd heq (hstray.2.2 _ hne hslash)
  · have hproper : ∀ name ∈ firstFiles, ∀ part ∈ name.splitOn 47, GoPath.Proper part := by decide
    have hleaf : ∀ name ∈ firstFiles, ∀ key ∈ bucket,
        ¬ [112, 47, 100, 47, 49] ++ 47 :: (name ++ [47]) <+: key := by decide
    have hblank : ∀ name ∈ firstFiles, blank name = false := by decide
    exact hlocal ⟨[112]⟩ rfl ⟨fun rest hrest => hproper rest (hname rest hrest),
      fun name hkey => hleaf name (hname name hkey)⟩ ⟨[102], by decide⟩
      fun name hkey _ => hblank name (hname name hkey)

example : (S3Backend.mk [112]).listFiles (onePage bucket) [100] [49] = [[102], [103]] := by decide

/-- The versions `1` and `10`, each with a file of its own: `p/d/1/f` and `p/d/10/g`. -/
def twoVersions : List Bytes :=
  [[112, 47, 100, 47, 49, 47, 102], [112, 47, 100, 47, 49, 48, 47, 103]]

/-- Version `1` is listed with the file of version `10`. -/
theorem twoVersions_lists_other :
    (S3Backend.mk [112]).listFiles (onePage twoVersions) [100] [49] = [[102], [103]] ∧
      ¬ Enumerates ((S3Backend.mk [112]).listFiles (onePage twoVersions) [100] [49])
        (DataFile twoVersions [112, 47, 100, 47, 49]) := by
  have hlist :
      (S3Backend.mk [112]).listFiles (onePage twoVersions) [100] [49] = [[102], [103]] := by
    decide
  refine ⟨hlist, fun h => ?_⟩
  rw [hlist] at h
  have hfile := ((h.2 [103]).mp (by decide)).2.1
  exact absurd hfile (by decide)

-- a file further down, and an object with the name of the directory
example : (S3Backend.mk [112]).listFiles (onePage [[112, 47, 100, 47, 49, 47, 120, 47, 102]])
    [100] [49] = [[102]] := by decide
example : (S3Backend.mk [112]).listFiles (onePage [[112, 47, 100, 47, 49, 47]])
    [100] [49] = [[49]] := by decide

end Sequins
