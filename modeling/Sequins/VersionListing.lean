import Sequins.Backend

/-!
# Listing the versions of a database

`LocalBackend.ListVersions` reads a directory and keeps what comes after the version it was given.
`S3Backend.ListVersions` leaves that to S3, as the marker of its listing, and goes through the
pages with the last common prefix of each as the next marker. Two things go wrong there.

The first marker is the bare name of a version, while S3 compares markers with whole keys: under
`p/d/` either all versions come after it or none. And the later markers are not common prefixes but
their printed structs (`CommonPrefix.String`), which begin with a brace. Such a marker never lies
under the path of the database (`Quoting.marker_lt_iff`), so the second page is empty or the first
one over again, for ever. What is listed is the first page (`listDirsFrom_eq`), or nothing is ever
returned (`listDirsFrom_endless`), and `versions_exact_iff` says when that is right.
-/

namespace Sequins

open GoPath (join base)
open GoString (blank)
open ObjectStore (entries isCommon listObjects)

/-! ## The listing -/

/-- `strings.TrimSuffix(s, "/")`. -/
def trimSlash (s : Bytes) : Bytes := if s.getLast? = some 47 then s.dropLast else s

/-- The text of a string under the verb `%q`, without its quotation marks. Slashes are not escaped
and an escape holds none; what is escaped gets longer. -/
structure Quoting where
  quote : Bytes → Bytes
  slash : ∀ a b, quote (a ++ 47 :: b) = quote a ++ 47 :: quote b
  not_mem : ∀ s, 47 ∉ s → 47 ∉ quote s
  length_le : ∀ s, s.length ≤ (quote s).length

/-- `CommonPrefix.String`: the struct over three lines, `{`, `  Prefix: "…"` and `}`. -/
def Quoting.commonPrefixString (q : Quoting) (pre : Bytes) : Bytes :=
  [123, 10, 32, 32, 80, 114, 101, 102, 105, 120, 58, 32, 34] ++ q.quote pre ++ [34, 10, 125]

/-- Whether a common prefix is taken for a directory: one of the first three keys after the marker
does not end in a blank name. -/
def looksLikeDir (keys : List Bytes) (after pre : Bytes) : Bool :=
  (listObjects keys pre none after 3).contents.any fun key => !blank (base key)

/-- A page of the directories under a path. -/
def dirPage (keys : List Bytes) (dir after : Bytes) : ObjectStore.Listing UInt8 :=
  listObjects keys (dir ++ [47]) (some 47) after 1000

/-- The directories that are kept of a page. -/
def pageDirs (keys : List Bytes) (dir after : Bytes) : List Bytes :=
  ((dirPage keys dir after).commonPrefixes.map trimSlash).filter (looksLikeDir keys after)

/-- The loop of `S3Backend.listDirs`, with a bound on the number of pages. -/
def listDirsFrom (q : Quoting) (keys : List Bytes) (dir : Bytes) :
    ℕ → Bytes → Option (List Bytes)
  | 0, _ => none
  | fuel + 1, after =>
    match (dirPage keys dir after).commonPrefixes.getLast? with
    | none => some []
    | some last =>
      let res := (pageDirs keys dir after).map base
      if (dirPage keys dir after).isTruncated then
        (listDirsFrom q keys dir fuel (q.commonPrefixString last)).map (res ++ ·)
      else
        some res

/-- `S3Backend.listDirs`. -/
def S3Backend.listDirs (q : Quoting) (keys : List Bytes) (dir after : Bytes) (fuel : ℕ) :
    Option (List Bytes) :=
  (listDirsFrom q keys dir fuel after).map (·.insertionSort (· ≤ ·))

/-- `_SUCCESS`. -/
def successName : Bytes := [95, 83, 85, 67, 67, 69, 83, 83]

/-- `S3Backend.ListVersions`. -/
def S3Backend.listVersions (s : S3Backend) (q : Quoting) (keys : List Bytes) (db after : Bytes)
    (checkForSuccess : Bool) (fuel : ℕ) : Option (List Bytes) :=
  (S3Backend.listDirs q keys (join [s.path, db]) after fuel).map fun versions =>
    if checkForSuccess then
      versions.filter fun version => keys.contains (join [s.path, db, version, successName])
    else
      versions

/-- `LocalBackend.checkForSuccessFile`: there is a file of the name, or a directory. -/
def LocalBackend.checkForSuccessFile (keys : List Bytes) (path : Bytes) : Bool :=
  keys.contains (join [path, successName]) || !(underDir keys (join [path, successName])).isEmpty

/-- `LocalBackend.ListVersions`. -/
def LocalBackend.listVersions (lb : LocalBackend) (keys : List Bytes) (db after : Bytes)
    (checkForSuccess : Bool) : Option (List Bytes) :=
  (readDir keys (join [lb.path, db])).map fun files =>
    (files.filter fun f =>
      f.2 && decide (after < f.1) &&
        (!checkForSuccess || checkForSuccessFile keys (join [lb.path, db, f.1]))).map Prod.fst

/-- The versions to list: the directories right under a path that hold an object and come after
the given name, with a success file if that is asked for. -/
def IsVersion (keys : List Bytes) (dir after : Bytes) (checkForSuccess : Bool) (v : Bytes) :
    Prop :=
  47 ∉ v ∧ (∃ rest, dir ++ 47 :: (v ++ 47 :: rest) ∈ keys) ∧ after < v ∧
    (checkForSuccess = true → dir ++ 47 :: (v ++ 47 :: successName) ∈ keys)

/-! ## Markers made of structs

A printed struct begins with a brace and a line feed, so it parts from the path of a database
before the first slash of that. How the two compare is then the same for all common prefixes. -/

theorem append_slash (dir x : Bytes) : dir ++ 47 :: x = dir ++ [47] ++ x := by simp

section Marker

variable (q : Quoting) {keys : List Bytes} {dir : Bytes}

/-- The text of a common prefix under a path goes its own way before the first slash of the
path, and so it does whatever the common prefix is. -/
theorem Quoting.marker_lt_iff (x : Bytes) :
    (q.commonPrefixString (dir ++ 47 :: x) < dir ++ [47] ↔
      q.commonPrefixString (dir ++ [47]) < dir ++ [47]) ∧
      ¬ dir ++ [47] <+: q.commonPrefixString (dir ++ 47 :: x) := by
  obtain ⟨first, rest, hfirst, hslash⟩ : ∃ first rest, dir ++ [47] = first ++ 47 :: rest ∧
      47 ∉ first := List.eq_append_cons_of_mem (by simp)
  -- up to there the text is this, for every `x`
  let head : Bytes :=
    [123, 10, 32, 32, 80, 114, 101, 102, 105, 120, 58, 32, 34] ++ q.quote first
  have hhead : 47 ∉ head := by simp [head, q.not_mem first hslash]
  have hlen : first.length < head.length := by
    have := q.length_le first
    simp only [head, List.length_append, List.length_cons, List.length_nil]
    omega
  have htext : ∀ x, ∃ tail, q.commonPrefixString (dir ++ 47 :: x) = head ++ tail := by
    intro x
    have hx : dir ++ 47 :: x = first ++ 47 :: (rest ++ x) := by
      rw [append_slash, hfirst, List.append_assoc, List.cons_append]
    refine ⟨47 :: q.quote (rest ++ x) ++ [34, 10, 125], ?_⟩
    rw [commonPrefixString, hx, q.slash]
    simp [head]
  obtain ⟨tail, htail⟩ := htext x
  obtain ⟨tail', htail'⟩ := htext []
  have hapart := ObjectStore.not_prefix_of_length_lt hhead hlen rest
  rw [htail, htail', hfirst, ObjectStore.append_lt_iff (hapart tail).1,
    ObjectStore.append_lt_iff (hapart tail).1]
  exact ⟨Iff.rfl, (hapart tail).2⟩

/-- **The page after a page is empty, or the first page of all.** -/
theorem Quoting.entries_marker (x : Bytes) :
    entries keys (dir ++ [47]) (some 47) (q.commonPrefixString (dir ++ 47 :: x)) =
      if q.commonPrefixString (dir ++ [47]) < dir ++ [47] then
        entries keys (dir ++ [47]) (some 47) []
      else
        [] := by
  obtain ⟨hlt, hpre⟩ := @Quoting.marker_lt_iff q dir x
  split
  · rename_i h
    exact ObjectStore.entries_of_lt (hlt.mpr h)
  · rename_i h
    refine ObjectStore.entries_of_gt (lt_of_le_of_ne (not_lt.mp fun h' => h (hlt.mp h')) ?_) hpre
    exact fun heq => hpre (heq ▸ List.prefix_rfl)

end Marker

/-! ## The first page -/

/-- A directory that the first page shows. It holds a key; its whole path comes after the given
name, with less than a thousand entries in between; and so does, as one of the first three under
the path, a key that does not end in a blank name. -/
def Shown (keys : List Bytes) (dir after v : Bytes) : Prop :=
  (∃ rest, dir ++ 47 :: (v ++ 47 :: rest) ∈ keys) ∧ after < dir ++ 47 :: (v ++ [47]) ∧
    ((entries keys (dir ++ [47]) (some 47) after).filter
      (· < dir ++ 47 :: (v ++ [47]))).length < 1000 ∧
    ∃ key ∈ keys, dir ++ 47 :: v <+: key ∧ after < key ∧ blank (base key) = false ∧
      ((entries keys (dir ++ 47 :: v) none after).filter (· < key)).length < 3

section Page

variable {keys : List Bytes} {dir after : Bytes}

/-- The common prefix of a directory, without its slash. -/
theorem trimSlash_append (dir v : Bytes) :
    trimSlash (dir ++ 47 :: (v ++ [47])) = dir ++ 47 :: v := by
  rw [← List.cons_append, ← List.append_assoc, trimSlash, List.getLast?_concat, if_pos rfl,
    List.dropLast_concat]

/-- One of the first three keys of the directory has a name that is not blank. -/
theorem looksLikeDir_iff {pre : Bytes} :
    looksLikeDir keys after pre = true ↔
      ∃ key ∈ keys, pre <+: key ∧ after < key ∧ blank (base key) = false ∧
        ((entries keys pre none after).filter (· < key)).length < 3 := by
  simp only [looksLikeDir, listObjects, isCommon, Option.any_none, Bool.not_false,
    List.filter_true, List.any_eq_true, Bool.not_eq_true', ObjectStore.mem_take_entries,
    ObjectStore.mem_entries_none]
  refine exists_congr fun key => ?_
  tauto

/-- The common prefixes of a page are those of directories. -/
theorem mem_commonPrefixes {e : Bytes} :
    e ∈ (dirPage keys dir after).commonPrefixes ↔
      ∃ v, 47 ∉ v ∧ e = dir ++ 47 :: (v ++ [47]) ∧
        (∃ rest, dir ++ 47 :: (v ++ 47 :: rest) ∈ keys) ∧ after < e ∧
        ((entries keys (dir ++ [47]) (some 47) after).filter (· < e)).length < 1000 := by
  simp only [dirPage, listObjects, List.mem_filter, ObjectStore.mem_take_entries]
  rw [and_right_comm, ObjectStore.mem_entries_common]
  refine ⟨?_, ?_⟩
  · rintro ⟨⟨v, hv, rfl, hafter, _, hk, rest, rfl⟩, hcount⟩
    refine ⟨v, hv, by simp, ⟨rest, by simpa using hk⟩, hafter, hcount⟩
  · rintro ⟨v, hv, rfl, ⟨rest, hk⟩, hafter, hcount⟩
    exact ⟨⟨v, hv, by simp, hafter, _, hk, rest, by simp⟩, hcount⟩

theorem commonPrefixes_nodup : (dirPage keys dir after).commonPrefixes.Nodup :=
  (((ObjectStore.entries_pairwise ..).imp ne_of_lt).sublist (List.take_sublist ..)).filter _

/-- The directories of a page, as names under the path. -/
theorem mem_pageDirs {p : Bytes} :
    p ∈ pageDirs keys dir after ↔ ∃ v, 47 ∉ v ∧ p = dir ++ 47 :: v ∧ Shown keys dir after v := by
  simp only [pageDirs, List.mem_filter, List.mem_map, looksLikeDir_iff, mem_commonPrefixes]
  refine ⟨?_, ?_⟩
  · rintro ⟨⟨_, ⟨v, hv, rfl, hkey, hafter, hcount⟩, rfl⟩, hdir⟩
    rw [trimSlash_append] at hdir ⊢
    exact ⟨v, hv, rfl, hkey, hafter, hcount, hdir⟩
  · rintro ⟨v, hv, rfl, hkey, hafter, hcount, hdir⟩
    exact ⟨⟨_, ⟨v, hv, rfl, hkey, hafter, hcount⟩, trimSlash_append dir v⟩, hdir⟩

theorem pageDirs_nodup : (pageDirs keys dir after).Nodup := by
  refine (List.Nodup.map_on ?_ commonPrefixes_nodup).filter _
  intro e he e' he' heq
  obtain ⟨v, -, rfl, -⟩ := mem_commonPrefixes.mp he
  obtain ⟨v', -, rfl, -⟩ := mem_commonPrefixes.mp he'
  rw [trimSlash_append, trimSlash_append, List.append_cancel_left_eq, List.cons_inj_right] at heq
  rw [heq]

end Page

/-! ## The loop

Whatever the first page is, the page after it is empty or the first page of all. So the listing
is over after two pages, or never. -/

/-- The listing never ends: the first page is full and there is a directory on it, and the marker
that follows lies before the path, so that the first page of all comes next; and that has a
directory on it. -/
def Endless (q : Quoting) (keys : List Bytes) (dir after : Bytes) : Prop :=
  (dirPage keys dir after).isTruncated = true ∧ (dirPage keys dir after).commonPrefixes ≠ [] ∧
    q.commonPrefixString (dir ++ [47]) < dir ++ [47] ∧ (dirPage keys dir []).commonPrefixes ≠ []

section Loop

variable {q : Quoting} {keys : List Bytes} {dir after : Bytes}

/-- A page without directories ends the listing. -/
theorem listDirsFrom_of_nil (fuel : ℕ) (h : (dirPage keys dir after).commonPrefixes = []) :
    listDirsFrom q keys dir (fuel + 1) after = some [] := by
  rw [listDirsFrom, h]
  rfl

/-- So does a page that is not full. -/
theorem listDirsFrom_of_last (fuel : ℕ) (hne : (dirPage keys dir after).commonPrefixes ≠ [])
    (h : (dirPage keys dir after).isTruncated = false) :
    listDirsFrom q keys dir (fuel + 1) after = some ((pageDirs keys dir after).map base) := by
  rw [listDirsFrom, List.getLast?_eq_some_getLast hne]
  simp [h]

/-- After any other page, the listing goes on with a marker under the path. -/
theorem listDirsFrom_of_more (hne : (dirPage keys dir after).commonPrefixes ≠ [])
    (h : (dirPage keys dir after).isTruncated = true) :
    ∃ x, ∀ fuel, listDirsFrom q keys dir (fuel + 1) after =
      (listDirsFrom q keys dir fuel (q.commonPrefixString (dir ++ 47 :: x))).map
        ((pageDirs keys dir after).map base ++ ·) := by
  obtain ⟨v, -, hlast, -⟩ := mem_commonPrefixes.mp (List.getLast_mem hne)
  refine ⟨v ++ [47], fun fuel => ?_⟩
  rw [listDirsFrom, List.getLast?_eq_some_getLast hne, ← hlast]
  simp [h]

/-- More pages never change a listing. -/
theorem listDirsFrom_mono {fuel : ℕ} {l : List Bytes} :
    listDirsFrom q keys dir fuel after = some l →
      listDirsFrom q keys dir (fuel + 1) after = some l := by
  induction fuel generalizing after l with
  | zero => intro h; cases h
  | succ fuel ih =>
    intro h
    by_cases hne : (dirPage keys dir after).commonPrefixes = []
    · rw [listDirsFrom_of_nil _ hne] at h ⊢
      exact h
    · rcases htrunc : (dirPage keys dir after).isTruncated with _ | _
      · rw [listDirsFrom_of_last _ hne htrunc] at h ⊢
        exact h
      · obtain ⟨x, hmore⟩ := @listDirsFrom_of_more q keys dir after hne htrunc
        rw [hmore, Option.map_eq_some_iff] at h ⊢
        obtain ⟨rest, hrest, rfl⟩ := h
        exact ⟨rest, ih hrest, rfl⟩

theorem listDirsFrom_le {fuel fuel' : ℕ} {l : List Bytes} (hle : fuel ≤ fuel')
    (h : listDirsFrom q keys dir fuel after = some l) :
    listDirsFrom q keys dir fuel' after = some l := by
  induction fuel', hle using Nat.le_induction with
  | base => exact h
  | succ _ _ ih => exact listDirsFrom_mono ih

theorem dirPage_congr {after' : Bytes}
    (h : entries keys (dir ++ [47]) (some 47) after = entries keys (dir ++ [47]) (some 47) after') :
    dirPage keys dir after = dirPage keys dir after' := by
  rw [dirPage, dirPage, listObjects, listObjects, h]

/-- **A listing that ends holds the directories of the first page**, and it takes two pages. -/
theorem listDirsFrom_eq (h : ¬ Endless q keys dir after) :
    listDirsFrom q keys dir 2 after = some ((pageDirs keys dir after).map base) := by
  by_cases hne : (dirPage keys dir after).commonPrefixes = []
  · rw [listDirsFrom_of_nil _ hne, pageDirs, hne]
    rfl
  · rcases htrunc : (dirPage keys dir after).isTruncated with _ | _
    · exact listDirsFrom_of_last _ hne htrunc
    · obtain ⟨x, hmore⟩ := @listDirsFrom_of_more q keys dir after hne htrunc
      have hnext :
          (dirPage keys dir (q.commonPrefixString (dir ++ 47 :: x))).commonPrefixes = [] := by
        have hentries := @Quoting.entries_marker q keys dir x
        split at hentries
        · rename_i hlt
          rw [dirPage_congr hentries]
          by_contra hfirst
          exact h ⟨htrunc, hne, hlt, hfirst⟩
        · simp [dirPage, listObjects, hentries]
      rw [hmore, listDirsFrom_of_nil _ hnext, Option.map_some, List.append_nil]

/-- **Otherwise the first page of all comes again and again.** -/
theorem listDirsFrom_endless (h : Endless q keys dir after) (fuel : ℕ) :
    listDirsFrom q keys dir fuel after = none := by
  obtain ⟨htrunc, hne, hlt, hfirst⟩ := h
  have hfull : (dirPage keys dir []).isTruncated = true := by
    have hle := ObjectStore.length_entries_le keys (dir ++ [47]) (some 47) after (by simp)
    simp only [dirPage, listObjects, decide_eq_true_eq] at htrunc ⊢
    omega
  have hsame : ∀ x, dirPage keys dir (q.commonPrefixString (dir ++ 47 :: x)) =
      dirPage keys dir [] := by
    intro x
    apply dirPage_congr
    rw [q.entries_marker, if_pos hlt]
  have hloop : ∀ fuel x,
      listDirsFrom q keys dir fuel (q.commonPrefixString (dir ++ 47 :: x)) = none := by
    intro fuel
    induction fuel with
    | zero => intro x; rfl
    | succ fuel ih =>
      intro x
      obtain ⟨y, hmore⟩ := @listDirsFrom_of_more q keys dir
        (q.commonPrefixString (dir ++ 47 :: x)) (by rwa [hsame]) (by rwa [hsame])
      rw [hmore, ih, Option.map_none]
  rcases fuel with _ | fuel
  · rfl
  · obtain ⟨x, hmore⟩ := @listDirsFrom_of_more q keys dir after hne htrunc
    rw [hmore, hloop, Option.map_none]

end Loop

/-! ## What is returned -/

/-- A version passes the check for its success file. -/
def S3Backend.Passes (s : S3Backend) (keys : List Bytes) (db : Bytes) (checkForSuccess : Bool)
    (v : Bytes) : Prop :=
  checkForSuccess = true → join [s.path, db, v, successName] ∈ keys

/-- **The first page shows the versions to list.** -/
structure S3Backend.FirstPageExact (s : S3Backend) (keys : List Bytes) (db after : Bytes)
    (checkForSuccess : Bool) : Prop where
  /-- Each newer version is on it, under its own name or that of the nameless directory. -/
  newer : ∀ v, IsVersion keys (join [s.path, db]) after checkForSuccess v →
    s.Passes keys db checkForSuccess v ∧ (Shown keys (join [s.path, db]) after v ∨
      v = base (join [s.path, db] ++ [47]) ∧ Shown keys (join [s.path, db]) after [])
  /-- Nothing on it is older. -/
  others : ∀ v, v ≠ [] → 47 ∉ v → Shown keys (join [s.path, db]) after v →
    s.Passes keys db checkForSuccess v → after < v ∧
      (checkForSuccess = true → join [s.path, db] ++ 47 :: (v ++ 47 :: successName) ∈ keys)
  /-- A directory without a name, which is listed under that of the database, does not stand in
  for anything that is not a version, or that is on the page already. -/
  unnamed : Shown keys (join [s.path, db]) after [] →
    s.Passes keys db checkForSuccess (base (join [s.path, db] ++ [47])) →
    IsVersion keys (join [s.path, db]) after checkForSuccess (base (join [s.path, db] ++ [47])) ∧
      ¬ Shown keys (join [s.path, db]) after (base (join [s.path, db] ++ [47]))

section Names

variable {keys : List Bytes} {dir after : Bytes}

/-- The names on a page. -/
theorem mem_map_pageDirs {v : Bytes} :
    v ∈ (pageDirs keys dir after).map base ↔
      v ≠ [] ∧ 47 ∉ v ∧ Shown keys dir after v ∨
        v = base (dir ++ [47]) ∧ Shown keys dir after [] := by
  simp only [List.mem_map, mem_pageDirs]
  refine ⟨?_, ?_⟩
  · rintro ⟨_, ⟨u, hu, rfl, hshown⟩, rfl⟩
    rcases eq_or_ne u [] with rfl | hne
    · exact .inr ⟨rfl, hshown⟩
    · rw [GoPath.base_append_slash hne hu]
      exact .inl ⟨hne, hu, hshown⟩
  · rintro (⟨hne, hv, hshown⟩ | ⟨rfl, hshown⟩)
    · exact ⟨_, ⟨v, hv, rfl, hshown⟩, GoPath.base_append_slash hne hv⟩
    · exact ⟨_, ⟨[], by simp, rfl, hshown⟩, rfl⟩

/-- Sorted and filtered, names enumerate what they are if none of them comes twice. -/
theorem enumerates_filter_iff {names : List Bytes} {f : Bytes → Bool} {p : Bytes → Prop} :
    Enumerates ((names.insertionSort (· ≤ ·)).filter f) p ↔
      (names.filter f).Nodup ∧ ∀ v, v ∈ names ∧ f v = true ↔ p v := by
  have hperm : ((names.insertionSort (· ≤ ·)).filter f).Perm (names.filter f) :=
    (List.perm_insertionSort _ names).filter f
  have hmem : ∀ v, v ∈ (names.insertionSort (· ≤ ·)).filter f ↔ v ∈ names ∧ f v = true := by
    intro v
    rw [List.mem_filter, List.mem_insertionSort]
  simp only [Enumerates, hmem]
  refine and_congr_left fun _ => ⟨fun h => ?_, fun h => ?_⟩
  · exact hperm.nodup_iff.mp (h.imp ne_of_lt)
  · have hsorted := (List.pairwise_insertionSort (· ≤ ·) names).filter f
    have hnodup := hperm.nodup_iff.mpr h
    exact (hsorted.and hnodup).imp fun h => lt_of_le_of_ne h.1 h.2

end Names

section Returned

variable (s : S3Backend) (q : Quoting) {keys : List Bytes} {db after : Bytes}
  {checkForSuccess : Bool}

/-- The names that are returned when the listing ends. -/
def S3Backend.returned (keys : List Bytes) (db after : Bytes) (checkForSuccess : Bool) :
    List Bytes :=
  (((pageDirs keys (join [s.path, db]) after).map base).insertionSort (· ≤ ·)).filter fun v =>
    !checkForSuccess || keys.contains (join [s.path, db, v, successName])

theorem S3Backend.listVersions_eq (fuel : ℕ) :
    s.listVersions q keys db after checkForSuccess fuel =
      (listDirsFrom q keys (join [s.path, db]) fuel after).map fun versions =>
        (versions.insertionSort (· ≤ ·)).filter fun v =>
          !checkForSuccess || keys.contains (join [s.path, db, v, successName]) := by
  rw [listVersions, listDirs, Option.map_map]
  rcases checkForSuccess with _ | _
  · refine congrArg (Option.map · _) (funext fun versions => ?_)
    simp
  · simp [Function.comp_def]

/-- **The listing ends just when it is not endless, with the names of the first page.** -/
theorem S3Backend.exists_listVersions_iff {l : List Bytes} :
    (∃ fuel, s.listVersions q keys db after checkForSuccess fuel = some l) ↔
      ¬ Endless q keys (join [s.path, db]) after ∧
        s.returned keys db after checkForSuccess = l := by
  simp only [s.listVersions_eq, Option.map_eq_some_iff]
  refine ⟨?_, ?_⟩
  · rintro ⟨fuel, versions, hlist, rfl⟩
    have hends : ¬ Endless q keys (join [s.path, db]) after := by
      intro h
      rw [listDirsFrom_endless h] at hlist
      cases hlist
    have hpage := listDirsFrom_le (Nat.le_max_left 2 fuel) (listDirsFrom_eq hends)
    rw [listDirsFrom_le (Nat.le_max_right 2 fuel) hlist, Option.some.injEq] at hpage
    subst hpage
    exact ⟨hends, rfl⟩
  · rintro ⟨hends, rfl⟩
    exact ⟨2, _, listDirsFrom_eq hends, rfl⟩

theorem S3Backend.returned_passes_iff {v : Bytes} :
    (!checkForSuccess || keys.contains (join [s.path, db, v, successName])) = true ↔
      s.Passes keys db checkForSuccess v := by
  rcases checkForSuccess with _ | _
  · simp [Passes]
  · simp [Passes]

/-- Only the nameless directory can make a name come twice. -/
theorem S3Backend.nodup_iff :
    (((pageDirs keys (join [s.path, db]) after).map base).filter fun v =>
      !checkForSuccess || keys.contains (join [s.path, db, v, successName])).Nodup ↔
      ¬ (Shown keys (join [s.path, db]) after [] ∧
        s.Passes keys db checkForSuccess (base (join [s.path, db] ++ [47])) ∧
        base (join [s.path, db] ++ [47]) ≠ [] ∧ 47 ∉ base (join [s.path, db] ++ [47]) ∧
        Shown keys (join [s.path, db]) after (base (join [s.path, db] ++ [47]))) := by
  rw [List.filter_map, List.nodup_map_iff_inj_on (pageDirs_nodup.filter _)]
  simp only [List.mem_filter, Function.comp_apply, s.returned_passes_iff, mem_pageDirs]
  refine ⟨?_, ?_⟩
  · rintro hinj ⟨hnil, hpass, hne, hslash, hshown⟩
    have hbase := @GoPath.base_append_slash (join [s.path, db]) _ hne hslash
    have heq := hinj _ ⟨⟨[], by simp, rfl, hnil⟩, hpass⟩ _
      ⟨⟨_, hslash, rfl, hshown⟩, hbase.symm ▸ hpass⟩ hbase.symm
    rw [List.append_cancel_left_eq, List.cons_inj_right] at heq
    exact hne heq.symm
  · rintro hnot _ ⟨⟨u, hu, rfl, hshown⟩, hpass⟩ _ ⟨⟨u', hu', rfl, hshown'⟩, hpass'⟩ heq
    -- a name is the base of its path; only without one there may be another
    rcases eq_or_ne u [] with rfl | hne <;> rcases eq_or_ne u' [] with rfl | hne'
    · rfl
    · rw [GoPath.base_append_slash hne' hu'] at heq
      exact absurd ⟨hshown, hpass, heq ▸ hne', heq ▸ hu', heq ▸ hshown'⟩ hnot
    · rw [GoPath.base_append_slash hne hu] at heq
      exact absurd ⟨hshown', hpass', heq ▸ hne, heq ▸ hu, heq ▸ hshown⟩ hnot
    · rw [GoPath.base_append_slash hne hu, GoPath.base_append_slash hne' hu'] at heq
      rw [heq]

/-- **The names of the first page are the versions to list just when it shows them.** -/
theorem S3Backend.returned_enumerates_iff :
    Enumerates (s.returned keys db after checkForSuccess)
        (IsVersion keys (join [s.path, db]) after checkForSuccess) ↔
      s.FirstPageExact keys db after checkForSuccess := by
  rw [returned, enumerates_filter_iff, s.nodup_iff]
  simp only [s.returned_passes_iff, mem_map_pageDirs]
  have hne : ∀ {v : Bytes}, after < v → v ≠ [] := fun h hv => List.not_lt_nil _ (hv ▸ h)
  refine ⟨?_, ?_⟩
  · rintro ⟨hnodup, hmem⟩
    refine ⟨fun v hv => ?_, fun v hv hslash hshown hpass => ?_, fun hshown hpass => ?_⟩
    · obtain ⟨⟨-, -, hshown⟩ | hnil, hpass⟩ := (hmem v).mpr hv
      · exact ⟨hpass, .inl hshown⟩
      · exact ⟨hpass, .inr hnil⟩
    · exact ((hmem v).mp ⟨.inl ⟨hv, hslash, hshown⟩, hpass⟩).2.2
    · have hversion := (hmem _).mp ⟨.inr ⟨rfl, hshown⟩, hpass⟩
      refine ⟨hversion, fun hagain => hnodup ⟨hshown, hpass, ?_, hversion.1, hagain⟩⟩
      exact hne hversion.2.2.1
  · intro h
    refine ⟨?_, fun v => ⟨?_, fun hv => ?_⟩⟩
    · rintro ⟨hshown, hpass, -, -, hagain⟩
      exact (h.unnamed hshown hpass).2 hagain
    · rintro ⟨⟨hv, hslash, hshown⟩ | ⟨rfl, hshown⟩, hpass⟩
      · exact ⟨hslash, hshown.1, h.others v hv hslash hshown hpass⟩
      · exact (h.unnamed hshown hpass).1
    · obtain ⟨hpass, hshown | hnil⟩ := h.newer v hv
      · exact ⟨.inl ⟨hne hv.2.2.1, hv.1, hshown⟩, hpass⟩
      · exact ⟨.inr hnil, hpass⟩

end Returned

/-! ## The two backends -/

section Local

variable {keys : List Bytes} {dir : Bytes}

/-- The check of a version's success file on disk, where that is no directory. -/
theorem LocalBackend.checkForSuccessFile_iff {path db v : Bytes} (hpath : join [path, db] = dir)
    (hdir : GoPath.Named dir) (hv : GoPath.Proper v ∧ 47 ∉ v)
    (hfile : ∀ rest, dir ++ 47 :: (v ++ 47 :: (successName ++ 47 :: rest)) ∉ keys) :
    checkForSuccessFile keys (join [path, db, v]) = true ↔
      dir ++ 47 :: (v ++ 47 :: successName) ∈ keys := by
  have hclean : GoPath.clean dir = dir := by
    rw [← hpath] at hdir ⊢
    exact GoPath.clean_join hdir.1
  have hversion : join [path, db, v] = dir ++ 47 :: v := by
    rw [← hpath] at hdir ⊢
    exact GoPath.join_concat hv.1 hv.2 hdir
  have hsuccess : join [dir ++ 47 :: v, successName] = dir ++ 47 :: (v ++ 47 :: successName) :=
    GoPath.join_pair hdir hclean hv ⟨by decide, by decide⟩
  have hunder : underDir keys (dir ++ 47 :: (v ++ 47 :: successName)) = [] := by
    refine List.eq_nil_iff_forall_not_mem.mpr fun rest hrest => hfile rest ?_
    simpa using mem_underDir.mp hrest
  rw [checkForSuccessFile, hversion, hsuccess, hunder]
  simp

/-- **On disk the versions are listed exactly.** -/
theorem LocalBackend.listVersions_enumerates (lb : LocalBackend) {db : Bytes} (after : Bytes)
    (checkForSuccess : Bool) (hpath : join [lb.path, db] = dir) (hnamed : GoPath.Named dir)
    (htree : IsTree keys dir) (hdir : ∃ rest, dir ++ 47 :: rest ∈ keys)
    (hfile : ∀ v rest, dir ++ 47 :: (v ++ 47 :: (successName ++ 47 :: rest)) ∉ keys) :
    ∃ l, lb.listVersions keys db after checkForSuccess = some l ∧
      Enumerates l (IsVersion keys dir after checkForSuccess) := by
  have hlist : lb.listVersions keys db after checkForSuccess =
      some ((dirNames keys dir).filter fun v => isDir keys dir v && decide (after < v) &&
        (!checkForSuccess || checkForSuccessFile keys (join [lb.path, db, v]))) := by
    rw [listVersions, hpath, readDir_eq hdir, Option.map_some, List.filter_map, List.map_map]
    exact congrArg some (List.map_id _)
  refine ⟨_, hlist, (sortedNames_enumerates _).1.filter _, fun v => ?_⟩
  have hsuccess : v ∈ dirNames keys dir →
      (checkForSuccessFile keys (join [lb.path, db, v]) = true ↔
        dir ++ 47 :: (v ++ 47 :: successName) ∈ keys) := fun hv =>
    checkForSuccessFile_iff hpath hnamed ⟨htree.proper_name hv, (mem_dirNames.mp hv).1⟩ (hfile v)
  simp only [List.mem_filter, Bool.and_eq_true, decide_eq_true_eq, Bool.or_eq_true,
    Bool.not_eq_true', IsVersion]
  refine ⟨?_, ?_⟩
  · rintro ⟨hv, ⟨hisDir, hafter⟩, hcheck⟩
    refine ⟨(mem_dirNames.mp hv).1, isDir_iff.mp hisDir, hafter, fun htrue => ?_⟩
    rw [htrue] at hcheck
    exact (hsuccess hv).mp (hcheck.resolve_left (by simp))
  · rintro ⟨hslash, hkey, hafter, hcheck⟩
    have hv : v ∈ dirNames keys dir := mem_dirNames.mpr ⟨hslash, .inr (isDir_iff.mpr hkey)⟩
    refine ⟨hv, ⟨isDir_iff.mpr hkey, hafter⟩, ?_⟩
    rcases checkForSuccess with _ | _
    · exact .inl rfl
    · exact .inr ((hsuccess hv).mpr (hcheck rfl))

end Local

/-- **The listing of the versions ends and is exact just when the first page shows them** and it
does not come again for ever. On disk the listing is always exact. -/
theorem versions_exact_iff (s : S3Backend) (q : Quoting) (keys : List Bytes) (db after : Bytes)
    (checkForSuccess : Bool) :
    ((∃ fuel l, s.listVersions q keys db after checkForSuccess fuel = some l ∧
        Enumerates l (IsVersion keys (join [s.path, db]) after checkForSuccess)) ↔
      ¬ Endless q keys (join [s.path, db]) after ∧
        s.FirstPageExact keys db after checkForSuccess) ∧
    ∀ lb : LocalBackend, lb.path = s.path → GoPath.Named (join [s.path, db]) →
      IsTree keys (join [s.path, db]) → (∃ rest, join [s.path, db] ++ 47 :: rest ∈ keys) →
      (∀ v rest, join [s.path, db] ++ 47 :: (v ++ 47 :: (successName ++ 47 :: rest)) ∉ keys) →
      ∃ l, lb.listVersions keys db after checkForSuccess = some l ∧
        Enumerates l (IsVersion keys (join [s.path, db]) after checkForSuccess) := by
  refine ⟨⟨?_, ?_⟩, ?_⟩
  · rintro ⟨fuel, l, hlist, henum⟩
    obtain ⟨hends, rfl⟩ := (s.exists_listVersions_iff q).mp ⟨fuel, hlist⟩
    exact ⟨hends, s.returned_enumerates_iff.mp henum⟩
  · rintro ⟨hends, hpage⟩
    obtain ⟨fuel, hlist⟩ := (s.exists_listVersions_iff q).mpr ⟨hends, rfl⟩
    exact ⟨fuel, _, hlist, s.returned_enumerates_iff.mpr hpage⟩
  · intro lb hpath hnamed htree hdir hfile
    exact lb.listVersions_enumerates after checkForSuccess (by rw [hpath]) hnamed htree hdir hfile

/-- Text that needs no escapes, as it is. -/
def plainText : Quoting where
  quote s := s
  slash _ _ := rfl
  not_mem _ h := h
  length_le _ := le_rfl

/-- The directories in the bucket. -/
theorem mem_of_bucket {v rest : Bytes} (hv : 47 ∉ v)
    (h : [112, 47, 100] ++ 47 :: (v ++ 47 :: rest) ∈ bucket) : v = [49] ∨ v = [50] ∨ v = [51] := by
  have hfirst : ∀ rest ∈ bucketRests,
      rest.takeWhile (fun b => decide (b ≠ 47)) ∈ [[49], [50], [51]] := by decide
  have hmem := hfirst _ (mem_bucketRests _ h)
  rw [ObjectStore.takeWhile_append_cons hv rest] at hmem
  simpa using hmem

theorem isTree_bucket : IsTree bucket [112, 47, 100] := by
  have hproper : ∀ rest ∈ bucketRests, ∀ part ∈ rest.splitOn 47, GoPath.Proper part := by decide
  have hleaf : ∀ name ∈ bucketRests, ∀ key ∈ bucket,
      ¬ [112, 47, 100] ++ 47 :: (name ++ [47]) <+: key := by decide
  exact ⟨fun rest hrest => hproper _ (mem_bucketRests rest hrest),
    fun name hkey => hleaf _ (mem_bucketRests name hkey)⟩

/-- Asked for the versions after `0` that have a `_SUCCESS`, both backends list `1` and `2`. -/
theorem versions_exact_bucket :
    (∃ fuel l, (S3Backend.mk [112]).listVersions plainText bucket [100] [48] true fuel = some l ∧
        Enumerates l (IsVersion bucket [112, 47, 100] [48] true)) ∧
      ∃ l, (LocalBackend.mk [112]).listVersions bucket [100] [48] true = some l ∧
        Enumerates l (IsVersion bucket [112, 47, 100] [48] true) := by
  obtain ⟨hiff, hlocal⟩ := versions_exact_iff ⟨[112]⟩ plainText bucket [100] [48] true
  have hthree : [112, 47, 100, 47, 51, 47] ++ successName ∉ bucket := by decide
  refine ⟨hiff.mpr ⟨?_, ?_, ?_, ?_⟩, ?_⟩
  · rintro ⟨htrunc, -⟩
    exact absurd htrunc (by decide)
  · rintro v ⟨hv, ⟨rest, hrest⟩, -, hsuccess⟩
    rcases mem_of_bucket hv hrest with rfl | rfl | rfl
    · exact ⟨fun _ => by decide, .inl ⟨⟨[102], by decide⟩, by decide, by decide,
        [112, 47, 100, 47, 49, 47, 102], by decide, by decide, by decide, by decide, by decide⟩⟩
    · exact ⟨fun _ => by decide, .inl ⟨⟨[102], by decide⟩, by decide, by decide,
        [112, 47, 100, 47, 50, 47, 102], by decide, by decide, by decide, by decide, by decide⟩⟩
    · exact absurd (hsuccess rfl) hthree
  · rintro v - hv ⟨⟨rest, hrest⟩, -⟩ hpass
    rcases mem_of_bucket hv hrest with rfl | rfl | rfl
    · exact ⟨by decide, fun _ => by decide⟩
    · exact ⟨by decide, fun _ => by decide⟩
    · exact absurd (hpass rfl) hthree
  · rintro ⟨⟨rest, hrest⟩, -⟩
    rcases mem_of_bucket List.not_mem_nil hrest with h | h | h <;> cases h
  · refine hlocal ⟨[112]⟩ rfl (by decide) isTree_bucket ⟨[49, 47, 102], by decide⟩ ?_
    -- no key is long enough to go on behind a success file
    intro v rest hmem
    have hshort : ∀ rest ∈ bucketRests, rest.length ≤ 10 := by decide
    have hlength := hshort _ (mem_bucketRests _ hmem)
    have hne : v ≠ [] := by
      rintro rfl
      rcases mem_of_bucket List.not_mem_nil hmem with h | h | h <;> cases h
    have hpos := List.length_pos_iff.mpr hne
    simp [successName] at hlength
    omega

/-- Version `1` with a file `f`, in a bucket that holds nothing else: `p/d/1/f`. -/
def oneFile : List Bytes := [[112, 47, 100, 47, 49, 47, 102]]

/-- Asked for what is newer than version `1`, the listing returns version `1`. -/
theorem oneFile_lists_older :
    (S3Backend.mk [112]).listVersions plainText oneFile [100] [49] false 1 = some [[49]] ∧
      ¬ ∃ fuel l,
        (S3Backend.mk [112]).listVersions plainText oneFile [100] [49] false fuel = some l ∧
          Enumerates l (IsVersion oneFile [112, 47, 100] [49] false) := by
  have hlist : ∀ fuel, (S3Backend.mk [112]).listVersions plainText oneFile [100] [49] false
      (fuel + 1) = some [[49]] := fun _ => rfl
  refine ⟨hlist 0, ?_⟩
  rintro ⟨fuel, l, h, henum⟩
  rcases fuel with _ | fuel
  · cases h
  · rw [hlist, Option.some.injEq] at h
    subst h
    have hversion := (henum.2 [49]).mp (by decide)
    exact lt_irrefl _ hversion.2.2.1

end Sequins
