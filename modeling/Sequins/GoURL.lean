import Sequins.GoString
import Mathlib.Data.List.DropRight

/-!
# Go URLs

The package `net/url` as far as requests between servers need it, on byte strings: the text of
a URL (`URL.string`), reading it (`parse`), what a request carries of it (`URL.requestURI`), how the
receiver reads that (`parseRequestURI`), and the values of the query (`get`). All URLs begin with
`http://`; a host is taken as it stands, as it is for letters, digits and `-._~:[]`; the
fragment is cut off, but has to be readable; and that there was an empty query is not remembered.
Between the two servers is the first line of the request (`requestLine`, `readRequest`). Where it
is only asked where something is, a URL of any scheme will do (`locate`).

A path comes through unchanged (`receive_of_plain`, `receive_eq_some`), since it is escaped on the
way. A query is not escaped: it is cut at the first `#`, and at a space or the end of a line,
divided at `&` and `;`, and `%` and `+` are decoded, so a value that was not escaped comes through
exactly if it has none of these (`get_value_iff`).
-/

namespace GoURL

/-! ## Escaping -/

/-- Letters and digits. -/
def alphanumeric (c : UInt8) : Bool :=
  decide (65 ≤ c ∧ c ≤ 90) || decide (97 ≤ c ∧ c ≤ 122) || decide (48 ≤ c ∧ c ≤ 57)

/-- `shouldEscape` in a path: all but letters, digits and `-_.~$&+,/:;=@`. -/
def shouldEscape (c : UInt8) : Bool :=
  !(alphanumeric c || [45, 95, 46, 126, 36, 38, 43, 44, 47, 58, 59, 61, 64].contains c)

/-- A digit of `upperhex`. -/
def hexDigit (n : UInt8) : UInt8 := if n < 10 then 48 + n else 55 + n

/-- `unhex`, where `ishex`. -/
def unhex (c : UInt8) : Option UInt8 :=
  if 48 ≤ c ∧ c ≤ 57 then some (c - 48)
  else if 97 ≤ c ∧ c ≤ 102 then some (c - 87)
  else if 65 ≤ c ∧ c ≤ 70 then some (c - 55)
  else none

/-- `escape` of a path. -/
def escape (p : List UInt8) : List UInt8 :=
  p.flatMap fun c => if shouldEscape c then [37, hexDigit (c / 16), hexDigit (c % 16)] else [c]

/-- `unescape`; in a query, a plus stands for a space. -/
def unescape (query : Bool) : List UInt8 → Option (List UInt8)
  | [] => some []
  | c :: s =>
    if c = 37 then
      match s with
      | a :: b :: s =>
        (unhex a).bind fun a => (unhex b).bind fun b =>
          (unescape query s).map fun t => (16 * a + b) :: t
      | _ => none
    else
      (unescape query s).map fun t => (if query && c == 43 then 32 else c) :: t

/-- `validEncodedPath`. -/
def validEncodedPath (s : List UInt8) : Bool :=
  s.all fun c =>
    [33, 36, 38, 39, 40, 41, 42, 43, 44, 59, 61, 58, 64, 91, 93, 37].contains c || !shouldEscape c

/-! ## URLs

A URL has its path twice, decoded and, where the default encoding would not give back the text it
was read from, as it was written. Everything that sends a path chooses between the two
(`escapedPath`). -/

/-- `URL`, with the scheme `http`. -/
structure URL where
  /-- `Host` -/
  host : List UInt8
  /-- `Path` -/
  path : List UInt8
  /-- `RawPath` -/
  rawPath : List UInt8
  /-- `RawQuery` -/
  rawQuery : List UInt8
  deriving DecidableEq, Repr

namespace URL

/-- `EscapedPath`. -/
def escapedPath (u : URL) : List UInt8 :=
  if u.rawPath ≠ [] ∧ validEncodedPath u.rawPath ∧ unescape false u.rawPath = some u.path then
    u.rawPath
  else if u.path = [42] then
    [42]
  else
    escape u.path

/-- The end of a URL: the query, if there is one. -/
def queryPart (u : URL) : List UInt8 := if u.rawQuery = [] then [] else 63 :: u.rawQuery

/-- `String`. -/
def string (u : URL) : List UInt8 :=
  [104, 116, 116, 112, 58, 47, 47] ++ u.host ++
    (if u.escapedPath ≠ [] ∧ u.escapedPath.head? ≠ some 47 ∧ u.host ≠ [] then [47] else []) ++
    u.escapedPath ++ u.queryPart

/-- `RequestURI`. -/
def requestURI (u : URL) : List UInt8 :=
  (if u.escapedPath = [] then [47] else u.escapedPath) ++ u.queryPart

end URL

/-- `split`: what is before a byte, and what is after it. -/
def split (c : UInt8) (s : List UInt8) : List UInt8 × List UInt8 :=
  (s.takeWhile (· ≠ c), (s.dropWhile (· ≠ c)).tail)

/-- The end of `parse`: the path is unescaped, and kept as it was if that cannot be told from
it. -/
def setPath (host rest rawQuery : List UInt8) : Option URL :=
  (unescape false rest).map fun path =>
    let rawPath :=
      if URL.escapedPath ⟨host, path, [], rawQuery⟩ ≠ rest ∧ validEncodedPath rest then rest else []
    ⟨host, path, rawPath, rawQuery⟩

/-- `Parse`; `none` is an error. -/
def parse (rawurl : List UInt8) : Option URL :=
  let (url, fragment) := split 35 rawurl
  if url.take 7 = [104, 116, 116, 112, 58, 47, 47] ∧ (unescape false fragment).isSome then
    let (rest, rawQuery) := split 63 (url.drop 7)
    setPath (rest.takeWhile (· ≠ 47)) (rest.dropWhile (· ≠ 47)) rawQuery
  else
    none

/-- `ParseRequestURI` of what a request carries. -/
def parseRequestURI (uri : List UInt8) : Option URL :=
  if uri = [42] then
    some ⟨[], [42], [], []⟩
  else
    let (rest, rawQuery) := split 63 uri
    if rest.head? = some 47 then setPath [] rest rawQuery else none

/-! ## Requests

What goes over the wire is a line of text: a method, a URI and a version, with spaces between
them. The receiver takes it apart at its first two spaces, so a URI with a space in it is another
one there, or an error. -/

/-- A number of a protocol version: not negative, and at most a million. -/
def versionNumber : List UInt8 → Bool
  | 43 :: s => (GoString.unsigned s).any (· ≤ 1000000)
  | 45 :: s => (GoString.unsigned s).any (· = 0)
  | s => (GoString.unsigned s).any (· ≤ 1000000)

/-- `ParseHTTPVersion`: whether a version can be read. -/
def parseHTTPVersion (vers : List UInt8) : Bool :=
  decide (vers.take 5 = [72, 84, 84, 80, 47]) && vers.contains 46 &&
    versionNumber ((split 46 vers).1.drop 5) && versionNumber (split 46 vers).2

/-- The first line of a `GET` request, as it is written. -/
def requestLine (uri : List UInt8) : List UInt8 :=
  [71, 69, 84, 32] ++ uri ++ [32, 72, 84, 84, 80, 47, 49, 46, 49, 13, 10]

/-- `ReadLine`. -/
def readLine (s : List UInt8) : List UInt8 :=
  if (s.takeWhile (· ≠ 10)).getLast? = some 13 then
    (s.takeWhile (· ≠ 10)).dropLast
  else
    s.takeWhile (· ≠ 10)

/-- `readRequest`: what the first line asks for, between two spaces. -/
def readRequest (s : List UInt8) : Option (List UInt8) :=
  let rest := (split 32 (readLine s)).2
  if rest.contains 32 && parseHTTPVersion (split 32 rest).2 then some (split 32 rest).1 else none

/-- The URL of a request, as its receiver sees it. -/
def URL.receive (u : URL) : Option URL :=
  (readRequest (requestLine u.requestURI)).bind parseRequestURI

/-- What names and addresses of hosts are made of: letters, digits and `-._~:[]`. -/
def hostByte (c : UInt8) : Bool := alphanumeric c || [45, 46, 95, 126, 58, 91, 93].contains c

/-! ## Queries -/

/-- One component of a query: what `ParseQuery` makes of it. -/
def parsePair (component : List UInt8) : Option (List UInt8 × List UInt8) :=
  if component = [] then
    none
  else
    (unescape true (split 61 component).1).bind fun key =>
      (unescape true (split 61 component).2).map fun value => (key, value)

/-- `&` and `;` separate the components of a query. -/
def separates (c : UInt8) : Bool := c == 38 || c == 59

/-- `ParseQuery`, without its error. -/
def parseQuery (query : List UInt8) : List (List UInt8 × List UInt8) :=
  (query.splitOnP separates).filterMap parsePair

/-- `Query().Get(key)`. -/
def URL.get (u : URL) (key : List UInt8) : List UInt8 :=
  ((parseQuery u.rawQuery).find? fun pair => pair.1 = key).elim [] Prod.snd

-- `http://h/a%2Fb c?x=1+2&x=3#y`
example : (parse [104, 116, 116, 112, 58, 47, 47, 104, 47, 97, 37, 50, 70, 98, 32, 99, 63, 120, 61,
    49, 43, 50, 38, 120, 61, 51, 35, 121]).map (fun u => (u.path, u.get [120])) =
    some ([47, 97, 47, 98, 32, 99], [49, 32, 50]) := by decide

/-! ## What escaping does -/

theorem unescape_cons {query : Bool} {c : UInt8} (hc : c ≠ 37) (s : List UInt8) :
    unescape query (c :: s) =
      (unescape query s).map fun t => (if query && c == 43 then 32 else c) :: t := by
  rw [unescape.eq_def]
  simp [hc]

theorem unescape_percent (query : Bool) (a b : UInt8) (s : List UInt8) :
    unescape query (37 :: a :: b :: s) =
      (unhex a).bind fun a => (unhex b).bind fun b =>
        (unescape query s).map fun t => (16 * a + b) :: t := by
  rw [unescape.eq_def]
  simp

theorem unhex_hexDigit {n : UInt8} (hn : n < 16) : unhex (hexDigit n) = some n := by
  have hall : ∀ k < 16, unhex (hexDigit (UInt8.ofNat k)) = some (UInt8.ofNat k) := by decide
  have hofNat : UInt8.ofNat n.toNat = n := UInt8.ofNat_toNat
  rw [← hofNat]
  exact hall _ (UInt8.lt_iff_toNat_lt.mp hn)

/-- The two digits of a byte. -/
theorem digits_byte (c : UInt8) : c / 16 < 16 ∧ c % 16 < 16 ∧ 16 * (c / 16) + c % 16 = c := by
  have hlt := c.toNat_lt
  refine ⟨?_, ?_, ?_⟩
  · rw [UInt8.lt_iff_toNat_lt, UInt8.toNat_div]
    change c.toNat / 16 < 16
    omega
  · rw [UInt8.lt_iff_toNat_lt, UInt8.toNat_mod]
    change c.toNat % 16 < 16
    omega
  · rw [← UInt8.toNat_inj, UInt8.toNat_add, UInt8.toNat_mul, UInt8.toNat_div, UInt8.toNat_mod]
    change (16 * (c.toNat / 16) % 2 ^ 8 + c.toNat % 16) % 2 ^ 8 = c.toNat
    omega

/-- **A path is read back.** -/
theorem unescape_escape (p : List UInt8) : unescape false (escape p) = some p := by
  induction p with
  | nil => rfl
  | cons c p ih =>
    rw [escape, List.flatMap_cons]
    split
    · obtain ⟨hhigh, hlow, hc⟩ := digits_byte c
      rw [List.cons_append, List.cons_append, List.cons_append, List.nil_append, unescape_percent,
        unhex_hexDigit hhigh, unhex_hexDigit hlow, ← escape, ih]
      simp [hc]
    · have hc : c ≠ 37 := by
        rintro rfl
        exact absurd rfl ‹¬ shouldEscape 37 = true›
      rw [List.singleton_append, unescape_cons hc, ← escape, ih]
      rfl

/-- A byte that should be escaped does not appear. -/
theorem not_mem_escape {p : List UInt8} {c : UInt8} (hc : shouldEscape c = true) (h37 : c ≠ 37)
    (hhex : ∀ n < 16, hexDigit n ≠ c) : c ∉ escape p := by
  rw [escape, List.mem_flatMap]
  rintro ⟨b, -, hb⟩
  split at hb
  · obtain ⟨hhigh, hlow, -⟩ := digits_byte b
    simp only [List.mem_cons, List.not_mem_nil, or_false] at hb
    obtain rfl | hb | hb := hb
    · exact h37 rfl
    · exact hhex _ hhigh hb.symm
    · exact hhex _ hlow hb.symm
  · obtain rfl := List.mem_singleton.mp hb
    exact absurd hc ‹_›

theorem hexDigit_ne {c : UInt8} (hc : ∀ k < 16, hexDigit (UInt8.ofNat k) ≠ c) :
    ∀ n < 16, hexDigit n ≠ c := by
  intro n hn
  have hofNat : UInt8.ofNat n.toNat = n := UInt8.ofNat_toNat
  rw [← hofNat]
  exact hc _ (UInt8.lt_iff_toNat_lt.mp hn)

/-- Decoding does not make a text longer, and makes it shorter if there is a percent sign. -/
theorem length_unescape {query : Bool} {s t : List UInt8} (h : unescape query s = some t) :
    t.length ≤ s.length ∧ (37 ∈ s → t.length < s.length) := by
  induction s using unescape.induct generalizing t with
  | case1 =>
    obtain rfl := Option.some.inj h
    simp
  | case2 a b s ih =>
    rw [unescape_percent] at h
    obtain ⟨x, -, h⟩ := Option.bind_eq_some_iff.mp h
    obtain ⟨y, -, h⟩ := Option.bind_eq_some_iff.mp h
    obtain ⟨t', ht', rfl⟩ := Option.map_eq_some_iff.mp h
    have hle := (ih ht').1
    simp only [List.length_cons]
    omega
  | case3 s hs =>
    rw [unescape.eq_def] at h
    simp only [if_true] at h
    cases h
  | case4 c s hc ih =>
    rw [unescape_cons hc] at h
    obtain ⟨t', ht', rfl⟩ := Option.map_eq_some_iff.mp h
    obtain ⟨hle, hlt⟩ := ih ht'
    refine ⟨Nat.succ_le_succ hle, fun hmem => ?_⟩
    obtain heq | hmem := List.mem_cons.mp hmem
    · exact absurd heq.symm hc
    · exact Nat.succ_lt_succ (hlt hmem)

/-- Without a percent sign only the plus signs are decoded. -/
theorem unescape_of_not_mem {query : Bool} {s : List UInt8} (hs : 37 ∉ s) :
    unescape query s = some (s.map fun c => if query && c == 43 then 32 else c) := by
  induction s with
  | nil => rfl
  | cons c s ih =>
    rw [List.mem_cons, not_or] at hs
    rw [unescape_cons (Ne.symm hs.1), ih hs.2]
    rfl

/-- A text in a query stands for itself if it has neither percent nor plus signs. -/
theorem unescape_eq_self_iff {s : List UInt8} :
    unescape true s = some s ↔ 37 ∉ s ∧ 43 ∉ s := by
  constructor
  · intro h
    have h37 : 37 ∉ s := fun hmem => absurd ((length_unescape h).2 hmem) (lt_irrefl _)
    refine ⟨h37, fun h43 => ?_⟩
    rw [unescape_of_not_mem h37, Option.some.injEq] at h
    have hfix := List.map_inj_left.mp (h.trans (List.map_id s).symm) 43 h43
    cases hfix
  · rintro ⟨h37, h43⟩
    rw [unescape_of_not_mem h37, Option.some.injEq]
    have hfix : s.map (fun c => if true && c == 43 then 32 else c) = s.map id := by
      refine List.map_congr_left fun c hc => ?_
      have hne : c ≠ 43 := fun heq => h43 (heq ▸ hc)
      simp [hne]
    exact hfix.trans (List.map_id s)

/-! ## Splitting -/

theorem forall_ne_of_not_mem {c : UInt8} {s : List UInt8} (hs : c ∉ s) :
    ∀ b ∈ s, decide (b ≠ c) = true := fun _ hb => decide_eq_true fun h => hs (h ▸ hb)

theorem split_of_not_mem {c : UInt8} {s : List UInt8} (hs : c ∉ s) : split c s = (s, []) := by
  rw [split, List.takeWhile_eq_self_iff.mpr (forall_ne_of_not_mem hs),
    List.dropWhile_eq_nil_iff.mpr (forall_ne_of_not_mem hs)]
  rfl

theorem split_append {c : UInt8} {a : List UInt8} (ha : c ∉ a) (s : List UInt8) :
    split c (a ++ s) = (a ++ (split c s).1, (split c s).2) := by
  rw [split, List.takeWhile_append_of_pos (forall_ne_of_not_mem ha),
    List.dropWhile_append_of_pos (forall_ne_of_not_mem ha)]
  rfl

theorem split_cons_self (c : UInt8) (s : List UInt8) : split c (c :: s) = ([], s) := by
  simp [split]

/-- **A text that was put together is parted again.** -/
theorem split_append_cons {c : UInt8} {a : List UInt8} (ha : c ∉ a) (b : List UInt8) :
    split c (a ++ c :: b) = (a, b) := by
  rw [split_append ha, split_cons_self, List.append_nil]

/-- The text is put together again. -/
theorem append_split {c : UInt8} {s : List UInt8} (hs : c ∈ s) :
    s = (split c s).1 ++ c :: (split c s).2 ∧ c ∉ (split c s).1 := by
  obtain ⟨a, b, rfl, ha⟩ := List.eq_append_cons_of_mem hs
  rw [split_append_cons ha]
  exact ⟨rfl, ha⟩

/-- What is after the separator is not longer. -/
theorem length_split_snd (c : UInt8) (s : List UInt8) : (split c s).2.length ≤ s.length := by
  have hdrop : (s.dropWhile (· ≠ c)).length ≤ s.length := (List.dropWhile_suffix _).length_le
  rw [split, List.length_tail]
  omega

/-! ## Paths come through

From `String` to what the receiver reads. The path is escaped on the way, so it has no byte that
ends a line or a URI; the query is sent as it is, and is cut at the first such byte. -/

/-- What is read is the path decoded, and maybe as it was. -/
theorem setPath_eq_some {host rest rawQuery : List UInt8} {u : URL}
    (h : setPath host rest rawQuery = some u) :
    unescape false rest = some u.path ∧ u.rawQuery = rawQuery ∧
      (u.rawPath = [] ∨ u.rawPath = rest) := by
  obtain ⟨path, hpath, rfl⟩ := Option.map_eq_some_iff.mp h
  refine ⟨hpath, rfl, ?_⟩
  dsimp only
  split
  · exact .inr rfl
  · exact .inl rfl

theorem setPath_of_unescape (host rawQuery : List UInt8) {rest path : List UInt8}
    (h : unescape false rest = some path) :
    ∃ u, setPath host rest rawQuery = some u ∧ u.path = path ∧ u.rawQuery = rawQuery := by
  refine ⟨_, by rw [setPath, h, Option.map_some], rfl, rfl⟩

/-- A slash stays in front. -/
theorem head_unescape {query : Bool} {s t : List UInt8} (hs : s.head? = some 47)
    (h : unescape query s = some t) : t.head? = some 47 := by
  obtain ⟨s', rfl⟩ := List.head?_eq_some_iff.mp hs
  rw [unescape_cons (by decide)] at h
  obtain ⟨t', -, rfl⟩ := Option.map_eq_some_iff.mp h
  simp

/-- A space or the end of the line ends what a request asks for. -/
def ends (c : UInt8) : Bool := c == 10 || c == 32

theorem not_ends_iff {c : UInt8} : (!ends c) = true ↔ c ≠ 10 ∧ c ≠ 32 := by simp [ends]

/-- A line is a beginning of what is read, without the end of the line. -/
theorem readLine_spec (s : List UInt8) : readLine s <+: s ∧ 10 ∉ readLine s := by
  have hall : 10 ∉ s.takeWhile (· ≠ 10) := fun hmem => by
    simpa using List.mem_takeWhile_imp hmem
  rw [readLine]
  split
  · exact ⟨(List.dropLast_prefix _).trans (List.takeWhile_prefix _),
      fun hmem => hall (List.dropLast_subset _ hmem)⟩
  · exact ⟨List.takeWhile_prefix _, hall⟩

/-- What is read stands between two spaces, on the first line. -/
theorem readRequest_inv {s uri : List UInt8} (h : readRequest s = some uri) :
    ∃ method later, s = method ++ 32 :: (uri ++ 32 :: later) ∧ 32 ∉ method ∧ 32 ∉ uri ∧
      10 ∉ uri := by
  obtain ⟨⟨later, hlater⟩, h10⟩ := readLine_spec s
  rw [readRequest] at h
  obtain ⟨hcond, huri⟩ := Option.ite_none_right_eq_some.mp h
  have h32 : 32 ∈ (split 32 (readLine s)).2 := by
    simpa using (Bool.and_eq_true_iff.mp hcond).1
  have h32' : 32 ∈ readLine s := by
    by_contra hnot
    rw [split_of_not_mem hnot] at h32
    cases h32
  obtain ⟨hline, hmethod⟩ := append_split h32'
  obtain ⟨hrest, hnot⟩ := append_split h32
  rw [Option.some.inj huri] at hrest hnot
  refine ⟨_, (split 32 (split 32 (readLine s)).2).2 ++ later, ?_, hmethod, hnot, fun hmem => ?_⟩
  · calc s = readLine s ++ later := hlater.symm
      _ = (split 32 (readLine s)).1 ++
            32 :: (uri ++ 32 :: (split 32 (split 32 (readLine s)).2).2) ++ later := by
          rw [← hrest, ← hline]
      _ = _ := by simp
  · apply h10
    rw [hline, hrest]
    simp [hmem]

/-- What a receiver takes a request to ask for ends at the first space or end of the line. -/
theorem readRequest_eq_some {uri uri' : List UInt8}
    (h : readRequest (requestLine uri) = some uri') : uri' = uri.takeWhile (!ends ·) := by
  obtain ⟨method, later, hs, hmethod, h32, h10⟩ := readRequest_inv h
  have hline : requestLine uri =
      [71, 69, 84] ++ 32 :: (uri ++ 32 :: [72, 84, 84, 80, 47, 49, 46, 49, 13, 10]) := by
    simp [requestLine]
  -- both begin with the method and a space
  have hsame : uri ++ 32 :: [72, 84, 84, 80, 47, 49, 46, 49, 13, 10] = uri' ++ 32 :: later := by
    have hsplit := split_append_cons hmethod (uri' ++ 32 :: later)
    rw [← hs, hline, split_append_cons (by decide)] at hsplit
    exact (Prod.mk.inj hsplit).2
  have hplain : ∀ c ∈ uri', (!ends c) = true := fun c hc =>
    not_ends_iff.mpr ⟨fun h => h10 (h ▸ hc), fun h => h32 (h ▸ hc)⟩
  have htake : (uri ++ 32 :: [72, 84, 84, 80, 47, 49, 46, 49, 13, 10]).takeWhile (!ends ·) =
      uri' := by
    rw [hsame, List.takeWhile_append_of_pos hplain]
    simp [ends]
  rw [← htake, List.takeWhile_append]
  split
  · rename_i hall
    rw [(List.takeWhile_prefix _).eq_of_length hall]
    simp [ends]
  · rfl

theorem readLine_of_not_mem {s : List UInt8} (hs : 10 ∉ s) : readLine (s ++ [13, 10]) = s := by
  have htake : (s ++ [13, 10]).takeWhile (· ≠ 10) = s ++ [13] := by
    rw [List.takeWhile_append_of_pos (forall_ne_of_not_mem hs)]
    rfl
  rw [readLine, htake, if_pos List.getLast?_concat, List.dropLast_concat]

/-- **A URI without spaces and line feeds comes through.** -/
theorem readRequest_of_plain {uri : List UInt8} (h10 : 10 ∉ uri) (h32 : 32 ∉ uri) :
    readRequest (requestLine uri) = some uri := by
  have hline : readLine (requestLine uri) =
      [71, 69, 84] ++ 32 :: (uri ++ 32 :: [72, 84, 84, 80, 47, 49, 46, 49]) := by
    have hsplit : requestLine uri =
        [71, 69, 84] ++ 32 :: (uri ++ 32 :: [72, 84, 84, 80, 47, 49, 46, 49]) ++ [13, 10] := by
      simp [requestLine]
    rw [hsplit, readLine_of_not_mem]
    simp [h10]
  have hversion : parseHTTPVersion [72, 84, 84, 80, 47, 49, 46, 49] = true := by decide
  rw [readRequest, hline, split_append_cons (by decide)]
  dsimp only
  rw [split_append_cons h32, hversion]
  simp

/-- What a request carries of a path that begins with a slash. -/
theorem escapedPath_spec {u : URL} (hpath : u.path.head? = some 47)
    (hraw : u.rawPath = [] ∨ u.rawPath.head? = some 47) :
    unescape false u.escapedPath = some u.path ∧ 63 ∉ u.escapedPath ∧
      (∀ c ∈ u.escapedPath, (!ends c) = true) ∧ u.escapedPath.head? = some 47 := by
  rw [URL.escapedPath]
  split
  · obtain ⟨hne, hvalid, hunescape⟩ := ‹_ ∧ _›
    have hnot : ∀ c, c ∈ u.rawPath → c ∉ [10, 32, 63] := by
      intro c hc hmem
      have hok := List.all_eq_true.mp hvalid c hc
      simp only [List.mem_cons, List.not_mem_nil, or_false] at hmem
      obtain rfl | rfl | rfl := hmem <;> exact absurd hok (by decide)
    refine ⟨hunescape, fun hmem => hnot 63 hmem (by decide), fun c hc => not_ends_iff.mpr ?_,
      hraw.resolve_left hne⟩
    exact ⟨fun h => hnot c hc (by simp [h]), fun h => hnot c hc (by simp [h])⟩
  · split
    · rename_i hstar
      rw [hstar] at hpath
      cases hpath
    · have hnot : ∀ c ∈ [10, 32, 63], c ∉ escape u.path := by
        intro c hc
        simp only [List.mem_cons, List.not_mem_nil, or_false] at hc
        obtain rfl | rfl | rfl := hc <;>
          exact not_mem_escape rfl (by decide) (hexDigit_ne (by decide))
      refine ⟨unescape_escape _, hnot 63 (by decide), fun c hc => not_ends_iff.mpr ?_, ?_⟩
      · exact ⟨fun h => hnot c (by simp [h]) hc, fun h => hnot c (by simp [h]) hc⟩
      · obtain ⟨rest, hrest⟩ := List.head?_eq_some_iff.mp hpath
        rw [hrest]
        rfl

/-- What a request asks for, up to a space or the end of the line: all of the path. -/
theorem parseRequestURI_cut {u : URL} (hpath : u.path.head? = some 47)
    (hraw : u.rawPath = [] ∨ u.rawPath.head? = some 47) :
    ∃ u', parseRequestURI (u.requestURI.takeWhile (!ends ·)) = some u' ∧ u'.path = u.path ∧
      u'.rawQuery = u.rawQuery.takeWhile (!ends ·) := by
  obtain ⟨hunescape, hquery, hends, hhead⟩ := escapedPath_spec hpath hraw
  obtain ⟨rest, hrest⟩ := List.head?_eq_some_iff.mp hhead
  have huri : u.requestURI.takeWhile (!ends ·) =
      u.escapedPath ++ u.queryPart.takeWhile (!ends ·) := by
    rw [URL.requestURI, if_neg (by rw [hrest]; simp), List.takeWhile_append_of_pos hends]
  have hsplit : split 63 (u.requestURI.takeWhile (!ends ·)) =
      (u.escapedPath, u.rawQuery.takeWhile (!ends ·)) := by
    rw [huri, split_append hquery, URL.queryPart]
    split
    · rename_i hempty
      simp [split, hempty]
    · rw [List.takeWhile_cons_of_pos rfl, split_cons_self, List.append_nil]
  have hstar : u.requestURI.takeWhile (!ends ·) ≠ [42] := by
    rw [huri, hrest]
    simp
  obtain ⟨u', hu', hpath', hquery'⟩ :=
    setPath_of_unescape [] (u.rawQuery.takeWhile (!ends ·)) hunescape
  refine ⟨u', ?_, hpath', hquery'⟩
  rw [parseRequestURI, if_neg hstar, hsplit]
  dsimp only
  rw [if_pos hhead, hu']

/-- **A path comes through unchanged**, and of the query what is before a space or the end of a
line. -/
theorem receive_eq_some {u u' : URL} (hpath : u.path.head? = some 47)
    (hraw : u.rawPath = [] ∨ u.rawPath.head? = some 47) (h : u.receive = some u') :
    u'.path = u.path ∧ u'.rawQuery = u.rawQuery.takeWhile (!ends ·) := by
  obtain ⟨uri, hread, h⟩ := Option.bind_eq_some_iff.mp h
  obtain ⟨u'', hu'', hpath', hquery'⟩ := parseRequestURI_cut hpath hraw
  rw [readRequest_eq_some hread, hu''] at h
  obtain rfl := Option.some.inj h
  exact ⟨hpath', hquery'⟩

/-- A request comes through if its query has neither. -/
theorem receive_of_plain {u : URL} (hpath : u.path.head? = some 47)
    (hraw : u.rawPath = [] ∨ u.rawPath.head? = some 47)
    (hquery : 10 ∉ u.rawQuery ∧ 32 ∉ u.rawQuery) :
    ∃ u', u.receive = some u' := by
  obtain ⟨-, -, hends, hhead⟩ := escapedPath_spec hpath hraw
  have hplain : ∀ c ∈ u.requestURI, c ≠ 10 ∧ c ≠ 32 := by
    intro c hc
    rw [URL.requestURI, if_neg (fun h => by rw [h] at hhead; cases hhead), URL.queryPart] at hc
    obtain hc | hc := List.mem_append.mp hc
    · exact not_ends_iff.mp (hends c hc)
    · split at hc
      · cases hc
      · obtain rfl | hc := List.mem_cons.mp hc
        · decide
        · exact ⟨fun h => hquery.1 (h ▸ hc), fun h => hquery.2 (h ▸ hc)⟩
  obtain ⟨u', hu', -, -⟩ := parseRequestURI_cut hpath hraw
  rw [List.takeWhile_eq_self_iff.mpr fun c hc => not_ends_iff.mpr (hplain c hc)] at hu'
  refine ⟨u', ?_⟩
  rw [URL.receive, readRequest_of_plain (fun h => (hplain 10 h).1 rfl)
    (fun h => (hplain 32 h).2 rfl), Option.bind_some, hu']

/-- Reading a URL whose host has no separators in it. -/
theorem parse_http {host tail : List UInt8} (hhost : 47 ∉ host ∧ 63 ∉ host ∧ 35 ∉ host)
    (htail : tail.head? = some 47) :
    parse ([104, 116, 116, 112, 58, 47, 47] ++ host ++ tail) =
      if (unescape false (split 35 tail).2).isSome then
        setPath host (split 63 (split 35 tail).1).1 (split 63 (split 35 tail).1).2
      else
        none := by
  obtain ⟨h47, h63, h35⟩ := hhost
  have hfragment : split 35 ([104, 116, 116, 112, 58, 47, 47] ++ host ++ tail) =
      ([104, 116, 116, 112, 58, 47, 47] ++ (host ++ (split 35 tail).1), (split 35 tail).2) := by
    rw [split_append, List.append_assoc]
    rw [List.mem_append, not_or]
    exact ⟨by decide, h35⟩
  -- the path begins where the host ends
  have hbegin : ∀ c, c ≠ 47 → ∀ s : List UInt8, s.head? = some 47 →
      (split c s).1.head? = some 47 := by
    intro c hc s hs
    obtain ⟨rest, rfl⟩ := List.head?_eq_some_iff.mp hs
    simp [split, Ne.symm hc]
  have hpath := hbegin 63 (by decide) _ (hbegin 35 (by decide) _ htail)
  obtain ⟨rest, hrest⟩ := List.head?_eq_some_iff.mp hpath
  have hall := forall_ne_of_not_mem h47
  rw [parse, hfragment]
  dsimp only
  have htake : ([104, 116, 116, 112, 58, 47, 47] ++ (host ++ (split 35 tail).1)).take 7 =
      [104, 116, 116, 112, 58, 47, 47] := List.take_left' rfl
  have hdrop : ([104, 116, 116, 112, 58, 47, 47] ++ (host ++ (split 35 tail).1)).drop 7 =
      host ++ (split 35 tail).1 := List.drop_left' rfl
  rw [htake, hdrop, split_append h63, hrest]
  dsimp only
  rw [List.takeWhile_append_of_pos hall, List.dropWhile_append_of_pos hall]
  simp

/-- A URL that was read has no path or one that begins with a slash. -/
theorem parse_path {rawurl : List UInt8} {u : URL} (h : parse rawurl = some u) :
    u.path = [] ∧ u.rawPath = [] ∨
      u.path.head? = some 47 ∧ (u.rawPath = [] ∨ u.rawPath.head? = some 47) := by
  have hset : ∀ {host s rawQuery : List UInt8},
      setPath host (s.dropWhile (· ≠ 47)) rawQuery = some u →
      u.path = [] ∧ u.rawPath = [] ∨
        u.path.head? = some 47 ∧ (u.rawPath = [] ∨ u.rawPath.head? = some 47) := by
    intro host s rawQuery h
    obtain ⟨hpath, -, hraw⟩ := setPath_eq_some h
    cases hrest : s.dropWhile (· ≠ 47) with
    | nil =>
      rw [hrest] at hpath hraw
      exact .inl ⟨(Option.some.inj hpath).symm, hraw.elim id id⟩
    | cons c rest =>
      have hhead := List.head?_dropWhile_not (· ≠ 47) s
      rw [hrest] at hhead hpath hraw
      have hc : c = 47 := by simpa using hhead
      rw [hc] at hpath hraw
      exact .inr ⟨head_unescape rfl hpath, hraw.imp_right fun h => by rw [h]; rfl⟩
  rw [parse] at h
  obtain ⟨-, h⟩ := Option.ite_none_right_eq_some.mp h
  exact hset h

/-- What is asked for begins with a slash, and so does its path. -/
theorem head_parseRequestURI {uri : List UInt8} {u : URL} (huri : uri.head? = some 47)
    (h : parseRequestURI uri = some u) : u.path.head? = some 47 := by
  have hstar : uri ≠ [42] := fun h => by rw [h] at huri; cases huri
  rw [parseRequestURI, if_neg hstar] at h
  obtain ⟨hhead, h⟩ := Option.ite_none_right_eq_some.mp h
  exact head_unescape hhead (setPath_eq_some h).1

/-- The path a receiver sees begins with a slash. -/
theorem receive_path {rawurl : List UInt8} {u u' : URL} (h : parse rawurl = some u)
    (hreceive : u.receive = some u') : u'.path.head? = some 47 := by
  obtain ⟨uri, hread, hparse⟩ := Option.bind_eq_some_iff.mp hreceive
  have huri : u.requestURI.head? = some 47 := by
    rw [URL.requestURI]
    split
    · rfl
    · rename_i hne
      obtain ⟨hpath, hraw⟩ | ⟨hpath, hraw⟩ := parse_path h
      · rw [URL.escapedPath, hpath, hraw] at hne
        exact absurd rfl hne
      · rw [List.head?_append, (escapedPath_spec hpath hraw).2.2.2]
        rfl
  refine head_parseRequestURI ?_ hparse
  obtain ⟨rest, hrest⟩ := List.head?_eq_some_iff.mp huri
  rw [readRequest_eq_some hread, hrest]
  rfl

/-! ## Values of a query

A key and a value are put into a query with `=` between them and nothing escaped. What the
receiver finds under the key is the value exactly if no byte of it separates, or stands for
another. -/

/-- A key that stands for itself. -/
def PlainKey (key : List UInt8) : Prop := ∀ c ∈ key, c ∉ [37, 38, 43, 59, 61]

theorem PlainKey.not_mem {key : List UInt8} (h : PlainKey key) {c : UInt8}
    (hc : c ∈ [37, 38, 43, 59, 61]) : c ∉ key := fun hmem => h c hmem hc

/-- The first `=` is the one after the key. -/
theorem parsePair_key {key : List UInt8} (hkey : PlainKey key) (value : List UInt8) :
    parsePair (key ++ 61 :: value) = (unescape true value).map fun v => (key, v) := by
  have hsplit : split 61 (key ++ 61 :: value) = (key, value) :=
    split_append_cons (hkey.not_mem (by decide)) value
  have hself : unescape true key = some key :=
    unescape_eq_self_iff.mpr ⟨hkey.not_mem (by decide), hkey.not_mem (by decide)⟩
  rw [parsePair, if_neg (by simp), hsplit, hself]
  rfl

theorem separates_of_not_mem {s : List UInt8} (h38 : 38 ∉ s) (h59 : 59 ∉ s) :
    ∀ c ∈ s, separates c = false := by
  intro c hc
  have h38 : c ≠ 38 := fun h => h38 (h ▸ hc)
  have h59 : c ≠ 59 := fun h => h59 (h ▸ hc)
  simp [separates, h38, h59]

/-- A value that is not divided makes one component with its key. -/
theorem separates_key {key : List UInt8} (hkey : PlainKey key) {value : List UInt8}
    (hvalue : ∀ c ∈ value, separates c = false) :
    ∀ c ∈ key ++ 61 :: value, separates c = false := by
  intro c hc
  obtain hc | hc := List.mem_append.mp hc
  · exact separates_of_not_mem (hkey.not_mem (by decide)) (hkey.not_mem (by decide)) c hc
  · obtain rfl | hc := List.mem_cons.mp hc
    · rfl
    · exact hvalue c hc

/-- A query with one value. -/
theorem get_of_single {u : URL} {key value : List UInt8} (hkey : PlainKey key)
    (hquery : u.rawQuery = key ++ 61 :: value) (hvalue : ∀ c ∈ value, separates c = false) :
    u.get key = (unescape true value).getD [] := by
  have hsingle := List.splitOnP_eq_singleton (separates_key hkey hvalue)
  rw [URL.get, parseQuery, hquery, hsingle, List.filterMap_cons, parsePair_key hkey]
  cases unescape true value with
  | none => rfl
  | some v => simp

theorem length_of_mem_splitOnP {p : UInt8 → Bool} {s part : List UInt8}
    (h : part ∈ s.splitOnP p) : part.length ≤ s.length := by
  induction s generalizing part with
  | nil =>
    rw [List.splitOnP_nil, List.mem_singleton] at h
    rw [h]
  | cons c s ih =>
    rw [List.splitOnP_cons_eq_if_modifyHead] at h
    split at h
    · obtain rfl | h := List.mem_cons.mp h
      · exact Nat.zero_le _
      · exact Nat.le_succ_of_le (ih h)
    · rcases hs : s.splitOnP p with _ | ⟨first, rest⟩
      · exact absurd hs (List.splitOnP_ne_nil p s)
      · rw [hs, List.modifyHead_cons] at h
        obtain rfl | h := List.mem_cons.mp h
        · exact Nat.succ_le_succ (ih (hs ▸ List.mem_cons_self ..))
        · exact Nat.le_succ_of_le (ih (hs ▸ List.mem_cons_of_mem _ h))

/-- No value of a query is longer than the query. -/
theorem length_of_mem_parseQuery {query : List UInt8} {pair : List UInt8 × List UInt8}
    (h : pair ∈ parseQuery query) : pair.2.length ≤ query.length := by
  obtain ⟨component, hmem, h⟩ := List.mem_filterMap.mp h
  rw [parsePair] at h
  split at h
  · cases h
  · obtain ⟨key, -, h⟩ := Option.bind_eq_some_iff.mp h
    obtain ⟨value, hvalue, rfl⟩ := Option.map_eq_some_iff.mp h
    exact ((length_unescape hvalue).1.trans (length_split_snd _ _)).trans
      (length_of_mem_splitOnP hmem)

/-- A value with separators in it is cut into pieces, and no piece is as long. -/
theorem length_get_lt {u : URL} {key value : List UInt8} (hkey : PlainKey key)
    (hquery : u.rawQuery = key ++ 61 :: value) (hvalue : ∃ c ∈ value, separates c = true) :
    (u.get key).length < value.length := by
  obtain ⟨first, c, rest, hfirst, hc, rfl⟩ : ∃ first c rest,
      (∀ b ∈ first, separates b = false) ∧ separates c = true ∧ value = first ++ c :: rest := by
    obtain ⟨c, hfind⟩ := Option.isSome_iff_exists.mp (List.find?_isSome.mpr hvalue)
    obtain ⟨hc, first, rest, hvalue, hfirst⟩ := List.find?_eq_some_iff_append.mp hfind
    exact ⟨first, c, rest, fun b hb => by simpa using hfirst b hb, hc, hvalue⟩
  have hparts : parseQuery u.rawQuery =
      ((unescape true first).map fun v => (key, v)).toList ++ parseQuery rest := by
    have hsplit : (key ++ 61 :: (first ++ c :: rest)).splitOnP separates =
        (key ++ 61 :: first) :: rest.splitOnP separates := by
      rw [← List.cons_append, ← List.append_assoc,
        List.splitOnP_append_cons_of_forall_mem (separates_key hkey hfirst) c hc]
    rw [parseQuery, hquery, hsplit, List.filterMap_cons, parsePair_key hkey]
    cases unescape true first <;> rfl
  have hpieces : ∀ pair ∈ parseQuery u.rawQuery,
      pair.2.length < (first ++ c :: rest).length := by
    intro pair hpair
    rw [hparts] at hpair
    rw [List.length_append, List.length_cons]
    obtain hpair | hpair := List.mem_append.mp hpair
    · obtain ⟨v, hv, rfl⟩ := Option.map_eq_some_iff.mp (Option.mem_toList.mp hpair)
      have hle := (length_unescape hv).1
      dsimp only
      omega
    · have hle := length_of_mem_parseQuery hpair
      omega
  rw [URL.get]
  cases hfind : (parseQuery u.rawQuery).find? fun pair => pair.1 = key with
  | none =>
    rw [List.length_append, List.length_cons]
    exact Nat.succ_pos _
  | some pair => exact hpieces pair (List.mem_of_find?_eq_some hfind)

/-- No value is longer than the text it was read from. -/
theorem length_get_le {u : URL} {key value : List UInt8} (hkey : PlainKey key)
    (hquery : u.rawQuery = key ++ 61 :: value) : (u.get key).length ≤ value.length := by
  by_cases hsep : ∃ c ∈ value, separates c = true
  · exact (length_get_lt hkey hquery hsep).le
  · rw [get_of_single hkey hquery (by simpa using hsep)]
    cases hunescape : unescape true value with
    | none => exact Nat.zero_le _
    | some v => exact (length_unescape hunescape).1

/-- A value stands for itself if it is not divided and has nothing to decode. -/
theorem get_self_iff {u : URL} {key value : List UInt8} (hkey : PlainKey key)
    (hquery : u.rawQuery = key ++ 61 :: value) (hne : value ≠ []) :
    u.get key = value ↔ ∀ c ∈ value, c ∉ [37, 38, 43, 59] := by
  constructor
  · intro hget
    have hplain : ∀ c ∈ value, separates c = false := by
      by_contra hsep
      have hlt := length_get_lt hkey hquery (by simpa using hsep)
      rw [hget] at hlt
      exact lt_irrefl _ hlt
    have hself : unescape true value = some value := by
      rw [get_of_single hkey hquery hplain] at hget
      cases hunescape : unescape true value with
      | none => exact absurd (by rw [← hget, hunescape]; rfl) hne
      | some v => rw [← hget, hunescape, Option.getD_some]
    obtain ⟨h37, h43⟩ := unescape_eq_self_iff.mp hself
    intro c hc hmem
    have hfalse := hplain c hc
    simp only [List.mem_cons, List.not_mem_nil, or_false] at hmem
    obtain rfl | rfl | rfl | rfl := hmem
    · exact h37 hc
    · cases hfalse
    · exact h43 hc
    · cases hfalse
  · intro hvalue
    have hnot : ∀ c ∈ [37, 38, 43, 59], c ∉ value := fun c hc hmem => hvalue c hmem hc
    rw [get_of_single hkey hquery
        (separates_of_not_mem (hnot 38 (by decide)) (hnot 59 (by decide))),
      unescape_eq_self_iff.mpr ⟨hnot 37 (by decide), hnot 43 (by decide)⟩, Option.getD_some]

/-- **A value that was not escaped comes through exactly if none of its bytes has a meaning in a
request**: `#`, a space and the end of a line cut it, `&` and `;` divide it, `%` and `+` are
decoded. -/
theorem get_value_iff {u : URL} {key value : List UInt8} (hkey : PlainKey key)
    (hquery : u.rawQuery = key ++ 61 :: (split 35 value).1.takeWhile (!ends ·))
    (hne : value ≠ []) :
    u.get key = value ↔ ∀ c ∈ value, c ∉ [10, 32, 35, 37, 38, 43, 59] := by
  have hcut : (split 35 value).1.takeWhile (!ends ·) = value ↔ ∀ c ∈ value, c ∉ [10, 32, 35] := by
    rw [split, List.takeWhile_takeWhile, List.takeWhile_eq_self_iff]
    refine forall₂_congr fun c _ => ?_
    simp [ends, and_assoc]
  have hsplit : (∀ c ∈ value, c ∉ [10, 32, 35, 37, 38, 43, 59]) ↔
      (∀ c ∈ value, c ∉ [10, 32, 35]) ∧ ∀ c ∈ value, c ∉ [37, 38, 43, 59] := by
    rw [← forall₂_and]
    refine forall₂_congr fun c _ => ?_
    rw [← not_or, ← List.mem_append]
    rfl
  rw [hsplit, ← hcut]
  constructor
  · intro hget
    have hbegins : (split 35 value).1.takeWhile (!ends ·) <+: value :=
      (List.takeWhile_prefix _).trans (List.takeWhile_prefix _)
    have hle := length_get_le hkey hquery
    rw [hget] at hle
    have hall := hbegins.eq_of_length_le hle
    rw [hall] at hquery
    exact ⟨hall, (get_self_iff hkey hquery hne).mp hget⟩
  · rintro ⟨hall, hplain⟩
    rw [hall] at hquery
    exact (get_self_iff hkey hquery hne).mpr hplain

/-! ## URLs of any scheme

A text may also be a URL of another scheme, or a bare path. Of such a one only the scheme, the
host and the path are told apart. -/

/-- A URL that may not be one of `http`, as far as it tells where something is. -/
structure Location where
  /-- `Scheme` -/
  scheme : List UInt8
  /-- `Host` -/
  host : List UInt8
  /-- `Path` -/
  path : List UInt8
  deriving DecidableEq, Repr

/-- A letter. -/
def letter (c : UInt8) : Bool := decide (65 ≤ c ∧ c ≤ 90) || decide (97 ≤ c ∧ c ≤ 122)

/-- What a scheme is made of: letters, digits and `+-.`. -/
def schemeByte (c : UInt8) : Bool := alphanumeric c || [43, 45, 46].contains c

/-- `getscheme`: what is before a colon, if it begins with a letter; `none` is an error. -/
def getscheme (rawurl : List UInt8) : Option (List UInt8 × List UInt8) :=
  let scheme := rawurl.takeWhile schemeByte
  match rawurl.dropWhile schemeByte with
  | 58 :: rest =>
    if scheme = [] then none
    else if scheme.head?.any letter then some (scheme, rest)
    else some ([], rawurl)
  | _ => some ([], rawurl)

/-- `strings.ToLower`, of a scheme. -/
def toLower (c : UInt8) : UInt8 := if 65 ≤ c ∧ c ≤ 90 then c + 32 else c

/-- `Parse`; `none` is an error. The host of an authority is left to `parseAuthority`. -/
def locate (parseAuthority : List UInt8 → Option (List UInt8)) (rawurl : List UInt8) :
    Option Location :=
  let (url, fragment) := split 35 rawurl
  if (unescape false fragment).isNone then
    none
  else if url = [42] then
    some ⟨[], [], [42]⟩
  else
    (getscheme url).bind fun (scheme, rest) =>
      let scheme := scheme.map toLower
      let rest := (split 63 rest).1
      if rest.head? ≠ some 47 ∧ scheme ≠ [] then
        -- an opaque URL
        some ⟨scheme, [], []⟩
      else if (scheme ≠ [] ∨ rest.take 3 ≠ [47, 47, 47]) ∧ rest.take 2 = [47, 47] then
        let rest := rest.drop 2
        (parseAuthority (rest.takeWhile (· ≠ 47))).bind fun host =>
          (unescape false (rest.dropWhile (· ≠ 47))).map fun path => ⟨scheme, host, path⟩
      else
        (unescape false rest).map fun path => ⟨scheme, [], path⟩

-- `FILE:///a%20b?c`, and `/a`
example : locate some [70, 73, 76, 69, 58, 47, 47, 47, 97, 37, 50, 48, 98, 63, 99] =
    some ⟨[102, 105, 108, 101], [], [47, 97, 32, 98]⟩ := by decide
example : locate some [47, 97] = some ⟨[], [], [47, 97]⟩ := by decide

end GoURL
