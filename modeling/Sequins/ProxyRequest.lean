import Sequins.GoURL
import Sequins.Serve
import Sequins.VersionMux

/-!
# Requests between nodes

A request that is proxied names the version it is for in its query: `newProxyRequest` writes the
name there as it is, and the multiplexer of the peer looks up what the query says
(`Mux.serveKey`). A query with a name in it is also what keeps a peer from proxying once more.

The name is not escaped. `proxied_request_faithful_iff` says which names come through.
-/

namespace Sequins

open GoURL

/-- `proxy`, the key of the query. -/
def proxyKey : Bytes := [112, 114, 111, 120, 121]

/-- `newProxyRequest`; `none` is an error. The request is for the URL that was read, not for the
one that was written. -/
def Version.newProxyRequest (v : Version) (path : Bytes) (peer : Address) : Option URL :=
  parse (URL.string ⟨peer, path, [], proxyKey ++ 61 :: v.name⟩)

/-! ## At the receiver -/

namespace Mux

/-- The version that `serveKey` asks, or the status it answers with if there is none. -/
def versionFor (m : Mux) (proxyVersion : Bytes) : Mux × Except ℕ VersionRef :=
  if proxyVersion ≠ [] then
    match m.getVersion proxyVersion with
    | (m, some v) => (m, .ok v)
    | (m, none) =>
      match m.getCurrent with
      | (m, some v) => (m, .ok v)
      | (m, none) => (m, .error 501)
  else
    match m.getCurrent with
    | (m, some v) => (m, .ok v)
    | (m, none) => (m, .error 404)

/-- `serveKey`: `object` is what the pointers point to, and `serveProxied` what these versions do
to proxy the request. -/
def serveKey (m : Mux) (object : VersionRef → Version)
    (serveProxied : VersionRef → ℤ → ℤ → Option Response) (r : URL) (key : Bytes) :
    Except Panic Mux × Option Response :=
  match m.versionFor (r.get proxyKey) with
  | (m, .error status) => (.ok m, some (statusOnly status))
  | (m, .ok v) => (m.release (some v), (object v).serveKey (r.get proxyKey) (serveProxied v) key)

variable {m : Mux} {name : Bytes}

/-- The version that is asked for is served, if there is one. -/
theorem versionFor_of_lookup (hname : name ≠ []) {vs : Entry}
    (h : m.versions.lookup name = some vs) : (m.versionFor name).2 = .ok vs.version := by
  rw [versionFor, if_pos hname, getVersion, h]
  rfl

/-- A request with a version in it is not proxied. -/
theorem serveKey_not_proxied {r : URL} (hname : r.get proxyKey ≠ []) (object : VersionRef → Version)
    (serveProxied serveProxied' : VersionRef → ℤ → ℤ → Option Response) (key : Bytes) :
    m.serveKey object serveProxied r key = m.serveKey object serveProxied' r key := by
  rw [serveKey, serveKey]
  split
  · rfl
  · rw [Version.serveKey, Version.serveKey]
    simp only [if_neg hname]

end Mux

/-- The receiver asks the version a request is for, if it has it, and does not proxy the request
once more. -/
def ServedAs (r : URL) (name : Bytes) : Prop :=
  ∀ (m : Mux) (object : VersionRef → Version) (key : Bytes),
    (∀ vs, m.versions.lookup name = some vs →
      (m.versionFor (r.get proxyKey)).2 = .ok vs.version) ∧
    ∀ serveProxied serveProxied',
      m.serveKey object serveProxied r key = m.serveKey object serveProxied' r key

/-- It is enough that the query gives the name back. -/
theorem servedAs_of_get {r : URL} {name : Bytes} (hname : name ≠ []) (h : r.get proxyKey = name) :
    ServedAs r name := by
  intro m object key
  rw [h]
  exact ⟨fun vs hvs => Mux.versionFor_of_lookup hname hvs,
    fun p p' => Mux.serveKey_not_proxied (h ▸ hname) object p p' key⟩

/-! ## On the way

The URL is put together as text, read again by `NewRequest`, written on a line and read by the
receiver. A byte of the name may be taken for something else at each of these. -/

theorem plainKey_proxyKey : PlainKey proxyKey := by
  simp [PlainKey, proxyKey]

theorem not_mem_of_hostByte {peer : Address} (hpeer : ∀ c ∈ peer, hostByte c = true) :
    47 ∉ peer ∧ 63 ∉ peer ∧ 35 ∉ peer :=
  ⟨fun h => absurd (hpeer 47 h) (by decide), fun h => absurd (hpeer 63 h) (by decide),
    fun h => absurd (hpeer 35 h) (by decide)⟩

/-- The URL a request is for: the name is cut at a `#`, and what is after it has to be readable. -/
theorem newProxyRequest_eq (v : Version) {path : Bytes} {peer : Address}
    (hpath : path.head? = some 47) (hpeer : ∀ c ∈ peer, hostByte c = true) :
    v.newProxyRequest path peer =
      if (unescape false (split 35 v.name).2).isSome then
        setPath peer (escape path) (proxyKey ++ 61 :: (split 35 v.name).1)
      else
        none := by
  have h42 : path ≠ [42] := fun h => by rw [h] at hpath; cases hpath
  have hnot : ∀ c ∈ [35, 63], c ∉ escape path := by
    intro c hc
    simp only [List.mem_cons, List.not_mem_nil, or_false] at hc
    obtain rfl | rfl := hc <;> exact not_mem_escape rfl (by decide) (hexDigit_ne (by decide))
  have hescaped : URL.escapedPath ⟨peer, path, [], proxyKey ++ 61 :: v.name⟩ = escape path := by
    rw [URL.escapedPath, if_neg (by simp), if_neg h42]
  have hhead : (escape path).head? = some 47 := by
    obtain ⟨rest, rfl⟩ := List.head?_eq_some_iff.mp hpath
    rfl
  have hstring : URL.string ⟨peer, path, [], proxyKey ++ 61 :: v.name⟩ =
      [104, 116, 116, 112, 58, 47, 47] ++ peer ++
        (escape path ++ 63 :: (proxyKey ++ 61 :: v.name)) := by
    rw [URL.string, hescaped, if_neg (by simp [hhead]), URL.queryPart, if_neg (by simp)]
    simp
  have htail : split 35 (escape path ++ 63 :: (proxyKey ++ 61 :: v.name)) =
      (escape path ++ 63 :: (proxyKey ++ 61 :: (split 35 v.name).1), (split 35 v.name).2) := by
    have hplain : 35 ∉ escape path ++ 63 :: (proxyKey ++ [61]) := by
      rw [List.mem_append, not_or]
      exact ⟨hnot 35 (by decide), by decide⟩
    simpa using split_append hplain v.name
  rw [Version.newProxyRequest, hstring, parse_http (not_mem_of_hostByte hpeer), htail]
  · dsimp only
    rw [split_append_cons (hnot 63 (by decide))]
  · rw [List.head?_append, hhead]
    rfl

/-- What the receiver sees of a request that could be built. -/
theorem receive_newProxyRequest {v : Version} {path : Bytes} {peer : Address}
    (hpath : path.head? = some 47) (hpeer : ∀ c ∈ peer, hostByte c = true) {req : URL}
    (hreq : v.newProxyRequest path peer = some req) :
    req.path = path ∧ req.rawQuery = proxyKey ++ 61 :: (split 35 v.name).1 ∧
      (req.rawPath = [] ∨ req.rawPath.head? = some 47) := by
  rw [newProxyRequest_eq v hpath hpeer] at hreq
  obtain ⟨-, hset⟩ := Option.ite_none_right_eq_some.mp hreq
  obtain ⟨hunescape, hquery, hraw⟩ := setPath_eq_some hset
  rw [unescape_escape] at hunescape
  refine ⟨(Option.some.inj hunescape).symm, hquery, hraw.imp_right fun h => ?_⟩
  obtain ⟨rest, rfl⟩ := List.head?_eq_some_iff.mp hpath
  rw [h]
  rfl

/-- The value that comes through: what is before a `#`, a space or the end of a line. -/
theorem takeWhile_proxyKey (name : Bytes) :
    (proxyKey ++ 61 :: name).takeWhile (!ends ·) = proxyKey ++ 61 :: name.takeWhile (!ends ·) := by
  have hplain : ∀ c ∈ proxyKey, (!ends c) = true := List.all_eq_true.mp rfl
  rw [List.takeWhile_append_of_pos hplain, List.takeWhile_cons_of_pos rfl]

/-- **A request names its version exactly if the name means nothing else in a URL.** For a name
with a line feed, a space or one of `#%&+;` the receiver gets another name, or none, or the request
cannot be read; it then serves another version, and with no name it proxies the request again.
For every other name and every path, the receiver asks this very version and does not proxy. (The
path begins with a slash in every request but `GET *`, which is sent as a request for `/*`.) -/
theorem proxied_request_faithful_iff (v : Version) (path : Bytes) (peer : Address)
    (hname : v.name ≠ []) (hpeer : ∀ c ∈ peer, hostByte c = true) :
    (∃ req r, v.newProxyRequest path peer = some req ∧ req.receive = some r ∧
        r.get proxyKey = v.name ∧ r.path = path ∧ ServedAs r v.name) ↔
      path.head? = some 47 ∧ ∀ c ∈ v.name, c ∉ [10, 32, 35, 37, 38, 43, 59] := by
  constructor
  · rintro ⟨req, r, hreq, hr, hget, hpath, -⟩
    have hhead : path.head? = some 47 := hpath ▸ receive_path hreq hr
    obtain ⟨hreqpath, hquery, hraw⟩ := receive_newProxyRequest hhead hpeer hreq
    obtain ⟨-, hquery'⟩ := receive_eq_some (by rw [hreqpath, hhead]) hraw hr
    rw [hquery, takeWhile_proxyKey] at hquery'
    exact ⟨hhead, (get_value_iff plainKey_proxyKey hquery' hname).mp hget⟩
  · rintro ⟨hhead, hplain⟩
    have hnot : ∀ c ∈ [10, 32, 35, 37, 38, 43, 59], c ∉ v.name := fun c hc hmem => hplain c hmem hc
    have hcut : split 35 v.name = (v.name, []) := split_of_not_mem (hnot 35 (by decide))
    obtain ⟨req, hreq⟩ : ∃ req, v.newProxyRequest path peer = some req := by
      obtain ⟨u, hu, -, -⟩ := setPath_of_unescape peer (proxyKey ++ 61 :: v.name)
        (unescape_escape path)
      exact ⟨u, by rw [newProxyRequest_eq v hhead hpeer, hcut]; exact hu⟩
    obtain ⟨hreqpath, hquery, hraw⟩ := receive_newProxyRequest hhead hpeer hreq
    have hreqhead : req.path.head? = some 47 := by rw [hreqpath, hhead]
    obtain ⟨r, hr⟩ := receive_of_plain hreqhead hraw (by
      rw [hquery, hcut]
      simp only [List.mem_append, List.mem_cons, not_or]
      exact ⟨⟨by decide, by decide, hnot 10 (by decide)⟩, by decide, by decide,
        hnot 32 (by decide)⟩)
    obtain ⟨hrpath, hrquery⟩ := receive_eq_some hreqhead hraw hr
    rw [hquery, takeWhile_proxyKey] at hrquery
    have hget := (get_value_iff plainKey_proxyKey hrquery hname).mpr hplain
    exact ⟨req, r, hreq, hr, hget, hrpath.trans hreqpath, servedAs_of_get hname hget⟩

/-- A version of that name, with one empty file. -/
def versionNamed (name : Bytes) : Version :=
  builtVersion name 0 (alone 1 {0}) .snappy 4096 [([], [])] (IterOrder.stored _)

/-- A date is such a name: `2016-01-02`. -/
theorem proxied_request_faithful_date :
    ∃ req r, (versionNamed [50, 48, 49, 54, 45, 48, 49, 45, 48, 50]).newProxyRequest
        [47, 100, 47, 63, 32] [104, 58, 49] = some req ∧ req.receive = some r ∧
      r.get proxyKey = [50, 48, 49, 54, 45, 48, 49, 45, 48, 50] ∧ r.path = [47, 100, 47, 63, 32] ∧
      ServedAs r [50, 48, 49, 54, 45, 48, 49, 45, 48, 50] := by
  have hplain : ∀ c ∈ [50, 48, 49, 54, 45, 48, 49, 45, 48, 50],
      c ∉ ([10, 32, 35, 37, 38, 43, 59] : Bytes) := by
    simp
  exact (proxied_request_faithful_iff (versionNamed [50, 48, 49, 54, 45, 48, 49, 45, 48, 50])
    [47, 100, 47, 63, 32] [104, 58, 49] (List.cons_ne_nil _ _) (List.all_eq_true.mp rfl)).mpr
    ⟨rfl, hplain⟩

/-- **Other names are served as something else.** A request for the version `1&2` is one for the
version `1`, one for `1+2` is for `1 2`, and one for the version `&1` does not seem to be proxied at
all. -/
theorem ampersand_names_another :
    (((versionNamed [49, 38, 50]).newProxyRequest [47, 100, 47, 107] [104, 58, 49]).bind
      URL.receive).map (·.get proxyKey) = some [49] ∧
    (((versionNamed [49, 43, 50]).newProxyRequest [47, 100, 47, 107] [104, 58, 49]).bind
      URL.receive).map (·.get proxyKey) = some [49, 32, 50] ∧
    (((versionNamed [38, 49]).newProxyRequest [47, 100, 47, 107] [104, 58, 49]).bind
      URL.receive).map (·.get proxyKey) = some [] :=
  ⟨by decide, by decide, by decide⟩

end Sequins
