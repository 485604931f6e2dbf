import Sequins.Status
import Sequins.ProxyRequest

/-!
# The status page of a cluster

A node that is asked for its status asks all its peers for theirs and merges what comes back:
`serveStatus` for all dbs, `serveDBStatus` for one. A peer that does not have a db answers without a
status, and is skipped.

The page does not depend on who is asked, nor on the order of the peers. The page of one db
is the part of the whole page that is about it, unless the name of the db has a `?`, `#` or `%` in
it: it is part of a URL that nothing escapes, so the peers are asked for something else
(`status_page_same`).
-/

namespace Sequins

open GoURL

/-! ## The handlers -/

/-- The part of a node that its status is made from. -/
structure StatusNode where
  /-- its address -/
  address : Address
  /-- the addresses of its peers, if it has a peer list -/
  peers : Option (List Address)
  /-- `DisplayPath` of the backend -/
  displayPath : Bytes → Bytes → Bytes
  /-- its dbs -/
  dbs : AList fun _ : Bytes => ServedDB

/-- What comes back for a request. -/
inductive Page where
  /-- the status of all dbs -/
  | all (status : Status)
  /-- the status of one db -/
  | one (status : DBStatus)
  /-- nothing that could be read as a status -/
  | other

/-- The URL that a peer is asked for its status under. -/
def statusURL (peer : Address) (db : Bytes) : Bytes :=
  let url := [104, 116, 116, 112, 58, 47, 47] ++ peer ++
    47 :: (db ++ 63 :: (proxyKey ++ 61 :: [115, 116, 97, 116, 117, 115]))
  if url.getLast? = some 47 then url else url ++ [47]

/-- `getPeerStatus`, before what came back is decoded; `none` is a panic: the request is used
before the error is looked at. -/
def getPeerStatus (ask : Address → URL → Page) (peer : Address) (db : Bytes) : Option Page :=
  (parse (statusURL peer db)).map fun u => u.receive.elim .other (ask peer)

namespace StatusNode

variable (o : StatusOrders) (ask : Address → URL → Page) (n : StatusNode)

/-- The name of a node in its reports: `localhost`, if it is alone. -/
def hostname : Address :=
  if n.peers.isSome then n.address else [108, 111, 99, 97, 108, 104, 111, 115, 116]

/-- `db.status`. -/
def dbStatus (name : Bytes) (db : ServedDB) : DBStatus :=
  db.status o n.hostname (n.displayPath name)

/-- The first loop of `serveStatus`. -/
def ownStatus : Status :=
  (o.dbs.arrange n.dbs.entries).foldl
    (fun status e => status.insert e.1 (copyDBStatus o (n.dbStatus o e.1 e.2))) ∅

/-- The status so far written into that of a peer. -/
def mergeStatus (merged status : Status) : Status :=
  (o.status.arrange status.entries).foldl
    (fun merged e => merged.insert e.1
      ((merged.lookup e.1).elim e.2 fun left => mergeDBStatus o left e.2)) merged

/-- One peer in `serveStatus`. A page of the other kind leaves a nil map behind, which can only be
read. -/
def addPeer (status : Status) (peer : Address) : Option Status :=
  (getPeerStatus ask peer []).bind fun
    | .all peerStatus => some (mergeStatus o peerStatus status)
    | .one _ => if status.entries.isEmpty then some ∅ else none
    | .other => some status

/-- The last loop of `serveStatus`. -/
def calculateStats (status : Status) : Status :=
  (o.status.arrange status.entries).foldl
    (fun status e => status.insert e.1 (calculateDBStats o e.2)) status

/-- `serveStatus`; `none` is a panic. -/
def serveStatus (proxied : Bool) : Option Status :=
  match n.peers with
  | none => some (n.ownStatus o)
  | some addrs =>
    if proxied then
      some (n.ownStatus o)
    else
      ((o.peers.arrange addrs).foldlM (addPeer o ask) (n.ownStatus o)).map (calculateStats o)

/-- One peer in `db.serveStatus`. -/
def addDBPeer (name : Bytes) (status : DBStatus) (peer : Address) : Option DBStatus :=
  (getPeerStatus ask peer name).bind fun
    | .one peerStatus => some (mergeDBStatus o peerStatus status)
    | .all _ => if status.entries.isEmpty then some ∅ else none
    | .other => some status

/-- `db.serveStatus`; `none` is a panic. -/
def serveDBStatus (name : Bytes) (db : ServedDB) (proxied : Bool) : Option DBStatus :=
  match n.peers with
  | none => some (n.dbStatus o name db)
  | some addrs =>
    if proxied then
      some (n.dbStatus o name db)
    else
      ((o.peers.arrange addrs).foldlM (addDBPeer o ask name) (n.dbStatus o name db)).map
        (calculateDBStats o)

/-- The name of the db and the key in a path. -/
def dbAndKey (path : Bytes) : Bytes × Bytes :=
  split 47 (if path.head? = some 47 then path.tail else path)

/-- `ServeHTTP`, for the requests that are answered with a status. -/
def serveHTTP (r : URL) : Page :=
  let proxied := !(r.get proxyKey).isEmpty
  if r.path = [47] then
    (n.serveStatus o ask proxied).elim .other .all
  else
    let (dbName, key) := dbAndKey r.path
    if dbName = [] then
      .other
    else
      match n.dbs.lookup dbName with
      | none => .other
      | some db =>
        if key = [] then
          (n.serveDBStatus o ask dbName db proxied).elim .other .one
        else
          .other

/-- What a node itself reports about a db. -/
def report (name : Bytes) : Option DBView :=
  (n.dbs.lookup name).map fun db => db.report n.hostname (n.displayPath name)

end StatusNode

/-- What nodes answer to requests that are nested up to a depth. -/
def answer (o : StatusOrders) (nodes : List StatusNode) : ℕ → Address → URL → Page
  | 0, _, _ => .other
  | depth + 1, peer, r =>
    (nodes.find? fun n => n.address = peer).elim .other fun n =>
      n.serveHTTP o (answer o nodes depth) r

/-! ## Asking a peer -/

/-- `proxy=status/`, the query. -/
def statusQuery : Bytes := proxyKey ++ 61 :: [115, 116, 97, 116, 117, 115, 47]

theorem statusURL_eq (peer : Address) (db : Bytes) :
    statusURL peer db =
      [104, 116, 116, 112, 58, 47, 47] ++ peer ++ 47 :: (db ++ 63 :: statusQuery) := by
  have hlast : ([104, 116, 116, 112, 58, 47, 47] ++ peer ++
      47 :: (db ++ 63 :: (proxyKey ++ 61 :: [115, 116, 97, 116, 117, 115]))).getLast? =
      some 115 := by
    rw [List.getLast?_append_of_ne_nil _ (by simp), ← List.cons_append,
      List.getLast?_append_of_ne_nil _ (by simp)]
    rfl
  rw [statusURL, hlast, if_neg (by decide)]
  simp [statusQuery]

/-- The URL that was read from what was written. -/
theorem parse_statusURL {peer : Address} (hpeer : ∀ c ∈ peer, hostByte c = true) (db : Bytes) :
    parse (statusURL peer db) =
      if (unescape false (split 35 (47 :: (db ++ 63 :: statusQuery))).2).isSome then
        setPath peer (split 63 (split 35 (47 :: (db ++ 63 :: statusQuery))).1).1
          (split 63 (split 35 (47 :: (db ++ 63 :: statusQuery))).1).2
      else
        none := by
  rw [statusURL_eq]
  exact parse_http (not_mem_of_hostByte hpeer) rfl

/-- The request that reaches a peer, if nothing in the name of the db means something else. -/
theorem getPeerStatus_of_plain (ask : Address → URL → Page) {peer : Address}
    (hpeer : ∀ c ∈ peer, hostByte c = true) {db : Bytes} (hdb : ∀ c ∈ db, c ∉ [35, 37, 63]) :
    ∃ r, getPeerStatus ask peer db = some (ask peer r) ∧ r.path = 47 :: db ∧
      (r.get proxyKey).isEmpty = false := by
  have hnot : ∀ c ∈ [35, 37, 63], c ∉ 47 :: db := by
    intro c hc hmem
    obtain rfl | hmem := List.mem_cons.mp hmem
    · revert hc
      decide
    · exact hdb c hmem hc
  have hfragment : split 35 (47 :: (db ++ 63 :: statusQuery)) =
      (47 :: (db ++ 63 :: statusQuery), []) := by
    apply split_of_not_mem
    rw [← List.cons_append, List.mem_append, not_or]
    exact ⟨hnot 35 (by decide), by decide⟩
  have hquery : split 63 (47 :: (db ++ 63 :: statusQuery)) = (47 :: db, statusQuery) := by
    rw [← List.cons_append]
    exact split_append_cons (hnot 63 (by decide)) _
  have hunescape : unescape false (47 :: db) = some (47 :: db) := by
    rw [unescape_of_not_mem (hnot 37 (by decide))]
    simp
  obtain ⟨u, hu, hpath, hrawQuery⟩ := setPath_of_unescape peer statusQuery hunescape
  have hraw : u.rawPath = [] ∨ u.rawPath.head? = some 47 :=
    (setPath_eq_some hu).2.2.imp_right fun h => by rw [h]; rfl
  have hhead : u.path.head? = some 47 := by rw [hpath]; rfl
  obtain ⟨r, hr⟩ := receive_of_plain hhead hraw (by rw [hrawQuery]; decide)
  obtain ⟨hrpath, hrquery⟩ := receive_eq_some hhead hraw hr
  refine ⟨r, ?_, hrpath.trans hpath, ?_⟩
  · have hparse : parse (statusURL peer db) = some u := by
      rw [parse_statusURL hpeer, hfragment]
      dsimp only
      rw [hquery]
      exact hu
    rw [getPeerStatus, hparse, Option.map_some, hr]
    rfl
  · have hvalue : r.rawQuery = statusQuery := by
      rw [hrquery, hrawQuery]
      decide
    rw [URL.get, hvalue]
    decide

/-- The path of the request ends where a query or a fragment starts. -/
theorem path_statusURL (db : Bytes) :
    (split 63 (split 35 (47 :: (db ++ 63 :: statusQuery))).1).1 =
      (47 :: db).takeWhile fun c => decide (c ≠ 63) && decide (c ≠ 35) := by
  rw [split, split, List.takeWhile_takeWhile, ← List.cons_append, List.takeWhile_append]
  simp only [Bool.decide_and, Bool.decide_eq_true]
  split
  · rename_i hall
    rw [(List.takeWhile_prefix _).eq_of_length hall]
    simp
  · rfl

/-- Something is lost of it, to a query, to a fragment or to an escape. -/
theorem length_unescape_of_not_plain {db path : Bytes} (hdb : ∃ c ∈ db, c ∈ [35, 37, 63])
    (h : unescape false ((47 :: db).takeWhile fun c => decide (c ≠ 63) && decide (c ≠ 35)) =
      some path) : path.length < (47 :: db).length := by
  obtain ⟨hle, hlt⟩ := length_unescape h
  by_cases hall : ∀ c ∈ 47 :: db, (decide (c ≠ 63) && decide (c ≠ 35)) = true
  · rw [List.takeWhile_eq_self_iff.mpr hall] at hlt
    obtain ⟨c, hc, hmem⟩ := hdb
    have hnot := hall c (List.mem_cons_of_mem _ hc)
    simp only [List.mem_cons, List.not_mem_nil, or_false] at hmem
    obtain rfl | rfl | rfl := hmem
    · exact absurd hnot (by decide)
    · exact hlt (List.mem_cons_of_mem _ hc)
    · exact absurd hnot (by decide)
  · refine hle.trans_lt (lt_of_le_of_ne (List.takeWhile_prefix _).length_le fun heq => hall ?_)
    exact List.takeWhile_eq_self_iff.mp ((List.takeWhile_prefix _).eq_of_length heq)

/-- A peer is asked for a shorter path, if it is asked at all, if something in the name of the db
means something else. -/
theorem getPeerStatus_of_not_plain (ask : Address → URL → Page) {peer : Address}
    (hpeer : ∀ c ∈ peer, hostByte c = true) {db : Bytes} (hdb : ∃ c ∈ db, c ∈ [35, 37, 63]) :
    getPeerStatus ask peer db = none ∨ getPeerStatus ask peer db = some .other ∨
      ∃ r, getPeerStatus ask peer db = some (ask peer r) ∧ r.path.head? = some 47 ∧
        r.path.length < (47 :: db).length := by
  cases hparse : parse (statusURL peer db) with
  | none => exact .inl (by rw [getPeerStatus, hparse]; rfl)
  | some u =>
    have hset := hparse
    rw [parse_statusURL hpeer, path_statusURL] at hset
    obtain ⟨-, hset⟩ := Option.ite_none_right_eq_some.mp hset
    obtain ⟨hunescape, -, hraw⟩ := setPath_eq_some hset
    have hhead : u.path.head? = some 47 := head_unescape rfl hunescape
    have hlength := length_unescape_of_not_plain hdb hunescape
    right
    cases hreceive : u.receive with
    | none => exact .inl (by rw [getPeerStatus, hparse, Option.map_some, hreceive]; rfl)
    | some r =>
      obtain ⟨hpath, -⟩ := receive_eq_some hhead (hraw.imp_right fun h => by rw [h]; rfl) hreceive
      refine .inr ⟨r, ?_, by rw [hpath, hhead], by rw [hpath]; exact hlength⟩
      rw [getPeerStatus, hparse, Option.map_some, hreceive]
      rfl

/-! ## Clusters

Requests are nested: a node that is asked by a client asks its peers, which know by the query
that they are not to ask on. Two levels are all there is, but the model has any depth. -/

/-- Nodes that know each other, have different addresses, and say the same about a version that
they share. -/
structure StatusCluster where
  /-- the nodes -/
  nodes : List StatusNode
  /-- their addresses differ -/
  distinct : (nodes.map StatusNode.address).Nodup
  /-- they are addresses of hosts -/
  plain : ∀ n ∈ nodes, ∀ c ∈ n.address, hostByte c = true
  /-- the peers of a node are all others -/
  peers : ∀ n ∈ nodes, ∃ addrs, n.peers = some addrs ∧
    addrs.Perm ((nodes.map StatusNode.address).erase n.address)
  /-- the paths and numbers of partitions are the same -/
  agree : ∀ n ∈ nodes, ∀ m ∈ nodes, ∀ name db db', n.dbs.lookup name = some db →
    m.dbs.lookup name = some db' → ∀ v ∈ db.versions, ∀ v' ∈ db'.versions, v.1.name = v'.1.name →
    n.displayPath name v.1.name = m.displayPath name v.1.name ∧
      v.1.numPartitions = v'.1.numPartitions

/-- What nodes report about a db. -/
def reports (S : Set StatusNode) (name : Bytes) : Set DBView :=
  {r | ∃ n ∈ S, n.report name = some r}

namespace StatusCluster

variable (c : StatusCluster) {o : StatusOrders}

theorem eq_of_address {n m : StatusNode} (hn : n ∈ c.nodes) (hm : m ∈ c.nodes)
    (h : n.address = m.address) : n = m :=
  List.inj_on_of_nodup_map c.distinct hn hm h

theorem hostname_eq {n : StatusNode} (hn : n ∈ c.nodes) : n.hostname = n.address := by
  obtain ⟨addrs, haddrs, -⟩ := c.peers n hn
  rw [StatusNode.hostname, haddrs]
  rfl

/-- Reports of the nodes of a cluster do not contradict each other. -/
theorem compatible {S : Set StatusNode} (hS : ∀ n ∈ S, n ∈ c.nodes) (name : Bytes) :
    Compatible (reports S name) where
  header := by
    rintro r ⟨n, hn, hr⟩ r' ⟨m, hm, hr'⟩ v y y' hy hy'
    obtain ⟨db, hdb, rfl⟩ := Option.map_eq_some_iff.mp hr
    obtain ⟨db', hdb', rfl⟩ := Option.map_eq_some_iff.mp hr'
    obtain ⟨w, hw, rfl, hheader, -⟩ := ServedDB.report_eq_some hy
    obtain ⟨w', hw', hname, hheader', -⟩ := ServedDB.report_eq_some hy'
    obtain ⟨hpath, hnum⟩ :=
      c.agree n (hS n hn) m (hS m hm) name db db' hdb hdb' w hw w' hw' hname.symm
    rw [hheader, hheader', hpath, hnum]
  nodes := by
    rintro r ⟨n, hn, hr⟩ r' ⟨m, hm, hr'⟩ v y y' hy hy' host st st' hst hst'
    have haddress : n.address = m.address := by
      obtain ⟨db, hdb, rfl⟩ := Option.map_eq_some_iff.mp hr
      obtain ⟨db', hdb', rfl⟩ := Option.map_eq_some_iff.mp hr'
      obtain ⟨-, -, -, -, honly⟩ := ServedDB.report_eq_some hy
      obtain ⟨-, -, -, -, honly'⟩ := ServedDB.report_eq_some hy'
      rw [← c.hostname_eq (hS n hn), ← c.hostname_eq (hS m hm),
        ← (honly host).mp (by rw [hst]; rfl), (honly' host).mp (by rw [hst']; rfl)]
    obtain rfl := c.eq_of_address (hS n hn) (hS m hm) haddress
    rw [hr] at hr'
    obtain rfl := Option.some.inj hr'
    rw [hy] at hy'
    obtain rfl := Option.some.inj hy'
    rw [hst] at hst'
    exact Option.some.inj hst'
  fresh := by
    rintro r ⟨n, hn, hr⟩ v y hy
    obtain ⟨db, hdb, rfl⟩ := Option.map_eq_some_iff.mp hr
    obtain ⟨w, hw, rfl, hheader, -⟩ := ServedDB.report_eq_some hy
    calc y.header = y.header.fresh := by rw [hheader]; rfl
      _ = y.fresh := rfl

end StatusCluster

/-- A status that has what nodes report, for every db that one of them has. -/
def Gathers (S : Set StatusNode) (status : Status) : Prop :=
  ∀ name, (status.lookup name = none ∧ reports S name = ∅) ∨
    ∃ s, status.lookup name = some s ∧ (reports S name).Nonempty ∧
      Collects (reports S name) (DBStatus.view s)

theorem reports_union (S T : Set StatusNode) (name : Bytes) :
    reports (S ∪ T) name = reports S name ∪ reports T name := by
  ext r
  simp only [reports, Set.mem_ofPred_eq, Set.mem_union, or_and_right, exists_or]

theorem reports_of_lookup_none {n : StatusNode} {name : Bytes} (h : n.dbs.lookup name = none) :
    reports {n} name = ∅ := by
  ext r
  simp [reports, StatusNode.report, h]

theorem reports_of_lookup {n : StatusNode} {name : Bytes} {db : ServedDB}
    (h : n.dbs.lookup name = some db) :
    reports {n} name = {db.report n.hostname (n.displayPath name)} := by
  ext r
  simp [reports, StatusNode.report, h, eq_comm]

/-- A node's own status. -/
theorem gathers_ownStatus (c : StatusCluster) (o : StatusOrders) {n : StatusNode}
    (hn : n ∈ c.nodes) : Gathers {n} (n.ownStatus o) := by
  intro name
  rw [StatusNode.ownStatus,
    AList.lookup_range o.dbs (fun name db _ => copyDBStatus o (n.dbStatus o name db))]
  cases hdb : n.dbs.lookup name with
  | none => exact .inl ⟨rfl, reports_of_lookup_none hdb⟩
  | some db =>
    have hreports := reports_of_lookup hdb
    have hview : DBStatus.view (n.dbStatus o name db) = db.report n.hostname (n.displayPath name) :=
      db.view_status o _ _
    refine .inr ⟨_, rfl, by rw [hreports]; exact Set.singleton_nonempty _, ?_⟩
    rw [view_copyDBStatus, hview, hreports]
    · exact collects_singleton _
    · intro v y hy
      rw [hview] at hy
      refine (c.compatible (S := {n}) ?_ name).fresh _ (by rw [hreports]; rfl) v y hy
      rintro m rfl
      exact hn

/-- **One more peer.** -/
theorem Gathers.mergeStatus {S T : Set StatusNode} {merged status : Status} (hT : Gathers T merged)
    (hS : Gathers S status) (hcompat : ∀ name, Compatible (reports (T ∪ S) name))
    (o : StatusOrders) : Gathers (T ∪ S) (StatusNode.mergeStatus o merged status) := by
  intro name
  rw [StatusNode.mergeStatus, AList.lookup_range o.status
    (fun _ x left => left.elim x fun left => mergeDBStatus o left x), reports_union]
  have hname := hcompat name
  rw [reports_union] at hname
  obtain ⟨hs, hempty⟩ | ⟨s, hs, hne, hcollects⟩ := hS name
  · rw [hs, hempty, Set.union_empty]
    exact hT name
  · obtain ⟨hs', hempty'⟩ | ⟨s', hs', hne', hcollects'⟩ := hT name
    · rw [hs, hs', hempty', Set.empty_union]
      exact .inr ⟨s, rfl, hne, hcollects⟩
    · rw [hs, hs']
      refine .inr ⟨mergeDBStatus o s' s, rfl, hne.inr, ?_⟩
      rw [view_mergeDBStatus]
      exact hcollects'.merge hcollects hname

namespace StatusCluster

variable (c : StatusCluster) {o : StatusOrders} {n m : StatusNode} {r : URL} {name : Bytes}

theorem answer_eq (hm : m ∈ c.nodes) (depth : ℕ) (r : URL) :
    answer o c.nodes (depth + 1) m.address r = m.serveHTTP o (answer o c.nodes depth) r := by
  cases hfind : c.nodes.find? fun n => n.address = m.address with
  | none => exact absurd (List.find?_eq_none.mp hfind m hm) (by simp)
  | some m' =>
    have haddress : m'.address = m.address := by simpa using List.find?_some hfind
    obtain rfl := c.eq_of_address (List.mem_of_find?_eq_some hfind) hm haddress
    rw [answer, hfind]
    rfl

/-- Asked by a peer, a node answers with what it knows itself. -/
theorem addPeer_eq (hm : m ∈ c.nodes) (depth : ℕ) (status : Status) :
    StatusNode.addPeer o (answer o c.nodes (depth + 1)) status m.address =
      some (StatusNode.mergeStatus o (m.ownStatus o) status) := by
  have hnil : ∀ c ∈ ([] : Bytes), c ∉ [35, 37, 63] := by simp
  obtain ⟨r, hask, hpath, hproxied⟩ := getPeerStatus_of_plain (answer o c.nodes (depth + 1))
    (c.plain m hm) hnil
  obtain ⟨addrs, haddrs, -⟩ := c.peers m hm
  rw [StatusNode.addPeer, hask, c.answer_eq hm, StatusNode.serveHTTP, if_pos hpath,
    StatusNode.serveStatus, haddrs, hproxied]
  rfl

/-- A peer that has the db is merged, and any other one is passed over. -/
theorem addDBPeer_eq (hm : m ∈ c.nodes) (depth : ℕ) (hne : name ≠ []) (hslash : 47 ∉ name)
    (hname : ∀ c ∈ name, c ∉ [35, 37, 63]) (status : DBStatus) :
    StatusNode.addDBPeer o (answer o c.nodes (depth + 1)) name status m.address =
      some ((m.dbs.lookup name).elim status fun db =>
        mergeDBStatus o (m.dbStatus o name db) status) := by
  obtain ⟨r, hask, hpath, hproxied⟩ := getPeerStatus_of_plain (answer o c.nodes (depth + 1))
    (c.plain m hm) hname
  obtain ⟨addrs, haddrs, -⟩ := c.peers m hm
  have hroot : r.path ≠ [47] := by
    rw [hpath]
    simpa using hne
  have hkey : StatusNode.dbAndKey r.path = (name, []) := by
    rw [StatusNode.dbAndKey, hpath]
    exact split_of_not_mem hslash
  rw [StatusNode.addDBPeer, hask, c.answer_eq hm, StatusNode.serveHTTP, if_neg hroot, hkey]
  dsimp only
  rw [if_neg hne]
  cases hdb : m.dbs.lookup name with
  | none => rfl
  | some db =>
    dsimp only
    rw [if_pos rfl, StatusNode.serveDBStatus, haddrs, hproxied]
    rfl

/-- The nodes with these addresses. -/
def nodesAt (addrs : List Address) : Set StatusNode := {m | m ∈ c.nodes ∧ m.address ∈ addrs}

theorem nodesAt_nil : c.nodesAt [] = ∅ := by
  ext m
  simp [nodesAt]

theorem nodesAt_cons (hm : m ∈ c.nodes) (addrs : List Address) :
    c.nodesAt (m.address :: addrs) = {m} ∪ c.nodesAt addrs := by
  ext m'
  constructor
  · rintro ⟨hm', haddress⟩
    obtain haddress | haddress := List.mem_cons.mp haddress
    · exact .inl (c.eq_of_address hm' hm haddress)
    · exact .inr ⟨hm', haddress⟩
  · rintro (rfl | ⟨hm', haddress⟩)
    · exact ⟨hm, List.mem_cons_self ..⟩
    · exact ⟨hm', List.mem_cons_of_mem _ haddress⟩

/-- All peers, one after the other. -/
theorem gathers_foldlM (depth : ℕ) {addrs : List Address}
    (haddrs : ∀ a ∈ addrs, ∃ m ∈ c.nodes, m.address = a) {S : Set StatusNode}
    (hS : ∀ n ∈ S, n ∈ c.nodes) {status : Status} (h : Gathers S status) :
    ∃ status', addrs.foldlM (StatusNode.addPeer o (answer o c.nodes (depth + 1))) status =
        some status' ∧ Gathers (c.nodesAt addrs ∪ S) status' := by
  induction addrs generalizing S status with
  | nil =>
    refine ⟨status, rfl, ?_⟩
    rw [nodesAt_nil, Set.empty_union]
    exact h
  | cons a addrs ih =>
    obtain ⟨m, hm, rfl⟩ := haddrs a (List.mem_cons_self ..)
    have hall : ∀ n ∈ {m} ∪ S, n ∈ c.nodes := by
      rintro n (rfl | hn)
      · exact hm
      · exact hS n hn
    have hmerge := (gathers_ownStatus c o hm).mergeStatus h (fun name => c.compatible hall name) o
    obtain ⟨status', hfold, hgathers⟩ :=
      ih (fun a ha => haddrs a (List.mem_cons_of_mem _ ha)) hall hmerge
    refine ⟨status', ?_, ?_⟩
    · rw [List.foldlM_cons, c.addPeer_eq hm]
      exact hfold
    · rw [c.nodesAt_cons hm, Set.union_assoc, Set.union_left_comm]
      exact hgathers

/-- The same for the page of one db. -/
theorem collects_foldlM (depth : ℕ) (hne : name ≠ []) (hslash : 47 ∉ name)
    (hname : ∀ c ∈ name, c ∉ [35, 37, 63]) {addrs : List Address}
    (haddrs : ∀ a ∈ addrs, ∃ m ∈ c.nodes, m.address = a) {S : Set StatusNode}
    (hS : ∀ n ∈ S, n ∈ c.nodes) {s : DBStatus} (h : Collects (reports S name) (DBStatus.view s)) :
    ∃ s', addrs.foldlM (StatusNode.addDBPeer o (answer o c.nodes (depth + 1)) name) s = some s' ∧
      Collects (reports (c.nodesAt addrs ∪ S) name) (DBStatus.view s') := by
  induction addrs generalizing S s with
  | nil =>
    refine ⟨s, rfl, ?_⟩
    rw [nodesAt_nil, Set.empty_union]
    exact h
  | cons a addrs ih =>
    obtain ⟨m, hm, rfl⟩ := haddrs a (List.mem_cons_self ..)
    have hall : ∀ n ∈ {m} ∪ S, n ∈ c.nodes := by
      rintro n (rfl | hn)
      · exact hm
      · exact hS n hn
    have hmerge : Collects (reports ({m} ∪ S) name) (DBStatus.view
        ((m.dbs.lookup name).elim s fun db => mergeDBStatus o (m.dbStatus o name db) s)) := by
      have hcompat := c.compatible hall name
      rw [reports_union] at hcompat ⊢
      cases hdb : m.dbs.lookup name with
      | none =>
        rw [reports_of_lookup_none hdb, Set.empty_union]
        exact h
      | some db =>
        rw [reports_of_lookup hdb] at hcompat ⊢
        rw [Option.elim_some, view_mergeDBStatus, StatusNode.dbStatus, ServedDB.view_status]
        exact (collects_singleton _).merge h hcompat
    obtain ⟨s', hfold, hcollects⟩ :=
      ih (fun a ha => haddrs a (List.mem_cons_of_mem _ ha)) hall hmerge
    refine ⟨s', ?_, ?_⟩
    · rw [List.foldlM_cons, c.addDBPeer_eq hm depth hne hslash hname]
      exact hfold
    · rw [c.nodesAt_cons hm, Set.union_assoc, Set.union_left_comm]
      exact hcollects

/-- The peers of a node, and the node itself: everyone. -/
theorem nodesAt_peers (hn : n ∈ c.nodes) {addrs : List Address} (o : IterOrder Address)
    (haddrs : addrs.Perm ((c.nodes.map StatusNode.address).erase n.address)) :
    (∀ a ∈ o.arrange addrs, ∃ m ∈ c.nodes, m.address = a) ∧
      c.nodesAt (o.arrange addrs) ∪ {n} = {m | m ∈ c.nodes} := by
  have hmem : ∀ a, a ∈ o.arrange addrs ↔
      a ≠ n.address ∧ a ∈ c.nodes.map StatusNode.address := by
    intro a
    rw [IterOrder.mem_arrange, haddrs.mem_iff, c.distinct.mem_erase_iff]
  refine ⟨fun a ha => List.mem_map.mp ((hmem a).mp ha).2, ?_⟩
  ext m
  constructor
  · rintro (⟨hm, -⟩ | rfl)
    · exact hm
    · exact hn
  · intro hm
    by_cases heq : m = n
    · exact .inr heq
    · exact .inl ⟨hm, (hmem _).mpr ⟨fun h => heq (c.eq_of_address hm hn h),
        List.mem_map_of_mem hm⟩⟩

/-- **A page has the reports of all nodes.** -/
theorem serveStatus_spec (hn : n ∈ c.nodes) (o : StatusOrders) (depth : ℕ) :
    ∃ status, n.serveStatus o (answer o c.nodes (depth + 1)) false =
        some (StatusNode.calculateStats o status) ∧ Gathers {m | m ∈ c.nodes} status := by
  obtain ⟨addrs, hpeers, hperm⟩ := c.peers n hn
  obtain ⟨haddrs, hall⟩ := c.nodesAt_peers hn o.peers hperm
  obtain ⟨status, hfold, hgathers⟩ := c.gathers_foldlM (o := o) depth haddrs (S := {n})
    (by rintro m rfl; exact hn) (gathers_ownStatus c o hn)
  rw [hall] at hgathers
  refine ⟨status, ?_, hgathers⟩
  rw [StatusNode.serveStatus, hpeers]
  dsimp only
  rw [if_neg (by decide), hfold]
  rfl

/-- So does the page of a db whose name can be asked for. -/
theorem serveDBStatus_spec (hn : n ∈ c.nodes) (o : StatusOrders) (depth : ℕ) (hne : name ≠ [])
    (hslash : 47 ∉ name) (hname : ∀ c ∈ name, c ∉ [35, 37, 63]) {db : ServedDB}
    (hdb : n.dbs.lookup name = some db) :
    ∃ s, n.serveDBStatus o (answer o c.nodes (depth + 1)) name db false =
        some (calculateDBStats o s) ∧
      Collects (reports {m | m ∈ c.nodes} name) (DBStatus.view s) := by
  obtain ⟨addrs, hpeers, hperm⟩ := c.peers n hn
  obtain ⟨haddrs, hall⟩ := c.nodesAt_peers hn o.peers hperm
  have hown : Collects (reports {n} name) (DBStatus.view (n.dbStatus o name db)) := by
    rw [reports_of_lookup hdb, StatusNode.dbStatus, ServedDB.view_status]
    exact collects_singleton _
  obtain ⟨s, hfold, hcollects⟩ := c.collects_foldlM (o := o) depth hne hslash hname haddrs
    (by rintro m rfl; exact hn) hown
  rw [hall] at hcollects
  refine ⟨s, ?_, hcollects⟩
  rw [StatusNode.serveDBStatus, hpeers]
  dsimp only
  rw [if_neg (by decide), hfold]
  rfl

end StatusCluster

/-! ## The page -/

theorem lookup_calculateStats (o : StatusOrders) (status : Status) (name : Bytes) :
    (StatusNode.calculateStats o status).lookup name =
      (status.lookup name).map (calculateDBStats o) := by
  rw [StatusNode.calculateStats, AList.lookup_range o.status (fun _ x _ => calculateDBStats o x)]
  cases status.lookup name <;> rfl

/-- Pages made from the same reports are the same. -/
theorem Gathers.view_eq {S : Set StatusNode} {status status' : Status} (h : Gathers S status)
    (h' : Gathers S status') (o o' : StatusOrders) :
    Status.view (StatusNode.calculateStats o status) =
      Status.view (StatusNode.calculateStats o' status') := by
  funext name
  rw [Status.view, Status.view, lookup_calculateStats, lookup_calculateStats]
  obtain ⟨hs, hempty⟩ | ⟨s, hs, hne, hcollects⟩ := h name
  · obtain ⟨hs', -⟩ | ⟨s', -, hne, -⟩ := h' name
    · rw [hs, hs']
      rfl
    · exact absurd hempty hne.ne_empty
  · obtain ⟨-, hempty⟩ | ⟨s', hs', -, hcollects'⟩ := h' name
    · exact absurd hempty hne.ne_empty
    · rw [hs, hs']
      exact congrArg some (view_calculateDBStats o (hcollects.unique hcollects') o')

/-- What a page has to say about the nodes of a cluster: the dbs and versions they have, and for
each node what it reports itself. -/
structure IsAggregate (c : StatusCluster) (page : Bytes → Option DBView) : Prop where
  /-- the dbs -/
  dbs : ∀ name, (page name).isSome ↔ ∃ m ∈ c.nodes, (m.report name).isSome
  /-- the versions -/
  versions : ∀ name v, ((page name).bind (· v)).isSome ↔
    ∃ m ∈ c.nodes, ((m.report name).bind (· v)).isSome
  /-- the nodes -/
  nodes : ∀ name v x, (page name).bind (· v) = some x → ∀ host entry,
    x.nodes host = some entry ↔ ∃ m ∈ c.nodes, m.address = host ∧
      ∃ y, (m.report name).bind (· v) = some y ∧ y.nodes host = some entry

theorem isSome_view_calculateDBStats (o : StatusOrders) (s : DBStatus) (v : Bytes) :
    (DBStatus.view (calculateDBStats o s) v).isSome ↔ (DBStatus.view s v).isSome := by
  rw [DBStatus.view, lookup_calculateDBStats, DBStatus.view]
  cases s.lookup v <;> simp

theorem view_calculateDBStats_eq_some {o : StatusOrders} {s : DBStatus} {v : Bytes}
    {x : VersionView} (h : DBStatus.view (calculateDBStats o s) v = some x) :
    ∃ y, DBStatus.view s v = some y ∧ x.nodes = y.nodes := by
  rw [DBStatus.view, lookup_calculateDBStats, Option.map_map] at h
  obtain ⟨vst, hvst, rfl⟩ := Option.map_eq_some_iff.mp h
  exact ⟨vst.view, by rw [DBStatus.view, hvst]; rfl, nodes_calculateReplicationStats o vst⟩

theorem report_eq_none_of_empty {S : Set StatusNode} {name : Bytes} (h : reports S name = ∅)
    {m : StatusNode} (hm : m ∈ S) : m.report name = none := by
  rw [Option.eq_none_iff_forall_ne_some]
  intro r hr
  have hmem : r ∈ reports S name := ⟨m, hm, hr⟩
  rw [h] at hmem
  exact hmem

/-- What was gathered is what a page should say. -/
theorem Gathers.isAggregate {c : StatusCluster} {status : Status}
    (h : Gathers {m | m ∈ c.nodes} status) (o : StatusOrders) :
    IsAggregate c (Status.view (StatusNode.calculateStats o status)) where
  dbs := fun name => by
    rw [Status.view, lookup_calculateStats]
    obtain ⟨hs, hempty⟩ | ⟨s, hs, ⟨r, m, hm, hr⟩, -⟩ := h name
    · rw [hs]
      refine iff_of_false (by simp) ?_
      rintro ⟨m, hm, hsome⟩
      rw [report_eq_none_of_empty hempty hm] at hsome
      cases hsome
    · rw [hs]
      exact iff_of_true rfl ⟨m, hm, by rw [hr]; rfl⟩
  versions := fun name v => by
    rw [Status.view, lookup_calculateStats]
    obtain ⟨hs, hempty⟩ | ⟨s, hs, -, hcollects⟩ := h name
    · rw [hs]
      refine iff_of_false (by simp) ?_
      rintro ⟨m, hm, hsome⟩
      rw [report_eq_none_of_empty hempty hm] at hsome
      cases hsome
    · rw [hs]
      change (DBStatus.view (calculateDBStats o s) v).isSome ↔ _
      rw [isSome_view_calculateDBStats, hcollects.versions]
      constructor
      · rintro ⟨r, ⟨m, hm, hr⟩, hrv⟩
        exact ⟨m, hm, by rw [hr]; exact hrv⟩
      · rintro ⟨m, hm, hsome⟩
        cases hr : m.report name with
        | none =>
          rw [hr] at hsome
          cases hsome
        | some r =>
          rw [hr] at hsome
          exact ⟨r, ⟨m, hm, hr⟩, hsome⟩
  nodes := fun name v x hx host entry => by
    rw [Status.view, lookup_calculateStats] at hx
    obtain ⟨hs, -⟩ | ⟨s, hs, -, hcollects⟩ := h name
    · rw [hs] at hx
      cases hx
    · rw [hs] at hx
      obtain ⟨y, hy, hnodes⟩ := view_calculateDBStats_eq_some hx
      rw [hnodes, hcollects.nodes v y hy]
      constructor
      · rintro ⟨r, ⟨m, hm, hr⟩, y', hy', hentry⟩
        refine ⟨m, hm, ?_, y', by rw [hr]; exact hy', hentry⟩
        obtain ⟨db, -, rfl⟩ := Option.map_eq_some_iff.mp hr
        obtain ⟨-, -, -, -, honly⟩ := ServedDB.report_eq_some hy'
        rw [(honly host).mp (by rw [hentry]; rfl), c.hostname_eq hm]
      · rintro ⟨m, hm, -, y', hy', hentry⟩
        obtain ⟨r, hr, hrv⟩ := Option.bind_eq_some_iff.mp hy'
        exact ⟨r, ⟨m, hm, hr⟩, y', hrv, hentry⟩

/-- The page of a db, if its name can be asked for, is what the whole page says about it. -/
theorem StatusCluster.view_serveDBStatus (c : StatusCluster) {n : StatusNode} (hn : n ∈ c.nodes)
    (o o' : StatusOrders) (depth depth' : ℕ) {name : Bytes} (hne : name ≠ []) (hslash : 47 ∉ name)
    (hname : ∀ c ∈ name, c ∉ [35, 37, 63]) {db : ServedDB} (hdb : n.dbs.lookup name = some db) :
    ∃ status s, n.serveStatus o (answer o c.nodes (depth + 1)) false = some status ∧
      n.serveDBStatus o' (answer o' c.nodes (depth' + 1)) name db false = some s ∧
      Status.view status name = some (DBStatus.view s) := by
  obtain ⟨status, hstatus, hgathers⟩ := c.serveStatus_spec hn o depth
  obtain ⟨s, hs, hcollects⟩ := c.serveDBStatus_spec hn o' depth' hne hslash hname hdb
  refine ⟨_, _, hstatus, hs, ?_⟩
  rw [Status.view, lookup_calculateStats]
  obtain ⟨-, hempty⟩ | ⟨s', hs', -, hcollects'⟩ := hgathers name
  · have hreport := report_eq_none_of_empty hempty hn
    rw [StatusNode.report, hdb] at hreport
    cases hreport
  · rw [hs']
    exact congrArg some (view_calculateDBStats o (hcollects'.unique hcollects) o')

/-! ## Names that cannot be asked for -/

/-- Maps that are visited as they are stored. -/
def storedOrders : StatusOrders :=
  ⟨.stored _, .stored _, .stored _, .stored _, .stored _⟩

/-- A db with one version, `1`. -/
def smallDB : ServedDB := ⟨[(versionNamed [49], none)], none, List.nodup_singleton _⟩

/-- A node with one peer and one db. -/
def smallNode (address peer : Address) (name : Bytes) : StatusNode :=
  ⟨address, some [peer], fun _ _ => [], AList.singleton name smallDB⟩

/-- What two such nodes have under a name is the same. -/
theorem lookup_smallNode {address peer : Address} {name name' : Bytes} {db : ServedDB}
    (h : (smallNode address peer name).dbs.lookup name' = some db) :
    name' = name ∧ db = smallDB := by
  have hmem := AList.mem_entries_iff_lookup.mpr h
  have hpair := List.mem_singleton.mp hmem
  cases hpair
  exact ⟨rfl, rfl⟩

/-- Two nodes, `a` and `b`, that have the same db. -/
def twoNodes (name : Bytes) : StatusCluster where
  nodes := [smallNode [97] [98] name, smallNode [98] [97] name]
  distinct := by
    change [[97], [98]].Nodup
    decide
  plain := by
    intro n hn
    obtain rfl | hn := List.mem_cons.mp hn
    · exact List.all_eq_true.mp rfl
    · obtain rfl := List.mem_singleton.mp hn
      exact List.all_eq_true.mp rfl
  peers := by
    intro n hn
    obtain rfl | hn := List.mem_cons.mp hn
    · exact ⟨[[98]], rfl, List.Perm.refl _⟩
    · obtain rfl := List.mem_singleton.mp hn
      exact ⟨[[97]], rfl, List.Perm.refl _⟩
  agree := by
    intro n hn m hm name' db db' hdb hdb' v hv v' hv' _
    have hsmall : ∀ k ∈ [smallNode [97] [98] name, smallNode [98] [97] name],
        ∀ db, k.dbs.lookup name' = some db → k.displayPath = (fun _ _ => []) ∧ db = smallDB := by
      intro k hk db hdb
      obtain rfl | hk := List.mem_cons.mp hk
      · exact ⟨rfl, (lookup_smallNode hdb).2⟩
      · obtain rfl := List.mem_singleton.mp hk
        exact ⟨rfl, (lookup_smallNode hdb).2⟩
    obtain ⟨hpath, rfl⟩ := hsmall n hn db hdb
    obtain ⟨hpath', rfl⟩ := hsmall m hm db' hdb'
    rw [hpath, hpath', List.mem_singleton.mp hv, List.mem_singleton.mp hv']
    exact ⟨rfl, rfl⟩

variable {name : Bytes}

/-- The name of the db in a path is shorter than the path. -/
theorem length_dbAndKey {path : Bytes} (hpath : path.head? = some 47) :
    (StatusNode.dbAndKey path).1.length < path.length := by
  obtain ⟨rest, rfl⟩ := List.head?_eq_some_iff.mp hpath
  have hbegins : (split 47 rest).1 <+: rest := List.takeWhile_prefix _
  exact Nat.lt_succ_of_le hbegins.length_le

/-- Asked for a shorter name, such a node has nothing to say about the db. -/
theorem serveHTTP_smallNode {address peer : Address} {r : URL} (hhead : r.path.head? = some 47)
    (hlength : r.path.length < (47 :: name).length) (o : StatusOrders)
    (ask : Address → URL → Page) :
    (smallNode address peer name).serveHTTP o ask r = .other ∨
      ∃ status, (smallNode address peer name).serveHTTP o ask r = .all status := by
  rw [StatusNode.serveHTTP]
  split
  · cases (smallNode address peer name).serveStatus o ask (!(r.get proxyKey).isEmpty) with
    | none => exact .inl rfl
    | some status => exact .inr ⟨status, rfl⟩
  · dsimp only
    have hnone :
        (smallNode address peer name).dbs.lookup (StatusNode.dbAndKey r.path).1 = none := by
      rw [Option.eq_none_iff_forall_ne_some]
      intro db hdb
      have hlt := length_dbAndKey hhead
      rw [(lookup_smallNode hdb).1] at hlt
      rw [List.length_cons] at hlength
      omega
    rw [hnone]
    split <;> exact .inl rfl

theorem addDBPeer_twoNodes (hname : ∃ c ∈ name, c ∈ [35, 37, 63]) (o : StatusOrders) (depth : ℕ)
    {s : DBStatus} (hs : s.entries.isEmpty = false) :
    StatusNode.addDBPeer o (answer o (twoNodes name).nodes (depth + 1)) name s [98] = none ∨
      StatusNode.addDBPeer o (answer o (twoNodes name).nodes (depth + 1)) name s [98] = some s := by
  have hb : smallNode [98] [97] name ∈ (twoNodes name).nodes := by simp [twoNodes]
  have hanswer : ∀ r, answer o (twoNodes name).nodes (depth + 1) [98] r =
      (smallNode [98] [97] name).serveHTTP o (answer o (twoNodes name).nodes depth) r :=
    (twoNodes name).answer_eq hb depth
  have hplain : ∀ c ∈ [98], hostByte c = true := List.all_eq_true.mp rfl
  rw [StatusNode.addDBPeer]
  obtain hask | hask | ⟨r, hask, hhead, hlength⟩ :=
    getPeerStatus_of_not_plain (answer o (twoNodes name).nodes (depth + 1)) hplain hname
  · rw [hask]
    exact .inl rfl
  · rw [hask]
    exact .inr rfl
  · rw [hask, hanswer]
    obtain hpage | ⟨status, hpage⟩ :=
      serveHTTP_smallNode hhead hlength o (answer o (twoNodes name).nodes depth)
    · rw [hpage]
      exact .inr rfl
    · rw [hpage]
      refine .inl ?_
      change (if s.entries.isEmpty = true then some ∅ else none) = none
      rw [hs]
      rfl

theorem isSome_report_smallDB (hostname : Address) (displayPath : Bytes → Bytes) :
    (smallDB.report hostname displayPath [49]).isSome := by
  have hlisted : (smallDB.listed hostname displayPath).lookup [49] =
      some ((versionNamed [49]).status none hostname (displayPath [49])) :=
    AList.lookup_insert _
  rw [ServedDB.report, hlisted]
  rfl

/-- A node that is asked for the page of such a db panics or leaves the other node out. -/
theorem serveDBStatus_twoNodes (hname : ∃ c ∈ name, c ∈ [35, 37, 63]) (o : StatusOrders)
    (depth : ℕ) {s : DBStatus}
    (hs : (smallNode [97] [98] name).serveDBStatus o (answer o (twoNodes name).nodes (depth + 1))
      name smallDB false = some s) :
    ∀ x, DBStatus.view s [49] = some x → x.nodes [98] = none := by
  have hview : DBStatus.view ((smallNode [97] [98] name).dbStatus o name smallDB) =
      smallDB.report [97] fun _ => [] := smallDB.view_status o _ _
  have hown : ((smallNode [97] [98] name).dbStatus o name smallDB).entries.isEmpty = false := by
    have hsome := isSome_report_smallDB [97] fun _ => []
    rw [← hview, DBStatus.view, Option.isSome_map] at hsome
    obtain ⟨vst, hvst⟩ := Option.isSome_iff_exists.mp hsome
    have hmem := AList.mem_entries_iff_lookup.mpr hvst
    rw [List.isEmpty_eq_false_iff]
    exact List.ne_nil_of_mem hmem
  have harrange : o.peers.arrange [[98]] = [[98]] := List.perm_singleton.mp (o.peers.perm [[98]])
  have hfold : (StatusNode.addDBPeer o (answer o (twoNodes name).nodes (depth + 1)) name
      ((smallNode [97] [98] name).dbStatus o name smallDB) [98]).map (calculateDBStats o) =
      some s := by
    have hpeers : (smallNode [97] [98] name).peers = some [[98]] := rfl
    rw [← hs, StatusNode.serveDBStatus, hpeers]
    dsimp only
    rw [if_neg (by decide), harrange, List.foldlM_cons]
    simp
  obtain hnone | hsome := addDBPeer_twoNodes hname o depth hown
  · rw [hnone] at hfold
    cases hfold
  · rw [hsome] at hfold
    obtain rfl := Option.some.inj hfold
    intro x hx
    obtain ⟨y, hy, hnodes⟩ := view_calculateDBStats_eq_some hx
    rw [hview] at hy
    obtain ⟨-, -, -, -, honly⟩ := ServedDB.report_eq_some hy
    rw [hnodes, ← Option.not_isSome_iff_eq_none, honly]
    decide

/-- The other node is on the page of everything. -/
theorem serveStatus_twoNodes (name : Bytes) (o : StatusOrders) (depth : ℕ) {status : Status}
    (hstatus : (smallNode [97] [98] name).serveStatus o
      (answer o (twoNodes name).nodes (depth + 1)) false = some status) :
    ∃ s x, Status.view status name = some s ∧ s [49] = some x ∧ (x.nodes [98]).isSome := by
  have ha : smallNode [97] [98] name ∈ (twoNodes name).nodes := List.mem_cons_self ..
  have hb : smallNode [98] [97] name ∈ (twoNodes name).nodes := by simp [twoNodes]
  obtain ⟨status', hstatus', hgathers⟩ := (twoNodes name).serveStatus_spec ha o depth
  rw [hstatus'] at hstatus
  obtain rfl := Option.some.inj hstatus
  have haggregate := hgathers.isAggregate o
  -- what `b` reports
  obtain ⟨y, hy⟩ := Option.isSome_iff_exists.mp (isSome_report_smallDB [98] fun _ => [])
  have hreport : ((smallNode [98] [97] name).report name).bind (· [49]) = some y := by
    have hdb : (smallNode [98] [97] name).dbs.lookup name = some smallDB :=
      AList.mem_entries_iff_lookup.mp (List.mem_singleton_self _)
    rw [StatusNode.report, hdb]
    exact hy
  obtain ⟨-, -, -, -, honly⟩ := ServedDB.report_eq_some hy
  obtain ⟨entry, hentry⟩ := Option.isSome_iff_exists.mp ((honly [98]).mpr rfl)
  obtain ⟨x, hx⟩ := Option.isSome_iff_exists.mp
    ((haggregate.versions name [49]).mpr ⟨_, hb, by rw [hreport]; rfl⟩)
  have hnode := (haggregate.nodes name [49] x hx [98] entry).mpr ⟨_, hb, rfl, y, hreport, hentry⟩
  obtain ⟨s, hs, hsx⟩ := Option.bind_eq_some_iff.mp hx
  exact ⟨s, x, hs, hsx, by rw [hnode]; rfl⟩

/-! ## Who is asked does not matter -/

/-- **The status page is the same whoever is asked.** For every cluster, the page of every node
is the aggregate of what all nodes report, in whatever order the peers are asked and the maps are
visited. What it says about a db is the page of that db, for every db that the asked node has,
exactly if the name of the db does not have `#`, `%` or `?` in it: with one of these, the peers
are asked for another path. -/
theorem status_page_same (name : Bytes) (hne : name ≠ []) (hslash : 47 ∉ name) :
    (∀ (c : StatusCluster) (n n' : StatusNode) (o o' : StatusOrders) (depth depth' : ℕ),
      n ∈ c.nodes → n' ∈ c.nodes →
      ∃ status status', n.serveStatus o (answer o c.nodes (depth + 1)) false = some status ∧
        n'.serveStatus o' (answer o' c.nodes (depth' + 1)) false = some status' ∧
        Status.view status = Status.view status' ∧ IsAggregate c (Status.view status)) ∧
    ((∀ (c : StatusCluster) (n : StatusNode) (o o' : StatusOrders) (depth depth' : ℕ)
        (db : ServedDB), n ∈ c.nodes → n.dbs.lookup name = some db →
      ∃ status s, n.serveStatus o (answer o c.nodes (depth + 1)) false = some status ∧
        n.serveDBStatus o' (answer o' c.nodes (depth' + 1)) name db false = some s ∧
        Status.view status name = some (DBStatus.view s)) ↔
      ∀ b ∈ name, b ∉ [35, 37, 63]) := by
  refine ⟨?_, ?_, ?_⟩
  · intro c n n' o o' depth depth' hn hn'
    obtain ⟨status, hstatus, hgathers⟩ := c.serveStatus_spec hn o depth
    obtain ⟨status', hstatus', hgathers'⟩ := c.serveStatus_spec hn' o' depth'
    exact ⟨_, _, hstatus, hstatus', hgathers.view_eq hgathers' o o', hgathers.isAggregate o⟩
  · intro hall
    by_contra hnot
    push Not at hnot
    have hdb : (smallNode [97] [98] name).dbs.lookup name = some smallDB :=
      AList.mem_entries_iff_lookup.mp (List.mem_singleton_self _)
    obtain ⟨status, s, hstatus, hs, hview⟩ := hall (twoNodes name) _ storedOrders storedOrders 0 0
      smallDB (List.mem_cons_self ..) hdb
    obtain ⟨s', x, hs', hx, hnode⟩ := serveStatus_twoNodes name _ 0 hstatus
    rw [hview] at hs'
    obtain rfl := Option.some.inj hs'
    rw [serveDBStatus_twoNodes hnot _ 0 hs x hx] at hnode
    cases hnode
  · intro hname c n o o' depth depth' db hn hdb
    exact c.view_serveDBStatus hn o o' depth depth' hne hslash hname hdb

/-- Two nodes with a db named `d`. -/
theorem status_page_same_two :
    ∃ status s, (smallNode [97] [98] [100]).serveStatus storedOrders
        (answer storedOrders (twoNodes [100]).nodes 1) false = some status ∧
      (smallNode [97] [98] [100]).serveDBStatus storedOrders
        (answer storedOrders (twoNodes [100]).nodes 1) [100] smallDB false = some s ∧
      Status.view status [100] = some (DBStatus.view s) :=
  (status_page_same [100] (by decide) (by decide)).2.mpr (by simp) (twoNodes [100]) _
    storedOrders storedOrders 0 0 smallDB (List.mem_cons_self ..) rfl

/-- **A db whose name is part of a URL.** Two nodes have a db named `a?b`. Its own page lacks the
other node, which the page of everything has: the peer was asked for the db `a`. -/
theorem question_mark_leaves_out :
    ∃ status s, (smallNode [97] [98] [97, 63, 98]).serveStatus storedOrders
        (answer storedOrders (twoNodes [97, 63, 98]).nodes 1) false = some status ∧
      (smallNode [97] [98] [97, 63, 98]).serveDBStatus storedOrders
        (answer storedOrders (twoNodes [97, 63, 98]).nodes 1) [97, 63, 98] smallDB false = some s ∧
      ((Status.view status [97, 63, 98]).bind (· [49])).any (fun x => (x.nodes [98]).isSome) =
        true ∧
      (DBStatus.view s [49]).any (fun x => (x.nodes [98]).isSome) = false :=
  ⟨_, _, rfl, rfl, by decide, by decide⟩

end Sequins
