import Sequins.SequenceFile

/-!
# What a file of records says

The format that `scanRecord` reads, given as a description of its own. A file of records is a run
of entries (`Entry`), each a sync marker or a record with its lengths before it, and
`Reader.readAll` accepts just these files:

* `accepted_iff` — the bytes are read to the end without an error iff they are entries, followed by
  fewer than four bytes that nobody looks at. The length of a record has to be at least 8, that of
  its key at least 4; it need not cover the key, and the value is empty then.
* `entries_read`, `readAll_short` — so what a writer puts down, with the length of a record being
  that of the key and of the value, is read back up to the first key that is shorter than 4 bytes or
  record that is shorter than 8. Serialised texts of one or two bytes are.
* `cut_unnoticed_iff` — and a file that is cut short is taken for a whole one iff the cut is less
  than four bytes behind an entry.
-/

namespace Sequins.SequenceFile

open ByteStream

/-! ## Lengths -/

/-- A length, as it is written. -/
def int32Bytes (z : ℤ) : Bytes := fixed 4 (z % 2 ^ 32).toNat

theorem length_int32Bytes (z : ℤ) : (int32Bytes z).length = 4 :=
  length_fixed (by omega)

/-- **A length is read back.** -/
theorem int32_int32Bytes {z : ℤ} (hlow : -2 ^ 31 ≤ z) (hhigh : z < 2 ^ 31) :
    int32 (int32Bytes z) = z := by
  have hmod : (((z % 2 ^ 32).toNat : ℕ) : ℤ) = z % 2 ^ 32 :=
    Int.toNat_of_nonneg (Int.emod_nonneg _ (by decide))
  rw [int32, int32Bytes, ofBytes_fixed, wrap32, hmod, show ((2 : ℤ) ^ 32) = ((2 ^ 32 : ℕ) : ℤ) by rfl,
    Int.emod_bmod]
  exact Int.bmod_eq_of_le (by omega) (by omega)

theorem int32Bytes_int32 {b : Bytes} (h : b.length = 4) : int32Bytes (int32 b) = b := by
  have hlt := ofBytes_lt b
  rw [h] at hlt
  have hmod : (int32 b % 2 ^ 32).toNat = ofBytes b := by
    rw [int32, wrap32, show ((2 : ℤ) ^ 32) = ((2 ^ 32 : ℕ) : ℤ) by rfl, Int.bmod_emod,
      Int.emod_eq_of_lt (by omega) (by omega), Int.toNat_natCast]
  rw [int32Bytes, hmod, ← h, fixed_ofBytes]

theorem int32_bounds (b : Bytes) : -2 ^ 31 ≤ int32 b ∧ int32 b < 2 ^ 31 := by
  have hlow := Int.le_bmod (x := (ofBytes b : ℤ)) (m := 2 ^ 32) (by decide)
  have hhigh := Int.bmod_lt (x := (ofBytes b : ℤ)) (m := 2 ^ 32) (by decide)
  rw [int32, wrap32]
  omega

/-! ## Entries -/

/-- What the bytes of a value have to be for it to be read. -/
def StoredAs (codecs : Codecs) (compression : Compression) (length : ℤ) (stored value : Bytes) :
    Prop :=
  stored.length = length.toNat ∧
    match compression with
    | .record codec => 0 ≤ length ∧ ∃ unread,
        getDecompressor codecs codec ⟨stored, .eof⟩ = .ok (value, unread) ∧
          (stored = [] ∨ unread = [])
    | _ => value = stored

/-- A piece of a file of records. -/
inductive Entry where
  /-- a sync marker -/
  | sync
  /-- a record: the length in front of it, the key, and the value as it is stored and as it is
  read -/
  | record (totalLength : ℤ) (key stored value : Bytes)

/-- The bytes of an entry. -/
def Entry.bytes (marker : Bytes) : Entry → Bytes
  | .sync => int32Bytes (-1) ++ marker
  | .record totalLength key stored _ =>
    int32Bytes totalLength ++ (int32Bytes key.length ++ (key ++ stored))

/-- The record in an entry. -/
def Entry.content : Entry → Option (Bytes × Bytes)
  | .sync => none
  | .record _ key _ value => some (key, value)

/-- An entry that is accepted. -/
def Entry.Valid (codecs : Codecs) (compression : Compression) : Entry → Prop
  | .sync => True
  | .record totalLength key stored value =>
    8 ≤ totalLength ∧ totalLength < 2 ^ 31 ∧ 4 ≤ key.length ∧ key.length < 2 ^ 31 ∧
      StoredAs codecs compression (totalLength - key.length) stored value

/-! ## One entry

Each function of the reader says what has to stand on the stream for it to succeed. Put together,
`scanRecord` succeeds exactly on the bytes of a valid entry, so nothing is accepted that the
description does not have. -/

/-- A section is accepted if the decompressor makes something of it, and has seen all of it. -/
theorem consumeCompressed_eq_ok_iff {d : Decompressor} {n : ℤ} {s s' : Stream} {value : Bytes} :
    consumeCompressed d n s = .ok (value, s') ↔ 0 ≤ n ∧ ∃ stored unread,
      stored.length = n.toNat ∧ s = ⟨stored ++ s'.bytes, s'.ending⟩ ∧
        d ⟨stored, .eof⟩ = .ok (value, unread) ∧ (stored = [] ∨ unread = []) := by
  rw [consumeCompressed, bind_eq_ok]
  constructor
  · rintro ⟨⟨out, unread⟩, hd, h⟩
    dsimp only at h
    split_ifs at h with hneg hshort
    cases h
    -- everything was taken, so there were `n` bytes to begin with
    have hvisible : (limited n.toNat s).bytes.length = min n.toNat s.bytes.length :=
      List.length_take
    have hlength : n.toNat ≤ s.bytes.length := by omega
    have hlimited : limited n.toNat s = ⟨s.bytes.take n.toNat, .eof⟩ := by
      rw [limited, if_pos hlength]
    have htaken : (limited n.toNat s).bytes.length - unread.length = n.toNat := by omega
    refine ⟨by omega, s.bytes.take n.toNat, unread, by simpa using hlength, ?_, hlimited ▸ hd, ?_⟩
    · rw [htaken, List.take_append_drop]
    · rcases Nat.eq_zero_or_pos n.toNat with hzero | hpos
      · exact .inl (by rw [hzero, List.take_zero])
      · exact .inr (List.eq_nil_of_length_eq_zero (by omega))
  · rintro ⟨hn, stored, unread, hlength, rfl, hd, hunread⟩
    have hlimited : limited n.toNat ⟨stored ++ s'.bytes, s'.ending⟩ = ⟨stored, .eof⟩ := by
      simp [limited, ← hlength]
    have htaken : stored.length - unread.length = stored.length := by
      rcases hunread with rfl | rfl <;> simp
    refine ⟨(value, unread), by rw [hlimited]; exact hd, ?_⟩
    simp only [hlimited, htaken, List.drop_left]
    rw [if_neg (by omega), if_neg (by omega)]
    rfl

theorem consumeValue_eq_ok_iff {codecs : Codecs} {compression : Compression} {n : ℤ}
    {s s' : Stream} {value : Bytes} :
    consumeValue codecs compression n s = .ok (value, s') ↔
      ∃ stored, StoredAs codecs compression n stored value ∧
        s = ⟨stored ++ s'.bytes, s'.ending⟩ := by
  cases compression with
  | record codec =>
    rw [consumeValue, consumeCompressed_eq_ok_iff]
    constructor
    · rintro ⟨hn, stored, unread, hlength, hs, hd, hunread⟩
      exact ⟨stored, ⟨hlength, hn, unread, hd, hunread⟩, hs⟩
    · rintro ⟨stored, ⟨hlength, hn, unread, hd, hunread⟩, hs⟩
      exact ⟨hn, stored, unread, hlength, hs, hd, hunread⟩
  | none | block codec =>
    rw [consumeValue, consume_eq_ok_iff]
    · constructor
      · rintro ⟨hlength, hs⟩
        exact ⟨value, ⟨hlength, rfl⟩, hs⟩
      · rintro ⟨stored, ⟨hlength, rfl⟩, hs⟩
        exact ⟨hlength, hs⟩
    · simp

/-- Behind the length of the record: that of the key, the key, and what is left for the value. -/
theorem scanKeyValue_eq_ok_iff {codecs : Codecs} {compression : Compression} {totalLength : ℤ}
    {s s' : Stream} {key value : Bytes} :
    scanKeyValue codecs compression totalLength s = .ok ((key, value), s') ↔
      4 ≤ key.length ∧ key.length < 2 ^ 31 ∧
        ∃ stored, StoredAs codecs compression (totalLength - key.length) stored value ∧
          s = ⟨int32Bytes key.length ++ (key ++ (stored ++ s'.bytes)), s'.ending⟩ := by
  constructor
  · intro h
    obtain ⟨⟨b, s₁⟩, hb, h⟩ := bind_eq_ok.mp h
    dsimp only at h
    split_ifs at h with hshort
    · cases h
    · obtain ⟨⟨key₁, s₂⟩, hkey, h⟩ := bind_eq_ok.mp h
      obtain ⟨⟨value₁, s₃⟩, hvalue, h⟩ := bind_eq_ok.mp h
      obtain ⟨⟨rfl, rfl⟩, rfl⟩ : (key₁ = key ∧ value₁ = value) ∧ s₃ = s' := by
        simpa [pure, Except.pure] using h
      obtain ⟨hfour, rfl⟩ := consume_eq_ok_iff.mp hb
      obtain ⟨hlength, rfl⟩ := consume_eq_ok_iff.mp hkey
      have hbounds := int32_bounds b
      have hkeyLength : int32 b = key₁.length := by omega
      obtain ⟨stored, hstored, rfl⟩ := consumeValue_eq_ok_iff.mp hvalue
      rw [hkeyLength] at hstored
      refine ⟨by omega, by omega, stored, hstored, ?_⟩
      rw [← hkeyLength, int32Bytes_int32 hfour]
  · rintro ⟨hfour, hlong, stored, hstored, rfl⟩
    have hkeyLength : int32 (int32Bytes key.length) = key.length :=
      int32_int32Bytes (by omega) (by omega)
    refine bind_eq_ok.mpr ⟨_, consume_append (length_int32Bytes _) _ _, ?_⟩
    dsimp only
    rw [hkeyLength, if_neg (by omega)]
    refine bind_eq_ok.mpr ⟨_, consume_append (Int.toNat_natCast _).symm _ _, ?_⟩
    exact bind_eq_ok.mpr ⟨_, consumeValue_eq_ok_iff.mpr ⟨stored, hstored, rfl⟩, rfl⟩

theorem checkSync_eq_ok_iff {marker : Bytes} (hmarker : marker.length = syncSize) {s s' : Stream} :
    checkSync marker s = .ok ((), s') ↔ s = ⟨marker ++ s'.bytes, s'.ending⟩ := by
  constructor
  · intro h
    exact (consume_eq_ok_iff.mp (checkSync_eq_ok h)).2
  · rintro rfl
    refine bind_eq_ok.mpr ⟨_, consume_append hmarker _ _, ?_⟩
    simp [pure, Except.pure]

section Entries

variable {codecs : Codecs} {compression : Compression} {marker : Bytes} {s s' : Stream}

/-- **A sync marker is passed over.** -/
theorem scanEntry_eq_sync_iff (hmarker : marker.length = syncSize) :
    scanEntry codecs compression marker s = .sync s' ↔
      s = ⟨Entry.sync.bytes marker ++ s'.bytes, s'.ending⟩ := by
  constructor
  · intro h
    rw [scanEntry] at h
    split at h
    · cases h
    · rename_i b s₁ hlength
      obtain ⟨hfour, rfl⟩ := consume_eq_ok_iff.mp hlength
      split_ifs at h with hsync hshort
      · split at h
        · cases h
        · rename_i s₂ hcheck
          cases h
          obtain rfl := (checkSync_eq_ok_iff hmarker).mp hcheck
          rw [Entry.bytes, ← hsync, int32Bytes_int32 hfour, List.append_assoc]
      · split at h <;> cases h
  · rintro rfl
    have hlength : consume 4 ⟨Entry.sync.bytes marker ++ s'.bytes, s'.ending⟩ =
        .ok (int32Bytes (-1), ⟨marker ++ s'.bytes, s'.ending⟩) := by
      rw [Entry.bytes, List.append_assoc]
      exact consume_append (length_int32Bytes _) _ _
    rw [scanEntry, hlength]
    simp only [int32_int32Bytes (z := -1) (by decide) (by decide), if_true,
      (checkSync_eq_ok_iff hmarker).mpr rfl]

/-- **A record is read iff it stands there, in an entry that is valid.** -/
theorem scanEntry_eq_record_iff {key value : Bytes} :
    scanEntry codecs compression marker s = .scanned (.record key value s') ↔
      ∃ totalLength stored, (Entry.record totalLength key stored value).Valid codecs compression ∧
        s = ⟨(Entry.record totalLength key stored value).bytes marker ++ s'.bytes, s'.ending⟩ := by
  constructor
  · intro h
    rw [scanEntry] at h
    split at h
    · cases h
    · rename_i b s₁ hlength
      obtain ⟨hfour, rfl⟩ := consume_eq_ok_iff.mp hlength
      have hbounds := int32_bounds b
      split_ifs at h with hsync hshort
      · split at h <;> cases h
      · cases h
      · split at h
        · cases h
        · rename_i s₂ hkv
          cases h
          obtain ⟨hkey, hlong, stored, hstored, rfl⟩ := scanKeyValue_eq_ok_iff.mp hkv
          refine ⟨int32 b, stored, ⟨by omega, by omega, hkey, hlong, hstored⟩, ?_⟩
          simp only [Entry.bytes, int32Bytes_int32 hfour, List.append_assoc]
  · rintro ⟨totalLength, stored, ⟨height, htotal, hkey, hlong, hstored⟩, rfl⟩
    have hlength : consume 4 ⟨(Entry.record totalLength key stored value).bytes marker ++ s'.bytes,
        s'.ending⟩ = .ok (int32Bytes totalLength,
          ⟨int32Bytes key.length ++ (key ++ (stored ++ s'.bytes)), s'.ending⟩) := by
      simp only [Entry.bytes, List.append_assoc]
      exact consume_append (length_int32Bytes _) _ _
    rw [scanEntry, hlength]
    simp only [int32_int32Bytes (z := totalLength) (by omega) htotal]
    rw [if_neg (by omega), if_neg (by omega),
      scanKeyValue_eq_ok_iff.mpr ⟨hkey, hlong, stored, hstored, rfl⟩]

/-- **The end is reached with fewer than four bytes left.** -/
theorem scanEntry_eq_ended_iff :
    scanEntry codecs compression marker s = .scanned (.ended none) ↔
      s.bytes.length < 4 ∧ s.ending = .eof := by
  rw [scanEntry]
  by_cases hfour : s.bytes.length < 4
  · rw [consume_of_lt hfour]
    cases hending : s.ending <;> simp [FormatError.ofEnding, hfour]
  · have hread : consume 4 s = .ok (s.bytes.take 4, ⟨s.bytes.drop 4, s.ending⟩) :=
      consume_eq_ok_iff.mpr ⟨by simp; omega, by simp⟩
    simp only [hread, hfour, false_and, iff_false]
    split_ifs
    · split <;> simp
    · simp
    · split <;> simp

end Entries

/-! ## Whole files -/

section Files

variable {codecs : Codecs} {header : Header} {block : BlockReader}

/-- The header says that there are no blocks. -/
def Header.Records (header : Header) : Prop := ∀ codec, header.compression ≠ .block codec

/-- `Scan` in a file of records. -/
theorem scan_records (h : header.Records) (s : Stream) :
    (Reader.mk header block s).scan codecs =
      (scanRecord codecs header.compression header.syncMarker s).map fun stream =>
        ⟨header, block, stream⟩ := by
  rw [Reader.scan]
  split
  · rename_i codec hblock
    exact absurd hblock (h codec)
  · rfl

section Steps

variable {s s' : Stream}

theorem readAll_of_sync (h : header.Records)
    (hentry : scanEntry codecs header.compression header.syncMarker s = .sync s') :
    (Reader.mk header block s).readAll codecs = (Reader.mk header block s').readAll codecs :=
  Reader.readAll_congr (by rw [scan_records h, scan_records h, scanRecord_of_sync hentry])

theorem readAll_of_record (h : header.Records) {key value : Bytes}
    (hentry : scanEntry codecs header.compression header.syncMarker s =
      .scanned (.record key value s')) :
    (Reader.mk header block s).readAll codecs =
      ((key, value) :: ((Reader.mk header block s').readAll codecs).1,
        ((Reader.mk header block s').readAll codecs).2) :=
  Reader.readAll_of_record (by rw [scan_records h, scanRecord_of_scanned hentry]; rfl)

theorem readAll_of_ended (h : header.Records) {err : Option FormatError}
    (hentry : scanEntry codecs header.compression header.syncMarker s = .scanned (.ended err)) :
    (Reader.mk header block s).readAll codecs = ([], err) :=
  Reader.readAll_of_ended (by rw [scan_records h, scanRecord_of_scanned hentry]; rfl)

end Steps

/-- One valid entry, whatever comes behind it. -/
theorem readAll_entry (h : header.Records) (hmarker : header.syncMarker.length = syncSize) {e : Entry}
    (he : e.Valid codecs header.compression) (rest : Bytes) (ending : Ending) :
    (Reader.mk header block ⟨e.bytes header.syncMarker ++ rest, ending⟩).readAll codecs =
      (e.content.toList ++ ((Reader.mk header block ⟨rest, ending⟩).readAll codecs).1,
        ((Reader.mk header block ⟨rest, ending⟩).readAll codecs).2) := by
  cases e with
  | sync =>
    have hentry : scanEntry codecs header.compression header.syncMarker
        ⟨Entry.sync.bytes header.syncMarker ++ rest, ending⟩ = .sync ⟨rest, ending⟩ :=
      (scanEntry_eq_sync_iff hmarker).mpr rfl
    rw [readAll_of_sync h hentry]
    rfl
  | record totalLength key stored value =>
    have hentry : scanEntry codecs header.compression header.syncMarker
        ⟨(Entry.record totalLength key stored value).bytes header.syncMarker ++ rest, ending⟩ =
          .scanned (.record key value ⟨rest, ending⟩) :=
      scanEntry_eq_record_iff.mpr ⟨totalLength, stored, he, rfl⟩
    rw [readAll_of_record h hentry]
    rfl

/-- The bytes of a run of entries. -/
def entriesBytes (marker : Bytes) (entries : List Entry) : Bytes :=
  entries.flatMap (Entry.bytes marker)

theorem entriesBytes_cons (marker : Bytes) (e : Entry) (entries : List Entry) (rest : Bytes) :
    entriesBytes marker (e :: entries) ++ rest =
      e.bytes marker ++ (entriesBytes marker entries ++ rest) := by
  rw [entriesBytes, List.flatMap_cons, List.append_assoc, entriesBytes]

/-- The records of a run of entries. -/
def contents (entries : List Entry) : List (Bytes × Bytes) :=
  entries.flatMap fun e => e.content.toList

/-- **Entries are read one after the other**, whatever comes behind them. -/
theorem readAll_entries (h : header.Records) (hmarker : header.syncMarker.length = syncSize)
    {entries : List Entry} (hvalid : ∀ e ∈ entries, e.Valid codecs header.compression)
    (rest : Bytes) (ending : Ending) :
    (Reader.mk header block ⟨entriesBytes header.syncMarker entries ++ rest, ending⟩).readAll
        codecs =
      (contents entries ++ ((Reader.mk header block ⟨rest, ending⟩).readAll codecs).1,
        ((Reader.mk header block ⟨rest, ending⟩).readAll codecs).2) := by
  induction entries with
  | nil => rfl
  | cons e entries ih =>
    obtain ⟨he, hentries⟩ := List.forall_mem_cons.mp hvalid
    have hcons : contents (e :: entries) = e.content.toList ++ contents entries := List.flatMap_cons
    rw [entriesBytes_cons, readAll_entry h hmarker he, ih hentries, hcons, List.append_assoc]

/-- **The files that are accepted.** A file of records is read to its end without an error iff it
consists of valid entries and of fewer than four bytes behind them, and then the records are
theirs. -/
theorem accepted_iff (h : header.Records) (hmarker : header.syncMarker.length = syncSize)
    (bytes : Bytes) (records : List (Bytes × Bytes)) :
    (Reader.mk header block ⟨bytes, .eof⟩).readAll codecs = (records, none) ↔
      ∃ entries tail, (∀ e ∈ entries, e.Valid codecs header.compression) ∧ tail.length < 4 ∧
        bytes = entriesBytes header.syncMarker entries ++ tail ∧ records = contents entries := by
  constructor
  · intro hread
    -- along the stream, which gets shorter with each entry
    induction hlength : bytes.length using Nat.strong_induction_on generalizing bytes records with
    | _ n ih =>
      subst hlength
      rcases hentry : scanEntry codecs header.compression header.syncMarker ⟨bytes, .eof⟩ with
        s' | ⟨key, value, s'⟩ | err
      · rw [readAll_of_sync h hentry] at hread
        have hlt := scanEntry_lt (.inl hentry)
        obtain ⟨hbytes, hending⟩ := Stream.mk.inj ((scanEntry_eq_sync_iff hmarker).mp hentry)
        obtain ⟨bytes', ending⟩ := s'
        subst hending
        obtain ⟨entries, tail, hvalid, htail, rfl, rfl⟩ := ih _ hlt bytes' records hread rfl
        refine ⟨.sync :: entries, tail, ?_, htail, ?_, rfl⟩
        · exact List.forall_mem_cons.mpr ⟨trivial, hvalid⟩
        · rw [hbytes, entriesBytes_cons]
      · rw [readAll_of_record h hentry] at hread
        have hlt := scanEntry_lt (.inr ⟨key, value, hentry⟩)
        obtain ⟨totalLength, stored, he, hs⟩ := scanEntry_eq_record_iff.mp hentry
        obtain ⟨hbytes, hending⟩ := Stream.mk.inj hs
        obtain ⟨bytes', ending⟩ := s'
        subst hending
        obtain ⟨hrecords, herr⟩ := Prod.mk.inj hread
        obtain ⟨entries, tail, hvalid, htail, rfl, hrest⟩ :=
          ih _ hlt bytes' _ (Prod.ext rfl herr) rfl
        refine ⟨.record totalLength key stored value :: entries, tail, ?_, htail, ?_, ?_⟩
        · exact List.forall_mem_cons.mpr ⟨he, hvalid⟩
        · rw [hbytes, entriesBytes_cons]
        · exact hrecords.symm.trans (congrArg _ hrest)
      · rw [readAll_of_ended h hentry] at hread
        obtain ⟨rfl, rfl⟩ := Prod.mk.inj hread
        obtain ⟨hshort, -⟩ := scanEntry_eq_ended_iff.mp hentry
        exact ⟨[], bytes, by simp, hshort, rfl, rfl⟩
  · rintro ⟨entries, tail, hvalid, htail, rfl, rfl⟩
    have hend : (Reader.mk header block ⟨tail, .eof⟩).readAll codecs = ([], none) := by
      exact readAll_of_ended h (scanEntry_eq_ended_iff.mpr ⟨htail, rfl⟩)
    rw [readAll_entries h hmarker hvalid, hend, List.append_nil]

/-- A header of a file that is not compressed. -/
def plainHeader : Header := ⟨6, .none, [], [], ∅, List.replicate 16 0⟩

theorem plainHeader_records : plainHeader.Records := fun _ h => by cases h

/-- Codecs that nothing comes out of. -/
def noCodecs : Codecs := ⟨fun _ => .error .gzip⟩

/-- An entry with four bytes in the key and in the value. -/
def eightBytes : Entry := .record 8 [1, 2, 3, 4] [5, 6, 7, 8] [5, 6, 7, 8]

theorem eightBytes_valid : eightBytes.Valid noCodecs plainHeader.compression :=
  ⟨by decide, by decide, by decide, by decide, by decide, rfl⟩

theorem accepted_eightBytes :
    (Reader.mk plainHeader .empty ⟨eightBytes.bytes (List.replicate 16 0) ++ [9, 9, 9],
      .eof⟩).readAll noCodecs = ([([1, 2, 3, 4], [5, 6, 7, 8])], none) :=
  (accepted_iff plainHeader_records rfl _ _).mpr
    ⟨[eightBytes], [9, 9, 9], by simpa using eightBytes_valid, by decide, by
      rw [entriesBytes, List.flatMap_singleton]; rfl, rfl⟩

/-! ## Files as they are written

A writer puts down a key and a value and computes the length of the record from them. It does not
know of the least lengths that `scanRecord` asks for. -/

/-- An entry of a writer, which has the length of a record from its two parts. -/
def Entry.Written (codecs : Codecs) (compression : Compression) : Entry → Prop
  | .sync => True
  | .record totalLength key stored value =>
    totalLength = key.length + stored.length ∧ totalLength < 2 ^ 31 ∧
      StoredAs codecs compression stored.length stored value

/-- The lengths that `scanRecord` wants. -/
def Entry.LongEnough : Entry → Prop
  | .sync => True
  | .record totalLength key _ _ => 8 ≤ totalLength ∧ 4 ≤ key.length

/-- What is written and long enough is accepted. -/
theorem Entry.Written.valid {compression : Compression} {e : Entry}
    (h : e.Written codecs compression) (hlong : e.LongEnough) : e.Valid codecs compression := by
  cases e with
  | sync => trivial
  | record totalLength key stored value =>
    obtain ⟨htotal, hlt, hstored⟩ := h
    refine ⟨hlong.1, hlt, hlong.2, by omega, ?_⟩
    rwa [show totalLength - key.length = stored.length by omega]

/-- A key that is too short is an error of its own. -/
theorem scanKeyValue_short {compression : Compression} {key : Bytes} (hshort : key.length < 4)
    (totalLength : ℤ) (rest : Bytes) (ending : Ending) :
    scanKeyValue codecs compression totalLength ⟨int32Bytes key.length ++ rest, ending⟩ =
      .error (.keyLength key.length) := by
  have hkeyLength : int32 (int32Bytes key.length) = key.length :=
    int32_int32Bytes (by omega) (by omega)
  rw [scanKeyValue, bind_of_ok (consume_append (length_int32Bytes _) _ _)]
  dsimp only
  rw [hkeyLength, if_pos (by omega)]
  rfl

/-- A record that is too short is an error, and no panic. -/
theorem scanEntry_short {compression : Compression} {marker : Bytes} {e : Entry}
    (he : e.Written codecs compression) (hshort : ¬ e.LongEnough) (rest : Bytes) (ending : Ending) :
    ∃ err, err ≠ .panicked ∧ scanEntry codecs compression marker ⟨e.bytes marker ++ rest, ending⟩ =
      .scanned (.ended (some err)) := by
  cases e with
  | sync => exact absurd trivial hshort
  | record totalLength key stored value =>
    obtain ⟨htotal, hlt, -⟩ := he
    have hlength : consume 4 ⟨(Entry.record totalLength key stored value).bytes marker ++ rest,
        ending⟩ = .ok (int32Bytes totalLength,
          ⟨int32Bytes key.length ++ (key ++ (stored ++ rest)), ending⟩) := by
      simp only [Entry.bytes, List.append_assoc]
      exact consume_append (length_int32Bytes _) _ _
    have htotalLength : int32 (int32Bytes totalLength) = totalLength :=
      int32_int32Bytes (by omega) hlt
    rw [scanEntry, hlength]
    dsimp only
    rw [htotalLength, if_neg (by omega)]
    by_cases height : totalLength < 8
    · exact ⟨.recordLength totalLength, by simp, if_pos height⟩
    · -- the record is long enough, so it is the key that is not
      have hkey : key.length < 4 := by
        by_contra hkey
        exact hshort ⟨by omega, by omega⟩
      rw [if_neg height, scanKeyValue_short hkey]
      exact ⟨.keyLength key.length, by simp, rfl⟩

/-- **Reading stops at a record that is too short**, with what came before it. -/
theorem readAll_short (h : header.Records) (hmarker : header.syncMarker.length = syncSize)
    {before : List Entry} (hvalid : ∀ e ∈ before, e.Valid codecs header.compression) {e : Entry}
    (he : e.Written codecs header.compression) (hshort : ¬ e.LongEnough) (after : List Entry) :
    ∃ err, err ≠ .panicked ∧
      (Reader.mk header block ⟨entriesBytes header.syncMarker (before ++ e :: after),
        .eof⟩).readAll codecs = (contents before, some err) := by
  obtain ⟨err, hpanic, herr⟩ : ∃ err, err ≠ .panicked ∧
      scanEntry codecs header.compression header.syncMarker _ = .scanned (.ended (some err)) :=
    scanEntry_short he hshort (entriesBytes header.syncMarker after) .eof
  have hbytes : entriesBytes header.syncMarker (before ++ e :: after) =
      entriesBytes header.syncMarker before ++
        (e.bytes header.syncMarker ++ entriesBytes header.syncMarker after) := by
    simp [entriesBytes]
  refine ⟨err, hpanic, ?_⟩
  rw [hbytes, readAll_entries h hmarker hvalid, readAll_of_ended h herr, List.append_nil]

/-- A file of valid entries is read to its end. -/
theorem entries_read (h : header.Records) (hmarker : header.syncMarker.length = syncSize)
    {entries : List Entry} (hvalid : ∀ e ∈ entries, e.Valid codecs header.compression) :
    (Reader.mk header block ⟨entriesBytes header.syncMarker entries, .eof⟩).readAll codecs =
      (contents entries, none) := by
  have hend : (Reader.mk header block ⟨[], .eof⟩).readAll codecs = ([], none) := by
    exact readAll_of_ended h (scanEntry_eq_ended_iff.mpr ⟨by decide, rfl⟩)
  rw [← List.append_nil (entriesBytes _ _), readAll_entries h hmarker hvalid, hend,
    List.append_nil]

/-! ## Files that are cut short

A cut leaves the beginning of an entry at the end. That is no entry, since no entry begins with
another one; so it is an error, unless it is too short to have a length. -/

theorem int32Bytes_inj {y z : ℤ} (hy : -2 ^ 31 ≤ y ∧ y < 2 ^ 31) (hz : -2 ^ 31 ≤ z ∧ z < 2 ^ 31)
    (h : int32Bytes y = int32Bytes z) : y = z := by
  rw [← int32_int32Bytes hy.1 hy.2, h, int32_int32Bytes hz.1 hz.2]

/-- No entry is the beginning of another one. -/
theorem Entry.eq_of_isPrefix {compression : Compression} {marker : Bytes} {e e' : Entry}
    (he : e.Valid codecs compression) (he' : e'.Valid codecs compression)
    (h : e'.bytes marker <+: e.bytes marker) : e'.bytes marker = e.bytes marker := by
  obtain ⟨rest, hrest⟩ := h
  have hfour : ∀ y z, (int32Bytes y).length = (int32Bytes z).length := fun y z => by
    rw [length_int32Bytes, length_int32Bytes]
  cases e' with
  | sync =>
    cases e with
    | sync => rfl
    | record totalLength key stored value =>
      obtain ⟨height, htotal, -⟩ := he
      simp only [Entry.bytes, List.append_assoc] at hrest
      have := int32Bytes_inj (by omega) (by omega) (List.append_inj_left hrest (hfour _ _))
      omega
  | record totalLength' key' stored' value' =>
    obtain ⟨height', htotal', hkey', hlong', hstored', -⟩ := he'
    cases e with
    | sync =>
      simp only [Entry.bytes, List.append_assoc] at hrest
      have := int32Bytes_inj (by omega) (by omega) (List.append_inj_left hrest (hfour _ _))
      omega
    | record totalLength key stored value =>
      obtain ⟨height, htotal, hkey, hlong, hstored, -⟩ := he
      -- the two lengths in front are the same, and they settle how long the entry is
      have hbytes := hrest
      simp only [Entry.bytes, List.append_assoc] at hbytes
      obtain ⟨htotals, hbytes⟩ := List.append_inj hbytes (hfour _ _)
      obtain ⟨hkeys, -⟩ := List.append_inj hbytes (hfour _ _)
      have hsameTotal := int32Bytes_inj (by omega) (by omega) htotals
      have hsameKey := int32Bytes_inj (by omega) (by omega) hkeys
      refine List.IsPrefix.eq_of_length ⟨rest, hrest⟩ ?_
      simp only [Entry.bytes, List.length_append, length_int32Bytes]
      omega

/-- **Which cuts go unnoticed.** If a file of records ends within an entry, the records of the
entries before are read, and there is an error unless fewer than four bytes of the entry are
there. -/
theorem cut_unnoticed_iff (h : header.Records) (hmarker : header.syncMarker.length = syncSize)
    {entries : List Entry} (hvalid : ∀ e ∈ entries, e.Valid codecs header.compression)
    {e : Entry} (he : e.Valid codecs header.compression) {p : Bytes}
    (hp : p <+: e.bytes header.syncMarker) (hcut : p ≠ e.bytes header.syncMarker) :
    ∃ err, (Reader.mk header block ⟨entriesBytes header.syncMarker entries ++ p, .eof⟩).readAll
        codecs = (contents entries, err) ∧ (err = none ↔ p.length < 4) := by
  -- nothing that stands in the cut piece is a whole entry
  have hnone : ∀ e' : Entry, e'.Valid codecs header.compression → ∀ rest,
      p ≠ e'.bytes header.syncMarker ++ rest := by
    intro e' he' rest hrest
    have hbegins : e'.bytes header.syncMarker <+: p := ⟨rest, hrest.symm⟩
    have hwhole := Entry.eq_of_isPrefix he he' (hbegins.trans hp)
    exact hcut (hp.eq_of_length_le (hwhole ▸ hbegins.length_le))
  rw [readAll_entries h hmarker hvalid]
  rcases hentry : scanEntry codecs header.compression header.syncMarker ⟨p, .eof⟩ with
    s' | ⟨key, value, s'⟩ | err
  · obtain ⟨hbytes, -⟩ := Stream.mk.inj ((scanEntry_eq_sync_iff hmarker).mp hentry)
    exact absurd hbytes (hnone .sync trivial _)
  · obtain ⟨totalLength, stored, he', hs⟩ := scanEntry_eq_record_iff.mp hentry
    exact absurd (Stream.mk.inj hs).1 (hnone _ he' _)
  · rw [readAll_of_ended h hentry]
    refine ⟨err, by rw [List.append_nil], ?_⟩
    have hiff : scanEntry codecs header.compression header.syncMarker ⟨p, .eof⟩ =
        .scanned (.ended none) ↔ _ := scanEntry_eq_ended_iff
    rw [hentry] at hiff
    simpa using hiff

/-- Behind a sync marker and an entry of twenty bytes, three bytes of a second entry are not noticed
and nine are. -/
theorem cut_unnoticed_eightBytes :
    (Reader.mk plainHeader .empty ⟨entriesBytes plainHeader.syncMarker [.sync, eightBytes] ++
        (eightBytes.bytes plainHeader.syncMarker).take 3, .eof⟩).readAll noCodecs =
      ([([1, 2, 3, 4], [5, 6, 7, 8])], none) ∧
    ∃ err, (Reader.mk plainHeader .empty ⟨entriesBytes plainHeader.syncMarker [.sync, eightBytes] ++
        (eightBytes.bytes plainHeader.syncMarker).take 9, .eof⟩).readAll noCodecs =
      ([([1, 2, 3, 4], [5, 6, 7, 8])], some err) := by
  have hlength : (eightBytes.bytes plainHeader.syncMarker).length = 16 := by
    simp [eightBytes, Entry.bytes, length_int32Bytes]
  have hvalid : ∀ e ∈ [.sync, eightBytes], e.Valid noCodecs plainHeader.compression := by
    simpa [Entry.Valid] using eightBytes_valid
  have hcut : ∀ n < 16, ∃ err, (Reader.mk plainHeader .empty
        ⟨entriesBytes plainHeader.syncMarker [.sync, eightBytes] ++
          (eightBytes.bytes plainHeader.syncMarker).take n, .eof⟩).readAll noCodecs =
      ([([1, 2, 3, 4], [5, 6, 7, 8])], err) ∧
        (err = none ↔ ((eightBytes.bytes plainHeader.syncMarker).take n).length < 4) := by
    intro n hn
    refine cut_unnoticed_iff plainHeader_records rfl hvalid eightBytes_valid (List.take_prefix n _)
      fun h => ?_
    have hlengths := congrArg List.length h
    rw [List.length_take, hlength] at hlengths
    omega
  obtain ⟨err₃, hread₃, hiff₃⟩ := hcut 3 (by omega)
  obtain ⟨err₉, hread₉, hiff₉⟩ := hcut 9 (by omega)
  rw [List.length_take, hlength] at hiff₃ hiff₉
  obtain ⟨err, rfl⟩ := Option.ne_none_iff_exists'.mp (mt hiff₉.mp (by decide))
  exact ⟨hiff₃.mpr (by decide) ▸ hread₃, err, hread₉⟩

end Files

end Sequins.SequenceFile
