import Sequins.SequenceFormat

/-!
# Files of blocks

Numbers of variable length, compressed sections and the blocks made of them, as they are written
and as `block.go` reads them.

* `readVInt_writeVInt` — every `int64` is read back.
* `blocks_read` — so is a file of blocks, if the codec gives back what it was given. There is no
  least length here.
* `cut_block_unnoticed_iff` — `scanBlock` takes `io.EOF` from anywhere in `startBlock` for the end
  of the file. A file that is cut short within a block loses the whole block without an error if
  the cut is in the twenty bytes in front of it, behind the first byte of a number that has more,
  or where the decompressor says `io.EOF`.
-/

namespace Sequins.SequenceFile

open ByteStream

/-! ## Numbers of variable length

A small number is its own byte. Any other one has a first byte, which says how many more there
are and which sign it has, and then these, the highest first. A cut behind the first byte makes
`io.ReadFull` return `io.EOF`, since it has got nothing at all. -/

/-- A number as Hadoop writes it: itself in one byte if it is small, or else a byte for its sign
and the number of its bytes, and these. -/
def writeVInt (i : ℤ) : Bytes :=
  if -112 ≤ i ∧ i ≤ 127 then
    [(i % 256).toNat.toUInt8]
  else if 0 ≤ i then
    (144 - (toBytes i.toNat).length).toUInt8 :: toBytes i.toNat
  else
    (136 - (toBytes (-i - 1).toNat).length).toUInt8 :: toBytes (-i - 1).toNat

/-- A byte as an `int8`. -/
theorem toInt_toUInt8 {n : ℕ} (h : n < 256) : n.toUInt8.toInt8.toInt = (n : ℤ).bmod 256 := by
  have hbyte : n.toUInt8.toNat = n := Nat.mod_eq_of_lt h
  change n.toUInt8.toBitVec.toInt = _
  rw [BitVec.toInt_eq_toNat_bmod]
  exact congrArg (fun m : ℕ => (m : ℤ).bmod 256) hbyte

theorem readFull_append {n : ℕ} {b : Bytes} (h : b.length = n) (rest : Bytes) (ending : Ending) :
    readFull n ⟨b ++ rest, ending⟩ = .ok (b, ⟨rest, ending⟩) :=
  readFull_eq_ok_iff.mpr ⟨h, rfl⟩

/-- The bytes behind the first one of a number. -/
theorem length_toBytes_bounds {n : ℕ} (hpos : n ≠ 0) (hlt : n < 2 ^ 64) :
    1 ≤ (toBytes n).length ∧ (toBytes n).length ≤ 8 :=
  ⟨List.length_pos_iff.mpr (toBytes_ne_nil hpos), length_toBytes_le (by norm_num; omega)⟩

/-- What `ReadVInt` does with the first byte of a number that has more. -/
theorem readVInt_cons {k : ℕ} (hk : 1 ≤ k) (hk' : k ≤ 8) (s : Stream) :
    readVInt ⟨(144 - k).toUInt8 :: s.bytes, s.ending⟩ =
        (readFull k s >>= fun r => pure (wrap64 (ofBytes r.1), r.2)) ∧
      readVInt ⟨(136 - k).toUInt8 :: s.bytes, s.ending⟩ =
        (readFull k s >>= fun r => pure (wrap64 (2 ^ 64 - 1 - ofBytes r.1), r.2)) := by
  have hpos : (144 - k).toUInt8.toInt8.toInt = -112 - (k : ℤ) := by
    rw [toInt_toUInt8 (by omega), Int.bmod_def]
    omega
  have hneg : (136 - k).toUInt8.toInt8.toInt = -120 - (k : ℤ) := by
    rw [toInt_toUInt8 (by omega), Int.bmod_def]
    omega
  constructor
  · have hk : (-112 - (-112 - (k : ℤ))).toNat = k := by omega
    rw [readVInt]
    simp only [mustReadByte, bind_of_ok rfl]
    rw [hpos, if_neg (by omega), if_pos (by omega), hk]
  · have hk : (-120 - (-120 - (k : ℤ))).toNat = k := by omega
    rw [readVInt]
    simp only [mustReadByte, bind_of_ok rfl]
    rw [hneg, if_neg (by omega), if_neg (by omega), hk]

/-- A number is one byte, or a byte that says how many come behind it. -/
theorem writeVInt_cases {i : ℤ} (hlow : -2 ^ 63 ≤ i) (hhigh : i < 2 ^ 63) :
    (∃ b, writeVInt i = [b] ∧ ∀ s : Stream, readVInt ⟨b :: s.bytes, s.ending⟩ = .ok (i, s)) ∨
    ∃ b body, writeVInt i = b :: body ∧ body ≠ [] ∧ ∃ value : Bytes → ℤ, value body = i ∧
      ∀ s : Stream, readVInt ⟨b :: s.bytes, s.ending⟩ =
        (readFull body.length s >>= fun r => pure (value r.1, r.2)) := by
  rw [writeVInt]
  split_ifs with hsmall hpos
  · refine .inl ⟨_, rfl, fun s => ?_⟩
    have hbyte : (i % 256).toNat.toUInt8.toInt8.toInt = i := by
      rw [toInt_toUInt8 (by omega), Int.bmod_def]
      omega
    rw [readVInt]
    simp only [mustReadByte, bind_of_ok rfl]
    rw [hbyte, if_pos (by omega)]
    rfl
  · obtain ⟨hone, height⟩ := length_toBytes_bounds (n := i.toNat) (by omega) (by omega)
    refine .inr ⟨_, _, rfl, toBytes_ne_nil (by omega), fun b => wrap64 (ofBytes b), ?_,
      fun s => (readVInt_cons hone height s).1⟩
    dsimp only
    rw [ofBytes_toBytes, wrap64, Int.bmod_eq_of_le (by omega) (by omega)]
    omega
  · obtain ⟨hone, height⟩ := length_toBytes_bounds (n := (-i - 1).toNat) (by omega) (by omega)
    refine .inr ⟨_, _, rfl, toBytes_ne_nil (by omega),
      fun b => wrap64 (2 ^ 64 - 1 - ofBytes b), ?_, fun s => (readVInt_cons hone height s).2⟩
    dsimp only
    rw [ofBytes_toBytes, wrap64, Int.bmod_def]
    omega

/-- **Numbers are read back**, whatever comes behind them. -/
theorem readVInt_writeVInt {i : ℤ} (hlow : -2 ^ 63 ≤ i) (hhigh : i < 2 ^ 63) :
    Reads readVInt (writeVInt i) i := by
  intro rest ending
  obtain ⟨b, hwrite, hread⟩ | ⟨b, body, hwrite, -, value, hvalue, hread⟩ :=
    writeVInt_cases hlow hhigh
  · rw [hwrite]
    exact hread ⟨rest, ending⟩
  · rw [hwrite, List.cons_append, hread ⟨body ++ rest, ending⟩,
      bind_of_ok (readFull_append rfl rest ending), hvalue]
    rfl

/-- A number, cut behind its first byte, looks like the end. -/
def vintPiece (i : ℤ) : Piece := ⟨writeVInt i, fun q => q.length = 1⟩

theorem textOf_vintPiece (i : ℤ) : textOf [vintPiece i] = writeVInt i := List.append_nil _

theorem reads_vintPiece {i : ℤ} (hlow : -2 ^ 63 ≤ i) (hhigh : i < 2 ^ 63) :
    Reads readVInt (textOf [vintPiece i]) i := by
  rw [textOf_vintPiece]
  exact readVInt_writeVInt hlow hhigh

/-- `io.ReadFull` tells an end from a cut by whether it has got a byte. -/
theorem readFull_of_lt {n : ℕ} {q : Bytes} (h : q.length < n) :
    readFull n ⟨q, .eof⟩ = .error (if q = [] then .eof else .unexpectedEOF) := by
  rw [readFull, Stream.read_of_lt h]

/-- Cut in front, the number is missing; cut behind its first byte, it looks missing. -/
theorem breaks_readVInt {i : ℤ} (hlow : -2 ^ 63 ≤ i) (hhigh : i < 2 ^ 63) :
    Breaks readVInt .eof [vintPiece i] := by
  intro p hp hcut
  rw [textOf_vintPiece] at hp hcut
  have hquiet : Quiet [vintPiece i] p ↔ p.length < (writeVInt i).length ∧ p.length = 1 := by
    simp [Quiet, vintPiece]
  have hlt : p.length < (writeVInt i).length :=
    hp.length_le.lt_of_ne fun h => hcut (hp.eq_of_length h)
  rw [hquiet]
  cases p with
  | nil => exact ⟨.unexpectedEOF, rfl, by simp⟩
  | cons c q =>
    obtain ⟨b, hwrite, -⟩ | ⟨b, body, hwrite, -, value, -, hread⟩ := writeVInt_cases hlow hhigh
    · rw [hwrite] at hlt
      simp at hlt
    · rw [hwrite] at hp hlt
      obtain ⟨rfl, hq⟩ := List.cons_prefix_cons.mp hp
      have hshort : q.length < body.length := by simpa using hlt
      refine ⟨if q = [] then .eof else .unexpectedEOF, ?_, ?_⟩
      · rw [hread ⟨q, .eof⟩, readFull_of_lt hshort]
        rfl
      · rw [hwrite]
        by_cases hnil : q = []
        · simpa [hnil] using hshort
        · simp [hnil]

/-! ## Sections

A section is a number of variable length, and as many bytes. The decompressor sees these and no
more, and has to ask for all of them. -/

/-- A section as it is written. -/
def writeSection (stored : Bytes) : Bytes := writeVInt stored.length ++ stored

/-- The pieces of a section: a number, and the data, of which the decompressor decides. -/
def sectionPieces (d : Decompressor) (stored : Bytes) : List Piece :=
  [vintPiece stored.length, ⟨stored, fun q => d ⟨q, .eof⟩ = .error .eof⟩]

theorem textOf_sectionPieces (d : Decompressor) (stored : Bytes) :
    textOf (sectionPieces d stored) = writeSection stored := by
  simp [sectionPieces, writeSection, vintPiece]

/-- Bytes that a codec may store the data as: they come out again, and nothing is left over. -/
structure Stores (d : Decompressor) (stored data : Bytes) : Prop where
  /-- the codec loses nothing -/
  lossless : d ⟨stored, .eof⟩ = .ok (data, [])
  /-- there is a number for the length -/
  fits : stored.length < 2 ^ 63

section Sections

variable {d : Decompressor} {stored data : Bytes}

theorem reads_consumeCompressed (hd : d ⟨stored, .eof⟩ = .ok (data, [])) :
    Reads (consumeCompressed d stored.length) stored data := by
  intro rest ending
  rw [consumeCompressed_eq_ok_iff]
  exact ⟨by omega, stored, [], by simp, rfl, hd, .inr rfl⟩

/-- Of a section that is cut short, the decompressor sees what is there, and it is the one to judge.
-/
theorem breaks_consumeCompressed (d : Decompressor) (stored : Bytes) :
    Breaks (consumeCompressed d stored.length) .eof
      [⟨stored, fun q => d ⟨q, .eof⟩ = .error .eof⟩] := by
  intro p hp hcut
  rw [textOf_cons, textOf_nil, List.append_nil] at hp hcut
  have hlt : p.length < stored.length :=
    hp.length_le.lt_of_ne fun h => hcut (hp.eq_of_length h)
  have hlimited : limited (stored.length : ℤ).toNat ⟨p, .eof⟩ = ⟨p, .eof⟩ := by
    simp [limited, List.take_of_length_le hlt.le]
  simp only [Quiet, hlt, true_and, and_false, exists_false, or_false]
  cases hread : d ⟨p, .eof⟩ with
  | error err =>
    refine ⟨err, ?_, by simp⟩
    rw [consumeCompressed]
    simp only [hlimited, hread]
    rfl
  | ok r =>
    -- the section ends before all of it was asked for
    refine ⟨.unexpectedEOF, ?_, by simp⟩
    rw [consumeCompressed]
    simp only [hlimited]
    rw [bind_of_ok hread]
    rw [if_neg (by omega), if_pos (by omega)]
    rfl

/-- **A section is read back.** -/
theorem Stores.reads (h : Stores d stored data) :
    Reads (consumeSection d) (textOf (sectionPieces d stored)) data := by
  have hfits := h.fits
  rw [textOf_sectionPieces, writeSection]
  unfold consumeSection
  exact (readVInt_writeVInt (by omega) (by omega)).bind (reads_consumeCompressed h.lossless)

theorem Stores.breaks (h : Stores d stored data) :
    Breaks (consumeSection d) .eof (sectionPieces d stored) := by
  have hfits := h.fits
  unfold consumeSection
  exact Breaks.bind (reads_vintPiece (by omega) (by omega)) (breaks_readVInt (by omega) (by omega))
    (breaks_consumeCompressed d stored)

end Sections

/-! ## Blocks

A sync marker, the number of records, and four sections. Whoever writes a block may compress its
sections in any way that comes out again, so the stored bytes are part of the block. -/

/-- The lengths of a section, one after the other. -/
def writeLengths (bs : List Bytes) : Bytes := bs.flatMap fun b => writeVInt b.length

theorem reads_readEachLength {bs : List Bytes} (h : ∀ b ∈ bs, b.length < 2 ^ 63) :
    Reads (readEachLength bs.length) (writeLengths bs) (bs.map fun b => (b.length : ℤ)) := by
  induction bs with
  | nil => exact Reads.pure _
  | cons b bs ih =>
    obtain ⟨hb, hbs⟩ := List.forall_mem_cons.mp h
    have hfirst : Reads readVInt (writeVInt b.length) b.length :=
      readVInt_writeVInt (by omega) (by omega)
    rw [List.length_cons, List.map_cons, writeLengths, List.flatMap_cons]
    refine Reads.bind (hfirst.mapError fun err => if err = .eof then .unexpectedEOF else err) ?_
    exact (ih hbs).map fun lengths => (b.length : ℤ) :: lengths

/-- Lengths are numbers without anything between them. -/
theorem readLengths_writeLengths {bs : List Bytes} (h : ∀ b ∈ bs, b.length < 2 ^ 63) :
    readLengths (writeLengths bs) bs.length = .ok (bs.map fun b => (b.length : ℤ)) := by
  have hread := reads_readEachLength h [] .eof
  rw [List.append_nil] at hread
  rw [readLengths, if_neg (by omega), Int.toNat_natCast]
  simp only [bind_of_ok hread, not_true_eq_false, ne_eq, if_false]
  rfl

/-- What the sections of a block hold. -/
def sections (records : List (Bytes × Bytes)) : List Bytes :=
  [writeLengths (records.map Prod.fst), (records.map Prod.fst).flatten,
    writeLengths (records.map Prod.snd), (records.map Prod.snd).flatten]

/-- A block: its records, and its sections as they are stored. Two sections with the same data need
not be stored as the same bytes. -/
structure StoredBlock where
  /-- the records -/
  records : List (Bytes × Bytes)
  /-- the sections -/
  stored : List Bytes

/-- A block as it is written. -/
def writeBlock (marker : Bytes) (b : StoredBlock) : Bytes :=
  int32Bytes (-1) ++ (marker ++ (writeVInt b.records.length ++ b.stored.flatMap writeSection))

/-- A block that could be written: what is compressed comes out again, and there are numbers for
all the lengths. -/
structure Writable (d : Decompressor) (b : StoredBlock) : Prop where
  /-- the codec loses nothing -/
  stores : List.Forall₂ (Stores d) b.stored (sections b.records)
  /-- the number of records -/
  count : b.records.length < 2 ^ 63
  /-- the lengths of the keys -/
  keys : ∀ k ∈ b.records.map Prod.fst, k.length < 2 ^ 63
  /-- the lengths of the values -/
  values : ∀ v ∈ b.records.map Prod.snd, v.length < 2 ^ 63

/-- The pieces of a block. -/
def blockPieces (d : Decompressor) (marker : Bytes) (b : StoredBlock) : List Piece :=
  [⟨int32Bytes (-1), fun _ => True⟩] ++ ([⟨marker, fun _ => True⟩] ++
    ([vintPiece b.records.length] ++ b.stored.flatMap (sectionPieces d)))

theorem textOf_flatMap_sectionPieces (d : Decompressor) (stored : List Bytes) :
    textOf (stored.flatMap (sectionPieces d)) = stored.flatMap writeSection := by
  induction stored with
  | nil => rfl
  | cons b stored ih =>
    rw [List.flatMap_cons, textOf_append, ih, textOf_sectionPieces, List.flatMap_cons]

theorem textOf_blockPieces (d : Decompressor) (marker : Bytes) (b : StoredBlock) :
    textOf (blockPieces d marker b) = writeBlock marker b := by
  simp [blockPieces, writeBlock, textOf_flatMap_sectionPieces, vintPiece]

/-- A block of which nothing has been read. -/
def blockOf (records : List (Bytes × Bytes)) : BlockReader where
  keyLengths := (records.map Prod.fst).map fun b => (b.length : ℤ)
  keys := (records.map Prod.fst).flatten
  valueLengths := (records.map Prod.snd).map fun b => (b.length : ℤ)
  values := (records.map Prod.snd).flatten

section Block

variable {d : Decompressor} {marker : Bytes} {b : StoredBlock}

theorem reads_checkSync (hmarker : marker.length = syncSize) : Reads (checkSync marker) marker () :=
  fun _ _ => (checkSync_eq_ok_iff hmarker).mpr rfl

/-- There are four sections. -/
theorem Writable.stored_eq (h : Writable d b) :
    ∃ s₁ s₂ s₃ s₄, b.stored = [s₁, s₂, s₃, s₄] ∧
      Stores d s₁ (writeLengths (b.records.map Prod.fst)) ∧
      Stores d s₂ (b.records.map Prod.fst).flatten ∧
      Stores d s₃ (writeLengths (b.records.map Prod.snd)) ∧
      Stores d s₄ (b.records.map Prod.snd).flatten := by
  have hstores := h.stores
  simp only [sections, List.forall₂_cons_right_iff, List.forall₂_nil_right_iff] at hstores
  obtain ⟨s₁, _, h₁, ⟨s₂, _, h₂, ⟨s₃, _, h₃, ⟨s₄, _, h₄, rfl, rfl⟩, rfl⟩, rfl⟩, heq⟩ := hstores
  exact ⟨s₁, s₂, s₃, s₄, heq, h₁, h₂, h₃, h₄⟩

/-- The lengths in a block are those of its keys and of its values. -/
theorem Writable.lengths (h : Writable d b) :
    readLengths (writeLengths (b.records.map Prod.fst)) b.records.length =
        .ok (blockOf b.records).keyLengths ∧
      readLengths (writeLengths (b.records.map Prod.snd)) b.records.length =
        .ok (blockOf b.records).valueLengths := by
  have hkeys := readLengths_writeLengths h.keys
  have hvalues := readLengths_writeLengths h.values
  rw [List.length_map] at hkeys hvalues
  exact ⟨hkeys, hvalues⟩

/-- **The sections of a block are read back.** -/
theorem reads_readSections (h : Writable d b) :
    Reads (readSections d b.records.length) (textOf (b.stored.flatMap (sectionPieces d)))
      (blockOf b.records) := by
  obtain ⟨s₁, s₂, s₃, s₄, hstored, h₁, h₂, h₃, h₄⟩ := h.stored_eq
  obtain ⟨hkeys, hvalues⟩ := h.lengths
  rw [hstored]
  simp only [List.flatMap_cons, List.flatMap_nil, textOf_append]
  unfold readSections
  exact h₁.reads.bind (.of_ok hkeys (h₂.reads.bind (h₃.reads.bind (.of_ok hvalues
    (h₄.reads.bind (Reads.pure _))))))

/-- A cut of the sections is a cut of one of the four. -/
theorem breaks_readSections (h : Writable d b) :
    Breaks (readSections d b.records.length) .eof (b.stored.flatMap (sectionPieces d)) := by
  obtain ⟨s₁, s₂, s₃, s₄, hstored, h₁, h₂, h₃, h₄⟩ := h.stored_eq
  obtain ⟨hkeys, hvalues⟩ := h.lengths
  rw [hstored]
  simp only [List.flatMap_cons, List.flatMap_nil]
  unfold readSections
  exact h₁.breaks.bind h₁.reads (.of_ok hkeys (h₂.breaks.bind h₂.reads
    (h₃.breaks.bind h₃.reads (.of_ok hvalues (h₄.breaks.bind h₄.reads (Breaks.pure _ _))))))

/-- **A block is read back.** -/
theorem reads_startBlock (hmarker : marker.length = syncSize) (h : Writable d b) :
    Reads (startBlock d marker) (writeBlock marker b) (blockOf b.records) := by
  have hcount := h.count
  have hsections := reads_readSections h
  rw [textOf_flatMap_sectionPieces] at hsections
  unfold startBlock
  refine Reads.bind (consume_append (length_int32Bytes _)) ?_
  refine Reads.bind (reads_checkSync hmarker) ?_
  exact Reads.bind (readVInt_writeVInt (by omega) (by omega)) hsections

theorem breaks_consume (w : Bytes) : Breaks (consume w.length) .eof [⟨w, fun _ => True⟩] := by
  intro p hp hcut
  rw [textOf_cons, textOf_nil, List.append_nil] at hp hcut
  have hlt : p.length < w.length := hp.length_le.lt_of_ne fun h => hcut (hp.eq_of_length h)
  exact ⟨.eof, consume_of_lt (by simpa using hlt), by simp [Quiet, hlt]⟩

/-- Any cut of a sync marker looks like the end. -/
theorem breaks_checkSync (hmarker : marker.length = syncSize) :
    Breaks (checkSync marker) .eof [⟨marker, fun _ => True⟩] := by
  intro p hp hcut
  obtain ⟨err, herr, hiff⟩ := breaks_consume marker p hp hcut
  rw [hmarker] at herr
  refine ⟨err, ?_, hiff⟩
  rw [checkSync, herr]
  rfl

/-- **A block that is cut short is an error, or looks like the end.** -/
theorem breaks_startBlock (hmarker : marker.length = syncSize) (h : Writable d b) :
    Breaks (startBlock d marker) .eof (blockPieces d marker b) := by
  have hcount := h.count
  have hfour : Breaks (consume 4) .eof [⟨int32Bytes (-1), fun _ => True⟩] := by
    have hbreak := breaks_consume (int32Bytes (-1))
    rwa [length_int32Bytes] at hbreak
  have hlength : Reads (consume 4) (textOf [⟨int32Bytes (-1), fun _ => True⟩]) (int32Bytes (-1)) := by
    rw [textOf_cons, textOf_nil, List.append_nil]
    exact consume_append (length_int32Bytes _)
  have hsync : Reads (checkSync marker) (textOf [⟨marker, fun _ => True⟩]) () := by
    rw [textOf_cons, textOf_nil, List.append_nil]
    exact reads_checkSync hmarker
  unfold startBlock
  refine Breaks.bind hlength hfour ?_
  refine Breaks.bind hsync (breaks_checkSync hmarker) ?_
  exact Breaks.bind (reads_vintPiece (by omega) (by omega)) (breaks_readVInt (by omega) (by omega))
    (breaks_readSections h)

end Block

/-! ## Files of blocks -/

theorem slice_append (a b : Bytes) : slice (a ++ b) a.length = .ok (a, b) := by
  simp [slice]

/-- **The records come out of a block one by one.** -/
theorem next_blockOf_cons (key value : Bytes) (records : List (Bytes × Bytes)) :
    (blockOf ((key, value) :: records)).next = some (.ok (key, value, blockOf records)) := by
  simp only [BlockReader.next, blockOf, List.map_cons, List.flatten_cons]
  rw [bind_of_ok (slice_append _ _), bind_of_ok (slice_append _ _)]
  rfl

section Files

variable {codecs : Codecs} {header : Header} {codec : CompressionCodec}

/-- `Scan` of a file of blocks. -/
theorem scan_block (hblock : header.compression = .block codec) (b : BlockReader) (s : Stream) :
    (Reader.mk header b s).scan codecs =
      (scanBlock (getDecompressor codecs codec) header.syncMarker b s).map fun (block, stream) =>
        ⟨header, block, stream⟩ := by
  rw [Reader.scan]
  split
  · rename_i codec' hcodec
    cases hblock.symm.trans hcodec
    rfl
  · rename_i hne
    exact absurd hblock (hne codec)

/-- The records of a block come out before anything else is read. -/
theorem readAll_blockOf (hblock : header.compression = .block codec) (records : List (Bytes × Bytes))
    (s : Stream) :
    (Reader.mk header (blockOf records) s).readAll codecs =
      (records ++ ((Reader.mk header .empty s).readAll codecs).1,
        ((Reader.mk header .empty s).readAll codecs).2) := by
  induction records with
  | nil => rfl
  | cons r records ih =>
    obtain ⟨key, value⟩ := r
    have hscan : (Reader.mk header (blockOf ((key, value) :: records)) s).scan codecs =
        .record key value ⟨header, blockOf records, s⟩ := by
      rw [scan_block hblock, scanBlock, next_blockOf_cons]
      rfl
    rw [Reader.readAll_of_record hscan, ih]
    rfl

/-- **At the end of a block the next one is read.** -/
theorem readAll_empty (hblock : header.compression = .block codec) (s : Stream) :
    (Reader.mk header .empty s).readAll codecs =
      match startBlock (getDecompressor codecs codec) header.syncMarker s with
      | .error err => ([], err.unlessEOF)
      | .ok (b, s') => (Reader.mk header b s').readAll codecs := by
  have hscan : scanBlock (getDecompressor codecs codec) header.syncMarker .empty s = _ :=
    scanBlock_of_next_eq_none rfl
  split
  · rename_i err hstart
    rw [hstart] at hscan
    exact Reader.readAll_of_ended (by rw [scan_block hblock, hscan]; rfl)
  · rename_i b s' hstart
    rw [hstart] at hscan
    exact Reader.readAll_congr (by rw [scan_block hblock, scan_block hblock, hscan])

/-- The bytes of a run of blocks. -/
def writeBlocks (marker : Bytes) (blocks : List StoredBlock) : Bytes :=
  blocks.flatMap (writeBlock marker)

/-- The records in a run of blocks. -/
def recordsOf (blocks : List StoredBlock) : List (Bytes × Bytes) :=
  blocks.flatMap StoredBlock.records

section Written

variable {blocks : List StoredBlock}

/-- **Blocks are read one after the other**, whatever comes behind them. -/
theorem readAll_blocks (hblock : header.compression = .block codec)
    (hmarker : header.syncMarker.length = syncSize)
    (hblocks : ∀ b ∈ blocks, Writable (getDecompressor codecs codec) b)
    (rest : Bytes) (ending : Ending) :
    (Reader.mk header .empty ⟨writeBlocks header.syncMarker blocks ++ rest, ending⟩).readAll codecs =
      (recordsOf blocks ++ ((Reader.mk header .empty ⟨rest, ending⟩).readAll codecs).1,
        ((Reader.mk header .empty ⟨rest, ending⟩).readAll codecs).2) := by
  induction blocks with
  | nil => rfl
  | cons b blocks ih =>
    obtain ⟨hfirst, hrest⟩ := List.forall_mem_cons.mp hblocks
    have hstart := reads_startBlock hmarker hfirst
      (writeBlocks header.syncMarker blocks ++ rest) ending
    have hsplit : writeBlocks header.syncMarker (b :: blocks) ++ rest =
        writeBlock header.syncMarker b ++ (writeBlocks header.syncMarker blocks ++ rest) := by
      rw [writeBlocks, List.flatMap_cons, List.append_assoc, writeBlocks]
    rw [hsplit, readAll_empty hblock, hstart]
    dsimp only
    rw [readAll_blockOf hblock, ih hrest, recordsOf, recordsOf, List.flatMap_cons,
      List.append_assoc]

/-- **A file of blocks is read back.** -/
theorem blocks_read (hblock : header.compression = .block codec)
    (hmarker : header.syncMarker.length = syncSize)
    (hblocks : ∀ b ∈ blocks, Writable (getDecompressor codecs codec) b) :
    (Reader.mk header .empty ⟨writeBlocks header.syncMarker blocks, .eof⟩).readAll codecs =
      (recordsOf blocks, none) := by
  have hend : startBlock (getDecompressor codecs codec) header.syncMarker ⟨[], .eof⟩ =
      .error .eof := rfl
  have hread := readAll_blocks hblock hmarker hblocks [] .eof
  rwa [readAll_empty hblock ⟨[], .eof⟩, hend, List.append_nil, List.append_nil] at hread

/-- **Which cuts of a file of blocks go unnoticed.** If the file ends within a block, none of its
records is read, and there is an error unless the cut is a quiet one. -/
theorem cut_block_unnoticed_iff (hblock : header.compression = .block codec)
    (hmarker : header.syncMarker.length = syncSize)
    (hblocks : ∀ b ∈ blocks, Writable (getDecompressor codecs codec) b) {b : StoredBlock}
    (hb : Writable (getDecompressor codecs codec) b) {p : Bytes}
    (hp : p <+: writeBlock header.syncMarker b) (hcut : p ≠ writeBlock header.syncMarker b) :
    ∃ err, (Reader.mk header .empty ⟨writeBlocks header.syncMarker blocks ++ p,
        .eof⟩).readAll codecs = (recordsOf blocks, err) ∧
      (err = none ↔ Quiet (blockPieces (getDecompressor codecs codec) header.syncMarker b) p) := by
  have htext := textOf_blockPieces (getDecompressor codecs codec) header.syncMarker b
  rw [← htext] at hp hcut
  obtain ⟨err, herr, hiff⟩ := breaks_startBlock hmarker hb p hp hcut
  rw [readAll_blocks hblock hmarker hblocks, readAll_empty hblock, herr, ← hiff]
  exact ⟨err.unlessEOF, by rw [List.append_nil], FormatError.unlessEOF_eq_none_iff⟩

end Written

/-- A header of a file of blocks. -/
def blockHeader : Header := ⟨6, .block .gzip, [], [], ∅, List.replicate 16 0⟩

/-- A codec that puts the first byte of `gzip` in front. As in `gzip.NewReader`, nothing at all is
`io.EOF`. -/
def markedCodecs : Codecs where
  gzip s :=
    match s.bytes with
    | [] => .error .eof
    | 31 :: rest => .ok (rest, [])
    | _ => .error .gzip

/-- A block of that codec. -/
def markedBlock (records : List (Bytes × Bytes)) : StoredBlock :=
  ⟨records, (sections records).map (31 :: ·)⟩

/-- What this codec stores comes out again, as long as there are numbers for the lengths. -/
theorem writable_markedBlock {records : List (Bytes × Bytes)}
    (hsections : ∀ b ∈ sections records, b.length < 2 ^ 62) (hcount : records.length < 2 ^ 63)
    (hkeys : ∀ k ∈ records.map Prod.fst, k.length < 2 ^ 63)
    (hvalues : ∀ v ∈ records.map Prod.snd, v.length < 2 ^ 63) :
    Writable (getDecompressor markedCodecs .gzip) (markedBlock records) where
  stores := by
    rw [markedBlock, List.forall₂_map_left_iff, List.forall₂_same]
    intro b hb
    have hlength := hsections b hb
    exact ⟨rfl, by rw [List.length_cons]; omega⟩
  count := hcount
  keys := hkeys
  values := hvalues

/-- A record with a value of 200 bytes. -/
def longValue : List (Bytes × Bytes) := [([107], List.replicate 200 118)]

/-- The first three sections of its block. -/
def longValueFront : StoredBlock := ⟨longValue, [[31, 1], [31, 107], [31, 143, 200]]⟩

/-- The last section. -/
def longValueBack : Bytes := 31 :: List.replicate 200 118

theorem length_longValueBack : longValueBack.length = 201 := by
  rw [longValueBack, List.length_cons, List.length_replicate]

theorem markedBlock_longValue :
    markedBlock longValue = ⟨longValue, longValueFront.stored ++ [longValueBack]⟩ := by
  have hkeys : writeLengths (longValue.map Prod.fst) = [1] := by decide
  have hvalues : writeLengths (longValue.map Prod.snd) = [143, 200] := by
    simp only [writeLengths, longValue, List.map_cons, List.map_nil, List.flatMap_singleton,
      List.length_replicate]
    simp [writeVInt, toBytes]
  rw [markedBlock, sections, hkeys, hvalues, longValueFront, longValueBack]
  simp only [longValue, List.map_cons, List.map_nil, List.flatten_cons, List.flatten_nil,
    List.append_nil, List.cons_append, List.nil_append]

theorem writeVInt_longValueBack : writeVInt longValueBack.length = [143, 201] := by
  rw [length_longValueBack]
  simp [writeVInt, toBytes]

/-- There are 31 bytes in front of the last section. -/
theorem writeBlock_longValue :
    (writeBlock blockHeader.syncMarker longValueFront).length = 31 ∧
      writeBlock blockHeader.syncMarker (markedBlock longValue) =
        writeBlock blockHeader.syncMarker longValueFront ++ (143 :: 201 :: longValueBack) := by
  have hsection : writeSection longValueBack = 143 :: 201 :: longValueBack :=
    congrArg (· ++ longValueBack) writeVInt_longValueBack
  refine ⟨by decide +kernel, ?_⟩
  rw [markedBlock_longValue, ← hsection]
  simp [writeBlock, longValueFront]

/-- **The quiet cuts of the last section** are the one behind the first byte of its number and the
one behind its number. -/
theorem quiet_longValue_iff (n : ℕ) :
    Quiet (blockPieces (getDecompressor markedCodecs .gzip) blockHeader.syncMarker
        (markedBlock longValue)) ((writeBlock blockHeader.syncMarker (markedBlock longValue)).take
          (31 + n)) ↔ n = 1 ∨ n = 2 := by
  obtain ⟨hfront, hbytes⟩ := writeBlock_longValue
  have hpieces : blockPieces (getDecompressor markedCodecs .gzip) blockHeader.syncMarker
      (markedBlock longValue) = blockPieces (getDecompressor markedCodecs .gzip)
        blockHeader.syncMarker longValueFront ++
          sectionPieces (getDecompressor markedCodecs .gzip) longValueBack := by
    rw [markedBlock_longValue]
    simp [blockPieces, longValueFront]
  rw [hpieces, hbytes, ← hfront, List.take_length_add_append,
    ← textOf_blockPieces (getDecompressor markedCodecs .gzip), quiet_append, sectionPieces, vintPiece,
    writeVInt_longValueBack]
  match n with
  | 0 => simp [Quiet]
  | 1 => simp [Quiet]
  | 2 => simp [Quiet, getDecompressor, markedCodecs, length_longValueBack]
  | n + 3 =>
    rw [longValueBack]
    generalize List.replicate 200 (118 : UInt8) = value
    simp [Quiet, getDecompressor, markedCodecs]

/-- A file with a block of one record, and behind it `n` bytes of a second block. -/
def cutFile (n : ℕ) : Stream :=
  ⟨writeBlocks blockHeader.syncMarker [markedBlock [([107], [118])]] ++
    (writeBlock blockHeader.syncMarker (markedBlock longValue)).take n, .eof⟩

/-- The second block is lost without an error if the cut is behind the first byte of the number
in front of the values, or in front of their first byte, and with an error if it is among them. -/
theorem cut_block_unnoticed_longValue :
    (Reader.mk blockHeader .empty (cutFile 32)).readAll markedCodecs = ([([107], [118])], none) ∧
    (Reader.mk blockHeader .empty (cutFile 33)).readAll markedCodecs = ([([107], [118])], none) ∧
    ∃ err, (Reader.mk blockHeader .empty (cutFile 40)).readAll markedCodecs =
      ([([107], [118])], some err) := by
  have hblock : blockHeader.compression = .block .gzip := rfl
  have hshort : Writable (getDecompressor markedCodecs .gzip) (markedBlock [([107], [118])]) :=
    writable_markedBlock (by decide) (by decide) (by decide) (by decide)
  have hlong : Writable (getDecompressor markedCodecs .gzip) (markedBlock longValue) :=
    writable_markedBlock (by decide +kernel) (by decide) (by decide) (by decide +kernel)
  obtain ⟨hfront, hbytes⟩ := writeBlock_longValue
  have hcut : ∀ n < 203, ∃ err, (Reader.mk blockHeader .empty (cutFile (31 + n))).readAll
      markedCodecs = ([([107], [118])], err) ∧ (err = none ↔ n = 1 ∨ n = 2) := by
    intro n hn
    rw [← quiet_longValue_iff n]
    refine cut_block_unnoticed_iff hblock rfl (List.forall_mem_singleton.mpr hshort) hlong
      (List.take_prefix (31 + n) _) fun h => ?_
    have hlength := congrArg List.length h
    simp only [hbytes, List.length_take, List.length_append, List.length_cons, hfront,
      length_longValueBack] at hlength
    omega
  obtain ⟨err₁, hread₁, hiff₁⟩ := hcut 1 (by omega)
  obtain ⟨err₂, hread₂, hiff₂⟩ := hcut 2 (by omega)
  obtain ⟨err₃, hread₃, hiff₃⟩ := hcut 9 (by omega)
  obtain ⟨err, rfl⟩ := Option.ne_none_iff_exists'.mp (mt hiff₃.mp (by omega))
  exact ⟨hiff₁.mpr (.inl rfl) ▸ hread₁, hiff₂.mpr (.inr rfl) ▸ hread₂, err, hread₃⟩

end Files

end Sequins.SequenceFile
