import Sequins.SequenceBlocks

/-!
# Snappy in sequence files

The framing of Hadoop around snappy, which `snappy.go` reads: the size of everything, and then
chunks, each with the size of what it is compressed to.

`frame_accepted_iff` says what passes for such a frame. The size of everything is an upper bound
only, unless an empty chunk marks the end: a frame may end between two chunks, and it may also end
within a chunk, which is then dropped, since `buf.ReadFrom` takes every `io.EOF` for the end.
-/

namespace Sequins.SequenceFile

open ByteStream

/-- A chunk of a frame: a snappy block, and what it stands for. -/
structure Chunk where
  /-- the block -/
  compressed : Bytes
  /-- what it stands for -/
  uncompressed : Bytes
  /-- its size has four bytes -/
  fits : compressed.length < 2 ^ 32
  /-- it is a block -/
  decodes : Snappy.decode compressed = .ok uncompressed

/-- A chunk in a frame. -/
def Chunk.bytes (c : Chunk) : Bytes := fixed 4 c.compressed.length ++ c.compressed

/-- How a frame can end behind its chunks, if `left` bytes have not come: it just ends, it ends
within a chunk, or an empty chunk marks the end. -/
inductive FrameEnd : ℕ → Bytes → Bytes → Prop
  | ends (left : ℕ) : FrameEnd left [] []
  | cut (left : ℕ) {n : ℕ} {c : Bytes} (hn : n < 2 ^ 32) (hcut : c.length < n) :
      FrameEnd left (fixed 4 n ++ c) []
  | marked (unread : Bytes) : FrameEnd 0 (fixed 4 0 ++ unread) unread

theorem readFull_fixed {n : ℕ} (h : n < 2 ^ 32) (rest : Bytes) :
    readFull 4 ⟨fixed 4 n ++ rest, .eof⟩ = .ok (fixed 4 n, ⟨rest, .eof⟩) :=
  readFull_append (length_fixed (h.trans_eq (by norm_num))) _ _

/-- A chunk is read. -/
theorem snappyRead_chunk (c : Chunk) (left : ℕ) (rest : Bytes) :
    snappyRead (c.uncompressed.length + left : ℕ) ⟨c.bytes ++ rest, .eof⟩ =
      .ok (.chunk c.uncompressed left ⟨rest, .eof⟩) := by
  obtain ⟨tail, hlen⟩ := Snappy.decodedLen_of_decode c.decodes
  have hpos : c.compressed.length ≠ 0 := by simpa using Snappy.ne_nil_of_decode c.decodes
  have hchunk : consume (c.compressed.length : ℕ) ⟨c.compressed ++ rest, .eof⟩ =
      .ok (c.compressed, ⟨rest, .eof⟩) := consume_append (Int.toNat_natCast _).symm _ _
  have hleft : ((c.uncompressed.length + left : ℕ) : ℤ) - c.uncompressed.length = left := by omega
  rw [snappyRead, Chunk.bytes, List.append_assoc, readFull_fixed c.fits]
  dsimp only
  rw [ofBytes_fixed, if_neg hpos, hchunk]
  dsimp only
  rw [hlen, c.decodes]
  simp only [Except.mapError, bind, Except.bind, hleft]
  exact if_neg (by omega)

/-- The end of a frame is found. -/
theorem snappyRead_end {left : ℕ} {tail unread : Bytes} (h : FrameEnd left tail unread) :
    snappyRead left ⟨tail, .eof⟩ = .ok (.ended unread) := by
  rw [snappyRead]
  cases h with
  | ends => rfl
  | @cut _ n c hn hcut =>
    have hchunk : consume (n : ℤ) ⟨c, .eof⟩ = .error .eof := consume_of_lt (by simpa using hcut)
    rw [readFull_fixed hn]
    dsimp only
    rw [ofBytes_fixed, if_neg (by omega), hchunk]
  | marked unread =>
    rw [readFull_fixed (by norm_num)]
    dsimp only
    rw [ofBytes_fixed, if_pos rfl, if_neg (by simp)]

/-- What a read can come to. -/
theorem snappyRead_cases {left : ℕ} {q : Bytes} {r : SnappyRead}
    (h : snappyRead left ⟨q, .eof⟩ = .ok r) :
    (∃ unread, r = .ended unread ∧ FrameEnd left q unread) ∨
      ∃ (c : Chunk) (rest : Bytes) (left' : ℕ), left = c.uncompressed.length + left' ∧
        q = c.bytes ++ rest ∧ r = .chunk c.uncompressed left' ⟨rest, .eof⟩ := by
  rw [snappyRead] at h
  by_cases hfour : q.length < 4
  · rw [readFull_of_lt hfour] at h
    by_cases hnil : q = []
    · rw [if_pos hnil] at h
      cases h
      subst hnil
      exact .inl ⟨[], rfl, .ends left⟩
    · rw [if_neg hnil] at h
      cases h
  -- the size is there
  have htake : (q.take 4).length = 4 := by simp; omega
  obtain ⟨n, hn, hfixed⟩ : ∃ n, n < 2 ^ 32 ∧ q.take 4 = fixed 4 n :=
    ⟨ofBytes (q.take 4), by simpa [htake] using ofBytes_lt (q.take 4),
      by simpa [htake] using (fixed_ofBytes (q.take 4)).symm⟩
  obtain ⟨rest, rfl⟩ : ∃ rest, q = fixed 4 n ++ rest := ⟨q.drop 4, by rw [← hfixed]; simp⟩
  rw [readFull_fixed hn] at h
  dsimp only at h
  rw [ofBytes_fixed] at h
  by_cases hzero : n = 0
  · rw [if_pos hzero] at h
    subst hzero
    split_ifs at h with hleft
    obtain rfl : left = 0 := by simpa using hleft
    cases h
    exact .inl ⟨rest, rfl, .marked rest⟩
  rw [if_neg hzero] at h
  by_cases hcut : rest.length < n
  · rw [consume_of_lt (by simpa using hcut)] at h
    cases h
    exact .inl ⟨[], rfl, .cut left hn hcut⟩
  have hchunk : consume (n : ℤ) ⟨rest, .eof⟩ = .ok (rest.take n, ⟨rest.drop n, .eof⟩) :=
    consume_eq_ok_iff.mpr ⟨by simp; omega, by simp⟩
  rw [hchunk] at h
  obtain ⟨⟨uncompressedLength, tail⟩, hlen, h⟩ := bind_eq_ok.mp h
  dsimp only at h
  split_ifs at h with hpartial
  · cases h
  obtain ⟨uncompressed, hdecode, h⟩ := bind_eq_ok.mp h
  cases h
  have hlength : (rest.take n).length = n := by simp; omega
  have hdecode := ok_of_mapError hdecode
  obtain ⟨tail', hlen'⟩ := Snappy.decodedLen_of_decode hdecode
  obtain ⟨rfl, -⟩ := Prod.mk.inj (Except.ok.inj ((ok_of_mapError hlen).symm.trans hlen'))
  refine .inr ⟨⟨rest.take n, uncompressed, by omega, hdecode⟩, rest.drop n,
    left - uncompressed.length, ?_, ?_, ?_⟩
  · dsimp only
    omega
  · simp only [Chunk.bytes, hlength, List.append_assoc, List.take_append_drop]
  · dsimp only
    congr 1
    omega

theorem snappyChunks_eq_ok_iff {left : ℕ} {q out unread : Bytes} :
    snappyChunks left ⟨q, .eof⟩ = .ok (out, unread) ↔
      ∃ (chunks : List Chunk) (tail : Bytes), q = chunks.flatMap Chunk.bytes ++ tail ∧
        out = chunks.flatMap Chunk.uncompressed ∧ out.length ≤ left ∧
        FrameEnd (left - out.length) tail unread := by
  constructor
  · intro h
    induction hk : q.length using Nat.strong_induction_on generalizing q left out with
    | _ k ih =>
      cases hread : snappyRead left ⟨q, .eof⟩ with
      | error err =>
        rw [snappyChunks] at h
        split at h
        · cases h
        · rename_i hended
          cases hread.symm.trans hended
        · rename_i hchunk
          cases hread.symm.trans hchunk
      | ok r =>
        rcases snappyRead_cases hread with ⟨u, rfl, hend⟩ | ⟨c, rest, left', rfl, rfl, rfl⟩
        · rw [snappyChunks_of_ended hread] at h
          cases h
          exact ⟨[], q, rfl, rfl, Nat.zero_le _, hend⟩
        · obtain ⟨out', hout', rfl⟩ := (snappyChunks_of_chunk hread).mp h
          have hlt : rest.length < k := hk ▸ snappyRead_lt hread
          obtain ⟨chunks, tail, rfl, rfl, hle, hend⟩ := ih _ hlt hout' rfl
          refine ⟨c :: chunks, tail, by simp, by simp, ?_, ?_⟩
          · rw [List.length_append]
            omega
          · rw [List.length_append, Nat.add_sub_add_left]
            exact hend
  · rintro ⟨chunks, tail, rfl, rfl, hle, hend⟩
    induction chunks generalizing left with
    | nil => exact snappyChunks_of_ended (snappyRead_end hend)
    | cons c chunks ih =>
      rw [List.flatMap_cons] at hle hend ⊢
      rw [List.length_append] at hle hend
      obtain ⟨left', rfl⟩ := Nat.exists_eq_add_of_le (Nat.le_of_add_right_le hle)
      rw [Nat.add_sub_add_left] at hend
      rw [List.flatMap_cons, List.append_assoc]
      exact (snappyChunks_of_chunk (snappyRead_chunk c left' _)).mpr
        ⟨_, ih (by omega) hend, rfl⟩

/-- **What passes for a frame of snappy.** The data are those of the chunks, and there are at most
as many as announced; whether there are fewer is only looked at if an empty chunk marks the end. A
chunk that is cut short is dropped. -/
theorem frame_accepted_iff {q out unread : Bytes} :
    snappyFrameReader ⟨q, .eof⟩ = .ok (out, unread) ↔
      ∃ (total : ℕ) (chunks : List Chunk) (tail : Bytes), total < 2 ^ 32 ∧
        q = fixed 4 total ++ (chunks.flatMap Chunk.bytes ++ tail) ∧
        out = chunks.flatMap Chunk.uncompressed ∧ out.length ≤ total ∧
        FrameEnd (total - out.length) tail unread := by
  constructor
  · intro h
    obtain ⟨⟨size, s⟩, hsize, h⟩ := bind_eq_ok.mp h
    obtain ⟨hfour, hq⟩ := readFull_eq_ok_iff.mp hsize
    obtain ⟨rest, ending⟩ := s
    obtain ⟨rfl, rfl⟩ : q = size ++ rest ∧ ending = .eof := by simpa [eq_comm] using hq
    obtain ⟨chunks, tail, rfl, hout, hle, hend⟩ := snappyChunks_eq_ok_iff.mp h
    have hlt := ofBytes_lt size
    have hfixed := fixed_ofBytes size
    rw [hfour] at hlt hfixed
    exact ⟨ofBytes size, chunks, tail, hlt.trans_eq (by norm_num), by rw [hfixed], hout, hle, hend⟩
  · rintro ⟨total, chunks, tail, htotal, rfl, hout, hle, hend⟩
    rw [snappyFrameReader, bind_of_ok (readFull_fixed htotal _)]
    dsimp only
    rw [ofBytes_fixed]
    exact snappyChunks_eq_ok_iff.mpr ⟨chunks, tail, rfl, hout, hle, hend⟩

/-! ## Files

Hadoop's own compressor decides how to cut the data of a section into chunks, so all ways of
doing that are allowed here, for each section by itself. -/

/-- Data in a frame, cut into chunks that somebody has compressed. -/
def snappyFrame (chunks : List Chunk) : Bytes :=
  fixed 4 (chunks.flatMap Chunk.uncompressed).length ++ chunks.flatMap Chunk.bytes

/-- The chunks hold the data, and there are numbers for the lengths. -/
structure Framed (chunks : List Chunk) (data : Bytes) : Prop where
  holds : chunks.flatMap Chunk.uncompressed = data
  uncompressed : data.length < 2 ^ 32
  compressed : (chunks.flatMap Chunk.bytes).length < 2 ^ 62

/-- What is framed comes out again. -/
theorem Framed.stores {codecs : Codecs} {chunks : List Chunk} {data : Bytes}
    (h : Framed chunks data) :
    Stores (getDecompressor codecs .snappy) (snappyFrame chunks) data := by
  have hcompressed := h.compressed
  obtain ⟨rfl, hlt, -⟩ := h
  refine ⟨?_, ?_⟩
  · rw [getDecompressor, snappyFrameReader, snappyFrame, bind_of_ok (readFull_fixed hlt _)]
    dsimp only
    rw [ofBytes_fixed]
    exact snappyChunks_eq_ok_iff.mpr ⟨chunks, [], by simp, rfl, le_rfl, .ends _⟩
  · rw [snappyFrame, List.length_append, length_fixed (hlt.trans_eq (by norm_num))]
    omega

/-- A block, with the chunks of each of its sections. -/
structure FramedBlock where
  /-- the records -/
  records : List (Bytes × Bytes)
  /-- the chunks of the sections -/
  chunks : List (List Chunk)
  /-- they hold the sections -/
  framed : List.Forall₂ Framed chunks (sections records)

/-- The block as it is stored. -/
def FramedBlock.block (b : FramedBlock) : StoredBlock := ⟨b.records, b.chunks.map snappyFrame⟩

theorem length_le_writeLengths (bs : List Bytes) : bs.length ≤ (writeLengths bs).length := by
  induction bs with
  | nil => exact le_rfl
  | cons b bs ih =>
    have hpos : 1 ≤ (writeVInt b.length).length := by
      rw [writeVInt]
      split_ifs <;> simp
    rw [writeLengths, List.flatMap_cons, ← writeLengths, List.length_append, List.length_cons]
    omega

theorem FramedBlock.length_lt (b : FramedBlock) : ∀ data ∈ sections b.records,
    data.length < 2 ^ 32 := by
  have hframed : List.Forall₂ (fun data chunks => data.length < 2 ^ 32 ∧ Framed chunks data)
      (sections b.records) b.chunks :=
    .flip (b.framed.imp fun _ _ h => ⟨h.uncompressed, h⟩)
  exact ((List.forall₂_and_left _ _).mp hframed).1

theorem FramedBlock.writable {codecs : Codecs} (b : FramedBlock) :
    Writable (getDecompressor codecs .snappy) b.block := by
  have hlengths := b.length_lt _ (List.mem_cons_self ..)
  have hkeys := b.length_lt (b.records.map Prod.fst).flatten (by simp [sections])
  have hvalues := b.length_lt (b.records.map Prod.snd).flatten (by simp [sections])
  have hmem : ∀ {bs : List Bytes} {b : Bytes}, b ∈ bs → b.length ≤ bs.flatten.length := by
    intro bs b hb
    exact (List.sublist_flatten_of_mem hb).length_le
  refine ⟨?_, ?_, fun k hk => ?_, fun v hv => ?_⟩
  · rw [block, List.forall₂_map_left_iff]
    exact b.framed.imp fun _ _ h => h.stores
  · have hle := length_le_writeLengths (b.records.map Prod.fst)
    rw [List.length_map] at hle
    change b.records.length < _
    omega
  · have hle : k.length ≤ _ := hmem hk
    exact (hle.trans_lt hkeys).trans (by norm_num)
  · have hle : v.length ≤ _ := hmem hv
    exact (hle.trans_lt hvalues).trans (by norm_num)

/-- **A file of blocks that snappy has compressed is read back**, in whatever way the data of each
section are cut into chunks and these compressed. -/
theorem snappy_blocks_read {codecs : Codecs} {header : Header}
    (hblock : header.compression = .block .snappy) (hmarker : header.syncMarker.length = syncSize)
    (blocks : List FramedBlock) :
    (Reader.mk header .empty ⟨writeBlocks header.syncMarker (blocks.map FramedBlock.block),
      .eof⟩).readAll codecs = (blocks.flatMap FramedBlock.records, none) := by
  have hblocks : ∀ b ∈ blocks.map FramedBlock.block,
      Writable (getDecompressor codecs .snappy) b :=
    List.forall_mem_map.mpr fun b _ => b.writable
  rw [blocks_read hblock hmarker hblocks, recordsOf, List.flatMap_map]
  rfl

/-- The chunk `[8]`, a literal. -/
def literalChunk : Chunk where
  compressed := [1] ++ [Snappy.Element.literal 0 [8]].flatMap Snappy.Element.bytes
  uncompressed := [8]
  fits := by decide
  decodes := Snappy.decode_of_expand (by decide) ⟨[], 1, rfl, by simp, by decide, by decide⟩ rfl
    (by decide) rfl

/-- The chunk `aaaaaaaa`: a literal of one byte, and a copy that repeats it. -/
def copyChunk : Chunk where
  compressed := [8] ++ [Snappy.Element.literal 0 [97], .copy1 1 7].flatMap Snappy.Element.bytes
  uncompressed := List.replicate 8 97
  fits := by decide
  decodes := Snappy.decode_of_expand (by decide) ⟨[], 8, rfl, by simp, by decide, by decide⟩ rfl
    (by decide) rfl

/-- The chunk `aaaa`, a literal. -/
def fourChunk : Chunk where
  compressed := [4] ++ [Snappy.Element.literal 0 (List.replicate 4 97)].flatMap Snappy.Element.bytes
  uncompressed := List.replicate 4 97
  fits := by decide
  decodes := Snappy.decode_of_expand (by decide) ⟨[], 4, rfl, by simp, by decide, by decide⟩ rfl
    (by decide) rfl

/-- A record of eight times `a`, twice: the key in one chunk, and the value in two. -/
def sameBytes : FramedBlock where
  records := [(List.replicate 8 97, List.replicate 8 97)]
  chunks := [[literalChunk], [copyChunk], [literalChunk], [fourChunk, fourChunk]]
  framed := by
    have hsections : sections [(List.replicate 8 97, List.replicate 8 97)] =
        [[8], List.replicate 8 97, [8], List.replicate 8 97] := rfl
    rw [hsections]
    refine .cons ?_ (.cons ?_ (.cons ?_ (.cons ?_ .nil)))
    all_goals exact ⟨rfl, by decide, by decide⟩

theorem snappy_blocks_read_sameBytes :
    (Reader.mk ⟨6, .block .snappy, [], [], ∅, List.replicate 16 0⟩ .empty
      ⟨writeBlocks (List.replicate 16 0) [sameBytes.block, sameBytes.block], .eof⟩).readAll
        noCodecs = (sameBytes.records ++ sameBytes.records, none) :=
  snappy_blocks_read rfl rfl [sameBytes, sameBytes]

end Sequins.SequenceFile
