import Mathlib.Data.List.AList
import Sequins.Snappy

/-!
# Reading sequence files

The vendored package `sequencefile`, which turns the bytes of a file into the records that a build
adds: `vint.go`, `header.go`, `reader.go`, `block.go` and `snappy.go`.

A file begins with a header, which says how the rest is laid out. Either it is a run of records,
each with its lengths before it and now and then a sync marker between two of them, or it is a run
of blocks, each with four compressed sections: the lengths of the keys, the keys, the lengths of
the values, the values.

`Scan` returns `false` for two reasons that only `Err` tells apart, the end of the file and an
error; `Scanned.ended` carries what `Err` returns then. A read that comes up short gives `io.EOF`,
however many bytes there were, and whether that is the one or the other depends on who asked.

The stream is in memory, and `gzip` is a parameter.
-/

namespace Sequins.SequenceFile

open ByteStream

/-- The bytes of a string literal of the source. -/
def ascii (s : String) : Bytes := s.toList.map fun c => c.toNat.toUInt8

/-- The errors of the package. -/
inductive FormatError where
  /-- `io.EOF` -/
  | eof
  /-- `io.ErrUnexpectedEOF` -/
  | unexpectedEOF
  /-- the error of the stream -/
  | stream
  /-- `sequencefile: reading magic number: %s` -/
  | readingMagic (err : FormatError)
  /-- `sequencefile: invalid magic number: %s` -/
  | invalidMagic (magic : Bytes)
  /-- `sequencefile: unsupported version: %d` -/
  | unsupportedVersion (version : ℕ)
  /-- `sequencefile: unsupported compression codec: %s` -/
  | unsupportedCodec (name : Bytes)
  /-- `sequencefile: invalid metadata pair count: %d` -/
  | pairCount (pairs : ℕ)
  /-- `sequencefile: invalid record length: %d` -/
  | recordLength (length : ℤ)
  /-- `sequencefile: invalid key length: %d` -/
  | keyLength (length : ℤ)
  /-- `sequencefile: invalid sync marker` -/
  | syncMarker
  /-- `sequencefile: invalid lengths for block` -/
  | blockLengths
  /-- `sequencefile: snappy: partial block` -/
  | partialBlock
  /-- an error of `gzip` -/
  | gzip
  /-- an error of `snappy` -/
  | snappy (err : Snappy.DecodeError)
  /-- a slice or an allocation out of bounds, which nobody recovers from. (A slice that leaves its
  section but not the buffer's capacity goes on in the buffer instead.) -/
  | panicked
  deriving DecidableEq, Repr

/-- What a read returns at the end of the stream. -/
def FormatError.ofEnding : Ending → FormatError
  | .eof => .eof
  | .failed => .stream

/-- The error that `close` is called with: `io.EOF` ends the file without one. -/
def FormatError.unlessEOF (err : FormatError) : Option FormatError :=
  if err = .eof then none else some err

@[simp] theorem FormatError.unlessEOF_eq_none_iff {err : FormatError} :
    err.unlessEOF = none ↔ err = .eof := by
  rw [unlessEOF]
  split_ifs with h <;> simp [h]

/-! ## Reads

`consume` and `io.ReadFull` differ in what they say of a stream that is too short: to the one it
has ended, to the other it has ended early if there was a byte. The callers make much of the
difference. -/

/-- `consume`, that is `io.CopyN`: `io.EOF` also when only some of the bytes are there, and
nothing at all for a negative length. -/
def consume (n : ℤ) (s : Stream) : Except FormatError (Bytes × Stream) :=
  (s.read n.toNat).mapError .ofEnding

/-- `io.ReadFull`: `io.EOF` only if there is no byte at all. -/
def readFull (n : ℕ) (s : Stream) : Except FormatError (Bytes × Stream) :=
  match s.read n with
  | .ok r => .ok r
  | .error .failed => .error .stream
  | .error .eof => .error (if s.bytes = [] then .eof else .unexpectedEOF)

/-- `mustReadByte`. -/
def mustReadByte (s : Stream) : Except FormatError (UInt8 × Stream) :=
  match s.bytes, s.ending with
  | b :: rest, ending => .ok (b, ⟨rest, ending⟩)
  | [], .eof => .error .unexpectedEOF
  | [], .failed => .error .stream

/-- `ReadVInt`. The first byte is the number itself, or says how many bytes it has and its sign. -/
def readVInt (s : Stream) : Except FormatError (ℤ × Stream) := do
  let (lenByte, s) ← mustReadByte s
  let l := lenByte.toInt8.toInt
  if -112 ≤ l then
    return (l, s)
  else if -120 ≤ l then
    let (buf, s) ← readFull (-112 - l).toNat s
    return (wrap64 (ofBytes buf), s)
  else
    let (buf, s) ← readFull (-120 - l).toNat s
    return (wrap64 (2 ^ 64 - 1 - ofBytes buf), s)

/-- `int32(binary.BigEndian.Uint32(b))`. -/
def int32 (b : Bytes) : ℤ := wrap32 (ofBytes b)

/-- What was consumed stood at the beginning. A negative number of bytes is none. -/
theorem consume_eq_ok_iff {n : ℤ} {s s' : Stream} {b : Bytes} :
    consume n s = .ok (b, s') ↔ b.length = n.toNat ∧ s = ⟨b ++ s'.bytes, s'.ending⟩ := by
  rw [← Stream.read_eq_ok_iff, consume]
  cases s.read n.toNat <;> simp [Except.mapError]

theorem consume_append {n : ℤ} {b : Bytes} (h : b.length = n.toNat) (rest : Bytes)
    (ending : Ending) : consume n ⟨b ++ rest, ending⟩ = .ok (b, ⟨rest, ending⟩) :=
  consume_eq_ok_iff.mpr ⟨h, rfl⟩

/-- **A stream that is too short is at its end**, whatever was there. -/
theorem consume_of_lt {n : ℤ} {s : Stream} (h : s.bytes.length < n.toNat) :
    consume n s = .error (.ofEnding s.ending) := by
  rw [consume, Stream.read_of_lt h]
  rfl

theorem readFull_eq_ok_iff {n : ℕ} {s s' : Stream} {b : Bytes} :
    readFull n s = .ok (b, s') ↔ b.length = n ∧ s = ⟨b ++ s'.bytes, s'.ending⟩ := by
  rw [← Stream.read_eq_ok_iff, readFull]
  rcases s.read n with (_ | _) | r <;> simp

theorem forward_consume (n : ℤ) : Stream.Forward (consume n) := by
  intro s b s' h
  obtain ⟨-, rfl⟩ := consume_eq_ok_iff.mp h
  simp

theorem forward_readFull (n : ℕ) : Stream.Forward (readFull n) := by
  intro s b s' h
  obtain ⟨-, rfl⟩ := readFull_eq_ok_iff.mp h
  simp

theorem forward_mustReadByte : Stream.Forward mustReadByte := by
  intro s b s' h
  obtain ⟨_ | ⟨c, rest⟩, ending⟩ := s
  · cases ending <;> cases h
  · cases h
    simp

/-- A number takes its first byte, and those that it announces. -/
theorem forward_readVInt : Stream.Forward readVInt := by
  intro s n s' h
  obtain ⟨⟨lenByte, s₁⟩, hbyte, h⟩ := bind_eq_ok.mp h
  have hle := forward_mustReadByte hbyte
  dsimp only at h
  split_ifs at h
  · cases h
    exact hle
  · obtain ⟨⟨buf, s₂⟩, hbuf, h⟩ := bind_eq_ok.mp h
    simp only [pure, Except.pure, Except.ok.injEq, Prod.mk.injEq] at h
    exact h.2 ▸ (forward_readFull _ hbuf).trans hle
  · obtain ⟨⟨buf, s₂⟩, hbuf, h⟩ := bind_eq_ok.mp h
    simp only [pure, Except.pure, Except.ok.injEq, Prod.mk.injEq] at h
    exact h.2 ▸ (forward_readFull _ hbuf).trans hle

/-! ## Decompression

A decompressor is given a stream that ends where the section ends, and is read to its own end.
What it leaves unread is an error to `consumeCompressed`. -/

/-- A decompressor, read up to its end: what comes out, and the bytes it did not ask for. -/
abbrev Decompressor : Type := Stream → Except FormatError (Bytes × Bytes)

/-- The codec that comes from elsewhere. -/
structure Codecs where
  /-- `compress/gzip` -/
  gzip : Decompressor

/-- What a `Read` of a `snappyFrameReader` comes to. -/
inductive SnappyRead where
  /-- `io.EOF`, with the bytes it did not ask for -/
  | ended (unread : Bytes)
  /-- a chunk -/
  | chunk (uncompressed : Bytes) (remaining : ℤ) (s : Stream)
  deriving DecidableEq, Repr

/-- `snappyFrameReader.Read`, for a whole chunk. Also the `io.EOF` of a chunk that is cut short is
returned as it is. -/
def snappyRead (remaining : ℤ) (s : Stream) : Except FormatError SnappyRead :=
  match readFull 4 s with
  | .error .eof => .ok (.ended [])
  | .error err => .error err
  | .ok (sizeBytes, s) =>
    if ofBytes sizeBytes = 0 then
      if remaining ≠ 0 then .error .partialBlock else .ok (.ended s.bytes)
    else
      match consume (ofBytes sizeBytes) s with
      | .error .eof => .ok (.ended [])
      | .error err => .error err
      | .ok (compressed, s) => do
        let (uncompressedLength, _) ← (Snappy.decodedLen compressed).mapError .snappy
        if remaining - uncompressedLength < 0 then
          throw .partialBlock
        let uncompressed ← (Snappy.decode compressed).mapError .snappy
        return .chunk uncompressed (remaining - uncompressedLength) s

/-- A chunk has at least the four bytes of its length. -/
theorem snappyRead_lt {remaining remaining' : ℤ} {s s' : Stream} {uncompressed : Bytes}
    (h : snappyRead remaining s = .ok (.chunk uncompressed remaining' s')) :
    s'.bytes.length < s.bytes.length := by
  rw [snappyRead] at h
  split at h
  · cases h
  · cases h
  rename_i sizeBytes s₁ hsize
  obtain ⟨hlength, rfl⟩ := readFull_eq_ok_iff.mp hsize
  split at h
  · split at h <;> cases h
  split at h
  · cases h
  · cases h
  rename_i compressed s₂ hchunk
  have hle := forward_consume _ hchunk
  obtain ⟨⟨uncompressedLength, rest⟩, -, h⟩ := bind_eq_ok.mp h
  dsimp only at h
  split_ifs at h
  · cases h
  · obtain ⟨out, -, h⟩ := bind_eq_ok.mp h
    cases h
    simp only [List.length_append]
    omega

/-- The chunks, which `buf.ReadFrom` reads up to `io.EOF`. -/
def snappyChunks (remaining : ℤ) (s : Stream) : Except FormatError (Bytes × Bytes) :=
  match _h : snappyRead remaining s with
  | .error err => .error err
  | .ok (.ended unread) => .ok ([], unread)
  | .ok (.chunk uncompressed remaining s) => do
    let (rest, unread) ← snappyChunks remaining s
    return (uncompressed ++ rest, unread)
termination_by s.bytes.length
decreasing_by exact snappyRead_lt _h

theorem snappyChunks_of_ended {remaining : ℤ} {s : Stream} {unread : Bytes}
    (h : snappyRead remaining s = .ok (.ended unread)) :
    snappyChunks remaining s = .ok ([], unread) := by
  rw [snappyChunks]
  split
  · rename_i herr
    cases h.symm.trans herr
  · rename_i hended
    cases h.symm.trans hended
    rfl
  · rename_i hchunk
    cases h.symm.trans hchunk

theorem snappyChunks_of_chunk {remaining remaining' : ℤ} {s s' : Stream} {uncompressed : Bytes}
    (h : snappyRead remaining s = .ok (.chunk uncompressed remaining' s')) {out unread : Bytes} :
    snappyChunks remaining s = .ok (out, unread) ↔
      ∃ rest, snappyChunks remaining' s' = .ok (rest, unread) ∧ out = uncompressed ++ rest := by
  rw [snappyChunks]
  split
  · rename_i herr
    cases h.symm.trans herr
  · rename_i hended
    cases h.symm.trans hended
  · rename_i hchunk
    cases h.symm.trans hchunk
    constructor
    · intro h
      obtain ⟨⟨rest, unread⟩, hrest, h⟩ := bind_eq_ok.mp h
      cases h
      exact ⟨rest, hrest, rfl⟩
    · rintro ⟨rest, hrest, rfl⟩
      exact bind_eq_ok.mpr ⟨(rest, unread), hrest, rfl⟩

/-- `snappyFrameReader`: the size of everything, and then the chunks. -/
def snappyFrameReader : Decompressor := fun s => do
  let (b, s) ← readFull 4 s
  snappyChunks (ofBytes b) s

/-- `CompressionCodec`. -/
inductive CompressionCodec where
  /-- `GzipCompression` -/
  | gzip
  /-- `SnappyCompression` -/
  | snappy
  deriving DecidableEq, Repr

/-- `getDecompressor`. A first `gzip.NewReader` that fails leaves a typed nil in `r.decompressor`,
which `close` then dereferences: `Scan` panics there, where the model has the error of `gzip`. -/
def getDecompressor (codecs : Codecs) : CompressionCodec → Decompressor
  | .gzip => codecs.gzip
  | .snappy => snappyFrameReader

/-- What an `io.LimitedReader` lets through. -/
def limited (n : ℕ) (s : Stream) : Stream :=
  ⟨s.bytes.take n, if n ≤ s.bytes.length then .eof else s.ending⟩

/-- `consumeCompressed`. Every byte of the section must have been asked for. -/
def consumeCompressed (d : Decompressor) (n : ℤ) (s : Stream) :
    Except FormatError (Bytes × Stream) := do
  let visible := limited n.toNat s
  let (out, unread) ← d visible
  let taken := visible.bytes.length - unread.length
  if n < 0 then
    throw .panicked
  else if 0 < n - taken then
    throw .unexpectedEOF
  else
    return (out, ⟨s.bytes.drop taken, s.ending⟩)

/-- All that a section may take is its length. -/
theorem forward_consumeCompressed (d : Decompressor) (n : ℤ) :
    Stream.Forward (consumeCompressed d n) := by
  intro s out s' h
  obtain ⟨⟨out', unread⟩, -, h⟩ := bind_eq_ok.mp h
  dsimp only at h
  split_ifs at h
  cases h
  simp

/-! ## The header -/

/-- `Compression`, with the codec where there has to be one. -/
inductive Compression where
  /-- `NoCompression` -/
  | none
  /-- `RecordCompression` -/
  | record (codec : CompressionCodec)
  /-- `BlockCompression` -/
  | block (codec : CompressionCodec)
  deriving DecidableEq, Repr

/-- `Header`. -/
structure Header where
  /-- `Version` -/
  version : ℕ
  /-- `Compression` and `CompressionCodec` -/
  compression : Compression
  /-- `KeyClassName` -/
  keyClassName : Bytes
  /-- `ValueClassName` -/
  valueClassName : Bytes
  /-- `Metadata` -/
  metadata : AList fun _ : Bytes => Bytes
  /-- `SyncMarker` -/
  syncMarker : Bytes

/-- `readString`. The length is one byte. -/
def readString (s : Stream) : Except FormatError (Bytes × Stream) := do
  let (b, s) ← consume 1 s
  consume (ofBytes b) s

/-- The loop of `readMetadata`. -/
def readPairs : ℕ → AList (fun _ : Bytes => Bytes) → Stream →
    Except FormatError (AList (fun _ : Bytes => Bytes) × Stream)
  | 0, metadata, s => .ok (metadata, s)
  | pairs + 1, metadata, s => do
    let (key, s) ← readString s
    let (value, s) ← readString s
    readPairs pairs (metadata.insert key value) s

/-- `readMetadata`. -/
def readMetadata (s : Stream) : Except FormatError (AList (fun _ : Bytes => Bytes) × Stream) := do
  let (b, s) ← consume 4 s
  if 1024 < ofBytes b then
    throw (.pairCount (ofBytes b))
  readPairs (ofBytes b) ∅ s

/-- The class names of the codecs. -/
def CompressionCodec.className : CompressionCodec → Bytes
  | .gzip => ascii "org.apache.hadoop.io.compress.GzipCodec"
  | .snappy => ascii "org.apache.hadoop.io.compress.SnappyCodec"

/-- The codec that `ReadHeader` reads, in a file that is compressed. -/
def readCodec (s : Stream) : Except FormatError (CompressionCodec × Stream) := do
  let (name, s) ← readString s
  if name = CompressionCodec.gzip.className then
    return (.gzip, s)
  else if name = CompressionCodec.snappy.className then
    return (.snappy, s)
  else
    throw (.unsupportedCodec name)

/-- The two flags, and the codec if one of them is set. The flag for blocks goes first. -/
def readCompression (s : Stream) : Except FormatError (Compression × Stream) := do
  let (flags, s) ← consume 2 s
  if 0 < flags.getD 1 0 then
    let (codec, s) ← readCodec s
    return (.block codec, s)
  else if 0 < flags.getD 0 0 then
    let (codec, s) ← readCodec s
    return (.record codec, s)
  else
    return (.none, s)

/-- `SyncSize`. -/
def syncSize : ℕ := 16

/-- `ReadHeader`. -/
def readHeader (s : Stream) : Except FormatError (Header × Stream) := do
  let (magic, s) ← (consume 4 s).mapError .readingMagic
  if magic.take 3 ≠ ascii "SEQ" then
    throw (.invalidMagic magic)
  let version := (magic.getD 3 0).toNat
  if version < 5 then
    throw (.unsupportedVersion version)
  let (keyClassName, s) ← readString s
  let (valueClassName, s) ← readString s
  let (compression, s) ← readCompression s
  let (metadata, s) ← readMetadata s
  let (marker, s) ← consume syncSize s
  return (⟨version, compression, keyClassName, valueClassName, metadata, marker⟩, s)

/-! ## Records -/

/-- What a call of `Scan` does. -/
inductive Scanned (σ : Type) where
  /-- there is a record, and the reader stands behind it -/
  | record (key value : Bytes) (next : σ)
  /-- it returned `false`, with what `Err` returns from then on -/
  | ended (err : Option FormatError)
  deriving Repr

/-- The same, with the reader at the next record as part of something. -/
def Scanned.map {σ τ : Type} (f : σ → τ) : Scanned σ → Scanned τ
  | .record key value next => .record key value (f next)
  | .ended err => .ended err

/-- `checkSync`, the header having been read. -/
def checkSync (marker : Bytes) (s : Stream) : Except FormatError (Unit × Stream) := do
  let (b, s) ← consume syncSize s
  if b ≠ marker then
    throw .syncMarker
  return ((), s)

/-- What is accepted as a sync marker is the one of the header. -/
theorem checkSync_eq_ok {marker : Bytes} {s s' : Stream} (h : checkSync marker s = .ok ((), s')) :
    consume syncSize s = .ok (marker, s') := by
  obtain ⟨⟨b, s₁⟩, hb, h⟩ := bind_eq_ok.mp h
  dsimp only at h
  split_ifs at h with hmarker
  · cases h
  · cases h
    rw [hb, not_not.mp hmarker]

theorem forward_checkSync (marker : Bytes) : Stream.Forward (checkSync marker) :=
  fun _ _ _ h => forward_consume _ (checkSync_eq_ok h)

/-- The value of a record. -/
def consumeValue (codecs : Codecs) (compression : Compression) (n : ℤ) (s : Stream) :
    Except FormatError (Bytes × Stream) :=
  match compression with
  | .record codec => consumeCompressed (getDecompressor codecs codec) n s
  | _ => consume n s

/-- `scanRecord` behind the length of the record. -/
def scanKeyValue (codecs : Codecs) (compression : Compression) (totalLength : ℤ) (s : Stream) :
    Except FormatError ((Bytes × Bytes) × Stream) := do
  let (b, s) ← consume 4 s
  let keyLength := int32 b
  let valueLength := totalLength - keyLength
  if keyLength < 4 then
    throw (.keyLength keyLength)
  let (key, s) ← consume keyLength s
  let (value, s) ← consumeValue codecs compression valueLength s
  return ((key, value), s)

/-- What stands next in a file of records. -/
inductive Stands where
  /-- a sync marker, and the reader is behind it now -/
  | sync (next : Stream)
  /-- a record, or the end -/
  | scanned (r : Scanned Stream)

/-- `scanRecord` up to the call of itself. A sync marker has `-1` for its length. -/
def scanEntry (codecs : Codecs) (compression : Compression) (marker : Bytes) (s : Stream) : Stands :=
  match consume 4 s with
  | .error err => .scanned (.ended err.unlessEOF)
  | .ok (b, s) =>
    if int32 b = -1 then
      match checkSync marker s with
      | .error err => .scanned (.ended (some err))
      | .ok (_, s) => .sync s
    else if int32 b < 8 then
      .scanned (.ended (some (.recordLength (int32 b))))
    else
      match scanKeyValue codecs compression (int32 b) s with
      | .error err => .scanned (.ended (some err))
      | .ok ((key, value), s) => .scanned (.record key value s)

theorem forward_consumeValue (codecs : Codecs) (compression : Compression) (n : ℤ) :
    Stream.Forward (consumeValue codecs compression n) := by
  cases compression with
  | none => exact forward_consume n
  | record codec => exact forward_consumeCompressed _ n
  | block codec => exact forward_consume n

theorem forward_scanKeyValue (codecs : Codecs) (compression : Compression) (n : ℤ) :
    Stream.Forward (scanKeyValue codecs compression n) := by
  intro s r s' h
  obtain ⟨⟨b, s₁⟩, hb, h⟩ := bind_eq_ok.mp h
  dsimp only at h
  split_ifs at h
  · cases h
  · obtain ⟨⟨key, s₂⟩, hkey, h⟩ := bind_eq_ok.mp h
    obtain ⟨⟨value, s₃⟩, hvalue, h⟩ := bind_eq_ok.mp h
    cases h
    exact (forward_consumeValue _ _ _ hvalue).trans
      ((forward_consume _ hkey).trans (forward_consume _ hb))

/-- Whatever stands next, the reader comes closer to the end. -/
theorem scanEntry_lt {codecs : Codecs} {compression : Compression} {marker : Bytes} {s s' : Stream}
    (h : scanEntry codecs compression marker s = .sync s' ∨
      ∃ key value, scanEntry codecs compression marker s = .scanned (.record key value s')) :
    s'.bytes.length < s.bytes.length := by
  rw [scanEntry] at h
  split at h
  · simp at h
  · rename_i b s₁ hlength
    obtain ⟨hfour, rfl⟩ := consume_eq_ok_iff.mp hlength
    have hle : s'.bytes.length ≤ s₁.bytes.length := by
      split_ifs at h with hsync hshort
      · split at h
        · simp at h
        · rename_i s₂ hcheck
          obtain rfl : s₂ = s' := by simpa using h
          exact forward_checkSync _ hcheck
      · simp at h
      · split at h
        · simp at h
        · rename_i key value s₂ hkv
          obtain rfl : s₂ = s' := by simpa using h
          exact forward_scanKeyValue _ _ _ hkv
    simp only [List.length_append]
    omega

/-- `scanRecord`. -/
def scanRecord (codecs : Codecs) (compression : Compression) (marker : Bytes) (s : Stream) :
    Scanned Stream :=
  match _h : scanEntry codecs compression marker s with
  | .sync s' => scanRecord codecs compression marker s'
  | .scanned r => r
termination_by s.bytes.length
decreasing_by exact scanEntry_lt (.inl _h)

theorem scanRecord_of_sync {codecs : Codecs} {compression : Compression} {marker : Bytes}
    {s s' : Stream} (h : scanEntry codecs compression marker s = .sync s') :
    scanRecord codecs compression marker s = scanRecord codecs compression marker s' := by
  rw [scanRecord]
  split
  · rename_i hsync
    cases h.symm.trans hsync
    rfl
  · rename_i hscanned
    cases h.symm.trans hscanned

theorem scanRecord_of_scanned {codecs : Codecs} {compression : Compression} {marker : Bytes}
    {s : Stream} {r : Scanned Stream} (h : scanEntry codecs compression marker s = .scanned r) :
    scanRecord codecs compression marker s = r := by
  rw [scanRecord]
  split
  · rename_i hsync
    cases h.symm.trans hsync
  · rename_i hscanned
    cases h.symm.trans hscanned
    rfl

theorem scanRecord_lt {codecs : Codecs} {compression : Compression} {marker key value : Bytes}
    {s s' : Stream} (h : scanRecord codecs compression marker s = .record key value s') :
    s'.bytes.length < s.bytes.length := by
  fun_induction scanRecord codecs compression marker s with
  | case1 s s₁ hsync ih => exact (ih h).trans (scanEntry_lt (.inl hsync))
  | case2 s r hscanned =>
    subst h
    exact scanEntry_lt (.inr ⟨key, value, hscanned⟩)

/-! ## Blocks -/

/-- `blockReader`: what is left of a block. -/
structure BlockReader where
  /-- `keyLengths`, from `i` on -/
  keyLengths : List ℤ
  /-- `keys`, from `keyOffset` on -/
  keys : Bytes
  /-- `valueLengths`, from `i` on -/
  valueLengths : List ℤ
  /-- `values`, from `valueOffset` on -/
  values : Bytes
  deriving DecidableEq, Repr

/-- `blockReader{}`. -/
def BlockReader.empty : BlockReader := ⟨[], [], [], []⟩

/-- The slice of so many bytes, and what comes behind it. -/
def slice (b : Bytes) (n : ℤ) : Except FormatError (Bytes × Bytes) :=
  if 0 ≤ n ∧ n ≤ b.length then .ok (b.take n.toNat, b.drop n.toNat) else .error .panicked

/-- `next`. -/
def BlockReader.next (b : BlockReader) : Option (Except FormatError (Bytes × Bytes × BlockReader)) :=
  match b.keyLengths, b.valueLengths with
  | [], _ => none
  | _ :: _, [] => some (.error .panicked)
  | keyLength :: keyLengths, valueLength :: valueLengths => some do
    let (key, keys) ← slice b.keys keyLength
    let (value, values) ← slice b.values valueLength
    return (key, value, ⟨keyLengths, keys, valueLengths, values⟩)

/-- `consumeSection`. -/
def consumeSection (d : Decompressor) (s : Stream) : Except FormatError (Bytes × Stream) := do
  let (length, s) ← readVInt s
  consumeCompressed d length s

/-- The loop of `readLengths`. -/
def readEachLength : ℕ → Stream → Except FormatError (List ℤ × Stream)
  | 0, s => .ok ([], s)
  | n + 1, s => do
    let (length, s) ← (readVInt s).mapError fun err => if err = .eof then .unexpectedEOF else err
    let (lengths, s) ← readEachLength n s
    return (length :: lengths, s)

/-- `readLengths`. A slice cannot be made for a negative number of lengths. -/
def readLengths (b : Bytes) (n : ℤ) : Except FormatError (List ℤ) := do
  if n < 0 then
    throw .panicked
  let (lengths, rest) ← readEachLength n.toNat ⟨b, .eof⟩
  if rest.bytes ≠ [] then
    throw .blockLengths
  return lengths

/-- The sections of a block, behind the number of its records. -/
def readSections (d : Decompressor) (n : ℤ) (s : Stream) :
    Except FormatError (BlockReader × Stream) := do
  let (keyLengthsBytes, s) ← consumeSection d s
  let keyLengths ← readLengths keyLengthsBytes n
  let (keys, s) ← consumeSection d s
  let (valueLengthsBytes, s) ← consumeSection d s
  let valueLengths ← readLengths valueLengthsBytes n
  let (values, s) ← consumeSection d s
  return (⟨keyLengths, keys, valueLengths, values⟩, s)

/-- `startBlock`. The length in front of the sync marker is not looked at. -/
def startBlock (d : Decompressor) (marker : Bytes) (s : Stream) :
    Except FormatError (BlockReader × Stream) := do
  let (_, s) ← consume 4 s
  let (_, s) ← checkSync marker s
  let (n, s) ← readVInt s
  readSections d n s

theorem forward_consumeSection (d : Decompressor) : Stream.Forward (consumeSection d) := by
  intro s out s' h
  obtain ⟨⟨length, s₁⟩, hlength, h⟩ := bind_eq_ok.mp h
  exact (forward_consumeCompressed d length h).trans (forward_readVInt hlength)

theorem forward_readSections (d : Decompressor) (n : ℤ) : Stream.Forward (readSections d n) := by
  intro s b s' h
  obtain ⟨⟨_, s₁⟩, h₁, h⟩ := bind_eq_ok.mp h
  obtain ⟨_, -, h⟩ := bind_eq_ok.mp h
  obtain ⟨⟨_, s₂⟩, h₂, h⟩ := bind_eq_ok.mp h
  obtain ⟨⟨_, s₃⟩, h₃, h⟩ := bind_eq_ok.mp h
  obtain ⟨_, -, h⟩ := bind_eq_ok.mp h
  obtain ⟨⟨_, _⟩, h₄, h⟩ := bind_eq_ok.mp h
  cases h
  calc s'.bytes.length
      ≤ s₃.bytes.length := forward_consumeSection d h₄
    _ ≤ s₂.bytes.length := forward_consumeSection d h₃
    _ ≤ s₁.bytes.length := forward_consumeSection d h₂
    _ ≤ s.bytes.length := forward_consumeSection d h₁

/-- A block takes its four bytes of length at least. -/
theorem startBlock_lt {d : Decompressor} {marker : Bytes} {s s' : Stream} {b : BlockReader}
    (h : startBlock d marker s = .ok (b, s')) : s'.bytes.length < s.bytes.length := by
  obtain ⟨⟨_, s₁⟩, hlength, h⟩ := bind_eq_ok.mp h
  obtain ⟨⟨_, s₂⟩, hsync, h⟩ := bind_eq_ok.mp h
  obtain ⟨⟨n, s₃⟩, hn, h⟩ := bind_eq_ok.mp h
  have hrest : s'.bytes.length ≤ s₁.bytes.length :=
    (forward_readSections d n h).trans ((forward_readVInt hn).trans (forward_checkSync _ hsync))
  obtain ⟨hfour, rfl⟩ := consume_eq_ok_iff.mp hlength
  simp only [List.length_append]
  omega

/-- `scanBlock`. -/
def scanBlock (d : Decompressor) (marker : Bytes) (b : BlockReader) (s : Stream) :
    Scanned (BlockReader × Stream) :=
  match b.next with
  | some (.ok (key, value, b)) => .record key value (b, s)
  | some (.error err) => .ended (some err)
  | none =>
    match _h : startBlock d marker s with
    | .error err => .ended err.unlessEOF
    | .ok (b, s') => scanBlock d marker b s'
termination_by s.bytes.length
decreasing_by exact startBlock_lt _h

/-- A block that is used up makes room for the next one. -/
theorem scanBlock_of_next_eq_none {d : Decompressor} {marker : Bytes} {b : BlockReader} {s : Stream}
    (h : b.next = none) :
    scanBlock d marker b s =
      match startBlock d marker s with
      | .error err => .ended err.unlessEOF
      | .ok (b, s') => scanBlock d marker b s' := by
  rw [scanBlock, h]
  dsimp only
  split
  · rename_i err hstart
    rw [hstart]
  · rename_i b s' hstart
    rw [hstart]

/-- A record takes a length away from the block. -/
theorem BlockReader.next_lt {b b' : BlockReader} {key value : Bytes}
    (h : b.next = some (.ok (key, value, b'))) : b'.keyLengths.length < b.keyLengths.length := by
  obtain ⟨_ | ⟨keyLength, keyLengths⟩, keys, _ | ⟨valueLength, valueLengths⟩, values⟩ := b
  · cases h
  · cases h
  · cases h
  · obtain ⟨⟨_, _⟩, -, h⟩ := bind_eq_ok.mp (Option.some.inj h)
    obtain ⟨⟨_, _⟩, -, h⟩ := bind_eq_ok.mp h
    cases h
    exact Nat.lt_succ_self _

/-- A record is taken out of the block at hand, or out of a later one. -/
theorem scanBlock_lt {d : Decompressor} {marker key value : Bytes} {b b' : BlockReader}
    {s s' : Stream} (h : scanBlock d marker b s = .record key value (b', s')) :
    s'.bytes.length < s.bytes.length ∨
      s'.bytes.length = s.bytes.length ∧ b'.keyLengths.length < b.keyLengths.length := by
  fun_induction scanBlock d marker b s with
  | case1 b s key' value' b₁ hnext =>
    cases h
    exact .inr ⟨rfl, BlockReader.next_lt hnext⟩
  | case2 b s err hnext => cases h
  | case3 b s hnext err hstart => cases h
  | case4 b s hnext b₁ s₁ hstart ih =>
    have hlt := startBlock_lt hstart
    rcases ih h with hless | ⟨heq, -⟩ <;> exact .inl (by omega)

/-! ## Files

`Scan` is called until it returns `false`. Each record makes the stream shorter, or the block
that was read last, so this ends for every file. -/

/-- `Reader`, once the header is read. -/
structure Reader where
  /-- `Header` -/
  header : Header
  /-- `block` -/
  block : BlockReader
  /-- `reader` -/
  stream : Stream

/-- `NewReader` and `ReadHeader`. -/
def newReader (s : Stream) : Except FormatError Reader := do
  let (header, s) ← readHeader s
  return ⟨header, .empty, s⟩

/-- `Scan`. -/
def Reader.scan (codecs : Codecs) (r : Reader) : Scanned Reader :=
  match r.header.compression with
  | .block codec =>
    (scanBlock (getDecompressor codecs codec) r.header.syncMarker r.block r.stream).map
      fun (block, stream) => { r with block, stream }
  | compression =>
    (scanRecord codecs compression r.header.syncMarker r.stream).map
      fun stream => { r with stream }

theorem Scanned.map_eq_record {σ τ : Type} {f : σ → τ} {x : Scanned σ} {key value : Bytes} {b : τ}
    (h : x.map f = .record key value b) : ∃ a, x = .record key value a ∧ f a = b := by
  cases x with
  | record key' value' a =>
    cases h
    exact ⟨a, rfl, rfl⟩
  | ended err => cases h

/-- **A record brings the reader closer to the end.** -/
theorem Reader.scan_lt {codecs : Codecs} {r r' : Reader} {key value : Bytes}
    (h : r.scan codecs = .record key value r') :
    r'.stream.bytes.length < r.stream.bytes.length ∨
      r'.stream.bytes.length = r.stream.bytes.length ∧
        r'.block.keyLengths.length < r.block.keyLengths.length := by
  rw [scan] at h
  split at h
  · obtain ⟨⟨block, stream⟩, hblock, rfl⟩ := Scanned.map_eq_record h
    exact scanBlock_lt hblock
  · obtain ⟨stream, hrecord, rfl⟩ := Scanned.map_eq_record h
    exact .inl (scanRecord_lt hrecord)

/-- What `for reader.Scan()` sees of a file: the records, and `Err` at the end. -/
def Reader.readAll (codecs : Codecs) (r : Reader) : List (Bytes × Bytes) × Option FormatError :=
  match _h : r.scan codecs with
  | .ended err => ([], err)
  | .record key value r' =>
    let (records, err) := r'.readAll codecs
    ((key, value) :: records, err)
termination_by (r.stream.bytes.length, r.block.keyLengths.length)
decreasing_by
  rcases Reader.scan_lt _h with hlt | ⟨heq, hlt⟩
  · exact Prod.Lex.left _ _ hlt
  · rw [heq]
    exact Prod.Lex.right _ hlt

theorem Reader.readAll_of_ended {codecs : Codecs} {r : Reader} {err : Option FormatError}
    (h : r.scan codecs = .ended err) : r.readAll codecs = ([], err) := by
  rw [readAll]
  split
  · rename_i h'
    cases h.symm.trans h'
    rfl
  · rename_i h'
    cases h.symm.trans h'

theorem Reader.readAll_of_record {codecs : Codecs} {r r' : Reader} {key value : Bytes}
    (h : r.scan codecs = .record key value r') :
    r.readAll codecs = ((key, value) :: (r'.readAll codecs).1, (r'.readAll codecs).2) := by
  rw [readAll]
  split
  · rename_i h'
    cases h.symm.trans h'
  · rename_i h'
    cases h.symm.trans h'
    rfl

/-- How the reading goes on is settled by the next `Scan`. -/
theorem Reader.readAll_congr {codecs : Codecs} {r r' : Reader} (h : r.scan codecs = r'.scan codecs) :
    r.readAll codecs = r'.readAll codecs := by
  cases hnext : r'.scan codecs with
  | ended err => rw [readAll_of_ended (h.trans hnext), readAll_of_ended hnext]
  | record key value next => rw [readAll_of_record (h.trans hnext), readAll_of_record hnext]

end Sequins.SequenceFile
