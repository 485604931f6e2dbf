import Mathlib.Data.List.ReduceOption
import Mathlib.Data.List.TakeWhile
import Sequins.SequenceBlocks
import Sequins.Loaded
import Sequins.GoString

/-!
# From the bytes of a file to a build

What `addFile` makes of the bytes a backend delivers: the header, the records of the file, and
`unwrapKeyValue` of each. So a `SourceFile`, which was any file before, is one that a stream of
bytes stands for (`fileSource`).

* `headerString_readable_iff` — the header's strings are written as texts, with a number of variable
  length in front, and are read as if that were one byte: right up to 127 bytes and never beyond.
* `text_file_readable_iff` — a file of texts that is not compressed is delivered as it was written
  iff every key has three bytes and every record six, and otherwise there is an error at the first
  record that has not. A text has one byte for its length, where `scanRecord` counts on the four of
  a `BytesWritable`.
* `written_version_answers` — a version that is built from files as they are written, of records or
  of blocks, answers for those of their records that `addFileKeys` Adds.
-/

namespace Sequins.SequenceFile

open ByteStream

/-! ## The header

Hadoop writes the length of a string as a number of variable length, and the source reads one
byte. They agree below 128, where the number takes one byte; from there on the first byte of the
number says how many follow, and the source takes it for the length itself. -/

/-- A string as Hadoop writes it, a `Text`. -/
def writeText (b : Bytes) : Bytes := writeVInt b.length ++ b

/-- What the source takes for the length is the first byte. -/
theorem consume_ofBytes_cons (c : UInt8) (b rest : Bytes) (h : b.length = c.toNat) (ending : Ending) :
    readString ⟨c :: (b ++ rest), ending⟩ = .ok (b, ⟨rest, ending⟩) := by
  have hfirst : consume 1 ⟨[c] ++ (b ++ rest), ending⟩ = .ok ([c], ⟨b ++ rest, ending⟩) :=
    consume_append rfl _ _
  have hlength : ofBytes [c] = c.toNat := by simp [ofBytes]
  rw [← List.singleton_append, readString, bind_of_ok hfirst]
  dsimp only
  rw [hlength]
  exact consume_append (by simpa using h) _ _

theorem writeVInt_of_lt {n : ℕ} (h : n < 128) : writeVInt n = [n.toUInt8] := by
  rw [writeVInt, if_pos (by omega), show ((n : ℤ) % 256).toNat = n by omega]

/-- A string of fewer than 128 bytes is read back. -/
theorem reads_readString {b : Bytes} (h : b.length < 128) : Reads readString (writeText b) b := by
  intro rest ending
  rw [writeText, writeVInt_of_lt h, List.singleton_append, List.cons_append]
  exact consume_ofBytes_cons _ b rest (Nat.mod_eq_of_lt (by omega)).symm ending

/-- **Which strings of the header are read**, whatever comes behind them. -/
theorem headerString_readable_iff (b : Bytes) (hb : b.length < 2 ^ 63) (rest : Bytes)
    (ending : Ending) :
    readString ⟨writeText b ++ rest, ending⟩ = .ok (b, ⟨rest, ending⟩) ↔ b.length < 128 := by
  refine ⟨fun h => ?_, fun h => reads_readString h rest ending⟩
  by_contra hlong
  -- the first byte is read as the length, and the bytes behind it are left in front of the string
  obtain ⟨hone, height⟩ := length_toBytes_bounds (n := b.length) (by omega) (by omega)
  have hwrite : writeVInt b.length =
      (144 - (toBytes b.length).length).toUInt8 :: toBytes b.length := by
    rw [writeVInt, if_neg (by omega), if_pos (by omega), Int.toNat_natCast]
  rw [writeText, hwrite, readString] at h
  obtain ⟨⟨c, s⟩, hc, hread⟩ := bind_eq_ok.mp h
  obtain ⟨hlength, hs⟩ := consume_eq_ok_iff.mp hc
  obtain ⟨-, rfl⟩ := consume_eq_ok_iff.mp hread
  have hlengths := congrArg (fun s => s.bytes.length) hs
  simp only [List.length_append, List.length_cons, hlength] at hlengths
  omega

/-- The last length that is read and the first one that is not. -/
theorem headerString_readable_bounds :
    readString ⟨writeText (List.replicate 127 1) ++ [2], .eof⟩ =
        .ok (List.replicate 127 1, ⟨[2], .eof⟩) ∧
      readString ⟨writeText (List.replicate 128 1) ++ [2], .eof⟩ ≠
        .ok (List.replicate 128 1, ⟨[2], .eof⟩) := by
  have hiff : ∀ n < 2 ^ 63, readString ⟨writeText (List.replicate n 1) ++ [2], .eof⟩ =
      .ok (List.replicate n 1, ⟨[2], .eof⟩) ↔ n < 128 := by
    intro n hn
    have hread := headerString_readable_iff (List.replicate n 1) (by simpa using hn) [2] .eof
    rwa [List.length_replicate] at hread
  exact ⟨(hiff 127 (by norm_num)).mpr (by norm_num), fun h =>
    absurd ((hiff 128 (by norm_num)).mp h) (by norm_num)⟩

/-- A header as it is written, with what makes it one that can be read. -/
structure HeaderText where
  /-- the version of the format -/
  version : UInt8
  /-- the version is one of those that are supported -/
  supported : 5 ≤ version.toNat
  /-- the compression -/
  compression : Compression
  /-- the class of the keys -/
  keyClassName : Bytes
  /-- the name is short -/
  keyClassName_lt : keyClassName.length < 128
  /-- the class of the values -/
  valueClassName : Bytes
  /-- the name is short -/
  valueClassName_lt : valueClassName.length < 128
  /-- the metadata -/
  metadata : List (Bytes × Bytes)
  /-- there are not too many -/
  metadata_le : metadata.length ≤ 1024
  /-- and they are short -/
  metadata_lt : ∀ p ∈ metadata, p.1.length < 128 ∧ p.2.length < 128
  /-- the sync marker -/
  syncMarker : Bytes
  /-- it has sixteen bytes -/
  length_syncMarker : syncMarker.length = syncSize

/-- The two flags and the codec. -/
def Compression.text : Compression → Bytes
  | .none => [0, 0]
  | .record codec => [1, 0] ++ writeText codec.className
  | .block codec => [1, 1] ++ writeText codec.className

/-- The pairs of the metadata. -/
def pairsText (pairs : List (Bytes × Bytes)) : Bytes :=
  pairs.flatMap fun p => writeText p.1 ++ writeText p.2

namespace HeaderText

/-- The bytes of the header. -/
def text (h : HeaderText) : Bytes :=
  (ascii "SEQ" ++ [h.version]) ++ (writeText h.keyClassName ++ (writeText h.valueClassName ++
    (h.compression.text ++ ((fixed 4 h.metadata.length ++ pairsText h.metadata) ++ h.syncMarker))))

/-- What `ReadHeader` makes of it. -/
def header (h : HeaderText) : Header where
  version := h.version.toNat
  compression := h.compression
  keyClassName := h.keyClassName
  valueClassName := h.valueClassName
  metadata := h.metadata.foldl (fun m p => m.insert p.1 p.2) ∅
  syncMarker := h.syncMarker

end HeaderText

theorem reads_readCodec (codec : CompressionCodec) :
    Reads readCodec (writeText codec.className) codec := by
  have hlength : codec.className.length < 128 := by cases codec <;> decide +kernel
  have hne : CompressionCodec.snappy.className ≠ CompressionCodec.gzip.className := by
    decide +kernel
  intro rest ending
  rw [readCodec, bind_of_ok (reads_readString hlength rest ending)]
  cases codec with
  | gzip => simp [pure, Except.pure]
  | snappy => simp [hne, pure, Except.pure]

theorem reads_readCompression (compression : Compression) :
    Reads readCompression compression.text compression := by
  have hflags : ∀ a b : UInt8, Reads (consume 2) [a, b] [a, b] := fun a b => consume_append rfl
  cases compression with
  | none => exact (hflags 0 0).bind (Reads.pure _)
  | record codec =>
    refine (hflags 1 0).bind ?_
    have hread := (reads_readCodec codec).map Compression.record
    exact hread
  | block codec =>
    refine (hflags 1 1).bind ?_
    have hread := (reads_readCodec codec).map Compression.block
    exact hread

/-- By induction on the pairs: a key that is there twice has the last value. -/
theorem reads_readPairs {pairs : List (Bytes × Bytes)}
    (h : ∀ p ∈ pairs, p.1.length < 128 ∧ p.2.length < 128) (m : AList fun _ : Bytes => Bytes) :
    Reads (readPairs pairs.length m) (pairsText pairs)
      (pairs.foldl (fun m p => m.insert p.1 p.2) m) := by
  induction pairs generalizing m with
  | nil => exact Reads.pure _
  | cons p pairs ih =>
    obtain ⟨⟨hkey, hvalue⟩, hpairs⟩ := List.forall_mem_cons.mp h
    rw [pairsText, List.flatMap_cons, List.append_assoc]
    exact (reads_readString hkey).bind ((reads_readString hvalue).bind (ih hpairs _))

theorem reads_readMetadata {pairs : List (Bytes × Bytes)} (hlength : pairs.length ≤ 1024)
    (h : ∀ p ∈ pairs, p.1.length < 128 ∧ p.2.length < 128) :
    Reads readMetadata (fixed 4 pairs.length ++ pairsText pairs)
      (pairs.foldl (fun m p => m.insert p.1 p.2) ∅) := by
  have hcount : Reads (consume 4) (fixed 4 pairs.length) (fixed 4 pairs.length) :=
    consume_append (length_fixed (by omega))
  intro rest ending
  rw [readMetadata, List.append_assoc, bind_of_ok (hcount _ _)]
  simp only [ofBytes_fixed, not_lt.mpr hlength, if_false]
  exact reads_readPairs h ∅ rest ending

/-- **The header is read back.** -/
theorem reads_readHeader (h : HeaderText) : Reads readHeader h.text h.header := by
  have hmagic : Reads (consume 4) (ascii "SEQ" ++ [h.version]) (ascii "SEQ" ++ [h.version]) :=
    consume_append rfl
  have htake : (ascii "SEQ" ++ [h.version]).take 3 = ascii "SEQ" := rfl
  have hversion : (ascii "SEQ" ++ [h.version]).getD 3 0 = h.version := rfl
  have hmarker : Reads (consume syncSize) h.syncMarker h.syncMarker :=
    consume_append h.length_syncMarker
  unfold readHeader
  refine (hmagic.mapError .readingMagic).bind ?_
  simp only [htake, hversion, ne_eq, not_true_eq_false, if_false, not_lt.mpr h.supported]
  refine (reads_readString h.keyClassName_lt).bind ?_
  dsimp only
  refine (reads_readString h.valueClassName_lt).bind ?_
  dsimp only
  refine (reads_readCompression h.compression).bind ?_
  dsimp only
  refine (reads_readMetadata h.metadata_le h.metadata_lt).bind ?_
  exact hmarker.map fun marker => Header.mk h.version.toNat h.compression h.keyClassName
    h.valueClassName (h.metadata.foldl (fun m p => m.insert p.1 p.2) ∅) marker

/-! ## Keys and values -/

/-- `BytesWritableClassName`. -/
def bytesWritableClassName : Bytes := ascii "org.apache.hadoop.io.BytesWritable"

/-- `TextClassName`. -/
def textClassName : Bytes := ascii "org.apache.hadoop.io.Text"

/-- `BytesWritable`, or `none` for the panic. -/
def bytesWritable (b : Bytes) : Option Bytes := if 4 ≤ b.length then some (b.drop 4) else none

/-- `Text`, or `none` for the panic. -/
def text (b : Bytes) : Option Bytes :=
  match readVInt ⟨b, .eof⟩ with
  | .error _ => none
  | .ok (n, rest) => if n = rest.bytes.length then some rest.bytes else none

/-- What `unwrapKeyValue` does to a key or to a value. -/
def unwrap (className b : Bytes) : Option Bytes :=
  if className = bytesWritableClassName then
    bytesWritable b
  else if className = textClassName then
    text b
  else
    some b

/-- `unwrapKeyValue`, which recovers from the panics. -/
def unwrapKeyValue (header : Header) (record : Bytes × Bytes) : Except ReadError (Bytes × Bytes) :=
  match unwrap header.keyClassName record.1, unwrap header.valueClassName record.2 with
  | some key, some value => .ok (key, value)
  | _, _ => .error .unwrap

/-- A key or a value as it is written. -/
def wrap (className b : Bytes) : Bytes :=
  if className = bytesWritableClassName then
    int32Bytes b.length ++ b
  else if className = textClassName then
    writeText b
  else
    b

/-- **What is wrapped is unwrapped.** -/
theorem unwrap_wrap (className : Bytes) {b : Bytes} (hb : b.length < 2 ^ 63) :
    unwrap className (wrap className b) = some b := by
  rw [unwrap, wrap]
  split_ifs
  · rw [bytesWritable, List.length_append, length_int32Bytes, if_pos (by omega),
      List.drop_left' (length_int32Bytes _)]
  · have hread := readVInt_writeVInt (i := (b.length : ℤ)) (by omega) (by omega) b .eof
    rw [text, writeText, hread]
    exact if_pos rfl
  · rfl

/-! ## Files as a build sees them

`fileSource` is what the model of a build was given so far as an arbitrary `SourceFile`. A file
that was written as the format says is delivered record by record, so the theorems about builds
hold for bytes. -/

/-- What `addFile` sees of a file that it could open. A panic of the reader, which nobody recovers
from, is not among it. -/
def fileSource (codecs : Codecs) (disp : Bytes) (s : Stream) : Option SourceFile :=
  match newReader s with
  | .error _ =>
    some { disp, canceled := false, opens := true, header := false, records := [], readerErr := none }
  | .ok r =>
    let (records, err) := r.readAll codecs
    if err = some .panicked then
      none
    else
      some
        { disp
          canceled := false
          opens := true
          header := true
          records := records.map fun kv =>
            (unwrapKeyValue r.header kv).map fun (key, value) => (key, (value, .ok))
          readerErr := err.map fun _ => .reader }

theorem newReader_text (h : HeaderText) (body : Bytes) (ending : Ending) :
    newReader ⟨h.text ++ body, ending⟩ = .ok ⟨h.header, .empty, ⟨body, ending⟩⟩ := by
  rw [newReader, bind_of_ok (reads_readHeader h body ending)]
  rfl

/-- A record, wrapped as the header says. -/
def HeaderText.wrap (h : HeaderText) (r : Bytes × Bytes) : Bytes × Bytes :=
  (SequenceFile.wrap h.keyClassName r.1, SequenceFile.wrap h.valueClassName r.2)

/-- **If records come out of the file as they were wrapped, they are delivered**, and then the
error of the reader, if there is one. -/
theorem fileSource_of_readAll {codecs : Codecs} {head : HeaderText} {records : List (Bytes × Bytes)}
    (hlt : ∀ r ∈ records, r.1.length < 2 ^ 63 ∧ r.2.length < 2 ^ 63) {body : Bytes}
    {err : Option FormatError}
    (hread : (Reader.mk head.header .empty ⟨body, .eof⟩).readAll codecs =
      (records.map head.wrap, err)) (hpanic : err ≠ some .panicked) (disp : Bytes) :
    fileSource codecs disp ⟨head.text ++ body, .eof⟩ =
      some { SourceFile.ok disp records with readerErr := err.map fun _ => .reader } := by
  have hunwrap : ∀ r ∈ records, unwrapKeyValue head.header (head.wrap r) = .ok r := by
    intro r hr
    have hkey := unwrap_wrap head.keyClassName (hlt r hr).1
    have hvalue := unwrap_wrap head.valueClassName (hlt r hr).2
    simp only [unwrapKeyValue, HeaderText.wrap, HeaderText.header, hkey, hvalue]
  rw [fileSource, newReader_text]
  simp only [hread, hpanic, if_false, SourceFile.ok, List.map_map]
  refine congrArg some (congrArg (fun rs => SourceFile.mk disp false true true rs _) ?_)
  refine List.map_congr_left fun r hr => ?_
  rw [Function.comp_apply, hunwrap r hr]
  rfl

/-- What stands behind a header, for records that are wrapped already. -/
inductive Body (codecs : Codecs) (header : Header) : List (Bytes × Bytes) → Bytes → Prop where
  /-- entries -/
  | records (h : header.Records) {entries : List Entry}
      (hvalid : ∀ e ∈ entries, e.Valid codecs header.compression) :
      Body codecs header (contents entries) (entriesBytes header.syncMarker entries)
  /-- blocks -/
  | blocks {codec : CompressionCodec} (h : header.compression = .block codec)
      {blocks : List StoredBlock}
      (hblocks : ∀ b ∈ blocks, Writable (getDecompressor codecs codec) b) :
      Body codecs header (recordsOf blocks) (writeBlocks header.syncMarker blocks)

/-- Entries one by one, or blocks: either way the records come out, and then the end. -/
theorem Body.readAll {codecs : Codecs} {header : Header} {records : List (Bytes × Bytes)}
    {body : Bytes} (h : Body codecs header records body)
    (hmarker : header.syncMarker.length = syncSize) :
    (Reader.mk header .empty ⟨body, .eof⟩).readAll codecs = (records, none) := by
  cases h with
  | records hrecords hvalid => exact entries_read hrecords hmarker hvalid
  | blocks hblock hblocks => exact blocks_read hblock hmarker hblocks

/-- A file as it is written. -/
structure WrittenFile (codecs : Codecs) where
  /-- `DisplayPath` -/
  disp : Bytes
  /-- the header -/
  head : HeaderText
  /-- the records -/
  records : List (Bytes × Bytes)
  /-- there are numbers for their lengths -/
  records_lt : ∀ r ∈ records, r.1.length < 2 ^ 63 ∧ r.2.length < 2 ^ 63
  /-- what stands behind the header -/
  body : Bytes
  /-- it holds the records -/
  written : Body codecs head.header (records.map head.wrap) body

/-- The bytes of the file. -/
def WrittenFile.stream {codecs : Codecs} (f : WrittenFile codecs) : Stream :=
  ⟨f.head.text ++ f.body, .eof⟩

/-- **A file is delivered as it was written.** -/
theorem WrittenFile.fileSource_eq {codecs : Codecs} (f : WrittenFile codecs) :
    fileSource codecs f.disp f.stream = some (.ok f.disp f.records) :=
  fileSource_of_readAll f.records_lt (f.written.readAll f.head.length_syncMarker) nofun f.disp

/-- **From the bytes to the answers.** A version built from files as they are written answers for
the records in them that are loaded, if nothing else fails. -/
theorem written_version_answers {codecs : Codecs} (files : List (WrittenFile codecs))
    (hfiles : files ≠ []) (name : Bytes) (created : ℕ) {partitions : Partitions}
    (hlocal : partitions.localPartitions = ∅) (compression : Sequins.Compression) (blockSize : ℤ)
    (order : IterOrder (Σ _ : ℤ, BlockWriter)) :
    ∃ sources, files.mapM (fun f => fileSource codecs f.disp f.stream) = some sources ∧
      ((newVersion name created files.length partitions .empty compression blockSize).build
          ⟨true, sources, ⟨order, fun _ => .ok, .ok⟩⟩).Loaded
        files.length partitions.selected
        (loaded files.length partitions.selected
          (files.map fun f => (f.disp, f.records))) := by
  refine ⟨files.map fun f => .ok f.disp f.records, ?_, ?_⟩
  · exact GoString.mapM_of_forall fun f _ => f.fileSource_eq
  · have hne : (files.map fun f => (f.disp, f.records)) ≠ [] := by simpa using hfiles
    have hloaded := builtVersion_loaded name created compression blockSize order hlocal hne
    rw [builtVersion, BuildEnv.ok, List.map_map, List.length_map] at hloaded
    exact hloaded

/-- A header without metadata. -/
def plainHead (compression : Compression) (className : Bytes) (h : className.length < 128) :
    HeaderText where
  version := 6
  supported := by decide
  compression := compression
  keyClassName := className
  keyClassName_lt := h
  valueClassName := className
  valueClassName_lt := h
  metadata := []
  metadata_le := by decide
  metadata_lt := List.forall_mem_nil _
  syncMarker := List.replicate 16 0
  length_syncMarker := rfl

/-- A header for texts. -/
def textHead : HeaderText := plainHead .none textClassName (by decide +kernel)

/-- Two entries with a sync marker between them. -/
def twoEntries : List Entry :=
  [.record 10 [0, 0, 0, 1, 97] [0, 0, 0, 1, 49] [0, 0, 0, 1, 49], .sync,
    .record 10 [0, 0, 0, 1, 98] [0, 0, 0, 1, 50] [0, 0, 0, 1, 50]]

/-- Two records of a file that is not compressed. -/
def bytesFile : WrittenFile markedCodecs where
  disp := ascii "part-00000"
  head := plainHead .none bytesWritableClassName (by decide +kernel)
  records := [(ascii "a", ascii "1"), (ascii "b", ascii "2")]
  records_lt := by decide +kernel
  body := entriesBytes (List.replicate 16 0) twoEntries
  written := by
    have hvalid : ∀ e ∈ twoEntries, e.Valid markedCodecs .none := by
      simp [twoEntries, Entry.Valid, StoredAs]
    have hwrap : ([(ascii "a", ascii "1"), (ascii "b", ascii "2")].map (plainHead .none
        bytesWritableClassName (by decide +kernel)).wrap) = contents twoEntries := by
      decide +kernel
    rw [hwrap]
    exact .records (fun codec h => by cases h) hvalid

/-- Two texts in a block. -/
def blockFile : WrittenFile markedCodecs where
  disp := ascii "part-00001"
  head := plainHead (.block .gzip) textClassName (by decide +kernel)
  records := [(ascii "c", ascii "3"), (ascii "d", ascii "4")]
  records_lt := by decide +kernel
  body := writeBlocks (List.replicate 16 0) [markedBlock [([1, 99], [1, 51]), ([1, 100], [1, 52])]]
  written := by
    have hwritable : Writable (getDecompressor markedCodecs .gzip)
        (markedBlock [([1, 99], [1, 51]), ([1, 100], [1, 52])]) :=
      writable_markedBlock (by decide +kernel) (by decide) (by decide) (by decide)
    have hwrap : ([(ascii "c", ascii "3"), (ascii "d", ascii "4")].map (plainHead (.block .gzip)
        textClassName (by decide +kernel)).wrap) = [([1, 99], [1, 51]), ([1, 100], [1, 52])] := by
      decide +kernel
    rw [hwrap]
    exact Body.blocks rfl (List.forall_mem_singleton.mpr hwritable)

/-- The four records are found. -/
theorem written_version_answers_twoFiles :
    ∃ sources, [bytesFile, blockFile].mapM (fun f => fileSource markedCodecs f.disp f.stream) =
        some sources ∧
      ∀ r ∈ bytesFile.records ++ blockFile.records,
        ((newVersion [] 0 2 ⟨none, 2, {0, 1}, ∅, fun _ => [], 1, 0, false⟩ .empty .none 0).build
          ⟨true, sources, ⟨.stored _, fun _ => .ok, .ok⟩⟩).blockStore.store.get r.1 =
            .ok (some ⟨r.2.length, r.2⟩) := by
  have hlocal : (⟨none, 2, {0, 1}, ∅, fun _ => [], 1, 0, false⟩ : Partitions).localPartitions = ∅ :=
    rfl
  obtain ⟨sources, hsources, hloaded⟩ :=
    written_version_answers [bytesFile, blockFile] (by simp) [] 0 hlocal .none 0 (.stored _)
  refine ⟨sources, hsources, fun r hr => (hloaded.get r.1).trans ?_⟩
  revert r
  decide +kernel

/-! ## Files of texts

`scanRecord` refuses a record of fewer than eight bytes, and a key of fewer than four, which
makes sense for a `BytesWritable` with its four bytes of length. A `Text` has a shorter length in
front, so files with short texts are refused from the first such record on. -/

/-- The entry of a record of texts, or a sync marker. -/
def textEntry : Option (Bytes × Bytes) → Entry
  | none => .sync
  | some r => .record ((writeText r.1).length + (writeText r.2).length) (writeText r.1)
      (writeText r.2) (writeText r.2)

/-- The texts of a record are long enough for `scanRecord`. -/
def LongTexts (r : Bytes × Bytes) : Prop := 3 ≤ r.1.length ∧ 6 ≤ r.1.length + r.2.length

instance (r : Bytes × Bytes) : Decidable (LongTexts r) := inferInstanceAs (Decidable (_ ∧ _))

/-- The number in front of a text takes a byte at least. -/
theorem length_writeText_le (b : Bytes) : b.length + 1 ≤ (writeText b).length := by
  have hpos : (writeVInt b.length).length ≠ 0 := by
    rw [writeVInt]
    split_ifs <;> simp
  rw [writeText, List.length_append]
  omega

theorem length_writeText_of_lt {b : Bytes} (h : b.length < 128) :
    (writeText b).length = b.length + 1 := by
  rw [writeText, writeVInt_of_lt h, List.length_append, List.length_singleton, add_comm]

/-- What `scanRecord` asks of an entry, in terms of its texts. -/
theorem longEnough_textEntry_iff (r : Bytes × Bytes) :
    (textEntry (some r)).LongEnough ↔ LongTexts r := by
  have hkey := length_writeText_le r.1
  have hvalue := length_writeText_le r.2
  have hkey' := length_writeText_of_lt (b := r.1)
  have hvalue' := length_writeText_of_lt (b := r.2)
  rw [textEntry, Entry.LongEnough, LongTexts]
  omega

/-- Sync markers are not delivered. -/
theorem contents_textEntry {head : HeaderText} (hkeys : head.keyClassName = textClassName)
    (hvalues : head.valueClassName = textClassName) (items : List (Option (Bytes × Bytes))) :
    contents (items.map textEntry) = items.reduceOption.map head.wrap := by
  have hne : textClassName ≠ bytesWritableClassName := by decide +kernel
  have hwrap : ∀ r, head.wrap r = (writeText r.1, writeText r.2) := by
    intro r
    simp only [HeaderText.wrap, SequenceFile.wrap, hkeys, hvalues, hne, if_false, if_true]
  induction items with
  | nil => rfl
  | cons item items ih =>
    rw [List.map_cons, contents, List.flatMap_cons, ← contents, ih]
    cases item with
    | none => rfl
    | some r =>
      rw [List.reduceOption_cons_of_some, List.map_cons, hwrap]
      rfl

/-- A sync marker, or a record that is long enough. -/
def longItem (item : Option (Bytes × Bytes)) : Bool := item.all fun r => decide (LongTexts r)

theorem forall_longItem_iff (items : List (Option (Bytes × Bytes))) :
    (∀ item ∈ items, longItem item = true) ↔ ∀ r, some r ∈ items → LongTexts r := by
  constructor
  · intro h r hr
    simpa [longItem] using h (some r) hr
  · intro h item hitem
    cases item with
    | none => rfl
    | some r => simpa [longItem] using h r hitem

/-- If a record is too short, the items go on with one behind those that are long enough. -/
theorem exists_first_short {items : List (Option (Bytes × Bytes))}
    (h : ¬ ∀ r, some r ∈ items → LongTexts r) :
    ∃ r after, items = items.takeWhile longItem ++ some r :: after ∧ ¬ LongTexts r := by
  have hsplit := List.takeWhile_append_dropWhile (p := longItem) (l := items)
  have hfirst := List.head?_dropWhile_not longItem items
  cases hrest : items.dropWhile longItem with
  | nil => exact absurd ((forall_longItem_iff items).mp (List.dropWhile_eq_nil_iff.mp hrest)) h
  | cons item after =>
    rw [hrest] at hsplit hfirst
    cases item with
    | none => cases hfirst
    | some r => exact ⟨r, after, hsplit.symm, by simpa [longItem] using hfirst⟩

section TextFiles

variable {codecs : Codecs} {head : HeaderText} {items : List (Option (Bytes × Bytes))}

/-- An entry of texts is written as it is, without compression. -/
theorem written_textEntry (hnone : head.compression = .none) {r : Bytes × Bytes}
    (hlt : (writeText r.1).length + (writeText r.2).length < 2 ^ 31) :
    (textEntry (some r)).Written codecs head.header.compression := by
  refine ⟨rfl, by exact_mod_cast hlt, ?_⟩
  rw [HeaderText.header, hnone]
  exact ⟨(Int.toNat_natCast _).symm, rfl⟩

/-- And can be read if the texts are long enough. -/
theorem valid_textEntry (hnone : head.compression = .none)
    (hlt : ∀ r, some r ∈ items → (writeText r.1).length + (writeText r.2).length < 2 ^ 31)
    (hlong : ∀ r, some r ∈ items → LongTexts r) :
    ∀ e ∈ items.map textEntry, e.Valid codecs head.header.compression := by
  rintro e he
  obtain ⟨item, hitem, rfl⟩ := List.mem_map.mp he
  cases item with
  | none => trivial
  | some r =>
    exact (written_textEntry hnone (hlt r hitem)).valid
      ((longEnough_textEntry_iff r).mpr (hlong r hitem))

theorem length_lt_of_mem_reduceOption
    (hlt : ∀ r, some r ∈ items → (writeText r.1).length + (writeText r.2).length < 2 ^ 31) :
    ∀ r ∈ items.reduceOption, r.1.length < 2 ^ 63 ∧ r.2.length < 2 ^ 63 := by
  intro r hr
  have hlength := hlt r (List.reduceOption_mem_iff.mp hr)
  have hkey := length_writeText_le r.1
  have hvalue := length_writeText_le r.2
  omega

/-- **Short texts cannot be read.** A file of texts that is not compressed, with sync markers
anywhere, is delivered as it was written iff each key has at least three bytes and each record at
least six. If not, the records before the first short one are delivered, and then an error. -/
theorem text_file_readable_iff (hnone : head.compression = .none)
    (hkeys : head.keyClassName = textClassName) (hvalues : head.valueClassName = textClassName)
    (hlt : ∀ r, some r ∈ items → (writeText r.1).length + (writeText r.2).length < 2 ^ 31)
    (disp : Bytes) :
    (fileSource codecs disp
        ⟨head.text ++ entriesBytes head.syncMarker (items.map textEntry), .eof⟩ =
        some (.ok disp items.reduceOption) ↔ ∀ r, some r ∈ items → LongTexts r) ∧
    ((¬ ∀ r, some r ∈ items → LongTexts r) →
      fileSource codecs disp
          ⟨head.text ++ entriesBytes head.syncMarker (items.map textEntry), .eof⟩ =
        some { SourceFile.ok disp (items.takeWhile longItem).reduceOption with
          readerErr := some .reader }) := by
  have hrecords : head.header.Records := by
    intro codec hblock
    exact absurd (hnone.symm.trans hblock) (by simp)
  by_cases hlong : ∀ r, some r ∈ items → LongTexts r
  · have hread : (Reader.mk head.header .empty _).readAll codecs = _ :=
      entries_read hrecords head.length_syncMarker (valid_textEntry hnone hlt hlong)
    rw [contents_textEntry hkeys hvalues] at hread
    have hsource := fileSource_of_readAll (length_lt_of_mem_reduceOption hlt) hread nofun disp
    exact ⟨iff_of_true hsource hlong, fun h => absurd hlong h⟩
  · -- reading goes on up to the first record that is too short
    obtain ⟨r, after, hitems, hshort⟩ := exists_first_short hlong
    have hfront : ∀ r', some r' ∈ items.takeWhile longItem →
        (writeText r'.1).length + (writeText r'.2).length < 2 ^ 31 :=
      fun r' hr' => hlt r' (List.takeWhile_subset _ hr')
    have hr : some r ∈ items := by
      rw [hitems]
      exact List.mem_append_right _ (List.mem_cons_self ..)
    have hlongFront := (forall_longItem_iff (items.takeWhile longItem)).mp fun item =>
      List.mem_takeWhile_imp
    obtain ⟨err, hpanic, hread⟩ : ∃ err, err ≠ .panicked ∧
        (Reader.mk head.header .empty _).readAll codecs = (_, some err) :=
      readAll_short hrecords head.length_syncMarker (valid_textEntry hnone hfront hlongFront)
        (written_textEntry hnone (hlt r hr)) (mt (longEnough_textEntry_iff r).mp hshort)
        (after.map textEntry)
    rw [contents_textEntry hkeys hvalues, ← List.map_cons, ← List.map_append, ← hitems] at hread
    have hsource := fileSource_of_readAll (length_lt_of_mem_reduceOption hfront) hread
      (by simpa using hpanic) disp
    refine ⟨iff_of_false (fun h => ?_) hlong, fun _ => hsource⟩
    have herr := congrArg SourceFile.readerErr (Option.some.inj (hsource.symm.trans h))
    cases herr

end TextFiles

/-- Of a file with a record that is long enough and one that is not, the first record is
delivered. -/
theorem text_file_unreadable_oneByte :
    fileSource noCodecs [] ⟨textHead.text ++ entriesBytes textHead.syncMarker
        ([some ([1, 2, 3], [4, 5, 6]), none, some ([1], [2])].map textEntry), .eof⟩ =
      some { SourceFile.ok [] [([1, 2, 3], [4, 5, 6])] with readerErr := some .reader } := by
  have hlt : ∀ r, some r ∈ [some (([1, 2, 3], [4, 5, 6]) : Bytes × Bytes), none, some ([1], [2])] →
      (writeText r.1).length + (writeText r.2).length < 2 ^ 31 := by
    intro r hr
    obtain rfl | rfl : r = ([1, 2, 3], [4, 5, 6]) ∨ r = ([1], [2]) := by simpa using hr
    all_goals decide +kernel
  have hshort : ¬ ∀ r, some r ∈ [some (([1, 2, 3], [4, 5, 6]) : Bytes × Bytes), none,
      some ([1], [2])] → LongTexts r :=
    fun h => absurd (h ([1], [2]) (by simp)) (by decide)
  exact (text_file_readable_iff rfl rfl rfl hlt []).2 hshort

end Sequins.SequenceFile
