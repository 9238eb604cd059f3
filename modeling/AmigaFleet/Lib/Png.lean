import AmigaFleet.Lib.Crc32

/-!
# PNG

The datastream of the PNG specification: the signature and chunks, each with its
length and checksum, and among them the header, the compressed scanlines and the end.
`decode` reads truecolour images of eight bits a sample that are not interlaced, with
all five filter types; the decompression is a parameter.

* `readChunk_bytes` and `readChunks_bytes` read chunks back.
* `unfilter_plain` reads scanlines back that are stored as they are.
* `decode_encode`: a file that holds a compressed image is decoded to the image.
-/

namespace AmigaFleet.Lib.Png

open Crc32 (crc32)

/-! ## Pictures -/

/-- A pixel of eight bits a sample. -/
structure Rgb where
  red : UInt8
  green : UInt8
  blue : UInt8
deriving DecidableEq, Repr

def Rgb.bytes (p : Rgb) : Bytes := [p.red, p.green, p.blue]

structure Image where
  width : Nat
  height : Nat
  rows : List (List Rgb)
deriving DecidableEq, Repr

/-! ## Chunks -/

/-- `137 P N G CR LF 26 LF` -/
def signature : Bytes := [137, 80, 78, 71, 13, 10, 26, 10]

def IHDR : Bytes := [73, 72, 68, 82]
def PLTE : Bytes := [80, 76, 84, 69]
def IDAT : Bytes := [73, 68, 65, 84]
def IEND : Bytes := [73, 69, 78, 68]

def isLetter (b : UInt8) : Bool := (65 ≤ b && b ≤ 90) || (97 ≤ b && b ≤ 122)

/-- A chunk type is four letters. -/
def IsType (type : Bytes) : Prop := type.length = 4 ∧ type.all isLetter = true

instance (type : Bytes) : Decidable (IsType type) := inferInstanceAs (Decidable (_ ∧ _))

structure Chunk where
  type : Bytes
  data : Bytes
  isType : IsType type
  short : data.length < 2 ^ 31

/-- The length, the type, the data, and the checksum of the type and the data. -/
def Chunk.bytes (c : Chunk) : Bytes :=
  header c.data.length ++ (c.type ++ (c.data ++ header (crc32 (c.type ++ c.data)).toNat))

/-- A chunk that a decoder may leave out: its type starts with a small letter. -/
def Chunk.ancillary (c : Chunk) : Bool := c.type.head?.any (97 ≤ ·)

def readBytes (n : Nat) (bytes : Bytes) : Option (Bytes × Bytes) :=
  if n ≤ bytes.length then some (bytes.take n, bytes.drop n) else none

def readChunk (bytes : Bytes) : Option (Chunk × Bytes) := do
  let (len, bytes) ← readBytes 4 bytes
  let (type, bytes) ← readBytes 4 bytes
  let (data, bytes) ← readBytes (be32 len) bytes
  let (crc, bytes) ← readBytes 4 bytes
  if h : (IsType type ∧ data.length < 2 ^ 31) ∧ be32 crc = (crc32 (type ++ data)).toNat then
    some (⟨type, data, h.1.1, h.1.2⟩, bytes)
  else none

/-- All chunks of a datastream; nothing follows `IEND`, which has no data. -/
def readChunks : Nat → Bytes → Option (List Chunk)
  | 0, _ => none
  | n + 1, bytes => do
    let (c, rest) ← readChunk bytes
    if c.type = IEND then
      if c.data = [] ∧ rest = [] then some [c] else none
    else (readChunks n rest).map (c :: ·)

/-- The data of the `IDAT` chunks, which follow each other. -/
def imageData (chunks : List Chunk) : Option Bytes :=
  let others := chunks.dropWhile fun c => c.type ≠ IDAT
  let idats := others.takeWhile fun c => c.type = IDAT
  if (chunks.takeWhile fun c => c.type ≠ IDAT).all (fun c => c.ancillary || c.type = PLTE) ∧
      (others.dropWhile fun c => c.type = IDAT).all (fun c => c.ancillary || c.type = IEND) ∧
      idats ≠ [] then
    some (idats.flatMap Chunk.data)
  else none

/-! ## The header -/

structure Header where
  width : Nat
  height : Nat
  bitDepth : UInt8
  colourType : UInt8
  compression : UInt8
  filter : UInt8
  interlace : UInt8
deriving DecidableEq, Repr

def readHeader : Bytes → Option Header
  | [w0, w1, w2, w3, h0, h1, h2, h3, bitDepth, colourType, compression, filter, interlace] =>
    some ⟨be32 [w0, w1, w2, w3], be32 [h0, h1, h2, h3], bitDepth, colourType, compression, filter,
      interlace⟩
  | _ => none

/-- The images that `decode` reads. -/
def Header.Truecolour (h : Header) : Prop :=
  (0 < h.width ∧ h.width < 2 ^ 31) ∧ (0 < h.height ∧ h.height < 2 ^ 31) ∧ h.bitDepth = 8 ∧
    h.colourType = 2 ∧ h.compression = 0 ∧ h.filter = 0 ∧ h.interlace = 0

instance (h : Header) : Decidable h.Truecolour := inferInstanceAs (Decidable (_ ∧ _))

/-! ## Scanlines -/

/-- The predictor of the filter type 4. -/
def paeth (a b c : UInt8) : UInt8 :=
  let p : Int := a.toNat + b.toNat - c.toNat
  let pa := (p - a.toNat).natAbs
  let pb := (p - b.toNat).natAbs
  let pc := (p - c.toNat).natAbs
  if pa ≤ pb ∧ pa ≤ pc then a else if pb ≤ pc then b else c

/-- A byte from the filtered one, the byte on the left, the byte above and the one on the
left of that. -/
def recon : UInt8 → Option (UInt8 → UInt8 → UInt8 → UInt8 → UInt8)
  | 0 => some fun x _ _ _ => x
  | 1 => some fun x a _ _ => x + a
  | 2 => some fun x _ b _ => x + b
  | 3 => some fun x a b _ => x + UInt8.ofNat ((a.toNat + b.toNat) / 2)
  | 4 => some fun x a b c => x + paeth a b c
  | _ => none

/-- The byte of the pixel on the left. -/
def leftOf (bpp : Nat) (row : Bytes) (i : Nat) : UInt8 := if i < bpp then 0 else row.getD (i - bpp) 0

/-- The rest of a scanline, behind the bytes `done`. -/
def unfilterRow (bpp : Nat) (f : UInt8 → UInt8 → UInt8 → UInt8 → UInt8) (prior : Bytes) :
    Bytes → Bytes → Bytes
  | done, [] => done
  | done, x :: xs =>
    let i := done.length
    unfilterRow bpp f prior
      (done ++ [f x (leftOf bpp done i) (prior.getD i 0) (leftOf bpp prior i)]) xs

/-- The rows of `stride` bytes from the scanlines, each behind its filter type. -/
def unfilter (bpp stride : Nat) : Nat → Bytes → Bytes → Option (List Bytes)
  | 0, _, data => if data = [] then some [] else none
  | _ + 1, _, [] => none
  | n + 1, prior, type :: data => do
    let (line, data) ← readBytes stride data
    let f ← recon type
    let row := unfilterRow bpp f prior [] line
    (unfilter bpp stride n row data).map (row :: ·)

def pixels : Bytes → List Rgb
  | red :: green :: blue :: rest => ⟨red, green, blue⟩ :: pixels rest
  | _ => []

/-! ## The decoder -/

/-- The image that a header announces. -/
def readRows (inflate : Bytes → Option Bytes) (h : Header) (chunks : List Chunk) : Option Image :=
  if h.Truecolour then do
    let stream ← imageData chunks
    let data ← inflate stream
    let rows ← unfilter 3 (3 * h.width) h.height (List.replicate (3 * h.width) 0) data
    some ⟨h.width, h.height, rows.map pixels⟩
  else none

def readImage (inflate : Bytes → Option Bytes) : List Chunk → Option Image
  | [] => none
  | first :: chunks =>
    if first.type = IHDR then (readHeader first.data).bind fun h => readRows inflate h chunks else none

def decode (inflate : Bytes → Option Bytes) (file : Bytes) : Option Image :=
  if file.take 8 = signature then (readChunks file.length (file.drop 8)).bind (readImage inflate)
  else none

/-! ## A file with one image -/

def headerBytes (width height : Nat) : Bytes := header width ++ (header height ++ [8, 2, 0, 0, 0])

def ihdr (width height : Nat) : Chunk :=
  ⟨IHDR, headerBytes width height, by decide, by
    show (13 : Nat) < 2 ^ 31
    decide⟩

def idat (stream : Bytes) (short : stream.length < 2 ^ 31) : Chunk := ⟨IDAT, stream, by decide, short⟩

def iend : Chunk := ⟨IEND, [], by decide, by decide⟩

def encode (width height : Nat) (stream : Bytes) (short : stream.length < 2 ^ 31) : Bytes :=
  signature ++ [ihdr width height, idat stream short, iend].flatMap Chunk.bytes

/-- The scanlines of rows that are not filtered. -/
def scanlines (rows : List (List Rgb)) : Bytes := rows.flatMap fun row => 0 :: row.flatMap Rgb.bytes

/-! ## Reading back -/

theorem readBytes_append {n : Nat} {front : Bytes} (h : front.length = n) (rest : Bytes) :
    readBytes n (front ++ rest) = some (front, rest) := by
  rw [readBytes, if_pos (by rw [List.length_append]; omega), List.take_left' h, List.drop_left' h]

theorem readChunk_bytes (c : Chunk) (rest : Bytes) : readChunk (c.bytes ++ rest) = some (c, rest) := by
  have hlen : be32 (header c.data.length) = c.data.length := be32_header (Nat.lt_trans c.short (by decide))
  have hcrc : be32 (header (crc32 (c.type ++ c.data)).toNat) = (crc32 (c.type ++ c.data)).toNat :=
    be32_header (UInt32.toNat_lt _)
  rw [readChunk, Chunk.bytes, List.append_assoc, readBytes_append (header_length _),
    Option.bind_eq_bind, Option.bind_some]
  dsimp only
  rw [hlen, List.append_assoc, readBytes_append c.isType.1, Option.bind_some]
  dsimp only
  rw [List.append_assoc, readBytes_append rfl, Option.bind_some]
  dsimp only
  rw [readBytes_append (header_length _), Option.bind_some]
  dsimp only
  exact dif_pos ⟨⟨c.isType, c.short⟩, hcrc⟩

/-- The chunks of a datastream that ends with `IEND`. -/
theorem readChunks_bytes {chunks : List Chunk} (hchunks : ∀ c ∈ chunks, c.type ≠ IEND) {n : Nat}
    (hn : chunks.length < n) :
    readChunks n ((chunks ++ [iend]).flatMap Chunk.bytes) = some (chunks ++ [iend]) := by
  induction chunks generalizing n with
  | nil =>
    obtain ⟨n, rfl⟩ := Nat.exists_eq_add_of_lt hn
    have hread := readChunk_bytes iend []
    simp only [List.nil_append, List.flatMap_singleton, readChunks, List.append_nil] at hread ⊢
    rw [hread]
    rfl
  | cons c chunks ih =>
    obtain ⟨n, rfl⟩ := Nat.exists_eq_succ_of_ne_zero (Nat.ne_zero_of_lt hn)
    rw [List.forall_mem_cons] at hchunks
    rw [List.length_cons, Nat.succ_lt_succ_iff] at hn
    rw [List.cons_append, List.flatMap_cons, readChunks, readChunk_bytes]
    simp only [Option.bind_eq_bind, Option.bind_some]
    rw [if_neg hchunks.1, ih hchunks.2 hn]
    rfl

theorem unfilterRow_plain (bpp : Nat) (prior done line : Bytes) :
    unfilterRow bpp (fun x _ _ _ => x) prior done line = done ++ line := by
  induction line generalizing done with
  | nil => exact (List.append_nil done).symm
  | cons x line ih => rw [unfilterRow, ih, List.append_assoc, List.singleton_append]

/-- Scanlines of the filter type 0 hold the rows as they are. -/
theorem unfilter_plain (bpp : Nat) {stride : Nat} {rows : List Bytes}
    (hrows : ∀ row ∈ rows, row.length = stride) (prior : Bytes) :
    unfilter bpp stride rows.length prior (rows.flatMap (0 :: ·)) = some rows := by
  induction rows generalizing prior with
  | nil => rfl
  | cons row rows ih =>
    rw [List.forall_mem_cons] at hrows
    rw [List.length_cons, List.flatMap_cons, List.cons_append, unfilter,
      readBytes_append hrows.1]
    simp only [Option.bind_eq_bind, Option.bind_some, recon, unfilterRow_plain, List.nil_append,
      ih hrows.2, Option.map_some]

theorem pixels_bytes (row : List Rgb) : pixels (row.flatMap Rgb.bytes) = row := by
  induction row with
  | nil => rfl
  | cons p row ih =>
    rw [List.flatMap_cons, Rgb.bytes]
    simp only [List.cons_append, List.nil_append, pixels, ih]

theorem length_row (row : List Rgb) : (row.flatMap Rgb.bytes).length = 3 * row.length := by
  rw [List.length_flatMap]
  simp [Rgb.bytes, Nat.mul_comm]

theorem length_scanlines {rows : List (List Rgb)} {width : Nat}
    (hrows : ∀ row ∈ rows, row.length = width) :
    (scanlines rows).length = rows.length * (1 + width * 3) := by
  induction rows with
  | nil => exact (Nat.zero_mul _).symm
  | cons row rows ih =>
    rw [List.forall_mem_cons] at hrows
    have hrest := ih hrows.2
    rw [scanlines] at hrest
    rw [scanlines, List.flatMap_cons, List.length_append, hrest, List.length_cons, length_row,
      hrows.1, List.length_cons, Nat.succ_mul rows.length]
    omega

theorem length_encode (width height : Nat) {stream : Bytes} (short : stream.length < 2 ^ 31) :
    (encode width height stream short).length = 57 + stream.length := by
  simp [encode, Chunk.bytes, ihdr, idat, iend, headerBytes, signature, IHDR, IDAT, IEND]
  omega

theorem readHeader_bytes {width height : Nat} (hwidth : width < 2 ^ 31) (hheight : height < 2 ^ 31) :
    readHeader (headerBytes width height) = some ⟨width, height, 8, 2, 0, 0, 0⟩ := by
  show some (Header.mk (be32 (header width)) (be32 (header height)) 8 2 0 0 0) = _
  rw [be32_header (Nat.lt_trans hwidth (by decide)), be32_header (Nat.lt_trans hheight (by decide))]

theorem imageData_single {stream : Bytes} (short : stream.length < 2 ^ 31) :
    imageData [idat stream short, iend] = some stream := by
  have hidat : (idat stream short).type = IDAT := rfl
  have hiend : iend.type ≠ IDAT := by decide
  have hend : (iend.ancillary || decide (iend.type = IEND)) = true := by decide
  simp [imageData, hidat, hiend, hend]
  rfl

theorem unfilter_scanlines {rows : List (List Rgb)} {width : Nat}
    (hrows : ∀ row ∈ rows, row.length = width) (prior : Bytes) :
    unfilter 3 (3 * width) rows.length prior (scanlines rows) =
      some (rows.map fun row => row.flatMap Rgb.bytes) := by
  have hlines : scanlines rows = (rows.map fun row => row.flatMap Rgb.bytes).flatMap (0 :: ·) := by
    rw [List.flatMap_map, scanlines]
  have hlengths : ∀ line ∈ rows.map (fun row => row.flatMap Rgb.bytes), line.length = 3 * width := by
    intro line hline
    obtain ⟨row, hrow, rfl⟩ := List.mem_map.mp hline
    rw [length_row, hrows row hrow]
  have hplain := unfilter_plain 3 hlengths prior
  rw [hlines, ← hplain, List.length_map]

theorem length_chunks (chunks : List Chunk) :
    chunks.length ≤ (chunks.flatMap Chunk.bytes).length := by
  induction chunks with
  | nil => exact Nat.zero_le _
  | cons c chunks ih =>
    rw [List.flatMap_cons, List.length_append, List.length_cons, Chunk.bytes, List.length_append,
      header_length]
    omega

/-- The chunks of a file behind its signature. -/
theorem decode_chunks (inflate : Bytes → Option Bytes) {chunks : List Chunk}
    (hchunks : ∀ c ∈ chunks, c.type ≠ IEND) :
    decode inflate (signature ++ (chunks ++ [iend]).flatMap Chunk.bytes) =
      readImage inflate (chunks ++ [iend]) := by
  have hlen : chunks.length < (signature ++ (chunks ++ [iend]).flatMap Chunk.bytes).length := by
    have hle := length_chunks (chunks ++ [iend])
    rw [List.length_append, List.length_singleton] at hle
    rw [List.length_append]
    omega
  have hsig : signature.length = 8 := rfl
  rw [decode, if_pos (List.take_left' hsig), List.drop_left' hsig,
    readChunks_bytes hchunks hlen, Option.bind_some]

/-- The file holds the image. -/
theorem decode_encode {inflate : Bytes → Option Bytes} {stream : Bytes}
    (short : stream.length < 2 ^ 31) {image : Image}
    (hinflate : inflate stream = some (scanlines image.rows))
    (hwidth : 0 < image.width ∧ image.width < 2 ^ 31)
    (hheight : 0 < image.height ∧ image.height < 2 ^ 31)
    (hcount : image.rows.length = image.height) (hrows : ∀ row ∈ image.rows, row.length = image.width) :
    decode inflate (encode image.width image.height stream short) = some image := by
  have hchunks : ∀ c ∈ [ihdr image.width image.height, idat stream short], c.type ≠ IEND := by
    simp [ihdr, idat, IHDR, IDAT, IEND]
  have hpixels : (image.rows.map fun row => row.flatMap Rgb.bytes).map pixels = image.rows := by
    rw [List.map_map]
    exact (List.map_congr_left fun row _ => pixels_bytes row).trans (List.map_id _)
  have hrows := unfilter_scanlines hrows (List.replicate (3 * image.width) 0)
  rw [hcount] at hrows
  show decode inflate (signature ++ ([ihdr image.width image.height, idat stream short] ++
    [iend]).flatMap Chunk.bytes) = some image
  rw [decode_chunks inflate hchunks]
  show (if (ihdr image.width image.height).type = IHDR then
    (readHeader (headerBytes image.width image.height)).bind fun h =>
      readRows inflate h [idat stream short, iend] else none) = some image
  rw [if_pos (show (ihdr image.width image.height).type = IHDR from rfl),
    readHeader_bytes hwidth.2 hheight.2, Option.bind_some, readRows,
    if_pos ⟨hwidth, hheight, rfl, rfl, rfl, rfl, rfl⟩, imageData_single]
  simp only [Option.bind_eq_bind, Option.bind_some, hinflate, hrows, hpixels]

end AmigaFleet.Lib.Png
