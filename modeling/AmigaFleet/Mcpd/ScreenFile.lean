import AmigaFleet.Lib.Rows
import AmigaFleet.Mcpd.Screen

/-!
# The file of a screenshot

* `capture_rows`: the capture buffer holds the scanlines of the screen.
* `writeAll_some` and `writeAll_short`: the writes of a file one after another.
* `screenshot_valid`: a screenshot that succeeds leaves a PNG file that decodes to the
  screen, and a write that falls short leaves no file.
-/

namespace AmigaFleet.Mcpd.Screenshot

open AmigaFleet.Lib
open Png (Rgb Image)
open Fs (Volume ZCode)

/-! ## The capture buffer -/

/-- The pixels of a row. -/
def line (pixel : Nat → Nat → Rgb) (width y : Nat) : Bytes :=
  (List.range width).flatMap fun x => (pixel x y).bytes

theorem length_line (pixel : Nat → Nat → Rgb) (width y : Nat) :
    (line pixel width y).length = width * 3 := by
  rw [line, List.length_flatMap]
  simp [Rgb.bytes]

/-- What the screen shows. -/
def Screen.image (s : Screen) : Image :=
  { width := s.width.toInt.toNat
    height := s.height.toInt.toNat
    rows := (List.range s.height.toInt.toNat).map fun y =>
      (List.range s.width.toInt.toNat).map fun x => s.pixel x y }

theorem scanlines_image (s : Screen) :
    Png.scanlines s.image.rows = ((List.range s.height.toInt.toNat).map fun y =>
      0 :: line s.pixel s.width.toInt.toNat y).flatten := by
  rw [Png.scanlines, Screen.image, List.flatMap_map, ← List.flatMap_def]
  simp only [line, List.flatMap_map]

/-- The captured pixels stand behind the first byte of their row. -/
theorem rowwise_pixels (pixel : Nat → Nat → Rgb) (width : Nat) :
    Rows.Rowwise (1 + width * 3)
      (fun buf y => patch 0 buf (1 + y * (1 + width * 3)) (line pixel width y))
      (fun y row => row.take 1 ++ line pixel width y) := by
  intro y front row back hfront hrow
  have hline := length_line pixel width y
  have hwhole : patch 0 row 1 (line pixel width y) = row.take 1 ++ line pixel width y := by
    rw [patch, List.drop_eq_nil_of_le (by omega), Nat.sub_eq_zero_of_le (by omega)]
    simp
  show patch 0 _ (1 + y * (1 + width * 3)) _ = _
  rw [← hfront, Nat.add_comm, patch_append_left, patch_append_right 0 (by omega), hwhole]

theorem rowwise_filters (stride : Nat) (hstride : 0 < stride) :
    Rows.Rowwise stride (fun (raw : Bytes) r => raw.set (r * stride) 0)
      (fun _ row => row.set 0 0) := by
  intro r front row back hfront hrow
  show List.set _ (r * stride) 0 = _
  rw [← hfront, List.set_append_right _ _ (Nat.le_refl _), Nat.sub_self,
    List.set_append_left _ _ (by omega)]

/-- Whatever the memory held before, the buffer is the rows behind filter bytes. -/
theorem capture_rows (pixel : Nat → Nat → Rgb) (width height : Nat) {raw : Bytes}
    (hraw : raw.length = height * (1 + width * 3)) :
    clearFilters (readPixelArray pixel raw 1 (1 + width * 3) width height) (1 + width * 3) height =
      ((List.range height).map fun y => 0 :: line pixel width y).flatten := by
  obtain ⟨rows, hcount, hrows, hflat⟩ := Rows.exists_rows hraw
  have hpixels : ∀ y (row : Bytes), row.length = 1 + width * 3 →
      (row.take 1 ++ line pixel width y).length = 1 + width * 3 := by
    intro y row hrow
    rw [List.length_append, List.length_take, length_line]
    omega
  have hread := Rows.foldl_rows (rowwise_pixels pixel width) hpixels hrows
  have hfilled : ∀ row ∈ rows.mapIdx (fun y row => row.take 1 ++ line pixel width y),
      row.length = 1 + width * 3 := by
    intro row hrow
    obtain ⟨y, hy, heq⟩ := List.mem_mapIdx.mp hrow
    rw [← heq]
    exact hpixels y _ (hrows _ (List.getElem_mem hy))
  have hclear := Rows.foldl_rows (rowwise_filters (1 + width * 3) (by omega))
    (fun _ row hrow => by rw [List.length_set, hrow]) hfilled
  rw [List.length_mapIdx, hcount] at hclear
  rw [hcount] at hread
  have hrow : ∀ y, ∀ row ∈ rows, (row.take 1 ++ line pixel width y).set 0 0 = 0 :: line pixel width y := by
    intro y row hmem
    obtain ⟨first, rest, heq⟩ := List.exists_cons_of_length_pos (l := row) (by
      rw [hrows row hmem]
      omega)
    rw [heq]
    rfl
  show List.foldl _ (List.foldl _ raw (List.range height)) (List.range height) = _
  rw [hflat]
  refine (congrArg (fun buf => List.foldl _ buf (List.range height)) hread).trans (hclear.trans ?_)
  rw [List.mapIdx_mapIdx, ← hcount]
  exact congrArg List.flatten (Rows.mapIdx_eq_map_range hrow)

/-- The width of a screen is far from the 32 bits. -/
theorem rowstride_eq (width : Int16) :
    rowstride width.toInt.toNat = 1 + width.toInt.toNat * 3 := by
  have hlt := width.toInt_lt
  exact Nat.mod_eq_of_lt (by omega)

theorem length_rows (s : Screen) : s.image.rows.length = s.image.height := by
  rw [Screen.image, List.length_map, List.length_range]

theorem length_of_mem_rows {s : Screen} {row : List Rgb} (h : row ∈ s.image.rows) :
    row.length = s.image.width := by
  obtain ⟨y, _, rfl⟩ := List.mem_map.mp h
  rw [List.length_map, List.length_range, Screen.image]

/-- A capture that succeeds shows the screen that stood there under the second lock. -/
theorem captureRaw_ok {sys : ShotSystem} {screenIndex : Nat} {target : Screen} {raw : Bytes}
    (h : captureRaw sys screenIndex = .ok (target, raw)) :
    ∃ s, sys.screensLater[screenIndex]? = some s ∧
      (s.width = target.width ∧ s.height = target.height) ∧
      (0 < s.width.toInt ∧ 0 < s.height.toInt) ∧
      raw = Png.scanlines s.image.rows ∧ raw.length ≤ shotRawMax := by
  unfold captureRaw at h
  split at h
  · cases h
  split at h
  · cases h
  dsimp only at h
  split at h
  · cases h
  split at h
  · cases h
  rename_i hsize
  split at h
  · cases h
  rename_i hmax
  split at h
  · cases h
  rename_i memory _
  split at h
  · cases h
  rename_i s hlater
  split at h
  · rename_i hsame
    obtain ⟨rfl, hraw⟩ := Prod.mk.inj (Except.ok.inj h)
    rw [← hsame.2.1, ← hsame.2.2, rowstride_eq] at hraw hmax
    rw [← hsame.2.1, ← hsame.2.2] at hsize
    have hlines : raw = Png.scanlines s.image.rows := by
      rw [← hraw, scanlines_image]
      apply capture_rows
      rw [List.length_map, List.length_range, Nat.mul_comm]
    refine ⟨s, hlater, hsame.2, by omega, hlines, ?_⟩
    rw [hlines, Png.length_scanlines fun _ => length_of_mem_rows, length_rows, Nat.mul_comm]
    exact Nat.le_of_not_gt hmax
  · cases h

/-! ## The contract of z.library -/

/-- `CRC32` goes on from a checksum, and a stream that `Deflate` has finished is one of its
input; `inflate` is the decompression of the format.  The bound of a stream is little more
than the length of its input. -/
structure ZIFace.Correct (z : ZIFace) (inflate : Bytes → Option Bytes) : Prop where
  crc : ∀ crc data, z.crc32 crc data = Crc32.update crc data
  stream : ∀ raw room comp, z.deflate raw room = (.streamEnd, comp) → inflate comp = some raw
  room : ∀ raw room, (z.deflate raw room).2.length ≤ room
  bound : ∀ n ≤ shotRawMax, z.deflateBound n < 2 ^ 31

variable {z : ZIFace} {inflate : Bytes → Option Bytes}

theorem deflateRaw_ok (hz : z.Correct inflate) {sys : ShotSystem} {raw comp : Bytes}
    (hraw : raw.length ≤ shotRawMax) (h : deflateRaw z sys raw = .ok comp) :
    inflate comp = some raw ∧ comp.length < 2 ^ 31 := by
  unfold deflateRaw at h
  split at h
  · cases h
  dsimp only at h
  split at h
  · cases h
  split at h
  · rename_i stream hdeflate
    have hcomp : stream = comp := Except.ok.inj h
    rw [hcomp] at hdeflate
    have hroom := hz.room raw (z.deflateBound raw.length)
    rw [hdeflate] at hroom
    exact ⟨hz.stream _ _ _ hdeflate, Nat.lt_of_le_of_lt hroom (hz.bound _ hraw)⟩
  · cases h

/-- The stream of a shot holds the screen. -/
structure Shows (inflate : Bytes → Option Bytes) (shot : Shot) (s : Screen) : Prop where
  width : shot.width = s.image.width
  height : shot.height = s.image.height
  positive : 0 < s.width.toInt ∧ 0 < s.height.toInt
  stream : inflate shot.comp = some (Png.scanlines s.image.rows)
  short : shot.comp.length < 2 ^ 31

theorem takeShot_ok (hz : z.Correct inflate) {sys : ShotSystem} {screenIndex : Nat} {shot : Shot}
    (h : takeShot z sys screenIndex = .ok shot) :
    ∃ s, sys.screensLater[screenIndex]? = some s ∧ Shows inflate shot s := by
  unfold takeShot at h
  split at h
  · cases h
  rename_i target raw hcapture
  obtain ⟨s, hlater, hsame, hpositive, hraw, hmax⟩ := captureRaw_ok hcapture
  split at h
  · cases h
  rename_i comp hdeflate
  obtain ⟨hstream, hshort⟩ := deflateRaw_ok hz hmax hdeflate
  rw [hraw] at hstream
  rw [← Except.ok.inj h]
  exact ⟨s, hlater, by rw [← hsame.1]; rfl, by rw [← hsame.2]; rfl, hpositive, hstream, hshort⟩

/-! ## The writes -/

/-- The `i`-th call of `Write` does not take all of its data. -/
def Short (room : Nat → Option Nat) (i : Nat) (data : Bytes) : Prop :=
  ∃ n, room i = some n ∧ n < data.length

theorem write_short {room : Nat → Option Nat} {fh : FileHandle} {data : Bytes}
    (h : Short room fh.calls data) : write room data fh = none := by
  obtain ⟨n, hroom, hn⟩ := h
  have hlen : (data.take ((room fh.calls).getD data.length)).length ≠ data.length := by
    rw [hroom, Option.getD_some, List.length_take]
    omega
  exact if_pos hlen

theorem write_whole {room : Nat → Option Nat} {fh : FileHandle} {data : Bytes}
    (h : ¬ Short room fh.calls data) :
    write room data fh = some ((), ⟨fh.content ++ data, fh.calls + 1⟩) := by
  have htake : data.take ((room fh.calls).getD data.length) = data := by
    apply List.take_of_length_le
    cases hroom : room fh.calls with
    | none => exact Nat.le_refl _
    | some n => exact Nat.le_of_not_lt fun hn => h ⟨n, hroom, hn⟩
  unfold write
  rw [htake]
  exact if_neg fun hne => hne rfl

/-- One call of `Write` after another. -/
def writeAll (room : Nat → Option Nat) : List Bytes → Writer Unit
  | [] => pure ()
  | data :: rest => do
    write room data
    writeAll room rest

theorem writeAll_append (room : Nat → Option Nat) (front back : List Bytes) :
    writeAll room (front ++ back) = (writeAll room front >>= fun _ => writeAll room back) := by
  induction front with
  | nil => rfl
  | cons data front ih =>
    rw [List.cons_append, writeAll, writeAll, ih]
    exact (bind_assoc _ _ _).symm

/-- A call that falls short ends the writing. -/
theorem writeAll_short {room : Nat → Option Nat} {pieces : List Bytes} {fh : FileHandle} {i : Nat}
    {data : Bytes} (hget : pieces[i]? = some data) (h : Short room (fh.calls + i) data) :
    writeAll room pieces fh = none := by
  induction pieces generalizing fh i with
  | nil => cases hget
  | cons piece pieces ih =>
    show (write room piece fh).bind _ = none
    by_cases hpiece : Short room fh.calls piece
    · rw [write_short hpiece]
      rfl
    · rw [write_whole hpiece]
      cases i with
      | zero =>
        rw [List.getElem?_cons_zero] at hget
        rw [← Option.some.inj hget] at h
        exact absurd h hpiece
      | succ i =>
        rw [List.getElem?_cons_succ] at hget
        apply ih hget
        show Short room (fh.calls + 1 + i) data
        rw [Nat.add_assoc, Nat.add_comm 1]
        exact h

/-- Without such a call everything is in the file. -/
theorem writeAll_whole {room : Nat → Option Nat} {pieces : List Bytes} {fh : FileHandle}
    (h : ∀ i data, pieces[i]? = some data → ¬ Short room (fh.calls + i) data) :
    writeAll room pieces fh =
      some ((), ⟨fh.content ++ pieces.flatten, fh.calls + pieces.length⟩) := by
  induction pieces generalizing fh with
  | nil =>
    rw [List.flatten_nil, List.append_nil]
    rfl
  | cons piece pieces ih =>
    show (write room piece fh).bind _ = _
    rw [write_whole (h 0 piece rfl), List.flatten_cons, ← List.append_assoc, List.length_cons,
      Nat.add_comm pieces.length, ← Nat.add_assoc]
    show writeAll room pieces ⟨fh.content ++ piece, fh.calls + 1⟩ = _
    apply ih
    intro i data hget
    show ¬ Short room (fh.calls + 1 + i) data
    rw [Nat.add_assoc, Nat.add_comm 1]
    exact h (i + 1) data hget

/-! ## The chunks -/

/-- The writes of a chunk; empty data are not written. -/
def chunkWrites (z : ZIFace) (type data : Bytes) : List Bytes :=
  let crc := z.crc32 (z.crc32 0 []) type
  [header data.length, type] ++ (if data.length ≠ 0 then [data] else []) ++
    [header (if data.length ≠ 0 then z.crc32 crc data else crc).toNat]

theorem pngChunk_eq (z : ZIFace) (room : Nat → Option Nat) (type data : Bytes) :
    pngChunk z room type data = writeAll room (chunkWrites z type data) := by
  unfold pngChunk chunkWrites
  by_cases hdata : data.length ≠ 0
  · simp only [if_pos hdata, List.cons_append, List.nil_append, writeAll, bind_pure_unit]
  · simp only [if_neg hdata, List.cons_append, List.nil_append, writeAll, bind_pure_unit]

/-- The writes of a screenshot. -/
def shotWrites (z : ZIFace) (shot : Shot) : List Bytes :=
  sig :: (chunkWrites z (ascii "IHDR") (ihdr shot.width shot.height) ++
    (chunkWrites z (ascii "IDAT") shot.comp ++ chunkWrites z (ascii "IEND") []))

theorem pngFile_eq (z : ZIFace) (room : Nat → Option Nat) (shot : Shot) :
    pngFile z room shot = writeAll room (shotWrites z shot) := by
  rw [pngFile, pngChunk_eq, pngChunk_eq, pngChunk_eq, shotWrites, writeAll, writeAll_append,
    writeAll_append]

/-- The writes of a chunk make up the chunk. -/
theorem flatten_chunkWrites (hz : z.Correct inflate) (c : Png.Chunk) :
    (chunkWrites z c.type c.data).flatten = c.bytes := by
  have htype : z.crc32 (z.crc32 0 []) c.type = Crc32.crc32 c.type := by
    rw [hz.crc, hz.crc, Crc32.update_nil, Crc32.crc32]
  have hboth : z.crc32 (Crc32.crc32 c.type) c.data = Crc32.crc32 (c.type ++ c.data) := by
    rw [hz.crc, Crc32.crc32, Crc32.update_append, Crc32.crc32]
  unfold chunkWrites Png.Chunk.bytes
  rw [htype]
  by_cases hdata : c.data.length ≠ 0
  · simp only [if_pos hdata, hboth, List.flatten_append, List.flatten_cons, List.flatten_nil,
      List.append_nil, List.append_assoc]
  · have hnil : c.data = [] := List.length_eq_zero_iff.mp (not_not.mp hdata)
    simp only [if_neg hdata, List.flatten_append, List.flatten_cons, List.flatten_nil,
      List.append_nil, List.append_assoc]
    rw [hnil, List.append_nil, List.nil_append]

theorem flatten_shotWrites (hz : z.Correct inflate) {shot : Shot} (short : shot.comp.length < 2 ^ 31) :
    (shotWrites z shot).flatten = Png.encode shot.width shot.height shot.comp short := by
  have hheader := flatten_chunkWrites hz (Png.ihdr shot.width shot.height)
  have hdata := flatten_chunkWrites hz (Png.idat shot.comp short)
  have hend := flatten_chunkWrites hz Png.iend
  have hfields : (Png.ihdr shot.width shot.height).data = ihdr shot.width shot.height :=
    (List.append_assoc _ _ _).symm
  rw [hfields] at hheader
  simp only [shotWrites, Png.encode, List.flatten_cons, List.flatten_append, List.flatMap_cons, List.flatMap_nil,
    List.append_nil]
  rw [← hheader, ← hdata, ← hend]
  rfl

/-! ## The call -/

/-- What `wb_screenshot` does once the shot is taken and the file is open. -/
theorem wbScreenshot_eq {sys : ShotSystem} {params : Option CJson} {shot : Shot}
    (hshot : takeShot z sys (screenIndex params) = .ok shot) (hopen : sys.opens = true)
    (volume : Volume) :
    wbScreenshot (some z) sys volume params =
      closeShot volume (shotPath params) (shotResult (shotPath params) (screenIndex params) shot)
        (writeAll sys.room (shotWrites z shot) ⟨[], 0⟩) := by
  unfold wbScreenshot
  dsimp only
  rw [hshot]
  dsimp only
  rw [if_neg (by rw [hopen]; decide), pngFile_eq]

/-- All writes are done. -/
theorem wbScreenshot_whole {sys : ShotSystem} {params : Option CJson} {shot : Shot}
    (hshot : takeShot z sys (screenIndex params) = .ok shot) (hopen : sys.opens = true)
    (hall : ∀ i data, (shotWrites z shot)[i]? = some data → ¬ Short sys.room i data)
    (volume : Volume) :
    wbScreenshot (some z) sys volume params =
      (Function.update volume (shotPath params) (some (shotWrites z shot).flatten),
        .ok (shotResult (shotPath params) (screenIndex params) shot)) := by
  have hwrites : writeAll sys.room (shotWrites z shot) ⟨[], 0⟩ =
      some ((), ⟨[] ++ (shotWrites z shot).flatten, 0 + (shotWrites z shot).length⟩) := by
    apply writeAll_whole
    intro i data hget
    rw [Nat.zero_add]
    exact hall i data hget
  rw [wbScreenshot_eq hshot hopen, hwrites]
  rfl

/-- A write falls short. -/
theorem wbScreenshot_short {sys : ShotSystem} {params : Option CJson} {shot : Shot}
    (hshot : takeShot z sys (screenIndex params) = .ok shot) (hopen : sys.opens = true) {i : Nat}
    {data : Bytes} (hget : (shotWrites z shot)[i]? = some data) (hfails : Short sys.room i data)
    (volume : Volume) :
    wbScreenshot (some z) sys volume params =
      (Function.update volume (shotPath params) none,
        .error (targetError "write error while saving PNG" (shotPath params))) := by
  have hwrites : writeAll sys.room (shotWrites z shot) ⟨[], 0⟩ = none := by
    apply writeAll_short hget
    rw [Nat.zero_add]
    exact hfails
  rw [wbScreenshot_eq hshot hopen, hwrites]
  rfl

/-- A call that succeeds has taken a shot and opened the file. -/
theorem wbScreenshot_ok {sys : ShotSystem} {volume : Volume} {params : Option CJson} {r : CJson}
    (h : (wbScreenshot (some z) sys volume params).2 = .ok r) :
    ∃ shot, takeShot z sys (screenIndex params) = .ok shot ∧ sys.opens = true := by
  unfold wbScreenshot at h
  dsimp only at h
  split at h
  · cases h
  rename_i shot hshot
  split at h
  · cases h
  rename_i hopen
  exact ⟨shot, hshot, (Bool.not_eq_false _).mp hopen⟩

/-- The file of a shot decodes to the screen. -/
theorem decode_shot (hz : z.Correct inflate) {shot : Shot} {s : Screen} (h : Shows inflate shot s) :
    Png.decode inflate (shotWrites z shot).flatten = some s.image ∧
      (shotWrites z shot).flatten.length = 57 + shot.comp.length := by
  have hw := s.width.toInt_lt
  have hh := s.height.toInt_lt
  have hpos := h.positive
  have hwidth : s.image.width = s.width.toInt.toNat := rfl
  have hheight : s.image.height = s.height.toInt.toNat := rfl
  rw [flatten_shotWrites hz h.short, h.width, h.height]
  refine ⟨?_, Png.length_encode _ _ _⟩
  apply Png.decode_encode h.short h.stream
  · omega
  · omega
  · exact length_rows s
  · exact fun _ => length_of_mem_rows

/-- A screenshot that succeeds leaves a PNG file of the screen, and reports its length.
Once the file is open the call succeeds unless a write falls short, whichever it is; then
it is an error, and there is no file. -/
theorem screenshot_valid (hz : z.Correct inflate) (sys : ShotSystem) (volume : Volume)
    (params : Option CJson) :
    let path := shotPath params
    let result := wbScreenshot (some z) sys volume params
    (∀ r, result.2 = .ok r → ∃ s file, sys.screensLater[screenIndex params]? = some s ∧
      result.1 = Function.update volume path (some file) ∧
      Png.decode inflate file = some s.image ∧
      r.getItem (ascii "bytes") = some (cNumber file.length)) ∧
    ∀ shot, takeShot z sys (screenIndex params) = .ok shot → sys.opens = true →
      (∀ i data, (shotWrites z shot)[i]? = some data → Short sys.room i data →
        (∃ err, result.2 = .error err) ∧ result.1 = Function.update volume path none) ∧
      ((∀ i data, (shotWrites z shot)[i]? = some data → ¬ Short sys.room i data) →
        ∃ r, result.2 = .ok r) := by
  intro path result
  constructor
  · intro r hr
    obtain ⟨shot, hshot, hopen⟩ := wbScreenshot_ok hr
    obtain ⟨s, hlater, hshows⟩ := takeShot_ok hz hshot
    obtain ⟨hdecode, hlength⟩ := decode_shot hz hshows
    have hall : ∀ i data, (shotWrites z shot)[i]? = some data → ¬ Short sys.room i data := by
      intro i data hget hfails
      have hresult : result = _ := wbScreenshot_short hshot hopen hget hfails volume
      rw [hresult] at hr
      cases hr
    have hresult : result = _ := wbScreenshot_whole hshot hopen hall volume
    rw [hresult] at hr ⊢
    refine ⟨s, _, hlater, rfl, hdecode, ?_⟩
    rw [hlength, ← Except.ok.inj hr]
    show some (cNumber (8 + (12 + 13) + (12 + shot.comp.length) + (12 + 0) : Nat)) = _
    congr 2
    omega
  · intro shot hshot hopen
    constructor
    · intro i data hget hfails
      have hresult : result = _ := wbScreenshot_short hshot hopen hget hfails volume
      rw [hresult]
      exact ⟨⟨_, rfl⟩, rfl⟩
    · intro hall
      have hresult : result = _ := wbScreenshot_whole hshot hopen hall volume
      rw [hresult]
      exact ⟨_, rfl⟩

/-- The scanlines of two rows of two pixels, and what zlib makes of them. -/
def sampleRows : Bytes := [0, 1, 2, 3, 4, 5, 6, 0, 7, 8, 9, 10, 11, 12]

def sampleStream : Bytes :=
  [120, 156, 99, 96, 100, 98, 102, 97, 101, 99, 96, 231, 224, 228, 226, 230, 1, 0, 1, 143, 0, 79]

def sampleZ : ZIFace :=
  { deflateInit := true
    deflateBound := fun n => n + n / 2 ^ 12 + n / 2 ^ 14 + n / 2 ^ 25 + 13
    deflate := fun raw room =>
      if raw = sampleRows ∧ sampleStream.length ≤ room then (.streamEnd, sampleStream) else (.other, [])
    crc32 := Crc32.update }

def sampleInflate (comp : Bytes) : Option Bytes := if comp = sampleStream then some sampleRows else none

theorem sampleZ_correct : sampleZ.Correct sampleInflate where
  crc _ _ := rfl
  stream raw room comp h := by
    simp only [sampleZ] at h
    split at h
    · rename_i hraw
      rw [← (Prod.mk.inj h).2, hraw.1]
      exact if_pos rfl
    · cases (Prod.mk.inj h).1
  room raw room := by
    simp only [sampleZ]
    split
    · rename_i hraw
      exact hraw.2
    · exact Nat.zero_le _
  bound n hn := by
    simp only [sampleZ, shotRawMax] at *
    omega

def sampleScreen : Screen :=
  { address := 0x1000, width := 2, height := 2, depth := 32
    pixel := fun x y => ⟨.ofNat (6 * y + 3 * x + 1), .ofNat (6 * y + 3 * x + 2),
      .ofNat (6 * y + 3 * x + 3)⟩ }

/-- A system with this screen, which gives the write of the stream this much room. -/
def sampleSystem (room : Option Nat) : ShotSystem :=
  { screens := [sampleScreen], screensLater := [sampleScreen], rawMemory := some fun _ => 1
    room := fun i => if i = 7 then room else none }

theorem screenshot_valid_sample :
    (∃ file, (wbScreenshot (some sampleZ) (sampleSystem none) (fun _ => none) none).1 =
        Function.update (fun _ => none) shotDefaultPath (some file) ∧
      Png.decode sampleInflate file = some sampleScreen.image) ∧
    (wbScreenshot (some sampleZ) (sampleSystem (some 21)) (fun _ => some []) none).1 =
      Function.update (fun _ => some []) shotDefaultPath none := by
  have hshot : ∀ room, takeShot sampleZ (sampleSystem room) (screenIndex none) =
      .ok ⟨2, 2, 32, sampleStream⟩ := fun _ => rfl
  constructor
  · obtain ⟨hvalid, hwrites⟩ :=
      screenshot_valid sampleZ_correct (sampleSystem none) (fun _ => none) none
    have hroom : ∀ i, (sampleSystem none).room i = none := fun i => ite_self none
    obtain ⟨r, hr⟩ := (hwrites _ (hshot none) rfl).2 fun i data _ hfails => by
      obtain ⟨n, hn, _⟩ := hfails
      rw [hroom] at hn
      cases hn
    obtain ⟨s, file, hlater, hfile, hdecode, _⟩ := hvalid r hr
    have hs : sampleScreen = s := Option.some.inj hlater
    rw [hs]
    exact ⟨file, hfile, hdecode⟩
  · obtain ⟨_, hwrites⟩ :=
      screenshot_valid sampleZ_correct (sampleSystem (some 21)) (fun _ => some []) none
    exact ((hwrites _ (hshot (some 21)) rfl).1 7 sampleStream rfl ⟨21, rfl, by decide⟩).2

end AmigaFleet.Mcpd.Screenshot
