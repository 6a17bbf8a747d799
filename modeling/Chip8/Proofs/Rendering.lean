import Chip8.Proofs.Frame

/-!
# Rendering

A picture is shown in three ways : as the list of its pixels, as the rows that the list is cut into
(`Picture.chunks`) and as a text with a line for each row. The rows are blocks of one length, and so
are the lines with their ends, hence a place of the list or of the text is a pixel by quotient and
remainder (`Picture.getElem?_pixels`, `Picture.getElem?_text`), and the list is cut just between the
rows (`toChunks_flatMap_block`).

No line has a line end in it, so the text is parted into its lines again, and each line is read back
as its row (`Picture.ofText?_text`). The main statement, `Picture.rendered_paint`, is about the list
that any strokes leave.
-/

namespace Chip8

/-! ## Cutting a list into blocks -/

section Chunks

variable {α β : Type} {block : α → List β} {size : Nat}

/-- The items of a block are gathered up to its end. -/
theorem toChunks_go_append : ∀ (items rest : List β) (gathered : Array β) (done : Array (List β)),
    gathered.size + items.length = size →
      List.toChunks.go size (items ++ rest) gathered done =
        List.toChunks.go size rest (gathered ++ items) done
  | [], _, _, _, _ => by simp
  | b :: items, rest, gathered, done, h => by
    rw [List.length_cons] at h
    have hroom : (gathered.size == size) = false := by
      rw [beq_eq_false_iff_ne]
      omega
    rw [List.cons_append, List.toChunks.go, hroom, if_neg Bool.false_ne_true,
      toChunks_go_append items rest (gathered.push b) done (by rw [Array.size_push]; omega)]
    simp

/-- A block that has been begun is gathered whole. -/
theorem toChunks_go_block (hpos : 0 < size) {items : List β} (hsize : items.length = size)
    (rest : List β) (done : Array (List β)) : ∃ b tail, items = b :: tail ∧
      List.toChunks.go size (tail ++ rest) #[b] done =
        List.toChunks.go size rest items.toArray done := by
  obtain ⟨b, tail, rfl⟩ := List.exists_cons_of_length_pos (hsize ▸ hpos)
  refine ⟨b, tail, rfl, ?_⟩
  rw [toChunks_go_append tail rest #[b] done (by simpa [Nat.add_comm] using hsize)]
  simp

/-- A block that is gathered is done where the next begins. -/
theorem toChunks_go_flatMap_block (hpos : 0 < size) (hsize : ∀ a, (block a).length = size) :
    ∀ (items : List α) (last : Array β) (done : Array (List β)), last.size = size →
      List.toChunks.go size (items.flatMap block) last done =
        done.toList ++ last.toList :: items.map block
  | [], last, done, _ => by simp [List.toChunks.go]
  | a :: items, last, done, h => by
    obtain ⟨b, tail, hblock, hgo⟩ := toChunks_go_block hpos (hsize a) (items.flatMap block)
      (done.push last.toList)
    rw [List.flatMap_cons, List.map_cons, hblock, List.cons_append, List.toChunks.go,
      beq_iff_eq.2 h, if_pos rfl, ← hblock]
    refine hgo.trans ?_
    rw [toChunks_go_flatMap_block hpos hsize items _ _ (by simpa using hsize a)]
    simp

/-- A list made of blocks is cut into the blocks. -/
theorem toChunks_flatMap_block (hpos : 0 < size) (hsize : ∀ a, (block a).length = size) :
    ∀ items : List α, (items.flatMap block).toChunks size = items.map block
  | [] => by simp [List.toChunks]
  | a :: items => by
    obtain ⟨b, tail, hblock, hgo⟩ := toChunks_go_block hpos (hsize a) (items.flatMap block) #[]
    have hfirst : ((a :: items).flatMap block).toChunks size =
        List.toChunks.go size (tail ++ items.flatMap block) #[b] #[] := by
      rw [List.flatMap_cons, hblock, List.cons_append, List.toChunks]
      omega
    rw [hfirst, hgo, toChunks_go_flatMap_block hpos hsize items _ _ (by simpa using hsize a)]
    rfl

end Chunks

namespace Picture

/-! ## Rows -/

/-- The rows, cut out of the list of pixels. -/
def chunks (p : Picture) : List (List Bool) := p.pixels.toChunks 64

theorem chunks_eq (p : Picture) : p.chunks = p.rows.toList.map Vector.toList :=
  toChunks_flatMap_block (by decide) (fun row => row.length_toList) p.rows.toList

theorem getElem?_chunks (p : Picture) (x y : Nat) : p.chunks[y]?.bind (·[x]?) = p.pixel? x y := by
  rw [chunks_eq, List.getElem?_map, Vector.getElem?_toList, pixel?]
  cases p.rows[y]? <;> simp

/-- Pictures with the same list of pixels are equal. -/
theorem eq_of_pixels {p q : Picture} (h : p.pixels = q.pixels) : p = q := by
  refine eq_of_pixel? fun x y => ?_
  rw [← getElem?_chunks, ← getElem?_chunks, chunks, chunks, h]

theorem pixels_blank : blank.pixels = List.replicate 2048 false := by
  refine List.eq_replicate_iff.2 ⟨blank.length_pixels, fun lit hlit => ?_⟩
  obtain ⟨row, hrow, hlit⟩ := List.mem_flatMap.1 hlit
  simp_all [blank]

theorem length_of_mem_chunks {p : Picture} {row : List Bool} (h : row ∈ p.chunks) :
    row.length = 64 := by
  rw [chunks_eq] at h
  obtain ⟨bits, -, rfl⟩ := List.mem_map.1 h
  exact bits.length_toList

theorem length_chunks (p : Picture) : p.chunks.length = 32 := by
  rw [chunks_eq, List.length_map, Vector.length_toList]

/-! ## The text -/

theorem pixelChar_injective : Function.Injective pixelChar := by
  intro lit other h
  cases lit <;> cases other <;> first | rfl | exact absurd h (by decide)

/-- The characters of a row. -/
def line (row : List Bool) : List Char := row.map pixelChar

theorem lineEnd_notMem_line (row : List Bool) : '\n' ∉ line row := by
  intro h
  obtain ⟨lit, -, hlit⟩ := List.mem_map.1 h
  cases lit <;> exact absurd hlit (by decide)

theorem toList_text (p : Picture) :
    p.text.toList = p.chunks.flatMap fun row => line row ++ ['\n'] := by
  rw [text, String.toList_ofList, chunks_eq, List.flatMap_map]
  rfl

theorem length_line (row : Vector Bool 64) : (line row.toList ++ ['\n']).length = 65 := by
  simp [line]

theorem length_text (p : Picture) : p.text.toList.length = 65 * 32 := by
  rw [toList_text, chunks_eq, List.flatMap_map, length_flatMap_block length_line,
    Vector.length_toList]

/-- What is at a place of the text : the rows come in lines of 64 characters and a line end. -/
theorem getElem?_text (p : Picture) (k : Nat) : p.text.toList[k]? =
    p.rows[k / 65]?.bind fun row => (line row.toList ++ ['\n'])[k % 65]? := by
  rw [toList_text, chunks_eq, List.flatMap_map, getElem?_flatMap_block (by decide) length_line,
    Vector.getElem?_toList]

theorem getElem?_text_of_lt (p : Picture) {x : Nat} (hx : x < 64) (y : Nat) :
    p.text.toList[65 * y + x]? = (p.pixel? x y).map pixelChar := by
  have hrow : (65 * y + x) / 65 = y := by omega
  have hcolumn : (65 * y + x) % 65 = x := by omega
  rw [getElem?_text, hrow, hcolumn, pixel?]
  cases p.rows[y]? with
  | none => rfl
  | some row =>
    have hline : x < (line row.toList).length := by simpa [line] using hx
    rw [Option.bind_some, Option.bind_some, List.getElem?_append_left hline, line,
      List.getElem?_map, Vector.getElem?_toList]

theorem getElem?_text_lineEnd (p : Picture) {y : Nat} (hy : y < 32) :
    p.text.toList[65 * y + 64]? = some '\n' := by
  have hrow : (65 * y + 64) / 65 = y := by omega
  have hcolumn : (65 * y + 64) % 65 = 64 := by omega
  rw [getElem?_text, hrow, hcolumn, Vector.getElem?_eq_getElem hy]
  simp [line]

theorem count_line (row : List Bool) : (line row ++ ['\n']).count '#' = row.count true := by
  rw [List.count_append, show '#' = pixelChar true from rfl, line,
    List.count_map_of_injective row pixelChar pixelChar_injective]
  rfl

/-- Each lit pixel has its own character. -/
theorem count_text (p : Picture) : p.text.toList.count '#' = p.lit := by
  rw [toList_text, List.count_flatMap, chunks_eq, lit, pixels, List.count_flatMap, List.map_map]
  simp only [Function.comp_def, count_line]

/-- Pieces with a separator behind each are pieces with separators between them, and an empty piece
at the end. -/
theorem flatMap_eq_intercalate {α : Type} (separator : α) : ∀ pieces : List (List α),
    pieces.flatMap (· ++ [separator]) = [separator].intercalate (pieces ++ [[]])
  | [] => by simp
  | piece :: pieces => by
    rw [List.flatMap_cons, flatMap_eq_intercalate separator pieces, List.cons_append,
      List.intercalate_cons_of_ne_nil (List.append_ne_nil_of_right_ne_nil _ (List.cons_ne_nil _ _))]

theorem splitOn_text (p : Picture) :
    p.text.toList.splitOn '\n' = p.chunks.map line ++ [[]] := by
  have hlines : p.text.toList = ['\n'].intercalate (p.chunks.map line ++ [[]]) := by
    rw [toList_text, ← flatMap_eq_intercalate, List.flatMap_map]
  rw [hlines]
  refine List.splitOn_intercalate '\n' (fun piece hpiece => ?_) (by simp)
  rcases List.mem_append.1 hpiece with h | h
  · obtain ⟨row, -, rfl⟩ := List.mem_map.1 h
    exact lineEnd_notMem_line row
  · rw [List.mem_singleton.1 h]
    exact List.not_mem_nil

/-! ## Reading the text -/

/-- The pixel that a character stands for. -/
def pixelOf? : Char → Option Bool
  | '#' => some true
  | '.' => some false
  | _ => none

/-- The items, if there are as many as there should be. -/
def exactly? {α : Type} (n : Nat) (items : List α) : Option (Vector α n) :=
  if h : items.length = n then some ⟨items.toArray, h⟩ else none

/-- The row of a line. -/
def ofLine? (chars : List Char) : Option (Vector Bool 64) :=
  (chars.mapM pixelOf?).bind (exactly? 64)

/-- The picture of a text, the lines of which are its rows. -/
def ofText? (text : String) : Option Picture :=
  (((text.toList.splitOn '\n').dropLast.mapM ofLine?).bind (exactly? 32)).map Picture.mk

theorem mapM_map_of_some {α β : Type} {write : α → β} {read : β → Option α}
    (h : ∀ a, read (write a) = some a) (items : List α) :
    (items.map write).mapM read = some items := by
  have hread : read ∘ write = fun a => pure a := funext h
  rw [List.mapM_map, hread, List.mapM_pure, List.map_id']
  rfl

theorem exactly?_toList {α : Type} {n : Nat} (v : Vector α n) : exactly? n v.toList = some v := by
  rw [exactly?, dif_pos v.length_toList]
  rfl

theorem ofLine?_line (row : Vector Bool 64) : ofLine? (line row.toList) = some row := by
  have hpixel : ∀ lit, pixelOf? (pixelChar lit) = some lit := fun lit => by cases lit <;> rfl
  rw [ofLine?, line, mapM_map_of_some hpixel, Option.bind_some, exactly?_toList]

/-- The picture is read back from its text. -/
theorem ofText?_text (p : Picture) : ofText? p.text = some p := by
  have hlines : p.chunks.map line = p.rows.toList.map fun row => line row.toList := by
    rw [chunks_eq, List.map_map]
    rfl
  rw [ofText?, splitOn_text, List.dropLast_concat, hlines, mapM_map_of_some ofLine?_line,
    Option.bind_some, exactly?_toList]
  rfl

/-- The list of the pixels, the rows and the text of a picture show the same. -/
structure Rendered (p : Picture) : Prop where
  length_pixels : p.pixels.length = 2048
  length_chunks : p.chunks.length = 32
  length_row : ∀ row ∈ p.chunks, row.length = 64
  isSome_pixel : ∀ x y, (p.pixel? x y).isSome ↔ x < 64 ∧ y < 32
  pixel : ∀ x y, p.pixel? x y = p.chunks[y]?.bind (·[x]?)
  place : ∀ x < 64, ∀ y, p.pixel? x y = p.pixels[64 * y + x]?
  /-- The text is a line for each row. -/
  text : p.text.toList = p.chunks.flatMap fun row => row.map pixelChar ++ ['\n']
  length_text : p.text.toList.length = 65 * 32
  char : ∀ x < 64, ∀ y < 32, p.text.toList[65 * y + x]? =
    some (if p.pixel? x y = some true then '#' else '.')
  lineEnd : ∀ y < 32, p.text.toList[65 * y + 64]? = some '\n'
  read : ofText? p.text = some p
  count : p.text.toList.count '#' = p.lit

theorem rendered (p : Picture) : p.Rendered where
  length_pixels := p.length_pixels
  length_chunks := p.length_chunks
  length_row _ := length_of_mem_chunks
  isSome_pixel _ _ := isSome_pixel?
  pixel x y := (p.getElem?_chunks x y).symm
  place x hx y := (p.getElem?_pixels_of_lt hx y).symm
  text := p.toList_text
  length_text := p.length_text
  char x hx y hy := by
    obtain ⟨lit, hlit⟩ := Option.isSome_iff_exists.1 (isSome_pixel? (p := p).2 ⟨hx, hy⟩)
    rw [getElem?_text_of_lt p hx, hlit]
    cases lit <;> rfl
  lineEnd _ hy := p.getElem?_text_lineEnd hy
  read := p.ofText?_text
  count := p.count_text

/-- Rendering loses nothing. Whatever is drawn on dark pixels, and whether it fails or not, leaves a
list of pixels that is the picture, in rows of 64, and the text of the picture can be read back. -/
theorem rendered_paint (strokes : List Stroke) (h : ∀ s ∈ strokes, s.Addressable) :
    ∃ p : Picture, Frame.paint strokes (List.replicate 2048 false) = some ⟨p.pixels, .ok ()⟩ ∧
      p = blank.paint strokes ∧ p.Rendered ∧
      (∀ x y : UInt64, Frame.pixel? x.toNat y.toNat p.pixels =
        some ⟨p.pixels, .ok (p.pixel? x.toNat y.toNat)⟩) ∧
      ∀ q : Picture, p.text = q.text ↔ p.pixels = q.pixels := by
  have hpaint := Frame.meets_paint blank strokes h
  rw [Routine.Meets, pixels_blank] at hpaint
  refine ⟨blank.paint strokes, hpaint, rfl, rendered _, fun x y => Frame.meets_pixel? _ _ _,
    fun q => ⟨fun htext => ?_, fun hpixels => by rw [eq_of_pixels hpixels]⟩⟩
  have hread : some (blank.paint strokes) = some q := by
    rw [← ofText?_text (blank.paint strokes), ← ofText?_text q, htext]
  rw [Option.some.inj hread]

/-- Two sprites that are cut off at the right edge, a dot in the corner and one far outside. -/
theorem rendered_paint_edges :
    let strokes : List Stroke := [.sprite 60 31 [0xF0, 0xFF], .dot 0 0 true,
      .dot 0xFFFFFFFFFFFFFFFF 0 true, .sprite 62 0 [0xC0]]
    (∀ s ∈ strokes, s.Addressable) ∧ ∃ p : Picture,
      Frame.paint strokes (List.replicate 2048 false) = some ⟨p.pixels, .ok ()⟩ ∧
        p.text.toList[65 * 31 + 63]? = some '#' ∧ p.text.toList[65 * 31 + 64]? = some '\n' ∧
          p.text.toList[1]? = some '.' ∧ p.text.toList.count '#' = 7 ∧ p.text ≠ blank.text := by
  intro strokes
  have haddressable : ∀ s ∈ strokes, s.Addressable := by
    simp [strokes, Stroke.Addressable]
  obtain ⟨p, hpaint, hp, hr, -, htext⟩ := rendered_paint strokes haddressable
  have hlit : p.pixel? 63 31 = some true := by rw [hp]; decide +kernel
  have hdark : p.pixel? 1 0 = some false := by rw [hp]; decide +kernel
  have hcount : p.lit = 7 := by rw [hp]; decide +kernel
  refine ⟨haddressable, p, hpaint, ?_, hr.lineEnd 31 (by decide), ?_, ?_, fun hsame => ?_⟩
  · rw [hr.char 63 (by decide) 31 (by decide), if_pos hlit]
  · have hchar := hr.char 1 (by decide) 0 (by decide)
    rwa [hdark, if_neg (by decide)] at hchar
  · rw [hr.count, hcount]
  · rw [eq_of_pixels ((htext blank).1 hsame)] at hcount
    exact absurd hcount (by decide +kernel)

end Picture

end Chip8
