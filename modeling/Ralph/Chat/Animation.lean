import Ralph.Chat.Downscale
import Ralph.Chat.KittyChunks

namespace Ralph.Chat.Image
open Raster

inductive DisposalMethod
  | keep
  | background
  | previous
  deriving DecidableEq

/-- A frame from the decoder, four bytes a pixel. -/
structure GifFrame where
  left : ℕ
  top : ℕ
  width : ℕ
  height : ℕ
  buffer : List UInt8
  delay : ℕ
  dispose : DisposalMethod

/-- What the decoder makes of a file: the canvas, the frames, and whether it read to the end. -/
structure Gif where
  width : ℕ
  height : ℕ
  frames : List GifFrame
  ends : Bool

/-- `return None`, and a panic. -/
inductive Stop
  | refused
  | panic
  deriving DecidableEq

structure AnimationFrame where
  size : ℕ × ℕ
  image : KittyImage
  delayMs : ℕ

def maxFrames : ℕ := 128

def maxAnimationPixels : ℕ := 16777216

/-- The number of a frame's pixel on the canvas. -/
def GifFrame.target (f : GifFrame) (width : ℕ) (at_ : ℕ × ℕ) : ℕ :=
  (f.top + at_.2) * width + (f.left + at_.1)

def GifFrame.source (f : GifFrame) (at_ : ℕ × ℕ) : ℕ := at_.2 * f.width + at_.1

def GifFrame.pixel (f : GifFrame) (at_ : ℕ × ℕ) : List UInt8 := cell 4 (f.source at_) f.buffer

def visible (pixel : List UInt8) : Bool := pixel.getD 3 0 ≠ 0

def GifFrame.cells (f : GifFrame) : List (ℕ × ℕ) :=
  Raster.cells (List.range f.width) (List.range f.height)

/-- One pixel of the loops that draw a frame. -/
def drawPixel (width : ℕ) (f : GifFrame) (canvas : List UInt8) (at_ : ℕ × ℕ) :
    Except Stop (List UInt8) :=
  if (f.source at_ + 1) * 4 ≤ f.buffer.length then
    if visible (f.pixel at_) then
      if (f.target width at_ + 1) * 4 ≤ canvas.length then
        .ok (put 4 (f.target width at_) (f.pixel at_) canvas)
      else .error .panic
    else .ok canvas
  else .error .refused

def draw (width : ℕ) (f : GifFrame) (canvas : List UInt8) : Except Stop (List UInt8) :=
  f.cells.foldlM (drawPixel width f) canvas

/-- One row that the background takes back: `fill(0)` on a slice. -/
def clearRow (width : ℕ) (f : GifFrame) (canvas : List UInt8) (y : ℕ) : Except Stop (List UInt8) :=
  if (y * width + f.left + f.width) * 4 ≤ canvas.length then
    .ok (paint 4 (fun x => y * width + x) (fun _ => [0, 0, 0, 0]) (List.range' f.left f.width) canvas)
  else .error .panic

def clear (width : ℕ) (f : GifFrame) (canvas : List UInt8) : Except Stop (List UInt8) :=
  (List.range' f.top f.height).foldlM (clearRow width f) canvas

/-- The compression into memory does not fail. -/
def encodePixels (compress : List UInt8 → List UInt8) (p : Pixels) : Option ((ℕ × ℕ) × KittyImage) :=
  if 0 < p.width * p.height ∧ p.width * p.height ≤ maxPixels ∧
      p.data.length = p.width * p.height * p.channels then do
    let q ← downscale p
    let format := if q.channels = 4 then 32 else 24
    pure ((q.width, q.height),
      ⟨s!"f={format},s={q.width},v={q.height},o=z,", compress q.data⟩)
  else none

/-- The canvas and the frames that are done. -/
structure Progress where
  canvas : List UInt8
  frames : List AnimationFrame

def drawFrame (compress : List UInt8 → List UInt8) (g : Gif) (s : Progress) (f : GifFrame) :
    Except Stop Progress :=
  if s.frames.length = maxFrames ∨
      maxAnimationPixels < g.width * g.height * (s.frames.length + 1) then .error .refused
  else if g.width < f.left + f.width ∨ g.height < f.top + f.height then .error .refused
  else do
    let drawn ← draw g.width f s.canvas
    let (size, image) ← (encodePixels compress ⟨g.width, g.height, 4, drawn⟩).elim
      (.error .refused) .ok
    let canvas ← match f.dispose with
      | .background => clear g.width f drawn
      | .previous => .ok s.canvas
      | .keep => .ok drawn
    .ok ⟨canvas, s.frames ++ [⟨size, image, max (f.delay * 10) 10⟩]⟩

/-- `prepare_animation`, from what the decoder makes of the file. -/
def prepareAnimation (compress : List UInt8 → List UInt8) (g : Gif) :
    Except Stop (List AnimationFrame) :=
  if g.width * g.height = 0 ∨ maxAnimationPixels < g.width * g.height then .error .refused
  else do
    let s ← g.frames.foldlM (drawFrame compress g)
      ⟨List.replicate (g.width * g.height * 4) 0, []⟩
    if !g.ends then .error .refused
    else if s.frames.length ≤ 1 then .error .refused
    else .ok s.frames

/-- What frames mean, pixel by pixel. -/
abbrev Picture := ℕ → ℕ → List UInt8

def blank : Picture := fun _ _ => [0, 0, 0, 0]

def GifFrame.Covers (f : GifFrame) (x y : ℕ) : Prop :=
  (f.left ≤ x ∧ x < f.left + f.width) ∧ f.top ≤ y ∧ y < f.top + f.height

instance (f : GifFrame) (x y : ℕ) : Decidable (f.Covers x y) := inferInstanceAs (Decidable (_ ∧ _))

/-- The frame over what was there: its pixels that are not clear. -/
def GifFrame.shown (f : GifFrame) (under : Picture) : Picture := fun x y =>
  if f.Covers x y ∧ visible (f.pixel (x - f.left, y - f.top)) then
    f.pixel (x - f.left, y - f.top)
  else under x y

/-- What the next frame is drawn on. -/
def GifFrame.leaves (f : GifFrame) (under : Picture) : Picture :=
  match f.dispose with
  | .background => fun x y => if f.Covers x y then [0, 0, 0, 0] else f.shown under x y
  | .previous => under
  | .keep => f.shown under

/-- The bytes are those of the picture. -/
structure Draws (width height : ℕ) (picture : Picture) (data : List UInt8) : Prop where
  length : data.length = width * height * 4
  pixels : ∀ x < width, ∀ y < height, cell 4 (y * width + x) data = picture x y

/-- The frame lies on the canvas. -/
structure GifFrame.Inside (f : GifFrame) (g : Gif) : Prop where
  right : f.left + f.width ≤ g.width
  bottom : f.top + f.height ≤ g.height

/-- The frame has all its pixels. -/
def GifFrame.Whole (f : GifFrame) : Prop := f.width * f.height * 4 ≤ f.buffer.length

section Fold

variable {σ β ε : Type*} {step : σ → β → Except ε σ} {f : σ → β → σ} (inv : σ → Prop)
  (bad : β → Prop) {e : ε} {items : List β}

theorem foldlM_ok (hok : ∀ item ∈ items, ∀ s, inv s →
      step s item = .ok (f s item) ∧ inv (f s item)) {s : σ} (hs : inv s) :
    items.foldlM step s = .ok (items.foldl f s) := by
  induction items generalizing s with
  | nil => rfl
  | cons item items ih =>
    rw [List.forall_mem_cons] at hok
    obtain ⟨hstep, hnext⟩ := hok.1 s hs
    rw [List.foldlM_cons, hstep, List.foldl_cons]
    exact ih hok.2 hnext

/-- The first item that is bad ends a loop whose other items are not. -/
theorem foldlM_error (hok : ∀ item ∈ items, ∀ s, inv s → ¬ bad item →
      step s item = .ok (f s item) ∧ inv (f s item))
    (hbad : ∀ item ∈ items, ∀ s, inv s → bad item → step s item = .error e)
    (hex : ∃ item ∈ items, bad item) {s : σ} (hs : inv s) : items.foldlM step s = .error e := by
  induction items generalizing s with
  | nil => simp at hex
  | cons item items ih =>
    rw [List.forall_mem_cons] at hok hbad
    rw [List.foldlM_cons]
    by_cases h : bad item
    · rw [hbad.1 s hs h]
      rfl
    · obtain ⟨hstep, hnext⟩ := hok.1 s hs h
      rw [hstep]
      obtain ⟨item', hmem, hitem'⟩ := hex
      rcases List.mem_cons.1 hmem with rfl | hmem
      · exact absurd hitem' h
      · exact ih hok.2 hbad.2 ⟨item', hmem, hitem'⟩ hnext

end Fold

section Frame

variable {g : Gif} {f : GifFrame} {under : Picture} {canvas : List UInt8}

theorem mem_frameCells {at_ : ℕ × ℕ} : at_ ∈ f.cells ↔ at_.1 < f.width ∧ at_.2 < f.height := by
  obtain ⟨x, y⟩ := at_
  rw [GifFrame.cells, mem_cells, List.mem_range, List.mem_range]

theorem whole_iff : f.Whole ↔ ∀ at_ ∈ f.cells, (f.source at_ + 1) * 4 ≤ f.buffer.length := by
  constructor
  · intro h at_ hat
    obtain ⟨hx, hy⟩ := mem_frameCells.1 hat
    exact (Nat.mul_le_mul_right 4 (number_lt hx hy)).trans h
  · intro h
    rw [GifFrame.Whole]
    by_cases hpos : 0 < f.width ∧ 0 < f.height
    · have hlast := h (f.width - 1, f.height - 1) (mem_frameCells.2 ⟨by omega, by omega⟩)
      have hcount : f.source (f.width - 1, f.height - 1) + 1 = f.width * f.height := by
        obtain ⟨w, hw⟩ := Nat.exists_eq_succ_of_ne_zero hpos.1.ne'
        obtain ⟨k, hk⟩ := Nat.exists_eq_succ_of_ne_zero hpos.2.ne'
        simp only [GifFrame.source, hw, hk, Nat.succ_eq_add_one, Nat.add_sub_cancel]
        ring
      rwa [hcount] at hlast
    · have hzero : f.width * f.height = 0 := by
        rw [Nat.mul_eq_zero]
        omega
      omega

/-- What cells put on a canvas make of the picture. -/
theorem Draws.paint {ι : Type*} {number : ι → ℕ} {item : ι → List UInt8} {todo : List ι}
    {width height : ℕ} {picture : Picture} (h : Draws width height under canvas)
    (hitem : ∀ j ∈ todo, (item j).length = 4) (hnumber : ∀ j ∈ todo, number j < width * height)
    (hinj : ∀ j ∈ todo, ∀ k ∈ todo, number j = number k → j = k)
    (hnew : ∀ x < width, ∀ y < height, ∀ j ∈ todo, number j = y * width + x → picture x y = item j)
    (hold : ∀ x < width, ∀ y < height, (∀ j ∈ todo, number j ≠ y * width + x) →
      picture x y = under x y) : Draws width height picture (Raster.paint 4 number item todo canvas) := by
  have hfits : ∀ j ∈ todo, (number j + 1) * 4 ≤ canvas.length := by
    intro j hj
    rw [h.length]
    exact Nat.mul_le_mul_right 4 (hnumber j hj)
  refine ⟨(length_paint hitem hfits).trans h.length, fun x hx y hy => ?_⟩
  by_cases hex : ∃ j ∈ todo, number j = y * width + x
  · obtain ⟨j, hj, heq⟩ := hex
    rw [← heq, cell_paint_of_mem hitem hfits hinj hj, hnew x hx y hy j hj heq]
  · have hnone : ∀ j ∈ todo, number j ≠ y * width + x := fun j hj heq => hex ⟨j, hj, heq⟩
    rw [cell_paint_of_notMem hitem hfits hnone, hold x hx y hy hnone, h.pixels x hx y hy]

theorem length_pixel (hwhole : f.Whole) {at_ : ℕ × ℕ} (hat : at_ ∈ f.cells) :
    (f.pixel at_).length = 4 := length_cell (whole_iff.1 hwhole at_ hat)

theorem target_lt (hin : f.Inside g) {at_ : ℕ × ℕ} (hat : at_ ∈ f.cells) :
    f.target g.width at_ < g.width * g.height := by
  obtain ⟨hx, hy⟩ := mem_frameCells.1 hat
  have hright := hin.right
  have hbottom := hin.bottom
  exact number_lt (by omega) (by omega)

theorem target_eq_iff (hin : f.Inside g) {at_ : ℕ × ℕ} (hat : at_ ∈ f.cells) {x y : ℕ}
    (hx : x < g.width) : f.target g.width at_ = y * g.width + x ↔
      f.Covers x y ∧ at_ = (x - f.left, y - f.top) := by
  obtain ⟨hax, hay⟩ := mem_frameCells.1 hat
  have hright := hin.right
  rw [GifFrame.target, number_inj (by omega) hx, GifFrame.Covers, Prod.ext_iff]
  constructor
  · rintro ⟨rfl, rfl⟩
    simp only
    omega
  · rintro ⟨hcovers, hx', hy'⟩
    simp only at hx' hy'
    omega

theorem draw_eq (hin : f.Inside g) (hwhole : f.Whole)
    (hcanvas : canvas.length = g.width * g.height * 4) : draw g.width f canvas =
      .ok (paint 4 (f.target g.width) f.pixel (f.cells.filter fun at_ => visible (f.pixel at_))
        canvas) := by
  rw [paint, List.foldl_filter]
  refine foldlM_ok (fun canvas => canvas.length = g.width * g.height * 4)
    (fun at_ hat canvas hcanvas => ?_) hcanvas
  have htarget : (f.target g.width at_ + 1) * 4 ≤ canvas.length := by
    rw [hcanvas]
    exact Nat.mul_le_mul_right 4 (target_lt hin hat)
  rw [drawPixel, if_pos (whole_iff.1 hwhole at_ hat)]
  split_ifs with hvisible
  · exact ⟨rfl, (length_put (length_pixel hwhole hat) htarget).trans hcanvas⟩
  · exact ⟨rfl, hcanvas⟩

theorem draw_ok (hin : f.Inside g) (hwhole : f.Whole) (h : Draws g.width g.height under canvas) :
    ∃ drawn, draw g.width f canvas = .ok drawn ∧ Draws g.width g.height (f.shown under) drawn := by
  refine ⟨_, draw_eq hin hwhole h.length, h.paint ?_ ?_ ?_ ?_ ?_⟩
  · exact fun at_ hat => length_pixel hwhole (List.mem_of_mem_filter hat)
  · exact fun at_ hat => target_lt hin (List.mem_of_mem_filter hat)
  · intro at_ hat at' hat' heq
    obtain ⟨hx, hy⟩ := mem_frameCells.1 (List.mem_of_mem_filter hat')
    have hright := hin.right
    have hcovers := (target_eq_iff hin (List.mem_of_mem_filter hat) (by omega)).1 heq
    rw [hcovers.2, Nat.add_sub_cancel_left, Nat.add_sub_cancel_left]
  · intro x hx y hy at_ hat heq
    obtain ⟨hmem, hvisible⟩ := List.mem_filter.1 hat
    obtain ⟨hcovers, rfl⟩ := (target_eq_iff hin hmem hx).1 heq
    rw [GifFrame.shown, if_pos ⟨hcovers, hvisible⟩]
  · intro x hx y hy hnone
    rw [GifFrame.shown, if_neg]
    rintro ⟨hcovers, hvisible⟩
    have hmem : (x - f.left, y - f.top) ∈ f.cells := by
      rw [GifFrame.Covers] at hcovers
      exact mem_frameCells.2 ⟨by omega, by omega⟩
    exact hnone _ (List.mem_filter.2 ⟨hmem, hvisible⟩)
      ((target_eq_iff hin hmem hx).2 ⟨hcovers, rfl⟩)

theorem draw_refused (hin : f.Inside g) (hwhole : ¬ f.Whole)
    (hcanvas : canvas.length = g.width * g.height * 4) :
    draw g.width f canvas = .error .refused := by
  rw [whole_iff] at hwhole
  push Not at hwhole
  obtain ⟨first, hfirst, hshort⟩ := hwhole
  refine foldlM_error (f := fun canvas at_ => if visible (f.pixel at_) then
      put 4 (f.target g.width at_) (f.pixel at_) canvas else canvas)
    (fun canvas => canvas.length = g.width * g.height * 4)
    (fun at_ => f.buffer.length < (f.source at_ + 1) * 4) (fun at_ hat canvas hcanvas hgood => ?_) (fun at_ _ canvas _ hbad => ?_)
    ⟨first, hfirst, hshort⟩ hcanvas
  · have htarget : (f.target g.width at_ + 1) * 4 ≤ canvas.length := by
      rw [hcanvas]
      exact Nat.mul_le_mul_right 4 (target_lt hin hat)
    rw [drawPixel, if_pos (Nat.not_lt.1 hgood)]
    split_ifs with hvisible
    · exact ⟨rfl, (length_put (length_cell (Nat.not_lt.1 hgood)) htarget).trans hcanvas⟩
    · exact ⟨rfl, hcanvas⟩
  · rw [drawPixel, if_neg (Nat.not_le.2 hbad)]

theorem clear_eq (hin : f.Inside g) (hcanvas : canvas.length = g.width * g.height * 4) :
    clear g.width f canvas = .ok (paint 4 (fun at_ => at_.2 * g.width + at_.1)
      (fun _ => [0, 0, 0, 0]) (Raster.cells (List.range' f.left f.width) (List.range' f.top f.height))
      canvas) := by
  rw [paint, Raster.cells, List.foldl_flatMap]
  simp only [List.foldl_map]
  refine foldlM_ok (fun canvas => canvas.length = g.width * g.height * 4)
    (fun y hy canvas hcanvas => ?_) hcanvas
  have hright := hin.right
  have hbottom := hin.bottom
  rw [List.mem_range'_1] at hy
  have hlast : ∀ x < f.left + f.width, y * g.width + x < g.width * g.height :=
    fun x hx => number_lt (by omega) (by omega)
  refine ⟨if_pos ?_, ?_⟩
  · rw [hcanvas]
    refine Nat.mul_le_mul_right 4 ?_
    have hrow : (y + 1) * g.width ≤ g.height * g.width := Nat.mul_le_mul_right _ (by omega)
    rw [Nat.succ_mul, Nat.mul_comm g.height] at hrow
    omega
  · refine (length_paint (n := 4) (fun _ _ => rfl) fun x hx => ?_).trans hcanvas
    rw [List.mem_range'_1] at hx
    rw [hcanvas]
    exact Nat.mul_le_mul_right 4 (hlast x (by omega))

theorem clear_ok (hin : f.Inside g) (h : Draws g.width g.height under canvas) :
    ∃ cleared, clear g.width f canvas = .ok cleared ∧ Draws g.width g.height
      (fun x y => if f.Covers x y then [0, 0, 0, 0] else under x y) cleared := by
  have hright := hin.right
  have hbottom := hin.bottom
  have hmem : ∀ at_ : ℕ × ℕ, at_ ∈ Raster.cells (List.range' f.left f.width)
      (List.range' f.top f.height) ↔ f.Covers at_.1 at_.2 := by
    rintro ⟨x, y⟩
    rw [mem_cells, List.mem_range'_1, List.mem_range'_1, GifFrame.Covers]
  refine ⟨_, clear_eq hin h.length, h.paint (fun _ _ => rfl) ?_ ?_ ?_ ?_⟩
  · intro at_ hat
    rw [hmem, GifFrame.Covers] at hat
    exact number_lt (by omega) (by omega)
  · intro at_ hat at' hat' heq
    rw [hmem, GifFrame.Covers] at hat hat'
    exact Prod.ext_iff.2 ((number_inj (by omega) (by omega)).1 heq)
  · intro x hx y hy at_ hat heq
    rw [hmem] at hat
    have hcovers := hat
    rw [GifFrame.Covers] at hcovers
    obtain ⟨rfl, rfl⟩ := (number_inj (by omega) hx).1 heq
    exact if_pos hat
  · intro x hx y hy hnone
    exact if_neg fun hcovers => hnone (x, y) ((hmem (x, y)).2 hcovers) rfl

/-- The frame that is shown: the picture, downscaled and compressed. -/
def AnimationFrame.Shows (compress : List UInt8 → List UInt8) (width height : ℕ) (picture : Picture)
    (delay : ℕ) (a : AnimationFrame) : Prop :=
  ∃ data q, Draws width height picture data ∧ downscale ⟨width, height, 4, data⟩ = some q ∧
    a = ⟨(q.width, q.height), ⟨s!"f=32,s={q.width},v={q.height},o=z,", compress q.data⟩,
      max (delay * 10) 10⟩

theorem encodePixels_ok (compress : List UInt8 → List UInt8) (hpos : 0 < g.width * g.height)
    (hmax : g.width * g.height ≤ maxAnimationPixels) (h : Draws g.width g.height under canvas) :
    ∃ q, downscale ⟨g.width, g.height, 4, canvas⟩ = some q ∧
      encodePixels compress ⟨g.width, g.height, 4, canvas⟩ = some ((q.width, q.height),
        ⟨s!"f=32,s={q.width},v={q.height},o=z,", compress q.data⟩) := by
  have hfull : (⟨g.width, g.height, 4, canvas⟩ : Pixels).Full :=
    ⟨Nat.pos_of_mul_pos_right hpos, Nat.pos_of_mul_pos_left hpos, h.length⟩
  obtain ⟨q, hq, -, hchannels, -⟩ := downscale_spec hfull (.inr rfl)
  have hcap : g.width * g.height ≤ maxPixels := hmax.trans (by decide)
  refine ⟨q, hq, ?_⟩
  rw [encodePixels, if_pos ⟨hpos, hcap, h.length⟩, hq]
  simp only [Option.bind_eq_bind, Option.bind_some, if_pos hchannels]
  rfl

/-- There is room for one more frame after `count`. -/
def Gif.Room (g : Gif) (count : ℕ) : Prop :=
  count ≠ maxFrames ∧ g.width * g.height * (count + 1) ≤ maxAnimationPixels

theorem drawFrame_ok (compress : List UInt8 → List UInt8) {frames : List AnimationFrame}
    (hpos : 0 < g.width * g.height) (hroom : g.Room frames.length) (hin : f.Inside g)
    (hwhole : f.Whole) (h : Draws g.width g.height under canvas) :
    ∃ canvas' a, drawFrame compress g ⟨canvas, frames⟩ f = .ok ⟨canvas', frames ++ [a]⟩ ∧
      Draws g.width g.height (f.leaves under) canvas' ∧
      a.Shows compress g.width g.height (f.shown under) f.delay := by
  obtain ⟨drawn, hdraw, hdrawn⟩ := draw_ok hin hwhole h
  have hmax : g.width * g.height ≤ maxAnimationPixels :=
    (Nat.le_mul_of_pos_right _ (Nat.succ_pos _)).trans hroom.2
  obtain ⟨q, hq, hencode⟩ := encodePixels_ok compress hpos hmax hdrawn
  have hright := hin.right
  have hbottom := hin.bottom
  have hstart : drawFrame compress g ⟨canvas, frames⟩ f = (match f.dispose with
      | .background => clear g.width f drawn
      | .previous => .ok canvas
      | .keep => .ok drawn).bind fun canvas => .ok (Progress.mk canvas (frames ++
        [AnimationFrame.mk (q.width, q.height)
          ⟨s!"f=32,s={q.width},v={q.height},o=z,", compress q.data⟩ (max (f.delay * 10) 10)])) := by
    rw [drawFrame, if_neg, if_neg (by omega), hdraw]
    · change ((encodePixels compress ⟨g.width, g.height, 4, drawn⟩).elim (Except.error Stop.refused)
        Except.ok >>= _) = _
      rw [hencode]
      cases f.dispose <;> rfl
    · rintro (heq | hlt)
      · exact hroom.1 heq
      · exact absurd hroom.2 (Nat.not_le.2 hlt)
  rw [hstart, GifFrame.leaves]
  cases f.dispose with
  | keep => exact ⟨_, _, rfl, hdrawn, drawn, q, hdrawn, hq, rfl⟩
  | previous => exact ⟨_, _, rfl, h, drawn, q, hdrawn, hq, rfl⟩
  | background =>
    obtain ⟨cleared, hclear, hcleared⟩ := clear_ok hin hdrawn
    refine ⟨cleared, _, ?_, hcleared, drawn, q, hdrawn, hq, rfl⟩
    change (clear g.width f drawn).bind _ = _
    rw [hclear]
    rfl

theorem drawFrame_refused {compress : List UInt8 → List UInt8} {frames : List AnimationFrame}
    (h : Draws g.width g.height under canvas)
    (hbad : ¬ (g.Room frames.length ∧ f.Inside g ∧ f.Whole)) :
    drawFrame compress g ⟨canvas, frames⟩ f = .error .refused := by
  rw [drawFrame]
  split_ifs with hfull hout
  · rfl
  · rfl
  · have hin : f.Inside g := ⟨by omega, by omega⟩
    have hroom : g.Room frames.length := ⟨fun heq => hfull (.inl heq), Nat.not_lt.1 fun hlt => hfull (.inr hlt)⟩
    rw [draw_refused hin (fun hwhole => hbad ⟨hroom, hin, hwhole⟩) h.length]
    rfl

end Frame

section Run

variable {g : Gif}

/-- The frames that can follow `count` others. -/
def Gif.Fits (g : Gif) : ℕ → List GifFrame → Prop
  | _, [] => True
  | count, f :: fs => (g.Room count ∧ f.Inside g ∧ f.Whole) ∧ g.Fits (count + 1) fs

/-- Each frame shows its picture over what the frames before it left. -/
def Renders (compress : List UInt8 → List UInt8) (width height : ℕ) :
    Picture → List GifFrame → List AnimationFrame → Prop
  | _, [], out => out = []
  | under, f :: fs, out => ∃ a rest, out = a :: rest ∧
      a.Shows compress width height (f.shown under) f.delay ∧
      Renders compress width height (f.leaves under) fs rest

theorem fits_iff {count : ℕ} (fs : List GifFrame) (hcount : count ≤ maxFrames) :
    g.Fits count fs ↔ (∀ f ∈ fs, f.Inside g ∧ f.Whole) ∧ (fs ≠ [] → count + fs.length ≤ maxFrames ∧
      g.width * g.height * (count + fs.length) ≤ maxAnimationPixels) := by
  induction fs generalizing count with
  | nil => simp [Gif.Fits]
  | cons f fs ih =>
    rw [Gif.Fits, Gif.Room, List.forall_mem_cons, List.length_cons]
    have hgrow : g.width * g.height * (count + 1) ≤ g.width * g.height * (count + (fs.length + 1)) :=
      Nat.mul_le_mul_left _ (by omega)
    constructor
    · rintro ⟨⟨⟨hne, hroom⟩, hin⟩, hfits⟩
      obtain ⟨hall, hrest⟩ := (ih (by omega)).1 hfits
      refine ⟨⟨hin, hall⟩, fun _ => ?_⟩
      rcases eq_or_ne fs [] with rfl | hfs
      · exact ⟨by simp only [List.length_nil]; omega, hroom⟩
      · obtain ⟨hlength, hpixels⟩ := hrest hfs
        rw [Nat.add_comm fs.length, ← Nat.add_assoc]
        exact ⟨hlength, hpixels⟩
    · rintro ⟨⟨hin, hall⟩, hsize⟩
      obtain ⟨hlength, hpixels⟩ := hsize (List.cons_ne_nil _ _)
      refine ⟨⟨⟨by omega, hgrow.trans hpixels⟩, hin⟩, (ih (by omega)).2 ⟨hall, fun _ => ?_⟩⟩
      rw [Nat.add_comm fs.length, ← Nat.add_assoc] at hlength hpixels
      exact ⟨hlength, hpixels⟩

theorem foldlM_drawFrame (compress : List UInt8 → List UInt8) {under : Picture}
    {canvas : List UInt8} (frames : List AnimationFrame) (fs : List GifFrame) (hpos : 0 < g.width * g.height)
    (h : Draws g.width g.height under canvas) :
    (g.Fits frames.length fs → ∃ canvas' out,
      fs.foldlM (drawFrame compress g) ⟨canvas, frames⟩ = .ok ⟨canvas', frames ++ out⟩ ∧
        Renders compress g.width g.height under fs out) ∧
    (¬ g.Fits frames.length fs →
      fs.foldlM (drawFrame compress g) ⟨canvas, frames⟩ = .error .refused) := by
  induction fs generalizing under canvas frames with
  | nil =>
    refine ⟨fun _ => ⟨canvas, [], ?_, rfl⟩, fun hbad => absurd trivial hbad⟩
    rw [List.append_nil]
    rfl
  | cons f fs ih =>
    rw [List.foldlM_cons]
    by_cases hfirst : g.Room frames.length ∧ f.Inside g ∧ f.Whole
    · obtain ⟨canvas', a, hstep, hcanvas, hshows⟩ :=
        drawFrame_ok compress hpos hfirst.1 hfirst.2.1 hfirst.2.2 h
      have hlength : (frames ++ [a]).length = frames.length + 1 := by simp
      have hrest := ih (frames ++ [a]) hcanvas
      rw [hlength] at hrest
      rw [hstep]
      refine ⟨fun hfits => ?_, fun hbad => hrest.2 fun hfits => hbad ⟨hfirst, hfits⟩⟩
      obtain ⟨last, out, hrun, hrenders⟩ := hrest.1 hfits.2
      rw [List.append_assoc] at hrun
      exact ⟨last, a :: out, hrun, a, out, rfl, hshows, hrenders⟩
    · rw [drawFrame_refused h hfirst]
      exact ⟨fun hfits => absurd hfits.1 hfirst, fun _ => rfl⟩

theorem Renders.length {compress : List UInt8 → List UInt8} {width height : ℕ} {under : Picture} {fs : List GifFrame}
    {out : List AnimationFrame} (h : Renders compress width height under fs out) :
    out.length = fs.length := by
  induction fs generalizing under out with
  | nil => exact congrArg List.length (show out = [] from h)
  | cons f fs ih =>
    obtain ⟨a, rest, rfl, -, hrest⟩ := h
    rw [List.length_cons, List.length_cons, ih hrest]

theorem draws_blank (width height : ℕ) :
    Draws width height blank (List.replicate (width * height * 4) 0) := by
  refine ⟨List.length_replicate, fun x hx y hy => ?_⟩
  have hlt := number_lt hx hy
  rw [cell, List.drop_replicate, List.take_replicate, Nat.min_eq_left (by omega)]
  rfl

/-- The files that become an animation. -/
structure Gif.Accepted (g : Gif) : Prop where
  pixels : 0 < g.width * g.height
  whole : ∀ f ∈ g.frames, f.Inside g ∧ f.Whole
  several : 1 < g.frames.length
  count : g.frames.length ≤ maxFrames
  total : g.width * g.height * g.frames.length ≤ maxAnimationPixels
  ends : g.ends = true

/-- A file becomes an animation or is refused, and nothing in it makes this panic. The frames of an
animation are those of the file, in order, each what its pixels and the disposal of the frames
before it make of a clear canvas. -/
theorem prepareAnimation_spec (compress : List UInt8 → List UInt8) (g : Gif) :
    (g.Accepted → ∃ out, prepareAnimation compress g = .ok out ∧
      Renders compress g.width g.height blank g.frames out) ∧
    (¬ g.Accepted → prepareAnimation compress g = .error .refused) := by
  rw [prepareAnimation]
  by_cases hsize : g.width * g.height = 0 ∨ maxAnimationPixels < g.width * g.height
  · rw [if_pos hsize]
    refine ⟨fun h => ?_, fun _ => rfl⟩
    have hmax : g.width * g.height ≤ g.width * g.height * g.frames.length :=
      Nat.le_mul_of_pos_right _ (by have := h.several; omega)
    have hpos := h.pixels
    have htotal := h.total
    omega
  · rw [if_neg hsize]
    have hpos : 0 < g.width * g.height := by omega
    obtain ⟨hok, herror⟩ := foldlM_drawFrame compress [] g.frames hpos
      (draws_blank g.width g.height)
    have hfits := fits_iff (g := g) g.frames (Nat.zero_le _)
    rw [Nat.zero_add] at hfits
    by_cases hall : g.Fits 0 g.frames
    · obtain ⟨canvas, out, hrun, hrenders⟩ := hok hall
      rw [hrun, List.nil_append]
      obtain ⟨hwhole, hcount⟩ := hfits.1 hall
      change (_ → ∃ out', (if !g.ends then _ else if out.length ≤ 1 then _ else _) = _ ∧ _) ∧
        (_ → (if !g.ends then _ else if out.length ≤ 1 then _ else _) = _)
      rw [hrenders.length]
      constructor
      · intro h
        rw [if_neg (by simp [h.ends]), if_neg (by have := h.several; omega)]
        exact ⟨out, rfl, hrenders⟩
      · intro h
        split_ifs with hends hfew
        · rfl
        · rfl
        · have hne : g.frames ≠ [] := by
            rintro heq
            simp [heq] at hfew
          obtain ⟨hlength, htotal⟩ := hcount hne
          exact absurd ⟨hpos, hwhole, by omega, hlength, htotal, by simpa using hends⟩ h
    · rw [herror hall]
      refine ⟨fun h => absurd (hfits.2 ⟨h.whole, fun _ => ⟨h.count, h.total⟩⟩) hall, fun _ => rfl⟩

end Run

end Ralph.Chat.Image
