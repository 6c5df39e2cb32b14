import Ralph.Raster

namespace Ralph.Chat.Image
open Raster

def maxSidePx : ℕ := 2048

def maxPixels : ℕ := 25165824

/-- A decoded picture: rows of pixels of `channels` bytes each. -/
structure Pixels where
  width : ℕ
  height : ℕ
  channels : ℕ
  data : List UInt8

/-- The check of `encode_pixels` on the length of the data. -/
structure Pixels.Full (p : Pixels) : Prop where
  width : 0 < p.width
  height : 0 < p.height
  length : p.data.length = p.width * p.height * p.channels

/-- The range that an output index stands for. -/
def span (outIndex outLen inLen : ℕ) : ℕ × ℕ :=
  let start := outIndex * inLen / outLen
  (start, max ((outIndex + 1) * inLen / outLen) (start + 1))

def scaledSide (side long : ℕ) : ℕ := max ((side * maxSidePx + long / 2) / long) 1

/-- `u8::try_from(value).unwrap_or(u8::MAX)` -/
def toU8 (value : ℕ) : UInt8 := if value < 256 then UInt8.ofNat value else 255

/-- What the loops of `box_average` add up. -/
structure Sums where
  channels : List ℕ
  weight : ℕ
  count : ℕ

def Sums.zero : Sums := ⟨[0, 0, 0], 0, 0⟩

def weightOf (channels : ℕ) (pixel : List UInt8) : ℕ :=
  if channels = 4 then (pixel.getD 3 0).toNat else 1

def Sums.add (channels : ℕ) (s : Sums) (pixel : List UInt8) : Sums where
  channels := List.zipWith (fun sum value => sum + value.toNat * weightOf channels pixel)
    s.channels pixel
  weight := s.weight + weightOf channels pixel
  count := s.count + 1

/-- `&pixels.data[start..start + pixels.channels]`, which panics outside of the data. -/
def Pixels.slice (p : Pixels) (i : ℕ) : Option (List UInt8) :=
  if (i + 1) * p.channels ≤ p.data.length then some (cell p.channels i p.data) else none

def ranged (r : ℕ × ℕ) : List ℕ := List.range' r.1 (r.2 - r.1)

def mean (sum weight : ℕ) : ℕ := if weight = 0 then 0 else (sum + weight / 2) / weight

/-- The four bytes, with the alpha last. -/
def Sums.average (s : Sums) : List UInt8 :=
  s.channels.map (fun sum => toU8 (mean sum s.weight)) ++
    [toU8 ((s.weight + s.count / 2) / s.count)]

def boxAverage (p : Pixels) (stride : ℕ) (xs ys : ℕ × ℕ) : Option (List UInt8) := do
  let add (s : Sums) (at_ : ℕ × ℕ) : Option Sums := do
    let pixel ← p.slice (at_.2 * stride + at_.1)
    pure (s.add p.channels pixel)
  let sums ← (cells (ranged xs) (ranged ys)).foldlM add .zero
  pure sums.average

/-- `none` where the source panics. -/
def downscale (p : Pixels) : Option Pixels :=
  let long := max p.width p.height
  if long ≤ maxSidePx then some p
  else do
    let width := scaledSide p.width long
    let height := scaledSide p.height long
    let parts ← (cells (List.range width) (List.range height)).mapM fun (ox, oy) => do
      let average ← boxAverage p p.width (span ox width p.width) (span oy height p.height)
      pure (average.take p.channels)
    pure ⟨width, height, p.channels, parts.flatten⟩

section Axis

variable {out long side i x : ℕ}

theorem scaledSide_spec (hside : 0 < side) (hle : side ≤ long) (hlong : maxSidePx < long) :
    0 < scaledSide side long ∧ scaledSide side long ≤ maxSidePx ∧ scaledSide side long ≤ side := by
  have hpos : 0 < long := by omega
  have hmax : (side * maxSidePx + long / 2) / long < maxSidePx + 1 := by
    rw [Nat.div_lt_iff_lt_mul hpos]
    have := Nat.mul_le_mul_right maxSidePx hle
    rw [Nat.succ_mul, Nat.mul_comm maxSidePx long]
    omega
  have hshrinks : (side * maxSidePx + long / 2) / long < side + 1 := by
    rw [Nat.div_lt_iff_lt_mul hpos]
    have := Nat.mul_le_mul_left side hlong.le
    rw [Nat.succ_mul]
    omega
  have hone : 1 ≤ maxSidePx := by decide
  simp only [scaledSide]
  omega

/-- Each input index is in the range of exactly one output index. -/
theorem mem_span_iff (hout : 0 < out) (hle : out ≤ side) :
    (span i out side).1 ≤ x ∧ x < (span i out side).2 ↔ i = ((x + 1) * out - 1) / side := by
  have hnext : i * side / out + 1 ≤ (i + 1) * side / out := by
    rw [Nat.le_div_iff_mul_le hout, Nat.succ_mul, Nat.succ_mul]
    have := Nat.div_mul_le_self (i * side) out
    omega
  have hlow : i * side / out ≤ x ↔ i * side < (x + 1) * out := by
    rw [← Nat.div_lt_iff_lt_mul hout]
    omega
  have hhigh : x < (i + 1) * side / out ↔ (x + 1) * out ≤ (i + 1) * side := by
    rw [← Nat.le_div_iff_mul_le hout]
    omega
  have hdiv : i = ((x + 1) * out - 1) / side ↔
      i * side ≤ (x + 1) * out - 1 ∧ (x + 1) * out - 1 < (i + 1) * side := by
    rw [← Nat.le_div_iff_mul_le (by omega), ← Nat.div_lt_iff_lt_mul (by omega)]
    omega
  have hpos : 0 < (x + 1) * out := Nat.mul_pos (Nat.succ_pos x) hout
  rw [span, max_eq_left hnext, hlow, hhigh, hdiv]
  omega

theorem exists_span (hout : 0 < out) (hle : out ≤ side) (hx : x < side) :
    ∃! i, i < out ∧ (span i out side).1 ≤ x ∧ x < (span i out side).2 := by
  refine ⟨((x + 1) * out - 1) / side, ⟨?_, (mem_span_iff hout hle).2 rfl⟩,
    fun i hi => (mem_span_iff hout hle).1 hi.2⟩
  rw [Nat.div_lt_iff_lt_mul (by omega), Nat.mul_comm out]
  have hrow : (x + 1) * out ≤ side * out := Nat.mul_le_mul_right out hx
  have hpos : 0 < (x + 1) * out := Nat.mul_pos (Nat.succ_pos x) hout
  omega

theorem span_le (hout : 0 < out) (hle : out ≤ side) (hi : i < out) :
    (span i out side).1 < (span i out side).2 ∧ (span i out side).2 ≤ side := by
  have hstart : i * side / out < side := by
    rw [Nat.div_lt_iff_lt_mul hout, Nat.mul_comm side]
    exact Nat.mul_lt_mul_of_pos_right hi (by omega)
  have hend : (i + 1) * side / out ≤ side := by
    refine Nat.div_le_of_le_mul ?_
    exact Nat.mul_le_mul_right side hi
  simp only [span]
  omega

theorem mem_ranged {r : ℕ × ℕ} : x ∈ ranged r ↔ r.1 ≤ x ∧ x < r.2 := by
  rw [ranged, List.mem_range'_1]
  omega

end Axis

/-- The value is the sum over the weight, to the nearest whole number; without weight it is zero. -/
def Nearest (sum weight value : ℕ) : Prop :=
  if weight = 0 then value = 0
  else sum ≤ value * weight + weight / 2 ∧ value * weight ≤ sum + weight / 2

theorem nearest_mean (sum weight : ℕ) : Nearest sum weight (mean sum weight) := by
  rw [Nearest, mean]
  split_ifs with h
  · rfl
  · have hdiv := Nat.div_add_mod (sum + weight / 2) weight
    have hmod := Nat.mod_lt (sum + weight / 2) (Nat.pos_of_ne_zero h)
    rw [Nat.mul_comm] at hdiv
    omega

theorem mean_le {sum weight : ℕ} (h : sum ≤ 255 * weight) : mean sum weight ≤ 255 := by
  rw [mean]
  split_ifs with hzero
  · omega
  · rw [← Nat.lt_succ_iff, Nat.div_lt_iff_lt_mul (Nat.pos_of_ne_zero hzero)]
    omega

theorem toNat_toU8 {value : ℕ} (h : value ≤ 255) : (toU8 value).toNat = value := by
  rw [toU8, if_pos (by omega), UInt8.toNat_ofNat']
  omega

section Box

variable (p : Pixels)

def Pixels.weight (pixel : List UInt8) : ℕ := weightOf p.channels pixel

/-- A sum over the pixels of a box. -/
def boxSum (box : List (List UInt8)) (f : List UInt8 → ℕ) : ℕ := (box.map f).sum

/-- The value of a channel, weighted by the alpha of its pixel. -/
def weighted (channel : ℕ) (pixel : List UInt8) : ℕ :=
  (pixel.getD channel 0).toNat * p.weight pixel

/-- A pixel is the mean of a box: of each colour as it counts by its alpha, and of the alpha. -/
structure Averages (box : List (List UInt8)) (pixel : List UInt8) : Prop where
  length : pixel.length = p.channels
  colour : ∀ ch < 3, Nearest (boxSum box (weighted p ch)) (boxSum box p.weight)
    (pixel.getD ch 0).toNat
  alpha : p.channels = 4 → Nearest (boxSum box p.weight) box.length (pixel.getD 3 0).toNat

def Sums.of (box : List (List UInt8)) : Sums where
  channels := [boxSum box (weighted p 0), boxSum box (weighted p 1), boxSum box (weighted p 2)]
  weight := boxSum box p.weight
  count := box.length

variable {p}

theorem foldl_add (hchannels : 3 ≤ p.channels) (box : List (List UInt8))
    (hbox : ∀ pixel ∈ box, pixel.length = p.channels) :
    box.foldl (Sums.add p.channels) .zero = Sums.of p box := by
  induction box using List.reverseRecOn with
  | nil => rfl
  | append_singleton box pixel ih =>
    rw [List.forall_mem_append, List.forall_mem_singleton] at hbox
    rw [List.foldl_append, ih hbox.1]
    match pixel, hbox.2 with
    | red :: green :: blue :: rest, _ =>
      simp [Sums.add, Sums.of, boxSum, weighted, Pixels.weight]
    | [], hlength | [_], hlength | [_, _], hlength => simp at hlength; omega

theorem foldlM_some {σ β : Type*} {f : σ → β → Option σ} {g : σ → β → σ} (items : List β)
    (h : ∀ item ∈ items, ∀ s, f s item = some (g s item)) (s : σ) :
    items.foldlM f s = some (items.foldl g s) := by
  induction items generalizing s with
  | nil => rfl
  | cons item items ih =>
    rw [List.forall_mem_cons] at h
    rw [List.foldlM_cons, h.1, List.foldl_cons]
    exact ih h.2 _

/-- The pixels of a box. -/
def Pixels.box (p : Pixels) (xs ys : ℕ × ℕ) : List (List UInt8) :=
  (cells (ranged xs) (ranged ys)).map fun at_ => cell p.channels (at_.2 * p.width + at_.1) p.data

theorem slice_eq (hp : p.Full) {x y : ℕ} (hx : x < p.width) (hy : y < p.height) :
    p.slice (y * p.width + x) = some (cell p.channels (y * p.width + x) p.data) ∧
      (cell p.channels (y * p.width + x) p.data).length = p.channels := by
  have hend : (y * p.width + x + 1) * p.channels ≤ p.data.length := by
    rw [hp.length]
    exact Nat.mul_le_mul_right _ (number_lt hx hy)
  exact ⟨if_pos hend, length_cell hend⟩

theorem weighted_le (channel : ℕ) (box : List (List UInt8)) :
    boxSum box (weighted p channel) ≤ 255 * boxSum box p.weight := by
  rw [boxSum, boxSum, ← List.sum_map_mul_left]
  refine List.sum_le_sum fun pixel _ => Nat.mul_le_mul_right _ ?_
  exact Nat.le_of_lt_succ (UInt8.toNat_lt _)

theorem weight_le (halpha : p.channels = 4) (box : List (List UInt8)) :
    boxSum box p.weight ≤ 255 * box.length := by
  rw [boxSum, Nat.mul_comm, ← smul_eq_mul]
  refine (List.sum_le_card_nsmul _ 255 ?_).trans (by rw [List.length_map])
  simp only [List.forall_mem_map]
  intro pixel _
  rw [Pixels.weight, weightOf, if_pos halpha]
  exact Nat.le_of_lt_succ (UInt8.toNat_lt _)

theorem length_of_mem_box (hp : p.Full) {xs ys : ℕ × ℕ} (hxs : xs.2 ≤ p.width)
    (hys : ys.2 ≤ p.height) : ∀ pixel ∈ p.box xs ys, pixel.length = p.channels := by
  simp only [Pixels.box, List.forall_mem_map]
  rintro ⟨x, y⟩ hmem
  obtain ⟨hx, hy⟩ := mem_cells.1 hmem
  exact (slice_eq hp ((mem_ranged.1 hx).2.trans_le hxs) ((mem_ranged.1 hy).2.trans_le hys)).2

theorem box_ne_nil {xs ys : ℕ × ℕ} (hxs : xs.1 < xs.2) (hys : ys.1 < ys.2) : 0 < (p.box xs ys).length := by
  rw [Pixels.box, List.length_map, length_cells, ranged, ranged, List.length_range',
    List.length_range']
  exact Nat.mul_pos (by omega) (by omega)

/-- The loops read every pixel of the box, without a panic. -/
theorem boxAverage_eq (hp : p.Full) (hchannels : 3 ≤ p.channels) {xs ys : ℕ × ℕ}
    (hxs : xs.2 ≤ p.width) (hys : ys.2 ≤ p.height) :
    boxAverage p p.width xs ys = some (Sums.of p (p.box xs ys)).average := by
  have hloop := foldlM_some (cells (ranged xs) (ranged ys))
    (f := fun (s : Sums) at_ => (p.slice (at_.2 * p.width + at_.1)).bind fun pixel =>
      some (s.add p.channels pixel))
    (g := fun s at_ => s.add p.channels (cell p.channels (at_.2 * p.width + at_.1) p.data)) (by
      rintro ⟨x, y⟩ hmem s
      obtain ⟨hx, hy⟩ := mem_cells.1 hmem
      simp only [(slice_eq hp ((mem_ranged.1 hx).2.trans_le hxs)
        ((mem_ranged.1 hy).2.trans_le hys)).1, Option.bind_some]) .zero
  have hsums := foldl_add hchannels _ (length_of_mem_box hp hxs hys)
  rw [Pixels.box, List.foldl_map, ← Pixels.box] at hsums
  rw [hsums] at hloop
  exact congrArg (fun sums => sums.bind fun s => some s.average) hloop

/-- The output pixel of a box is its mean. -/
theorem boxAverage_spec (hp : p.Full) (hchannels : p.channels = 3 ∨ p.channels = 4) {xs ys : ℕ × ℕ}
    (hxs : xs.1 < xs.2 ∧ xs.2 ≤ p.width) (hys : ys.1 < ys.2 ∧ ys.2 ≤ p.height) :
    ∃ average, boxAverage p p.width xs ys = some average ∧
      Averages p (p.box xs ys) (average.take p.channels) := by
  refine ⟨_, boxAverage_eq hp (by omega) hxs.2 hys.2, ?_, ?_, ?_⟩
  · simp only [Sums.of, Sums.average, List.map_cons, List.map_nil, List.length_take, List.length_append,
      List.length_cons, List.length_nil]
    omega
  · intro ch hch
    have hmean : (toU8 (mean (boxSum (p.box xs ys) (weighted p ch)) (boxSum (p.box xs ys) p.weight))).toNat =
        mean (boxSum (p.box xs ys) (weighted p ch)) (boxSum (p.box xs ys) p.weight) :=
      toNat_toU8 (mean_le (weighted_le ch _))
    have hnearest := nearest_mean (boxSum (p.box xs ys) (weighted p ch)) (boxSum (p.box xs ys) p.weight)
    rw [← hmean] at hnearest
    interval_cases ch <;> rcases hchannels with h | h <;> simpa [Sums.of, Sums.average, h] using hnearest
  · intro halpha
    have hbox := box_ne_nil (p := p) hxs.1 hys.1
    have hmean : (boxSum (p.box xs ys) p.weight + (p.box xs ys).length / 2) / (p.box xs ys).length =
        mean (boxSum (p.box xs ys) p.weight) (p.box xs ys).length := (if_neg (by omega)).symm
    have hnearest := nearest_mean (boxSum (p.box xs ys) p.weight) (p.box xs ys).length
    rw [← toNat_toU8 (mean_le (weight_le halpha (p.box xs ys))), ← hmean] at hnearest
    simpa [Sums.of, Sums.average, halpha] using hnearest

end Box

theorem exists_mapM {β γ : Type*} {f : β → Option γ} {P : β → γ → Prop} (items : List β)
    (h : ∀ item ∈ items, ∃ result, f item = some result ∧ P item result) :
    ∃ results, items.mapM f = some results ∧ results.length = items.length ∧
      ∀ (i : ℕ) (item : β), items[i]? = some item → ∃ result, results[i]? = some result ∧ P item result := by
  induction items with
  | nil => exact ⟨[], rfl, rfl, fun i item hi => by simp at hi⟩
  | cons item items ih =>
    rw [List.forall_mem_cons] at h
    obtain ⟨result, hresult, hp⟩ := h.1
    obtain ⟨results, hresults, hlength, hall⟩ := ih h.2
    refine ⟨result :: results, by rw [List.mapM_cons, hresult, hresults]; rfl, by simp [hlength], ?_⟩
    intro i item' hi
    cases i with
    | zero =>
      rw [List.getElem?_cons_zero, Option.some_inj] at hi
      exact ⟨result, rfl, hi ▸ hp⟩
    | succ i => exact hall i item' hi

/-- A picture that is too long in either direction is made smaller without a panic: every pixel of
it is in the box of exactly one new pixel, and each new pixel is the mean of its box. Any other
picture stays as it is. -/
theorem downscale_spec {p : Pixels} (hp : p.Full) (hchannels : p.channels = 3 ∨ p.channels = 4) :
    ∃ q, downscale p = some q ∧ q.Full ∧ q.channels = p.channels ∧ q.width ≤ maxSidePx ∧
      q.height ≤ maxSidePx ∧ (max p.width p.height ≤ maxSidePx → q = p) ∧
      (maxSidePx < max p.width p.height →
        (∀ x < p.width, ∃! ox, ox < q.width ∧ (span ox q.width p.width).1 ≤ x ∧
          x < (span ox q.width p.width).2) ∧
        (∀ y < p.height, ∃! oy, oy < q.height ∧ (span oy q.height p.height).1 ≤ y ∧
          y < (span oy q.height p.height).2) ∧
        ∀ ox < q.width, ∀ oy < q.height,
          Averages p (p.box (span ox q.width p.width) (span oy q.height p.height))
            (cell q.channels (oy * q.width + ox) q.data)) := by
  by_cases hlong : max p.width p.height ≤ maxSidePx
  · refine ⟨p, if_pos hlong, hp, rfl, by omega, by omega, fun _ => rfl, fun h => by omega⟩
  · obtain ⟨hw, hwmax, hwle⟩ := scaledSide_spec hp.width (le_max_left p.width p.height) (by omega)
    obtain ⟨hh, hhmax, hhle⟩ := scaledSide_spec hp.height (le_max_right p.width p.height) (by omega)
    set width := scaledSide p.width (max p.width p.height) with hwidth
    set height := scaledSide p.height (max p.width p.height) with hheight
    have hparts := exists_mapM (cells (List.range width) (List.range height))
      (f := fun at_ => (boxAverage p p.width (span at_.1 width p.width)
        (span at_.2 height p.height)).bind fun average => some (average.take p.channels))
      (P := fun at_ part => Averages p (p.box (span at_.1 width p.width)
        (span at_.2 height p.height)) part) (by
        rintro ⟨ox, oy⟩ hmem
        obtain ⟨hx, hy⟩ := mem_cells.1 hmem
        obtain ⟨average, haverage, hspec⟩ := boxAverage_spec hp hchannels
          (span_le hw hwle (List.mem_range.1 hx)) (span_le hh hhle (List.mem_range.1 hy))
        exact ⟨_, by rw [haverage]; rfl, hspec⟩)
    obtain ⟨parts, heq, hlength, hall⟩ := hparts
    have hsizes : ∀ part ∈ parts, part.length = p.channels := by
      intro part hpart
      obtain ⟨i, hi⟩ := List.mem_iff_getElem?.1 hpart
      have hlt : i < (cells (List.range width) (List.range height)).length :=
        hlength ▸ (List.getElem?_eq_some_iff.1 hi).1
      obtain ⟨part', hi', hspec⟩ := hall i _ (List.getElem?_eq_getElem hlt)
      rw [hi, Option.some_inj] at hi'
      exact hi' ▸ hspec.length
    have hfull : (⟨width, height, p.channels, parts.flatten⟩ : Pixels).Full := by
      refine ⟨hw, hh, ?_⟩
      rw [length_flatten hsizes, hlength, length_cells, List.length_range, List.length_range,
        Nat.mul_comm height]
    refine ⟨⟨width, height, p.channels, parts.flatten⟩, ?_, hfull, rfl, hwmax, hhmax,
      fun h => absurd h hlong, fun _ => ⟨fun x hx => exists_span hw hwle hx,
        fun y hy => exists_span hh hhle hy, ?_⟩⟩
    · rw [downscale, if_neg hlong]
      exact congrArg (fun parts => parts.bind fun parts =>
        some (⟨width, height, p.channels, parts.flatten⟩ : Pixels)) heq
    · intro ox hox oy hoy
      have hcell : (cells (List.range width) (List.range height))[oy * width + ox]? = some (ox, oy) := by
        have := getElem?_cells (List.range width) (List.range height) (y := oy)
          (show ox < (List.range width).length by simpa using hox)
        simpa [hoy] using this
      obtain ⟨part, hpart, hspec⟩ := hall _ _ hcell
      rw [cell_flatten hsizes hpart]
      exact hspec

theorem downscale_spec_banner : ∃ q, downscale ⟨4096, 1, 3, List.replicate (4096 * 1 * 3) 7⟩ = some q ∧
    q.width ≤ maxSidePx ∧ q.height ≤ maxSidePx ∧
      ∀ x < 4096, ∃! ox, ox < q.width ∧ (span ox q.width 4096).1 ≤ x ∧ x < (span ox q.width 4096).2 := by
  obtain ⟨q, hq, -, -, hwidth, hheight, -, hboxes⟩ :=
    downscale_spec (p := ⟨4096, 1, 3, List.replicate (4096 * 1 * 3) 7⟩)
      ⟨by decide, by decide, List.length_replicate⟩ (.inl rfl)
  exact ⟨q, hq, hwidth, hheight, (hboxes (by decide)).1⟩

end Ralph.Chat.Image
