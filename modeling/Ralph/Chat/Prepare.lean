import Ralph.Chat.Animation

namespace Ralph.Chat.Image

def pngSignature : List UInt8 := [0x89, 0x50, 0x4e, 0x47, 0x0d, 0x0a, 0x1a, 0x0a]

def ihdr : List UInt8 := [0x49, 0x48, 0x44, 0x52]

/-- `u32::from_be_bytes` -/
def ofBeBytes (bytes : List UInt8) : ℕ := bytes.foldl (fun n byte => n * 256 + byte.toNat) 0

def pngSize (bytes : List UInt8) : Option (ℕ × ℕ) :=
  if bytes.length < 24 ∨ bytes.take 8 ≠ pngSignature ∨ (bytes.drop 12).take 4 ≠ ihdr then none
  else
    let width := ofBeBytes ((bytes.drop 16).take 4)
    let height := ofBeBytes ((bytes.drop 20).take 4)
    if 0 < width ∧ 0 < height then some (width, height) else none

/-- A JPEG behind its headers: the size they give, and the bytes when the rest decodes. -/
structure Jpeg where
  width : ℕ
  height : ℕ
  data : Option (List UInt8)

structure Webp where
  width : ℕ
  height : ℕ
  alpha : Bool
  data : Option (List UInt8)

/-- The decoders of the image formats; `none` where they refuse the headers. -/
structure Decoders where
  jpeg : List UInt8 → Option Jpeg
  gif : List UInt8 → Option Gif
  webp : List UInt8 → Option Webp

def maxWebpPixels : ℕ := 6291456

def withinCap (width height cap : ℕ) : Bool := 0 < width * height ∧ width * height ≤ cap

section Decode

variable (d : Decoders) (bytes : List UInt8)

def decodeJpeg : Option Pixels := do
  let jpeg ← d.jpeg bytes
  if !withinCap jpeg.width jpeg.height maxPixels then none
  else pure ⟨jpeg.width, jpeg.height, 4, ← jpeg.data⟩

/-- Only the first frame is drawn, in its own size. -/
def decodeGif : Option Pixels := do
  let gif ← d.gif bytes
  if !withinCap gif.width gif.height maxPixels then none
  else
    let frame ← gif.frames.head?
    pure ⟨frame.width, frame.height, 4, frame.buffer⟩

def decodeWebp : Option Pixels := do
  let webp ← d.webp bytes
  if !withinCap webp.width webp.height maxWebpPixels then none
  else pure ⟨webp.width, webp.height, if webp.alpha then 4 else 3, ← webp.data⟩

def prepare (compress : List UInt8 → List UInt8) : Option ((ℕ × ℕ) × KittyImage) :=
  match pngSize bytes with
  | some size => some (size, ⟨"f=100,", bytes⟩)
  | none =>
    if [0xff, 0xd8, 0xff] <+: bytes then (decodeJpeg d bytes).bind (encodePixels compress)
    else if "GIF87a".toUTF8.data.toList <+: bytes ∨ "GIF89a".toUTF8.data.toList <+: bytes then
      (decodeGif d bytes).bind (encodePixels compress)
    else if 12 ≤ bytes.length ∧ bytes.take 4 = "RIFF".toUTF8.data.toList ∧
        (bytes.drop 8).take 4 = "WEBP".toUTF8.data.toList then
      (decodeWebp d bytes).bind (encodePixels compress)
    else none

end Decode

section Sendable

variable {compress : List UInt8 → List UInt8} {size : ℕ × ℕ} {image : KittyImage}

theorem length_of_pngSize {bytes : List UInt8} (h : pngSize bytes = some size) :
    24 ≤ bytes.length := by
  unfold pngSize at h
  split_ifs at h with hbad
  rw [not_or] at hbad
  omega

/-- The keys of compressed pixels are numbers between fixed texts. -/
theorem notMem_pixelKeys {c : Char} (hc : c = esc ∨ c = ';') (format width height : ℕ) :
    c ∉ (s!"f={format},s={width},v={height},o=z,").toList := by
  have hdigit : c.isDigit = false := by rcases hc with rfl | rfl <;> decide
  have hnumber := notMem_toString hdigit
  have hfixed : ∀ part ∈ ["f=", ",s=", ",v=", ",o=z,"], c ∉ part.toList := by
    rcases hc with rfl | rfl <;> simp [esc]
  simp only [List.forall_mem_cons] at hfixed
  obtain ⟨hformat, hwidth, hheight, hend, -⟩ := hfixed
  simp only [String.toList_append, List.mem_append, not_or]
  exact ⟨⟨⟨⟨⟨⟨hformat, hnumber _⟩, hwidth⟩, hnumber _⟩, hheight⟩, hnumber _⟩, hend⟩

theorem sendable_encodePixels (hcompress : ∀ data, compress data ≠ []) {p : Pixels}
    (h : encodePixels compress p = some (size, image)) : image.Sendable := by
  unfold encodePixels at h
  split_ifs at h with hfull
  obtain ⟨q, -, hq⟩ := Option.bind_eq_some_iff.1 h
  obtain ⟨-, rfl⟩ := Prod.mk.inj (Option.some.inj hq)
  exact ⟨hcompress _, notMem_pixelKeys (.inl rfl) _ _ _, notMem_pixelKeys (.inr rfl) _ _ _⟩

/-- The images that `encode_apc` gets come from here. -/
theorem sendable_prepare (hcompress : ∀ data, compress data ≠ []) {d : Decoders}
    {bytes : List UInt8} (h : prepare d bytes compress = some (size, image)) : image.Sendable := by
  have hpixels : ∀ {pixels : Option Pixels},
      pixels.bind (encodePixels compress) = some (size, image) → image.Sendable := by
    intro pixels hbind
    obtain ⟨p, -, hp⟩ := Option.bind_eq_some_iff.1 hbind
    exact sendable_encodePixels hcompress hp
  unfold prepare at h
  split at h
  · next size' hpng =>
    obtain ⟨-, rfl⟩ := Prod.mk.inj (Option.some.inj h)
    have hlength := length_of_pngSize hpng
    exact ⟨by rintro rfl; simp at hlength, by simp [esc], by simp⟩
  · split_ifs at h
    · exact hpixels h
    · exact hpixels h
    · exact hpixels h

end Sendable

/-- An image file in the middle of some text. The text splits into the chunks of the image and
what is around them, and without the sequences it is the text alone. The terminal reads chunks of
at most 4096 characters and puts together the bytes that were sent. -/
theorem encodeApc_transmission {b : Base64.Engine} (hb : b.Lawful)
    {compress : List UInt8 → List UInt8} (hcompress : ∀ data, compress data ≠ []) {d : Decoders}
    {bytes : List UInt8} {size : ℕ × ℕ} {image : KittyImage}
    (hprepare : prepare d bytes compress = some (size, image)) (cols rows : ℕ)
    {before after : List Char} (hbefore : Text.splitOnceText apcStart before = none)
    (hafter : Text.splitOnceText apcStart after = none) :
    let bodies := chunkBodies b image.payload (apcKeys image.keys cols rows) []
    splitApc (before ++ encodeApc b image cols rows ++ after) =
        (if before = [] then [] else [.text before]) ++ bodies.map (fun body => .apc (apc body)) ++
          (if after = [] then [] else [.text after]) ∧
      stripKittyApc (String.ofList (before ++ encodeApc b image cols rows ++ after)) =
        String.ofList (before ++ after) ∧
      (∀ body ∈ bodies, ∃ more piece,
        readChunk body = some (more, piece) ∧ piece.length ≤ chunkBytes) ∧
      (received bodies).bind (fun text => b.decode (String.ofList text)) = some image.payload := by
  intro bodies
  have himage := sendable_prepare hcompress hprepare
  have hne : bodies ≠ [] := chunkBodies_ne_nil hb himage _
  have hclean : ∀ body ∈ bodies, esc ∉ body := fun body => esc_notMem_body hb himage
  refine ⟨splitApc_chunks hne hclean hbefore hafter,
    stripKittyApc_chunks hne hclean hbefore hafter, fun body => readChunk_body himage, ?_⟩
  rw [received_chunkBodies hb himage, Option.bind_some, String.ofList_toList, hb.decode_encode]

section Demo

/-- The head of a file of 640 by 480, and what else is in it. -/
def pngFile (rest : List UInt8) : List UInt8 :=
  pngSignature ++ [0, 0, 0, 13] ++ ihdr ++ [0, 0, 2, 128] ++ [0, 0, 1, 224] ++ rest

def noDecoders : Decoders := ⟨fun _ => none, fun _ => none, fun _ => none⟩

def deflated (data : List UInt8) : List UInt8 := [0x78, 0x01] ++ data

theorem length_pngFile (rest : List UInt8) : (pngFile rest).length = 24 + rest.length := by
  simp only [pngFile, pngSignature, ihdr, List.length_append, List.length_cons, List.length_nil]

theorem prepare_pngFile (rest : List UInt8) : prepare noDecoders (pngFile rest) deflated =
    some ((640, 480), ⟨"f=100,", pngFile rest⟩) := by
  have hlength : ¬ (pngFile rest).length < 24 := by
    rw [length_pngFile]
    omega
  have hsize : pngSize (pngFile rest) = some (640, 480) := by
    have hwidth : ofBeBytes [0, 0, 2, 128] = 640 := by decide
    have hheight : ofBeBytes [0, 0, 1, 224] = 480 := by decide
    rw [pngSize, if_neg]
    · change (if 0 < ofBeBytes [0, 0, 2, 128] ∧ 0 < ofBeBytes [0, 0, 1, 224] then
        some (ofBeBytes [0, 0, 2, 128], ofBeBytes [0, 0, 1, 224]) else none) = _
      rw [hwidth, hheight, if_pos (by decide)]
    · rintro (h | h | h)
      · exact hlength h
      · exact h rfl
      · exact h rfl
  rw [prepare, hsize]

/-- A file that takes two chunks, between two letters. -/
theorem encodeApc_transmission_png :
    let file := pngFile (List.replicate 3100 7)
    let bodies := chunkBodies Base64.standard file (apcKeys "f=100," 3 2) []
    bodies.length = 2 ∧
      splitApc (['a'] ++ encodeApc Base64.standard ⟨"f=100,", file⟩ 3 2 ++ ['b']) =
        [.text ['a']] ++ bodies.map (fun body => .apc (apc body)) ++ [.text ['b']] ∧
      stripKittyApc (String.ofList (['a'] ++ encodeApc Base64.standard ⟨"f=100,", file⟩ 3 2 ++ ['b'])) = "ab" ∧
      (∀ body ∈ bodies, ∃ more piece,
        readChunk body = some (more, piece) ∧ piece.length ≤ 4096) ∧
      (received bodies).bind (fun text => Base64.standard.decode (String.ofList text)) = some file := by
  intro file bodies
  obtain ⟨hsplit, hstrip, hread, hback⟩ := encodeApc_transmission Base64.standard_lawful
    (fun _ => List.cons_ne_nil _ _) (prepare_pngFile (List.replicate 3100 7)) 3 2
    (show Text.splitOnceText apcStart ['a'] = none by decide)
    (show Text.splitOnceText apcStart ['b'] = none by decide)
  have htext : (Base64.standard.encode file).toList.length = 4168 := by
    change (String.ofList (Base64.encodeChars file)).toList.length = 4168
    rw [String.toList_ofList, Base64.length_encodeChars]
    rw [length_pngFile, List.length_replicate]
  have hcount : bodies.length = 2 := by
    rw [length_chunkBodies, htext]
    decide
  exact ⟨hcount, hsplit, hstrip, hread, hback⟩

end Demo

end Ralph.Chat.Image
