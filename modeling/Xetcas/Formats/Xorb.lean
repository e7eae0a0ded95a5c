import Xetcas.Formats.Hash

namespace Xetcas.Formats
open Lib

-- Xorb objects (section 3).

def u24 (b₀ b₁ b₂ : UInt8) : Nat := b₀.toNat + 256 * b₁.toNat + 65536 * b₂.toNat

def MAX_CHUNK_SIZE : Nat := 131072

/-- `XETBLOB`. -/
def XORB_OBJECT_FORMAT_IDENT : Bytes := [88, 69, 84, 66, 76, 79, 66]

/-- `XBLBHSH`. -/
def IDENT_HASH_SECTION : Bytes := [88, 66, 76, 66, 72, 83, 72]

/-- `XBLBBND`. -/
def IDENT_BOUNDARY_SECTION : Bytes := [88, 66, 76, 66, 66, 78, 68]

def atFooter (reader : Bytes) : Bool := reader.take 7 == XORB_OBJECT_FORMAT_IDENT

section Frames
variable (P : Primitives)

/-- A chunk frame read off the front: its content and what follows it. -/
def deserializeChunk : Bytes → Except String (Bytes × Bytes)
  | version :: c₀ :: c₁ :: c₂ :: scheme :: u₀ :: u₁ :: u₂ :: reader =>
    let compressedLength := u24 c₀ c₁ c₂
    let uncompressedLength := u24 u₀ u₁ u₂
    if atFooter [version, c₀, c₁, c₂, scheme, u₀, u₁] ∨ version ≠ 0 ∨
        2 * MAX_CHUNK_SIZE < compressedLength ∨ MAX_CHUNK_SIZE < uncompressedLength then
      .error "chunk header parse"
    else if reader.length < compressedLength then .error "failed to fill whole buffer"
    else
      match P.decompress scheme (reader.take compressedLength) with
      | none => .error "decompression failed"
      | some content =>
        if content.length ≠ uncompressedLength then .error "chunk length mismatch"
        else .ok (content, reader.drop compressedLength)
  | _ => .error "failed to fill whole buffer"

/-- What a read takes is a frame wherever it stands. -/
theorem deserializeChunk_frame {reader content rest : Bytes}
    (h : deserializeChunk P reader = .ok (content, rest)) :
    ∃ frame, reader = frame ++ rest ∧ XORB_CHUNK_HEADER_LENGTH ≤ frame.length ∧
      ∀ after, deserializeChunk P (frame ++ after) = .ok (content, after) := by
  unfold deserializeChunk at h
  split at h
  · rename_i version c₀ c₁ c₂ scheme u₀ u₁ u₂ reader
    simp only at h
    split at h
    · cases h
    · rename_i hheader
      split at h
      · cases h
      · rename_i hfull
        split at h
        · cases h
        · rename_i content' hcontent
          split at h
          · cases h
          · rename_i hlength
            cases h
            have htake : (reader.take (u24 c₀ c₁ c₂)).length = u24 c₀ c₁ c₂ := by simp; omega
            refine ⟨version :: c₀ :: c₁ :: c₂ :: scheme :: u₀ :: u₁ :: u₂ ::
              reader.take (u24 c₀ c₁ c₂), by simp, by simp [XORB_CHUNK_HEADER_LENGTH], ?_⟩
            intro after
            simp only [List.cons_append, deserializeChunk, hheader, ↓reduceIte,
              List.length_append, htake, List.take_left' htake, List.drop_left' htake, hcontent,
              hlength]
            simp
  · cases h

/-- The frames of a body, up to its end or a footer, each with its content. -/
def parseFrames : Nat → Bytes → Except String (List (Bytes × Bytes))
  | 0, _ => .ok []
  | fuel + 1, reader =>
    if reader.isEmpty ∨ atFooter reader then .ok []
    else do
      let (content, rest) ← deserializeChunk P reader
      let more ← parseFrames fuel rest
      .ok ((reader.take (reader.length - rest.length), content) :: more)

end Frames

/-- `XorbObjectInfoV1`. -/
def footer (hash : MerkleHash) (hashes : List MerkleHash) (boundary unpacked : List Nat) : Bytes :=
  let n := hashes.length
  XORB_OBJECT_FORMAT_IDENT ++ [1] ++ hash.bytes ++
    IDENT_HASH_SECTION ++ [0] ++ u32Bytes n ++ hashes.flatMap MerkleHash.bytes ++
    IDENT_BOUNDARY_SECTION ++ [1] ++ u32Bytes n ++ boundary.flatMap u32Bytes ++
    unpacked.flatMap u32Bytes ++
    u32Bytes n ++ u32Bytes ((12 + 32 * n) + (44 + 8 * n)) ++ u32Bytes (44 + 8 * n) ++
    List.replicate 16 0

def reconstructXorbWithFooter (P : Primitives) (body : Bytes) :
    Except String (Bytes × XorbInfo × MerkleHash) := do
  let parsed ← parseFrames P body.length body
  let frames := parsed.map Prod.fst
  let chunks := parsed.map Prod.snd
  let boundary := endsOf (frames.map List.length)
  let unpacked := endsOf (chunks.map List.length)
  if UInt32.size ≤ frames.flatten.length ∨ UInt32.size ≤ chunks.flatten.length then
    .error "xorb offsets exceed 32 bits"
  else
    let hashes := chunks.map (computeDataHash P)
    let hash := xorbHash P (hashes.zip (chunks.map List.length))
    let info := footer hash hashes boundary unpacked
    .ok (frames.flatten ++ info ++ u32Bytes info.length,
      ⟨UInt32.ofNat chunks.length, boundary.map UInt32.ofNat, unpacked.map UInt32.ofNat, hashes⟩,
      hash)

section Laws
variable {P : Primitives}

/-- The reader takes exactly this frame, wherever it stands. -/
def FrameOf (P : Primitives) (frame content : Bytes) : Prop :=
  XORB_CHUNK_HEADER_LENGTH ≤ frame.length ∧
    ∀ rest, deserializeChunk P (frame ++ rest) = .ok (content, rest)

theorem parseFrames_frame {fuel : Nat} {reader : Bytes} {parsed : List (Bytes × Bytes)}
    (h : parseFrames P fuel reader = .ok parsed) : ∀ p ∈ parsed, FrameOf P p.1 p.2 := by
  induction fuel generalizing reader parsed with
  | zero =>
    cases h
    simp
  | succ fuel ih =>
    unfold parseFrames at h
    split at h
    · cases h
      simp
    · obtain ⟨⟨content, rest⟩, hchunk, hrest⟩ := bind_eq_ok.mp h
      obtain ⟨more, hmore, he⟩ := bind_eq_ok.mp hrest
      cases he
      obtain ⟨frame, hsplit, hframe⟩ := deserializeChunk_frame P hchunk
      have htake : reader.take (reader.length - rest.length) = frame := by simp [hsplit]
      intro p hp
      rcases List.mem_cons.mp hp with rfl | hp
      · rw [htake]
        exact hframe
      · exact ih hmore p hp

/-- Offsets that fit are written as they are. -/
theorem map_toNat_ofNat {lens : List Nat} (h : lens.sum < UInt32.size) :
    ((endsOf lens).map UInt32.ofNat).map UInt32.toNat = endsOf lens := by
  rw [List.map_map]
  calc (endsOf lens).map (UInt32.toNat ∘ UInt32.ofNat) = (endsOf lens).map id := by
        apply List.map_congr_left
        intro e he
        exact UInt32.toNat_ofNat_of_lt' (lt_of_le_of_lt (mem_endsOf_le he) h)
    _ = endsOf lens := List.map_id _

end Laws

end Xetcas.Formats
