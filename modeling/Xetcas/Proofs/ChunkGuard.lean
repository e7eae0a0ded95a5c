import Xetcas.Formats.Xorb
import Xetcas.Routes.Xorbs

namespace Xetcas.Proofs.ChunkGuard
open Lib Formats Routes.Xorbs

/-- The length of the payload that a chunk header declares. -/
def declared (bytes : Bytes) : Nat :=
  u24 (bytes.getD 1 0) (bytes.getD 2 0) (bytes.getD 3 0)

/-- How the parser's walk over the frames ends. -/
inductive Ending where
  | endOfBody
  | footer
  /-- In the middle of a frame: the parse fails. -/
  | truncated
  deriving DecidableEq, Repr

/-- The walk of the documented parser (sections 3.2 and 3.5): how many frames
it reaches the payload of, and how it ends. -/
def parserWalk (bytes : Bytes) : Nat × Ending :=
  if bytes.isEmpty then (0, .endOfBody)
  else if atFooter bytes then (0, .footer)
  else if bytes.length < XORB_CHUNK_HEADER_LENGTH then (0, .truncated)
  else if bytes.length < XORB_CHUNK_HEADER_LENGTH + declared bytes then (1, .truncated)
  else
    let after := parserWalk (bytes.drop (XORB_CHUNK_HEADER_LENGTH + declared bytes))
    (after.1 + 1, after.2)
termination_by bytes.length
decreasing_by
  simp only [XORB_CHUNK_HEADER_LENGTH] at *
  rw [List.length_drop]
  omega

/-- The parser reads `n` whole frames and goes on with the rest. -/
inductive Frames : Nat → Bytes → Bytes → Prop
  | nil (rest : Bytes) : Frames 0 rest rest
  | cons {n : Nat} {bytes rest : Bytes} (goes : atFooter bytes = false)
    (whole : XORB_CHUNK_HEADER_LENGTH + declared bytes ≤ bytes.length)
    (more : Frames n (bytes.drop (XORB_CHUNK_HEADER_LENGTH + declared bytes)) rest) :
    Frames (n + 1) bytes rest

/-- There are `n` headers to read when nothing stops the reading but the end of
the bytes. -/
inductive Headers : Nat → Bytes → Prop
  | nil (bytes : Bytes) : Headers 0 bytes
  | cons {n : Nat} {bytes : Bytes} (header : XORB_CHUNK_HEADER_LENGTH ≤ bytes.length)
    (more : Headers n (bytes.drop (XORB_CHUNK_HEADER_LENGTH + declared bytes))) :
    Headers (n + 1) bytes

variable {bytes rest : Bytes} {n k : Nat}

/-- The guard looks for headers, and for nothing else. -/
theorem frameCountExceeds_iff {body : Bytes} {left offset : Nat} :
    frameCountExceeds body left offset = true ↔ Headers left (body.drop offset) := by
  induction left generalizing offset with
  | zero => exact ⟨fun _ => .nil _, fun _ => rfl⟩
  | succ left ih =>
    have hroom : offset + XORB_CHUNK_HEADER_LENGTH ≤ body.length ↔
        XORB_CHUNK_HEADER_LENGTH ≤ (body.drop offset).length := by
      rw [List.length_drop]
      unfold XORB_CHUNK_HEADER_LENGTH
      omega
    have hbyte : ∀ i, body.getD (offset + i) 0 = (body.drop offset).getD i 0 := by
      intro i
      rw [List.getD_eq_getElem?_getD, List.getD_eq_getElem?_getD, List.getElem?_drop]
    have hnext : frameCountExceeds body left
        (offset + (XORB_CHUNK_HEADER_LENGTH + declared (body.drop offset))) = true ↔ _ := ih
    rw [← List.drop_drop, ← Nat.add_assoc] at hnext
    simp only [frameCountExceeds, hbyte]
    by_cases h : offset + XORB_CHUNK_HEADER_LENGTH ≤ body.length
    · rw [if_pos h]
      refine hnext.trans ?_
      constructor
      · exact .cons (hroom.mp h)
      · intro hheaders
        cases hheaders with
        | cons _ more => exact more
    · rw [if_neg h]
      simp only [Bool.false_eq_true, false_iff]
      intro hheaders
      cases hheaders with
      | cons header _ => exact h (hroom.mpr header)

theorem exceeds_iff {body : Bytes} :
    chunkFrameCountExceedsLimit body = true ↔ Headers (MAX_CHUNKS_PER_XORB + 1) body :=
  frameCountExceeds_iff

theorem Headers.le (h : Headers n bytes) (hk : k ≤ n) : Headers k bytes := by
  induction h generalizing k with
  | nil bytes =>
    obtain rfl := Nat.le_zero.mp hk
    exact .nil bytes
  | cons header more ih =>
    cases k with
    | zero => exact .nil _
    | succ k => exact .cons header (ih (Nat.le_of_succ_le_succ hk))

/-- The headers of frames that were read are there for the guard as well. -/
theorem Frames.headers (h : Frames n bytes rest) : Headers (n + k) bytes ↔ Headers k rest := by
  induction h with
  | nil rest => rw [Nat.zero_add]
  | @cons n bytes rest goes whole more ih =>
    rw [Nat.add_right_comm, ← ih]
    constructor
    · intro hheaders
      cases hheaders with
      | cons _ more => exact more
    · exact .cons (by omega)

theorem Frames.walk (h : Frames n bytes rest) :
    parserWalk bytes = ((parserWalk rest).1 + n, (parserWalk rest).2) := by
  induction h with
  | nil rest => rfl
  | @cons n bytes rest goes whole more ih =>
    have hsome : bytes.isEmpty = false := by
      cases bytes with
      | nil => simp [XORB_CHUNK_HEADER_LENGTH] at whole
      | cons _ _ => rfl
    rw [parserWalk, hsome, goes, ih]
    simp only [Bool.false_eq_true, ↓reduceIte]
    rw [if_neg (by omega), if_neg (by omega)]
    rfl

theorem parserWalk_footer (h : atFooter bytes = true) : parserWalk bytes = (0, .footer) := by
  have hsome : bytes.isEmpty = false := by
    cases bytes with
    | nil => cases h
    | cons _ _ => rfl
  rw [parserWalk, hsome, h]
  rfl

/-- The walk reads whole frames up to the end, a footer or a frame that is cut
off. -/
theorem parserWalk_splits (bytes : Bytes) : ∃ n rest, Frames n bytes rest ∧
    (rest = [] ∧ parserWalk bytes = (n, .endOfBody) ∨
      atFooter rest = true ∧ parserWalk bytes = (n, .footer) ∨
      ∃ k, parserWalk bytes = (n + k, .truncated) ∧ Headers k rest) := by
  fun_induction parserWalk with
  | case1 bytes hempty => exact ⟨0, bytes, .nil bytes, .inl ⟨List.isEmpty_iff.mp hempty, rfl⟩⟩
  | case2 bytes hsome hmark => exact ⟨0, bytes, .nil bytes, .inr (.inl ⟨hmark, rfl⟩)⟩
  | case3 bytes hsome hgoes hshort => exact ⟨0, bytes, .nil bytes, .inr (.inr ⟨0, rfl, .nil bytes⟩)⟩
  | case4 bytes hsome hgoes hheader hcut =>
    exact ⟨0, bytes, .nil bytes, .inr (.inr ⟨1, rfl, .cons (by omega) (.nil _)⟩)⟩
  | case5 bytes hsome hgoes hheader hwhole after ih =>
    obtain ⟨n, rest, hframes, hend⟩ := ih
    refine ⟨n + 1, rest, .cons (by simpa using hgoes) (by omega) hframes, ?_⟩
    rcases hend with ⟨hnil, hwalk⟩ | ⟨hmark, hwalk⟩ | ⟨k, hwalk, hheaders⟩
    · exact .inl ⟨hnil, by simp only [after, hwalk]⟩
    · exact .inr (.inl ⟨hmark, by simp only [after, hwalk]⟩)
    · refine .inr (.inr ⟨k, ?_, hheaders⟩)
      simp only [after, hwalk, Nat.add_right_comm]

/-- What the guard lets through has no more frames for the parser to reach. -/
theorem passed_walk {body : Bytes} (h : chunkFrameCountExceedsLimit body = false) :
    (parserWalk body).1 ≤ MAX_CHUNKS_PER_XORB := by
  obtain ⟨n, rest, hframes, hend⟩ := parserWalk_splits body
  have hreached : Headers (parserWalk body).1 body := by
    rcases hend with ⟨_, hwalk⟩ | ⟨_, hwalk⟩ | ⟨k, hwalk, hheaders⟩
    · rw [hwalk]
      exact hframes.headers.mpr (.nil rest)
    · rw [hwalk]
      exact hframes.headers.mpr (.nil rest)
    · rw [hwalk]
      exact hframes.headers.mpr hheaders
  by_contra hmany
  have hguard := exceeds_iff.mpr (hreached.le (Nat.not_le.mp hmany))
  rw [h] at hguard
  cases hguard

/-- The guard and the parser's walk agree on a body. -/
structure GuardAgrees (body : Bytes) : Prop where
  passed : chunkFrameCountExceedsLimit body = false → (parserWalk body).1 ≤ MAX_CHUNKS_PER_XORB
  rejected : chunkFrameCountExceedsLimit body = true →
    (parserWalk body).2 = .truncated ∨ MAX_CHUNKS_PER_XORB < (parserWalk body).1

/-- The body ends in a footer after few enough frames, and what stands from the
footer's mark on reads as the headers that are missing to exceed the limit. -/
def FooterCounted (body : Bytes) : Prop :=
  ∃ n rest, n ≤ MAX_CHUNKS_PER_XORB ∧ Frames n body rest ∧ atFooter rest = true ∧
    Headers (MAX_CHUNKS_PER_XORB + 1 - n) rest

/-- The guard goes on into a footer; that is the only difference. -/
theorem guard_agrees_iff (body : Bytes) : GuardAgrees body ↔ ¬FooterCounted body := by
  constructor
  · intro h hfooter
    obtain ⟨n, rest, hfew, hframes, hmark, hheaders⟩ := hfooter
    have hguard : chunkFrameCountExceedsLimit body = true := by
      rw [exceeds_iff, show MAX_CHUNKS_PER_XORB + 1 = n + (MAX_CHUNKS_PER_XORB + 1 - n) by omega]
      exact hframes.headers.mpr hheaders
    have hwalk := hframes.walk
    rw [parserWalk_footer hmark, Nat.zero_add] at hwalk
    have hrejected := h.rejected hguard
    rw [hwalk] at hrejected
    rcases hrejected with hcut | hmany
    · cases hcut
    · omega
  · intro hno
    refine ⟨passed_walk, ?_⟩
    intro hguard
    rw [exceeds_iff] at hguard
    obtain ⟨n, rest, hframes, hend⟩ := parserWalk_splits body
    rcases hend with ⟨hnil, hwalk⟩ | ⟨hmark, hwalk⟩ | ⟨k, hwalk, _⟩
    · right
      by_contra hfew
      have hmore : Headers (n + 1) body := hguard.le (by rw [hwalk] at hfew; omega)
      rw [hframes.headers, hnil] at hmore
      cases hmore with
      | cons header _ => simp [XORB_CHUNK_HEADER_LENGTH] at header
    · right
      by_contra hfew
      rw [hwalk, Nat.not_lt] at hfew
      rw [show MAX_CHUNKS_PER_XORB + 1 = n + (MAX_CHUNKS_PER_XORB + 1 - n) by omega,
        hframes.headers] at hguard
      exact hno ⟨n, rest, hfew, hframes, hmark, hguard⟩
    · left
      rw [hwalk]

def emptyFrame : Bytes := List.replicate XORB_CHUNK_HEADER_LENGTH 0

/-- As many chunks as a xorb may have, and the first bytes of a footer. -/
def fullBody : Bytes :=
  (List.replicate MAX_CHUNKS_PER_XORB emptyFrame).flatten ++ (XORB_OBJECT_FORMAT_IDENT ++ [1])

theorem emptyFrames (n : Nat) (rest : Bytes) :
    Frames n ((List.replicate n emptyFrame).flatten ++ rest) rest := by
  induction n with
  | zero => exact .nil rest
  | succ n ih =>
    rw [List.replicate_succ, List.flatten_cons, List.append_assoc]
    exact .cons rfl (by simp [declared, emptyFrame, XORB_CHUNK_HEADER_LENGTH, u24]) ih

/-- The parser finds as many chunks as there may be, and the guard has counted
the footer as one more. -/
theorem full_body_rejected : parserWalk fullBody = (MAX_CHUNKS_PER_XORB, .footer) ∧
    ¬GuardAgrees fullBody ∧ ∀ U expected now, verifyXorb U fullBody expected now =
      .error (.badRequest s!"xorb declares more than {MAX_CHUNKS_PER_XORB} chunk frames") := by
  have hframes := emptyFrames MAX_CHUNKS_PER_XORB (XORB_OBJECT_FORMAT_IDENT ++ [1])
  have hwalk : parserWalk fullBody = (MAX_CHUNKS_PER_XORB, .footer) := by
    rw [fullBody, hframes.walk, parserWalk_footer rfl, Nat.zero_add]
  have hguard : chunkFrameCountExceedsLimit fullBody = true :=
    exceeds_iff.mpr (hframes.headers.mpr (.cons (by decide) (.nil _)))
  refine ⟨hwalk, ?_, ?_⟩
  · intro h
    have hrejected := h.rejected hguard
    rw [hwalk] at hrejected
    rcases hrejected with hcut | hmany
    · cases hcut
    · exact lt_irrefl _ hmany
  · intro U expected now
    rw [verifyXorb, if_pos hguard]

end Xetcas.Proofs.ChunkGuard
