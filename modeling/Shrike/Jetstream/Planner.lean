import Mathlib.Algebra.Group.Nat.Defs
import Shrike.Data.Result

/-!
# The snapshot planner

A page of a snapshot plan as the server sends it, the validation that makes it a plan page,
and the bookkeeping of a sweep over the pages: the tip that the first page pins, and the
coverage cursor.
-/

namespace Shrike.Jetstream

open Except

/-- Why an operation failed. The causes that the engine does not tell apart are of type `ε`. -/
inductive Error (ε : Type) where
  | canceled
  | invalidConfig (message : String)
  | planInvalid (message : String)
  | noProgress (message : String)
  | capability (message : String)
  | transport (message : String) (retryable : Bool)
  | protocol (name : String) (cause : ε)
  | invalidFrame (cause : ε)
  | other (cause : ε)
  deriving DecidableEq

variable {ε : Type}

/-! ### Plan pages -/

/-- An inclusive range of block indices within a segment. -/
structure BlockSpan where
  first : ℕ
  last : ℕ

/-- How a planned segment is to be downloaded. -/
inductive SegmentMode where
  | whole
  | blocks (spans : List BlockSpan)

/-- One validated segment of a plan. -/
structure PlanSegment where
  name : String
  index : ℕ
  minSeq : ℕ
  maxSeq : ℕ
  checksum : String
  mode : SegmentMode

/-- One validated page of a plan. -/
structure PlanPage where
  sealedTipSeq : ℕ
  plannedThroughSeq : ℕ
  segments : List PlanSegment

/-- A block range as the server sends it. -/
structure RawBlockRange where
  first : ℤ
  last : ℤ

/-- A segment as the server sends it. -/
structure RawSegment where
  name : String
  index : ℤ
  minSeq : ℤ
  maxSeq : ℤ
  checksum : String
  mode : String
  blocks : List RawBlockRange

/-- A plan page as the server sends it. -/
structure RawPlan where
  sealedTipSeq : ℤ
  plannedThroughSeq : ℤ
  segments : List RawSegment

/-- The bounds of a page: its exclusive floor, the caller's upper bound, and the tip of the
sweep once its first page has pinned it. -/
structure PlanBounds where
  after : ℕ
  before : Option ℕ
  pinnedTip : Option ℕ

/-- The sequence fields of a page request. -/
structure PlanInput where
  afterSeq : Option ℤ
  beforeSeq : Option ℤ

/-- The number of blocks that a segment can have. -/
def maxBlockCount : ℕ := 2 ^ 20

/-- A non-negative wire integer. -/
def nonneg (value : ℤ) (message : String) : Except (Error ε) ℕ :=
  if value < 0 then .error (.planInvalid message) else .ok value.toNat

/-- A sequence as a wire integer. -/
def seqToWire (seq : ℕ) : Except (Error ε) ℤ :=
  if seq < 2 ^ 63 then .ok seq
  else .error (.invalidConfig "sequence exceeds the wire integer range")

/-- The letters of a segment name. -/
def nameByte (b : UInt8) : Bool :=
  (48 ≤ b && b ≤ 57) || (65 ≤ b && b ≤ 90) || (97 ≤ b && b ≤ 122) || b == 46 || b == 45 || b == 95

/-- Whether two dots follow each other. -/
def twoDots : List UInt8 → Bool
  | a :: b :: bs => (a == 46 && b == 46) || twoDots (b :: bs)
  | _ => false

/-- Whether a segment name is a single, bounded path component. -/
def validateSegmentName (name : String) : Except (Error ε) Unit :=
  let bytes := name.toUTF8.toList
  if bytes.isEmpty || 255 < bytes.length then
    .error (.planInvalid "segment name is empty or too long")
  else if bytes == [46] || bytes == [46, 46] || twoDots bytes then
    .error (.planInvalid "segment name contains a path traversal")
  else if bytes.all nameByte then .ok ()
  else .error (.planInvalid "segment name has a disallowed character")

/-- Whether a checksum is 16 lowercase hexadecimal digits. -/
def validateChecksum (checksum : String) : Except (Error ε) Unit :=
  let bytes := checksum.toUTF8.toList
  if bytes.length ≠ 16 ∨ ¬bytes.all (fun b => (48 ≤ b && b ≤ 57) || (97 ≤ b && b ≤ 102)) then
    .error (.planInvalid "segment checksum is not 16 lowercase hex digits")
  else .ok ()

/-- A wire block index. -/
def blockIndex (value : ℤ) : Except (Error ε) ℕ :=
  if 0 ≤ value ∧ value < maxBlockCount then .ok value.toNat
  else .error (.planInvalid "block index is out of range")

/-- The block ranges after one that ends at `prevLast`. -/
def blockSpansAfter (prevLast : Option ℕ) : List RawBlockRange → Except (Error ε) (List BlockSpan)
  | [] => .ok []
  | range :: ranges => do
      let first ← blockIndex range.first
      let last ← blockIndex range.last
      if last < first then .error (.planInvalid "block range is inverted")
      else if prevLast.any (first ≤ ·) then
        .error (.planInvalid "block ranges are not strictly increasing")
      else do
        let spans ← blockSpansAfter (some last) ranges
        .ok ({ first, last } :: spans)

/-- The block ranges of a segment in blocks mode. -/
def validateBlockSpans (raw : List RawBlockRange) : Except (Error ε) (List BlockSpan) :=
  if raw.isEmpty then .error (.planInvalid "blocks-mode segment listed no block ranges")
  else blockSpansAfter none raw

/-- How a segment is to be downloaded. -/
def segmentMode (raw : RawSegment) : Except (Error ε) SegmentMode :=
  if raw.mode = "segment" then
    if raw.blocks.isEmpty then .ok .whole
    else .error (.planInvalid "whole-segment plan entry carried block ranges")
  else if raw.mode = "blocks" then .blocks <$> validateBlockSpans raw.blocks
  else .error (.planInvalid "segment mode was neither 'segment' nor 'blocks'")

/-- One segment of a plan page. -/
def validateSegment (raw : RawSegment) : Except (Error ε) PlanSegment := do
  validateSegmentName raw.name
  validateChecksum raw.checksum
  let index ← nonneg raw.index "segment index was negative"
  let minSeq ← nonneg raw.minSeq "segment minSeq was negative"
  let maxSeq ← nonneg raw.maxSeq "segment maxSeq was negative"
  if minSeq = 0 ∨ maxSeq < minSeq then
    .error (.planInvalid "segment sequence span is empty or inverted")
  else do
    let mode ← segmentMode raw
    .ok { name := raw.name, index, minSeq, maxSeq, checksum := raw.checksum, mode }

/-- The segments of a plan page, after the ones in `segments`. -/
def validateSegments (maxPlanSegments : ℕ) (segments : List PlanSegment) :
    List RawSegment → Except (Error ε) (List PlanSegment)
  | [] => .ok segments
  | raw :: raws =>
      if maxPlanSegments ≤ segments.length then
        .error (.planInvalid "planSnapshot returned too many segments")
      else do
        let segment ← validateSegment raw
        if segments.getLast?.any (segment.index < ·.index) then
          .error (.planInvalid "segment indices decreased within a page")
        else validateSegments maxPlanSegments (segments ++ [segment]) raws

/-- The sequence fields that a request for a page has. -/
def planInput (bounds : PlanBounds) : Except (Error ε) PlanInput := do
  let after ← seqToWire bounds.after
  let afterSeq := match bounds.pinnedTip with
    | none => if 0 < bounds.after then some after else none
    | some _ => some after
  let beforeSeq ← match bounds.pinnedTip with
    | none => bounds.before.mapM seqToWire
    | some tip => some <$> seqToWire tip
  .ok { afterSeq, beforeSeq }

/-- The page that a response contains. The response has no value if it is not valid JSON. -/
def planPageOf (maxPlanSegments : ℕ) : Option RawPlan → Except (Error ε) PlanPage
  | none => .error (.planInvalid "planSnapshot response was not valid JSON")
  | some raw => do
      let tip ← nonneg raw.sealedTipSeq "sealedTipSeq was negative"
      let pts ← nonneg raw.plannedThroughSeq "plannedThroughSeq was negative"
      if tip < pts then .error (.planInvalid "plannedThroughSeq exceeded the sealed tip")
      else do
        let segments ← validateSegments maxPlanSegments [] raw.segments
        .ok { sealedTipSeq := tip, plannedThroughSeq := pts, segments }

/-- Fetch and validate one plan page. -/
def planPage (cancelled : Bool) (maxPlanSegments : ℕ)
    (controlRequest : PlanInput → Except (Error ε) (Option RawPlan)) (bounds : PlanBounds) :
    Except (Error ε) PlanPage :=
  if cancelled then .error .canceled
  else do
    let input ← planInput bounds
    let response ← controlRequest input
    planPageOf maxPlanSegments response

/-! ### Sweeps -/

/-- The bookkeeping of a sweep over the pages of a plan. -/
structure PlanSweep where
  callerAfter : ℕ
  callerBefore : Option ℕ
  pinnedTip : Option ℕ
  plannedThrough : ℕ
  lastIndex : Option ℕ
  pages : ℕ
  maxPages : ℕ

namespace PlanSweep

/-- A sweep over the sequences after `after`, up to `before`, with a page budget. -/
def new (after : ℕ) (before : Option ℕ) (maxPages : ℕ) : PlanSweep where
  callerAfter := after
  callerBefore := before
  pinnedTip := none
  plannedThrough := after
  lastIndex := none
  pages := 0
  maxPages := maxPages

/-- The bounds of the next page. -/
def bounds (sweep : PlanSweep) : PlanBounds where
  after := sweep.plannedThrough
  before := sweep.callerBefore
  pinnedTip := sweep.pinnedTip

/-- The last index of the segments, which may repeat and never decrease. -/
def absorbIndices (lastIndex : Option ℕ) : List PlanSegment → Except (Error ε) (Option ℕ)
  | [] => .ok lastIndex
  | segment :: segments =>
      if lastIndex.any (segment.index < ·) then
        .error (.planInvalid "segment indices decreased across pages")
      else absorbIndices (some segment.index) segments

/-- The tip of a sweep after a page that reports `tip`. -/
def pinTip (tip : ℕ) : Option ℕ → Except (Error ε) ℕ
  | none => .ok tip
  | some pinned =>
      if tip = pinned then .ok pinned
      else .error (.planInvalid "sealedTipSeq drifted between pages")

/-- Take a fetched page into account. -/
def absorb (sweep : PlanSweep) (page : PlanPage) : Except (Error ε) PlanSweep :=
  if sweep.maxPages < sweep.pages + 1 then
    .error (.planInvalid "planSnapshot exceeded the maximum page count")
  else do
    let tip ← pinTip page.sealedTipSeq sweep.pinnedTip
    let lastIndex ← absorbIndices sweep.lastIndex page.segments
    if page.plannedThroughSeq ≤ sweep.plannedThrough ∧ page.plannedThroughSeq < page.sealedTipSeq then
      .error (.planInvalid "planSnapshot page did not advance coverage")
    else
      .ok { sweep with
        pinnedTip := some tip
        plannedThrough := max sweep.plannedThrough page.plannedThroughSeq
        lastIndex := lastIndex
        pages := sweep.pages + 1 }

/-- The pinned tip, once a page has been absorbed. -/
def tip (sweep : PlanSweep) : Option ℕ := sweep.pinnedTip

/-- Whether the coverage has reached the pinned tip. -/
def done (sweep : PlanSweep) : Bool :=
  sweep.pinnedTip.any (· ≤ sweep.plannedThrough)

/-- What an absorbed page does to a sweep. -/
theorem absorb_ok {sweep absorbed : PlanSweep} {page : PlanPage}
    (h : (sweep.absorb page : Except (Error ε) PlanSweep) = .ok absorbed) :
  (sweep.pinnedTip = none ∨ sweep.pinnedTip = some page.sealedTipSeq) ∧
    absorbed.pinnedTip = some page.sealedTipSeq ∧
    absorbed.plannedThrough = max sweep.plannedThrough page.plannedThroughSeq ∧
    absorbed.callerBefore = sweep.callerBefore
  := by
  rw [absorb] at h
  split at h
  · cases h
  · rw [bind_eq_ok] at h
    obtain ⟨tip, htip, h⟩ := h
    rw [bind_eq_ok] at h
    obtain ⟨lastIndex, -, h⟩ := h
    have hpinned : (sweep.pinnedTip = none ∨ sweep.pinnedTip = some page.sealedTipSeq) ∧
        tip = page.sealedTipSeq := by
      cases hs : sweep.pinnedTip with
      | none =>
          rw [hs, pinTip] at htip
          cases htip
          exact ⟨.inl rfl, rfl⟩
      | some pinned =>
          rw [hs, pinTip] at htip
          split at htip
          · rename_i heq
            cases htip
            rw [heq]
            exact ⟨.inr rfl, rfl⟩
          · cases htip
    split at h
    · cases h
    · cases h
      exact ⟨hpinned.1, by rw [hpinned.2], rfl, rfl⟩

/-- The tip does not change once it is pinned. -/
theorem absorb_tip {sweep absorbed absorbed' : PlanSweep} {page page' : PlanPage}
    (h : (sweep.absorb page : Except (Error ε) PlanSweep) = .ok absorbed)
    (h' : (absorbed.absorb page' : Except (Error ε) PlanSweep) = .ok absorbed') :
  absorbed'.tip = absorbed.tip
  := by
  have hpinned := (absorb_ok h).2.1
  obtain ⟨hkept, hpinned', -, -⟩ := absorb_ok h'
  rw [hpinned] at hkept
  rw [tip, tip, hpinned', hpinned]
  rcases hkept with hkept | hkept
  · cases hkept
  · exact hkept.symm

end PlanSweep

end Shrike.Jetstream
