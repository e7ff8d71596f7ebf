import Shrike.Jetstream.Segment

/-!
# Opened segments

The same readers with every index, range and sum of machine integers that the source leaves
unchecked written out, so that one out of bounds is a panic. None of them is, whatever the bytes
are, and a segment that opens has its blocks apart and in order between the header and the footer.
-/

namespace Shrike.Jetstream

open Bytes Except

/-! ### Machine integers -/

/-- The width of a pointer. -/
inductive PointerWidth where
  | bits32
  | bits64

namespace PointerWidth

/-- The largest number of the width of a pointer. -/
def usizeMax : PointerWidth → ℕ
  | bits32 => 2 ^ 32 - 1
  | bits64 => 2 ^ 64 - 1

/-- A number of 64 bits as one of the width of a pointer, if it fits. -/
def asUsize (w : PointerWidth) (v : ℕ) : Except Halt ℕ :=
  if v ≤ w.usizeMax then .ok v
  else .error (.error (.corruptSegment "offset exceeds address space"))

/-- The cast of a number, which drops the bits that do not fit. -/
def cast (w : PointerWidth) (v : ℕ) : ℕ := v % (w.usizeMax + 1)

/-- The sum of two numbers. -/
def add (w : PointerWidth) (a b : ℕ) : Except Halt ℕ :=
  if a + b ≤ w.usizeMax then .ok (a + b) else .error .panic

/-- The product of two numbers. -/
def mul (w : PointerWidth) (a b : ℕ) : Except Halt ℕ :=
  if a * b ≤ w.usizeMax then .ok (a * b) else .error .panic

/-- The sum of two numbers, if it fits. -/
def checkedAdd (w : PointerWidth) (a b : ℕ) : Option ℕ :=
  if a + b ≤ w.usizeMax then some (a + b) else none

/-- The product of two numbers, if it fits. -/
def checkedMul (w : PointerWidth) (a b : ℕ) : Option ℕ :=
  if a * b ≤ w.usizeMax then some (a * b) else none

variable (w : PointerWidth)

theorem le_usizeMax :
  2 ^ 32 - 1 ≤ w.usizeMax
  := by
  cases w <;> decide

theorem usizeMax_lt :
  w.usizeMax < 2 ^ 64
  := by
  cases w <;> decide

variable {w} {a b : ℕ}

theorem asUsize_of_le (h : a ≤ w.usizeMax) :
  w.asUsize a = .ok a
  := by
  rw [asUsize, if_pos h]

theorem cast_of_le (h : a ≤ w.usizeMax) :
  w.cast a = a
  := by
  apply Nat.mod_eq_of_lt
  omega

theorem add_of_le (h : a + b ≤ w.usizeMax) :
  w.add a b = .ok (a + b)
  := by
  rw [add, if_pos h]

theorem mul_of_le (h : a * b ≤ w.usizeMax) :
  w.mul a b = .ok (a * b)
  := by
  rw [mul, if_pos h]

end PointerWidth

/-- The number of `k` bytes at an index. -/
def readAt (k : ℕ) (b : Bytes) (off : ℕ) : Except Halt ℕ := do
  let bytes ← (List.range k).mapM fun i => byteAt b (off + i)
  .ok (ofLe bytes)

/-- The signed number of eight bytes at an index. -/
def readI64At (b : Bytes) (off : ℕ) : Except Halt Int64 := do
  let v ← readAt 8 b off
  .ok (UInt64.ofNat v).toInt64

variable {k off : ℕ}

theorem mapM_byteAt {b : Bytes} (h : off + k ≤ b.length) :
  ((List.range k).mapM fun i => byteAt b (off + i)) = .ok ((b.drop off).take k)
  := by
  induction k with
  | zero => rfl
  | succ k ih =>
      have hbyte : byteAt b (off + k) = .ok b[off + k] := by
        rw [byteAt, List.getElem?_eq_getElem (by omega), ofOption]
      have hlen : k < (b.drop off).length := by
        rw [List.length_drop]
        omega
      rw [List.range_succ, List.mapM_append, ih (by omega), ok_bind, List.mapM_cons, hbyte,
        List.take_succ_eq_append_getElem hlen, List.getElem_drop]
      rfl

/-- Nothing is read out of bounds where there are enough bytes. -/
theorem readAt_eq {b : Bytes} (h : off + k ≤ b.length) :
  readAt k b off = .ok (readLe k b off)
  := by
  rw [readAt, mapM_byteAt h, ok_bind, readLe]

theorem readI64At_eq {b : Bytes} (h : off + 8 ≤ b.length) :
  readI64At b off = .ok (readI64 b off)
  := by
  rw [readI64At, readAt_eq h, ok_bind, readI64]

theorem getRange_eq_some {b s : Bytes} {start stop : ℕ} :
  getRange b start stop = some s
    ↔ start ≤ stop ∧ stop ≤ b.length ∧ (b.take stop).drop start = s
  := by
  rw [getRange]
  split_ifs with h
  · simp [h]
  · constructor
    · nofun
    · rintro ⟨hstart, hstop, -⟩
      exact absurd ⟨hstart, hstop⟩ h

theorem length_getRange {b s : Bytes} {start stop : ℕ} (h : getRange b start stop = some s) :
  s.length = stop - start
  := by
  obtain ⟨hstart, hstop, rfl⟩ := getRange_eq_some.mp h
  rw [List.length_drop, List.length_take_of_le hstop]

/-! ### The readers with their panics -/

namespace Guarded

/-- The header that a segment starts with. -/
def parse (bytes : Bytes) : Except Halt SealedHeader := do
  let head ← ofOption (.error (.truncated "segment header")) (getRange bytes 0 reservedHeaderBytes)
  let magic ← slice head 0 4
  refuse (magic ≠ ascii "jss0") (.error (.corruptSegment "bad segment magic"))
  let checksum ← readAt 8 head 4
  refuse (checksum = 0) (.error .activeSegment)
  let version ← readAt 2 head 12
  refuse (version ≠ segmentVersion) (.error (.unsupportedSegmentVersion version segmentVersion))
  let blockCount ← readAt 4 head 14
  let eventCount ← readAt 4 head 18
  let uniqueDidCount ← readAt 4 head 22
  let minSeq ← readAt 8 head 26
  let maxSeq ← readAt 8 head 34
  let minWitnessedAt ← readI64At head 42
  let maxWitnessedAt ← readI64At head 50
  let footerOffset ← readAt 8 head 58
  let didBloomOffset ← readAt 8 head 66
  let blockDidBloomOffset ← readAt 8 head 74
  let collectionIndexOffset ← readAt 8 head 82
  let blockIndexOffset ← readAt 8 head 90
  .ok { checksum, version, blockCount, eventCount, uniqueDidCount, minSeq, maxSeq, minWitnessedAt,
        maxWitnessedAt, footerOffset, didBloomOffset, blockDidBloomOffset, collectionIndexOffset,
        blockIndexOffset }

/-- Check that the sections are in order in a file of the given length. -/
def validateLayout (h : SealedHeader) (fileLen : ℕ) : Except Halt Unit :=
  (h.validateLayout (fileLen % 2 ^ 64)).mapError Halt.error

variable (w : PointerWidth)

/-- Check the checksum of a segment. -/
def verifyChecksum [Xxh3] (h : SealedHeader) (segment : Bytes) : Except Halt Unit := do
  validateLayout h segment.length
  let footerOffset := w.cast h.footerOffset
  let header ← ofOption (.error (.truncated "segment header"))
    (getRange segment 12 reservedHeaderBytes)
  let footer ← ofOption (.error (.truncated "segment footer"))
    (getRange segment footerOffset segment.length)
  let computed := Xxh3.hash (header ++ footer)
  refuse (computed ≠ h.checksum) (.error (.checksumMismatch computed h.checksum))

/-- The header of a segment, with the checksum of the segment checked. -/
def readSealedHeader [Xxh3] (segment : Bytes) : Except Halt SealedHeader := do
  let header ← parse segment
  verifyChecksum w header segment
  .ok header

/-- The entry that bytes spell. -/
def readEntry (e : Bytes) : Except Halt BlockIndexEntry := do
  let offset ← readAt 8 e 0
  let compressedSize ← readAt 4 e 8
  let uncompressedSize ← readAt 4 e 12
  let eventCount ← readAt 4 e 16
  let minSeq ← readAt 8 e 20
  let maxSeq ← readAt 8 e 28
  let minWitnessedAt ← readI64At e 36
  let maxWitnessedAt ← readI64At e 44
  .ok { offset, compressedSize, uncompressedSize, eventCount, minSeq, maxSeq, minWitnessedAt,
        maxWitnessedAt }

/-- The entry at an index of the bytes of the index of the blocks. -/
def entryAt (buf : Bytes) (i : ℕ) : Except Halt BlockIndexEntry := do
  let start ← w.mul i blockIndexEntrySize
  let next ← w.add i 1
  let stop ← w.mul next blockIndexEntrySize
  let e ← slice buf start stop
  readEntry e

/-- The index of the blocks of a segment. -/
def decodeBlockIndex (header : SealedHeader) (segment : Bytes) :
    Except Halt (List BlockIndexEntry) := do
  refuse (SegmentReader.maxBlockCount < header.blockCount)
    (.error (.limitExceeded "block count" header.blockCount SegmentReader.maxBlockCount))
  let count := w.cast header.blockCount
  let bytesLen ← ofOption (.error (.corruptSegment "block index size overflow"))
    (w.checkedMul count blockIndexEntrySize)
  let start ← w.asUsize header.blockIndexOffset
  let stop ← ofOption (.error (.corruptSegment "block index end overflow"))
    (w.checkedAdd start bytesLen)
  refuse (header.didBloomOffset < stop)
    (.error (.corruptSegment "block index overruns its footer section"))
  let buf ← ofOption (.error (.truncated "block index")) (getRange segment start stop)
  (List.range count).mapM (entryAt w buf)

/-- Read the header and the index of a segment. -/
def «open» [Xxh3] (segment : Bytes) : Except Halt SegmentReader := do
  let header ← readSealedHeader w segment
  let blocks ← decodeBlockIndex w header segment
  (validateBlockOffsets header blocks).mapError Halt.error
  .ok { segment, header, blocks }

/-- The compressed block at an index. -/
def blockFrame (r : SegmentReader) (idx : ℕ) : Except Halt Bytes := do
  let entry ← ofOption (.error (.corruptSegment "block index out of range")) r.blocks[idx]?
  let offset ← w.asUsize entry.offset
  let stop ← w.add offset 8
  let pre ← ofOption (.error (.truncated "block length prefix")) (getRange r.segment offset stop)
  refuse (ofLe pre ≠ entry.compressedSize)
    (.error (.corruptSegment "block length prefix disagrees with block index"))
  let start ← w.add offset 8
  let stop ← w.add start (w.cast entry.compressedSize)
  ofOption (.error (.truncated "block frame")) (getRange r.segment start stop)

end Guarded

/-! ### No panics -/

/-- A computation with its panics does not panic, and its results are those of the computation
without them. -/
def Within {α : Type} (x : Except Halt α) (y : Except DecodeError α) : Prop :=
  x ≠ .error .panic ∧ ∀ a, x = .ok a → y = .ok a

section

variable {α β : Type} {x : Except Halt α} {y : Except DecodeError α}

theorem Within.bind {f : α → Except Halt β} {g : α → Except DecodeError β} (h : Within x y)
    (hf : ∀ a, y = .ok a → Within (f a) (g a)) :
  Within (x >>= f) (y >>= g)
  := by
  rcases hx : x with e | a
  · constructor
    · rintro hpanic
      cases hpanic
      exact h.1 hx
    · nofun
  · have hy := h.2 a hx
    rw [hy, ok_bind, ok_bind]
    apply hf a hy

theorem within_ok (a : α) :
  Within (.ok a) (.ok a)
  := ⟨nofun, fun _ h => by cases h; rfl⟩

theorem within_mapError (y : Except DecodeError α) :
  Within (y.mapError Halt.error) y
  := by
  cases y with
  | error e => exact ⟨nofun, nofun⟩
  | ok a => apply within_ok

variable {e e' : DecodeError}

theorem within_refuse {p : Prop} [Decidable p] :
  Within (refuse p (.error e)) (refuse p e)
  := by
  rw [refuse, refuse]
  split_ifs
  · exact ⟨fun h => (by cases h), fun _ h => (by cases h)⟩
  · apply within_ok

/-- An option that is refused gives an error, whatever the other computation does. -/
theorem within_ofOption {o o' : Option α} (h : ∀ a, o = some a → o' = some a) :
  Within (ofOption (.error e) o) (ofOption e' o')
  := by
  cases o with
  | none => exact ⟨nofun, nofun⟩
  | some a =>
      rw [h a rfl]
      apply within_ok

theorem within_error :
  Within (.error (.error e)) y
  := ⟨nofun, nofun⟩

end

theorem slice_eq {b : Bytes} {start stop : ℕ} (hstart : start ≤ stop) (hstop : stop ≤ b.length) :
  slice b start stop = .ok ((b.take stop).drop start)
  := by
  rw [slice, if_pos ⟨hstart, hstop⟩]

/-- The parts of a header are where a header has them. -/
theorem parse_within (bytes : Bytes) :
  Within (Guarded.parse bytes) (SealedHeader.parse bytes)
  := by
  apply Within.bind (within_ofOption fun _ h => h)
  intro head hhead
  have hlen : head.length = 256 := length_getRange (ofOption_eq_ok.mp hhead)
  rw [slice_eq (by omega) (by omega)]
  simp (disch := omega) only [readAt_eq, readI64At_eq, ok_bind, List.drop_zero]
  apply Within.bind within_refuse
  intro _ _
  apply Within.bind within_refuse
  intro _ _
  apply Within.bind within_refuse
  intro _ _
  apply within_ok

section

variable {w : PointerWidth} {segment : Bytes} (hlen : segment.length ≤ w.usizeMax)

include hlen in
theorem validateLayout_within (h : SealedHeader) :
  Within (Guarded.validateLayout h segment.length) (h.validateLayout segment.length)
  := by
  have hcast : segment.length % 2 ^ 64 = segment.length := by
    apply Nat.mod_eq_of_lt
    apply Nat.lt_of_le_of_lt hlen w.usizeMax_lt
  rw [Guarded.validateLayout, hcast]
  apply within_mapError

variable {i n idx count footer fileLen : ℕ}

theorem validateLayout_eq_ok {h : SealedHeader} :
  h.validateLayout fileLen = .ok () ↔
    reservedHeaderBytes ≤ h.footerOffset ∧ h.blockIndexOffset = h.footerOffset
    ∧ h.footerOffset ≤ h.didBloomOffset ∧ h.didBloomOffset ≤ h.blockDidBloomOffset
    ∧ h.blockDidBloomOffset ≤ h.collectionIndexOffset ∧ h.collectionIndexOffset ≤ fileLen
  := by
  rw [SealedHeader.validateLayout, bind_eq_ok]
  simp only [refuse_eq_ok, bind_eq_ok, Nat.not_lt, Decidable.not_not, exists_const,
    ne_eq]

include hlen in
/-- The cast of the offset of the footer keeps it: the layout was checked. -/
theorem verifyChecksum_within [Xxh3] (h : SealedHeader) :
  Within (Guarded.verifyChecksum w h segment) (h.verifyChecksum segment)
  := by
  apply Within.bind (validateLayout_within hlen h)
  intro _ hlayout
  have hoff := validateLayout_eq_ok.mp hlayout
  rw [PointerWidth.cast_of_le (by omega)]
  apply Within.bind (within_ofOption fun _ h => h)
  intro _ _
  apply Within.bind (within_ofOption fun _ h => h)
  intro _ _
  apply within_refuse

include hlen in
theorem readSealedHeader_within [Xxh3] :
  Within (Guarded.readSealedHeader w segment) (Shrike.Jetstream.readSealedHeader segment)
  := by
  apply Within.bind (parse_within segment)
  intro header _
  apply Within.bind (verifyChecksum_within hlen header)
  intro _ _
  apply within_ok

theorem readEntry_eq {e : Bytes} (he : e.length = blockIndexEntrySize) :
  Guarded.readEntry e = .ok (BlockIndexEntry.read e)
  := by
  have he : e.length = 52 := he
  rw [Guarded.readEntry]
  simp (disch := omega) only [readAt_eq, readI64At_eq, ok_bind]
  rfl

/-- The entries are where the index of the blocks has them. -/
theorem entryAt_eq {buf : Bytes} (hbuf : buf.length = count * blockIndexEntrySize)
    (hcount : count * blockIndexEntrySize ≤ w.usizeMax) (hi : i < count) :
  Guarded.entryAt w buf i = .ok (BlockIndexEntry.read
    ((buf.drop (i * blockIndexEntrySize)).take blockIndexEntrySize))
  := by
  have hsize : blockIndexEntrySize = 52 := rfl
  have hstep : (i + 1) * blockIndexEntrySize = i * blockIndexEntrySize + blockIndexEntrySize :=
    Nat.succ_mul _ _
  have hnext : (i + 1) * blockIndexEntrySize ≤ count * blockIndexEntrySize :=
    Nat.mul_le_mul_right _ hi
  have hself : count ≤ count * blockIndexEntrySize := Nat.le_mul_of_pos_right _ (by decide)
  rw [Guarded.entryAt, PointerWidth.mul_of_le (by omega), ok_bind,
    PointerWidth.add_of_le (by omega), ok_bind, PointerWidth.mul_of_le (by omega), ok_bind,
    slice_eq (by omega) (by omega), ok_bind, List.drop_take, hstep, Nat.add_sub_cancel_left]
  apply readEntry_eq
  rw [List.length_take, List.length_drop]
  omega

theorem mapM_entryAt {buf : Bytes} (hbuf : buf.length = count * blockIndexEntrySize)
    (hcount : count * blockIndexEntrySize ≤ w.usizeMax) (hn : n ≤ count) :
  (List.range n).mapM (Guarded.entryAt w buf) = .ok ((List.range n).map fun i =>
    BlockIndexEntry.read ((buf.drop (i * blockIndexEntrySize)).take blockIndexEntrySize))
  := by
  induction n with
  | zero => rfl
  | succ n ih =>
      rw [List.range_succ, List.mapM_append, ih (by omega), ok_bind, List.mapM_cons,
        entryAt_eq hbuf hcount hn, List.map_append]
      rfl

theorem checkedMul_of_usize {a b c : ℕ} (h : w.checkedMul a b = some c) :
  c ≤ w.usizeMax ∧ c = a * b ∧ Shrike.Jetstream.checkedMul a b = some c
  := by
  have hmax := w.usizeMax_lt
  rw [PointerWidth.checkedMul] at h
  split_ifs at h with hle
  cases h
  rw [checkedMul, if_pos (by omega)]
  exact ⟨hle, rfl, rfl⟩

theorem checkedAdd_of_usize {a b c : ℕ} (h : w.checkedAdd a b = some c) :
  c = a + b ∧ Shrike.Jetstream.checkedAdd a b = some c
  := by
  have hmax := w.usizeMax_lt
  rw [PointerWidth.checkedAdd] at h
  split_ifs at h with hle
  cases h
  rw [checkedAdd, if_pos (by omega)]
  exact ⟨rfl, rfl⟩

/-- The index of the blocks is read without a panic, whatever header it is read by. -/
theorem decodeBlockIndex_within (header : SealedHeader) (segment : Bytes) :
  Within (Guarded.decodeBlockIndex w header segment)
    (Shrike.Jetstream.decodeBlockIndex header segment)
  := by
  have hmax := w.le_usizeMax
  apply Within.bind within_refuse
  intro _ hcount
  rw [refuse_eq_ok, Nat.not_lt, SegmentReader.maxBlockCount] at hcount
  rw [PointerWidth.cast_of_le (by omega)]
  apply Within.bind (within_ofOption fun _ h => (checkedMul_of_usize h).2.2)
  intro bytesLen hbytes
  have hbytes' : bytesLen = header.blockCount * blockIndexEntrySize := by
    rw [ofOption_eq_ok, checkedMul] at hbytes
    split_ifs at hbytes
    cases hbytes
    rfl
  have hle : header.blockCount * blockIndexEntrySize ≤ w.usizeMax := by
    rw [blockIndexEntrySize]
    omega
  by_cases hstart : header.blockIndexOffset ≤ w.usizeMax
  · rw [PointerWidth.asUsize_of_le hstart, ok_bind]
    apply Within.bind (within_ofOption fun _ h => (checkedAdd_of_usize h).2)
    intro stop hstop
    have hstop' : stop = header.blockIndexOffset + bytesLen := by
      rw [ofOption_eq_ok, checkedAdd] at hstop
      split_ifs at hstop
      cases hstop
      rfl
    apply Within.bind within_refuse
    intro _ _
    apply Within.bind (within_ofOption fun _ h => h)
    intro buf hbuf
    have hlen := length_getRange (ofOption_eq_ok.mp hbuf)
    rw [hstop', Nat.add_sub_cancel_left, hbytes'] at hlen
    rw [mapM_entryAt hlen hle (Nat.le_refl _)]
    apply within_ok
  · rw [PointerWidth.asUsize, if_neg hstart, error_bind]
    apply within_error

include hlen in
/-- A segment is opened without a panic. -/
theorem open_within [Xxh3] :
  Within (Guarded.open w segment) (SegmentReader.open segment)
  := by
  apply Within.bind (readSealedHeader_within hlen)
  intro header _
  apply Within.bind (decodeBlockIndex_within header segment)
  intro blocks _
  apply Within.bind (within_mapError _)
  intro _ _
  apply within_ok

/-! ### Blocks apart and in order -/

/-- Where the frame of a block ends. -/
def BlockIndexEntry.stop (b : BlockIndexEntry) : ℕ := b.offset + 8 + b.compressedSize

/-- Blocks that follow what a cursor knows: their frames are apart and in order before the footer,
and the sequence numbers of those that are not empty increase. -/
structure BlockCursor.Follows (footer : ℕ) (cursor : BlockCursor) (blocks : List BlockIndexEntry) :
    Prop where
  inside : ∀ b ∈ blocks, reservedHeaderBytes ≤ b.offset ∧ b.stop ≤ footer
  after : ∀ b ∈ blocks, cursor.prevEnd ≤ b.offset
  apart : blocks.Pairwise fun a b => a.stop ≤ b.offset
  ranges : ∀ b ∈ blocks, b.minSeq ≤ b.maxSeq ∧ b.minWitnessedAt ≤ b.maxWitnessedAt
  above : ∀ prevMax ∈ cursor.prevNonemptyMaxSeq, ∀ b ∈ blocks, b.eventCount ≠ 0 → prevMax < b.minSeq
  increasing : (blocks.filter (·.eventCount ≠ 0)).Pairwise fun a b => a.maxSeq < b.minSeq

variable {cursor cursor' : BlockCursor}

/-- An entry that is accepted lies between the frame before it and the footer, and is what is known
of the blocks before the next one. -/
theorem validateBlockOffset_ok {b : BlockIndexEntry}
    (h : validateBlockOffset footer cursor b = .ok cursor') :
  reservedHeaderBytes ≤ b.offset ∧ b.stop ≤ footer ∧ cursor.prevEnd ≤ b.offset
    ∧ b.minSeq ≤ b.maxSeq ∧ b.minWitnessedAt ≤ b.maxWitnessedAt
    ∧ (b.eventCount ≠ 0 → ∀ prevMax ∈ cursor.prevNonemptyMaxSeq, prevMax < b.minSeq)
    ∧ cursor'.prevEnd = b.stop
    ∧ cursor'.prevNonemptyMaxSeq
      = if b.eventCount = 0 then cursor.prevNonemptyMaxSeq else some b.maxSeq
  := by
  simp only [validateBlockOffset, bind_eq_ok, refuse_eq_ok, Nat.not_lt, ofOption_eq_ok,
    exists_const] at h
  obtain ⟨hinside, stop, hstop, hfooter, hafter, hseqs, htimes, h⟩ := h
  have hstop' : stop = b.stop := by
    simp only [checkedAdd, Option.bind_eq_some_iff] at hstop
    obtain ⟨v, hv, hstop⟩ := hstop
    split_ifs at hv hstop
    cases hv
    cases hstop
    rfl
  subst hstop'
  refine ⟨hinside, hfooter, hafter, hseqs, Int64.not_lt.mp htimes, ?_⟩
  split_ifs at h ⊢ with hempty
  · cases h
    exact ⟨fun hne => absurd hempty hne, rfl, rfl⟩
  · simp only [bind_eq_ok, refuse_eq_ok, exists_const] at h
    obtain ⟨hnext, h⟩ := h
    cases h
    refine ⟨fun _ prevMax hprev => ?_, rfl, rfl⟩
    apply Nat.lt_of_not_le
    intro hle
    exact hnext ⟨prevMax, hprev, hle⟩

variable {blocks : List BlockIndexEntry}

/-- Entries that are accepted one after the other follow what was known before them. -/
theorem foldlM_validateBlockOffset
    (h : blocks.foldlM (validateBlockOffset footer) cursor = .ok cursor') :
  cursor.Follows footer blocks
  := by
  induction blocks generalizing cursor with
  | nil => constructor <;> simp
  | cons b blocks ih =>
      rw [List.foldlM_cons, bind_eq_ok] at h
      obtain ⟨next, hstep, h⟩ := h
      obtain ⟨hinside, hfooter, hafter, hseqs, htimes, hprev, hend, hmax⟩ :=
        validateBlockOffset_ok hstep
      have hfollows := ih h
      have hle : b.offset ≤ b.stop := by
        rw [BlockIndexEntry.stop]
        omega
      constructor
      case inside => exact List.forall_mem_cons.mpr ⟨⟨hinside, hfooter⟩, hfollows.inside⟩
      case ranges => exact List.forall_mem_cons.mpr ⟨⟨hseqs, htimes⟩, hfollows.ranges⟩
      case after =>
        rw [List.forall_mem_cons]
        constructor
        · exact hafter
        · intro b' hb'
          have hnext := hfollows.after b' hb'
          omega
      case apart =>
        apply List.Pairwise.cons
        · intro b' hb'
          rw [← hend]
          apply hfollows.after b' hb'
        · exact hfollows.apart
      case above =>
        intro prevMax hprevMax
        rw [List.forall_mem_cons]
        constructor
        · intro hne
          apply hprev hne prevMax hprevMax
        · intro b' hb' hne'
          by_cases hempty : b.eventCount = 0
          · rw [if_pos hempty] at hmax
            apply hfollows.above prevMax (hmax ▸ hprevMax) b' hb' hne'
          · rw [if_neg hempty] at hmax
            have hlt := hprev hempty prevMax hprevMax
            have hlt' := hfollows.above b.maxSeq hmax b' hb' hne'
            omega
      case increasing =>
        rw [List.filter_cons]
        split_ifs with hne
        · apply List.Pairwise.cons
          · intro b' hb'
            have hmem := List.mem_filter.mp hb'
            rw [if_neg (by simpa using hne)] at hmax
            apply hfollows.above b.maxSeq hmax b' hmem.1 (by simpa using hmem.2)
          · exact hfollows.increasing
        · exact hfollows.increasing

/-! ### Opened segments -/

/-- The sections of a segment are in order, the index of its blocks ends before the section after
it, and the frames of the blocks are apart and in order between the header and the footer. -/
structure SegmentReader.Consistent (r : SegmentReader) : Prop where
  footer_le : r.header.footerOffset ≤ r.segment.length
  indexOffset : r.header.blockIndexOffset = r.header.footerOffset
  bloom_le : r.header.didBloomOffset ≤ r.segment.length
  count : r.blocks.length = r.header.blockCount
  index_le : r.header.blockIndexOffset + r.blocks.length * blockIndexEntrySize
    ≤ r.header.didBloomOffset
  frames : BlockCursor.Follows r.header.footerOffset ⟨reservedHeaderBytes, none⟩ r.blocks

theorem decodeBlockIndex_ok {header : SealedHeader} {segment : Bytes}
    (h : decodeBlockIndex header segment = .ok blocks) :
  blocks.length = header.blockCount
    ∧ header.blockIndexOffset + header.blockCount * blockIndexEntrySize ≤ header.didBloomOffset
  := by
  simp only [decodeBlockIndex, bind_eq_ok, refuse_eq_ok, Nat.not_lt, ofOption_eq_ok,
    exists_const] at h
  obtain ⟨-, bytesLen, hbytes, stop, hstop, hle, buf, -, h⟩ := h
  rw [checkedMul] at hbytes
  rw [checkedAdd] at hstop
  split_ifs at hbytes hstop
  cases hbytes
  cases hstop
  cases h
  constructor
  · rw [List.length_map, List.length_range]
  · exact hle

/-- A segment that opens is consistent. -/
theorem consistent_of_open [Xxh3] {r : SegmentReader} (h : SegmentReader.open segment = .ok r) :
  r.segment = segment ∧ r.Consistent
  := by
  simp only [SegmentReader.open, readSealedHeader, SealedHeader.verifyChecksum,
    validateBlockOffsets, bind_eq_ok, ofOption_eq_ok, refuse_eq_ok] at h
  obtain ⟨header, ⟨_, -, ⟨⟩, ⟨⟨⟩, hlayout, -⟩, hheader⟩, blocks, hblocks, ⟨⟩, ⟨_, hvalid, -⟩, h⟩ := h
  cases hheader
  cases h
  obtain ⟨-, hindex, hbloom, hbloom', hcollections, hend⟩ := validateLayout_eq_ok.mp hlayout
  obtain ⟨hcount, hle⟩ := decodeBlockIndex_ok hblocks
  constructor
  · rfl
  · constructor
    case footer_le => exact hbloom.trans (hbloom'.trans (hcollections.trans hend))
    case indexOffset => exact hindex
    case bloom_le => exact hbloom'.trans (hcollections.trans hend)
    case count => exact hcount
    case index_le =>
      rw [hcount]
      exact hle
    case frames => exact foldlM_validateBlockOffset hvalid

theorem getRange_of_le {b : Bytes} {start stop : ℕ} (hstart : start ≤ stop)
    (hstop : stop ≤ b.length) :
  getRange b start stop = some ((b.drop start).take (stop - start))
  := by
  rw [getRange, if_pos ⟨hstart, hstop⟩, List.drop_take]

/-- The frame of a block of a consistent segment is read without a panic: it is whole if the length
before it is that of the index. -/
theorem blockFrame_eq {r : SegmentReader} (hr : r.Consistent)
    (hsize : r.segment.length ≤ w.usizeMax) {entry : BlockIndexEntry}
    (hentry : r.blocks[idx]? = some entry) :
  Guarded.blockFrame w r idx
    = if ofLe ((r.segment.drop entry.offset).take 8) = entry.compressedSize then
        .ok ((r.segment.drop (entry.offset + 8)).take entry.compressedSize)
      else .error (.error (.corruptSegment "block length prefix disagrees with block index"))
  := by
  have hinside := (hr.frames.inside entry (List.mem_of_getElem? hentry)).2
  have hfooter := hr.footer_le
  rw [BlockIndexEntry.stop] at hinside
  rw [Guarded.blockFrame, hentry, ofOption, ok_bind, PointerWidth.asUsize_of_le (by omega), ok_bind,
    PointerWidth.add_of_le (by omega), ok_bind, getRange_of_le (by omega) (by omega), ofOption,
    ok_bind, Nat.add_sub_cancel_left, refuse, ok_bind, PointerWidth.cast_of_le (by omega),
    PointerWidth.add_of_le (by omega), ok_bind, getRange_of_le (by omega) (by omega), ofOption,
    Nat.add_sub_cancel_left]
  by_cases hpre : ofLe ((r.segment.drop entry.offset).take 8) = entry.compressedSize
  · rw [if_neg (not_not.mpr hpre), if_pos hpre]
    rfl
  · rw [if_pos hpre, if_neg hpre]
    rfl

/-- No index, range or sum of a segment is out of bounds, whatever its bytes are and whatever header
its index is read by. A segment that opens is consistent, and each frame that is asked for is whole,
unless the length before it is not that of the index. -/
theorem open_consistent [Xxh3] (w : PointerWidth) (segment : Bytes)
    (hsize : segment.length ≤ w.usizeMax) :
  Guarded.parse segment ≠ .error .panic
    ∧ (∀ header, Guarded.verifyChecksum w header segment ≠ .error .panic)
    ∧ (∀ header, Guarded.decodeBlockIndex w header segment ≠ .error .panic)
    ∧ Guarded.open w segment ≠ .error .panic
    ∧ ∀ r, Guarded.open w segment = .ok r →
      r.segment = segment ∧ r.Consistent
      ∧ (∀ idx, Guarded.blockFrame w r idx ≠ .error .panic)
      ∧ ∀ idx entry, r.blocks[idx]? = some entry →
        (∃ frame, Guarded.blockFrame w r idx = .ok frame ∧ frame.length = entry.compressedSize
          ∧ segment.HasAt (entry.offset + 8) frame)
        ∨ Guarded.blockFrame w r idx
          = .error (.error (.corruptSegment "block length prefix disagrees with block index"))
  := by
  refine ⟨(parse_within segment).1, fun header => (verifyChecksum_within hsize header).1,
    fun header => (decodeBlockIndex_within header segment).1, (open_within hsize).1, ?_⟩
  intro r hopen
  obtain ⟨rfl, hr⟩ := consistent_of_open ((open_within hsize).2 r hopen)
  refine ⟨rfl, hr, ?_, ?_⟩
  · intro idx
    rcases hentry : r.blocks[idx]? with _ | entry
    · rw [Guarded.blockFrame, hentry]
      nofun
    · rw [blockFrame_eq hr hsize hentry]
      split_ifs <;> nofun
  · intro idx entry hentry
    have hinside := (hr.frames.inside entry (List.mem_of_getElem? hentry)).2
    have hfooter := hr.footer_le
    rw [BlockIndexEntry.stop] at hinside
    rw [blockFrame_eq hr hsize hentry]
    split_ifs
    · left
      have hat := @List.hasAt_of_le _ r.segment (entry.offset + 8) entry.compressedSize (by omega)
      refine ⟨_, rfl, ?_, hat⟩
      rw [List.length_take, List.length_drop]
      omega
    · right
      rfl

end

/-! ### A segment of one block -/

namespace OneBlock

/-- A checksum that is the same for all bytes. -/
@[reducible] def checksum : Xxh3 := ⟨fun _ => 1⟩

attribute [local instance] checksum

/-- A segment with a block of two bytes. -/
def segment : Bytes :=
  ascii "jss0" ++ le 8 1 ++ le 2 1 ++ le 4 1 ++ le 4 1 ++ le 4 1 ++ le 8 1 ++ le 8 1 ++ le 8 0
    ++ le 8 0 ++ le 8 266 ++ le 8 318 ++ le 8 318 ++ le 8 318 ++ le 8 266 ++ List.replicate 158 0
    ++ le 8 2 ++ [7, 9]
    ++ le 8 256 ++ le 4 2 ++ le 4 3 ++ le 4 1 ++ le 8 1 ++ le 8 1 ++ le 8 0 ++ le 8 0

theorem segment_computed :
  segment.length = 318
    ∧ ((Guarded.open .bits64 segment).toOption.map fun r =>
        (Guarded.blockFrame .bits64 r 0).toOption) = some (some [7, 9])
  := by
  decide +kernel

/-- The segment opens, and its block is whole. -/
theorem segment_consistent :
  ∃ r, Guarded.open .bits64 segment = .ok r ∧ r.Consistent
    ∧ Guarded.blockFrame .bits64 r 0 = .ok [7, 9]
  := by
  obtain ⟨hsize, hopen⟩ := segment_computed
  obtain ⟨-, -, -, -, hconsistent⟩ :=
    open_consistent .bits64 segment (by rw [hsize]; decide)
  rcases hr : Guarded.open .bits64 segment with e | r
  · rw [hr] at hopen
    cases hopen
  · obtain ⟨-, hcons, -, -⟩ := hconsistent r hr
    rw [hr] at hopen
    use r, rfl, hcons
    rcases hframe : Guarded.blockFrame .bits64 r 0 with e | frame
    · rw [Except.toOption, Option.map_some, hframe] at hopen
      cases hopen
    · rw [Except.toOption, Option.map_some, hframe] at hopen
      cases hopen
      rfl

end OneBlock

end Shrike.Jetstream
