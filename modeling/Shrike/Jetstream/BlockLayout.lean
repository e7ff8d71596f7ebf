import Shrike.Jetstream.Block

/-!
# The layout of blocks

The block that some rows make, and that the check of a block passes just the blocks of rows that
fit in it.
-/

namespace Shrike.Jetstream

open Bytes Except

/-! ### The layout of rows -/

/-- The lengths of a row fit in the columns of fixed width. -/
structure RawEvent.Fits (row : RawEvent) : Prop where
  collection : row.collection.length < 256 ^ 1
  did : row.did.length < 256 ^ 2
  rkey : row.rkey.length < 256 ^ 1
  rev : row.rev.length < 256 ^ 1
  payload : row.payload.length < 256 ^ 4

/-- The block of some rows: their count, the columns of fixed width, and the five regions. -/
def layout (rows : List RawEvent) : Bytes :=
  le 4 rows.length
    ++ (rows.flatMap (fun row => le 8 row.seq.toNat)
      ++ (rows.flatMap (fun row => le 8 row.witnessedAt.toUInt64.toNat)
      ++ (rows.flatMap (fun row => le 8 row.indexedAt.toUInt64.toNat)
      ++ (rows.flatMap (fun row => [row.kind.asU8])
      ++ (rows.flatMap (fun row => le 1 row.collection.length)
      ++ (rows.flatMap (fun row => le 2 row.did.length)
      ++ (rows.flatMap (fun row => le 1 row.rkey.length)
      ++ (rows.flatMap (fun row => le 1 row.rev.length)
      ++ (rows.flatMap (fun row => le 4 row.payload.length)
      ++ (rows.flatMap RawEvent.collection
      ++ (rows.flatMap RawEvent.did
      ++ (rows.flatMap RawEvent.rkey
      ++ (rows.flatMap RawEvent.rev
      ++ rows.flatMap RawEvent.payload)))))))))))))

/-! ### The columns of fixed width -/

/-- A row in the columns of fixed width. -/
structure RowHead where
  seq : Bytes
  witnessedAt : Bytes
  indexedAt : Bytes
  kind : UInt8
  collLen : UInt8
  didLen : Bytes
  rkeyLen : UInt8
  revLen : UInt8
  payloadLen : Bytes

/-- The columns have their widths. -/
structure RowHead.Sized (head : RowHead) : Prop where
  seq : head.seq.length = 8
  witnessedAt : head.witnessedAt.length = 8
  indexedAt : head.indexedAt.length = 8
  didLen : head.didLen.length = 2
  payloadLen : head.payloadLen.length = 4

/-- The columns of fixed width of some rows. -/
def headColumns (heads : List RowHead) : Bytes :=
  heads.flatMap RowHead.seq
    ++ (heads.flatMap RowHead.witnessedAt
    ++ (heads.flatMap RowHead.indexedAt
    ++ (heads.flatMap (fun head => [head.kind])
    ++ (heads.flatMap (fun head => [head.collLen])
    ++ (heads.flatMap RowHead.didLen
    ++ (heads.flatMap (fun head => [head.rkeyLen])
    ++ (heads.flatMap (fun head => [head.revLen])
    ++ heads.flatMap RowHead.payloadLen)))))))

/-- The row in the columns of fixed width. -/
def RawEvent.head (row : RawEvent) : RowHead where
  seq := le 8 row.seq.toNat
  witnessedAt := le 8 row.witnessedAt.toUInt64.toNat
  indexedAt := le 8 row.indexedAt.toUInt64.toNat
  kind := row.kind.asU8
  collLen := UInt8.ofNat row.collection.length
  didLen := le 2 row.did.length
  rkeyLen := UInt8.ofNat row.rkey.length
  revLen := UInt8.ofNat row.rev.length
  payloadLen := le 4 row.payload.length

/-- The five regions of some rows. -/
def regions (rows : List RawEvent) : Bytes :=
  rows.flatMap RawEvent.collection ++ (rows.flatMap RawEvent.did ++ (rows.flatMap RawEvent.rkey
    ++ (rows.flatMap RawEvent.rev ++ rows.flatMap RawEvent.payload)))

theorem RawEvent.head_sized (row : RawEvent) :
  row.head.Sized
  where
  seq := length_le _ _
  witnessedAt := length_le _ _
  indexedAt := length_le _ _
  didLen := length_le _ _
  payloadLen := length_le _ _

theorem layout_eq (rows : List RawEvent) :
  layout rows = le 4 rows.length ++ (headColumns (rows.map RawEvent.head) ++ regions rows)
  := by
  simp only [layout, headColumns, regions, List.flatMap_map, List.append_assoc, le]
  rfl

/-- Where the columns of fixed width of `n` rows stand in a block. -/
structure HeadsAt (body : Bytes) (n : ℕ) (heads : List RowHead) : Prop where
  length : heads.length = n
  sized : ∀ head ∈ heads, head.Sized
  seq : body.HasAt 4 (heads.flatMap RowHead.seq)
  witnessedAt : body.HasAt (4 + 8 * n) (heads.flatMap RowHead.witnessedAt)
  indexedAt : body.HasAt (4 + 8 * n + 8 * n) (heads.flatMap RowHead.indexedAt)
  kind : body.HasAt (4 + 8 * n + 8 * n + 8 * n) (heads.flatMap fun head => [head.kind])
  collLen : body.HasAt (4 + 8 * n + 8 * n + 8 * n + n) (heads.flatMap fun head => [head.collLen])
  didLen : body.HasAt (4 + 8 * n + 8 * n + 8 * n + n + n) (heads.flatMap RowHead.didLen)
  rkeyLen : body.HasAt (4 + 8 * n + 8 * n + 8 * n + n + n + 2 * n)
    (heads.flatMap fun head => [head.rkeyLen])
  revLen : body.HasAt (4 + 8 * n + 8 * n + 8 * n + n + n + 2 * n + n)
    (heads.flatMap fun head => [head.revLen])
  payloadLen : body.HasAt (4 + 8 * n + 8 * n + 8 * n + n + n + 2 * n + n + n)
    (heads.flatMap RowHead.payloadLen)

section

variable {body : Bytes} {heads : List RowHead}

theorem length_column {f : RowHead → Bytes} {k : ℕ} (h : ∀ head ∈ heads, (f head).length = k) :
  (heads.flatMap f).length = k * heads.length
  := List.length_flatMap_of_forall heads h

theorem length_byteColumn (f : RowHead → UInt8) :
  (heads.flatMap fun head => [f head]).length = heads.length
  := by
  rw [List.length_flatMap_of_forall (k := 1) heads fun _ _ => rfl, Nat.one_mul]

theorem headsAt_of_hasAt (hsized : ∀ head ∈ heads, head.Sized)
    (h : body.HasAt 4 (headColumns heads)) :
  HeadsAt body heads.length heads
  := by
  have hseq := length_column fun head (hh : head ∈ heads) => (hsized head hh).seq
  have hwit := length_column fun head (hh : head ∈ heads) => (hsized head hh).witnessedAt
  have hidx := length_column fun head (hh : head ∈ heads) => (hsized head hh).indexedAt
  have hdid := length_column fun head (hh : head ∈ heads) => (hsized head hh).didLen
  have h₁ := h.right
  rw [hseq] at h₁
  have h₂ := h₁.right
  rw [hwit] at h₂
  have h₃ := h₂.right
  rw [hidx] at h₃
  have h₄ := h₃.right
  rw [length_byteColumn] at h₄
  have h₅ := h₄.right
  rw [length_byteColumn] at h₅
  have h₆ := h₅.right
  rw [hdid] at h₆
  have h₇ := h₆.right
  rw [length_byteColumn] at h₇
  have h₈ := h₇.right
  rw [length_byteColumn] at h₈
  exact ⟨rfl, hsized, h.left, h₁.left, h₂.left, h₃.left, h₄.left, h₅.left, h₆.left, h₇.left, h₈⟩

theorem length_headColumns (hsized : ∀ head ∈ heads, head.Sized) :
  (headColumns heads).length = 34 * heads.length
  := by
  simp only [headColumns, List.length_append, length_byteColumn,
    length_column fun head hh => (hsized head hh).seq,
    length_column fun head hh => (hsized head hh).witnessedAt,
    length_column fun head hh => (hsized head hh).indexedAt,
    length_column fun head hh => (hsized head hh).didLen,
    length_column fun head hh => (hsized head hh).payloadLen]
  omega

/-- The columns of fixed width of a block that is long enough. -/
theorem exists_heads {n : ℕ} (hlen : 4 + 34 * n ≤ body.length) :
  ∃ heads, HeadsAt body n heads
  := by
  have hchunk : ∀ {off k : ℕ}, off + k * n ≤ body.length → ∀ {f : ℕ → RowHead} {g : RowHead → Bytes},
      (∀ i, g (f i) = (body.drop (off + k * i)).take k) →
      body.HasAt off (((List.range n).map f).flatMap g) := by
    intro off k hle f g hg
    rw [List.flatMap_map]
    simp only [hg]
    rw [List.flatMap_chunks]
    exact List.hasAt_of_le hle
  have hbyte : ∀ {off : ℕ}, off + n ≤ body.length → ∀ {f : ℕ → RowHead} {g : RowHead → UInt8},
      (∀ i, g (f i) = body.getD (off + i) 0) →
      body.HasAt off (((List.range n).map f).flatMap fun head => [g head]) := by
    intro off hle f g hg
    rw [List.flatMap_map]
    simp only [hg]
    rw [List.flatMap_elements 0 hle]
    exact List.hasAt_of_le hle
  have hsize : ∀ {off k i : ℕ}, i ∈ List.range n → off + k * n ≤ body.length →
      ((body.drop (off + k * i)).take k).length = k := by
    intro off k i hi hle
    have hi := List.mem_range.mp hi
    have hmul : k * (i + 1) ≤ k * n := Nat.mul_le_mul_left k hi
    rw [Nat.mul_succ] at hmul
    rw [List.length_take, List.length_drop]
    omega
  let head (i : ℕ) : RowHead :=
    { seq := (body.drop (4 + 8 * i)).take 8
      witnessedAt := (body.drop (4 + 8 * n + 8 * i)).take 8
      indexedAt := (body.drop (4 + 8 * n + 8 * n + 8 * i)).take 8
      kind := body.getD (4 + 8 * n + 8 * n + 8 * n + i) 0
      collLen := body.getD (4 + 8 * n + 8 * n + 8 * n + n + i) 0
      didLen := (body.drop (4 + 8 * n + 8 * n + 8 * n + n + n + 2 * i)).take 2
      rkeyLen := body.getD (4 + 8 * n + 8 * n + 8 * n + n + n + 2 * n + i) 0
      revLen := body.getD (4 + 8 * n + 8 * n + 8 * n + n + n + 2 * n + n + i) 0
      payloadLen := (body.drop (4 + 8 * n + 8 * n + 8 * n + n + n + 2 * n + n + n + 4 * i)).take 4 }
  refine ⟨(List.range n).map head, by simp, ?_, hchunk (by omega) fun _ => rfl,
    hchunk (by omega) fun _ => rfl, hchunk (by omega) fun _ => rfl, hbyte (by omega) fun _ => rfl,
    hbyte (by omega) fun _ => rfl, hchunk (by omega) fun _ => rfl, hbyte (by omega) fun _ => rfl,
    hbyte (by omega) fun _ => rfl, hchunk (by omega) fun _ => rfl⟩
  intro h hh
  obtain ⟨i, hi, rfl⟩ := List.mem_map.mp hh
  exact ⟨hsize hi (by omega), hsize hi (by omega), hsize hi (by omega), hsize hi (by omega),
    hsize hi (by omega)⟩

end

/-! ### Checking the layout -/

section

variable {body : Bytes} {off n : ℕ}

theorem byteAt_of_hasAt {b : UInt8} (h : body.HasAt off [b]) :
  byteAt body off = .ok b
  := by
  have hget := h.getElem? (i := 0) Nat.zero_lt_one
  rw [Nat.add_zero] at hget
  rw [byteAt, hget]
  rfl

variable {s : Bytes} {sums sums' : RegionSums} {i k stop : ℕ}

theorem slice_of_hasAt (h : body.HasAt off s) (hstop : stop = off + s.length) :
  slice body off stop = .ok s
  := by
  rw [slice, if_pos ⟨by omega, hstop ▸ h.le_length⟩, hstop, h.drop_take]

theorem readU16_of_hasAt (h : body.HasAt off s) (hlen : s.length = 2) :
  readU16 body off = .ok (ofLe s)
  := by
  have hs := h.take_drop
  have hle := h.le_length
  rw [hlen] at hs hle
  rw [readU16, if_pos hle, hs]

theorem readU32_of_hasAt (h : body.HasAt off s) (hlen : s.length = 4) :
  readU32 body off = .ok (ofLe s)
  := by
  have hs := h.take_drop
  have hle := h.le_length
  rw [hlen] at hs hle
  rw [readU32, if_pos hle, hs]

/-- The entry of a row in a column. -/
theorem hasAt_entry {heads : List RowHead} {head : RowHead} {f : RowHead → Bytes}
    (h : body.HasAt off (heads.flatMap f)) (hk : ∀ head ∈ heads, (f head).length = k)
    (hi : heads[i]? = some head) :
  body.HasAt (off + k * i) (f head)
  := by
  obtain ⟨hlt, rfl⟩ := List.getElem?_eq_some_iff.mp hi
  rw [← List.take_append_drop i heads, List.drop_eq_getElem_cons hlt] at h
  have hentry := h.flatMap
  rw [List.length_flatMap_of_forall _ fun head hh => hk head (List.mem_of_mem_take hh),
    List.length_take_of_le (Nat.le_of_lt hlt)] at hentry
  exact hentry

theorem hasAt_byteEntry {heads : List RowHead} {head : RowHead} {f : RowHead → UInt8}
    (h : body.HasAt off (heads.flatMap fun head => [f head])) (hi : heads[i]? = some head) :
  body.HasAt (off + i) [f head]
  := by
  have hentry := hasAt_entry (k := 1) h (fun _ _ => rfl) hi
  rw [Nat.one_mul] at hentry
  exact hentry

/-- Add the lengths of a row, if its kind is one. -/
def addHead (sums : RegionSums) (head : RowHead) : Except Halt RegionSums := do
  let _ ← (SegmentKind.fromU8 head.kind).mapError Halt.error
  .ok { coll := sums.coll + head.collLen.toNat, did := sums.did + ofLe head.didLen,
        rkey := sums.rkey + head.rkeyLen.toNat, rev := sums.rev + head.revLen.toNat,
        payload := sums.payload + ofLe head.payloadLen }

/-- The size of the columns of fixed width is a number of 64 bits. -/
theorem fixed_size (hmax : n ≤ maxBlockEvents) :
  ((checkedMul n fixedPerEvent).bind fun v => checkedAdd v 4) = some (4 + 34 * n)
  := by
  rw [maxBlockEvents] at hmax
  have hsize : n * fixedPerEvent + 4 = 4 + 34 * n := by
    rw [fixedPerEvent]
    omega
  rw [checkedMul, if_pos (by omega), Option.bind_some, checkedAdd, if_pos (by omega), hsize]

/-- The check of a block that is long enough reads nothing but its columns. -/
theorem parse_of_headsAt {heads : List RowHead} (hn : readU32 body 0 = .ok n) (hpos : n ≠ 0)
    (hmax : n ≤ maxBlockEvents) (hlen : 4 + 34 * n ≤ body.length) (h : HeadsAt body n heads) :
  BlockLayout.parse body
    = heads.foldlM addHead { coll := 0, did := 0, rkey := 0, rev := 0, payload := 0 }
      >>= BlockLayout.ofSums body n (4 + 34 * n)
  := by
  rw [BlockLayout.parse, hn, ok_bind, if_neg hpos, if_neg (Nat.not_lt.mpr hmax), fixed_size hmax,
    ofOption, ok_bind, if_neg (Nat.not_lt.mpr hlen)]
  dsimp only
  rw [← h.length, foldlM_range (g := addHead)]
  intro i head hi sums
  have hmem := List.mem_of_getElem? hi
  rw [h.length, BlockLayout.addLengths, byteAt_of_hasAt (hasAt_byteEntry h.kind hi),
    byteAt_of_hasAt (hasAt_byteEntry h.collLen hi),
    readU16_of_hasAt (hasAt_entry h.didLen (fun head hh => (h.sized head hh).didLen) hi)
      (h.sized head hmem).didLen,
    byteAt_of_hasAt (hasAt_byteEntry h.rkeyLen hi), byteAt_of_hasAt (hasAt_byteEntry h.revLen hi),
    readU32_of_hasAt (hasAt_entry h.payloadLen (fun head hh => (h.sized head hh).payloadLen) hi)
      (h.sized head hmem).payloadLen]
  rfl

/-- The lengths of some rows, added to others. -/
def RegionSums.addHeads (sums : RegionSums) (heads : List RowHead) : RegionSums where
  coll := sums.coll + (heads.map fun head => head.collLen.toNat).sum
  did := sums.did + (heads.map fun head => ofLe head.didLen).sum
  rkey := sums.rkey + (heads.map fun head => head.rkeyLen.toNat).sum
  rev := sums.rev + (heads.map fun head => head.revLen.toNat).sum
  payload := sums.payload + (heads.map fun head => ofLe head.payloadLen).sum

/-- The loop over the rows adds up their lengths, if all kinds are ones. -/
theorem foldlM_addHead {heads : List RowHead} :
  heads.foldlM addHead sums = .ok sums'
    ↔ (∀ head ∈ heads, ∃ kind, SegmentKind.fromU8 head.kind = .ok kind)
      ∧ sums' = sums.addHeads heads
  := by
  induction heads generalizing sums with
  | nil =>
      simp only [List.foldlM_nil, RegionSums.addHeads, List.map_nil, List.sum_nil, Nat.add_zero,
        List.not_mem_nil, false_implies, implies_true, true_and]
      exact ⟨fun h => (ok.inj h).symm, fun h => congrArg ok h.symm⟩
  | cons head heads ih =>
      rw [List.foldlM_cons, addHead]
      rcases hkind : SegmentKind.fromU8 head.kind with e | kind
      · constructor
        · intro h
          cases h
        · rintro ⟨h, -⟩
          obtain ⟨kind, hk⟩ := h head List.mem_cons_self
          rw [hkind] at hk
          cases hk
      · simp only [Except.mapError, ok_bind, ih, List.forall_mem_cons, hkind, ok.injEq,
          exists_eq', true_and, RegionSums.addHeads, List.map_cons, List.sum_cons, Nat.add_assoc]

/-- A computation ends with an error. -/
def Halt.IsError (halt : Halt) : Prop := ∃ e, halt = .error e

theorem Halt.isError (e : DecodeError) :
  (Halt.error e).IsError
  := ⟨e, rfl⟩

/-- A part of the check ends with a layout or with an error. -/
theorem addHead_fails (sums : RegionSums) (head : RowHead) :
  Fails Halt.IsError (addHead sums head)
  := (fails_mapError Halt.isError).bind fun _ => fails_ok _

theorem ofSums_fails (body : Bytes) (n fixed : ℕ) (sums : RegionSums) :
  Fails Halt.IsError (BlockLayout.ofSums body n fixed sums)
  := by
  rw [BlockLayout.ofSums]
  refine Fails.bind (fails_ofOption (Halt.isError _)) fun _ => ?_
  refine Fails.bind (fails_ofOption (Halt.isError _)) fun expected => ?_
  by_cases hne : expected ≠ body.length
  · rw [if_pos hne]
    exact fails_error (Halt.isError _)
  · rw [if_neg hne]
    exact fails_ok _

theorem checkedAdd_eq_some {a b c : ℕ} :
  checkedAdd a b = some c ↔ a + b < 2 ^ 64 ∧ c = a + b
  := by
  rw [checkedAdd]
  split_ifs with h
  · rw [Option.some.injEq, and_iff_right h, eq_comm]
  · exact ⟨nofun, fun h' => absurd h'.1 h⟩

/-- The layout with the given regions. -/
def layoutWith (n : ℕ) (sums : RegionSums) : BlockLayout where
  n
  fixed := 4 + 34 * n
  collStart := 4 + 34 * n
  didStart := 4 + 34 * n + sums.coll
  rkeyStart := 4 + 34 * n + sums.coll + sums.did
  revStart := 4 + 34 * n + sums.coll + sums.did + sums.rkey
  payloadStart := 4 + 34 * n + sums.coll + sums.did + sums.rkey + sums.rev

/-- The regions account for the rest of the block. -/
theorem ofSums_ok {l : BlockLayout} (h : BlockLayout.ofSums body n (4 + 34 * n) sums = .ok l) :
  body.length = 4 + 34 * n + (sums.coll + sums.did + sums.rkey + sums.rev + sums.payload)
  := by
  rw [BlockLayout.ofSums] at h
  obtain ⟨totalBlob, htotal, h⟩ := bind_eq_ok.mp h
  obtain ⟨expected, hexpected, h⟩ := bind_eq_ok.mp h
  rw [ofOption_eq_ok] at htotal hexpected
  simp only [Option.bind_eq_some_iff, checkedAdd_eq_some] at htotal hexpected
  obtain ⟨_, ⟨_, ⟨_, ⟨-, rfl⟩, -, rfl⟩, -, rfl⟩, -, rfl⟩ := htotal
  obtain ⟨-, rfl⟩ := hexpected
  by_contra hne
  rw [if_pos (Ne.symm hne)] at h
  cases h

theorem ofSums_of_length
    (h : body.length = 4 + 34 * n + (sums.coll + sums.did + sums.rkey + sums.rev + sums.payload))
    (hlt : body.length < 2 ^ 64) :
  BlockLayout.ofSums body n (4 + 34 * n) sums = .ok (layoutWith n sums)
  := by
  rw [BlockLayout.ofSums, checkedAdd, if_pos (by omega), Option.bind_some, checkedAdd,
    if_pos (by omega), Option.bind_some, checkedAdd, if_pos (by omega), Option.bind_some, checkedAdd,
    if_pos (by omega), ofOption, ok_bind, checkedAdd, if_pos (by omega), ofOption, ok_bind,
    if_neg (by omega)]
  rfl

end

/-! ### The rows of a block -/

theorem asU8_of_fromU8 {v : UInt8} {kind : SegmentKind} (h : SegmentKind.fromU8 v = .ok kind) :
  kind.asU8 = v
  := by
  rw [SegmentKind.fromU8] at h
  split_ifs at h with h₁ h₂ h₃ h₄ h₅ h₆ h₇ <;> cases h
  · exact h₁.symm
  · exact h₂.symm
  · exact h₃.symm
  · exact h₄.symm
  · exact h₅.symm
  · exact h₆.symm
  · exact h₇.symm

theorem fromU8_asU8 (kind : SegmentKind) :
  SegmentKind.fromU8 kind.asU8 = .ok kind
  := by
  cases kind <;> rfl

/-- The rows with some heads, cut from the five regions. -/
def rowsOf : List RowHead → (coll did rkey rev payload : Bytes) → List RawEvent
  | [], _, _, _, _, _ => []
  | head :: heads, coll, did, rkey, rev, payload =>
      { seq := BlockLayout.fromLeBytes head.seq
        witnessedAt := (BlockLayout.fromLeBytes head.witnessedAt).toInt64
        indexedAt := (BlockLayout.fromLeBytes head.indexedAt).toInt64
        kind := (SegmentKind.fromU8 head.kind).toOption.getD .create
        collection := coll.take head.collLen.toNat
        did := did.take (ofLe head.didLen)
        rkey := rkey.take head.rkeyLen.toNat
        rev := rev.take head.revLen.toNat
        payload := payload.take (ofLe head.payloadLen) }
        :: rowsOf heads (coll.drop head.collLen.toNat) (did.drop (ofLe head.didLen))
          (rkey.drop head.rkeyLen.toNat) (rev.drop head.revLen.toNat)
          (payload.drop (ofLe head.payloadLen))

theorem le_fromLeBytes {bs : Bytes} (h : bs.length = 8) :
  le 8 (BlockLayout.fromLeBytes bs).toNat = bs
  := by
  have hlt := ofLe_lt bs
  rw [h] at hlt
  rw [BlockLayout.fromLeBytes, UInt64.toNat_ofNat_of_lt' hlt, le_ofLe h]

/-- Rows cut from regions that are as long as their lengths say have these heads, fit, and fill the
regions. -/
theorem rowsOf_spec :
  ∀ {heads : List RowHead} (coll did rkey rev payload : Bytes), (∀ head ∈ heads, head.Sized) →
    (∀ head ∈ heads, ∃ kind, SegmentKind.fromU8 head.kind = .ok kind) →
    coll.length = (heads.map fun head => head.collLen.toNat).sum →
    did.length = (heads.map fun head => ofLe head.didLen).sum →
    rkey.length = (heads.map fun head => head.rkeyLen.toNat).sum →
    rev.length = (heads.map fun head => head.revLen.toNat).sum →
    payload.length = (heads.map fun head => ofLe head.payloadLen).sum →
    (rowsOf heads coll did rkey rev payload).map RawEvent.head = heads
      ∧ (∀ row ∈ rowsOf heads coll did rkey rev payload, row.Fits)
      ∧ (rowsOf heads coll did rkey rev payload).flatMap RawEvent.collection = coll
      ∧ (rowsOf heads coll did rkey rev payload).flatMap RawEvent.did = did
      ∧ (rowsOf heads coll did rkey rev payload).flatMap RawEvent.rkey = rkey
      ∧ (rowsOf heads coll did rkey rev payload).flatMap RawEvent.rev = rev
      ∧ (rowsOf heads coll did rkey rev payload).flatMap RawEvent.payload = payload
  | [], coll, did, rkey, rev, payload, _, _, hcoll, hdid, hrkey, hrev, hpayload => by
      rw [List.map_nil, List.sum_nil, List.length_eq_zero_iff] at hcoll hdid hrkey hrev hpayload
      subst hcoll hdid hrkey hrev hpayload
      exact ⟨rfl, nofun, rfl, rfl, rfl, rfl, rfl⟩
  | head :: heads, coll, did, rkey, rev, payload, hsized, hkinds, hcoll, hdid, hrkey, hrev,
      hpayload => by
      rw [List.map_cons, List.sum_cons] at hcoll hdid hrkey hrev hpayload
      rw [List.forall_mem_cons] at hsized hkinds
      obtain ⟨hsize, hsized⟩ := hsized
      obtain ⟨⟨kind, hkind⟩, hkinds⟩ := hkinds
      obtain ⟨hheads, hfits, hcolls, hdids, hrkeys, hrevs, hpayloads⟩ := rowsOf_spec (coll.drop head.collLen.toNat)
        (did.drop (ofLe head.didLen)) (rkey.drop head.rkeyLen.toNat) (rev.drop head.revLen.toNat)
        (payload.drop (ofLe head.payloadLen)) hsized hkinds (by rw [List.length_drop]; omega)
        (by rw [List.length_drop]; omega) (by rw [List.length_drop]; omega)
        (by rw [List.length_drop]; omega) (by rw [List.length_drop]; omega)
      have hdidLt := ofLe_lt head.didLen
      have hpayloadLt := ofLe_lt head.payloadLen
      rw [hsize.didLen] at hdidLt
      rw [hsize.payloadLen] at hpayloadLt
      have hcollLen : (coll.take head.collLen.toNat).length = head.collLen.toNat :=
        List.length_take_of_le (by omega)
      have hdidLen : (did.take (ofLe head.didLen)).length = ofLe head.didLen :=
        List.length_take_of_le (by omega)
      have hrkeyLen : (rkey.take head.rkeyLen.toNat).length = head.rkeyLen.toNat :=
        List.length_take_of_le (by omega)
      have hrevLen : (rev.take head.revLen.toNat).length = head.revLen.toNat :=
        List.length_take_of_le (by omega)
      have hpayloadLen : (payload.take (ofLe head.payloadLen)).length = ofLe head.payloadLen :=
        List.length_take_of_le (by omega)
      refine ⟨?_, ?_, ?_, ?_, ?_, ?_, ?_⟩
      · rw [rowsOf, List.map_cons, hheads, RawEvent.head]
        simp only [hkind, Except.toOption, Option.getD_some, asU8_of_fromU8 hkind,
          UInt64.toUInt64_toInt64, hcollLen, hdidLen, hrkeyLen, hrevLen, hpayloadLen,
          UInt8.ofNat_toNat, le_fromLeBytes hsize.seq, le_fromLeBytes hsize.witnessedAt,
          le_fromLeBytes hsize.indexedAt, le_ofLe hsize.didLen, le_ofLe hsize.payloadLen]
      · rw [rowsOf, List.forall_mem_cons]
        exact ⟨⟨lt_of_eq_of_lt hcollLen head.collLen.toNat_lt, lt_of_eq_of_lt hdidLen hdidLt,
          lt_of_eq_of_lt hrkeyLen head.rkeyLen.toNat_lt, lt_of_eq_of_lt hrevLen head.revLen.toNat_lt,
          lt_of_eq_of_lt hpayloadLen hpayloadLt⟩, hfits⟩
      · rw [rowsOf, List.flatMap_cons, hcolls, List.take_append_drop]
      · rw [rowsOf, List.flatMap_cons, hdids, List.take_append_drop]
      · rw [rowsOf, List.flatMap_cons, hrkeys, List.take_append_drop]
      · rw [rowsOf, List.flatMap_cons, hrevs, List.take_append_drop]
      · rw [rowsOf, List.flatMap_cons, hpayloads, List.take_append_drop]

/-- The columns of fixed width stand in a block one after the other. -/
theorem HeadsAt.hasAt {body : Bytes} {n : ℕ} {heads : List RowHead} (h : HeadsAt body n heads) :
  body.HasAt 4 (headColumns heads)
  := by
  have hseq := length_column fun head hh => (h.sized head hh).seq
  have hwit := length_column fun head hh => (h.sized head hh).witnessedAt
  have hidx := length_column fun head hh => (h.sized head hh).indexedAt
  have hdid := length_column fun head hh => (h.sized head hh).didLen
  rw [h.length] at hseq hwit hidx hdid
  have hbyte : ∀ f : RowHead → UInt8, (heads.flatMap fun head => [f head]).length = n := by
    intro f
    rw [length_byteColumn, h.length]
  refine h.seq.append ?_
  rw [hseq]
  refine h.witnessedAt.append ?_
  rw [hwit]
  refine h.indexedAt.append ?_
  rw [hidx]
  refine h.kind.append ?_
  rw [hbyte]
  refine h.collLen.append ?_
  rw [hbyte]
  refine h.didLen.append ?_
  rw [hdid]
  refine h.rkeyLen.append ?_
  rw [hbyte]
  refine h.revLen.append ?_
  rw [hbyte]
  exact h.payloadLen

/-- A block whose columns and regions are those of some rows is their layout. -/
theorem eq_layout {body : Bytes} {rows : List RawEvent} (hcount : ofLe (body.take 4) = rows.length)
    (hheads : body.HasAt 4 (headColumns (rows.map RawEvent.head)))
    (hregions : body.HasAt (4 + 34 * rows.length) (regions rows))
    (hlen : body.length = 4 + 34 * rows.length + (regions rows).length) :
  layout rows = body
  := by
  have hsized : ∀ head ∈ rows.map RawEvent.head, head.Sized := by
    intro head hhead
    obtain ⟨row, -, rfl⟩ := List.mem_map.mp hhead
    exact row.head_sized
  have hcolumns := length_headColumns hsized
  rw [List.length_map] at hcolumns
  have htake : (body.take 4).length = 4 := List.length_take_of_le (by omega)
  have hfour : body.HasAt 0 (le 4 rows.length) := by
    rw [← hcount, le_ofLe htake]
    exact List.hasAt_of_le (by omega)
  rw [layout_eq]
  apply List.HasAt.eq
  · refine hfour.append ?_
    rw [length_le]
    refine hheads.append ?_
    rw [hcolumns]
    exact hregions
  · rw [List.length_append, List.length_append, length_le, hcolumns, hlen]
    omega

/-- A block whose columns say how long its regions are is the layout of some rows. -/
theorem exists_rows {body : Bytes} {n : ℕ} {heads : List RowHead} {sums : RegionSums}
    (hcount : ofLe (body.take 4) = n) (hheads : HeadsAt body n heads)
    (hsums : heads.foldlM addHead { coll := 0, did := 0, rkey := 0, rev := 0, payload := 0 }
      = .ok sums) (hlen : body.length
      = 4 + 34 * n + (sums.coll + sums.did + sums.rkey + sums.rev + sums.payload)) :
  ∃ rows : List RawEvent, rows.length = n ∧ (∀ row ∈ rows, row.Fits) ∧ layout rows = body
  := by
  obtain ⟨hkinds, rfl⟩ := foldlM_addHead.mp hsums
  simp only [RegionSums.addHeads, Nat.zero_add] at hlen
  let at₁ := 4 + 34 * n
  let at₂ := at₁ + (heads.map fun head => head.collLen.toNat).sum
  let at₃ := at₂ + (heads.map fun head => ofLe head.didLen).sum
  let at₄ := at₃ + (heads.map fun head => head.rkeyLen.toNat).sum
  let at₅ := at₄ + (heads.map fun head => head.revLen.toNat).sum
  have hlength : ∀ {off len : ℕ}, off + len ≤ body.length →
      ((body.drop off).take len).length = len := by
    intro off len hle
    rw [List.length_take, List.length_drop]
    omega
  have hcoll := @hlength at₁ (heads.map fun head => head.collLen.toNat).sum (by omega)
  have hdid := @hlength at₂ (heads.map fun head => ofLe head.didLen).sum (by omega)
  have hrkey := @hlength at₃ (heads.map fun head => head.rkeyLen.toNat).sum (by omega)
  have hrev := @hlength at₄ (heads.map fun head => head.revLen.toNat).sum (by omega)
  have hpayload := @hlength at₅ (heads.map fun head => ofLe head.payloadLen).sum (by omega)
  obtain ⟨hrows, hfits, hcolls, hdids, hrkeys, hrevs, hpayloads⟩ :=
    rowsOf_spec _ _ _ _ _ hheads.sized hkinds hcoll hdid hrkey hrev hpayload
  generalize rowsOf heads _ _ _ _ _ = rows at hrows hfits hcolls hdids hrkeys hrevs hpayloads
  have hn : rows.length = n := by rw [← hheads.length, ← hrows, List.length_map]
  have hregions : body.HasAt at₁ (regions rows) := by
    rw [regions, hcolls, hdids, hrkeys, hrevs, hpayloads]
    refine (List.hasAt_of_le (by omega)).append ?_
    rw [hcoll]
    refine (List.hasAt_of_le (by omega)).append ?_
    rw [hdid]
    refine (List.hasAt_of_le (by omega)).append ?_
    rw [hrkey]
    refine (List.hasAt_of_le (by omega)).append ?_
    rw [hrev]
    exact List.hasAt_of_le (by omega)
  refine ⟨rows, hn, hfits, ?_⟩
  apply eq_layout
  · rw [hn, hcount]
  · rw [hrows]
    exact hheads.hasAt
  · rw [hn]
    exact hregions
  · rw [hn, hlen, regions, hcolls, hdids, hrkeys, hrevs, hpayloads]
    simp only [List.length_append, hcoll, hdid, hrkey, hrev, hpayload]
    omega

/-- Every block whose layout is consistent is the layout of some rows, and the check of a block
ends with a layout or with an error. -/
theorem parse_cases (body : Bytes) :
  (∃ e, BlockLayout.parse body = .error (.error e))
    ∨ (∃ rows : List RawEvent, rows.length ≤ maxBlockEvents ∧ (∀ row ∈ rows, row.Fits)
      ∧ layout rows = body)
  := by
  rcases hn : readU32 body 0 with halt | n
  · left
    rw [readU32] at hn
    split_ifs at hn
    obtain rfl := error.inj hn
    rw [BlockLayout.parse, readU32, if_neg (by assumption)]
    exact ⟨_, rfl⟩
  · have hfour : 4 ≤ body.length ∧ ofLe (body.take 4) = n := by
      rw [readU32] at hn
      split_ifs at hn with hle
      · exact ⟨by omega, ok.inj hn⟩
      · cases hn
    by_cases hzero : n = 0
    · by_cases hlen : body.length = 4
      · refine .inr ⟨[], by decide, nofun, ?_⟩
        apply eq_layout
        · rw [hfour.2, hzero]
          rfl
        · exact ⟨body, [], by simp [headColumns], hlen⟩
        · exact ⟨body, [], by simp [regions], hlen⟩
        · exact hlen
      · left
        rw [BlockLayout.parse, hn, ok_bind, if_pos hzero, if_pos hlen]
        exact ⟨_, rfl⟩
    · by_cases hmax : n > maxBlockEvents
      · left
        rw [BlockLayout.parse, hn, ok_bind, if_neg hzero, if_pos hmax]
        exact ⟨_, rfl⟩
      · have hmax := Nat.not_lt.mp hmax
        by_cases hlen : 4 + 34 * n ≤ body.length
        · obtain ⟨heads, hheads⟩ := exists_heads hlen
          rw [parse_of_headsAt hn hzero hmax hlen hheads]
          rcases hsums : heads.foldlM addHead
              { coll := 0, did := 0, rkey := 0, rev := 0, payload := 0 } with halt | sums
          · obtain ⟨e, rfl⟩ := fails_foldlM addHead_fails heads _ halt hsums
            exact .inl ⟨e, rfl⟩
          · rw [ok_bind]
            rcases hl : BlockLayout.ofSums body n (4 + 34 * n) sums with halt | l
            · obtain ⟨e, rfl⟩ := ofSums_fails body n (4 + 34 * n) sums halt hl
              exact .inl ⟨e, rfl⟩
            · obtain ⟨rows, rfl, hfits, hrows⟩ :=
                exists_rows hfour.2 hheads hsums (ofSums_ok hl)
              exact .inr ⟨rows, hmax, hfits, hrows⟩
        · left
          rw [BlockLayout.parse, hn, ok_bind, if_neg hzero, if_neg (Nat.not_lt.mpr hmax),
            fixed_size hmax, ofOption, ok_bind, if_pos (Nat.lt_of_not_le hlen)]
          exact ⟨_, rfl⟩

/-! ### Layouts are decoded -/

section

variable {rows : List RawEvent}

/-- The lengths of the regions of some rows. -/
def sumsOf (rows : List RawEvent) : RegionSums where
  coll := (rows.flatMap RawEvent.collection).length
  did := (rows.flatMap RawEvent.did).length
  rkey := (rows.flatMap RawEvent.rkey).length
  rev := (rows.flatMap RawEvent.rev).length
  payload := (rows.flatMap RawEvent.payload).length

theorem length_regions (rows : List RawEvent) :
  (regions rows).length = (sumsOf rows).coll + (sumsOf rows).did + (sumsOf rows).rkey
    + (sumsOf rows).rev + (sumsOf rows).payload
  := by
  simp only [regions, sumsOf, List.length_append]
  omega

theorem headsAt_layout (rows : List RawEvent) :
  HeadsAt (layout rows) rows.length (rows.map RawEvent.head)
  := by
  have hsized : ∀ head ∈ rows.map RawEvent.head, head.Sized := by
    intro head hhead
    obtain ⟨row, -, rfl⟩ := List.mem_map.mp hhead
    exact row.head_sized
  have hcolumns := (List.hasAt_self (layout rows))
  rw [layout_eq] at hcolumns ⊢
  have hheads := hcolumns.right.left
  rw [length_le] at hheads
  have hat := headsAt_of_hasAt hsized hheads
  rw [List.length_map] at hat
  exact hat

theorem length_layout (rows : List RawEvent) :
  (layout rows).length = 4 + 34 * rows.length + (regions rows).length
  := by
  have hcolumns := length_headColumns (headsAt_layout rows).sized
  rw [List.length_map] at hcolumns
  rw [layout_eq, List.length_append, List.length_append, length_le, hcolumns]
  omega

theorem regions_hasAt (rows : List RawEvent) :
  (layout rows).HasAt (4 + 34 * rows.length) (regions rows)
  := by
  have hcolumns := length_headColumns (headsAt_layout rows).sized
  rw [List.length_map] at hcolumns
  have h := (List.hasAt_self (layout rows))
  rw [layout_eq] at h ⊢
  have hregions := h.right.right
  rw [length_le, hcolumns] at hregions
  exact hregions

theorem length_flatMap_lt {f : RawEvent → Bytes} {k : ℕ} (hmax : rows.length ≤ maxBlockEvents)
    (h : ∀ row ∈ rows, (f row).length < k) :
  (rows.flatMap f).length ≤ maxBlockEvents * k
  := by
  have hle : (rows.flatMap f).length ≤ rows.length * k := by
    clear hmax
    induction rows with
    | nil => exact Nat.zero_le _
    | cons row rows ih =>
        rw [List.forall_mem_cons] at h
        rw [List.flatMap_cons, List.length_append, List.length_cons, Nat.succ_mul]
        have := ih h.2
        have := h.1
        omega
  exact Nat.le_trans hle (Nat.mul_le_mul_right k hmax)

variable {row : RawEvent}

/-- The lengths of a row that fits are in its columns. -/
theorem RawEvent.Fits.toNat_collLen (h : row.Fits) :
  row.head.collLen.toNat = row.collection.length
  := UInt8.toNat_ofNat_of_lt' h.collection

theorem RawEvent.Fits.ofLe_didLen (h : row.Fits) :
  ofLe row.head.didLen = row.did.length
  := ofLe_le h.did

theorem RawEvent.Fits.toNat_rkeyLen (h : row.Fits) :
  row.head.rkeyLen.toNat = row.rkey.length
  := UInt8.toNat_ofNat_of_lt' h.rkey

theorem RawEvent.Fits.toNat_revLen (h : row.Fits) :
  row.head.revLen.toNat = row.rev.length
  := UInt8.toNat_ofNat_of_lt' h.rev

theorem RawEvent.Fits.ofLe_payloadLen (h : row.Fits) :
  ofLe row.head.payloadLen = row.payload.length
  := ofLe_le h.payload

theorem kinds_head (rows : List RawEvent) :
  ∀ head ∈ rows.map RawEvent.head, ∃ kind, SegmentKind.fromU8 head.kind = .ok kind
  := by
  intro head hhead
  obtain ⟨row, -, rfl⟩ := List.mem_map.mp hhead
  exact ⟨row.kind, fromU8_asU8 row.kind⟩

theorem sumsOf_eq (hfits : ∀ row ∈ rows, row.Fits) :
  sumsOf rows = RegionSums.addHeads { coll := 0, did := 0, rkey := 0, rev := 0, payload := 0 }
    (rows.map RawEvent.head)
  := by
  have hcolumn : ∀ {f : RawEvent → Bytes} {g : RowHead → ℕ},
      (∀ row : RawEvent, row.Fits → g row.head = (f row).length) →
      (rows.flatMap f).length = 0 + ((rows.map RawEvent.head).map g).sum := by
    intro f g h
    rw [List.length_flatMap, Nat.zero_add, List.map_map]
    apply congrArg
    apply List.map_congr_left
    exact fun row hrow => (h row (hfits row hrow)).symm
  rw [sumsOf, RegionSums.addHeads, RegionSums.mk.injEq]
  exact ⟨hcolumn fun _ h => h.toNat_collLen, hcolumn fun _ h => h.ofLe_didLen,
    hcolumn fun _ h => h.toNat_rkeyLen, hcolumn fun _ h => h.toNat_revLen,
    hcolumn fun _ h => h.ofLe_payloadLen⟩

/-- The layout of rows that fit is a block of consistent layout. -/
theorem parse_layout (hmax : rows.length ≤ maxBlockEvents) (hfits : ∀ row ∈ rows, row.Fits) :
  BlockLayout.parse (layout rows) = .ok (layoutWith rows.length (sumsOf rows))
  := by
  have hfour : (layout rows).HasAt 0 (le 4 rows.length) := by
    have h := (List.hasAt_self (layout rows))
    rw [layout_eq] at h ⊢
    exact h.left
  have hn : readU32 (layout rows) 0 = .ok rows.length := by
    rw [readU32_of_hasAt hfour (length_le _ _), ofLe_le]
    rw [maxBlockEvents] at hmax
    omega
  have hlen := length_layout rows
  have hcoll := length_flatMap_lt hmax fun row hrow => (hfits row hrow).collection
  have hdid := length_flatMap_lt hmax fun row hrow => (hfits row hrow).did
  have hrkey := length_flatMap_lt hmax fun row hrow => (hfits row hrow).rkey
  have hrev := length_flatMap_lt hmax fun row hrow => (hfits row hrow).rev
  have hpayload := length_flatMap_lt hmax fun row hrow => (hfits row hrow).payload
  have hregions := length_regions rows
  rcases Nat.eq_zero_or_pos rows.length with hzero | hpos
  · rw [List.length_eq_zero_iff] at hzero
    rw [hzero]
    rfl
  · have hsums : (rows.map RawEvent.head).foldlM addHead
        { coll := 0, did := 0, rkey := 0, rev := 0, payload := 0 } = .ok (sumsOf rows) :=
      foldlM_addHead.mpr ⟨kinds_head rows, sumsOf_eq hfits⟩
    rw [parse_of_headsAt hn (Nat.ne_of_gt hpos) hmax (by omega) (headsAt_layout rows), hsums,
      ok_bind, ofSums_of_length]
    · rw [hlen, hregions]
    · rw [hlen, hregions]
      simp only [sumsOf]
      rw [maxBlockEvents] at *
      omega

end

end Shrike.Jetstream
