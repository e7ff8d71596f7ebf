import Shrike.Car.Frames

/-!
# The CAR readers agree

Each of the three readers gives what the bytes of the CAR contain, however they are cut into
chunks.
-/

namespace Shrike.Car

open Cbor Except

/-! ### The streaming reader -/

/-- Reading a varint from a stream is reading it from the bytes of the stream. -/
theorem readVarintFrom_eq :
  ∀ (bs : Bytes) (value i : ℕ), Reader.readVarintFrom value i bs
    = match varintFrom value i bs with
      | .error e => .error e
      | .ok (some (n, j)) => .ok (some n, bs.drop (j - i))
      | .ok none =>
          if i = 0 ∧ bs = [] then .ok (none, []) else .error (.invalidBlock .truncatedVarint)
  | [], value, i => by
      rw [Reader.readVarintFrom, varintFrom]
      simp
  | b :: bs, value, i => by
      rw [Reader.readVarintFrom, varintFrom]
      rcases varintStep value i b with e | ⟨value', complete⟩
      · rfl
      · rw [ok_bind, ok_bind]
        dsimp only
        cases complete with
        | true =>
            have hone : i + 1 - i = 1 := by omega
            simp [hone]
        | false =>
            simp only [Bool.false_eq_true, if_false]
            rw [readVarintFrom_eq bs value' (i + 1)]
            rcases hvarint : varintFrom value' (i + 1) bs with e | _ | ⟨n, j⟩
            · rfl
            · simp
            · have hbounds := varintFrom_bounds hvarint
              have hj : j - i = (j - (i + 1)) + 1 := by omega
              dsimp only
              rw [hj, List.drop_succ_cons]

theorem readVarintEof_eq (bs : Bytes) :
  Reader.readVarintEof bs = match varintFromSlice bs with
    | .error e => .error e
    | .ok (some (n, skip)) => .ok (some n, bs.drop skip)
    | .ok none => if bs = [] then .ok (none, []) else .error (.invalidBlock .truncatedVarint)
  := by
  rw [Reader.readVarintEof, readVarintFrom_eq, varintFromSlice]
  simp

/-- The reader opens a CAR whose header is there and is valid, and no other. -/
theorem Reader.new_eq (bs : Bytes) :
  (∀ roots rest, headerFrame bs = .ok (some (roots, rest)) →
      Reader.new bs = .ok { reader := rest, roots })
    ∧ ((∀ p, headerFrame bs ≠ .ok (some p)) → ∃ e, Reader.new bs = .error e)
  := by
  rw [headerFrame, frame, Reader.new, readVarint, readVarintEof_eq]
  rcases varintFromSlice bs with e | _ | ⟨len, skip⟩
  · exact ⟨fun _ _ h => (by cases h), fun _ => ⟨e, rfl⟩⟩
  · refine ⟨fun _ _ h => (by cases h), fun _ => ?_⟩
    dsimp only
    split
    · exact ⟨_, rfl⟩
    · rename_i heq
      split at heq <;> cases heq
    · exact ⟨_, rfl⟩
  · dsimp only
    rw [ok_bind]
    dsimp only
    rcases checkHeaderLen len with e | len
    · exact ⟨fun _ _ h => (by cases h), fun _ => ⟨e, rfl⟩⟩
    · rw [ok_bind, List.length_drop]
      dsimp only
      by_cases hlen : bs.length - skip < len
      · rw [if_pos hlen, if_pos hlen]
        exact ⟨fun _ _ h => (by cases h), fun _ => ⟨_, rfl⟩⟩
      · rw [if_neg hlen, if_neg hlen]
        dsimp only
        rcases decodeHeader ((bs.drop skip).take len) with e | roots
        · exact ⟨fun _ _ h => (by cases h), fun _ => ⟨e, rfl⟩⟩
        · refine ⟨fun _ _ h => ?_, fun h => absurd rfl (h _)⟩
          cases h
          rfl

theorem checkBlockLen_ok {n len : ℕ} (h : checkBlockLen n = .ok len) :
  n = len ∧ cidLen ≤ len
  := by
  rw [checkBlockLen] at h
  split at h
  · cases h
  · split at h
    · cases h
    · split at h
      · cases h
      · rename_i hlen
        cases h
        exact ⟨rfl, Nat.le_of_not_lt hlen⟩

/-- The reader reads the block that is there, ends where nothing is left, and fails
otherwise. -/
theorem Reader.nextBlockInto_eq (bs : Bytes) :
  (∀ p, blockFrame bs = .ok (some p) → Reader.nextBlockInto bs = .ok (some p))
    ∧ ((∀ p, blockFrame bs ≠ .ok (some p)) →
      (bs = [] → Reader.nextBlockInto bs = .ok none)
        ∧ (bs ≠ [] → ∃ e, Reader.nextBlockInto bs = .error e))
  := by
  rw [blockFrame, frame, Reader.nextBlockInto, readVarintEof_eq]
  rcases hvarint : varintFromSlice bs with e | _ | ⟨len, skip⟩
  · have hne : bs ≠ [] := by
      rintro rfl
      cases hvarint
    exact ⟨fun _ h => (by cases h), fun _ => ⟨fun hnil => absurd hnil hne, fun _ => ⟨e, rfl⟩⟩⟩
  · refine ⟨fun _ h => (by cases h), fun _ => ⟨fun hnil => ?_, fun hnil => ?_⟩⟩
    · dsimp only
      rw [if_pos hnil]
      rfl
    · dsimp only
      rw [if_neg hnil]
      exact ⟨_, rfl⟩
  · have hne : bs ≠ [] := by
      rintro rfl
      cases hvarint
    dsimp only
    rw [ok_bind]
    dsimp only
    rcases hcheck : checkBlockLen len with e | len'
    · exact ⟨fun _ h => (by cases h), fun _ => ⟨fun hnil => absurd hnil hne, fun _ => ⟨e, rfl⟩⟩⟩
    · obtain ⟨rfl, hcid⟩ := checkBlockLen_ok hcheck
      rw [ok_bind, List.length_drop]
      dsimp only
      have htake : ((bs.drop skip).take len).take cidLen = (bs.drop skip).take cidLen := by
        rw [List.take_take, min_eq_left hcid]
      by_cases hlen : bs.length - skip < len
      · rw [if_pos hlen]
        refine ⟨fun _ h => (by cases h), fun _ => ⟨fun hnil => absurd hnil hne, fun _ => ?_⟩⟩
        by_cases hshort : bs.length - skip < cidLen
        · rw [if_pos hshort]
          exact ⟨_, rfl⟩
        · rw [if_neg hshort]
          rcases parseCid ((bs.drop skip).take cidLen) with e | cid
          · exact ⟨e, rfl⟩
          · rw [ok_bind, if_pos]
            · exact ⟨_, rfl⟩
            · rw [List.length_take, List.length_drop, List.length_drop]
              omega
      · rw [if_neg hlen, if_neg (by omega)]
        dsimp only
        rw [htake]
        rcases parseCid ((bs.drop skip).take cidLen) with e | cid
        · exact ⟨fun _ h => (by cases h), fun _ => ⟨fun hnil => absurd hnil hne, fun _ => ⟨e, rfl⟩⟩⟩
        · refine ⟨fun _ h => ?_, fun h => absurd rfl (h _)⟩
          cases h
          rw [ok_bind, if_neg, List.drop_take, List.drop_drop (i := len - cidLen),
            Nat.add_sub_cancel' hcid]
          rw [not_not, List.length_take, List.length_drop, List.length_drop]
          omega

/-- The reader takes the blocks that are there, and accepts if nothing is left. -/
theorem Reader.collect_eq :
  ∀ {n : ℕ} {r : Reader}, r.reader.length < n →
    (collect Reader.nextBlock n r).1 = (blocksOf r.reader).1
      ∧ ((collect Reader.nextBlock n r).2.1.isNone
        = decide ((blocksOf r.reader).2.toOption = some []))
      ∧ (collect Reader.nextBlock n r).2.2.roots = r.roots
  | 0, _, h => absurd h (Nat.not_lt_zero _)
  | n + 1, r, h => by
      obtain ⟨hsome, hnone⟩ := Reader.nextBlockInto_eq r.reader
      rw [collect, Reader.nextBlock]
      rcases hframe : blockFrame r.reader with e | _ | ⟨block, rest⟩
      · have hnone := hnone (by rw [hframe]; simp)
        rw [blocksOf_error hframe]
        have hne : r.reader ≠ [] := by
          intro hnil
          rw [hnil] at hframe
          cases hframe
        obtain ⟨e', he'⟩ := hnone.2 hne
        rw [he']
        simp [Except.toOption]
      · have hnone := hnone (by rw [hframe]; simp)
        rw [blocksOf_none hframe]
        by_cases hnil : r.reader = []
        · rw [hnone.1 hnil]
          simp [hnil, Except.toOption]
        · obtain ⟨e', he'⟩ := hnone.2 hnil
          rw [he']
          simp [hnil, Except.toOption]
      · have hshrinks := blockFrame_shrinks hframe
        rw [hsome _ hframe, blocksOf_some hframe]
        obtain ⟨hblocks, haccept, hroots⟩ := Reader.collect_eq
          (n := n) (r := { r with reader := rest }) (by dsimp only; omega)
        dsimp only
        rw [hblocks, haccept, hroots]
        exact ⟨rfl, rfl, rfl⟩

/-- The streaming reader gives the outcome of the CAR. -/
theorem Reader.run_eq (bs : Bytes) :
  Reader.run bs = outcome bs
  := by
  obtain ⟨hsome, hnone⟩ := Reader.new_eq bs
  rw [Reader.run, outcome, parse]
  rcases hheader : headerFrame bs with e | _ | ⟨roots, rest⟩
  · obtain ⟨e', he'⟩ := hnone (by rw [hheader]; simp)
    rw [he']
    rfl
  · obtain ⟨e', he'⟩ := hnone (by rw [hheader]; simp)
    rw [he']
    rfl
  · rw [hsome roots rest hheader]
    obtain ⟨hblocks, haccept, hroots⟩ := Reader.collect_eq (n := rest.length + 1)
      (r := { reader := rest, roots }) (Nat.lt_succ_self _)
    dsimp only
    rw [hblocks, haccept, hroots]
    simp

/-! ### The reader over bytes in memory -/

/-- Both readers read the same header, or fail with the same error. -/
theorem SliceReader.new_eq (bs : Bytes) :
  SliceReader.new bs = (Reader.new bs).map fun r => { rest := r.reader, roots := r.roots }
  := by
  rw [SliceReader.new, Reader.new, Reader.readVarint, readVarintEof_eq]
  rcases varintFromSlice bs with e | _ | ⟨len, skip⟩
  · rfl
  · rw [ok_bind]
    dsimp only
    by_cases hnil : bs = []
    · rw [if_pos hnil, if_pos hnil]
      rfl
    · rw [if_neg hnil, if_neg hnil]
      rfl
  · rw [ok_bind]
    dsimp only
    rw [ok_bind]
    dsimp only
    rcases checkHeaderLen len with e | len
    · rfl
    · rw [ok_bind, ok_bind]
      split
      · rfl
      · rcases decodeHeader ((bs.drop skip).take len) with e | roots
        · rfl
        · rfl

/-- The short way reads the same length prefix. -/
theorem SliceReader.blockPrefix_eq (bs : Bytes) :
  SliceReader.blockPrefix bs
    = varintFromSlice bs >>= fun v => v.elim (.error (.invalidBlock .truncatedVarint)) .ok
  := by
  rw [SliceReader.blockPrefix.eq_def]
  rcases bs with _ | ⟨b₀, bs⟩
  · rfl
  · dsimp only
    split
    · rename_i hb₀
      have hmod : b₀.toNat % 128 = b₀.toNat := Nat.mod_eq_of_lt (UInt8.lt_iff_toNat_lt.mp hb₀)
      have hstep : varintStep 0 0 b₀ = .ok (b₀.toNat, true) := by
        rw [varintStep, if_pos hb₀, hmod]
        simp
      rw [varintFromSlice, varintFrom, hstep]
      rfl
    · rename_i hb₀
      rcases bs with _ | ⟨b₁, bs⟩
      · rcases varintFromSlice [b₀] with e | _ | v
        · rfl
        · rfl
        · rfl
      · dsimp only
        split
        · rename_i hb₁
          obtain ⟨hlt, hne⟩ := hb₁
          have hmod : b₁.toNat % 128 = b₁.toNat := Nat.mod_eq_of_lt (UInt8.lt_iff_toNat_lt.mp hlt)
          have hfirst : varintStep 0 0 b₀ = .ok (b₀.toNat % 128, false) := by
            rw [varintStep, if_neg hb₀]
            simp
          have hsecond : varintStep (b₀.toNat % 128) 1 b₁
              = .ok (b₀.toNat % 128 ||| b₁.toNat <<< 7, true) := by
            rw [varintStep, if_pos hlt, if_neg (fun h => hne h.2), hmod]
          rw [varintFromSlice, varintFrom, hfirst, ok_bind]
          dsimp only
          rw [if_neg Bool.false_ne_true, varintFrom, hsecond]
          rfl
        · rcases varintFromSlice (b₀ :: b₁ :: bs) with e | _ | v
          · rfl
          · rfl
          · rfl

/-- Both readers read the same block, or fail with the same error. -/
theorem SliceReader.splitBlock_eq {bs : Bytes} (hne : bs ≠ []) :
  Reader.nextBlockInto bs = (SliceReader.splitBlock bs).map some
  := by
  rw [Reader.nextBlockInto, SliceReader.splitBlock, readVarintEof_eq, SliceReader.blockPrefix_eq]
  rcases varintFromSlice bs with e | _ | ⟨len, skip⟩
  · rfl
  · rw [if_neg hne]
    rfl
  · rw [ok_bind, ok_bind, Option.elim_some, ok_bind]
    dsimp only
    rcases hcheck : checkBlockLen len with e | len'
    · rfl
    · obtain ⟨rfl, hcid⟩ := checkBlockLen_ok hcheck
      rw [ok_bind, ok_bind]
      split
      · rfl
      · rename_i hlen
        rcases parseCid ((bs.drop skip).take cidLen) with e | cid
        · rfl
        · rw [ok_bind, ok_bind]
          by_cases hshort : (bs.drop skip).length < len
          · rw [if_pos hshort, if_pos]
            · rfl
            · rw [List.length_take, List.length_drop]
              omega
          · rw [if_neg hshort, if_neg, List.drop_take, List.drop_drop (i := len - cidLen),
              Nat.add_sub_cancel' hcid]
            · rfl
            · rw [not_not, List.length_take, List.length_drop]
              omega

theorem SliceReader.collect_eq :
  ∀ {n : ℕ} {r : Reader},
    (collect SliceReader.nextBlock n { rest := r.reader, roots := r.roots }).1
        = (collect Reader.nextBlock n r).1
      ∧ (collect SliceReader.nextBlock n { rest := r.reader, roots := r.roots }).2.1
        = (collect Reader.nextBlock n r).2.1
      ∧ (collect SliceReader.nextBlock n { rest := r.reader, roots := r.roots }).2.2.roots
        = (collect Reader.nextBlock n r).2.2.roots
  | 0, _ => ⟨rfl, rfl, rfl⟩
  | n + 1, r => by
      rw [collect, collect, SliceReader.nextBlock, Reader.nextBlock]
      dsimp only
      by_cases hnil : r.reader = []
      · rw [if_pos hnil, hnil]
        exact ⟨rfl, rfl, rfl⟩
      · rw [if_neg hnil, SliceReader.splitBlock_eq hnil]
        rcases SliceReader.splitBlock r.reader with e | ⟨block, rest⟩
        · exact ⟨rfl, rfl, rfl⟩
        · obtain ⟨hblocks, herror, hroots⟩ :=
            SliceReader.collect_eq (n := n) (r := { r with reader := rest })
          dsimp only [Except.map] at hblocks herror hroots ⊢
          rw [hblocks, herror, hroots]
          exact ⟨rfl, rfl, rfl⟩

/-- The reader over bytes in memory does what the streaming reader does. -/
theorem SliceReader.run_eq (bs : Bytes) :
  SliceReader.run bs = Reader.run bs
  := by
  rw [SliceReader.run, Reader.run, SliceReader.new_eq]
  rcases Reader.new bs with e | r
  · rfl
  · obtain ⟨hblocks, herror, hroots⟩ := SliceReader.collect_eq (n := r.reader.length + 1) (r := r)
    dsimp only [Except.map]
    rw [hblocks, herror, hroots]

/-! ### The reader of chunks -/

namespace IncrementalReader

/-- The bytes that have arrived and are not read yet. -/
def rest (r : IncrementalReader) : Bytes := r.buf.drop r.pos

theorem push_rest (r : IncrementalReader) (chunk : Bytes) :
  (r.push chunk).rest = r.rest ++ chunk ∧ (r.push chunk).roots = r.roots
  := ⟨rfl, rfl⟩

/-- The frame that the reader cuts out of its buffer is that of the bytes not read yet. -/
theorem frame_rest (r : IncrementalReader) (checkLen : ℕ → Except CarError ℕ) :
  frame checkLen r.rest = match r.nextFrame checkLen with
    | .error e => .error e
    | .ok none => .ok none
    | .ok (some (start, stop)) => .ok (some ((r.buf.take stop).drop start, r.buf.drop stop))
  := by
  rw [frame, nextFrame, rest]
  rcases varintFromSlice (r.buf.drop r.pos) with e | _ | ⟨len, skip⟩
  · rfl
  · rfl
  · rw [ok_bind]
    dsimp only
    rcases checkLen len with e | len
    · rfl
    · rw [ok_bind]
      dsimp only
      split
      · rfl
      · dsimp only
        rw [List.drop_take, List.drop_drop, List.drop_drop, Nat.add_sub_cancel_left]

variable {r r' r₁ : IncrementalReader}

variable {roots : List Cid}

theorem readHeader_some (h : r.roots = some roots) :
  r.readHeader = (.ok true, r)
  := by
  rw [readHeader, h]

/-- Reading the header, while it is not read: nothing happens until it has arrived. -/
theorem readHeader_none (h : r.roots = none) :
  (∀ e, headerFrame r.rest = .error e → ∃ r', r.readHeader = (.error e, r') ∧ r'.roots = none)
    ∧ (headerFrame r.rest = .ok none → r.readHeader = (.ok false, r))
    ∧ ∀ roots rest, headerFrame r.rest = .ok (some (roots, rest)) →
      ∃ r', r.readHeader = (.ok true, r') ∧ r'.roots = some roots ∧ r'.rest = rest
        ∧ r'.buf = r.buf
  := by
  rw [headerFrame, frame_rest, readHeader, h]
  rcases r.nextFrame checkHeaderLen with e | _ | ⟨start, stop⟩
  · refine ⟨fun e' he => ?_, fun he => (by cases he), fun _ _ he => (by cases he)⟩
    cases he
    exact ⟨r, rfl, h⟩
  · exact ⟨fun _ he => (by cases he), fun _ => rfl, fun _ _ he => (by cases he)⟩
  · dsimp only
    rcases decodeHeader ((r.buf.take stop).drop start) with e | roots
    · refine ⟨fun e' he => ?_, fun he => (by cases he), fun _ _ he => (by cases he)⟩
      cases he
      exact ⟨_, rfl, rfl⟩
    · refine ⟨fun _ he => (by cases he), fun he => (by cases he), fun _ _ he => ?_⟩
      cases he
      exact ⟨_, rfl, rfl, rfl, rfl⟩

/-- Taking the next block, once the header is read: nothing happens until all of it has
arrived. -/
theorem nextBlock_some (h : r.roots = some roots) :
  (∀ e, blockFrame r.rest = .error e →
      ∃ r', r.nextBlock = (.error e, r') ∧ r'.roots = some roots)
    ∧ (blockFrame r.rest = .ok none → r.nextBlock = (.ok none, r))
    ∧ ∀ block rest, blockFrame r.rest = .ok (some (block, rest)) →
      ∃ r', r.nextBlock = (.ok (some block), r') ∧ r'.roots = some roots ∧ r'.rest = rest
  := by
  rw [blockFrame, frame_rest, nextBlock, readHeader_some h]
  dsimp only
  rcases r.nextFrame checkBlockLen with e | _ | ⟨start, stop⟩
  · refine ⟨fun e' he => ?_, fun he => (by cases he), fun _ _ he => (by cases he)⟩
    cases he
    exact ⟨r, rfl, h⟩
  · exact ⟨fun _ he => (by cases he), fun _ => rfl, fun _ _ he => (by cases he)⟩
  · dsimp only
    rcases parseCid (((r.buf.take stop).drop start).take cidLen) with e | cid
    · refine ⟨fun e' he => ?_, fun he => (by cases he), fun _ _ he => (by cases he)⟩
      cases he
      exact ⟨_, rfl, h⟩
    · refine ⟨fun _ he => (by cases he), fun he => (by cases he), fun _ _ he => ?_⟩
      cases he
      exact ⟨_, rfl, h, rfl⟩

/-- How reading ends: with the error, or with the bytes left. -/
def Ends (res : Except CarError Bytes) (e : Option CarError) (r : IncrementalReader) : Prop :=
  match res with
  | .error e' => e = some e'
  | .ok rest => e = none ∧ r.rest = rest

theorem collect_some :
  ∀ {n : ℕ} {r : IncrementalReader}, r.roots = some roots → r.rest.length < n →
    ∃ e r', collect nextBlock n r = ((blocksOf r.rest).1, e, r') ∧ r'.roots = some roots
      ∧ Ends (blocksOf r.rest).2 e r'
  | 0, _, _, h => absurd h (Nat.not_lt_zero _)
  | n + 1, r, hroots, h => by
      obtain ⟨herror, hnone, hsome⟩ := nextBlock_some hroots
      rw [collect]
      rcases hframe : blockFrame r.rest with e | _ | ⟨block, rest⟩
      · obtain ⟨r', hnext, hroots'⟩ := herror e hframe
        rw [hnext, blocksOf_error hframe]
        exact ⟨some e, r', rfl, hroots', rfl⟩
      · rw [hnone hframe, blocksOf_none hframe]
        exact ⟨none, r, rfl, hroots, rfl, rfl⟩
      · obtain ⟨r₁, hnext, hroots₁, hrest₁⟩ := hsome block rest hframe
        have hshrinks := blockFrame_shrinks hframe
        obtain ⟨e, r', hcollect, hroots', hends⟩ := collect_some (n := n) hroots₁
          (by rw [hrest₁]; omega)
        rw [hnext, blocksOf_some hframe]
        dsimp only
        rw [hcollect, hrest₁]
        rw [hrest₁] at hends
        exact ⟨e, r', rfl, hroots', hends⟩

/-- Taking all blocks that have arrived reads on as far as the bytes go. -/
theorem drain_eq (r : IncrementalReader) :
  ∃ blocks e r' res, r.drain = (blocks, e, r') ∧ parse r.roots r.rest = (r'.roots, blocks, res)
    ∧ Ends res e r'
  := by
  have hlen : r.rest.length ≤ r.buf.length := by
    rw [rest, List.length_drop]
    omega
  rw [drain]
  cases hroots : r.roots with
  | some roots =>
      obtain ⟨e, r', hcollect, hroots', hends⟩ :=
        collect_some (n := r.buf.length + 1) hroots (by omega)
      refine ⟨_, e, r', _, hcollect, ?_, hends⟩
      rw [parse, hroots']
  | none =>
      obtain ⟨herror, hnone, hsome⟩ := readHeader_none hroots
      rw [parse]
      rcases hframe : headerFrame r.rest with e | _ | ⟨roots, rest⟩
      · obtain ⟨r', hheader, hroots'⟩ := herror e hframe
        refine ⟨[], some e, r', .error e, ?_, ?_, rfl⟩
        · rw [collect, nextBlock, hheader]
        · rw [hroots']
      · refine ⟨[], none, r, .ok r.rest, ?_, ?_, rfl, rfl⟩
        · rw [collect, nextBlock, hnone hframe]
        · rw [hroots]
      · obtain ⟨r₁, hheader, hroots₁, hrest₁, hbuf₁⟩ := hsome roots rest hframe
        have hsame : collect nextBlock (r.buf.length + 1) r
            = collect nextBlock (r.buf.length + 1) r₁ := by
          rw [collect, collect, nextBlock, nextBlock, hheader, readHeader_some hroots₁]
        have hlen₁ : r₁.rest.length ≤ r.buf.length := by
          rw [IncrementalReader.rest, List.length_drop, hbuf₁]
          omega
        obtain ⟨e, r', hcollect, hroots', hends⟩ :=
          collect_some (n := r.buf.length + 1) hroots₁ (by omega)
        rw [hsame, hcollect]
        rw [hrest₁] at hends ⊢
        refine ⟨_, e, r', _, rfl, ?_, hends⟩
        rw [hroots']

/-- Feeding chunks to a reader that waits for more reads on through the bytes of all of
them. -/
theorem feed_eq :
  ∀ (chunks : List Bytes) {r : IncrementalReader},
    parse r.roots r.rest = (r.roots, [], .ok r.rest) →
    ∃ blocks e r' res, r.feed chunks = (blocks, e, r')
      ∧ parse r.roots (r.rest ++ chunks.flatten) = (r'.roots, blocks, res) ∧ Ends res e r'
  | [], r, h => by
      rw [List.flatten_nil, List.append_nil]
      exact ⟨[], none, r, .ok r.rest, rfl, h, rfl, rfl⟩
  | chunk :: chunks, r, h => by
      obtain ⟨hrest, hroots⟩ := r.push_rest chunk
      obtain ⟨blocks, e, r₁, res, hdrain, hparse, hends⟩ := (r.push chunk).drain_eq
      rw [hrest, hroots] at hparse
      have happend := parse_append r.roots (r.rest ++ chunk) chunks.flatten
      rw [hparse, List.append_assoc] at happend
      rw [feed, hdrain, List.flatten_cons, happend]
      cases res with
      | error e' =>
          obtain rfl : e = some e' := hends
          exact ⟨blocks, some e', r₁, .error e', rfl, rfl, rfl⟩
      | ok left =>
          obtain ⟨rfl, rfl⟩ := hends
          obtain ⟨more, e₂, r₂, res₂, hfeed, hparse₂, hends₂⟩ := feed_eq chunks (parse_left hparse)
          dsimp only
          rw [hfeed, hparse₂]
          exact ⟨blocks ++ more, e₂, r₂, res₂, rfl, rfl, hends₂⟩

theorem finish_isOk (r : IncrementalReader) :
  r.finish.isOk = (r.roots.isSome && decide (r.rest = []))
  := by
  rw [finish]
  cases r.roots with
  | none => rfl
  | some roots =>
      simp only [Option.isNone_some, Bool.false_eq_true, if_false, Option.isSome_some, Bool.true_and]
      rw [← rest]
      by_cases hnil : r.rest = []
      · rw [if_pos hnil, hnil]
        rfl
      · rw [if_neg hnil, decide_eq_false hnil]
        rcases varintFromSlice r.rest with e | _ | v
        · rfl
        · rfl
        · rfl

/-- The reader of chunks gives the outcome of the CAR, however it is cut. -/
theorem run_eq (chunks : List Bytes) :
  run chunks = outcome chunks.flatten
  := by
  obtain ⟨blocks, e, r, res, hfeed, hparse, hends⟩ := feed_eq chunks (r := new) rfl
  have hnew : new.rest = [] := rfl
  rw [hnew, List.nil_append] at hparse
  have hroots : new.roots = none := rfl
  rw [hroots] at hparse
  rw [run, hfeed, outcome, hparse]
  cases res with
  | error e' =>
      obtain rfl : e = some e' := hends
      simp [Except.toOption]
  | ok left =>
      obtain ⟨rfl, rfl⟩ := hends
      simp [Except.toOption, finish_isOk]

/-! ### The length of the next block -/

/-- The data of a block has the length that its prefix says. -/
theorem blockFrame_length {bs rest : Bytes} {block : Block}
    (h : blockFrame bs = .ok (some (block, rest))) :
  ∃ len skip, varintFromSlice bs = .ok (some (len, skip)) ∧ checkBlockLen len = .ok len
    ∧ block.data.length = len - cidLen
  := by
  rw [blockFrame, frame] at h
  rcases hvarint : varintFromSlice bs with e | _ | ⟨len, skip⟩
  · rw [hvarint] at h
    cases h
  · rw [hvarint] at h
    cases h
  · rw [hvarint] at h
    dsimp only at h
    rcases hcheck : checkBlockLen len with e | len'
    · rw [hcheck] at h
      cases h
    · obtain ⟨rfl, hcid⟩ := checkBlockLen_ok hcheck
      rw [hcheck] at h
      dsimp only at h
      by_cases hlen : bs.length - skip < len
      · rw [if_pos hlen] at h
        cases h
      · rw [if_neg hlen] at h
        dsimp only at h
        split at h
        · cases h
        · cases h
          refine ⟨len, skip, rfl, hcheck, ?_⟩
          rw [List.length_drop, List.length_take, List.length_drop]
          omega

/-- Once the header has arrived, both lookups go on where it ends. -/
theorem lookup_cases (r : IncrementalReader) :
  (∃ e r', r.nextBlockDataLen = (.error e, r') ∧ r.nextBlock.1 = .error e)
    ∨ r.nextBlockDataLen = (.ok none, r) ∧ r.nextBlock = (.ok none, r)
    ∨ ∃ (r' : IncrementalReader) (roots : List Cid), r'.roots = some roots
      ∧ r.nextBlockDataLen = r'.nextBlockDataLen ∧ r.nextBlock = r'.nextBlock
  := by
  cases hroots : r.roots with
  | some roots => exact .inr (.inr ⟨r, roots, hroots, rfl, rfl⟩)
  | none =>
      obtain ⟨herror, hnone, hsome⟩ := readHeader_none hroots
      rw [nextBlockDataLen, nextBlock]
      rcases hframe : headerFrame r.rest with e | _ | ⟨roots, rest⟩
      · obtain ⟨r', hr', -⟩ := herror e hframe
        rw [hr']
        exact .inl ⟨e, r', rfl, rfl⟩
      · rw [hnone hframe]
        exact .inr (.inl ⟨rfl, rfl⟩)
      · obtain ⟨r', hr', hroots', -⟩ := hsome roots rest hframe
        rw [hr']
        refine .inr (.inr ⟨r', roots, hroots', ?_, ?_⟩)
        · rw [nextBlockDataLen, readHeader_some hroots']
        · rw [nextBlock, readHeader_some hroots']

theorem nextBlockDataLen_some (h : r.roots = some roots) :
  r.nextBlockDataLen = match varintFromSlice r.rest with
    | .error e => (.error e, r)
    | .ok none => (.ok none, r)
    | .ok (some (len, _)) =>
        match checkBlockLen len with
        | .error e => (.error e, r)
        | .ok len => (.ok (some (len - cidLen)), r)
  := by
  rw [nextBlockDataLen, readHeader_some h]
  rfl

/-- Looking up the length of the next block fails only where taking the block does, with the
same error. -/
theorem nextBlockDataLen_error {e : CarError} (h : r.nextBlockDataLen.1 = .error e) :
  r.nextBlock.1 = .error e
  := by
  rcases r.lookup_cases with ⟨e', r', hlen, hnext⟩ | ⟨hlen, -⟩ | ⟨r', roots, hroots, hsame, hnext⟩
  · rw [hlen] at h
    cases h
    exact hnext
  · rw [hlen] at h
    cases h
  · rw [hsame, nextBlockDataLen_some hroots] at h
    have hframe : blockFrame r'.rest = .error e := by
      rw [blockFrame, frame]
      rcases hvarint : varintFromSlice r'.rest with e' | _ | ⟨len, skip⟩
      · rw [hvarint] at h
        cases h
        rfl
      · rw [hvarint] at h
        cases h
      · rw [hvarint] at h
        dsimp only at h ⊢
        rcases hcheck : checkBlockLen len with e' | len'
        · rw [hcheck] at h
          cases h
          rfl
        · rw [hcheck] at h
          cases h
    obtain ⟨r'', hr'', -⟩ := (nextBlock_some hroots).1 e hframe
    rw [hnext, hr'']

/-- Looking up the length of the next block consumes nothing but the header. -/
theorem nextBlockDataLen_nextBlock {a : Option ℕ} (h : r.nextBlockDataLen = (.ok a, r₁)) :
  r₁.nextBlock = r.nextBlock
  := by
  rcases r.lookup_cases with ⟨e', r', hlen, -⟩ | ⟨hlen, -⟩ | ⟨r', roots, hroots, hsame, hnext⟩
  · rw [hlen] at h
    cases h
  · rw [hlen] at h
    cases h
    rfl
  · have hr₁ : r₁ = r' := by
      rw [hsame, nextBlockDataLen_some hroots] at h
      split at h
      · cases h
      · cases h
        rfl
      · split at h
        · cases h
        · cases h
          rfl
    rw [hr₁, hnext]

/-- The block that is taken has the length that was looked up. -/
theorem nextBlockDataLen_of_nextBlock {block : Block} (h : r.nextBlock = (.ok (some block), r')) :
  r.nextBlockDataLen.1 = .ok (some block.data.length)
  := by
  rcases r.lookup_cases with ⟨e', r₁, -, hnext⟩ | ⟨-, hnext⟩ | ⟨r₁, roots, hroots, hsame, hnext⟩
  · rw [h] at hnext
    cases hnext
  · rw [h] at hnext
    cases hnext
  · obtain ⟨herror, hnone, hsome⟩ := nextBlock_some hroots
    rw [hnext] at h
    rw [hsame]
    rcases hframe : blockFrame r₁.rest with e | _ | ⟨block', rest⟩
    · obtain ⟨r₂, hr₂, -⟩ := herror e hframe
      rw [hr₂] at h
      cases h
    · rw [hnone hframe] at h
      cases h
    · obtain ⟨r₂, hr₂, -⟩ := hsome block' rest hframe
      rw [hr₂] at h
      cases h
      obtain ⟨len, skip, hvarint, hcheck, hlength⟩ := blockFrame_length hframe
      rw [nextBlockDataLen_some hroots, hvarint]
      dsimp only
      rw [hcheck, hlength]

theorem foldl_push :
  ∀ (chunks : List Bytes) (r : IncrementalReader),
    (chunks.foldl push r).rest = r.rest ++ chunks.flatten
      ∧ (chunks.foldl push r).roots = r.roots
  | [], r => ⟨(List.append_nil _).symm, rfl⟩
  | chunk :: chunks, r => by
      obtain ⟨hrest, hroots⟩ := foldl_push chunks (r.push chunk)
      obtain ⟨hpush, hpush'⟩ := r.push_rest chunk
      rw [List.foldl_cons, hrest, hroots, hpush, hpush', List.flatten_cons, List.append_assoc]
      exact ⟨rfl, rfl⟩

/-- A length that was looked up before all of the block has arrived stays right. -/
theorem nextBlockDataLen_push {n : ℕ}
    (h : r.nextBlockDataLen = (.ok (some n), r₁)) (chunks : List Bytes) :
  (chunks.foldl push r₁).nextBlockDataLen.1 = .ok (some n)
  := by
  rcases r.lookup_cases with ⟨e', r', hlen, -⟩ | ⟨hlen, -⟩ | ⟨r', roots, hroots, hsame, -⟩
  · rw [hlen] at h
    cases h
  · rw [hlen] at h
    cases h
  · rw [hsame, nextBlockDataLen_some hroots] at h
    rcases hvarint : varintFromSlice r'.rest with e | _ | ⟨len, skip⟩
    · rw [hvarint] at h
      cases h
    · rw [hvarint] at h
      cases h
    · rw [hvarint] at h
      dsimp only at h
      rcases hcheck : checkBlockLen len with e | len'
      · rw [hcheck] at h
        cases h
      · rw [hcheck] at h
        cases h
        obtain ⟨hrest, hroots'⟩ := foldl_push chunks r₁
        rw [hroots] at hroots'
        rw [nextBlockDataLen_some hroots', hrest, varintFromSlice,
          varintFrom_append _ hvarint (by simp)]
        dsimp only
        rw [hcheck]

end IncrementalReader

/-- The three readers make the same of every byte string, however it is cut into chunks: the
same roots, the same blocks, and both accept or both reject. Looking up the length of the next
block fails only where taking it fails, consumes nothing but the header, and gives the length
of the block that is then taken, also if more chunks arrive in between. -/
theorem readers_agree (chunks : List Bytes) :
  IncrementalReader.run chunks = Reader.run chunks.flatten
    ∧ SliceReader.run chunks.flatten = Reader.run chunks.flatten
    ∧ ∀ r : IncrementalReader,
      (∀ e, r.nextBlockDataLen.1 = .error e → r.nextBlock.1 = .error e)
        ∧ (∀ block, r.nextBlock.1 = .ok (some block) →
          r.nextBlockDataLen.1 = .ok (some block.data.length))
        ∧ ∀ a r₁, r.nextBlockDataLen = (.ok a, r₁) → r₁.nextBlock = r.nextBlock
          ∧ ∀ n, a = some n → ∀ (more : List Bytes) (block : Block),
            (more.foldl IncrementalReader.push r₁).nextBlock.1 = .ok (some block) →
            block.data.length = n
  := by
  refine ⟨?_, SliceReader.run_eq _, fun r => ⟨?_, ?_, ?_⟩⟩
  · rw [IncrementalReader.run_eq, Reader.run_eq]
  · intro e h
    apply IncrementalReader.nextBlockDataLen_error h
  · intro block h
    apply @IncrementalReader.nextBlockDataLen_of_nextBlock _ r.nextBlock.2
    rw [← h]
  · intro a r₁ h
    refine ⟨IncrementalReader.nextBlockDataLen_nextBlock h, ?_⟩
    rintro n rfl more block hblock
    have hlen := IncrementalReader.nextBlockDataLen_push h more
    rw [@IncrementalReader.nextBlockDataLen_of_nextBlock _
      (more.foldl IncrementalReader.push r₁).nextBlock.2 _ (by rw [← hblock])] at hlen
    apply Option.some.inj (Except.ok.inj hlen)

/-- A CAR with no roots whose only block is cut off, in two chunks. -/
example : IncrementalReader.run [[0x11, 0xa2], [0x65, 0x72, 0x6f, 0x6f, 0x74, 0x73, 0x80, 0x67,
    0x76, 0x65, 0x72, 0x73, 0x69, 0x6f, 0x6e, 0x01, 0x24, 0x01]]
    = { roots := some [], blocks := [], accepted := false } := by
  decide +kernel

end Shrike.Car
