import Shrike.Car.Agreement
import Shrike.Cbor.Encoding

/-!
# The CAR writer

The writer of CAR v1 archives. What it writes, the readers read back, and of what it writes they
accept no proper part but the parts that end with a block.
-/

namespace Shrike.Car

open Bytes Cbor Cbor.Writer Except

/-! ### Length prefixes -/

/-- A varint: seven bits in each byte, the lowest first, with the high bit set in all but the
last. -/
def encodeVarintBuf (value : ℕ) : Bytes :=
  if value >>> 7 = 0 then [UInt8.ofNat (value % 128)]
  else (UInt8.ofNat (value % 128) ||| 0x80) :: encodeVarintBuf (value >>> 7)
termination_by value
decreasing_by
  rw [Nat.shiftRight_eq_div_pow] at *
  omega

theorem low_or_high (value : ℕ) :
  value % 128 ||| (value >>> 7) <<< 7 = value
  := by
  have h := Nat.two_pow_add_eq_or_of_lt (i := 7) (b := value % 128) (by omega) (value >>> 7)
  rw [Nat.or_comm, Nat.shiftLeft_eq, Nat.mul_comm, ← h, Nat.shiftRight_eq_div_pow]
  omega

theorem toNat_or_high {n : ℕ} (h : n < 128) :
  (UInt8.ofNat n ||| 0x80).toNat = n + 128
  := by
  have hor := Nat.two_pow_add_eq_or_of_lt (i := 7) h 1
  rw [UInt8.toNat_or, UInt8.toNat_ofNat', Nat.mod_eq_of_lt (by omega), Nat.or_comm]
  exact hor.symm.trans (Nat.add_comm _ _)

/-- A varint of at most nine bytes is read back, after `i` bytes that spell `acc`. -/
theorem varintFrom_encode (rest : Bytes) (value : ℕ) :
  ∀ {acc i : ℕ}, i ≤ 8 → value < 2 ^ (7 * (9 - i)) → (i = 0 ∨ value ≠ 0) →
    varintFrom acc i (encodeVarintBuf value ++ rest)
      = .ok (some (acc ||| value <<< (7 * i), i + (encodeVarintBuf value).length))
  := by
  induction value using encodeVarintBuf.induct with
  | case1 value hzero =>
      intro acc i hi hvalue hne
      have hlt : value < 128 := by
        rw [Nat.shiftRight_eq_div_pow] at hzero
        omega
      have hbyte : (UInt8.ofNat value).toNat = value := by
        rw [UInt8.toNat_ofNat', Nat.mod_eq_of_lt (by omega)]
      have hlast : UInt8.ofNat value < 0x80 := by
        rw [UInt8.lt_iff_toNat_lt, hbyte]
        exact hlt
      rw [encodeVarintBuf, if_pos hzero, Nat.mod_eq_of_lt hlt, List.singleton_append, varintFrom,
        varintStep, hbyte, Nat.mod_eq_of_lt hlt, if_pos hlast, if_neg]
      · rfl
      · rintro ⟨hpos, hbyte'⟩
        rw [hbyte'] at hbyte
        rcases hne with rfl | hne
        · exact absurd hpos (Nat.lt_irrefl 0)
        · exact hne hbyte.symm
  | case2 value hne ih =>
      intro acc i hi hvalue _
      have hbyte := toNat_or_high (n := value % 128) (by omega)
      have hdiv : value >>> 7 = value / 128 := Nat.shiftRight_eq_div_pow value 7
      have hi8 : i ≠ 8 := by
        rintro rfl
        rw [hdiv] at hne
        have : value < 128 := hvalue
        omega
      have hsmall : value >>> 7 < 2 ^ (7 * (9 - (i + 1))) := by
        rw [hdiv, Nat.div_lt_iff_lt_mul (by decide), show (128 : ℕ) = 2 ^ 7 from rfl, ← Nat.pow_add]
        rw [show 7 * (9 - (i + 1)) + 7 = 7 * (9 - i) by omega]
        exact hvalue
      have hshift : (value % 128) <<< (7 * i) ||| (value >>> 7) <<< (7 * (i + 1))
          = value <<< (7 * i) := by
        rw [show 7 * (i + 1) = 7 + 7 * i by omega, Nat.shiftLeft_add, ← Nat.shiftLeft_or_distrib,
          low_or_high]
      have hcontinue : ¬(UInt8.ofNat (value % 128) ||| 0x80) < 0x80 := by
        rw [UInt8.lt_iff_toNat_lt, hbyte]
        exact Nat.not_lt.mpr (Nat.le_add_left _ _)
      rw [encodeVarintBuf, if_neg hne, List.cons_append, varintFrom, varintStep, hbyte,
        if_neg hcontinue, if_neg hi8, Nat.add_mod_right, Nat.mod_mod, ok_bind]
      dsimp only
      rw [if_neg Bool.false_ne_true, ih (by omega) hsmall (.inr hne), Nat.or_assoc, hshift,
        List.length_cons]
      congr 3
      omega

/-- A length prefix is read back. -/
theorem varintFromSlice_encode {value : ℕ} (rest : Bytes) (h : value < 2 ^ 63) :
  varintFromSlice (encodeVarintBuf value ++ rest)
    = .ok (some (value, (encodeVarintBuf value).length))
  := by
  rw [varintFromSlice, varintFrom_encode rest value (Nat.zero_le 8) h (.inl rfl)]
  simp

variable {p q bs body : Bytes}

/-- What is written after its length is the first frame. -/
theorem frame_encode {checkLen : ℕ → Except CarError ℕ} (rest : Bytes)
    (hlen : body.length < 2 ^ 63) (hcheck : checkLen body.length = .ok body.length) :
  frame checkLen (encodeVarintBuf body.length ++ body ++ rest) = .ok (some (body, rest))
  := by
  rw [frame, List.append_assoc, varintFromSlice_encode _ hlen]
  dsimp only
  rw [hcheck]
  simp

/-! ### The writer -/

/-- The writer over the bytes written so far. -/
structure Writer where
  writer : Bytes

/-- Write the map that a CAR starts with. -/
def encodeHeader (roots : List Cid) : Cbor.Writer :=
  encodeTextMap [ascii "roots", ascii "version"] fun key =>
    if key = ascii "roots" then
      (encodeArrayHeader roots.length).andThen (inTurn (roots.map encodeCid))
    else if key = ascii "version" then encodeU64 1
    else put []

namespace Writer

/-- Write the header. -/
def new (writer : Bytes) (roots : List Cid) : Except Rejected Writer :=
  match encodeHeader roots [] with
  | (.error e, _) => .error e
  | (.ok (), header) => .ok { writer := writer ++ encodeVarintBuf header.length ++ header }

/-- Write a block. -/
def writeBlockRef (w : Writer) (block : Block) : Writer :=
  let cidBytes := block.cid.toBytes
  let blockLen := cidBytes.length + block.data.length
  { writer := w.writer ++ encodeVarintBuf blockLen ++ cidBytes ++ block.data }

end Writer

/-- A whole CAR. -/
def writeAll (roots : List Cid) (blocks : List Block) : Except Rejected Bytes := do
  let writer ← Writer.new [] roots
  .ok (blocks.foldl Writer.writeBlockRef writer).writer

/-! ### The header -/

/-- The map that a CAR starts with. -/
def headerValue (roots : List Cid) : Value :=
  .map [(ascii "roots", .array (roots.map .cid)), (ascii "version", .unsigned 1)]

/-- The bytes of the map that a CAR starts with. -/
def headerBytes (roots : List Cid) : Bytes :=
  putHead 5 2 ++ (putText (ascii "roots") ++ (putHead 4 roots.length ++ roots.flatMap putCid)
    ++ (putText (ascii "version") ++ putHead 0 1))

/-- The header is written for all roots. -/
theorem encodeHeader_writes (roots : List Cid) :
  (encodeHeader roots).Writes (.ok (headerBytes roots))
  := by
  have hsorted : [ascii "roots", ascii "version"].insertionSort (fun a b => cborKeyCmp a b ≠ .gt)
      = [ascii "roots", ascii "version"] := by decide
  have hne : ascii "version" ≠ ascii "roots" := by decide
  have hroots : ((encodeArrayHeader roots.length).andThen (inTurn (roots.map encodeCid))).Writes
      (.ok (putHead 4 roots.length ++ roots.flatMap putCid)) :=
    (writeTypeValue_writes 4 roots.length).andThen (inTurn_writes fun c _ => put_writes (putCid c))
  have hversion := (encodeText_writes (ascii "version")).andThen (writeTypeValue_writes 0 1)
  have hnone := hversion.andThen (put_writes [])
  rw [List.append_nil] at hnone
  rw [encodeHeader, encodeTextMap, hsorted]
  simp only [List.map_cons, List.map_nil, inTurn, if_pos, if_neg hne]
  exact (writeTypeValue_writes 5 2).andThen (((encodeText_writes _).andThen hroots).andThen hnone)

theorem writeItems_cids :
  ∀ roots : List Cid, writeItems (roots.map .cid) = .ok (roots.flatMap putCid)
  | [] => rfl
  | c :: roots => by
      rw [List.map_cons, writeItems, writeItems_cids roots]
      rfl

/-- The header is the encoding of its map. -/
theorem writeItem_headerValue (roots : List Cid) :
  writeItem (headerValue roots) = .ok (headerBytes roots)
  := by
  have horder : (some (ascii "roots")).any (fun p => !keyLt p (ascii "version")) = false := by
    decide
  have harray : writeItem (.array (roots.map .cid))
      = .ok (putHead 4 roots.length ++ roots.flatMap putCid) := by
    rw [writeItem, writeItems_cids, List.length_map]
    rfl
  have hversion : writeEntries (some (ascii "roots")) [(ascii "version", .unsigned 1)]
      = .ok (putText (ascii "version") ++ putHead 0 1) := by
    rw [writeEntries, horder, writeItem, writeEntries]
    simp [bind, Except.bind]
  rw [headerValue, writeItem, writeEntries, harray, hversion]
  simp [headerBytes, bind, Except.bind]

theorem length_headerBytes (roots : List Cid) :
  41 * roots.length ≤ (headerBytes roots).length
  := by
  have hcids : (roots.flatMap putCid).length = 41 * roots.length := by
    induction roots with
    | nil => rfl
    | cons c roots ih =>
        have hcid : (putCid c).length = 41 := by
          simp [putCid, Cid.toTag42Bytes]
        rw [List.flatMap_cons, List.length_append, hcid, ih, List.length_cons]
        omega
  simp only [headerBytes, List.length_append, hcids]
  omega

variable {blocks : List Block} {roots : List Cid}

/-- The readers accept the map of a header whose length they accept. -/
theorem fits_headerValue (hlen : (headerBytes roots).length ≤ maxHeaderSize) :
  (headerValue roots).Fits maxDepth
  := by
  have hlong := length_headerBytes roots
  have hmany : (roots.map Value.cid).length ≤ maxCollectionLen := by
    rw [List.length_map]
    rw [maxHeaderSize] at hlen
    rw [maxCollectionLen]
    omega
  have hcid : ∀ v ∈ roots.map Value.cid, v.Fits 62 := by
    intro v hv
    obtain ⟨c, -, rfl⟩ := List.mem_map.mp hv
    trivial
  have hkeys : ∀ key ∈ [ascii "roots", ascii "version"],
      Bytes.utf8 key = true ∧ key.length < 2 ^ 64 := by decide
  constructor
  · exact Nat.le_of_ble_eq_true rfl
  · intro e he
    rcases List.mem_pair.mp he with rfl | rfl
    · exact ⟨hkeys _ (by simp), hmany, hcid⟩
    · exact ⟨hkeys _ (by simp), Nat.le_of_ble_eq_true rfl⟩

/-- A header is read back, if the readers accept its length. -/
theorem decodeHeader_headerBytes (hlen : (headerBytes roots).length ≤ maxHeaderSize) :
  decodeHeader (headerBytes roots) = .ok roots
  := by
  have hroots : rootCids (roots.map .cid) = .ok roots := by
    clear hlen
    induction roots with
    | nil => rfl
    | cons c roots ih =>
        rw [List.map_cons, rootCids, ih]
        rfl
  have hread := decodeValue_writeItem [] (fits_headerValue hlen) (writeItem_headerValue roots)
  rw [List.append_nil] at hread
  have hroot : ∀ fields, readHeaderField fields (ascii "roots", .array (roots.map .cid))
      = .ok (fields.1, some roots) := by
    intro fields
    have hne : ascii "roots" ≠ [0x76, 0x65, 0x72, 0x73, 0x69, 0x6f, 0x6e] := by decide
    have heq : ascii "roots" = [0x72, 0x6f, 0x6f, 0x74, 0x73] := by decide
    rw [readHeaderField, if_neg hne, if_pos heq]
    dsimp only
    rw [hroots, ok_bind]
  have hversion : ∀ fields, readHeaderField fields (ascii "version", .unsigned 1)
      = .ok (some 1, fields.2) := by
    intro fields
    have heq : ascii "version" = [0x76, 0x65, 0x72, 0x73, 0x69, 0x6f, 0x6e] := by decide
    rw [readHeaderField, if_pos heq]
  have hfields : [(ascii "roots", Value.array (roots.map .cid)),
      (ascii "version", .unsigned 1)].foldlM readHeaderField (none, none)
        = .ok (some 1, some roots) := by
    rw [List.foldlM_cons, hroot, ok_bind, List.foldlM_cons, hversion, ok_bind, List.foldlM_nil]
    rfl
  rw [decodeHeader, hread]
  dsimp only [headerValue]
  rw [hfields]
  simp

/-! ### Reading back -/

/-- The bytes of a block. -/
def blockBytes (block : Block) : Bytes :=
  encodeVarintBuf (block.cid.toBytes ++ block.data).length ++ (block.cid.toBytes ++ block.data)

/-- The bytes of a CAR. -/
def carBytes (roots : List Cid) (blocks : List Block) : Bytes :=
  encodeVarintBuf (headerBytes roots).length ++ headerBytes roots ++ blocks.flatMap blockBytes

theorem foldl_writeBlockRef (blocks : List Block) (w : Writer) :
  (blocks.foldl Writer.writeBlockRef w).writer = w.writer ++ blocks.flatMap blockBytes
  := by
  induction blocks generalizing w with
  | nil => exact (List.append_nil _).symm
  | cons block blocks ih =>
      rw [List.foldl_cons, ih, List.flatMap_cons, Writer.writeBlockRef, blockBytes]
      simp only [List.length_append, List.append_assoc]

theorem writeAll_eq (roots : List Cid) (blocks : List Block) :
  writeAll roots blocks = .ok (carBytes roots blocks)
  := by
  rw [writeAll, Writer.new, encodeHeader_writes roots []]
  dsimp only
  rw [ok_bind, foldl_writeBlockRef]
  rfl

theorem headerFrame_append_headerBytes (rest : Bytes)
    (hlen : (headerBytes roots).length ≤ maxHeaderSize) :
  headerFrame (encodeVarintBuf (headerBytes roots).length ++ headerBytes roots ++ rest)
    = .ok (some (roots, rest))
  := by
  have hcheck : checkHeaderLen (headerBytes roots).length = .ok (headerBytes roots).length :=
    if_neg (Nat.not_lt.mpr hlen)
  have hsmall : (headerBytes roots).length < 2 ^ 63 := lt_of_le_of_lt hlen (by decide)
  rw [headerFrame, frame_encode rest hsmall hcheck]
  dsimp only
  rw [decodeHeader_headerBytes hlen]

/-- A block is read back, if the readers accept its length. -/
theorem blockFrame_blockBytes {block : Block} (rest : Bytes)
    (hlen : (block.cid.toBytes ++ block.data).length ≤ maxBlockSize) :
  blockFrame (blockBytes block ++ rest) = .ok (some (block, rest))
  := by
  have hcid : block.cid.toBytes.length = cidLen := block.cid.length_toBytes
  have hcheck : checkBlockLen (block.cid.toBytes ++ block.data).length
      = .ok (block.cid.toBytes ++ block.data).length := by
    have hge : cidLen ≤ (block.cid.toBytes ++ block.data).length := by
      rw [List.length_append, hcid]
      exact Nat.le_add_right _ _
    have hpos : 0 < cidLen := by decide
    rw [checkBlockLen, if_neg (by omega), if_neg (by omega), if_neg (by omega)]
  have hsmall : (block.cid.toBytes ++ block.data).length < 2 ^ 63 :=
    lt_of_le_of_lt hlen (by decide)
  rw [blockBytes, blockFrame, frame_encode rest hsmall hcheck]
  dsimp only
  rw [List.take_left' hcid, List.drop_left' hcid, parseCid, Cid.fromBytes_toBytes]

theorem blocksOf_flatMap (hblocks : ∀ b ∈ blocks, (b.cid.toBytes ++ b.data).length ≤ maxBlockSize) :
  blocksOf (blocks.flatMap blockBytes) = (blocks, .ok [])
  := by
  induction blocks with
  | nil => exact blocksOf_none rfl
  | cons block blocks ih =>
      rw [List.flatMap_cons,
        blocksOf_some (blockFrame_blockBytes _ (hblocks block List.mem_cons_self)),
        ih fun b hb => hblocks b (List.mem_cons_of_mem block hb)]

/-- A part of some blocks that is read to its end is the first few of them. -/
theorem prefix_of_blocksOf (hblocks : ∀ b ∈ blocks, (b.cid.toBytes ++ b.data).length ≤ maxBlockSize)
    (hpq : p ++ q = blocks.flatMap blockBytes) (h : (blocksOf p).2 = .ok []) :
  ∃ k, p = (blocks.take k).flatMap blockBytes
  := by
  induction blocks generalizing p with
  | nil =>
      obtain ⟨rfl, -⟩ := List.append_eq_nil_iff.mp hpq
      exact ⟨0, rfl⟩
  | cons block blocks ih =>
      rcases hframe : blockFrame p with e | _ | ⟨b, rest⟩
      · rw [blocksOf_error hframe] at h
        cases h
      · rw [blocksOf_none hframe] at h
        cases h
        exact ⟨0, rfl⟩
      · have hwhole := (blockFrame_append q).2 b rest hframe
        rw [hpq, List.flatMap_cons,
          blockFrame_blockBytes _ (hblocks block List.mem_cons_self)] at hwhole
        simp only [ok.injEq, Option.some.injEq, Prod.mk.injEq] at hwhole
        obtain ⟨rfl, hrest⟩ := hwhole
        rw [blocksOf_some hframe] at h
        obtain ⟨k, hk⟩ := ih (fun b hb => hblocks b (List.mem_cons_of_mem block hb)) hrest.symm h
        use k + 1
        rw [List.take_succ_cons, List.flatMap_cons, ← hk]
        apply @List.append_cancel_right _ _ q
        rw [hpq, List.flatMap_cons, hrest, List.append_assoc]

/-- The outcome of a CAR that was written is all of it. -/
theorem outcome_carBytes (hheader : (headerBytes roots).length ≤ maxHeaderSize)
    (hblocks : ∀ b ∈ blocks, (b.cid.toBytes ++ b.data).length ≤ maxBlockSize) :
  outcome (carBytes roots blocks) = { roots := some roots, blocks, accepted := true }
  := by
  rw [outcome, parse, carBytes, headerFrame_append_headerBytes _ hheader]
  dsimp only
  rw [blocksOf_flatMap hblocks]
  rfl

/-- A part of a CAR from its start that is accepted ends with its header or one of its blocks. -/
theorem prefix_of_accepted (hheader : (headerBytes roots).length ≤ maxHeaderSize)
    (hblocks : ∀ b ∈ blocks, (b.cid.toBytes ++ b.data).length ≤ maxBlockSize)
    (hpq : p ++ q = carBytes roots blocks) (h : (outcome p).accepted = true) :
  ∃ k, p = carBytes roots (blocks.take k)
  := by
  rw [outcome, parse] at h
  rcases hframe : headerFrame p with e | _ | ⟨roots', rest⟩
  · rw [hframe] at h
    cases h
  · rw [hframe] at h
    cases h
  · have hwhole := (headerFrame_append q).2 roots' rest hframe
    rw [hpq, carBytes, headerFrame_append_headerBytes _ hheader] at hwhole
    simp only [ok.injEq, Option.some.injEq, Prod.mk.injEq] at hwhole
    obtain ⟨rfl, hrest⟩ := hwhole
    rw [hframe] at h
    simp only [Option.isSome_some, Bool.true_and, decide_eq_true_eq] at h
    have hend : (blocksOf rest).2 = .ok [] := by
      rcases hr : (blocksOf rest).2 with e | left
      · rw [hr] at h
        cases h
      · rw [hr] at h
        rw [Option.some.inj h]
    obtain ⟨k, hk⟩ := prefix_of_blocksOf hblocks hrest.symm hend
    use k
    apply @List.append_cancel_right _ _ q
    rw [hpq, carBytes, carBytes, ← hk, hrest, List.append_assoc, List.append_assoc,
      List.append_assoc]

/-- Reading a whole CAR at once gives its outcome, if it is accepted. -/
theorem readAll_ok (h : outcome bs = { roots := some roots, blocks, accepted := true }) :
  readAll bs = .ok (roots, blocks)
  := by
  rw [← Reader.run_eq, Reader.run] at h
  rw [readAll]
  rcases hnew : Reader.new bs with e | r
  · rw [hnew] at h
    cases h
  · obtain ⟨-, -, hroots⟩ := Reader.collect_eq (r := r) (Nat.lt_succ_self _)
    rw [hnew] at h
    dsimp only at h
    rw [ok_bind]
    rcases hcollect : collect Reader.nextBlock (r.reader.length + 1) r with ⟨blocks', e, r'⟩
    rw [hcollect] at h hroots
    simp only [Outcome.mk.injEq, Option.some.injEq, Option.isNone_iff_eq_none] at h
    obtain ⟨hr', rfl, rfl⟩ := h
    rw [← hr', ← hroots]

theorem readSlice_eq (car : Bytes) :
  readSlice car = readAll car
  := by
  rw [readSlice, readAll, SliceReader.new_eq]
  rcases Reader.new car with e | r
  · rfl
  · obtain ⟨hblocks, herror, -⟩ := SliceReader.collect_eq (n := r.reader.length + 1) (r := r)
    dsimp only [Except.map]
    rw [ok_bind, ok_bind]
    dsimp only
    rw [hblocks, herror]

/-! ### Writing, then reading -/

/-- A CAR is written for all roots and blocks. If the readers accept the lengths of its header
and its blocks, each of them reads back just the roots and the blocks, and rejects every other
part of it from its start, except those that end with the header or a block. -/
theorem writeAll_read (roots : List Cid) (blocks : List Block)
    (hheader : (encodeHeader roots []).2.length ≤ maxHeaderSize)
    (hblocks : ∀ b ∈ blocks, b.cid.toBytes.length + b.data.length ≤ maxBlockSize) :
  ∃ car, writeAll roots blocks = .ok car ∧ readAll car = .ok (roots, blocks)
    ∧ readSlice car = .ok (roots, blocks)
    ∧ (∀ chunks : List Bytes, chunks.flatten = car →
      IncrementalReader.run chunks = { roots := some roots, blocks, accepted := true })
    ∧ ∀ p, p <+: car → (∀ k, writeAll roots (blocks.take k) ≠ .ok p) →
      (Reader.run p).accepted = false ∧ (SliceReader.run p).accepted = false
        ∧ ∀ chunks : List Bytes, chunks.flatten = p →
          (IncrementalReader.run chunks).accepted = false
  := by
  have hheader' : (headerBytes roots).length ≤ maxHeaderSize := by
    rw [encodeHeader_writes roots []] at hheader
    exact hheader
  have hblocks' : ∀ b ∈ blocks, (b.cid.toBytes ++ b.data).length ≤ maxBlockSize := by
    intro b hb
    rw [List.length_append]
    exact hblocks b hb
  have houtcome := outcome_carBytes hheader' hblocks'
  refine ⟨carBytes roots blocks, writeAll_eq roots blocks, readAll_ok houtcome, ?_, ?_, ?_⟩
  · rw [readSlice_eq, readAll_ok houtcome]
  · rintro chunks hchunks
    rw [IncrementalReader.run_eq, hchunks, houtcome]
  · rintro p ⟨q, hpq⟩ hk
    have hrejected : (outcome p).accepted = false := by
      by_contra haccepted
      rw [Bool.not_eq_false] at haccepted
      obtain ⟨k, rfl⟩ := prefix_of_accepted hheader' hblocks' hpq haccepted
      exact hk k (writeAll_eq roots (blocks.take k))
    refine ⟨?_, ?_, ?_⟩
    · rw [Reader.run_eq, hrejected]
    · rw [SliceReader.run_eq, Reader.run_eq, hrejected]
    · rintro chunks rfl
      rw [IncrementalReader.run_eq, hrejected]

/-- Whatever has arrived of a CAR, what is read of it is what is read first of all of it. A CAR
that is accepted can be written on: it is read as before, and then the new blocks. -/
theorem read_on (chunks : List Bytes) :
  (∀ rest, (∀ roots, (IncrementalReader.run chunks).roots = some roots →
      (Reader.run (chunks.flatten ++ rest)).roots = some roots)
    ∧ (IncrementalReader.run chunks).blocks <+: (Reader.run (chunks.flatten ++ rest)).blocks)
    ∧ ((IncrementalReader.run chunks).accepted = true → ∀ blocks : List Block,
      (∀ b ∈ blocks, b.cid.toBytes.length + b.data.length ≤ maxBlockSize) →
      Reader.run (blocks.foldl Writer.writeBlockRef ⟨chunks.flatten⟩).writer
        = { IncrementalReader.run chunks with
            blocks := (IncrementalReader.run chunks).blocks ++ blocks })
  := by
  have happend := parse_append none chunks.flatten
  simp only [IncrementalReader.run_eq, Reader.run_eq, outcome, foldl_writeBlockRef, happend]
  rcases parse none chunks.flatten with ⟨roots, before, e | left⟩
  · exact ⟨fun rest => ⟨fun _ h => h, List.prefix_rfl⟩, fun h => by simp [Except.toOption] at h⟩
  · refine ⟨fun rest => ⟨?_, List.prefix_append _ _⟩, ?_⟩
    · rintro roots rfl
      rfl
    · intro haccepted blocks hblocks
      obtain _ | roots := roots
      · cases haccepted
      · obtain rfl : left = [] := by simpa [Except.toOption] using haccepted
        have hmore := @blocksOf_flatMap blocks fun b hb => by
          rw [List.length_append]
          exact hblocks b hb
        simp [parse, hmore]

/-- A CID for a byte. -/
def cidOf (x : UInt8) : Cid := ⟨.raw, .fill x⟩

/-- A CAR with a root and two blocks, the first of them empty, is read back, and what is left when
its last byte is cut off is rejected. -/
theorem writeAll_read_two :
  ∃ car, writeAll [cidOf 0] [⟨cidOf 0, []⟩, ⟨cidOf 1, [0xa0]⟩] = .ok car
    ∧ readSlice car = .ok ([cidOf 0], [⟨cidOf 0, []⟩, ⟨cidOf 1, [0xa0]⟩])
    ∧ (Reader.run car.dropLast).accepted = false
  := by
  obtain ⟨car, hcar, -, hslice, -, hpre⟩ :=
    writeAll_read [cidOf 0] [⟨cidOf 0, []⟩, ⟨cidOf 1, [0xa0]⟩] (by decide)
      (by decide)
  refine ⟨car, hcar, hslice, (hpre car.dropLast car.dropLast_prefix ?_).1⟩
  intro k hk
  obtain rfl := ok.inj ((writeAll_eq _ _).symm.trans hcar)
  have hlength := congrArg List.length (ok.inj ((writeAll_eq _ _).symm.trans hk))
  rcases k with - | - | k
  · exact absurd hlength (by decide +kernel)
  · exact absurd hlength (by decide +kernel)
  · rw [List.take_succ_cons, List.take_succ_cons, List.take_nil] at hlength
    exact absurd hlength (by decide +kernel)

/-- The bytes of a CAR with one block, in two chunks. -/
def oneBlock : List Bytes :=
  let car := (writeAll [cidOf 0] [⟨cidOf 0, []⟩]).toOption.getD []
  [car.take 5, car.drop 5]

/-- A second block is written behind an accepted CAR. -/
theorem oneBlock_read_on :
  (IncrementalReader.run oneBlock).blocks = [⟨cidOf 0, []⟩]
    ∧ (Reader.run (Writer.writeBlockRef ⟨oneBlock.flatten⟩ ⟨cidOf 1, [0xa0]⟩).writer).blocks
      = [⟨cidOf 0, []⟩, ⟨cidOf 1, [0xa0]⟩]
  := by
  have hblocks : (IncrementalReader.run oneBlock).blocks = [⟨cidOf 0, []⟩] := by decide +kernel
  refine ⟨hblocks, ?_⟩
  have hread := (read_on oneBlock).2 (by decide +kernel) [⟨cidOf 1, [0xa0]⟩] (by decide)
  exact (congrArg Outcome.blocks hread).trans (congrArg (· ++ [_]) hblocks)

end Shrike.Car
