import Shrike.Car.Reader
import Shrike.Data.Result

/-!
# The contents of a CAR

What the bytes of a CAR contain, read from the front as far as they go, and that it does not
matter at which point more bytes arrive.
-/

namespace Shrike.Car

open Cbor Except

/-! ### Frames -/

/-- The first frame of a byte string and the bytes after it, if all of it is there. -/
def frame (checkLen : ℕ → Except CarError ℕ) (bs : Bytes) : Except CarError (Option (Bytes × Bytes)) :=
  match varintFromSlice bs with
  | .error e => .error e
  | .ok none => .ok none
  | .ok (some (len, skip)) =>
      match checkLen len with
      | .error e => .error e
      | .ok len =>
          if bs.length - skip < len then .ok none
          else .ok (some ((bs.drop skip).take len, (bs.drop skip).drop len))

/-- The roots of the header that a byte string starts with, and the bytes after it. -/
def headerFrame (bs : Bytes) : Except CarError (Option (List Cid × Bytes)) :=
  match frame checkHeaderLen bs with
  | .error e => .error e
  | .ok none => .ok none
  | .ok (some (header, rest)) =>
      match decodeHeader header with
      | .error e => .error e
      | .ok roots => .ok (some (roots, rest))

/-- The block that a byte string starts with, and the bytes after it. -/
def blockFrame (bs : Bytes) : Except CarError (Option (Block × Bytes)) :=
  match frame checkBlockLen bs with
  | .error e => .error e
  | .ok none => .ok none
  | .ok (some (body, rest)) =>
      match parseCid (body.take cidLen) with
      | .error e => .error e
      | .ok cid => .ok (some ({ cid, data := body.drop cidLen }, rest))

/-- A varint that is read is read from some first bytes. -/
theorem varintFrom_bounds :
  ∀ {bs : Bytes} {value i n j : ℕ}, varintFrom value i bs = .ok (some (n, j)) →
    i < j ∧ j ≤ i + bs.length
  | [], _, _, _, _, h => by cases h
  | b :: bs, value, i, n, j, h => by
      rw [varintFrom, bind_eq_ok] at h
      obtain ⟨⟨value', complete⟩, -, h⟩ := h
      dsimp only at h
      split at h
      · cases h
        rw [List.length_cons]
        omega
      · have := varintFrom_bounds h
        rw [List.length_cons]
        omega

/-- More bytes do not change how a varint is read once it is. -/
theorem varintFrom_append (y : Bytes) :
  ∀ {x : Bytes} {value i : ℕ} {r : Except CarError (Option (ℕ × ℕ))},
    varintFrom value i x = r → r ≠ .ok none → varintFrom value i (x ++ y) = r
  | [], _, _, _, h, hne => absurd h.symm hne
  | b :: x, value, i, r, h, hne => by
      rw [varintFrom] at h
      rw [List.cons_append, varintFrom]
      rcases hstep : varintStep value i b with e | ⟨value', complete⟩
      · rw [hstep] at h
        exact h
      · rw [hstep, ok_bind] at h
        rw [ok_bind]
        dsimp only at h ⊢
        split at h
        · rename_i hcomplete
          rw [if_pos hcomplete]
          exact h
        · rename_i hcomplete
          rw [if_neg hcomplete]
          apply varintFrom_append y h hne

variable {bs body rest : Bytes}

theorem frame_shrinks {checkLen : ℕ → Except CarError ℕ}
    (h : frame checkLen bs = .ok (some (body, rest))) :
  rest.length < bs.length
  := by
  rw [frame] at h
  split at h
  · cases h
  · cases h
  · rename_i len skip hvarint
    have hbounds := varintFrom_bounds hvarint
    split at h
    · cases h
    · split at h
      · cases h
      · cases h
        rw [List.length_drop, List.length_drop]
        omega

/-- More bytes do not change a frame once it is there. -/
theorem frame_append {checkLen : ℕ → Except CarError ℕ} {x : Bytes} (y : Bytes) :
  (∀ e, frame checkLen x = .error e → frame checkLen (x ++ y) = .error e)
    ∧ ∀ body rest, frame checkLen x = .ok (some (body, rest)) →
      frame checkLen (x ++ y) = .ok (some (body, rest ++ y))
  := by
  rw [frame, frame]
  rcases hvarint : varintFromSlice x with e | _ | ⟨len, skip⟩
  · rw [varintFromSlice, varintFrom_append y hvarint (by simp)]
    simp
  · simp
  · have hbounds := varintFrom_bounds hvarint
    rw [varintFromSlice, varintFrom_append y hvarint (by simp)]
    dsimp only
    rcases checkLen len with e | len
    · simp
    · dsimp only
      by_cases hlen : x.length - skip < len
      · rw [if_pos hlen]
        simp
      · rw [if_neg hlen, if_neg (by rw [List.length_append]; omega)]
        have hskip : skip ≤ x.length := by omega
        have hle : len ≤ (x.drop skip).length := by
          rw [List.length_drop]
          omega
        rw [List.drop_append_of_le_length hskip, List.take_append_of_le_length hle,
          List.drop_append_of_le_length hle]
        simp

theorem headerFrame_append {x : Bytes} (y : Bytes) :
  (∀ e, headerFrame x = .error e → headerFrame (x ++ y) = .error e)
    ∧ ∀ roots rest, headerFrame x = .ok (some (roots, rest)) →
      headerFrame (x ++ y) = .ok (some (roots, rest ++ y))
  := by
  obtain ⟨herror, hsome⟩ := @frame_append checkHeaderLen x y
  rw [headerFrame, headerFrame]
  rcases hframe : frame checkHeaderLen x with e | _ | ⟨body, rest⟩
  · rw [herror e hframe]
    simp
  · simp
  · rw [hsome body rest hframe]
    dsimp only
    rcases decodeHeader body with e | roots
    · simp
    · simp

theorem blockFrame_append {x : Bytes} (y : Bytes) :
  (∀ e, blockFrame x = .error e → blockFrame (x ++ y) = .error e)
    ∧ ∀ block rest, blockFrame x = .ok (some (block, rest)) →
      blockFrame (x ++ y) = .ok (some (block, rest ++ y))
  := by
  obtain ⟨herror, hsome⟩ := @frame_append checkBlockLen x y
  rw [blockFrame, blockFrame]
  rcases hframe : frame checkBlockLen x with e | _ | ⟨body, rest⟩
  · rw [herror e hframe]
    simp
  · simp
  · rw [hsome body rest hframe]
    dsimp only
    rcases parseCid (body.take cidLen) with e | cid
    · simp
    · simp

theorem blockFrame_shrinks {block : Block} (h : blockFrame bs = .ok (some (block, rest))) :
  rest.length < bs.length
  := by
  rw [blockFrame] at h
  split at h
  · cases h
  · cases h
  · rename_i body rest' hframe
    split at h
    · cases h
    · cases h
      apply frame_shrinks hframe

/-! ### What a CAR contains -/

/-- The blocks that a byte string starts with, and the bytes left when no block follows, or
the error that ends them. -/
def blocksOf (bs : Bytes) : List Block × Except CarError Bytes :=
  match _h : blockFrame bs with
  | .error e => ([], .error e)
  | .ok none => ([], .ok bs)
  | .ok (some (block, rest)) => (block :: (blocksOf rest).1, (blocksOf rest).2)
termination_by bs.length
decreasing_by all_goals exact blockFrame_shrinks _h

theorem blocksOf_error {e : CarError} (h : blockFrame bs = .error e) :
  blocksOf bs = ([], .error e)
  := by
  rw [blocksOf]
  split
  · rename_i heq
    rw [h] at heq
    cases heq
    rfl
  · rename_i heq
    rw [h] at heq
    cases heq
  · rename_i heq
    rw [h] at heq
    cases heq

theorem blocksOf_none (h : blockFrame bs = .ok none) :
  blocksOf bs = ([], .ok bs)
  := by
  rw [blocksOf]
  split
  · rename_i heq
    rw [h] at heq
    cases heq
  · rfl
  · rename_i heq
    rw [h] at heq
    cases heq

theorem blocksOf_some {block : Block} (h : blockFrame bs = .ok (some (block, rest))) :
  blocksOf bs = (block :: (blocksOf rest).1, (blocksOf rest).2)
  := by
  rw [blocksOf]
  split
  · rename_i heq
    rw [h] at heq
    cases heq
  · rename_i heq
    rw [h] at heq
    cases heq
  · rename_i heq
    rw [h] at heq
    cases heq
    rfl

/-- Read a CAR on from the roots, if they are read already, as far as the bytes go. -/
def parse (roots : Option (List Cid)) (bs : Bytes) :
    Option (List Cid) × List Block × Except CarError Bytes :=
  match roots with
  | some roots => (some roots, blocksOf bs)
  | none =>
      match headerFrame bs with
      | .error e => (none, [], .error e)
      | .ok none => (none, [], .ok bs)
      | .ok (some (roots, rest)) => (some roots, blocksOf rest)

/-- The outcome of reading a whole CAR: it is accepted if nothing is left. -/
def outcome (bs : Bytes) : Outcome :=
  match parse none bs with
  | (roots, blocks, r) =>
      { roots, blocks, accepted := roots.isSome && decide (r.toOption = some []) }

theorem blocksOf_append (y : Bytes) (x : Bytes) :
  blocksOf (x ++ y) = match (blocksOf x).2 with
    | .error e => ((blocksOf x).1, .error e)
    | .ok rest => ((blocksOf x).1 ++ (blocksOf (rest ++ y)).1, (blocksOf (rest ++ y)).2)
  := by
  induction x using blocksOf.induct with
  | case1 x e h => rw [blocksOf_error h, blocksOf_error ((blockFrame_append y).1 e h)]
  | case2 x h =>
      rw [blocksOf_none h]
      rfl
  | case3 x block rest h ih =>
      rw [blocksOf_some h, blocksOf_some ((blockFrame_append y).2 block rest h), ih]
      rcases (blocksOf rest).2 with e | left
      · rfl
      · rfl

theorem blocksOf_left (h : (blocksOf bs).2 = .ok rest) :
  blocksOf rest = ([], .ok rest)
  := by
  induction bs using blocksOf.induct with
  | case1 x e hframe =>
      rw [blocksOf_error hframe] at h
      cases h
  | case2 x hframe =>
      rw [blocksOf_none hframe] at h
      cases h
      apply blocksOf_none hframe
  | case3 x block left hframe ih =>
      rw [blocksOf_some hframe] at h
      apply ih h

/-- Reading on after more bytes have arrived gives what reading them all at once gives. -/
theorem parse_append (roots : Option (List Cid)) (x y : Bytes) :
  parse roots (x ++ y) = match parse roots x with
    | (roots', blocks, .error e) => (roots', blocks, .error e)
    | (roots', blocks, .ok rest) =>
        ((parse roots' (rest ++ y)).1, blocks ++ (parse roots' (rest ++ y)).2.1,
          (parse roots' (rest ++ y)).2.2)
  := by
  have hblocks : ∀ (roots : List Cid) (x : Bytes), (some roots, blocksOf (x ++ y))
      = match (some roots, blocksOf x) with
        | (roots', blocks, .error e) => (roots', blocks, .error e)
        | (roots', blocks, .ok rest) =>
            ((parse roots' (rest ++ y)).1, blocks ++ (parse roots' (rest ++ y)).2.1,
              (parse roots' (rest ++ y)).2.2) := by
    intro roots x
    have happend := blocksOf_append y x
    rcases hx : blocksOf x with ⟨blocks, e | rest⟩
    · rw [hx] at happend
      rw [happend]
    · rw [hx] at happend
      rw [happend]
      rfl
  cases roots with
  | some roots => apply hblocks
  | none =>
      rw [parse, parse]
      rcases hheader : headerFrame x with e | _ | ⟨roots, rest⟩
      · rw [(headerFrame_append y).1 e hheader]
      · rfl
      · rw [(headerFrame_append y).2 roots rest hheader]
        apply hblocks

/-- Nothing more is read until more bytes arrive. -/
theorem parse_left {roots roots' : Option (List Cid)} {blocks : List Block}
    (h : parse roots bs = (roots', blocks, .ok rest)) :
  parse roots' rest = (roots', [], .ok rest)
  := by
  have hblocks : ∀ {roots : List Cid} {bs : Bytes}, (some roots, blocksOf bs)
      = (roots', blocks, .ok rest) → parse roots' rest = (roots', [], .ok rest) := by
    intro roots bs hparse
    rw [Prod.mk.injEq] at hparse
    obtain ⟨rfl, hblocks⟩ := hparse
    have hresult : (blocksOf bs).2 = .ok rest := by rw [hblocks]
    rw [parse, blocksOf_left hresult]
  cases roots with
  | some roots => apply hblocks h
  | none =>
      rw [parse] at h
      split at h
      · cases h
      · rename_i hheader
        cases h
        rw [parse, hheader]
      · apply hblocks h

end Shrike.Car
