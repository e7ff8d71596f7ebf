import Shrike.Cbor.JsonWriter

/-!
# The entries of a map in JSON

Where the entries of a map are written, what the table of them holds, and how they are rewritten in
the order of their keys.
-/

namespace Shrike.Cbor

open Bytes

/-! ### The order of keys -/

/-- The order of keys is the bytewise one. -/
theorem keyCmp_eq (a b : Bytes) :
  keyCmp a b = compareOfLessAndEq a b
  := by
  cases a with
  | nil =>
      cases b with
      | nil => rfl
      | cons y b =>
          rw [compareOfLessAndEq, if_pos (List.nil_lt_cons _ _)]
          rfl
  | cons x a =>
      cases b with
      | nil =>
          rw [compareOfLessAndEq, if_neg (List.not_lt_nil _), if_neg (List.cons_ne_nil x a)]
          rfl
      | cons y b =>
          rw [keyCmp, List.head?_cons, List.head?_cons, firstCmp]
          rcases lt_trichotomy x y with h | rfl | h
          · have hlt : x :: a < y :: b := List.cons_lt_cons_iff.mpr (.inl h)
            rw [compareOfLessAndEq, if_pos h, compareOfLessAndEq, if_pos hlt]
            rfl
          · rw [compareOfLessAndEq, if_neg (lt_irrefl x), if_pos rfl]
            rfl
          · have hlt : y :: b < x :: a := List.cons_lt_cons_iff.mpr (.inl h)
            rw [compareOfLessAndEq, if_neg (lt_asymm h), if_neg (ne_of_gt h), compareOfLessAndEq,
              if_neg (lt_asymm hlt), if_neg (ne_of_gt hlt)]
            rfl

theorem keyCmp_eq_lt {a b : Bytes} :
  keyCmp a b = .lt ↔ a < b
  := by
  rw [keyCmp_eq, compareOfLessAndEq]
  split_ifs with hlt heq
  · exact iff_of_true rfl hlt
  · exact iff_of_false nofun hlt
  · exact iff_of_false nofun hlt

theorem keyCmp_ne_gt {a b : Bytes} :
  keyCmp a b ≠ .gt ↔ a ≤ b
  := by
  rw [keyCmp_eq, compareOfLessAndEq]
  split_ifs with hlt heq
  · exact iff_of_true nofun hlt.le
  · exact iff_of_true nofun heq.le
  · exact iff_of_false (fun h => h rfl) fun hle => (lt_or_eq_of_le hle).elim hlt heq

/-! ### Texts with commas -/

/-- Texts one after the other, a comma behind each. -/
def withCommas (parts : List Bytes) : Bytes := parts.flatMap fun part => part ++ [char ',']

theorem withCommas_cons (part : Bytes) (parts : List Bytes) :
  withCommas (part :: parts) = part ++ char ',' :: withCommas parts
  := by
  rw [withCommas, List.flatMap_cons, List.append_assoc]
  rfl

theorem withCommas_eq {parts : List Bytes} (h : parts ≠ []) :
  withCommas parts = join (char ',') parts ++ [char ',']
  := by
  induction parts with
  | nil => exact absurd rfl h
  | cons part parts ih =>
      cases parts with
      | nil => simp [withCommas, join]
      | cons next parts =>
          rw [withCommas_cons, ih (List.cons_ne_nil _ _), join, join, List.intercalate_cons_cons]
          simp

/-- The last comma becomes the bracket. -/
theorem close_withCommas (out : Bytes) (parts : List Bytes) (bracket : UInt8) :
  (if 0 < parts.length then (out ++ withCommas parts).dropLast else out ++ withCommas parts)
      ++ [bracket]
    = out ++ (join (char ',') parts ++ [bracket])
  := by
  cases parts with
  | nil => simp [withCommas, join]
  | cons part parts =>
      rw [if_pos (show 0 < (part :: parts).length from Nat.succ_pos _), withCommas_eq (List.cons_ne_nil _ _), ← List.append_assoc,
        List.dropLast_concat, List.append_assoc]

/-! ### Where entries are -/

/-- The bytes of an entry. -/
def Entry.slice (out : Bytes) (e : Entry) : Bytes := (out.take e.stop).drop e.start

/-- The entries of keys with their texts, written from a position on. -/
def entriesAt : ℕ → List (Bytes × Bytes) → List Entry
  | _, [] => []
  | start, (key, text) :: texts =>
      ⟨key, start, start + (text.length + 1)⟩ :: entriesAt (start + (text.length + 1)) texts

theorem stop_le_of_mem_entriesAt {texts : List (Bytes × Bytes)} {start : ℕ} {e : Entry}
    (h : e ∈ entriesAt start texts) :
  e.stop ≤ start + (withCommas (texts.map Prod.snd)).length
  := by
  induction texts generalizing start with
  | nil => cases h
  | cons t texts ih =>
      rw [List.map_cons, withCommas_cons, List.length_append, List.length_cons]
      rcases List.mem_cons.mp h with rfl | h
      · dsimp only
        omega
      · have hle := ih h
        omega

/-- Each entry is where its text is. -/
theorem slice_entriesAt (out : Bytes) (texts : List (Bytes × Bytes)) :
  (entriesAt out.length texts).map
      (fun e => (e.key, e.slice (out ++ withCommas (texts.map Prod.snd))))
    = texts.map fun t => (t.1, t.2 ++ [char ','])
  := by
  induction texts generalizing out with
  | nil => rfl
  | cons t texts ih =>
      have hout : out ++ withCommas ((t :: texts).map Prod.snd)
          = (out ++ (t.2 ++ [char ','])) ++ withCommas (texts.map Prod.snd) := by
        rw [List.map_cons, withCommas_cons]
        simp
      have hlen : (out ++ (t.2 ++ [char ','])).length = out.length + (t.2.length + 1) := by simp
      have hrest := ih (out ++ (t.2 ++ [char ',']))
      rw [hlen] at hrest
      rw [hout, entriesAt, List.map_cons, List.map_cons, hrest, Entry.slice, ← hlen, List.take_left,
        List.drop_left]

/-- Copies of entries past the end. -/
theorem foldl_copy (out : Bytes) (entries : List Entry) (copies : Bytes)
    (h : ∀ e ∈ entries, e.stop ≤ out.length) :
  entries.foldl (fun out e => out ++ (out.take e.stop).drop e.start) (out ++ copies)
    = out ++ (copies ++ entries.flatMap (Entry.slice out))
  := by
  induction entries generalizing copies with
  | nil => simp
  | cons e entries ih =>
      rw [List.foldl_cons, List.take_append_of_le_length (h e List.mem_cons_self), List.append_assoc,
        ih _ fun e' he' => h e' (List.mem_cons_of_mem e he'), List.flatMap_cons, List.append_assoc]
      rfl

/-- Entries are rewritten in the order of their keys. -/
theorem rewriteEntries_eq (out : Bytes) (texts : List (Bytes × Bytes)) :
  rewriteEntries (entriesAt out.length texts) (out ++ withCommas (texts.map Prod.snd))
    = out ++ withCommas ((texts.insertionSort fun a b => a.1 ≤ b.1).map Prod.snd)
  := by
  cases texts with
  | nil => rfl
  | cons t texts =>
      rw [entriesAt, rewriteEntries, ← entriesAt]
      generalize t :: texts = texts
      dsimp only
      let written := out ++ withCommas (texts.map Prod.snd)
      let sorted := (entriesAt out.length texts).insertionSort fun a b => keyCmp a.key b.key ≠ .gt
      let copies := sorted.flatMap (Entry.slice written)
      have hsorted : sorted.map (fun e => (e.key, e.slice written))
          = (texts.insertionSort fun a b => a.1 ≤ b.1).map fun t => (t.1, t.2 ++ [char ',']) := by
        calc sorted.map (fun e => (e.key, e.slice written))
            = ((entriesAt out.length texts).map fun e => (e.key, e.slice written)).insertionSort
                fun a b => a.1 ≤ b.1 := by
              apply List.map_insertionSort
              exact fun _ _ _ _ => keyCmp_ne_gt
          _ = (texts.map fun t => (t.1, t.2 ++ [char ','])).insertionSort fun a b => a.1 ≤ b.1 := by
              rw [slice_entriesAt]
          _ = (texts.insertionSort fun a b => a.1 ≤ b.1).map fun t => (t.1, t.2 ++ [char ',']) := by
              symm
              apply List.map_insertionSort
              exact fun _ _ _ _ => Iff.rfl
      have hcopies : copies = withCommas ((texts.insertionSort fun a b => a.1 ≤ b.1).map Prod.snd) := by
        have hsnd := congrArg (fun l : List (Bytes × Bytes) => l.flatMap Prod.snd) hsorted
        simp only [List.flatMap_map] at hsnd
        rw [withCommas, List.flatMap_map]
        exact hsnd
      have hlength : copies.length = (withCommas (texts.map Prod.snd)).length := by
        rw [hcopies, withCommas, withCommas]
        exact (((List.perm_insertionSort _ texts).map Prod.snd).flatMap_right _).length_eq
      have hfold := foldl_copy written sorted [] fun e he => by
        rw [List.length_append]
        exact stop_le_of_mem_entriesAt ((List.mem_insertionSort _).mp he)
      rw [List.append_nil, List.nil_append] at hfold
      show (List.take out.length (sorted.foldl _ written)
        ++ List.drop written.length (sorted.foldl _ written) ++ _).take written.length = _
      rw [hfold, List.drop_left, ← hcopies]
      have htake : (written ++ copies).take out.length = out := by
        rw [List.append_assoc, List.take_left]
      rw [htake]
      have hend : written.length = (out ++ copies).length := by
        rw [List.length_append, List.length_append, hlength]
      rw [hend, List.take_left]

/-! ### The table -/

namespace MapTable

/-- The table with the entry of index `i` of a map of `len` entries. -/
def record (len i : ℕ) (entry : Entry) (encoded : Bytes) (table : MapTable) : MapTable :=
  { table.keep len i entry with
    previous := encoded
    sorted := (table.keep len i entry).sorted
      && (table.keep len i entry).lastKey.all fun last => keyCmp last entry.key = .lt
    lastKey := some entry.key }

/-- The table with the last entries of a map of `len` entries, from index `i` on, with their texts
written from a position on. -/
def after (len : ℕ) : ℕ → ℕ → List (Bytes × Bytes) → MapTable → MapTable
  | _, _, [], table => table
  | i, start, (key, text) :: texts, table =>
      let stop := start + (text.length + 1)
      after len (i + 1) stop texts (table.record len i ⟨key, start, stop⟩ (putText key))

section

variable {len i start : ℕ} {entry : Entry} {encoded : Bytes} {texts : List (Bytes × Bytes)}
  {table : MapTable}

theorem record_sorted :
  (table.record len i entry encoded).sorted = true
    ↔ table.sorted = true ∧ ∀ last ∈ table.lastKey, last < entry.key
  := by
  have hkeep : (table.keep len i entry).sorted = table.sorted
      ∧ (table.keep len i entry).lastKey = table.lastKey := by
    rw [keep]
    split_ifs <;> exact ⟨rfl, rfl⟩
  rw [record, hkeep.1, hkeep.2, Bool.and_eq_true, Option.all_eq_true]
  simp only [decide_eq_true_eq, keyCmp_eq_lt]
  rfl

/-- The table says whether the keys are in order. -/
theorem after_sorted :
  (after len i start texts table).sorted = true
    ↔ table.sorted = true ∧ (table.lastKey.toList ++ texts.map Prod.fst).IsChain (· < ·)
  := by
  induction texts generalizing i start table with
  | nil =>
      rw [after, List.map_nil, List.append_nil]
      cases table.lastKey <;> simp
  | cons t texts ih =>
      have hlast : (table.record len i ⟨t.1, start, start + (t.2.length + 1)⟩
          (putText t.1)).lastKey = some t.1 := rfl
      rw [after, ih, record_sorted, hlast, and_assoc, List.map_cons]
      cases table.lastKey <;> simp [List.isChain_cons_cons]

theorem record_inline (hlen : len ≤ inlineEntries) (hi : i < table.inline.length) :
  (table.record len i entry encoded).inline = table.inline.set i entry
  := by rw [record, keep, if_pos ⟨hi, hlen⟩]

theorem record_heap (hlen : inlineEntries < len) :
  (table.record len i entry encoded).heap = table.heap ++ [entry]
  := by rw [record, keep, if_neg fun h => Nat.not_le_of_lt hlen h.2]

/-- The entries of a short map are kept in their places. -/
theorem after_inline (hlen : len ≤ inlineEntries) (hinline : table.inline.length = inlineEntries)
    (hi : i + texts.length = len) :
  (after len i start texts table).inline.take len
    = table.inline.take i ++ entriesAt start texts
  := by
  induction texts generalizing i start table with
  | nil =>
      rw [List.length_nil, Nat.add_zero] at hi
      rw [after, entriesAt, List.append_nil, hi]
  | cons t texts ih =>
      rw [List.length_cons] at hi
      have hlt : i < table.inline.length := by omega
      have htake : ∀ e, (table.inline.set i e).take (i + 1) = table.inline.take i ++ [e] := by
        intro e
        rw [List.take_add_one, List.getElem?_set_self hlt, List.take_set_of_le le_rfl]
        rfl
      rw [after, ih _ (by omega), record_inline hlen hlt, htake, entriesAt, List.append_assoc]
      · rfl
      · rw [record_inline hlen hlt, List.length_set, hinline]

/-- The entries of a long map are kept one after the other. -/
theorem after_heap (hlen : inlineEntries < len) :
  (after len i start texts table).heap = table.heap ++ entriesAt start texts
  := by
  induction texts generalizing i start table with
  | nil => rw [after, entriesAt, List.append_nil]
  | cons t texts ih =>
      rw [after, ih, record_heap hlen, entriesAt, List.append_assoc]
      rfl

/-- The table of a whole map holds its entries. -/
theorem after_entries :
  (after texts.length 0 start texts empty).entries texts.length = entriesAt start texts
  := by
  rw [entries]
  split_ifs with hlen
  · rw [after_inline hlen List.length_replicate (Nat.zero_add _)]
    rfl
  · exact after_heap (Nat.lt_of_not_le hlen)

end

end MapTable

end Shrike.Cbor
