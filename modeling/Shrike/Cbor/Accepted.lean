import Shrike.Cbor.Canonical
import Shrike.Cbor.Writer

/-!
# What the decoder accepts

Values that come out of the decoder are within its limits, so the byte strings it accepts are the
encodings of the values within its limits.
-/

namespace Shrike.Cbor

open Bytes

variable {entries entries' : List (Bytes × Value)} {bs rest : Bytes}

variable {n budget additional : ℕ} {v : Value}

theorem decodeItems_forall {f : Bytes → Except Error (Value × Bytes)} {p : Value → Prop}
    (hf : ∀ {bs v rest}, f bs = .ok (v, rest) → p v) {vs : List Value}
    (h : decodeItems f n bs = .ok (vs, rest)) :
  ∀ v ∈ vs, p v
  := by
  induction n generalizing bs rest vs with
  | zero =>
      cases h
      intro v hv
      cases hv
  | succ n ih =>
      obtain ⟨⟨v, bs'⟩, hv, h⟩ := Except.bind_eq_ok.mp h
      obtain ⟨⟨vs', bs''⟩, hvs, h⟩ := Except.bind_eq_ok.mp h
      cases h
      exact List.forall_mem_cons.mpr ⟨hf hv, ih hvs⟩

theorem isText_of_readMapKey {prev bs key encoded rest : Bytes}
    (h : Cbor.readMapKey prev bs = .ok (key, encoded, rest)) :
  IsText key
  := by
  refine ⟨?_, (readMapKey_ok h).1⟩
  rw [Cbor.readMapKey] at h
  obtain ⟨⟨byte, bs'⟩, -, h⟩ := Except.bind_eq_ok.mp h
  dsimp only at h
  split_ifs at h
  obtain ⟨⟨key', bs''⟩, -, h⟩ := Except.bind_eq_ok.mp h
  dsimp only at h
  split_ifs at h with _ _ hutf8
  cases h
  exact hutf8

theorem decodeEntries_forall {f : Bytes → Except Error (Value × Bytes)} {p : Value → Prop}
    (hf : ∀ {bs v rest}, f bs = .ok (v, rest) → p v) {prev bs rest : Bytes}
    (h : decodeEntries f n prev bs = .ok (entries, rest)) :
  ∀ e ∈ entries, IsText e.1 ∧ p e.2
  := by
  induction n generalizing prev bs rest entries with
  | zero =>
      cases h
      intro e he
      cases he
  | succ n ih =>
      obtain ⟨⟨key, encoded, bs'⟩, hkey, h⟩ := Except.bind_eq_ok.mp h
      obtain ⟨⟨v, bs''⟩, hv, h⟩ := Except.bind_eq_ok.mp h
      obtain ⟨⟨entries', bs'''⟩, hentries, h⟩ := Except.bind_eq_ok.mp h
      cases h
      exact List.forall_mem_cons.mpr ⟨⟨isText_of_readMapKey hkey, hf hv⟩, ih hentries⟩

theorem collectionLen_le {e : Error} (h : Cbor.collectionLen additional e bs = .ok (n, rest)) :
  n ≤ maxCollectionLen
  := by
  obtain ⟨⟨len, bs'⟩, -, h⟩ := Except.bind_eq_ok.mp h
  dsimp only at h
  split_ifs at h with hlen
  cases h
  exact Nat.le_of_not_lt hlen

/-- The entries of a map that is written as it is are in the order of their keys. -/
theorem pairwise_of_writeEntries (h : writeEntries none entries = .ok bs) :
  entries.Pairwise fun a b => keyLt a.1 b.1 = true
  := by
  obtain ⟨-, -, -, -, hchain⟩ := writeEntriesSorted_of_writeEntries h
  have htrans : IsTrans (Bytes × Value) fun a b => cborKeyCmp a.1 b.1 = .lt :=
    ⟨fun a b c hab hbc => by
      rw [cborKeyCmp_eq_lt, keyLt_iff] at *
      exact hab.trans hbc⟩
  apply hchain.pairwise.imp
  intro a b hlt
  exact cborKeyCmp_eq_lt.mp hlt

/-- The keys of a map that is written as it is are distinct. -/
theorem nodup_of_writeEntries (h : writeEntries none entries = .ok bs) :
  (entries.map Prod.fst).Nodup
  := by
  apply List.pairwise_map.mpr
  apply (pairwise_of_writeEntries h).imp
  intro a b hlt heq
  rw [keyLt_iff, heq] at hlt
  exact lt_irrefl _ hlt

/-- Entries in the order of their keys are determined by which they are. -/
theorem entries_ext (h : entries.Pairwise fun a b => keyLt a.1 b.1 = true)
    (h' : entries'.Pairwise fun a b => keyLt a.1 b.1 = true)
    (hmem : ∀ e, e ∈ entries ↔ e ∈ entries') :
  entries = entries'
  := by
  have hnodup : ∀ {entries : List (Bytes × Value)},
      (entries.Pairwise fun a b => keyLt a.1 b.1 = true) → entries.Nodup := by
    intro entries h
    apply h.imp
    rintro a _ hlt rfl
    exact lt_irrefl _ (keyLt_iff.mp hlt)
  have hperm := (List.perm_ext_iff_of_nodup (hnodup h) (hnodup h')).mpr hmem
  apply hperm.eq_of_pairwise (fun a b _ _ hab hba => ?_) h h'
  exact absurd (keyLt_iff.mp hba) (keyLt_iff.mp hab).asymm

/-! ### Limits -/

theorem decodeSimple_fits (h : Cbor.decodeSimple additional bs = .ok (v, rest)) :
  v.Fits (budget + 1)
  := by
  rw [Cbor.decodeSimple] at h
  split_ifs at h
  · cases h
    trivial
  · cases h
    trivial
  · cases h
    trivial
  · obtain ⟨⟨arg, bs'⟩, hslice, h⟩ := Except.bind_eq_ok.mp h
    obtain ⟨hlen, -⟩ := readSlice_ok hslice
    dsimp only at h
    split_ifs at h
    cases h
    have hlt := ofBe_lt arg
    rw [hlen] at hlt
    exact hlt

/-- What the decoder returns is within its limits. -/
theorem decodeValue_fits (h : decodeValue budget bs = .ok (v, rest)) :
  v.Fits budget
  := by
  induction budget generalizing bs rest v with
  | zero => cases h
  | succ budget ih =>
      have hcanon : Canonical (decodeValue budget) := canonical_decodeValue budget
      rw [decodeValue] at h
      obtain ⟨⟨byte, bs'⟩, -, h⟩ := Except.bind_eq_ok.mp h
      dsimp only at h
      split at h
      · obtain ⟨⟨n, bs''⟩, -, h⟩ := Except.bind_eq_ok.mp h
        dsimp only at h
        split_ifs at h with hn
        cases h
        exact Nat.le_of_not_lt hn
      · obtain ⟨⟨n, bs''⟩, -, h⟩ := Except.bind_eq_ok.mp h
        dsimp only at h
        split_ifs at h with hn
        cases h
        constructor <;> omega
      · obtain ⟨⟨b, bs''⟩, hb, h⟩ := Except.bind_eq_ok.mp h
        cases h
        exact (readString_ok hb).1
      · obtain ⟨⟨s, bs''⟩, hs, h⟩ := Except.bind_eq_ok.mp h
        dsimp only at h
        split_ifs at h with hutf8
        cases h
        exact ⟨hutf8, (readString_ok hs).1⟩
      · obtain ⟨⟨len, bs''⟩, hlen, h⟩ := Except.bind_eq_ok.mp h
        obtain ⟨⟨items, rest'⟩, hitems, h⟩ := Except.bind_eq_ok.mp h
        cases h
        obtain ⟨rfl, -⟩ := hcanon.decodeItems hitems
        exact ⟨collectionLen_le hlen, decodeItems_forall ih hitems⟩
      · obtain ⟨⟨len, bs''⟩, hlen, h⟩ := Except.bind_eq_ok.mp h
        obtain ⟨⟨entries, rest'⟩, hentries, h⟩ := Except.bind_eq_ok.mp h
        cases h
        obtain ⟨rfl, -⟩ := (@Canonical.decodeEntries _ hcanon _ none)
          (fun p hp => by cases hp) hentries
        exact ⟨collectionLen_le hlen, decodeEntries_forall ih hentries⟩
      · obtain ⟨⟨tag, bs''⟩, -, h⟩ := Except.bind_eq_ok.mp h
        dsimp only at h
        split_ifs at h
        obtain ⟨⟨c, rest'⟩, -, h⟩ := Except.bind_eq_ok.mp h
        cases h
        trivial
      · exact decodeSimple_fits h

/-- The decoder accepts the encodings of the values within its limits, and nothing else. -/
theorem decode_eq_ok_iff :
  Cbor.decode bs = .ok v ↔ v.Fits maxDepth ∧ writeItem v = .ok bs
  := by
  constructor
  · intro h
    refine ⟨?_, writeItem_of_decode h⟩
    obtain ⟨⟨v', rest⟩, hvalue, h⟩ := Except.bind_eq_ok.mp h
    dsimp only at h
    split_ifs at h
    cases h
    exact decodeValue_fits hvalue
  · rintro ⟨hfits, hwrite⟩
    exact decode_writeItem hfits hwrite

/-! ### Documents that follow each other -/

theorem decodeValue_of_decode (h : Cbor.decode bs = .ok v) (more : Bytes) :
  decodeValue maxDepth (bs ++ more) = .ok (v, more)
  := by
  obtain ⟨hfits, hwrite⟩ := decode_eq_ok_iff.mp h
  exact decodeValue_writeItem more hfits hwrite

/-- A document that is accepted is read to its end, whatever follows it, but with anything behind it
it is not accepted. Accepted documents behind each other can be cut apart in one way. -/
theorem documents_apart :
  (∀ bs v, Cbor.decode bs = .ok v → ∀ more, decodeValue maxDepth (bs ++ more) = .ok (v, more)
      ∧ (more ≠ [] → Cbor.decode (bs ++ more) = .error .trailingData))
    ∧ ∀ docs docs' : List Bytes, (∀ d ∈ docs, ∃ v, Cbor.decode d = .ok v) →
      (∀ d ∈ docs', ∃ v, Cbor.decode d = .ok v) → docs.flatten = docs'.flatten → docs = docs'
  := by
  constructor
  · intro bs v h more
    have hread := decodeValue_of_decode h more
    refine ⟨hread, fun hmore => ?_⟩
    rw [Cbor.decode, hread, Except.ok_bind]
    exact if_pos hmore
  · have hempty : ∀ {d : Bytes}, (∃ v, Cbor.decode d = .ok v) → d ≠ [] := by
      rintro _ ⟨v, h⟩ rfl
      cases h
    intro docs
    induction docs with
    | nil =>
        rintro (_ | ⟨d, docs'⟩) _ h' hsame
        · rfl
        · exact absurd (List.append_eq_nil_iff.mp hsame.symm).1 (hempty (h' d List.mem_cons_self))
    | cons d docs ih =>
        rintro (_ | ⟨d', docs'⟩) h h' hsame
        · exact absurd (List.append_eq_nil_iff.mp hsame).1 (hempty (h d List.mem_cons_self))
        · rw [List.forall_mem_cons] at h h'
          obtain ⟨⟨v, hv⟩, hdocs⟩ := h
          obtain ⟨⟨v', hv'⟩, hdocs'⟩ := h'
          have hread := decodeValue_of_decode hv docs.flatten
          rw [List.flatten_cons, List.flatten_cons] at hsame
          rw [hsame, decodeValue_of_decode hv'] at hread
          have hrest := (Prod.mk.inj (Except.ok.inj hread)).2
          rw [hrest] at hsame
          rw [ih docs' hdocs hdocs' hrest.symm, List.append_cancel_right hsame]

/-- Two documents of one byte can be cut apart in one way. -/
theorem two_apart :
  decodeValue maxDepth ([0x01] ++ [0x02]) = .ok (.unsigned 1, [0x02])
    ∧ Cbor.decode ([0x01] ++ [0x02]) = .error .trailingData
    ∧ ∀ docs : List Bytes, (∀ d ∈ docs, ∃ v, Cbor.decode d = .ok v) →
      [[0x01], [0x02]].flatten = docs.flatten → [[0x01], [0x02]] = docs
  := by
  have hone : Cbor.decode [0x01] = .ok (.unsigned 1) := rfl
  have htwo : Cbor.decode [0x02] = .ok (.unsigned 2) := rfl
  obtain ⟨hread, htrailing⟩ := documents_apart.1 [0x01] (.unsigned 1) hone [0x02]
  refine ⟨hread, htrailing (by decide), ?_⟩
  intro docs
  apply documents_apart.2
  intro d hd
  rcases List.mem_pair.mp hd with rfl | rfl
  · exact ⟨_, hone⟩
  · exact ⟨_, htwo⟩

/-! ### What decodes is encodable -/

theorem writeItems_mem {items : List Value} (h : writeItems items = .ok bs) :
  ∀ v ∈ items, ∃ out, writeItem v = .ok out
  := by
  induction items generalizing bs with
  | nil =>
      intro v hv
      cases hv
  | cons v items ih =>
      rw [writeItems] at h
      obtain ⟨head, hhead, h⟩ := Except.bind_eq_ok.mp h
      obtain ⟨rest, hrest, h⟩ := Except.bind_eq_ok.mp h
      exact List.forall_mem_cons.mpr ⟨⟨head, hhead⟩, ih hrest⟩

theorem writeEntries_mem {prev : Option Bytes} (h : writeEntries prev entries = .ok bs) :
  ∀ e ∈ entries, ∃ out, writeItem e.2 = .ok out
  := by
  induction entries generalizing prev bs with
  | nil =>
      intro e he
      cases he
  | cons e entries ih =>
      rw [writeEntries] at h
      split_ifs at h
      · cases h
      · obtain ⟨head, hhead, h⟩ := Except.bind_eq_ok.mp h
        obtain ⟨rest, hrest, h⟩ := Except.bind_eq_ok.mp h
        exact List.forall_mem_cons.mpr ⟨⟨head, hhead⟩, ih hrest⟩

/-- A value within the limits that is written as it is can be encoded. -/
theorem encodable_of_fits (hfits : v.Fits budget) (h : writeItem v = .ok bs) :
  v.Encodable
  := by
  induction budget generalizing v bs with
  | zero => exact hfits.elim
  | succ budget ih =>
      cases v with
      | unsigned n => exact hfits
      | signed i =>
          obtain ⟨hneg, hlow⟩ := hfits
          exact ⟨hlow, by omega⟩
      | float bits =>
          rw [writeItem] at h
          split_ifs at h with hfinite
          exact ⟨hfits, hfinite⟩
      | bool b => trivial
      | null => trivial
      | text s => exact hfits
      | bytes b => exact hfits
      | cid c => trivial
      | array items =>
          obtain ⟨hlen, hitems⟩ := hfits
          rw [writeItem] at h
          obtain ⟨body, hbody, h⟩ := Except.bind_eq_ok.mp h
          refine ⟨hlen, encodableItems_iff.mpr ?_⟩
          intro w hw
          obtain ⟨out, hout⟩ := writeItems_mem hbody w hw
          exact ih (hitems w hw) hout
      | map entries =>
          obtain ⟨hlen, hentries⟩ := hfits
          rw [writeItem] at h
          obtain ⟨body, hbody, h⟩ := Except.bind_eq_ok.mp h
          refine ⟨hlen, nodup_of_writeEntries hbody, encodableEntries_iff.mpr ?_⟩
          intro e he
          obtain ⟨out, hout⟩ := writeEntries_mem hbody e he
          exact ⟨(hentries e he).1, ih (hentries e he).2 hout⟩

/-- What decodes can be encoded. -/
theorem encodable_of_decode (h : Cbor.decode bs = .ok v) :
  v.Encodable
  := by
  obtain ⟨hfits, hwrite⟩ := decode_eq_ok_iff.mp h
  exact encodable_of_fits hfits hwrite

end Shrike.Cbor
