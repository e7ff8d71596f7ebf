import Shrike.Labeling.Signing

/-!
# Labels that are read

What a byte string that decodes to a label is encoded as again: the entries that a label does not
have and a `neg` that is false are lost, and everything else stays.
-/

namespace Shrike.Labeling

open Bytes Cbor Except Syntax

section

variable [Base32Decoding]

/-! ### Reading entries -/

/-- What reading an entry does to the members. -/
inductive Reads (m : Members) : Bytes × Value → Members → Prop
  | cid (c : Cid) : Reads m (ascii "cid", .text (cidToString c)) { m with cid := some c }
  | cts (s : Bytes) : Reads m (ascii "cts", .text s) { m with cts := some s }
  | exp (s : Bytes) : Reads m (ascii "exp", .text s) { m with exp := some s }
  | neg (b : Bool) : Reads m (ascii "neg", .bool b) { m with neg := some b }
  | sig (b : Bytes) : Reads m (ascii "sig", .bytes b) { m with sig := some b }
  | src (s : Bytes) : Reads m (ascii "src", .text s) { m with src := some s }
  | uri (s : Bytes) : Reads m (ascii "uri", .text s) { m with uri := some s }
  | val (s : Bytes) : Reads m (ascii "val", .text s) { m with val := some s }
  | ver (ver : Int64) : Reads m (ascii "ver", verValue ver) { m with ver := some ver }
  | passed {e : Bytes × Value} (h : e.1 ∉ labelKeys) : Reads m e m

variable {entries : List (Bytes × Value)} {key reason : String}

variable {b s bs : Bytes} {e : Bytes × Value} {label : Label} {n budget : ℕ}

omit [Base32Decoding] in
theorem textOf_eq_ok {v : Value} :
  textOf reason v = .ok s ↔ v = .text s
  := by
  cases v with
  | text s' => simp [textOf]
  | _ => simp [textOf]

variable {m m' : Members}

omit [Base32Decoding] in
theorem textOf_map_eq_ok {v : Value} {f : Bytes → Members} :
  (textOf reason v).map f = .ok m ↔ ∃ s, v = .text s ∧ f s = m
  := by simp only [map_eq_ok, textOf_eq_ok]

omit [Base32Decoding] in
/-- The version that an integer within the limits is read as is written as the integer. -/
theorem verValue_ofNat (h : (Value.unsigned n).Fits (budget + 1)) :
  verValue (Int64.ofNat n) = .unsigned n
  := by
  have hn : n ≤ 2 ^ 63 - 1 := h
  have htoInt : (Int64.ofNat n).toInt = n := Int64.toInt_ofNat_of_lt (by omega)
  rw [verValue, htoInt, if_pos (Int.natCast_nonneg n), Int.toNat_natCast]

omit [Base32Decoding] in
theorem verValue_ofInt {i : ℤ} (h : (Value.signed i).Fits (budget + 1)) :
  verValue (Int64.ofInt i) = .signed i
  := by
  obtain ⟨hneg, hlow⟩ : i < 0 ∧ -(2 ^ 63) ≤ i := h
  have htoInt : (Int64.ofInt i).toInt = i :=
    Int64.toInt_ofInt_of_le hlow (by omega)
  rw [verValue, htoInt, if_neg (by omega)]

/-- Reading an entry within the limits sets the member of its key. -/
theorem reads_of_read (hfits : e.2.Fits (budget + 1)) (h : m.read e = .ok m') :
  Reads m e m'
  := by
  obtain ⟨key, v⟩ := e
  simp only [Members.read] at h
  split_ifs at h with hver hsrc huri hcid hval hneg hcts hexp hsig
  · subst hver
    cases v with
    | unsigned n =>
        cases h
        rw [← verValue_ofNat hfits]
        exact .ver _
    | signed i =>
        cases h
        rw [← verValue_ofInt hfits]
        exact .ver _
    | _ => cases h
  · subst hsrc
    obtain ⟨s, rfl, rfl⟩ := textOf_map_eq_ok.mp h
    exact .src s
  · subst huri
    obtain ⟨s, rfl, rfl⟩ := textOf_map_eq_ok.mp h
    exact .uri s
  · subst hcid
    obtain ⟨s, hs, hrest⟩ := bind_eq_ok.mp h
    obtain ⟨c, hc, hset⟩ := bind_eq_ok.mp hrest
    cases textOf_eq_ok.mp hs
    cases hset
    rw [← cidToString_of_fromStr (mapError_eq_ok.mp hc)]
    exact .cid c
  · subst hval
    obtain ⟨s, rfl, rfl⟩ := textOf_map_eq_ok.mp h
    exact .val s
  · subst hneg
    cases v with
    | bool b =>
        cases h
        exact .neg b
    | _ => cases h
  · subst hcts
    obtain ⟨s, rfl, rfl⟩ := textOf_map_eq_ok.mp h
    exact .cts s
  · subst hexp
    obtain ⟨s, rfl, rfl⟩ := textOf_map_eq_ok.mp h
    exact .exp s
  · subst hsig
    cases v with
    | bytes b =>
        cases h
        exact .sig b
    | _ => cases h
  · cases h
    apply Reads.passed
    simp only [labelKeys, List.map_cons, List.map_nil, List.mem_cons, List.not_mem_nil, or_false,
      not_or]
    exact ⟨hcid, hcts, hexp, hneg, hsig, hsrc, huri, hval, hver⟩

omit [Base32Decoding] in
theorem mem_entryOf_none {α : Type} {value : α → Value} :
  e ∈ entryOf key value none ↔ False
  := List.mem_nil_iff e

omit [Base32Decoding] in
theorem mem_entryOf_some {α : Type} {value : α → Value} {a : α} :
  e ∈ entryOf key value (some a) ↔ e = (ascii key, value a)
  := List.mem_singleton

omit [Base32Decoding] in
/-- A member that no entry has the key of is not there. -/
theorem eq_none_of_fresh {α : Type} {value : α → Value} {a : Option α}
    (h : ∀ e ∈ entryOf key value a, e.1 ≠ ascii key) :
  a = none
  := by
  cases a with
  | none => rfl
  | some x => exact absurd rfl (h _ (mem_entryOf_some.mpr rfl))

/-- Reading an entry whose key is new adds the entry, if a label has the key. -/
theorem mem_entries_of_reads (h : Reads m e m')
    (hfresh : ∀ x ∈ m.entries, x.1 ≠ e.1) (x : Bytes × Value) :
  x ∈ m'.entries ↔ x ∈ m.entries ∨ x = e ∧ e.1 ∈ labelKeys
  := by
  simp only [Members.entries, List.mem_append, or_imp, forall_and] at hfresh
  obtain ⟨hcid, hcts, hexp, hneg, hsig, hsrc, huri, hval, hver⟩ := hfresh
  have hkeys : ∀ key ∈ ["cid", "cts", "exp", "neg", "sig", "src", "uri", "val", "ver"],
      ascii key ∈ labelKeys := fun _ => List.mem_map_of_mem
  cases h with
  | passed h => simp only [h, and_false, or_false]
  | cid =>
      simp only [Members.entries, List.mem_append, eq_none_of_fresh hcid, mem_entryOf_none,
        mem_entryOf_some, false_or, hkeys "cid" (by decide), and_true]
      exact iff_of_eq (by ac_rfl)
  | cts =>
      simp only [Members.entries, List.mem_append, eq_none_of_fresh hcts, mem_entryOf_none,
        mem_entryOf_some, false_or, hkeys "cts" (by decide), and_true]
      exact iff_of_eq (by ac_rfl)
  | exp =>
      simp only [Members.entries, List.mem_append, eq_none_of_fresh hexp, mem_entryOf_none,
        mem_entryOf_some, false_or, hkeys "exp" (by decide), and_true]
      exact iff_of_eq (by ac_rfl)
  | neg =>
      simp only [Members.entries, List.mem_append, eq_none_of_fresh hneg, mem_entryOf_none,
        mem_entryOf_some, false_or, hkeys "neg" (by decide), and_true]
      exact iff_of_eq (by ac_rfl)
  | sig =>
      simp only [Members.entries, List.mem_append, eq_none_of_fresh hsig, mem_entryOf_none,
        mem_entryOf_some, false_or, hkeys "sig" (by decide), and_true]
      exact iff_of_eq (by ac_rfl)
  | src =>
      simp only [Members.entries, List.mem_append, eq_none_of_fresh hsrc, mem_entryOf_none,
        mem_entryOf_some, false_or, hkeys "src" (by decide), and_true]
      exact iff_of_eq (by ac_rfl)
  | uri =>
      simp only [Members.entries, List.mem_append, eq_none_of_fresh huri, mem_entryOf_none,
        mem_entryOf_some, false_or, hkeys "uri" (by decide), and_true]
      exact iff_of_eq (by ac_rfl)
  | val =>
      simp only [Members.entries, List.mem_append, eq_none_of_fresh hval, mem_entryOf_none,
        mem_entryOf_some, false_or, hkeys "val" (by decide), and_true]
      exact iff_of_eq (by ac_rfl)
  | ver =>
      simp only [Members.entries, List.mem_append, eq_none_of_fresh hver, mem_entryOf_none,
        mem_entryOf_some, or_false, hkeys "ver" (by decide), and_true]
      exact iff_of_eq (by ac_rfl)

/-- The entries of the members that were read are the entries that a label can have. -/
theorem mem_entries_of_foldlM
    (hnodup : (entries.map Prod.fst).Nodup) (hfits : ∀ e ∈ entries, e.2.Fits (budget + 1))
    (hfresh : ∀ x ∈ m.entries, x.1 ∉ entries.map Prod.fst)
    (h : entries.foldlM Members.read m = .ok m') (x : Bytes × Value) :
  x ∈ m'.entries ↔ x ∈ m.entries ∨ x ∈ entries ∧ x.1 ∈ labelKeys
  := by
  induction entries generalizing m with
  | nil =>
      cases h
      simp
  | cons e entries ih =>
      rw [List.map_cons, List.nodup_cons] at hnodup
      obtain ⟨m₁, hread, hrest⟩ := bind_eq_ok.mp h
      have hadds := mem_entries_of_reads (reads_of_read (hfits e List.mem_cons_self) hread)
        fun x hx heq => hfresh x hx (heq ▸ List.mem_cons_self)
      have hfresh₁ : ∀ x ∈ m₁.entries, x.1 ∉ entries.map Prod.fst := by
        intro x hx
        rcases (hadds x).mp hx with hx | ⟨rfl, -⟩
        · exact fun hmem => hfresh x hx (List.mem_cons_of_mem _ hmem)
        · exact hnodup.1
      rw [ih hnodup.2 (fun e he => hfits e (List.mem_cons_of_mem _ he)) hfresh₁ hrest, hadds,
        List.mem_cons, or_and_right, or_assoc]
      have hkey : x = e ∧ e.1 ∈ labelKeys ↔ x = e ∧ x.1 ∈ labelKeys := by
        constructor
        · rintro ⟨rfl, hmem⟩
          exact ⟨rfl, hmem⟩
        · rintro ⟨rfl, hmem⟩
          exact ⟨rfl, hmem⟩
      rw [hkey]

/-! ### What is kept -/

omit [Base32Decoding] in
/-- The value is `false`. -/
def isFalse : Value → Bool
  | .bool b => !b
  | _ => false

omit [Base32Decoding] in
/-- The entry is not a `neg` that is false. -/
def notFalseNeg (e : Bytes × Value) : Bool := !(e.1 == ascii "neg" && isFalse e.2)

omit [Base32Decoding] in
/-- The entry is one that is written of a label. -/
def kept (e : Bytes × Value) : Bool := notFalseNeg e && labelKeys.contains e.1

omit [Base32Decoding] in
theorem filter_entryOf {α : Type} {value : α → Value} {a : Option α}
    {p : Bytes × Value → Bool} (h : ∀ v, p (ascii key, v) = true) :
  (entryOf key value a).filter p = entryOf key value a
  := by
  apply List.filter_eq_self.mpr
  intro e he
  cases a with
  | none => exact (mem_entryOf_none.mp he).elim
  | some a =>
      rw [mem_entryOf_some.mp he]
      exact h _

omit [Base32Decoding] in
theorem notFalseNeg_of_ne {key : Bytes} (h : key ≠ ascii "neg") (v : Value) :
  notFalseNeg (key, v) = true
  := by
  rw [notFalseNeg, beq_eq_false_iff_ne.mpr h]
  rfl

omit [Base32Decoding] in
theorem filter_neg (a : Option Bool) :
  (entryOf "neg" .bool a).filter notFalseNeg = entryOf "neg" .bool (a.filter id)
  := by
  cases a with
  | none => rfl
  | some b => cases b <;> rfl

/-- The entries of members without a `neg` that is false. -/
theorem entries_filter_notFalseNeg (m : Members) :
  m.entries.filter notFalseNeg = { m with neg := m.neg.filter id }.entries
  := by
  have hne : ∀ key ∈ ["cid", "cts", "exp", "sig", "src", "uri", "val", "ver"],
      ∀ v, notFalseNeg (ascii key, v) = true := by
    intro key hkey
    apply notFalseNeg_of_ne
    revert key
    decide
  simp only [Members.entries, List.filter_append, filter_neg]
  rw [filter_entryOf (hne "cid" (by decide)), filter_entryOf (hne "cts" (by decide)),
    filter_entryOf (hne "exp" (by decide)), filter_entryOf (hne "sig" (by decide)),
    filter_entryOf (hne "src" (by decide)), filter_entryOf (hne "uri" (by decide)),
    filter_entryOf (hne "val" (by decide)), filter_entryOf (hne "ver" (by decide))]

/-- The entries of members without their signature. -/
theorem entries_filter_sig (m : Members) :
  (m.entries.filter fun e => e.1 != ascii "sig") = { m with sig := none }.entries
  := by
  have hne : ∀ key ∈ ["cid", "cts", "exp", "neg", "src", "uri", "val", "ver"],
      (ascii key != ascii "sig") = true := by decide
  have hsig : (entryOf "sig" .bytes m.sig).filter (fun e => e.1 != ascii "sig") = [] := by
    cases m.sig with
    | none => rfl
    | some b => rfl
  simp only [Members.entries, List.filter_append, hsig]
  rw [filter_entryOf fun _ => hne "cid" (by decide), filter_entryOf fun _ => hne "cts" (by decide),
    filter_entryOf fun _ => hne "exp" (by decide), filter_entryOf fun _ => hne "neg" (by decide),
    filter_entryOf fun _ => hne "src" (by decide), filter_entryOf fun _ => hne "uri" (by decide),
    filter_entryOf fun _ => hne "val" (by decide), filter_entryOf fun _ => hne "ver" (by decide)]
  rfl

omit [Base32Decoding] in
theorem required_eq_ok {α : Type} {a : Option α} {x : α} :
  required reason a = .ok x ↔ a = some x
  := by
  cases a with
  | none => simp [required]
  | some y => simp [required]

omit [Base32Decoding] in
/-- The label that members make up has the members, but for a `neg` that is false. -/
theorem members_of_label (h : m.label = .ok label) :
  label.members true = { m with neg := m.neg.filter id }
  := by
  obtain ⟨ver, src, uri, cid, val, neg, cts, exp, sig⟩ := m
  simp only [Members.label] at h
  obtain ⟨src', hsrc, h⟩ := bind_eq_ok.mp h
  obtain ⟨did, hdid, h⟩ := bind_eq_ok.mp h
  obtain ⟨uri', huri, h⟩ := bind_eq_ok.mp h
  obtain ⟨val', hval, h⟩ := bind_eq_ok.mp h
  obtain ⟨cts', hcts, h⟩ := bind_eq_ok.mp h
  obtain ⟨time, htime, h⟩ := bind_eq_ok.mp h
  obtain ⟨exp', hexp, h⟩ := bind_eq_ok.mp h
  cases h
  have hneg : (if neg.getD false then some true else none : Option Bool) = neg.filter id := by
    cases neg with
    | none => rfl
    | some b => cases b <;> rfl
  have hraw : exp'.map Datetime.raw = exp := by
    cases exp with
    | none =>
        cases hexp
        rfl
    | some s =>
        obtain ⟨t, ht, hset⟩ := bind_eq_ok.mp hexp
        cases hset
        rw [Option.map_some, Datetime.tryFrom_eq_ok.mp (mapError_eq_ok.mp ht)]
  rw [required_eq_ok.mp hsrc, required_eq_ok.mp huri, required_eq_ok.mp hval,
    required_eq_ok.mp hcts]
  simp only [Label.members, hneg, hraw, Did.tryFrom_eq_ok.mp (mapError_eq_ok.mp hdid),
    Datetime.tryFrom_eq_ok.mp (mapError_eq_ok.mp htime), if_true]

/-! ### Writing what was read -/

/-- A label is read from a map whose entries make up its members. -/
theorem decodeLabel_eq_ok :
  decodeLabel bs = .ok label
    ↔ ∃ entries m, decode bs = .ok (.map entries)
      ∧ entries.foldlM Members.read Members.none = .ok m ∧ m.label = .ok label
  := by
  rw [decodeLabel, bind_eq_ok]
  constructor
  · rintro ⟨v, hv, h⟩
    cases v with
    | map entries =>
        obtain ⟨m, hm, hlabel⟩ := bind_eq_ok.mp h
        exact ⟨entries, m, mapError_eq_ok.mp hv, hm, hlabel⟩
    | _ => cases h
  · rintro ⟨entries, m, hdecode, hm, hlabel⟩
    refine ⟨.map entries, mapError_eq_ok.mpr hdecode, ?_⟩
    show (entries.foldlM Members.read Members.none >>= fun m => m.label) = _
    rw [hm, ok_bind, hlabel]

/-- The entries that are written of a label that was read are the entries that are kept. -/
theorem entries_of_read (hdecode : decode bs = .ok (.map entries))
    (hread : entries.foldlM Members.read Members.none = .ok m) (hlabel : m.label = .ok label) :
  (label.members true).entries = entries.filter kept
  := by
  obtain ⟨hfits, hwrite⟩ := decode_eq_ok_iff.mp hdecode
  obtain ⟨body, hbody, -⟩ := bind_eq_ok.mp hwrite
  have hm : m.entries = entries.filter fun e => labelKeys.contains e.1 := by
    apply entries_ext (entries_pairwise m) ((pairwise_of_writeEntries hbody).filter _)
    intro e
    have hbudget : ∀ e ∈ entries, e.2.Fits (62 + 1) := fun e he => (hfits.2 e he).2
    rw [mem_entries_of_foldlM (nodup_of_writeEntries hbody) hbudget (fun x hx => by cases hx) hread,
      List.mem_filter, List.contains_iff_mem]
    constructor
    · rintro (hnone | hmem)
      · cases hnone
      · exact hmem
    · exact Or.inr
  rw [members_of_label hlabel, ← entries_filter_notFalseNeg, hm, List.filter_filter]
  rfl

/-- The bytes of what is kept of a map that was read decode to it. -/
theorem decode_members_bytes
    (hdecode : decode bs = .ok (.map entries)) (hentries : m.entries = entries.filter kept) :
  decode m.bytes = .ok (.map m.entries)
  := by
  obtain ⟨hfits, -⟩ := decode_eq_ok_iff.mp hdecode
  apply decode_bytes
  intro e he
  rw [hentries] at he
  exact (hfits.2 e (List.mem_of_mem_filter he)).2

/-- The bytes of what is kept of a map that was read are those it was read from if all is kept, and
only then. -/
theorem members_bytes_eq
    (hdecode : decode bs = .ok (.map entries)) (hentries : m.entries = entries.filter kept) :
  m.bytes = bs ↔ ∀ e ∈ entries, kept e = true
  := by
  rw [← List.filter_eq_self, ← hentries]
  constructor
  · rintro rfl
    have hbytes := decode_members_bytes hdecode hentries
    rw [hdecode] at hbytes
    cases hbytes
    rfl
  · rintro rfl
    have hwrite := writeItem_entries m
    rw [(decode_eq_ok_iff.mp hdecode).2] at hwrite
    exact (Except.ok.inj hwrite).symm

/-- The signature among the entries of members is their signature. -/
theorem sig_of_mem (h : (ascii "sig", .bytes b) ∈ m.entries) :
  m.sig = some b
  := by
  have hkey : ∀ {α : Type} {key : String} {value : α → Value} {a : Option α},
      ascii key ≠ ascii "sig" → (ascii "sig", Value.bytes b) ∉ entryOf key value a := by
    intro α key value a hne hmem
    cases a with
    | none => exact mem_entryOf_none.mp hmem
    | some a => exact hne (congrArg Prod.fst (mem_entryOf_some.mp hmem)).symm
  simp only [Members.entries, List.mem_append] at h
  rcases h with h | h | h | h | h | h | h | h | h
  case inr.inr.inr.inr.inl =>
    cases hsig : m.sig with
    | none =>
        rw [hsig] at h
        exact (mem_entryOf_none.mp h).elim
    | some b' =>
        rw [hsig] at h
        cases mem_entryOf_some.mp h
        rfl
  all_goals exact absurd h (hkey (by decide))

/-- A label is encoded as what was read of it without the entries that a label does not have and a
`neg` that is false. So it is encoded as the bytes that it was read from if there are no such
entries, and only then. Its signed bytes are then those bytes without the signature, its signature
verifies if it is one of them, and no other such bytes are read as the label. -/
theorem label_reencoded {bs : Bytes} {label : Label} (h : decodeLabel bs = .ok label) :
  ∃ entries, decode bs = .ok (.map entries)
    ∧ (∃ out, encodeLabel label = .ok out ∧ encodeValue (.map (entries.filter kept)) = .ok out)
    ∧ (encodeLabel label = .ok bs ↔ ∀ e ∈ entries, kept e = true)
    ∧ ((∀ e ∈ entries, kept e = true) →
      (∃ content, encodeValue (.map (entries.filter fun e => e.1 != ascii "sig")) = .ok content
        ∧ unsignedLabelBytes label = .ok content
        ∧ ∀ (key : VerifyingKey) (sig : Signature), (ascii "sig", .bytes sig.val) ∈ entries →
          key.verify content sig = true → verifyLabel label key = .ok ())
      ∧ ∀ bs' entries', decodeLabel bs' = .ok label → decode bs' = .ok (.map entries') →
        (∀ e ∈ entries', kept e = true) → bs' = bs)
  := by
  obtain ⟨entries, m, hdecode, hread, hlabel⟩ := decodeLabel_eq_ok.mp h
  have hentries := entries_of_read hdecode hread hlabel
  have hbytes := decode_members_bytes hdecode hentries
  refine ⟨entries, hdecode, ⟨_, encodeLabel_eq label, ?_⟩, ?_, ?_⟩
  · rw [← hentries]
    exact (encodeValue_of_decode hbytes).1
  · rw [encodeLabel_eq, Except.ok.injEq, members_bytes_eq hdecode hentries]
  · intro hall
    rw [List.filter_eq_self.mpr hall] at hentries
    constructor
    · refine ⟨_, ?_, unsignedLabelBytes_eq label, ?_⟩
      · rw [← hentries, entries_filter_sig]
        exact encodeValue_entries (label.members false)
      · intro key sig hsig hverify
        rw [← hentries] at hsig
        exact verifyLabel_eq_ok.mpr ⟨sig, sig_of_mem hsig, hverify⟩
    · intro bs' entries' h' hdecode' hall'
      obtain ⟨entries₁, m', hdecode₁, hread', hlabel'⟩ := decodeLabel_eq_ok.mp h'
      cases hdecode'.symm.trans hdecode₁
      rw [← (members_bytes_eq hdecode' (entries_of_read hdecode' hread' hlabel')).mpr hall',
        ← (members_bytes_eq hdecode (entries_of_read hdecode hread hlabel)).mpr hall]

/-- The entries of members with another `neg`. -/
theorem mem_entries_setNeg {neg : Option Bool} (h : e ∈ { m with neg := neg }.entries) :
  e ∈ m.entries ∨ e ∈ entryOf "neg" .bool neg
  := by
  simp only [Members.entries, List.mem_append] at h ⊢
  rcases h with h | h | h | h | h | h | h | h | h
  all_goals simp only [h, true_or, or_true]

end

namespace FalseNeg

attribute [local instance] Base32Decoding.standard

open Syntax.Sample (alice)
open Spam (newYear signature)

/-- A label of Alice that takes nothing back. -/
def label : Label :=
  ⟨some 1, alice, ascii "at://did:plc:bob", none, ascii "spam", false, newYear, none,
    some signature.val⟩

theorem label_inMemory :
  label.InMemory
  := by
  refine ⟨⟨?_, ?_⟩, ⟨?_, ?_⟩, ⟨?_, ?_⟩, ⟨?_, ?_⟩, nofun, ?_⟩
  all_goals decide

/-- The members of the label with a `neg` that is false. -/
def spelledOut : Members := { label.members true with neg := some false }

theorem fits_spelledOut :
  ∀ e ∈ spelledOut.entries, e.2.Fits 63
  := by
  intro e he
  rcases mem_entries_setNeg he with he | he
  · exact fits_of_inMemory label_inMemory true e he
  · rw [mem_entryOf_some.mp he]
    trivial

/-- A label is read from bytes with a `neg` that is false and encoded as other bytes, which are read
as the same label. -/
theorem falseNeg_lost :
  decodeLabel spelledOut.bytes = .ok label
    ∧ encodeLabel label = .ok (label.members true).bytes
    ∧ decodeLabel (label.members true).bytes = .ok label
    ∧ (label.members true).bytes ≠ spelledOut.bytes
  := by
  refine ⟨?_, encodeLabel_eq label, decodeLabel_bytes label_inMemory true, ?_⟩
  · have hsame : spelledOut.label = (label.members true).label := rfl
    apply decodeLabel_eq_ok.mpr
    refine ⟨_, spelledOut, decode_bytes fits_spelledOut, foldlM_read_entries spelledOut, ?_⟩
    exact hsame.trans (label_members label true)
  · intro h
    have hread := decode_bytes fits_spelledOut
    rw [← h, decode_bytes (fits_of_inMemory label_inMemory true)] at hread
    have hlength := congrArg List.length (Value.map.inj (Except.ok.inj hread))
    exact absurd hlength (by decide)

/-- A label that was encoded here is encoded as it was read. -/
theorem label_kept :
  ∃ entries, decode (label.members true).bytes = .ok (.map entries)
    ∧ (encodeLabel label = .ok (label.members true).bytes ↔ ∀ e ∈ entries, kept e = true)
  := by
  obtain ⟨entries, hdecode, -, hkept, -⟩ :=
    label_reencoded (decodeLabel_bytes label_inMemory true)
  exact ⟨entries, hdecode, hkept⟩

end FalseNeg

end Shrike.Labeling
