import Shrike.Labeling.RoundTrip

/-!
# Signed labels

A label is written canonically and read back, and its signature covers every other field.
-/

namespace Shrike.Labeling

open Bytes Cbor Except Syntax

/-- The bytes are the canonical encoding of a map: the header counts the entries that follow, the
keys are in order, the decoder accepts the bytes, and the encoder makes them of what it returns. -/
structure Canonical (bs : Bytes) (entries : List (Bytes × Value)) : Prop where
  bytes : bs = putHead 5 entries.length ++ entryBytes entries
  ordered : entries.Pairwise fun a b => keyLt a.1 b.1 = true
  decodes : decode bs = .ok (.map entries)
  encodes : encodeValue (.map entries) = .ok bs

/-- The label without its signature. -/
def Label.unsigned (label : Label) : Label := { label with sig := none }

section

variable [Base32Decoding]

theorem encodeLabel_eq (label : Label) :
  encodeLabel label = .ok (label.members true).bytes
  := encoded_encodeLabelFields label true

theorem unsignedLabelBytes_eq (label : Label) :
  unsignedLabelBytes label = .ok (label.members false).bytes
  := encoded_encodeLabelFields label false

/-- The encoder makes the bytes of members of their entries. -/
theorem encodeValue_entries (m : Members) :
  encodeValue (.map m.entries) = .ok m.bytes
  := by rw [encodeValue, writeItem_entries]

variable {label label' signed : Label}

/-- What is written of a label is canonical. -/
theorem canonical_bytes (h : label.InMemory) (includeSig : Bool) :
  Canonical (label.members includeSig).bytes (label.members includeSig).entries
  where
    bytes := rfl
    ordered := entries_pairwise _
    decodes := decode_bytes (fits_of_inMemory h includeSig)
    encodes := encodeValue_entries _

/-- The signed bytes tell apart any two labels that differ in more than their signatures. -/
theorem unsignedLabelBytes_inj (h : label.InMemory) (h' : label'.InMemory) :
  unsignedLabelBytes label' = unsignedLabelBytes label ↔ label'.unsigned = label.unsigned
  := by
  rw [unsignedLabelBytes_eq, unsignedLabelBytes_eq]
  constructor
  · intro hbytes
    have hread := decodeLabel_bytes h' false
    rw [Except.ok.inj hbytes, decodeLabel_bytes h false] at hread
    exact (Except.ok.inj hread).symm
  · intro hunsigned
    have hmembers : ∀ label : Label, label.members false = label.unsigned.members false :=
      fun _ => rfl
    rw [hmembers label', hunsigned, ← hmembers]

/-- A label that was signed: the key signed its bytes, and the signature is the new field. -/
theorem signLabel_eq_ok {key : SigningKey} :
  signLabel label key = .ok signed
    ↔ ∃ sig, key.sign (label.members false).bytes = some sig
      ∧ signed = { label with sig := some sig.val }
  := by
  rw [signLabel, unsignedLabelBytes_eq, ok_bind]
  cases key.sign (label.members false).bytes with
  | none => simp
  | some sig =>
      simp only [Except.ok.injEq, Option.some.injEq, exists_eq_left']
      exact eq_comm

/-- A label verifies if its signature is 64 bytes long and the key accepts it for the bytes. -/
theorem verifyLabel_eq_ok {key : VerifyingKey} :
  verifyLabel label key = .ok ()
    ↔ ∃ sig : Signature, label.sig = some sig.val
      ∧ key.verify (label.members false).bytes sig = true
  := by
  rw [verifyLabel, unsignedLabelBytes_eq]
  cases label.sig with
  | none => simp
  | some sig =>
      dsimp only
      split_ifs with hlength
      · rw [ok_bind]
        constructor
        · intro h
          split_ifs at h with hverify
          exact ⟨⟨sig, hlength⟩, rfl, hverify⟩
        · rintro ⟨sig', hsig, hverify⟩
          cases hsig
          rw [if_pos hverify]
      · constructor
        · intro h
          cases h
        · rintro ⟨sig', hsig, -⟩
          cases hsig
          exact absurd sig'.property hlength

omit [Base32Decoding] in
/-- A label with a signature of 64 bytes is in memory if it is without. -/
theorem inMemory_signed (h : label.InMemory) (sig : Signature) :
  ({ label with sig := some sig.val } : Label).InMemory
  := by
  refine ⟨h.src, h.uri, h.val, h.cts, h.exp, ?_⟩
  intro s hs
  cases hs
  rw [sig.property]
  decide

/-- Every label is written canonically and read back from what is written of it, its signed bytes
determine all of it but the signature, a label that was signed verifies after it was written and
read back, and no label that differs from it in another field verifies with its signature. -/
theorem label_signature_covers (key : SigningKey) (verifying : VerifyingKey)
    (correct : ∀ b sig, key.sign b = some sig → verifying.verify b sig = true)
    (unforgeable : ∀ b sig, key.sign b = some sig →
      ∀ b', verifying.verify b' sig = true → b' = b)
    {label : Label} (h : label.InMemory) :
  (∃ bs entries, encodeLabel label = .ok bs ∧ Canonical bs entries
      ∧ entries.length = label.fieldCount true ∧ decodeLabel bs = .ok label)
    ∧ (∃ bs entries, unsignedLabelBytes label = .ok bs ∧ Canonical bs entries
      ∧ entries.length = label.fieldCount false)
    ∧ (∀ label' : Label, label'.InMemory →
      (unsignedLabelBytes label' = unsignedLabelBytes label ↔ label'.unsigned = label.unsigned))
    ∧ ∀ signed, signLabel label key = .ok signed →
      (∃ bs, encodeLabel signed = .ok bs
        ∧ ∃ read, decodeLabel bs = .ok read ∧ verifyLabel read verifying = .ok ())
      ∧ ∀ label' : Label, label'.InMemory → label'.sig = signed.sig →
        label'.unsigned ≠ label.unsigned → verifyLabel label' verifying ≠ .ok ()
  := by
  refine ⟨?_, ?_, fun label' h' => unsignedLabelBytes_inj h h', ?_⟩
  · refine ⟨_, _, encodeLabel_eq label, canonical_bytes h true, length_entries label true, ?_⟩
    exact decodeLabel_bytes h true
  · exact ⟨_, _, unsignedLabelBytes_eq label, canonical_bytes h false, length_entries label false⟩
  · intro signed hsign
    obtain ⟨sig, hsig, rfl⟩ := signLabel_eq_ok.mp hsign
    constructor
    · refine ⟨_, encodeLabel_eq _, _, decodeLabel_bytes (inMemory_signed h sig) true, ?_⟩
      apply verifyLabel_eq_ok.mpr
      exact ⟨sig, rfl, correct _ _ hsig⟩
    · intro label' h' hsame hne hverify
      obtain ⟨sig', hsig', haccept⟩ := verifyLabel_eq_ok.mp hverify
      rw [hsame] at hsig'
      have heq : sig = sig' := Subtype.ext (Option.some.inj hsig')
      have hbytes := unforgeable _ sig hsig _ (heq ▸ haccept)
      apply hne
      apply (unsignedLabelBytes_inj h h').mp
      rw [unsignedLabelBytes_eq, unsignedLabelBytes_eq, hbytes]

end

namespace Spam

open Syntax.Sample (alice)

attribute [local instance] Base32Decoding.standard

theorem newYear_valid :
  Datetime.validate (ascii "2024-01-01T00:00:00Z") = .ok ()
  := by decide

def newYear : Datetime := ⟨ascii "2024-01-01T00:00:00Z", newYear_valid⟩

/-- What Alice says of Bob. -/
def label : Label :=
  ⟨some 1, alice, ascii "at://did:plc:bob", none, ascii "spam", true, newYear, none, none⟩

theorem label_inMemory :
  label.InMemory
  := by
  refine ⟨⟨?_, ?_⟩, ⟨?_, ?_⟩, ⟨?_, ?_⟩, ⟨?_, ?_⟩, nofun, nofun⟩
  all_goals decide

/-- A signature. -/
def signature : Signature := ⟨List.replicate 64 0, rfl⟩

/-- A key that signs one byte string. -/
def signs (bs : Bytes) : SigningKey := ⟨fun b => if b = bs then some signature else none⟩

theorem sign_signs (bs : Bytes) :
  (signs bs).sign bs = some signature
  := if_pos rfl

/-- The key that verifies what the other signs. -/
def verifies (bs : Bytes) : VerifyingKey := ⟨fun b sig => b = bs ∧ sig = signature⟩

theorem correct_signs (bs : Bytes) :
  ∀ b sig, (signs bs).sign b = some sig → (verifies bs).verify b sig = true
  := by
  intro b sig h
  obtain ⟨hb, hsig⟩ := Option.ite_none_right_eq_some.mp h
  cases hsig
  exact decide_eq_true ⟨hb, rfl⟩

theorem unforgeable_signs (bs : Bytes) :
  ∀ b sig, (signs bs).sign b = some sig → ∀ b', (verifies bs).verify b' sig = true → b' = b
  := by
  intro b sig h b' h'
  rw [(of_decide_eq_true h').1, (Option.ite_none_right_eq_some.mp h).1]

/-- The label of Alice verifies after it was signed, written and read back, and no label that says
something else verifies with her signature. -/
theorem signature_covers :
  ∃ key verifying signed, signLabel label key = .ok signed
    ∧ (∃ bs, encodeLabel signed = .ok bs
      ∧ ∃ read, decodeLabel bs = .ok read ∧ verifyLabel read verifying = .ok ())
    ∧ ∀ label' : Label, label'.InMemory → label'.sig = signed.sig →
      label'.unsigned ≠ label.unsigned → verifyLabel label' verifying ≠ .ok ()
  := by
  have hsign : signLabel label (signs (label.members false).bytes)
      = .ok { label with sig := some signature.val } :=
    signLabel_eq_ok.mpr ⟨signature, sign_signs _, rfl⟩
  refine ⟨_, verifies (label.members false).bytes, _, hsign, ?_⟩
  exact (label_signature_covers _ _ (correct_signs _) (unforgeable_signs _)
    label_inMemory).2.2.2 _ hsign

end Spam

end Shrike.Labeling
