import Shrike.Cbor.Accepted
import Shrike.Cbor.Encoding
import Shrike.Repo.Repository
import Shrike.Syntax.AtUriParts

/-!
# Commits are read back

A commit that a repository signs is read back from its block as it was.
-/

namespace Shrike.Repo

open Cbor Syntax Bytes

/-! ### Texts of identifiers -/

theorem lt_of_isAsciiLowercase {b : UInt8} (h : isAsciiLowercase b = true) :
  b < 0x80
  := by
  apply lt_of_isAsciiAlphanumeric
  rw [isAsciiAlphanumeric, isAsciiAlphabetic, h, Bool.or_true, Bool.true_or]

theorem lt_of_isTidChar {b : UInt8} (h : Tid.isTidChar b = true) :
  b < 0x80
  := by
  rcases Bool.or_eq_true_iff.mp h with h | h
  · apply lt_of_isAsciiAlphanumeric
    have hdigit : isAsciiDigit b = true := by
      simp only [isAsciiDigit, Bool.and_eq_true, decide_eq_true_eq, UInt8.le_iff_toNat_le] at h ⊢
      simp only [UInt8.reduceToNat] at h ⊢
      omega
    rw [isAsciiAlphanumeric, hdigit, Bool.or_true]
  · exact lt_of_isAsciiLowercase h

/-- A DID is short and in ASCII. -/
theorem isText_did (did : Did) :
  IsText did.raw
  := by
  have hvalid := did.valid
  rw [Did.validate] at hvalid
  split_ifs at hvalid with _ hlength
  exact ⟨utf8_of_ascii (Did.isAscii_of_validate did.valid), by omega⟩

theorem isText_format (tid : Tid) :
  IsText tid.format
  := by
  have hlength : tid.format.length = 13 := Tid.length_formatFrom 13 tid.value []
  refine ⟨utf8_of_ascii ?_, by omega⟩
  intro b hb
  exact lt_of_isTidChar ((Tid.isTidChar_of_mem_formatFrom hb).resolve_right List.not_mem_nil)

/-! ### The block of a commit -/

namespace Commit

variable (did : Did) (rev : Tid) (data : Cid) (sig : Signature)

/-- The entries of a signed commit of version 3. -/
def entries : List (Bytes × Value) :=
  [(ascii "did", .text did.raw), (ascii "rev", .text rev.format), (ascii "sig", .bytes sig.val),
    (ascii "data", .cid data), (ascii "prev", .null), (ascii "version", .unsigned 3)]

theorem writeItem_entries :
  ∃ bytes, toCbor { did, version := 3, rev, prev := none, data, sig := some sig } = .ok bytes
    ∧ writeItem (.map (entries did rev data sig)) = .ok bytes
  := by
  refine ⟨_, rfl, ?_⟩
  rfl

theorem isText_key :
  ∀ e ∈ entries did rev data sig, IsText e.1
  := by
  have hall : ∀ key ∈ (entries did rev data sig).map Prod.fst, utf8 key = true ∧ key.length ≤ 7 := by
    show ∀ key ∈ [ascii "did", ascii "rev", ascii "sig", ascii "data", ascii "prev",
      ascii "version"], _
    decide
  intro e he
  obtain ⟨hutf8, hlength⟩ := hall e.1 (List.mem_map_of_mem he)
  exact ⟨hutf8, by omega⟩

/-- The entries are within the limits of the decoder. -/
theorem fits_entries :
  (Value.map (entries did rev data sig)).Fits maxDepth
  := by
  refine ⟨?_, ?_⟩
  · show 6 ≤ maxCollectionLen
    decide
  · intro e he
    refine ⟨isText_key did rev data sig e he, ?_⟩
    simp only [entries, List.mem_cons, List.not_mem_nil, or_false] at he
    rcases he with rfl | rfl | rfl | rfl | rfl | rfl
    · exact isText_did did
    · exact isText_format rev
    · show sig.val.length < 2 ^ 64
      rw [sig.property]
      decide
    · trivial
    · trivial
    · show 3 ≤ 2 ^ 63 - 1
      decide

theorem read_did (f : Fields) :
  f.read (ascii "did", .text did.raw) = .ok { f with did := some did }
  := by
  rw [Fields.read, if_pos rfl, Did.tryFrom_eq_ok.mpr rfl]

theorem read_rev (f : Fields) :
  f.read (ascii "rev", .text rev.format) = .ok { f with rev := some rev }
  := by
  rw [Fields.read, if_neg (by decide), if_neg (by decide), if_pos rfl, Tid.tryFrom_format]

theorem read_sig (f : Fields) :
  f.read (ascii "sig", .bytes sig.val) = .ok { f with sig := some sig }
  := by
  rw [Fields.read, if_neg (by decide), if_neg (by decide), if_neg (by decide), if_neg (by decide),
    if_neg (by decide), if_pos rfl, dif_pos sig.property]

/-- The fields of the entries are those of the commit. -/
theorem foldlM_entries :
  (entries did rev data sig).foldlM Fields.read {}
    = .ok { did := some did, version := some 3, rev := some rev, data := some data, sig := some sig }
  := by
  rw [entries, List.foldlM_cons, read_did, Except.ok_bind, List.foldlM_cons, read_rev, Except.ok_bind,
    List.foldlM_cons, read_sig]
  rfl

/-- A signed commit is read back from its block. -/
theorem fromCbor_toCbor :
  ∃ bytes, toCbor { did, version := 3, rev, prev := none, data, sig := some sig } = .ok bytes
    ∧ fromCbor bytes = .ok { did, version := 3, rev, prev := none, data, sig := some sig }
  := by
  obtain ⟨bytes, hcbor, hwrite⟩ := writeItem_entries did rev data sig
  have hdecode := decode_eq_ok_iff.mpr ⟨fits_entries did rev data sig, hwrite⟩
  refine ⟨bytes, hcbor, ?_⟩
  rw [fromCbor, hdecode]
  show ((entries did rev data sig).foldlM Fields.read {} >>= Fields.finish) = _
  rw [foldlM_entries]
  rfl

/-- What a repository signs has the given revision and is read back from its block. -/
theorem createSigned_reads [Hashing] {did : Did} {rev : Tid} {data : Cid} {key : SigningKey}
    {signed : SignedCommit} (h : createSigned did rev data key = .ok signed) :
  signed.commit.rev = rev ∧ fromCbor signed.bytes = .ok signed.commit
  := by
  obtain ⟨commit, hsign, h⟩ := Except.bind_eq_ok.mp h
  obtain ⟨bytes, hbytes, h⟩ := Except.bind_eq_ok.mp h
  cases h
  rw [sign] at hsign
  split at hsign
  · rename_i sig hsig
    cases hsign
    obtain ⟨bytes', hcbor, hread⟩ := fromCbor_toCbor did rev data sig
    rw [hbytes] at hcbor
    cases hcbor
    exact ⟨rfl, hread⟩
  · cases hsign

end Commit

end Shrike.Repo
