import Shrike.Cbor.JsonRoundTrip
import Shrike.Cbor.JsonString
import Shrike.Mst.NodeBlock

/-!
# Texts, a word at a time

The comparisons and searches that read eight bytes at a time find what reading the bytes one by one
finds.
-/

namespace Shrike.Mst

open Bytes Cbor

variable {a b : Bytes}

/-- Whether texts agree on their first bytes, of which there are `n`. -/
def AgreeUpTo (a b : Bytes) (n : ℕ) : Prop :=
  n ≤ a.length ∧ n ≤ b.length ∧ a.take n = b.take n

/-- The shared prefix is the longest on which texts agree. -/
theorem sharedPrefixLen_isGreatest (a b : Bytes) :
  IsGreatest {n | AgreeUpTo a b n} (sharedPrefixLen a b)
  := by
  induction a generalizing b with
  | nil =>
      refine ⟨⟨le_rfl, Nat.zero_le _, rfl⟩, ?_⟩
      rintro n ⟨hn, -, -⟩
      exact hn
  | cons x a ih =>
      cases b with
      | nil =>
          refine ⟨⟨Nat.zero_le _, le_rfl, rfl⟩, ?_⟩
          rintro n ⟨-, hn, -⟩
          exact hn
      | cons y b =>
          obtain ⟨⟨ha, hb, htake⟩, hgreatest⟩ := ih b
          rw [sharedPrefixLen]
          split
          · rename_i hxy
            subst hxy
            refine ⟨⟨Nat.succ_le_succ ha, Nat.succ_le_succ hb, ?_⟩, ?_⟩
            · rw [List.take_succ_cons, List.take_succ_cons, htake]
            · rintro n ⟨hna, hnb, hn⟩
              cases n with
              | zero => exact Nat.zero_le _
              | succ n =>
                  rw [List.take_succ_cons, List.take_succ_cons] at hn
                  apply Nat.succ_le_succ
                  apply hgreatest
                  exact ⟨Nat.le_of_succ_le_succ hna, Nat.le_of_succ_le_succ hnb,
                    (List.cons.inj hn).2⟩
          · rename_i hxy
            refine ⟨⟨Nat.zero_le _, Nat.zero_le _, rfl⟩, ?_⟩
            rintro n ⟨-, -, hn⟩
            cases n with
            | zero => exact le_rfl
            | succ n =>
                rw [List.take_succ_cons, List.take_succ_cons] at hn
                exact absurd (List.cons.inj hn).1 hxy

/-- The order of keys is that of their encodings. -/
theorem cborKeyCmp_eq_cmp (ha : a.length < 2 ^ 64) (hb : b.length < 2 ^ 64) :
  cborKeyCmp a b = cmp (putText a) (putText b)
  := by
  cases hcmp : cborKeyCmp a b with
  | lt =>
      have hlt := putText_lt hb (cborKeyCmp_eq_lt.mp hcmp)
      rw [cmp, cmpUsing, if_pos hlt]
  | eq =>
      have hle := cborKeyCmp_ne_gt.mp (by rw [hcmp]; nofun)
      have hge : ¬keyOrder a < keyOrder b := by
        rw [← keyLt_iff, ← cborKeyCmp_eq_lt, hcmp]
        nofun
      obtain rfl : a = b := (Prod.mk.inj (toLex.injective (hle.antisymm (not_lt.mp hge)))).2
      rw [cmp, cmpUsing, if_neg (lt_irrefl _), if_neg (lt_irrefl _)]
  | gt =>
      have hgt : ¬keyOrder a ≤ keyOrder b := by
        rw [← cborKeyCmp_ne_gt, hcmp, not_not]
      have hlt := putText_lt ha (keyLt_iff.mpr (not_le.mp hgt))
      rw [cmp, cmpUsing, if_neg hlt.asymm, if_pos hlt]

/-- Whether a byte needs an escape in a JSON string. -/
def needsEscape (b : UInt8) : Bool := b < 0x20 || b = 0x22 || b = 0x5c

/-- The clean start of a text ends at its first byte that needs an escape. -/
theorem cleanLen_eq_findIdx (s : Bytes) :
  cleanLen s = s.findIdx needsEscape
  := by
  rw [cleanLen_eq]
  induction s with
  | nil => rfl
  | cons b s ih =>
      have hclean : clean b = !needsEscape b := by
        rw [clean, needsEscape, Bool.not_or, Bool.not_or, ← decide_not, ← decide_not, ← decide_not]
        congr 3
        exact propext UInt8.not_lt.symm
      rw [List.findIdx_cons, List.takeWhile_cons, hclean]
      cases needsEscape b with
      | true => rfl
      | false =>
          rw [← ih]
          rfl

/-- What is read in words is what the bytes are. The shared prefix of texts is the longest, keys are
in the order of their encodings, the clean start of a text ends at its first byte that needs an
escape, and text is written with its escapes between quotes. -/
theorem words_read_bytes (a b s out : Bytes) (ha : a.length < 2 ^ 64) (hb : b.length < 2 ^ 64) :
  IsGreatest {n | AgreeUpTo a b n} (wordPrefixLen a b)
    ∧ cborKeyCmp a b = cmp (putText a) (putText b)
    ∧ cleanLen s = s.findIdx needsEscape
    ∧ writeStr out s = out ++ jsonString s
  := by
  rw [wordPrefixLen_eq]
  exact ⟨sharedPrefixLen_isGreatest a b, cborKeyCmp_eq_cmp ha hb, cleanLen_eq_findIdx s,
    writeStr_eq out s⟩

theorem words_read_keys :
  (ascii "app.bsky.feed.post/1").length < 2 ^ 64 ∧ (ascii "app.bsky.feed.like/2").length < 2 ^ 64
    ∧ IsGreatest {n | AgreeUpTo (ascii "app.bsky.feed.post/1") (ascii "app.bsky.feed.like/2") n}
      (wordPrefixLen (ascii "app.bsky.feed.post/1") (ascii "app.bsky.feed.like/2"))
  := ⟨by decide, by decide, (words_read_bytes _ _ [] [] (by decide) (by decide)).1⟩

end Shrike.Mst
