import Shrike.Data.Percent
import Shrike.Data.Utf8

/-!
# Forms

Names and values as an `application/x-www-form-urlencoded` text, how they are serialized and how
they are parsed: well-formed UTF-8 comes back as it was.
-/

namespace Bytes

/-! ### Reading UTF-8 leniently -/

/-- The number of bytes that continue a character after its first byte, and the range of the next of
them. -/
def utf8Lead (b : UInt8) : Option (ℕ × UInt8 × UInt8) :=
  if b < 0x80 then some (0, 0x80, 0xbf)
  else if b < 0xc2 then none
  else if b < 0xe0 then some (1, 0x80, 0xbf)
  else if b = 0xe0 then some (2, 0xa0, 0xbf)
  else if b = 0xed then some (2, 0x80, 0x9f)
  else if b < 0xf0 then some (2, 0x80, 0xbf)
  else if b = 0xf0 then some (3, 0x90, 0xbf)
  else if b < 0xf4 then some (3, 0x80, 0xbf)
  else if b = 0xf4 then some (3, 0x80, 0x8f)
  else none

/-- The replacement character. -/
def replacement : Bytes := [0xef, 0xbf, 0xbd]

/-- The text of a byte string, after the pending bytes of a character of which `n` are due. What
cannot be completed to a character is replaced. -/
def lossyFrom : Bytes → ℕ → UInt8 → UInt8 → Bytes → Bytes
  | _, 0, _, _, [] => []
  | _, _ + 1, _, _, [] => replacement
  | pending, n, lo, hi, b :: bs =>
      if 0 < n ∧ lo ≤ b ∧ b ≤ hi then
        if n = 1 then pending ++ b :: lossyFrom [] 0 0x80 0xbf bs
        else lossyFrom (pending ++ [b]) (n - 1) 0x80 0xbf bs
      else
        (if n = 0 then [] else replacement) ++
          match utf8Lead b with
          | none => replacement ++ lossyFrom [] 0 0x80 0xbf bs
          | some (0, _, _) => b :: lossyFrom [] 0 0x80 0xbf bs
          | some (n + 1, lo, hi) => lossyFrom [b] (n + 1) lo hi bs

/-- The text of a byte string, with what is not well-formed replaced. -/
def fromUtf8Lossy (bs : Bytes) : Bytes := lossyFrom [] 0 0x80 0xbf bs

theorem utf8From_lead (lo hi b : UInt8) (bs : Bytes) :
  utf8From 0 lo hi (b :: bs)
    = (utf8Lead b).elim false fun lead => utf8From lead.1 lead.2.1 lead.2.2 bs
  := by
  rw [utf8From, utf8Lead]
  split_ifs <;> rfl

variable {bs pending : Bytes}

variable {b hi lo : UInt8}

theorem lossyFrom_eq {n : ℕ} (hpending : n = 0 → pending = []) (h : utf8From n lo hi bs = true) :
  lossyFrom pending n lo hi bs = pending ++ bs
  := by
  induction bs generalizing pending n lo hi with
  | nil =>
      cases n with
      | zero =>
          rw [hpending rfl]
          rfl
      | succ n => cases h
  | cons b bs ih =>
      rw [lossyFrom]
      cases n with
      | zero =>
          rw [utf8From_lead] at h
          rw [if_neg (fun h => absurd h.1 (Nat.lt_irrefl 0)), if_pos rfl, hpending rfl]
          cases hlead : utf8Lead b with
          | none =>
              rw [hlead] at h
              cases h
          | some lead =>
              obtain ⟨n, lo, hi⟩ := lead
              rw [hlead] at h
              cases n with
              | zero =>
                  rw [Option.elim_some, utf8From_zero, ← utf8From_zero 0x80 0xbf] at h
                  show [] ++ b :: lossyFrom [] 0 0x80 0xbf bs = _
                  rw [ih (fun _ => rfl) h]
                  rfl
              | succ n =>
                  have hrest := @ih [b] _ _ _ (fun h0 => absurd h0 (Nat.succ_ne_zero n)) h
                  show [] ++ lossyFrom [b] (n + 1) lo hi bs = _
                  rw [hrest]
                  rfl
      | succ n =>
          rw [utf8From, Bool.and_eq_true, Bool.and_eq_true, decide_eq_true_eq,
            decide_eq_true_eq] at h
          obtain ⟨⟨hlo, hhi⟩, h⟩ := h
          rw [if_pos ⟨Nat.succ_pos n, hlo, hhi⟩]
          cases n with
          | zero => rw [if_pos rfl, ih (fun _ => rfl) h, List.nil_append]
          | succ n =>
              have hrest := @ih (pending ++ [b]) _ _ _ (fun h0 => absurd h0 (Nat.succ_ne_zero n)) h
              rw [if_neg (by omega), Nat.add_sub_cancel, hrest, List.append_assoc]
              rfl

/-- A well-formed text is as it is. -/
theorem fromUtf8Lossy_eq (h : utf8 bs = true) :
  fromUtf8Lossy bs = bs
  := by
  rw [fromUtf8Lossy, lossyFrom_eq (fun _ => rfl) h, List.nil_append]

/-! ### Components -/

/-- The bytes that stay as they are in a form. -/
def keepsInForm (b : UInt8) : Bool := isAsciiAlphanumeric b || (ascii "*-._").contains b

/-- The form of a byte. -/
def formEscapeByte (b : UInt8) : Bytes :=
  if keepsInForm b then [b] else if b = char ' ' then [char '+'] else escape b

/-- The form of a name or a value. -/
def formEscape (bs : Bytes) : Bytes := bs.flatMap formEscapeByte

/-- What is escaped is unescaped. -/
theorem formUnescape_formEscape (bs : Bytes) :
  formUnescape (formEscape bs) = bs
  := by
  induction bs with
  | nil => rfl
  | cons b bs ih =>
      rw [formEscape, List.flatMap_cons, ← formEscape, formEscapeByte]
      split_ifs with hkeeps hspace
      · have hplus : b ≠ char '+' := by
          rintro rfl
          exact absurd hkeeps (by decide)
        have hpercent : b ≠ char '%' := by
          rintro rfl
          exact absurd hkeeps (by decide)
        rw [List.singleton_append, formUnescape_cons hplus hpercent, ih]
      · rw [List.singleton_append, formUnescape_plus, ih, hspace]
      · rw [formUnescape_escape_append, ih]

/-- A byte that delimits the names and values of a form. -/
def separates (b : UInt8) : Bool := b = char '&' || b = char '='

theorem separates_upperHex {n : ℕ} (h : n < 16) :
  separates (upperHex n) = false
  := by
  have hall : ∀ n : Fin 16, separates (upperHex n) = false := by decide
  exact hall ⟨n, h⟩

theorem separates_of_keepsInForm (h : keepsInForm b = true) :
  separates b = false
  := by
  rw [separates, Bool.or_eq_false_iff, decide_eq_false_iff_not, decide_eq_false_iff_not]
  constructor
  · rintro rfl
    exact absurd h (by decide)
  · rintro rfl
    exact absurd h (by decide)

/-- An escaped name or value has no separators. -/
theorem separates_of_mem_formEscape (h : b ∈ formEscape bs) :
  separates b = false
  := by
  obtain ⟨a, -, hb⟩ := List.mem_flatMap.mp h
  have ha : a.toNat < 256 := a.toNat_lt
  rw [formEscapeByte] at hb
  split_ifs at hb with hkeeps hspace
  · rw [List.mem_singleton.mp hb]
    exact separates_of_keepsInForm hkeeps
  · rw [List.mem_singleton.mp hb]
    decide
  · rw [escape, List.mem_cons, List.mem_cons, List.mem_singleton] at hb
    rcases hb with rfl | rfl | rfl
    · decide
    · exact separates_upperHex (by omega)
    · exact separates_upperHex (by omega)

theorem not_mem_formEscape (hb : separates b = true) :
  b ∉ formEscape bs
  := by
  intro h
  rw [separates_of_mem_formEscape h] at hb
  cases hb

/-! ### Forms -/

/-- A name and its value, escaped. -/
def formPart (pair : Bytes × Bytes) : Bytes := formEscape pair.1 ++ char '=' :: formEscape pair.2

/-- The form of some names and values. -/
def formSerialize (pairs : List (Bytes × Bytes)) : Bytes := join (char '&') (pairs.map formPart)

/-- The name and the value of a part of a form. -/
def readPart (part : Bytes) : Bytes × Bytes :=
  let pair := (splitOnce (char '=') part).getD (part, [])
  (fromUtf8Lossy (formUnescape pair.1), fromUtf8Lossy (formUnescape pair.2))

/-- The names and values of a form. -/
def formParse (input : Bytes) : List (Bytes × Bytes) :=
  ((input.splitOn (char '&')).filter (· ≠ [])).map readPart

theorem readPart_formPart {pair : Bytes × Bytes} (hname : utf8 pair.1 = true)
    (hvalue : utf8 pair.2 = true) :
  readPart (formPart pair) = pair
  := by
  rw [readPart, formPart, splitOnce_append (not_mem_formEscape (by decide)), Option.getD_some,
    formUnescape_formEscape, formUnescape_formEscape, fromUtf8Lossy_eq hname,
    fromUtf8Lossy_eq hvalue]

/-- Names and values of well-formed UTF-8 are read from their form. -/
theorem formParse_formSerialize {pairs : List (Bytes × Bytes)}
    (h : ∀ pair ∈ pairs, utf8 pair.1 = true ∧ utf8 pair.2 = true) :
  formParse (formSerialize pairs) = pairs
  := by
  cases pairs with
  | nil => rfl
  | cons pair pairs =>
      have hsplit : (formSerialize (pair :: pairs)).splitOn (char '&')
          = (pair :: pairs).map formPart := by
        apply List.splitOn_intercalate
        · intro part hpart hmem
          obtain ⟨pair, -, rfl⟩ := List.mem_map.mp hpart
          rcases List.mem_append.mp hmem with hmem | hmem
          · exact not_mem_formEscape (by decide) hmem
          · rcases List.mem_cons.mp hmem with heq | hmem
            · exact absurd heq (by decide)
            · exact not_mem_formEscape (by decide) hmem
        · exact List.cons_ne_nil _ _
      have hfilter : ((pair :: pairs).map formPart).filter (· ≠ [])
          = (pair :: pairs).map formPart := by
        apply List.filter_eq_self.mpr
        intro part hpart
        obtain ⟨pair, -, rfl⟩ := List.mem_map.mp hpart
        simp [formPart]
      rw [formParse, hsplit, hfilter, List.map_map]
      calc (pair :: pairs).map (readPart ∘ formPart) = (pair :: pairs).map id := by
            apply List.map_congr_left
            intro pair hpair
            exact readPart_formPart (h pair hpair).1 (h pair hpair).2
        _ = _ := List.map_id _

end Bytes
