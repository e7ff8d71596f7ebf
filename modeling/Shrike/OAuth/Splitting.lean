import Shrike.OAuth.Normalize

/-!
# Scopes that are split again

A scope splits into the parameters that it was formatted from: the positional one, and for each key
its values, in the order in which they were given.
-/

namespace Shrike.OAuth

open Bytes

/-- The keys of some parameters, in the order of their first appearance. -/
def keysOf (params : List (Bytes × Bytes)) : List Bytes := (params.map Prod.fst).eraseDups

/-- The values of a key, in their order. -/
def valuesOf (params : List (Bytes × Bytes)) (key : Bytes) : List Bytes :=
  (params.filter (·.1 == key)).map Prod.snd

/-- The parameters with all values of each key. -/
def grouped (params : List (Bytes × Bytes)) : List (Bytes × Param) :=
  (keysOf params).map fun key => (key, .query (valuesOf params key))

variable {params : List (Bytes × Bytes)}

variable {param : Bytes × Bytes} {key value resource : Bytes}

theorem mem_keysOf :
  key ∈ keysOf params ↔ ∃ param ∈ params, param.1 = key
  := by rw [keysOf, List.mem_eraseDups, List.mem_map]

theorem keysOf_concat_of_mem (h : param.1 ∈ keysOf params) :
  keysOf (params ++ [param]) = keysOf params
  := by
  have hremove : [param.1].removeAll (params.map Prod.fst) = [] := by
    rw [List.removeAll, List.filter_eq_nil_iff]
    intro key hkey
    rw [List.mem_singleton.mp hkey]
    simpa using mem_keysOf.mp h
  rw [keysOf, List.map_append, List.eraseDups_append, List.map_singleton, hremove,
    List.eraseDups_nil, List.append_nil]
  rfl

theorem keysOf_concat_of_not_mem (h : param.1 ∉ keysOf params) :
  keysOf (params ++ [param]) = keysOf params ++ [param.1]
  := by
  have hremove : [param.1].removeAll (params.map Prod.fst) = [param.1] := by
    rw [List.removeAll, List.filter_eq_self]
    intro key hkey
    rw [List.mem_singleton.mp hkey]
    simpa using mt mem_keysOf.mpr h
  rw [keysOf, List.map_append, List.eraseDups_append, List.map_singleton, hremove]
  rfl

theorem valuesOf_concat_self (params : List (Bytes × Bytes)) (param : Bytes × Bytes) :
  valuesOf (params ++ [param]) param.1 = valuesOf params param.1 ++ [param.2]
  := by
  rw [valuesOf, List.filter_append, List.map_append, List.filter_singleton, beq_self_eq_true]
  rfl

theorem valuesOf_concat_of_ne (h : param.1 ≠ key) :
  valuesOf (params ++ [param]) key = valuesOf params key
  := by
  rw [valuesOf, List.filter_append, List.map_append, List.filter_singleton,
    beq_eq_false_iff_ne.mpr h]
  exact List.append_nil _

theorem valuesOf_of_not_mem (h : key ∉ keysOf params) :
  valuesOf params key = []
  := by
  rw [valuesOf, List.map_eq_nil_iff, List.filter_eq_nil_iff]
  intro param hparam heq
  exact h (mem_keysOf.mpr ⟨param, hparam, beq_iff_eq.mp heq⟩)

/-- An occurrence of a key that was there is added to its values. -/
theorem addOccurrence_of_mem {keys : List Bytes} {values : Bytes → List Bytes}
    (hnodup : keys.Nodup) (h : key ∈ keys) :
  addOccurrence key value (keys.map fun k => (k, .query (values k)))
    = keys.map fun k => (k, .query (if k = key then values k ++ [value] else values k))
  := by
  induction keys with
  | nil => cases h
  | cons k keys ih =>
      rw [List.nodup_cons] at hnodup
      rw [List.map_cons, List.map_cons, addOccurrence]
      split_ifs with hk
      · subst hk
        congr 1
        apply List.map_congr_left
        intro k' hk'
        rw [if_neg (ne_of_mem_of_not_mem hk' hnodup.1)]
      · rw [ih hnodup.2 ((List.mem_cons.mp h).resolve_left (Ne.symm hk))]

theorem nodup_keysOf (params : List (Bytes × Bytes)) :
  (keysOf params).Nodup
  := by
  induction params using List.reverseRecOn with
  | nil => exact List.nodup_nil
  | append_singleton params param ih =>
      by_cases h : param.1 ∈ keysOf params
      · rw [keysOf_concat_of_mem h]
        exact ih
      · rw [keysOf_concat_of_not_mem h, List.nodup_append]
        refine ⟨ih, List.nodup_singleton _, ?_⟩
        rintro key hkey _ hmem rfl
        exact h (List.mem_singleton.mp hmem ▸ hkey)

/-- Adding one occurrence after the other groups them. -/
theorem occurrences_eq_grouped (params : List (Bytes × Bytes)) :
  occurrences params [] = grouped params
  := by
  induction params using List.reverseRecOn with
  | nil => rfl
  | append_singleton params param ih =>
      rw [occurrences_append, ih]
      show addOccurrence param.1 param.2 (grouped params) = _
      by_cases h : param.1 ∈ keysOf params
      · rw [grouped, addOccurrence_of_mem (nodup_keysOf params) h, grouped, keysOf_concat_of_mem h]
        apply List.map_congr_left
        intro key _
        split_ifs with hkey
        · subst hkey
          rw [valuesOf_concat_self]
        · rw [valuesOf_concat_of_ne (Ne.symm hkey)]
      · have hnew : ∀ entry ∈ grouped params, entry.1 ≠ param.1 := by
          intro entry hentry heq
          obtain ⟨key, hkey, rfl⟩ := List.mem_map.mp hentry
          exact h (heq ▸ hkey)
        rw [addOccurrence_new _ hnew, grouped, grouped, keysOf_concat_of_not_mem h, List.map_append,
          List.map_singleton, valuesOf_concat_self, valuesOf_of_not_mem h]
        congr 1
        apply List.map_congr_left
        intro key hkey
        rw [valuesOf_concat_of_ne (ne_of_mem_of_not_mem hkey h).symm]

/-- A rendered scope contains a space only in its resource. -/
theorem mem_space_format {url : UrlLibrary} {positional : Option Bytes} :
  char ' ' ∈ format url resource positional params ↔ char ' ' ∈ resource
  := by
  constructor
  · intro h
    by_contra hresource
    exact not_mem_format hresource h
  · intro h
    rw [format_eq]
    exact List.mem_append_left _ h

/-- A formatted scope is read as the positional parameter and, for each key in the order of first
appearance, the values that it was formatted from, and its only spaces are those of the resource. -/
theorem fromScope_format_grouped {url : UrlLibrary} {decode : Bytes → Bytes}
    (hreads : url.ReadsForms decode) (resource : Bytes) {positional : Option Bytes}
    {params : List (Bytes × Bytes)}
    (hpositional : ∀ value, positional = some value → utf8 value = true)
    (hparams : WellFormed params) :
  Syntax.fromScope url (format url resource positional params) resource
      = some ⟨positional, grouped params⟩
    ∧ (char ' ' ∈ format url resource positional params ↔ char ' ' ∈ resource)
  := by
  refine ⟨?_, mem_space_format⟩
  rw [fromScope_format hreads hpositional hparams, ← occurrences_eq_grouped]
  rfl

namespace Spaced

open Sample (library library_readsForms)

/-- A key that is given twice, with a value that is escaped. -/
theorem twice_grouped :
  Syntax.fromScope library (format library (ascii "repo") (some (ascii "a b"))
      [(ascii "k", ascii "%3A"), (ascii "?", []), (ascii "k", ascii "+")]) (ascii "repo")
    = some ⟨some (ascii "a b"),
      [(ascii "k", .query [ascii "%3A", ascii "+"]), (ascii "?", .query [[]])]⟩
  := by
  refine (fromScope_format_grouped library_readsForms (ascii "repo") ?_ ?_).1.trans ?_
  · rintro value ⟨⟩
    decide
  · unfold WellFormed
    decide
  · rfl

/-- A resource with a space is left as it is. -/
theorem space_left :
  char ':' ∉ ascii "my res" ∧ char '?' ∉ ascii "my res"
    ∧ char ' ' ∈ format library (ascii "my res") none []
  := by decide

end Spaced

end Shrike.OAuth
