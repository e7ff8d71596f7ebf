import Shrike.Data.Bytes

/-!
# JSON values

JSON values over a type of numbers. The fields of an object are kept as a list.
-/

/-- A JSON value. -/
inductive Json (ν : Type) where
  | null
  | bool (b : Bool)
  | number (n : ν)
  | string (s : Bytes)
  | array (items : List (Json ν))
  | object (fields : List (Bytes × Json ν))

namespace Json

variable {ν : Type}

/-- The text of a string. -/
def asStr : Json ν → Option Bytes
  | .string s => some s
  | _ => none

/-- The number. -/
def asNumber : Json ν → Option ν
  | .number n => some n
  | _ => none

/-- A member of an object, if it has it. -/
def get : Json ν → Bytes → Option (Json ν)
  | .object fields, key => fields.lookup key
  | _, _ => none

/-- A member of an object, or null. -/
def index (json : Json ν) (key : Bytes) : Json ν := (json.get key).getD .null

end Json

/-!
## Recursion into JSON values

Functions of a JSON value that call themselves on the items of an array and on the members of an
object, whatever else they depend on. Such a function is given by one step, which takes the
function for the recursive calls.
-/

namespace Json

variable {ν : Type}

/-- The items of an array and the members of an object. -/
def children : Json ν → List (Json ν)
  | .array items => items
  | .object fields => fields.map Prod.snd
  | _ => []

@[simp]
theorem children_array (items : List (Json ν)) :
  (Json.array items).children = items
  := rfl

variable {v item child : Json ν}

/-- A member of an object is a child of it. -/
theorem mem_children_of_lookup {fields : List (Bytes × Json ν)} {key : Bytes}
    (h : fields.lookup key = some child) :
  child ∈ (Json.object fields).children
  := by
  obtain ⟨before, after, rfl, -⟩ := List.lookup_eq_some_iff.mp h
  simp [children]

/-! ### Depth -/

mutual

/-- How deeply arrays and objects are nested in a value. -/
def depth : Json ν → ℕ
  | .array items => itemsDepth items + 1
  | .object fields => fieldsDepth fields + 1
  | _ => 0

def itemsDepth : List (Json ν) → ℕ
  | [] => 0
  | item :: items => max (depth item) (itemsDepth items)

def fieldsDepth : List (Bytes × Json ν) → ℕ
  | [] => 0
  | (_, val) :: fields => max (depth val) (fieldsDepth fields)

end

theorem depth_le_itemsDepth {items : List (Json ν)} (h : item ∈ items) :
  item.depth ≤ itemsDepth items
  := by
  induction items with
  | nil => cases h
  | cons v items ih =>
      rw [itemsDepth]
      rcases List.mem_cons.mp h with rfl | h
      · apply le_max_left
      · apply le_trans (ih h) (le_max_right _ _)

theorem depth_le_fieldsDepth {fields : List (Bytes × Json ν)} (h : child ∈ fields.map Prod.snd) :
  child.depth ≤ fieldsDepth fields
  := by
  induction fields with
  | nil => cases h
  | cons field fields ih =>
      obtain ⟨key, v⟩ := field
      rw [fieldsDepth]
      rcases List.mem_cons.mp h with rfl | h
      · apply le_max_left
      · apply le_trans (ih h) (le_max_right _ _)

theorem depth_lt_of_mem_children (h : child ∈ v.children) :
  child.depth < v.depth
  := by
  cases v with
  | array items =>
      rw [depth]
      apply Nat.lt_succ_of_le (depth_le_itemsDepth h)
  | object fields =>
      rw [depth]
      apply Nat.lt_succ_of_le (depth_le_fieldsDepth h)
  | _ => cases h

/-- What holds of a value as soon as it holds of its children holds of all values. -/
theorem induction_children {P : Json ν → Prop}
    (h : ∀ v : Json ν, (∀ child ∈ v.children, P child) → P v) (v : Json ν) :
  P v
  := by
  induction hn : v.depth using Nat.strong_induction_on generalizing v with
  | _ n ih =>
      apply h
      intro child hchild
      apply ih _ _ _ rfl
      rw [← hn]
      apply depth_lt_of_mem_children hchild

/-! ### Recursion -/

section

variable {α : Type} [Inhabited α]

/-- A step repeated down to a given depth. -/
def fixAt (step : (Json ν → α) → Json ν → α) : ℕ → Json ν → α
  | 0 => step fun _ => default
  | n + 1 => step (fixAt step n)

/-- The function with the given step. -/
def fix (step : (Json ν → α) → Json ν → α) (v : Json ν) : α := fixAt step v.depth v

/-- A step that asks only for the children of a value. -/
def Local (step : (Json ν → α) → Json ν → α) : Prop :=
  ∀ {f g : Json ν → α} {v : Json ν}, (∀ child ∈ v.children, f child = g child) → step f v = step g v

theorem fixAt_eq {step : (Json ν → α) → Json ν → α} (h : Local step) {n : ℕ} {v : Json ν}
    (hn : v.depth ≤ n) :
  fixAt step n v = fix step v
  := by
  have hdepth : ∀ {m k : ℕ} {v : Json ν}, v.depth ≤ m → v.depth ≤ k →
      fixAt step m v = fixAt step k v := by
    intro m
    induction m with
    | zero =>
        intro k v hm _
        have hnone : ∀ child ∈ v.children, False := by
          intro child hchild
          exact absurd (depth_lt_of_mem_children hchild) (by omega)
        cases k with
        | zero => rfl
        | succ k => exact h fun child hchild => (hnone child hchild).elim
    | succ m ih =>
        intro k v hm hk
        cases k with
        | zero =>
            apply h
            intro child hchild
            exact absurd (depth_lt_of_mem_children hchild) (by omega)
        | succ k =>
            apply h
            intro child hchild
            have hlt := depth_lt_of_mem_children hchild
            apply ih (by omega) (by omega)
  exact hdepth hn le_rfl

/-- A function is its step, with itself for the children. -/
theorem fix_eq {step : (Json ν → α) → Json ν → α} (h : Local step) (v : Json ν) :
  fix step v = step (fix step) v
  := by
  have hsucc : fixAt step (v.depth + 1) v = fix step v := fixAt_eq h (Nat.le_succ _)
  rw [← hsucc]
  apply h
  intro child hchild
  apply fixAt_eq h (le_of_lt (depth_lt_of_mem_children hchild))

end

end Json
