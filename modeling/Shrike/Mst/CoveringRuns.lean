import Shrike.Mst.CoveringProof

/-!
# Runs of keys

At every node a rule of a covering proof never continues further left as the key grows, so the
keys that continue into one subtree form one run.
-/

namespace Shrike.Mst

/-! ### Runs -/

/-- Between two keys that continue into the same subtree all do. -/
def Contiguous (ts : List (Option Slot)) : Prop :=
  ∀ (a b c : ℕ) (slot : Slot), a < b → b < c → ts[a]? = some (some slot) →
    ts[c]? = some (some slot) → slot.subtree.isSome → ts[b]? = some (some slot)

/-- The runs of keys that continue into the same subtree, given where each key continues. -/
def runsOf (ts : List (Option Slot)) : List (Slot × ℕ × ℕ) := ts.zipIdx.foldl addToRuns []

/-- `RunsExact ts runs`: every key that continues into a subtree is in a run of that subtree, all
keys of a run continue into its subtree, the runs follow each other, and no two are of the same
subtree. -/
structure RunsExact (ts : List (Option Slot)) (runs : List (Slot × ℕ × ℕ)) : Prop where
  covers : ∀ k slot, ts[k]? = some (some slot) → slot.subtree.isSome →
    ∃ run ∈ runs, run.1 = slot ∧ run.2.1 ≤ k ∧ k < run.2.2
  within : ∀ run ∈ runs, ∀ k, run.2.1 ≤ k → k < run.2.2 → ts[k]? = some (some run.1)
  subtree : ∀ run ∈ runs, run.1.subtree.isSome
  nonempty : ∀ run ∈ runs, run.2.1 < run.2.2
  ordered : runs.Pairwise fun run next => run.2.2 ≤ next.2.1
  distinct : runs.Pairwise fun run next => run.1 ≠ next.1

theorem Contiguous.of_concat {ts : List (Option Slot)} {t : Option Slot} (h : Contiguous (ts ++ [t])) :
  Contiguous ts
  := by
  intro a b c slot hab hbc ha hc hslot
  have hlt : c < ts.length := (List.getElem?_eq_some_iff.mp hc).1
  have hb := h a b c slot hab hbc
  rw [List.getElem?_append_left (by omega), List.getElem?_append_left (by omega),
    List.getElem?_append_left (by omega)] at hb
  exact hb ha hc hslot

theorem runsOf_concat (ts : List (Option Slot)) (t : Option Slot) :
  runsOf (ts ++ [t]) = addToRuns (runsOf ts) (t, ts.length)
  := by
  rw [runsOf, List.zipIdx_append, List.foldl_append]
  simp [runsOf]

theorem mem_concat {α : Type} {a b : α} {as : List α} :
  a ∈ as ++ [b] ↔ a ∈ as ∨ a = b
  := by rw [List.mem_append, List.mem_singleton]

namespace RunsExact

variable {ts : List (Option Slot)} {runs : List (Slot × ℕ × ℕ)} {t : Option Slot}

/-- The end of a run is within the list. -/
theorem stop_le (h : RunsExact ts runs) {run : Slot × ℕ × ℕ} (hrun : run ∈ runs) :
  run.2.2 ≤ ts.length
  := by
  have hne := h.nonempty run hrun
  have hlast := h.within run hrun (run.2.2 - 1) (by omega) (by omega)
  have hlt := (List.getElem?_eq_some_iff.mp hlast).1
  omega

/-- The runs of a list stay within a longer one. -/
theorem within_concat (h : RunsExact ts runs) {run : Slot × ℕ × ℕ} (hrun : run ∈ runs) (k : ℕ)
    (hstart : run.2.1 ≤ k) (hstop : k < run.2.2) :
  (ts ++ [t])[k]? = some (some run.1)
  := by
  have hle := h.stop_le hrun
  rw [List.getElem?_append_left (by omega)]
  exact h.within run hrun k hstart hstop

/-- A key that does not continue into a subtree is in no run. -/
theorem skip (h : RunsExact ts runs) (ht : ∀ slot, t = some slot → slot.subtree = none) :
  RunsExact (ts ++ [t]) runs
  where
  covers k slot hk hslot := by
    rcases lt_or_ge k ts.length with hlt | hge
    · rw [List.getElem?_append_left hlt] at hk
      exact h.covers k slot hk hslot
    · obtain rfl : k = ts.length := by
        have := (List.getElem?_eq_some_iff.mp hk).1
        simp only [List.length_append, List.length_singleton] at this
        omega
      rw [List.getElem?_concat_length] at hk
      rw [ht slot (Option.some.inj hk)] at hslot
      cases hslot
  within _ hrun k := h.within_concat hrun k
  subtree := h.subtree
  nonempty := h.nonempty
  ordered := h.ordered
  distinct := h.distinct

/-- A key that continues into the subtree of the last run extends it. -/
theorem extend {slot : Slot} {start stop : ℕ} (hcont : Contiguous (ts ++ [some slot]))
    (h : RunsExact ts (runs ++ [(slot, start, stop)])) :
  RunsExact (ts ++ [some slot]) (runs ++ [(slot, start, ts.length + 1)])
  := by
  have hmem : (slot, start, stop) ∈ runs ++ [(slot, start, stop)] := by simp
  have hlast := h.nonempty _ hmem
  have hle := h.stop_le hmem
  have hsub := h.subtree _ hmem
  constructor
  case covers =>
    intro k slot' hk hslot
    rcases lt_or_ge k ts.length with hlt | hge
    · rw [List.getElem?_append_left hlt] at hk
      obtain ⟨run, hrun, hrest⟩ := h.covers k slot' hk hslot
      rcases mem_concat.mp hrun with hrun | rfl
      · exact ⟨run, List.mem_append_left _ hrun, hrest⟩
      · refine ⟨_, List.mem_append_right _ List.mem_cons_self, hrest.1, hrest.2.1, ?_⟩
        dsimp only
        omega
    · have hlt := (List.getElem?_eq_some_iff.mp hk).1
      simp only [List.length_append, List.length_singleton] at hlt
      obtain rfl : k = ts.length := by omega
      rw [List.getElem?_concat_length] at hk
      cases hk
      refine ⟨_, List.mem_append_right _ List.mem_cons_self, rfl, ?_, ?_⟩
      · dsimp only at hlast hle ⊢
        omega
      · dsimp only
        omega
  case within =>
    intro run hrun k hstart hstop
    rcases mem_concat.mp hrun with hrun | rfl
    · exact h.within_concat (List.mem_append_left _ hrun) k hstart hstop
    · dsimp only at hstart hstop hlast hle
      rcases lt_or_ge k ts.length with hlt | hge
      · -- the keys since the old end of the run lie between its start and the new key
        have hfirst := h.within_concat (t := some slot) hmem start le_rfl hlast
        rcases eq_or_lt_of_le hstart with rfl | hgt
        · exact hfirst
        · exact hcont start k ts.length slot hgt hlt hfirst List.getElem?_concat_length hsub
      · obtain rfl : k = ts.length := by omega
        exact List.getElem?_concat_length
  case subtree =>
    intro run hrun
    rcases mem_concat.mp hrun with hrun | rfl
    · exact h.subtree run (List.mem_append_left _ hrun)
    · exact hsub
  case nonempty =>
    intro run hrun
    rcases mem_concat.mp hrun with hrun | rfl
    · exact h.nonempty run (List.mem_append_left _ hrun)
    · dsimp only at hlast hle ⊢
      omega
  case ordered =>
    have hord := List.pairwise_append.mp h.ordered
    refine List.pairwise_append.mpr ⟨hord.1, List.pairwise_singleton _ _, ?_⟩
    intro run hrun next hnext
    obtain rfl := List.mem_singleton.mp hnext
    exact hord.2.2 run hrun (slot, start, stop) List.mem_cons_self
  case distinct =>
    have hdis := List.pairwise_append.mp h.distinct
    refine List.pairwise_append.mpr ⟨hdis.1, List.pairwise_singleton _ _, ?_⟩
    intro run hrun next hnext
    obtain rfl := List.mem_singleton.mp hnext
    exact hdis.2.2 run hrun (slot, start, stop) List.mem_cons_self

/-- A key that continues into another subtree than that of the last run starts a run: none of
the earlier runs is of that subtree either. -/
theorem start {slot : Slot} (hcont : Contiguous (ts ++ [some slot])) (hsub : slot.subtree.isSome)
    (hlast : ∀ last, runs.getLast? = some last → last.1 ≠ slot) (h : RunsExact ts runs) :
  RunsExact (ts ++ [some slot]) (runs ++ [(slot, ts.length, ts.length + 1)])
  := by
  constructor
  case covers =>
    intro k slot' hk hslot
    rcases lt_or_ge k ts.length with hlt | hge
    · rw [List.getElem?_append_left hlt] at hk
      obtain ⟨run, hrun, hrest⟩ := h.covers k slot' hk hslot
      exact ⟨run, List.mem_append_left _ hrun, hrest⟩
    · have hlt := (List.getElem?_eq_some_iff.mp hk).1
      simp only [List.length_append, List.length_singleton] at hlt
      obtain rfl : k = ts.length := by omega
      rw [List.getElem?_concat_length] at hk
      cases hk
      exact ⟨_, List.mem_append_right _ List.mem_cons_self, rfl, le_rfl, Nat.lt_succ_self _⟩
  case within =>
    intro run hrun k hstart hstop
    rcases mem_concat.mp hrun with hrun | rfl
    · exact h.within_concat hrun k hstart hstop
    · obtain rfl : k = ts.length := by
        dsimp only at hstart hstop
        omega
      exact List.getElem?_concat_length
  case subtree =>
    intro run hrun
    rcases mem_concat.mp hrun with hrun | rfl
    · exact h.subtree run hrun
    · exact hsub
  case nonempty =>
    intro run hrun
    rcases mem_concat.mp hrun with hrun | rfl
    · exact h.nonempty run hrun
    · exact Nat.lt_succ_self _
  case ordered =>
    refine List.pairwise_append.mpr ⟨h.ordered, List.pairwise_singleton _ _, ?_⟩
    intro run hrun next hnext
    obtain rfl := List.mem_singleton.mp hnext
    exact h.stop_le hrun
  case distinct =>
    refine List.pairwise_append.mpr ⟨h.distinct, List.pairwise_singleton _ _, ?_⟩
    intro run hrun next hnext heq
    obtain rfl := List.mem_singleton.mp hnext
    dsimp only at heq
    obtain ⟨before, last, rfl⟩ :=
      (List.eq_nil_or_concat' runs).resolve_left (List.ne_nil_of_mem hrun)
    have hne : last.1 ≠ slot := hlast last (by simp)
    have hlastmem : last ∈ before ++ [last] := by simp
    rcases mem_concat.mp hrun with hrun | rfl
    · -- the last run lies between the earlier run and the new key
      have hord := (List.pairwise_append.mp h.ordered).2.2 run hrun last List.mem_cons_self
      have hrunmem : run ∈ before ++ [last] := List.mem_append_left _ hrun
      have hfirst := h.within_concat (t := some slot) hrunmem run.2.1 le_rfl (h.nonempty run hrunmem)
      have hmid := h.within_concat (t := some slot) hlastmem last.2.1 le_rfl
        (h.nonempty last hlastmem)
      have hlt := h.nonempty run hrunmem
      have hlt' := h.nonempty last hlastmem
      have hle := h.stop_le hlastmem
      rw [heq] at hfirst
      have hbetween := hcont run.2.1 last.2.1 ts.length slot (by omega) (by omega) hfirst
        List.getElem?_concat_length hsub
      rw [hmid] at hbetween
      exact hne (Option.some.inj (Option.some.inj hbetween))
    · exact hne heq

end RunsExact

/-- The runs of a list in which the keys of each subtree are together are exact. -/
theorem runsOf_exact (ts : List (Option Slot)) (hcont : Contiguous ts) :
  RunsExact ts (runsOf ts)
  := by
  induction ts using List.reverseRecOn with
  | nil => constructor <;> simp [runsOf]
  | append_singleton ts t ih =>
      have h := ih hcont.of_concat
      rw [runsOf_concat]
      cases t with
      | none => exact h.skip (by simp)
      | some slot =>
          rw [addToRuns]
          split_ifs with hslot
          · apply h.skip
            rintro _ ⟨⟩
            exact Option.isNone_iff_eq_none.mp hslot
          · have hsub : slot.subtree.isSome := by
              rw [Option.isSome_iff_ne_none]
              simpa using hslot
            split
            · rename_i hnil
              exact h.start hcont hsub (by simp [hnil])
            · rename_i last start stop hlast
              obtain ⟨runs, hruns⟩ := List.getLast?_eq_some_iff.mp hlast
              rw [hruns] at h ⊢
              split_ifs with heq
              · subst heq
                rw [List.dropLast_concat]
                exact h.extend hcont
              · apply h.start hcont hsub
                intro x hx
                rw [List.getLast?_concat] at hx
                cases hx
                exact heq

/-! ### Where the rules continue -/

/-- The slot of a subtree. -/
def Slot.ofSubtree : ℕ → Slot
  | 0 => .left
  | i + 1 => .right i

variable {key : Key} {b : Body} {i : ℕ}

theorem Slot.subtree_eq_some {slot : Slot} :
  slot.subtree = some i ↔ slot = ofSubtree i
  := by
  cases slot <;> cases i <;> simp [subtree, ofSubtree]

namespace Body

theorem childAt_child (pl pl' : Place) :
  ∀ (b : Body) (i : ℕ), (b.childAt i pl).1 = (b.childAt i pl').1
  | .edge _, _ => rfl
  | .entry _ _ _ _, 0 => rfl
  | .entry _ k _ rest, i + 1 => childAt_child (pl.after k) (pl'.after k) rest i

theorem gteEntry_le_size (key : Key) (b : Body) :
  b.gteEntry key ≤ b.size
  := by
  induction b using Body.spine with
  | edge c => exact le_rfl
  | entry c k v rest ih =>
      rw [gteEntry] at ih
      rw [gteEntry, search, size]
      split_ifs
      · exact Nat.succ_le_succ ih
      · exact Nat.zero_le _

theorem keyAt_isSome :
  ∀ {b : Body} {i : ℕ}, (b.keyAt i).isSome ↔ i < b.size
  | .edge _, _ => by simp [keyAt, size]
  | .entry _ _ _ _, 0 => by simp [keyAt, size]
  | .entry _ _ _ rest, i + 1 => by
      rw [keyAt, size, keyAt_isSome, Nat.succ_lt_succ_iff]

variable {i j : ℕ} {k key key' : Key} {b : Body}

theorem lt_size_of_keyAt (h : b.keyAt i = some k) :
  i < b.size
  := keyAt_isSome.mp (Option.isSome_iff_exists.mpr ⟨k, h⟩)

/-- The entries before the index that a search returns are below the key. -/
theorem lt_of_lt_gteEntry :
  ∀ {b : Body} {j : ℕ}, j < b.gteEntry key → b.keyAt j = some k → k < key
  | .edge _, _, _, hk => by cases hk
  | .entry _ x _ rest, j, hj, hk => by
      rw [gteEntry, search] at hj
      split_ifs at hj with hx
      · cases j with
        | zero =>
            cases hk
            exact hx
        | succ j => exact lt_of_lt_gteEntry (Nat.lt_of_succ_lt_succ hj) hk
      · exact absurd hj (Nat.not_lt_zero j)

theorem le_keyAt_gteEntry :
  ∀ {b : Body}, b.keyAt (b.gteEntry key) = some k → key ≤ k
  | .edge _, hk => by cases hk
  | .entry _ x _ rest, hk => by
      rw [gteEntry, search] at hk
      split_ifs at hk with hx
      · exact le_keyAt_gteEntry hk
      · cases hk
        exact not_lt.mp hx

/-- The index that a search returns does not fall as the key grows. -/
theorem gteEntry_mono (hle : key ≤ key') (b : Body) :
  b.gteEntry key ≤ b.gteEntry key'
  := by
  by_contra hlt
  rw [not_le] at hlt
  have hsize := lt_of_lt_of_le hlt (gteEntry_le_size key b)
  obtain ⟨k, hk⟩ := Option.isSome_iff_exists.mp (keyAt_isSome.mpr hsize)
  have hge := le_keyAt_gteEntry hk
  exact not_lt.mpr (hle.trans hge) (lt_of_lt_gteEntry hlt hk)

/-- The index grows past an entry with the key. -/
theorem gteEntry_lt (hkey : b.keyAt (b.gteEntry key) = some key) (hlt : key < key') :
  b.gteEntry key < b.gteEntry key'
  := by
  apply lt_of_le_of_ne (gteEntry_mono hlt.le b)
  intro heq
  rw [heq] at hkey
  exact not_le.mpr hlt (le_keyAt_gteEntry hkey)

theorem right_eq_ofSubtree :
  Slot.ofSubtree i = .right j ↔ i = j + 1
  := by
  cases i <;> simp [Slot.ofSubtree]

theorem slotBefore_eq_some (hj : j ≤ b.size) :
  b.slotBefore j = some (.ofSubtree i) ↔ i = j ∧ b.hasSubtree i = true
  := by
  cases j with
  | zero =>
      rw [slotBefore]
      split_ifs with h <;> cases i <;> simp [Slot.ofSubtree, h]
  | succ j =>
      rw [slotBefore, if_pos (Nat.lt_of_succ_le hj)]
      split_ifs with h
      · rw [Option.some.injEq, eq_comm, right_eq_ofSubtree]
        constructor
        · rintro rfl
          exact ⟨rfl, h⟩
        · exact fun hi => hi.1
      · constructor
        · intro heq
          cases i <;> cases heq
        · rintro ⟨rfl, hi⟩
          exact absurd hi h

theorem slotAfter_eq_some (hj : j < b.size) :
  b.slotAfter j = some (.ofSubtree i) ↔ i = j + 1 ∧ b.hasSubtree i = true
  := by
  rw [slotAfter, if_pos hj]
  split_ifs with h
  · rw [Option.some.injEq, eq_comm, right_eq_ofSubtree]
    constructor
    · rintro rfl
      exact ⟨rfl, h⟩
    · exact fun hi => hi.1
  · constructor
    · intro heq
      cases i <;> cases heq
    · rintro ⟨rfl, hi⟩
      exact absurd hi h
  · constructor
    · intro heq
      cases heq
    · rintro ⟨rfl, hi⟩
      exact absurd hi h

/-- The subtree just right of a key: after its entry if there is one. -/
def subtreeAfter (b : Body) (key : Key) : ℕ :=
  if b.keyAt (b.gteEntry key) = some key then b.gteEntry key + 1 else b.gteEntry key

theorem subtreeAfter_le_size (b : Body) (key : Key) :
  b.subtreeAfter key ≤ b.size
  := by
  rw [subtreeAfter]
  split_ifs with h
  · exact lt_size_of_keyAt h
  · exact gteEntry_le_size key b

theorem subtreeAfter_mono (hle : key ≤ key') (b : Body) :
  b.subtreeAfter key ≤ b.subtreeAfter key'
  := by
  rcases eq_or_lt_of_le hle with rfl | hlt
  · exact le_rfl
  · have hmono := gteEntry_mono hle b
    rw [subtreeAfter, subtreeAfter]
    split_ifs with h h' h'
    · exact Nat.succ_le_succ hmono
    · exact gteEntry_lt h hlt
    · exact Nat.le_succ_of_le hmono
    · exact hmono

end Body

theorem keyStep_eq_some :
  (keyStep b key).2 = some (.ofSubtree i)
    ↔ i = b.gteEntry key ∧ b.hasSubtree i = true ∧ b.keyAt (b.gteEntry key) ≠ some key
  := by
  rw [keyStep]
  split_ifs with h
  · simp [h]
  · rw [Body.slotBefore_eq_some (b.gteEntry_le_size key)]
    simp [h]

theorem leftSibStep_eq_some :
  (leftSibStep b key).2 = some (.ofSubtree i) ↔ i = b.gteEntry key ∧ b.hasSubtree i = true
  := Body.slotBefore_eq_some (b.gteEntry_le_size key)

theorem rightSibStep_eq_some :
  (rightSibStep b key).2 = some (.ofSubtree i) ↔ i = b.subtreeAfter key ∧ b.hasSubtree i = true
  := by
  have hle := b.gteEntry_le_size key
  rw [Body.subtreeAfter, rightSibStep]
  rcases lt_or_eq_of_le hle with hlt | heq
  · rw [if_pos hlt]
    dsimp only
    split_ifs with h
    · exact Body.slotAfter_eq_some hlt
    · exact Body.slotBefore_eq_some hle
  · have hnone : b.keyAt (b.gteEntry key) ≠ some key := by
      intro h
      have hlt := Body.lt_size_of_keyAt h
      omega
    rw [if_neg (by omega), if_neg hnone]
    rw [← Body.slotBefore_eq_some (i := i) hle]
    split
    · rename_i j hleaf
      split_ifs with h
      · -- the last entry is below the key
        exfalso
        have hj : j < b.gteEntry key := by
          have hlt := Body.lt_size_of_keyAt h
          omega
        exact lt_irrefl key (Body.lt_of_lt_gteEntry hj h)
      · rfl
    · rfl

namespace ProofStep

/-- The subtree that a rule continues into. -/
def next (step : ProofStep) (b : Body) (key : Key) : Option ℕ := (step b key).2.bind Slot.subtree

theorem next_eq_some {step : ProofStep} {b : Body} {key : Key} {i : ℕ} :
  step.next b key = some i ↔ (step b key).2 = some (.ofSubtree i)
  := by
  rw [next, Option.bind_eq_some_iff]
  simp only [Slot.subtree_eq_some]
  constructor
  · rintro ⟨slot, h, rfl⟩
    exact h
  · exact fun h => ⟨_, h, rfl⟩

/-- `step.Monotone target`: the subtree that a rule continues into is the one at the index
`target`, if there is one, which does not fall as the key grows; and if it continues there for a
key, it does for every smaller key of that index. -/
structure Monotone (step : ProofStep) (target : Body → Key → ℕ) : Prop where
  mono : ∀ {key key'} b, key ≤ key' → target b key ≤ target b key'
  le_size : ∀ b key, target b key ≤ b.size
  next : ∀ {b key i}, step.next b key = some i → i = target b key
  below : ∀ {b key key' i}, key < key' → step.next b key' = some i → target b key = i →
    step.next b key = some i

theorem Monotone.contiguous {step : ProofStep} {target : Body → Key → ℕ}
    (h : step.Monotone target) (b : Body) {ks : List Key} (hks : ks.Pairwise (· < ·)) :
  Contiguous (ks.map fun key => (step b key).2)
  := by
  intro i j l slot hij hjl hi hl hslot
  obtain ⟨n, hn⟩ := Option.isSome_iff_exists.mp hslot
  obtain rfl := Slot.subtree_eq_some.mp hn
  rw [List.getElem?_map, Option.map_eq_some_iff] at hi hl
  obtain ⟨first, hfirst, hi⟩ := hi
  obtain ⟨last, hlast, hl⟩ := hl
  have hlen := (List.getElem?_eq_some_iff.mp hlast).1
  obtain ⟨key, hkey⟩ : ∃ key, ks[j]? = some key :=
    ⟨_, List.getElem?_eq_getElem (by omega : j < ks.length)⟩
  have hlt : first < key := by
    rw [List.pairwise_iff_getElem] at hks
    obtain ⟨_, rfl⟩ := List.getElem?_eq_some_iff.mp hfirst
    obtain ⟨_, rfl⟩ := List.getElem?_eq_some_iff.mp hkey
    exact hks i j _ _ hij
  have hlt' : key < last := by
    rw [List.pairwise_iff_getElem] at hks
    obtain ⟨_, rfl⟩ := List.getElem?_eq_some_iff.mp hlast
    obtain ⟨_, rfl⟩ := List.getElem?_eq_some_iff.mp hkey
    exact hks j l _ _ hjl
  have hfirst' := h.next (next_eq_some.mpr hi)
  have hlast' := h.next (next_eq_some.mpr hl)
  have hmono := h.mono b hlt.le
  have hmono' := h.mono b hlt'.le
  rw [List.getElem?_map, hkey, Option.map_some,
    next_eq_some.mp (h.below hlt' (next_eq_some.mpr hl) (by omega))]

theorem keyStep_monotone :
  Monotone keyStep Body.gteEntry
  where
  mono b hle := Body.gteEntry_mono hle b
  le_size b key := Body.gteEntry_le_size key b
  next h := (keyStep_eq_some.mp (next_eq_some.mp h)).1
  below {b key key' i} hlt h heq := by
    obtain ⟨hi, hsub, -⟩ := keyStep_eq_some.mp (next_eq_some.mp h)
    rw [next_eq_some, keyStep_eq_some]
    refine ⟨heq.symm, hsub, ?_⟩
    intro hkey
    have hgrow := Body.gteEntry_lt hkey hlt
    omega

theorem leftSibStep_monotone :
  Monotone leftSibStep Body.gteEntry
  where
  mono b hle := Body.gteEntry_mono hle b
  le_size b key := Body.gteEntry_le_size key b
  next h := (leftSibStep_eq_some.mp (next_eq_some.mp h)).1
  below _ h heq := by
    obtain ⟨-, hsub⟩ := leftSibStep_eq_some.mp (next_eq_some.mp h)
    rw [next_eq_some, leftSibStep_eq_some]
    exact ⟨heq.symm, hsub⟩

theorem rightSibStep_monotone :
  Monotone rightSibStep Body.subtreeAfter
  where
  mono b hle := Body.subtreeAfter_mono hle b
  le_size b key := Body.subtreeAfter_le_size b key
  next h := (rightSibStep_eq_some.mp (next_eq_some.mp h)).1
  below _ h heq := by
    obtain ⟨-, hsub⟩ := rightSibStep_eq_some.mp (next_eq_some.mp h)
    rw [next_eq_some, rightSibStep_eq_some]
    exact ⟨heq.symm, hsub⟩

end ProofStep

/-- The rules of a covering proof. -/
def proofSteps : List ProofStep := [keyStep, leftSibStep, rightSibStep]

theorem proofSteps_monotone {step : ProofStep} (h : step ∈ proofSteps) :
  ∃ target, step.Monotone target
  := by
  rw [proofSteps, List.mem_cons, List.mem_cons, List.mem_singleton] at h
  rcases h with rfl | rfl | rfl
  · exact ⟨_, ProofStep.keyStep_monotone⟩
  · exact ⟨_, ProofStep.leftSibStep_monotone⟩
  · exact ⟨_, ProofStep.rightSibStep_monotone⟩

end Shrike.Mst
