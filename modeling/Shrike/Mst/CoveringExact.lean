import Shrike.Mst.Complete
import Shrike.Mst.CoveringRuns

/-!
# Covering proofs of several keys

The covering proofs that are collected for all keys at once are the union of those of each key
alone, and no pass over the tree selects a node twice. From a flushed tree whose nodes can all
be read they can be collected for any keys.
-/

namespace Shrike.Mst

/-! ### Reading does not change where a rule continues -/

section Reading

variable [Hashing] {src : BlockSource}

theorem Loads.isAbsent {pl : Place} {c c' : Child} (h : Loads src pl c c') :
  c'.isAbsent = c.isAbsent
  := by
  cases h <;> rfl

theorem LoadsBody.childAt :
  ∀ {pl : Place} {b b' : Body}, LoadsBody src pl b b' → ∀ i,
    Loads src (b.childAt i pl).2 (b.childAt i pl).1 (b'.childAt i pl).1
      ∧ (b'.childAt i pl).2 = (b.childAt i pl).2
  | _, _, _, .edge hc, _ => ⟨hc, rfl⟩
  | _, _, _, .entry hc _, 0 => ⟨hc, rfl⟩
  | _, _, _, .entry _ hrest, i + 1 => LoadsBody.childAt hrest i

theorem LoadsBody.size :
  ∀ {pl : Place} {b b' : Body}, LoadsBody src pl b b' → b'.size = b.size
  | _, _, _, .edge _ => rfl
  | _, _, _, .entry _ hrest => congrArg (· + 1) hrest.size

theorem LoadsBody.keyAt :
  ∀ {pl : Place} {b b' : Body}, LoadsBody src pl b b' → ∀ i, b'.keyAt i = b.keyAt i
  | _, _, _, .edge _, _ => rfl
  | _, _, _, .entry _ _, 0 => rfl
  | _, _, _, .entry _ hrest, i + 1 => LoadsBody.keyAt hrest i

theorem LoadsBody.search (key : Key) {pl : Place} {b b' : Body} (h : LoadsBody src pl b b') :
  b'.search key = b.search key
  := by
  induction b using Body.spine generalizing pl b' with
  | edge c =>
      cases h
      rfl
  | entry c k v rest ih =>
      cases h with
      | entry hc hrest => rw [Body.search, Body.search, ih hrest]

theorem LoadsBody.hasSubtree {pl : Place} {b b' : Body} (h : LoadsBody src pl b b') (i : ℕ) :
  b'.hasSubtree i = b.hasSubtree i
  := by
  have hchild := (h.childAt i).1.isAbsent
  rw [Body.hasSubtree, Body.hasSubtree, Body.childAt_child .root pl b',
    Body.childAt_child .root pl b, hchild]

theorem LoadsBody.slotBefore {pl : Place} {b b' : Body} (h : LoadsBody src pl b b') (i : ℕ) :
  b'.slotBefore i = b.slotBefore i
  := by
  cases i <;> simp only [Body.slotBefore, h.hasSubtree, h.size]

/-- The rules do not depend on which subtrees have been read. -/
theorem LoadsBody.proofStep {pl : Place} {b b' : Body} (h : LoadsBody src pl b b')
    {step : ProofStep} (hstep : step ∈ proofSteps) (key : Key) :
  step b' key = step b key
  := by
  have hgte : b'.gteEntry key = b.gteEntry key := by
    rw [Body.gteEntry, Body.gteEntry, h.search key]
  rw [proofSteps, List.mem_cons, List.mem_cons, List.mem_singleton] at hstep
  rcases hstep with rfl | rfl | rfl
  · simp only [keyStep, hgte, h.keyAt, h.slotBefore]
  · simp only [leftSibStep, hgte, h.slotBefore]
  · simp only [rightSibStep, hgte, h.keyAt, h.slotBefore, h.size, Body.slotAfter, h.hasSubtree]

end Reading

/-! ### Following a rule for one key -/

/-- The node that a rule selects at a loaded node for a key, if any, at the position of the node
itself. -/
def ProofStep.own (step : ProofStep) (cid : Option Cid) (b : Body) (key : Key) :
    List (List ℕ × Cid) :=
  if (step b key).1 then cid.toList.map fun c => ([], c) else []

/-- The nodes selected below the subtree at an index, at their positions in the whole. -/
def under (i : ℕ) (l : List (List ℕ × Cid)) : List (List ℕ × Cid) :=
  l.map fun x => (i :: x.1, x.2)

variable {x : List ℕ × Cid}

theorem mem_under {i : ℕ} {l : List (List ℕ × Cid)} :
  x ∈ under i l ↔ ∃ p, x.1 = i :: p ∧ (p, x.2) ∈ l
  := by
  rw [under, List.mem_map]
  constructor
  · rintro ⟨y, hy, rfl⟩
    exact ⟨y.1, rfl, hy⟩
  · rintro ⟨p, hp, hmem⟩
    exact ⟨(p, x.2), hmem, by rw [← hp]⟩

theorem ProofStep.mem_own {step : ProofStep} {cid : Option Cid} {b : Body} {key : Key} :
  x ∈ step.own cid b key ↔ (step b key).1 = true ∧ x.1 = [] ∧ cid = some x.2
  := by
  rw [own]
  split_ifs with h
  · cases cid with
    | none => simp
    | some c =>
        rw [Option.toList_some, List.map_singleton, List.mem_singleton, Prod.ext_iff, eq_comm (a := some c)]
        simp [h, eq_comm]
  · simp [h]

section Follows

variable [Hashing]

/-- `Follows src step key pl n l`: the nodes `l`, with their positions below `n`, are those that
a rule selects when it is followed from `n`, at the place `pl`, for one key. -/
inductive Follows (src : BlockSource) (step : ProofStep) (key : Key) :
    Place → Child → List (List ℕ × Cid) → Prop
  | stop {pl cid h} {body : Body}
      (hnext : ∀ i, step.next body key = some i → (body.childAt i pl).1 = .absent) :
      Follows src step key pl (.node cid h body) (step.own cid body key)
  | down {pl cid h} {body : Body} {i l}
      (hnext : step.next body key = some i) (hchild : (body.childAt i pl).1 ≠ .absent)
      (hfollows : Follows src step key (body.childAt i pl).2 (body.childAt i pl).1 l) :
      Follows src step key pl (.node cid h body) (step.own cid body key ++ under i l)
  | read {pl cid h h' body l} (hread : Reads src pl cid h h' body)
      (hfollows : Follows src step key pl (.node (some cid) h' body) l) :
      Follows src step key pl (.stub cid h) l

variable {src : BlockSource} {step : ProofStep}

/-- A block decodes to one node. -/
theorem Reads.unique {pl : Place} {cid : Cid} {h h' h'' : ℕ} {b b' : Body}
    (hread : Reads src pl cid h h' b) (hread' : Reads src pl cid h h'' b') :
  h' = h'' ∧ b = b'
  := by
  obtain ⟨data, nd, hsrc, hdecode, hpopulate⟩ := hread
  obtain ⟨data', nd', hsrc', hdecode', hpopulate'⟩ := hread'
  rw [hsrc] at hsrc'
  cases hsrc'
  rw [hdecode] at hdecode'
  cases hdecode'
  rw [hpopulate] at hpopulate'
  cases hpopulate'
  exact ⟨rfl, rfl⟩

variable {key : Key} {l : List (List ℕ × Cid)} {c n n' : Child}

/-- A rule selects the same nodes before and after some stubs are read. -/
theorem Follows.of_loads (hstep : step ∈ proofSteps) {pl : Place}
    (hfollows : Follows src step key pl n' l) :
  ∀ {n : Child}, Loads src pl n n' → Follows src step key pl n l
  := by
  induction hfollows with
  | @stop pl cid h body' hnext =>
      intro n hloads
      have hbody : ∀ {body}, LoadsBody src pl body body' →
          Follows src step key pl (.node cid h body) (step.own cid body' key) := by
        intro body hload
        have hsame := hload.proofStep hstep key
        have hown : step.own cid body' key = step.own cid body key := by
          rw [ProofStep.own, ProofStep.own, hsame]
        rw [hown]
        apply Follows.stop
        intro i hi
        rw [ProofStep.next, ← hsame, ← ProofStep.next] at hi
        have habsent := (hload.childAt i).1.isAbsent
        rw [hnext i hi] at habsent
        exact Child.isAbsent_iff.mp habsent.symm
      cases hloads with
      | refl => exact .stop hnext
      | read hread hload => exact .read hread (hbody hload)
      | node hload => exact hbody hload
  | @down pl cid h body' i l hnext hchild hfollows ih =>
      intro n hloads
      have hbody : ∀ {body}, LoadsBody src pl body body' →
          Follows src step key pl (.node cid h body) (step.own cid body' key ++ under i l) := by
        intro body hload
        have hsame := hload.proofStep hstep key
        have hown : step.own cid body' key = step.own cid body key := by
          rw [ProofStep.own, ProofStep.own, hsame]
        obtain ⟨hloads, hplace⟩ := hload.childAt i
        rw [hown]
        apply Follows.down
        · rw [ProofStep.next, ← hsame]
          exact hnext
        · intro habsent
          have hsame := hloads.isAbsent
          rw [habsent] at hsame
          exact hchild (Child.isAbsent_iff.mp hsame)
        · rw [hplace] at ih
          exact ih hloads
      cases hloads with
      | refl => exact .down hnext hchild hfollows
      | read hread hload => exact .read hread (hbody hload)
      | node hload => exact hbody hload
  | @read pl cid h h' body l hread hfollows ih =>
      intro n hloads
      cases hloads with
      | refl => exact .read hread hfollows

theorem Follows.loads (hstep : step ∈ proofSteps) {pl : Place}
    (hfollows : Follows src step key pl n l) :
  ∀ {n' : Child}, Loads src pl n n' → Follows src step key pl n' l
  := by
  induction hfollows with
  | @stop pl cid h body hnext =>
      intro n' hloads
      cases hloads with
      | refl => exact .stop hnext
      | @node _ _ _ _ body' hload =>
          have hsame := hload.proofStep hstep key
          have hown : step.own cid body key = step.own cid body' key := by
            rw [ProofStep.own, ProofStep.own, hsame]
          rw [hown]
          apply Follows.stop
          intro i hi
          rw [ProofStep.next, hsame, ← ProofStep.next] at hi
          have habsent := (hload.childAt i).1.isAbsent
          rw [hnext i hi] at habsent
          exact Child.isAbsent_iff.mp habsent
  | @down pl cid h body i l hnext hchild hfollows ih =>
      intro n' hloads
      cases hloads with
      | refl => exact .down hnext hchild hfollows
      | @node _ _ _ _ body' hload =>
          have hsame := hload.proofStep hstep key
          have hown : step.own cid body key = step.own cid body' key := by
            rw [ProofStep.own, ProofStep.own, hsame]
          obtain ⟨hloads, hplace⟩ := hload.childAt i
          rw [hown]
          apply Follows.down
          · rw [ProofStep.next, hsame]
            exact hnext
          · intro habsent
            have hsame := hloads.isAbsent
            rw [habsent] at hsame
            exact hchild (Child.isAbsent_iff.mp hsame.symm)
          · rw [hplace]
            exact ih hloads
  | @read pl cid h h' body l hread hfollows ih =>
      intro n' hloads
      cases hloads with
      | refl => exact .read hread hfollows
      | read hread' hload =>
          obtain ⟨rfl, rfl⟩ := hread.unique hread'
          exact ih (.node hload)

/-- `Selection src step keys pl n ps`: a rule can be followed from `n` for each of the keys, and
the nodes it selects for any of them are those of `ps`, each once. -/
structure Selection (src : BlockSource) (step : ProofStep) (keys : List Key) (pl : Place)
    (n : Child) (ps : List (List ℕ × Cid)) : Prop where
  follows : ∀ key ∈ keys, ∃ l, Follows src step key pl n l
  nodup : (ps.map Prod.fst).Nodup
  mem_iff : ∀ x, x ∈ ps ↔ ∃ key ∈ keys, ∃ l, Follows src step key pl n l ∧ x ∈ l

theorem Selection.of_loads (hstep : step ∈ proofSteps) {keys : List Key} {pl : Place}
    {ps : List (List ℕ × Cid)} (h : Selection src step keys pl n' ps)
    (hloads : Loads src pl n n') :
  Selection src step keys pl n ps
  where
  follows key hkey := by
    obtain ⟨l, hl⟩ := h.follows key hkey
    exact ⟨l, hl.of_loads hstep hloads⟩
  nodup := h.nodup
  mem_iff x := by
    rw [h.mem_iff]
    constructor
    · rintro ⟨key, hkey, l, hl, hx⟩
      exact ⟨key, hkey, l, hl.of_loads hstep hloads, hx⟩
    · rintro ⟨key, hkey, l, hl, hx⟩
      exact ⟨key, hkey, l, hl.loads hstep hloads, hx⟩

omit [Hashing] in
theorem nodup_under {i : ℕ} (h : (l.map Prod.fst).Nodup) :
  ((under i l).map Prod.fst).Nodup
  := by
  have hmap : (under i l).map Prod.fst = (l.map Prod.fst).map (i :: ·) := by
    rw [under, List.map_map, List.map_map]
    rfl
  rw [hmap]
  exact h.map (fun _ _ hcons => (List.cons.inj hcons).2)

omit [Hashing] in
theorem Body.childAt_setChildAt_ne :
  ∀ {b : Body} {i j : ℕ} (pl : Place), i ≠ j → i ≤ b.size → j ≤ b.size →
    (b.setChildAt c i).childAt j pl = b.childAt j pl
  | .edge _, i, j, _, hne, hi, hj => by
      rw [Nat.le_zero.mp hi, Nat.le_zero.mp hj] at hne
      exact absurd rfl hne
  | .entry _ _ _ _, 0, 0, _, hne, _, _ => absurd rfl hne
  | .entry _ _ _ _, 0, _ + 1, _, _, _, _ => rfl
  | .entry _ _ _ _, _ + 1, 0, _, _, _, _ => rfl
  | .entry _ k _ rest, i + 1, j + 1, pl, hne, hi, hj =>
      Body.childAt_setChildAt_ne (b := rest) (pl.after k) (fun h => hne (congrArg (· + 1) h))
        (Nat.le_of_succ_le_succ hi) (Nat.le_of_succ_le_succ hj)

/-- The keys of a run. -/
def runKeys (keys : List Key) (run : Slot × ℕ × ℕ) : List Key :=
  (keys.take run.2.2).drop run.2.1

/-- `Below src step keys pl b run x`: a rule selects `x` for a key of a run when it is followed
into the subtree of the run. -/
def Below (src : BlockSource) (step : ProofStep) (keys : List Key) (pl : Place) (b : Body)
    (run : Slot × ℕ × ℕ) (x : List ℕ × Cid) : Prop :=
  ∃ i, run.1 = .ofSubtree i ∧ (b.childAt i pl).1 ≠ .absent ∧ ∃ key ∈ runKeys keys run,
    ∃ l, Follows src step key (b.childAt i pl).2 (b.childAt i pl).1 l ∧ x ∈ under i l

/-- `RunsSelect src step keys pl b runs ps`: a rule can be followed for the keys of each run into
its subtree, and the nodes it selects there are those of `ps`, each once. -/
structure RunsSelect (src : BlockSource) (step : ProofStep) (keys : List Key) (pl : Place)
    (b : Body) (runs : List (Slot × ℕ × ℕ)) (ps : List (List ℕ × Cid)) : Prop where
  follows : ∀ run ∈ runs, ∀ i, run.1 = .ofSubtree i → (b.childAt i pl).1 ≠ .absent →
    ∀ key ∈ runKeys keys run,
      ∃ l, Follows src step key (b.childAt i pl).2 (b.childAt i pl).1 l
  nodup : (ps.map Prod.fst).Nodup
  mem_iff : ∀ x, x ∈ ps ↔ ∃ run ∈ runs, Below src step keys pl b run x

omit [Hashing] in
theorem Slot.ofSubtree_inj {i j : ℕ} (h : Slot.ofSubtree i = .ofSubtree j) :
  i = j
  := by
  have hsome := Slot.subtree_eq_some.mpr h
  rw [Slot.subtree_eq_some.mpr rfl] at hsome
  exact Option.some.inj hsome

section Runs

variable {keys : List Key} {pl : Place} {b : Body} {run : Slot × ℕ × ℕ}
  {runs : List (Slot × ℕ × ℕ)} {ps : List (List ℕ × Cid)}

theorem RunsSelect.nil :
  RunsSelect src step keys pl b [] []
  where
  follows _ h := by cases h
  nodup := .nil
  mem_iff x := by simp

variable {i : ℕ}

/-- A run into an absent subtree selects nothing. -/
theorem RunsSelect.cons_absent (hi : run.1 = .ofSubtree i)
    (habsent : (b.childAt i pl).1 = .absent) (h : RunsSelect src step keys pl b runs ps) :
  RunsSelect src step keys pl b (run :: runs) ps
  where
  follows other hother j hj hchild key hkey := by
    rcases List.mem_cons.mp hother with rfl | hother
    · obtain rfl := Slot.ofSubtree_inj (hi.symm.trans hj)
      exact absurd habsent hchild
    · exact h.follows other hother j hj hchild key hkey
  nodup := h.nodup
  mem_iff x := by
    rw [h.mem_iff]
    constructor
    · rintro ⟨other, hother, hbelow⟩
      exact ⟨other, List.mem_cons_of_mem run hother, hbelow⟩
    · rintro ⟨other, hother, hbelow⟩
      rcases List.mem_cons.mp hother with rfl | hother
      · obtain ⟨j, hj, hchild, -⟩ := hbelow
        obtain rfl := Slot.ofSubtree_inj (hi.symm.trans hj)
        exact absurd habsent hchild
      · exact ⟨other, hother, hbelow⟩

/-- What is selected for a run is at other positions than what is selected for the runs of other
subtrees. -/
theorem RunsSelect.cons {qs : List (List ℕ × Cid)} (hi : run.1 = .ofSubtree i)
    (hchild : (b.childAt i pl).1 ≠ .absent) (hne : ∀ other ∈ runs, run.1 ≠ other.1)
    (hrun : Selection src step (runKeys keys run) (b.childAt i pl).2 (b.childAt i pl).1 qs)
    (h : RunsSelect src step keys pl b runs ps) :
  RunsSelect src step keys pl b (run :: runs) (under i qs ++ ps)
  where
  follows other hother j hj hchild' key hkey := by
    rcases List.mem_cons.mp hother with rfl | hother
    · obtain rfl := Slot.ofSubtree_inj (hi.symm.trans hj)
      exact hrun.follows key hkey
    · exact h.follows other hother j hj hchild' key hkey
  nodup := by
    rw [List.map_append, List.nodup_append]
    refine ⟨nodup_under hrun.nodup, h.nodup, ?_⟩
    intro p hp q hq heq
    obtain ⟨x, hx, rfl⟩ := List.mem_map.mp hp
    obtain ⟨y, hy, rfl⟩ := List.mem_map.mp hq
    obtain ⟨other, hother, j, hj, -, key, -, l, -, hl⟩ := (h.mem_iff y).mp hy
    obtain ⟨p, hp, -⟩ := mem_under.mp hx
    obtain ⟨q, hq, -⟩ := mem_under.mp hl
    rw [hp, hq] at heq
    obtain rfl := (List.cons.inj heq).1
    exact hne other hother (hi.trans hj.symm)
  mem_iff x := by
    rw [List.mem_append, h.mem_iff]
    constructor
    · rintro (hx | ⟨other, hother, hbelow⟩)
      · obtain ⟨p, hp, hmem⟩ := mem_under.mp hx
        obtain ⟨key, hkey, l, hl, hmem⟩ := (hrun.mem_iff _).mp hmem
        exact ⟨run, List.mem_cons_self, i, hi, hchild, key, hkey, l, hl,
          mem_under.mpr ⟨p, hp, hmem⟩⟩
      · exact ⟨other, List.mem_cons_of_mem run hother, hbelow⟩
    · rintro ⟨other, hother, hbelow⟩
      rcases List.mem_cons.mp hother with rfl | hother
      · left
        obtain ⟨j, hj, -, key, hkey, l, hl, hx⟩ := hbelow
        obtain rfl := Slot.ofSubtree_inj (hi.symm.trans hj)
        obtain ⟨p, hp, hmem⟩ := mem_under.mp hx
        exact mem_under.mpr ⟨p, hp, (hrun.mem_iff _).mpr ⟨key, hkey, l, hl, hmem⟩⟩
      · exact .inr ⟨other, hother, hbelow⟩

/-- Replacing the subtree of one run leaves the subtrees of the others. -/
theorem RunsSelect.of_setChildAt {c : Child} (hi : run.1 = .ofSubtree i)
    (hle : i ≤ b.size) (hne : ∀ other ∈ runs, run.1 ≠ other.1)
    (hsub : ∀ other ∈ runs, ∀ j, other.1 = .ofSubtree j → j ≤ b.size)
    (h : RunsSelect src step keys pl (b.setChildAt c i) runs ps) :
  RunsSelect src step keys pl b runs ps
  := by
  have hsame : ∀ other ∈ runs, ∀ j, other.1 = .ofSubtree j →
      (b.setChildAt c i).childAt j pl = b.childAt j pl := by
    intro other hother j hj
    apply Body.childAt_setChildAt_ne pl _ hle (hsub other hother j hj)
    rintro rfl
    exact hne other hother (hi.trans hj.symm)
  constructor
  · intro other hother j hj hchild
    rw [← hsame other hother j hj] at hchild ⊢
    exact h.follows other hother j hj hchild
  · exact h.nodup
  · intro x
    rw [h.mem_iff]
    constructor
    · rintro ⟨other, hother, j, hj, hrest⟩
      rw [hsame other hother j hj] at hrest
      exact ⟨other, hother, j, hj, hrest⟩
    · rintro ⟨other, hother, j, hj, hrest⟩
      rw [← hsame other hother j hj] at hrest
      exact ⟨other, hother, j, hj, hrest⟩

end Runs

/-- Following each run of keys into its subtree selects what following each key does. -/
theorem passRuns_select
    {pass : List Key → Refs → Child → Place → Except MstError (List Cid) × Child × Refs}
    (hpass : ∀ {keys refs n pl out n' refs'}, n ≠ .absent → keys.Pairwise (· < ·) →
      pass keys refs n pl = (.ok out, n', refs') →
      ∃ ps, out = ps.map Prod.snd ∧ Selection src step keys pl n ps)
    {keys : List Key} (hkeys : keys.Pairwise (· < ·)) {pl : Place} :
  ∀ {runs : List (Slot × ℕ × ℕ)} {refs refs' : Refs} {b b' : Body} {out : List Cid},
    (∀ run ∈ runs, run.1.subtree.isSome) →
    (∀ run ∈ runs, ∀ i, run.1 = .ofSubtree i → i ≤ b.size) →
    runs.Pairwise (fun run next => run.1 ≠ next.1) →
    passRuns pass keys pl runs refs b = (.ok out, b', refs') →
    ∃ ps, out = ps.map Prod.snd ∧ RunsSelect src step keys pl b runs ps
  | [], _, _, _, _, _, _, _, _, heq => by
      cases heq
      exact ⟨[], rfl, .nil⟩
  | (slot, start, stop) :: runs, refs, refs', b, b', out, hsome, hle, hne, heq => by
      obtain ⟨i, hslot⟩ := Option.isSome_iff_exists.mp (hsome _ List.mem_cons_self)
      have hi := Slot.subtree_eq_some.mp hslot
      have hsize := hle _ List.mem_cons_self i hi
      obtain ⟨hfirst, hrest⟩ := List.pairwise_cons.mp hne
      have hsome' := fun run hrun => hsome run (List.mem_cons_of_mem _ hrun)
      have hle' := fun run hrun => hle run (List.mem_cons_of_mem _ hrun)
      rw [passRuns] at heq
      dsimp only at hslot
      rw [hslot] at heq
      dsimp only at heq
      split at heq
      · rename_i habsent
        obtain ⟨ps, rfl, hps⟩ := passRuns_select hpass hkeys hsome' hle' hrest heq
        exact ⟨ps, rfl, hps.cons_absent hi (Child.isAbsent_iff.mp habsent)⟩
      · rename_i hpresent
        have hchild : (b.childAt i pl).1 ≠ .absent := mt Child.isAbsent_iff.mpr hpresent
        split at heq
        · cases heq
        · rename_i out₁ child refs₁ hrun
          have hsorted : ((keys.take stop).drop start).Pairwise (· < ·) :=
            hkeys.sublist ((List.drop_sublist _ _).trans (List.take_sublist _ _))
          obtain ⟨qs, rfl, hqs⟩ := hpass hchild hsorted hrun
          split at heq
          · cases heq
          · rename_i more body refs₂ hmore
            cases heq
            have hbody := b.size_setChildAt child i
            obtain ⟨ps, rfl, hps⟩ := passRuns_select hpass hkeys hsome'
              (by rwa [hbody]) hrest hmore
            refine ⟨under i qs ++ ps, ?_, ?_⟩
            · rw [List.map_append, under, List.map_map]
              rfl
            · apply RunsSelect.cons hi hchild hfirst hqs
              exact hps.of_setChildAt hi hsize hfirst hle'

omit [Hashing] in
theorem mem_runKeys {keys : List Key} {run : Slot × ℕ × ℕ} :
  key ∈ runKeys keys run ↔ ∃ k, run.2.1 ≤ k ∧ k < run.2.2 ∧ keys[k]? = some key
  := by
  rw [runKeys, List.mem_iff_getElem?]
  simp only [List.getElem?_drop, List.getElem?_take]
  constructor
  · rintro ⟨j, hj⟩
    split_ifs at hj with hlt
    exact ⟨run.2.1 + j, Nat.le_add_right _ _, hlt, hj⟩
  · rintro ⟨k, hstart, hstop, hk⟩
    use k - run.2.1
    rw [Nat.add_sub_cancel' hstart, if_pos hstop, hk]

section Node

variable {keys : List Key} {pl : Place} {cid : Option Cid} {h : ℕ} {b : Body}
  {runs : List (Slot × ℕ × ℕ)} {ps : List (List ℕ × Cid)}

variable {i : ℕ} {key : Key}

omit [Hashing] in
/-- A key that continues into a subtree is in a run of that subtree. -/
theorem RunsExact.run_of_next (hruns : RunsExact (keys.map fun key => (step b key).2) runs)
    (hkey : key ∈ keys) (hnext : step.next b key = some i) :
  ∃ run ∈ runs, run.1 = .ofSubtree i ∧ key ∈ runKeys keys run
  := by
  obtain ⟨k, hk⟩ := List.mem_iff_getElem?.mp hkey
  have hslot : (keys.map fun key => (step b key).2)[k]? = some (some (.ofSubtree i)) := by
    rw [List.getElem?_map, hk, Option.map_some, ProofStep.next_eq_some.mp hnext]
  obtain ⟨run, hrun, hi, hstart, hstop⟩ := hruns.covers k _ hslot
    (Option.isSome_iff_exists.mpr ⟨i, Slot.subtree_eq_some.mpr rfl⟩)
  exact ⟨run, hrun, hi, mem_runKeys.mpr ⟨k, hstart, hstop, hk⟩⟩

omit [Hashing] in
/-- Every key of a run is one of the keys, and continues into the subtree of the run. -/
theorem RunsExact.next_of_run (hruns : RunsExact (keys.map fun key => (step b key).2) runs)
    {run : Slot × ℕ × ℕ} (hrun : run ∈ runs) (hkey : key ∈ runKeys keys run)
    (hi : run.1 = .ofSubtree i) :
  key ∈ keys ∧ step.next b key = some i
  := by
  obtain ⟨k, hstart, hstop, hk⟩ := mem_runKeys.mp hkey
  have hslot := hruns.within run hrun k hstart hstop
  rw [List.getElem?_map, hk, Option.map_some] at hslot
  refine ⟨List.mem_of_getElem? hk, ?_⟩
  rw [ProofStep.next_eq_some, Option.some.inj hslot, hi]

omit [Hashing] in
/-- The subtree of a run is one of the node. -/
theorem RunsExact.index_le {target : Body → Key → ℕ}
    (hruns : RunsExact (keys.map fun key => (step b key).2) runs) (hmono : step.Monotone target)
    {run : Slot × ℕ × ℕ} (hrun : run ∈ runs) (hi : run.1 = .ofSubtree i) :
  i ≤ b.size
  := by
  have hne := hruns.nonempty run hrun
  have hwithin := hruns.within run hrun run.2.1 le_rfl hne
  rw [List.getElem?_map, Option.map_eq_some_iff] at hwithin
  obtain ⟨key, hkey, -⟩ := hwithin
  have hmem : key ∈ runKeys keys run := mem_runKeys.mpr ⟨_, le_rfl, hne, hkey⟩
  rw [hmono.next (hruns.next_of_run hrun hmem hi).2]
  exact hmono.le_size b key

/-- A rule followed from a loaded node selects the node itself if it says so. -/
theorem Follows.own_subset {l : List (List ℕ × Cid)}
    (hfollows : Follows src step key pl (.node cid h b) l) :
  ∀ x ∈ step.own cid b key, x ∈ l
  := by
  intro x hx
  cases hfollows with
  | stop _ => exact hx
  | down _ _ _ => exact List.mem_append_left _ hx

/-- The node itself, if a rule selects it for any key, and what is selected for the runs are what
following the rule for each key selects. -/
theorem RunsSelect.node (hruns : RunsExact (keys.map fun key => (step b key).2) runs)
    (hselect : RunsSelect src step keys pl b runs ps) :
  Selection src step keys pl (.node cid h b)
    ((if keys.any fun key => (step b key).1 then cid.toList.map fun c => ([], c) else []) ++ ps)
  := by
  have hfollows : ∀ key ∈ keys, ∃ l, Follows src step key pl (.node cid h b) l := by
    intro key hkey
    by_cases hnext : ∃ i, step.next b key = some i ∧ (b.childAt i pl).1 ≠ .absent
    · obtain ⟨i, hi, hchild⟩ := hnext
      obtain ⟨run, hrun, hslot, hmem⟩ := hruns.run_of_next hkey hi
      obtain ⟨l, hl⟩ := hselect.follows run hrun i hslot hchild key hmem
      exact ⟨_, .down hi hchild hl⟩
    · refine ⟨_, .stop fun i hi => ?_⟩
      by_contra hchild
      exact hnext ⟨i, hi, hchild⟩
  have hown : ∀ x, x ∈ (if keys.any fun key => (step b key).1 then
      cid.toList.map fun c => (([] : List ℕ), c) else []) ↔ ∃ key ∈ keys, x ∈ step.own cid b key := by
    intro x
    simp only [ProofStep.own, List.mem_ite_nil_right, List.any_eq_true]
    constructor
    · rintro ⟨⟨key, hkey, hinc⟩, hx⟩
      exact ⟨key, hkey, hinc, hx⟩
    · rintro ⟨key, hkey, hinc, hx⟩
      exact ⟨⟨key, hkey, hinc⟩, hx⟩
  constructor
  case follows => exact hfollows
  case nodup =>
    rw [List.map_append, List.nodup_append]
    refine ⟨?_, hselect.nodup, ?_⟩
    · split_ifs
      · cases cid <;> simp
      · exact .nil
    · intro p hp q hq heq
      obtain ⟨x, hx, rfl⟩ := List.mem_map.mp hp
      obtain ⟨y, hy, rfl⟩ := List.mem_map.mp hq
      obtain ⟨key, -, hx⟩ := (hown x).mp hx
      obtain ⟨run, -, i, -, -, key', -, l, -, hl⟩ := (hselect.mem_iff y).mp hy
      obtain ⟨q, hq, -⟩ := mem_under.mp hl
      rw [(ProofStep.mem_own.mp hx).2.1, hq] at heq
      cases heq
  case mem_iff =>
    intro x
    rw [List.mem_append, hown, hselect.mem_iff]
    constructor
    · rintro (⟨key, hkey, hx⟩ | ⟨run, hrun, i, hi, hchild, key, hkey, l, hl, hx⟩)
      · obtain ⟨l, hl⟩ := hfollows key hkey
        exact ⟨key, hkey, l, hl, hl.own_subset x hx⟩
      · obtain ⟨hmem, hnext⟩ := hruns.next_of_run hrun hkey hi
        exact ⟨key, hmem, _, .down hnext hchild hl, List.mem_append_right _ hx⟩
    · rintro ⟨key, hkey, l, hl, hx⟩
      cases hl with
      | stop _ => exact .inl ⟨key, hkey, hx⟩
      | down hnext hchild hl =>
          rcases List.mem_append.mp hx with hx | hx
          · exact .inl ⟨key, hkey, hx⟩
          · obtain ⟨run, hrun, hi, hmem⟩ := hruns.run_of_next hkey hnext
            exact .inr ⟨run, hrun, _, hi, hchild, key, hmem, _, hl, hx⟩

end Node

/-- A pass over the tree from a node for several keys selects, each once, the nodes that following
the rule for each of them selects. -/
theorem proofPass_select (hstep : step ∈ proofSteps) :
  ∀ {fuel : ℕ} {keys : List Key} {refs refs' : Refs} {n n' : Child} {pl : Place} {out : List Cid},
    n ≠ .absent → keys.Pairwise (· < ·) →
    proofPass src step fuel keys refs n pl = (.ok out, n', refs') →
    ∃ ps, out = ps.map Prod.snd ∧ Selection src step keys pl n ps
  | 0, _, _, _, _, _, _, _, _, _, heq => by cases heq
  | fuel + 1, keys, refs, refs', n, n', pl, out, hn, hkeys, heq => by
      have hload := ensureLoaded_traversed src refs n pl
      rw [proofPass] at heq
      split at heq
      · cases heq
      · rename_i cid h body refs₁ hloaded
        rw [hloaded] at hload
        dsimp only at heq
        split at heq
        · cases heq
        · rcases hruns : passRuns (proofPass src step fuel) keys pl
            (((keys.map (step body)).map Prod.snd).zipIdx.foldl addToRuns []) refs₁ body
            with ⟨r, body', refs₂⟩
          rw [hruns] at heq
          cases r with
          | error e => cases heq
          | ok more =>
              cases heq
              obtain ⟨target, hmono⟩ := proofSteps_monotone hstep
              have hexact := runsOf_exact _ (hmono.contiguous body hkeys)
              rw [List.map_map] at hruns
              obtain ⟨ps, rfl, hps⟩ := passRuns_select (proofPass_select hstep) hkeys
                hexact.subtree (fun run hrun i hi => hexact.index_le hmono hrun hi) hexact.distinct
                hruns
              refine ⟨_, ?_, (hps.node hexact).of_loads hstep hload.loads⟩
              rw [List.map_append, List.any_map]
              split_ifs with hinc hinc' hinc'
              · cases cid <;> rfl
              · exact absurd hinc hinc'
              · exact absurd hinc' hinc
              · rfl
      · rename_i hnode hloaded
        rw [hloaded] at hload
        have hstub := ensureLoaded_ne_stub hloaded
        cases heq
        have habsent := hload.loads.isAbsent
        cases n' with
        | absent => exact absurd (Child.isAbsent_iff.mp habsent.symm) hn
        | stub cid h => exact absurd rfl (hstub cid h)
        | node cid h body => exact absurd rfl (hnode cid h body)

end Follows

/-! ### Collecting succeeds -/

mutual

/-- Every node in memory has its CID. -/
def Child.Flushed : Child → Prop
  | .absent => True
  | .stub _ _ => True
  | .node cid _ body => cid.isSome ∧ body.Flushed

/-- Every node in the contents of a node has its CID. -/
def Body.Flushed : Body → Prop
  | .edge c => c.Flushed
  | .entry c _ _ rest => c.Flushed ∧ rest.Flushed

end

theorem stubAt_flushed (h : ℕ) (c : Option Cid) :
  (stubAt h c).Flushed
  := by
  cases c <;> simp [stubAt, Child.Flushed]

theorem stubBody_flushed (h : ℕ) :
  ∀ (es : List (Key × EntryData)) (left : Option Cid), (stubBody h left es).Flushed
  | [], left => stubAt_flushed h left
  | (_, ed) :: es, left => ⟨stubAt_flushed h left, stubBody_flushed h es ed.right⟩

theorem Body.Flushed.childAt :
  ∀ {b : Body}, b.Flushed → ∀ (i : ℕ) (pl : Place), (b.childAt i pl).1.Flushed
  | .edge _, h, _, _ => h
  | .entry _ _ _ _, h, 0, _ => h.1
  | .entry _ k _ _, h, i + 1, pl => Body.Flushed.childAt h.2 i (pl.after k)

section Success

variable [Hashing] {src : BlockSource}

theorem Reads.flushed {pl : Place} {cid : Cid} {h h' : ℕ} {body : Body}
    (hread : Reads src pl cid h h' body) :
  body.Flushed
  := by
  obtain ⟨data, nd, -, -, hpopulate⟩ := hread
  obtain ⟨ks, -, rfl, -⟩ := populateNode_ok hpopulate
  apply stubBody_flushed

theorem Reads.depth {pl : Place} {cid : Cid} {h h' : ℕ} {body : Body}
    (hread : Reads src pl cid h h' body) :
  body.depth = 0
  := by
  obtain ⟨data, nd, -, -, hpopulate⟩ := hread
  obtain ⟨ks, -, rfl, -⟩ := populateNode_ok hpopulate
  apply stubBody_depth

mutual

theorem Loads.flushed :
  ∀ {pl : Place} {c c' : Child}, Loads src pl c c' → c.Flushed → c'.Flushed
  | _, _, _, .refl, h => h
  | _, _, _, .read hread hbody, _ => ⟨rfl, hbody.flushed hread.flushed⟩
  | _, _, _, .node hbody, h => ⟨h.1, hbody.flushed h.2⟩

theorem LoadsBody.flushed :
  ∀ {pl : Place} {b b' : Body}, LoadsBody src pl b b' → b.Flushed → b'.Flushed
  | _, _, _, .edge hc, h => hc.flushed h
  | _, _, _, .entry hc hrest, h => ⟨hc.flushed h.1, hrest.flushed h.2⟩

end

/-- `Apart refs refs' links`: outside the given links the counts are the same. -/
def Apart (refs refs' : Refs) (links : List Cid) : Prop := ∀ c, c ∉ links → refs' c = refs c

/-- A node whose rest can be read is loaded, and counts only links that remained. -/
theorem Remains.ensureLoaded {pl : Place} {n : Child} {refs : Refs} {links : List Cid}
    (h : Remains src pl n refs links) (hn : n ≠ .absent) (hflushed : n.Flushed) :
  ∃ cid hh body refs' more,
    Mst.ensureLoaded src refs n pl = (.ok (), .node cid hh body, refs')
      ∧ RemainsBody src pl body refs' more ∧ more ⊆ links ∧ Apart refs refs' links
      ∧ cid.isSome ∧ body.Flushed
      ∧ ∀ fuel, n.depth + (maxLevels + 2 - pl.depth) ≤ fuel →
        body.depth + (maxLevels + 2 - (pl.depth + 1)) + 1 ≤ fuel
  := by
  obtain ⟨hfetches, hnodup, huncounted⟩ := h
  cases hfetches with
  | absent => exact absurd rfl hn
  | @node _ cid hh body _ hbody =>
      refine ⟨cid, hh, body, refs, links, rfl, ⟨hbody, hnodup, huncounted⟩, fun _ h => h,
        fun _ _ => rfl, hflushed.1, hflushed.2, ?_⟩
      intro fuel hfuel
      rw [Child.depth] at hfuel
      omega
  | @read _ cid hh h' body more hdepth hread hbody =>
      rw [List.nodup_append'] at hnodup
      obtain ⟨hnodup, hmore, hdisjoint⟩ := hnodup
      have hbodyUncounted : Uncounted refs body.cids := fun x hx =>
        huncounted x (List.mem_append_left _ hx)
      have hmoreUncounted : Uncounted refs more := fun x hx =>
        huncounted x (List.mem_append_right _ hx)
      have hzero := hread.depth
      have hbodyFlushed := hread.flushed
      obtain ⟨data, nd, hsrc, hdecode, hpopulate⟩ := hread
      have hcids := populateNode_cids hpopulate
      have hnone : (countLinks refs nd.children).1 = none := by
        rw [countLinks_iff, ← hcids]
        exact ⟨hnodup, hbodyUncounted⟩
      have hmark := countLinks_mark hnone
      rcases hcount : countLinks refs nd.children with ⟨twice, linked, refs'⟩
      rw [hcount] at hnone hmark
      obtain rfl : twice = none := hnone
      obtain rfl : refs' = mark refs nd.children := hmark
      refine ⟨some cid, h', body, mark refs nd.children, more, ?_, ⟨hbody, hmore, ?_⟩,
        List.subset_append_right _ _, ?_, rfl, hbodyFlushed, ?_⟩
      · rw [Mst.ensureLoaded, load, if_neg (Nat.not_lt.mpr hdepth), hsrc]
        simp only [hdecode, hcount, hpopulate]
      · rw [← hcids]
        exact hmoreUncounted.mark hdisjoint.symm
      · intro c hc
        rw [mark, if_neg]
        intro hmem
        rw [← hcids] at hmem
        exact hc (List.mem_append_left _ hmem)
      · intro fuel hfuel
        rw [Child.depth] at hfuel
        omega

/-- Following runs of keys into different subtrees succeeds if following them into each does. -/
theorem passRuns_ok
    {pass : List Key → Refs → Child → Place → Except MstError (List Cid) × Child × Refs}
    (fuel : ℕ)
    (hpass : ∀ {keys refs n pl links}, keys.Pairwise (· < ·) → Remains src pl n refs links →
      n ≠ .absent → n.Flushed → n.depth + (maxLevels + 2 - pl.depth) ≤ fuel →
      ∃ out n' refs' links', pass keys refs n pl = (.ok out, n', refs')
        ∧ Remains src pl n' refs' links' ∧ links' ⊆ links ∧ Apart refs refs' links)
    {keys : List Key} (hkeys : keys.Pairwise (· < ·)) {pl : Place} :
  ∀ {runs : List (Slot × ℕ × ℕ)} {refs : Refs} {b : Body} {links : List Cid},
    RemainsBody src pl b refs links →
    (∀ run ∈ runs, ∀ i, run.1 = .ofSubtree i → i ≤ b.size ∧ (b.childAt i pl).1.Flushed
      ∧ (b.childAt i pl).1.depth + (maxLevels + 2 - (pl.depth + 1)) ≤ fuel) →
    runs.Pairwise (fun run next => run.1 ≠ next.1) →
    ∃ out b' refs' links', passRuns pass keys pl runs refs b = (.ok out, b', refs')
      ∧ RemainsBody src pl b' refs' links' ∧ links' ⊆ links ∧ Apart refs refs' links
  | [], refs, b, links, h, _, _ =>
      ⟨[], b, refs, links, rfl, h, fun _ hx => hx, fun _ _ => rfl⟩
  | (slot, start, stop) :: runs, refs, b, links, h, hruns, hne => by
      have hruns' := fun run hrun => hruns run (List.mem_cons_of_mem _ hrun)
      obtain ⟨hfirst, hrest⟩ := List.pairwise_cons.mp hne
      rw [passRuns]
      rcases hslot : slot.subtree with _ | i
      · exact passRuns_ok fuel hpass hkeys h hruns' hrest
      · dsimp only
        split_ifs with habsent
        · exact passRuns_ok fuel hpass hkeys h hruns' hrest
        · have hi := Slot.subtree_eq_some.mp hslot
          obtain ⟨hle, hflushed, hfuel⟩ := hruns _ List.mem_cons_self i hi
          obtain ⟨own, others, hown, hperm, hset⟩ := h.fetches.childAt i
          obtain ⟨hnodupOwn, hnodupOthers, hdisjoint⟩ :=
            List.nodup_append'.mp (hperm.nodup_iff.mp h.nodup)
          have hownUncounted : Uncounted refs own := fun x hx =>
            h.uncounted x (hperm.symm.subset (List.mem_append_left _ hx))
          have hchild : (b.childAt i pl).1 ≠ .absent := mt Child.isAbsent_iff.mpr habsent
          obtain ⟨out, child, refs₁, own', hok, hremains, hsub, hapart⟩ :=
            hpass (hkeys.sublist ((List.drop_sublist start _).trans (List.take_sublist stop _)))
              ⟨hown, hnodupOwn, hownUncounted⟩ hchild hflushed (by rwa [Body.childAt_depth])
          obtain ⟨links₁, hfetches, hperm₁⟩ := hset child own' hremains.fetches
          have hbody : RemainsBody src pl (b.setChildAt child i) refs₁ links₁ := by
            refine ⟨hfetches, ?_, ?_⟩
            · rw [hperm₁.nodup_iff, List.nodup_append']
              exact ⟨hremains.nodup, hnodupOthers, fun x hx => hdisjoint (hsub hx)⟩
            · intro x hx
              rcases List.mem_append.mp (hperm₁.subset hx) with hx | hx
              · exact hremains.uncounted x hx
              · rw [hapart x fun hmem => hdisjoint hmem hx]
                exact h.uncounted x (hperm.symm.subset (List.mem_append_right _ hx))
          have hsub₁ : links₁ ⊆ links := by
            intro x hx
            apply hperm.symm.subset
            rcases List.mem_append.mp (hperm₁.subset hx) with hx | hx
            · exact List.mem_append_left _ (hsub hx)
            · exact List.mem_append_right _ hx
          obtain ⟨more, b', refs₂, links', hmore, hremains', hsub', hapart'⟩ :=
            passRuns_ok fuel hpass hkeys hbody (by
              intro run hrun j hj
              obtain ⟨hlej, hrest⟩ := hruns' run hrun j hj
              have hij : i ≠ j := by
                rintro rfl
                exact hfirst run hrun (hi.trans hj.symm)
              rw [Body.size_setChildAt, Body.childAt_setChildAt_ne pl hij hle hlej]
              exact ⟨hlej, hrest⟩) hrest
          refine ⟨out ++ more, b', refs₂, links', ?_, hremains', fun x hx => hsub₁ (hsub' hx), ?_⟩
          · rw [hok]
            dsimp only
            rw [hmore]
          · intro x hx
            rw [hapart' x fun hmem => hx (hsub₁ hmem)]
            apply hapart x
            intro hmem
            exact hx (hperm.symm.subset (List.mem_append_left _ hmem))

/-- A pass over a flushed tree whose rest can be read succeeds, and the rest can still be
read. -/
theorem proofPass_ok {step : ProofStep} (hstep : step ∈ proofSteps) :
  ∀ {fuel : ℕ} {keys : List Key} {refs : Refs} {n : Child} {pl : Place} {links : List Cid},
    keys.Pairwise (· < ·) → Remains src pl n refs links → n ≠ .absent → n.Flushed →
    n.depth + (maxLevels + 2 - pl.depth) ≤ fuel →
    ∃ out n' refs' links', proofPass src step fuel keys refs n pl = (.ok out, n', refs')
      ∧ Remains src pl n' refs' links' ∧ links' ⊆ links ∧ Apart refs refs' links
  | 0, _, _, _, _, _, _, h, hn, hflushed, hfuel => by
      obtain ⟨_, _, _, _, _, -, -, -, -, -, -, hbody⟩ := h.ensureLoaded hn hflushed
      exact absurd (hbody 0 hfuel) (by omega)
  | fuel + 1, keys, refs, n, pl, links, hkeys, h, hn, hflushed, hfuel => by
      obtain ⟨cid, hh, body, refs₁, more, hload, hremains, hsub, hapart, hcid, hbody, hdepth⟩ :=
        h.ensureLoaded hn hflushed
      have hbound := hdepth (fuel + 1) hfuel
      obtain ⟨target, hmono⟩ := proofSteps_monotone hstep
      have hexact := runsOf_exact _ (hmono.contiguous body hkeys)
      obtain ⟨out, body', refs₂, links', hruns, hremains', hsub', hapart'⟩ :=
        passRuns_ok fuel (proofPass_ok hstep) hkeys hremains (by
          intro run hrun i hi
          have hchild := body.depth_childAt i pl
          exact ⟨hexact.index_le hmono hrun hi, hbody.childAt i pl, by omega⟩) hexact.distinct
      have hsome : ∀ b : Bool, (b && cid.isNone) = false := by
        cases cid with
        | none => cases hcid
        | some cid => exact fun b => Bool.and_false b
      refine ⟨(if (keys.map (step body)).any Prod.fst then cid.toList else []) ++ out,
        .node cid hh body', refs₂, links', ?_,
        ⟨.node hremains'.fetches, hremains'.nodup, hremains'.uncounted⟩,
        fun x hx => hsub (hsub' hx), ?_⟩
      · rw [runsOf] at hruns
        rw [proofPass, hload]
        dsimp only
        rw [List.map_map, hsome, if_neg Bool.false_ne_true, Function.comp_def, hruns]
        rfl
      · intro x hx
        rw [hapart' x fun hmem => hx (hsub hmem)]
        exact hapart x hx

end Success

/-! ### Covering proofs -/

section Covering

theorem sorted_dedup_insertionSort {α : Type} [LinearOrder α] [DecidableEq α] (l : List α) :
  ((l.insertionSort (· ≤ ·)).dedup).Pairwise (· < ·)
  := by
  have hle : (l.insertionSort (· ≤ ·)).dedup.Pairwise (· ≤ ·) :=
    (List.pairwise_insertionSort (· ≤ ·) l).sublist (List.dedup_sublist _)
  have hne := List.nodup_dedup (l.insertionSort (· ≤ ·))
  exact (hle.and hne).imp fun h => lt_of_le_of_ne h.1 h.2

theorem mem_dedup_insertionSort {α : Type} [LinearOrder α] [DecidableEq α] {l : List α} {x : α} :
  x ∈ (l.insertionSort (· ≤ ·)).dedup ↔ x ∈ l
  := by
  rw [List.mem_dedup, List.mem_insertionSort]

variable [Hashing]

/-- `t.Selects src key c`: one of the rules of a covering proof, followed from the root for a key
alone, selects the node with the CID `c`. For a tree without nodes it is the empty node. -/
def DetachedTree.Selects (t : DetachedTree) (src : BlockSource) (key : Key) (c : Cid) : Prop :=
  if t.root.isAbsent then c = emptyNodeBlock.1
  else ∃ step ∈ proofSteps, ∃ l, Follows src step key .root t.root l ∧ c ∈ l.map Prod.snd

/-- `t.CoversExactly src keys out`: the list `out` is sorted, without duplicates, and holds the
nodes that are selected for each of the keys alone; for each of them every rule can be followed
from the root. -/
structure DetachedTree.CoversExactly (t : DetachedTree) (src : BlockSource) (keys : List Key)
    (out : List Cid) : Prop where
  sorted : out.Pairwise (· < ·)
  mem_iff : ∀ c, c ∈ out ↔ ∃ key ∈ keys, t.Selects src key c
  follows : t.root ≠ .absent → ∀ key ∈ keys, ∀ step ∈ proofSteps,
    ∃ l, Follows src step key .root t.root l

/-- `PassesOnce src step`: whatever keys a pass is for, the runs it groups them into at a node are
exact, and the nodes it selects are those that the rule selects for each key alone, each once. -/
structure PassesOnce (src : BlockSource) (step : ProofStep) : Prop where
  runs : ∀ (b : Body) (keys : List Key), keys.Pairwise (· < ·) →
    RunsExact (keys.map fun key => (step b key).2) (runsOf (keys.map fun key => (step b key).2))
  once : ∀ {fuel keys refs refs' n n' pl out}, n ≠ .absent → keys.Pairwise (· < ·) →
    proofPass src step fuel keys refs n pl = (.ok out, n', refs') →
    ∃ ps, out = ps.map Prod.snd ∧ Selection src step keys pl n ps

variable {src : BlockSource}

theorem proofPasses_select {keys : List Key} (hkeys : keys.Pairwise (· < ·)) :
  ∀ {steps : List ProofStep} {refs refs' : Refs} {root root' : Child} {out : List Cid},
    (∀ step ∈ steps, step ∈ proofSteps) → root ≠ .absent →
    proofPasses src keys steps refs root = (.ok out, root', refs') →
    (∀ key ∈ keys, ∀ step ∈ steps, ∃ l, Follows src step key .root root l)
    ∧ ∀ c, c ∈ out ↔ ∃ key ∈ keys, ∃ step ∈ steps, ∃ l, Follows src step key .root root l
        ∧ c ∈ l.map Prod.snd
  | [], _, _, _, _, _, _, _, heq => by
      cases heq
      simp
  | step :: steps, refs, refs', root, root', out, hsteps, hroot, heq => by
      have hstep := hsteps step List.mem_cons_self
      have hsteps' := fun s hs => hsteps s (List.mem_cons_of_mem step hs)
      have htraversed := proofPass_traversed src step root.reach keys refs root .root
      rw [proofPasses] at heq
      split at heq
      · cases heq
      · rename_i first root₁ refs₁ hpass
        rw [hpass] at htraversed
        have hloads := htraversed.loads
        split at heq
        · cases heq
        · rename_i more root₂ refs₂ hmore
          cases heq
          obtain ⟨ps, rfl, hps⟩ := proofPass_select hstep hroot hkeys hpass
          have hroot₁ : root₁ ≠ .absent := by
            intro habsent
            have hsame := hloads.isAbsent
            rw [habsent] at hsame
            exact hroot (Child.isAbsent_iff.mp hsame.symm)
          obtain ⟨hfollows, hmem⟩ := proofPasses_select hkeys hsteps' hroot₁ hmore
          constructor
          · intro key hkey s hs
            rcases List.mem_cons.mp hs with rfl | hs
            · exact hps.follows key hkey
            · obtain ⟨l, hl⟩ := hfollows key hkey s hs
              exact ⟨l, hl.of_loads (hsteps' s hs) hloads⟩
          · intro c
            rw [List.mem_append, hmem]
            constructor
            · rintro (hc | ⟨key, hkey, s, hs, l, hl, hc⟩)
              · obtain ⟨x, hx, rfl⟩ := List.mem_map.mp hc
                obtain ⟨key, hkey, l, hl, hx⟩ := (hps.mem_iff x).mp hx
                exact ⟨key, hkey, step, List.mem_cons_self, l, hl, List.mem_map_of_mem hx⟩
              · exact ⟨key, hkey, s, List.mem_cons_of_mem step hs, l,
                  hl.of_loads (hsteps' s hs) hloads, hc⟩
            · rintro ⟨key, hkey, s, hs, l, hl, hc⟩
              rcases List.mem_cons.mp hs with rfl | hs
              · left
                obtain ⟨x, hx, rfl⟩ := List.mem_map.mp hc
                exact List.mem_map_of_mem ((hps.mem_iff x).mpr ⟨key, hkey, l, hl, hx⟩)
              · exact .inr ⟨key, hkey, s, hs, l, hl.loads (hsteps' s hs) hloads, hc⟩

/-- The passes over a flushed tree whose rest can be read succeed. -/
theorem proofPasses_ok {keys : List Key} (hkeys : keys.Pairwise (· < ·)) :
  ∀ {steps : List ProofStep} {refs : Refs} {root : Child} {links : List Cid},
    (∀ step ∈ steps, step ∈ proofSteps) → Remains src .root root refs links → root ≠ .absent →
    root.Flushed → ∃ out, (proofPasses src keys steps refs root).1 = .ok out
  | [], _, _, _, _, _, _, _ => ⟨[], rfl⟩
  | step :: steps, refs, root, links, hsteps, h, hroot, hflushed => by
      have htraversed := proofPass_traversed src step root.reach keys refs root .root
      have hfuel : root.depth + (maxLevels + 2 - Place.root.depth) ≤ root.reach := by
        rw [Child.reach, Place.root]
        omega
      obtain ⟨out, root₁, refs₁, links₁, hpass, hremains, -⟩ :=
        proofPass_ok (hsteps step List.mem_cons_self) hkeys h hroot hflushed hfuel
      rw [hpass] at htraversed
      have hloads := htraversed.loads
      have hroot₁ : root₁ ≠ .absent := by
        intro habsent
        have hsame := hloads.isAbsent
        rw [habsent] at hsame
        exact hroot (Child.isAbsent_iff.mp hsame.symm)
      obtain ⟨more, hmore⟩ := proofPasses_ok hkeys
        (fun s hs => hsteps s (List.mem_cons_of_mem step hs)) hremains hroot₁
        (hloads.flushed hflushed)
      rcases hrest : proofPasses src keys steps refs₁ root₁ with ⟨r, root₂, refs₂⟩
      rw [hrest] at hmore
      subst hmore
      exact ⟨out ++ more, by rw [proofPasses, hpass]; dsimp only; rw [hrest]⟩

theorem DetachedTree.coveringProof_covers {t : DetachedTree} {keys : List Key} {out : List Cid}
    (h : (t.coveringProof src keys).1 = .ok out) :
  t.CoversExactly src keys out
  := by
  rw [coveringProof] at h
  split at h
  · cases h
  · dsimp only at h
    split at h
    · rename_i hempty
      cases h
      have hnone : ∀ key, key ∉ keys := by
        intro key hkey
        rw [← mem_dedup_insertionSort, List.isEmpty_iff.mp hempty] at hkey
        cases hkey
      refine ⟨.nil, ?_, fun _ key hkey => absurd hkey (hnone key)⟩
      intro c
      simp [hnone]
    · rename_i hempty
      split at h
      · rename_i habsent
        cases h
        obtain ⟨key, hkey⟩ := List.exists_mem_of_ne_nil _ (mt List.isEmpty_iff.mpr hempty)
        refine ⟨List.pairwise_singleton _ _, ?_, fun hroot =>
          absurd (Child.isAbsent_iff.mp habsent) hroot⟩
        intro c
        rw [List.mem_singleton]
        constructor
        · rintro rfl
          refine ⟨key, mem_dedup_insertionSort.mp hkey, ?_⟩
          rw [Selects, if_pos habsent]
        · rintro ⟨_, -, hc⟩
          rwa [Selects, if_pos habsent] at hc
      · rename_i hpresent
        rcases hpasses : proofPasses src ((keys.insertionSort (· ≤ ·)).dedup)
          [keyStep, leftSibStep, rightSibStep] t.refs t.root with ⟨r, root, refs⟩
        rw [hpasses] at h
        cases r with
        | error e => cases h
        | ok cids =>
            cases h
            have hroot : t.root ≠ .absent := mt Child.isAbsent_iff.mpr hpresent
            obtain ⟨hfollows, hmem⟩ := proofPasses_select (sorted_dedup_insertionSort keys)
              (fun _ hs => hs) hroot hpasses
            refine ⟨sorted_dedup_insertionSort cids, ?_, fun _ key hkey =>
              hfollows key (mem_dedup_insertionSort.mpr hkey)⟩
            intro c
            rw [mem_dedup_insertionSort, hmem]
            simp only [Selects, if_neg hpresent, mem_dedup_insertionSort]

theorem DetachedTree.coveringProof_ok {t : DetachedTree} (keys : List Key)
    (hflushed : t.root.Flushed) {l : List (Key × Cid)} (hentries : (t.entries src).1 = .ok l) :
  ∃ out, (t.coveringProof src keys).1 = .ok out
  := by
  rw [entries, walk] at hentries
  rw [coveringProof]
  split_ifs at hentries with hp habsent
  · cases hentries
  · rw [if_neg hp]
    dsimp only
    rw [if_pos habsent]
    split_ifs
    · exact ⟨[], rfl⟩
    · exact ⟨[emptyNodeBlock.1], rfl⟩
  · rw [if_neg hp]
    dsimp only
    rw [if_neg habsent]
    split_ifs
    · exact ⟨[], rfl⟩
    · rcases hwalk : walkNode src (fun result key val => .ok (result ++ [(key, val)])) t.root.reach []
        t.refs t.root .root with ⟨r, root, refs⟩
      rw [hwalk] at hentries
      obtain rfl : r = .ok l := hentries
      obtain ⟨links, hremains, -⟩ := walkNode_remains hwalk
      obtain ⟨out, hout⟩ := proofPasses_ok (sorted_dedup_insertionSort keys) (fun _ hs => hs)
        hremains (mt Child.isAbsent_iff.mpr habsent) hflushed
      rcases hpasses : proofPasses src ((keys.insertionSort (· ≤ ·)).dedup) proofSteps t.refs t.root
        with ⟨r, root', refs'⟩
      rw [hpasses] at hout
      subst hout
      rw [proofSteps] at hpasses
      exact ⟨_, by rw [hpasses]; rfl⟩

/-- Covering proofs of several keys are the union of those of each key. -/
theorem DetachedTree.coveringProof_exact (t : DetachedTree) (src : BlockSource) (keys : List Key) :
  (∀ out, (t.coveringProof src keys).1 = .ok out → t.CoversExactly src keys out)
  ∧ (t.root.Flushed → (∃ l, (t.entries src).1 = .ok l) →
      ∃ out, (t.coveringProof src keys).1 = .ok out)
  ∧ ∀ step ∈ proofSteps, PassesOnce src step
  := by
  refine ⟨fun _ h => coveringProof_covers h, ?_, ?_⟩
  · rintro hflushed ⟨l, hl⟩
    exact coveringProof_ok keys hflushed hl
  · intro step hstep
    obtain ⟨target, hmono⟩ := proofSteps_monotone hstep
    exact ⟨fun b keys hkeys => runsOf_exact _ (hmono.contiguous b hkeys), proofPass_select hstep⟩

end Covering

/-! ### A tree of two levels -/

namespace Covered

attribute [local instance] Hashing.checksum

/-- The key `c/x` for a letter `x`. -/
def key (x : UInt8) : Key := [0x63, 0x2f, x]

/-- A CID for a byte. -/
def cid (x : UInt8) : Cid := ⟨.drisl, .fill x⟩

/-- A flushed leaf with one entry. -/
def leaf (x : UInt8) : Child :=
  .node (some (cid x)) 0 (.entry .absent (key x) (cid 0) (.edge .absent))

/-- A flushed tree of `c/b`, `c/d` and `c/f`, with `c/d` in its root. -/
def tree : DetachedTree :=
  { DetachedTree.new with root := .node (some (cid 1)) 1 (.entry (leaf 0x62) (key 0x64) (cid 0)
      (.edge (leaf 0x66))) }

/-- The proof for `c/d` needs the leaves on both sides of it, that for `c/a` only the left one. -/
theorem tree_covers :
  tree.CoversExactly noBlocks [key 0x64, key 0x61, key 0x64] [cid 1, cid 0x62, cid 0x66]
    ∧ ∃ out, (tree.coveringProof noBlocks [key 0x67]).1 = .ok out
  := by
  constructor
  · apply (tree.coveringProof_exact noBlocks _).1
    decide +kernel
  · apply (tree.coveringProof_exact noBlocks _).2.1
    · simp [tree, leaf, Child.Flushed, Body.Flushed]
    · exact ⟨[(key 0x62, cid 0), (key 0x64, cid 0), (key 0x66, cid 0)], by decide +kernel⟩

end Covered

end Shrike.Mst
