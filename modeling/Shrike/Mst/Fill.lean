import Shrike.Mst.Preserve

/-!
# Filling in unread nodes

What a node's CID says about its contents holds for the nodes a mutation does not change.
A tree with its unread nodes filled in changes under a mutation as the tree itself does, so
what is proved of complete trees holds of partly read ones.
-/

namespace Shrike.Mst

/-! ### What CIDs stand for -/

section Cached

variable (P : Cid → Body → Prop)

mutual

/-- Every loaded node that carries a CID has contents that `P` relates to it. -/
def Child.Cached : Child → Prop
  | .absent => True
  | .stub _ _ => True
  | .node cid _ body => (∀ x ∈ cid, P x body) ∧ body.Cached

/-- Every loaded node in the contents of a node that carries a CID has contents that `P`
relates to it. -/
def Body.Cached : Body → Prop
  | .edge c => c.Cached
  | .entry c _ _ rest => c.Cached ∧ rest.Cached

end

variable {P}

theorem Child.cached_fresh {h : ℕ} {b : Body} (hb : b.Cached P) :
  (Child.node none h b).Cached P
  := by
  refine ⟨?_, hb⟩
  intro x hx
  cases hx

theorem trimNode_cached {h : ℕ} {b : Body} (hb : b.Cached P) :
  (trimNode h b).Cached P
  := by
  unfold trimNode
  split
  · trivial
  · apply Child.cached_fresh hb

mutual

theorem Split.cached {key : Key} :
  ∀ {c l r : Child} {released : List Cid}, Split key c l r released → c.Cached P →
    l.Cached P ∧ r.Cached P
  | _, _, _, _, .absent, _ => ⟨trivial, trivial⟩
  | _, _, _, _, .node hbody, ⟨_, hb⟩ => by
      obtain ⟨hl, hr⟩ := hbody.cached hb
      use trimNode_cached hl, trimNode_cached hr

theorem SplitBody.cached {key : Key} :
  ∀ {b l r : Body} {released : List Cid}, SplitBody key b l r released → b.Cached P →
    l.Cached P ∧ r.Cached P
  | _, _, _, _, .edge hc, hb => hc.cached hb
  | _, _, _, _, .skip _ hrest, ⟨hc, hb⟩ => by
      obtain ⟨hl, hr⟩ := hrest.cached hb
      use ⟨hc, hl⟩
  | _, _, _, _, .stop _ hc, ⟨hb, hrest⟩ => by
      obtain ⟨hl, hr⟩ := hc.cached hb
      use hl, hr

end

theorem Body.cached_first {b : Body} (hb : b.Cached P) :
  b.first.Cached P ∧ ∀ c : Child, c.Cached P → (b.setFirst c).Cached P
  := by
  cases b with
  | edge c => exact ⟨hb, fun _ hc => hc⟩
  | entry c k v rest => exact ⟨hb.1, fun _ hc => ⟨hc, hb.2⟩⟩

mutual

theorem Merge.cached :
  ∀ {l r n : Child} {released : List Cid}, Merge l r n released → l.Cached P → r.Cached P →
    n.Cached P
  | _, _, _, _, .left, _, hr => hr
  | _, _, _, _, .right, hl, _ => hl
  | _, _, _, _, .node hbody, ⟨_, hl⟩, ⟨_, hr⟩ => Child.cached_fresh (hbody.cached hl hr)

theorem MergeBody.cached :
  ∀ {l r b : Body} {released : List Cid}, MergeBody l r b released → l.Cached P → r.Cached P →
    b.Cached P
  | _, _, _, _, .edge hc, hl, hr =>
      (Body.cached_first hr).2 _ (hc.cached hl (Body.cached_first hr).1)
  | _, _, _, _, .entry hrest, ⟨hc, hl⟩, hr => ⟨hc, hrest.cached hl hr⟩

end

section Write

variable {key : Key} {val : Cid} {height : ℕ}

theorem freshChain_cached (n : ℕ) :
  (freshChain key val height n).Cached P
  := by
  induction n with
  | zero => exact Child.cached_fresh ⟨trivial, trivial⟩
  | succ n ih => exact Child.cached_fresh ih

theorem wrap_cached {c : Child} (hc : c.Cached P) (n : ℕ) :
  (wrap c n).Cached P
  := by
  induction n with
  | zero => exact hc
  | succ n ih => exact Child.cached_fresh ih

theorem InsertAt.cached :
  ∀ {b b' : Body} {released : List Cid}, InsertAt key val b b' released → b.Cached P → b'.Cached P
  | _, _, _, .edge hc, hb => hc.cached hb
  | _, _, _, .skip _ hrest, ⟨hc, hb⟩ => ⟨hc, hrest.cached hb⟩
  | _, _, _, .same, hb => hb
  | _, _, _, .stop _ hc, ⟨hb, hrest⟩ => by
      obtain ⟨hl, hr⟩ := hc.cached hb
      use hl, hr

mutual

theorem Insert.cached :
  ∀ {c c' : Child} {released : List Cid}, Insert key val height c c' released → c.Cached P →
    c'.Cached P
  | _, _, _, .absent, _ => freshChain_cached 0
  | _, _, _, .raise _ hbody, hc => Child.cached_fresh (hbody.cached (wrap_cached hc _))
  | _, _, _, .down _ hbody, ⟨_, hb⟩ => Child.cached_fresh (hbody.cached hb)
  | _, _, _, .level hbody, ⟨_, hb⟩ => Child.cached_fresh (hbody.cached hb)

theorem InsertSlot.cached {h : ℕ} :
  ∀ {c c' : Child} {released : List Cid}, InsertSlot key val height h c c' released →
    c.Cached P → c'.Cached P
  | _, _, _, .fresh, _ => freshChain_cached _
  | _, _, _, .insert _ hc, hb => hc.cached hb

theorem InsertBelow.cached {h : ℕ} :
  ∀ {b b' : Body} {released : List Cid}, InsertBelow key val height h b b' released →
    b.Cached P → b'.Cached P
  | _, _, _, .edge hc, hb => hc.cached hb
  | _, _, _, .skip _ hrest, ⟨hc, hb⟩ => ⟨hc, hrest.cached hb⟩
  | _, _, _, .stop _ hc, ⟨hb, hrest⟩ => ⟨hc.cached hb, hrest⟩

end

mutual

theorem Update.cached :
  ∀ {c c' : Child} {released : List Cid}, Update key val c c' released → c.Cached P → c'.Cached P
  | _, _, _, .node hbody, ⟨_, hb⟩ => Child.cached_fresh (hbody.cached hb)

theorem UpdateBody.cached :
  ∀ {b b' : Body} {released : List Cid}, UpdateBody key val b b' released → b.Cached P →
    b'.Cached P
  | _, _, _, .edge hc, hb => hc.cached hb
  | _, _, _, .skip _ hrest, ⟨hc, hb⟩ => ⟨hc, hrest.cached hb⟩
  | _, _, _, .same, hb => hb
  | _, _, _, .stop _ hc, ⟨hb, hrest⟩ => ⟨hc.cached hb, hrest⟩

end

mutual

theorem Remove.cached :
  ∀ {c c' : Child} {released : List Cid}, Remove key c c' val released → c.Cached P → c'.Cached P
  | _, _, _, .node hbody, ⟨_, hb⟩ => trimNode_cached (hbody.cached hb)

theorem RemoveBody.cached :
  ∀ {b b' : Body} {released : List Cid}, RemoveBody key b b' val released → b.Cached P →
    b'.Cached P
  | _, _, _, .edge hc, hb => hc.cached hb
  | _, _, _, .skip _ hrest, ⟨hc, hb⟩ => ⟨hc, hrest.cached hb⟩
  | _, _, _, .same hmerge, ⟨hc, hrest⟩ =>
      (Body.cached_first hrest).2 _ (hmerge.cached hc (Body.cached_first hrest).1)
  | _, _, _, .stop _ hc, ⟨hb, hrest⟩ => ⟨hc.cached hb, hrest⟩

end

theorem Trim.cached {c c' : Child} {released : List Cid} (h : Trim c c' released)
    (hc : c.Cached P) :
  c'.Cached P
  := by
  induction h with
  | absent => exact hc
  | stub => exact hc
  | down _ ih => apply ih hc.2
  | stop => exact hc

end Write

end Cached

/-! ### Filling in -/

section Fill

variable (known : Cid → Option (ℕ × Body))

mutual

/-- A subtree with its unread nodes replaced by the nodes they are known to be. -/
def Child.fill : Child → Child
  | .absent => .absent
  | .stub cid h =>
      match known cid with
      | some (h', body) => .node (some cid) h' body
      | none => .stub cid h
  | .node cid h body => .node cid h body.fill

/-- The contents of a node with the unread nodes replaced by the nodes they are known to
be. -/
def Body.fill : Body → Body
  | .edge c => .edge c.fill
  | .entry c key val rest => .entry c.fill key val rest.fill

end

variable {known}

theorem Child.fill_absent_iff {c : Child} :
  c.fill known = .absent ↔ c = .absent
  := by
  cases c with
  | absent => simp [Child.fill]
  | stub cid h =>
      rw [Child.fill]
      split <;> simp
  | node cid h b => simp [Child.fill]

theorem trimNode_fill (h : ℕ) (b : Body) :
  (trimNode h b).fill known = trimNode h (b.fill known)
  := by
  cases b with
  | entry c k v rest => rfl
  | edge c =>
      cases c with
      | absent => rfl
      | stub cid h' =>
          have hne : (Child.stub cid h').fill known ≠ .absent :=
            mt Child.fill_absent_iff.mp (by simp)
          rw [trimNode, Child.fill, Body.fill, trimNode]
          · simpa using hne
          · simp
      | node cid h' b' => rfl

mutual

/-- A split of a tree is one of the tree filled in. -/
theorem Split.fill {key : Key} :
  ∀ {c l r : Child} {released : List Cid}, Split key c l r released →
    Split key (c.fill known) (l.fill known) (r.fill known) released
  | _, _, _, _, .absent => .absent
  | _, _, _, _, .node hbody => by
      rw [trimNode_fill, trimNode_fill]
      apply Split.node hbody.fill

theorem SplitBody.fill {key : Key} :
  ∀ {b l r : Body} {released : List Cid}, SplitBody key b l r released →
    SplitBody key (b.fill known) (l.fill known) (r.fill known) released
  | _, _, _, _, .edge hc => .edge hc.fill
  | _, _, _, _, .skip hk hrest => .skip hk hrest.fill
  | _, _, _, _, .stop hk hc => .stop hk hc.fill

end

theorem Body.fill_first (b : Body) (c : Child) :
  (b.fill known).first = b.first.fill known
    ∧ (b.setFirst c).fill known = (b.fill known).setFirst (c.fill known)
  := by
  cases b with
  | edge d => exact ⟨rfl, rfl⟩
  | entry d k v rest => exact ⟨rfl, rfl⟩

mutual

theorem Merge.fill :
  ∀ {l r n : Child} {released : List Cid}, Merge l r n released →
    Merge (l.fill known) (r.fill known) (n.fill known) released
  | _, _, _, _, .left => .left
  | _, _, _, _, .right => .right
  | _, _, _, _, .node hbody => .node hbody.fill

theorem MergeBody.fill :
  ∀ {l r b : Body} {released : List Cid}, MergeBody l r b released →
    MergeBody (l.fill known) (r.fill known) (b.fill known) released
  | _, r, _, _, .edge (n := n) hc => by
      have h := hc.fill
      rw [← (r.fill_first n).1] at h
      rw [(r.fill_first n).2]
      apply MergeBody.edge h
  | _, _, _, _, .entry hrest => .entry hrest.fill

end

section Write

variable {key : Key} {val : Cid} {height : ℕ}

theorem freshChain_fill (n : ℕ) :
  (freshChain key val height n).fill known = freshChain key val height n
  := by
  induction n with
  | zero => rfl
  | succ n ih => rw [freshChain, Child.fill, Body.fill, ih]

theorem wrap_fill {cid : Option Cid} {h : ℕ} {b : Body} (n : ℕ) :
  (wrap (.node cid h b) n).fill known = wrap (.node cid h (b.fill known)) n
  := by
  induction n with
  | zero => rfl
  | succ n ih =>
      rw [wrap, Child.fill, Body.fill, ih, wrap]
      rfl

theorem InsertAt.fill :
  ∀ {b b' : Body} {released : List Cid}, InsertAt key val b b' released →
    InsertAt key val (b.fill known) (b'.fill known) released
  | _, _, _, .edge hc => .edge hc.fill
  | _, _, _, .skip hk hrest => .skip hk hrest.fill
  | _, _, _, .same => .same
  | _, _, _, .stop hk hc => .stop hk hc.fill

mutual

theorem Insert.fill :
  ∀ {c c' : Child} {released : List Cid}, Insert key val height c c' released →
    Insert key val height (c.fill known) (c'.fill known) released
  | _, _, _, .absent => by
      rw [freshChain_fill]
      apply Insert.absent
  | _, _, _, .raise hh hbody => by
      have h := (@InsertAt.fill known) hbody
      rw [Body.fill, wrap_fill] at h
      apply Insert.raise hh h
  | _, _, _, .down hh hbody => .down hh hbody.fill
  | _, _, _, .level hbody => .level hbody.fill

theorem InsertSlot.fill {h : ℕ} :
  ∀ {c c' : Child} {released : List Cid}, InsertSlot key val height h c c' released →
    InsertSlot key val height h (c.fill known) (c'.fill known) released
  | _, _, _, .fresh => by
      rw [freshChain_fill]
      apply InsertSlot.fresh
  | _, _, _, .insert hpresent hc => .insert (mt Child.fill_absent_iff.mp hpresent) hc.fill

theorem InsertBelow.fill {h : ℕ} :
  ∀ {b b' : Body} {released : List Cid}, InsertBelow key val height h b b' released →
    InsertBelow key val height h (b.fill known) (b'.fill known) released
  | _, _, _, .edge hc => .edge hc.fill
  | _, _, _, .skip hk hrest => .skip hk hrest.fill
  | _, _, _, .stop hk hc => .stop hk hc.fill

end

mutual

theorem Update.fill :
  ∀ {c c' : Child} {released : List Cid}, Update key val c c' released →
    Update key val (c.fill known) (c'.fill known) released
  | _, _, _, .node hbody => .node hbody.fill

theorem UpdateBody.fill :
  ∀ {b b' : Body} {released : List Cid}, UpdateBody key val b b' released →
    UpdateBody key val (b.fill known) (b'.fill known) released
  | _, _, _, .edge hc => .edge hc.fill
  | _, _, _, .skip hk hrest => .skip hk hrest.fill
  | _, _, _, .same => .same
  | _, _, _, .stop hk hc => .stop hk hc.fill

end

mutual

theorem Remove.fill :
  ∀ {c c' : Child} {released : List Cid}, Remove key c c' val released →
    Remove key (c.fill known) (c'.fill known) val released
  | _, _, _, .node hbody => by
      rw [trimNode_fill]
      apply Remove.node hbody.fill

theorem RemoveBody.fill :
  ∀ {b b' : Body} {released : List Cid}, RemoveBody key b b' val released →
    RemoveBody key (b.fill known) (b'.fill known) val released
  | _, _, _, .edge hc => .edge hc.fill
  | _, _, _, .skip hk hrest => .skip hk hrest.fill
  | .entry _ _ _ rest, _, _, .same (n := n) hmerge => by
      have h := (@Merge.fill known) hmerge
      rw [← (rest.fill_first n).1] at h
      rw [(rest.fill_first n).2]
      apply RemoveBody.same h
  | _, _, _, .stop hk hc => .stop hk hc.fill

end

end Write

end Fill

end Shrike.Mst
