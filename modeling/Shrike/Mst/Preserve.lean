import Shrike.Mst.Loading

/-!
# What mutations preserve

The levels of the nodes, the CIDs they carry and what these stand for, through each
mutation.
-/

namespace Shrike.Mst

/-! ### Nodes do not vanish -/

section Present

variable {key : Key} {val : Cid} {height : ℕ}

variable {released : List Cid}

theorem Merge.present {l r n : Child} (h : Merge l r n released) (hl : l ≠ .absent) :
  n ≠ .absent
  := by
  cases h with
  | left => exact absurd rfl hl
  | right => exact hl
  | node => simp

theorem MergeBody.nonempty {l r b : Body} (h : MergeBody l r b released) (hl : l ≠ .edge .absent) :
  b ≠ .edge .absent
  := by
  cases h with
  | entry => simp
  | edge hc =>
      have hn := hc.present (fun h => hl (congrArg Body.edge h))
      cases r with
      | edge c => simpa [Body.setFirst] using hn
      | entry => simp [Body.setFirst]

variable {b b' : Body}

theorem InsertAt.nonempty (h : InsertAt key val b b' released) :
  b' ≠ .edge .absent
  := by
  cases h <;> simp

variable {c c' : Child}

theorem Insert.present (h : Insert key val height c c' released) :
  c' ≠ .absent
  := by
  cases h <;> simp [freshChain]

theorem InsertSlot.present {h : ℕ} (hs : InsertSlot key val height h c c' released) :
  c' ≠ .absent
  := by
  cases hs with
  | fresh => cases h - 1 - height <;> simp [freshChain]
  | insert _ hc => apply hc.present

theorem InsertBelow.nonempty {h : ℕ} (hb : InsertBelow key val height h b b' released) :
  b' ≠ .edge .absent
  := by
  cases hb with
  | edge hc => simpa using hc.present
  | skip => simp
  | stop => simp

theorem Update.present (h : Update key val c c' released) :
  c' ≠ .absent
  := by
  cases h
  simp

theorem UpdateBody.nonempty (h : UpdateBody key val b b' released) :
  b' ≠ .edge .absent
  := by
  cases h with
  | edge hc => simpa using hc.present
  | skip => simp
  | same => simp
  | stop => simp

end Present

/-! ### Levels -/

section Shaped

variable [Hashing] (known : Cid → ℕ → Prop)

mutual

/-- A subtree whose nodes are on the levels of their keys, from level `n` down: its root is
one level below `n`, each edge spans one level, every key is in a node of its height, and no
node is without entries and subtrees. The unread nodes are known ones. -/
def Child.Shaped : Child → ℕ → Prop
  | .absent, _ => True
  | .stub cid h, n => h + 1 = n ∧ known cid h
  | .node _ h body, n => h + 1 = n ∧ body.Shaped h ∧ body ≠ .edge .absent

/-- The contents of a node of height `h` whose subtrees are on the levels of their keys. -/
def Body.Shaped : Body → ℕ → Prop
  | .edge c, h => c.Shaped h
  | .entry c key _ rest, h => c.Shaped h ∧ heightForKey key = h ∧ rest.Shaped h

end

variable {known}

theorem trimNode_shaped {h : ℕ} {b : Body} (hb : b.Shaped known h) :
  (trimNode h b).Shaped known (h + 1)
  := by
  unfold trimNode
  split
  · trivial
  · rename_i hne
    exact ⟨rfl, hb, fun h => hne h⟩

mutual

theorem Split.shaped {key : Key} :
  ∀ {c l r : Child} {released : List Cid} {n : ℕ}, Split key c l r released →
    c.Shaped known n → l.Shaped known n ∧ r.Shaped known n
  | _, _, _, _, _, .absent, _ => ⟨trivial, trivial⟩
  | _, _, _, _, _, .node hbody, ⟨hn, hb, _⟩ => by
      obtain ⟨hl, hr⟩ := hbody.shaped hb
      rw [← hn]
      use trimNode_shaped hl, trimNode_shaped hr

theorem SplitBody.shaped {key : Key} :
  ∀ {b l r : Body} {released : List Cid} {h : ℕ}, SplitBody key b l r released →
    b.Shaped known h → l.Shaped known h ∧ r.Shaped known h
  | _, _, _, _, _, .edge hc, hb => hc.shaped hb
  | _, _, _, _, _, .skip _ hrest, ⟨hc, hk, hb⟩ => by
      obtain ⟨hl, hr⟩ := hrest.shaped hb
      use ⟨hc, hk, hl⟩
  | _, _, _, _, _, .stop _ hc, ⟨hb, hk, hrest⟩ => by
      obtain ⟨hl, hr⟩ := hc.shaped hb
      use hl, hr, hk

end

theorem Body.shaped_first {b : Body} {h : ℕ} (hb : b.Shaped known h) :
  b.first.Shaped known h ∧ ∀ c : Child, c.Shaped known h → (b.setFirst c).Shaped known h
  := by
  cases b with
  | edge c => exact ⟨hb, fun _ hc => hc⟩
  | entry c k v rest => exact ⟨hb.1, fun _ hc => ⟨hc, hb.2⟩⟩

mutual

theorem Merge.shaped :
  ∀ {l r m : Child} {released : List Cid} {n : ℕ}, Merge l r m released →
    l.Shaped known n → r.Shaped known n → m.Shaped known n
  | _, _, _, _, _, .left, _, hr => hr
  | _, _, _, _, _, .right, hl, _ => hl
  | _, _, _, _, _, .node hbody, ⟨hl, hlb, hlne⟩, ⟨hr, hrb, _⟩ => by
      obtain rfl := Nat.succ.inj (hr.trans hl.symm)
      exact ⟨hl, hbody.shaped hlb hrb, hbody.nonempty hlne⟩

theorem MergeBody.shaped :
  ∀ {l r b : Body} {released : List Cid} {h : ℕ}, MergeBody l r b released →
    l.Shaped known h → r.Shaped known h → b.Shaped known h
  | _, _, _, _, _, .edge hc, hl, hr =>
      (Body.shaped_first hr).2 _ (hc.shaped hl (Body.shaped_first hr).1)
  | _, _, _, _, _, .entry hrest, ⟨hc, hk, hl⟩, hr => ⟨hc, hk, hrest.shaped hl hr⟩

end

section Write

variable {key : Key} {val : Cid} {height : ℕ}

theorem freshChain_shaped (hkey : heightForKey key = height) (n : ℕ) :
  (freshChain key val height n).Shaped known (height + n + 1)
  := by
  induction n with
  | zero => exact ⟨rfl, ⟨trivial, hkey, trivial⟩, by simp⟩
  | succ n ih =>
      refine ⟨rfl, ih, ?_⟩
      cases n with
      | zero => simp [freshChain]
      | succ n => simp [freshChain]

theorem wrap_shaped {cid : Option Cid} {h : ℕ} {b : Body}
    (hc : (Child.node cid h b).Shaped known (h + 1)) (n : ℕ) :
  (wrap (.node cid h b) n).Shaped known (h + n + 1)
  := by
  induction n with
  | zero => exact hc
  | succ n ih =>
      refine ⟨rfl, ih, ?_⟩
      cases n with
      | zero => simp [wrap]
      | succ n => simp [wrap]

theorem InsertAt.shaped (hkey : heightForKey key = height) :
  ∀ {b b' : Body} {released : List Cid}, InsertAt key val b b' released →
    b.Shaped known height → b'.Shaped known height
  | _, _, _, .edge hc, hb => by
      obtain ⟨hl, hr⟩ := hc.shaped hb
      use hl, hkey
      apply hr
  | _, _, _, .skip _ hrest, ⟨hc, hk, hb⟩ => ⟨hc, hk, hrest.shaped hkey hb⟩
  | _, _, _, .same, hb => hb
  | _, _, _, .stop _ hc, ⟨hb, hk, hrest⟩ => by
      obtain ⟨hl, hr⟩ := hc.shaped hb
      use hl, hkey, hr, hk

mutual

/-- An insert of a key below level `n` keeps the levels. -/
theorem Insert.shaped (hkey : heightForKey key = height) :
  ∀ {c c' : Child} {released : List Cid} {n : ℕ}, Insert key val height c c' released →
    c ≠ .absent → height < n → c.Shaped known n → c'.Shaped known n
  | _, _, _, _, .absent, hc, _, _ => absurd rfl hc
  | _, _, _, _, .raise hh _, _, hn, hc => by
      have hheight := hc.1
      omega
  | _, _, _, _, .down hh hbody, _, _, ⟨hn, hb, _⟩ =>
      ⟨hn, hbody.shaped hkey hh hb, hbody.nonempty⟩
  | _, _, _, _, .level hbody, _, _, ⟨hn, hb, _⟩ => ⟨hn, hbody.shaped hkey hb, hbody.nonempty⟩

theorem InsertSlot.shaped (hkey : heightForKey key = height) :
  ∀ {h : ℕ} {c c' : Child} {released : List Cid}, InsertSlot key val height h c c' released →
    height < h → c.Shaped known h → c'.Shaped known h
  | h, _, _, _, .fresh, hh, _ => by
      have hchain := (@freshChain_shaped _ known _ val) hkey (h - 1 - height)
      rwa [show height + (h - 1 - height) + 1 = h by omega] at hchain
  | _, _, _, _, .insert hpresent hc, hh, hb => hc.shaped hkey hpresent hh hb

theorem InsertBelow.shaped (hkey : heightForKey key = height) :
  ∀ {h : ℕ} {b b' : Body} {released : List Cid}, InsertBelow key val height h b b' released →
    height < h → b.Shaped known h → b'.Shaped known h
  | _, _, _, _, .edge hc, hh, hb => hc.shaped hkey hh hb
  | _, _, _, _, .skip _ hrest, hh, ⟨hc, hk, hb⟩ => ⟨hc, hk, hrest.shaped hkey hh hb⟩
  | _, _, _, _, .stop _ hc, hh, ⟨hb, hk, hrest⟩ => ⟨hc.shaped hkey hh hb, hk, hrest⟩

end

mutual

theorem Update.shaped :
  ∀ {c c' : Child} {released : List Cid} {n : ℕ}, Update key val c c' released →
    c.Shaped known n → c'.Shaped known n
  | _, _, _, _, .node hbody, ⟨hn, hb, _⟩ => ⟨hn, hbody.shaped hb, hbody.nonempty⟩

theorem UpdateBody.shaped :
  ∀ {b b' : Body} {released : List Cid} {h : ℕ}, UpdateBody key val b b' released →
    b.Shaped known h → b'.Shaped known h
  | _, _, _, _, .edge hc, hb => hc.shaped hb
  | _, _, _, _, .skip _ hrest, ⟨hc, hk, hb⟩ => ⟨hc, hk, hrest.shaped hb⟩
  | _, _, _, _, .same, hb => hb
  | _, _, _, _, .stop _ hc, ⟨hb, hk, hrest⟩ => ⟨hc.shaped hb, hk, hrest⟩

end

mutual

theorem Remove.shaped :
  ∀ {c c' : Child} {released : List Cid} {n : ℕ}, Remove key c c' val released →
    c.Shaped known n → c'.Shaped known n
  | _, _, _, _, .node hbody, ⟨hn, hb, _⟩ => by
      rw [← hn]
      apply trimNode_shaped (hbody.shaped hb)

theorem RemoveBody.shaped :
  ∀ {b b' : Body} {released : List Cid} {h : ℕ}, RemoveBody key b b' val released →
    b.Shaped known h → b'.Shaped known h
  | _, _, _, _, .edge hc, hb => hc.shaped hb
  | _, _, _, _, .skip _ hrest, ⟨hc, hk, hb⟩ => ⟨hc, hk, hrest.shaped hb⟩
  | _, _, _, _, .same hmerge, ⟨hc, _, hrest⟩ =>
      (Body.shaped_first hrest).2 _ (hmerge.shaped hc (Body.shaped_first hrest).1)
  | _, _, _, _, .stop _ hc, ⟨hb, hk, hrest⟩ => ⟨hc.shaped hb, hk, hrest⟩

end

end Write

end Shaped

/-! ### The CIDs nodes carry -/

@[simp]
theorem trimNode_cids (h : ℕ) (b : Body) :
  (trimNode h b).cids = b.cids
  := by
  unfold trimNode
  split
  · rfl
  · rfl

mutual

/-- The CIDs carried before a split are those carried after it and those given up. -/
theorem Split.cids {key : Key} :
  ∀ {c l r : Child} {released : List Cid}, Split key c l r released →
    ∀ x, c.cids.count x = l.cids.count x + r.cids.count x + released.count x
  | _, _, _, _, .absent, _ => rfl
  | _, _, _, _, .node hbody, x => by
      have ih := hbody.cids x
      rw [trimNode_cids, trimNode_cids, Child.cids, List.count_append, List.count_append]
      omega

theorem SplitBody.cids {key : Key} :
  ∀ {b l r : Body} {released : List Cid}, SplitBody key b l r released →
    ∀ x, b.cids.count x = l.cids.count x + r.cids.count x + released.count x
  | _, _, _, _, .edge hc, x => hc.cids x
  | _, _, _, _, .skip _ hrest, x => by
      have ih := hrest.cids x
      rw [Body.cids, Body.cids, List.count_append, List.count_append]
      omega
  | _, _, _, _, .stop _ hc, x => by
      have ih := hc.cids x
      rw [Body.cids, Body.cids, Body.cids, List.count_append, List.count_append]
      omega

end

theorem Body.cids_first (b : Body) (c : Child) (x : Cid) :
  (b.setFirst c).cids.count x + b.first.cids.count x = b.cids.count x + c.cids.count x
  := by
  cases b with
  | edge d =>
      rw [setFirst, first, Body.cids, Body.cids]
      omega
  | entry d k v rest =>
      rw [setFirst, first, Body.cids, Body.cids, List.count_append, List.count_append]
      omega

mutual

theorem Merge.cids :
  ∀ {l r n : Child} {released : List Cid}, Merge l r n released →
    ∀ x, l.cids.count x + r.cids.count x = n.cids.count x + released.count x
  | _, _, _, _, .left, x => by simp [Child.cids]
  | _, _, _, _, .right, x => by simp [Child.cids]
  | _, _, _, _, .node hbody, x => by
      have ih := hbody.cids x
      simp only [Child.cids, List.count_append, Option.toList_none, List.count_nil]
      omega

theorem MergeBody.cids :
  ∀ {l r b : Body} {released : List Cid}, MergeBody l r b released →
    ∀ x, l.cids.count x + r.cids.count x = b.cids.count x + released.count x
  | .edge c, right, _, _, .edge (n := n) hc, x => by
      have ih := hc.cids x
      have hset := right.cids_first n x
      rw [Body.cids]
      omega
  | _, _, _, _, .entry hrest, x => by
      have ih := hrest.cids x
      rw [Body.cids, Body.cids, List.count_append, List.count_append]
      omega

end

section Write

variable {key : Key} {val : Cid} {height : ℕ}

theorem freshChain_cids (n : ℕ) :
  (freshChain key val height n).cids = []
  := by
  induction n with
  | zero => rfl
  | succ n ih => simpa [freshChain, Child.cids, Body.cids] using ih

theorem wrap_cids (c : Child) (n : ℕ) :
  (wrap c n).cids = c.cids
  := by
  induction n with
  | zero => rfl
  | succ n ih => simpa [wrap, Child.cids, Body.cids] using ih

section

variable {l l' r : List Cid} {x : Cid}

theorem count_left (h : l.count x = l'.count x + r.count x) (m : List Cid) :
  (m ++ l).count x = (m ++ l').count x + r.count x
  := by
  rw [List.count_append, List.count_append]
  omega

theorem count_right (h : l.count x = l'.count x + r.count x) (m : List Cid) :
  (l ++ m).count x = (l' ++ m).count x + r.count x
  := by
  rw [List.count_append, List.count_append]
  omega

end

theorem InsertAt.cids :
  ∀ {b b' : Body} {released : List Cid}, InsertAt key val b b' released →
    ∀ x, b.cids.count x = b'.cids.count x + released.count x
  | _, _, _, .edge hc, x => by
      have ih := hc.cids x
      rw [Body.cids, Body.cids, Body.cids, List.count_append]
      omega
  | _, _, _, .skip _ hrest, x => count_left (hrest.cids x) _
  | _, _, _, .same, x => rfl
  | _, _, _, .stop _ hc, x => by
      have ih := hc.cids x
      simp only [Body.cids, List.count_append]
      omega

mutual

theorem Insert.cids :
  ∀ {c c' : Child} {released : List Cid}, Insert key val height c c' released →
    ∀ x, c.cids.count x = c'.cids.count x + released.count x
  | _, _, _, .absent, x => by
      rw [freshChain_cids]
      rfl
  | _, _, _, .raise _ hbody, x => by
      have ih := hbody.cids x
      rw [Body.cids, wrap_cids] at ih
      simpa [Child.cids] using ih
  | _, _, _, .down _ hbody, x => by
      have ih := hbody.cids x
      simp only [Child.cids, List.count_append, Option.toList_none, List.count_nil]
      omega
  | _, _, _, .level hbody, x => by
      have ih := hbody.cids x
      simp only [Child.cids, List.count_append, Option.toList_none, List.count_nil]
      omega

theorem InsertSlot.cids {h : ℕ} :
  ∀ {c c' : Child} {released : List Cid}, InsertSlot key val height h c c' released →
    ∀ x, c.cids.count x = c'.cids.count x + released.count x
  | _, _, _, .fresh, x => by
      rw [freshChain_cids]
      rfl
  | _, _, _, .insert _ hc, x => hc.cids x

theorem InsertBelow.cids {h : ℕ} :
  ∀ {b b' : Body} {released : List Cid}, InsertBelow key val height h b b' released →
    ∀ x, b.cids.count x = b'.cids.count x + released.count x
  | _, _, _, .edge hc, x => hc.cids x
  | _, _, _, .skip _ hrest, x => count_left (hrest.cids x) _
  | _, _, _, .stop _ hc, x => count_right (hc.cids x) _

end

mutual

theorem Update.cids :
  ∀ {c c' : Child} {released : List Cid}, Update key val c c' released →
    ∀ x, c.cids.count x = c'.cids.count x + released.count x
  | _, _, _, .node hbody, x => by
      have ih := hbody.cids x
      simp only [Child.cids, List.count_append, Option.toList_none, List.count_nil]
      omega

theorem UpdateBody.cids :
  ∀ {b b' : Body} {released : List Cid}, UpdateBody key val b b' released →
    ∀ x, b.cids.count x = b'.cids.count x + released.count x
  | _, _, _, .edge hc, x => hc.cids x
  | _, _, _, .skip _ hrest, x => count_left (hrest.cids x) _
  | _, _, _, .same, _ => rfl
  | _, _, _, .stop _ hc, x => count_right (hc.cids x) _

end

mutual

theorem Remove.cids :
  ∀ {c c' : Child} {released : List Cid}, Remove key c c' val released →
    ∀ x, c.cids.count x = c'.cids.count x + released.count x
  | _, _, _, .node hbody, x => by
      have ih := hbody.cids x
      rw [trimNode_cids, Child.cids, List.count_append, List.count_append]
      omega

theorem RemoveBody.cids :
  ∀ {b b' : Body} {released : List Cid}, RemoveBody key b b' val released →
    ∀ x, b.cids.count x = b'.cids.count x + released.count x
  | _, _, _, .edge hc, x => hc.cids x
  | _, _, _, .skip _ hrest, x => count_left (hrest.cids x) _
  | .entry c _ _ rest, _, _, .same (n := n) hmerge, x => by
      have ih := hmerge.cids x
      have hset := rest.cids_first n x
      rw [Body.cids, List.count_append]
      omega
  | _, _, _, .stop _ hc, x => count_right (hc.cids x) _

end

theorem Trim.cids {c c' : Child} {released : List Cid} (h : Trim c c' released) :
  ∀ x, c.cids.count x = c'.cids.count x + released.count x
  := by
  intro x
  induction h with
  | absent => rfl
  | stub => rfl
  | down _ ih =>
      rw [Child.cids, Body.cids, List.count_append, List.count_append]
      omega
  | stop => rfl

end Write

end Shrike.Mst
