import Shrike.Mst.Partial

/-!
# Trees that can be read completely

The links that remain to be counted when the rest of a tree is read. A walk over the whole tree
finds that no two of them are the same and none is counted already; then they can be read in any
order, a part at a time.
-/

namespace Shrike.Mst

/-! ### Counting links -/

/-- The counts once each of the given links is counted. -/
def mark (refs : Refs) (links : List Cid) : Refs := fun c => if c ∈ links then some 1 else refs c

/-- None of the given links is counted already. -/
def Uncounted (refs : Refs) (links : List Cid) : Prop := ∀ c ∈ links, (refs c).getD 0 = 0

theorem mark_nil (refs : Refs) :
  mark refs [] = refs
  := by
  funext c
  simp [mark]

theorem mark_append (refs : Refs) (l m : List Cid) :
  mark (mark refs l) m = mark refs (l ++ m)
  := by
  funext c
  simp only [mark, List.mem_append]
  split_ifs <;> simp_all

theorem mark_cons (refs : Refs) (c : Cid) (l : List Cid) :
  mark (Function.update refs c (some 1)) l = mark refs (c :: l)
  := by
  funext x
  simp only [mark, List.mem_cons]
  by_cases hx : x = c <;> simp [hx]

theorem Uncounted.of_mark {refs : Refs} {l m : List Cid} (h : Uncounted (mark refs l) m) :
  Uncounted refs m ∧ m.Disjoint l
  := by
  have hnot : ∀ c ∈ m, c ∉ l := by
    intro c hc hl
    have hcount := h c hc
    rw [mark, if_pos hl] at hcount
    cases hcount
  refine ⟨?_, fun c hc hl => hnot c hc hl⟩
  intro c hc
  have hcount := h c hc
  rwa [mark, if_neg (hnot c hc)] at hcount

theorem Uncounted.mark {refs : Refs} {l m : List Cid} (h : Uncounted refs m) (hd : m.Disjoint l) :
  Uncounted (mark refs l) m
  := by
  intro c hc
  rw [Mst.mark, if_neg (hd hc)]
  exact h c hc

/-- Links are counted exactly when no two are the same and none is counted already. -/
theorem countLinks_iff :
  ∀ {cs : List Cid} {refs : Refs},
    (countLinks refs cs).1 = none ↔ cs.Nodup ∧ Uncounted refs cs
  | [], refs => by simp [countLinks, Uncounted]
  | c :: cs, refs => by
      rw [countLinks]
      split_ifs with hc
      · simp only [false_iff, not_and]
        intro _ h
        have hzero := h c List.mem_cons_self
        omega
      · have ih := @countLinks_iff cs (Function.update refs c (some 1))
        have hmark : Function.update refs c (some 1) = Mst.mark refs [c] := by
          rw [← mark_cons, mark_nil]
        rw [ih, List.nodup_cons, hmark]
        constructor
        · rintro ⟨hnodup, h⟩
          obtain ⟨h, hd⟩ := h.of_mark
          refine ⟨⟨fun hmem => hd hmem List.mem_cons_self, hnodup⟩, ?_⟩
          intro x hx
          rcases List.mem_cons.mp hx with rfl | hx
          · omega
          · exact h x hx
        · rintro ⟨⟨hnot, hnodup⟩, h⟩
          refine ⟨hnodup, ?_⟩
          apply Uncounted.mark (fun x hx => h x (List.mem_cons_of_mem c hx))
          intro x hx hxc
          rw [List.mem_singleton.mp hxc] at hx
          exact hnot hx

theorem countLinks_mark :
  ∀ {cs : List Cid} {refs : Refs}, (countLinks refs cs).1 = none →
    (countLinks refs cs).2.2 = mark refs cs
  | [], refs, _ => (mark_nil refs).symm
  | c :: cs, refs, h => by
      rw [countLinks] at h ⊢
      split_ifs at h ⊢ with hc
      rw [← mark_cons]
      exact countLinks_mark h

/-! ### The links that remain -/

section Fetches

variable [Hashing] (src : BlockSource)

mutual

/-- `Fetches src pl n links`: the rest of the subtree `n`, at the place `pl`, can be read, and
its unread nodes have the given links between them. -/
inductive Fetches : Place → Child → List Cid → Prop
  | absent {pl} : Fetches pl .absent []
  | read {pl : Place} {cid h h'} {body : Body} {links}
      (hdepth : pl.depth ≤ maxLevels) (hread : Reads src pl cid h h' body)
      (hbody : FetchesBody pl body links) : Fetches pl (.stub cid h) (body.cids ++ links)
  | node {pl cid h body links}
      (hbody : FetchesBody pl body links) : Fetches pl (.node cid h body) links

/-- `FetchesBody src pl b links`: the rest of the contents `b`, of a node at the place `pl`, can
be read, and its unread nodes have the given links between them. -/
inductive FetchesBody : Place → Body → List Cid → Prop
  | edge {pl : Place} {c links} (hc : Fetches pl.below c links) :
      FetchesBody pl (.edge c) links
  | entry {pl : Place} {c k v rest links more}
      (hc : Fetches (pl.before k).below c links) (hrest : FetchesBody (pl.after k) rest more) :
      FetchesBody pl (.entry c k v rest) (links ++ more)

end

variable {src}

/-- The links that remain below a node are those below one of its subtrees and others, which
reading a part of the subtree keeps. -/
theorem FetchesBody.childAt :
  ∀ {pl : Place} {b : Body} {links : List Cid}, FetchesBody src pl b links → ∀ i,
    ∃ own others, Fetches src (b.childAt i pl).2 (b.childAt i pl).1 own
      ∧ links.Perm (own ++ others)
      ∧ ∀ c own', Fetches src (b.childAt i pl).2 c own' →
          ∃ links', FetchesBody src pl (b.setChildAt c i) links' ∧ links'.Perm (own' ++ others)
  | _, .edge _, links, .edge hc, _ => by
      refine ⟨links, [], hc, by rw [List.append_nil], ?_⟩
      intro c own' hc'
      exact ⟨own', .edge hc', by rw [List.append_nil]⟩
  | _, .entry _ _ _ _, _, @FetchesBody.entry _ _ _ _ _ _ _ links more hc hrest, 0 => by
      refine ⟨links, more, hc, .refl _, ?_⟩
      intro c own' hc'
      exact ⟨own' ++ more, .entry hc' hrest, .refl _⟩
  | pl, .entry _ k _ rest, _, @FetchesBody.entry _ _ _ _ _ _ _ links more hc hrest, i + 1 => by
      obtain ⟨own, others, hown, hperm, hset⟩ := hrest.childAt i
      refine ⟨own, links ++ others, hown, ?_, ?_⟩
      · apply (hperm.append_left links).trans
        apply List.perm_append_comm_assoc
      · intro c own' hc'
        obtain ⟨links', hlinks', hperm'⟩ := hset c own' hc'
        refine ⟨links ++ links', .entry hc hlinks', ?_⟩
        apply (hperm'.append_left links).trans
        apply List.perm_append_comm_assoc

/-- `Remains src pl n refs links`: the rest of the subtree `n` can be read: the links between its
unread nodes are all different, and none of them is counted. -/
structure Remains (src : BlockSource) (pl : Place) (n : Child) (refs : Refs) (links : List Cid) :
    Prop where
  fetches : Fetches src pl n links
  nodup : links.Nodup
  uncounted : Uncounted refs links

/-- `RemainsBody src pl b refs links`: the rest of the contents `b` of a node can be read. -/
structure RemainsBody (src : BlockSource) (pl : Place) (b : Body) (refs : Refs)
    (links : List Cid) : Prop where
  fetches : FetchesBody src pl b links
  nodup : links.Nodup
  uncounted : Uncounted refs links

/-! ### A walk over the whole tree -/

section Walk

variable {σ : Type} {f : σ → Key → Cid → Except MstError σ}

theorem walkBody_remains
    {walk : σ → Refs → Child → Place → Except MstError σ × Child × Refs}
    (hwalk : ∀ {s s' refs refs' n n' pl}, walk s refs n pl = (.ok s', n', refs') →
      ∃ links, Remains src pl n refs links ∧ refs' = mark refs links) :
  ∀ {s s' : σ} {refs refs' : Refs} {b b' : Body} {pl : Place},
    walkBody f walk s refs b pl = (.ok s', b', refs') →
    ∃ links, RemainsBody src pl b refs links ∧ refs' = mark refs links
  | s, s', refs, refs', .edge c, b', pl, heq => by
      rw [walkBody] at heq
      rcases hc : walk s refs c pl.below with ⟨r, c', refs₁⟩
      rw [hc] at heq
      cases heq
      obtain ⟨links, h, rfl⟩ := hwalk hc
      exact ⟨links, ⟨.edge h.fetches, h.nodup, h.uncounted⟩, rfl⟩
  | s, s', refs, refs', .entry c k v rest, b', pl, heq => by
      rw [walkBody] at heq
      split at heq
      · cases heq
      · rename_i s₁ c' refs₁ hc
        obtain ⟨links, h, rfl⟩ := hwalk hc
        split at heq
        · cases heq
        · rename_i s₂ hentry
          rcases hwalkRest : walkBody f walk s₂ (mark refs links) rest (pl.after k)
            with ⟨r, rest', refs₂⟩
          rw [hwalkRest] at heq
          cases heq
          obtain ⟨more, hrest, rfl⟩ := walkBody_remains hwalk hwalkRest
          obtain ⟨huncounted, hdisjoint⟩ := hrest.uncounted.of_mark
          refine ⟨links ++ more, ⟨.entry h.fetches hrest.fetches, ?_, ?_⟩, mark_append _ _ _⟩
          · apply h.nodup.append hrest.nodup
            exact hdisjoint.symm
          · intro x hx
            rcases List.mem_append.mp hx with hx | hx
            · exact h.uncounted x hx
            · exact huncounted x hx

/-- A stub that was read had links that were not counted, and they are now. -/
theorem load_stub_mark {pl : Place} {cid : Cid} {h : ℕ} {refs refs' : Refs} {n : Child}
    (hload : load src refs (.stub cid h) pl = (.ok none, n, refs')) :
  ∃ h' body, n = .node (some cid) h' body ∧ pl.depth ≤ maxLevels ∧ Reads src pl cid h h' body
    ∧ body.cids.Nodup ∧ Uncounted refs body.cids ∧ refs' = mark refs body.cids
  := by
  rw [load] at hload
  split at hload
  · cases hload
  · rename_i hdepth
    split at hload
    · cases hload
    · cases hload
    · rename_i data hsrc
      split at hload
      · cases hload
      · rename_i nd hdecode
        split at hload
        · cases hload
        · rename_i linked refs₁ hcount
          split at hload
          · cases hload
          · rename_i h' body hpopulate
            cases hload
            have hnone : (countLinks refs nd.children).1 = none := by rw [hcount]
            have hmark := countLinks_mark hnone
            obtain ⟨hnodup, huncounted⟩ := countLinks_iff.mp hnone
            rw [hcount] at hmark
            rw [← populateNode_cids hpopulate] at hnodup huncounted hmark
            exact ⟨h', body, rfl, Nat.not_lt.mp hdepth, ⟨data, nd, hsrc, hdecode, hpopulate⟩,
              hnodup, huncounted, hmark⟩

/-- A walk that succeeds has counted the links that remained, all of them different. -/
theorem walkNode_remains :
  ∀ {fuel : ℕ} {s s' : σ} {refs refs' : Refs} {n n' : Child} {pl : Place},
    walkNode src f fuel s refs n pl = (.ok s', n', refs') →
    ∃ links, Remains src pl n refs links ∧ refs' = mark refs links
  | 0, _, _, _, _, _, _, _, heq => by cases heq
  | _ + 1, _, _, refs, _, .absent, _, _, heq => by
      cases heq
      exact ⟨[], ⟨.absent, .nil, fun _ h => by cases h⟩, (mark_nil refs).symm⟩
  | fuel + 1, s, _, refs, _, .node cid h body, _, pl, heq => by
      have hload : load src refs (.node cid h body) pl = (.ok none, .node cid h body, refs) := rfl
      rw [walkNode, ensureLoaded, hload] at heq
      dsimp only at heq
      rcases hwalk : walkBody f (walkNode src f fuel) s refs body pl with ⟨r, body', refs₂⟩
      rw [hwalk] at heq
      cases heq
      obtain ⟨links, hbody, rfl⟩ := walkBody_remains walkNode_remains hwalk
      exact ⟨links, ⟨.node hbody.fetches, hbody.nodup, hbody.uncounted⟩, rfl⟩
  | fuel + 1, s, _, refs, _, .stub cid h, _, pl, heq => by
      rw [walkNode, ensureLoaded] at heq
      rcases hload : load src refs (.stub cid h) pl with ⟨r, n, refs₁⟩
      rw [hload] at heq
      rcases r with e | x | x
      · cases heq
      · obtain ⟨h', body, rfl, hdepth, hread, hnodup, huncounted, rfl⟩ := load_stub_mark hload
        dsimp only at heq
        rcases hwalk : walkBody f (walkNode src f fuel) s (mark refs body.cids) body pl
          with ⟨r, body', refs₂⟩
        rw [hwalk] at heq
        cases heq
        obtain ⟨links, hbody, rfl⟩ := walkBody_remains walkNode_remains hwalk
        obtain ⟨hmore, hdisjoint⟩ := hbody.uncounted.of_mark
        refine ⟨body.cids ++ links, ⟨.read hdepth hread hbody.fetches, ?_, ?_⟩,
          mark_append _ _ _⟩
        · exact hnodup.append hbody.nodup hdisjoint.symm
        · intro x hx
          rcases List.mem_append.mp hx with hx | hx
          · exact huncounted x hx
          · exact hmore x hx
      · cases heq

end Walk

end Fetches

end Shrike.Mst
