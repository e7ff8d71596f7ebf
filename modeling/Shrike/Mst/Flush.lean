import Shrike.Mst.Tracks

/-!
# What a flush does

Writing the changed nodes of a tree seals it, and settling the counts names exactly the
blocks that the tree starts and stops having.
-/

namespace Shrike.Mst

open Holed Except

/-! ### Writing nodes -/

section Write

variable [Hashing]

mutual

/-- `Write c c' out`: writing the changed nodes of `c` leaves `c'` and the blocks `out`. -/
inductive Write : Child → Child → List (Cid × Bytes) → Prop
  | absent : Write .absent .absent []
  | stub {cid h} : Write (.stub cid h) (.stub cid h) []
  | clean {cid h body} : Write (.node (some cid) h body) (.node (some cid) h body) []
  | node {h body body' out data}
      (hbody : WriteBody body body' out) (hdata : encodeNode body' = .ok data) :
      Write (.node none h body) (.node (some (Cid.compute .drisl data)) h body')
        (out ++ [(Cid.compute .drisl data, data)])

/-- `WriteBody b b' out`: writing the changed nodes in the contents `b` leaves `b'` and the
blocks `out`. -/
inductive WriteBody : Body → Body → List (Cid × Bytes) → Prop
  | edge {c c' out} (hc : Write c c' out) :
      WriteBody (.edge c) (.edge c') out
  | entry {c c' k v rest rest' out out'} (hc : Write c c' out) (hrest : WriteBody rest rest' out') :
      WriteBody (.entry c k v rest) (.entry c' k v rest') (out ++ out')

end

mutual

/-- Writing a tree succeeds, and its nodes then carry CIDs. -/
theorem writeNode_ok :
  ∀ c : Child, ∃ c' out, writeNode c = .ok (c', out) ∧ Write c c' out ∧ ∃ link, c'.link = .ok link
  | .absent => ⟨_, _, rfl, .absent, none, rfl⟩
  | .stub cid _ => ⟨_, _, rfl, .stub, some cid, rfl⟩
  | .node (some cid) _ _ => ⟨_, _, rfl, .clean, some cid, rfl⟩
  | .node none h body => by
      obtain ⟨body', out, hwrite, hbody, data, hdata⟩ := writeBody_ok body
      refine ⟨.node (some (Cid.compute .drisl data)) h body',
        out ++ [(Cid.compute .drisl data, data)], ?_, .node hbody hdata,
        some (Cid.compute .drisl data), rfl⟩
      rw [writeNode, hwrite, ok_bind]
      simp only [hdata, ok_bind]

theorem writeBody_ok :
  ∀ b : Body, ∃ b' out, writeBody b = .ok (b', out) ∧ WriteBody b b' out
    ∧ ∃ data, encodeNode b' = .ok data
  | .edge c => by
      obtain ⟨c', out, hwrite, hc, link, hlink⟩ := writeNode_ok c
      refine ⟨.edge c', out, ?_, .edge hc, ?_⟩
      · rw [writeBody, hwrite]
        rfl
      · rw [encodeNode, Body.first, hlink]
        exact ⟨_, rfl⟩
  | .entry c k v rest => by
      obtain ⟨c', out, hwrite, hc, link, hlink⟩ := writeNode_ok c
      obtain ⟨rest', out', hwrite', hrest, data, hdata⟩ := writeBody_ok rest
      obtain ⟨left, links, hleft, hlinks, -⟩ := encodeNode_eq_ok hdata
      refine ⟨.entry c' k v rest', out ++ out', ?_, .entry hc hrest, ?_⟩
      · rw [writeBody, hwrite, ok_bind]
        simp only [hwrite', ok_bind]
      · rw [encodeNode, Body.first, hlink, Body.links, hleft, hlinks]
        exact ⟨_, rfl⟩

end

mutual

theorem Write.fill {known : Cid → Option (ℕ × Body)} :
  ∀ {c c' : Child} {out : List (Cid × Bytes)}, Write c c' out →
    Write (c.fill known) (c'.fill known) out
  | _, _, _, .absent => .absent
  | .stub cid h, _, _, .stub => by
      rw [Child.fill]
      split
      · exact .clean
      · exact .stub
  | _, _, _, .clean => .clean
  | _, _, _, .node hbody hdata => .node hbody.fill (by rw [encodeNode_fill, hdata])

theorem WriteBody.fill {known : Cid → Option (ℕ × Body)} :
  ∀ {b b' : Body} {out : List (Cid × Bytes)}, WriteBody b b' out →
    WriteBody (b.fill known) (b'.fill known) out
  | _, _, _, .edge hc => .edge hc.fill
  | _, _, _, .entry hc hrest => .entry hc.fill hrest.fill

end

mutual

theorem Write.items :
  ∀ {c c' : Child} {out : List (Cid × Bytes)}, Write c c' out → c'.items = c.items
  | _, _, _, .absent => rfl
  | _, _, _, .stub => rfl
  | _, _, _, .clean => rfl
  | _, _, _, .node hbody _ => hbody.items

theorem WriteBody.items :
  ∀ {b b' : Body} {out : List (Cid × Bytes)}, WriteBody b b' out → b'.items = b.items
  | _, _, _, .edge hc => hc.items
  | _, _, _, .entry hc hrest => by rw [Body.items, Body.items, hc.items, hrest.items]

end

variable {out : List (Cid × Bytes)}

theorem Write.absent_iff {c c' : Child} (h : Write c c' out) :
  c' = .absent ↔ c = .absent
  := by
  cases h <;> simp

theorem WriteBody.hasEntry {b b' : Body} (h : WriteBody b b' out) (hb : b.HasEntry) :
  b'.HasEntry
  := by
  obtain ⟨c, k, v, rest, rfl⟩ := hb
  cases h
  exact ⟨_, _, _, _, rfl⟩

mutual

/-- Writing keeps the levels. -/
theorem Write.shaped {known : Cid → ℕ → Prop} :
  ∀ {c c' : Child} {out : List (Cid × Bytes)} {n : ℕ}, Write c c' out → c.Shaped known n →
    c'.Shaped known n
  | _, _, _, _, .absent, h => h
  | _, _, _, _, .stub, h => h
  | _, _, _, _, .clean, h => h
  | _, _, _, _, .node hbody _, ⟨hn, hb, hne⟩ => by
      refine ⟨hn, hbody.shaped hb, ?_⟩
      rintro rfl
      cases hbody with
      | edge hc => exact hne (congrArg Body.edge (hc.absent_iff.mp rfl))

theorem WriteBody.shaped {known : Cid → ℕ → Prop} :
  ∀ {b b' : Body} {out : List (Cid × Bytes)} {h : ℕ}, WriteBody b b' out → b.Shaped known h →
    b'.Shaped known h
  | _, _, _, _, .edge hc, hb => hc.shaped hb
  | _, _, _, _, .entry hc hrest, ⟨hb, hk, hbrest⟩ => ⟨hc.shaped hb, hk, hrest.shaped hbrest⟩

end

theorem Write.whole {c c' : Child} (h : Write c c' out) (hc : Whole c) :
  Whole c'
  := by
  cases h with
  | absent => exact hc
  | stub => exact hc
  | clean => exact hc
  | node hbody hdata =>
      cases hc with
      | empty =>
          cases hbody with
          | edge hc =>
              cases hc
              exact .empty
      | node hentry hb => exact .node (hbody.hasEntry hentry) (hbody.shaped hb)

mutual

/-- The CIDs carried after writing are those carried before and those written. -/
theorem Write.cids :
  ∀ {c c' : Child} {out : List (Cid × Bytes)}, Write c c' out →
    ∀ x, c'.cids.count x = c.cids.count x + (out.map Prod.fst).count x
  | _, _, _, .absent, _ => rfl
  | _, _, _, .stub, _ => rfl
  | _, _, _, .clean, _ => rfl
  | _, _, _, .node hbody _, x => by
      have ih := hbody.cids x
      simp only [Child.cids, List.count_append, Option.toList_none, List.count_nil,
        Option.toList_some, List.map_append, List.map_cons, List.map_nil]
      omega

theorem WriteBody.cids :
  ∀ {b b' : Body} {out : List (Cid × Bytes)}, WriteBody b b' out →
    ∀ x, b'.cids.count x = b.cids.count x + (out.map Prod.fst).count x
  | _, _, _, .edge hc, x => hc.cids x
  | _, _, _, .entry hc hrest, x => by
      have ih := hc.cids x
      have ih' := hrest.cids x
      simp only [Body.cids, List.count_append, List.map_append]
      omega

end

mutual

/-- The blocks after writing are those before and those written. -/
theorem Write.blocks {p : Cid × Bytes} :
  ∀ {c c' : Child} {out : List (Cid × Bytes)}, Write c c' out →
    (p ∈ c'.blocks ↔ p ∈ c.blocks ∨ p ∈ out)
  | _, _, _, .absent => by simp
  | _, _, _, .stub => by simp
  | _, _, _, .clean => by simp
  | .node none h body, .node _ _ body', _, @Write.node _ _ _ _ out data hbody hdata => by
      have ih := hbody.blocks (p := p)
      have hbefore : (Child.node none h body).blocks = body.blocks := rfl
      have hafter : (Child.node (some (Cid.compute .drisl data)) h body').blocks
          = (Cid.compute .drisl data, data) :: body'.blocks := by
        simp [Child.blocks, Child.nodes, nodeBlock, hdata, Body.blocks]
      rw [hbefore, hafter, List.mem_cons, ih, List.mem_append, List.mem_singleton]
      tauto

theorem WriteBody.blocks {p : Cid × Bytes} :
  ∀ {b b' : Body} {out : List (Cid × Bytes)}, WriteBody b b' out →
    (p ∈ b'.blocks ↔ p ∈ b.blocks ∨ p ∈ out)
  | _, _, _, .edge hc => hc.blocks
  | _, _, _, .entry hc hrest => by
      rw [Body.blocks_entry, Body.blocks_entry, List.mem_append, List.mem_append, List.mem_append,
        hc.blocks, hrest.blocks]
      tauto

end

mutual

/-- Writing a complete tree seals it, if what carries a CID already was sealed. -/
theorem Write.sealed {P : Cid → Body → Prop}
    (hP : ∀ {x b}, P x b → b.Sealed ∧ ∃ data, encodeNode b = .ok data ∧ x = Cid.compute .drisl data) :
  ∀ {c c' : Child} {out : List (Cid × Bytes)} {n : ℕ}, Write c c' out →
    c.Shaped (fun _ _ => False) n → c.Cached P → c'.Sealed
  | _, _, _, _, .absent, _, _ => trivial
  | _, _, _, _, .stub, h, _ => h.2.elim
  | _, _, _, _, .clean, _, ⟨hcid, _⟩ => by
      obtain ⟨hb, data, hdata, hx⟩ := hP (hcid _ rfl)
      exact ⟨⟨data, hdata, congrArg some hx⟩, hb⟩
  | _, _, _, _, .node hbody hdata, ⟨_, hb, _⟩, ⟨_, hcached⟩ =>
      ⟨⟨_, hdata, rfl⟩, hbody.sealed hP hb hcached⟩

theorem WriteBody.sealed {P : Cid → Body → Prop}
    (hP : ∀ {x b}, P x b → b.Sealed ∧ ∃ data, encodeNode b = .ok data ∧ x = Cid.compute .drisl data) :
  ∀ {b b' : Body} {out : List (Cid × Bytes)} {h : ℕ}, WriteBody b b' out →
    b.Shaped (fun _ _ => False) h → b.Cached P → b'.Sealed
  | _, _, _, _, .edge hc, hb, hcached => hc.sealed hP hb hcached
  | _, _, _, _, .entry hc hrest, ⟨hb, _, hbrest⟩, ⟨hcached, hcached'⟩ =>
      ⟨hc.sealed hP hb hcached, hrest.sealed hP hbrest hcached'⟩

end

end Write

/-! ### Settling the counts -/

/-- `Tallied refs l s`: the counts are those of the list `l`, with an entry for each CID in
`s`. -/
def Tallied (refs : Refs) (l s : List Cid) : Prop :=
  ∀ c, refs c = if c ∈ s then some (l.count c) else none

theorem tallied_of_counted {refs : Refs} {l : List Cid} (h : Counted refs l) :
  Tallied refs l l
  := by
  intro c
  by_cases hc : c ∈ l
  · rw [h c, if_pos hc, if_neg (mt List.count_eq_zero.mp (not_not.mpr hc))]
  · rw [h c, if_neg hc, if_pos (List.count_eq_zero.mpr hc)]

theorem counted_of_tallied {refs : Refs} {l s : List Cid} (h : Tallied refs l s)
    (hs : ∀ c, c ∈ s ↔ c ∈ l) :
  Counted refs l
  := by
  intro c
  by_cases hc : c ∈ l
  · rw [h c, if_pos ((hs c).mpr hc), if_neg (mt List.count_eq_zero.mp (not_not.mpr hc))]
  · rw [h c, if_neg (mt (hs c).mp hc), if_pos (List.count_eq_zero.mpr hc)]

namespace DetachedTree

/-- Counting down what is counted succeeds. -/
theorem release_tallied :
  ∀ {released : List Cid} {refs : Refs} {kept s : List Cid}, Tallied refs (kept ++ released) s →
    (∀ c ∈ released, c ∈ s) → ∃ refs', release refs released = .ok refs' ∧ Tallied refs' kept s
  | [], refs, kept, s, h, _ => by
      rw [List.append_nil] at h
      exact ⟨refs, rfl, h⟩
  | cid :: released, refs, kept, s, h, hs => by
      have hcid : refs cid = some (kept.count cid + released.count cid + 1) := by
        rw [h cid, if_pos (hs cid List.mem_cons_self), List.count_append, List.count_cons_self]
        rfl
      rw [release, hcid]
      apply release_tallied _ (fun c hc => hs c (List.mem_cons_of_mem _ hc))
      intro c
      rcases eq_or_ne c cid with rfl | hne
      · rw [Function.update_self, if_pos (hs c List.mem_cons_self), List.count_append]
      · rw [Function.update_of_ne hne, h c, List.count_append, List.count_append,
          List.count_cons_of_ne hne.symm]

/-- Counting the blocks that were written keeps those that had no count. -/
theorem retain_tallied :
  ∀ {out : List (Cid × Bytes)} {refs : Refs} {kept s : List Cid}, Tallied refs kept s →
    (∀ c ∈ kept, c ∈ s) →
    Tallied (retain refs out).2 (kept ++ out.map Prod.fst) (s ++ out.map Prod.fst)
      ∧ (∀ p ∈ (retain refs out).1, p ∈ out ∧ p.1 ∉ s)
      ∧ (∀ p ∈ out, p.1 ∉ s → ∃ q ∈ (retain refs out).1, q.1 = p.1)
  | [], refs, kept, s, h, _ => by
      simpa [retain] using h
  | (cid, data) :: out, refs, kept, s, h, hs => by
      rw [retain]
      by_cases hcid : cid ∈ s
      · rw [h cid, if_pos hcid]
        have hnext : Tallied (Function.update refs cid (some (kept.count cid + 1)))
            (kept ++ [cid]) s := by
          intro c
          rcases eq_or_ne c cid with rfl | hne
          · rw [Function.update_self, if_pos hcid, List.count_append, List.count_singleton_self]
          · rw [Function.update_of_ne hne, h c, List.count_append,
              List.count_singleton, beq_false_of_ne hne.symm]
            rfl
        obtain ⟨htally, hnew, hall⟩ := (@retain_tallied out) hnext (by
          intro c hc
          rcases List.mem_append.mp hc with hc | hc
          · apply hs c hc
          · rw [List.mem_singleton.mp hc]
            apply hcid)
        refine ⟨?_, ?_, ?_⟩
        · intro c
          have hc := htally c
          rw [hc, List.append_assoc]
          simp only [List.map_cons, List.singleton_append, List.mem_append, List.mem_cons]
          by_cases hmem : c ∈ s ∨ c ∈ out.map Prod.fst
          · rw [if_pos hmem, if_pos (by tauto)]
          · rw [if_neg hmem, if_neg]
            rintro (hc | rfl | hc)
            · exact hmem (.inl hc)
            · exact hmem (.inl hcid)
            · exact hmem (.inr hc)
        · intro p hp
          obtain ⟨hmem, hnot⟩ := hnew p hp
          exact ⟨List.mem_cons_of_mem _ hmem, hnot⟩
        · intro p hp hnot
          rcases List.mem_cons.mp hp with rfl | hp
          · exact absurd hcid hnot
          · apply hall p hp hnot
      · rw [h cid, if_neg hcid]
        have hkept : cid ∉ kept := fun hmem => hcid (hs cid hmem)
        have hnext : Tallied (Function.update refs cid (some 1)) (kept ++ [cid]) (s ++ [cid]) := by
          intro c
          rcases eq_or_ne c cid with rfl | hne
          · rw [Function.update_self, if_pos (by simp), List.count_append,
              List.count_singleton_self, List.count_eq_zero_of_not_mem hkept]
          · rw [Function.update_of_ne hne, h c, List.count_append, List.count_singleton,
              beq_false_of_ne hne.symm]
            simp [hne]
        obtain ⟨htally, hnew, hall⟩ := (@retain_tallied out) hnext (by
          intro c hc
          rcases List.mem_append.mp hc with hc | hc
          · apply List.mem_append_left _ (hs c hc)
          · apply List.mem_append_right _ hc)
        refine ⟨?_, ?_, ?_⟩
        · intro c
          have hc := htally c
          rw [List.append_assoc, List.append_assoc] at hc
          exact hc
        · intro p hp
          rcases List.mem_cons.mp hp with rfl | hp
          · exact ⟨List.mem_cons_self, hcid⟩
          · obtain ⟨hmem, hnot⟩ := hnew p hp
            exact ⟨List.mem_cons_of_mem _ hmem, fun hs' => hnot (List.mem_append_left _ hs')⟩
        · intro p hp hnot
          by_cases heq : p.1 = cid
          · exact ⟨(cid, data), List.mem_cons_self, heq.symm⟩
          · rcases List.mem_cons.mp hp with rfl | hp
            · exact absurd rfl heq
            · obtain ⟨q, hq, hqp⟩ := hall p hp (by simp [hnot, heq])
              exact ⟨q, List.mem_cons_of_mem _ hq, hqp⟩

/-- Retiring the released CIDs removes those that no node carries. -/
theorem retire_tallied :
  ∀ {released : List Cid} {refs : Refs} {l s : List Cid}, Tallied refs l s →
    Tallied (retire refs released).2 l (s.filter (fun c => ¬ (c ∈ released ∧ c ∉ l)))
      ∧ ∀ c, c ∈ (retire refs released).1 ↔ c ∈ released ∧ c ∈ s ∧ c ∉ l
  | [], refs, l, s, h => by
      simpa [retire] using h
  | cid :: released, refs, l, s, h => by
      rw [retire]
      have hzero : refs cid = some 0 ↔ cid ∈ s ∧ cid ∉ l := by
        rw [h cid]
        by_cases hcid : cid ∈ s
        · simp [hcid, List.count_eq_zero]
        · simp [hcid]
      split
      · rename_i hcid
        obtain ⟨hmem, hnot⟩ := hzero.mp hcid
        have hnext : Tallied (Function.update refs cid none) l (s.filter (· ≠ cid)) := by
          intro c
          rcases eq_or_ne c cid with rfl | hne
          · simp
          · rw [Function.update_of_ne hne, h c]
            simp [hne]
        obtain ⟨htally, hret⟩ := (@retire_tallied released) hnext
        constructor
        · intro c
          rw [htally c]
          rcases eq_or_ne c cid with rfl | hne
          · simp [hnot]
          · simp [hne]
        · intro c
          rw [List.mem_cons, hret c, List.mem_cons]
          rcases eq_or_ne c cid with rfl | hne
          · simp [hmem, hnot]
          · simp [hne]
      · rename_i hcid
        obtain ⟨htally, hret⟩ := (@retire_tallied released) h
        constructor
        · intro c
          rw [htally c]
          rcases eq_or_ne c cid with rfl | hne
          · by_cases hmem : c ∈ s
            · have hl : c ∈ l := by
                by_contra hnot
                exact hcid (hzero.mpr ⟨hmem, hnot⟩)
              simp [hl]
            · simp [hmem]
          · simp [hne]
        · intro c
          rw [hret c, List.mem_cons]
          rcases eq_or_ne c cid with rfl | hne
          · have hnot : ¬ (c ∈ s ∧ c ∉ l) := mt hzero.mpr hcid
            simp only [true_or, true_and]
            tauto
          · simp [hne]

/-- What settling a flush does when the counts are those of the CIDs kept and released: it
succeeds, keeps the blocks that are new, retires what is no longer carried, and counts what
is carried now. -/
theorem settle_counted {t : DetachedTree} {written : List (Cid × Bytes)} {root : Cid}
    {kept : List Cid} (h : Counted t.refs (kept ++ t.released)) :
  ∃ w refs, t.settle written root = (.ok w, { t with refs, released := [] }) ∧ w.root = root
    ∧ Counted refs (kept ++ written.map Prod.fst)
    ∧ (∀ p ∈ w.newBlocks, p ∈ written ∧ p.1 ∉ kept ++ t.released)
    ∧ (∀ p ∈ written, p.1 ∉ kept ++ t.released → ∃ q ∈ w.newBlocks, q.1 = p.1)
    ∧ ∀ c, c ∈ w.retired ↔ c ∈ t.released ∧ c ∉ kept ∧ c ∉ written.map Prod.fst
  := by
  obtain ⟨refs₁, hrelease, htally₁⟩ := release_tallied (tallied_of_counted h)
    (fun c hc => List.mem_append_right _ hc)
  obtain ⟨htally₂, hnew, hall⟩ := (@retain_tallied written) htally₁
    (fun c hc => List.mem_append_left _ hc)
  obtain ⟨htally₃, hretired⟩ := (@retire_tallied t.released) htally₂
  rw [settle, hrelease]
  rcases hretain : retain refs₁ written with ⟨newBlocks, refs₂⟩
  rw [hretain] at htally₂ htally₃ hnew hall hretired
  rcases hretire : retire refs₂ t.released with ⟨retired, refs₃⟩
  rw [hretire] at htally₃ hretired
  refine ⟨{ root, newBlocks, retired := retired.insertionSort (· ≤ ·) }, refs₃, ?_, rfl, ?_, hnew,
    hall, ?_⟩
  · simp only [hretain, hretire]
  · apply counted_of_tallied htally₃
    intro c
    rw [List.mem_filter]
    simp only [List.mem_append, not_and, not_not, decide_eq_true_eq]
    tauto
  · intro c
    have hperm : c ∈ retired.insertionSort (· ≤ ·) ↔ c ∈ retired :=
      (List.perm_insertionSort _ retired).mem_iff
    simp only at hretired
    rw [hperm, hretired c]
    simp only [List.mem_append]
    tauto

end DetachedTree

end Shrike.Mst
