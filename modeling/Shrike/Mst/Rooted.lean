import Shrike.Mst.Tracking

/-!
# The root of a tree in memory

The forms that the root of a tree over a flushed tree has, and that every operation keeps:
absent, unread, empty, or a node with entries on their levels.
-/

namespace Shrike.Mst

open Holed

/-! ### Filling in -/

mutual

/-- A search that ends among the loaded nodes ends so in the tree filled in. -/
theorem Child.find_fill {known : Cid → Option (ℕ × Body)} {key : Key} {a : Option Cid} :
  ∀ {c : Child}, c.find key = .inl a → (c.fill known).find key = .inl a
  | .absent, h => h
  | .stub _ _, h => by cases h
  | .node _ _ _, h => Body.find_fill h

theorem Body.find_fill {known : Cid → Option (ℕ × Body)} {key : Key} {a : Option Cid} :
  ∀ {b : Body}, b.find key = .inl a → (b.fill known).find key = .inl a
  | .edge _, h => Child.find_fill h
  | .entry c k v rest, h => by
      rw [Body.find] at h
      rw [Body.fill, Body.find]
      split at h
      · rename_i hk
        rw [if_pos hk, Body.find_fill h]
      · rename_i hk
        rw [if_neg hk]
        split at h
        · rename_i heq
          rw [if_pos heq, h]
        · rename_i hne
          rw [if_neg hne, Child.find_fill h]

end

variable {b b' : Body}

theorem Body.hasEntry_fill {known : Cid → Option (ℕ × Body)} :
  (b.fill known).HasEntry ↔ b.HasEntry
  := by
  cases b with
  | edge c => simp [Body.fill, HasEntry]
  | entry c k v rest => simp [Body.fill, HasEntry]

theorem Body.hasEntry_stubbed :
  b.stubbed.HasEntry ↔ b.HasEntry
  := by
  cases b with
  | edge c => simp [Body.stubbed, HasEntry]
  | entry c k v rest => simp [Body.stubbed, HasEntry]

theorem Body.HasEntry.nonempty (h : b.HasEntry) :
  b ≠ .edge .absent
  := by
  obtain ⟨c, k, v, rest, rfl⟩ := h
  simp

variable [Hashing]

mutual

/-- A complete tree on its levels has no holes. -/
theorem Child.Shaped.solid :
  ∀ {c : Child} {n : ℕ}, c.Shaped (fun _ _ => False) n → Solid c.items
  | .absent, _, _ => by simp [Child.items, Solid]
  | .stub _ _, _, h => h.2.elim
  | .node _ _ _, _, h => h.2.1.solid

theorem Body.Shaped.solid :
  ∀ {b : Body} {h : ℕ}, b.Shaped (fun _ _ => False) h → Solid b.items
  | .edge _, _, h => Child.Shaped.solid h
  | .entry c k v rest, _, ⟨hc, _, hrest⟩ => by
      intro x hx
      rw [Body.items, List.mem_append, List.mem_cons] at hx
      rcases hx with hx | hx | hx
      · apply hc.solid x hx
      · cases hx
      · apply hrest.solid x hx

end

mutual

/-- A tree on its levels, filled in, is complete and on its levels. -/
theorem Ground.shaped_fill {F : Child} (hF : Ground F) :
  ∀ {c : Child} {n : ℕ}, c.Shaped (Known F) n →
    (c.fill (knownNode F)).Shaped (fun _ _ => False) n
  | .absent, _, _ => trivial
  | .stub _ _, _, ⟨hn, b, hknown, hne⟩ => by
      obtain ⟨pl, hb⟩ := hF.standing (List.mem_of_lookup hknown)
      rw [Child.fill, hknown]
      exact ⟨hn, hb.shaped, hne⟩
  | .node _ _ b, _, ⟨hn, hb, hne⟩ => by
      refine ⟨hn, hF.shapedBody_fill hb, ?_⟩
      intro heq
      cases b with
      | entry => cases heq
      | edge c =>
          apply hne
          rw [Child.fill_absent_iff.mp (Body.edge.inj heq)]

theorem Ground.shapedBody_fill {F : Child} (hF : Ground F) :
  ∀ {b : Body} {h : ℕ}, b.Shaped (Known F) h →
    (b.fill (knownNode F)).Shaped (fun _ _ => False) h
  | .edge _, _, hc => hF.shaped_fill hc
  | .entry _ _ _ _, _, ⟨hc, hk, hrest⟩ => ⟨hF.shaped_fill hc, hk, hF.shapedBody_fill hrest⟩

end

theorem LoadsBody.hasEntry {src : BlockSource} {pl : Place}
    (h : LoadsBody src pl b b') (hb : b.HasEntry) :
  b'.HasEntry
  := by
  obtain ⟨c, k, v, rest, rfl⟩ := hb
  cases h with
  | entry hc hrest => exact ⟨_, _, _, _, rfl⟩

/-! ### Roots -/

/-- The root of a tree over a flushed tree: absent, unread, the empty node, or a node with
entries on their levels. An unread root has entries too, or is the empty node. -/
inductive Rooted (F : Child) : Child → Prop
  | absent : Rooted F .absent
  | unread {cid h} {b : Body} (hknown : knownNode F cid = some (h, b))
      (hb : b.HasEntry ∨ h = 0 ∧ b = .edge .absent) : Rooted F (.stub cid 0)
  | empty {cid} : Rooted F (.node cid 0 (.edge .absent))
  | node {cid h} {b : Body} (hentry : b.HasEntry)
      (hb : b.Shaped (Known F) h) : Rooted F (.node cid h b)

/-- A complete tree: absent, the empty node, or a node with entries on their levels. -/
inductive Whole : Child → Prop
  | absent : Whole .absent
  | empty {cid} : Whole (.node cid 0 (.edge .absent))
  | node {cid h} {b : Body} (hentry : b.HasEntry)
      (hb : b.Shaped (fun _ _ => False) h) : Whole (.node cid h b)

section Rooted

variable {F : Child}

variable {c c' n : Child}

theorem Rooted.whole (hF : Ground F) (h : Rooted F c) :
  Whole (c.fill (knownNode F))
  := by
  cases h with
  | absent => exact .absent
  | unread hknown hb =>
      obtain ⟨pl, hstand⟩ := hF.standing (List.mem_of_lookup hknown)
      rw [Child.fill, hknown]
      rcases hb with hentry | ⟨rfl, rfl⟩
      · exact .node hentry hstand.shaped
      · exact .empty
  | empty => exact .empty
  | node hentry hb => exact .node (Body.hasEntry_fill.mpr hentry) (hF.shapedBody_fill hb)

/-- Reading more of a tree keeps the form of its root, and what it is filled in. -/
theorem Rooted.loads (hF : Ground F) {src : BlockSource} (hsrc : Faithful src F)
    (hloads : Loads src .root c c') (h : Rooted F c) :
  Rooted F c' ∧ c'.fill (knownNode F) = c.fill (knownNode F)
  := by
  cases h with
  | absent =>
      cases hloads
      exact ⟨.absent, rfl⟩
  | unread hknown hb =>
      cases hloads with
      | refl => exact ⟨.unread hknown hb, rfl⟩
      | read hread hbody =>
          have hmem := List.mem_of_lookup hknown
          obtain ⟨pl, hstand⟩ := hF.standing hmem
          obtain ⟨rfl, rfl⟩ := hF.reads hsrc hknown (hb.imp_right fun h => h.1.symm) hread
          obtain ⟨hshaped, hfill⟩ := hF.stubbed_body hstand (hF.sub hmem)
          obtain ⟨hshaped', hfill'⟩ := hF.loadsBody hsrc hbody hshaped
          constructor
          · rcases hb with hentry | ⟨rfl, rfl⟩
            · exact .node (hbody.hasEntry (Body.hasEntry_stubbed.mpr hentry)) hshaped'
            · cases hbody with
              | edge hc =>
                  cases hc
                  exact .empty
          · rw [Child.fill, Child.fill, hknown, hfill', hfill]
  | empty =>
      cases hloads with
      | refl => exact ⟨.empty, rfl⟩
      | node hbody =>
          cases hbody with
          | edge hc =>
              cases hc
              exact ⟨.empty, rfl⟩
  | node hentry hb =>
      cases hloads with
      | refl => exact ⟨.node hentry hb, rfl⟩
      | node hbody =>
          obtain ⟨hshaped, hfill⟩ := hF.loadsBody hsrc hbody hb
          refine ⟨.node (hbody.hasEntry hentry) hshaped, ?_⟩
          rw [Child.fill, Child.fill, hfill]

variable {key : Key} {val : Cid}

omit [Hashing] in
/-- Splitting a chain of empty nodes leaves nothing. -/
theorem Split.empty_chain {cid : Option Cid} {l r : Child} {released : List Cid} :
  ∀ {n : ℕ}, Split key (wrap (.node cid 0 (.edge .absent)) n) l r released →
    l = .absent ∧ r = .absent
  | 0, .node (.edge .absent) => ⟨rfl, rfl⟩
  | n + 1, .node (.edge hc) => by
      obtain ⟨rfl, rfl⟩ := Split.empty_chain hc
      exact ⟨rfl, rfl⟩

omit [Hashing] in
theorem InsertAt.hasEntry {b b' : Body} {released : List Cid} (h : InsertAt key val b b' released) :
  b'.HasEntry
  := by
  cases h <;> exact ⟨_, _, _, _, rfl⟩

/-- An insert keeps the form of the root. -/
theorem Insert.rooted {released : List Cid}
    (h : Insert key val (heightForKey key) c c' released) (hc : Rooted F c) :
  Rooted F c'
  := by
  generalize hkey : heightForKey key = height at h
  cases hc with
  | absent =>
      cases h
      exact .node ⟨_, _, _, _, rfl⟩ ⟨trivial, hkey, trivial⟩
  | unread => cases h
  | empty =>
      cases h with
      | raise hh hbody =>
          cases hbody with
          | edge hc =>
              obtain ⟨rfl, rfl⟩ := hc.empty_chain
              exact .node ⟨_, _, _, _, rfl⟩ ⟨trivial, hkey, trivial⟩
      | down hh => exact absurd hh (Nat.not_lt_zero _)
      | level hbody =>
          cases hbody with
          | edge hc =>
              cases hc
              exact .node ⟨_, _, _, _, rfl⟩ ⟨trivial, hkey, trivial⟩
  | @node cid h₀ b hentry hb =>
      cases h with
      | raise hh hbody =>
          have hwrap := (@wrap_shaped _ _ cid) ⟨rfl, hb, hentry.nonempty⟩
            (height - h₀ - 1)
          rw [show h₀ + (height - h₀ - 1) + 1 = height by omega] at hwrap
          exact .node hbody.hasEntry (hbody.shaped hkey hwrap)
      | down hh hbody =>
          refine .node ?_ (hbody.shaped hkey hh hb)
          obtain ⟨c, k, v, rest, rfl⟩ := hentry
          cases hbody <;> exact ⟨_, _, _, _, rfl⟩
      | level hbody => exact .node hbody.hasEntry (hbody.shaped hkey hb)

/-- An update keeps the form of the root. -/
theorem Update.rooted {released : List Cid} (h : Update key val c c' released) (hc : Rooted F c) :
  Rooted F c'
  := by
  cases hc with
  | absent => cases h
  | unread => cases h
  | empty =>
      cases h with
      | node hbody =>
          cases hbody with
          | edge hc => cases hc
  | node hentry hb =>
      cases h with
      | node hbody =>
          refine .node ?_ (hbody.shaped hb)
          obtain ⟨c, k, v, rest, rfl⟩ := hentry
          cases hbody <;> exact ⟨_, _, _, _, rfl⟩

/-- A known node of height 0 has entries. -/
theorem Ground.hasEntry (hF : Ground F) {cid : Cid} {b : Body}
    (hknown : knownNode F cid = some (0, b)) (hne : b ≠ .edge .absent) :
  b.HasEntry
  := by
  obtain ⟨pl, hb⟩ := hF.standing (List.mem_of_lookup hknown)
  cases b with
  | entry c k v rest => exact ⟨c, k, v, rest, rfl⟩
  | edge c =>
      cases c with
      | absent => exact absurd rfl hne
      | stub cid' h => exact hb.isSealed.elim
      | node cid' h b => exact absurd hb.shaped.1 (Nat.succ_ne_zero h)

/-- Collapsing the root chain leaves a root, and does the same to the tree filled in. -/
theorem Trim.rooted (hF : Ground F) {released : List Cid} (h : Trim c c' released) :
  ∀ {n : ℕ}, c.Shaped (Known F) n →
    Rooted F c' ∧ Trim (c.fill (knownNode F)) (c'.fill (knownNode F)) released
  := by
  induction h with
  | absent =>
      intro n hc
      exact ⟨.absent, .absent⟩
  | stub =>
      rintro n ⟨-, b, hknown, hne⟩
      have hentry := hF.hasEntry hknown hne
      refine ⟨.unread hknown (.inl hentry), ?_⟩
      rw [Child.fill, hknown]
      obtain ⟨c, k, v, rest, rfl⟩ := hentry
      exact .stop
  | down _ ih =>
      rintro n ⟨-, hc, -⟩
      obtain ⟨hrooted, htrim⟩ := ih hc
      exact ⟨hrooted, .down htrim⟩
  | stop =>
      rintro n ⟨-, hb, -⟩
      exact ⟨.node ⟨_, _, _, _, rfl⟩ hb, .stop⟩

/-- A remove, with the collapse of the root chain, keeps the form of the root. -/
theorem Remove.rooted (hF : Ground F) {released trimmed : List Cid}
    (h : Remove key c n val released) (htrim : Trim n c' trimmed) (hc : Rooted F c) :
  Rooted F c' ∧ Trim (n.fill (knownNode F)) (c'.fill (knownNode F)) trimmed
  := by
  cases hc with
  | absent => cases h
  | unread => cases h
  | empty =>
      cases h with
      | node hbody =>
          cases hbody with
          | edge hc => cases hc
  | @node cid h₀ b hentry hb =>
      apply htrim.rooted hF (n := h₀ + 1)
      apply h.shaped ⟨rfl, hb, hentry.nonempty⟩

end Rooted

end Shrike.Mst
