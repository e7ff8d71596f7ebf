import Shrike.Data.Words
import Shrike.Mst.CoveringProof
import Shrike.Mst.Store

/-!
# Node blocks written and read back

How a node in memory is written straight into a buffer, its keys cut against the ones before
them eight bytes at a time, and that the block it leaves is read back as the node.
-/

namespace Shrike.Mst

open Bytes Except

/-! ### Links -/

theorem compress_links :
  ∀ (prev : Key) (links : List (Key × Cid × Option Cid)),
    ((links.map Prod.fst).zip (compress prev links)).map (fun e => (e.1, e.2.value, e.2.right))
      = links
  | _, [] => rfl
  | prev, (key, val, right) :: links => by
      rw [compress, List.map_cons, List.zip_cons_cons, List.map_cons, compress_links key links]

theorem stubAt_link_eq (h : ℕ) (c : Option Cid) :
  (stubAt h c).link = .ok c
  := by
  cases c with
  | none => rfl
  | some c => rfl

theorem stubBody_links (h : ℕ) :
  ∀ (left : Option Cid) (es : List (Key × EntryData)),
    (stubBody h left es).first.link = .ok left
      ∧ (stubBody h left es).links = .ok (es.map fun e => (e.1, e.2.value, e.2.right))
  | left, [] => ⟨stubAt_link_eq h left, rfl⟩
  | left, (key, ed) :: es => by
      obtain ⟨hfirst, hlinks⟩ := stubBody_links h ed.right es
      refine ⟨stubAt_link_eq h left, ?_⟩
      rw [stubBody, Body.links, hfirst, ok_bind, hlinks]
      rfl

/-! ### Prefixes, a word at a time -/

/-- The length of the common prefix of two keys, whose first bytes are compared in the given
number of words and the others one by one. -/
def chunkPrefixLen : ℕ → Key → Key → ℕ
  | 0, a, b => sharedPrefixLen a b
  | n + 1, a, b =>
      let diff := ofLe (a.take 8) ^^^ ofLe (b.take 8)
      if diff ≠ 0 then trailingZeros 64 diff / 8
      else 8 + chunkPrefixLen n (a.drop 8) (b.drop 8)

/-- The length of the common prefix of two keys, compared in words while both have one. -/
def wordPrefixLen (a b : Key) : ℕ := chunkPrefixLen (min (a.length / 8) (b.length / 8)) a b

theorem sharedPrefixLen_cons_self (x : UInt8) (a b : Key) :
  sharedPrefixLen (x :: a) (x :: b) = sharedPrefixLen a b + 1
  := by
  rw [sharedPrefixLen, if_pos rfl]

theorem sharedPrefixLen_append (p a b : Key) :
  sharedPrefixLen (p ++ a) (p ++ b) = p.length + sharedPrefixLen a b
  := by
  induction p with
  | nil => simp
  | cons x p ih =>
      rw [List.cons_append, List.cons_append, sharedPrefixLen_cons_self, ih, List.length_cons]
      omega

/-- The lowest bit that is set is in the lowest byte when that is not zero. -/
theorem trailingZeros_lt {bits n : ℕ} (h : n % 256 ≠ 0) :
  trailingZeros (bits + 8) n < 8
  := by
  have hstep : ∀ {bits n k : ℕ}, (n % 2 ≠ 1 → trailingZeros bits (n / 2) < k) →
      trailingZeros (bits + 1) n < k + 1 := by
    intro bits n k hk
    rw [trailingZeros]
    split
    · omega
    · have := hk ‹_›
      omega
  apply hstep
  intro h₁
  apply hstep
  intro h₂
  apply hstep
  intro h₃
  apply hstep
  intro h₄
  apply hstep
  intro h₅
  apply hstep
  intro h₆
  apply hstep
  intro h₇
  apply hstep
  intro h₈
  omega

theorem eq_of_xor_eq_zero {m n : ℕ} (h : m ^^^ n = 0) :
  m = n
  := by
  have hcancel : m ^^^ n ^^^ n = n := by rw [h, Nat.zero_xor]
  rw [Nat.xor_assoc, Nat.xor_self, Nat.xor_zero] at hcancel
  exact hcancel

/-- The first byte in which two words differ is the lowest that is set in their difference. -/
theorem trailingZeros_xor (a b : Key) :
  ∀ {x y : Bytes}, x.length = y.length → ofLe x ^^^ ofLe y ≠ 0 →
    trailingZeros (8 * x.length) (ofLe x ^^^ ofLe y) / 8 = sharedPrefixLen (x ++ a) (y ++ b)
  | [], [], _, h => absurd rfl h
  | c :: x, d :: y, hlen, h => by
      have hxor : ofLe (c :: x) ^^^ ofLe (d :: y)
          = (c.toNat ^^^ d.toNat) + 256 * (ofLe x ^^^ ofLe y) := xor_byte c.toNat_lt d.toNat_lt
      rw [hxor] at h ⊢
      rw [List.length_cons, Nat.mul_succ, List.cons_append, List.cons_append]
      rcases eq_or_ne c d with rfl | hne
      · rw [Nat.xor_self, Nat.zero_add] at h ⊢
        have ih := trailingZeros_xor a b (Nat.succ.inj hlen) (by omega)
        rw [trailingZeros_byte, Nat.add_div_right _ (by decide), ih, sharedPrefixLen_cons_self]
      · have hlow : (c.toNat ^^^ d.toNat) % 256 ≠ 0 := by
          have hlt : c.toNat ^^^ d.toNat < 256 := Nat.xor_lt_two_pow (n := 8) c.toNat_lt d.toNat_lt
          rw [Nat.mod_eq_of_lt hlt]
          intro hzero
          exact hne (UInt8.toNat_inj.mp (eq_of_xor_eq_zero hzero))
        have hlt := @trailingZeros_lt (8 * x.length)
          ((c.toNat ^^^ d.toNat) + 256 * (ofLe x ^^^ ofLe y)) (by omega)
        rw [Nat.div_eq_of_lt hlt, sharedPrefixLen, if_neg hne]

theorem eq_of_ofLe_xor {x y : Bytes} (hlen : x.length = y.length)
    (h : ofLe x ^^^ ofLe y = 0) :
  x = y
  := by
  rw [← le_ofLe (rfl : x.length = x.length), eq_of_xor_eq_zero h, le_ofLe hlen.symm]

theorem chunkPrefixLen_eq :
  ∀ {n : ℕ} {a b : Key}, 8 * n ≤ a.length → 8 * n ≤ b.length →
    chunkPrefixLen n a b = sharedPrefixLen a b
  | 0, _, _, _, _ => rfl
  | n + 1, a, b, ha, hb => by
      have hta : (a.take 8).length = 8 := by rw [List.length_take]; omega
      have htb : (b.take 8).length = 8 := by rw [List.length_take]; omega
      have hsplit : sharedPrefixLen a b
          = sharedPrefixLen (a.take 8 ++ a.drop 8) (b.take 8 ++ b.drop 8) := by
        rw [List.take_append_drop, List.take_append_drop]
      rw [chunkPrefixLen]
      split
      · rename_i hdiff
        rw [hsplit, ← trailingZeros_xor _ _ (hta.trans htb.symm) hdiff, hta]
      · rename_i hdiff
        have heq := eq_of_ofLe_xor (hta.trans htb.symm) (not_not.mp hdiff)
        have ih := @chunkPrefixLen_eq n (a.drop 8) (b.drop 8)
          (by rw [List.length_drop]; omega) (by rw [List.length_drop]; omega)
        rw [hsplit, heq, sharedPrefixLen_append, htb, ih]

/-- Comparing words finds the same common prefix as comparing bytes. -/
theorem wordPrefixLen_eq (a b : Key) :
  wordPrefixLen a b = sharedPrefixLen a b
  := by
  apply chunkPrefixLen_eq
  · have := Nat.min_le_left (a.length / 8) (b.length / 8)
    omega
  · have := Nat.min_le_right (a.length / 8) (b.length / 8)
    omega

/-! ### Writing -/

/-- Append the entries of a node to a buffer, after an entry with key `prev`. -/
def putEntries : Key → Body → Bytes → Except MstError Bytes
  | _, .edge _, buf => .ok buf
  | prev, .entry _ key val rest, buf => do
      let right ← rest.first.link
      let prefixLen := wordPrefixLen prev key
      putEntries key rest
        (buf ++ putEntry { prefixLen, keySuffix := key.drop prefixLen, value := val, right })

/-- Append the block of a node in memory to a buffer. -/
def encodeNodeInto (b : Body) (buf : Bytes) : Except MstError Bytes := do
  let left ← b.first.link
  let buf ← putEntries [] b (buf ++ startNode b.size)
  .ok (buf ++ finishNode left)

theorem putEntries_eq :
  ∀ (prev : Key) (b : Body) (buf : Bytes),
    putEntries prev b buf = b.links.map fun links => buf ++ (compress prev links).flatMap putEntry
  | _, .edge _, buf => by
      rw [putEntries, Body.links]
      simp [Except.map, compress]
  | prev, .entry _ key val rest, buf => by
      rw [putEntries, Body.links]
      cases rest.first.link with
      | error e => rfl
      | ok right =>
          simp only [ok_bind, putEntries_eq key rest, wordPrefixLen_eq]
          cases rest.links with
          | error e => rfl
          | ok links => simp [Except.map, compress]

/-- Writing a node into a buffer appends the encoding of the node with its keys compressed, and
fails when a subtree has no CID. -/
theorem encodeNodeInto_eq (b : Body) (buf : Bytes) :
  encodeNodeInto b buf = (encodeNode b).map (buf ++ ·)
  := by
  rw [encodeNodeInto, encodeNode]
  cases b.first.link with
  | error e => rfl
  | ok left =>
      simp only [ok_bind, putEntries_eq]
      cases hlinks : b.links with
      | error e => rfl
      | ok links =>
          have hlen := (compress_length [] links).trans (Body.links_length hlinks)
          simp [Except.map, encodeNodeData, hlen]

/-! ### Reading back -/

/-- Every subtree of a node is absent or unread. -/
def Body.Unread : Body → Prop
  | .edge c => ∀ cid h b, c ≠ .node cid h b
  | .entry c _ _ rest => (∀ cid h b, c ≠ .node cid h b) ∧ rest.Unread

theorem stubAt_ne_node (height : ℕ) (c : Option Cid) (cid : Option Cid) (h : ℕ) (b : Body) :
  stubAt height c ≠ .node cid h b
  := by
  cases c with
  | none => simp [stubAt]
  | some c => simp [stubAt]

theorem stubBody_unread (height : ℕ) :
  ∀ (left : Option Cid) (es : List (Key × EntryData)), (stubBody height left es).Unread
  | left, [] => stubAt_ne_node height left
  | left, (_, ed) :: es => ⟨stubAt_ne_node height left, stubBody_unread height ed.right es⟩

section

variable [Hashing]

/-- A node whose links are known, with valid ascending keys and not too many of them, writes the
block of the node with its keys compressed, which decodes to that node. At any place that admits
the first and the last key the node that is read has the same left link, keys, values and right
links, and its height is that of its first key, or the one it was seeded with. -/
theorem populateNode_encodeNodeInto {b : Body} {left : Option Cid}
    {links : List (Key × Cid × Option Cid)} (hleft : b.first.link = .ok left)
    (hlinks : b.links = .ok links) (hsorted : (links.map Prod.fst).Pairwise (· < ·))
    (hvalid : ∀ e ∈ links, isValidKey e.1 = true) (hlen : links.length ≤ maxEntriesPerNode)
    (buf : Bytes) :
  ∃ data nd, encodeNodeInto b buf = .ok (buf ++ data)
    ∧ nd = { left, entries := compress [] links } ∧ data = encodeNodeData nd
    ∧ decodeNodeData data = .ok nd
    ∧ ∀ (height : ℕ) (pl : Place), (∀ e ∈ links.head?, pl.admits e.1 = true) →
      (∀ e ∈ links.getLast?, pl.admits e.1 = true) →
      ∃ height' body, populateNode height nd pl = .ok (height', body)
        ∧ height' = (links.head?.map fun e => heightForKey e.1).getD height
        ∧ body.first.link = .ok left ∧ body.links = .ok links ∧ body.Unread
  := by
  have hfits := compress_fits hvalid [] (Nat.zero_le _)
  have hkeys : forEachKey { left, entries := compress [] links } = .ok (links.map Prod.fst) :=
    keysFrom_compress links true [] hvalid hsorted (by simp)
  refine ⟨_, _, ?_, rfl, rfl, ?_, ?_⟩
  · rw [encodeNodeInto_eq, encodeNode, hleft, ok_bind, hlinks]
    rfl
  · apply decodeNodeData_encodeNodeData hfits
    rw [compress_length]
    exact hlen
  · intro height pl hhead hlast
    let height' := ((links.map Prod.fst).head?.map heightForKey).getD height
    let es := (links.map Prod.fst).zip (compress [] links)
    obtain ⟨hfirst, hstubs⟩ := stubBody_links (height' - 1) left es
    rw [compress_links] at hstubs
    have hfind : ((links.map Prod.fst).head?.toList ++ (links.map Prod.fst).getLast?.toList).find?
        (fun key => !pl.admits key) = none := by
      rw [List.find?_eq_none]
      intro k hk
      rw [List.mem_append, Option.mem_toList, Option.mem_toList, List.head?_map,
        List.getLast?_map, Option.map_eq_some_iff, Option.map_eq_some_iff] at hk
      rcases hk with ⟨e, he, rfl⟩ | ⟨e, he, rfl⟩
      · simpa using hhead e he
      · simpa using hlast e he
    have hread : populateNode height { left, entries := compress [] links } pl
        = .ok (height', stubBody (height' - 1) left es) := by
      rw [populateNode, hkeys, ok_bind]
      simp only [hfind]
      rfl
    refine ⟨_, _, hread, ?_, hfirst, hstubs, stubBody_unread _ _ _⟩
    simp only [height', List.head?_map, Option.map_map]
    rfl

end

/-! ### A node of two entries -/

namespace Pair

attribute [local instance] Hashing.checksum

/-- The CID of every subtree and value of the example. -/
def cid : Cid := ⟨.raw, .fill 0⟩

/-- The links of the node: `c/a` without a right subtree, and `c/ab` with one. -/
def links : List (Key × Cid × Option Cid) :=
  [([0x63, 0x2f, 0x61], cid, none), ([0x63, 0x2f, 0x61, 0x62], cid, some cid)]

/-- A node that holds `c/a` and `c/ab` between subtrees that have not been read. -/
def node : Body :=
  .entry (.stub cid 0) [0x63, 0x2f, 0x61] cid
    (.entry .absent [0x63, 0x2f, 0x61, 0x62] cid (.edge (.stub cid 0)))

/-- The node is read back from its block at the root. -/
theorem node_read_back :
  ∃ data nd height body, encodeNodeInto node [] = .ok data ∧ decodeNodeData data = .ok nd
    ∧ populateNode 0 nd .root = .ok (height, body) ∧ body.first.link = .ok (some cid)
    ∧ body.links = .ok links
  := by
  obtain ⟨data, nd, hwrite, -, -, hdecode, hread⟩ :=
    @populateNode_encodeNodeInto _ node (some cid) links rfl rfl (by decide +kernel)
      (by decide +kernel) (by decide +kernel) []
  obtain ⟨height, body, hbody, -, hleft, hlinks, -⟩ :=
    hread 0 .root (fun _ _ => rfl) (fun _ _ => rfl)
  exact ⟨data, nd, height, body, hwrite, hdecode, hbody, hleft, hlinks⟩

end Pair

end Shrike.Mst
