import Shrike.Repo.Proof

/-!
# Record proofs are sound

What the verification of a record proof accepts holds of the whole tree of the commit: a lookup
over the blocks of a proof finds what a lookup over all blocks finds, since blocks with the same
CID are the same block.
-/

namespace Shrike.Repo

open Cbor Syntax Mst Car Bytes Except

section Verify

variable [Hashing]

/-! ### Opening a proof -/

/-- Every block of a store matches its CID. -/
def Hashed (blocks : Blocks) : Prop :=
  ∀ cid data, blocks cid = some data → Cid.compute cid.codec data = cid

/-- Blocks added one after the other match their CIDs, and are among the blocks that were
added. -/
theorem addBlocks_hashed {S : Set Bytes} :
  ∀ {found : List Block} {blocks blocks' : Blocks}, found.foldlM addBlock blocks = .ok blocks' →
    (∀ b ∈ found, b.data ∈ S) → Hashed blocks → (∀ cid, ∀ data ∈ blocks cid, data ∈ S) →
    Hashed blocks' ∧ ∀ cid, ∀ data ∈ blocks' cid, data ∈ S
  | [], _, _, h, _, hhashed, hmem => by
      cases h
      exact ⟨hhashed, hmem⟩
  | b :: found, blocks, blocks', h, hfound, hhashed, hmem => by
      rw [List.foldlM_cons] at h
      obtain ⟨blocks₁, hadd, h⟩ := bind_eq_ok.mp h
      have hrest : ∀ b ∈ found, b.data ∈ S := fun b hb => hfound b (List.mem_cons_of_mem _ hb)
      rw [addBlock] at hadd
      split at hadd
      · cases hadd
      · rename_i hcid
        rw [not_not] at hcid
        cases hadd
        split at h
        · apply addBlocks_hashed h hrest hhashed hmem
        · apply addBlocks_hashed h hrest
          · intro cid data hdata
            rw [Function.update_apply] at hdata
            split at hdata
            · rename_i heq
              cases hdata
              rw [heq, hcid]
            · apply hhashed cid data hdata
          · intro cid data hdata
            rw [Option.mem_def, Function.update_apply] at hdata
            split at hdata
            · cases hdata
              apply hfound b List.mem_cons_self
            · apply hmem cid data hdata

/-- What an opened proof is: a commit of the DID with a signature that the key accepts, and
blocks that match their CIDs. -/
structure Opened (S : Set Bytes) (did : Did) (key : VerifyingKey) (o : OpenProof) : Prop where
  did : o.commit.did = did
  signed : o.commit.SignedBy key
  hashed : Hashed o.blocks
  mem : ∀ cid, ∀ data ∈ o.blocks cid, data ∈ S

variable {car data : Bytes}

theorem openProof_opened {S : Set Bytes} {did : Did} {key : VerifyingKey}
    {o : OpenProof} (hcar : ∀ b ∈ (SliceReader.run car).blocks, b.data ∈ S)
    (h : openProof car did key = .ok o) :
  Opened S did key o
  := by
  rw [openProof] at h
  split at h
  · cases h
  · rename_i reader hreader
    split at h
    · rename_i commitCid hroots
      obtain ⟨blocks, hblocks, h⟩ := bind_eq_ok.mp h
      obtain ⟨data, -, h⟩ := bind_eq_ok.mp h
      split at h
      · cases h
      · rename_i commit hcommit
        split at h
        · cases h
        · rename_i hdid
          split at h
          · cases h
          · rename_i hverify
            cases h
            have hread : Hashed blocks ∧ ∀ cid, ∀ data ∈ blocks cid, data ∈ S := by
              rw [SliceReader.run, hreader] at hcar
              rw [readBlocks] at hblocks
              obtain ⟨blocks', hfold, hblocks⟩ := bind_eq_ok.mp hblocks
              split at hblocks
              · cases hblocks
              · cases hblocks
                apply addBlocks_hashed hfold hcar
                · intro cid data hdata
                  cases hdata
                · intro cid data hdata
                  cases hdata
            exact ⟨not_not.mp hdid, Commit.signedBy_of_verify hverify, hread.1, hread.2⟩
    · cases h

omit [Hashing] in
theorem drislBlock_ok {blocks : Blocks} {cid : Cid} (h : drislBlock blocks cid = .ok data) :
  blocks cid = some data
  := by
  rw [drislBlock] at h
  split at h
  · cases h
  · split at h
    · cases h
    · rename_i hdata
      cases h
      apply hdata

omit [Hashing] in
theorem recordBlock_ok {blocks : Blocks} {cid : Cid} (h : recordBlock blocks cid = .ok data) :
  blocks cid = some data
  := by
  rw [recordBlock] at h
  obtain ⟨data', hdata, h⟩ := bind_eq_ok.mp h
  split at h
  · cases h
    apply drislBlock_ok hdata
  · cases h

/-! ### The whole tree -/

/-- `TreeAt S store root items`: a store has all blocks of the tree with the given root, the
blocks match their CIDs, and they load without error, with the entries `items`. -/
structure TreeAt (S : Set Bytes) (store : Blocks) (root : Cid) (items : List (Key × Cid)) :
    Prop where
  hashed : Hashed store
  mem : ∀ cid, ∀ data ∈ store cid, data ∈ S
  loads : LoadsAll store root items

/-- Look up a record in the tree with the given root. -/
def lookup (store : Blocks) (root : Cid) (collection : Nsid) (rkey : RecordKey) :
    Except MstError (Option Cid) :=
  ((DetachedTree.load root).get store.source (mstKey collection rkey)).1

/-- A claim is what a lookup in the tree finds. -/
def RecordClaim.Holds (store : Blocks) (root : Cid) (claim : RecordClaim) : Prop :=
  lookup store root claim.collection claim.rkey = .ok claim.cid

/-- A key spells the path of a record: it is the record key after a text that reads as the
collection, which may have the letters of its authority in another case. -/
def Spells (k : Key) (collection : Nsid) (rkey : RecordKey) : Prop :=
  ∃ c, Nsid.tryFrom c = .ok collection ∧ k = c ++ char '/' :: rkey.raw

/-- A claim is not what a lookup in the tree finds. -/
def RecordClaim.Fails (store : Blocks) (root : Cid) (claim : RecordClaim) : Prop :=
  ∃ found, lookup store root claim.collection claim.rkey = .ok found ∧ found ≠ claim.cid

section Sound

variable {S : Set Bytes} {did : Did} {key : VerifyingKey} {o : OpenProof} {store : Blocks}
  {items : List (Key × Cid)}

/-- The blocks of a proof are those of the tree, where both have one. -/
theorem Opened.agree (hinj : ∀ codec, S.InjOn (Cid.compute codec)) (ho : Opened S did key o)
    {root : Cid} (htree : TreeAt S store root items) :
  o.blocks.Agree store
  := by
  intro cid x y hx hy
  apply hinj cid.codec (ho.mem cid x hx) (htree.mem cid y hy)
  rw [ho.hashed cid x hx, htree.hashed cid y hy]

/-- The claims a proof shows to be true hold, and those it shows to be false fail. -/
theorem checkClaims_sound {root : Cid} {blocks : Blocks} (htree : LoadsAll store root items)
    (hagree : blocks.Agree store) :
  ∀ {claims verified unverified : List RecordClaim} {t : DetachedTree},
    Loads blocks.source .root (DetachedTree.load root).root t.root →
    checkClaims blocks t claims = .ok (verified, unverified) →
    (∀ claim ∈ verified, claim.Holds store root) ∧ ∀ claim ∈ unverified, claim.Fails store root
  | [], _, _, _, _, h => by
      cases h
      simp
  | claim :: claims, verified, unverified, t, ht, h => by
      rw [checkClaims] at h
      split at h
      · cases h
      · rename_i found t' hget
        have hfound := htree.get_agrees hagree ht hget
        have ht' := (DetachedTree.get_finds ht hget).2
        obtain ⟨-, -, h⟩ := bind_eq_ok.mp h
        obtain ⟨⟨verified', unverified'⟩, hclaims, h⟩ := bind_eq_ok.mp h
        obtain ⟨hholds, hfails⟩ := checkClaims_sound htree hagree ht' hclaims
        dsimp only at h
        split at h
        · rename_i hcid
          cases h
          refine ⟨?_, hfails⟩
          intro c hc
          rcases List.mem_cons.mp hc with rfl | hc
          · rw [RecordClaim.Holds, ← hcid]
            apply hfound
          · apply hholds c hc
        · rename_i hcid
          cases h
          refine ⟨hholds, ?_⟩
          intro c hc
          rcases List.mem_cons.mp hc with rfl | hc
          · exact ⟨found, hfound, hcid⟩
          · apply hfails c hc

omit [Hashing] in
/-- The key of an entry spells the record it names. -/
theorem recordPath_ok {k : Key} {collection : Nsid} {rkey : RecordKey}
    (h : recordPath k = .ok (collection, rkey)) :
  Spells k collection rkey
  := by
  rw [recordPath] at h
  split at h
  · cases h
  · rename_i c r hsplit
    split at h
    · rename_i hc hr
      cases h
      use c, hc
      rw [RecordKey.tryFrom_eq_ok.mp hr, splitOnce_some hsplit]
    · cases h

omit [Hashing] in
/-- The records listed are those of entries, with their blocks. -/
theorem listRecords_mem {blocks : Blocks} :
  ∀ {entries : List (Key × Cid)} {records : List VerifiedRecord},
    listRecords blocks entries = .ok records → ∀ r ∈ records,
      (∃ k, Spells k r.collection r.rkey ∧ (k, r.cid) ∈ entries) ∧ blocks r.cid = some r.record
  | [], _, h, r, hr => by
      cases h
      cases hr
  | (k, cid) :: entries, records, h, r, hr => by
      rw [listRecords] at h
      obtain ⟨⟨collection, rkey⟩, hpath, h⟩ := bind_eq_ok.mp h
      obtain ⟨rest, hrest, h⟩ := bind_eq_ok.mp h
      have ih := listRecords_mem hrest
      split at h
      · rename_i record hrecord
        cases h
        rcases List.mem_cons.mp hr with rfl | hr
        · exact ⟨⟨k, recordPath_ok hpath, List.mem_cons_self⟩, recordBlock_ok hrecord⟩
        · obtain ⟨⟨k', hspells, hmem⟩, hblock⟩ := ih r hr
          exact ⟨⟨k', hspells, List.mem_cons_of_mem _ hmem⟩, hblock⟩
      · cases h
        obtain ⟨⟨k', hspells, hmem⟩, hblock⟩ := ih r hr
        exact ⟨⟨k', hspells, List.mem_cons_of_mem _ hmem⟩, hblock⟩

/-- A proof of a record that verifies shows what the tree has. -/
theorem verifyRecordProof_ok {car : Bytes} {collection : Nsid} {rkey : RecordKey} {p : RecordProof}
    (h : verifyRecordProof car did key collection rkey = .ok p) :
  ∃ o t, openProof car did key = .ok o ∧ p.commit = o.commit
    ∧ (DetachedTree.load o.commit.data).get o.blocks.source (mstKey collection rkey)
      = (.ok (p.record.map Prod.fst), t)
    ∧ ∀ r ∈ p.record, o.blocks r.1 = some r.2
  := by
  rw [verifyRecordProof] at h
  obtain ⟨o, ho, h⟩ := bind_eq_ok.mp h
  rcases hget : (DetachedTree.load o.commit.data).get o.blocks.source (mstKey collection rkey)
    with ⟨r, t⟩
  dsimp only at h
  rw [hget] at h
  refine ⟨o, t, ho, ?_⟩
  split at h
  · cases h
  · rename_i heq
    cases h
    obtain rfl : r = .ok none := heq
    refine ⟨rfl, hget, ?_⟩
    intro r hr
    cases hr
  · rename_i cid heq
    obtain rfl : r = .ok (some cid) := heq
    obtain ⟨data, hdata, h⟩ := bind_eq_ok.mp h
    cases h
    refine ⟨rfl, hget, ?_⟩
    intro r hr
    cases hr
    apply recordBlock_ok hdata

end Sound

/-- Record proofs are sound. Where no two blocks of a proof and of a tree have the same CID, and
the key accepts only signatures of contents that were signed, a proof that verifies is of a
commit of the DID that was signed, and what it shows of a record is what a lookup in the tree of
the commit finds: the record it returns is the one the tree has, with the bytes of its CID; the
claims it verifies are true and the others false; and the records it lists are entries of the
tree, under keys that spell their paths. -/
theorem verify_sound {S signed : Set Bytes} {key : VerifyingKey}
    (hinj : ∀ codec, S.InjOn (Cid.compute codec))
    (hunforgeable : ∀ content sig, key.verify content sig = .ok () → content ∈ signed)
    {car : Bytes} (hcar : ∀ b ∈ (SliceReader.run car).blocks, b.data ∈ S) (did : Did) :
  (∀ collection rkey p, verifyRecordProof car did key collection rkey = .ok p →
    p.commit.did = did ∧ p.commit.SignedBy key ∧ p.commit.unsignedBytes ∈ signed
    ∧ (∀ r ∈ p.record, Cid.compute r.1.codec r.2 = r.1)
    ∧ ∀ store items, TreeAt S store p.commit.data items →
      lookup store p.commit.data collection rkey = .ok (p.record.map Prod.fst))
  ∧ (∀ claims v, verifyProofs car did key claims = .ok v →
    v.commit.did = did ∧ v.commit.SignedBy key ∧ v.commit.unsignedBytes ∈ signed
    ∧ ∀ store items, TreeAt S store v.commit.data items →
      (∀ claim ∈ v.verified, claim.Holds store v.commit.data)
      ∧ ∀ claim ∈ v.unverified, claim.Fails store v.commit.data)
  ∧ ∀ records, verifyRecords car did key = .ok records →
    ∃ o, openProof car did key = .ok o ∧ o.commit.did = did ∧ o.commit.SignedBy key
    ∧ o.commit.unsignedBytes ∈ signed
    ∧ (∀ r ∈ records, Cid.compute r.cid.codec r.record = r.cid)
    ∧ ∀ store items, TreeAt S store o.commit.data items →
      ∀ r ∈ records, ∃ k, Spells k r.collection r.rkey ∧ (k, r.cid) ∈ items
  := by
  have hsigned : ∀ c : Commit, c.SignedBy key → c.unsignedBytes ∈ signed := by
    rintro c ⟨sig, -, hverify⟩
    apply hunforgeable _ sig hverify
  refine ⟨?_, ?_, ?_⟩
  · intro collection rkey p h
    obtain ⟨o, t, ho, hcommit, hget, hrecord⟩ := verifyRecordProof_ok h
    have hopened := openProof_opened hcar ho
    rw [hcommit]
    refine ⟨hopened.did, hopened.signed, hsigned _ hopened.signed, ?_, ?_⟩
    · intro r hr
      apply hopened.hashed r.1 r.2 (hrecord r hr)
    · intro store items htree
      apply htree.loads.get_agrees (hopened.agree hinj htree) .refl hget
  · intro claims v h
    obtain ⟨o, ho, h⟩ := bind_eq_ok.mp h
    obtain ⟨⟨verified, unverified⟩, hclaims, h⟩ := bind_eq_ok.mp h
    have hopened := openProof_opened hcar ho
    cases h
    refine ⟨hopened.did, hopened.signed, hsigned _ hopened.signed, ?_⟩
    intro store items htree
    apply checkClaims_sound htree.loads (hopened.agree hinj htree) .refl hclaims
  · intro records h
    obtain ⟨o, ho, h⟩ := bind_eq_ok.mp h
    have hopened := openProof_opened hcar ho
    refine ⟨o, ho, hopened.did, hopened.signed, hsigned _ hopened.signed, ?_⟩
    dsimp only at h
    rcases hwalk : (DetachedTree.load o.commit.data).walkReachable o.blocks.source
      (fun entries key cid => .ok (entries ++ [(key, cid)])) [] with ⟨r, t⟩
    rw [hwalk] at h
    cases r with
    | error e => cases h
    | ok entries =>
        have hmem := listRecords_mem h
        constructor
        · intro r hr
          apply hopened.hashed r.cid r.record (hmem r hr).2
        · intro store items htree r hr
          obtain ⟨k, hspells, hentry⟩ := (hmem r hr).1
          use k, hspells
          apply htree.loads.walkReachable_mem (hopened.agree hinj htree) hwalk _ hentry

end Verify

/-! ### A proof that leaves out a node -/

namespace Sample

attribute [local instance] Hashing.checksum

/-- The collection of the records. -/
def collection : Nsid := ⟨ascii "a.b.c", ascii "a.b.c", 3, by decide, by decide⟩

/-- The key of the record that is proved. -/
def rkey : RecordKey := ⟨ascii "j0", by decide⟩

/-- The owner of the repository. -/
def did : Did := ⟨ascii "did:plc:a", by decide⟩

/-- The block of every record: an empty map. -/
def record : Bytes := [0xa0]

/-- The CID of every record. -/
def recordCid : Cid := Cid.compute .drisl record

/-- The node that holds one record. -/
def leaf (rkey : String) : Bytes :=
  encodeNodeData
    { left := none, entries := compress [] [(ascii ("a.b.c/" ++ rkey), recordCid, none)] }

/-- The CID of the node that holds one record. -/
def leafCid (rkey : String) : Cid := Cid.compute .drisl (leaf rkey)

/-- The root: a record between two nodes of one record each. -/
def top : Bytes :=
  encodeNodeData
    { left := some (leafCid "j0")
      entries := compress [] [(ascii "a.b.c/k1", recordCid, some (leafCid "l0"))] }

/-- The signature of the commit. -/
def sig : Signature := ⟨List.replicate 64 7, by decide⟩

/-- The commit. -/
def commit : Commit :=
  { did, version := 3, rev := ⟨5⟩, prev := none, data := Cid.compute .drisl top, sig := some sig }

/-- The block of a commit. -/
def block (commit : Commit) : Bytes :=
  Commit.encodeTextMap
    [ascii "did", ascii "rev", ascii "sig", ascii "data", ascii "prev", ascii "version"]
    commit.encodeField

/-- The block of the commit. -/
def commitBlock : Bytes := block commit

/-- The CID of the commit. -/
def commitCid : Cid := Cid.compute .drisl commitBlock

/-- A key that accepts the signature of a commit. -/
def keyOf (commit : Commit) : VerifyingKey where
  verify content s :=
    if content = commit.unsignedBytes ∧ s = sig then .ok () else .error .invalidSignature

theorem eq_of_verify {commit : Commit} {content : Bytes} {s : Signature}
    (h : (keyOf commit).verify content s = .ok ()) :
  content = commit.unsignedBytes
  := by
  by_contra hne
  have hverify : (keyOf commit).verify content s = .error .invalidSignature :=
    if_neg fun heq => hne heq.1
  rw [hverify] at h
  cases h

/-- The key of the owner. -/
def key : VerifyingKey := keyOf commit

/-- A length prefix before the bytes it counts. -/
def frame (bs : Bytes) : Bytes :=
  (if bs.length < 128 then [UInt8.ofNat bs.length]
    else [UInt8.ofNat (bs.length % 128 + 128), UInt8.ofNat (bs.length / 128)]) ++ bs

/-- The CAR of a commit, with other blocks. -/
def carOf (commit : Commit) (blocks : List Bytes) : Bytes :=
  frame (putHead 5 2 ++ putText (ascii "roots") ++ putHead 4 1
      ++ putCid (Cid.compute .drisl (block commit)) ++ putText (ascii "version") ++ putHead 0 1)
    ++ (block commit :: blocks).flatMap fun data =>
      frame ((Cid.compute .drisl data).toBytes ++ data)

/-- The proof of `a.b.c/j0`: the commit, the root, the node on the left and the record. -/
def car : Bytes := carOf commit [top, leaf "j0", record]

/-- All blocks. -/
def all : List Bytes := [commitBlock, top, leaf "j0", leaf "l0", record]

/-- The store of some blocks. -/
def storeOf (blocks : List Bytes) : Blocks :=
  fun cid => (blocks.map fun data => (Cid.compute .drisl data, data)).lookup cid

theorem storeOf_eq_some {blocks : List Bytes} {cid : Cid} {data : Bytes}
    (h : storeOf blocks cid = some data) :
  Cid.compute cid.codec data = cid ∧ data ∈ blocks
  := by
  obtain ⟨data', hdata', heq⟩ := List.mem_map.mp (List.mem_of_lookup h)
  obtain ⟨rfl, rfl⟩ := Prod.mk.inj heq
  exact ⟨rfl, hdata'⟩

/-- The store of all blocks. -/
def store : Blocks := storeOf all

/-- The result of verifying the proof. -/
def proof : RecordProof := { commit, commitCid, record := some (recordCid, record) }

/-- The entries of the tree. -/
def items : List (Key × Cid) :=
  [(ascii "a.b.c/j0", recordCid), (ascii "a.b.c/k1", recordCid), (ascii "a.b.c/l0", recordCid)]

theorem store_treeAt :
  TreeAt { data | data ∈ all } store proof.commit.data items
  where
  hashed _ _ h := (storeOf_eq_some h).1
  mem _ _ h := (storeOf_eq_some h).2
  loads := by
    unfold LoadsAll
    decide +kernel

theorem compute_injOn (codec : Codec) :
  { data | data ∈ all }.InjOn (Cid.compute codec)
  := by
  have hall : ∀ x ∈ all, ∀ y ∈ all, sha256 x = sha256 y → x = y := by decide +kernel
  intro x hx y hy heq
  apply hall x hx y hy (Cid.mk.inj heq).2

/-- The proof verifies, and shows what the tree has. -/
theorem proof_verify_sound :
  verifyRecordProof car did key collection rkey = .ok proof
    ∧ lookup store proof.commit.data collection rkey = .ok (some recordCid)
  := by
  have hproof : verifyRecordProof car did key collection rkey = .ok proof := by decide +kernel
  have hcar : ∀ b ∈ (SliceReader.run car).blocks, b.data ∈ all := by decide +kernel
  have hkey : ∀ content s, key.verify content s = .ok () →
      content ∈ ({commit.unsignedBytes} : Set Bytes) := fun _ _ => eq_of_verify
  have hsound := verify_sound compute_injOn hkey hcar did
  obtain ⟨-, -, -, -, hlookup⟩ := hsound.1 collection rkey proof hproof
  exact ⟨hproof, hlookup store items store_treeAt⟩

/-! ### A proof of a record whose collection has an upper case authority -/

/-- The root: one record, whose key has an upper case letter in its authority. -/
def upperTop : Bytes :=
  encodeNodeData { left := none, entries := compress [] [(ascii "A.b.c/j0", recordCid, none)] }

/-- The commit of that root. -/
def upperCommit : Commit := { commit with data := Cid.compute .drisl upperTop }

/-- A key that accepts the signature of the commit. -/
def upperKey : VerifyingKey := keyOf upperCommit

/-- The blocks of the proof. -/
def upperAll : List Bytes := [block upperCommit, upperTop, record]

/-- A proof of the one record. -/
def upperCar : Bytes := carOf upperCommit [upperTop, record]

/-- The store of the blocks of the proof. -/
def upperStore : Blocks := storeOf upperAll

/-- The record that the proof lists. -/
def upperRecord : VerifiedRecord := { collection, rkey, cid := recordCid, record }

/-- A proof whose blocks are all in the tree of its commit, with no two of the same CID, lists a
record under a key that the tree does not have: the key that the tree has spells the authority
of the collection in upper case. -/
theorem upper_unlisted :
  verifyRecords upperCar did upperKey = .ok [upperRecord]
    ∧ (∀ b ∈ (SliceReader.run upperCar).blocks, b.data ∈ upperAll)
    ∧ (∀ codec, { data | data ∈ upperAll }.InjOn (Cid.compute codec))
    ∧ (∀ content s, upperKey.verify content s = .ok () → content = upperCommit.unsignedBytes)
    ∧ TreeAt { data | data ∈ upperAll } upperStore upperCommit.data
      [(ascii "A.b.c/j0", recordCid)]
    ∧ (mstKey upperRecord.collection upperRecord.rkey, upperRecord.cid)
      ∉ [(ascii "A.b.c/j0", recordCid)]
  := by
  have hall : ∀ x ∈ upperAll, ∀ y ∈ upperAll, sha256 x = sha256 y → x = y := by decide +kernel
  refine ⟨by decide +kernel, by decide +kernel, ?_, ?_, ?_, by decide +kernel⟩
  · intro codec x hx y hy heq
    apply hall x hx y hy (Cid.mk.inj heq).2
  · intro content s
    exact eq_of_verify
  · refine ⟨fun _ _ h => (storeOf_eq_some h).1, fun _ _ h => (storeOf_eq_some h).2, ?_⟩
    unfold LoadsAll
    decide +kernel

end Sample

end Shrike.Repo
