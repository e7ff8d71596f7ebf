import Shrike.Repo.Signed

/-!
# Revisions increase

Each commit of a repository has a revision after that of the commit before it, across failed
commits, imports, and reopening the store.
-/

set_option linter.dupNamespace false

namespace Shrike.Repo

open Cbor Syntax Mst Bytes Stateful

variable {σ ε : Type}

/-! ### What operations leave as it was -/

/-- The store and the head are as they were. -/
structure SameHead (r r' : Repo σ) : Prop where
  store : r'.store = r.store
  head : r'.head = r.head

instance SameHead.instIsTrans : IsTrans (Repo σ) SameHead where
  trans _ _ _ h h' := ⟨h'.store.trans h.store, h'.head.trans h.head⟩

instance SameHead.instRefl : Std.Refl (α := Repo σ) SameHead where
  refl _ := ⟨rfl, rfl⟩

/-- So are the staged writes. -/
structure SameWrites (r r' : Repo σ) : Prop extends SameHead r r' where
  staged : r'.staged = r.staged
  records : r'.records = r.records

/-- Only the clock may have moved on. -/
def Ticks (r r' : Repo σ) : Prop := ∃ clock, r' = { r with clock }

instance Ticks.instIsTrans : IsTrans (Repo σ) Ticks where
  trans := by
    rintro r _ _ ⟨clock, rfl⟩ ⟨clock', rfl⟩
    exact ⟨clock', rfl⟩

instance Ticks.instRefl : Std.Refl (α := Repo σ) Ticks where
  refl r := ⟨r.clock, rfl⟩

section

variable [Hashing]

/-- A tree with the entries of another, of which more may have been read, unless it is no longer
usable. -/
def KeepsTree (t t' : DetachedTree) : Prop :=
  t'.poisoned = true ∨ ∃ root src, root.items = t.root.items ∧ Loads src .root root t'.root

namespace Repo

variable (store : RepoStore σ ε)

omit [Hashing] in
theorem onTree_moves {α : Type} (f : BlockSource → DetachedTree → Except MstError α × DetachedTree) :
  (onTree store f).Moves SameWrites
  := ⟨fun _ => ⟨⟨rfl, rfl⟩, rfl, rfl⟩⟩

omit [Hashing] in
theorem nextRev_moves (now : UInt64) :
  (nextRev now : Stateful (Repo σ) RepositoryError (Option Tid × Tid)).Moves Ticks
  := by
  unfold nextRev
  refine Moves.bind moves_current fun r => ?_
  refine Moves.bind ⟨fun _ => ⟨_, rfl⟩⟩ fun _ => ?_
  cases r.head with
  | none => exact moves_pure _
  | some head =>
      dsimp only [Option.map_some]
      split_ifs
      · exact moves_pure _
      · exact moves_fail _

variable {r r' : Repo σ}

variable {now : UInt64}

omit [Hashing] in
/-- A revision that is issued is after that of the head. -/
theorem nextRev_ok {since : Option Tid} {rev : Tid} (h : nextRev now r = (.ok (since, rev), r')) :
  ∀ head, r.head = some head → head.commit.rev < rev
  := by
  intro head hhead
  obtain ⟨_, _, hcurrent, h⟩ := bind_eq_ok.mp h
  cases hcurrent
  obtain ⟨_, _, hupdate, h⟩ := bind_eq_ok.mp h
  cases hupdate
  rw [hhead] at h
  dsimp only [Option.map_some] at h
  split_ifs at h with hlt
  · cases h
    exact hlt
  · cases h

theorem assemble_moves (key : SigningKey) (now : UInt64) (root : Cid) (proofNodes : List Cid) :
  (assemble store key now root proofNodes).Moves Ticks
  := by
  rw [assemble]
  refine Moves.bind moves_current fun r => ?_
  refine Moves.bind (moves_ofExcept _) fun found => ?_
  refine Moves.bind (moves_ofExcept _) fun relevant => ?_
  refine Moves.bind (nextRev_moves now) fun revs => ?_
  exact Moves.bind (moves_ofExcept _) fun signed => moves_pure _

omit [Hashing] in
theorem ofExcept_eq_ok {α : Type} {x : Except RepositoryError α} {a : α}
    (h : (ofExcept x : Stateful (Repo σ) RepositoryError α) r = (.ok a, r')) :
  x = .ok a ∧ r' = r
  := by
  cases x with
  | ok b =>
      cases h
      exact ⟨rfl, rfl⟩
  | error e => cases h

/-- What a commit has to be for the store: its revision is after that of the head, and it is read
back from its block. -/
structure Follows (r : Repo σ) (data : CommitData) : Prop where
  later : ∀ head, r.head = some head → head.commit.rev < data.rev
  block : ∃ bytes, data.newBlocks data.cid = some bytes ∧ Commit.fromCbor bytes = .ok data.commit

variable {key : SigningKey}

variable {data : CommitData}

theorem assemble_ok {root : Cid} {proofNodes : List Cid}
    (h : assemble store key now root proofNodes r = (.ok data, r')) :
  r.Follows data
  := by
  obtain ⟨_, _, hcurrent, h⟩ := bind_eq_ok.mp h
  cases hcurrent
  obtain ⟨⟨ops, leaves⟩, _, hops, h⟩ := bind_eq_ok.mp h
  obtain ⟨-, rfl⟩ := ofExcept_eq_ok hops
  obtain ⟨relevant, _, hrelevant, h⟩ := bind_eq_ok.mp h
  obtain ⟨-, rfl⟩ := ofExcept_eq_ok hrelevant
  obtain ⟨⟨since, rev⟩, _, hrev, h⟩ := bind_eq_ok.mp h
  obtain ⟨signed, _, hsigned, hpure⟩ := bind_eq_ok.mp h
  obtain ⟨hcreated, rfl⟩ := ofExcept_eq_ok hsigned
  cases hpure
  obtain ⟨hsame, hread⟩ := Commit.createSigned_reads hcreated
  constructor
  · intro head hhead
    rw [CommitData.rev, hsame]
    exact nextRev_ok hrev head hhead
  · exact ⟨signed.bytes, Function.update_self .., hread⟩

omit [Hashing] in
theorem onTree_eq {α : Type} {f : BlockSource → DetachedTree → Except MstError α × DetachedTree}
    {x : Except RepositoryError α} (h : onTree store f r = (x, r')) :
  r' = { r with tree := (f (storeSource store r.store) r.tree).2 }
  := by
  cases h
  rfl

/-- A flush keeps the entries of the tree. -/
theorem keepsTree_flush (t : DetachedTree) :
  KeepsTree t t.flush.2
  := by
  rcases DetachedTree.flush_items (Prod.mk.eta (p := t.flush)).symm with hpoisoned | hitems
  · exact .inl hpoisoned
  · exact .inr ⟨t.flush.2.root, noBlocks, hitems, .refl⟩

/-- So does the proof of the changes after it. -/
theorem keepsTree_proof (t : DetachedTree) (src : BlockSource) (keys : List Key) :
  KeepsTree t (t.flush.2.coveringProof src keys).2
  := by
  have hread := DetachedTree.coveringProof_reading src t.flush.2 keys
  rcases DetachedTree.flush_items (Prod.mk.eta (p := t.flush)).symm with hpoisoned | hitems
  · left
    rw [hread.poisoned, hpoisoned]
  · exact .inr ⟨t.flush.2.root, src, hitems, hread.root.loads⟩

omit [Hashing] in
theorem persist_cases {x : Except RepositoryError Unit} (h : persist store data r = (x, r')) :
  ∃ s, r' = { r with store := s } ∧
    ((store.applyCommit data r.store = (.ok (), s) ∧ x = .ok ()) ∨
      ∃ e, store.applyCommit data r.store = (.error e, s) ∧ x = .error .storage)
  := by
  rcases hresult : store.applyCommit data r.store with ⟨e | _, s⟩
  · rw [persist, applyTo, hresult] at h
    cases h
    exact ⟨s, rfl, .inr ⟨e, rfl, rfl⟩⟩
  · rw [persist, applyTo, hresult] at h
    cases h
    exact ⟨s, rfl, .inl ⟨rfl, rfl⟩⟩

variable {result : Except RepositoryError CommitData}

/-- A commit fails with its writes staged as they were, before or in the store, or the store accepts
it. -/
theorem commit_cases (h : commit store key now r = (result, r')) :
  ∃ r₁, SameWrites r r₁ ∧ KeepsTree r.tree r₁.tree ∧
    ((∃ e, result = .error e ∧ r' = r₁) ∨
      ∃ data, r.Follows data ∧
        ((∃ e s, store.applyCommit data r.store = (.error e, s) ∧ result = .error .storage
            ∧ r' = { r₁ with store := s }) ∨
          ∃ s, store.applyCommit data r.store = (.ok (), s) ∧ result = .ok data
            ∧ r' = accepted data { r₁ with store := s }))
  := by
  unfold commit at h
  rcases bind_cases h with ⟨e, hflush, rfl⟩ | ⟨write, r₁, hflush, h⟩
  · obtain rfl := onTree_eq store hflush
    refine ⟨_, ?_, ?_, .inl ⟨e, rfl, rfl⟩⟩
    · exact ⟨⟨rfl, rfl⟩, rfl, rfl⟩
    · exact keepsTree_flush _
  obtain rfl := onTree_eq store hflush
  rw [update_bind, current_bind] at h
  -- the flush is over: what is left only reads more of the tree and moves the clock, until the store
  rcases bind_cases h with ⟨e, hcover, rfl⟩ | ⟨proofNodes, r₂, hcover, h⟩
  · obtain rfl := onTree_eq store hcover
    refine ⟨_, ?_, ?_, .inl ⟨e, rfl, rfl⟩⟩
    · exact ⟨⟨rfl, rfl⟩, rfl, rfl⟩
    · exact keepsTree_proof _ _ _
  obtain rfl := onTree_eq store hcover
  rcases bind_cases h with ⟨e, hassemble, rfl⟩ | ⟨data, r₃, hassemble, h⟩
  · obtain ⟨clock, rfl⟩ := (assemble_moves store _ _ _ _).of_eq hassemble
    refine ⟨_, ?_, ?_, .inl ⟨e, rfl, rfl⟩⟩
    · exact ⟨⟨rfl, rfl⟩, rfl, rfl⟩
    · exact keepsTree_proof _ _ _
  obtain ⟨later, block⟩ := assemble_ok store hassemble
  obtain ⟨clock, rfl⟩ := (assemble_moves store _ _ _ _).of_eq hassemble
  rcases bind_cases h with ⟨e, hpersist, rfl⟩ | ⟨_, r₄, hpersist, h⟩
  · obtain ⟨s, rfl, ⟨-, heq⟩ | ⟨e', hstore, heq⟩⟩ := persist_cases store hpersist
    · cases heq
    · cases heq
      refine ⟨_, ?_, ?_, .inr ⟨data, ⟨later, block⟩, .inl ⟨e', s, hstore, rfl, rfl⟩⟩⟩
      · exact ⟨⟨rfl, rfl⟩, rfl, rfl⟩
      · exact keepsTree_proof _ _ _
  · obtain ⟨s, rfl, ⟨hstore, -⟩ | ⟨e', -, heq⟩⟩ := persist_cases store hpersist
    · rw [update_bind] at h
      cases h
      refine ⟨_, ?_, ?_, .inr ⟨data, ⟨later, block⟩, .inr ⟨s, hstore, rfl, rfl⟩⟩⟩
      · exact ⟨⟨rfl, rfl⟩, rfl, rfl⟩
      · exact keepsTree_proof _ _ _
    · cases heq

/-! ### Operations that stage writes -/

omit [Hashing] in
theorem onTree_sameHead {α : Type}
    (f : BlockSource → DetachedTree → Except MstError α × DetachedTree) :
  (onTree store f).Moves SameHead
  := ⟨fun r => ((onTree_moves store f).related r).toSameHead⟩

theorem has_moves (key : Key) :
  (has store key).Moves SameHead
  := Moves.bind (onTree_sameHead store _) fun _ => moves_pure _

omit [Hashing] in
theorem stage_moves (collection : Nsid) (rkey : RecordKey) (key : Key) (prev cid : Option Cid) :
  (stage collection rkey key prev cid : Stateful (Repo σ) RepositoryError Unit).Moves SameHead
  := ⟨fun _ => ⟨rfl, rfl⟩⟩

theorem put_moves (collection : Nsid) (rkey : RecordKey) (key : Key) (record : Bytes) :
  (put store collection rkey key record).Moves SameHead
  := by
  refine Moves.bind (onTree_sameHead store _) fun prev => ?_
  refine Moves.bind ⟨fun _ => ⟨rfl, rfl⟩⟩ fun _ => ?_
  exact Moves.bind (stage_moves ..) fun _ => moves_pure _

theorem create_moves (collection : Nsid) (rkey : RecordKey) (record : Bytes) :
  (create store collection rkey record).Moves SameHead
  := by
  refine Moves.bind (has_moves store _) fun found => ?_
  cases found with
  | true => exact moves_fail _
  | false => exact put_moves ..

theorem update_moves (collection : Nsid) (rkey : RecordKey) (record : Bytes) :
  (update store collection rkey record).Moves SameHead
  := by
  refine Moves.bind (has_moves store _) fun found => ?_
  cases found with
  | true => exact put_moves ..
  | false => exact moves_fail _

theorem delete_moves (collection : Nsid) (rkey : RecordKey) :
  (delete store collection rkey).Moves SameHead
  := by
  refine Moves.bind (onTree_sameHead store _) fun removed => ?_
  cases removed with
  | none => exact moves_fail _
  | some prev => exact stage_moves ..

theorem get_moves (collection : Nsid) (rkey : RecordKey) :
  (get store collection rkey).Moves SameHead
  := by
  refine Moves.bind (onTree_sameHead store _) fun found => ?_
  cases found with
  | none => exact moves_pure _
  | some cid =>
      refine Moves.bind moves_current fun r => ?_
      split
      · exact moves_pure _
      · split
        · exact moves_fail _
        · exact moves_fail _
        · exact moves_pure _

theorem hasAfter_moves (present : List (Key × Bool)) (key : Key) :
  (hasAfter store present key).Moves SameHead
  := by
  rw [hasAfter]
  split
  · exact moves_pure _
  · exact has_moves ..

theorem checkWrites_moves (present : List (Key × Bool)) (writes : List WriteOp) :
  (checkWrites store present writes).Moves SameHead
  := by
  induction writes generalizing present with
  | nil => exact moves_pure _
  | cons write writes ih =>
      rw [checkWrites]
      refine Moves.bind (hasAfter_moves ..) fun found => ?_
      cases write <;> cases found <;> first | exact ih _ | exact moves_fail _

theorem applyWrite_moves (write : WriteOp) :
  (applyWrite store write).Moves SameHead
  := by
  cases write with
  | create collection rkey record => exact Moves.bind (put_moves ..) fun _ => moves_pure _
  | update collection rkey record => exact Moves.bind (put_moves ..) fun _ => moves_pure _
  | delete collection rkey => exact delete_moves ..

/-- A batch of writes ends in a commit, unless it fails before. -/
theorem applyWrites_cases {writes : List WriteOp}
    (h : applyWrites store writes key now r = (result, r')) :
  (SameHead r r' ∧ ∃ e, result = .error e) ∨
    ∃ r₁, SameHead r r₁ ∧ commit store key now r₁ = (result, r')
  := by
  unfold applyWrites at h
  dsimp only at h
  rcases bind_cases h with ⟨e, hmissing, rfl⟩ | ⟨missing, r₁, hmissing, h⟩
  · exact .inl ⟨(onTree_sameHead store _).of_eq hmissing, e, rfl⟩
  have h₁ := (onTree_sameHead store _).of_eq hmissing
  rcases bind_cases h with ⟨e, hmore, rfl⟩ | ⟨more, r₂, hmore, h⟩
  · exact .inl ⟨trans_of SameHead h₁ ((onTree_sameHead store _).of_eq hmore), e, rfl⟩
  have h₂ := trans_of SameHead h₁ ((onTree_sameHead store _).of_eq hmore)
  rcases hhead : (missing ++ more).head? with _ | cid
  swap
  · rw [hhead] at h
    cases h
    exact .inl ⟨h₂, _, rfl⟩
  rw [hhead] at h
  rcases bind_cases h with ⟨e, hcheck, rfl⟩ | ⟨_, r₃, hcheck, h⟩
  · exact .inl ⟨trans_of SameHead h₂ ((checkWrites_moves ..).of_eq hcheck), e, rfl⟩
  have h₃ := trans_of SameHead h₂ ((checkWrites_moves ..).of_eq hcheck)
  have hmoves := moves_forM (applyWrite_moves store) writes
  rcases bind_cases h with ⟨e, happly, rfl⟩ | ⟨_, r₄, happly, h⟩
  · exact .inl ⟨trans_of SameHead h₃ (hmoves.of_eq happly), e, rfl⟩
  · exact .inr ⟨r₄, trans_of SameHead h₃ (hmoves.of_eq happly), h⟩

/-! ### Opening and importing -/

omit [Hashing] in
theorem init_ok {did : Did} {clock : TidClock} {s : σ} (h : init store did clock s = .ok r) :
  store.head s = .ok none ∧ r = empty s did clock
  := by
  rw [init] at h
  split at h
  · cases h
  · cases h
  · rename_i hhead
    cases h
    exact ⟨hhead, rfl⟩

omit [Hashing] in
/-- A repository that was opened is at the head of the store. -/
theorem openRepo_ok {s : σ} (h : openRepo store s = .ok r) :
  ∃ head bytes, r.head = some head ∧ r.store = s ∧ store.head s = .ok (some head.cid)
    ∧ store.getBlock s head.cid = .ok (some bytes) ∧ Commit.fromCbor bytes = .ok head.commit
  := by
  rw [openRepo] at h
  split at h
  · cases h
  · cases h
  · rename_i cid hhead
    split at h
    · cases h
    · cases h
    · rename_i bytes hblock
      obtain ⟨commit, hcommit, h⟩ := Except.bind_eq_ok.mp h
      obtain ⟨clock, hclock, h⟩ := Except.bind_eq_ok.mp h
      cases h
      exact ⟨⟨cid, commit⟩, bytes, rfl, rfl, hhead, hblock, Except.mapError_eq_ok.mp hcommit⟩

/-- An import fails before it reaches the store or in it, or is opened from what the store has
accepted. The store had no head before. -/
theorem importCar_cases {car : Bytes} {s s' : σ} {result : Except RepositoryError (Repo σ)}
    (h : importCar store car s = (result, s')) :
  ((∃ e, result = .error e) ∧ s' = s) ∨
    ∃ data, store.head s = .ok none ∧ importData car = .ok data ∧
      ((∃ e, store.applyCommit data s = (.error e, s') ∧ result = .error .storage) ∨
        store.applyCommit data s = (.ok (), s') ∧ result = openRepo store s')
  := by
  unfold importCar at h
  rw [current_bind] at h
  rcases hhead : store.head s with e | _ | cid
  · rw [hhead] at h
    cases h
    exact .inl ⟨⟨_, rfl⟩, rfl⟩
  swap
  · rw [hhead] at h
    cases h
    exact .inl ⟨⟨_, rfl⟩, rfl⟩
  rw [hhead] at h
  rcases bind_cases h with ⟨e, hdata, rfl⟩ | ⟨data, s₁, hdata, h⟩
  · rw [ofExcept_apply, Prod.mk.injEq] at hdata
    exact .inl ⟨⟨e, rfl⟩, hdata.2.symm⟩
  rw [ofExcept_apply, Prod.mk.injEq] at hdata
  obtain ⟨hdata, rfl⟩ := hdata
  refine .inr ⟨data, rfl, hdata, ?_⟩
  rcases happly : store.applyCommit data s with ⟨e | _, s₁⟩
  · have hto : applyTo store data s = (.error .storage, s₁) := by
      rw [applyTo, happly]
      rfl
    rw [bind_of_error hto] at h
    cases h
    exact .inl ⟨e, rfl, rfl⟩
  · have hto : applyTo store data s = (.ok (), s₁) := by
      rw [applyTo, happly]
      rfl
    rw [bind_of_ok hto, current_bind, ofExcept_apply] at h
    cases h
    exact .inr ⟨rfl, rfl⟩

end Repo

/-! ### Lawful stores -/

section

variable (store : RepoStore σ ε)

omit [Hashing] in
/-- What a store has of a head: the CID that it reports, unless it fails to, is that of the head, and
the block that it has there, unless it fails to read it, is one that the commit is read from. -/
structure RepoStore.Holds (s : σ) (head : Head) : Prop where
  reported : ∀ cid, store.head s = .ok cid → cid = some head.cid
  readable : ∀ block, store.getBlock s head.cid = .ok block →
    ∃ bytes, block = some bytes ∧ Commit.fromCbor bytes = .ok head.commit

omit [Hashing] in
/-- The store still has what it had. -/
def RepoStore.Remains (s s' : σ) : Prop := ∀ head, store.Holds s head → store.Holds s' head

omit [Hashing] in
/-- A store that moves its head to a commit it accepts and has the new blocks, and for which a commit
that it refuses changes nothing. -/
structure RepoStore.Lawful : Prop where
  head : ∀ {data s s'}, store.applyCommit data s = (.ok (), s') →
    ∀ cid, store.head s' = .ok cid → cid = some data.cid
  block : ∀ {data s s'}, store.applyCommit data s = (.ok (), s') →
    ∀ cid bytes, data.newBlocks cid = some bytes →
      ∀ block, store.getBlock s' cid = .ok block → block = some bytes
  refused : ∀ {data s s' e}, store.applyCommit data s = (.error e, s') → store.Remains s s'

omit [Hashing] in
/-- A lawful store that accepts a commit which is read from its block holds it. -/
theorem RepoStore.Lawful.holds {store : RepoStore σ ε} (h : store.Lawful) {data : CommitData} {s s' : σ}
    (happly : store.applyCommit data s = (.ok (), s'))
    (hblock : ∃ bytes, data.newBlocks data.cid = some bytes ∧
      Commit.fromCbor bytes = .ok data.commit) :
  store.Holds s' ⟨data.cid, data.commit⟩
  := by
  obtain ⟨bytes, hnew, hread⟩ := hblock
  constructor
  · exact h.head happly
  · intro block hget
    exact ⟨bytes, h.block happly _ _ hnew block hget, hread⟩

omit [Hashing] in
/-- The store in memory is lawful. -/
theorem MemRepoStore.lawful :
  MemRepoStore.ops.Lawful
  where
  head := by
    intro data s s' h cid hcid
    cases h
    cases hcid
    rfl
  block := by
    intro data s s' h cid bytes hnew block hget
    cases h
    cases hget
    show (data.newBlocks cid).or _ = some bytes
    rw [hnew]
    rfl
  refused := by
    intro data s s' e h
    cases e

/-! ### Sessions -/

/-- A store, and the repository that is open in it, if one is. -/
inductive Session (σ : Type) where
  | closed (s : σ)
  | opened (r : Repo σ)

/-- A step of a session, with the revision of the commit that became the head in it. The store may
at any time fail to read what it has. -/
inductive Session.Step : Session σ → Option Tid → Session σ → Prop
  | init {s did clock r}
      (h : Repo.init store did clock s = .ok r) : Step (.closed s) none (.opened r)
  | reopen {s r} (h : Repo.openRepo store s = .ok r) :
      Step (.closed s) none (.opened r)
  | imported {s s' car} {r : Repo σ} {head : Head}
      (h : Repo.importCar store car s = (.ok r, s')) (hhead : r.head = some head) :
      Step (.closed s) (some head.commit.rev) (.opened r)
  | importFails {s s' car e}
      (h : Repo.importCar store car s = (.error e, s')) : Step (.closed s) none (.closed s')
  | get {r r' collection rkey result}
      (h : Repo.get store collection rkey r = (result, r')) : Step (.opened r) none (.opened r')
  | create {r r' collection rkey record result}
      (h : Repo.create store collection rkey record r = (result, r')) :
      Step (.opened r) none (.opened r')
  | update {r r' collection rkey record result}
      (h : Repo.update store collection rkey record r = (result, r')) :
      Step (.opened r) none (.opened r')
  | delete {r r' collection rkey result}
      (h : Repo.delete store collection rkey r = (result, r')) : Step (.opened r) none (.opened r')
  | commit {r r' key now} {result : Except RepositoryError CommitData}
      (h : Repo.commit store key now r = (result, r')) :
      Step (.opened r) (result.toOption.map CommitData.rev) (.opened r')
  | applyWrites {r r' writes key now} {result : Except RepositoryError CommitData}
      (h : Repo.applyWrites store writes key now r = (result, r')) :
      Step (.opened r) (result.toOption.map CommitData.rev) (.opened r')
  | close {r : Repo σ} : Step (.opened r) none (.closed r.store)
  | elapse {s s'} (h : store.Remains s s') : Step (.closed s) none (.closed s')
  | elapseOpened {r : Repo σ} {s'} (h : store.Remains r.store s') :
      Step (.opened r) none (.opened { r with store := s' })

/-- The steps of a session since a store was there, with the revisions of its commits. -/
inductive Session.Run : List Tid → Session σ → Prop
  | start (s : σ) : Run [] (.closed s)
  | step {revs} {session session' : Session σ} {rev : Option Tid} (run : Run revs session)
      (h : session.Step store rev session') : Run (revs ++ rev.toList) session'

/-- The revision of a head is one of a commit before it, or after it. -/
def Head.Covers (head : Head) (rev : Tid) : Prop := rev = head.commit.rev ∨ rev < head.commit.rev

/-- What holds of a session: the head is not before any of the commits, and the store has it. -/
def Session.Current (revs : List Tid) : Session σ → Prop
  | .closed s => ∀ rev ∈ revs, ∃ head, store.Holds s head ∧ head.Covers rev
  | .opened r => (∀ rev ∈ revs, ∃ head, r.head = some head ∧ head.Covers rev)
      ∧ ∀ head, r.head = some head → store.Holds r.store head

/-- The session is current, and each of its commits has a revision after those before it. -/
structure Session.InOrder (revs : List Tid) (session : Session σ) : Prop where
  current : session.Current store revs
  sorted : revs.Pairwise (· < ·)

omit [Hashing] in
theorem Head.Covers.lt {head : Head} {rev rev' : Tid} (h : head.Covers rev)
    (hlt : head.commit.rev < rev') :
  rev < rev'
  := by
  rcases h with rfl | h
  · exact hlt
  · exact Tid.lt_trans h hlt

variable {store}

variable {r r' : Repo σ}

omit [Hashing] in
theorem SameHead.remains (h : SameHead r r') :
  store.Remains r.store r'.store
  := by
  rw [h.store]
  exact fun _ => id

variable {revs : List Tid}

omit [Hashing] in
/-- A store that holds a head reports one. -/
theorem Session.Current.eq_nil {s : σ} (h : (Session.closed s).Current store revs)
    (hhead : store.head s = .ok none) :
  revs = []
  := by
  rw [List.eq_nil_iff_forall_not_mem]
  intro rev hrev
  obtain ⟨head, hholds, -⟩ := h rev hrev
  cases hholds.reported none hhead

omit [Hashing] in
/-- A repository that was opened has the head that the store holds. -/
theorem holds_of_openRepo {s : σ} (h : Repo.openRepo store s = .ok r) :
  ∃ head, r.head = some head ∧ r.store = s ∧ store.Holds s head
    ∧ ∀ head', store.Holds s head' → head' = head
  := by
  obtain ⟨head, bytes, hhead, hstore, hcid, hblock, hcommit⟩ := Repo.openRepo_ok store h
  refine ⟨head, hhead, hstore, ⟨?_, ?_⟩, ?_⟩
  · intro cid h
    rw [hcid] at h
    cases h
    rfl
  · intro block h
    rw [hblock] at h
    cases h
    exact ⟨bytes, rfl, hcommit⟩
  · intro head' hholds
    have heq : head.cid = head'.cid := Option.some_inj.mp (hholds.reported _ hcid)
    rw [heq] at hblock
    obtain ⟨bytes', hbytes', hcommit'⟩ := hholds.readable _ hblock
    cases hbytes'
    rw [hcommit] at hcommit'
    cases head
    cases head'
    cases hcommit'
    cases heq
    rfl

omit [Hashing] in
/-- With the same head a session stays current, if the store still has what it had. -/
theorem Session.InOrder.remains
    (h : (Session.opened r).InOrder store revs) (hhead : r'.head = r.head)
    (hremains : store.Remains r.store r'.store) :
  (Session.opened r').InOrder store revs
  := by
  obtain ⟨⟨hrevs, hholds⟩, hsorted⟩ := h
  refine ⟨⟨?_, ?_⟩, hsorted⟩
  · rw [hhead]
    exact hrevs
  · rw [hhead]
    exact fun head hhead => hremains head (hholds head hhead)

omit [Hashing] in
/-- A commit that failed has no revision. -/
theorem append_failed (revs : List Tid) (e : RepositoryError) :
  revs ++ ((Except.error e : Except RepositoryError CommitData).toOption.map CommitData.rev).toList
    = revs
  := List.append_nil revs

omit [Hashing] in
theorem Session.InOrder.sameHead
    (h : (Session.opened r).InOrder store revs) (hsame : SameHead r r') :
  (Session.opened r').InOrder store revs
  := h.remains hsame.head hsame.remains

/-- A commit keeps the order of the revisions, and the store has the head after it. -/
theorem Session.InOrder.commit {key : SigningKey} {now : UInt64}
    {result : Except RepositoryError CommitData} (hlawful : store.Lawful)
    (hr : (Session.opened r).InOrder store revs) (h : Repo.commit store key now r = (result, r')) :
  (Session.opened r').InOrder store (revs ++ (result.toOption.map CommitData.rev).toList)
  := by
  obtain ⟨r₁, hsame, -, hcases⟩ := Repo.commit_cases store h
  rcases hcases with ⟨e, rfl, rfl⟩ | ⟨data, hfollows, ⟨e, s, happly, rfl, rfl⟩ | ⟨s, happly, rfl, rfl⟩⟩
  · rw [append_failed]
    exact hr.sameHead hsame.toSameHead
  · rw [append_failed]
    exact hr.remains hsame.head (hlawful.refused happly)
  · obtain ⟨⟨hrevs, -⟩, hsorted⟩ := hr
    have hlater : ∀ rev ∈ revs, rev < data.rev := by
      intro rev hrev
      obtain ⟨head, hhead, hcovers⟩ := hrevs rev hrev
      exact hcovers.lt (hfollows.later head hhead)
    show (Session.opened _).InOrder store (revs ++ [data.rev])
    refine ⟨⟨?_, ?_⟩, ?_⟩
    · intro rev hrev
      refine ⟨⟨data.cid, data.commit⟩, rfl, ?_⟩
      rcases List.mem_append.mp hrev with hrev | hrev
      · exact .inr (hlater rev hrev)
      · exact .inl (List.mem_singleton.mp hrev)
    · rintro head hhead
      cases hhead
      exact hlawful.holds happly hfollows.block
    · rw [List.pairwise_append]
      refine ⟨hsorted, List.pairwise_singleton _ _, ?_⟩
      intro rev hrev rev' hrev'
      rw [List.mem_singleton.mp hrev']
      exact hlater rev hrev

variable {session session' : Session σ}

/-- A step keeps the order of the revisions. -/
theorem Session.InOrder.step {rev : Option Tid}
    (hlawful : store.Lawful) (h : session.InOrder store revs)
    (hstep : session.Step store rev session') :
  session'.InOrder store (revs ++ rev.toList)
  := by
  cases hstep with
  | init hinit =>
      obtain ⟨hhead, rfl⟩ := Repo.init_ok store hinit
      rw [h.current.eq_nil hhead]
      exact ⟨⟨nofun, nofun⟩, List.Pairwise.nil⟩
  | reopen hopen =>
      obtain ⟨head, hhead, rfl, hholds, hunique⟩ := holds_of_openRepo hopen
      rw [Option.toList_none, List.append_nil]
      refine ⟨⟨?_, ?_⟩, h.sorted⟩
      · intro rev hrev
        obtain ⟨head', hholds', hcovers⟩ := h.current rev hrev
        obtain rfl := hunique head' hholds'
        exact ⟨head', hhead, hcovers⟩
      · intro head' hhead'
        rw [hhead] at hhead'
        cases hhead'
        exact hholds
  | imported himport hhead =>
      rcases Repo.importCar_cases store himport with ⟨⟨e, he⟩, -⟩ | ⟨data, hnone, -, ⟨e, -, he⟩ | ⟨-, hopen⟩⟩
      · cases he
      · cases he
      · obtain ⟨head, hhead', rfl, hholds, -⟩ := holds_of_openRepo hopen.symm
        rw [hhead'] at hhead
        cases hhead
        rw [h.current.eq_nil hnone]
        refine ⟨⟨?_, ?_⟩, List.pairwise_singleton _ _⟩
        · intro rev hrev
          exact ⟨_, hhead', .inl (List.mem_singleton.mp hrev)⟩
        · intro head' hhead
          rw [hhead'] at hhead
          cases hhead
          exact hholds
  | importFails himport =>
      rw [Option.toList_none, List.append_nil]
      rcases Repo.importCar_cases store himport with ⟨-, rfl⟩ | ⟨data, hnone, -, -⟩
      · exact h
      · rw [h.current.eq_nil hnone]
        exact ⟨nofun, List.Pairwise.nil⟩
  | get hop =>
      rw [Option.toList_none, List.append_nil]
      exact h.sameHead ((Repo.get_moves ..).of_eq hop)
  | create hop =>
      rw [Option.toList_none, List.append_nil]
      exact h.sameHead ((Repo.create_moves ..).of_eq hop)
  | update hop =>
      rw [Option.toList_none, List.append_nil]
      exact h.sameHead ((Repo.update_moves ..).of_eq hop)
  | delete hop =>
      rw [Option.toList_none, List.append_nil]
      exact h.sameHead ((Repo.delete_moves ..).of_eq hop)
  | commit hop => exact h.commit hlawful hop
  | applyWrites hop =>
      rcases Repo.applyWrites_cases store hop with ⟨hsame, e, rfl⟩ | ⟨r₁, hsame, hcommit⟩
      · rw [append_failed]
        exact h.sameHead hsame
      · exact (h.sameHead hsame).commit hlawful hcommit
  | close =>
      rw [Option.toList_none, List.append_nil]
      refine ⟨?_, h.sorted⟩
      intro rev hrev
      obtain ⟨head, hhead, hcovers⟩ := h.current.1 rev hrev
      exact ⟨head, h.current.2 head hhead, hcovers⟩
  | elapse hremains =>
      rw [Option.toList_none, List.append_nil]
      refine ⟨?_, h.sorted⟩
      intro rev hrev
      obtain ⟨head, hholds, hcovers⟩ := h.current rev hrev
      exact ⟨head, hremains head hholds, hcovers⟩
  | elapseOpened hremains =>
      rw [Option.toList_none, List.append_nil]
      exact h.remains rfl hremains

/-- The revisions of the commits in a run are in order. -/
theorem Session.Run.inOrder (hlawful : store.Lawful) (run : Session.Run store revs session) :
  session.InOrder store revs
  := by
  induction run with
  | start s => exact ⟨nofun, List.Pairwise.nil⟩
  | step run h ih => exact ih.step hlawful h

/-- TIDs that a clock issues to any number of threads increase, each after all that were observed
before it, until the ceiling. Each commit of any repository has a revision after that of the head
before it, or fails and leaves the writes staged. In a lawful store the revisions increase over any
operations, failures, imports and reopenings. -/
theorem revisions_increase :
  (∀ (clockId : UInt16) (events : List TidClock.Event) (threads : TidClock.Threads),
    TidClock.Run clockId events threads → events.Pairwise TidClock.Precedes)
  ∧ (∀ {σ ε : Type} (store : RepoStore σ ε) (key : SigningKey) (now : UInt64) (r r' : Repo σ),
    (∀ data, Repo.commit store key now r = (.ok data, r') →
      (∀ head, r.head = some head → head.commit.rev < data.rev)
        ∧ r'.head = some ⟨data.cid, data.commit⟩ ∧ r'.staged = [])
    ∧ (∀ e, Repo.commit store key now r = (.error e, r') →
      r'.head = r.head ∧ r'.staged = r.staged ∧ r'.records = r.records ∧ KeepsTree r.tree r'.tree)
    ∧ ∀ writes data, Repo.applyWrites store writes key now r = (.ok data, r') →
      ∀ head, r.head = some head → head.commit.rev < data.rev)
  ∧ ∀ {σ ε : Type} (store : RepoStore σ ε), store.Lawful → ∀ revs session,
    Session.Run store revs session → revs.Pairwise (· < ·)
  := by
  refine ⟨fun _ _ _ run => run.invariant.ordered, ?_, fun _ hlawful _ _ run => (run.inOrder hlawful).sorted⟩
  intro σ ε store key now r r'
  refine ⟨?_, ?_, ?_⟩
  · intro data h
    obtain ⟨r₁, -, -, ⟨e, he, -⟩ | ⟨data', hfollows, ⟨e, s, -, he, -⟩ | ⟨s, -, heq, rfl⟩⟩⟩ :=
      Repo.commit_cases store h
    · cases he
    · cases he
    · cases heq
      exact ⟨hfollows.later, rfl, rfl⟩
  · intro e h
    obtain ⟨r₁, hsame, hkeeps, ⟨e, -, rfl⟩ | ⟨data', -, ⟨e, s, -, -, rfl⟩ | ⟨s, -, he, -⟩⟩⟩ :=
      Repo.commit_cases store h
    · exact ⟨hsame.head, hsame.staged, hsame.records, hkeeps⟩
    · exact ⟨hsame.head, hsame.staged, hsame.records, hkeeps⟩
    · cases he
  · intro writes data h head hhead
    rcases Repo.applyWrites_cases store h with ⟨-, e, he⟩ | ⟨r₁, hsame, hcommit⟩
    · cases he
    · obtain ⟨_, -, -, ⟨e, he, -⟩ | ⟨data', hfollows, ⟨e, s, -, he, -⟩ | ⟨s, -, heq, -⟩⟩⟩ :=
        Repo.commit_cases store hcommit
      · cases he
      · cases he
      · cases heq
        exact hfollows.later head (hsame.head.trans hhead)

end

end

/-! ### Two commits as the clock goes backwards -/

namespace Backwards

open Syntax.Sample (alice)

attribute [local instance] Hashing.checksum

/-- A key that signs everything alike. -/
def key : SigningKey := ⟨fun _ => .ok ⟨List.replicate 64 0, List.length_replicate⟩⟩

/-- A new repository, with a clock of its own. -/
def repo : Repo MemRepoStore := .empty .new alice ⟨0, 3⟩

/-- The first commit. -/
def first := Repo.commit MemRepoStore.ops key 1000 repo

/-- The commit after it, at an earlier time. -/
def second := Repo.commit MemRepoStore.ops key 500 first.2

theorem first_rev :
  first.1.toOption.map CommitData.rev = some ⟨1024003⟩
  := by rfl

theorem second_rev :
  second.1.toOption.map CommitData.rev = some ⟨1025027⟩
  := by rfl

theorem eq_ok_of_rev {result : Except RepositoryError CommitData} {rev : Tid}
    (h : result.toOption.map CommitData.rev = some rev) :
  ∃ data, result = .ok data ∧ data.rev = rev
  := by
  cases result with
  | error e => cases h
  | ok data => exact ⟨data, rfl, Option.some_inj.mp h⟩

/-- The session of the two commits. -/
theorem session :
  Session.Run MemRepoStore.ops [⟨1024003⟩, ⟨1025027⟩] (.opened second.2)
  := by
  have hinit : Repo.init MemRepoStore.ops alice ⟨0, 3⟩ .new = .ok repo := rfl
  have hfirst : Repo.commit MemRepoStore.ops key 1000 repo = (first.1, first.2) := rfl
  have hsecond : Repo.commit MemRepoStore.ops key 500 first.2 = (second.1, second.2) := rfl
  have hrun := (((Session.Run.start _).step (.init hinit)).step (.commit hfirst)).step
    (.commit hsecond)
  rw [first_rev, second_rev] at hrun
  exact hrun

/-- A thread observes a TID while another is about to issue one. -/
theorem threads :
  ∃ threads, TidClock.Run 3 [.observed 1 ⟨2047⟩, .issued 0 ⟨2051⟩] threads
  := by
  have hnew : TidClock.Run 3 [] ⟨⟨0, 3⟩, fun _ => .idle⟩ := .new rfl
  have hcall := (hnew.step (.call _ (i := 0) rfl)).step (.observe _ (i := 1) rfl ⟨2047⟩)
  have hload := ((hcall.step (.load _ (i := 0) rfl)).step (.time _ (i := 0) rfl 0)).step
    (.exchange _ (i := 0) rfl rfl)
  exact ⟨_, hload⟩

theorem second_later :
  [TidClock.Event.observed 1 ⟨2047⟩, .issued 0 ⟨2051⟩].Pairwise TidClock.Precedes
    ∧ (∃ head, first.2.head = some head ∧ head.commit.rev < ⟨1025027⟩)
    ∧ [(⟨1024003⟩ : Tid), ⟨1025027⟩].Pairwise (· < ·)
  := by
  obtain ⟨clock, commits, runs⟩ := revisions_increase
  obtain ⟨threads, run⟩ := threads
  obtain ⟨data, hdata, -⟩ := eq_ok_of_rev first_rev
  obtain ⟨data', hdata', hrev'⟩ := eq_ok_of_rev second_rev
  have hfirst : Repo.commit MemRepoStore.ops key 1000 repo = (.ok data, first.2) := by
    rw [← hdata]
    rfl
  have hsecond : Repo.commit MemRepoStore.ops key 500 first.2 = (.ok data', second.2) := by
    rw [← hdata']
    rfl
  obtain ⟨-, hhead, -⟩ := (commits MemRepoStore.ops key 1000 repo first.2).1 data hfirst
  obtain ⟨hlater, -⟩ := (commits MemRepoStore.ops key 500 first.2 second.2).1 data' hsecond
  refine ⟨clock 3 _ threads run, ⟨_, hhead, ?_⟩, runs _ MemRepoStore.lawful _ _ session⟩
  rw [← hrev']
  exact hlater _ hhead

end Backwards

end Shrike.Repo
