import Shrike.Sync.Resync

/-!
# What the checks establish

A state that the verifier accepts is that of a signed commit of the repository, and is not older
than the state that is stored.
-/

namespace Shrike.Sync

open Cbor Syntax Mst Car Repo Bytes Streaming
open Except (bind_eq_ok map_eq_ok mapError_eq_ok ofOption ofOption_eq_ok refuse refuse_eq_ok)

/-! ### States -/

/-- A state may be saved over another one: it has a later revision, or the same one and the same
data. -/
def Advances (prior : Option ChainState) (state : ChainState) : Prop :=
  ∀ chain, prior = some chain → ∃ current rev, Tid.tryFrom chain.rev = .ok current ∧
    Tid.tryFrom state.rev = .ok rev ∧
      (current.value < rev.value ∨ (rev = current ∧ state.data = chain.data))

/-- A revision is later than that of a stored state. -/
def Newer (prior : Option ChainState) (rev : Tid) : Prop :=
  ∀ chain, prior = some chain → ∃ current, Tid.tryFrom chain.rev = .ok current ∧
    current.value < rev.value

/-- A state is that of a commit of the repository that is signed with a key of its owner. -/
def Authentic (owns : Did → VerifyingKey → Prop) (did : Did) (state : ChainState) : Prop :=
  ∃ block inner key, Commit.fromCbor block = .ok inner ∧ inner.did = did ∧ inner.version = 3 ∧
    inner.rev.format = state.rev ∧ inner.data = state.data ∧ owns did key ∧ inner.SignedBy key

/-- The resolver answers with keys of the owner only. -/
def ResolverAnswer.Correct (owns : Did → VerifyingKey → Prop) (did : Did)
    (answer : ResolverAnswer) : Prop :=
  ∀ key, answer.first = .ok (some key) ∨ answer.second = .ok (some key) → owns did key

variable {chain prior : Option ChainState} {answer : ResolverAnswer}

variable {rev current expectedRev : Tid} {chainError : Option VerifierError} {raw : RawCommit}
  {loaded : LoadedRepo} {inner : Commit}

theorem Newer.advances (h : Newer prior rev) (data : Cid) :
  Advances prior ⟨rev.format, data⟩
  := by
  intro chain hchain
  obtain ⟨current, hcurrent, hlt⟩ := h chain hchain
  exact ⟨current, rev, hcurrent, rev.tryFrom_format, .inl hlt⟩

/-! ### Revisions -/

variable {did : Did} {decoded : DecodedCommitCar}

theorem chainRev_eq_ok {chain : ChainState} :
  chainRev did rev chain = .ok current ↔ Tid.tryFrom chain.rev = .ok current
  := mapError_eq_ok

theorem isRevReplay_newer (h : isRevReplay did rev chain = .ok false) :
  Newer chain rev
  := by
  rintro chain' rfl
  obtain ⟨current, hcurrent, hle⟩ := map_eq_ok.mp h
  rw [decide_eq_false_iff_not, UInt64.not_le] at hle
  exact ⟨current, chainRev_eq_ok.mp hcurrent, hle⟩

theorem checkRegression_advances (h : checkRegression did loaded chain = .ok ()) :
  Advances chain ⟨loaded.commit.rev.format, loaded.commit.data⟩
  := by
  rintro chain' rfl
  obtain ⟨current, hcurrent, h⟩ := bind_eq_ok.mp h
  rw [refuse_eq_ok, not_or, UInt64.not_lt] at h
  refine ⟨current, loaded.commit.rev, chainRev_eq_ok.mp hcurrent,
    loaded.commit.rev.tryFrom_format, ?_⟩
  by_cases heq : loaded.commit.rev = current
  · right
    exact ⟨heq, of_not_not fun hdata => h.2 ⟨heq, hdata⟩⟩
  · left
    apply UInt64.lt_of_le_of_ne h.1
    intro hvalue
    apply heq
    cases hrev : loaded.commit.rev
    rw [hrev] at hvalue
    cases current
    exact congrArg Tid.mk hvalue.symm

/-! ### Signatures and fields -/

theorem verifySignatureOnce_ok {texts : Texts} {answer : Except String (Option VerifyingKey)}
    (h : verifySignatureOnce texts did inner answer = .ok ()) :
  ∃ key, answer = .ok (some key) ∧ inner.SignedBy key
  := by
  obtain ⟨found, hfound, h⟩ := bind_eq_ok.mp h
  obtain ⟨key, hkey, h⟩ := bind_eq_ok.mp h
  rw [mapError_eq_ok] at hfound h
  rw [ofOption_eq_ok] at hkey
  rw [hkey] at hfound
  exact ⟨key, hfound, Commit.signedBy_of_verify h⟩

/-- A signature that is verified is one by a key that the resolver answered with. -/
theorem verifySignature_ok {texts : Texts}
    (h : verifySignature texts did rev inner answer = .ok ()) :
  ∃ key, (answer.first = .ok (some key) ∨ answer.second = .ok (some key)) ∧ inner.SignedBy key
  := by
  rw [verifySignature] at h
  split at h
  · rename_i hfirst
    obtain ⟨key, hkey, hsigned⟩ := verifySignatureOnce_ok hfirst
    exact ⟨key, .inl hkey, hsigned⟩
  · cases h
  · obtain ⟨u, -, h⟩ := bind_eq_ok.mp h
    split at h
    · rename_i hsecond
      obtain ⟨key, hkey, hsigned⟩ := verifySignatureOnce_ok hsecond
      exact ⟨key, .inr hkey, hsigned⟩
    · cases h
    · cases h

theorem checkFields_ok {rev : Bytes} (h : checkFields did rev expectedRev inner = .ok ()) :
  inner.did = did ∧ inner.rev = expectedRev ∧ inner.version = 3
  := by
  obtain ⟨u, hdid, h⟩ := bind_eq_ok.mp h
  obtain ⟨u, hrev, h⟩ := bind_eq_ok.mp h
  rw [refuse_eq_ok, not_not] at hdid hrev h
  exact ⟨hdid, hrev, h⟩

variable [Hashing] {texts : Texts} {opts : VerifierOptions} {owns : Did → VerifyingKey → Prop}

/-! ### Commits -/

/-- The commit of a CAR that was read is that of one of its blocks. -/
theorem decodeCommitCar_ok (h : decodeCommitCar texts raw = .ok decoded) :
  ∃ block, Commit.fromCbor block = .ok decoded.inner
  := by
  obtain ⟨⟨roots, blocks⟩, -, h⟩ := bind_eq_ok.mp h
  obtain ⟨root, -, h⟩ := bind_eq_ok.mp h
  obtain ⟨u, -, h⟩ := bind_eq_ok.mp h
  obtain ⟨store, -, h⟩ := bind_eq_ok.mp h
  obtain ⟨block, -, h⟩ := bind_eq_ok.mp h
  obtain ⟨inner, hinner, h⟩ := bind_eq_ok.mp h
  cases h
  exact ⟨block, mapError_eq_ok.mp hinner⟩

/-- What holds of a commit that passes the checks. -/
structure Passed (texts : Texts) (opts : VerifierOptions) (raw : RawCommit)
    (chain : Option ChainState) (answer : ResolverAnswer) (decoded : DecodedCommitCar)
    (chainError : Option VerifierError) : Prop where
  replay : isRevReplay raw.repo raw.rev chain = .ok false
  paths : findDuplicatePath raw.ops [] = none
  decode : decodeCommitCar texts raw = .ok decoded
  root : ∃ root, previousRoot texts opts raw decoded.inner decoded.store chain = .ok root ∧
    checkChain texts opts raw chain root = .ok chainError
  fields : checkFields raw.repo raw.rev.format raw.rev decoded.inner = .ok ()
  signature : verifySignature texts raw.repo raw.rev decoded.inner answer = .ok ()
  opCids : checkOpCids texts raw decoded.inner.data decoded.store = .ok ()

/-- A commit is accepted exactly when it passes the checks. -/
theorem checkCommit_eq_accepted :
  checkCommit texts opts raw chain answer = .accepted decoded chainError ↔
    Passed texts opts raw chain answer decoded chainError
  := by
  constructor
  · intro h
    rw [checkCommit] at h
    split at h
    · cases h
    · cases h
    · rename_i hreplay
      split at h
      · cases h
      · rename_i hpaths
        split at h
        · split_ifs at h
        · rename_i decoded' hdecode
          rw [checkDecoded] at h
          split at h
          · cases h
          · rename_i root hroot
            split at h
            · cases h
            · rename_i chainError' hchain
              split at h
              · cases h
              · rename_i hfields
                split at h
                · cases h
                · rename_i hsignature
                  rw [checkSigned] at h
                  split at h
                  · cases h
                  · rename_i hcids
                    cases h
                    exact ⟨hreplay, hpaths, hdecode, ⟨root, hroot, hchain⟩, hfields, hsignature,
                      hcids⟩
  · rintro ⟨hreplay, hpaths, hdecode, ⟨root, hroot, hchain⟩, hfields, hsignature, hcids⟩
    rw [checkCommit, hreplay]
    dsimp only
    rw [hpaths]
    dsimp only
    rw [hdecode]
    dsimp only
    rw [checkDecoded, hroot]
    dsimp only
    rw [hchain]
    dsimp only
    rw [hfields]
    dsimp only
    rw [hsignature]
    dsimp only
    rw [checkSigned, hcids]

theorem Passed.newer (h : Passed texts opts raw chain answer decoded chainError) :
  Newer chain raw.rev
  := isRevReplay_newer h.replay

/-- The state after a commit that passes the checks is that of a signed commit. -/
theorem Passed.authentic (h : Passed texts opts raw chain answer decoded chainError)
    (hanswer : answer.Correct owns raw.repo) :
  Authentic owns raw.repo ⟨raw.rev.format, decoded.inner.data⟩
  := by
  obtain ⟨block, hblock⟩ := decodeCommitCar_ok h.decode
  obtain ⟨hdid, hrev, hversion⟩ := checkFields_ok h.fields
  obtain ⟨key, hkey, hsigned⟩ := verifySignature_ok h.signature
  exact ⟨block, decoded.inner, key, hblock, hdid, hversion, congrArg Tid.format hrev, rfl,
    hanswer key hkey, hsigned⟩

/-! ### States of repositories -/

theorem decodeSyncCommit_ok {rev blocks : Bytes}
    (h : decodeSyncCommit texts did rev blocks = .ok inner) :
  ∃ block, Commit.fromCbor block = .ok inner
  := by
  obtain ⟨⟨roots, carBlocks⟩, -, h⟩ := bind_eq_ok.mp h
  obtain ⟨commitCid, -, h⟩ := bind_eq_ok.mp h
  obtain ⟨block, -, h⟩ := bind_eq_ok.mp h
  obtain ⟨u, -, h⟩ := bind_eq_ok.mp h
  exact ⟨block.data, mapError_eq_ok.mp h⟩

/-- A state that confirms the stored one is later, and that of a signed commit. -/
theorem checkSync_confirmed {raw : RawSync}
    (h : checkSync texts raw rev chain answer = .confirmed inner)
    (hanswer : answer.Correct owns raw.did) :
  Newer chain rev ∧ Authentic owns raw.did ⟨rev.format, inner.data⟩
  := by
  rw [checkSync.eq_def] at h
  split at h
  · cases h
  · cases h
  · rename_i hreplay
    split at h
    · cases h
    · split_ifs at h
      split at h
      · cases h
      · rename_i inner' hdecode
        split_ifs at h
        split at h
        · cases h
        · rename_i hfields
          split at h
          · cases h
          · rename_i hsignature
            cases h
            obtain ⟨block, hblock⟩ := decodeSyncCommit_ok hdecode
            obtain ⟨hdid, hrev, hversion⟩ := checkFields_ok hfields
            obtain ⟨key, hkey, hsigned⟩ := verifySignature_ok hsignature
            exact ⟨isRevReplay_newer hreplay, block, inner, key, hblock, hdid, hversion,
              congrArg Tid.format hrev, rfl, hanswer key hkey, hsigned⟩

/-! ### Repositories -/

theorem loadRepo_ok {commitCid : Cid} {store : Blocks} {limits : RepoLoadLimits}
    (h : loadRepo texts did commitCid store limits = .ok loaded) :
  loaded.commit.version = 3 ∧ ∃ block, Commit.fromCbor block = .ok loaded.commit
  := by
  obtain ⟨block, -, h⟩ := bind_eq_ok.mp h
  obtain ⟨commit, hcommit, h⟩ := bind_eq_ok.mp h
  obtain ⟨u, -, h⟩ := bind_eq_ok.mp h
  obtain ⟨u, hversion, h⟩ := bind_eq_ok.mp h
  obtain ⟨ops, -, h⟩ := bind_eq_ok.mp h
  cases h
  rw [refuse_eq_ok, not_not] at hversion
  exact ⟨hversion, block, mapError_eq_ok.mp hcommit⟩

theorem fetchRepo_ok {stream : RepoCarStream} (h : fetchRepo texts opts did stream = .ok loaded) :
  loaded.commit.version = 3 ∧ ∃ block, Commit.fromCbor block = .ok loaded.commit
  := by
  obtain ⟨u, -, h⟩ := bind_eq_ok.mp h
  obtain ⟨chunks, -, h⟩ := bind_eq_ok.mp h
  obtain ⟨loader, -, h⟩ := bind_eq_ok.mp h
  obtain ⟨u, -, h⟩ := bind_eq_ok.mp h
  obtain ⟨commitCid, -, h⟩ := bind_eq_ok.mp h
  exact loadRepo_ok h

/-- The state of a repository that was fetched and verified is that of a signed commit. -/
theorem authentic_of_fetchRepo {stream : RepoCarStream}
    (hfetch : fetchRepo texts opts did stream = .ok loaded)
    (hverify : verifyLoadedRepo texts did loaded answer = .ok ()) (hanswer : answer.Correct owns did) :
  Authentic owns did ⟨loaded.commit.rev.format, loaded.commit.data⟩
  := by
  obtain ⟨hversion, block, hblock⟩ := fetchRepo_ok hfetch
  obtain ⟨u, hdid, hsignature⟩ := bind_eq_ok.mp hverify
  rw [refuse_eq_ok, not_not] at hdid
  obtain ⟨key, hkey, hsigned⟩ := verifySignature_ok hsignature
  exact ⟨block, loaded.commit, key, hblock, hdid, hversion, rfl, rfl, hanswer key hkey, hsigned⟩

end Shrike.Sync
