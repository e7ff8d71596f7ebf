import Shrike.Lexicon.Resolver
import Shrike.Repo.Soundness

/-!
# Freshness of resolved lexicons

A lexicon that is returned was proved, and is as old as the cache allows at most. Nothing is used
that was resolved before a purge, unless it was put into the cache after it.
-/

namespace Shrike.Lexicon.Resolver

open Bytes Cbor Syntax Repo Mst Outbound

/-! ### What is returned -/

/-- An authority is the answer of DNS for a group of NSIDs. -/
def Authority.Answers (a : Authority) (group : Bytes) : Prop :=
  ∃ nsid, authority nsid = group ∧ resolveLexiconAuthority nsid (.ok a.records) = .ok a.did

/-- A fetch that belongs to a `get` has an authority that was the answer of DNS at most a time
before it was taken. -/
structure Fetch.Sourced (authorityTtl now : ℕ) (f : Fetch) (a : Authority) (taken : ℕ) : Prop where
  did : a.did = f.did
  answers : resolveLexiconAuthority f.nsid (.ok a.records) = .ok f.did
  answered : a.time ≤ taken
  fresh : taken ≤ a.time + authorityTtl
  taken : taken ≤ now

section

variable {Schema ε : Type} [Hashing]

/-- A record was proved against a commit that the signing key of the DID has signed: the one in the
document of the DID. -/
def ProvedRecord.Proves (directory : Identities.Resolver VerifyingKey) (r : ProvedRecord)
    (did : Did) (nsid : Nsid) : Prop :=
  Identities.Described directory did r.identity ∧ r.identity.did = did
    ∧ ∃ key collection rkey proof, r.identity.keys.lookup (ascii "#atproto") = some key
    ∧ Nsid.tryFrom lexiconSchemaNsid = .ok collection ∧ RecordKey.tryFrom nsid.raw = .ok rkey
    ∧ verifyRecordProof r.car did key collection rkey = .ok proof
    ∧ proof.record = some (r.fetched.cid, r.fetched.record)
    ∧ proof.commit.did = did ∧ proof.commit.SignedBy key

variable [DataEncoding] (resolver : LexiconResolver Schema ε)

/-- A lexicon that is returned at a time: its URI, its document and its bytes belong to the NSID,
its record was proved at most a time ago, and its authority is sourced. -/
structure Served (authorityTtl recordTtl : ℕ) (f : Fetch) (lexicon : ResolvedLexicon Schema)
    (r : ProvedRecord) (now : ℕ) : Prop where
  uri : lexicon.uri = recordUri f.did f.nsid
  hashed : Cid.compute .drisl lexicon.record = lexicon.cid
  json : drislToJson lexicon.record = .ok lexicon.json
  document : resolver.parseSchema lexicon.json = .ok lexicon.schema
  id : resolver.schemaId lexicon.schema = f.nsid.raw
  record : r.fetched = ⟨lexicon.cid, lexicon.record⟩
  proves : r.Proves resolver.directory f.did f.nsid
  proved : r.time ≤ now
  fresh : now ≤ r.time + recordTtl
  sourced : ∀ a taken, f.authority = some (a, taken) → f.Sourced authorityTtl now a taken

/-- What a fetch uses was resolved after the purges of the NSID that had returned before the call
began. -/
def AfterPurges (f : Fetch) (r : ProvedRecord) : Prop :=
  f.purged ≤ r.began ∧ ∀ a taken, f.authority = some (a, taken) → f.purged ≤ a.began

omit [Hashing] [DataEncoding] in
/-- What a step puts into the cache was not resolved before its entry was last taken out. -/
def Event.Timely (s : State) : Event Schema ε → Prop
  | .silent => True
  | .resolved nsid a source => source = .network → s.authorityRemoved (authority nsid) ≤ a.began
  | .returned f _ r source _ => source = .network → s.recordsRemoved f.nsid ≤ r.began
  | .failed _ => True

omit [Hashing] [DataEncoding] in
/-- Whether a step is answered from the cache. -/
def Event.IsHit : Event Schema ε → Prop
  | .silent => False
  | .resolved _ _ source => source = .hook
  | .returned _ _ _ source _ => source = .hook
  | .failed _ => False

/-! ### Functions of the resolver -/

omit [Hashing] [DataEncoding] in
theorem resolveLexiconAuthority_congr {n n' : Nsid} (h : authority n = authority n')
    (answer : Except TxtError (List TxtRecord)) :
  resolveLexiconAuthority n answer = resolveLexiconAuthority n' answer
  := by
  unfold resolveLexiconAuthority lexiconAuthorityName
  rw [h]

variable {fetched : FetchedRecord}

variable {identity : Identities.Identity VerifyingKey}

omit [DataEncoding] in
/-- A record that is fetched was proved. -/
theorem fetchedRecord_proves {did : Did} {nsid : Nsid} {key : VerifyingKey} {car : Bytes}
    (h : fetchedRecord resolver did nsid key (.body car) = .ok fetched)
    (hlooked : Identities.Described resolver.directory did identity)
    (hkey : identity.keys.lookup (ascii "#atproto") = some key) (time began : ℕ) :
  ProvedRecord.Proves resolver.directory ⟨fetched, identity, car, time, began⟩ did nsid
  := by
  rw [fetchedRecord] at h
  split_ifs at h
  obtain ⟨collection, hcollection, h⟩ := Except.bind_eq_ok.mp h
  obtain ⟨rkey, hrkey, h⟩ := Except.bind_eq_ok.mp h
  obtain ⟨proof, hproof, h⟩ := Except.bind_eq_ok.mp h
  rw [Except.mapError_eq_ok] at hcollection hrkey hproof
  cases hrecord : proof.record with
  | none =>
      rw [hrecord] at h
      cases h
  | some record =>
      rw [hrecord] at h
      cases h
      obtain ⟨o, t, hopen, hcommit, -⟩ := verifyRecordProof_ok hproof
      have hopened := openProof_opened (fun b _ => Set.mem_univ b.data) hopen
      refine ⟨hlooked, hlooked.did_eq, key, collection, rkey, proof, hkey, hcollection, hrkey,
        hproof, hrecord, ?_, ?_⟩
      · rw [hcommit]
        exact hopened.did
      · rw [hcommit]
        exact hopened.signed

/-- A record that is validated has the bytes of its CID, and is the document of the NSID. -/
theorem validate_ok {uri : Bytes} {nsid : Nsid}
    {lexicon : ResolvedLexicon Schema} (h : validate resolver uri nsid fetched = .ok lexicon) :
  lexicon.uri = uri ∧ Cid.compute .drisl lexicon.record = lexicon.cid
    ∧ drislToJson lexicon.record = .ok lexicon.json
    ∧ resolver.parseSchema lexicon.json = .ok lexicon.schema
    ∧ resolver.schemaId lexicon.schema = nsid.raw ∧ fetched = ⟨lexicon.cid, lexicon.record⟩
  := by
  rw [validate] at h
  split_ifs at h with hcodec hcid
  obtain ⟨json, hjson, h⟩ := Except.bind_eq_ok.mp h
  rw [Except.mapError_eq_ok] at hjson
  split at h
  · split_ifs at h
    obtain ⟨schema, hschema, h⟩ := Except.bind_eq_ok.mp h
    rw [Except.mapError_eq_ok] at hschema
    split_ifs at h with hid
    cases h
    exact ⟨rfl, not_not.mp hcid, hjson, hschema, not_not.mp hid, rfl⟩
  · cases h

omit [Hashing] [DataEncoding] in
/-- A signing key is that of the identity. -/
theorem signingKey_ok {did : Did} {nsid : Nsid}
    {key : VerifyingKey} (h : signingKey resolver did nsid (.ok identity) = .ok key) :
  identity.keys.lookup (ascii "#atproto") = some key
  := by
  rw [signingKey] at h
  obtain ⟨identity', heq, h⟩ := Except.bind_eq_ok.mp h
  cases heq
  split at h
  · cases h
  · split at h
    · cases h
    · rename_i key' hkey
      obtain ⟨-, -, h⟩ := Except.bind_eq_ok.mp h
      cases h
      exact hkey

end

/-! ### The cache -/

section

variable (s : State) {n nsid : Nsid} {group : Bytes} (began : ℕ)

theorem authorityRemoved_self (h : group = authority nsid) :
  (s.removeAuthority nsid).authorityRemoved group = s.steps
  := by
  rw [h]
  exact Function.update_self _ _ _

theorem authorityRemoved_of_ne (h : group ≠ authority nsid) :
  (s.removeAuthority nsid).authorityRemoved group = s.authorityRemoved group
  := Function.update_of_ne h _ _

theorem recordsRemoved_self (h : n = nsid) :
  (s.removeRecords nsid began).recordsRemoved n = s.steps
  := by
  rw [h]
  exact Function.update_self _ _ _

theorem recordsRemoved_of_ne (h : n ≠ nsid) :
  (s.removeRecords nsid began).recordsRemoved n = s.recordsRemoved n
  := Function.update_of_ne h _ _

theorem purged_self (h : n = nsid) :
  (s.removeRecords nsid began).purged n = max (s.purged nsid) began
  := by
  rw [h]
  exact Function.update_self _ _ _

theorem purged_of_ne (h : n ≠ nsid) :
  (s.removeRecords nsid began).purged n = s.purged n
  := Function.update_of_ne h _ _

end

section

variable [Hashing]

/-- What holds of the cache at a time. Its entries expire in time, and if everything was put into it
in time, none was resolved before a removal. -/
structure State.Cached (directory : Identities.Resolver VerifyingKey) (timely : Prop)
    (authorityTtl recordTtl now : ℕ) (s : State) : Prop where
  ttlOfAuthorities : s.authorities.ttl = authorityTtl
  ttlOfRecords : s.records.ttl = recordTtl
  authorities : ∀ e ∈ s.authorities.map, e.2.1.Answers e.1 ∧ e.2.1.time ≤ now
    ∧ e.2.2 ≤ e.2.1.time + authorityTtl ∧ (timely → s.authorityRemoved e.1 ≤ e.2.1.began)
  records : ∀ e ∈ s.records.map, e.2.1.Proves directory e.1.1 e.1.2 ∧ e.2.1.time ≤ now
    ∧ e.2.2 ≤ e.2.1.time + recordTtl ∧ (timely → s.recordsRemoved e.1.2 ≤ e.2.1.began)
  authorityRemoved : ∀ group, s.authorityRemoved group ≤ s.steps
  recordsRemoved : ∀ nsid, s.recordsRemoved nsid ≤ s.steps
  purged : ∀ nsid, s.purged nsid ≤ s.authorityRemoved (authority nsid)
    ∧ s.purged nsid ≤ s.recordsRemoved nsid

namespace State.Cached

variable {directory : Identities.Resolver VerifyingKey} {timely timely' : Prop}
  {authorityTtl recordTtl now now' : ℕ} {s : State}

theorem new (authorityTtl recordTtl capacity : ℕ) :
  (State.new authorityTtl recordTtl capacity).Cached directory timely authorityTtl recordTtl now
  := ⟨rfl, rfl, nofun, nofun, fun _ => Nat.zero_le _, fun _ => Nat.zero_le _,
    fun _ => ⟨Nat.zero_le _, Nat.zero_le _⟩⟩

theorem later (h : s.Cached directory timely authorityTtl recordTtl now)
    (htimely : timely' → timely)
    (hnow : now ≤ now') :
  s.Cached directory timely' authorityTtl recordTtl now'
  where
  ttlOfAuthorities := h.ttlOfAuthorities
  ttlOfRecords := h.ttlOfRecords
  authorities e he :=
    have ⟨hanswers, htime, hexpires, hbegan⟩ := h.authorities e he
    ⟨hanswers, htime.trans hnow, hexpires, fun ht => hbegan (htimely ht)⟩
  records e he :=
    have ⟨hproves, htime, hexpires, hbegan⟩ := h.records e he
    ⟨hproves, htime.trans hnow, hexpires, fun ht => hbegan (htimely ht)⟩
  authorityRemoved := h.authorityRemoved
  recordsRemoved := h.recordsRemoved
  purged := h.purged

theorem put (h : s.Cached directory timely authorityTtl recordTtl now) (t : ℕ) (task : Option Task)
    (clock : ℕ) :
  (s.put t task clock).Cached directory timely authorityTtl recordTtl now
  := ⟨h.ttlOfAuthorities, h.ttlOfRecords, h.authorities, h.records,
    fun group => (h.authorityRemoved group).trans (Nat.le_succ _),
    fun nsid => (h.recordsRemoved nsid).trans (Nat.le_succ _), h.purged⟩

theorem call (h : s.Cached directory timely authorityTtl recordTtl now) (task : Task) (clock : ℕ) :
  (s.call task clock).Cached directory timely authorityTtl recordTtl now
  := ⟨h.ttlOfAuthorities, h.ttlOfRecords, h.authorities, h.records,
    fun group => (h.authorityRemoved group).trans (Nat.le_succ _),
    fun nsid => (h.recordsRemoved nsid).trans (Nat.le_succ _), h.purged⟩

/-- A look for an authority adds nothing. -/
theorem lookAuthority (h : s.Cached directory timely authorityTtl recordTtl now) (group : Bytes)
    (at' : ℕ) :
  { s with authorities := (s.authorities.get group at').2 }.Cached directory timely authorityTtl
    recordTtl now
  := ⟨(TtlMap.ttl_get _ _ _).trans h.ttlOfAuthorities, h.ttlOfRecords,
    fun e he => h.authorities e (TtlMap.mem_get he), h.records, h.authorityRemoved,
    h.recordsRemoved, h.purged⟩

/-- A look for a record adds nothing. -/
theorem lookRecord (h : s.Cached directory timely authorityTtl recordTtl now) (key : Did × Nsid)
    (at' : ℕ) :
  { s with records := (s.records.get key at').2 }.Cached directory timely authorityTtl recordTtl now
  := ⟨h.ttlOfAuthorities, (TtlMap.ttl_get _ _ _).trans h.ttlOfRecords, h.authorities,
    fun e he => h.records e (TtlMap.mem_get he), h.authorityRemoved, h.recordsRemoved, h.purged⟩

/-- An authority is put into the cache that was answered just now. -/
theorem keepAuthority (h : s.Cached directory timely authorityTtl recordTtl now) {a : Authority}
    {nsid : Nsid}
    {iterated : TtlMap Bytes Authority} (horder : s.authorities.Reordered iterated)
    (hanswers : a.Answers (authority nsid)) (htime : a.time = now)
    (hbegan : timely → s.authorityRemoved (authority nsid) ≤ a.began) (lastInstant : ℕ) :
  (s.keepAuthority lastInstant nsid a iterated).Cached directory timely authorityTtl recordTtl now
  := by
  refine ⟨?_, h.ttlOfRecords, ?_, h.records, h.authorityRemoved, h.recordsRemoved, h.purged⟩
  · rw [State.keepAuthority, TtlMap.ttl_insert, horder.ttl, h.ttlOfAuthorities]
  · intro e he
    rcases TtlMap.mem_insert he with rfl | he
    · refine ⟨hanswers, htime.le, ?_, hbegan⟩
      rw [horder.ttl, h.ttlOfAuthorities]
      exact expiry_le _ _ _
    · exact h.authorities e (horder.map.mem_iff.mp he)

/-- A record is put into the cache that was proved just now. -/
theorem keepRecord (h : s.Cached directory timely authorityTtl recordTtl now) {r : ProvedRecord}
    {did : Did}
    {nsid : Nsid} {iterated : TtlMap (Did × Nsid) ProvedRecord}
    (horder : s.records.Reordered iterated) (hproves : r.Proves directory did nsid)
    (htime : r.time = now)
    (hbegan : timely → s.recordsRemoved nsid ≤ r.began) (lastInstant : ℕ) :
  (s.keepRecord lastInstant did nsid r iterated).Cached directory timely authorityTtl recordTtl now
  := by
  refine ⟨h.ttlOfAuthorities, ?_, h.authorities, ?_, h.authorityRemoved, h.recordsRemoved, h.purged⟩
  · rw [State.keepRecord, TtlMap.ttl_insert, horder.ttl, h.ttlOfRecords]
  · intro e he
    rcases TtlMap.mem_insert he with rfl | he
    · refine ⟨hproves, htime.le, ?_, hbegan⟩
      rw [horder.ttl, h.ttlOfRecords]
      exact expiry_le _ _ _
    · exact h.records e (horder.map.mem_iff.mp he)

/-- The authority of a group is taken out. -/
theorem removeAuthority (h : s.Cached directory timely authorityTtl recordTtl now) (nsid : Nsid) :
  (s.removeAuthority nsid).Cached directory timely authorityTtl recordTtl now
  := by
  refine ⟨h.ttlOfAuthorities, h.ttlOfRecords, ?_, h.records, ?_, h.recordsRemoved, ?_⟩
  · intro e he
    obtain ⟨hmem, hne⟩ := TtlMap.mem_remove he
    obtain ⟨hanswers, htime, hexpires, hbegan⟩ := h.authorities e hmem
    refine ⟨hanswers, htime, hexpires, ?_⟩
    rw [authorityRemoved_of_ne s hne]
    exact hbegan
  · intro group
    by_cases heq : group = authority nsid
    · exact (authorityRemoved_self s heq).le
    · rw [authorityRemoved_of_ne s heq]
      exact h.authorityRemoved group
  · intro n
    obtain ⟨hauthority, hrecords⟩ := h.purged n
    refine ⟨?_, hrecords⟩
    by_cases heq : authority n = authority nsid
    · rw [authorityRemoved_self s heq]
      exact hauthority.trans (h.authorityRemoved _)
    · rw [authorityRemoved_of_ne s heq]
      exact hauthority

/-- The records of an NSID are taken out, whose authority was taken out before. -/
theorem removeRecords (h : s.Cached directory timely authorityTtl recordTtl now) {nsid : Nsid}
    {began : ℕ}
    (hbegan : began ≤ s.steps) (hremoved : began ≤ s.authorityRemoved (authority nsid)) :
  (s.removeRecords nsid began).Cached directory timely authorityTtl recordTtl now
  := by
  refine ⟨h.ttlOfAuthorities, h.ttlOfRecords, h.authorities, ?_, h.authorityRemoved, ?_, ?_⟩
  · intro e he
    obtain ⟨hmem, hkeep⟩ := TtlMap.mem_retain he
    obtain ⟨hproves, htime, hexpires, hremoved⟩ := h.records e hmem
    refine ⟨hproves, htime, hexpires, ?_⟩
    rw [recordsRemoved_of_ne s began (of_decide_eq_true hkeep)]
    exact hremoved
  · intro n
    by_cases heq : n = nsid
    · exact (recordsRemoved_self s began heq).le
    · rw [recordsRemoved_of_ne s began heq]
      exact h.recordsRemoved n
  · intro n
    obtain ⟨hauthority, hrecords⟩ := h.purged n
    by_cases heq : n = nsid
    · rw [purged_self s began heq, recordsRemoved_self s began heq]
      rw [heq] at hauthority hrecords ⊢
      exact ⟨max_le hauthority hremoved, max_le (hrecords.trans (h.recordsRemoved nsid)) hbegan⟩
    · rw [purged_of_ne s began heq, recordsRemoved_of_ne s began heq]
      exact ⟨hauthority, hrecords⟩

/-- All authorities are taken out. -/
theorem clearAuthorities (h : s.Cached directory timely authorityTtl recordTtl now) :
  s.clearAuthorities.Cached directory timely authorityTtl recordTtl now
  := ⟨h.ttlOfAuthorities, h.ttlOfRecords, nofun, h.records, fun _ => Nat.le_refl _,
    h.recordsRemoved, fun nsid =>
      ⟨(h.purged nsid).2.trans (h.recordsRemoved nsid), (h.purged nsid).2⟩⟩

/-- All records are taken out, after all authorities. -/
theorem clearRecords (h : s.Cached directory timely authorityTtl recordTtl now) {began : ℕ}
    (hbegan : began ≤ s.steps) (hremoved : ∀ group, began ≤ s.authorityRemoved group) :
  (s.clearRecords began).Cached directory timely authorityTtl recordTtl now
  := ⟨h.ttlOfAuthorities, h.ttlOfRecords, h.authorities, nofun, h.authorityRemoved,
    fun _ => Nat.le_refl _, fun nsid => ⟨max_le (h.purged nsid).1 (hremoved _),
      max_le ((h.purged nsid).2.trans (h.recordsRemoved nsid)) hbegan⟩⟩

end State.Cached

end

/-! ### Calls -/

/-- A fetch whose authority is sourced, and was resolved after the purges if all was put into the
cache in time. -/
def Fetch.Good (timely : Prop) (authorityTtl now : ℕ) (f : Fetch) : Prop :=
  ∀ a taken, f.authority = some (a, taken) →
    f.Sourced authorityTtl now a taken ∧ (timely → f.purged ≤ a.began)

/-- What holds of a call in a state. -/
def Task.Good (directory : Identities.Resolver VerifyingKey) (timely : Prop)
    (authorityTtl now : ℕ) (s : State) : Task → Prop
  | .resolving nsid purged => purged ≤ s.purged nsid
  | .lookingUp nsid purged began => purged ≤ s.purged nsid ∧ purged ≤ began
  | .fetching f => f.purged ≤ s.purged f.nsid ∧ f.Good timely authorityTtl now
  | .identifying f began => f.purged ≤ began ∧ f.Good timely authorityTtl now
  | .requesting f began identity key => f.purged ≤ began ∧ f.Good timely authorityTtl now
      ∧ Identities.Described directory f.did identity
      ∧ identity.keys.lookup (ascii "#atproto") = some key
  | .purging _ began => began ≤ s.steps
  | .retaining nsid began => began ≤ s.steps ∧ began ≤ s.authorityRemoved (authority nsid)
  | .clearing began => began ≤ s.steps
  | .clearingRecords began => began ≤ s.steps ∧ ∀ group, began ≤ s.authorityRemoved group

/-- A state that differs from another one only in its cache, from which no less was removed. -/
structure State.Grows (s s' : State) : Prop where
  tasks : s'.tasks = s.tasks
  steps : s'.steps = s.steps
  authorityRemoved : ∀ group, s.authorityRemoved group ≤ s'.authorityRemoved group
  purged : ∀ nsid, s.purged nsid ≤ s'.purged nsid

section

variable {directory : Identities.Resolver VerifyingKey} {timely timely' : Prop}
  {authorityTtl recordTtl now now' : ℕ} {s s' : State} {task : Task}

theorem Fetch.Good.later {f : Fetch} (h : f.Good timely authorityTtl now)
    (htimely : timely' → timely) (hnow : now ≤ now') :
  f.Good timely' authorityTtl now'
  := by
  intro a taken ha
  obtain ⟨hsourced, hpurged⟩ := h a taken ha
  exact ⟨{ hsourced with taken := hsourced.taken.trans hnow }, fun ht => hpurged (htimely ht)⟩

/-- What holds of a call holds later. -/
theorem Task.Good.later (h : task.Good directory timely authorityTtl now s)
    (htimely : timely' → timely)
    (hnow : now ≤ now') (hsteps : s.steps ≤ s'.steps)
    (hremoved : ∀ group, s.authorityRemoved group ≤ s'.authorityRemoved group)
    (hpurged : ∀ nsid, s.purged nsid ≤ s'.purged nsid) :
  task.Good directory timely' authorityTtl now' s'
  := by
  cases task with
  | resolving nsid purged => exact h.trans (hpurged nsid)
  | lookingUp nsid purged began => exact ⟨h.1.trans (hpurged nsid), h.2⟩
  | fetching f => exact ⟨h.1.trans (hpurged f.nsid), h.2.later htimely hnow⟩
  | identifying f began => exact ⟨h.1, h.2.later htimely hnow⟩
  | requesting f began identity key => exact ⟨h.1, h.2.1.later htimely hnow, h.2.2⟩
  | purging nsid began => exact h.trans hsteps
  | retaining nsid began => exact ⟨h.1.trans hsteps, h.2.trans (hremoved _)⟩
  | clearing began => exact h.trans hsteps
  | clearingRecords began =>
      exact ⟨h.1.trans hsteps, fun group => (h.2 group).trans (hremoved group)⟩

theorem State.Grows.refl (s : State) :
  s.Grows s
  := ⟨rfl, rfl, fun _ => Nat.le_refl _, fun _ => Nat.le_refl _⟩

theorem State.Grows.cache (s : State) (authorities : TtlMap Bytes Authority)
    (records : TtlMap (Did × Nsid) ProvedRecord) :
  s.Grows { s with authorities := authorities, records := records }
  := ⟨rfl, rfl, fun _ => Nat.le_refl _, fun _ => Nat.le_refl _⟩

variable [Hashing]

/-- What holds of a resolver. If everything was put into its cache in time, it also holds that what
is used was resolved after the purges. -/
structure State.Sound (directory : Identities.Resolver VerifyingKey) (timely : Prop)
    (authorityTtl recordTtl : ℕ) (s : State) : Prop where
  cached : s.Cached directory timely authorityTtl recordTtl s.clock
  tasks : ∀ t task, s.tasks t = some task → task.Good directory timely authorityTtl s.clock s

theorem State.Sound.new (authorityTtl recordTtl capacity : ℕ) :
  (State.new authorityTtl recordTtl capacity).Sound directory timely authorityTtl recordTtl
  := ⟨.new _ _ _, nofun⟩

/-- A call goes on, and its step changes the cache as it may. -/
theorem State.Sound.put {s₁ : State} (h : s.Sound directory timely authorityTtl recordTtl)
    (htimely : timely' → timely) (hnow : s.clock ≤ now) (hgrows : s.Grows s₁)
    (hcached : s₁.Cached directory timely' authorityTtl recordTtl now) {t : ℕ} {task' : Option Task}
    (htask : ∀ task ∈ task', task.Good directory timely' authorityTtl now (s₁.put t task' now)) :
  (s₁.put t task' now).Sound directory timely' authorityTtl recordTtl
  := by
  refine ⟨hcached.put t task' now, ?_⟩
  intro u task hu
  have hupdate : (s₁.put t task' now).tasks = Function.update s.tasks t task' := by
    rw [← hgrows.tasks]
    rfl
  rw [hupdate] at hu
  by_cases hut : u = t
  · rw [hut, Function.update_self] at hu
    exact htask task hu
  · rw [Function.update_of_ne hut] at hu
    refine (h.tasks u task hu).later htimely hnow ?_ hgrows.authorityRemoved hgrows.purged
    rw [← hgrows.steps]
    exact Nat.le_succ _

/-- A call begins. -/
theorem State.Sound.call (h : s.Sound directory timely authorityTtl recordTtl)
    (htimely : timely' → timely)
    (hnow : s.clock ≤ now)
    (htask : task.Good directory timely' authorityTtl now (s.call task now)) :
  (s.call task now).Sound directory timely' authorityTtl recordTtl
  := by
  have hput : (s.put s.calls (some task) now).Sound directory timely' authorityTtl recordTtl := by
    refine h.put htimely hnow (.refl s) (h.cached.later htimely hnow) ?_
    rintro _ ⟨⟩
    exact htask.later id (Nat.le_refl _) (Nat.le_refl _) (fun _ => Nat.le_refl _)
      (fun _ => Nat.le_refl _)
  refine ⟨(h.cached.later htimely hnow).call task now, ?_⟩
  intro u task' hu
  exact (hput.tasks u task' hu).later id (Nat.le_refl _) (Nat.le_refl _) (fun _ => Nat.le_refl _)
    (fun _ => Nat.le_refl _)

end

/-! ### Steps -/

section

variable [Hashing] {directory : Identities.Resolver VerifyingKey} {timely : Prop}
  {authorityTtl recordTtl now : ℕ} {s : State}

theorem State.Cached.grows_removeAuthority
    (h : s.Cached directory timely authorityTtl recordTtl now)
    (nsid : Nsid) :
  s.Grows (s.removeAuthority nsid)
  := by
  refine ⟨rfl, rfl, ?_, fun _ => Nat.le_refl _⟩
  intro group
  by_cases heq : group = authority nsid
  · rw [authorityRemoved_self s heq]
    exact h.authorityRemoved group
  · rw [authorityRemoved_of_ne s heq]

theorem State.Cached.grows_clearAuthorities
    (h : s.Cached directory timely authorityTtl recordTtl now) :
  s.Grows s.clearAuthorities
  := ⟨rfl, rfl, h.authorityRemoved, fun _ => Nat.le_refl _⟩

omit [Hashing] in
theorem State.grows_removeRecords (s : State) (nsid : Nsid) (began : ℕ) :
  s.Grows (s.removeRecords nsid began)
  := by
  refine ⟨rfl, rfl, fun _ => Nat.le_refl _, ?_⟩
  intro n
  by_cases heq : n = nsid
  · rw [purged_self s began heq, heq]
    exact le_max_left _ _
  · rw [purged_of_ne s began heq]

omit [Hashing] in
theorem State.grows_clearRecords (s : State) (began : ℕ) :
  s.Grows (s.clearRecords began)
  := ⟨rfl, rfl, fun _ => Nat.le_refl _, fun _ => le_max_left _ _⟩

/-- An authority in the cache that has not expired is a source of a fetch. -/
theorem State.Cached.source (h : s.Cached directory timely authorityTtl recordTtl s.clock)
    (hnow : s.clock ≤ now) {nsid : Nsid} {a : Authority}
    (hhit : (s.authorities.get (authority nsid) now).1 = some a) {purged : ℕ}
    (hpurged : purged ≤ s.purged nsid) :
  (Fetch.mk a.did nsid (some (a, now)) purged).Good timely authorityTtl now
  := by
  rintro _ _ ⟨⟩
  obtain ⟨expires, hmem, hlt⟩ := TtlMap.mem_of_get hhit
  obtain ⟨⟨n, hgroup, hanswers⟩, htime, hexpires, hbegan⟩ := h.authorities _ hmem
  refine ⟨⟨rfl, ?_, htime.trans hnow, hlt.le.trans hexpires, Nat.le_refl _⟩, fun ht => ?_⟩
  · rw [resolveLexiconAuthority_congr hgroup.symm]
    exact hanswers
  · exact hpurged.trans ((h.purged nsid).1.trans (hbegan ht))

variable [DataEncoding] {Schema ε : Type} {resolver : LexiconResolver Schema ε}

variable {event : Event Schema ε}

/-- A step keeps what holds of a resolver, as long as it puts everything into the cache in time. -/
theorem State.Sound.step {s' : State} (h : s.Sound resolver.directory timely authorityTtl recordTtl)
    (step : Step resolver s event s') :
  s'.Sound resolver.directory (timely ∧ event.Timely s) authorityTtl recordTtl
  := by
  have htimely : timely ∧ event.Timely s → timely := And.left
  cases step with
  | get nsid later => exact h.call htimely later (Nat.le_refl _)
  | fetch did nsid later => exact h.call htimely later ⟨Nat.le_refl _, nofun⟩
  | purge nsid later => exact h.call htimely later (Nat.le_succ _)
  | clear later => exact h.call htimely later (Nat.le_succ _)
  | authorityHit later task hit =>
      have hlook := (h.cached.later htimely later).lookAuthority
      refine h.put htimely later (.cache s _ _)
        (hlook _ _) ?_
      rintro _ ⟨⟩
      have hpurged := h.tasks _ _ task
      exact ⟨hpurged, (h.cached.source later hit hpurged).later htimely (Nat.le_refl _)⟩
  | authorityMiss later task miss =>
      have hlook := (h.cached.later htimely later).lookAuthority
      refine h.put htimely later (.cache s _ _)
        (hlook _ _) ?_
      rintro _ ⟨⟩
      have hpurged := h.tasks _ _ task
      exact ⟨hpurged, hpurged.trans ((h.cached.purged _).1.trans (h.cached.authorityRemoved _))⟩
  | authorityResolved later task resolved order =>
      obtain ⟨hpurged, hbegan⟩ := h.tasks _ _ task
      refine h.put htimely later (.cache s _ _)
        ((h.cached.later htimely later).keepAuthority order ⟨_, rfl, resolved⟩ rfl
          (fun ht => ht.2 rfl) _) ?_
      rintro _ ⟨⟩
      refine ⟨hpurged, ?_⟩
      rintro _ _ ⟨⟩
      exact ⟨⟨rfl, resolved, Nat.le_refl _, Nat.le_add_right _ _, Nat.le_refl _⟩, fun _ => hbegan⟩
  | authorityFailed later task failed =>
      exact h.put htimely later (.refl s) (h.cached.later htimely later) nofun
  | invalidUri later task invalid =>
      exact h.put htimely later (.refl s) (h.cached.later htimely later) nofun
  | recordHit later task uri hit valid =>
      exact h.put htimely later (.cache s _ _)
        ((h.cached.later htimely later).lookRecord _ _) nofun
  | invalidHit later task uri hit invalid =>
      exact h.put htimely later (.cache s _ _)
        ((h.cached.later htimely later).lookRecord _ _) nofun
  | recordMiss later task uri miss =>
      refine h.put htimely later (.cache s _ _)
        ((h.cached.later htimely later).lookRecord _ _) ?_
      rintro _ ⟨⟩
      obtain ⟨hpurged, hgood⟩ := h.tasks _ _ task
      exact ⟨hpurged.trans ((h.cached.purged _).2.trans (h.cached.recordsRemoved _)),
        hgood.later htimely later⟩
  | identified later task looked usable =>
      refine h.put htimely later (.refl s) (h.cached.later htimely later) ?_
      rintro _ ⟨⟩
      obtain ⟨hbegan, hgood⟩ := h.tasks _ _ task
      exact ⟨hbegan, hgood.later htimely later, looked, signingKey_ok resolver usable⟩
  | identifyFailed later task failed =>
      exact h.put htimely later (.refl s) (h.cached.later htimely later) nofun
  | @responded now _ began _ _ _ _ _ _ _ later task proved valid order =>
      obtain ⟨-, -, hlooked, hkey⟩ := h.tasks _ _ task
      obtain ⟨-, -, -, -, -, heq⟩ := validate_ok resolver valid
      have hproves := fetchedRecord_proves resolver proved hlooked hkey now began
      rw [heq] at hproves
      exact h.put htimely later (.cache s _ _)
        ((h.cached.later htimely later).keepRecord order hproves rfl (fun ht => ht.2 rfl) _) nofun
  | respondFailed later task failed =>
      exact h.put htimely later (.refl s) (h.cached.later htimely later) nofun
  | removeAuthority later task =>
      refine h.put htimely later (h.cached.grows_removeAuthority _)
        ((h.cached.later htimely later).removeAuthority _) ?_
      rintro _ ⟨⟩
      have hbegan := h.tasks _ _ task
      exact ⟨hbegan.trans (Nat.le_succ _), hbegan.trans (authorityRemoved_self s rfl).ge⟩
  | purged later task =>
      obtain ⟨hbegan, hremoved⟩ := h.tasks _ _ task
      exact h.put htimely later (s.grows_removeRecords _ _)
        ((h.cached.later htimely later).removeRecords hbegan hremoved) nofun
  | clearAuthorities later task =>
      refine h.put htimely later h.cached.grows_clearAuthorities
        (h.cached.later htimely later).clearAuthorities ?_
      rintro _ ⟨⟩
      have hbegan := h.tasks _ _ task
      exact ⟨hbegan.trans (Nat.le_succ _), fun _ => hbegan⟩
  | cleared later task =>
      obtain ⟨hbegan, hremoved⟩ := h.tasks _ _ task
      exact h.put htimely later (s.grows_clearRecords _)
        ((h.cached.later htimely later).clearRecords hbegan hremoved) nofun
  | drop later task =>
      exact h.put htimely later (.refl s) (h.cached.later htimely later) nofun

/-- What a step returns is served. -/
theorem State.Sound.served {f : Fetch} {lexicon : ResolvedLexicon Schema} {r : ProvedRecord}
    {source : ResolutionSource} {s' : State}
    (h : s.Sound resolver.directory timely authorityTtl recordTtl)
    (step : Step resolver s (.returned f lexicon r source now) s') :
  Served resolver authorityTtl recordTtl f lexicon r now ∧ (timely → AfterPurges f r)
  := by
  cases step with
  | recordHit later task uri hit valid =>
      obtain ⟨huri, hhashed, hjson, hdocument, hid, hrecord⟩ := validate_ok resolver valid
      obtain ⟨hpurged, hgood⟩ := h.tasks _ _ task
      obtain ⟨expires, hmem, hlt⟩ := TtlMap.mem_of_get hit
      obtain ⟨hproves, htime, hexpires, hbegan⟩ := h.cached.records _ hmem
      refine ⟨⟨huri, hhashed, hjson, hdocument, hid, hrecord, hproves, htime.trans later,
        hlt.le.trans hexpires, ?_⟩, ?_⟩
      · intro a taken ha
        exact (hgood.later id later a taken ha).1
      · intro ht
        refine ⟨hpurged.trans ((h.cached.purged _).2.trans (hbegan ht)), ?_⟩
        intro a taken ha
        exact (hgood a taken ha).2 ht
  | responded later task proved valid order =>
      obtain ⟨huri, hhashed, hjson, hdocument, hid, hrecord⟩ := validate_ok resolver valid
      obtain ⟨hbegan, hgood, hlooked, hkey⟩ := h.tasks _ _ task
      refine ⟨⟨huri, hhashed, hjson, hdocument, hid, hrecord,
        fetchedRecord_proves resolver proved hlooked hkey _ _, Nat.le_refl _, Nat.le_add_right _ _,
        ?_⟩, ?_⟩
      · intro a taken ha
        exact (hgood.later id later a taken ha).1
      · intro ht
        refine ⟨hbegan, ?_⟩
        intro a taken ha
        exact (hgood a taken ha).2 ht

/-- A step that is answered from the cache puts nothing into it. -/
theorem entries_of_isHit {s' : State} (step : Step resolver s event s') (hhit : event.IsHit) :
  (∀ e ∈ s'.authorities.map, e ∈ s.authorities.map) ∧ ∀ e ∈ s'.records.map, e ∈ s.records.map
  := by
  cases step with
  | authorityHit later task hit => exact ⟨fun e he => TtlMap.mem_get he, fun e he => he⟩
  | recordHit later task uri hit valid => exact ⟨fun e he => he, fun e he => TtlMap.mem_get he⟩
  | authorityResolved => cases hhit
  | responded => cases hhit
  | _ => exact hhit.elim

/-! ### Runs -/

/-- What holds of a resolver holds after every run of it. -/
theorem sound_of_run {capacity : ℕ} {events : List (History.Event State (Event Schema ε))}
    (run : History.Run (Step resolver) (State.new authorityTtl recordTtl capacity) events s) :
  s.Sound resolver.directory (∀ e ∈ events, e.label.Timely e.before) authorityTtl recordTtl
  := by
  induction run with
  | refl => exact .new _ _ _
  | tail run last ih =>
      have hnext := ih.step last
      refine ⟨hnext.cached.later ?_ (Nat.le_refl _), fun t task ht => ?_⟩
      · intro hall
        exact ⟨fun e he => hall e (List.mem_cons_of_mem _ he), hall _ List.mem_cons_self⟩
      · refine (hnext.tasks t task ht).later ?_ (Nat.le_refl _) (Nat.le_refl _)
          (fun _ => Nat.le_refl _) (fun _ => Nat.le_refl _)
        intro hall
        exact ⟨fun e he => hall e (List.mem_cons_of_mem _ he), hall _ List.mem_cons_self⟩

/-- In every run, what is returned is authentic and fresh, and an answer from the cache puts
nothing into it. If nothing is put into the cache that was resolved before its entry was last taken
out, what is returned was also resolved after the purges that had returned before the call
began. -/
theorem served_of_run {capacity : ℕ} {events : List (History.Event State (Event Schema ε))}
    (run : History.Run (Step resolver) (State.new authorityTtl recordTtl capacity) events s)
    {event : Event Schema ε} {s' : State} (step : Step resolver s event s') :
  (∀ f lexicon r source now, event = .returned f lexicon r source now →
    Served resolver authorityTtl recordTtl f lexicon r now
      ∧ ((∀ e ∈ events, e.label.Timely e.before) → AfterPurges f r))
    ∧ (event.IsHit → (∀ e ∈ s'.authorities.map, e ∈ s.authorities.map)
      ∧ ∀ e ∈ s'.records.map, e ∈ s.records.map)
  := by
  have hsound := sound_of_run run
  constructor
  · rintro f lexicon r source now rfl
    exact hsound.served step
  · exact entries_of_isHit step

end

/-! ### A purge during a resolution -/

namespace Sample

attribute [local instance] Hashing.checksum DataEncoding.standard

/-- The NSID of the lexicon. -/
def nsid : Nsid := Repo.Sample.collection

/-- The owner of the lexicon. -/
def did : Did := Repo.Sample.did

/-- The collection of lexicons. -/
def collection : Nsid := ⟨lexiconSchemaNsid, lexiconSchemaNsid, 19, by decide, by decide⟩

/-- The key of the record. -/
def rkey : RecordKey := ⟨nsid.raw, by decide⟩

/-- The record of the lexicon. -/
def record : Bytes :=
  putHead 5 2 ++ putText (ascii "id") ++ putText nsid.raw
    ++ putText (ascii "$type") ++ putText lexiconSchemaNsid

/-- The CID of the record. -/
def recordCid : Cid := Cid.compute .drisl record

/-- The node that holds the record. -/
def top : Bytes :=
  encodeNodeData
    { left := none
      entries := compress [] [(mstKey collection rkey, recordCid, none)] }

/-- The commit. -/
def commit : Commit := { Repo.Sample.commit with data := Cid.compute .drisl top }

/-- A key that accepts the signature of the commit. -/
def key : VerifyingKey := Repo.Sample.keyOf commit

/-- The proof of the record. -/
def car : Bytes := Repo.Sample.carOf commit [top, record]

/-- The result of verifying the proof. -/
def proof : RecordProof :=
  { commit, commitCid := Cid.compute .drisl (Repo.Sample.block commit)
    record := some (recordCid, record) }

/-- The identity of the owner. -/
def identity : Identities.Identity VerifyingKey where
  did := did
  handle := none
  keys := [(ascii "#atproto", key)]
  services := [(ascii "#atproto_pds", ⟨ascii "#atproto_pds", [], ascii "https://pds.example"⟩)]

/-- The document of the owner. -/
def document : Identities.DidDocument where
  id := did.raw
  alsoKnownAs := []
  verificationMethod := [⟨ascii "#atproto", some (ascii "z")⟩]
  service := [⟨ascii "#atproto_pds", [], ascii "https://pds.example"⟩]

/-- A resolver that knows one key, and reads of a document only its id. -/
def resolver : LexiconResolver Bytes Unit where
  directory :=
    { plcUrl := ascii "https://plc.directory"
      addressPolicy := .denyLocal
      debug := id
      parseDidKey text := if text = ascii "did:key:z" then some key else none }
  url := .plain
  addressPolicy := .denyLocal
  parseSchema json :=
    match json.get (ascii "id") with
    | some (.string id) => .ok id
    | _ => .error ()
  schemaId := id
  maxProofBytes := (1024 + 10) * 1024
  lastInstant := 2 ^ 63 * 10 ^ 9

/-- The lexicon. -/
def lexicon : ResolvedLexicon Bytes where
  uri := recordUri did nsid
  cid := recordCid
  schema := nsid.raw
  json := .object
    [(ascii "$type", .string lexiconSchemaNsid), (ascii "id", .string nsid.raw)]
  record := record

/-- The TXT records of the authority. -/
def txt : List TxtRecord := [[ascii "did=did:plc:a"]]

/-- The document of the owner describes the identity. -/
theorem identity_described :
  Identities.Described resolver.directory did identity
  := by
  refine ⟨.document document, none, Except.bind_eq_ok.mpr ⟨document, rfl, ?_⟩⟩
  rw [Identities.fromDocument, Did.tryFrom_eq_ok.mpr (show did.raw = document.id from rfl)]
  rfl

/-- The endpoint of the owner may be reached. -/
theorem key_usable :
  signingKey resolver did nsid (.ok identity) = .ok key
  := by
  have hurl : (getRecordUrl resolver.url resolver.addressPolicy did (ascii "https://pds.example")
      nsid).toOption.isSome = true := by decide +kernel
  have hpds : identity.services.lookup (ascii "#atproto_pds")
      = some ⟨ascii "#atproto_pds", [], ascii "https://pds.example"⟩ := rfl
  have hkey : identity.keys.lookup (ascii "#atproto") = some key := rfl
  rw [signingKey]
  refine Except.bind_eq_ok.mpr ⟨identity, rfl, ?_⟩
  rw [hpds]
  dsimp only
  rw [hkey]
  dsimp only
  cases h : getRecordUrl resolver.url resolver.addressPolicy did (ascii "https://pds.example") nsid
  with
  | error e =>
      rw [h] at hurl
      cases hurl
  | ok url => rfl

/-- The record is proved to the resolver. -/
theorem car_fetched :
  fetchedRecord resolver did nsid key (.body car) = .ok ⟨recordCid, record⟩
  := by
  have hproof : verifyRecordProof car did key collection rkey = .ok proof := by decide +kernel
  have hlength : ¬resolver.maxProofBytes < car.length := by decide +kernel
  rw [fetchedRecord, if_neg hlength]
  refine Except.bind_eq_ok.mpr ⟨collection, rfl, Except.bind_eq_ok.mpr ⟨rkey, rfl, ?_⟩⟩
  exact Except.bind_eq_ok.mpr ⟨proof, Except.mapError_eq_ok.mpr hproof, rfl⟩

/-- The record is the lexicon. -/
theorem record_valid :
  validate resolver (recordUri did nsid) nsid ⟨recordCid, record⟩ = .ok lexicon
  := by
  have hjson : drislToJson record = .ok lexicon.json := rfl
  have hcodec : ¬(FetchedRecord.mk recordCid record).cid.codec ≠ .drisl := not_not.mpr rfl
  have hcid : ¬Cid.compute .drisl record ≠ recordCid := not_not.mpr rfl
  rw [validate, if_neg hcodec, if_neg hcid]
  exact Except.bind_eq_ok.mpr ⟨lexicon.json, Except.mapError_eq_ok.mpr hjson, rfl⟩

/-- The authority of the NSID is the owner of the lexicon. -/
theorem txt_resolved :
  resolveLexiconAuthority nsid (.ok txt) = .ok did
  := rfl

/-- The resolver with the limits of the default cache. -/
def start : State := .new defaultAuthorityTtl defaultRecordTtl defaultCapacity

/-- A lexicon whose record is not in the cache is fetched, which takes no time. -/
theorem lexicon_returned {s : State} {t purged : ℕ} {a : Option (Authority × ℕ)}
    {events : List (History.Event State (Event Bytes Unit))}
    (run : History.Run (Step resolver) start events s)
    (htask : s.tasks t = some (.fetching ⟨did, nsid, a, purged⟩)) (hempty : s.records.map = []) :
  ∃ steps s' r s'', (∀ e ∈ steps, e.label = .silent)
    ∧ History.Run (Step resolver) start (steps ++ events) s'
    ∧ Step resolver s' (.returned ⟨did, nsid, a, purged⟩ lexicon r .network s.clock) s''
  := by
  have hmiss : (s.records.get (did, nsid) s.clock).1 = none := by
    rw [TtlMap.get, hempty]
    rfl
  have look := run.tail (.recordMiss (Nat.le_refl _) htask rfl hmiss)
  have request := look.tail
    (.identified (Nat.le_refl _) (Function.update_self _ _ _) identity_described key_usable)
  refine ⟨[_, _], _, _, _, ?_, request, .responded (Nat.le_refl _) (Function.update_self _ _ _)
    car_fetched record_valid ⟨.refl _, rfl, rfl⟩⟩
  intro e he
  rcases List.mem_pair.mp he with rfl | rfl
  · rfl
  · rfl

/-- The lexicon is returned to the first call. -/
theorem lexicon_served :
  ∃ events s f r s', History.Run (Step resolver) start events s
    ∧ Step resolver s (.returned f lexicon r .network 0) s'
    ∧ Served resolver defaultAuthorityTtl defaultRecordTtl f lexicon r 0 ∧ AfterPurges f r
  := by
  have first : History.Run (Step resolver) start [] start := .refl
  have get := first.tail (.get nsid (Nat.le_refl _))
  have miss := get.tail (.authorityMiss (Nat.le_refl _) (Function.update_self _ _ _) rfl)
  have resolved := miss.tail (.authorityResolved (Nat.le_refl _) (Function.update_self _ _ _)
    txt_resolved ⟨.refl _, rfl, rfl⟩)
  obtain ⟨steps, s, r, s', hsilent, run, step⟩ :=
    lexicon_returned resolved (Function.update_self _ _ _) rfl
  obtain ⟨hserved, hafter⟩ := (served_of_run run step).1 _ _ _ _ _ rfl
  refine ⟨_, _, _, _, _, run, step, hserved, hafter ?_⟩
  intro e he
  rcases List.mem_append.mp he with he | he
  · rw [hsilent e he]
    trivial
  · rcases List.mem_cons.mp he with rfl | he
    · exact fun _ => Nat.zero_le _
    · rcases List.mem_pair.mp he with rfl | rfl
      · trivial
      · trivial

/-- An authority whose resolution began before a purge is returned after it: its answer arrives
when the purge has returned, and is put into the cache. -/
theorem purged_authority_returned :
  ¬∀ events s f lexicon r source now s', History.Run (Step resolver) start events s →
    Step resolver s (.returned f lexicon r source now) s' → AfterPurges f r
  := by
  intro h
  have first : History.Run (Step resolver) start [] start := .refl
  have get := first.tail (.get nsid (Nat.le_refl _))
  have miss := get.tail (.authorityMiss (Nat.le_refl _) (Function.update_self _ _ _) rfl)
  have purge := miss.tail (.purge nsid (Nat.le_refl _))
  have removed := purge.tail (.removeAuthority (Nat.le_refl _) (Function.update_self _ _ _))
  have purged := removed.tail (.purged (Nat.le_refl _) (Function.update_self _ _ _))
  have resolved := purged.tail (@Step.authorityResolved _ _ _ _ _ _ _ 0 _ _ _ _ _ _
    (Nat.le_refl _) rfl txt_resolved ⟨.refl _, rfl, rfl⟩)
  have again := resolved.tail (.get nsid (Nat.le_refl _))
  have hit := again.tail (.authorityHit (Nat.le_refl _) (Function.update_self _ _ _) rfl)
  obtain ⟨steps, s, r, s', hsilent, run, step⟩ :=
    lexicon_returned hit (Function.update_self _ _ _) rfl
  exact absurd ((h _ _ _ _ _ _ _ _ run step).2 _ _ rfl) (by decide)

end Sample

end Shrike.Lexicon.Resolver
