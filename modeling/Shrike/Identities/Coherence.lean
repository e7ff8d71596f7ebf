import Shrike.Identities.Provenance
import Shrike.Identities.Purge

/-!
# Coherence of the directory

A lookup that begins after a purge has returned is in a later generation than every lookup that
read the generation before the purge, so it is not answered by what these put into the cache. Every
identity that is returned was made from a document of its DID, and its handle was verified.
-/

namespace Shrike.Identities

open Bytes Syntax

/-! ### The cache -/

namespace Cache

variable {Key : Type} {cache : Cache Key} {did : Did}

variable {e : Did × CacheEntry Key}

theorem mem_of_mem_remove (h : e ∈ cache.remove did) :
  e ∈ cache
  := List.mem_of_mem_eraseP h

theorem nodup_remove (h : (cache.map Prod.fst).Nodup) :
  ((cache.remove did).map Prod.fst).Nodup
  := h.sublist (List.eraseP_sublist.map Prod.fst)

/-- The room that is made when the cache is full is enough for one entry. -/
theorem length_evict {iterated : List (Did × ℕ)}
    (order : (iterated.map Prod.fst).Perm (cache.map Prod.fst)) (hne : cache ≠ []) :
  (cache.evict iterated).length + 1 = cache.length
  := by
  have hremove : ∀ p ∈ iterated, (cache.remove p.1).length + 1 = cache.length := by
    intro p hp
    obtain ⟨e, he, hkey⟩ := List.mem_map.mp (order.mem_iff.mp (List.mem_map_of_mem hp))
    have hlength := List.length_eraseP_of_mem (p := fun e : Did × CacheEntry Key => e.1 = p.1) he
      (by simpa using hkey)
    have hpos := List.length_pos_of_mem he
    rw [remove, hlength]
    omega
  rw [evict]
  split
  · rename_i p hfind
    exact hremove p (List.mem_of_find?_eq_some hfind)
  · cases hhead : iterated.head? with
    | none =>
        rw [List.head?_eq_none_iff] at hhead
        rw [hhead] at order
        exact absurd (List.map_eq_nil_iff.mp order.nil_eq.symm) hne
    | some p => exact hremove p (List.mem_of_mem_head? hhead)

theorem mem_of_mem_evict {iterated : List (Did × ℕ)} (h : e ∈ cache.evict iterated) :
  e ∈ cache
  := by
  rw [evict] at h
  split at h
  · exact mem_of_mem_remove h
  · split at h
    · exact mem_of_mem_remove h
    · exact h

theorem nodup_evict {iterated : List (Did × ℕ)} (h : (cache.map Prod.fst).Nodup) :
  ((cache.evict iterated).map Prod.fst).Nodup
  := by
  rw [evict]
  split
  · exact nodup_remove h
  · split
    · exact nodup_remove h
    · exact h

variable {shared : Shared Key} {generation : UInt64} {iterated : List (Did × ℕ)} {now : ℕ}

/-- An entry of a cache that an identity was put into is that of the identity, or was there. -/
theorem mem_of_mem_store (h : e ∈ cache.store did shared generation iterated now) :
  (e.1 = did ∧ e.2.identity = shared ∧ e.2.generation = generation) ∨ e ∈ cache
  := by
  rw [store, insertKey] at h
  rcases List.mem_cons.mp h with rfl | h
  · exact .inl ⟨rfl, rfl, rfl⟩
  · right
    have hroom := List.mem_of_mem_eraseP h
    split_ifs at hroom with hfull
    · exact mem_of_mem_evict hroom
    · exact hroom

theorem nodup_insertKey {entry : CacheEntry Key} (h : (cache.map Prod.fst).Nodup) :
  ((insertKey cache did entry).map Prod.fst).Nodup
  := by
  have hnone := List.lookup_eraseKey_self h did
  rw [insertKey, List.map_cons, List.nodup_cons]
  constructor
  · intro hmem
    obtain ⟨e, he, hkey⟩ := List.mem_map.mp hmem
    have := List.lookup_eq_none_iff.mp hnone e he
    simp [hkey] at this
  · exact h.sublist (List.eraseP_sublist.map Prod.fst)

theorem nodup_store (h : (cache.map Prod.fst).Nodup) :
  ((cache.store did shared generation iterated now).map Prod.fst).Nodup
  := by
  rw [store]
  apply nodup_insertKey
  split_ifs
  · exact nodup_evict h
  · exact h

/-- An identity is put into a cache without going over its capacity. -/
theorem length_store (order : (iterated.map Prod.fst).Perm (cache.map Prod.fst))
    (h : cache.length ≤ defaultCapacity) :
  (cache.store did shared generation iterated now).length ≤ defaultCapacity
  := by
  rw [store, insertKey, List.length_cons]
  split_ifs with hfull
  · have hne : cache ≠ [] := by
      rintro rfl
      exact absurd hfull.1 (by simp [defaultCapacity])
    have hevict := length_evict order hne
    have herase := (List.eraseP_sublist (p := fun e : Did × CacheEntry Key => e.1 = did)
      (l := cache.evict iterated)).length_le
    omega
  · cases hlookup : cache.lookup did with
    | none =>
        rw [hlookup] at hfull
        have herase := (List.eraseP_sublist (p := fun e : Did × CacheEntry Key => e.1 = did)
          (l := cache)).length_le
        simp only [Option.isNone_none, and_true, not_le] at hfull
        omega
    | some entry =>
        have hmem := List.mem_of_lookup hlookup
        have hlength := List.length_eraseP_of_mem (p := fun e : Did × CacheEntry Key => e.1 = did)
          hmem (by simp)
        have hpos := List.length_pos_of_mem hmem
        omega

end Cache

/-! ### Runs -/

section Runs

variable {Key : Type} (resolver : Resolver Key)

/-- What holds of a directory after a run. -/
structure Directory.Explained (trace : Trace Key) (s : Directory Key) : Prop where
  ordered : Ordered trace
  generation : s.generation = UInt64.ofNat (bumps trace)
  idle : ∀ t, s.calls ≤ t → s.tasks t = none
  unused : ∀ label ∈ trace, label.task < s.calls
  tasks : ∀ t task, s.tasks t = some task → task.Explained resolver trace t
  entries : ∀ e ∈ s.cache, Loaded trace e.2.identity.lookup e.2.generation ∧
    Made resolver trace e.1 e.2.identity
  nodup : (s.cache.map Prod.fst).Nodup
  length : s.cache.length ≤ defaultCapacity

namespace Directory.Explained

variable {resolver} {trace : Trace Key} {s : Directory Key} {label : Label Key} {t : ℕ}

theorem new :
  Directory.Explained resolver [] (Directory.new : Directory Key)
  := by
  constructor
  · rintro label earlier ⟨later, h⟩
    simp at h
  · rfl
  · exact fun _ _ => rfl
  · nofun
  · nofun
  · nofun
  · exact List.nodup_nil
  · exact Nat.zero_le _

variable {task : Task Key}

theorem lt_calls (h : Directory.Explained resolver trace s) (htask : s.tasks t = some task) :
  t < s.calls
  := by
  by_contra hle
  rw [h.idle t (not_lt.mp hle)] at htask
  cases htask

variable {s' : Directory Key}

variable {task' : Option (Task Key)}

/-- The step of a call that began before. -/
theorem proceed (h : Directory.Explained resolver trace s)
    (htask : s.tasks t = some task) (hlabel : label.task = t) (order : label.InOrder trace)
    (htasks : s'.tasks = s.tasks) (hcalls : s'.calls = s.calls)
    (htask' : ∀ task, task' = some task → task.Explained resolver (label :: trace) t)
    (hgeneration : s'.generation = UInt64.ofNat (bumps (label :: trace)))
    (hentries : ∀ e ∈ s'.cache, e ∈ s.cache ∨
      (Loaded trace e.2.identity.lookup e.2.generation ∧ Made resolver trace e.1 e.2.identity))
    (hnodup : (s'.cache.map Prod.fst).Nodup) (hlength : s'.cache.length ≤ defaultCapacity) :
  Directory.Explained resolver (label :: trace) (s'.set t task')
  := by
  have hlt := h.lt_calls htask
  refine ⟨h.ordered.cons order, hgeneration, ?_, ?_, ?_, ?_, hnodup, hlength⟩
  · intro u hu
    replace hu : s.calls ≤ u := hcalls ▸ hu
    rw [tasks_set_of_ne s' (by omega), htasks]
    exact h.idle u hu
  · intro l hl
    show l.task < s'.calls
    rw [hcalls]
    rcases List.mem_cons.mp hl with rfl | hl
    · rw [hlabel]
      exact hlt
    · exact h.unused l hl
  · intro u task hu
    by_cases hut : u = t
    · subst hut
      rw [tasks_set_self] at hu
      exact htask' task hu
    · rw [tasks_set_of_ne s' hut, htasks] at hu
      apply (h.tasks u task hu).cons
      rintro rfl
      exact hut hlabel
  · intro e he
    rcases hentries e he with he | ⟨hload, hmade⟩
    · exact ⟨(h.entries e he).1.cons, (h.entries e he).2.cons⟩
    · exact ⟨hload.cons, hmade.cons⟩

/-- A call begins. -/
theorem call (h : Directory.Explained resolver trace s)
    (hlabel : label.task = s.calls) (hbump : label.isBump = false) (order : label.InOrder trace)
    (htask : task.Explained resolver (label :: trace) s.calls) :
  Directory.Explained resolver (label :: trace) (s.call task)
  := by
  refine ⟨h.ordered.cons order, ?_, ?_, ?_, ?_, ?_, h.nodup, h.length⟩
  · rw [bumps, List.countP_cons_of_neg (by simp [hbump])]
    exact h.generation
  · intro u hu
    have hlt : s.calls < u := hu
    rw [tasks_call_of_ne s hlt.ne']
    exact h.idle u hlt.le
  · intro l hl
    show l.task < s.calls + 1
    rcases List.mem_cons.mp hl with rfl | hl
    · omega
    · have := h.unused l hl
      omega
  · intro u task' hu
    by_cases hne : u = s.calls
    · subst hne
      rw [tasks_call_self] at hu
      cases hu
      exact htask
    · rw [tasks_call_of_ne s hne] at hu
      apply (h.tasks u task' hu).cons
      rintro rfl
      exact hne hlabel
  · intro e he
    exact ⟨(h.entries e he).1.cons, (h.entries e he).2.cons⟩

theorem bumps_cons (h : Directory.Explained resolver trace s) (hbump : label.isBump = false) :
  s.generation = UInt64.ofNat (bumps (label :: trace))
  := by
  rw [bumps, List.countP_cons_of_neg (by simp [hbump])]
  exact h.generation

/-- The step of a call that changes nothing but the call. -/
theorem advance (h : Directory.Explained resolver trace s)
    (htask : s.tasks t = some task) (hlabel : label.task = t) (hbump : label.isBump = false)
    (order : label.InOrder trace)
    (htask' : ∀ task, task' = some task → task.Explained resolver (label :: trace) t) :
  Directory.Explained resolver (label :: trace) (s.set t task')
  := h.proceed htask hlabel order rfl rfl htask' (h.bumps_cons hbump) (fun _ => .inl) h.nodup
    h.length

/-- What a lookup does with an answer is explained by it. -/
theorem answered {did : Did} {generation : UInt64} {answer : Answer}
    (hload : Loaded trace t generation) (hanswer : .answer t did answer ∈ trace) :
  (answered resolver t did generation answer).Explained resolver trace t did
  := by
  rw [Identities.answered]
  cases hidentity : fetchDidDocument resolver answer did >>= fromDocument resolver with
  | error e => trivial
  | ok identity =>
      have hanswered : Answered resolver trace t did identity := ⟨answer, hanswer, hidentity⟩
      cases hdeclared : identity.handle with
      | some declared =>
          simp only [hdeclared]
          exact ⟨hload, hanswered, hdeclared⟩
      | none =>
          simp only [hdeclared]
          exact ⟨hload, rfl, hanswered.made nofun⟩

/-- What a lookup finds in the cache is explained by the lookup that put it there. -/
theorem checked (h : Directory.Explained resolver trace s) {did : Did} {generation : UInt64}
    (hload : Loaded trace t generation) (now : ℕ) :
  (checked generation (s.cache.hit did generation now)).Explained resolver trace t did
  := by
  cases hhit : s.cache.hit did generation now with
  | none => exact hload
  | some shared =>
      obtain ⟨entry, hentry, -, rfl, rfl⟩ := Cache.hit_eq_some.mp hhit
      obtain ⟨hlookup, hmade⟩ := h.entries _ (List.mem_of_lookup hentry)
      exact ⟨⟨_, hload, hlookup⟩, hmade⟩

/-- What a lookup of a handle does with an identity is explained by what the handle resolved to. -/
theorem answering {handle : Handle} {did : Did} {result : Except IdentityError (Shared Key)}
    (hresolved : .resolved t handle (.ok did) ∈ trace)
    (hdone : (Phase.done result).Explained resolver trace t did) :
  (Task.answering handle (lookupHandleResult handle did result)).Explained resolver trace t
  := by
  cases result with
  | error e => trivial
  | ok shared =>
      show Task.Explained resolver trace t (.answering handle
        (if shared.identity.handle = some handle then _ else _))
      split_ifs with hhandle
      · exact ⟨did, hresolved, hdone.2, hhandle⟩
      · trivial

variable {wanted : Option Handle}

/-- A lookup is explained when its phase is. -/
theorem lookup {did : Did} {phase : Phase Key}
    (hresolved : ∀ handle, wanted = some handle → .resolved t handle (.ok did) ∈ trace)
    (hphase : phase.Explained resolver (label :: trace) t did) (task : Task Key)
    (htask : some (Task.lookup wanted did phase) = some task) :
  task.Explained resolver (label :: trace) t
  := by
  cases htask
  refine ⟨?_, hphase⟩
  intro handle hwanted
  exact List.mem_cons_of_mem label (hresolved handle hwanted)

/-- A lookup that is done with an identity it made is explained by that. -/
theorem own {did : Did} {generation : UInt64} {shared : Shared Key}
    (hresolved : ∀ handle, wanted = some handle →
      .resolved shared.lookup handle (.ok did) ∈ trace)
    (hload : Loaded trace shared.lookup generation) (hmade : Made resolver trace did shared) :
  ∀ task, some (Task.lookup wanted did (.done (.ok shared))) = some task →
    task.Explained resolver (label :: trace) shared.lookup
  := lookup hresolved ⟨⟨generation, hload.cons, hload.cons⟩, hmade.cons⟩

theorem load_not_mem_cons (h : .load t ∉ trace) (hlabel : label ≠ .load t) :
  .load t ∉ label :: trace
  := by
  rw [List.mem_cons, not_or]
  exact ⟨hlabel.symm, h⟩

/-- A lookup learns whether the handle that a document declares is that of the DID. -/
theorem verify (h : Directory.Explained resolver trace s) {did : Did}
    {generation : UInt64} {identity : Identity Key} {declared : Handle}
    (answer : Except IdentityError Did)
    (htask : s.tasks t = some (.lookup wanted did (.verifying generation identity declared))) :
  Directory.Explained resolver (.resolved t declared answer :: trace)
    (s.set t (some (.lookup wanted did (.storing generation
      (identity.share t (verifyDeclaredHandle declared answer.toOption did))))))
  := by
  obtain ⟨hresolved, hload, hanswered, hdeclared⟩ := h.tasks _ _ htask
  apply h.advance htask rfl rfl
  · trivial
  · apply lookup hresolved
    refine ⟨hload.cons, rfl, hanswered.cons.made ?_⟩
    intro handle hhandle
    rw [verifyDeclaredHandle] at hhandle
    split_ifs at hhandle with hsame
    cases hhandle
    cases answer with
    | error e => cases hsame
    | ok did' =>
        cases hsame
        exact ⟨hdeclared, trace, happened_cons.mpr (.inl ⟨rfl, rfl⟩), hanswered⟩

/-- A lookup stores an identity, unless the generation is over. -/
theorem store (h : Directory.Explained resolver trace s) {did : Did}
    {generation : UInt64} {shared : Shared Key} {iterated : List (Did × ℕ)} (now : ℕ)
    (htask : s.tasks t = some (.lookup wanted did (.storing generation shared)))
    (order : (iterated.map Prod.fst).Perm (s.cache.map Prod.fst)) :
  Directory.Explained resolver (.store t :: trace)
    ((s.keep did generation shared iterated now).set t
      (some (.lookup wanted did (.done (.ok shared)))))
  := by
  obtain ⟨hresolved, hload, rfl, hmade⟩ := h.tasks _ _ htask
  rw [Directory.keep]
  split_ifs with hgeneration
  · apply h.advance htask rfl rfl
    · trivial
    · exact own hresolved hload hmade
  · refine h.proceed htask rfl ?_ rfl rfl ?_ ?_ ?_ ?_ ?_
    · trivial
    · exact own hresolved hload hmade
    · exact h.bumps_cons rfl
    · intro e he
      rcases Cache.mem_of_mem_store he with ⟨hkey, hshared, hof⟩ | he
      · right
        rw [hkey, hshared, hof]
        exact ⟨hload, hmade⟩
      · exact .inl he
    · exact Cache.nodup_store h.nodup
    · exact Cache.length_store order h.length

/-- A purge advances the generation. -/
theorem bump (h : Directory.Explained resolver trace s) {did : Did}
    (htask : s.tasks t = some (.purging did)) :
  Directory.Explained resolver (.bump t :: trace) (s.bump.set t (some (.removing did)))
  := by
  have hpurge := h.tasks _ _ htask
  refine h.proceed htask rfl ?_ rfl rfl ?_ ?_ ?_ ?_ ?_
  · trivial
  · rintro task ⟨⟩
    exact ⟨trace, happened_cons.mpr (.inl ⟨rfl, rfl⟩), hpurge⟩
  · show s.generation + 1 = UInt64.ofNat (bumps _)
    rw [bumps, List.countP_cons_of_pos rfl, h.generation]
    simp [bumps]
  · exact fun _ => .inl
  · exact h.nodup
  · exact h.length

/-- A purge removes the entry of its DID. -/
theorem purged (h : Directory.Explained resolver trace s) {did : Did}
    (htask : s.tasks t = some (.removing did)) :
  Directory.Explained resolver (.purged t did :: trace) ((s.forget did).set t none)
  := by
  obtain ⟨middle, hbump, hpurge⟩ := h.tasks _ _ htask
  refine h.proceed htask rfl ?_ rfl rfl ?_ ?_ ?_ ?_ ?_
  · exact ⟨middle, hbump, _, hpurge⟩
  · nofun
  · exact h.bumps_cons rfl
  · exact fun e he => .inl (Cache.mem_of_mem_remove he)
  · exact Cache.nodup_remove h.nodup
  · exact List.eraseP_sublist.length_le.trans h.length

/-- What every step keeps. -/
theorem step (h : Directory.Explained resolver trace s) (hstep : Step resolver s label s') :
  Directory.Explained resolver (label :: trace) s'
  := by
  have hunused : ∀ label, label.task = s.calls → label ∉ trace := by
    intro label hlabel hmem
    exact (h.unused label hmem).ne hlabel
  cases hstep with
  | lookupDid did =>
      have hload := hunused (.load s.calls) rfl
      exact h.call rfl rfl hload ⟨nofun, load_not_mem_cons hload nofun⟩
  | lookupHandle handle =>
      have hload := hunused (.load s.calls) rfl
      exact h.call rfl rfl trivial (load_not_mem_cons hload nofun)
  | purge did =>
      apply h.call rfl rfl
      · intro did'
        exact hunused (.purge s.calls did') rfl
      · exact List.mem_cons_self
  | resolve answer htask =>
      have hload := h.tasks _ _ htask
      apply h.advance htask rfl rfl
      · trivial
      · rintro task ⟨⟩
        cases answer with
        | error e => trivial
        | ok did => exact ⟨load_not_mem_cons hload nofun, List.mem_cons_self⟩
  | call htask =>
      obtain ⟨hload, hresolved⟩ := h.tasks _ _ htask
      apply h.advance htask rfl rfl
      · exact hload
      · apply lookup
        · rintro handle ⟨⟩
          exact hresolved
        · exact load_not_mem_cons hload nofun
  | load htask =>
      obtain ⟨hresolved, hload⟩ := h.tasks _ _ htask
      apply h.advance htask rfl rfl
      · exact hload
      · apply lookup hresolved
        exact ⟨trace, happened_cons.mpr (.inl ⟨rfl, rfl⟩), h.generation.symm⟩
  | check now htask =>
      obtain ⟨hresolved, hload⟩ := h.tasks _ _ htask
      apply h.advance htask rfl rfl
      · trivial
      · apply lookup hresolved
        exact (h.checked hload now).cons nofun
  | request htask target =>
      obtain ⟨hresolved, hload⟩ := h.tasks _ _ htask
      apply h.advance htask rfl rfl
      · obtain ⟨earlier, hload, -⟩ := hload
        exact mem_iff_happened.mpr ⟨earlier, hload⟩
      · exact lookup hresolved ⟨Loaded.cons hload, List.mem_cons_self⟩
  | refuse htask target =>
      obtain ⟨hresolved, hload⟩ := h.tasks _ _ htask
      apply h.advance htask rfl rfl
      · trivial
      · exact lookup hresolved trivial
  | answer answer htask =>
      obtain ⟨hresolved, hload, hrequest⟩ := h.tasks _ _ htask
      apply h.advance htask rfl rfl
      · exact hrequest
      · apply lookup hresolved
        exact Explained.answered hload.cons List.mem_cons_self
  | verify answer htask => exact h.verify answer htask
  | store now htask order => exact h.store now htask order
  | lookedUp htask =>
      obtain ⟨hresolved, hdone⟩ := h.tasks _ _ htask
      apply h.advance htask rfl rfl
      · trivial
      · intro task hanswering
        obtain ⟨handle, hwanted, rfl⟩ := Option.map_eq_some_iff.mp hanswering
        apply (Explained.answering (hresolved handle hwanted) hdone).cons
        nofun
  | found htask =>
      apply h.advance htask rfl rfl
      · trivial
      · nofun
  | bump htask => exact h.bump htask
  | purged htask => exact h.purged htask
  | drop htask =>
      apply h.advance htask rfl rfl
      · trivial
      · nofun

end Directory.Explained

/-! ### Coherence -/

/-- The labels of the steps that were taken, the latest first. -/
def labels (events : List (History.Event (Directory Key) (Label Key))) : Trace Key :=
  events.map History.Event.label

/-- A lookup of a DID that began after a purge of it had returned has returned an identity. The
purge began, the lookup that made the identity loaded the generation and requested the document,
and the lookup returned, after certain steps. -/
structure AfterPurge (trace : Trace Key) (did : Did) (shared : Shared Key)
    (began load request returned : Trace Key) : Prop where
  lookup : ∃ p t purged started, Happened trace (.purge p did) began ∧
    Happened trace (.purged p did) purged ∧ Happened trace (.lookupDid t did) started ∧
    purged.length < started.length ∧ Happened trace (.lookedUp t did (.ok shared)) returned
  load : Happened trace (.load shared.lookup) load
  request : ∃ did', Happened trace (.request shared.lookup did') request

/-- No lookup that began after a purge of its DID had returned gave an identity whose document was
requested before the purge began. -/
def Fresh (trace : Trace Key) : Prop :=
  ∀ did shared began load request returned,
    AfterPurge trace did shared began load request returned → began.length < request.length

/-- The directory is coherent after a run. -/
structure Coherent (trace : Trace Key) (s : Directory Key) : Prop where
  fresh : ∀ did shared began load request returned,
    AfterPurge trace did shared began load request returned →
      bumps returned < bumps load + 2 ^ 64 → began.length < request.length
  own : ∀ t did shared earlier, Happened trace (.lookedUp t did (.ok shared)) earlier →
    Made resolver earlier did shared
  verified : ∀ t handle shared earlier, Happened trace (.found t handle (.ok shared)) earlier →
    Found resolver earlier t handle shared
  length : s.cache.length ≤ defaultCapacity

variable {resolver} {events : List (History.Event (Directory Key) (Label Key))}
  {s : Directory Key} {label : Label Key} {earlier : Trace Key} {t : ℕ}

open History (Run)

theorem explained_of_run (run : Run (Step resolver) Directory.new events s) :
  Directory.Explained resolver (labels events) s
  := by
  apply run.invariant (I := fun events s => Directory.Explained resolver (labels events) s)
  · exact .new
  · intro events s label s' _ h hstep
    exact h.step hstep

/-- Every step that happened was taken from a state that is explained by the steps before it. -/
theorem explained_before (run : Run (Step resolver) Directory.new events s)
    (h : Happened (labels events) label earlier) :
  ∃ s₁ s₂, Directory.Explained resolver earlier s₁ ∧ Step resolver s₁ label s₂
  := by
  obtain ⟨later, hlabels⟩ := h
  obtain ⟨events₁, events₂, rfl, -, hevents⟩ := List.map_eq_append_iff.mp hlabels
  obtain ⟨e, events₃, rfl, rfl, rfl⟩ := List.map_eq_cons_iff.mp hevents
  obtain ⟨hrun, hstep⟩ := run.split
  exact ⟨_, _, explained_of_run hrun, hstep⟩

theorem lookedUp_explained {did : Did} {shared : Shared Key}
    (run : Run (Step resolver) Directory.new events s)
    (h : Happened (labels events) (.lookedUp t did (.ok shared)) earlier) :
  (∃ generation, Loaded earlier t generation ∧ Loaded earlier shared.lookup generation) ∧
    Made resolver earlier did shared
  := by
  obtain ⟨s₁, s₂, hexplained, hstep⟩ := explained_before run h
  cases hstep with
  | lookedUp htask => exact (hexplained.tasks _ _ htask).2

theorem found_explained {handle : Handle} {shared : Shared Key}
    (run : Run (Step resolver) Directory.new events s)
    (h : Happened (labels events) (.found t handle (.ok shared)) earlier) :
  Found resolver earlier t handle shared
  := by
  obtain ⟨s₁, s₂, hexplained, hstep⟩ := explained_before run h
  cases hstep with
  | found htask => exact hexplained.tasks _ _ htask

/-- A purge goes on to the next generation after it began and before it returns. -/
theorem bump_between {trace began purged : Trace Key} {p : ℕ} {did : Did} (ordered : Ordered trace)
    (hbegan : Happened trace (.purge p did) began) (hpurged : Happened trace (.purged p did) purged) :
  ∃ middle, Happened purged (.bump p) middle ∧ began.length < middle.length
  := by
  obtain ⟨middle, hbump, did', hmem⟩ := ordered _ _ hpurged
  obtain ⟨began', hbegan'⟩ := mem_iff_happened.mp hmem
  have heq := ordered.purge_eq hbegan (hpurged.trans (hbump.trans hbegan'))
  rw [heq]
  exact ⟨middle, hbump, hbegan'.length_lt⟩

/-- A call that has gone on in order loaded the generation after it began. -/
theorem start_lt_load {trace started load : Trace Key} {did : Did} (ordered : Ordered trace)
    (hstarted : Happened trace (.lookupDid t did) started)
    (hload : Happened trace (.load t) load) :
  started.length < load.length
  := by
  rcases lt_trichotomy started.length load.length with hlt | heq | hlt
  · exact hlt
  · cases (hstarted.eq_of_length hload heq).1
  · exact absurd (mem_iff_happened.mpr ⟨load, hload.of_lt hstarted hlt⟩) (ordered _ _ hstarted)

/-- A generation that was loaded later counts more than one that was over before. -/
theorem load_after_bump {trace middle load load' : Trace Key} {p u : ℕ} {returned : Trace Key}
    (hbump : Happened trace (.bump p) middle) (hload : Happened trace (.load t) load)
    (hload' : Happened trace (.load u) load') (hlt : middle.length < load.length)
    (hreturned : bumps load ≤ bumps returned) (hwithin : bumps returned < bumps load' + 2 ^ 64)
    (hsame : UInt64.ofNat (bumps load) = UInt64.ofNat (bumps load')) :
  middle.length < load'.length
  := by
  by_contra hnot
  have hle := not_lt.mp hnot
  have hbumps : bumps middle < bumps load := bumps_lt (hbump.of_lt hload hlt)
  have hbefore : bumps load' ≤ bumps middle := by
    rcases hle.lt_or_eq with hlt' | heq
    · exact bumps_le (hload'.of_lt hbump hlt')
    · cases (hload'.eq_of_length hbump heq).1
  have hmod := congrArg UInt64.toNat hsame
  rw [UInt64.toNat_ofNat', UInt64.toNat_ofNat'] at hmod
  omega

/-- After every run the directory is coherent. -/
theorem coherent_of_run (run : Run (Step resolver) Directory.new events s) :
  Coherent resolver (labels events) s
  := by
  have hexplained := explained_of_run run
  constructor
  · rintro did shared began load request returned ⟨hlookup, hload, did', hrequest⟩ hwithin
    obtain ⟨p, t, purged, started, hbegan, hpurged, hstarted, hafter, hreturned⟩ := hlookup
    obtain ⟨⟨generation, hloaded, hmade⟩, -⟩ := lookedUp_explained run hreturned
    obtain ⟨loaded, hloaded, hof⟩ := hloaded
    obtain ⟨load', hload', rfl⟩ := hmade
    have heq := hexplained.ordered.load_eq hload (hreturned.trans hload')
    subst heq
    obtain ⟨middle, hbump, hmiddle⟩ := bump_between hexplained.ordered hbegan hpurged
    have hstart := start_lt_load hexplained.ordered hstarted (hreturned.trans hloaded)
    have hlater := load_after_bump (hpurged.trans hbump) (hreturned.trans hloaded) hload
      (hbump.length_lt.trans (hafter.trans hstart)) (bumps_le hloaded) hwithin hof
    obtain ⟨load', hload'⟩ := mem_iff_happened.mp (hexplained.ordered _ _ hrequest)
    have heq := hexplained.ordered.load_eq hload (hrequest.trans hload')
    subst heq
    exact hmiddle.trans (hlater.trans hload'.length_lt)
  · intro t did shared earlier h
    exact (lookedUp_explained run h).2
  · intro t handle shared earlier h
    exact found_explained run h
  · exact hexplained.length

end Runs

/-! ### As many purges as there are generations -/

namespace Wrap

open History (Run)
open Syntax.Sample (alice)
open TwoEntries (resolver)

/-- The document of Alice, which declares no handle. -/
def document : DidDocument := ⟨alice.raw, [], [], []⟩

/-- The identity of Alice that the first lookup makes. -/
def shared : Shared Unit := ⟨0, alice, none, [], []⟩

/-- The steps of a lookup of Alice up to the answer. -/
def fetch : Trace Unit :=
  [.answer 0 alice (.document document), .request 0 alice, .check 0, .load 0, .lookupDid 0 alice]

/-- The steps of a purge of Alice. -/
def purge (t : ℕ) : Trace Unit := [.purged t alice, .bump t, .purge t alice]

/-- The steps of a lookup of Alice that is answered from the cache, after the first one has stored
what it was answered. -/
def again (t : ℕ) : Trace Unit :=
  [.lookedUp t alice (.ok shared), .check t, .load t, .lookupDid t alice, .store 0]

/-- The second lookup begins after the first purge and returns what was requested before it. -/
theorem afterPurge (t : ℕ) (middle : Trace Unit) :
  ∃ returned, AfterPurge (again t ++ (middle ++ (purge 1 ++ fetch))) alice shared fetch
    [.lookupDid 0 alice] [.check 0, .load 0, .lookupDid 0 alice] returned
  := by
  have hbegan : Happened (again t ++ (middle ++ (purge 1 ++ fetch))) (.purge 1 alice) fetch :=
    ⟨again t ++ middle ++ [.purged 1 alice, .bump 1], by simp [purge]⟩
  have hpurged : Happened (again t ++ (middle ++ (purge 1 ++ fetch))) (.purged 1 alice)
      ([.bump 1, .purge 1 alice] ++ fetch) := ⟨again t ++ middle, by simp [purge]⟩
  have hstarted : Happened (again t ++ (middle ++ (purge 1 ++ fetch))) (.lookupDid t alice)
      (.store 0 :: (middle ++ (purge 1 ++ fetch))) :=
    ⟨[.lookedUp t alice (.ok shared), .check t, .load t], rfl⟩
  have hload : Happened (again t ++ (middle ++ (purge 1 ++ fetch))) (.load 0)
      [.lookupDid 0 alice] := ⟨again t ++ middle ++ purge 1 ++ fetch.take 3, by simp [fetch]⟩
  have hrequest : Happened (again t ++ (middle ++ (purge 1 ++ fetch))) (.request 0 alice)
      [.check 0, .load 0, .lookupDid 0 alice] :=
    ⟨again t ++ middle ++ purge 1 ++ fetch.take 1, by simp [fetch]⟩
  have hlt : ([.bump 1, .purge 1 alice] ++ fetch : Trace Unit).length
      < (.store 0 :: (middle ++ (purge 1 ++ fetch)) : Trace Unit).length := by
    simp only [List.length_append, List.length_cons, purge]
    omega
  exact ⟨_, ⟨1, t, _, _, hbegan, hpurged, hstarted, hlt, [], rfl⟩, hload, alice, hrequest⟩

theorem fromDocument_document :
  fromDocument resolver document = .ok shared.identity
  := by
  rw [fromDocument, Did.tryFrom_eq_ok.mpr (show alice.raw = document.id from rfl)]
  rfl

theorem answered_document :
  answered resolver 0 alice 0 (.document document) = .storing 0 shared
  := by
  have hidentity : fetchDidDocument resolver (.document document) alice >>= fromDocument resolver
      = .ok shared.identity := by
    have hfetch : fetchDidDocument resolver (.document document) alice = .ok document := rfl
    rw [hfetch]
    exact fromDocument_document
  rw [answered, hidentity]
  rfl

theorem documentUrl_alice :
  resolver.documentUrl alice = .ok (ascii "https://plc.directory/did:plc:alice")
  := rfl

/-- A lookup of Alice goes on up to the answer when nothing is in the cache. -/
theorem asks {start s : Directory Unit}
    {earlier : List (History.Event (Directory Unit) (Label Unit))}
    (run : Run (Step resolver) start earlier s) {t : ℕ} {wanted : Option Handle} (doc : DidDocument)
    (htask : s.tasks t = some (.lookup wanted alice .starting)) (hcache : s.cache = []) :
  ∃ events s', Run (Step resolver) start events s' ∧
    labels events = [.answer t alice (.document doc), .request t alice, .check t, .load t]
      ++ labels earlier ∧
    s'.tasks t = some (.lookup wanted alice
      (answered resolver t alice s.generation (.document doc))) ∧
    s'.generation = s.generation ∧ s'.cache = [] ∧ s'.calls = s.calls
  := by
  have hmiss : Cache.hit s.cache alice s.generation 0 = none := by
    rw [hcache]
    rfl
  have hmissed := congrArg
    (fun found => some (Task.lookup wanted alice (checked s.generation found))) hmiss
  have hcheck := (run.tail (.load htask)).tail (.check 0 (tasks_set_self _ _ _))
  have hrequest := hcheck.tail (.request ((tasks_set_self _ _ _).trans hmissed) documentUrl_alice)
  have hanswer := hrequest.tail (.answer (.document doc) (tasks_set_self _ _ _))
  exact ⟨_, _, hanswer, rfl, tasks_set_self _ _ _, rfl, hcache, rfl⟩

/-- A lookup of Alice up to where it has the identity but has not stored it. -/
theorem fetches :
  ∃ events s, Run (Step resolver) Directory.new events s ∧
    labels events = fetch ∧
    s.tasks 0 = some (.lookup none alice (.storing 0 shared)) ∧ s.generation = 0 ∧ s.cache = [] ∧
    s.calls = 1
  := by
  have hstart : Run (Step resolver) Directory.new _ _ := .tail .refl (.lookupDid Directory.new alice)
  obtain ⟨events, s, hrun, hlabels, htask, hrest⟩ := asks hstart document (tasks_call_self _ _) rfl
  refine ⟨events, s, hrun, hlabels, htask.trans ?_, hrest⟩
  exact congrArg (fun phase => some (Task.lookup none alice phase)) answered_document

/-- A purge of Alice when nothing is in the cache. -/
theorem purges_once {s : Directory Unit} (hcache : s.cache = []) :
  ∃ events s', Run (Step resolver) s events s' ∧
    labels events = purge s.calls ∧
    (∀ u < s.calls, s'.tasks u = s.tasks u) ∧ s'.generation = s.generation + 1 ∧ s'.cache = [] ∧
    s'.calls = s.calls + 1
  := by
  have hpurge : Run (Step resolver) s _ _ := .tail .refl (.purge s alice)
  have hbump := hpurge.tail (.bump (tasks_call_self _ _))
  have hpurged := hbump.tail (.purged (tasks_set_self _ _ _))
  refine ⟨_, _, hpurged, rfl, ?_, rfl, ?_, rfl⟩
  · intro u hu
    rw [tasks_set_of_ne _ hu.ne]
    show ((s.call (.purging alice)).bump.set s.calls _).tasks u = _
    rw [tasks_set_of_ne _ hu.ne]
    show (s.call (.purging alice)).tasks u = _
    rw [tasks_call_of_ne _ hu.ne]
  · show Cache.remove s.cache alice = []
    rw [hcache]
    rfl

/-- Any number of purges of Alice when nothing is in the cache. -/
theorem purges_often (n : ℕ) {s : Directory Unit} (hcache : s.cache = []) :
  ∃ events s', Run (Step resolver) s events s' ∧
    (∀ u < s.calls, s'.tasks u = s.tasks u) ∧ s'.generation = s.generation + UInt64.ofNat n ∧
    s'.cache = [] ∧ s'.calls = s.calls + n
  := by
  induction n generalizing s with
  | zero => exact ⟨[], s, .refl, fun _ _ => rfl, by simp, hcache, rfl⟩
  | succ n ih =>
      obtain ⟨events, s₁, hrun, -, htasks, hgeneration, hcache₁, hcalls⟩ := purges_once hcache
      obtain ⟨events', s', hrun', htasks', hgeneration', hcache', hcalls'⟩ := ih hcache₁
      refine ⟨events' ++ events, s', hrun.append hrun', ?_, ?_, hcache', ?_⟩
      · intro u hu
        rw [htasks' u (by omega), htasks u hu]
      · rw [hgeneration', hgeneration, UInt64.ofNat_add, UInt64.add_assoc, UInt64.add_comm 1]
        rfl
      · omega

/-- The lookup stores the identity, and another lookup of Alice is answered with it. -/
theorem returns {s : Directory Unit} (htask : s.tasks 0 = some (.lookup none alice
    (.storing 0 shared))) (hgeneration : s.generation = 0) (hcache : s.cache = []) :
  ∃ events s', Run (Step resolver) s events s' ∧
    labels events = again s.calls
  := by
  have hkeep : s.keep alice 0 shared [] 0 = { s with cache := [(alice, ⟨shared, 300000, 0⟩)] } := by
    rw [Directory.keep, if_neg (by simp [hgeneration]), hcache]
    rfl
  have hhit : Cache.hit [(alice, ⟨shared, 300000, 0⟩)] alice s.generation 0 = some shared := by
    rw [hgeneration]
    rfl
  have horder : (([] : List (Did × ℕ)).map Prod.fst).Perm (s.cache.map Prod.fst) := by
    rw [hcache]
    exact .nil
  have hstore : Run (Step resolver) s _ _ := .tail .refl (.store 0 htask horder)
  rw [hkeep] at hstore
  have hstart := hstore.tail (.lookupDid _ alice)
  have hload := hstart.tail (.load (tasks_call_self _ _))
  have hcheck := hload.tail (.check 0 (tasks_set_self _ _ _))
  have hdone := congrArg (fun found => some (Task.lookup none alice (checked s.generation found))) hhit
  exact ⟨_, _, hcheck.tail (.lookedUp ((tasks_set_self _ _ _).trans hdone)), rfl⟩

/-- A lookup that reads the generation, fetches the document, and stores it after as many purges as
there are generations puts an entry of the current generation into the cache. -/
theorem stale :
  ¬∀ (events : List (History.Event (Directory Unit) (Label Unit))) (s : Directory Unit),
    Run (Step resolver) Directory.new events s → Fresh (labels events)
  := by
  intro hfresh
  obtain ⟨events₁, s₁, hrun₁, hlabels₁, htask₁, hgeneration₁, hcache₁, hcalls₁⟩ := fetches
  obtain ⟨events₂, s₂, hrun₂, hlabels₂, htasks₂, hgeneration₂, hcache₂, hcalls₂⟩ :=
    purges_once hcache₁
  obtain ⟨events₃, s₃, hrun₃, htasks₃, hgeneration₃, hcache₃, -⟩ :=
    purges_often (2 ^ 64 - 1) hcache₂
  have htask₃ : s₃.tasks 0 = some (.lookup none alice (.storing 0 shared)) := by
    rw [htasks₃ 0 (by omega), htasks₂ 0 (by omega), htask₁]
  have hzero : s₃.generation = 0 := by
    rw [hgeneration₃, hgeneration₂, hgeneration₁]
    rfl
  obtain ⟨events₄, s₄, hrun₄, hlabels₄⟩ := returns htask₃ hzero hcache₃
  obtain ⟨returned, hafter⟩ := afterPurge s₃.calls (labels events₃)
  have hlabels : labels (events₄ ++ (events₃ ++ (events₂ ++ events₁))) =
      again s₃.calls ++ (labels events₃ ++ (purge 1 ++ fetch)) := by
    simp only [labels, List.map_append] at hlabels₁ hlabels₂ hlabels₄ ⊢
    rw [hlabels₁, hlabels₂, hlabels₄, hcalls₁]
  rw [← hlabels] at hafter
  have hlt := hfresh _ _ (((hrun₁.append hrun₂).append hrun₃).append hrun₄) _ _ _ _ _ _ hafter
  exact absurd hlt (by decide)

/-! ### A lookup of a handle after a purge -/

/-- A document of Alice that declares a handle. -/
def named : DidDocument := ⟨alice.raw, [ascii "at://alice.test"], [], []⟩

theorem handle_valid :
  Handle.validate (ascii "alice.test") = .ok ()
  := by decide +kernel

/-- The handle of Alice. -/
def handle : Handle := ⟨ascii "alice.test", ascii "alice.test", handle_valid, by decide⟩

/-- The identity of Alice that the lookup makes. -/
def verified (t : ℕ) : Shared Unit := ⟨t, alice, some handle, [], []⟩

/-- The steps of a lookup of the handle. -/
def find (t : ℕ) : Trace Unit :=
  [.found t handle (.ok (verified t)), .lookedUp t alice (.ok (verified t)), .store t,
    .resolved t handle (.ok alice), .answer t alice (.document named), .request t alice, .check t,
    .load t, .lookupDid t alice, .resolved t handle (.ok alice), .lookupHandle t handle]

theorem answered_named (t : ℕ) (generation : UInt64) :
  answered resolver t alice generation (.document named)
    = .verifying generation (verified t).identity handle
  := by
  have hhandle : named.handle = some handle := by decide +kernel
  have hidentity : fetchDidDocument resolver (.document named) alice >>= fromDocument resolver
      = .ok (verified t).identity := by
    show fromDocument resolver named = _
    rw [fromDocument, Did.tryFrom_eq_ok.mpr (show alice.raw = named.id from rfl), hhandle]
    rfl
  rw [answered, hidentity]
  rfl

/-- A lookup of the handle when nothing is in the cache. -/
theorem finds {s : Directory Unit} (hcache : s.cache = []) :
  ∃ events s', Run (Step resolver) s events s' ∧ labels events = find s.calls
  := by
  have hstart : Run (Step resolver) s _ _ := .tail .refl (.lookupHandle s handle)
  have hresolved := hstart.tail (.resolve (.ok alice) (tasks_call_self _ _))
  have hcalled := hresolved.tail (.call (tasks_set_self _ _ _))
  obtain ⟨events, s₁, hrun, hlabels, htask, -, hcache₁, -⟩ :=
    asks hcalled named (tasks_set_self _ _ _) hcache
  have hverifying := htask.trans (congrArg
    (fun phase => some (Task.lookup (some handle) alice phase)) (answered_named s.calls _))
  have hverified := hrun.tail (.verify (.ok alice) hverifying)
  have horder : (([] : List (Did × ℕ)).map Prod.fst).Perm (s₁.cache.map Prod.fst) := by
    rw [hcache₁]
    exact .nil
  have hstored := hverified.tail (.store 0 (tasks_set_self _ _ _) horder)
  have hlooked := hstored.tail (.lookedUp (tasks_set_self _ _ _))
  refine ⟨_, _, hlooked.tail (.found (tasks_set_self _ _ _)), ?_⟩
  rw [labels, List.map_cons, List.map_cons, List.map_cons, List.map_cons, ← labels, hlabels]
  rfl

/-- A lookup of the handle after the purge is coherent: its identity was requested after the purge
began, and is verified in both directions. -/
theorem found_coherent :
  ∃ (events : List (History.Event (Directory Unit) (Label Unit))) (s : Directory Unit),
    labels events = find 2 ++ (purge 1 ++ fetch) ∧ Coherent resolver (labels events) s ∧
      (∃ load request returned,
        AfterPurge (labels events) alice (verified 2) fetch load request returned ∧
          fetch.length < request.length) ∧
      Found resolver (labels events).tail 2 handle (verified 2)
  := by
  obtain ⟨events₁, s₁, hrun₁, hlabels₁, -, -, hcache₁, hcalls₁⟩ := fetches
  obtain ⟨events₂, s₂, hrun₂, hlabels₂, -, -, hcache₂, hcalls₂⟩ := purges_once hcache₁
  obtain ⟨events₃, s₃, hrun₃, hlabels₃⟩ := finds hcache₂
  have hlabels : labels (events₃ ++ (events₂ ++ events₁)) = find 2 ++ (purge 1 ++ fetch) := by
    simp only [labels, List.map_append] at hlabels₁ hlabels₂ hlabels₃ ⊢
    rw [hlabels₁, hlabels₂, hlabels₃, hcalls₂, hcalls₁]
  have hcoherent := coherent_of_run ((hrun₁.append hrun₂).append hrun₃)
  have hafter : AfterPurge (find 2 ++ (purge 1 ++ fetch)) alice (verified 2) fetch
      ((find 2).drop 8 ++ (purge 1 ++ fetch)) ((find 2).drop 6 ++ (purge 1 ++ fetch))
      ((find 2).drop 2 ++ (purge 1 ++ fetch)) :=
    ⟨⟨1, 2, [.bump 1, .purge 1 alice] ++ fetch, (find 2).drop 9 ++ (purge 1 ++ fetch),
      ⟨find 2 ++ [.purged 1 alice, .bump 1], rfl⟩, ⟨find 2, rfl⟩, ⟨(find 2).take 8, rfl⟩,
      by decide, ⟨(find 2).take 1, rfl⟩⟩, ⟨(find 2).take 7, rfl⟩, alice, ⟨(find 2).take 5, rfl⟩⟩
  refine ⟨_, s₃, hlabels, hcoherent, ⟨_, _, _, hlabels ▸ hafter, ?_⟩, ?_⟩
  · exact hcoherent.fresh _ _ _ _ _ _ (hlabels ▸ hafter) (by decide)
  · apply hcoherent.verified
    rw [hlabels]
    exact ⟨[], rfl⟩

end Wrap

end Shrike.Identities
