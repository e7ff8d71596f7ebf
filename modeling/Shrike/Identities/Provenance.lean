import Shrike.Identities.Directory
import Mathlib.Tactic.Cases

/-!
# Where identities come from

The histories of a directory, and what has to have happened for a call to be where it is: which
generation it read, what the network answered, and to which DID a handle resolved.
-/

namespace Shrike.Identities

open Bytes Syntax

/-! ### Histories -/

/-- The labels of the steps of a run, the latest first. -/
abbrev Trace (Key : Type) : Type := List (Label Key)

section Histories

variable {Key : Type}

/-- A step was taken when certain steps had been taken before. -/
def Happened (trace : Trace Key) (label : Label Key) (earlier : Trace Key) : Prop :=
  ∃ later, trace = later ++ label :: earlier

variable {trace earlier earlier' : Trace Key} {label label' : Label Key}

theorem happened_cons :
  Happened (label' :: trace) label earlier ↔
    (label' = label ∧ trace = earlier) ∨ Happened trace label earlier
  := by
  constructor
  · rintro ⟨later, h⟩
    cases later with
    | nil =>
        left
        injection h with hlabel htrace
        exact ⟨hlabel, htrace⟩
    | cons l later =>
        right
        injection h with hlabel htrace
        exact ⟨later, htrace⟩
  · rintro (⟨rfl, rfl⟩ | ⟨later, rfl⟩)
    · exact ⟨[], rfl⟩
    · exact ⟨label' :: later, rfl⟩

theorem mem_iff_happened :
  label ∈ trace ↔ ∃ earlier, Happened trace label earlier
  := by
  constructor
  · intro h
    obtain ⟨later, earlier, rfl⟩ := List.append_of_mem h
    exact ⟨earlier, later, rfl⟩
  · rintro ⟨earlier, later, rfl⟩
    simp

namespace Happened

theorem cons (h : Happened trace label earlier) :
  Happened (label' :: trace) label earlier
  := happened_cons.mpr (.inr h)

theorem trans (h : Happened trace label earlier) (h' : Happened earlier label' earlier') :
  Happened trace label' earlier'
  := by
  obtain ⟨later, rfl⟩ := h
  obtain ⟨later', rfl⟩ := h'
  exact ⟨later ++ label :: later', by simp⟩

theorem suffix (h : Happened trace label earlier) :
  label :: earlier <:+ trace
  := by
  obtain ⟨later, rfl⟩ := h
  exact ⟨later, rfl⟩

theorem length_lt (h : Happened trace label earlier) :
  earlier.length < trace.length
  := h.suffix.length_le

/-- Of two steps the one with fewer steps before it is before the other. -/
theorem of_lt (h : Happened trace label earlier) (h' : Happened trace label' earlier')
    (hlt : earlier.length < earlier'.length) :
  Happened earlier' label earlier
  := by
  have hle : (label :: earlier).length ≤ earlier'.length := hlt
  obtain ⟨later, hlater⟩ := List.suffix_of_suffix_length_le h.suffix
    (List.suffix_cons label' earlier' |>.trans h'.suffix) hle
  exact ⟨later, hlater.symm⟩

/-- Two steps with equally many steps before them are the same. -/
theorem eq_of_length (h : Happened trace label earlier) (h' : Happened trace label' earlier')
    (heq : earlier.length = earlier'.length) :
  label = label' ∧ earlier = earlier'
  := by
  have hlength : (label :: earlier).length = (label' :: earlier').length := by
    rw [List.length_cons, List.length_cons, heq]
  have hsuffix := List.suffix_of_suffix_length_le h.suffix h'.suffix hlength.le
  injection hsuffix.eq_of_length hlength with hlabel hearlier
  exact ⟨hlabel, hearlier⟩

end Happened

/-- The step goes on to the next generation. -/
def Label.isBump : Label Key → Bool
  | .bump _ => true
  | _ => false

/-- How many times a run went on to the next generation. -/
def bumps (trace : Trace Key) : ℕ := trace.countP Label.isBump

theorem bumps_le (h : Happened trace label earlier) :
  bumps earlier ≤ bumps trace
  := by
  apply List.Sublist.countP_le
  apply ((List.suffix_cons label earlier).trans h.suffix).sublist

/-- A run that went on to the next generation has done so once more than before. -/
theorem bumps_lt {t : ℕ} (h : Happened trace (.bump t) earlier) :
  bumps earlier < bumps trace
  := by
  have hle : bumps (.bump t :: earlier) ≤ bumps trace := by
    apply List.Sublist.countP_le
    exact h.suffix.sublist
  rwa [bumps, List.countP_cons_of_pos rfl] at hle

/-- The call that takes the step. -/
def Label.task : Label Key → ℕ
  | .lookupDid t _ | .lookupHandle t _ | .purge t _ | .resolved t _ _ | .load t | .check t
  | .request t _ | .refuse t | .answer t _ _ | .store t | .bump t | .purged t _ | .lookedUp t _ _
  | .found t _ _ | .drop t => t

/-- What was done before a step of a call. -/
def Label.InOrder (earlier : Trace Key) : Label Key → Prop
  | .lookupDid t _ => .load t ∉ earlier
  | .load t => .load t ∉ earlier
  | .request t _ => .load t ∈ earlier
  | .answer t did _ => .request t did ∈ earlier
  | .purge t _ => ∀ did, .purge t did ∉ earlier
  | .purged t _ => ∃ middle, Happened earlier (.bump t) middle ∧ ∃ did, .purge t did ∈ middle
  | _ => True

/-- The steps of a run are in the order of the program. -/
def Ordered (trace : Trace Key) : Prop :=
  ∀ label earlier, Happened trace label earlier → label.InOrder earlier

namespace Ordered

theorem cons (h : Ordered trace) (hlabel : label.InOrder trace) :
  Ordered (label :: trace)
  := by
  intro label' earlier hearlier
  rcases happened_cons.mp hearlier with ⟨rfl, rfl⟩ | hearlier
  · exact hlabel
  · exact h label' earlier hearlier

/-- Two steps happened at one time if neither comes before the other. -/
theorem eq_of_not_mem (hlabel : Happened trace label earlier)
    (hlabel' : Happened trace label' earlier') (h : label ∉ earlier') (h' : label' ∉ earlier) :
  earlier = earlier'
  := by
  rcases lt_trichotomy earlier.length earlier'.length with hlt | heq | hlt
  · exact absurd (mem_iff_happened.mpr ⟨earlier, hlabel.of_lt hlabel' hlt⟩) h
  · exact (hlabel.eq_of_length hlabel' heq).2
  · exact absurd (mem_iff_happened.mpr ⟨earlier', hlabel'.of_lt hlabel hlt⟩) h'

/-- A call loads the generation once. -/
theorem load_eq (h : Ordered trace) {t : ℕ} (hload : Happened trace (.load t) earlier)
    (hload' : Happened trace (.load t) earlier') :
  earlier = earlier'
  := eq_of_not_mem hload hload' (h _ _ hload') (h _ _ hload)

/-- A purge begins once. -/
theorem purge_eq (h : Ordered trace) {t : ℕ} {did did' : Did}
    (hpurge : Happened trace (.purge t did) earlier)
    (hpurge' : Happened trace (.purge t did') earlier') :
  earlier = earlier'
  := eq_of_not_mem hpurge hpurge' (h _ _ hpurge' did) (h _ _ hpurge did')

end Ordered

end Histories

/-! ### What identities are made from -/

section Provenance

variable {Key : Type} (resolver : Resolver Key) (trace : Trace Key)

/-- The generation that a call loaded. -/
def Loaded (t : ℕ) (generation : UInt64) : Prop :=
  ∃ earlier, Happened trace (.load t) earlier ∧ UInt64.ofNat (bumps earlier) = generation

/-- A call was answered with a document of the DID that describes an identity. -/
def Answered (t : ℕ) (did : Did) (identity : Identity Key) : Prop :=
  ∃ answer, .answer t did answer ∈ trace ∧
    fetchDidDocument resolver answer did >>= fromDocument resolver = .ok identity

/-- A handle resolved to a DID after a call was answered with the document that declares it. -/
def Verified (t : ℕ) (did : Did) (identity : Identity Key) (handle : Handle) : Prop :=
  identity.handle = some handle ∧ ∃ earlier, Happened trace (.resolved t handle (.ok did)) earlier ∧
    Answered resolver earlier t did identity

/-- A shared identity is that of a DID: the lookup that made it was answered with the document of
the DID, and the handle is the declared one, which resolved to the DID in that lookup. -/
def Made (did : Did) (shared : Shared Key) : Prop :=
  shared.identity.did = did ∧ ∃ identity, Answered resolver trace shared.lookup did identity ∧
    shared = identity.share shared.lookup shared.identity.handle ∧
    ∀ handle, shared.identity.handle = some handle →
      Verified resolver trace shared.lookup did identity handle

/-- A call has the identity that a handle was found for: the handle resolved to its DID in the
call, and its document declares the handle. -/
def Found (t : ℕ) (handle : Handle) (shared : Shared Key) : Prop :=
  ∃ did, .resolved t handle (.ok did) ∈ trace ∧ Made resolver trace did shared ∧
    shared.identity.handle = some handle

/-- What was done in a lookup before it got to a phase. -/
def Phase.Explained (t : ℕ) (did : Did) : Phase Key → Prop
  | .starting => .load t ∉ trace
  | .checking generation => Loaded trace t generation
  | .missed generation => Loaded trace t generation
  | .fetching generation => Loaded trace t generation ∧ .request t did ∈ trace
  | .verifying generation identity declared =>
      Loaded trace t generation ∧ Answered resolver trace t did identity ∧
        identity.handle = some declared
  | .storing generation shared =>
      Loaded trace t generation ∧ shared.lookup = t ∧ Made resolver trace did shared
  | .done (.ok shared) =>
      (∃ generation, Loaded trace t generation ∧ Loaded trace shared.lookup generation) ∧
        Made resolver trace did shared
  | .done (.error _) => True

/-- What was done in a call before it got where it is. -/
def Task.Explained (t : ℕ) : Task Key → Prop
  | .resolving _ => .load t ∉ trace
  | .calling handle did => .load t ∉ trace ∧ .resolved t handle (.ok did) ∈ trace
  | .lookup wanted did phase =>
      (∀ handle, wanted = some handle → .resolved t handle (.ok did) ∈ trace) ∧
        phase.Explained resolver trace t did
  | .answering handle (.ok shared) => Found resolver trace t handle shared
  | .answering _ (.error _) => True
  | .purging did => .purge t did ∈ trace
  | .removing did => ∃ middle, Happened trace (.bump t) middle ∧ .purge t did ∈ middle

variable {resolver trace} {label : Label Key} {t : ℕ} {did : Did}

theorem Loaded.cons {generation : UInt64} (h : Loaded trace t generation) :
  Loaded (label :: trace) t generation
  := by
  obtain ⟨earlier, hload, hgeneration⟩ := h
  exact ⟨earlier, hload.cons, hgeneration⟩

variable {shared : Shared Key} {identity : Identity Key}

theorem Answered.cons (h : Answered resolver trace t did identity) :
  Answered resolver (label :: trace) t did identity
  := by
  obtain ⟨answer, hanswer, hidentity⟩ := h
  exact ⟨answer, List.mem_cons_of_mem label hanswer, hidentity⟩

theorem Made.cons (h : Made resolver trace did shared) :
  Made resolver (label :: trace) did shared
  := by
  obtain ⟨hdid, identity, hanswered, hshared, hhandle⟩ := h
  refine ⟨hdid, identity, hanswered.cons, hshared, ?_⟩
  intro handle hsome
  obtain ⟨hdeclared, earlier, hresolved, hanswered⟩ := hhandle handle hsome
  exact ⟨hdeclared, earlier, hresolved.cons, hanswered⟩

theorem Found.cons {handle : Handle} (h : Found resolver trace t handle shared) :
  Found resolver (label :: trace) t handle shared
  := by
  obtain ⟨did, hresolved, hmade, hhandle⟩ := h
  exact ⟨did, List.mem_cons_of_mem label hresolved, hmade.cons, hhandle⟩

theorem Phase.Explained.cons {phase : Phase Key} (h : phase.Explained resolver trace t did)
    (hlabel : label ≠ .load t) :
  phase.Explained resolver (label :: trace) t did
  := by
  cases phase with
  | starting =>
      rw [Phase.Explained, List.mem_cons, not_or]
      exact ⟨hlabel.symm, h⟩
  | checking generation => exact Loaded.cons h
  | missed generation => exact Loaded.cons h
  | fetching generation => exact ⟨h.1.cons, List.mem_cons_of_mem label h.2⟩
  | verifying generation identity declared => exact ⟨h.1.cons, h.2.1.cons, h.2.2⟩
  | storing generation shared => exact ⟨h.1.cons, h.2.1, h.2.2.cons⟩
  | done result =>
      cases result with
      | error e => trivial
      | ok shared =>
          obtain ⟨⟨generation, hload, hlookup⟩, hmade⟩ := h
          exact ⟨⟨generation, hload.cons, hlookup.cons⟩, hmade.cons⟩

/-- What was done in a call stays done. -/
theorem Task.Explained.cons {task : Task Key} (h : task.Explained resolver trace t)
    (hlabel : label ≠ .load t) :
  task.Explained resolver (label :: trace) t
  := by
  have hnot : .load t ∉ trace → .load t ∉ label :: trace := by
    intro hload
    rw [List.mem_cons, not_or]
    exact ⟨hlabel.symm, hload⟩
  cases task with
  | resolving handle => exact hnot h
  | calling handle did => exact ⟨hnot h.1, List.mem_cons_of_mem label h.2⟩
  | lookup wanted did phase =>
      refine ⟨?_, h.2.cons hlabel⟩
      intro handle hwanted
      exact List.mem_cons_of_mem label (h.1 handle hwanted)
  | answering handle result =>
      cases result with
      | error e => trivial
      | ok shared => exact Found.cons h
  | purging did => exact List.mem_cons_of_mem label h
  | removing did =>
      obtain ⟨middle, hbump, hpurge⟩ := h
      exact ⟨middle, hbump.cons, hpurge⟩

/-- An identity that a lookup was answered with has the DID that was looked up. -/
theorem Answered.did_eq (h : Answered resolver trace t did identity) :
  identity.did = did
  := by
  obtain ⟨answer, -, hidentity⟩ := h
  exact did_of_fetched resolver hidentity

/-- An identity shared with a handle that was verified is made from the document. -/
theorem Answered.made {handle : Option Handle} (h : Answered resolver trace t did identity)
    (hhandle : ∀ h, handle = some h → Verified resolver trace t did identity h) :
  Made resolver trace did (identity.share t handle)
  := ⟨h.did_eq, identity, h, rfl, hhandle⟩

/-- What a lookup of a DID returns is the identity of the DID. -/
theorem Made.described (h : Made resolver trace did shared) :
  Described resolver did shared.identity
  := by
  obtain ⟨-, identity, ⟨answer, -, hidentity⟩, hshared, -⟩ := h
  use answer, identity.handle
  rw [hidentity, hshared]
  rfl

end Provenance

end Shrike.Identities
