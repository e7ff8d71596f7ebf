import Shrike.Identities.Directory
import Mathlib.Tactic.Cases

/-!
# Purges

A purge takes one entry out of the cache and goes on to the next generation. Entries of the
generation before are no longer found.
-/

namespace Shrike.Identities

open Bytes Syntax

/-! ### What the calls see -/

namespace Cache

variable {Key : Type} {cache : Cache Key} {did did' : Did} {generation : UInt64} {now : ℕ}
  {shared : Shared Key}

theorem lookup_remove_of_ne (h : did' ≠ did) :
  (cache.remove did).lookup did' = cache.lookup did'
  := List.lookup_eraseKey_of_ne h cache

/-- An entry that is found in one generation is not found in the next. -/
theorem hit_succ (h : cache.hit did generation now = some shared) (now' : ℕ) :
  cache.hit did (generation + 1) now' = none
  := by
  obtain ⟨entry, hentry, -, rfl, -⟩ := hit_eq_some.mp h
  rw [Option.eq_none_iff_forall_not_mem]
  intro shared' h'
  obtain ⟨entry', hentry', -, hgeneration, -⟩ := hit_eq_some.mp h'
  rw [hentry] at hentry'
  cases hentry'
  have hne : entry.generation ≠ entry.generation + 1 := by
    intro heq
    have := congrArg UInt64.toNat heq
    have := entry.generation.toNat_lt
    simp at *
  exact hne hgeneration

end Cache

section Alone

variable {Key : Type} (resolver : Resolver Key)

theorem checked_eq_done {generation : UInt64} {found : Option (Shared Key)} {shared : Shared Key}
    (h : checked generation found = .done (.ok shared)) :
  found = some shared
  := by
  cases found with
  | none => cases h
  | some shared' =>
      cases h
      rfl

/-- A lookup that is alone returns an identity without a request. -/
def AnswersFromCache (s : Directory Key) (did : Did) (shared : Shared Key) : Prop :=
  ∃ t s₁ s₂ s₃ wanted, Step resolver s (.lookupDid t did) s₁ ∧ Step resolver s₁ (.load t) s₂ ∧
    Step resolver s₂ (.check t) s₃ ∧ s₃.tasks t = some (.lookup wanted did (.done (.ok shared)))

/-- A purge that is alone. -/
def Purges (s : Directory Key) (did : Did) (s' : Directory Key) : Prop :=
  ∃ t s₁ s₂, Step resolver s (.purge t did) s₁ ∧ Step resolver s₁ (.bump t) s₂ ∧
    Step resolver s₂ (.purged t did) s'

variable {resolver}

variable {s s' : Directory Key}

/-- A lookup that is alone returns what it finds in the cache in the generation it is in. -/
theorem answersFromCache_iff {did : Did} {shared : Shared Key} :
  AnswersFromCache resolver s did shared ↔ ∃ now, s.cache.hit did s.generation now = some shared
  := by
  constructor
  · rintro ⟨t, s₁, s₂, s₃, wanted, hlookup, hload, hcheck, hdone⟩
    have hstart : s₁.generation = s.generation ∧ s₁.cache = s.cache ∧
        ∃ wanted, s₁.tasks t = some (.lookup wanted did .starting) := by
      cases hlookup with
      | lookupDid => exact ⟨rfl, rfl, none, tasks_call_self s _⟩
      | call => exact ⟨rfl, rfl, _, tasks_set_self s t _⟩
    obtain ⟨hgeneration, hcache, wanted', hstart⟩ := hstart
    cases hload with
    | load hload =>
        rw [hstart] at hload
        cases hload
        cases hcheck with
        | check now hcheck =>
            rw [tasks_set_self] at hcheck
            cases hcheck
            use now
            rw [tasks_set_self] at hdone
            rw [← hcache, ← hgeneration]
            apply checked_eq_done
            injection hdone with hdone
            injection hdone
  · rintro ⟨now, hhit⟩
    refine ⟨_, _, _, _, none, .lookupDid s did, .load (tasks_call_self s _),
      .check now (tasks_set_self _ _ _), ?_⟩
    rw [tasks_set_self]
    show some (Task.lookup none did (checked _ (s.cache.hit did s.generation now))) = _
    rw [hhit]
    rfl

/-- A purge that is alone takes the entry out and goes on to the next generation. -/
theorem Purges.effect {did : Did} (h : Purges resolver s did s') :
  s'.generation = s.generation + 1 ∧ s'.cache = s.cache.remove did
  := by
  obtain ⟨t, s₁, s₂, hpurge, hbump, hpurged⟩ := h
  cases hpurge with
  | purge =>
      cases hbump with
      | bump hbump =>
          rw [tasks_call_self] at hbump
          cases hbump
          cases hpurged with
          | purged hpurged => exact ⟨rfl, rfl⟩

/-! ### Other entries -/

/-- After a purge of another DID, an entry that would have been a hit is none. -/
theorem Purges.no_hit {did did' : Did} {shared : Shared Key} {now : ℕ}
    (purges : Purges resolver s did s') (hne : did' ≠ did)
    (hit : s.cache.hit did' s.generation now = some shared) (now' : ℕ) :
  s'.cache.hit did' s'.generation now' = none
  := by
  obtain ⟨hgeneration, hcache⟩ := purges.effect
  rw [hgeneration, hcache, Cache.hit, Cache.lookup_remove_of_ne hne, ← Cache.hit]
  apply Cache.hit_succ hit

/-- After a purge of another DID, no lookup is answered by an entry that was in the cache: the purge
left the entry there, but in a generation that is over. -/
theorem not_answersFromCache_of_purges {s s' : Directory Key} {did did' : Did}
    {shared : Shared Key} (hne : did' ≠ did) (purges : Purges resolver s did s')
    (answers : AnswersFromCache resolver s did' shared) :
  ¬∃ shared', AnswersFromCache resolver s' did' shared'
  := by
  obtain ⟨now, hit⟩ := answersFromCache_iff.mp answers
  rintro ⟨shared', answers'⟩
  obtain ⟨now', hit'⟩ := answersFromCache_iff.mp answers'
  rw [purges.no_hit hne hit now'] at hit'
  cases hit'

end Alone

namespace TwoEntries

open Syntax.Sample (alice bob)

/-- A resolver that knows no keys. -/
def resolver : Resolver Unit := ⟨ascii "https://plc.directory", .denyLocal, id, fun _ => none⟩

/-- The identity of Bob that the first lookup made. -/
def shared : Shared Unit := ⟨0, bob, none, [], []⟩

/-- A directory that has looked up Bob and Alice. -/
def directory : Directory Unit :=
  { generation := 0
    cache := [(alice, ⟨⟨1, alice, none, [], []⟩, 300000, 0⟩), (bob, ⟨shared, 300000, 0⟩)]
    tasks := fun _ => none
    calls := 2 }

theorem bob_ne_alice :
  bob ≠ alice
  := by decide

theorem answersFromCache :
  AnswersFromCache resolver directory bob shared
  := answersFromCache_iff.mpr ⟨0, rfl⟩

theorem purges :
  ∃ s', Purges resolver directory alice s'
  := ⟨_, _, _, _, .purge _ _, .bump (tasks_call_self _ _), .purged (tasks_set_self _ _ _)⟩

/-- A lookup of Bob after the purge of Alice is not answered from the cache. -/
theorem forgotten :
  ∃ s', Purges resolver directory alice s' ∧ AnswersFromCache resolver directory bob shared ∧
    ¬∃ shared', AnswersFromCache resolver s' bob shared'
  := by
  obtain ⟨s', hpurges⟩ := purges
  exact ⟨s', hpurges, answersFromCache,
    not_answersFromCache_of_purges bob_ne_alice hpurges answersFromCache⟩

/-- The purge of one DID does not leave the lookups of the others answered from the cache. -/
theorem purge_forgets_others :
  ¬∀ (s s' : Directory Unit) (did did' : Did) (shared : Shared Unit), did' ≠ did →
    Purges resolver s did s' → AnswersFromCache resolver s did' shared →
    ∃ shared', AnswersFromCache resolver s' did' shared'
  := by
  intro h
  obtain ⟨s', hpurges⟩ := purges
  obtain ⟨shared', hafter⟩ := h _ s' _ _ _ bob_ne_alice hpurges answersFromCache
  obtain ⟨now, hbefore⟩ := answersFromCache_iff.mp answersFromCache
  obtain ⟨now', hhit⟩ := answersFromCache_iff.mp hafter
  rw [hpurges.no_hit bob_ne_alice hbefore now'] at hhit
  cases hhit

end TwoEntries

end Shrike.Identities
