import Shrike.Jetstream.Backfill
import Shrike.Jetstream.Tail

/-!
# The handover between archive and live tail

With an archive source and a live server that are faithful to one log of events, a run of the
engine loses nothing, through any number of archive and live phases.
-/

namespace Shrike.Jetstream

open Act

variable {E ε : Type} [Sequenced E]

namespace Feed

variable {feed : Feed E ε} {start : ℕ}

/-! ### Between the phases -/

variable {s : State E ε}

variable {n clock : ℕ}

/-- A change of the clock alone. -/
theorem Reached.tick (h : feed.Reached start n s) :
  feed.Reached start n { s with clock := clock }
  := ⟨h.start_le, h.settled, h.seen_le, h.tip_le⟩

theorem Reached.processed_le (h : feed.Reached start n s) (horderly : InOrder start s) :
  s.lastProcessedSeq ≤ n
  := by
  rw [horderly.processed_eq_highest]
  cases hlog : delivered s.log using List.reverseRecOn with
  | nil => exact h.start_le
  | append_singleton events last =>
      have hlast : UpTo n [] last := h.settled.only last (by rw [hlog]; simp)
      rw [highest_concat]
      exact max_le h.start_le (hlast.resolve_right (by simp))

/-- The live tail starts at the covered boundary. -/
theorem Reached.cutover (h : feed.Reached start n s) (horderly : InOrder start s) :
  AtTail (feed.Tailing start [] (max (max s.sealedTipSeq s.lastProcessedSeq) s.seen) []) s
  := by
  have hprocessed := h.processed_le horderly
  have hseen := h.seen_le
  have htip := h.tip_le
  refine ⟨?_, h.settled.throughout, ?_, ?_, ?_, ?_, ?_, le_max_right .., ?_⟩
  · have := horderly.start_le
    omega
  · intro e hwanted hstart hle
    exact .inl (h.settled.covered e hwanted hstart (.inl (by omega)))
  · rintro e (he | he)
    · have := horderly.le_processed he
      omega
    · cases he
  · exact fun _ he => (by cases he)
  · exact fun _ he => (by cases he)
  · exact fun _ he => (by cases he)
  · omega

variable (feed) in
/-- The state between phases: the deliveries are in order, and nothing up to some sequence is
missing. -/
def Standing (start : ℕ) (s : State E ε) : Prop :=
  InOrder start s ∧ ∃ n, feed.Reached start n s

theorem Standing.tick (h : feed.Standing start s) :
  feed.Standing start { s with clock := clock }
  := by
  obtain ⟨horderly, n, hreached⟩ := h
  exact ⟨horderly, n, hreached.tick⟩

theorem Standing.throughout (h : feed.Standing start s) :
  AtLog (feed.Throughout start) s
  := by
  obtain ⟨_, n, hreached⟩ := h
  exact hreached.settled.throughout

/-- What the live tail has caught up with is settled. -/
theorem CaughtUp.reached (h : feed.CaughtUp start s) :
  ∃ n, feed.Reached start n s
  := by
  obtain ⟨n, h⟩ := h
  refine ⟨n, h.start_le, ⟨h.throughout, ?_, fun e he => .inl (h.only e (.inl he))⟩, h.seen_le,
    h.tip_le⟩
  intro e hwanted hstart hle
  have hn : sequence e ≤ n := hle.resolve_right (by simp)
  exact (h.covered e hwanted hstart hn).resolve_right (by simp)

/-! ### Cycles -/

section Environment

variable (env : Environment E ε) (config : EngineConfig E ε)
  {holds : PlanSegment → ℕ → ℕ → List E}

theorem archivePhase_done {maxPlanPages after n : ℕ} (harchive : feed.FaithfulArchive holds env)
    (hafter : after ≤ n) :
  Triple (feed.Reached start n) (archivePhase env config (some maxPlanPages) after)
    (feed.SweepDone start n)
  := by
  refine Triple.bind (replaySweep_done env harchive hafter) fun left => ?_
  cases left with
  | stop => exact Triple.pure fun _ h => h
  | fail err => exact Triple.pure fun _ h => h
  | next _ =>
      refine Triple.ite (fun _ => Triple.pure fun _ h => ?_) fun _ => Triple.pure fun _ h => h
      obtain ⟨_, _, hreached⟩ := h
      exact hreached.settled.throughout

theorem archivePhase_standing {maxPlanPages after n : ℕ}
    (harchive : feed.FaithfulArchive holds env) (hafter : after ≤ n) :
  Triple (fun s => feed.Reached start n s ∧ InOrder start s ∧
      s.lastProcessedSeq ≤ after)
    (archivePhase env config (some maxPlanPages) after)
    (Flow.Post (fun _ => feed.Standing start) (AtLog (feed.Throughout start)))
  := by
  intro s h
  have hdone := @archivePhase_done E ε _ feed start env config holds maxPlanPages after n harchive
    hafter s h.1
  have horderly := @archivePhase_orderly E ε _ env config start after (some maxPlanPages) s
    ⟨h.2.1, h.2.2, fun h => (by cases h)⟩
  revert hdone horderly
  cases (archivePhase env config (some maxPlanPages) after s).1 with
  | stop => exact fun hdone _ => hdone
  | fail err => exact fun hdone _ => hdone
  | next _ =>
      rintro ⟨n', _, hreached⟩ ⟨horderly, _⟩
      exact ⟨horderly, n', hreached⟩

variable {fuel maxPlanPages : ℕ}

theorem livePhase_done (hadmits : config.live.admits = feed.admits)
    (hlive : feed.FaithfulLive env) :
  Triple (feed.Standing start) (livePhase env config true fuel) fun _ => feed.CaughtUp start
  := by
  refine Triple.bind_get fun s h => ?_
  obtain ⟨horderly, n, hreached⟩ := h
  refine Triple.bind (Q := fun _ => AtTail (feed.Tailing start []
    (max (max s.sealedTipSeq s.lastProcessedSeq) s.seen) [])) ?_ fun _ => ?_
  · refine Triple.modify fun s' hs' => ?_
    subst hs'
    exact hreached.cutover horderly
  · split
    · exact Triple.pure fun _ h => ⟨_, h⟩
    · refine Triple.bind (runLive_done env true _ hadmits hlive rfl) fun _ => ?_
      exact Triple.pure fun _ h => h

theorem livePhase_standing (hadmits : config.live.admits = feed.admits)
    (hlive : feed.FaithfulLive env) :
  Preserves (feed.Standing start) (livePhase env config true fuel)
  := by
  intro s h
  have hdone := @livePhase_done E ε _ feed start env config fuel hadmits hlive s h
  have hbridged := @livePhase_bridged E ε _ env config start fuel true s
    ⟨h.1, fun h => (by cases h)⟩
  exact ⟨hbridged.1, hdone.reached⟩

/-- The cycles of archive and live phase lose nothing. -/
theorem cycles_throughout (hadmits : config.live.admits = feed.admits)
    (harchive : feed.FaithfulArchive holds env) (hlive : feed.FaithfulLive env) :
  ∀ {fuel after n : ℕ} {prev : Progress}, after ≤ n →
    Triple (fun s => feed.Reached start n s ∧ InOrder start s ∧
        s.lastProcessedSeq ≤ after)
      (cycles env config (some maxPlanPages) fuel after prev) fun _ => AtLog (feed.Throughout start)
  | 0, _, _, _, _ => Triple.pure fun _ h => h.1.settled.throughout
  | fuel + 1, after, n, prev, hafter => by
      rw [cycles]
      refine Triple.bind (Q := fun _ s => feed.Reached start n s ∧
          InOrder start s ∧ s.lastProcessedSeq ≤ after)
        (fun _ h => ⟨h.1.tick, h.2⟩) fun cancelled => ?_
      refine Triple.ite (fun _ => Triple.pure fun _ h => h.1.settled.throughout) fun _ => ?_
      refine Triple.bind (archivePhase_standing env config harchive hafter) fun left => ?_
      cases left with
      | stop => exact Triple.pure fun _ h => h
      | fail err => exact Triple.pure fun _ h => h
      | next _ =>
          refine Triple.bind (Q := fun _ => feed.Standing start) (fun _ h => Standing.tick h)
            fun cancelled => ?_
          refine Triple.ite (fun _ => Triple.pure fun _ h => h.throughout) fun _ => ?_
          refine Triple.bind (livePhase_standing env config hadmits hlive) fun left => ?_
          cases left with
          | stop => exact Triple.pure fun _ h => h.throughout
          | fail err => exact Triple.pure fun _ h => h.throughout
          | next more =>
              cases more with
              | false => exact Triple.pure fun _ h => h.throughout
              | true =>
                  refine Triple.bind_get fun s h => ?_
                  have hend : ∀ s', s' = s → AtLog (feed.Throughout start) s' :=
                    fun s' hs' => hs' ▸ h.throughout
                  split
                  · exact Triple.pure hend
                  · exact Triple.pure hend
                  · exact Triple.pure hend
                  · split
                    · exact Triple.pure hend
                    · obtain ⟨horderly, n', hreached⟩ := h
                      have hprocessed := hreached.processed_le horderly
                      have hagain : max s.lastProcessedSeq s.seen ≤ n' :=
                        max_le hprocessed hreached.seen_le
                      refine (cycles_throughout hadmits harchive hlive hagain).strengthen fun s' hs' => ?_
                      subst hs'
                      exact ⟨hreached, horderly, le_max_left ..⟩

theorem engineRun_throughout (hadmits : config.live.admits = feed.admits)
    (harchive : feed.FaithfulArchive holds env) (hlive : feed.FaithfulLive env) :
  feed.Throughout config.afterSeq (runLog env config (some maxPlanPages) fuel)
  := by
  have hrun : Triple (fun s => s = config.start) (engineRun env config (some maxPlanPages) fuel)
      fun _ => AtLog (feed.Throughout config.afterSeq) := by
    have hnil : AtLog (feed.Throughout config.afterSeq) config.start := Throughout.nil _
    rw [engineRun]
    split
    · exact Triple.pure fun s hs => hs ▸ hnil
    · refine Triple.ite (fun _ => Triple.pure fun s hs => hs ▸ hnil) fun _ => ?_
      refine (cycles_throughout env config hadmits harchive hlive le_rfl).strengthen fun s hs => ?_
      subst hs
      refine ⟨⟨le_rfl, ⟨hnil, ?_, fun _ he => (by cases he)⟩, le_rfl, Nat.zero_le _⟩,
        Orderly.nil _ config.afterSeq, le_rfl⟩
      intro e _ hstart hle
      have hupTo : sequence e ≤ config.afterSeq := hle.resolve_right (by simp)
      omega
  exact hrun config.start rfl

/-- At every moment of every run over a faithful archive source and a faithful live server, the
delivered events are, in order, the events of the log that pass the filter, from the lower
bound of the archive window up to the last delivered one, except those that an error stands
for: one that was reported, or one that the entry which yielded the last delivered event
carries. -/
theorem handover_complete {maxPlanPages fuel : ℕ} (hadmits : config.live.admits = feed.admits)
    (harchive : feed.FaithfulArchive holds env) (hlive : feed.FaithfulLive env)
    {log : List (Moment E ε)} (hlog : log <+: runLog env config (some maxPlanPages) fuel) :
  Ascending (delivered log) ∧
    (∀ e ∈ delivered log, feed.Wanted e ∧ config.afterSeq < sequence e ∧
      sequence e ≤ highest config.afterSeq (delivered log)) ∧
    ∀ e, feed.Wanted e → config.afterSeq < sequence e →
      sequence e ≤ highest config.afterSeq (delivered log) →
      e ∈ delivered log ∨ (∃ err ∈ reported log, feed.covers err e) ∨
        ∃ err, Outstanding log err ∧ feed.covers err e
  := by
  have hcomplete := engineRun_throughout env config hadmits harchive hlive log hlog
  have hordered := (engineRun_orderly env config (some maxPlanPages) fuel).ordered log hlog
  refine ⟨hordered.ascending, fun e he => ⟨hcomplete.sound e he, hordered.above e he, ?_⟩, ?_⟩
  · exact hordered.ascending.le_highest _ he
  · intro e hwanted hafter hle
    exact or_assoc.mp (hcomplete.complete e hwanted hafter hle)

end Environment

/-! ### An entry with a dropped row -/

attribute [local instance] Sequenced.numbers

/-- The log of the sequences from 1 to 4, of which 2 is lost if the archive drops a row. -/
def upTo4 : Feed ℕ Unit where
  mem := fun e => 1 ≤ e ∧ e ≤ 4
  unique := fun _ _ _ _ h => h
  admits := fun _ => true
  covers := fun err e => err = .other () ∧ e = 2

/-- The rows of the only segment of the archive. -/
def sealedRows (_ : PlanSegment) (after _ : ℕ) : List ℕ := if after = 0 then [1, 2, 3] else []

end Feed

attribute [local instance] Sequenced.numbers

/-- An archive of the sequences from 1 to 3 that drops the row 2, and a live server that sends
the sequences from 3 on. -/
def Environment.dropping : Environment ℕ Unit where
  cancelled := fun _ => false
  planPage := fun _ bounds =>
    if bounds.after = 0 then
      .ok
        { sealedTipSeq := 3
          plannedThroughSeq := 3
          segments := [{ name := "s0.jss", index := 0, minSeq := 1, maxSeq := 3,
                         checksum := "0123456789abcdef", mode := .whole }] }
    else .error .canceled
  prepare := fun _ _ after _ =>
    if after = 0 then
      .ok [.ok { events := [1, 3], dropped := [.other ()], failure := none }]
    else .error .canceled
  accepts := fun _ => true
  dictionary := fun _ => none
  dial := fun _ cursor _ =>
    if cursor = some 3 then
      .connected [.message (.event 3), .message (.event 4), .cancelled]
    else .cancelled
  slept := fun _ => true

/-- The configuration of a run from the start of the log. -/
def EngineConfig.fromStart : EngineConfig ℕ Unit where
  afterSeq := 0
  beforeSeq := none
  snapshotOnly := false
  maxRebackfillStalls := 5
  live :=
    { hostCheck := .ok ()
      filterCheck := .ok ()
      admits := fun _ => true
      cursor := .tip
      compression := false
      readLimit := 1
      maxBatch := 64 }

namespace Feed

theorem dropping_archive :
  upTo4.FaithfulArchive sealedRows .dropping
  := by
  refine ⟨?_, ?_, ?_⟩
  · intro t bounds page hpage
    dsimp only [Environment.dropping] at hpage
    split at hpage
    · rename_i hafter
      cases hpage
      rw [hafter]
      refine ⟨by simp [Ascending, sealedRows, sequence], ?_, ?_, ?_⟩
      · simp [sealedRows, Wanted, upTo4, sequence]
      · simp only [sealedRows, Wanted, upTo4, sequence, id, List.flatMap_cons, List.flatMap_nil,
          List.append_nil, if_pos, List.mem_cons, List.not_mem_nil, or_false]
        intro e _ _ _
        omega
      · simp only [sealedRows, Wanted, upTo4, sequence, id, List.flatMap_cons, List.flatMap_nil,
          List.append_nil, if_pos, List.mem_cons, List.not_mem_nil, or_false]
        intro e he e' _ _ _
        omega
    · cases hpage
  · intro t segment after before chunks hchunks
    dsimp only [Environment.dropping] at hchunks
    split at hchunks
    · rename_i hafter
      cases hchunks
      rw [sealedRows, if_pos hafter]
      refine ⟨by decide, ?_⟩
      simp [yielded, carried, upTo4]
    · cases hchunks
  · intro t segment after before err herr e he
    dsimp only [Environment.dropping] at herr
    split at herr
    · cases herr
    · rename_i hafter
      rw [sealedRows, if_neg hafter] at he
      cases he

theorem dropping_live :
  upTo4.FaithfulLive .dropping
  := by
  intro t cursor dict reads hdial
  dsimp only [Environment.dropping] at hdial
  split at hdial
  · rename_i hcursor
    cases hcursor
    cases hdial
    intro before event after hreads
    match before, hreads with
    | [], hreads =>
        cases hreads
        refine ⟨by simp [upTo4], fun e _ hle hlt => ?_⟩
        simp only [sequence, id] at hle hlt
        omega
    | [_], hreads =>
        cases hreads
        refine ⟨by simp [upTo4], fun e _ hle hlt => ?_⟩
        simp only [sequence, id] at hle hlt
        have heq : e = 3 := by omega
        rw [heq]
        exact .inl (List.mem_singleton_self _)
    | [_, _], hreads => cases hreads
    | _ :: _ :: _ :: before, hreads =>
        simp at hreads
  · cases hdial

/-- After the first batch the dropped row is neither delivered nor covered by an error that was
reported. -/
theorem handover_incomplete :
  ¬∀ (feed : Feed ℕ Unit) (env : Environment ℕ Unit) (config : EngineConfig ℕ Unit)
    (holds : PlanSegment → ℕ → ℕ → List ℕ) (maxPlanPages fuel : ℕ),
    config.live.admits = feed.admits → feed.FaithfulArchive holds env → feed.FaithfulLive env →
    ∀ log, log <+: runLog env config (some maxPlanPages) fuel →
      ∀ e, feed.Wanted e → config.afterSeq < sequence e →
        sequence e ≤ highest config.afterSeq (delivered log) →
        e ∈ delivered log ∨ ∃ err ∈ reported log, feed.covers err e
  := by
  intro h
  have hlog : (runLog .dropping .fromStart (some 1) 2).take 2 <+:
      runLog .dropping .fromStart (some 1) 2 := List.take_prefix ..
  have hdelivered : delivered ((runLog .dropping .fromStart (some 1) 2).take 2) = [1, 3] := by
    decide +kernel
  have hreported : reported ((runLog .dropping .fromStart (some 1) 2).take 2) = [] := by
    decide +kernel
  have hwanted : upTo4.Wanted 2 := by simp [Wanted, upTo4]
  rcases h upTo4 .dropping .fromStart sealedRows 1 2 rfl dropping_archive dropping_live _ hlog 2
    hwanted (by decide) (by rw [hdelivered]; decide) with hmem | ⟨err, herr, _⟩
  · rw [hdelivered] at hmem
    revert hmem
    decide
  · rw [hreported] at herr
    cases herr

/-- The run delivers across the handover, and at its end the dropped row is covered by an error
that was reported. -/
theorem dropping_handover_complete :
  delivered (runLog .dropping .fromStart (some 1) 2) = [1, 3, 4] ∧
    (2 ∈ delivered (runLog .dropping .fromStart (some 1) 2) ∨
      (∃ err ∈ reported (runLog .dropping .fromStart (some 1) 2), upTo4.covers err 2) ∨
      ∃ err, Outstanding (runLog .dropping .fromStart (some 1) 2) err ∧ upTo4.covers err 2)
  := by
  have hdelivered : delivered (runLog .dropping .fromStart (some 1) 2) = [1, 3, 4] := by
    decide +kernel
  refine ⟨hdelivered, ?_⟩
  have hcomplete := handover_complete .dropping .fromStart rfl dropping_archive dropping_live
    (List.prefix_refl (runLog .dropping .fromStart (some 1) 2))
  refine hcomplete.2.2 2 (by simp [Wanted, upTo4]) (by decide) ?_
  rw [hdelivered]
  decide

end Feed

end Shrike.Jetstream
