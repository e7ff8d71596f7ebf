import Shrike.Jetstream.Order

/-!
# The production archive source

The archive source that plans and downloads over HTTP, for a server that answers anything: the
rows of the blocks that it sends are filtered and converted, clipped to the snapshot window,
and handed to the engine in chunks.
-/

namespace Shrike.Jetstream

open Except Act

variable {ρ E ε : Type}

/-- Rows that passed the filter: the ones that converted, and the errors of the others. -/
structure Decoded (E ε : Type) where
  events : List E
  dropped : List (Error ε)

/-- No rows. -/
def Decoded.default : Decoded E ε where
  events := []
  dropped := []

/-- How rows are filtered on their raw columns and converted to events. -/
structure RowDecoder (ρ E ε : Type) where
  matchesSegment : ρ → Bool
  convert : ρ → Except (Error ε) E

/-- What the server answers, at each point of time: plan requests, the blocks of a whole
segment once its structure is validated, and single blocks. Cancellation is polled before
each chunk. -/
structure Server (ρ ε : Type) where
  plan : ℕ → PlanInput → Except (Error ε) (Option RawPlan)
  whole : ℕ → PlanSegment → Except (Error ε) (List (List ρ))
  block : ℕ → PlanSegment → ℕ → Except (Error ε) (List ρ)
  cancelled : ℕ → ℕ → Bool
  maxPlanSegments : ℕ

/-- Filter and convert one row. -/
def convertSelectedRow (decoder : RowDecoder ρ E ε) (out : Decoded E ε) (row : ρ) : Decoded E ε :=
  if decoder.matchesSegment row then
    match decoder.convert row with
    | .ok event => { out with events := out.events ++ [event] }
    | .error err => { out with dropped := out.dropped ++ [err] }
  else out

/-- Convert the rows of a block into chunks, after the rows in `out`. -/
def convertRows (decoder : RowDecoder ρ E ε) (batchSize : ℕ) : List ρ → Decoded E ε →
    List (Decoded E ε)
  | [], out => if out.events.isEmpty && out.dropped.isEmpty then [] else [out]
  | row :: rows, out =>
      let out := convertSelectedRow decoder out row
      if out.events.length = batchSize then out :: convertRows decoder batchSize rows .default
      else convertRows decoder batchSize rows out

/-- Convert a block into chunks of at most a batch. -/
def convertValidatedBlock (decoder : RowDecoder ρ E ε) (maxBatch : ℕ) (rows : List ρ) :
    List (Decoded E ε) :=
  convertRows decoder (min (max maxBatch 1) (max rows.length 1)) rows .default

variable [Sequenced E]

/-- Apply the snapshot window to the events of a chunk. -/
def window (decoded : Decoded E ε) (after before : ℕ) : DownloadedSegment E ε where
  events := decoded.events.filter fun event =>
    decide (after < sequence event) && decide (sequence event ≤ before)
  dropped := decoded.dropped
  failure := none

/-- The chunks of an entry, windowed: valid events first, then the errors of all rows, then
the failure. -/
def windowedChunks (cancelled : ℕ → Bool) (after before : ℕ) :
    ℕ → List (Error ε) → List (Except (Error ε) (Decoded E ε)) → ArchiveStream E ε
  | i, dropped, [] =>
      if cancelled i then [.error .canceled]
      else if dropped.isEmpty then []
      else [.ok { events := [], dropped, failure := none }]
  | i, dropped, .ok decoded :: chunks =>
      if cancelled i then [.error .canceled]
      else
        .ok (window { decoded with dropped := [] } after before) ::
          windowedChunks cancelled after before (i + 1) (dropped ++ decoded.dropped) chunks
  | i, dropped, .error err :: _ =>
      if cancelled i then [.error .canceled]
      else
        match err with
        | .canceled => [.error .canceled]
        | err => [.ok { events := [], dropped, failure := some err }]

/-- The block indices of some ranges. -/
def blockIndices (spans : List BlockSpan) : List ℕ :=
  spans.flatMap fun span => List.range' span.first (span.last + 1 - span.first)

/-- Prepare an entry of a plan page. -/
def prepareSegment (server : Server ρ ε) (decoder : RowDecoder ρ E ε) (maxBatch t : ℕ)
    (segment : PlanSegment) (after before : ℕ) : Except (Error ε) (ArchiveStream E ε) :=
  match segment.mode with
  | .whole => do
      let blocks ← server.whole t segment
      let chunks := blocks.flatMap fun rows =>
        (convertValidatedBlock decoder maxBatch rows).map Except.ok
      if server.cancelled t 0 then .error .canceled
      else .ok (windowedChunks (server.cancelled t) after before 1 [] chunks)
  | .blocks spans =>
      let chunks := (blockIndices spans).flatMap fun idx =>
        match server.block t segment idx with
        | .ok rows => (convertValidatedBlock decoder maxBatch rows).map Except.ok
        | .error err => [.error err]
      .ok (windowedChunks (server.cancelled t) after before 1 [] chunks)

/-- The environment of an engine with the production archive source. What is not about the
archive is as in `env`. -/
def clientArchive (server : Server ρ ε) (decoder : RowDecoder ρ E ε) (maxBatch : ℕ)
    (env : Environment E ε) : Environment E ε :=
  { env with
    planPage := fun t bounds => planPage (server.cancelled t 0) server.maxPlanSegments (server.plan t) bounds
    prepare := fun t segment after before =>
      prepareSegment server decoder maxBatch t segment after before }

/-! ### The window -/

/-- The events of the windowed chunks of an entry lie in the window. -/
theorem windowedChunks_yields (cancelled : ℕ → Bool) (after before : ℕ) :
  ∀ (i : ℕ) (dropped : List (Error ε)) (chunks : List (Except (Error ε) (Decoded E ε))),
    Yields (fun e => sequence e ≤ before) (windowedChunks cancelled after before i dropped chunks)
  | i, dropped, [] => by
      rw [windowedChunks]
      intro downloaded hmem e he
      split at hmem
      · simp at hmem
      · split at hmem
        · cases hmem
        · obtain rfl := Except.ok.inj (List.mem_singleton.mp hmem)
          cases he
  | i, dropped, .ok decoded :: chunks => by
      rw [windowedChunks]
      intro downloaded hmem e he
      split at hmem
      · simp at hmem
      · rcases List.mem_cons.mp hmem with hmem | hmem
        · obtain rfl := Except.ok.inj hmem
          have hwindow := (List.mem_filter.mp he).2
          rw [Bool.and_eq_true, decide_eq_true_eq, decide_eq_true_eq] at hwindow
          exact hwindow.2
        · exact windowedChunks_yields cancelled after before (i + 1) _ chunks downloaded hmem e he
  | i, dropped, .error err :: _ => by
      unfold windowedChunks
      intro downloaded hmem e he
      split at hmem
      · simp at hmem
      · split at hmem
        · simp at hmem
        · obtain rfl := Except.ok.inj (List.mem_singleton.mp hmem)
          cases he

/-- Every event that the production archive source returns is at most the upper end of the
window that it was asked for. -/
theorem clientArchive_supplies (server : Server ρ ε) (decoder : RowDecoder ρ E ε) (maxBatch : ℕ)
    (env : Environment E ε) (after before : ℕ) :
  Supplies (clientArchive server decoder maxBatch env) (fun e => sequence e ≤ before) after before
  := by
  intro t segment chunks hchunks
  dsimp only [clientArchive, prepareSegment] at hchunks
  split at hchunks
  · rw [bind_eq_ok] at hchunks
    obtain ⟨blocks, -, hchunks⟩ := hchunks
    split at hchunks
    · cases hchunks
    · cases hchunks
      exact windowedChunks_yields _ after before 1 [] _
  · cases hchunks
    exact windowedChunks_yields _ after before 1 [] _

/-- A run that only takes a snapshot never reaches the live phase: its archive phase is its
only one. -/
theorem snapshot_cycles {P : E → Prop} {T : ℕ → Prop} {start maxPlanPages fuel : ℕ} {prev : Progress}
    (env : Environment E ε) (config : EngineConfig E ε) (hsnapshot : config.snapshotOnly = true)
    (hsupplies : ∀ after tip, T tip → Supplies env P after tip) :
  Triple (fun s => OnLog (Orderly P start) s ∧ s.lastProcessedSeq ≤ config.afterSeq ∧
      Tips env T (PlanSweep.new config.afterSeq config.beforeSeq maxPlanPages) (s.clock + 2))
    (cycles env config (some maxPlanPages) fuel config.afterSeq prev)
    fun _ => OnLog (Orderly P start)
  := by
  cases fuel with
  | zero => exact Triple.pure fun _ h => h.1
  | succ fuel =>
      rw [cycles]
      refine Triple.bind (Q := fun _ s => OnLog (Orderly P start) s ∧
          s.lastProcessedSeq ≤ config.afterSeq ∧
          Tips env T (PlanSweep.new config.afterSeq config.beforeSeq maxPlanPages) (s.clock + 1))
        (fun _ h => h) fun cancelled => ?_
      refine Triple.ite (fun _ => Triple.pure fun _ h => h.1) fun _ => ?_
      have hphase : Triple (fun s => OnLog (Orderly P start) s ∧
            s.lastProcessedSeq ≤ config.afterSeq ∧
            Tips env T (PlanSweep.new config.afterSeq config.beforeSeq maxPlanPages) (s.clock + 1))
          (archivePhase env config (some maxPlanPages) config.afterSeq)
          fun left s => (∀ u, left ≠ .next u) ∧ OnLog (Orderly P start) s := by
        refine Triple.bind (replaySweep_orderly env hsupplies) fun left => ?_
        split
        · exact Triple.pure fun _ h => ⟨fun _ hne => (by cases hne), h⟩
        · exact Triple.pure fun _ h => ⟨fun _ hne => (by cases hne), h⟩
        · rw [if_pos hsnapshot]
          exact Triple.pure fun _ h => ⟨fun _ hne => (by cases hne), h⟩
      refine Triple.bind_of hphase fun left hleft => ?_
      split
      · exact Triple.pure fun _ h => h
      · exact Triple.pure fun _ h => h
      · exact absurd rfl (hleft ())

/-- In every run over the production archive source that only takes a snapshot of the window
above `afterSeq` up to `before`, and whose first plan page, if it is accepted, reports a
sealed tip of at most `before`, every delivered event lies in the window. The run asks for
that page at time 2, after polling for cancellation twice. -/
theorem snapshot_window (server : Server ρ ε) (decoder : RowDecoder ρ E ε)
    (env : Environment E ε) (config : EngineConfig E ε) (before maxPlanPages fuel : ℕ)
    (hsnapshot : config.snapshotOnly = true) (hbefore : config.beforeSeq = some before)
    (htip : ∀ page,
      planPage (server.cancelled 2 0) server.maxPlanSegments (server.plan 2)
        { after := config.afterSeq, before := some before, pinnedTip := none } = .ok page →
      page.sealedTipSeq ≤ before) :
  ∀ e ∈ delivered (runLog (clientArchive server decoder config.live.maxBatch env) config
      (some maxPlanPages) fuel),
    config.afterSeq < sequence e ∧ sequence e ≤ before
  := by
  set client := clientArchive server decoder config.live.maxBatch env with hclient
  have hstart : OnLog (Orderly (fun e => sequence e ≤ before) config.afterSeq) config.start :=
    Orderly.nil _ config.afterSeq
  have hrun : Triple (fun s => s = config.start) (engineRun client config (some maxPlanPages) fuel)
      fun _ => OnLog (Orderly (fun e => sequence e ≤ before) config.afterSeq) := by
    rw [engineRun]
    split
    · exact Triple.pure fun s hs => hs ▸ hstart
    · refine Triple.ite (fun _ => Triple.pure fun s hs => hs ▸ hstart) fun _ => ?_
      refine (snapshot_cycles (T := fun tip => tip ≤ before) client config hsnapshot ?_).strengthen ?_
      · intro after tip htip t segment chunks hchunks downloaded hmem e he
        have := clientArchive_supplies server decoder config.live.maxBatch env after tip t segment
          chunks hchunks downloaded hmem e he
        exact le_trans this htip
      · rintro s rfl
        refine ⟨hstart, le_rfl, ?_⟩
        intro page absorbed hpage habsorbed
        rw [PlanSweep.tip, (PlanSweep.absorb_ok habsorbed).2.1]
        rw [hbefore] at hpage
        exact htip page hpage
  intro e he
  have h := hrun config.start rfl
  exact ⟨(h.ordered _ (List.prefix_refl _)).above e he, h.held e he⟩

/-! ### A server that ignores the upper bound -/

attribute [local instance] Sequenced.numbers

/-- A server whose plan pages report the sealed tip `tip`, whatever the upper bound of the
request is, and whose only segment has one row. -/
def Server.boundless (tip : ℤ) (row : ℕ) : Server ℕ Unit where
  plan := fun _ _ => .ok (some
    { sealedTipSeq := tip
      plannedThroughSeq := tip
      segments := [{ name := "s0.jss", index := 0, minSeq := 1, maxSeq := 10,
                     checksum := "0123456789abcdef", mode := "segment", blocks := [] }] })
  whole := fun _ _ => .ok [[row]]
  block := fun _ _ _ => .ok []
  cancelled := fun _ _ => false
  maxPlanSegments := 1

/-- Every row is selected. -/
def RowDecoder.numbers : RowDecoder ℕ ℕ Unit where
  matchesSegment := fun _ => true
  convert := fun n => .ok n

/-- An environment without live server, with a consumer that always wants more. -/
def Environment.quiet : Environment ℕ Unit where
  cancelled := fun _ => false
  planPage := fun _ _ => .error .canceled
  prepare := fun _ _ _ _ => .error .canceled
  accepts := fun _ => true
  dictionary := fun _ => none
  dial := fun _ _ _ => .cancelled
  slept := fun _ => true

/-- The configuration of a snapshot of the sequences up to 5. -/
def EngineConfig.upTo5 : EngineConfig ℕ Unit where
  afterSeq := 0
  beforeSeq := some 5
  snapshotOnly := true
  maxRebackfillStalls := 5
  live :=
    { hostCheck := .ok ()
      filterCheck := .ok ()
      admits := fun _ => true
      cursor := .tip
      compression := true
      readLimit := 1
      maxBatch := 64 }

/-- A row above the upper bound of the snapshot is delivered if the server reports a sealed tip
above that bound. -/
theorem snapshot_window_exceeded :
  ¬∀ (server : Server ℕ Unit) (config : EngineConfig ℕ Unit) (before fuel : ℕ),
    config.snapshotOnly = true → config.beforeSeq = some before →
    ∀ e ∈ delivered (runLog (clientArchive server .numbers config.live.maxBatch .quiet) config
      (some 1) fuel),
      config.afterSeq < sequence e ∧ sequence e ≤ before
  := by
  intro h
  have hmem : 7 ∈ delivered (runLog (clientArchive (.boundless 10 7) .numbers 64 .quiet) .upTo5
      (some 1) 1) := by
    decide +kernel
  have hle : (7 : ℕ) ≤ 5 := (h (.boundless 10 7) .upTo5 5 1 rfl rfl 7 hmem).2
  omega

/-- A run whose first plan page keeps to the upper bound delivers a row below it. -/
theorem bounded_snapshot_window :
  delivered (runLog (clientArchive (.boundless 5 3) .numbers 64 .quiet) .upTo5 (some 1) 1) = [3] ∧
    ∀ e ∈ delivered (runLog (clientArchive (.boundless 5 3) .numbers 64 .quiet) .upTo5 (some 1) 1),
      0 < e ∧ e ≤ 5
  := by
  refine ⟨by decide +kernel, ?_⟩
  refine snapshot_window (.boundless 5 3) .numbers .quiet .upTo5 5 1 1 rfl rfl fun page hpage => ?_
  have htip : (planPage false 1 ((Server.boundless 5 3).plan 2)
      { after := 0, before := some 5, pinnedTip := none } : Except (Error Unit) PlanPage).map
      PlanPage.sealedTipSeq = .ok 5 := by
    decide +kernel
  have hpage' := congrArg (Except.map PlanPage.sealedTipSeq) hpage
  exact (Except.ok.inj (hpage'.symm.trans htip)).le

end Shrike.Jetstream
