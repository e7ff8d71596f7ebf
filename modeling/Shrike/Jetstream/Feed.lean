import Shrike.Jetstream.Order

/-!
# Complete deliveries

One fixed log of events, an archive source and a live server that are faithful to it, and
what it means that a run has lost nothing: up to the last delivered sequence, every event of
the log that passes the filter was delivered or is covered by an error.
-/

namespace Shrike.Jetstream

variable {E ε : Type}

/-! ### Faithful sources -/

/-- The events that an entry yields until it ends. -/
def yielded : ArchiveStream E ε → List E
  | [] => []
  | .error _ :: _ => []
  | .ok downloaded :: chunks =>
      downloaded.events ++
        match downloaded.failure with
        | some _ => []
        | none => yielded chunks

/-- The errors that an entry carries until it ends. -/
def carried : ArchiveStream E ε → List (Error ε)
  | [] => []
  | .error err :: _ => [err]
  | .ok downloaded :: chunks =>
      downloaded.dropped ++
        match downloaded.failure with
        | some failure => [failure]
        | none => carried chunks

variable [Sequenced E]

/-- A log of events, the events that pass the filter, and the events that an error stands
for. -/
structure Feed (E ε : Type) [Sequenced E] where
  mem : E → Prop
  unique : ∀ e e', mem e → mem e' → sequence e = sequence e' → e = e'
  admits : E → Bool
  covers : Error ε → E → Prop

namespace Feed

variable (feed : Feed E ε)

/-- The events of the log that pass the filter. -/
def Wanted (e : E) : Prop := feed.mem e ∧ feed.admits e = true

/-- The entry yields rows of the segment in order, and every row that it does not yield is
covered by an error that it carries. -/
structure FaithfulStream (rows : List E) (chunks : ArchiveStream E ε) : Prop where
  sublist : (yielded chunks).Sublist rows
  covered : ∀ e ∈ rows, e ∈ yielded chunks ∨ ∃ err ∈ carried chunks, feed.covers err e

/-- The rows of a page are, in order, the wanted events above its floor up to some sequence
that is not below its coverage. -/
structure FaithfulPage (after plannedThrough : ℕ) (rows : List E) : Prop where
  ascending : Ascending rows
  sound : ∀ e ∈ rows, feed.Wanted e ∧ after < sequence e
  covers : ∀ e, feed.Wanted e → after < sequence e → sequence e ≤ plannedThrough → e ∈ rows
  gapless : ∀ e ∈ rows, ∀ e', feed.Wanted e' → after < sequence e' → sequence e' ≤ sequence e →
    e' ∈ rows

/-- An archive source that is faithful to the log. `holds` gives the rows of a segment in a
window. -/
structure FaithfulArchive (holds : PlanSegment → ℕ → ℕ → List E) (env : Environment E ε) : Prop where
  page : ∀ t bounds page, env.planPage t bounds = .ok page →
    feed.FaithfulPage bounds.after page.plannedThroughSeq
      (page.segments.flatMap fun segment => holds segment bounds.after page.sealedTipSeq)
  stream : ∀ t segment after before chunks, env.prepare t segment after before = .ok chunks →
    feed.FaithfulStream (holds segment after before) chunks
  failed : ∀ t segment after before err, env.prepare t segment after before = .error err →
    ∀ e ∈ holds segment after before, feed.covers err e

/-- What a connection yields that was resumed at a cursor: whenever it yields an event, that
is one of the log, and every wanted event from the cursor on that comes before it was yielded
already, or a malformed frame in its place. -/
def FaithfulReads (cursor : ℤ) (reads : List (ReadStep E ε)) : Prop :=
  ∀ before event after, reads = before ++ .message (.event event) :: after →
    feed.mem event ∧
      ∀ e, feed.Wanted e → cursor ≤ sequence e → sequence e < sequence event →
        .message (.event e) ∈ before ∨
          ∃ err, .message (.recoverable err) ∈ before ∧ feed.covers err e

/-- A live server that is faithful to the log. -/
def FaithfulLive (env : Environment E ε) : Prop :=
  ∀ t cursor dict reads, env.dial t (some cursor) dict = .connected reads →
    feed.FaithfulReads cursor reads

end Feed

/-! ### Complete logs -/

/-- The error that an item reports. -/
def Item.reported : Item E ε → Option (Error ε)
  | .recoverable err => some err
  | _ => none

/-- The entry that an item opens. -/
def Item.entry : Item E ε → Option (ArchiveStream E ε)
  | .opened chunks => some chunks
  | _ => none

/-- The errors that were reported. -/
def reported (log : List (Moment E ε)) : List (Error ε) := log.filterMap (·.item.reported)

/-- The archive entry that was opened last. -/
def lastEntry (log : List (Moment E ε)) : Option (ArchiveStream E ε) :=
  (log.filterMap (·.item.entry)).getLast?

/-- An error is outstanding: the entry that was opened last yielded the event that was
delivered last, and carries the error. -/
def Outstanding (log : List (Moment E ε)) (err : Error ε) : Prop :=
  ∃ chunks, lastEntry log = some chunks ∧ err ∈ carried chunks ∧
    ∃ last, (delivered log).getLast? = some last ∧ last ∈ yielded chunks

omit [Sequenced E] in
@[simp]
theorem reported_concat (log : List (Moment E ε)) (moment : Moment E ε) :
  reported (log ++ [moment]) = reported log ++ moment.item.reported.toList
  := by
  rw [reported, List.filterMap_append, reported]
  cases h : moment.item.reported with
  | none => simp [h]
  | some err => simp [h]

omit [Sequenced E] in
theorem lastEntry_opened (log : List (Moment E ε)) (chunks : ArchiveStream E ε) (processed : ℕ) :
  lastEntry (log ++ [⟨.opened chunks, processed⟩]) = some chunks
  := by
  rw [lastEntry, List.filterMap_append]
  simp [Item.entry]

omit [Sequenced E] in
theorem lastEntry_concat {log : List (Moment E ε)} {moment : Moment E ε}
    (h : moment.item.entry = none) :
  lastEntry (log ++ [moment]) = lastEntry log
  := by
  rw [lastEntry, List.filterMap_append, lastEntry]
  simp [h]

namespace Feed

variable (feed : Feed E ε)

/-- An event was delivered, or an error that covers it was reported. -/
def Covered (log : List (Moment E ε)) (e : E) : Prop :=
  e ∈ delivered log ∨ ∃ err ∈ reported log, feed.covers err e

/-- What holds of a log: the delivered events are wanted, and every wanted event above `start`
up to the last delivered sequence was delivered, or is covered by an error that was reported
or is outstanding. -/
structure Complete (start : ℕ) (log : List (Moment E ε)) : Prop where
  sound : ∀ e ∈ delivered log, feed.Wanted e
  complete : ∀ e, feed.Wanted e → start < sequence e →
    sequence e ≤ highest start (delivered log) →
    feed.Covered log e ∨ ∃ err, Outstanding log err ∧ feed.covers err e

variable {feed} {start : ℕ} {log : List (Moment E ε)}

/-- What was covered stays covered. -/
theorem Covered.concat {e : E} (h : feed.Covered log e) (moment : Moment E ε) :
  feed.Covered (log ++ [moment]) e
  := by
  rcases h with h | ⟨err, herr, hcovers⟩
  · left
    rw [delivered_append]
    exact List.mem_append_left _ h
  · right
    refine ⟨err, ?_, hcovers⟩
    rw [reported_concat]
    exact List.mem_append_left _ herr

variable {n processed : ℕ}

/-- A reported error covers. -/
theorem Covered.report {e : E} {err : Error ε} (h : feed.covers err e) :
  feed.Covered (log ++ [⟨.recoverable err, processed⟩]) e
  := by
  right
  refine ⟨err, ?_, h⟩
  rw [reported_concat]
  exact List.mem_append_right _ (List.mem_singleton_self err)

/-- A delivered event is covered. -/
theorem Covered.deliver {e : E} {events : List E} (h : e ∈ events) :
  feed.Covered (log ++ [⟨.batch events, processed⟩]) e
  := by
  left
  rw [delivered_append, delivered_singleton]
  exact List.mem_append_right _ h

variable (feed) in
/-- Every part of a log up to some moment is complete. -/
def Throughout (start : ℕ) (log : List (Moment E ε)) : Prop :=
  ∀ log', log' <+: log → feed.Complete start log'

/-- The start of a run. -/
theorem Throughout.nil (start : ℕ) :
  feed.Throughout start ([] : List (Moment E ε))
  := by
  intro log' hlog'
  rw [List.prefix_nil.mp hlog']
  refine ⟨fun _ he => (by cases he), fun e _ hstart hle => ?_⟩
  exact absurd (lt_of_lt_of_le hstart hle) (lt_irrefl start)

/-- One more moment. -/
theorem Throughout.concat {moment : Moment E ε} (h : feed.Throughout start log)
    (hmoment : feed.Complete start (log ++ [moment])) :
  feed.Throughout start (log ++ [moment])
  := by
  intro log' hlog'
  rcases List.prefix_concat_iff.mp hlog' with rfl | hlog'
  · exact hmoment
  · exact h log' hlog'

/-- An item that neither delivers nor opens an entry keeps a log complete. -/
theorem Throughout.silent {item : Item E ε} (h : feed.Throughout start log)
    (hevents : item.events = []) (hentry : item.entry = none) :
  feed.Throughout start (log ++ [⟨item, processed⟩])
  := by
  have hlog := h log (List.prefix_refl log)
  have hdelivered : delivered (log ++ [⟨item, processed⟩]) = delivered log := by
    rw [delivered_append, delivered_singleton, hevents, List.append_nil]
  refine h.concat ⟨?_, ?_⟩
  · rw [hdelivered]
    exact hlog.sound
  · rw [hdelivered]
    unfold Outstanding
    rw [hdelivered, lastEntry_concat hentry]
    intro e hwanted hstart hle
    exact (hlog.complete e hwanted hstart hle).imp_left fun h => h.concat _

/-- The last delivered sequence is the one of some delivered event, unless nothing above
`start` was delivered. -/
theorem exists_highest {events : List E} (hn : start < n) (hle : n ≤ highest start events) :
  ∃ last ∈ events, n ≤ sequence last
  := by
  cases events using List.reverseRecOn with
  | nil =>
      rw [highest_nil] at hle
      omega
  | append_singleton events last =>
      rw [highest_concat] at hle
      exact ⟨last, by simp, by omega⟩

/-! ### What is settled -/

variable (feed) in
/-- The set `F` of events is settled: every wanted event in it was delivered or is covered by
a reported error, and nothing else was delivered. -/
structure Settled (start : ℕ) (F : E → Prop) (log : List (Moment E ε)) : Prop where
  throughout : feed.Throughout start log
  covered : ∀ e, feed.Wanted e → start < sequence e → F e → feed.Covered log e
  only : ∀ e ∈ delivered log, F e

variable (feed) in
/-- A set of events that with an event has all wanted events before it. -/
def Initial (F : E → Prop) : Prop :=
  ∀ d e, F d → feed.Wanted e → sequence e ≤ sequence d → F e

/-- An item that neither delivers nor opens an entry keeps what is settled. -/
theorem Settled.silent {F : E → Prop} {item : Item E ε}
    (h : feed.Settled start F log) (hevents : item.events = []) (hentry : item.entry = none) :
  feed.Settled start F (log ++ [⟨item, processed⟩]) where
  throughout := h.throughout.silent hevents hentry
  covered := fun e hwanted hstart hF => (h.covered e hwanted hstart hF).concat _
  only := fun e he => by
    rw [delivered_append, delivered_singleton, hevents, List.append_nil] at he
    exact h.only e he

/-- Opening an entry keeps what is settled. -/
theorem Settled.opened {F : E → Prop} {chunks : ArchiveStream E ε}
    (h : feed.Settled start F log) (hF : feed.Initial F) :
  feed.Settled start F (log ++ [⟨.opened chunks, processed⟩])
  := by
  have hlog := h.throughout log (List.prefix_refl log)
  have hdelivered : delivered (log ++ [⟨.opened chunks, processed⟩]) = delivered log := by
    rw [delivered_append, delivered_singleton]
    exact List.append_nil _
  refine ⟨h.throughout.concat ⟨?_, ?_⟩, ?_, ?_⟩
  · rw [hdelivered]
    exact hlog.sound
  · rw [hdelivered]
    intro e hwanted hstart hle
    obtain ⟨last, hlast, hle⟩ := exists_highest hstart hle
    left
    exact (h.covered e hwanted hstart (hF last e (h.only last hlast) hwanted hle)).concat _
  · exact fun e hwanted hstart hFe => (h.covered e hwanted hstart hFe).concat _
  · rw [hdelivered]
    exact h.only

end Feed

end Shrike.Jetstream
