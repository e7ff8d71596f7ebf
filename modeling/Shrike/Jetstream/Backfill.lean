import Shrike.Jetstream.Feed

/-!
# Complete archive sweeps

With an archive source that is faithful to a log of events, a sweep of the archive leaves no
event of its window behind that is neither delivered nor covered by a reported error.
-/

namespace Shrike.Jetstream

open Act

variable {E ε : Type} [Sequenced E]

/-- A property of the log, as one of the state. -/
def AtLog (I : List (Moment E ε) → Prop) (s : State E ε) : Prop := I s.log

namespace Feed

variable (feed : Feed E ε)

/-! ### An archive entry -/

/-- An entry with rows `rows` in a replay that has settled `F`. -/
structure Entry (F : E → Prop) (after : ℕ) (rows : List E) (chunks : ArchiveStream E ε) : Prop where
  initial : feed.Initial F
  settled : ∀ e, sequence e ≤ after → F e
  stream : feed.FaithfulStream rows chunks
  ascending : Ascending rows
  wanted : ∀ e ∈ rows, feed.Wanted e
  gapless : ∀ d ∈ rows, ∀ e, feed.Wanted e → sequence e ≤ sequence d → F e ∨ e ∈ rows

/-- The replay of an entry that has taken over the events `taken` and reported the errors
`errs`, with the floor `floor` and the pending batch `buf`. -/
structure Replaying (start : ℕ) (F : E → Prop) (chunks : ArchiveStream E ε) (taken : List E)
    (errs : List (Error ε)) (floor : ℕ) (buf : List E) (log : List (Moment E ε)) : Prop where
  throughout : feed.Throughout start log
  covered : ∀ e, feed.Wanted e → start < sequence e → F e → feed.Covered log e
  kept : ∀ e ∈ taken, e ∈ delivered log ∨ e ∈ buf ∨ F e
  only : ∀ e, e ∈ delivered log ∨ e ∈ buf → F e ∨ e ∈ taken
  floor_kept : ∀ e, feed.Wanted e → sequence e = floor → F e ∨ e ∈ delivered log ∨ e ∈ buf
  wanted : ∀ e ∈ buf, feed.Wanted e
  taken_of_buf : ∀ e ∈ buf, e ∈ taken
  entry : lastEntry log = some chunks
  reported : ∀ err ∈ errs, err ∈ reported log

variable {feed} {start after floor : ℕ} {F : E → Prop} {rows taken buf : List E}
  {chunks : ArchiveStream E ε} {errs : List (Error ε)} {log : List (Moment E ε)}

namespace Replaying

variable {d e event : E} {processed : ℕ}

/-- An entry is opened. -/
theorem opened (h : feed.Settled start F log) (hF : feed.Initial F)
    (hfloor : ∀ e, feed.Wanted e → sequence e = floor → F e) :
  feed.Replaying start F chunks [] [] floor [] (log ++ [⟨.opened chunks, processed⟩])
  := by
  have hopened : feed.Settled start F (log ++ [⟨.opened chunks, processed⟩]) := h.opened hF
  refine ⟨hopened.throughout, hopened.covered, ?_, ?_, ?_, ?_, ?_, lastEntry_opened .., ?_⟩
  · exact fun _ he => (by cases he)
  · rintro e (he | he)
    · exact .inl (hopened.only e he)
    · cases he
  · exact fun e hwanted hseq => .inl (hfloor e hwanted hseq)
  · exact fun _ he => (by cases he)
  · exact fun _ he => (by cases he)
  · exact fun _ he => (by cases he)

/-- An error is reported. -/
theorem report {err : Error ε} (h : feed.Replaying start F chunks taken errs floor buf log) :
  feed.Replaying start F chunks taken (errs ++ [err]) floor buf
    (log ++ [⟨.recoverable err, processed⟩])
  := by
  have hdelivered : delivered (log ++ [⟨.recoverable err, processed⟩]) = delivered log := by
    rw [delivered_append, delivered_singleton]
    exact List.append_nil _
  refine ⟨h.throughout.silent rfl rfl, ?_, ?_, ?_, ?_, h.wanted, h.taken_of_buf, ?_, ?_⟩
  · exact fun e hwanted hstart hF => (h.covered e hwanted hstart hF).concat _
  · rw [hdelivered]
    exact h.kept
  · rw [hdelivered]
    exact h.only
  · rw [hdelivered]
    exact h.floor_kept
  · rw [lastEntry_concat rfl]
    exact h.entry
  · intro err' herr'
    rw [reported_concat]
    rcases List.mem_append.mp herr' with herr' | herr'
    · exact List.mem_append_left _ (h.reported err' herr')
    · exact List.mem_append_right _ herr'

/-- An event that the floor or what is settled already accounts for is skipped. -/
theorem skip (h : feed.Replaying start F chunks taken errs floor buf log)
    (hevent : F event ∨ event ∈ delivered log ∨ event ∈ buf) :
  feed.Replaying start F chunks (taken ++ [event]) errs floor buf log
  := { h with
    kept := fun e he => by
      rcases List.mem_append.mp he with he | he
      · exact h.kept e he
      · rw [List.mem_singleton.mp he]
        rcases hevent with hevent | hevent | hevent
        · exact .inr (.inr hevent)
        · exact .inl hevent
        · exact .inr (.inl hevent)
    only := fun e he => (h.only e he).imp_right (List.mem_append_left _)
    taken_of_buf := fun e he => List.mem_append_left _ (h.taken_of_buf e he) }

/-- An event becomes pending. -/
theorem push (h : feed.Replaying start F chunks taken errs floor buf log)
    (hevent : feed.Wanted event) :
  feed.Replaying start F chunks (taken ++ [event]) errs (sequence event) (buf ++ [event]) log
  := { h with
    kept := fun e he => by
      rcases List.mem_append.mp he with he | he
      · rcases h.kept e he with he | he | he
        · exact .inl he
        · exact .inr (.inl (List.mem_append_left _ he))
        · exact .inr (.inr he)
      · exact .inr (.inl (List.mem_append_right _ he))
    only := fun e he => by
      rcases he with he | he
      · exact (h.only e (.inl he)).imp_right (List.mem_append_left _)
      · rcases List.mem_append.mp he with he | he
        · exact (h.only e (.inr he)).imp_right (List.mem_append_left _)
        · exact .inr (List.mem_append_right _ he)
    floor_kept := fun e hwanted hseq => by
      obtain rfl := feed.unique e event hwanted.1 hevent.1 hseq
      exact .inr (.inr (by simp))
    wanted := fun e he => by
      rcases List.mem_append.mp he with he | he
      · exact h.wanted e he
      · rw [List.mem_singleton.mp he]
        exact hevent
    taken_of_buf := fun e he => by
      rcases List.mem_append.mp he with he | he
      · exact List.mem_append_left _ (h.taken_of_buf e he)
      · exact List.mem_append_right _ he }

/-- Up to the last event that was taken over, every wanted event is accounted for or covered
by an error that the entry carries. -/
theorem complete (h : feed.Replaying start F chunks taken errs floor buf log)
    (hentry : feed.Entry F after rows chunks) (htaken : taken <+: yielded chunks)
    (hd : d ∈ delivered log ∨ d ∈ buf) (hwanted : feed.Wanted e) (hle : sequence e ≤ sequence d) :
  F e ∨ e ∈ delivered log ∨ e ∈ buf ∨ ∃ err ∈ carried chunks, feed.covers err e
  := by
  rcases h.only d hd with hd | hd
  · exact .inl (hentry.initial d e hd hwanted hle)
  · have hyielded := htaken.subset hd
    rcases hentry.gapless d (hentry.stream.sublist.subset hyielded) e hwanted hle with he | he
    · exact .inl he
    · rcases hentry.stream.covered e he with he | he
      · have hmem : e ∈ taken := by
          obtain ⟨rest, hrest⟩ := htaken
          have hascending : Ascending (taken ++ rest) := by
            rw [hrest]
            exact hentry.ascending.sublist hentry.stream.sublist
          rw [← hrest] at he
          rcases List.mem_append.mp he with he | he
          · exact he
          · have := (List.pairwise_append.mp hascending).2.2 d hd e he
            omega
        rcases h.kept e hmem with he | he | he
        · exact .inr (.inl he)
        · exact .inr (.inr (.inl he))
        · exact .inl he
      · exact .inr (.inr (.inr he))

/-- The pending batch is delivered. -/
theorem flush (h : feed.Replaying start F chunks taken errs floor buf log)
    (hentry : feed.Entry F after rows chunks) (htaken : taken <+: yielded chunks) (hbuf : buf ≠ []) :
  feed.Replaying start F chunks taken errs floor [] (log ++ [⟨.batch buf, processed⟩])
  := by
  have hdelivered : delivered (log ++ [⟨.batch buf, processed⟩]) = delivered log ++ buf := by
    rw [delivered_append, delivered_singleton]
    rfl
  have hlast : lastEntry (log ++ [⟨.batch buf, processed⟩]) = some chunks := by
    rw [lastEntry_concat rfl, h.entry]
  have hyielded : buf.getLast hbuf ∈ yielded chunks :=
    htaken.subset (h.taken_of_buf _ (List.getLast_mem hbuf))
  have houtstanding : ∀ err ∈ carried chunks,
      Outstanding (log ++ [⟨.batch buf, processed⟩]) err := by
    intro err herr
    refine ⟨chunks, hlast, herr, buf.getLast hbuf, ?_, hyielded⟩
    rw [hdelivered, List.getLast?_append_of_ne_nil _ hbuf, List.getLast?_eq_some_getLast hbuf]
  have hlog := h.throughout log (List.prefix_refl log)
  refine ⟨h.throughout.concat ⟨?_, ?_⟩, ?_, ?_, ?_, ?_, ?_, ?_, hlast, ?_⟩
  · rw [hdelivered]
    intro e he
    rcases List.mem_append.mp he with he | he
    · exact hlog.sound e he
    · exact h.wanted e he
  · rw [hdelivered]
    intro e hwanted hstart hle
    obtain ⟨d, hd, hle⟩ := exists_highest hstart hle
    rcases h.complete hentry htaken (List.mem_append.mp hd) hwanted hle with
      he | he | he | ⟨err, herr, hcovers⟩
    · exact .inl ((h.covered e hwanted hstart he).concat _)
    · exact .inl (Covered.concat (.inl he) _)
    · exact .inl (Covered.deliver he)
    · exact .inr ⟨err, houtstanding err herr, hcovers⟩
  · exact fun e hwanted hstart hF => (h.covered e hwanted hstart hF).concat _
  · rw [hdelivered]
    intro e he
    rcases h.kept e he with he | he | he
    · exact .inl (List.mem_append_left _ he)
    · exact .inl (List.mem_append_right _ he)
    · exact .inr (.inr he)
  · rw [hdelivered]
    rintro e (he | he)
    · exact h.only e (List.mem_append.mp he)
    · cases he
  · rw [hdelivered]
    intro e hwanted hseq
    rcases h.floor_kept e hwanted hseq with he | he | he
    · exact .inl he
    · exact .inr (.inl (List.mem_append_left _ he))
    · exact .inr (.inl (List.mem_append_right _ he))
  · exact fun _ he => (by cases he)
  · exact fun _ he => (by cases he)
  · intro err herr
    rw [reported_concat]
    exact List.mem_append_left _ (h.reported err herr)

/-- An entry that is over is settled. -/
theorem settled (h : feed.Replaying start F chunks (yielded chunks) errs floor [] log)
    (hentry : feed.Entry F after rows chunks) (hcarried : ∀ err ∈ carried chunks, err ∈ errs) :
  feed.Settled start (fun e => F e ∨ e ∈ rows) log where
  throughout := h.throughout
  covered := fun e hwanted hstart he => by
    rcases he with he | he
    · exact h.covered e hwanted hstart he
    · rcases hentry.stream.covered e he with he | ⟨err, herr, hcovers⟩
      · rcases h.kept e he with he | he | he
        · exact .inl he
        · cases he
        · exact h.covered e hwanted hstart he
      · exact .inr ⟨err, h.reported err (hcarried err herr), hcovers⟩
  only := fun e he => (h.only e (.inl he)).imp_right fun he => hentry.stream.sublist.subset he

end Replaying

/-! ### Archive replay -/

section Environment

variable (env : Environment E ε)

theorem flushArchiveBatch_replaying (hentry : feed.Entry F after rows chunks)
    (htaken : taken <+: yielded chunks) :
  Triple (AtLog (feed.Replaying start F chunks taken errs floor buf)) (flushArchiveBatch env buf)
    fun _ => AtLog (feed.Replaying start F chunks taken errs floor [])
  := by
  refine Triple.ite (fun hempty => ?_) fun hempty => ?_
  · rw [List.isEmpty_iff.mp hempty]
    exact Triple.pure fun _ h => h
  · have hbuf : buf ≠ [] := fun h => hempty (List.isEmpty_iff.mpr h)
    exact fun s h => h.flush hentry htaken hbuf

theorem handOver_replaying (err : Error ε) :
  Triple (AtLog (feed.Replaying start F chunks taken errs floor buf))
    (handOver env (.recoverable err))
    fun _ => AtLog (feed.Replaying start F chunks taken (errs ++ [err]) floor buf)
  := fun _ h => h.report

/-- The postcondition of a part of the replay of an entry. -/
def Took (feed : Feed E ε) (start : ℕ) (F : E → Prop) (chunks : ArchiveStream E ε) (taken : List E)
    (errs : List (Error ε)) : Flow ε (ℕ × List E) → State E ε → Prop :=
  Flow.Post (fun left => AtLog (feed.Replaying start F chunks taken errs left.1 left.2))
    (AtLog (feed.Throughout start))

theorem flushAndStop_throughout {α : Type} {I : α → State E ε → Prop}
    (hentry : feed.Entry F after rows chunks) (htaken : taken <+: yielded chunks) :
  Triple (AtLog (feed.Replaying start F chunks taken errs floor buf)) (flushAndStop env buf)
    (Flow.Post I (AtLog (feed.Throughout start)))
  := by
  refine Triple.bind (flushArchiveBatch_replaying env hentry htaken) fun _ => ?_
  exact Triple.pure fun _ h => h.throughout

/-- After the pending batch the error is reported, unless the run is to stop. -/
theorem flushAndReport_replaying {err : Error ε} (hentry : feed.Entry F after rows chunks)
    (htaken : taken <+: yielded chunks) :
  Triple (AtLog (feed.Replaying start F chunks taken errs floor buf)) (flushAndReport env buf err)
    fun more s => feed.Throughout start s.log ∧
      (more = true → feed.Replaying start F chunks taken (errs ++ [err]) floor [] s.log)
  := by
  refine Triple.bind (flushArchiveBatch_replaying env hentry htaken) fun more => ?_
  refine Triple.ite (fun _ => ?_) fun _ => ?_
  · exact (handOver_replaying env err).mono fun _ _ h => ⟨h.throughout, fun _ => h⟩
  · exact Triple.pure fun _ h => ⟨h.throughout, fun h => (by cases h)⟩

theorem reportDropped_replaying :
  ∀ {dropped errs : List (Error ε)},
    Triple (AtLog (feed.Replaying start F chunks taken errs floor buf)) (reportDropped env dropped)
      fun more s => feed.Throughout start s.log ∧
        (more = true → feed.Replaying start F chunks taken (errs ++ dropped) floor buf s.log)
  | [], errs => Triple.pure fun _ h => ⟨h.throughout, fun _ => by rwa [List.append_nil]⟩
  | dropped :: rest, errs => by
      rw [reportDropped]
      refine Triple.bind (handOver_replaying env dropped) fun more => ?_
      refine Triple.ite (fun _ => ?_) fun _ => ?_
      · refine reportDropped_replaying.mono fun more s h => ⟨h.1, fun hmore => ?_⟩
        have := h.2 hmore
        rwa [List.append_assoc] at this
      · exact Triple.pure fun _ h => ⟨h.throughout, fun h => (by cases h)⟩

/-- Events that ascend from a floor can all be taken over. -/
theorem Replaying.take (hentry : feed.Entry F after rows chunks) :
  ∀ {events taken buf : List E} {floor last : ℕ},
    feed.Replaying start F chunks taken errs floor buf log →
    taken ++ events <+: yielded chunks → ascendFrom floor events = some last →
    feed.Replaying start F chunks (taken ++ events) errs last (buf ++ events) log
  | [], taken, buf, floor, last, h, _, hlast => by
      cases hlast
      rw [List.append_nil, List.append_nil]
      exact h
  | event :: events, taken, buf, floor, last, h, htaken, hlast => by
      rw [ascendFrom] at hlast
      split at hlast
      · cases hlast
      · have hevent : feed.Wanted event := by
          apply hentry.wanted event
          apply hentry.stream.sublist.subset
          exact htaken.subset (by simp)
        have hrest : taken ++ [event] ++ events <+: yielded chunks := by
          rwa [List.append_assoc]
        have := (h.push hevent).take hentry hrest hlast
        rwa [List.append_assoc, List.append_assoc] at this

variable {maxBatch : ℕ}

theorem replayEvents_took (hentry : feed.Entry F after rows chunks) :
  ∀ {events taken buf : List E} {floor : ℕ}, taken ++ events <+: yielded chunks →
    Triple (AtLog (feed.Replaying start F chunks taken errs floor buf))
      (replayEvents env maxBatch after events floor buf)
      (Took feed start F chunks (taken ++ events) errs)
  | [], taken, buf, floor, _ => Triple.pure fun _ h => by
      show feed.Replaying start F chunks (taken ++ []) errs floor buf _
      rwa [List.append_nil]
  | event :: events, taken, buf, floor, htaken => by
      have hrest : taken ++ [event] ++ events <+: yielded chunks := by
        rwa [List.append_assoc]
      have hhere : taken ++ [event] <+: yielded chunks :=
        (List.prefix_append _ _).trans hrest
      have hevent : feed.Wanted event := by
        apply hentry.wanted event
        apply hentry.stream.sublist.subset
        exact htaken.subset (by simp)
      have htook : taken ++ event :: events = taken ++ [event] ++ events := by simp
      rw [replayEvents, htook]
      refine Triple.ite (fun hskip => ?_) fun hskip => ?_
      · refine (replayEvents_took hentry hrest).strengthen fun s h => h.skip ?_
        rcases hskip with hskip | hskip
        · exact .inl (hentry.settled event hskip)
        · exact h.floor_kept event hevent hskip
      · refine Triple.ite (fun _ => Triple.pure fun _ h => h.throughout) fun _ => ?_
        refine Triple.ite (fun _ => ?_) fun _ => ?_
        · refine Triple.bind ((flushArchiveBatch_replaying env hentry hhere).strengthen
            fun _ h => h.push hevent) fun more => ?_
          refine Triple.ite (fun _ => replayEvents_took hentry hrest) fun _ => ?_
          exact Triple.pure fun _ h => h.throughout
        · exact (replayEvents_took hentry hrest).strengthen fun _ h => h.push hevent

/-- A floor that is raised to the floor of the page. -/
theorem Replaying.raise (h : feed.Replaying start F chunks taken errs floor buf log)
    (hentry : feed.Entry F after rows chunks) :
  feed.Replaying start F chunks taken errs (max floor after) buf log
  := { h with
    floor_kept := fun e hwanted hseq => by
      rcases Nat.le_total floor after with hle | hle
      · rw [max_eq_right hle] at hseq
        exact .inl (hentry.settled e hseq.le)
      · rw [max_eq_left hle] at hseq
        exact h.floor_kept e hwanted hseq }

theorem takeEvents_took {events : List E} (hentry : feed.Entry F after rows chunks)
    (htaken : taken ++ events <+: yielded chunks) :
  Triple (AtLog (feed.Replaying start F chunks taken errs floor buf))
    (takeEvents env maxBatch after events floor buf)
    (Took feed start F chunks (taken ++ events) errs)
  := by
  rw [takeEvents]
  split
  · rename_i last hlast
    refine Triple.ite (fun hempty => ?_) fun _ => replayEvents_took env hentry htaken
    rw [List.isEmpty_iff.mp hempty.1]
    refine Triple.pure fun s h => ?_
    have := (h.raise hentry).take hentry htaken hlast
    rwa [List.nil_append] at this
  · exact replayEvents_took env hentry htaken

theorem settleDropped_replaying {dropped : List (Error ε)} (hentry : feed.Entry F after rows chunks)
    (htaken : taken <+: yielded chunks) :
  Triple (AtLog (feed.Replaying start F chunks taken errs floor buf))
    (settleDropped env dropped buf)
    fun left s => feed.Throughout start s.log ∧
      ∀ buf', left = some buf' →
        feed.Replaying start F chunks taken (errs ++ dropped) floor buf' s.log
  := by
  refine Triple.ite (fun hempty => ?_) fun _ => ?_
  · rw [List.isEmpty_iff.mp hempty, List.append_nil]
    refine Triple.pure fun _ h => ⟨h.throughout, fun buf' hbuf' => ?_⟩
    rwa [← Option.some.inj hbuf']
  · refine Triple.bind (flushArchiveBatch_replaying env hentry htaken) fun more => ?_
    refine Triple.ite (fun _ => ?_) fun _ => ?_
    · refine Triple.bind (reportDropped_replaying env) fun more => ?_
      refine Triple.ite (fun hmore => ?_) fun _ => ?_
      · refine Triple.pure fun _ h => ⟨h.1, fun buf' hbuf' => ?_⟩
        rw [← Option.some.inj hbuf']
        exact h.2 hmore
      · exact Triple.pure fun _ h => ⟨h.1, fun _ h => (by cases h)⟩
    · exact Triple.pure fun _ h => ⟨h.throughout, fun _ h => (by cases h)⟩

/-- The postcondition of the replay of an entry: all of its events were taken over and all of
its errors were reported. -/
def Finished (feed : Feed E ε) (start : ℕ) (F : E → Prop) (chunks : ArchiveStream E ε) :
    Flow ε (ℕ × List E) → State E ε → Prop :=
  Flow.Post
    (fun left s => left.2 = [] ∧
      feed.Replaying start F chunks (yielded chunks) (carried chunks) left.1 [] s.log)
    (AtLog (feed.Throughout start))

/-- The last error of an entry ends it. -/
theorem flushAndReport_finished {err : Error ε} (hentry : feed.Entry F after rows chunks)
    (htaken : taken = yielded chunks) (herrs : errs ++ [err] = carried chunks) :
  Triple (AtLog (feed.Replaying start F chunks taken errs floor buf))
    (do if ← flushAndReport env buf err then pure (.next (floor, [])) else pure .stop)
    (Finished feed start F chunks)
  := by
  have hpre : taken <+: yielded chunks := by rw [htaken]
  refine Triple.bind (flushAndReport_replaying env hentry hpre) fun more => ?_
  refine Triple.ite (fun hmore => ?_) fun _ => Triple.pure fun _ h => h.1
  refine Triple.pure fun _ h => ⟨rfl, ?_⟩
  have := h.2 hmore
  rwa [htaken, herrs] at this

theorem replayChunks_finished (hentry : feed.Entry F after rows chunks) :
  ∀ {rest : ArchiveStream E ε} {taken : List E} {errs : List (Error ε)} {floor : ℕ},
    taken ++ yielded rest = yielded chunks → errs ++ carried rest = carried chunks →
    Triple (AtLog (feed.Replaying start F chunks taken errs floor []))
      (replayChunks env maxBatch after rest floor []) (Finished feed start F chunks)
  | [], taken, errs, floor, htaken, herrs => Triple.pure fun s h => by
      rw [yielded, List.append_nil] at htaken
      rw [carried, List.append_nil] at herrs
      rw [htaken, herrs] at h
      exact ⟨rfl, h⟩
  | .error err :: rest, taken, errs, floor, htaken, herrs => by
      rw [yielded, List.append_nil] at htaken
      rw [carried] at herrs
      have hpre : taken <+: yielded chunks := by rw [htaken]
      unfold replayChunks
      refine Triple.bind (Q := fun _ => AtLog (feed.Replaying start F chunks taken errs floor []))
        (fun _ h => h) fun cancelled => ?_
      refine Triple.ite (fun _ => flushAndStop_throughout env hentry hpre) fun _ => ?_
      split
      · exact flushAndStop_throughout env hentry hpre
      · rename_i herr
        cases herr
        exact flushAndReport_finished env hentry htaken herrs
      · rename_i herr
        cases herr
  | .ok downloaded :: rest, taken, errs, floor, htaken, herrs => by
      rw [yielded, ← List.append_assoc] at htaken
      rw [carried, ← List.append_assoc] at herrs
      have hevents : taken ++ downloaded.events <+: yielded chunks := ⟨_, htaken⟩
      have hpre : taken <+: yielded chunks := (List.prefix_append _ _).trans hevents
      unfold replayChunks
      refine Triple.bind (Q := fun _ => AtLog (feed.Replaying start F chunks taken errs floor []))
        (fun _ h => h) fun cancelled => ?_
      refine Triple.ite (fun _ => flushAndStop_throughout env hentry hpre) fun _ => ?_
      refine Triple.bind (takeEvents_took env hentry hevents) fun left => ?_
      cases left with
      | stop => exact Triple.pure fun _ h => h
      | fail err => exact Triple.pure fun _ h => h
      | next rest =>
          obtain ⟨floor, buf⟩ := rest
          refine Triple.bind (settleDropped_replaying env hentry hevents) fun left => ?_
          cases left with
          | none => exact Triple.pure fun _ h => h.1
          | some buf =>
              refine Triple.strengthen ?_ fun _ h => h.2 buf rfl
              dsimp only
              cases hfailure : downloaded.failure with
              | some failure =>
                  rw [hfailure, List.append_nil] at htaken
                  rw [hfailure] at herrs
                  exact flushAndReport_finished env hentry htaken herrs
              | none =>
                  rw [hfailure] at htaken herrs
                  refine Triple.bind (flushArchiveBatch_replaying env hentry hevents) fun more => ?_
                  refine Triple.ite (fun _ => replayChunks_finished hentry htaken herrs) fun _ => ?_
                  exact Triple.pure fun _ h => h.throughout

end Environment

/-! ### A page -/

variable (feed) in
/-- The rows of a page in a replay that has settled the sequences up to `n`. -/
structure Page (n : ℕ) (all : List E) : Prop where
  ascending : Ascending all
  wanted : ∀ e ∈ all, feed.Wanted e
  gapless : ∀ d ∈ all, ∀ e, feed.Wanted e → sequence e ≤ sequence d → sequence e ≤ n ∨ e ∈ all

/-- The events up to `n`, and the ones in a list. -/
def UpTo (n : ℕ) (done : List E) (e : E) : Prop := sequence e ≤ n ∨ e ∈ done

variable {n processed plannedThrough : ℕ} {all done rest : List E}

theorem FaithfulPage.page (h : feed.FaithfulPage after plannedThrough all) (hn : after ≤ n) :
  feed.Page n all where
  ascending := h.ascending
  wanted := fun e he => (h.sound e he).1
  gapless := fun d hd e hwanted hle => by
    by_cases hafter : after < sequence e
    · exact .inr (h.gapless d hd e hwanted hafter hle)
    · exact .inl (by omega)

theorem Page.initial (h : feed.Page n (done ++ rest)) :
  feed.Initial (UpTo n done)
  := by
  rintro d e (hd | hd) hwanted hle
  · exact .inl (hle.trans hd)
  · rcases h.gapless d (List.mem_append_left _ hd) e hwanted hle with he | he
    · exact .inl he
    · rcases List.mem_append.mp he with he | he
      · exact .inr he
      · have := (List.pairwise_append.mp h.ascending).2.2 d hd e he
        omega

theorem Page.entry (h : feed.Page n (done ++ (rows ++ rest)))
    (hafter : after ≤ n) (hstream : feed.FaithfulStream rows chunks) :
  feed.Entry (UpTo n done) after rows chunks where
  initial := h.initial
  settled := fun e he => .inl (he.trans hafter)
  stream := hstream
  ascending := (List.pairwise_append.mp (List.pairwise_append.mp h.ascending).2.1).1
  wanted := fun e he => h.wanted e (by simp [he])
  gapless := fun d hd e hwanted hle => by
    rcases h.gapless d (by simp [hd]) e hwanted hle with he | he
    · exact .inl (.inl he)
    · rcases List.mem_append.mp he with he | he
      · exact .inl (.inr he)
      · rcases List.mem_append.mp he with he | he
        · exact .inr he
        · have hsplit := (List.pairwise_append.mp (List.pairwise_append.mp h.ascending).2.1).2.2
          have := hsplit d hd e he
          omega

/-- The same set, described in another way. -/
theorem Settled.congr {F' : E → Prop} (h : feed.Settled start F log) (hF : ∀ e, F e ↔ F' e) :
  feed.Settled start F' log
  := by
  have heq : F = F' := funext fun e => propext (hF e)
  rwa [heq] at h

theorem upTo_append (e : E) :
  UpTo n done e ∨ e ∈ rows ↔ UpTo n (done ++ rows) e
  := by
  rw [UpTo, UpTo, List.mem_append, or_assoc]

/-- A reported error settles the rows that it covers. -/
theorem Settled.report {err : Error ε} (h : feed.Settled start F log)
    (hcovers : ∀ e ∈ rows, feed.covers err e) :
  feed.Settled start (fun e => F e ∨ e ∈ rows) (log ++ [⟨.recoverable err, processed⟩])
  := by
  have hsilent : feed.Settled start F (log ++ [⟨.recoverable err, processed⟩]) := h.silent rfl rfl
  refine ⟨hsilent.throughout, ?_, fun e he => .inl (hsilent.only e he)⟩
  rintro e hwanted hstart (he | he)
  · exact hsilent.covered e hwanted hstart he
  · exact Covered.report (hcovers e he)

section Environment

variable (env : Environment E ε) {holds : PlanSegment → ℕ → ℕ → List E}

variable (feed) in
/-- What holds at the end of a page: its rows are settled, and so is an event at the floor. -/
def PageDone (start n : ℕ) (all : List E) : Flow ε ℕ → State E ε → Prop :=
  Flow.Post
    (fun floor s => feed.Settled start (UpTo n all) s.log ∧
      ∀ e, feed.Wanted e → sequence e = floor → UpTo n all e)
    (AtLog (feed.Throughout start))

theorem replayEntries_done {maxBatch before n : ℕ} (hfaithful : feed.FaithfulArchive holds env)
    (hafter : after ≤ n) :
  ∀ {segments : List PlanSegment} {done : List E} {floor : ℕ},
    feed.Page n (done ++ segments.flatMap fun segment => holds segment after before) →
    (∀ e, feed.Wanted e → sequence e = floor → UpTo n done e) →
    Triple (AtLog (feed.Settled start (UpTo n done)))
      (replayEntries env maxBatch after before segments floor [])
      (feed.PageDone start n (done ++ segments.flatMap fun segment => holds segment after before))
  | [], done, floor, _, hfloor => Triple.pure fun s h => by
      show feed.Settled start (UpTo n (done ++ [])) s.log ∧ _
      rw [List.flatMap_nil, List.append_nil]
      exact ⟨h, hfloor⟩
  | segment :: segments, done, floor, hpage, hfloor => by
      rw [List.flatMap_cons] at hpage
      have hrest := hpage
      rw [← List.append_assoc] at hrest
      rw [List.flatMap_cons, ← List.append_assoc, replayEntries]
      refine Triple.bind_of (p := fun answer => ∃ t, answer = env.prepare t segment after before)
        (Q := fun _ => AtLog (feed.Settled start (UpTo n done))) (fun s h => ⟨⟨s.clock, rfl⟩, h⟩)
        fun answer hanswer => ?_
      obtain ⟨t, hanswer⟩ := hanswer
      refine Triple.bind (Q := fun _ => AtLog (feed.Settled start (UpTo n done))) (fun _ h => h)
        fun cancelled => ?_
      refine Triple.ite (fun _ => Triple.pure fun _ h => h.throughout) fun _ => ?_
      split
      · exact Triple.pure fun _ h => h.throughout
      · rename_i err _
        have hcovers := hfaithful.failed t segment after before err hanswer.symm
        refine Triple.bind (Q := fun _ => AtLog (feed.Settled start
          (UpTo n (done ++ holds segment after before)))) (fun s h => ?_) fun more => ?_
        · exact (h.report hcovers).congr upTo_append
        · refine Triple.ite (fun _ => replayEntries_done hfaithful hafter hrest ?_)
            fun _ => Triple.pure fun _ h => h.throughout
          exact fun e hwanted hseq => upTo_append e |>.mp (.inl (hfloor e hwanted hseq))
      · rename_i chunks
        have hstream := hfaithful.stream t segment after before chunks hanswer.symm
        have hentry := hpage.entry hafter hstream
        refine Triple.bind (Q := fun _ => AtLog (feed.Replaying start (UpTo n done) chunks [] []
          floor [])) (fun s h => Replaying.opened h hpage.initial hfloor) fun _ => ?_
        refine Triple.bind (replayChunks_finished env hentry (List.nil_append _) (List.nil_append _))
          fun left => ?_
        cases left with
        | stop => exact Triple.pure fun _ h => h
        | fail err => exact Triple.pure fun _ h => h
        | next rest =>
            obtain ⟨floor, buf⟩ := rest
            intro s h
            obtain ⟨rfl, h⟩ := h
            have hsettled := h.settled hentry fun _ herr => herr
            refine replayEntries_done hfaithful hafter hrest ?_ s (hsettled.congr upTo_append)
            intro e hwanted hseq
            rcases h.floor_kept e hwanted hseq with he | he | he
            · exact upTo_append e |>.mp (.inl he)
            · exact upTo_append e |>.mp (hsettled.only e he)
            · cases he

/-- A page that is done settles the sequences up to its coverage. -/
theorem Settled.advance {n plannedThrough : ℕ} {all : List E}
    (h : feed.Settled start (UpTo n all) log) (hpage : feed.FaithfulPage after plannedThrough all)
    (hn : after ≤ n) :
  ∃ n', n ≤ n' ∧ plannedThrough ≤ n' ∧ (∀ e, UpTo n all e → sequence e ≤ n') ∧
    feed.Settled start (UpTo n' []) log
  := by
  have hbound : ∀ e, UpTo n all e → sequence e ≤ max (max n plannedThrough) (highest 0 all) := by
    rintro e (he | he)
    · omega
    · have := hpage.ascending.le_highest 0 he
      omega
  refine ⟨max (max n plannedThrough) (highest 0 all), by omega, by omega, hbound, ?_⟩
  refine ⟨h.throughout, fun e hwanted hstart he => h.covered e hwanted hstart ?_,
    fun e he => .inl (hbound e (h.only e he))⟩
  rcases he with he | he
  · by_cases hle : sequence e ≤ n
    · exact .inl hle
    · by_cases hplanned : sequence e ≤ plannedThrough
      · exact .inr (hpage.covers e hwanted (by omega) hplanned)
      · have hhighest : sequence e ≤ highest 0 all := by omega
        obtain ⟨d, hd, hle⟩ := exists_highest (by omega) hhighest
        exact .inr (hpage.gapless d hd e hwanted (by omega) hle)
  · cases he

end Environment

/-! ### What the archive phase leaves alone -/

section Environment

variable (env : Environment E ε)

/-- The live watermark and the published tip. -/
def marks (s : State E ε) : ℕ × ℕ := (s.seen, s.sealedTipSeq)

theorem flushArchiveBatch_keeps (buf : List E) :
  Keeps marks (flushArchiveBatch env buf)
  := Keeps.ite (Keeps.pure _) fun _ => rfl

theorem flushAndReport_keeps (buf : List E) (err : Error ε) :
  Keeps marks (flushAndReport env buf err)
  := Keeps.bind (flushArchiveBatch_keeps env buf) fun _ => Keeps.ite (fun _ => rfl) (Keeps.pure _)

theorem flushAndStop_keeps {α : Type} (buf : List E) :
  Keeps marks (flushAndStop env buf : Run E ε (Flow ε α))
  := Keeps.bind (flushArchiveBatch_keeps env buf) fun _ => Keeps.pure _

omit [Sequenced E] in
theorem reportDropped_keeps :
  ∀ dropped : List (Error ε), Keeps marks (reportDropped env dropped : Run E ε Bool)
  | [] => Keeps.pure _
  | _ :: rest => Keeps.bind (fun _ => rfl)
      fun _ => Keeps.ite (reportDropped_keeps rest) (Keeps.pure _)

theorem replayEvents_keeps (maxBatch after : ℕ) :
  ∀ (events : List E) (floor : ℕ) (buf : List E),
    Keeps marks (replayEvents env maxBatch after events floor buf)
  | [], _, _ => Keeps.pure _
  | event :: events, floor, buf => by
      rw [replayEvents]
      refine Keeps.ite (replayEvents_keeps maxBatch after events floor buf) ?_
      refine Keeps.ite (Keeps.pure _) (Keeps.ite ?_ ?_)
      · refine Keeps.bind (flushArchiveBatch_keeps env _) fun _ => ?_
        exact Keeps.ite (replayEvents_keeps maxBatch after events _ []) (Keeps.pure _)
      · exact replayEvents_keeps maxBatch after events _ _

theorem takeEvents_keeps (maxBatch after : ℕ) (events : List E) (floor : ℕ) (buf : List E) :
  Keeps marks (takeEvents env maxBatch after events floor buf)
  := by
  have hslow := replayEvents_keeps env maxBatch after events floor buf
  rw [takeEvents]
  split
  · exact Keeps.ite (Keeps.pure _) hslow
  · exact hslow

theorem settleDropped_keeps (dropped : List (Error ε)) (buf : List E) :
  Keeps marks (settleDropped env dropped buf)
  := by
  refine Keeps.ite (Keeps.pure _) (Keeps.bind (flushArchiveBatch_keeps env buf) fun _ => ?_)
  refine Keeps.ite (Keeps.bind (reportDropped_keeps env dropped) fun _ => ?_) (Keeps.pure _)
  exact Keeps.ite (Keeps.pure _) (Keeps.pure _)

theorem replayChunks_keeps (maxBatch after : ℕ) :
  ∀ (chunks : ArchiveStream E ε) (floor : ℕ) (buf : List E),
    Keeps marks (replayChunks env maxBatch after chunks floor buf)
  | [], _, _ => Keeps.pure _
  | result :: chunks, floor, buf => by
      unfold replayChunks
      refine Keeps.bind (fun _ => rfl) fun _ => Keeps.ite (flushAndStop_keeps env buf) ?_
      split
      · exact flushAndStop_keeps env buf
      · exact Keeps.bind (flushAndReport_keeps env buf _)
          fun _ => Keeps.ite (Keeps.pure _) (Keeps.pure _)
      · refine Keeps.bind (takeEvents_keeps env maxBatch after _ floor buf) fun left => ?_
        cases left with
        | stop => exact Keeps.pure _
        | fail err => exact Keeps.pure _
        | next rest =>
            obtain ⟨floor, buf⟩ := rest
            refine Keeps.bind (settleDropped_keeps env _ buf) fun left => ?_
            cases left with
            | none => exact Keeps.pure _
            | some buf =>
                dsimp only
                split
                · exact Keeps.bind (flushAndReport_keeps env buf _)
                    fun _ => Keeps.ite (Keeps.pure _) (Keeps.pure _)
                · refine Keeps.bind (flushArchiveBatch_keeps env buf) fun _ => ?_
                  exact Keeps.ite (replayChunks_keeps maxBatch after chunks floor []) (Keeps.pure _)

theorem replayEntries_keeps (maxBatch after before : ℕ) :
  ∀ (segments : List PlanSegment) (floor : ℕ) (buf : List E),
    Keeps marks (replayEntries env maxBatch after before segments floor buf)
  | [], floor, buf =>
      Keeps.bind (flushArchiveBatch_keeps env buf) fun _ => Keeps.ite (Keeps.pure _) (Keeps.pure _)
  | segment :: segments, floor, buf => by
      rw [replayEntries]
      refine Keeps.bind (fun _ => rfl) fun answer => ?_
      refine Keeps.bind (fun _ => rfl) fun _ => Keeps.ite (flushAndStop_keeps env buf) ?_
      split
      · exact flushAndStop_keeps env buf
      · refine Keeps.bind (flushAndReport_keeps env buf _) fun _ => ?_
        exact Keeps.ite (replayEntries_keeps maxBatch after before segments floor []) (Keeps.pure _)
      · refine Keeps.bind (fun _ => rfl) fun _ => ?_
        refine Keeps.bind (replayChunks_keeps env maxBatch after _ floor buf) fun left => ?_
        cases left with
        | stop => exact Keeps.pure _
        | fail err => exact Keeps.pure _
        | next rest =>
            obtain ⟨floor, buf⟩ := rest
            exact replayEntries_keeps maxBatch after before segments floor buf

/-! ### A sweep -/

variable (feed) in
/-- The state between phases: the sequences up to `n` are settled, and neither the live
watermark nor the published tip is above `n`. -/
structure Reached (start n : ℕ) (s : State E ε) : Prop where
  start_le : start ≤ n
  settled : feed.Settled start (UpTo n []) s.log
  seen_le : s.seen ≤ n
  tip_le : s.sealedTipSeq ≤ n

variable (feed) in
/-- What holds at the end of a sweep that started when `n` was reached. -/
def SweepDone {α : Type} (start n : ℕ) : Flow ε α → State E ε → Prop :=
  Flow.Post (fun _ s => ∃ n', n ≤ n' ∧ feed.Reached start n' s) (AtLog (feed.Throughout start))

variable {n n' maxBatch maxPlanPages : ℕ}

theorem SweepDone.weaken {α : Type} {left : Flow ε α}
    {s : State E ε} (h : feed.SweepDone start n' left s) (hn : n ≤ n') :
  feed.SweepDone start n left s
  := by
  cases left with
  | next a =>
      obtain ⟨n'', hn', hreached⟩ := h
      exact ⟨n'', hn.trans hn', hreached⟩
  | stop => exact h
  | fail err => exact h

theorem replayPages_done {holds : PlanSegment → ℕ → ℕ → List E}
    (hfaithful : feed.FaithfulArchive holds env) :
  ∀ {budget : ℕ} {sweep : PlanSweep} {floor n : ℕ}, start ≤ n → sweep.plannedThrough ≤ n →
    (∀ e, feed.Wanted e → sequence e = floor → sequence e ≤ n) →
    Triple (fun s => feed.Settled start (UpTo n []) s.log ∧ s.seen ≤ n ∧
        s.sealedTipSeq ≤ max n (sweep.tip.getD 0))
      (replayPages env maxBatch budget sweep floor) (feed.SweepDone start n)
  | 0, _, _, _, _, _, _ => Triple.pure fun _ h => h.1.throughout
  | budget + 1, sweep, floor, n, hstart, hplanned, hfloor => by
      rw [replayPages]
      refine Triple.bind (Q := fun _ s => feed.Settled start (UpTo n []) s.log ∧ s.seen ≤ n ∧
        s.sealedTipSeq ≤ max n (sweep.tip.getD 0)) (fun _ h => h) fun cancelled => ?_
      refine Triple.ite (fun _ => Triple.pure fun _ h => h.1.throughout) fun _ => ?_
      refine Triple.bind_of (p := fun answer => ∃ t, answer = env.planPage t sweep.bounds)
        (Q := fun _ s => feed.Settled start (UpTo n []) s.log ∧ s.seen ≤ n ∧
          s.sealedTipSeq ≤ max n (sweep.tip.getD 0))
        (fun s h => ⟨⟨s.clock, rfl⟩, h⟩) fun answer hanswer => ?_
      obtain ⟨t, hanswer⟩ := hanswer
      split
      · exact Triple.pure fun _ h => h.1.throughout
      · exact Triple.pure fun _ h => h.1.throughout
      · rename_i page
        have hpage := hfaithful.page t sweep.bounds page hanswer.symm
        split
        · exact Triple.pure fun _ h => h.1.throughout
        · rename_i absorbed habsorbed
          obtain ⟨hpinned, htip, hthrough, -⟩ := PlanSweep.absorb_ok habsorbed
          have hget : absorbed.tip.getD 0 = page.sealedTipSeq := by
            rw [PlanSweep.tip, htip]
            rfl
          rw [hget]
          refine Triple.bind (Q := fun _ s => feed.Settled start (UpTo n []) s.log ∧
            (marks s).1 ≤ n ∧ (marks s).2 ≤ max n page.sealedTipSeq) (fun s h => ?_) fun _ => ?_
          · refine ⟨h.1, h.2.1, max_le (h.2.2.trans ?_) (le_max_right ..)⟩
            rcases hpinned with hpinned | hpinned
            · rw [PlanSweep.tip, hpinned]
              exact max_le (le_max_left ..) (Nat.zero_le _)
            · rw [PlanSweep.tip, hpinned]
              rfl
          · have hentries : Triple (AtLog (feed.Settled start (UpTo n [])))
                (replayEntries env maxBatch sweep.bounds.after page.sealedTipSeq page.segments floor [])
                (feed.PageDone start n ([] ++ page.segments.flatMap fun segment =>
                  holds segment sweep.bounds.after page.sealedTipSeq)) :=
              replayEntries_done env hfaithful hplanned (hpage.page hplanned)
                fun e hwanted hseq => .inl (hfloor e hwanted hseq)
            have hkeeps := (replayEntries_keeps env maxBatch sweep.bounds.after page.sealedTipSeq
              page.segments floor []).triple fun m => m.1 ≤ n ∧ m.2 ≤ max n page.sealedTipSeq
            refine Triple.bind (hentries.and hkeeps) fun left => ?_
            cases left with
            | stop => exact Triple.pure fun _ h => h.1
            | fail err => exact Triple.pure fun _ h => h.1
            | next floor =>
                intro s h
                obtain ⟨⟨hsettled, hfloor⟩, hseen, htip'⟩ := h
                obtain ⟨n', hn, hpts, hbound, hsettled⟩ := hsettled.advance hpage hplanned
                have hplanned' : absorbed.plannedThrough ≤ n' := by
                  rw [hthrough]
                  exact max_le (hplanned.trans hn) hpts
                simp only [bind_apply]
                by_cases hdone : absorbed.done = true
                · rw [if_pos hdone]
                  refine ⟨n', hn, hstart.trans hn, hsettled, hseen.trans hn, htip'.trans (max_le hn ?_)⟩
                  rw [PlanSweep.done, htip, Option.any_some, decide_eq_true_eq] at hdone
                  exact hdone.trans hplanned'
                · rw [if_neg hdone]
                  refine SweepDone.weaken ?_ hn
                  apply replayPages_done hfaithful (hstart.trans hn) hplanned'
                  · exact fun e hwanted hseq => hbound e (hfloor e hwanted hseq)
                  · refine ⟨hsettled, hseen.trans hn, ?_⟩
                    have hpublished : s.sealedTipSeq ≤ max n page.sealedTipSeq := htip'
                    rw [hget]
                    show s.sealedTipSeq ≤ max n' page.sealedTipSeq
                    omega

theorem replaySweep_done {before : Option ℕ}
    {holds : PlanSegment → ℕ → ℕ → List E} (hfaithful : feed.FaithfulArchive holds env)
    (hafter : after ≤ n) :
  Triple (feed.Reached start n) (replaySweep env maxBatch maxPlanPages after before)
    (feed.SweepDone start n)
  := by
  intro s h
  apply replayPages_done env hfaithful h.start_le hafter
  · exact fun e _ hseq => hseq.le.trans hafter
  · exact ⟨h.settled, h.seen_le, h.tip_le.trans (le_max_left ..)⟩

end Environment

end Feed

end Shrike.Jetstream
