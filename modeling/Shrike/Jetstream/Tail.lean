import Shrike.Jetstream.Feed

/-!
# Complete live tails

With a live server that is faithful to a log of events, the live tail loses nothing, wherever
its connections end and however often it dials again.
-/

namespace Shrike.Jetstream

open Act

variable {E ε : Type} [Sequenced E]

namespace Feed

variable {feed : Feed E ε} {start : ℕ} {log : List (Moment E ε)}

/-! ### A connection -/

variable (feed) in
/-- The live tail after reading `read` of a connection, with the sequence `lastSeq` above
which it accepts events and the pending batch `batch`. -/
structure Tailing (start : ℕ) (read : List (ReadStep E ε)) (lastSeq : ℕ) (batch : List E)
    (log : List (Moment E ε)) (seen tip : ℕ) : Prop where
  start_le : start ≤ lastSeq
  throughout : feed.Throughout start log
  covered : ∀ e, feed.Wanted e → start < sequence e → sequence e ≤ lastSeq →
    feed.Covered log e ∨ e ∈ batch
  only : ∀ e, e ∈ delivered log ∨ e ∈ batch → sequence e ≤ lastSeq
  wanted : ∀ e ∈ batch, feed.Wanted e
  read_le : ∀ e, .message (.event e) ∈ read → sequence e ≤ lastSeq
  read_reported : ∀ err, .message (.recoverable err) ∈ read → err ∈ reported log
  seen_le : seen ≤ lastSeq
  tip_le : tip ≤ lastSeq

/-- A property of the log, the live watermark and the published tip, as one of the state. -/
def AtTail (I : List (Moment E ε) → ℕ → ℕ → Prop) (s : State E ε) : Prop :=
  I s.log s.seen s.sealedTipSeq

namespace Tailing

variable {read : List (ReadStep E ε)} {lastSeq seen tip : ℕ} {batch : List E}

/-- A new connection. -/
theorem fresh (h : feed.Tailing start read lastSeq batch log seen tip) :
  feed.Tailing start [] lastSeq batch log seen tip
  := { h with
    read_le := fun _ he => (by cases he)
    read_reported := fun _ he => (by cases he) }

/-- One more step of the connection that is neither an event nor a malformed frame. -/
theorem step {r : ReadStep E ε} (h : feed.Tailing start read lastSeq batch log seen tip)
    (hevent : ∀ e, r ≠ .message (.event e)) (herr : ∀ err, r ≠ .message (.recoverable err)) :
  feed.Tailing start (read ++ [r]) lastSeq batch log seen tip
  := { h with
    read_le := fun e he => by
      rcases List.mem_append.mp he with he | he
      · exact h.read_le e he
      · exact absurd (List.mem_singleton.mp he).symm (hevent e)
    read_reported := fun err he => by
      rcases List.mem_append.mp he with he | he
      · exact h.read_reported err he
      · exact absurd (List.mem_singleton.mp he).symm (herr err) }

variable {processed : ℕ}

/-- An item that neither delivers nor opens an entry. -/
theorem silent {item : Item E ε}
    (h : feed.Tailing start read lastSeq batch log seen tip) (hevents : item.events = [])
    (hentry : item.entry = none) :
  feed.Tailing start read lastSeq batch (log ++ [⟨item, processed⟩]) seen tip
  := { h with
    throughout := h.throughout.silent hevents hentry
    covered := fun e hwanted hstart hle =>
      (h.covered e hwanted hstart hle).imp_left fun hcovered => hcovered.concat _
    only := fun e he => by
      rw [delivered_append, delivered_singleton, hevents, List.append_nil] at he
      exact h.only e he
    read_reported := fun err herr => by
      rw [reported_concat]
      exact List.mem_append_left _ (h.read_reported err herr) }

/-- A malformed frame is reported. -/
theorem report {err : Error ε} (h : feed.Tailing start read lastSeq batch log seen tip) :
  feed.Tailing start (read ++ [.message (.recoverable err)]) lastSeq batch
    (log ++ [⟨.recoverable err, processed⟩]) seen tip
  := by
  have hsilent : feed.Tailing start read lastSeq batch (log ++ [⟨.recoverable err, processed⟩])
    seen tip := h.silent rfl rfl
  exact { hsilent with
    read_le := fun e he => by
      rcases List.mem_append.mp he with he | he
      · exact h.read_le e he
      · cases List.mem_singleton.mp he
    read_reported := fun err' herr' => by
      rcases List.mem_append.mp herr' with herr' | herr'
      · exact hsilent.read_reported err' herr'
      · cases List.mem_singleton.mp herr'
        rw [reported_concat]
        exact List.mem_append_right _ (List.mem_singleton_self err) }

/-- The pending batch is delivered. -/
theorem flush (h : feed.Tailing start read lastSeq batch log seen tip) :
  feed.Tailing start read lastSeq [] (log ++ [⟨.batch batch, processed⟩]) seen tip
  := by
  have hdelivered : delivered (log ++ [⟨.batch batch, processed⟩]) = delivered log ++ batch := by
    rw [delivered_append, delivered_singleton]
    rfl
  have hlog := h.throughout log (List.prefix_refl log)
  have hcovered : ∀ e, feed.Wanted e → start < sequence e → sequence e ≤ lastSeq →
      feed.Covered (log ++ [⟨.batch batch, processed⟩]) e := by
    intro e hwanted hstart hle
    rcases h.covered e hwanted hstart hle with he | he
    · exact he.concat _
    · exact Covered.deliver he
  exact { h with
    throughout := by
      refine h.throughout.concat ⟨?_, ?_⟩
      · rw [hdelivered]
        intro e he
        rcases List.mem_append.mp he with he | he
        · exact hlog.sound e he
        · exact h.wanted e he
      · rw [hdelivered]
        intro e hwanted hstart hle
        obtain ⟨d, hd, hle⟩ := exists_highest hstart hle
        exact .inl (hcovered e hwanted hstart (hle.trans (h.only d (List.mem_append.mp hd))))
    covered := fun e hwanted hstart hle => .inl (hcovered e hwanted hstart hle)
    only := fun e he => by
      rw [hdelivered] at he
      rcases he with he | he
      · exact h.only e (List.mem_append.mp he)
      · cases he
    wanted := fun _ he => (by cases he)
    read_reported := fun err herr => by
      rw [reported_concat]
      exact List.mem_append_left _ (h.read_reported err herr) }

/-- An event at or below the accepted sequence is a duplicate. -/
theorem duplicate {event : E} (h : feed.Tailing start read lastSeq batch log seen tip)
    (hle : sequence event ≤ lastSeq) :
  feed.Tailing start (read ++ [.message (.event event)]) lastSeq batch log seen tip
  := { h with
    read_le := fun e he => by
      rcases List.mem_append.mp he with he | he
      · exact h.read_le e he
      · cases List.mem_singleton.mp he
        exact hle
    read_reported := fun err he => by
      rcases List.mem_append.mp he with he | he
      · exact h.read_reported err he
      · cases List.mem_singleton.mp he }

/-- An event of a faithful connection is accepted: nothing that is wanted lies between the
accepted sequence and the event, except what the connection reported as malformed. -/
theorem accept {event : E} {rest : List (ReadStep E ε)} {cursor : ℤ}
    (h : feed.Tailing start read lastSeq batch log seen tip)
    (hreads : feed.FaithfulReads cursor (read ++ .message (.event event) :: rest))
    (hcursor : cursor ≤ lastSeq) (hlt : lastSeq < sequence event) :
  feed.Tailing start (read ++ [.message (.event event)]) (sequence event)
    (if feed.admits event then batch ++ [event] else batch) log (max seen (sequence event)) tip
  := by
  obtain ⟨hmem, hbefore⟩ := hreads read event rest rfl
  have hmono : ∀ e, e ∈ batch → e ∈ if feed.admits event then batch ++ [event] else batch := by
    intro e he
    split
    · exact List.mem_append_left _ he
    · exact he
  refine ⟨h.start_le.trans hlt.le, h.throughout, ?_, ?_, ?_, ?_, ?_, ?_, h.tip_le.trans hlt.le⟩
  · intro e hwanted hstart hle
    by_cases hold : sequence e ≤ lastSeq
    · exact (h.covered e hwanted hstart hold).imp_right (hmono e)
    · rcases hle.lt_or_eq with hlt' | heq
      · rcases hbefore e hwanted (by omega) hlt' with he | ⟨err, herr, hcovers⟩
        · exact absurd (h.read_le e he) hold
        · exact .inl (.inr ⟨err, h.read_reported err herr, hcovers⟩)
      · obtain rfl := feed.unique e event hwanted.1 hmem heq
        rw [if_pos hwanted.2]
        exact .inr (by simp)
  · rintro e (he | he)
    · exact (h.only e (.inl he)).trans hlt.le
    · split at he
      · rcases List.mem_append.mp he with he | he
        · exact (h.only e (.inr he)).trans hlt.le
        · rw [List.mem_singleton.mp he]
      · exact (h.only e (.inr he)).trans hlt.le
  · intro e he
    split at he
    · rename_i hadmitted
      rcases List.mem_append.mp he with he | he
      · exact h.wanted e he
      · rw [List.mem_singleton.mp he]
        exact ⟨hmem, hadmitted⟩
    · exact h.wanted e he
  · intro e he
    rcases List.mem_append.mp he with he | he
    · exact (h.read_le e he).trans hlt.le
    · cases List.mem_singleton.mp he
      exact le_rfl
  · intro err he
    rcases List.mem_append.mp he with he | he
    · exact h.read_reported err he
    · cases List.mem_singleton.mp he
  · exact max_le (h.seen_le.trans hlt.le) le_rfl

end Tailing

/-! ### Sessions -/

section Environment

variable (env : Environment E ε) (canBackfill : Bool) (config : LiveConfig E ε)
  {read : List (ReadStep E ε)} {lastSeq : ℕ} {batch : List E}

omit [Sequenced E] in
theorem noteStopped_atTail (I : List (Moment E ε) → ℕ → ℕ → Prop) (more : Bool) :
  Preserves (AtTail I) (noteStopped more)
  := by
  cases more with
  | true => exact fun _ h => h
  | false => exact fun _ h => h

theorem deliverBatch_tailing :
  Triple (AtTail (feed.Tailing start read lastSeq batch)) (deliverBatch env batch)
    fun _ => AtTail (feed.Tailing start read lastSeq [])
  := by
  refine Triple.ite (fun hempty => ?_) fun _ => ?_
  · rw [List.isEmpty_iff.mp hempty]
    exact Triple.pure fun _ h => h
  · refine Triple.bind (Q := fun _ => AtTail (feed.Tailing start read lastSeq []))
      (fun s h => ?_) fun more => noteStopped_atTail _ more
    exact h.flush

variable {n fuel : ℕ} {err cause : Error ε}

/-- The malformed frame that was read is reported. -/
theorem recoverable_tailing :
  Triple (AtTail (feed.Tailing start read lastSeq batch)) (recoverable env err)
    fun _ => AtTail (feed.Tailing start (read ++ [.message (.recoverable err)]) lastSeq batch)
  := by
  refine Triple.bind (Q := fun _ => AtTail (feed.Tailing start
    (read ++ [.message (.recoverable err)]) lastSeq batch)) (fun s h => ?_)
    fun more => noteStopped_atTail _ more
  exact h.report

theorem deliverInfo_tailing {info : Info} :
  Preserves (AtTail (feed.Tailing start read lastSeq batch)) (deliverInfo env info)
  := by
  refine Triple.bind (Q := fun _ => AtTail (feed.Tailing start read lastSeq batch))
    (fun s h => ?_) fun more => noteStopped_atTail _ more
  exact h.silent rfl rfl

theorem flushAndReconnect_tailing :
  Triple (AtTail (feed.Tailing start read lastSeq batch)) (flushAndReconnect env batch cause)
    fun _ => AtTail (feed.Tailing start [] lastSeq [])
  := by
  refine Triple.bind (deliverBatch_tailing env) fun more => ?_
  exact Triple.ite (fun _ => Triple.pure fun _ h => h.fresh) fun _ => Triple.pure fun _ h => h.fresh

omit [Sequenced E] in
theorem recoverDict_atTail (I : List (Moment E ε) → ℕ → ℕ → Prop) (dict : DictState) :
  Preserves (AtTail I) (recoverDict env dict)
  := by
  refine Triple.bind (Q := fun _ => AtTail I) (fun _ h => h) fun answer => ?_
  split
  · exact Triple.pure fun _ h => h
  · exact Triple.pure fun _ h => h
  · exact Triple.pure fun _ h => h

theorem onProtocolError_tailing {dict : DictState} :
  Triple (AtTail (feed.Tailing start read lastSeq batch))
    (onProtocolError env canBackfill batch dict err)
    fun _ => AtTail (feed.Tailing start [] lastSeq [])
  := by
  refine Triple.bind (deliverBatch_tailing env) fun more => ?_
  refine Triple.strengthen (P := AtTail (feed.Tailing start [] lastSeq [])) ?_ fun _ h => h.fresh
  refine Triple.ite (fun _ => ?_) fun _ => Triple.pure fun _ h => h
  split
  · exact fun _ h => h
  · refine Triple.bind (recoverDict_atTail env _ dict) fun answer => ?_
    split
    · exact Triple.pure fun _ h => h
    · exact Triple.pure fun _ h => h
  · exact Triple.pure fun _ h => h

/-- A state from which a dial sends a cursor that is not above the accepted sequence. -/
def Resumable (state : StreamState) : Prop :=
  state.seenAny = true ∨ state.lastSeq = initialLastSeq config.cursor

theorem acceptEvent_tailing {event : E} {rest : List (ReadStep E ε)} {cursor : ℤ}
    {state : StreamState} (hadmits : config.admits = feed.admits)
    (hreads : feed.FaithfulReads cursor (read ++ .message (.event event) :: rest))
    (hcursor : cursor ≤ state.lastSeq) (hstate : Resumable config state) :
  Triple (AtTail (feed.Tailing start read state.lastSeq batch))
    (acceptEvent env config event state batch)
    fun left s => (state.lastSeq ≤ left.1.lastSeq ∧ Resumable config left.1) ∧
      AtTail (feed.Tailing start (read ++ [.message (.event event)]) left.1.lastSeq
        (left.2.getD [])) s
  := by
  refine Triple.ite (fun hle => ?_) fun hlow => ?_
  · exact Triple.pure fun _ h => ⟨⟨le_rfl, hstate⟩, h.duplicate hle⟩
  · have hlt : state.lastSeq < sequence event := Nat.lt_of_not_le hlow
    have hleft : state.lastSeq ≤ sequence event ∧
        Resumable config { lastSeq := sequence event, seenAny := true } := ⟨hlt.le, .inl rfl⟩
    refine Triple.bind (Q := fun _ => AtTail (feed.Tailing start
      (read ++ [ReadStep.message (MsgDecode.event event)]) (sequence event)
      (if feed.admits event then batch ++ [event] else batch))) (fun s h => ?_) fun _ => ?_
    · exact Tailing.accept h hreads hcursor hlt
    rw [← hadmits]
    refine Triple.ite (fun hadmitted => ?_) fun hadmitted => ?_
    · rw [if_pos hadmitted]
      refine Triple.ite (fun _ => ?_) fun _ => Triple.pure fun _ h => ⟨hleft, h⟩
      refine Triple.bind (deliverBatch_tailing env) fun more => ?_
      refine Triple.ite (fun _ => ?_) fun _ => ?_
      · exact Triple.pure fun _ h => ⟨hleft, h⟩
      · exact Triple.pure fun _ h => ⟨hleft, h⟩
    · rw [if_neg hadmitted]
      exact Triple.pure fun _ h => ⟨hleft, h⟩

/-- What a session of a faithful connection comes to: nothing is pending, and nothing up to the
accepted sequence is missing. -/
def Ended (feed : Feed E ε) (start : ℕ) (config : LiveConfig E ε) (state : StreamState)
    (s : State E ε) : Prop :=
  Resumable config state ∧ AtTail (feed.Tailing start [] state.lastSeq []) s

theorem session_ended {cursor : ℤ} (hadmits : config.admits = feed.admits) :
  ∀ {reads read : List (ReadStep E ε)} {state : StreamState} {dict : DictState} {batch : List E},
    feed.FaithfulReads cursor (read ++ reads) → cursor ≤ state.lastSeq → Resumable config state →
    Triple (AtTail (feed.Tailing start read state.lastSeq batch))
      (session env canBackfill config reads state dict batch)
      fun left => Ended feed start config left.2.1
  | [], _, _, _, _, _, _, hstate =>
      Triple.bind (flushAndReconnect_tailing env) fun _ => Triple.pure fun _ h => ⟨hstate, h⟩
  | .cancelled :: _, _, _, _, _, _, _, hstate =>
      Triple.bind (deliverBatch_tailing env) fun _ => Triple.pure fun _ h => ⟨hstate, h.fresh⟩
  | .flushTimer :: _, _, _, _, _, hreads, hcursor, hstate => by
      rw [List.append_cons] at hreads
      refine Triple.bind (deliverBatch_tailing env) fun more => ?_
      refine Triple.ite (fun _ => ?_) fun _ => Triple.pure fun _ h => ⟨hstate, h.fresh⟩
      exact (session_ended hadmits hreads hcursor hstate).strengthen
        fun _ h => h.step (fun _ h => (by cases h)) fun _ h => (by cases h)
  | .closed :: _, _, _, _, _, _, _, hstate =>
      Triple.bind (flushAndReconnect_tailing env) fun _ => Triple.pure fun _ h => ⟨hstate, h⟩
  | .failed :: _, _, _, _, _, _, _, hstate =>
      Triple.bind (flushAndReconnect_tailing env) fun _ => Triple.pure fun _ h => ⟨hstate, h⟩
  | .message .skip :: _, _, _, _, _, hreads, hcursor, hstate => by
      rw [List.append_cons] at hreads
      rw [session]
      exact (session_ended hadmits hreads hcursor hstate).strengthen
        fun _ h => h.step (fun _ h => (by cases h)) fun _ h => (by cases h)
  | .message (.recoverable err) :: _, _, _, _, _, hreads, hcursor, hstate => by
      rw [List.append_cons] at hreads
      refine Triple.bind (deliverBatch_tailing env) fun more => ?_
      refine Triple.ite (fun _ => ?_) fun _ => Triple.pure fun _ h => ⟨hstate, h.fresh⟩
      refine Triple.bind (recoverable_tailing env) fun more => ?_
      refine Triple.ite (fun _ => ?_) fun _ => Triple.pure fun _ h => ⟨hstate, h.fresh⟩
      exact session_ended hadmits hreads hcursor hstate
  | .message .tooLarge :: _, _, _, _, _, _, _, hstate =>
      Triple.bind (flushAndReconnect_tailing env) fun _ => Triple.pure fun _ h => ⟨hstate, h⟩
  | .message (.event event) :: _, _, _, _, _, hreads, hcursor, hstate => by
      refine Triple.bind_of (acceptEvent_tailing env config hadmits hreads hcursor hstate)
        fun left hleft => ?_
      rw [List.append_cons] at hreads
      obtain ⟨state, _ | batch⟩ := left
      · exact Triple.pure fun _ h => ⟨hleft.2, h.fresh⟩
      · have hle : cursor ≤ state.lastSeq := by
          dsimp only at hleft
          omega
        exact session_ended hadmits hreads hle hleft.2
  | .message (.info info) :: _, _, _, _, _, hreads, hcursor, hstate => by
      rw [List.append_cons] at hreads
      refine Triple.bind (deliverBatch_tailing env) fun more => ?_
      refine Triple.ite (fun _ => ?_) fun _ => Triple.pure fun _ h => ⟨hstate, h.fresh⟩
      refine Triple.bind (deliverInfo_tailing env) fun more => ?_
      refine Triple.ite (fun _ => ?_) fun _ => Triple.pure fun _ h => ⟨hstate, h.fresh⟩
      exact (session_ended hadmits hreads hcursor hstate).strengthen
        fun _ h => h.step (fun _ h => (by cases h)) fun _ h => (by cases h)
  | .message (.fatal err) :: _, _, _, _, _, _, _, hstate => by
      refine Triple.bind (deliverBatch_tailing env) fun more => ?_
      refine Triple.ite (fun _ => ?_) fun _ => Triple.pure fun _ h => ⟨hstate, h.fresh⟩
      exact fun _ h => ⟨hstate, h.fresh⟩
  | .message (.proto err) :: _, _, _, _, _, _, _, hstate =>
      Triple.bind (onProtocolError_tailing env canBackfill)
        fun _ => Triple.pure fun _ h => ⟨hstate, h⟩

/-! ### The tail -/

theorem asI64_le (m : ℕ) :
  asI64 m ≤ m
  := by
  have hmod : (m : ℤ) % ((2 ^ 64 : ℕ) : ℤ) ≤ m := by
    rw [← Int.natCast_emod]
    exact Int.ofNat_le.mpr (Nat.mod_le ..)
  unfold asI64 Int.bmod
  dsimp only
  split
  · exact hmod
  · exact Int.le_trans (Int.sub_le_self _ (Int.natCast_nonneg _)) hmod

omit [Sequenced E] in
/-- A state that is resumable is resumed at a cursor that is not above the accepted sequence. -/
theorem wireCursor_le {state : StreamState} (hconfig : config.cursor = .resume (.seq n))
    (hstate : Resumable config state) :
  ∃ cursor, wireCursor config.cursor state = some cursor ∧ cursor ≤ state.lastSeq
  := by
  unfold wireCursor
  split
  · exact ⟨_, rfl, asI64_le state.lastSeq⟩
  · rename_i hseen
    have hlast := hstate.resolve_left hseen
    rw [hconfig] at hlast ⊢
    refine ⟨asI64 n, rfl, ?_⟩
    rw [hlast]
    exact asI64_le n

omit [Sequenced E] in
theorem handleDialError_atTail (I : List (Moment E ε) → ℕ → ℕ → Prop) (err : DialError ε) :
  Triple (AtTail I) (handleDialError canBackfill err)
    fun attempt s => (∀ reads, attempt ≠ .connected reads) ∧ AtTail I s
  := by
  have hne {attempt : DialAttempt E ε} (h : ∀ reads, attempt ≠ .connected reads) :
      ∀ s, AtTail I s → (∀ reads, attempt ≠ .connected reads) ∧ AtTail I s := fun _ hs => ⟨h, hs⟩
  cases err with
  | canceled => exact Triple.pure (hne fun _ h => (by cases h))
  | transport => exact Triple.pure (hne fun _ h => (by cases h))
  | subprotocol => exact fun s h => ⟨fun _ h => (by cases h), h⟩
  | http err =>
      rw [handleDialError]
      split
      · exact fun s h => ⟨fun _ h => (by cases h), h⟩
      · exact Triple.pure (hne fun _ h => (by cases h))
      · exact Triple.pure (hne fun _ h => (by cases h))

omit [Sequenced E] in
/-- A connection that was dialed is one of the server. -/
theorem dial_atTail (I : List (Moment E ε) → ℕ → ℕ → Prop) (state : StreamState)
    (dict : DictState) :
  Triple (AtTail I) (dial env canBackfill config state dict)
    fun attempt s => (∀ reads, attempt = .connected reads →
      ∃ t, env.dial t (wireCursor config.cursor state) dict.id = .connected reads) ∧ AtTail I s
  := by
  refine Triple.bind_of (p := fun dialed => ∃ t,
    dialed = env.dial t (wireCursor config.cursor state) dict.id) (Q := fun _ => AtTail I)
    (fun s h => ⟨⟨s.clock, rfl⟩, h⟩) fun dialed hdialed => ?_
  obtain ⟨t, hdialed⟩ := hdialed
  split
  · refine Triple.pure fun _ h => ⟨fun reads hreads => ⟨t, ?_⟩, h⟩
    cases hreads
    exact hdialed.symm
  · exact (handleDialError_atTail canBackfill I _).mono
      fun _ _ h => ⟨fun reads hreads => absurd hreads (h.1 reads), h.2⟩
  · exact fun _ h => ⟨fun _ h => (by cases h), h⟩
  · exact Triple.pure fun _ h => ⟨fun _ h => (by cases h), h⟩

theorem reportAndBackOff_tailing :
  Preserves (AtTail (feed.Tailing start read lastSeq batch)) (reportAndBackOff env cause)
  := by
  refine Triple.bind (Q := fun _ => AtTail (feed.Tailing start read lastSeq batch)) ?_ fun more => ?_
  · refine Triple.bind (Q := fun _ => AtTail (feed.Tailing start read lastSeq batch))
      (fun s h => ?_) fun more => noteStopped_atTail _ more
    exact h.silent rfl rfl
  · exact Triple.ite (fun _ => fun _ h => h) fun _ => Triple.pure fun _ h => h

variable (feed) in
/-- What holds between connections: nothing is pending, and nothing up to some sequence is
missing. -/
def CaughtUp (start : ℕ) (s : State E ε) : Prop := ∃ n, AtTail (feed.Tailing start [] n []) s

/-- The live tail loses nothing, wherever its connections end. -/
theorem tail_done (hadmits : config.admits = feed.admits) (hlive : feed.FaithfulLive env)
    (hconfig : config.cursor = .resume (.seq n)) :
  ∀ {fuel : ℕ} {state : StreamState} {dict : DictState}, Resumable config state →
    Triple (AtTail (feed.Tailing start [] state.lastSeq []))
      (tail env canBackfill config fuel state dict) fun _ => feed.CaughtUp start
  | 0, state, _, _ => Triple.pure fun _ h => ⟨state.lastSeq, h⟩
  | fuel + 1, state, dict, hstate => by
      have hagain {cause : Error ε} {state : StreamState} {dict : DictState}
          (hstate : Resumable config state) :
          Triple (AtTail (feed.Tailing start [] state.lastSeq []))
            (do if ← reportAndBackOff env cause then tail env canBackfill config fuel state dict
                else pure true)
            fun _ => feed.CaughtUp start := by
        refine Triple.bind (reportAndBackOff_tailing env) fun more => ?_
        exact Triple.ite (fun _ => tail_done hadmits hlive hconfig hstate)
          fun _ => Triple.pure fun _ h => ⟨state.lastSeq, h⟩
      rw [tail]
      refine Triple.bind (Q := fun _ => AtTail (feed.Tailing start [] state.lastSeq []))
        (fun _ h => h) fun cancelled => ?_
      refine Triple.ite (fun _ => Triple.pure fun _ h => ⟨state.lastSeq, h⟩) fun _ => ?_
      refine Triple.bind_of (dial_atTail env canBackfill config _ state dict)
        fun attempt hattempt => ?_
      split
      · exact Triple.pure fun _ h => ⟨state.lastSeq, h⟩
      · exact hagain hstate
      · refine Triple.bind (recoverDict_atTail env _ dict) fun answer => ?_
        split
        · exact Triple.pure fun _ h => ⟨state.lastSeq, h⟩
        · exact hagain hstate
      · rename_i reads
        obtain ⟨t, hdialed⟩ := hattempt reads rfl
        obtain ⟨cursor, hcursor, hle⟩ := wireCursor_le config hconfig hstate
        rw [hcursor] at hdialed
        have hreads : feed.FaithfulReads cursor ([] ++ reads) :=
          hlive t cursor dict.id reads hdialed
        refine Triple.bind (session_ended env canBackfill config hadmits hreads hle hstate)
          fun left => ?_
        obtain ⟨outcome, state, dict⟩ := left
        cases outcome with
        | stop => exact Triple.pure fun _ h => ⟨state.lastSeq, h.2⟩
        | reconnect cause => exact fun s h => hagain h.1 s h.2

theorem runLive_done (hadmits : config.admits = feed.admits)
    (hlive : feed.FaithfulLive env) (hconfig : config.cursor = .resume (.seq n)) :
  Triple (AtTail (feed.Tailing start [] n [])) (runLive env canBackfill config fuel)
    fun _ => feed.CaughtUp start
  := by
  have hinitial : initialLastSeq config.cursor = n := by rw [hconfig]; rfl
  have htail {dict : DictState} : Triple (AtTail (feed.Tailing start [] n []))
      (tail env canBackfill config fuel { lastSeq := n, seenAny := false } dict)
      fun _ => feed.CaughtUp start :=
    @tail_done E ε _ feed start env canBackfill config n hadmits hlive hconfig fuel
      { lastSeq := n, seenAny := false } dict (.inr hinitial.symm)
  rw [runLive, hinitial]
  refine Triple.ite (fun _ => ?_) fun _ => htail
  refine Triple.bind (Q := fun _ => AtTail (feed.Tailing start [] n [])) (fun _ h => h)
    fun answer => ?_
  split
  · exact Triple.pure fun _ h => ⟨n, h⟩
  · exact htail

end Environment

end Feed

end Shrike.Jetstream
