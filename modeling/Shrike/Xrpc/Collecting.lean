import Shrike.Xrpc.Body

/-!
# Collecting request bodies

What a request body gives does not depend on how it is cut into chunks: it is what the body decodes
to as a whole, up to the limit, and an error if the body is corrupt.
-/

namespace Shrike.Xrpc

open Bytes Readers

variable {decoders : Decoders UInt8 Bytes Coding} {cs : List Coding}

/-! ### What a body gives -/

/-- The bytes of what the network gives. -/
def Incoming.bytes : Incoming → Bytes
  | .chunk bs => bs
  | .pending => []
  | .failed _ => []

/-- The result of a body that is decoded as a whole: its bytes, exactly if it is not corrupt and has
no more of them than the limit. -/
structure Whole (limit : Option ℕ) (content : Content UInt8) (result : Except ServerError Bytes) :
    Prop where
  ok : ∀ bytes, result = .ok bytes ↔
    content.corrupt = false ∧ bytes = content.bytes ∧ exceeds limit bytes.length = false
  error : ∀ e, result = .error e → e = tooLarge ∧ exceeds limit content.bytes.length = true
    ∨ content.corrupt = true ∧ ∃ reason, e = decodeError reason

namespace BodyStream

/-- The input of a body, where a part of what it decodes to was given: of a body without codings
it was given itself, and otherwise to the decoders. -/
inductive Fed (body : Bytes) : Bool → Bytes → BodyStream decoders cs → Prop where
  | plain {out} {s : BodyStream decoders cs} (uncoded : cs = [])
      (decoder : s.decoder = none) (input : out ++ s.inner.flatMap Incoming.bytes = body) :
      Fed body false out s
  | coded {out pushed finished} {s : BodyStream decoders cs} {d} (decoder : s.decoder = some d)
      (run : Run (Decoder.source decoders cs) (startChain decoders Pending.empty cs) body pushed
        finished out d) (input : pushed ++ s.inner.flatMap Incoming.bytes = body)
      (ended : finished = true → s.inner = []) : Fed body finished out s

/-- A body that is not done, of which a part within the limit was given. -/
structure Going (body : Bytes) (limit : Option ℕ) (finished : Bool) (out : Bytes)
    (s : BodyStream decoders cs) : Prop where
  fed : Fed body finished out s
  seen : s.seen = out.length
  limited : s.limit = limit
  within : ∀ l ∈ limit, out.length ≤ l
  goesOn : s.done = false
  intact : ∀ e, .failed e ∉ s.inner

/-- What a poll gives of a body, after a part of it. -/
inductive Outcome (body : Bytes) (limit : Option ℕ) (content : Content UInt8) (out : Bytes) :
    Polled → BodyStream decoders cs → Prop where
  | pending {finished s}
      (going : Going body limit finished out s) : Outcome body limit content out .pending s
  | chunk {finished bs s} (nonempty : bs ≠ [])
      (part : out ++ bs <+: content.bytes) (going : Going body limit finished (out ++ bs) s) :
      Outcome body limit content out (.ready (some (.ok bs))) s
  | failed {e} {s : BodyStream decoders cs} (done : s.done = true)
      (result : Whole limit content (.error e)) :
      Outcome body limit content out (.ready (some (.error e))) s
  | ended {s : BodyStream decoders cs} (done : s.done = true)
      (result : Whole limit content (.ok out)) : Outcome body limit content out (.ready none) s

section

variable {body out : Bytes} {limit : Option ℕ} {finished : Bool} {s : BodyStream decoders cs}
  {content : Content UInt8}

variable {s' : BodyStream decoders cs}

variable {a : Option Polled}

end

/-! ### Polls of a body -/

/-- An answer after which nothing more is given: an error or the end. -/
def IsLast (answer : Polled) : Prop := answer = .ready none ∨ ∃ e, answer = .ready (some (.error e))

/-- The bytes that an answer gives. -/
def given : Polled → Bytes
  | .ready (some (.ok bs)) => bs
  | .ready (some (.error _)) => []
  | .ready none => []
  | .pending => []

/-- The answers give no more bytes than the limit, and nothing after an error or the end. -/
structure Limited (limit : Option ℕ) (answers : List Polled) : Prop where
  within : ∀ l ∈ limit, (answers.flatMap given).length ≤ l
  silent : answers.Pairwise fun answer later => IsLast answer → later = .ready none

section

variable {body : Bytes} {limit : Option ℕ} {start s : BodyStream decoders cs}
  {content : Content UInt8} {answers : List Polled}

/-- An answer is within the limit with those before it, and it is none after the last. -/
theorem Limited.concat {answer : Polled} (h : Limited limit answers)
    (hwithin : ∀ l ∈ limit, (answers.flatMap given ++ given answer).length ≤ l)
    (hsilent : answer = .ready none ∨ ∀ a ∈ answers, ¬IsLast a) :
  Limited limit (answers ++ [answer])
  := by
  constructor
  · rw [List.flatMap_append, List.flatMap_singleton]
    exact hwithin
  · rw [List.pairwise_append]
    refine ⟨h.silent, List.pairwise_singleton _ _, ?_⟩
    intro a ha b hb hlast
    rw [List.mem_singleton.mp hb]
    rcases hsilent with hnone | hgoing
    · exact hnone
    · exact absurd hlast (hgoing a ha)

end

end BodyStream

/-! ### Bodies of one byte -/

namespace OneByte

/-- What a stream of five bytes holds that is one uncompressed byte of Brotli. -/
def stored : Bytes → Option UInt8
  | [0x0b, 0, 0x80, b, 3] => some b
  | _ => none

/-- Read a number of bytes one by one after those that were read, and give the byte that they
hold. -/
def gather {S : Type} (read : Reader UInt8 Bytes S) :
    ℕ → Bytes → S → Read UInt8 Bytes × (Option Bytes × S)
  | 0, got, s =>
      match stored got with
      | some b => (.bytes [b], (none, s))
      | none => (.failed (ascii "Invalid Data"), (some got, s))
  | n + 1, got, s =>
      match read 1 s with
      | (.bytes [], s) => (.failed (ascii "Unexpected EOF"), (some got, s))
      | (.bytes (b :: _), s) => gather read n (got ++ [b]) s
      | (.wouldBlock, s) => (.wouldBlock, (some got, s))
      | (.interrupted, s) => (.interrupted, (some got, s))
      | (.failed e, s) => (.failed e, (some got, s))

/-- Decoders of streams of one byte. Their state is what they have read, until they have given the
byte. -/
def gathering : Decoders UInt8 Bytes Coding where
  State _ := Option Bytes
  start _ := some []
  read _ _ read _ s :=
    match s.1 with
    | some got => gather read (5 - got.length) got s.2
    | none => (.bytes [], s)

/-- What a stream of one byte decodes to. It is corrupt if it has not the byte. -/
def decode (content : Content UInt8) : Content UInt8 :=
  match stored (content.bytes.take 5) with
  | some b => ⟨[b], content.corrupt⟩
  | none => ⟨[], true⟩

section

variable {S : Type} {src : Source UInt8 Bytes S} {start s : S} {body pushed : Bytes}
  {finished : Bool} {content : Content UInt8}

/-- The state of a decoder, where it has given a part of what it decodes to. -/
inductive Gathered (src : Source UInt8 Bytes S) (start : S) (body : Bytes)
    (content : Content UInt8) (pushed : Bytes) (finished : Bool) :
    Bytes → Option Bytes × S → Prop where
  | some {got : Bytes} {s} (few : got.length < 5) (run : Run src start body pushed finished got s) :
      Gathered src start body content pushed finished [] (some got, s)
  | none {got b s} (result : decode content = ⟨[b], false⟩)
      (run : Run src start body pushed finished got s) :
      Gathered src start body content pushed finished [b] (none, s)

theorem length_of_stored {bs : Bytes} {b : UInt8} (h : stored bs = some b) :
  bs.length = 5
  := by
  rw [stored.eq_def] at h
  split at h
  · rfl
  · cases h

/-- What a decoder gathers is what it decodes to, or it waits. -/
theorem gather_cases (h : Delivers src start body content) (hcorrupt : content.corrupt = false)
    {n : ℕ} {got : Bytes} (run : Run src start body pushed finished got s)
    (hn : got.length + n = 5) :
  (∃ b got' s', gather src.read n got s = (.bytes [b], (none, s')) ∧ decode content = ⟨[b], false⟩
      ∧ Run src start body pushed finished got' s')
    ∨ (∃ e d, gather src.read n got s = (.failed e, d) ∧ (decode content).corrupt = true)
    ∨ ∃ got' s', gather src.read n got s = (.wouldBlock, (some got', s')) ∧ got'.length < 5
      ∧ Run src start body pushed finished got' s' ∧ finished = false
  := by
  induction n generalizing got s with
  | zero =>
      have htake : content.bytes.take 5 = got := by
        have heq := List.prefix_iff_eq_take.mp (h.isPrefix run)
        rw [Nat.add_zero] at hn
        rw [hn] at heq
        exact heq.symm
      rw [gather, decode, htake, hcorrupt]
      cases stored got with
      | some b => exact .inl ⟨b, got, s, rfl, rfl, run⟩
      | none => exact .inr (.inl ⟨_, _, rfl, rfl⟩)
  | succ n ih =>
      have hcontinues := h _ _ _ _ run 1 Nat.one_pos
      rcases hread : src.read 1 s with ⟨answer, s'⟩
      rw [hread] at hcontinues
      rw [gather, hread]
      cases answer with
      | bytes bs =>
          obtain ⟨hlen, hpart, hend⟩ := hcontinues
          cases bs with
          | nil =>
              -- The content has no more than was gathered before the end.
              have hshort : stored (content.bytes.take 5) = none := by
                by_contra hne
                obtain ⟨b, hb⟩ := Option.ne_none_iff_exists'.mp hne
                have hlength := length_of_stored hb
                rw [← (hend rfl).1, List.length_take] at hlength
                omega
              refine .inr (.inl ⟨_, _, rfl, ?_⟩)
              rw [decode, hshort]
          | cons b bs =>
              have hnil : bs = [] := by
                rw [List.length_cons] at hlen
                exact List.length_eq_zero_iff.mp (by omega)
              rw [hnil] at hread
              refine ih (run.read Nat.one_pos hread) ?_
              rw [List.length_append, List.length_singleton]
              omega
      | wouldBlock =>
          have hfew : got.length < 5 := by omega
          exact .inr (.inr ⟨got, s', rfl, hfew, run.wait Nat.one_pos hread, hcontinues⟩)
      | interrupted => exact hcontinues.elim
      | failed e => exact absurd (hcorrupt.symm.trans hcontinues) Bool.false_ne_true

/-- The state of a decoder in a run, with what it has given. -/
theorem gathered {coding : Coding} {out : Bytes} {s : Option Bytes × S}
    (h : Delivers src start body content) (hcorrupt : content.corrupt = false)
    (run : Run (src.through (gathering.read coding src.read)) (gathering.start coding, start) body
      pushed finished out s) :
  Gathered src start body content pushed finished out s
  := by
  induction run with
  | start => exact .some (by decide) .start
  | push _ input ih =>
      cases ih with
      | some few run => exact .some few (run.push input)
      | none result run => exact .none result (run.push input)
  | finish _ ih =>
      cases ih with
      | some few run => exact .some few run.finish
      | none result run => exact .none result run.finish
  | read _ _ answer ih =>
      cases ih with
      | @some got s few run =>
          have heq : gather src.read (5 - got.length) got s = _ := answer
          obtain ⟨b, got', s', hgather, hresult, run'⟩ | ⟨e, d, hgather, -⟩ | ⟨_, _, hgather, -⟩ :=
            gather_cases h hcorrupt run (Nat.add_sub_of_le few.le)
          · cases hgather.symm.trans heq
            exact .none hresult run'
          · cases hgather.symm.trans heq
          · cases hgather.symm.trans heq
      | none result run =>
          cases answer
          rw [List.append_nil]
          exact .none result run
  | wait _ _ answer ih =>
      cases ih with
      | @some got s few run =>
          have heq : gather src.read (5 - got.length) got s = _ := answer
          obtain ⟨_, _, _, hgather, -⟩ | ⟨e, d, hgather, -⟩ | ⟨got', s', hgather, few', run', -⟩ :=
            gather_cases h hcorrupt run (Nat.add_sub_of_le few.le)
          · cases hgather.symm.trans heq
          · cases hgather.symm.trans heq
          · cases hgather.symm.trans heq
            exact .some few' run'
      | none result run => cases answer

end

/-- The decoders of streams of one byte are incremental on what is not corrupt. -/
theorem decodes (coding : Coding) {content : Content UInt8} (hcorrupt : content.corrupt = false) :
  gathering.Decodes coding content (decode content)
  := by
  intro S src start body h pushed finished out s run len hlen
  show Read.Continues (decode content) out finished len _
  cases gathered h hcorrupt run with
  | @some got s few hrun =>
      show (gather src.read (5 - got.length) got s).1.Continues _ _ _ _
      obtain ⟨b, _, _, hread, hresult, -⟩ | ⟨e, d, hread, hresult⟩ | ⟨_, _, hread, -, -, hwait⟩ :=
        gather_cases h hcorrupt hrun (Nat.add_sub_of_le few.le)
      · rw [hread, hresult]
        exact ⟨hlen, List.prefix_rfl, nofun⟩
      · rw [hread]
        exact hresult
      · rw [hread]
        exact hwait
  | none result hrun =>
      rw [result]
      exact ⟨Nat.zero_le _, List.prefix_rfl, fun _ => ⟨rfl, rfl⟩⟩

end OneByte

end Shrike.Xrpc
