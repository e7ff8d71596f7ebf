import Shrike.Data.Readers
import Shrike.Data.Text

/-!
# Request bodies

A request body that arrives in chunks, with its content codings undone and its size limited as it
is read.
-/

namespace Shrike.Xrpc

open Bytes Readers

/-! ### Errors -/

/-- The types of the errors of a body. -/
inductive ResponseType where
  | invalidRequest
  | payloadTooLarge
  | unsupportedMediaType

/-- The error of a server, with its type and its message. -/
structure ServerError where
  type : ResponseType
  message : Bytes

/-- A body has more bytes than its limit. -/
def tooLarge : ServerError := ⟨.payloadTooLarge, ascii "request entity too large"⟩

/-- The coding of a body is corrupt. -/
def decodeError (e : Bytes) : ServerError :=
  ⟨.invalidRequest, ascii "Failed to decode request body: " ++ e⟩

/-- The connection that a body comes from is broken. -/
def readError (e : Bytes) : ServerError :=
  ⟨.invalidRequest, ascii "Failed to read request body: " ++ e⟩

/-! ### Received bytes -/

/-- The encoded bytes that were received, and how many of them were read. -/
structure Pending where
  buf : Bytes
  pos : ℕ
  eof : Bool

namespace Pending

/-- Nothing was received. -/
def empty : Pending := ⟨[], 0, false⟩

/-- Read into a buffer. There is nothing to read yet before the end of the body is known. -/
def read (len : ℕ) (p : Pending) : Read UInt8 Bytes × Pending :=
  if p.pos = p.buf.length then (if p.eof then .bytes [] else .wouldBlock, p)
  else
    let n := min len (p.buf.length - p.pos)
    (.bytes ((p.buf.drop p.pos).take n), { p with pos := p.pos + n })

/-- Receive a chunk. The buffer is used again when all of it was read. -/
def push (chunk : Bytes) (p : Pending) : Pending :=
  let p := if p.pos = p.buf.length then { p with buf := [], pos := 0 } else p
  { p with buf := p.buf ++ chunk }

/-- The body has ended. -/
def finishInput (p : Pending) : Pending := { p with eof := true }

/-- The reader of the bytes that were received. -/
def source : Source UInt8 Bytes Pending := ⟨read, push, finishInput⟩

end Pending

/-! ### Decoders -/

/-- The codings of a body. -/
inductive Coding where
  | gzip
  | deflate
  | brotli

/-- The coding of an entry of a header. There is none to undo for the identity. -/
def readCoding (coding : Bytes) : Except ServerError (Option Coding) :=
  let name := (trim coding).map toAsciiLowercase
  if name = ascii "identity" then .ok none
  else if name = ascii "gzip" ∨ name = ascii "x-gzip" then .ok (some .gzip)
  else if name = ascii "deflate" then .ok (some .deflate)
  else if name = ascii "br" then .ok (some .brotli)
  else .error ⟨.unsupportedMediaType, ascii "unsupported content-encoding"⟩

/-- The codings of the values of a `Content-Encoding` header, in the order in which they were
applied. A value that is no text of visible characters is unsupported. -/
def codings (values : List Bytes) : Except ServerError (List Coding) := do
  let lists ← (values.filter (· ≠ [])).mapM fun value =>
    if value.all fun b => (32 ≤ b && b < 127) || b = 9 then
      (value.splitOn (char ',')).mapM readCoding
    else .error ⟨.unsupportedMediaType, ascii "unsupported content-encoding"⟩
  .ok (lists.flatten.filterMap id)

/-- The largest chunk that is decoded at once. -/
def decodeChunk : ℕ := 64 * 1024

/-- What the network gives of a body. -/
inductive Incoming where
  | pending
  | chunk (bs : Bytes)
  | failed (e : Bytes)

/-- What a stream gives when it is polled. -/
inductive Poll (α : Type) where
  | pending
  | ready (a : α)

variable (decoders : Decoders UInt8 Bytes Coding)

/-- The decoder of a body, which consists of the decoders of its codings and of the bytes that were
received. -/
abbrev Decoder (cs : List Coding) := Chain decoders Pending cs

variable {decoders} {cs : List Coding}

namespace Decoder

/-- The decoders of a body, one reading what the other decodes. -/
def source (decoders : Decoders UInt8 Bytes Coding) (cs : List Coding) :
    Source UInt8 Bytes (Decoder decoders cs) :=
  chain decoders Pending.source cs

/-- Decode a chunk. There is none if more input is needed, and it is empty at the end. -/
def read (d : Decoder decoders cs) : Except Bytes (Option Bytes) × Decoder decoders cs :=
  match (source decoders cs).read decodeChunk d with
  | (.bytes bs, d) => (.ok (some bs), d)
  | (.wouldBlock, d) => (.ok none, d)
  | (.interrupted, d) => (.ok none, d)
  | (.failed e, d) => (.error e, d)

end Decoder

/-! ### Body streams -/

/-- The largest number of 64 bits. -/
def u64Max : ℕ := 2 ^ 64 - 1

variable (decoders cs) in
/-- A streamed body, with what is still to come of it from the network. -/
structure BodyStream where
  inner : List Incoming
  decoder : Option (Decoder decoders cs)
  limit : Option ℕ
  seen : ℕ
  done : Bool

/-- Whether there are more bytes than a limit, if there is one. -/
def exceeds (limit : Option ℕ) (bytes : ℕ) : Bool := limit.any (· < bytes)

/-- What a poll of a body gives. -/
abbrev Polled := Poll (Option (Except ServerError Bytes))

namespace BodyStream

variable (decoders cs) in
/-- A body of which nothing was read, with the codings that are to be undone. -/
def new (inner : List Incoming) (limit : Option ℕ) : BodyStream decoders cs where
  inner := inner
  decoder := if cs = [] then none else some (startChain decoders Pending.empty cs)
  limit := limit
  seen := 0
  done := false

/-- An error is the last that a body gives. -/
def fail (s : BodyStream decoders cs) (e : ServerError) : Polled × BodyStream decoders cs :=
  (.ready (some (.error e)), { s with done := true })

/-- The end of a body. -/
def finish (s : BodyStream decoders cs) : Polled × BodyStream decoders cs :=
  (.ready none, { s with done := true })

/-- Give a chunk, unless it exceeds the limit. -/
def emit (s : BodyStream decoders cs) (chunk : Bytes) : Polled × BodyStream decoders cs :=
  let s := { s with seen := min (s.seen + chunk.length) u64Max }
  if exceeds s.limit s.seen then s.fail tooLarge else (.ready (some (.ok chunk)), s)

/-- What is to be done with what the network gives: an answer, or another pass. -/
def receive (s : BodyStream decoders cs) : Option Polled × BodyStream decoders cs :=
  match s.inner with
  | [] =>
      match s.decoder with
      | some d => (none, { s with decoder := some ((Decoder.source decoders cs).finish d) })
      | none => s.finish.map some id
  | .pending :: inner => (some .pending, { s with inner := inner })
  | .failed e :: inner => ({ s with inner := inner }.fail (readError e)).map some id
  | .chunk bs :: inner =>
      match s.decoder with
      | some d =>
          let d := (Decoder.source decoders cs).push bs d
          (none, { s with inner := inner, decoder := some d })
      | none =>
          if bs = [] then (none, { s with inner := inner })
          else ({ s with inner := inner }.emit bs).map some id

/-- A pass of the loop of a poll: decoded output is given before more of the body is read. -/
def pass (s : BodyStream decoders cs) : Option Polled × BodyStream decoders cs :=
  if s.done then (some (.ready none), s)
  else
    match s.decoder with
    | none => s.receive
    | some d =>
        match d.read with
        | (.ok (some chunk), d) =>
            if chunk = [] then { s with decoder := some d }.finish.map some id
            else ({ s with decoder := some d }.emit chunk).map some id
        | (.ok none, d) => { s with decoder := some d }.receive
        | (.error e, d) => ({ s with decoder := some d }.fail (decodeError e)).map some id

/-- Poll a body, in at most a number of passes. -/
def pollNext : ℕ → BodyStream decoders cs → Option (Polled × BodyStream decoders cs)
  | 0, _ => none
  | passes + 1, s =>
      match s.pass with
      | (some answer, s) => some (answer, s)
      | (none, s) => pollNext passes s

/-- Read a whole body, in at most a number of polls, after a part of it. -/
def collect : ℕ → BodyStream decoders cs → Bytes → Option (Except ServerError Bytes)
  | 0, _, _ => none
  | fuel + 1, s, out => do
      match ← s.pollNext fuel with
      | (.pending, s) => s.collect fuel out
      | (.ready none, _) => some (.ok out)
      | (.ready (some (.ok chunk)), s) => s.collect fuel (out ++ chunk)
      | (.ready (some (.error e)), _) => some (.error e)

end BodyStream

/-! ### What was received and not read -/

namespace Pending

/-- The bytes that were received and not read. -/
def rest (p : Pending) : Bytes := p.buf.drop p.pos

theorem rest_push {p : Pending} (h : p.pos ≤ p.buf.length) (chunk : Bytes) :
  (p.push chunk).rest = p.rest ++ chunk ∧ (p.push chunk).pos ≤ (p.push chunk).buf.length
    ∧ (p.push chunk).eof = p.eof
  := by
  rw [push]
  split_ifs with hread
  · refine ⟨?_, Nat.zero_le _, rfl⟩
    rw [rest, rest, hread, List.drop_length]
    rfl
  · refine ⟨List.drop_append_of_le_length h, ?_, rfl⟩
    show p.pos ≤ (p.buf ++ chunk).length
    rw [List.length_append]
    omega

theorem rest_read {p p' : Pending} {len : ℕ} {answer : Read UInt8 Bytes} (hlen : 0 < len)
    (h : p.pos ≤ p.buf.length) (hread : p.read len = (answer, p')) :
  p'.pos ≤ p'.buf.length ∧ p'.eof = p.eof
    ∧ ((∃ bs, answer = .bytes bs ∧ bs.length ≤ len ∧ p.rest = bs ++ p'.rest
          ∧ (bs = [] → p.eof = true ∧ p.rest = []))
        ∨ answer = .wouldBlock ∧ p.eof = false ∧ p'.rest = p.rest)
  := by
  rw [read] at hread
  split_ifs at hread with hempty heof
  · cases hread
    have hrest : p.rest = [] := by
      rw [rest, hempty, List.drop_length]
    exact ⟨h, rfl, .inl ⟨[], rfl, Nat.zero_le _, rfl, fun _ => ⟨heof, hrest⟩⟩⟩
  · cases hread
    exact ⟨h, rfl, .inr ⟨rfl, Bool.eq_false_of_not_eq_true heof, rfl⟩⟩
  · cases hread
    refine ⟨?_, rfl, .inl ⟨_, rfl, ?_, ?_, ?_⟩⟩
    · show p.pos + min len (p.buf.length - p.pos) ≤ p.buf.length
      omega
    · rw [List.length_take]
      omega
    · show p.buf.drop p.pos = _ ++ p.buf.drop (p.pos + _)
      rw [← List.drop_drop, List.take_append_drop]
    · intro hnil
      have hlength := congrArg List.length hnil
      rw [List.length_take, List.length_drop, List.length_nil] at hlength
      omega

/-- What was received is what was read and what was not read. -/
theorem received {body pushed out : Bytes} {finished : Bool} {p : Pending}
    (run : Run source empty body pushed finished out p) :
  pushed = out ++ p.rest ∧ p.pos ≤ p.buf.length ∧ p.eof = finished
  := by
  induction run with
  | start => exact ⟨rfl, Nat.le_refl _, rfl⟩
  | @push pushed out p chunk run input ih =>
      obtain ⟨hpushed, hpos, heof⟩ := ih
      obtain ⟨hrest, hpos', heof'⟩ := rest_push hpos chunk
      refine ⟨?_, hpos', heof'.trans heof⟩
      show _ = out ++ (p.push chunk).rest
      rw [hrest, hpushed, List.append_assoc]
  | finish run ih => exact ⟨ih.1, ih.2.1, rfl⟩
  | read room run answer ih =>
      obtain ⟨hpushed, hpos, heof⟩ := ih
      obtain ⟨hpos', heof', hcases⟩ := rest_read room hpos answer
      refine ⟨?_, hpos', heof'.trans heof⟩
      obtain ⟨bs, heq, -, hrest, -⟩ | ⟨heq, -, -⟩ := hcases
      · cases heq
        rw [hpushed, hrest, List.append_assoc]
      · cases heq
  | wait room run answer ih =>
      obtain ⟨hpushed, hpos, heof⟩ := ih
      obtain ⟨hpos', heof', hcases⟩ := rest_read room hpos answer
      refine ⟨?_, hpos', heof'.trans heof⟩
      obtain ⟨bs, heq, -, hrest, -⟩ | ⟨-, -, hrest⟩ := hcases
      · cases heq
      · rw [hpushed, hrest]

end Pending

end Shrike.Xrpc
