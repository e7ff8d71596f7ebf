import Mathlib.Data.List.Infix

/-!
# Incremental readers

Readers of input that arrives in pieces, and chains of decoders that read each other. What a reader
delivers up to its end depends on the whole input, but not on the pieces nor on when it is read. Of
a corrupt input a reader delivers some part before it fails.
-/

namespace Readers

/-- What reading into a buffer gives. To read nothing is the end. -/
inductive Read (β ε : Type) where
  | bytes (bs : List β)
  | wouldBlock
  | interrupted
  | failed (e : ε)

/-- A reader over the states `S`, which is given the length of the buffer. -/
abbrev Reader (β ε S : Type) := ℕ → S → Read β ε × S

/-- A reader whose input is pushed to it, until it is finished. -/
structure Source (β ε S : Type) where
  read : Reader β ε S
  push : List β → S → S
  finish : S → S

/-- All that a reader delivers. If it is corrupt, the reader fails at the latest after it. -/
structure Content (β : Type) where
  bytes : List β
  corrupt : Bool

variable {β ε S : Type}

/-- The runs of a reader on an input: what was pushed, whether it is finished, and what was read. -/
inductive Run (src : Source β ε S) (start : S) (body : List β) :
    List β → Bool → List β → S → Prop where
  | start : Run src start body [] false [] start
  | push {pushed out s chunk} (run : Run src start body pushed false out s)
      (input : pushed ++ chunk <+: body) :
      Run src start body (pushed ++ chunk) false out (src.push chunk s)
  | finish {finished out s} (run : Run src start body body finished out s) :
      Run src start body body true out (src.finish s)
  | read {pushed out bs finished s s' len} (room : 0 < len)
      (run : Run src start body pushed finished out s) (answer : src.read len s = (.bytes bs, s')) :
      Run src start body pushed finished (out ++ bs) s'
  | wait {pushed out finished s s' len} (room : 0 < len)
      (run : Run src start body pushed finished out s) (answer : src.read len s = (.wouldBlock, s')) :
      Run src start body pushed finished out s'

/-- What may be read of a content after a part of it, into a buffer of a length. It ends only at the
end, it fails only if it is corrupt, wherever this is noticed, and it waits only for an input that
is not finished. -/
def Read.Continues (content : Content β) (out : List β) (finished : Bool) (len : ℕ) :
    Read β ε → Prop
  | .bytes bs => bs.length ≤ len ∧ out ++ bs <+: content.bytes
      ∧ (bs = [] → out = content.bytes ∧ content.corrupt = false)
  | .wouldBlock => finished = false
  | .interrupted => False
  | .failed _ => content.corrupt = true

/-- A reader delivers a content of an input, in whatever pieces the input is pushed. -/
def Delivers (src : Source β ε S) (start : S) (body : List β) (content : Content β) : Prop :=
  ∀ pushed finished out s, Run src start body pushed finished out s → ∀ len, 0 < len →
    (src.read len s).1.Continues content out finished len

/-! ### Chains of decoders -/

/-- Decoders of codings, which read what another reader delivers. -/
structure Decoders (β ε Coding : Type) where
  State : Coding → Type
  start : ∀ coding, State coding
  read : ∀ coding {S : Type}, Reader β ε S → Reader β ε (State coding × S)

/-- A reader of what a source delivers is pushed the input of the source. -/
def Source.through {D : Type} (src : Source β ε S) (read : Reader β ε (D × S)) :
    Source β ε (D × S) where
  read := read
  push bs s := (s.1, src.push bs s.2)
  finish s := (s.1, src.finish s.2)

variable {Coding : Type} (decoders : Decoders β ε Coding)

/-- A decoder is incremental on a content: it delivers what the content decodes to, whatever the
source that delivers the content. -/
def Decoders.Decodes (coding : Coding) (content decoded : Content β) : Prop :=
  ∀ {S : Type} (src : Source β ε S) (start : S) (body : List β), Delivers src start body content →
    Delivers (src.through (decoders.read coding src.read)) (decoders.start coding, start) body
      decoded

/-- The states of a chain of decoders, where the last one reads the source. -/
def Chain (S : Type) : List Coding → Type
  | [] => S
  | coding :: codings => decoders.State coding × Chain S codings

/-- A chain of decoders. -/
def chain (src : Source β ε S) : ∀ codings, Source β ε (Chain decoders S codings)
  | [] => src
  | coding :: codings =>
      (chain src codings).through (decoders.read coding (chain src codings).read)

/-- A chain of decoders over a source, before anything is read. -/
def startChain (start : S) : ∀ codings, Chain decoders S codings
  | [] => start
  | coding :: codings => (decoders.start coding, startChain start codings)

section

variable {src : Source β ε S} {start s : S} {body pushed out : List β} {finished : Bool}
  {content : Content β}

/-- What was read is a part of the content. -/
theorem Delivers.isPrefix (h : Delivers src start body content)
    (run : Run src start body pushed finished out s) :
  out <+: content.bytes
  := by
  induction run with
  | start => exact List.nil_prefix
  | push run input ih => exact ih
  | finish run ih => exact ih
  | read room run answer ih =>
      have hread := h _ _ _ _ run _ room
      rw [answer] at hread
      exact hread.2.1
  | wait room run answer ih => exact ih

end

end Readers
