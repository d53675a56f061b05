import KiteNdn.Framework.KeyedList
import KiteNdn.Util.Segments
import Mathlib.Data.List.MinMax

/-!
# Interest pipelines and their consumer

What `chunks::PipelineInterests` does for all pipelines. An Interest for a segment is matched only
by Data with the same name. The counters do not wrap around.

`chunks::Consumer` writes the contents in the order of the segment numbers. Its validator accepts
every packet; validations complete in any order.
-/

namespace KiteNdn.Framework

variable {α : Type*}

structure Reorder (α : Type*) where
  next : Nat
  buffer : KeyedList (Prod.fst : Nat × α → Nat)

namespace Reorder

def empty : Reorder α := ⟨0,.empty⟩

def advance (r : Reorder α) : Reorder α :=
  ⟨r.next + 1,r.buffer.filter fun p => p.1 ≠ r.next⟩

end Reorder

end KiteNdn.Framework

namespace KiteNdn

def contentTypeNack : Nat := 3

namespace Chunks

open Framework

structure Consumer where
  validations : List Segment := []
  segments : Reorder Segment := .empty
  /-- The packets whose contents have been written to `m_outputStream`. -/
  outputStream : List Segment := []

namespace Consumer

def handleData (c : Consumer) (d : Segment) : Consumer :=
  { c with validations := c.validations ++ [d] }

def writeInOrder : Nat → Reorder Segment → List Segment × Reorder Segment
  | 0, r => ([],r)
  | fuel + 1, r =>
    match r.buffer.items.argmin Prod.fst with
    | some p =>
      if p.1 = r.next then
        (p.2 :: (writeInOrder fuel r.advance).1,(writeInOrder fuel r.advance).2)
      else ([],r)
    | none => ([],r)

def writeInOrderData (c : Consumer) : Consumer :=
  let written := writeInOrder c.segments.buffer.items.length c.segments
  { c with segments := written.2, outputStream := c.outputStream ++ written.1 }

/-- The validator accepts a packet. An application Nack and a name without segment number raise an
exception. -/
def afterValidation (c : Consumer) (place : Nat) : Option Consumer := do
  let d ← c.validations[place]?
  guard (d.contentType ≠ contentTypeNack)
  let segmentNo ← d.number
  some (writeInOrderData { c with
    validations := c.validations.eraseIdx place
    segments := ⟨c.segments.next,c.segments.buffer.put (segmentNo,d)⟩ })

end Consumer

open Util

def maxRetriesInfinite : Int := -1

structure Options where
  versionedName : Name
  convention : Component.Convention := .typed
  maxRetriesOnTimeoutOrNack : Int := 15
  maxPipelineSize : Nat := 1
  ignoreCongMarks : Bool := false
  disableCwa : Bool := false
  assertions : Bool := true

namespace Options

def interest (o : Options) (segmentNo : Nat) : Request :=
  ⟨o.versionedName ++ [.fromSegment o.convention segmentNo],false⟩

def isAnswered (o : Options) (segmentNo : Nat) (d : Segment) : Bool :=
  segmentNo < 2^64 && (o.interest segmentNo).matchesData d

def assert (o : Options) (p : Prop) [Decidable p] : Option Unit := guard (o.assertions = true → p)

end Options

inductive Failure where
  -- `Fetching terminated but no final segment number has been found`
  | noFinalSegment
  -- `Failure retrieving segment #`
  | segment (segmentNo : Nat)
  -- `Could not retrieve data for` the Interest, `reason:`
  | nack (segmentNo : Nat) (reason : NackReason)
  -- `Reached the maximum number of nack retries`
  | nackRetries (segmentNo : Nat)
  -- `Reached the maximum number of timeout retries`
  | timeoutRetries (segmentNo : Nat)
  -- `Reached the maximum number of retries`
  | retries (segmentNo : Nat)
  deriving DecidableEq, Repr

def Failure.segmentNo? : Failure → Option Nat
  | .noFinalSegment => none
  | .segment n | .nack n _ | .nackRetries n | .timeoutRetries n | .retries n => some n

structure PipelineInterests where
  hasFinalBlockId : Bool := false
  lastSegmentNo : Nat := 0
  nReceived : Nat := 0
  nextSegmentNo : Nat := 0
  isStopping : Bool := false
  failure : Option Failure := none
  consumer : Consumer := {}

namespace PipelineInterests

def allSegmentsReceived (b : PipelineInterests) : Bool :=
  b.nReceived > 0 && b.hasFinalBlockId && b.nReceived - 1 ≥ b.lastSegmentNo

def onData (b : PipelineInterests) (d : Segment) : PipelineInterests :=
  { b with
    nReceived := b.nReceived + 1
    consumer := b.consumer.handleData d }

def setFinalBlock (b : PipelineInterests) (last : Nat) : PipelineInterests :=
  { b with
    lastSegmentNo := last
    hasFinalBlockId := true }

def newFinalBlock (b : PipelineInterests) (d : Segment) : Option Component :=
  if b.hasFinalBlockId then none else d.finalBlock

end PipelineInterests

end Chunks

end KiteNdn
