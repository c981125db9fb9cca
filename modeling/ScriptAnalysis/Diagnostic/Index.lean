import ScriptAnalysis.Diagnostic.Basic
import Std.Data.TreeMap.Basic

/-!
# Diagnostics by offset

A `DiagnosticIndex` keeps the diagnostics of one script in buckets, one per offset at which
something is reported.  Buckets are listed by ascending offset; within a bucket the order of
insertion is kept.
-/

namespace ScriptAnalysis

/-- Diagnostics in buckets by their offset.  No bucket is empty. -/
structure DiagnosticIndex where
  buckets : Std.TreeMap Nat (List Diagnostic) := ∅

namespace DiagnosticIndex

def empty : DiagnosticIndex := {}

/-- Adds a diagnostic at the end of the bucket of its offset. -/
def push (index : DiagnosticIndex) (d : Diagnostic) : DiagnosticIndex :=
  ⟨index.buckets.insert d.offset (index.buckets.getD d.offset [] ++ [d])⟩

def append (index : DiagnosticIndex) (ds : List Diagnostic) : DiagnosticIndex :=
  ds.foldl push index

def ofList (ds : List Diagnostic) : DiagnosticIndex := empty.append ds

/-- What is reported at exactly `offset`. -/
def reportedAt (index : DiagnosticIndex) (offset : Nat) : List Diagnostic :=
  index.buckets.getD offset []

def bucketList (index : DiagnosticIndex) : List (Nat × List Diagnostic) := index.buckets.toList

/-- The offsets at which something is reported, in ascending order. -/
def offsets (index : DiagnosticIndex) : List Nat := index.buckets.keys

/-- Every diagnostic, by offset and then by insertion. -/
def toList (index : DiagnosticIndex) : List Diagnostic := index.bucketList.flatMap Prod.snd

def bucketCount (index : DiagnosticIndex) : Nat := index.buckets.size

def size (index : DiagnosticIndex) : Nat := index.toList.length

def isEmpty (index : DiagnosticIndex) : Bool := index.buckets.isEmpty

instance : BEq DiagnosticIndex := ⟨fun a b => a.bucketList == b.bucketList⟩

end DiagnosticIndex

end ScriptAnalysis
