import Mathlib.Algebra.Notation.Defs
import Mathlib.Data.List.AList
import Mathlib.Data.String.Basic
import Skyext.Lib.LuaNumber

namespace Skyext
set_option autoImplicit true

namespace Metrics

/-- A label set, by its names in order and the text of their values. -/
structure Labels where
  pairs : List (String × String)
  sorted : pairs.Pairwise (·.1 < ·.1)
  deriving DecidableEq

/-- What a metric is declared as; a histogram has the bounds of its buckets. -/
inductive Kind
  | counter
  | gauge
  | histogram (buckets : List LuaNumber)
  deriving DecidableEq

/-- `kind` without the buckets. -/
def Kind.same : Kind → Kind → Bool
  | .counter, .counter => true
  | .gauge, .gauge => true
  | .histogram _, .histogram _ => true
  | _, _ => false

def Kind.size : Kind → Nat
  | .histogram buckets => buckets.length
  | _ => 0

/-- A sample of a snapshot, which may lack fields, and a series of the accumulator. Its numbers are
those of Lua, or others that can be added. -/
structure Sample (ν : Type) where
  labels : Labels
  value : Option ν := none
  count : Option ν := none
  sum : Option ν := none
  counts : Option (List ν) := none
  deriving DecidableEq

structure Metric (ν : Type) where
  name : String
  help : Option String := none
  kind : Kind
  samples : List (Sample ν)
  deriving DecidableEq

abbrev Snapshot (ν : Type) := List (Metric ν)

/-- A metric of the accumulator, with its series by their keys. -/
structure Entry (ν : Type) where
  help : String
  kind : Kind
  series : AList fun _ : String => Sample ν

/-- `conflict_list` -/
structure Accumulator (ν : Type) where
  metrics : AList fun _ : String => Entry ν
  conflicts : List String

def Accumulator.new : Accumulator ν := ⟨∅, []⟩

def seriesKey (labels : Labels) : String :=
  "\x00".intercalate (labels.pairs.map fun p => p.1 ++ "=" ++ p.2)

section Add

variable [Zero ν] [Add ν]

namespace Accumulator

def conflict (acc : Accumulator ν) (name : String) : Accumulator ν :=
  if name ∈ acc.conflicts then acc else { acc with conflicts := acc.conflicts ++ [name] }

def metric (acc : Accumulator ν) (name : String) (help : Option String) (kind : Kind) :
    Accumulator ν × Option (Entry ν) :=
  match acc.metrics.lookup name with
  | none =>
    let m : Entry ν := ⟨help.getD name, kind, ∅⟩
    ({ acc with metrics := acc.metrics.insert name m }, some m)
  | some m => if m.kind.same kind then (acc, some m) else (acc.conflict name, none)

/-- `get_series` and what is made of the series. -/
def setSeries (acc : Accumulator ν) (name : String) (m : Entry ν) (labels : Labels)
    (f : Sample ν → Sample ν) : Accumulator ν :=
  let key := seriesKey labels
  let series := (m.series.lookup key).getD { labels := labels }
  { acc with
    metrics := acc.metrics.insert name { m with series := m.series.insert key (f series) } }

def add (acc : Accumulator ν) (name : String) (help : Option String) (kind : Kind) (labels : Labels)
    (value : ν) : Accumulator ν :=
  match acc.metric name help kind with
  | (acc', none) => acc'
  | (acc', some m) =>
    acc'.setSeries name m labels fun series =>
      { series with value := some (series.value.getD 0 + value) }

def addCounts (n : Nat) (merged counts : List ν) : List ν :=
  (List.range n).map fun i => merged.getD i 0 + counts.getD i 0

def addHistogram (acc : Accumulator ν) (name : String) (help : Option String)
    (buckets : List LuaNumber) (labels : Labels) (count sum : ν) (counts : Option (List ν)) :
    Accumulator ν :=
  match acc.metric name help (.histogram buckets) with
  | (acc', none) => acc'
  | (acc', some m) =>
    if m.kind.size ≠ buckets.length then acc'.conflict name
    else
      acc'.setSeries name m labels fun series =>
        { series with
          count := some (series.count.getD 0 + count)
          sum := some (series.sum.getD 0 + sum)
          counts := some (addCounts buckets.length
            (series.counts.getD (List.replicate buckets.length 0)) (counts.getD [])) }

def addSample (acc : Accumulator ν) (m : Metric ν) (sample : Sample ν) : Accumulator ν :=
  match m.kind with
  | .histogram buckets =>
    acc.addHistogram m.name m.help buckets sample.labels (sample.count.getD 0)
      (sample.sum.getD 0) sample.counts
  | kind => acc.add m.name m.help kind sample.labels (sample.value.getD 0)

/-- `add_snapshot`, which ignores what is no table. -/
def addSnapshot (acc : Accumulator ν) : Option (Snapshot ν) → Accumulator ν
  | none => acc
  | some snapshot => snapshot.foldl
      (fun acc m => m.samples.foldl (fun acc s => acc.addSample m s) acc) acc

def result (acc : Accumulator ν) : Snapshot ν × List String :=
  (acc.metrics.entries.map fun e =>
    ⟨e.1, some e.2.help, e.2.kind, e.2.series.entries.map fun s => s.2⟩, acc.conflicts)

end Accumulator

/-- The merge of the snapshots, in the order they are added. -/
def merge (snapshots : List (Option (Snapshot ν))) : Snapshot ν × List String :=
  (snapshots.foldl Accumulator.addSnapshot .new).result

/-- Groups are merged first and then their results; conflicts are reported at each merge. -/
def mergeGroups (groups : List (List (Option (Snapshot ν)))) : Snapshot ν × List String :=
  let merged := merge (groups.map fun g => some (merge g).1)
  (merged.1, groups.flatMap (fun g => (merge g).2) ++ merged.2)

end Add
end Metrics
end Skyext
