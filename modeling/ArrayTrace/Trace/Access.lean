import ArrayTrace.Trace.Node

/-!
# Access logs

The accesses to one array that later nodes may have to wait for. An assignment
waits for the assignment before it and for the reads whose regions it overlaps;
a read waits for the last assignment. Reads stay in the log until an assignment
overlaps them, so that a later one is still ordered after them.
-/

namespace ArrayTrace

/-- Accesses to one array. -/
structure AccessLog where
  lastWriter : Option NodeId := none
  readers : List (NodeId × Region) := []

namespace AccessLog

/-- The log after a read. The reader waits for the last writer. -/
def read (log : AccessLog) (reader : NodeId) (region : Region) : AccessLog :=
  { log with readers := log.readers ++ [(reader, region)] }

/-- The nodes an assignment to a region waits for. -/
def conflicts (log : AccessLog) (writer : NodeId) (region : Region) : List NodeId :=
  log.lastWriter.toList ++
    ((log.readers.filter fun r => r.2.overlaps region).map Prod.fst).filter (· ≠ writer)

/-- The log after an assignment to a region. -/
def write (log : AccessLog) (writer : NodeId) (region : Region) : AccessLog :=
  { lastWriter := some writer
    readers := log.readers.filter fun r => !r.2.overlaps region }

@[simp] theorem lastWriter_read (log : AccessLog) (reader : NodeId) (region : Region) :
    (log.read reader region).lastWriter = log.lastWriter := rfl

@[simp] theorem readers_read (log : AccessLog) (reader : NodeId) (region : Region) :
    (log.read reader region).readers = log.readers ++ [(reader, region)] := rfl

@[simp] theorem lastWriter_write (log : AccessLog) (writer : NodeId) (region : Region) :
    (log.write writer region).lastWriter = some writer := rfl

theorem mem_readers_write {log : AccessLog} {writer : NodeId} {region : Region}
    {r : NodeId × Region} :
    r ∈ (log.write writer region).readers ↔ r ∈ log.readers ∧ r.2.overlaps region = false := by
  simp [write]

end AccessLog

end ArrayTrace
