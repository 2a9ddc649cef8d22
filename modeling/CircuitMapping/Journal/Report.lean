/-
  CircuitMapping.Journal.Report — how a pass reports into a journal.

  A pass that succeeds appends one record and then its metrics; one that fails, or whose report cannot be made, leaves
  the journal as it was. Without a journal the report is not made at all.
-/
import CircuitMapping.Journal.Basic

namespace CircuitMapping

/-- What one run of a pass adds to a journal. -/
structure Report where
  record : Journal.Record
  metrics : List (String × Int)
  deriving DecidableEq, Repr

namespace Report

/-- The journal with a report at its end. -/
def appendTo (r : Report) (j : Journal) : Journal :=
  r.metrics.foldl (fun j m => j.measure m.1 m.2) (j.record r.record)

/-- The outcome of a pass, and the journal after it reported. -/
def run {α : Type} (outcome : Except Error α) (report : α → Except Error Report) (journal : Option Journal) :
    Except Error α × Option Journal :=
  match outcome, journal with
  | .error e, _ => (.error e, journal)
  | .ok a, none => (.ok a, none)
  | .ok a, some j =>
    match report a with
    | .error e => (.error e, some j)
    | .ok r => (.ok a, some (r.appendTo j))

end Report

end CircuitMapping
