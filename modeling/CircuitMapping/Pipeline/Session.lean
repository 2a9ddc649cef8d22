/-
  CircuitMapping.Pipeline.Session — the journals and passes that a program holds, and the calls that it makes on them.

  A pass stays attached to a journal from one `attach` to the next; a new pass is attached to none. What a pass reports
  goes into the journal that it is attached to then, and nowhere if there is none: the report of a run that succeeds
  (`Pass.Job`), and the records and metrics that a pass of any other kind notes one by one (`note`, `noteMetric`). The
  program can also write into a journal itself (`record`, `measure`).

  A job comes with the options of its pass, so that all a pass keeps from one run to the next is where it is attached.
-/
import CircuitMapping.Pipeline.Passes

namespace CircuitMapping

namespace Pass

/-- A run to be made: the options of the pass, and what it is run on. -/
inductive Job where
  | placeLowest (c : Circuit) (d : Device)
  | placeSabre (o : Sabre.Options) (c : Circuit) (d : Device)
  | placeRequested (request : Request) (c : Circuit) (d : Device)
  | route (o : Routing.Options) (initial : Option Layout) (c : Circuit) (d : Device)
  | routePinned (o : Routing.Options) (request : Request) (c : Circuit) (d : Device)
  | schedule (s : Scheduler .words) (c : Circuit)
  deriving Repr

/-- What a run makes. -/
inductive Product where
  | layout (l : Layout)
  | routed (r : Routed)
  | schedule (s : Schedule)
  deriving DecidableEq, Repr

namespace Job

/-- The name under which the pass records. -/
def name : Job → String
  | placeLowest _ _ => "TrivialLayoutPass"
  | placeSabre _ _ _ => "SabreLayoutPass"
  | placeRequested _ _ _ => "CustomLayoutPass"
  | route _ _ _ _ => "ShortestPathRouter"
  | routePinned _ _ _ _ => "CustomLayoutPass"
  | schedule _ _ => "TimingScheduler"

/-- A run with its outcome as a product. -/
def making {α : Type} (product : α → Product) (x : Except Error α × Option Journal) :
    Except Error Product × Option Journal :=
  (x.1.map product, x.2)

def run : Job → Option Journal → Except Error Product × Option Journal
  | placeLowest c d, journal => making .layout (Pass.placeLowest c d journal)
  | placeSabre o c d, journal => making .layout (Pass.placeSabre o c d journal)
  | placeRequested request c d, journal => making .layout (Pass.placeRequested request c d journal)
  | route o initial c d, journal => making .routed (Pass.route o initial c d journal)
  | routePinned o request c d, journal => making .routed (Pass.routePinned o request c d journal)
  | schedule s c, journal => making .schedule (Pass.schedule s c journal)

end Job

end Pass

structure Session where
  journals : List Journal
  /-- For each pass, the place of the journal that it is attached to. -/
  contexts : List (Option Nat)
  deriving DecidableEq, Repr

namespace Session

def empty : Session := ⟨[], []⟩

/-- A call on a pass at `p` or a journal at `k`, or one that makes a new one. -/
inductive Call where
  | newJournal
  | newPass
  | attach (p : Nat) (k : Option Nat)
  | record (k : Nat) (r : Journal.Record)
  | measure (k : Nat) (key : String) (value : Int)
  | note (p : Nat) (r : Journal.Record)
  | noteMetric (p : Nat) (key : String) (value : Int)
  | run (p : Nat) (job : Pass.Job)
  deriving Repr

/-- The place of the journal that a pass is attached to, if it is attached. -/
def context? (s : Session) (p : Nat) : Option Nat := s.contexts[p]?.join

/-- The place of the journal that a call may write to. -/
def Call.target? (s : Session) : Call → Option Nat
  | record k _ | measure k _ _ => some k
  | note p _ | noteMetric p _ _ | run p _ => s.context? p
  | _ => none

/-- Attaches a pass to a journal that there is, or to none. -/
def attach (s : Session) (p : Nat) (k : Option Nat) : Session :=
  if k.all fun k => decide (k < s.journals.length) then { s with contexts := s.contexts.set p k } else s

def writeTo (s : Session) (k : Nat) (write : Journal → Journal) : Session :=
  { s with journals := s.journals.modify k write }

/-- Writes into the journal that a pass is attached to, if it is attached. -/
def report (s : Session) (p : Nat) (write : Journal → Journal) : Session :=
  match s.context? p with
  | some k => s.writeTo k write
  | none => s

/-- Runs a pass with the journal that it is attached to. -/
def run (s : Session) (p : Nat) (job : Pass.Job) : Except Error Pass.Product × Session :=
  let x := job.run ((s.context? p).bind fun k => s.journals[k]?)
  (x.1, s.report p fun j => x.2.getD j)

def call (s : Session) : Call → Session
  | .newJournal => { s with journals := s.journals ++ [.empty] }
  | .newPass => { s with contexts := s.contexts ++ [none] }
  | .attach p k => s.attach p k
  | .record k r => s.writeTo k (·.record r)
  | .measure k key value => s.writeTo k (·.measure key value)
  | .note p r => s.report p (·.record r)
  | .noteMetric p key value => s.report p (·.measure key value)
  | .run p job => (s.run p job).2

/-- What calls in a row leave. -/
def callAll (s : Session) (xs : List Call) : Session := xs.foldl call s

end Session

end CircuitMapping
