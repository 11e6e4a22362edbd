import Acpi.Binding.Pass
import Acpi.Namespace.Tree

namespace Acpi

inductive Level
  | trace
  | debug
  | warn
  deriving DecidableEq

def Level.text : Level → String
  | .trace => "TRACE"
  | .debug => "DEBUG"
  | .warn => "WARN"

inductive Notice
  | attached (child parent : Path)
  | bound (count : Nat)
  | failed (c : Complaint)
  | unknownObject (id : ObjectId)
  | sinkRefused

namespace Notice

def level : Notice → Level
  | .attached _ _ => .trace
  | .bound _ | .sinkRefused => .debug
  | .failed _ | .unknownObject _ => .warn

def text : Notice → String
  | .attached child parent => s!"aml: attached {child.text} under {parent.text}"
  | .bound count => s!"aml: bound {count} symbol references"
  | .failed c => s!"aml: {c.text}"
  | .unknownObject id => s!"aml: bind requested for unknown entity {id.text}"
  | .sinkRefused => "aml: diagnostic sink rejected bind error"

def line (n : Notice) : String := s!"{n.level.text} {n.text}"

end Notice

/-- Where complaints are written, a line each; it may refuse them. -/
inductive Sink
  | accepting (written : String)
  | refusing

namespace Sink

/-- All that was written. -/
def written : Sink → String
  | .accepting w => w
  | .refusing => ""

/-- The sink after a line, unless it refuses. -/
def write? : Sink → String → Option Sink
  | .accepting w, line => some (.accepting (w ++ line ++ "\n"))
  | .refusing, _ => none

/-- Writes a complaint; the log hears of it in any case, and first of a refusal. -/
def complain (s : Sink) (c : Complaint) : Sink × List Notice :=
  match s.write? c.text with
  | some after => (after, [.failed c])
  | none => (s, [.sinkRefused, .failed c])

end Sink

structure Session where
  space : Namespace
  /-- In the order they were given. -/
  notices : List Notice := []

namespace Session

def notify (s : Session) (notices : List Notice) : Session :=
  { s with notices := s.notices ++ notices }

def attachedNotice (ns : Namespace) (parent child : ObjectId) : Notice :=
  .attached (ns.pathTo child) (ns.pathTo parent)

def attach (s : Session) (parent child : ObjectId) : Except AttachError Unit × Session :=
  match s.space.attach parent child with
  | .error e => (.error e, s)
  | .ok space => (.ok (), { s with space }.notify [attachedNotice space parent child])

def declare (s : Session) (parent : ObjectId) (o : Object) :
    Except AttachError ObjectId × Session :=
  match s.space.declare parent o with
  | (.error e, space) => (.error e, { s with space })
  | (.ok id, space) => (.ok id, { s with space }.notify [attachedNotice space parent id])

def bind (s : Session) (sink : Sink) (id : ObjectId) : Except Fault Unit × Sink × Session :=
  match s.space.bind id with
  | .ok space =>
    let notices := if s.space.contains id then [] else [.unknownObject id]
    (.ok (), sink, { s with space }.notify notices)
  | .error c =>
    let (sink, notices) := sink.complain c
    (.error c.fault, sink, s.notify notices)

def bindAll? (s : Session) (sink : Sink) : Option (Except Fault Nat × Sink × Session) :=
  s.space.bindAll?.map fun
    | (.ok count, space) => (.ok count, sink, { s with space }.notify [.bound count])
    | (.error c, space) =>
      let (sink, notices) := sink.complain c
      (.error c.fault, sink, { s with space }.notify notices)

end Session

end Acpi
