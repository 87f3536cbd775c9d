import LazyGraph.Document
import LazyGraph.Settings.Reader

/-! Settings of evaluators and heaps, and their JSON text. -/

set_option autoImplicit false

namespace LazyGraph

structure EvalSettings where
  maxWorkStack : UInt64 := 1048576
  maxSteps : Option UInt64 := none
  -- Milliseconds one call may take.
  timeLimit : Option UInt64 := none
  trace : Bool := false
  -- Milliseconds between two looks at a node that another actor holds.
  waitPoll : UInt64 := 5
  deriving DecidableEq, Repr

namespace EvalSettings

def fields : List (Settings.Setting EvalSettings) :=
  [.ofReader "max_work_stack" Settings.readWord fun value config => { config with maxWorkStack := value },
   .ofReader "max_steps" Settings.readOptionalWord fun value config => { config with maxSteps := value },
   .ofReader "time_limit_ms" Settings.readOptionalWord fun value config => { config with timeLimit := value },
   .ofReader "trace" Settings.readBool fun value config => { config with trace := value },
   .ofReader "wait_poll_ms" Settings.readWord fun value config => { config with waitPoll := value }]

def ofJson (text : String) : Except Settings.Trouble EvalSettings :=
  Settings.readText fields {} text

def pollInterval (config : EvalSettings) : UInt64 :=
  max config.waitPoll 1

end EvalSettings

def Document.optional : Option UInt64 → Document
  | some value => .nat value.toNat
  | none => .null

def EvalSettings.document (config : EvalSettings) : Document :=
  .record
    [("max_work_stack", .nat config.maxWorkStack.toNat),
     ("max_steps", .optional config.maxSteps),
     ("time_limit_ms", .optional config.timeLimit),
     ("trace", .bool config.trace),
     ("wait_poll_ms", .nat config.waitPoll.toNat)]

structure HeapSettings where
  threshold : UInt64 := 10000
  enabled : Bool := true
  maxNodes : Option UInt64 := none
  deriving DecidableEq, Repr

namespace HeapSettings

def fields : List (Settings.Setting HeapSettings) :=
  [.ofReader "gc_threshold" Settings.readWord fun value config => { config with threshold := value },
   .ofReader "gc_enabled" Settings.readBool fun value config => { config with enabled := value },
   .ofReader "max_nodes" Settings.readOptionalWord fun value config => { config with maxNodes := value }]

def ofJson (text : String) : Except Settings.Trouble HeapSettings :=
  Settings.readText fields {} text

def document (config : HeapSettings) : Document :=
  .record
    [("gc_threshold", .nat config.threshold.toNat),
     ("gc_enabled", .bool config.enabled),
     ("max_nodes", .optional config.maxNodes)]

end HeapSettings

end LazyGraph
