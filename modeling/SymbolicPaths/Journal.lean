import SymbolicPaths.Fault
/-!
# What a run leaves behind

Besides its answer a run leaves a list of events, in the order in which they happened.

* An `entry` is a log record.  Entries keep what they are about, so a count or a name can be read
  off them; `Entry.message?` words them, unless they quote something that cannot be written.
* A `dropped` event is a branch that was given up and whose failure nobody has received yet.  It
  belongs to the innermost scope that collects failures, which takes it out of the list or
  addresses it (`SymbolicPaths.Run`).  There is no notion of a current receiver, and so nothing to
  restore when a scope ends.
* A `delivered` event is a dropped branch after a labelled receiver got it.
* A `noted` event is a remark of the program.
-/

namespace SymbolicPaths

/-- How much a log record matters. -/
inductive Level where
  | debug
  | info
  | warning
  | error
deriving DecidableEq, Repr

namespace Level

/-- Levels by rising weight. -/
def rank : Level → Nat
  | debug => 10
  | info => 20
  | warning => 30
  | error => 40

/-- The name of a level. -/
def name : Level → String
  | debug => "DEBUG"
  | info => "INFO"
  | warning => "WARNING"
  | error => "ERROR"

/-- All levels. -/
def all : List Level := [debug, info, warning, error]

/-- The level with a given name. -/
def ofName? (s : String) : Option Level := all.find? fun l => l.name == s

end Level

/-- A log record. -/
inductive Entry (V : Type) where
  /-- A computation dropped a branch. -/
  | dropping (computation : String) (error : Failure V)
  /-- A guarded computation gave its branches. -/
  | produced (computation : String) (branches : Nat)
  /-- Several chunks at one location were made one. -/
  | unified (chunks : Nat) (location value : V)
  /-- A read found several chunks and compresses the heap first. -/
  | compressing (chunks : Nat) (location : V)
  /-- An exploration kept only some of its branches. -/
  | truncated (computation : String) (branches : Nat) (cap : Int)
  /-- An exploration ended. -/
  | explored (computation : String) (branches failures : Nat)
  /-- The branches an exploration ended with, rendered. -/
  | outcome (computation : String) (text : String)

namespace Entry

variable {V : Type}

/-- The part of the program that an entry comes from. -/
def source : Entry V → String
  | dropping .. | produced .. => "symexec.program"
  | unified .. | compressing .. => "symexec.primitives"
  | truncated .. | explored .. | outcome .. => "symexec.interpreter"

/-- How much an entry matters. -/
def level : Entry V → Level
  | truncated .. => .warning
  | explored .. => .info
  | _ => .debug

/-- What an entry says. -/
def message? [Term V] : Entry V → Except Unwritable String
  | dropping name error => return "Dropping branch in " ++ name ++ ": " ++ (← error.message?)
  | produced name n => .ok (name ++ " produced " ++ toString n ++ " branch(es)")
  | unified n l v => do
    let location ← Written.written? l
    return "Unified " ++ toString n ++ " chunks at " ++ location ++ " into " ++ (← Written.written? v)
  | compressing n l =>
    return "Found " ++ toString n ++ " chunks at " ++ (← Written.written? l)
      ++ ", compressing heap before retrying"
  | truncated name n cap =>
    return "Exploration of " ++ name ++ " produced " ++ toString n ++ " branches; keeping the first "
      ++ (← numeral cap)
  | explored name n failed =>
    .ok ("Explored " ++ name ++ ": " ++ toString n ++ " branch(es), " ++ toString failed ++ " failed")
  | outcome name text => .ok ("Final branches of " ++ name ++ ":\n" ++ text)

end Entry

/-- A branch that was given up: the state in which it was, and why. -/
structure Dropped (V : Type) where
  state : Subject V
  error : Failure V

/-- Something that happened during a run. -/
inductive Event (V : Type) where
  | entry (e : Entry V)
  | dropped (d : Dropped V)
  | delivered (label : String) (d : Dropped V)
  | noted (v : V)

namespace Event

variable {V : Type}

/-- The dropped branch of an event that nobody has received yet. -/
def pending? : Event V → Option (Dropped V)
  | dropped d => some d
  | _ => none

/-- The event after a labelled receiver took what is pending. -/
def receivedBy (label : String) : Event V → Event V
  | dropped d => delivered label d
  | e => e

end Event

end SymbolicPaths
