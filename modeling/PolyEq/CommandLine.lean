import PolyEq.Journal
import PolyEq.Report

/-! # The command line

One equation is given as text. Its report goes to standard output; a fault and the journal
entries that are asked for go to standard error.
-/

namespace PolyEq

namespace CommandLine

structure Outcome where
  exitCode : UInt32
  output : String
  errors : String

def lines (ls : List String) : String :=
  String.join (ls.map (· ++ "\n"))

/-- The entries up to a level; without a level there are none. -/
def journalText (level? : Option Journal.Level) (text : String) : String :=
  match level? with
  | none => ""
  | some level =>
    let entries := (Journal.ofText text).filter fun entry => entry.level.rank ≤ level.rank
    lines (entries.map fun entry => s!"[{entry.level.name}] {entry.message}")

def run (level? : Option Journal.Level) (text : String) : Outcome :=
  let journal := journalText level? text
  match Report.ofText text with
  | .error fault => ⟨1, "", journal ++ s!"Error: {fault.message}\n"⟩
  | .ok report =>
    let summary :=
      [s!"Reduced form: {report.reducedForm}", s!"Polynomial degree: {report.degree}", "",
        "Solving steps:"]
    ⟨0, lines (summary ++ report.steps), journal⟩

def levelOfVerbosity : Nat → Journal.Level
  | 0 => .warn
  | 1 => .info
  | 2 => .debug
  | _ => .trace

/-- The number of flags that raise the verbosity, if an argument holds only such flags. -/
def verbosity? (argument : String) : Option Nat :=
  match argument.toList with
  | '-' :: flags =>
    if argument = "--verbose" then some 1
    else if flags ≠ [] ∧ flags.all (· == 'v') then some flags.length
    else none
  | _ => none

/-- The number of verbosity flags and the other arguments. After `--` there are no flags. -/
def splitArguments : List String → Nat × List String
  | [] => (0, [])
  | argument :: later =>
    if argument = "--" then (0, later)
    else
      let (verbosity, others) := splitArguments later
      match verbosity? argument with
      | some n => (verbosity + n, others)
      | none => (verbosity, argument :: others)

def usage : String :=
  lines ["Reduce and solve a polynomial equation of degree 2 or less", "",
    "Usage: polyeq [-v]... EQUATION"]

def runArguments (arguments : List String) : Outcome :=
  match splitArguments arguments with
  | (verbosity, [text]) => run (some (levelOfVerbosity verbosity)) text
  | _ => ⟨2, "", usage⟩

end CommandLine

end PolyEq
