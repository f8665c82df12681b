import StackMachine.Machine.Exec
import StackMachine.Text.Numeral

/-!
The arguments of the command line.

They are read from left to right, and the first one that is out of place decides.
-/

namespace StackMachine.CommandLine

structure Options where
  file : String
  list : Bool
  /-- Whether the program is only looked at and not run. -/
  checkOnly : Bool
  limit : Nat
  deriving DecidableEq, Repr

/-- Why arguments are not followed. -/
inductive Refusal where
  | help
  | badLimit
  | unknownOption (argument : String)
  | secondFile
  | noFile
  deriving DecidableEq, Repr

/-- What the arguments so far have asked for. -/
structure Request where
  file : Option String
  list : Bool
  checkOnly : Bool
  limit : Nat
  deriving DecidableEq, Repr

def Request.start : Request :=
  ⟨none, false, false, defaultLimit⟩

/-- A bound on the stack must be positive. -/
def limit? (argument : String) : Option Nat :=
  (Text.count? argument.toList).filter fun n => decide (0 < n)

def isOption (argument : String) : Bool :=
  argument.toList.head? = some '-'

def Request.complete : Request → List String → Except Refusal Options
  | request, [] =>
    match request.file with
    | some file => .ok ⟨file, request.list, request.checkOnly, request.limit⟩
    | none => .error .noFile
  | request, "--disassemble" :: rest => complete { request with list := true } rest
  | request, "--check" :: rest => complete { request with checkOnly := true } rest
  | _, ["--max-stack"] => .error .badLimit
  | request, "--max-stack" :: argument :: rest =>
    match limit? argument with
    | some limit => complete { request with limit := limit } rest
    | none => .error .badLimit
  | request, argument :: rest =>
    if argument = "--help" ∨ argument = "-h" then .error .help
    else if isOption argument then .error (.unknownOption argument)
    else
      match request.file with
      | some _ => .error .secondFile
      | none => complete { request with file := some argument } rest

def Options.parse (arguments : List String) : Except Refusal Options :=
  Request.start.complete arguments

/-- The version that the usage text names. -/
def version : String :=
  "0.1.0"

def usage : String :=
  String.join <| List.map (· ++ "\n")
    ["stacklang " ++ version ++ " - typed stack machine",
      "",
      "Usage: stacklang [options] <program.sbc>",
      "",
      "Options:",
      "  --disassemble    Print an annotated listing before running",
      "  --check          Parse the program and resolve its labels, then exit",
      "  --max-stack <N>  Maximum operand stack depth (default " ++ toString defaultLimit ++ ")",
      "  -h, --help       Show this help",
      "",
      "Set RUST_LOG (e.g. RUST_LOG=stacklang=trace) for execution logs."]

def Refusal.message : Refusal → String
  | .help | .noFile => usage
  | .badLimit => "--max-stack requires a positive number\n" ++ usage
  | .unknownOption argument => "Unknown option: " ++ argument ++ "\n" ++ usage
  | .secondFile => "Only one program file can be specified\n" ++ usage

/-- Asking for help is no misuse. -/
def Refusal.exitCode : Refusal → Nat
  | .help => 0
  | _ => 64

end StackMachine.CommandLine
