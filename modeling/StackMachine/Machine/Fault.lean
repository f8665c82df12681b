import StackMachine.Code.Opcode

/-!
Everything that can go wrong while code is prepared and run.
-/

namespace StackMachine

/-- A failure of input or output. -/
inductive IoError where
  /-- The sink has no room for the rest of a text. -/
  | sinkFull
  /-- The bytes read are no UTF-8. -/
  | notUtf8
  /-- The operating system refused, with its own words and number. -/
  | refused (reason : String) (code : Nat)
  | stated (text : String)
  deriving DecidableEq, Repr

inductive Fault where
  | stackUnderflow (opcode : Opcode)
  | stackOverflow (limit : Nat)
  | undefinedLabel (label : String)
  | duplicateLabel (label : String) (first second : Nat)
  | undefinedVariable (name : String)
  | divisionByZero
  | invalidInput (kind : Kind) (line : String)
  | endOfInput
  | typeMismatch (opcode : Opcode) (expected found : Kind)
  | unsupportedOperand (opcode : Opcode) (operand : Kind)
  | invalidLiteral (kind : Kind) (literal : String)
  | invalidCount (literal : String)
  | missingOperand (opcode : Opcode)
  | io (error : IoError)
  deriving DecidableEq, Repr

def IoError.message : IoError → String
  | .sinkFull => "failed to write whole buffer"
  | .notUtf8 => "stream did not contain valid UTF-8"
  | .refused reason code => s!"{reason} (os error {code})"
  | .stated text => text

def Fault.message : Fault → String
  | .stackUnderflow opcode => s!"stack underflow on {opcode}"
  | .stackOverflow limit => s!"stack overflow: more than {limit} values"
  | .undefinedLabel label => s!"label '{label}' not found"
  | .duplicateLabel label first second =>
    s!"label '{label}' defined twice (instructions {first} and {second})"
  | .undefinedVariable name => s!"variable '{name}' not defined"
  | .divisionByZero => "division by zero"
  | .invalidInput kind line => s!"invalid input for read {kind.typeName}: '{line}'"
  | .endOfInput => "end of input during read"
  | .typeMismatch opcode expected found => s!"{opcode} expects {expected.typeName}, found {found.typeName}"
  | .unsupportedOperand opcode operand => s!"{opcode} does not support {operand.typeName}"
  | .invalidLiteral kind literal => s!"invalid {kind.typeName} literal '{literal}'"
  | .invalidCount literal => s!"invalid count literal '{literal}'"
  | .missingOperand opcode => s!"{opcode} is missing its operand"
  | .io error => s!"I/O error: {error.message}"

end StackMachine
