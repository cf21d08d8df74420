import Interpose.ClassFile.Error
/-!
# Faults of a method body

Why the code of a method cannot be decoded, analysed, laid out or woven. Positions are byte
offsets for faults of the bytes and instruction numbers for faults of the decoded body.
-/

namespace Interpose

/-- A violation of the rules for code. -/
inductive CodeError where
  | invalidOpcode (opcode : UInt8) (offset : Nat)
  | truncated (offset : Nat)
  | badBranchTarget (offset : Int)
  | subroutine (i : Nat)
  | undefinedLabel (label : Nat)
  | emptyHandlerRange (start : Nat)
  /-- A protected range of code with subroutines ends before it starts. -/
  | invertedRange (start : Nat)
  | stackUnderflow (i : Nat)
  | stackMismatch (i : Nat)
  | typeMismatch (i : Nat)
  | badLocal (slot i : Nat)
  | fallOffEnd
  | codeTooLarge (length : Nat)
  | stackTooDeep (depth : Nat)
  | missingConstructorCall
  /-- Merging types goes on changing frames for ever. -/
  | unsettled
  | format (e : FormatError)
deriving DecidableEq

/-- What is said about the fault. -/
def CodeError.message : CodeError → String
  | .invalidOpcode opcode offset =>
    let digits := hexDigits opcode.toNat
    let padded := if opcode.toNat < 16 then "0" ++ digits else digits
    "invalid opcode 0x" ++ padded ++ " at offset " ++ toString offset
  | .truncated offset => "truncated instruction at offset " ++ toString offset
  | .badBranchTarget offset =>
    "branch target " ++ toString offset ++ " is not an instruction boundary"
  | .subroutine i => "subroutine at instruction " ++ toString i ++ " cannot be inlined"
  | .undefinedLabel label => "label " ++ toString label ++ " is used but never placed"
  | .emptyHandlerRange label =>
    "exception range starting at label " ++ toString label ++ " is empty"
  | .invertedRange label =>
    "exception range starting at label " ++ toString label ++ " ends before it starts"
  | .stackUnderflow i => "operand stack underflow at instruction " ++ toString i
  | .stackMismatch i => "operand stack shape differs at merge point " ++ toString i
  | .typeMismatch i => "incompatible operand type at instruction " ++ toString i
  | .badLocal slot i =>
    "local variable " ++ toString slot ++ " out of range at instruction " ++ toString i
  | .fallOffEnd => "execution falls off the end of the code"
  | .codeTooLarge length => "code length " ++ toString length ++ " exceeds 65535 bytes"
  | .stackTooDeep depth => "operand stack depth " ++ toString depth ++ " exceeds 65535"
  | .missingConstructorCall => "constructor never invokes a superclass or sibling constructor"
  | .unsettled => "type inference does not settle"
  | .format e => e.message

end Interpose
