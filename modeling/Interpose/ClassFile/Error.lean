/-!
# Faults of a class file

Why bytes are no class file, or why a class cannot be held by the class file format. The wording of
every fault is in `FormatError.message`.
-/

namespace Interpose

/-- Lowercase hexadecimal digits of a number, without leading zeros. -/
def hexDigits (n : Nat) : String :=
  String.ofList (Nat.toDigits 16 n)

/-- A violation of the class file format. -/
inductive FormatError where
  | unexpectedEof
  | invalidMagic (magic : UInt32)
  | invalidConstantPoolIndex (index : UInt16)
  | invalidConstantPoolTag (tag : UInt8)
  | invalidUtf8
  | invalidAttribute (name : String)
  | invalidDescriptor (text : String)
  | constantPoolOverflow
  | utf8TooLong (bytes : Nat)
  | missingAttributeName (name : String)
deriving DecidableEq

/-- What is said about the fault. -/
def FormatError.message : FormatError → String
  | .unexpectedEof => "unexpected end of file"
  | .invalidMagic magic => "invalid magic: 0x" ++ hexDigits magic.toNat
  | .invalidConstantPoolIndex index => "invalid constant pool index: " ++ toString index.toNat
  | .invalidConstantPoolTag tag => "invalid constant pool tag: " ++ toString tag.toNat
  | .invalidUtf8 => "invalid modified UTF-8"
  | .invalidAttribute name => "invalid attribute: " ++ name
  | .invalidDescriptor text => "invalid descriptor: " ++ text
  | .constantPoolOverflow => "constant pool is full"
  | .utf8TooLong bytes => "string constant of " ++ toString bytes ++ " bytes exceeds 65535"
  | .missingAttributeName name => "attribute name " ++ name ++ " is not in the constant pool"

end Interpose
