
namespace Formulae

/-- The bytes `start ≤ i < stop` of one line. Offsets wrap at 2 ^ 16. -/
structure Span where
  start : UInt16
  stop : UInt16
deriving DecidableEq, Inhabited, Repr

namespace Span

/-- The span at the very beginning of a line, used where there is no text to point at. -/
def zero : Span := ⟨0, 0⟩

/-- Offsets of any size, wrapped into 16 bits. -/
def ofOffsets (start stop : Nat) : Span := ⟨start.toUInt16, stop.toUInt16⟩

/-- From the earlier start to the later stop. -/
def union (s t : Span) : Span := ⟨min s.start t.start, max s.stop t.stop⟩

/-- Both offsets in decimal, with a colon between them. -/
def text (s : Span) : String := toString s.start.toNat ++ ":" ++ toString s.stop.toNat

theorem ofOffsets_start {a b : Nat} (h : a < 65536) : (ofOffsets a b).start.toNat = a := by
  simp only [ofOffsets, Nat.toUInt16_eq, UInt16.toNat_ofNat']
  omega

theorem ofOffsets_stop {a b : Nat} (h : b < 65536) : (ofOffsets a b).stop.toNat = b := by
  simp only [ofOffsets, Nat.toUInt16_eq, UInt16.toNat_ofNat']
  omega

end Span

/-- What the notation leaves out of the larger language that it is a part of. -/
inductive Construct where
  | subscript
  | attributeAccess
  | callOfResult
  | tuple
  | comprehension
  | collection
  | anonymousFunction
  | starredArgument
  | keywordArgument
  | membershipTest
  | subscriptTarget
  | attributeTarget
deriving DecidableEq, Repr

def Construct.name : Construct → String
  | subscript => "subscripts and slices"
  | attributeAccess => "attribute access"
  | callOfResult => "calling the result of an expression"
  | tuple => "tuples"
  | comprehension => "comprehensions"
  | collection => "lists, sets and dictionaries"
  | anonymousFunction => "lambda"
  | starredArgument => "starred arguments"
  | keywordArgument => "keyword arguments"
  | membershipTest => "membership and identity tests"
  | subscriptTarget => "assignment to a subscript"
  | attributeTarget => "assignment to an attribute"

/-- What function definitions leave out. -/
inductive DefinitionConstruct where
  | variadic
  | keywordVariadic
  | defaultValue
  | annotatedParameter
  | annotatedResult
  | nestedFunction
  | wordStatement (word : String)
deriving DecidableEq, Repr

def DefinitionConstruct.name : DefinitionConstruct → String
  | variadic => "variable number of arguments"
  | keywordVariadic => "arbitrary keyword arguments"
  | defaultValue => "default values"
  | annotatedParameter => "annotations"
  | annotatedResult => "return annotations"
  | nestedFunction => "nested functions"
  | wordStatement word => "'" ++ word ++ "' statements"

inductive FaultCode where
  | invalidToken | unrecognizedEof | unrecognizedToken | extraToken | expectedNumber
  | emptyEquation | unsupported | unknownIdentifier | unknownFunction | badArgCount
  | notBoolean | mixedBoolean | nonConstantExponent | nonScalarExponent | dimensionedExponent
  | notConstant | notScalar | noValue | unitMismatch | badFunctionDef | duplicateArgument
  | noReturnValue | recursiveInline | noConstInUnits | noAppInUnits | noUnaryOpInUnits
  | badBinaryOpInUnits | unknownUnit | overflow
deriving DecidableEq, Repr

namespace FaultCode

def name : FaultCode → String
  | invalidToken => "invalid_token"
  | unrecognizedEof => "unrecognized_eof"
  | unrecognizedToken => "unrecognized_token"
  | extraToken => "extra_token"
  | expectedNumber => "expected_number"
  | emptyEquation => "empty_equation"
  | unsupported => "unsupported_syntax"
  | unknownIdentifier => "unknown_identifier"
  | unknownFunction => "unknown_function"
  | badArgCount => "bad_arg_count"
  | notBoolean => "not_boolean"
  | mixedBoolean => "mixed_boolean"
  | nonConstantExponent => "non_constant_exponent"
  | nonScalarExponent => "non_scalar_exponent"
  | dimensionedExponent => "dimensioned_exponent"
  | notConstant => "not_constant"
  | notScalar => "not_scalar"
  | noValue => "no_value"
  | unitMismatch => "unit_mismatch"
  | badFunctionDef => "bad_function_def"
  | duplicateArgument => "duplicate_argument"
  | noReturnValue => "no_return_value"
  | recursiveInline => "recursive_inline"
  | noConstInUnits => "no_const_in_units"
  | noAppInUnits => "no_app_in_units"
  | noUnaryOpInUnits => "no_unary_op_in_units"
  | badBinaryOpInUnits => "bad_binary_op_in_units"
  | unknownUnit => "unknown_unit"
  | overflow => "overflow"

/-- What is wrong is the text, but for operands that disagree in their units and for a count that
the machine cannot hold. -/
def kindName : FaultCode → String
  | unitMismatch => "DimensionMismatchError"
  | overflow => "panic"
  | _ => "SyntaxError"

end FaultCode

/-- Why something is rejected. Expressions and units are given by their texts. -/
inductive Reason where
  | invalidCharacter
  | strayCharacter
  | lineBreak
  | endOfText
  | unexpectedToken
  | extraToken
  | notANumber
  | emptyExpression
  | unsupported (what : Construct)
  | unknownTarget (name : String)
  | unsupportedInDefinition (what : DefinitionConstruct)
  | duplicateParameter (param function : String)
  | emptyBody (function : String)
  | codeAfterReturn (function : String)
  | notOneDefinition (found : Nat)
  | constantInUnits
  | callInUnits
  | signInUnits
  | operatorInUnits
  | unknownUnit (name : String)
  | unitExponent
  | unknownVariable (name : String)
  | unknownFunction (name : String)
  | argumentCount (function : String) (expected given : Nat)
  | exponentWithUnit (unit : String)
  | inexactExponent (cause : Reason)
  | notConstant (name : String)
  | notScalar (name : String)
  | withoutValue (name : String)
  | notComputable (expr : String)
  | mixedOperand (operand expr : String)
  | negatedNumber (operand : String)
  | unitsDiffer (expr left right : String)
  | unitsCompared (expr left op right : String)
  | argumentUnit (index : Nat) (function unit expected : String)
  | unassigned (name : String)
  | updatedUnassigned (name : String)
  | nestedCalls (function : String)
  | withoutResult (function : String)
  | recursiveCalls (path : List String)
  | numbersUsedUp (function : String)
deriving DecidableEq, Repr

namespace Reason

/-- A fault in an exponent tells variables that are not constant from those that are not scalar. -/
def codeInExponent : FaultCode → FaultCode
  | .notConstant => .nonConstantExponent
  | .notScalar => .nonScalarExponent
  | code => code

def code : Reason → FaultCode
  | invalidCharacter => .invalidToken
  | strayCharacter => .unrecognizedToken
  | lineBreak => .unsupported
  | endOfText => .unrecognizedEof
  | unexpectedToken => .unrecognizedToken
  | extraToken => .extraToken
  | notANumber => .expectedNumber
  | emptyExpression => .emptyEquation
  | unsupported _ => .unsupported
  | unknownTarget _ => .unsupported
  | unsupportedInDefinition _ => .badFunctionDef
  | duplicateParameter _ _ => .duplicateArgument
  | emptyBody _ => .badFunctionDef
  | codeAfterReturn _ => .badFunctionDef
  | notOneDefinition _ => .badFunctionDef
  | constantInUnits => .noConstInUnits
  | callInUnits => .noAppInUnits
  | signInUnits => .noUnaryOpInUnits
  | operatorInUnits => .badBinaryOpInUnits
  | unknownUnit _ => .unknownUnit
  | unitExponent => .expectedNumber
  | unknownVariable _ => .unknownIdentifier
  | unknownFunction _ => .unknownFunction
  | argumentCount _ _ _ => .badArgCount
  | exponentWithUnit _ => .dimensionedExponent
  | inexactExponent cause => codeInExponent cause.code
  | notConstant _ => .notConstant
  | notScalar _ => .notScalar
  | withoutValue _ => .noValue
  | notComputable _ => .unsupported
  | mixedOperand _ _ => .mixedBoolean
  | negatedNumber _ => .notBoolean
  | unitsDiffer _ _ _ => .unitMismatch
  | unitsCompared _ _ _ _ => .unitMismatch
  | argumentUnit _ _ _ _ => .unitMismatch
  | unassigned _ => .unknownIdentifier
  | updatedUnassigned _ => .unknownIdentifier
  | nestedCalls _ => .recursiveInline
  | withoutResult _ => .noReturnValue
  | recursiveCalls _ => .recursiveInline
  | numbersUsedUp _ => .overflow

/-- What is said beyond the code, if anything. -/
def details : Reason → Option String
  | unsupported what => some (what.name ++ " not supported")
  | unknownTarget name => some ("unknown renderer '" ++ name ++ "'")
  | unsupportedInDefinition what =>
    some ("no support for " ++ what.name ++ " in function definitions")
  | duplicateParameter param function =>
    some ("duplicate argument '" ++ param ++ "' in '" ++ function ++ "'")
  | emptyBody function => some ("'" ++ function ++ "' has an empty body")
  | codeAfterReturn function => some ("'" ++ function ++ "' has statements after its return")
  | notOneDefinition found => some ("expected one function definition, found " ++ toString found)
  | unknownUnit name => some ("unknown unit '" ++ name ++ "'")
  | unitExponent => some "unit exponents must be numbers"
  | unknownVariable name => some ("unknown identifier '" ++ name ++ "'")
  | unknownFunction name => some ("unknown function '" ++ name ++ "'")
  | argumentCount function expected given =>
    some ("'" ++ function ++ "' takes " ++ toString expected ++ " arguments, got " ++
      toString given)
  | exponentWithUnit unit => some ("exponent has unit " ++ unit)
  | inexactExponent cause =>
    some ("the exponent of a dimensioned base must be a constant: " ++ cause.details.getD "")
  | notConstant name => some ("'" ++ name ++ "' is not a constant")
  | notScalar name => some ("'" ++ name ++ "' is not a scalar")
  | withoutValue name => some ("'" ++ name ++ "' has no value")
  | notComputable expr => some ("can't compute a constant value for '" ++ expr ++ "'")
  | mixedOperand operand expr =>
    some ("'" ++ operand ++ "' in '" ++ expr ++ "' is not a boolean expression")
  | negatedNumber operand => some ("'not' applied to the non-boolean '" ++ operand ++ "'")
  | unitsDiffer expr left right =>
    some ("'" ++ expr ++ "': " ++ left ++ " and " ++ right ++ " differ")
  | unitsCompared expr left op right =>
    some ("'" ++ expr ++ "': " ++ left ++ " " ++ op ++ " " ++ right ++
      " compares different units")
  | argumentUnit index function unit expected =>
    some ("argument " ++ toString index ++ " of '" ++ function ++ "' has unit " ++ unit ++
      ", expected " ++ expected)
  | unassigned name => some ("'" ++ name ++ "' has no value")
  | updatedUnassigned name => some ("'" ++ name ++ "' is updated before it is assigned")
  | nestedCalls function => some ("calls of '" ++ function ++ "' nest too deeply")
  | withoutResult function => some ("'" ++ function ++ "' doesn't return a value")
  | recursiveCalls path =>
    some ("recursive function calls can't be inlined: " ++ " -> ".intercalate path)
  | numbersUsedUp function => some ("no number is left for a call of '" ++ function ++ "'")
  | _ => none

end Reason

/-- A line of a block, counted from one, and its text without surrounding white space. -/
structure SourceLine where
  number : Nat
  text : String
deriving DecidableEq, Repr

/-- A rejection, with what is known about its place. -/
structure Fault where
  reason : Reason
  span : Option Span := none
  line : Option SourceLine := none
deriving DecidableEq, Repr

namespace Fault

def located (reason : Reason) (span : Span) : Fault := { reason, span := some span }

def code (f : Fault) : FaultCode := f.reason.code

def inSpan (f : Fault) (span : Span) : Fault := { f with span := some span }

def onLine (f : Fault) (line : SourceLine) : Fault := { f with line := some line }

/-- The line, if any, comes before what the reason says. -/
def details (f : Fault) : Option String :=
  match f.line with
  | none => f.reason.details
  | some line =>
    let place := "line " ++ toString line.number ++ ": '" ++ line.text ++ "'"
    match f.reason.details with
    | none => some place
    | some more => some (place ++ ": " ++ more)

/-- Kind, code, span and details, as far as there are any. -/
def message (f : Fault) : String :=
  let place := match f.span with
    | none => ""
    | some s => "@" ++ s.text
  let rest := match f.details with
    | none => ""
    | some d => ": " ++ d
  f.code.kindName ++ "\x7b" ++ f.code.name ++ place ++ rest ++ "\x7d"

end Fault

end Formulae
