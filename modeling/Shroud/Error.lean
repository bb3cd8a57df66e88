import Shroud.DataType.Describe
import Shroud.Diagnostic
import Shroud.Manifest
import Shroud.Operator.Basic

/-! # Errors

The causes for which a program is refused, and their wording. Types and owners in a cause are in
written form already.
-/

namespace Shroud

/-- Faults of names. -/
inductive NameFault where
  | declaredTwice (name : String)
  | unknownIdentifier (name : String)
  | unknownLabel (name : String)
  | invalidWidth (bits : Nat)
  | operandCount (op : Operator) (given : Nat)
  | unknownFunction (name : String) (arguments : Nat)
  | ambiguousFunction (name : String)
deriving DecidableEq, Repr

def NameFault.message : NameFault → String
  | declaredTwice name => s!"Identifier '{name}' already declared in this scope"
  | unknownIdentifier name => s!"Undefined identifier '{name}'"
  | unknownLabel name => s!"Undefined privacy label '{name}'"
  | invalidWidth bits => s!"Invalid integer width {bits}"
  | operandCount op given =>
    s!"Operator '{op.symbol}' takes {op.arity} arguments, got {given}"
  | unknownFunction name arguments => s!"Undefined function '{name}' with {arguments} arguments"
  | ambiguousFunction name => s!"Ambiguous call to overloaded function '{name}'"

/-- Faults of types and owners. -/
inductive TypeFault where
  | finalUninitialized (name : String)
  | finalInOneBranch (name : String)
  | finalReadEarly (name : String)
  | finalModified (name : String)
  | finalModifiedOutside (name : String)
  | finalAssignedTwice (name : String)
  | constantModified (name : String)
  | privateInitializer
  | parameterOwner
  | returnOwner
  | labelNotFixed (name : String)
  | privateWidest
  | privateCompound (type : String)
  | mappingKey
  | noReturnValue
  | missingReturnValue
  | notLocation
  | literalTooWide (v : Int)
  | literalOutOfRange (v : Int) (type : String)
  | foldUndefined (op : Operator)
  | indexNotLabel
  | notIndexable (type : String)
  | revealLabel (name : String)
  | notRevealable (type : String)
  | revealInaccessible
  | revealRedundant
  | notConvertible (source target : String)
  | invalidCast (source target : String)
  | castInaccessible
  | operandInaccessible
deriving DecidableEq, Repr

def TypeFault.message : TypeFault → String
  | finalUninitialized name => s!"Final variable '{name}' is never initialized"
  | finalInOneBranch name =>
    s!"Final variable '{name}' must be assigned in both branches or in neither"
  | finalReadEarly name => s!"Final variable '{name}' is read before it is initialized"
  | finalModified name => s!"Modifying final variable '{name}'"
  | finalModifiedOutside name => s!"Modifying final variable '{name}' outside the constructor"
  | finalAssignedTwice name => s!"Final variable '{name}' is assigned more than once"
  | constantModified name => s!"Modifying constant variable '{name}'"
  | privateInitializer => "Private assignments to state variables must be in the constructor"
  | parameterOwner => "Only me/all accepted as privacy type of function parameters"
  | returnOwner => "Only me/all accepted as privacy type of return values for public functions"
  | labelNotFixed name => s!"Privacy annotation '{name}' must be a final or constant address"
  | privateWidest => "Private int256 is not supported"
  | privateCompound type => s!"Only primitive types can be private, got {type}"
  | mappingKey => "Mapping keys must be primitive"
  | noReturnValue => "Function does not return a value"
  | missingReturnValue => "Missing return value"
  | notLocation => "Assignment target is not a location"
  | literalTooWide v => s!"Literal {Text.decimal v} does not fit into 256 bits"
  | literalOutOfRange v type => s!"Literal {Text.decimal v} does not fit into {type}"
  | foldUndefined op =>
    s!"Constant expression with operator '{op.symbol}' is undefined or does not fit into 256 bits"
  | indexNotLabel => "Index of a mapping with a key label must be a label (me or an identifier)"
  | notIndexable type => s!"Cannot index a value of type {type}"
  | revealLabel name => s!"Second argument of reveal must be a resolvable label, got '{name}'"
  | notRevealable type => s!"Cannot reveal a value of type {type}"
  | revealInaccessible =>
    "First argument of reveal must be accessible, i.e. @all or provably equal to @me"
  | revealRedundant => "Redundant reveal"
  | notConvertible source target => s!"Cannot convert {source} to {target}"
  | invalidCast source target => s!"Invalid cast from {source} to {target}"
  | castInaccessible => "Cast of a private value requires it to be owned by me"
  | operandInaccessible =>
    "Operation requires all arguments to be accessible, i.e. @all or provably equal to @me"

/-- What an `if` with a private condition must not contain. -/
inductive Forbidden where
  | loop
  | ret
  | require
  | jump
deriving DecidableEq, Repr

def Forbidden.describe : Forbidden → String
  | loop => "Loops"
  | ret => "Return statements"
  | require => "Require statements"
  | jump => "Break and continue"

/-- Programs whose private parts no circuit encodes. -/
inductive CircuitFault where
  | operator (op : Operator)
  | wideBitwise (op : Operator)
  | shiftAmount
  | recursiveVerified (function : String)
  | privateLoop
  | verifiedCallInLoop (function : String)
  | forbiddenInPrivateIf (what : Forbidden)
  | compoundModified (name : String)
  | foreignModified (name : String)
  | revealInPrivateIf
  | recursiveCall (function : String)
  | effectfulCall (function : String)
  | inexpressibleCall (function : String)
deriving DecidableEq, Repr

def CircuitFault.message : CircuitFault → String
  | operator op => s!"Operation '{op.symbol}' is not supported for private values"
  | wideBitwise op =>
    s!"Private bitwise operation '{op.symbol}' is not supported for 256-bit values"
  | shiftAmount => "Private shift requires a non-negative literal shift amount"
  | recursiveVerified f => s!"Recursive function '{f}' requires verification"
  | privateLoop => "Loop body cannot contain private expressions"
  | verifiedCallInLoop f =>
    s!"Calls to function '{f}' which requires verification are not allowed inside loops"
  | forbiddenInPrivateIf what =>
    s!"{what.describe} are not allowed inside an if statement with a private condition"
  | compoundModified name =>
    s!"If statement with a private condition must not modify non-primitive variable '{name}'"
  | foreignModified name =>
    s!"If statement with a private condition must not modify variable '{name}' " ++
      "which is not owned by @me"
  | revealInPrivateIf =>
    "Revealing information to other parties is not allowed inside private if statements"
  | recursiveCall f =>
    s!"Recursive function calls are not supported in private expressions ('{f}')"
  | effectfulCall f => s!"Calls inside private expressions must not have side effects ('{f}')"
  | inexpressibleCall f => s!"Function cannot be evaluated inside a private expression ('{f}')"

/-- Programs that are well typed but not compiled. -/
inductive Unsupported where
  | inlinedEncryption (owner : String)
  | inlinedLocation
  | nestedPrivate
  | severalValues
  | tupleInCircuit
  | statementInCircuit
  | tupleSource
  | circuitTarget
  | earlyReturn
  | privateInitializer
  | provenInitializer
deriving DecidableEq, Repr

def Unsupported.message : Unsupported → String
  | inlinedEncryption owner => s!"Encryption for owner '{owner}' inside an inlined function"
  | inlinedLocation => "Reading a location which depends on an inlined function's variables"
  | nestedPrivate => "Private expression nested inside a location read by the circuit"
  | severalValues => "Calls inside private expressions must return exactly one value"
  | tupleInCircuit => "Tuples inside private expressions"
  | statementInCircuit => "Statement cannot be evaluated inside the circuit"
  | tupleSource => "Tuple assignment from this expression inside the circuit"
  | circuitTarget => "Assignment to a non-variable location inside the circuit"
  | earlyReturn =>
    "Return statement must be the last statement of a function which requires verification"
  | privateInitializer => "Private state variable initializer"
  | provenInitializer => "State variable initializer requires a proof"

/-- Invariants of the compiler itself. -/
inductive Invariant where
  | severalConstructors (contract : String)
  | cycle
  | callWithoutCircuit
  | missingCircuit
  | offsetsDisagree
  | sitesPatched (patched sites : Nat)
  | keyOfAll
  | globalKeyOfAll
  | keyOutsideStatement (owner : String)
  | unresolvedKeyLabel
  | noInputSlot (name : String)
  | recursiveInlining (function : String)
  | returnUnbound (function : String) (index : Nat)
  | returnBoundTwice (function : String) (context : Context)
  | returnOutsideInlining
  | returnInBranch
  | liveBindings
  | noValue (name : String)
  | tupleLengths
  | updateSplit
deriving DecidableEq, Repr

def Invariant.message : Invariant → String
  | severalConstructors contract => s!"contract '{contract}' has several constructors"
  | cycle => "cycle among functions which require verification"
  | callWithoutCircuit => "call of a function without a circuit"
  | missingCircuit => "function requiring verification has no circuit"
  | offsetsDisagree => "call-site offsets do not add up to the transitive sizes"
  | sitesPatched patched sites => s!"patched {patched} of {sites} verified call sites"
  | keyOfAll => "public key of @all requested"
  | globalKeyOfAll => "global key for @all"
  | keyOutsideStatement owner => s!"public key of '{owner}' requested outside of a statement"
  | unresolvedKeyLabel => "unresolved key label in circuit output"
  | noInputSlot name => s!"no input slot named '{name}'"
  | recursiveInlining f => s!"recursive inlining of '{f}'"
  | returnUnbound f i => s!"inlined function '{f}' left return value {i} unbound"
  | returnBoundTwice f context => s!"duplicate return binding in '{f}' ({context.display})"
  | returnOutsideInlining => "return statement evaluated outside of an inlined function"
  | returnInBranch => "return value bound inside a private branch"
  | liveBindings => "circuit statement evaluated with live bindings"
  | noValue name => s!"no circuit value for modified variable '{name}'"
  | tupleLengths => "tuple assignment arity mismatch"
  | updateSplit => "for-loop update lowered to several statements"

def Settings.Error.diagnostic : Settings.Error → Diagnostic
  | notIdentifier name => ⟨.settings, s!"'{name}' is not a valid identifier", none⟩
  | usedTwice name => ⟨.settings, s!"identifier '{name}' is used for two different purposes", none⟩
  | unknownScheme name => ⟨.settings, s!"unknown proving scheme '{name}'", none⟩
  | unknownBackend name => ⟨.backend, name, none⟩

/-- The diagnostic of a manifest's fault; there is none of its own for a file that cannot be
read. -/
def Manifest.Error.diagnostic? : Manifest.Error → Option Diagnostic
  | file _ | unreadable => none
  | inconsistent =>
    some ⟨.manifest, "top-level backend settings disagree with the recorded options", none⟩
  | version recorded =>
    some ⟨.incompatible, s!"contract was compiled with version {recorded}, " ++
      s!"this is version {compilerVersion}", none⟩
  | backend wanted recorded =>
    some ⟨.incompatible, s!"crypto backend '{wanted.name}' does not match '{recorded.name}'", none⟩
  | scheme wanted recorded =>
    some ⟨.incompatible, s!"proving scheme '{wanted.name}' does not match '{recorded.name}'", none⟩
  | settings => some ⟨.incompatible, "compiler options differ from the manifest", none⟩

/-- Why a program is not compiled. -/
inductive Error where
  | name (fault : NameFault) (context : Context)
  | mismatch (expected actual : String) (context : Context)
  | type (fault : TypeFault) (context : Context)
  | circuit (fault : CircuitFault) (context : Context)
  | unsupported (fault : Unsupported) (context : Context)
  | internal (fault : Invariant)
  | settings (fault : Settings.Error)
deriving DecidableEq, Repr

def Error.diagnostic : Error → Diagnostic
  | name fault c => ⟨.name, fault.message, some c⟩
  | mismatch expected actual c => ⟨.mismatch, Diagnostic.mismatchText expected actual, some c⟩
  | type fault c => ⟨.type, fault.message, some c⟩
  | circuit fault c => ⟨.compliance, fault.message, some c⟩
  | unsupported fault c => ⟨.unsupported, fault.message, some c⟩
  | internal fault => ⟨.internal, fault.message, none⟩
  | settings fault => fault.diagnostic

end Shroud
