import SplFrontend.Diagnostic
import SplFrontend.Program
import SplFrontend.Token

/-!
# Causes of diagnostics

Every diagnostic has a cause, a value of `Fault`. The code of a cause and its wording are fixed here
and nowhere else, so a pass only says what it found, where, and which other places are involved.
-/

namespace SplFrontend

/-- What the reader wanted where it met another token. -/
inductive Wanted where
  | declaration
  | statement
  | expression
  | identifier
  | operator
  | precedence
  | type
  | importable
deriving DecidableEq, Repr

/-- The wanted thing in the words of a message. -/
def Wanted.describe : Wanted → String
  | declaration => "a declaration"
  | statement => "a statement"
  | expression => "an expression"
  | identifier => "identifier"
  | operator => "operator"
  | precedence => "precedence"
  | type => "type"
  | importable => "an importable name"

/-- Why a type does not expand. -/
inductive ExpandFault where
  /-- The synonym is reached from its own definition. -/
  | cycle (name : String) (external : Bool)
  /-- No definition of the name is in sight. -/
  | undefined (name : String)
deriving DecidableEq, Repr

/-- The statement that keeps the ones after it in its block from being reached. -/
inductive Cut where
  | branches
  | leaveLoop
  | ret
deriving DecidableEq, Repr

/-- The causes of diagnostics. -/
inductive Fault where
  -- Text
  | unexpectedChar (c : Char)
  | unknownAccessor (word : String)
  | emptyChar
  | openChar
  | openEscape
  | openString
  | unknownEscape (letter : Char)
  | hugeInt (digits : String)
  -- Grammar
  | missing (wanted : Kind) (found : Option Kind)
  | unexpected (wanted : Wanted) (found : Option Kind)
  | lowerCaseSynonym
  | precedenceRange (n : Nat)
  -- Imports
  | noHeader (module : String)
  | badHeader (module reason : String)
  | wrongHeader (module declared : String)
  | importedTwoWays (module : String)
  | aliasKind (name asName : Name)
  | importedTwice (name module : String)
  | notExported (module name : String)
  | globalClash (name module otherName otherModule : String)
  | synonymClash (name module otherName otherModule : String)
  | importFixity (name module : String) (fixity other : Fixity)
  | builtinSynonymClash (name module : String)
  | builtinFixity (name : String) (imported builtin : Fixity)
  | headerEntry (module what : String) (why : ExpandFault)
  -- Annotations
  | expansion (why : ExpandFault)
  | ownSynonymClash (name otherName otherModule : String)
  | synonymTwice (name : String)
  | synonymVoid (name : String)
  | globalUntyped (name : String)
  | globalVoid (name : String)
  | localUntyped (name : String)
  | localVoid (name : String)
  | unsigned (kind : CallKind) (name : String)
  | paramTwice (param name : String)
  | operatorArity (kind : CallKind) (name : String) (wanted found : Nat)
  | arity (name : String) (params listed : Nat)
  | paramVoid (param name : String)
  | resultVoid (name : String)
  -- Declarations
  | globalTwice (name : String)
  | overloadTwice (kind : CallKind) (name : String) (sig : Signature)
  | ownFixityImported (name : String) (fixity imported : Fixity)
  | ownFixity (name : String) (fixity earlier : Fixity)
  -- Names
  | undefinedVar (name : String)
  | undefinedGlobal (name : String)
  | localTwice (name : String)
  | shadowsArg (name : String)
  | shadowsGlobal (name : String)
  | shadowsImported (name module : String)
  | globalShadows (name otherName otherModule : String)
  -- Operators and calls
  | undefinedCallable (kind : CallKind) (name : String)
  | noOverload (kind : CallKind) (name : String) (result : Option Ty) (args : List (Option Ty))
  | ambiguous (kind : CallKind) (name : String) (nested : Bool) (count : Nat)
  | notConstant (name : String)
  -- Types of expressions
  | access (accessor : Accessor) (found : Ty)
  | unexpectedPair (wanted : Ty)
  | mismatch (wanted found : Ty)
  | emptyListMismatch (wanted : Ty)
  | emptyListUntyped
  | valueInVoid
  | missingValue (wanted : Ty)
  -- Control flow
  | notAllReturn (name : String)
  | strayBreak
  | strayContinue
  | unreachable (cut : Cut)

namespace ExpandFault

/-- The code of the diagnostic that the cause leads to. -/
def code : ExpandFault → Code
  | cycle _ false => .cyclicTypeSyn
  | cycle _ true => .cyclicTypeSynExternal
  | undefined _ => .undefinedType

/-- The cause in words. -/
def message : ExpandFault → String
  | cycle name _ => s!"type synonym `{name}` is defined in terms of itself"
  | undefined name => s!"undefined type `{name}`"

end ExpandFault

namespace Fault

/-- The code of the diagnostic that the cause leads to. -/
def code : Fault → Code
  | unexpectedChar _ | unknownAccessor _ => .unexpectedChar
  | emptyChar | openChar | openEscape => .unterminatedChar
  | openString => .unterminatedString
  | unknownEscape _ => .invalidEscape
  | hugeInt _ => .invalidLiteral
  | missing .. => .missingToken
  | unexpected .. | lowerCaseSynonym | precedenceRange _ => .unexpectedToken
  | noHeader _ => .importModuleNotFound
  | badHeader .. | wrongHeader .. => .headerFormatIncorrect
  | importedTwoWays _ => .importAllAndSpecific
  | aliasKind .. => .importAliasKindMismatch
  | importedTwice .. => .duplicateImport
  | notExported .. => .importUndefinedSymbol
  | globalClash .. => .clashImportGlobal
  | synonymClash .. | ownSynonymClash .. => .clashImportType
  | importFixity .. | builtinFixity .. | ownFixityImported .. | ownFixity .. => .fixityMismatch
  | builtinSynonymClash .. => .clashBuiltinType
  | headerEntry _ _ why | expansion why => why.code
  | synonymTwice _ => .duplicateTypeSyn
  | synonymVoid _ => .typeSynVoid
  | globalUntyped _ => .globalVarNeedsType
  | globalVoid _ => .globalVarVoid
  | localUntyped _ => .localVarNeedsType
  | localVoid _ => .localVarVoid
  | unsigned .. => .funNeedsType
  | paramTwice .. => .duplicateArg
  | operatorArity .. => .opArity
  | arity .. => .funArityMismatch
  | paramVoid .. => .funParamVoid
  | resultVoid _ => .funReturnNestedVoid
  | globalTwice _ => .duplicateGlobalVar
  | overloadTwice .. => .duplicateOverload
  | undefinedVar _ => .undefinedVar
  | undefinedGlobal _ => .undefinedGlobalVar
  | localTwice _ => .duplicateVarDef
  | shadowsArg _ => .shadowArg
  | shadowsGlobal _ | shadowsImported .. => .shadowGlobal
  | globalShadows .. => .shadowImportGlobal
  | undefinedCallable .function _ => .undefinedFun
  | undefinedCallable .. => .undefinedOp
  | noOverload .function _ (some _) _ => .noOverloadedFunDef
  | noOverload .function _ none _ => .noOverloadedFunWithArgs
  | noOverload _ _ (some _) _ => .noOpDefWithType
  | noOverload _ _ none _ => .noOpDefWithInputType
  | ambiguous .function _ false _ => .ambiguousFunCall
  | ambiguous .function _ true _ => .ambiguousNestedFunCall
  | ambiguous .. => .ambiguousOp
  | notConstant _ => .globalDefMustBeConstant
  | access a _ => if a.intoPair then .illegalTupleAccessorUsage else .illegalListAccessorUsage
  | unexpectedPair _ => .unexpectedTuple
  | mismatch .. | emptyListMismatch _ => .typeMismatch
  | emptyListUntyped => .emptyListNeedsType
  | valueInVoid => .returnValueInVoid
  | missingValue _ => .missingReturnValue
  | notAllReturn _ => .notAllPathsReturn
  | strayBreak | strayContinue => .breakOutsideLoop
  | unreachable .branches => .unreachableStmtBranches
  | unreachable .leaveLoop => .unreachableStmtContBreak
  | unreachable .ret => .unreachableStmtReturn

/-- Argument types in the words of a message. -/
def describeArgs (args : List (Option Ty)) : String :=
  ", ".intercalate (args.map fun t => (t.map Ty.render).getD "?")

/-- The cause in words. -/
def message : Fault → String
  | unexpectedChar c => s!"unexpected character `{c}`"
  | unknownAccessor word => s!"unknown accessor `.{word}`, expected one of .hd .tl .fst .snd"
  | emptyChar => "empty or unterminated character literal"
  | openChar => "unterminated character literal"
  | openEscape => "unterminated escape"
  | openString => "unterminated string literal"
  | unknownEscape letter => s!"unknown escape sequence `\\{letter}`"
  | hugeInt digits => s!"integer literal `{digits}` does not fit in 64 bits"
  | missing wanted found => s!"expected {wanted.describe}, found {Kind.describeNext found}"
  | unexpected wanted found => s!"expected {wanted.describe}, found {Kind.describeNext found}"
  | lowerCaseSynonym => "expected a capitalised type name"
  | precedenceRange n => s!"precedence {n} out of range"
  | noHeader module => s!"no header found for module `{module}`"
  | badHeader module reason => s!"header of `{module}`: {reason}"
  | wrongHeader module declared => s!"header for `{module}` declares module `{declared}`"
  | importedTwoWays module => s!"`{module}` is imported both entirely and by name"
  | aliasKind name asName =>
    s!"`{name.text}` is an {name.kind.describe} and cannot be aliased by the " ++
      s!"{asName.kind.describe} `{asName.text}`"
  | importedTwice name module => s!"`{name}` is already imported from `{module}`"
  | notExported module name => s!"module `{module}` does not export `{name}`"
  | globalClash name module otherName otherModule =>
    s!"global `{name}` from `{module}` clashes with `{otherName}` imported from `{otherModule}`"
  | synonymClash name module otherName otherModule =>
    s!"type synonym `{name}` from `{module}` clashes with " ++
      s!"`{otherName}` imported from `{otherModule}`"
  | importFixity name module fixity other =>
    s!"`{name}` from `{module}` is `{fixity.render}` but is already imported as `{other.render}`"
  | builtinSynonymClash name module =>
    s!"type synonym `{name}` imported from `{module}` clashes with the built-in one"
  | builtinFixity name imported builtin =>
    s!"imported `{name}` is `{imported.render}` but the built-in one is `{builtin.render}`"
  | headerEntry module what why => s!"in `{module}` {what}: {why.message}"
  | expansion why => why.message
  | ownSynonymClash name otherName otherModule =>
    s!"type synonym `{name}` clashes with `{otherName}` imported from `{otherModule}`"
  | synonymTwice name => s!"type synonym `{name}` is already defined"
  | synonymVoid name => s!"type synonym `{name}` contains `Void`"
  | globalUntyped name => s!"global `{name}` needs an explicit type"
  | globalVoid name => s!"global `{name}` cannot have a type containing `Void`"
  | localUntyped name => s!"local `{name}` needs an explicit type"
  | localVoid name => s!"local `{name}` cannot have a type containing `Void`"
  | unsigned kind name => s!"{kind.describe} `{name}` needs a type signature"
  | paramTwice param name => s!"parameter `{param}` of `{name}` is declared twice"
  | operatorArity kind name wanted found =>
    s!"{kind.describe} `{name}` takes {wanted} parameter(s), found {found}"
  | arity name params listed =>
    s!"`{name}` has {params} parameter(s) but its signature lists {listed}"
  | paramVoid param name => s!"parameter `{param}` of `{name}` cannot have a type containing `Void`"
  | resultVoid name => s!"return type of `{name}` nests `Void`"
  | globalTwice name => s!"global `{name}` is already defined"
  | overloadTwice kind name sig =>
    s!"{kind.describe} `{name}` already has an overload of type `{sig.render}`"
  | ownFixityImported name fixity imported =>
    s!"`{name}` is declared `{fixity.render}` but is imported as `{imported.render}`"
  | ownFixity name fixity earlier =>
    s!"`{name}` is declared `{fixity.render}` but was earlier declared `{earlier.render}`"
  | undefinedVar name | undefinedGlobal name => s!"undefined variable `{name}`"
  | localTwice name => s!"local `{name}` is already defined in this function"
  | shadowsArg name => s!"local `{name}` shadows an argument"
  | shadowsGlobal name => s!"local `{name}` shadows a global"
  | shadowsImported name module => s!"local `{name}` shadows the global imported from `{module}`"
  | globalShadows name otherName otherModule =>
    s!"global `{name}` shadows `{otherName}` imported from `{otherModule}`"
  | undefinedCallable kind name => s!"undefined {kind.describe} `{name}`"
  | noOverload .function name (some result) args =>
    s!"no overload of `{name}` returns `{result.render}` for arguments ({describeArgs args})"
  | noOverload .function name none args =>
    s!"no overload of `{name}` accepts arguments ({describeArgs args})"
  | noOverload _ name (some result) args =>
    s!"no definition of operator `{name}` returns `{result.render}` " ++
      s!"for operands ({describeArgs args})"
  | noOverload _ name none args =>
    s!"no definition of operator `{name}` accepts operands ({describeArgs args})"
  | ambiguous kind name _ count => s!"call to {kind.describe} `{name}` matches {count} overloads"
  | notConstant name =>
    s!"global initializers may only call constant built-ins, `{name}` is not one"
  | access a found =>
    s!"`.{a.name}` needs a " ++ (if a.intoPair then "tuple" else "list") ++
      s!", found `{found.render}`"
  | unexpectedPair wanted => s!"expected `{wanted.render}`, found a tuple"
  | mismatch wanted found => s!"expected `{wanted.render}`, found `{found.render}`"
  | emptyListMismatch wanted => s!"expected `{wanted.render}`, found an empty list"
  | emptyListUntyped => "cannot infer the element type of `[]`"
  | valueInVoid => "cannot return a value from a `Void` function"
  | missingValue wanted => s!"missing return value of type `{wanted.render}`"
  | notAllReturn name => s!"not every path through `{name}` returns a value"
  | strayBreak => "`break` outside of a loop"
  | strayContinue => "`continue` outside of a loop"
  | unreachable _ => "unreachable statement"

/-- The diagnostic for a cause at a place. -/
def report (f : Fault) (loc : Loc) (related : List Loc := []) : Diagnostic :=
  ⟨f.code, loc, f.message, related⟩

end Fault

end SplFrontend
