import SplFrontend.Loc

/-!
# Diagnostics

A diagnostic is what a pass reports: a code, a place, a message, and the places of other
declarations involved. `Noted` pairs a value with the diagnostics of its computation. A `Sink`
gathers diagnostics over several passes; its `checkpoint` is the barrier between them.
-/

namespace SplFrontend

/-- The kinds of diagnostics. -/
inductive Code where
  | unexpectedChar
  | unterminatedString
  | unterminatedChar
  | invalidEscape
  | invalidLiteral
  | unexpectedToken
  | missingToken
  | importModuleNotFound
  | headerFormatIncorrect
  | importUndefinedSymbol
  | importAliasKindMismatch
  | clashImportGlobal
  | clashImportType
  | clashBuiltinType
  | duplicateImport
  | importAllAndSpecific
  | undefinedType
  | cyclicTypeSyn
  | cyclicTypeSynExternal
  | typeSynVoid
  | globalVarNeedsType
  | globalVarVoid
  | funNeedsType
  | funParamVoid
  | funReturnNestedVoid
  | funArityMismatch
  | opArity
  | localVarNeedsType
  | localVarVoid
  | duplicateArg
  | duplicateGlobalVar
  | duplicateTypeSyn
  | duplicateOverload
  | fixityMismatch
  | undefinedVar
  | undefinedGlobalVar
  | duplicateVarDef
  | shadowGlobal
  | shadowArg
  | shadowImportGlobal
  | undefinedOp
  | undefinedFun
  | noOverloadedFunDef
  | noOverloadedFunWithArgs
  | noOpDefWithType
  | noOpDefWithInputType
  | ambiguousFunCall
  | ambiguousNestedFunCall
  | ambiguousOp
  | globalDefMustBeConstant
  | illegalTupleAccessorUsage
  | illegalListAccessorUsage
  | unexpectedTuple
  | typeMismatch
  | emptyListNeedsType
  | returnValueInVoid
  | missingReturnValue
  | notAllPathsReturn
  | breakOutsideLoop
  | unreachableStmtBranches
  | unreachableStmtContBreak
  | unreachableStmtReturn
deriving DecidableEq, Repr

namespace Code

/-- The name that a diagnostic is shown with. -/
def name : Code → String
  | unexpectedChar => "UnexpectedChar"
  | unterminatedString => "UnterminatedString"
  | unterminatedChar => "UnterminatedChar"
  | invalidEscape => "InvalidEscape"
  | invalidLiteral => "InvalidLiteral"
  | unexpectedToken => "UnexpectedToken"
  | missingToken => "MissingToken"
  | importModuleNotFound => "ImportModuleNotFound"
  | headerFormatIncorrect => "HeaderFormatIncorrect"
  | importUndefinedSymbol => "ImportUndefinedSymbol"
  | importAliasKindMismatch => "ImportAliasKindMismatch"
  | clashImportGlobal => "ClashImportGlobal"
  | clashImportType => "ClashImportType"
  | clashBuiltinType => "ClashBuiltinType"
  | duplicateImport => "DuplicateImport"
  | importAllAndSpecific => "ImportAllAndSpecific"
  | undefinedType => "UndefinedType"
  | cyclicTypeSyn => "CyclicTypeSyn"
  | cyclicTypeSynExternal => "CyclicTypeSynExternal"
  | typeSynVoid => "TypeSynVoid"
  | globalVarNeedsType => "GlobalVarNeedsType"
  | globalVarVoid => "GlobalVarVoid"
  | funNeedsType => "FunNeedsType"
  | funParamVoid => "FunParamVoid"
  | funReturnNestedVoid => "FunReturnNestedVoid"
  | funArityMismatch => "FunArityMismatch"
  | opArity => "OpArity"
  | localVarNeedsType => "LocalVarNeedsType"
  | localVarVoid => "LocalVarVoid"
  | duplicateArg => "DuplicateArg"
  | duplicateGlobalVar => "DuplicateGlobalVar"
  | duplicateTypeSyn => "DuplicateTypeSyn"
  | duplicateOverload => "DuplicateOverload"
  | fixityMismatch => "FixityMismatch"
  | undefinedVar => "UndefinedVar"
  | undefinedGlobalVar => "UndefinedGlobalVar"
  | duplicateVarDef => "DuplicateVarDef"
  | shadowGlobal => "ShadowGlobal"
  | shadowArg => "ShadowArg"
  | shadowImportGlobal => "ShadowImportGlobal"
  | undefinedOp => "UndefinedOp"
  | undefinedFun => "UndefinedFun"
  | noOverloadedFunDef => "NoOverloadedFunDef"
  | noOverloadedFunWithArgs => "NoOverloadedFunWithArgs"
  | noOpDefWithType => "NoOpDefWithType"
  | noOpDefWithInputType => "NoOpDefWithInputType"
  | ambiguousFunCall => "AmbiguousFunCall"
  | ambiguousNestedFunCall => "AmbiguousNestedFunCall"
  | ambiguousOp => "AmbiguousOp"
  | globalDefMustBeConstant => "GlobalDefMustBeConstant"
  | illegalTupleAccessorUsage => "IllegalTupleAccessorUsage"
  | illegalListAccessorUsage => "IllegalListAccessorUsage"
  | unexpectedTuple => "UnexpectedTuple"
  | typeMismatch => "TypeMismatch"
  | emptyListNeedsType => "EmptyListNeedsType"
  | returnValueInVoid => "ReturnValueInVoid"
  | missingReturnValue => "MissingReturnValue"
  | notAllPathsReturn => "NotAllPathsReturn"
  | breakOutsideLoop => "BreakOutsideLoop"
  | unreachableStmtBranches => "UnreachableStmtBranches"
  | unreachableStmtContBreak => "UnreachableStmtContBreak"
  | unreachableStmtReturn => "UnreachableStmtReturn"

/-- Every code. -/
def all : List Code :=
  [unexpectedChar, unterminatedString, unterminatedChar, invalidEscape, invalidLiteral,
    unexpectedToken, missingToken, importModuleNotFound, headerFormatIncorrect,
    importUndefinedSymbol, importAliasKindMismatch, clashImportGlobal, clashImportType,
    clashBuiltinType, duplicateImport, importAllAndSpecific, undefinedType, cyclicTypeSyn,
    cyclicTypeSynExternal, typeSynVoid, globalVarNeedsType, globalVarVoid, funNeedsType,
    funParamVoid, funReturnNestedVoid, funArityMismatch, opArity, localVarNeedsType,
    localVarVoid, duplicateArg, duplicateGlobalVar, duplicateTypeSyn, duplicateOverload,
    fixityMismatch, undefinedVar, undefinedGlobalVar, duplicateVarDef, shadowGlobal, shadowArg,
    shadowImportGlobal, undefinedOp, undefinedFun, noOverloadedFunDef, noOverloadedFunWithArgs,
    noOpDefWithType, noOpDefWithInputType, ambiguousFunCall, ambiguousNestedFunCall,
    ambiguousOp, globalDefMustBeConstant, illegalTupleAccessorUsage, illegalListAccessorUsage,
    unexpectedTuple, typeMismatch, emptyListNeedsType, returnValueInVoid, missingReturnValue,
    notAllPathsReturn, breakOutsideLoop, unreachableStmtBranches, unreachableStmtContBreak,
    unreachableStmtReturn]

/-- The code with the given name. -/
def ofName? (n : String) : Option Code := all.find? fun c => c.name == n

/-- Is the diagnostic an error? The others are warnings, which do not stop the work on their own. -/
def isError : Code → Bool
  | duplicateImport | importAllAndSpecific | shadowGlobal | shadowArg | shadowImportGlobal
  | unreachableStmtBranches | unreachableStmtContBreak | unreachableStmtReturn => false
  | _ => true

/-- Is further work on the module of no use after this diagnostic? -/
def isFatal : Code → Bool
  | importModuleNotFound | headerFormatIncorrect => true
  | _ => false

end Code

/-- One report, with the places of the other declarations involved. -/
structure Diagnostic where
  code : Code
  loc : Loc
  message : String
  related : List Loc
deriving DecidableEq, Repr

namespace Diagnostic

/-- Is the report an error, rather than a warning? -/
def isError (d : Diagnostic) : Bool := d.code.isError

/-- The report in one line. -/
def render (d : Diagnostic) : String :=
  "[" ++ d.code.name ++ "] " ++ d.loc.render ++ ": " ++ d.message

end Diagnostic

/-! ## Values with diagnostics -/

/-- A value together with the diagnostics that computing it reports, in order. -/
structure Noted (α : Type) where
  value : α
  notes : List Diagnostic

namespace Noted

instance : Monad Noted where
  pure a := ⟨a, []⟩
  bind x f :=
    let y := f x.value
    ⟨y.value, x.notes ++ y.notes⟩

/-- Reports one diagnostic. -/
def note (d : Diagnostic) : Noted Unit := ⟨(), [d]⟩

variable {α β : Type}

@[simp] theorem value_pure (a : α) : (pure a : Noted α).value = a := rfl

@[simp] theorem notes_pure (a : α) : (pure a : Noted α).notes = [] := rfl

@[simp] theorem value_bind (x : Noted α) (f : α → Noted β) :
    (x >>= f).value = (f x.value).value := rfl

@[simp] theorem notes_bind (x : Noted α) (f : α → Noted β) :
    (x >>= f).notes = x.notes ++ (f x.value).notes := rfl

@[simp] theorem notes_note (d : Diagnostic) : (note d).notes = [d] := rfl

@[ext] theorem ext {x y : Noted α} (hv : x.value = y.value) (hn : x.notes = y.notes) : x = y := by
  cases x; cases y; cases hv; cases hn; rfl

instance : LawfulMonad Noted :=
  LawfulMonad.mk' Noted
    (fun _ => Noted.ext rfl (List.append_nil _))
    (fun _ _ => Noted.ext rfl (List.nil_append _))
    (fun _ _ _ => Noted.ext rfl (List.append_assoc ..))

end Noted

/-! ## The barrier between passes -/

/-- The diagnostics recorded so far, and what is known of all that ever were: whether one was fatal,
and whether warnings count as errors. -/
structure Sink where
  entries : List Diagnostic
  fatal : Bool
  denyWarnings : Bool
deriving DecidableEq, Repr

namespace Sink

/-- A sink without entries. -/
def empty (denyWarnings : Bool) : Sink := ⟨[], false, denyWarnings⟩

/-- Records one diagnostic. -/
def push (s : Sink) (d : Diagnostic) : Sink :=
  { s with entries := s.entries ++ [d], fatal := s.fatal || d.code.isFatal }

/-- Records diagnostics in order. -/
def pushAll (s : Sink) (ds : List Diagnostic) : Sink := ds.foldl push s

/-- Is there an error among the entries? -/
def hasErrors (s : Sink) : Bool := s.entries.any Diagnostic.isError

/-- Must the work stop here? -/
def blocked (s : Sink) : Bool :=
  s.fatal || s.hasErrors || (s.denyWarnings && s.entries.any fun d => !d.isError)

/-- The barrier: if the work must stop, every entry is handed out and the sink is left without
entries, but still fatal if it was. -/
def checkpoint (s : Sink) : Option (List Diagnostic) × Sink :=
  if s.blocked then (some s.entries, { s with entries := [] }) else (none, s)

@[simp] theorem entries_pushAll (s : Sink) (ds : List Diagnostic) :
    (s.pushAll ds).entries = s.entries ++ ds := by
  induction ds generalizing s with
  | nil => simp [pushAll]
  | cons d ds ih =>
    show ((s.push d).pushAll ds).entries = _
    rw [ih]
    simp [push]

end Sink

end SplFrontend
