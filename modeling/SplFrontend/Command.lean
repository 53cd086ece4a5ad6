/-!
# The command line

The arguments of the program: one source file, and options before or after it. An option with a
value takes it from the same argument, after an equals sign, or from the next one, which must not
look like an option. Each option but `-I` may be given once, and what stands after `--` is no
option.
-/

namespace SplFrontend

/-- What the command line asks for. -/
structure Command where
  /-- The source file. -/
  file : String
  /-- The name of the module, in the place of the one that the options name. -/
  module : Option String
  /-- Directories that are searched for headers before the others. -/
  includes : List String
  /-- The file that the options are read from. -/
  config : Option String
  /-- Where the header is written, if not next to the source file. -/
  emitHeader : Option String
  /-- Is the resolved program printed? -/
  dump : Bool
  denyWarnings : Bool
deriving DecidableEq, Repr

/-- Why the arguments ask for no run. -/
inductive CommandStop where
  | version
  | help
  | rejected
deriving DecidableEq, Repr

namespace Command

/-- The options without a value. -/
inductive Flag where
  | dump
  | denyWarnings
  | version
  | help
deriving DecidableEq, Repr

/-- The options with a value. -/
inductive Setting where
  | module
  | includeDir
  | config
  | emitHeader
deriving DecidableEq, Repr

/-- The option that a word after two dashes names. -/
def ofLong? : String → Option (Flag ⊕ Setting)
  | "dump" => some (.inl .dump)
  | "deny-warnings" => some (.inl .denyWarnings)
  | "version" => some (.inl .version)
  | "help" => some (.inl .help)
  | "module" => some (.inr .module)
  | "include" => some (.inr .includeDir)
  | "config" => some (.inr .config)
  | "emit-header" => some (.inr .emitHeader)
  | _ => none

/-- The option that a letter after one dash names. -/
def ofShort? : Char → Option (Flag ⊕ Setting)
  | 'I' => some (.inr .includeDir)
  | 'V' => some (.inl .version)
  | 'h' => some (.inl .help)
  | _ => none

/-- An argument by its form. -/
inductive Arg where
  /-- Two dashes alone. -/
  | endOfOptions
  /-- An option by its word, with the value after an equals sign. -/
  | long (word : String) (value : Option String)
  /-- An option by its letter, with what stands after the letter. -/
  | short (letter : Char) (rest : List Char)
  | plain (text : String)
deriving DecidableEq, Repr

/-- The form of an argument. -/
def argOf (text : String) : Arg :=
  match text.toList with
  | ['-', '-'] => .endOfOptions
  | '-' :: '-' :: cs =>
    match cs.dropWhile (· ≠ '=') with
    | _ :: value => .long (String.ofList (cs.takeWhile (· ≠ '='))) (some (String.ofList value))
    | [] => .long (String.ofList cs) none
  | '-' :: c :: cs => .short c cs
  | _ => .plain text

/-- The value in the argument of a letter: all that follows it, less an equals sign. -/
def attached : List Char → Option String
  | [] => none
  | '=' :: cs => some (String.ofList cs)
  | cs => some (String.ofList cs)

/-- The command line as far as it is read. -/
structure Draft where
  file : Option String := none
  module : Option String := none
  includes : List String := []
  config : Option String := none
  emitHeader : Option String := none
  dump : Bool := false
  denyWarnings : Bool := false

namespace Draft

/-- Sets what is not set yet. -/
def once (held : Option String) (value : String) : Except CommandStop (Option String) :=
  if held.isSome then .error .rejected else .ok (some value)

/-- Sets a path, which must not be empty. -/
def oncePath (held : Option String) (value : String) : Except CommandStop (Option String) :=
  if value.isEmpty then .error .rejected else once held value

/-- Takes an option without a value. -/
def flag (d : Draft) : Flag → Except CommandStop Draft
  | .dump => if d.dump then .error .rejected else .ok { d with dump := true }
  | .denyWarnings =>
    if d.denyWarnings then .error .rejected else .ok { d with denyWarnings := true }
  | .version => .error .version
  | .help => .error .help

/-- Takes an option with its value. -/
def setting (d : Draft) (value : String) : Setting → Except CommandStop Draft
  | .module => do return { d with module := ← once d.module value }
  | .includeDir =>
    if value.isEmpty then .error .rejected else .ok { d with includes := d.includes ++ [value] }
  | .config => do return { d with config := ← oncePath d.config value }
  | .emitHeader => do return { d with emitHeader := ← oncePath d.emitHeader value }

/-- Takes the source file. -/
def plain (d : Draft) (text : String) : Except CommandStop Draft := do
  return { d with file := ← oncePath d.file text }

/-- Takes arguments that cannot be options. -/
def plains : Draft → List String → Except CommandStop Draft
  | d, [] => .ok d
  | d, a :: as => do plains (← d.plain a) as

/-- Takes arguments. -/
def take : Draft → List String → Except CommandStop Draft
  | d, [] => .ok d
  | d, [a] =>
    match argOf a with
    | .endOfOptions => .ok d
    | .plain text => d.plain text
    | .long word value =>
      match ofLong? word, value with
      | some (.inl f), none => d.flag f
      | some (.inr s), some value => d.setting value s
      | _, _ => .error .rejected
    | .short letter rest =>
      match ofShort? letter, attached rest with
      | some (.inl f), _ => d.flag f
      | some (.inr s), some value => d.setting value s
      | _, _ => .error .rejected
  | d, a :: b :: as =>
    match argOf a with
    | .endOfOptions => plains d (b :: as)
    | .plain text => do take (← d.plain text) (b :: as)
    | .long word value =>
      match ofLong? word, value, argOf b with
      | some (.inl f), none, _ => do take (← d.flag f) (b :: as)
      | some (.inr s), some value, _ => do take (← d.setting value s) (b :: as)
      | some (.inr s), none, .plain value => do take (← d.setting value s) as
      | _, _, _ => .error .rejected
    | .short letter rest =>
      match ofShort? letter, attached rest, argOf b with
      | some (.inl f), _, _ => do take (← d.flag f) (b :: as)
      | some (.inr s), some value, _ => do take (← d.setting value s) (b :: as)
      | some (.inr s), none, .plain value => do take (← d.setting value s) as
      | _, _, _ => .error .rejected

/-- The command, if it has a source file. -/
def command (d : Draft) : Except CommandStop Command :=
  match d.file with
  | some file =>
    .ok ⟨file, d.module, d.includes, d.config, d.emitHeader, d.dump, d.denyWarnings⟩
  | none => .error .rejected

end Draft

/-- The command that arguments spell. -/
def ofArgs (args : List String) : Except CommandStop Command := do
  (← Draft.take {} args).command

end Command

end SplFrontend
