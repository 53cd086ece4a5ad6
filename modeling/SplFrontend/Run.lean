import SplFrontend.Command
import SplFrontend.Files.Tree
import SplFrontend.Header.Search
import SplFrontend.Program.Printing
import SplFrontend.Resolution

/-!
# A run of the program

A run reads the options, the source file and the headers of the imported modules, takes the module
through all passes, and writes its header. Nothing is written before everything else has succeeded.
A run fails with exit code 1, or with 101 if it is aborted.
-/

namespace SplFrontend

/-- What a run shows, and its exit code. -/
structure Outcome where
  exit : Nat
  stdout : String
  stderr : List String
deriving DecidableEq, Repr

/-- Why a run fails outside of the passes. -/
inductive RunFault where
  | optionsFile (path : String) (why : FileFault)
  /-- The options file is no JSON document of the right shape. As for headers, the message
  stops before the cause that the JSON layer would add. -/
  | options
  | source (path : String) (why : FileFault)
  | header (why : SearchFault)
  | target (path : String) (why : FileFault)
deriving DecidableEq, Repr

/-- The fault in words. For options and headers the cause is told twice. -/
def RunFault.message : RunFault → String
  | optionsFile path why => s!"cannot read options file `{path}`: {why.message}: {why.message}"
  | options => "malformed options file"
  | source path why => s!"cannot read `{path}`: {why.message}"
  | header why => s!"{why.message}: {why.why.message}"
  | target path why => s!"cannot write `{path}`: {why.message}"

namespace Outcome

/-- A run that fails outside of the passes. -/
def failure (f : RunFault) : Outcome := ⟨1, "", ["error: " ++ f.message]⟩

/-- A run whose module does not pass. -/
def refusal (ds : List Diagnostic) : Outcome := ⟨1, "", ds.map Diagnostic.render⟩

end Outcome

namespace Command

/-- The options of a run: those of the file, changed by the command line. Without a file the module
has the name of the source file. -/
def adjust (c : Command) (o : Options) : Options where
  module := (c.module <|> if c.config.isNone then Path.stem? c.file else none).getD o.module
  headerDirs := c.includes ++ o.headerDirs
  headerExtension := o.headerExtension
  denyWarnings := c.denyWarnings || o.denyWarnings

/-- Where the header is written: where the command says, or else next to the source file. There is
no such place if the extension of headers holds a slash. -/
def target (c : Command) (o : Options) : Option String :=
  c.emitHeader <|> Path.withExtension c.file o.headerExtension

section

variable {m : Type → Type} [Monad m]

/-- Reads the options. -/
def options (files : FileOps m) (c : Command) : m (Except RunFault Options) := do
  match c.config with
  | none => return .ok (c.adjust {})
  | some path =>
    match ← files.read path with
    | .error why => return .error (.optionsFile path why)
    | .ok text =>
      match Options.ofText? text with
      | some o => return .ok (c.adjust o)
      | none => return .error .options

/-- Reads the source file and the headers, and takes the module through all passes. -/
def resolved (files : FileOps m) (c : Command) (o : Options) : m (Except Outcome Resolved) := do
  match ← files.read c.file with
  | .error why => return .error (.failure (.source c.file why))
  | .ok text =>
    match Program.ofText text with
    | .error ds => return .error (.refusal ds)
    | .ok p =>
      match ← searchHeaders files o.headerDirs o.headerExtension
        (p.imports.map Import.module) [] with
      | .error f => return .error (.failure (.header f))
      | .ok headers =>
        match resolve p headers o with
        | .error ds => return .error (.refusal ds)
        | .ok r => return .ok r

/-- Writes the header of a module, and shows its warnings and, if asked, the program. Without a
place for the header the program is aborted. What its runtime then says is left out. -/
def emit (files : FileOps m) (c : Command) (o : Options) (r : Resolved) : m Outcome := do
  let stdout := if c.dump then r.program.render else ""
  let stderr := r.warnings.map Diagnostic.render
  match c.target o with
  | none => return ⟨101, stdout, stderr⟩
  | some path =>
    match ← files.write path r.table.headerText with
    | .ok () => return ⟨0, stdout, stderr⟩
    | .error why =>
      return ⟨1, stdout, stderr ++ ["error: " ++ (RunFault.target path why).message]⟩

/-- Runs a command. -/
def run (files : FileOps m) (c : Command) : m Outcome := do
  match ← c.options files with
  | .error f => return .failure f
  | .ok o =>
    match ← c.resolved files o with
    | .error out => return out
    | .ok r => c.emit files o r

end

end Command

/-- What `--version` shows. -/
def versionText : String := "splc 0.1.0\n"

/-- What `--help` shows. -/
def helpText : String :=
  "Resolve an SPL module against the headers of its imports\n" ++
  "\n" ++
  "Usage: splc [OPTIONS] <FILE>\n" ++
  "\n" ++
  "Arguments:\n" ++
  "  <FILE>  Source file to compile\n" ++
  "\n" ++
  "Options:\n" ++
  "      --module <MODULE>     Module name recorded in the emitted header " ++
  "(defaults to the file stem)\n" ++
  "  -I, --include <DIR>       Directory searched for headers, ahead of the configured ones\n" ++
  "      --config <FILE>       JSON options file\n" ++
  "      --emit-header <FILE>  Where to write the module's header " ++
  "(defaults to next to the source)\n" ++
  "      --dump                Print the resolved program\n" ++
  "      --deny-warnings       Treat warnings as errors\n" ++
  "  -h, --help                Print help\n" ++
  "  -V, --version             Print version\n"

/-- Runs the program on its arguments. -/
def runArgs {m : Type → Type} [Monad m] (files : FileOps m) (args : List String) : m Outcome :=
  match Command.ofArgs args with
  | .ok c => c.run files
  | .error .version => pure ⟨0, versionText, []⟩
  | .error .help => pure ⟨0, helpText, []⟩
  | .error .rejected =>
    pure ⟨2, "", ["error: invalid arguments", "", "Usage: splc [OPTIONS] <FILE>"]⟩

end SplFrontend
