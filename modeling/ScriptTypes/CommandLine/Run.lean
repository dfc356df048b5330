import ScriptTypes.CommandLine.Arguments
import ScriptTypes.Inference.Report
import ScriptTypes.Project.Load
import ScriptTypes.Workspace

/-!
# Running a command

A command reads its script, loads the project, and shows what was inferred. It needs the file
system only for that, and to find the modules that the script requires.
-/

namespace ScriptTypes.CommandLine

/-- What a run leaves behind. -/
structure Outcome where
  /-- Zero for success, one for a failure, two for a refused command line. -/
  code : Nat
  output : String := ""
  /-- What went wrong. -/
  complaint : String := ""
  deriving DecidableEq, Repr

def usage : String := Inference.unlines [
  "Static type inference for JavaScript",
  "",
  "Usage: jsinfer [OPTIONS] symbols [--generated] <FILE>",
  "       jsinfer [OPTIONS] at <FILE> <OFFSET>",
  "",
  "Options:",
  "      --config <CONFIG>  Path to jsinfer.toml (default: search upward from the file)",
  "      --index <PATH>     Extra TOML index files",
  "  -h, --help             Print help",
  "  -V, --version          Print version"]

def version : String := "jsinfer 0.1.0\n"

def Command.file : Command → Path
  | .symbols file _ => file
  | .typesAt file _ => file

/-- What a command shows. -/
def Command.output (s : Setting) : Command → String
  | .symbols _ generated =>
    let (scopes, registry) := (Inference.scopeReport s).run []
    if generated then scopes ++ Inference.typeReport registry else scopes
  | .typesAt _ offset => Inference.unlines ((Inference.inferAt s offset).run []).1

variable {m : Type → Type} [Monad m] (files : Files m)

/-- Those of some paths at which there are files. -/
def existing : List Path → m (List Path)
  | [] => return []
  | p :: ps => do
    let found ← files.isFile p
    let rest ← existing ps
    return if found then p :: rest else rest

/-- Run a command, or say why it fails. -/
def execute (options : Options) (command : Command) : ExceptT String m String := do
  let unread := "failed to read " ++ command.file
  let (w, id) ← (Workspace.read files .empty command.file).adapt fun _ => unread
  let some source := w.source? id | throw unread
  let project ← (Project.load files options.config options.indexes source.path).adapt
    ProjectError.message
  match source.module with
  | .error e => throw e.message
  | .ok script =>
    let root := project.index.root
    let candidates := script.requiredIds.flatMap fun id =>
      Require.candidates id (Require.directoryOf source.path) root
    let found ← ExceptT.lift (existing files candidates)
    return command.output
      (.withFiles found.contains script project.index project.renames source.path)

/-- Run a command line. -/
def run (args : List String) : m Outcome := do
  match parse args with
  | .error e => return { code := 2, complaint := e.message }
  | .ok .help => return { code := 0, output := usage }
  | .ok .version => return { code := 0, output := version }
  | .ok (.run options command) =>
    match ← (execute files options command).run with
    | .ok output => return { code := 0, output }
    | .error complaint => return { code := 1, complaint }

end ScriptTypes.CommandLine
