import MiniScriptLayout.Program

/-!
The parts of the command line: the program itself with its commands, and the switches that each of
them has.
-/

namespace MiniScriptLayout
namespace Command

/-- What is asked for on the command line. -/
inductive Switch where
  | help
  | version
  | config
  | verbose
  | workspace
  | logLevel
  | check
  | diff
  | stdin
  deriving DecidableEq, Repr

namespace Switch

/-- The ways to write a switch. -/
def names : Switch → List String
  | help => ["-h", "--help"]
  | version => ["--version"]
  | config => ["--config"]
  | verbose => ["--verbose"]
  | workspace => ["--workspace"]
  | logLevel => ["--log-level"]
  | check => ["--check"]
  | diff => ["--diff"]
  | stdin => ["--stdin"]

/-- A value follows the switch. -/
def takesValue : Switch → Bool
  | config | workspace | logLevel => true
  | help | version | verbose | check | diff | stdin => false

/-- All names of a switch together. -/
def title (s : Switch) : String :=
  "/".intercalate s.names

end Switch

/-- The program or one of its commands. -/
inductive Level where
  | program
  | format
  | server
  deriving DecidableEq, Repr

namespace Level

/-- The commands by name. -/
def commands : List (String × Level) :=
  [("format", format), ("lsp", server)]

def switches : Level → List Switch
  | program => [.help, .version, .config, .verbose, .workspace, .logLevel]
  | format => [.help, .check, .diff, .stdin]
  | server => [.help]

/-- What usage and errors call a level. -/
def title : Level → String
  | program => Program.name
  | format => Program.name ++ " format"
  | server => Program.name ++ " lsp"

def usage : Level → String
  | program =>
    "usage: msfmt [-h] [--version] [--config CONFIG] [--verbose]\n" ++
    "             [--workspace WORKSPACE] [--log-level \x7bdebug,info,warn,error\x7d]\n" ++
    "             \x7bformat,lsp\x7d ...\n"
  | format => "usage: msfmt format [-h] [--check] [--diff] [--stdin] [files ...]\n"
  | server => "usage: msfmt lsp [-h]\n"

/-- What there is to know about a level, behind its usage. -/
def description : Level → String
  | program =>
    "\nmsfmt - source formatter for the MiniScript language\n\n" ++
    "positional arguments:\n" ++
    "  \x7bformat,lsp\x7d          Available commands\n" ++
    "    format              Format MiniScript source files\n" ++
    "    lsp                 Start the msfmt language server for editor\n" ++
    "                        integrations\n\n" ++
    "options:\n" ++
    "  -h, --help            show this help message and exit\n" ++
    "  --version             show program's version number and exit\n" ++
    "  --config CONFIG       Path to an msfmt.toml or .msfmtrc configuration file\n" ++
    "  --verbose             Print full tracebacks and detailed CLI errors (or set\n" ++
    "                        MSFMT_VERBOSE=1)\n" ++
    "  --workspace WORKSPACE\n" ++
    "                        Workspace root directory (defaults to current working\n" ++
    "                        directory)\n" ++
    "  --log-level \x7bdebug,info,warn,error\x7d\n" ++
    "                        Set logging level (or set MSFMT_LOG_LEVEL)\n"
  | format =>
    "\npositional arguments:\n" ++
    "  files       Files or directories to format (default: current directory)\n\n" ++
    "options:\n" ++
    "  -h, --help  show this help message and exit\n" ++
    "  --check     Check if files need formatting without making changes\n" ++
    "  --diff      Show diff of formatting changes\n" ++
    "  --stdin     Read source from standard input and write the result to standard\n" ++
    "              output\n"
  | server => "\noptions:\n  -h, --help  show this help message and exit\n"

def help (l : Level) : String :=
  l.usage ++ l.description

end Level

/-- What is said of the version. -/
def versionLine : String :=
  Program.name ++ " " ++ Program.version ++ "\n"

end Command
end MiniScriptLayout
