import Codebook.Command.Stop

namespace Codebook.Command

def versionText : String :=
  "enumconf 0.1.0\n"

/-- The lines of a help text on the parameters of every scope. -/
def Scope.optionHelp : Scope → List String
  | .top =>
    ["      --max-errors <max-errors>  Stop after this many rejected declarations",
      "  -h, --help                     Print help",
      "  -V, --version                  Print version"]
  | .action .parse =>
    ["  -f, --format <format>          Output format [default: text] [possible values: text, json]",
      "      --strict                   Exit with an error if any declaration was rejected",
      "      --max-errors <max-errors>  Stop after this many rejected declarations",
      "  -h, --help                     Print help"]
  | .action _ =>
    ["      --max-errors <max-errors>  Stop after this many rejected declarations",
      "  -h, --help                     Print help"]

def Action.purpose : Action → String
  | tokens => "Print the token stream"
  | parse => "Print the parsed entries"
  | lookup => "Print the title registered for an id"

def Scope.usageHelp : Scope → List String
  | .top =>
    [Command.purpose, "", "Usage: enumconf [OPTIONS] <COMMAND>", "", "Commands:",
      "  tokens  " ++ Action.tokens.purpose,
      "  parse   " ++ Action.parse.purpose,
      "  lookup  " ++ Action.lookup.purpose,
      "  help    Print this message or the help of the given subcommand(s)"]
  | .action .lookup =>
    [Action.lookup.purpose, "", "Usage: enumconf lookup [OPTIONS] <path> <id>", "", "Arguments:",
      "  <path>  Path to the registry source file",
      "  <id>    Registry id to look up"]
  | .action a =>
    [a.purpose, "", "Usage: enumconf " ++ a.name ++ " [OPTIONS] <path>", "", "Arguments:",
      "  <path>  Path to the registry source file"]

def Scope.help (scope : Scope) : String :=
  String.join ((scope.usageHelp ++ ["", "Options:"] ++ scope.optionHelp).map (· ++ "\n"))

end Codebook.Command
