import DocHarvest.Text.Basic

set_option autoImplicit false

namespace DocHarvest.CommandLine

inductive Flag where
  | version
  | output | outDir | config | privatePrefix | lookahead | defaultReturn | pattern | sort | quiet
  deriving DecidableEq, Repr

namespace Flag

def ofProgram : List Flag := [.version]

def ofExtract : List Flag :=
  [.output, .outDir, .config, .privatePrefix, .lookahead, .defaultReturn, .pattern, .sort, .quiet]

def long : Flag → String
  | .version => "--version"
  | .output => "--output"
  | .outDir => "--out-dir"
  | .config => "--config"
  | .privatePrefix => "--private-prefix"
  | .lookahead => "--lookahead"
  | .defaultReturn => "--default-return"
  | .pattern => "--include"
  | .sort => "--sort"
  | .quiet => "--quiet"

def short? : Flag → Option Char
  | .version => some 'v'
  | .output => some 'o'
  | .config => some 'c'
  | .quiet => some 'q'
  | _ => none

def value? : Flag → Option String
  | .version | .quiet => none
  | .output => some "file"
  | .outDir => some "dir"
  | .config => some "path"
  | .privatePrefix => some "prefix"
  | .lookahead => some "n"
  | .defaultReturn => some "type"
  | .pattern => some "pattern"
  | .sort => some "mode"

def takesValue (f : Flag) : Bool := f.value?.isSome

def isNamed (f : Flag) (arg : Text) : Bool :=
  arg = f.long.toList || f.short?.any fun c => arg = ['-', c]

def usage (f : Flag) : String :=
  let short := match f.short? with
    | some c => "-" ++ String.singleton c ++ ", "
    | none => ""
  let value := match f.value? with
    | some v => " <" ++ v ++ ">"
    | none => ""
  short ++ f.long ++ value

end Flag

def helpFlag : String := "--help"

def isHelpFlag (arg : Text) : Bool := arg = helpFlag.toList || arg = ['-', 'h']

inductive Topic where
  | program
  | extract
  deriving DecidableEq, Repr

def Topic.help : Topic → List String
  | .program => [
      "Usage: docscan [options] [command]",
      "",
      "Extract function documentation from annotation comments",
      "",
      "Options:",
      "  -v, --version              Output the current version",
      "  -h, --help                 display help for command",
      "",
      "Commands:",
      "  extract [options] <input>  Extract documented functions from a file,",
      "                             directory or glob as JSON",
      "  help [command]             display help for command"]
  | .extract => [
      "Usage: docscan extract [options] <input>",
      "",
      "Extract documented functions from a file, directory or glob as JSON",
      "",
      "Options:",
      "  -o, --output <file>        Write the JSON document to a file instead of",
      "                             stdout",
      "  --out-dir <dir>            Write one JSON file per source file",
      "  -c, --config <path>        Config file (default: docscan.config.yaml in the",
      "                             working directory)",
      "  --private-prefix <prefix>  Name prefix marking private functions (default:",
      "                             __)",
      "  --lookahead <n>            Lines searched for a definition after a comment",
      "                             block (default: 10)",
      "  --default-return <type>    Return type used when none is annotated (default:",
      "                             any)",
      "  --include <pattern>        Glob used inside directory inputs (default:",
      "                             **/*.lua)",
      "  --sort <mode>              Record order: source (default) or hierarchical",
      "  -q, --quiet                Only report errors (default: false)",
      "  -h, --help                 display help for command"]

def Topic.text (t : Topic) : String := "\n".intercalate t.help

def versionText : String := "0.1.0"

end DocHarvest.CommandLine
