import Utterance.CommandLine.Command

/-!
# Help

What the program prints about itself.
-/

namespace Utterance.CommandLine

def versionText : String := "slu 0.1.0\n"

def helpLines : Option CommandName → List String
  | none =>
    ["Template-based spoken language understanding", "", "Usage: slu [OPTIONS] <COMMAND>", "",
      "Commands:",
      "  compile    Compile ini grammars into an intent graph (JSON)",
      "  fst        Export a compiled graph as text FST plus symbol tables",
      "  recognize  Recognize text (arguments, or one sentence per stdin line)",
      "  sample     Print every sentence a graph accepts, with its interpretation", "",
      "Options:",
      "      --debug    Log at debug level unless RUST_LOG says otherwise",
      "  -h, --help     Print help",
      "  -V, --version  Print version"]
  | some .compile =>
    ["Compile ini grammars into an intent graph (JSON)", "",
      "Usage: slu compile [OPTIONS] <GRAMMARS>...", "",
      "Arguments:",
      "  <GRAMMARS>...  Ini files or directories of them", "",
      "Options:",
      "      --debug                        Log at debug level unless RUST_LOG says otherwise",
      "  -o, --out <OUT>                    Output path; stdout when omitted",
      "      --train-config <TRAIN_CONFIG>  YAML training settings (casing, replace_numbers, ...)",
      "      --slot <NAME=FILE>             Slot values as NAME=FILE, one value per line",
      "      --intent <INTENTS>             Only compile these intents",
      "      --skip-missing                 Skip grammar paths that do not exist",
      "  -h, --help                         Print help"]
  | some .fst =>
    ["Export a compiled graph as text FST plus symbol tables", "",
      "Usage: slu fst [OPTIONS] --graph <GRAPH>", "",
      "Options:",
      "      --debug              Log at debug level unless RUST_LOG says otherwise",
      "      --graph <GRAPH>      ",
      "      --out-dir <OUT_DIR>  Output directory [default: .]",
      "      --per-intent         One FST per intent sharing the symbol tables",
      "      --no-weights         Leave edge weights out",
      "  -h, --help               Print help"]
  | some .recognize =>
    ["Recognize text (arguments, or one sentence per stdin line)", "",
      "Usage: slu recognize [OPTIONS] --graph <GRAPH> [TEXT]...", "",
      "Arguments:",
      "  [TEXT]...  ", "",
      "Options:",
      "      --debug                   Log at debug level unless RUST_LOG says otherwise",
      "      --graph <GRAPH>           ",
      "      --config <CONFIG>         YAML recognizer settings",
      "      --strict                  Exact matching only",
      "      --stop-word <STOP_WORDS>  Extra stop words",
      "      --pretty                  Pretty-print JSON",
      "  -h, --help                    Print help"]
  | some .sample =>
    ["Print every sentence a graph accepts, with its interpretation", "",
      "Usage: slu sample [OPTIONS] --graph <GRAPH>", "",
      "Options:",
      "      --debug          Log at debug level unless RUST_LOG says otherwise",
      "      --graph <GRAPH>  ",
      "      --limit <LIMIT>  ",
      "  -h, --help           Print help"]

def helpText (about : Option CommandName) : String :=
  "\n".intercalate (helpLines about) ++ "\n"

end Utterance.CommandLine
