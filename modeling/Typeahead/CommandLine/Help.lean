/-!
# Help

What the command line prints about itself: a short help with one option a line,
and a long one with more room for every option.
-/

namespace Typeahead.Help

/-- The name and the version of the program. -/
def version : String := "phel-complete 0.1.0\n"

/-- An option with what it is for, in the short and in the long help. -/
structure Topic where
  usage : String
  short : String
  long : String

/-- An option that has the same text in both helps. -/
def topic (usage text : String) : Topic := ⟨usage, text, text⟩

/-- All options. -/
def topics : List Topic :=
  [topic "      --file <FILE>" "Source file to complete in (reads stdin when omitted)",
   topic "      --offset <OFFSET>" "Cursor as a byte offset into the source",
   topic "      --line <LINE>" "Cursor line (0-based)",
   topic "      --character <CHARACTER>" "Cursor column in UTF-16 code units (0-based)",
   topic "      --project <PROJECT>" "Project root scanned for definitions and namespaces",
   topic "      --config <CONFIG>" "JSON file overriding completion limits",
   ⟨"      --format <FORMAT>", "[default: json] [possible values: json, lsp, plain]",
    "Possible values:\n          - json:  Ranked candidates as JSON\n          " ++
      "- lsp:   LSP `CompletionItem`s as JSON\n          " ++
      "- plain: One display label per line\n          \n          [default: json]"⟩,
   topic "      --log-level <LOG_LEVEL>" "Log level for stderr (overrides RUST_LOG)",
   topic "      --no-color" "",
   topic "      --log-file" "Also write a debug session log to the user cache directory",
   ⟨"  -h, --help", "Print help (see more with '--help')", "Print help (see a summary with '-h')"⟩,
   topic "  -V, --version" "Print version"]

/-- A text with spaces after it up to the given width. -/
def padRight (width : Nat) (s : String) : String :=
  s ++ String.ofList (List.replicate (width - s.length) ' ')

/-- The text before the options. -/
def opening : String :=
  "Suggest completions for a cursor in a Phel source file\n\n" ++
    "Usage: phel-complete [OPTIONS]\n\nOptions:\n"

/-- The short help. -/
def short : String :=
  opening ++ String.join (topics.map fun t => padRight 31 t.usage ++ t.short ++ "\n")

/-- The long help. -/
def long : String :=
  opening ++ "\n".intercalate (topics.map fun t => t.usage ++ "\n          " ++ t.long ++ "\n")

end Typeahead.Help
