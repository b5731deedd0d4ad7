import Shorthand.Error

/-!
The report of an error to a reader: a Markdown text with what happened and, where there is a
remedy, how to apply it. On a terminal its headings are bold.
-/

namespace Shorthand
namespace Error

def report : Error → Text
  | builtinNamespace n =>
      "# Error: Built-in Namespace\n\n`" ++ n ++ "` is built in and `" ++ configFile ++
      "` does not define it, so there is\nnothing to remove or rename.\n\n" ++
      "## Fix\n\nOverride its root instead:\n\n    [namespaces]\n    " ++ n ++
      " = \"path/to/" ++ n ++ "\"\n\nOr point a wrapper at another namespace under `[wrappers]`.\n"
  | fileNotFound p => "# Error: File Not Found\n\n`" ++ p.text ++ "` does not exist.\n"
  | invalidNamespace n reason =>
      "# Error: Invalid Namespace\n\n`" ++ n ++ "` cannot be used as a shorthand prefix: " ++
      reason ++ ".\n\n## Fix\n\nUse only ASCII letters, digits, `-` and `_`.\n"
  | io reason => "# Error: I/O\n\n" ++ reason ++ "\n"
  | namespaceExists n =>
      "# Error: Namespace Exists\n\nNamespace `" ++ n ++ "` is already configured in `" ++
      configFile ++ "`.\n\n## Fix\n\nPick another name, or remove the existing one first:\n\n" ++
      "    colonlink namespace remove " ++ n ++ "\n"
  | namespaceInUse n count =>
      "# Error: Namespace In Use\n\nNamespace `" ++ n ++ "` is used by " ++ Text.ofNat count ++
      " markdown links.\n\n## Fix\n\nRemove all links starting with `" ++ n ++
      ":` first, or force removal:\n\n    colonlink namespace remove " ++ n ++ " --force\n"
  | parseFailed file reason =>
      "# Error: Parse Failed\n\nCould not parse `" ++ file.text ++ "`: " ++ reason ++ "\n"
  | tomlInvalid reason =>
      "# Error: Invalid TOML\n\n" ++ reason ++ "\n\n## Fix\n\nCorrect `" ++ configFile ++
      "`, or run `colonlink info` for the accepted keys.\n"
  | unknownNamespace n =>
      "# Error: Unknown Namespace\n\nNamespace `" ++ n ++ "` is not configured.\n\n## Fix\n\n" ++
      "Add it to `" ++ configFile ++ "`:\n\n    [namespaces]\n    " ++ n ++ " = \"path/to/" ++ n ++
      "\"\n\nOr run:\n\n    colonlink namespace add " ++ n ++ " path/to/" ++ n ++ "\n"
  | watchFailed reason => "# Error: Watch Failed\n\n" ++ reason ++ "\n"

/-- The report as a terminal shows it: lines that start with `#` are bold. -/
def terminalReport (e : Error) : Text :=
  (Text.lines e.report).flatMap fun line =>
    let shown := Text.chomp line
    (if shown.head? = some '#' then "\x1b[1m" ++ shown ++ "\x1b[0m" else shown) ++ ['\n']

end Error
end Shorthand
