import Shorthand.Path

/-!
Everything that can end a command early, and the one-line wording of each cause.
-/

namespace Shorthand

/-- The file that configures a project. -/
def configFile : Text := ".colonlink.toml"

inductive Error where
  /-- A namespace that exists without being configured. -/
  | builtinNamespace (name : Text)
  | fileNotFound (path : Path)
  | invalidNamespace (name reason : Text)
  | io (reason : Text)
  | namespaceExists (name : Text)
  | namespaceInUse (name : Text) (count : Nat)
  | parseFailed (file : Path) (reason : Text)
  /-- The configuration is not TOML, or not of the expected shape. -/
  | tomlInvalid (reason : Text)
  | unknownNamespace (name : Text)
  | watchFailed (reason : Text)
  deriving DecidableEq, Repr

namespace Error

def isDirectory : Error := .io "Is a directory (os error 21)"

def notDirectory : Error := .io "Not a directory (os error 20)"

def notUtf8 : Error := .io "stream did not contain valid UTF-8"

def nameTooLong : Error := .io "File name too long (os error 36)"

/-- Why a TOML document is no configuration. -/
def notConfiguration : Text := "a TOML key or value is not one that a configuration has"

def message : Error → Text
  | builtinNamespace n => "namespace `" ++ n ++ "` is built in and not defined in " ++ configFile
  | fileNotFound p => "file not found: " ++ p.text
  | invalidNamespace n reason => "invalid namespace `" ++ n ++ "`: " ++ reason
  | io reason => "io: " ++ reason
  | namespaceExists n => "namespace `" ++ n ++ "` already exists"
  | namespaceInUse n count =>
      "namespace `" ++ n ++ "` is in use by " ++ Text.ofNat count ++
        " links (use --force to remove)"
  | parseFailed file reason => "parse failed: " ++ file.text ++ ": " ++ reason
  | tomlInvalid reason => "toml deserialize: " ++ reason
  | unknownNamespace n => "unknown namespace: `" ++ n ++ "`"
  | watchFailed reason => "watch failed: " ++ reason

end Error
end Shorthand
