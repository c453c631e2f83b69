import Recognizer.Document.Decode
import Recognizer.Document.FileTree
import Recognizer.Document.Lines
import Recognizer.Document.Toml
import Recognizer.Limits

/-!
# Generated limits

A build takes its limits from the TOML document of its profile, checks them and
writes them into the workspace as constants. It also prints on which files and
variables the result depends.
-/
namespace Recognizer

namespace Datum

/-- Limits, of which none may be missing. -/
def limits? (d : Dialect) (x : Datum) : Option Limits := do
  match ← x.members? d ["lexical", "syntax", "logging"] with
  | [some lexical, some grammar, some logging] =>
    match ← lexical.members? d ["max_token_count", "max_identifier_length"],
      ← grammar.members? d ["max_parse_depth"],
      ← logging.members? d ["log_buffer_size", "max_log_message_length"] with
    | [some tokens, some identifier], [some depth], [some buffer, some message] =>
      return ⟨← tokens.word64?, ← identifier.word64?, ← depth.word64?, ← buffer.word64?,
        ← message.word64?⟩
    | _, _, _ => none
  | _ => none

end Datum

namespace Limits

/-- Why a build fails. -/
inductive BuildFault where
  | notFound (path root directory profile : String)
  | unreadable (path : String) (fault : ReadFault)
  | invalid (path : String)
  | depthTooHigh
  | depthTooLow
  | lexicalZero
  | bufferZero
  | depthTooHighForProduction
  /-- A directory stands where the constants go. -/
  | unwritable
  deriving DecidableEq, Repr

/-- The wording of a fault. -/
def BuildFault.message : BuildFault → String
  | .notFound path root directory profile =>
    "Configuration file not found: " ++ path ++ "\nWorkspace root: " ++ root ++
      "\nLooking for: " ++ root ++ "/" ++ directory ++ "/" ++ profile ++ ".toml"
  | .unreadable path fault => "Failed to read " ++ path ++ ": " ++ fault.message
  | .invalid path => "Invalid TOML in " ++ path
  | .depthTooHigh => "LIMITS: max_parse_depth exceeds absolute maximum"
  | .depthTooLow => "LIMITS: max_parse_depth below absolute minimum"
  | .lexicalZero => "LIMITS: lexical limits must be non-zero"
  | .bufferZero => "LIMITS: log_buffer_size must be non-zero"
  | .depthTooHighForProduction => "PRODUCTION: max_parse_depth too high for production"
  | .unwritable =>
    "called `Result::unwrap()` on an `Err` value: Os \x7b code: 21, kind: IsADirectory, " ++
      "message: \x22Is a directory\x22 \x7d"

/-- The checks on limits, in order. The production profile nests less deeply
than others may. -/
def validate (profile : String) (l : Limits) : Except BuildFault Unit :=
  if 4096 < l.maxDepth then .error .depthTooHigh
  else if l.maxDepth < 8 then .error .depthTooLow
  else if l.maxIdentifier = 0 ∨ l.maxTokens = 0 then .error .lexicalZero
  else if l.bufferSize = 0 then .error .bufferZero
  else if profile = "production" ∧ 256 < l.maxDepth then .error .depthTooHighForProduction
  else .ok ()

/-- The limits as constants. -/
def constants (profile : String) (l : Limits) : String :=
  "\n// Generated compile-time constants from TOML configuration\n// Profile: " ++ profile ++
    "\n// DO NOT EDIT - Generated by build.rs\n\npub mod compile_time \x7b\n" ++
    "    pub mod lexical \x7b\n        pub const MAX_TOKEN_COUNT: usize = " ++
    toString l.maxTokens ++ ";\n        pub const MAX_IDENTIFIER_LENGTH: usize = " ++
    toString l.maxIdentifier ++ ";\n    \x7d\n\n    pub mod syntax \x7b\n" ++
    "        pub const MAX_PARSE_DEPTH: usize = " ++ toString l.maxDepth ++
    ";\n    \x7d\n\n    pub mod logging \x7b\n        pub const LOG_BUFFER_SIZE: usize = " ++
    toString l.bufferSize ++ ";\n        pub const MAX_LOG_MESSAGE_LENGTH: usize = " ++
    toString l.maxMessage ++ ";\n    \x7d\n\x7d\n"

/-- A workspace holds the directory of the package and the directory that
generated files go to. -/
def workspace (root : String) (files : List (String × Bytes)) : FileTree :=
  files.foldl (fun t f => t.put f.1 f.2)
    (({ root := root : FileTree }.makeDirectories ["member"]).makeDirectories ["out"])

/-- Where the constants go. -/
def constantsPath (t : FileTree) : String := t.root ++ "/out/constants.rs"

/-- The outcome of a build. -/
structure Build where
  /-- The printed dependencies. -/
  directives : List String
  /-- Why the build failed, if it did. -/
  result : Except BuildFault Unit
  /-- The workspace after the build. -/
  tree : FileTree

/-- The limits of a profile, from the document at a path. -/
def read (t : FileTree) (path directory profile : String) : Except BuildFault Limits :=
  match t.get path with
  | .missing => .error (.notFound path t.root directory profile)
  | file =>
    match file.text with
    | .error fault => .error (.unreadable path fault)
    | .ok document =>
      match (Toml.read? document).bind (Datum.limits? .toml) with
      | none => .error (.invalid path)
      | some l => (l.validate profile).map fun _ => l

/-- The workspace with the constants in it. -/
def generate (t : FileTree) (profile : String) (l : Limits) : Except BuildFault FileTree :=
  match t.write? (constantsPath t) (l.constants profile).toUTF8.toList with
  | some t => .ok t
  | none => .error .unwritable

/-- Write the constants for the profile and the directory that the environment
names. A build that fails leaves the workspace as it was. -/
def build (env : Environment) (t : FileTree) : Build :=
  let profile := (env.get? "EOP_BUILD_PROFILE").getD "development"
  let directory := (env.get? "EOP_CONFIG_DIR").getD "config"
  let path := FileTree.join (FileTree.join t.root directory) (profile ++ ".toml")
  let directives :=
    ["cargo:rerun-if-changed=build.rs", "cargo:rerun-if-env-changed=EOP_BUILD_PROFILE",
      "cargo:rerun-if-env-changed=EOP_CONFIG_DIR", "cargo:rerun-if-changed=" ++ path]
  match (read t path directory profile).bind (generate t profile) with
  | .ok tree => ⟨directives, .ok (), tree⟩
  | .error fault => ⟨directives, .error fault, t⟩

namespace Build

/-- The printed lines. -/
def lines (b : Build) : List String := b.directives.flatMap printedLines

/-- The constants in the workspace after the build, which may be those of an
earlier build. -/
def constants? (b : Build) : Option String := (b.tree.get (constantsPath b.tree)).text.toOption

end Build

/-- A build that fails leaves the workspace as it was. -/
theorem tree_of_error {env : Environment} {t : FileTree} {fault : BuildFault}
    (h : (build env t).result = .error fault) : (build env t).tree = t := by
  unfold build at h ⊢
  dsimp only at h ⊢
  split
  · next heq => simp [heq] at h
  · rfl

end Limits
end Recognizer
