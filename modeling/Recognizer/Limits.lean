/-!
# Limits

The hard limits of a build: how many tokens and how long an identifier the
tokenizer takes, how deep productions may nest, and how much a log keeps.
-/
namespace Recognizer

/-- The limits that a build fixes. -/
structure Limits where
  /-- The most tokens that one source may have. -/
  maxTokens : Nat
  /-- The most bytes that one identifier may have. -/
  maxIdentifier : Nat
  /-- The most guarded productions that may be open at once. -/
  maxDepth : Nat
  /-- The most events that a memory log keeps. -/
  bufferSize : Nat
  /-- The most bytes of a log message before it is cut. -/
  maxMessage : Nat
  deriving DecidableEq, Repr

namespace Limits

/-- The limits of development builds. -/
def development : Limits where
  maxTokens := 1000000
  maxIdentifier := 1024
  maxDepth := 128
  bufferSize := 10000
  maxMessage := 4096

/-- The limits of production builds. -/
def production : Limits where
  maxTokens := 250000
  maxIdentifier := 255
  maxDepth := 96
  bufferSize := 1000
  maxMessage := 1024

/-- Why logging cannot start under the limits. -/
inductive LogFault where
  | bufferTooLarge (size : Nat)
  | messageTooShort (length : Nat)
  deriving DecidableEq, Repr

/-- The wording of a fault. -/
def LogFault.message : LogFault → String
  | .bufferTooLarge size => "Log buffer size too large: " ++ toString size
  | .messageTooShort length => "Maximum log message length too small: " ++ toString length

/-- The limits on logging allow at most a million events and messages of at
least 64 bytes. -/
def checkLogging (l : Limits) : Except LogFault Unit :=
  if 1000000 < l.bufferSize then .error (.bufferTooLarge l.bufferSize)
  else if l.maxMessage < 64 then .error (.messageTooShort l.maxMessage)
  else .ok ()

@[simp] theorem checkLogging_development : development.checkLogging = .ok () := rfl
@[simp] theorem checkLogging_production : production.checkLogging = .ok () := rfl

end Limits

/-- Which configuration a build was made from. -/
structure BuildInfo where
  profile : String := "development"
  directory : String := "config"
  deriving DecidableEq, Repr

/-- The configuration file that a build was made from, in words. -/
def BuildInfo.source (b : BuildInfo) : String :=
  "Generated from " ++ b.directory ++ "/" ++ b.profile ++ ".toml"

end Recognizer
