import Recognizer.Log.Service

/-!
# Logging sessions

A session has a slot for logging preferences and a slot for a service. Each slot
is filled once and then keeps its content. Without installed preferences the
environment decides anew at every question; without a service events vanish.
-/
namespace Recognizer

/-- The state of logging. -/
structure Session where
  env : Environment := []
  preferences : Option LogPreferences := none
  service : Option Service := none
  memory : MemoryLog := .empty
  deriving DecidableEq, Repr

namespace Session

/-- Why a slot is not filled. -/
inductive Fault where
  | preferencesInstalled
  | serviceInstalled
  | badLimits (fault : Limits.LogFault)
  deriving DecidableEq, Repr

/-- The wording of a fault. -/
def Fault.message : Fault → String
  | .preferencesInstalled => "Runtime preferences already initialized"
  | .serviceInstalled => "Global logger already initialized"
  | .badLimits fault => "Configuration validation failed: " ++ fault.message

variable (limits : Limits)

/-- The preferences in force. -/
def settings (s : Session) : LogPreferences := s.preferences.getD (.standard s.env)

/-- Whether a service is installed. -/
def isStarted (s : Session) : Bool := s.service.isSome

/-- Whether the service lets a level pass, if there is one. -/
def lets? (s : Session) (level : Level) : Option Bool := s.service.map fun v => v.lets level

/-- Set an environment variable. -/
def setVariable (s : Session) (name value : String) : Session :=
  { s with env := s.env.set name value }

/-- Hand an event to the service. -/
def send (s : Session) (e : Event) : Session × Printed :=
  match s.service with
  | none => (s, {})
  | some v =>
    let (memory, printed) := v.log limits s.memory e
    ({ s with memory := memory }, printed)

/-- Report an event. Events for debugging also need a preferred level that lets
them through. -/
def report (s : Session) (e : Event) : Session × Printed :=
  if e.level = .debug ∧ s.settings.minLevel ≠ .debug then (s, {}) else s.send limits e

/-- Report events in order. -/
def reportAll (s : Session) (es : List Event) : Session × Printed :=
  es.foldl (fun (s, printed) e =>
    let (s, more) := s.report limits e
    (s, printed.append more)) (s, {})

/-- What an installation answers: whether it succeeded, the session after it and
what was printed meanwhile. -/
structure Reply where
  result : Except Fault Unit
  session : Session
  printed : Printed := {}

/-- Install preferences in an empty slot. -/
def installPreferences (s : Session) (p : LogPreferences) : Reply :=
  match s.preferences with
  | some _ => ⟨.error .preferencesInstalled, s, {}⟩
  | none => ⟨.ok (), { s with preferences := some p }, {}⟩

/-- Install a service in an empty slot. -/
def installService (s : Session) (v : Service) : Reply :=
  match s.service with
  | some _ => ⟨.error .serviceInstalled, s, {}⟩
  | none => ⟨.ok (), { s with service := some v }, {}⟩

/-- Install the service that the preferences in force ask for, and report it. -/
def start (s : Session) : Reply :=
  match limits.checkLogging with
  | .error fault => ⟨.error (.badLimits fault), s, {}⟩
  | .ok () =>
    match s.installService (.ofPreferences s.settings) with
    | ⟨.error fault, s, printed⟩ => ⟨.error fault, s, printed⟩
    | ⟨.ok (), s, _⟩ =>
      let (s, printed) :=
        s.send limits (.success limits .loggingStarted "Global logging system initialized")
      ⟨.ok (), s, printed⟩

/-- Install preferences, then start. Preferences that were installed stay so
when the start fails. -/
def startWith (s : Session) (p : LogPreferences) : Reply :=
  match s.installPreferences p with
  | ⟨.error fault, s, printed⟩ => ⟨.error fault, s, printed⟩
  | ⟨.ok (), s, _⟩ => s.start limits

/-- The session that records every event in memory. -/
def recording (env : Environment) : Session :=
  { env := env, service := some ⟨.memory, .debug⟩ }

/-- The recorded events. -/
def events (s : Session) : List Event := s.memory.toList

/-- Forget the recorded events. -/
def clear (s : Session) : Session := { s with memory := .empty }

@[simp] theorem events_clear (s : Session) : s.clear.events = [] := rfl

end Session
end Recognizer
