import Recognizer.Log.Session

/-!
# Filling the slots of a session

The slots for preferences and for a service are filled at most once, whatever is installed in
whatever order. A call that is refused leaves both slots as they were, with one exception: a
start with preferences installs these first and keeps them when the start itself is refused.
-/
namespace Recognizer

/-- The codes of failures are registered, so what is reported about them can be looked up. -/
theorem Code.isSome_entry?_of_failure : ∀ c ∈ [invalidByte, identifierTooLong, tooManyTokens,
    grammarViolation, unexpectedToken, depthExceeded], c.entry?.isSome := by
  decide

namespace Session

/-- The calls that fill the slots of a session. -/
inductive Installation where
  | start
  | startWith (p : LogPreferences)
  | service (v : Service)
  | preferences (p : LogPreferences)
  deriving DecidableEq, Repr

/-- What a session answers to a call. -/
def install (limits : Limits) (s : Session) : Installation → Reply
  | .start => s.start limits
  | .startWith p => s.startWith limits p
  | .service v => s.installService v
  | .preferences p => s.installPreferences p

/-- The session after calls, the oldest first. -/
def after (limits : Limits) (s : Session) (calls : List Installation) : Session :=
  calls.foldl (fun s c => (s.install limits c).session) s

/-- What is in the slots of the first session is in those of the second one. -/
structure Retains (s t : Session) : Prop where
  preferences : ∀ p, s.preferences = some p → t.preferences = some p
  service : ∀ v, s.service = some v → t.service = some v

namespace Retains

variable {s t u : Session}

theorem refl (s : Session) : s.Retains s := ⟨fun _ => id, fun _ => id⟩

theorem trans (h : s.Retains t) (h' : t.Retains u) : s.Retains u :=
  ⟨fun p hp => h'.preferences p (h.preferences p hp),
    fun v hv => h'.service v (h.service v hv)⟩

end Retains

/-- A session cannot start when it has a service or the limits do not allow logging. -/
def Barred (limits : Limits) (s : Session) : Prop :=
  s.service ≠ none ∨ limits.checkLogging ≠ .ok ()

variable {limits : Limits} {s : Session}

theorem installPreferences_of_none (hs : s.preferences = none) (p : LogPreferences) :
    s.installPreferences p = ⟨.ok (), { s with preferences := some p }, {}⟩ := by
  rw [installPreferences, hs]

theorem installPreferences_of_ne_none (hs : s.preferences ≠ none) (p : LogPreferences) :
    s.installPreferences p = ⟨.error .preferencesInstalled, s, {}⟩ := by
  obtain ⟨q, hq⟩ := Option.ne_none_iff_exists'.1 hs
  rw [installPreferences, hq]

theorem installService_of_none (hs : s.service = none) (v : Service) :
    s.installService v = ⟨.ok (), { s with service := some v }, {}⟩ := by
  rw [installService, hs]

theorem installService_of_ne_none (hs : s.service ≠ none) (v : Service) :
    s.installService v = ⟨.error .serviceInstalled, s, {}⟩ := by
  obtain ⟨w, hw⟩ := Option.ne_none_iff_exists'.1 hs
  rw [installService, hw]

/-- A session that cannot start is left as it was. -/
theorem start_of_barred (hs : s.Barred limits) :
    ∃ fault, s.start limits = ⟨.error fault, s, {}⟩ := by
  rw [start]
  cases hlimits : limits.checkLogging with
  | error fault => exact ⟨_, rfl⟩
  | ok u =>
    have hservice : s.service ≠ none := hs.resolve_right (by simp [hlimits])
    rw [installService_of_ne_none hservice]
    exact ⟨_, rfl⟩

/-- A session that can start has the service that its preferences ask for. -/
theorem start_of_not_barred (hs : ¬s.Barred limits) :
    (s.start limits).result = .ok () ∧ s.service = none ∧
      (s.start limits).session.service = some (.ofPreferences s.settings) ∧
      (s.start limits).session.preferences = s.preferences := by
  obtain ⟨hservice, hlimits⟩ := not_or.1 hs
  have hservice := Classical.not_not.1 hservice
  have hlimits := Classical.not_not.1 hlimits
  rw [start, hlimits, installService_of_none hservice]
  exact ⟨rfl, hservice, rfl, rfl⟩

theorem retains_start (limits : Limits) (s : Session) : s.Retains (s.start limits).session := by
  by_cases hs : s.Barred limits
  · obtain ⟨fault, hfault⟩ := start_of_barred hs
    rw [hfault]
    exact .refl s
  · obtain ⟨-, hnone, -, hpreferences⟩ := start_of_not_barred hs
    exact ⟨fun p hp => hpreferences.trans hp, by simp [hnone]⟩

/-- No call changes what is in a slot. -/
theorem retains_install (limits : Limits) (s : Session) (c : Installation) :
    s.Retains (s.install limits c).session := by
  cases c with
  | start => exact retains_start limits s
  | startWith p =>
    rw [install, startWith]
    by_cases hs : s.preferences = none
    · rw [installPreferences_of_none hs]
      have hfirst : s.Retains { s with preferences := some p } :=
        ⟨by simp [hs], fun _ => id⟩
      exact hfirst.trans (retains_start limits _)
    · rw [installPreferences_of_ne_none hs]
      exact .refl s
  | service v =>
    rw [install]
    by_cases hs : s.service = none
    · rw [installService_of_none hs]
      exact ⟨fun _ => id, by simp [hs]⟩
    · rw [installService_of_ne_none hs]
      exact .refl s
  | preferences p =>
    rw [install]
    by_cases hs : s.preferences = none
    · rw [installPreferences_of_none hs]
      exact ⟨by simp [hs], fun _ => id⟩
    · rw [installPreferences_of_ne_none hs]
      exact .refl s

/-- No calls change what is in a slot. -/
theorem retains_after (limits : Limits) (s : Session) (calls : List Installation) :
    s.Retains (s.after limits calls) := by
  induction calls generalizing s with
  | nil => exact .refl s
  | cons c calls ih => exact (retains_install limits s c).trans (ih _)

/-- A call is refused when its slot is filled or the session cannot start. -/
def Refuses (limits : Limits) (s : Session) : Installation → Prop
  | .start => s.Barred limits
  | .startWith _ => s.preferences ≠ none ∨ s.Barred limits
  | .service _ => s.service ≠ none
  | .preferences _ => s.preferences ≠ none

/-- What a refused call leaves behind. Preferences that are installed before a start are not
taken out again. -/
def remnant (s : Session) : Installation → Session
  | .startWith p => { s with preferences := some (s.preferences.getD p) }
  | .start | .service _ | .preferences _ => s

theorem remnant_of_filled {c : Installation}
    (hs : ∀ p, c = .startWith p → s.preferences ≠ none) : s.remnant c = s := by
  cases c with
  | startWith p =>
    obtain ⟨q, hq⟩ := Option.ne_none_iff_exists'.1 (hs p rfl)
    rw [remnant, hq, Option.getD_some, ← hq]
  | start | service v | preferences p => rfl

/-- A refused call prints nothing. -/
theorem install_of_refuses {c : Installation} (h : s.Refuses limits c) :
    ∃ fault, s.install limits c = ⟨.error fault, s.remnant c, {}⟩ := by
  cases c with
  | start => exact start_of_barred h
  | service v => exact ⟨_, installService_of_ne_none h v⟩
  | preferences p => exact ⟨_, installPreferences_of_ne_none h p⟩
  | startWith p =>
    rw [install, startWith]
    by_cases hs : s.preferences = none
    · have hbarred : Barred limits { s with preferences := some p } := h.resolve_left (· hs)
      obtain ⟨fault, hfault⟩ := start_of_barred hbarred
      refine ⟨fault, ?_⟩
      rw [installPreferences_of_none hs, remnant, hs]
      exact hfault
    · rw [installPreferences_of_ne_none hs, remnant_of_filled fun _ _ => hs]
      exact ⟨_, rfl⟩

theorem result_of_not_refuses {c : Installation} (h : ¬s.Refuses limits c) :
    (s.install limits c).result = .ok () := by
  cases c with
  | start => exact (start_of_not_barred h).1
  | service v =>
    have hs : s.service = none := Classical.not_not.1 h
    rw [install, installService_of_none hs]
  | preferences p =>
    have hs : s.preferences = none := Classical.not_not.1 h
    rw [install, installPreferences_of_none hs]
  | startWith p =>
    obtain ⟨hs, hbarred⟩ := not_or.1 h
    have hs := Classical.not_not.1 hs
    have hbarred : ¬Barred limits { s with preferences := some p } := hbarred
    rw [install, startWith, installPreferences_of_none hs]
    exact (start_of_not_barred hbarred).1

/-- A slot is filled once. No calls change what is in it. A call is refused exactly when its own
slot is filled or it would have to start a session that cannot start. Then it prints nothing and
leaves the whole session as it was, unless it came with preferences for an empty slot: these are
installed first and stay. -/
theorem slots_filled_once (limits : Limits) (s : Session) (calls : List Installation)
    (c : Installation) :
    let r := s.install limits c
    ((∀ p, s.preferences = some p → (s.after limits calls).preferences = some p) ∧
      ∀ v, s.service = some v → (s.after limits calls).service = some v) ∧
    ((∃ fault, r.result = .error fault) ↔ s.Refuses limits c) ∧
    ∀ fault, r.result = .error fault → r.printed = {} ∧
      ((∀ p, c = .startWith p → s.preferences ≠ none) → r.session = s) ∧
      ∀ p, c = .startWith p → s.preferences = none →
        r.session = { s with preferences := some p } := by
  intro r
  have hafter := retains_after limits s calls
  have hrefuses : (∃ fault, r.result = .error fault) ↔ s.Refuses limits c := by
    refine ⟨fun ⟨fault, hfault⟩ => ?_, fun h => ?_⟩
    · refine Classical.byContradiction fun h => ?_
      rw [result_of_not_refuses h] at hfault
      cases hfault
    · obtain ⟨fault, hfault⟩ := install_of_refuses h
      exact ⟨fault, congrArg Reply.result hfault⟩
  refine ⟨⟨hafter.preferences, hafter.service⟩, hrefuses, fun fault hfault => ?_⟩
  obtain ⟨_, hr⟩ := install_of_refuses (hrefuses.1 ⟨fault, hfault⟩)
  have hsession : r.session = s.remnant c := congrArg Reply.session hr
  refine ⟨congrArg Reply.printed hr, fun hfilled => ?_, fun p hc hnone => ?_⟩
  · rw [hsession, remnant_of_filled hfilled]
  · rw [hsession, hc, remnant, hnone, Option.getD_none]

/-- A session that was given a service first. -/
def served : Session := after .development {} [.service ⟨.memory, .debug⟩]

/-- Preferences for errors alone. -/
def errorsOnly : LogPreferences := ⟨false, true, .error⟩

/-- The start with preferences is refused and yet changes the level that is asked for. -/
theorem refused_start_installs_preferences :
    (served.install .development (.startWith errorsOnly)).result = .error .serviceInstalled ∧
    served.preferences = none ∧ served.settings.minLevel = .info ∧
    (served.install .development (.startWith errorsOnly)).session.preferences = some errorsOnly ∧
    (served.install .development (.startWith errorsOnly)).session.settings.minLevel = .error :=
  ⟨rfl, rfl, rfl, rfl, rfl⟩

/-- Asked again, the session is left as it is. -/
theorem slots_filled_once_served :
    let again := served.after .development [.startWith errorsOnly]
    (again.install .development (.startWith errorsOnly)).result = .error .preferencesInstalled ∧
    again.service = some ⟨.memory, .debug⟩ ∧
    (again.install .development (.startWith errorsOnly)).session = again ∧
    (again.install .development .start).session = again := by
  intro again
  have hservice : served.service = some ⟨.memory, .debug⟩ := rfl
  have hrefused : (again.install .development (.startWith errorsOnly)).result =
      .error .preferencesInstalled := rfl
  have hstart : (again.install .development .start).result = .error .serviceInstalled := rfl
  have hfilled : again.preferences ≠ none := by decide
  have hkept := (slots_filled_once .development served [.startWith errorsOnly] .start).1.2
  have hfirst := (slots_filled_once .development again [] (.startWith errorsOnly)).2.2 _ hrefused
  have hsecond := (slots_filled_once .development again [] .start).2.2 _ hstart
  exact ⟨hrefused, hkept _ hservice, hfirst.2.1 fun _ _ => hfilled,
    hsecond.2.1 fun _ h => by cases h⟩

end Session
end Recognizer
