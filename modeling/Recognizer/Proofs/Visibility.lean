import Mathlib.Data.List.Basic
import Mathlib.Data.List.Induction
import Mathlib.Data.List.Infix
import Mathlib.Data.List.Nodup
import Mathlib.Data.Nat.Find
import Recognizer.Scope

/-!
# What a name denotes

A symbol table keeps a scope of symbols for every scope that is open. What a name denotes can
be told without it, from the history of operations: of the declarations of the name that stand,
because no scope they were made in has been closed and the table has not been reset since, it
is the last one in the innermost scope. Every operation keeps the table and its history in step.
-/
namespace Recognizer

/-- Names are in the lexicographic order of their bytes. -/
theorem Bytes.precedes_iff {a b : Bytes} : a.precedes b = true ↔ a < b := by
  induction a generalizing b with
  | nil => cases b <;> simp [precedes]
  | cons x a ih => cases b with
    | nil => simp [precedes]
    | cons y b => simp [precedes, ih, List.cons_lt_cons_iff]

namespace Scope

variable {s : Scope} {x y : Symbol}

/-- The symbols are in the order of their names, each name once. -/
def Ordered (s : Scope) : Prop := s.Pairwise fun x y => x.name < y.name

theorem mem_of_mem_insert (h : y ∈ s.insert x) : y = x ∨ y ∈ s := by
  induction s with
  | nil => exact .inl (List.mem_singleton.1 h)
  | cons z s ih =>
    rw [insert] at h
    split at h
    · exact (List.mem_cons.1 h).imp_right (List.mem_cons_of_mem z)
    · split at h
      · exact List.mem_cons.1 h
      · rcases List.mem_cons.1 h with rfl | h
        · exact .inr List.mem_cons_self
        · exact (ih h).imp_right (List.mem_cons_of_mem z)

namespace Ordered

theorem nil : Ordered [] := List.Pairwise.nil

/-- An insertion keeps the order. -/
theorem insert (hs : s.Ordered) (x : Symbol) : (s.insert x).Ordered := by
  induction s with
  | nil => exact List.pairwise_singleton ..
  | cons z s ih =>
    obtain ⟨hz, hs⟩ := List.pairwise_cons.1 hs
    rw [Scope.insert]
    split
    · next heq => exact List.pairwise_cons.2 ⟨by simpa [eq_of_beq heq] using hz, hs⟩
    · next hne =>
      split
      · next hlt =>
        have hlt := Bytes.precedes_iff.1 hlt
        refine List.pairwise_cons.2 ⟨fun y hy => ?_, List.pairwise_cons.2 ⟨hz, hs⟩⟩
        rcases List.mem_cons.1 hy with rfl | hy
        · exact hlt
        · exact List.lt_trans hlt (hz y hy)
      · next hle =>
        rw [Bytes.precedes_iff, Std.not_lt] at hle
        have hlt : z.name < x.name := Std.lt_of_le_of_ne hle fun heq => hne (by simp [heq])
        refine List.pairwise_cons.2 ⟨fun y hy => ?_, ih hs⟩
        rcases mem_of_mem_insert hy with rfl | hy
        · exact hlt
        · exact hz y hy

theorem nodup_names (hs : s.Ordered) : (s.map Symbol.name).Nodup :=
  List.pairwise_map.2 (hs.imp Std.ne_of_lt)

/-- The symbols of a scope are those that its names denote. -/
theorem mem_iff (hs : s.Ordered) : x ∈ s ↔ s.get? x.name = some x := by
  refine ⟨fun hx => ?_, List.mem_of_find?_eq_some⟩
  have hother : ∀ y ∈ s, y.name = x.name → y = x := fun y hy heq =>
    List.inj_on_of_nodup_map hs.nodup_names hy hx heq
  cases hy : s.get? x.name with
  | none => exact absurd (List.find?_eq_none.1 hy x hx) (by simp)
  | some y =>
    have hname := List.find?_some hy
    rw [hother y (List.mem_of_find?_eq_some hy) (by simpa using hname)]

end Ordered
end Scope

namespace SymbolTable

/-- What can be done to a symbol table. -/
inductive Operation where
  | reset
  | push
  | pop
  | declare (name : Bytes) (kind : Symbol.Kind)
  deriving DecidableEq, Repr

/-- The table after an operation. -/
def apply (t : SymbolTable) : Operation → Except Fault SymbolTable
  | .reset => .ok fresh
  | .push => .ok t.push
  | .pop => t.pop
  | .declare name kind => .ok (t.declare name kind)

/-- The table after operations. -/
def run (t : SymbolTable) (h : List Operation) : Except Fault SymbolTable := h.foldlM apply t

/-- The operations on a table, oldest first. -/
abbrev History := List Operation

namespace History

/-- The operations since the last reset. -/
def current (h : History) : History := (h.reverse.takeWhile (· ≠ .reset)).reverse

/-- The number of open scopes: one, and one more for each push, and one less for each pop since
the last reset. -/
def level (h : History) : Int := 1 + h.current.count .push - h.current.count .pop

/-- The global scope is never closed. -/
def Lawful (h : History) : Prop := ∀ before after, h = before ++ .pop :: after → 1 < level before

/-- The scope in which the operations begin stays open. -/
structure Stays (h : History) : Prop where
  noReset : .reset ∉ h
  within : ∀ q, q <+: h → q.count .pop ≤ q.count .push

/-- In a scope of the level given the symbol was declared before the operations since then, and
that scope is still open. -/
def Declared (h : History) (d : Int) (x : Symbol) (since : History) : Prop :=
  ∃ before, h = before ++ .declare x.name x.kind :: since ∧ Stays since ∧ level before = d

/-- The symbol is the last one that was declared for its name in the open scope of the level
given. -/
def Denotes (h : History) (d : Int) (x : Symbol) : Prop :=
  ∃ since, h.Declared d x since ∧
    ∀ y since', h.Declared d y since' → y.name = x.name → since.length ≤ since'.length

instance (h : History) : Decidable (Stays h) :=
  decidable_of_iff (.reset ∉ h ∧ ∀ q ∈ h.inits, q.count .pop ≤ q.count .push)
    ⟨fun hs => ⟨hs.1, fun q hq => hs.2 q ((List.mem_inits q h).2 hq)⟩,
      fun hs => ⟨hs.noReset, fun q hq => hs.within q ((List.mem_inits q h).1 hq)⟩⟩

variable {h w since : History} {op : Operation} {d : Int} {x y : Symbol}

theorem current_append (h : History) (hw : .reset ∉ w) : current (h ++ w) = current h ++ w := by
  have hall : ∀ op ∈ w.reverse, decide (op ≠ .reset) = true := by
    intro op hop
    simpa using ne_of_mem_of_not_mem (List.mem_reverse.1 hop) hw
  rw [current, List.reverse_append, List.takeWhile_append_of_pos hall, List.reverse_append,
    List.reverse_reverse]
  rfl

theorem level_append (h : History) (hw : .reset ∉ w) :
    level (h ++ w) = level h + w.count .push - w.count .pop := by
  rw [level, level, current_append h hw, List.count_append, List.count_append]
  omega

@[simp] theorem level_nil : level [] = 1 := rfl

@[simp] theorem level_reset (h : History) : level (h ++ [.reset]) = 1 := by
  simp [level, current]

@[simp] theorem level_push (h : History) : level (h ++ [.push]) = level h + 1 := by
  rw [level_append h (by simp)]
  simp

@[simp] theorem level_pop (h : History) : level (h ++ [.pop]) = level h - 1 := by
  rw [level_append h (by simp)]
  simp

@[simp] theorem level_declare (h : History) (name : Bytes) (kind : Symbol.Kind) :
    level (h ++ [.declare name kind]) = level h := by
  rw [level_append h (by simp)]
  simp

theorem stays_nil : Stays [] := ⟨by simp, fun q hq => by simp [List.prefix_nil.1 hq]⟩

/-- One more operation stays in the scope unless it closes that scope. -/
theorem stays_concat_iff : Stays (w ++ [op]) ↔
    Stays w ∧ op ≠ .reset ∧ (op = .pop → w.count .pop < w.count .push) := by
  constructor
  · intro hs
    have hlast := hs.within _ (List.prefix_refl _)
    refine ⟨⟨fun hw => hs.noReset (by simp [hw]), fun q hq => ?_⟩, ?_, ?_⟩
    · exact hs.within q (hq.trans (List.prefix_append ..))
    · rintro rfl
      exact hs.noReset (by simp)
    · rintro rfl
      simp [List.count_append] at hlast
      omega
  · rintro ⟨hs, hreset, hpop⟩
    refine ⟨by simp [hs.noReset, Ne.symm hreset], fun q hq => ?_⟩
    rcases List.prefix_concat_iff.1 hq with rfl | hq
    · have hw := hs.within w (List.prefix_refl _)
      by_cases h : op = .pop
      · have := hpop h
        simp [List.count_append, h]
        omega
      · simp [List.count_append, h, List.count_cons]
        omega
    · exact hs.within q hq

/-- An operation of a longer history is its last one, or an operation of the shorter one. -/
theorem concat_eq_split_iff {before after : History} {op' : Operation} :
    h ++ [op] = before ++ op' :: after ↔ (h = before ∧ op = op' ∧ after = []) ∨
      ∃ after', after = after' ++ [op] ∧ h = before ++ op' :: after' := by
  constructor
  · intro hsplit
    rcases List.eq_nil_or_concat' after with rfl | ⟨after', last, rfl⟩
    · obtain ⟨hh, hop⟩ := List.append_inj' hsplit rfl
      exact .inl ⟨hh, List.singleton_inj.1 hop, rfl⟩
    · rw [← List.cons_append, ← List.append_assoc] at hsplit
      obtain ⟨hh, hop⟩ := List.append_inj' hsplit rfl
      exact .inr ⟨after', by rw [List.singleton_inj.1 hop], hh⟩
  · rintro (⟨rfl, rfl, rfl⟩ | ⟨after', rfl, rfl⟩)
    · rfl
    · simp

/-- A declaration that stands is the last operation, or it stood before and its scope has not
been closed. -/
theorem declared_concat_iff : Declared (h ++ [op]) d x since ↔
    (op = .declare x.name x.kind ∧ since = [] ∧ level h = d) ∨
      ∃ since', since = since' ++ [op] ∧ Declared h d x since' ∧ op ≠ .reset ∧
        (op = .pop → d < level h) := by
  constructor
  · rintro ⟨before, hsplit, hstays, hlevel⟩
    rcases concat_eq_split_iff.1 hsplit with ⟨rfl, hop, hsince⟩ | ⟨since', rfl, rfl⟩
    · exact .inl ⟨hop, hsince, hlevel⟩
    · obtain ⟨hstays, hreset, hpop⟩ := stays_concat_iff.1 hstays
      refine .inr ⟨since', rfl, ⟨before, rfl, hstays, hlevel⟩, hreset, fun h => ?_⟩
      have hcount := hpop h
      rw [level_append before (by simp [hstays.noReset])]
      simp
      omega
  · rintro (⟨rfl, rfl, hlevel⟩ | ⟨since', rfl, ⟨before, rfl, hstays, hlevel⟩, hreset, hpop⟩)
    · exact ⟨h, rfl, stays_nil, hlevel⟩
    · refine ⟨before, by simp, stays_concat_iff.2 ⟨hstays, hreset, fun h => ?_⟩, hlevel⟩
      have hclosed := hpop h
      rw [level_append before (by simp [hstays.noReset])] at hclosed
      simp at hclosed
      omega

/-- A declaration that stands is in an open scope. -/
theorem Declared.le_level (hx : Declared h d x since) : d ≤ level h := by
  obtain ⟨before, rfl, hstays, rfl⟩ := hx
  have hcount := hstays.within since (List.prefix_refl _)
  rw [level_append before (by simp [hstays.noReset])]
  simp
  omega

theorem not_declared_reset : ¬Declared (h ++ [.reset]) d x since := by
  rw [declared_concat_iff]
  simp

/-- Of the declarations of a name that stand in a scope one is the last. -/
theorem Declared.exists_denotes (hx : Declared h d x since) :
    ∃ y, y.name = x.name ∧ Denotes h d y := by
  classical
  have hsome : ∃ n y since, Declared h d y since ∧ y.name = x.name ∧ since.length = n :=
    ⟨_, x, since, hx, rfl, rfl⟩
  obtain ⟨y, since', hy, hname, hlength⟩ := Nat.find_spec hsome
  refine ⟨y, hname, since', hy, fun z since'' hz hz' => ?_⟩
  rw [hlength]
  exact Nat.find_min' hsome ⟨z, since'', hz, hz'.trans hname, rfl⟩

/-- What a name denotes in a scope is not changed by an operation that neither closes the scope
nor declares the name in it. -/
theorem denotes_concat_iff (hreset : op ≠ .reset) (hpop : op = .pop → d < level h)
    (hother : ∀ kind, op = .declare x.name kind → level h ≠ d) :
    Denotes (h ++ [op]) d x ↔ Denotes h d x := by
  constructor
  · rintro ⟨since, hx, hlast⟩
    rcases declared_concat_iff.1 hx with ⟨hop, -, hlevel⟩ | ⟨since, rfl, hx, -⟩
    · exact absurd hlevel (hother _ hop)
    · refine ⟨since, hx, fun y since' hy hname => ?_⟩
      have hy := declared_concat_iff.2 (.inr ⟨since', rfl, hy, hreset, hpop⟩)
      simpa using hlast y _ hy hname
  · rintro ⟨since, hx, hlast⟩
    refine ⟨since ++ [op], declared_concat_iff.2 (.inr ⟨since, rfl, hx, hreset, hpop⟩),
      fun y since' hy hname => ?_⟩
    rcases declared_concat_iff.1 hy with ⟨hop, -, hlevel⟩ | ⟨since', rfl, hy, -⟩
    · exact absurd hlevel (hother _ (hname ▸ hop))
    · simpa using hlast y since' hy hname

/-- A name that has just been declared denotes what it was declared as. -/
theorem denotes_declare_iff {name : Bytes} {kind : Symbol.Kind} (hname : x.name = name) :
    Denotes (h ++ [.declare name kind]) (level h) x ↔ x.kind = kind := by
  have hself : Declared (h ++ [.declare name kind]) (level h) ⟨name, kind⟩ [] :=
    declared_concat_iff.2 (.inl ⟨rfl, rfl, rfl⟩)
  constructor
  · rintro ⟨since, hx, hlast⟩
    have hnil : since.length ≤ 0 := hlast _ [] hself hname.symm
    rcases declared_concat_iff.1 hx with ⟨hop, -, -⟩ | ⟨since, rfl, -⟩
    · exact (Operation.declare.inj hop).2.symm
    · simp at hnil
  · rintro rfl
    exact ⟨[], hname ▸ hself, fun _ _ _ _ => Nat.zero_le _⟩

end History

open History

/-- The table has a scope for every open scope of its history, with the symbols that its names
denote there. -/
structure Mirrors (h : History) (t : SymbolTable) : Prop where
  depth : (t.depth : Int) = level h
  scopes : ∀ s below, s :: below <:+ t.scopes → ∀ x : Symbol,
    s.get? x.name = some x ↔ Denotes h (below.length + 1) x
  declared : ∀ d x since, Declared h d x since → 1 ≤ d

namespace Mirrors

variable {h : History} {t u : SymbolTable}

/-- A table that has just been made or reset has nothing to remember. -/
theorem fresh (hlevel : level h = 1) (hnone : ∀ d x since, ¬Declared h d x since) :
    Mirrors h fresh where
  depth := hlevel.symm
  scopes s below hs x := by
    obtain ⟨rfl, rfl⟩ : s = [] ∧ below = [] := by
      simpa [SymbolTable.scopes, SymbolTable.fresh, List.suffix_cons_iff] using hs
    refine iff_of_false (by simp) ?_
    rintro ⟨since, hx, -⟩
    exact hnone _ x since hx
  declared d x since hx := absurd hx (hnone d x since)

/-- No operation declares a name below the global scope. -/
theorem declared_concat (ht : Mirrors h t) {op : Operation} (d : Int) (x : Symbol)
    (since : History) (hx : Declared (h ++ [op]) d x since) : 1 ≤ d := by
  rcases declared_concat_iff.1 hx with ⟨-, -, hlevel⟩ | ⟨since', -, hx, -⟩
  · have hdepth := ht.depth
    rw [SymbolTable.depth] at hdepth
    omega
  · exact ht.declared d x since' hx

theorem push (ht : Mirrors h t) : Mirrors (h ++ [.push]) t.push where
  depth := by simp [ht.depth]
  scopes s below hs x := by
    have hs : s :: below <:+ [] :: t.scopes := hs
    rw [denotes_concat_iff (by simp) (by simp) (by simp)]
    rcases List.suffix_cons_iff.1 hs with heq | hs
    · obtain ⟨rfl, rfl⟩ := List.cons.inj heq
      refine iff_of_false (by simp) ?_
      rintro ⟨since, hx, -⟩
      have hlevel : ((t.outer.length + 1 : Nat) : Int) + 1 ≤ level h := hx.le_level
      rw [← ht.depth, SymbolTable.depth] at hlevel
      omega
    · exact ht.scopes s below hs x
  declared := ht.declared_concat

theorem pop (ht : Mirrors h t) (hu : t.pop = .ok u) : Mirrors (h ++ [.pop]) u := by
  obtain ⟨closed, outer⟩ := t
  cases outer with
  | nil => cases hu
  | cons innermost outer =>
    obtain rfl := Except.ok.inj hu
    have hdepth : ((outer.length + 1 + 1 : Nat) : Int) = level h := ht.depth
    refine ⟨?_, fun s below hs x => ?_, ht.declared_concat⟩
    · rw [level_pop, ← hdepth]
      exact (Int.add_sub_cancel (outer.length + 1) 1).symm
    · have hlength : below.length + 1 ≤ outer.length + 1 := hs.length_le
      rw [denotes_concat_iff (by simp) (fun _ => by omega) (by simp)]
      exact ht.scopes s below (hs.trans (List.suffix_cons ..)) x

theorem declare (ht : Mirrors h t) (name : Bytes) (kind : Symbol.Kind) :
    Mirrors (h ++ [.declare name kind]) (t.declare name kind) where
  depth := by simp [ht.depth]
  scopes s below hs x := by
    have hs : s :: below <:+ t.innermost.insert ⟨name, kind⟩ :: t.outer := hs
    have hdepth : (t.outer.length : Int) + 1 = level h := ht.depth
    rcases List.suffix_cons_iff.1 hs with heq | hs
    · obtain ⟨rfl, rfl⟩ := List.cons.inj heq
      rw [Scope.get?_insert]
      by_cases hname : x.name = name
      · rw [hdepth, denotes_declare_iff hname, if_pos (by simp [hname]), Option.some.injEq]
        subst hname
        exact ⟨fun h => h ▸ rfl, fun h => by rw [← h]⟩
      · have hother : name ≠ x.name := Ne.symm hname
        rw [denotes_concat_iff (by simp) (by simp) (by simp [hother]),
          if_neg (by simpa using hother)]
        exact ht.scopes _ _ (List.suffix_refl _) x
    · have hlength : below.length + 1 ≤ t.outer.length := hs.length_le
      rw [denotes_concat_iff (by simp) (by simp) (fun _ _ => by omega)]
      exact ht.scopes s below (hs.trans (List.suffix_cons ..)) x
  declared := ht.declared_concat

/-- Every operation keeps a table and its history in step. -/
theorem apply (ht : Mirrors h t) {op : Operation} (hu : t.apply op = .ok u) :
    Mirrors (h ++ [op]) u := by
  cases op with
  | reset =>
    obtain rfl := Except.ok.inj hu
    exact fresh (level_reset h) fun _ _ _ => not_declared_reset
  | push =>
    obtain rfl := Except.ok.inj hu
    exact ht.push
  | pop => exact ht.pop hu
  | declare name kind =>
    obtain rfl := Except.ok.inj hu
    exact ht.declare name kind

end Mirrors

section Runs

variable {h : History} {t u : SymbolTable} {op : Operation}

theorem run_append_eq_ok {w : History} :
    t.run (h ++ w) = .ok u ↔ ∃ v, t.run h = .ok v ∧ v.run w = .ok u := by
  rw [run, List.foldlM_append]
  change (t.run h).bind (fun v => v.run w) = .ok u ↔ _
  cases t.run h with
  | error e => simp [Except.bind]
  | ok v => simp [Except.bind]

theorem run_concat_eq_ok :
    t.run (h ++ [op]) = .ok u ↔ ∃ v, t.run h = .ok v ∧ v.apply op = .ok u := by
  have hone (v : SymbolTable) : v.run [op] = v.apply op := by
    rw [run, List.foldlM_cons]
    exact bind_pure (v.apply op)
  simp only [run_append_eq_ok, hone]

/-- What the operations preserve, one by one, holds after all of them. -/
theorem run_induction {P : History → SymbolTable → Prop} (hnil : P [] t)
    (hstep : ∀ h u v op, P h u → u.apply op = .ok v → P (h ++ [op]) v)
    (hu : t.run h = .ok u) : P h u := by
  induction h using List.reverseRecOn generalizing u with
  | nil =>
    obtain rfl := Except.ok.inj hu
    exact hnil
  | append_singleton h op ih =>
    obtain ⟨v, hv, hop⟩ := run_concat_eq_ok.1 hu
    exact hstep h v u op (ih hv) hop

/-- After any operations the table mirrors its history. -/
theorem mirrors_of_run (ht : fresh.run h = .ok t) : Mirrors h t :=
  run_induction (.fresh level_nil fun d x since ⟨before, hsplit, _⟩ => by simp at hsplit)
    (fun _ _ _ _ hm hop => hm.apply hop) ht

/-- Every operation keeps the scopes in order. -/
theorem ordered_apply (ht : ∀ s ∈ t.scopes, s.Ordered) (hu : t.apply op = .ok u) :
    ∀ s ∈ u.scopes, s.Ordered := by
  obtain ⟨innermost, outer⟩ := t
  obtain ⟨hinner, houter⟩ := List.forall_mem_cons.1 ht
  cases op with
  | reset =>
    obtain rfl := Except.ok.inj hu
    exact List.forall_mem_cons.2 ⟨.nil, by simp [fresh]⟩
  | push =>
    obtain rfl := Except.ok.inj hu
    exact List.forall_mem_cons.2 ⟨.nil, ht⟩
  | pop =>
    cases outer with
    | nil => cases hu
    | cons s outer =>
      obtain rfl := Except.ok.inj hu
      exact houter
  | declare name kind =>
    obtain rfl := Except.ok.inj hu
    exact List.forall_mem_cons.2 ⟨hinner.insert _, houter⟩

/-- After any operations the scopes are in order. -/
theorem ordered_of_run (ht : fresh.run h = .ok t) : ∀ s ∈ t.scopes, s.Ordered :=
  run_induction (P := fun _ t => ∀ s ∈ t.scopes, s.Ordered)
    (List.forall_mem_cons.2 ⟨.nil, by simp [fresh]⟩) (fun _ _ _ _ hs hop => ordered_apply hs hop) ht

/-- Operations that stay in a scope can be run and leave the scopes below it alone. -/
theorem exists_run_of_stays {w : History} (hw : Stays w) (t : SymbolTable) :
    ∃ u above, t.push.run w = .ok u ∧ u.scopes = above ++ t.scopes ∧
      above.length + w.count .pop = 1 + w.count .push := by
  induction w using List.reverseRecOn with
  | nil => exact ⟨t.push, [[]], rfl, rfl, rfl⟩
  | append_singleton w op ih =>
    obtain ⟨hw, hreset, hpop⟩ := stays_concat_iff.1 hw
    obtain ⟨u, above, hu, hscopes, hlength⟩ := ih hw
    obtain ⟨innermost, outer⟩ := u
    have hcount := hw.within w (List.prefix_refl _)
    rw [scopes] at hscopes
    cases op with
    | reset => exact absurd rfl hreset
    | push =>
      refine ⟨_, [] :: above, run_concat_eq_ok.2 ⟨_, hu, rfl⟩, congrArg _ hscopes, ?_⟩
      simp [List.count_append]
      omega
    | pop =>
      have hroom := hpop rfl
      rcases above with _ | ⟨s, _ | ⟨s', above⟩⟩
      · simp at hlength
        omega
      · simp at hlength
        omega
      · obtain ⟨rfl, rfl⟩ := List.cons.inj hscopes
        refine ⟨_, s' :: above, run_concat_eq_ok.2 ⟨_, hu, rfl⟩, rfl, ?_⟩
        simp [List.count_append] at hlength ⊢
        omega
    | declare name kind =>
      cases above with
      | nil =>
        simp at hlength
        omega
      | cons s above =>
        obtain ⟨rfl, rfl⟩ := List.cons.inj hscopes
        refine ⟨_, innermost.insert ⟨name, kind⟩ :: above,
          run_concat_eq_ok.2 ⟨_, hu, rfl⟩, rfl, ?_⟩
        simpa [List.count_append] using hlength

/-- A scope that is opened and closed again with nothing but its own leaves no trace. -/
theorem run_balanced {w : History} (hw : Stays w) (hbalance : w.count .push = w.count .pop)
    (t : SymbolTable) : t.run (.push :: w ++ [.pop]) = .ok t := by
  obtain ⟨u, above, hu, hscopes, hlength⟩ := exists_run_of_stays hw t
  obtain ⟨s, rfl⟩ : ∃ s, above = [s] := List.length_eq_one_iff.1 (by omega)
  obtain ⟨innermost, outer⟩ := u
  obtain ⟨rfl, rfl⟩ := List.cons.inj hscopes
  exact run_concat_eq_ok.2 ⟨_, run_append_eq_ok (h := [.push]) |>.2 ⟨t.push, rfl, hu⟩, rfl⟩

/-- The global scope is the last one. -/
theorem exists_scopes_eq (t : SymbolTable) : ∃ above, t.scopes = above ++ [t.globals] := by
  obtain ⟨innermost, outer⟩ := t
  rcases List.eq_nil_or_concat' outer with rfl | ⟨outer, s, rfl⟩
  · exact ⟨[], rfl⟩
  · exact ⟨innermost :: outer, by simp [scopes, globals]⟩

end Runs

namespace Mirrors

variable {h : History} {t u : SymbolTable} {op : Operation}

/-- Only a pop of the global scope is refused. -/
theorem exists_apply_iff (ht : Mirrors h t) :
    (∃ u, t.apply op = .ok u) ↔ (op = .pop → 1 < level h) := by
  have hdepth := ht.depth
  obtain ⟨innermost, outer⟩ := t
  cases op with
  | pop =>
    cases outer with
    | nil =>
      have hdepth : (1 : Int) = level h := hdepth
      refine iff_of_false (fun ⟨u, hu⟩ => by cases hu) fun hlevel => ?_
      have := hlevel rfl
      omega
    | cons outermost outer =>
      have hdepth : ((outer.length + 1 + 1 : Nat) : Int) = level h := hdepth
      exact iff_of_true ⟨_, rfl⟩ fun _ => by omega
  | reset | push | declare => exact iff_of_true ⟨_, rfl⟩ (by simp)

/-- A scope of the table has what the names denote in the open scope of its level. -/
theorem get?_eq_some_iff (ht : Mirrors h t) {above below : List Scope} {s : Scope}
    (hs : t.scopes = above ++ s :: below) {name : Bytes} {x : Symbol} :
    s.get? name = some x ↔ x.name = name ∧ Denotes h (below.length + 1) x := by
  have hmirror := ht.scopes s below ⟨above, hs.symm⟩ x
  constructor
  · intro hx
    have hname : x.name = name := by simpa using List.find?_some hx
    exact ⟨hname, hmirror.1 (hname ▸ hx)⟩
  · rintro ⟨rfl, hx⟩
    exact hmirror.2 hx

/-- There is a scope for each level at which a name denotes something. -/
theorem exists_scope (ht : Mirrors h t) {d : Int} {x : Symbol} (hx : Denotes h d x) :
    ∃ above s below, t.scopes = above ++ s :: below ∧ (below.length + 1 : Int) = d := by
  obtain ⟨since, hx, -⟩ := hx
  have hlow := ht.declared d x since hx
  have hhigh := hx.le_level
  have hdepth : (t.scopes.length : Int) = level h := ht.depth
  have hi : (t.scopes.length - d).toNat < t.scopes.length := by omega
  refine ⟨_, _, _, (List.take_append_drop (t.scopes.length - d).toNat t.scopes).symm.trans
    (congrArg _ (List.drop_eq_getElem_cons hi)), ?_⟩
  rw [List.length_drop]
  omega

/-- A name is looked up in the innermost scope in which it denotes something. -/
theorem lookup?_eq_some_iff (ht : Mirrors h t) {name : Bytes} {x : Symbol} :
    t.lookup? name = some x ↔ x.name = name ∧ ∃ d, Denotes h d x ∧
      ∀ e y, Denotes h e y → y.name = name → e ≤ d := by
  rw [lookup?, List.findSome?_eq_some_iff]
  constructor
  · rintro ⟨above, s, below, hs, hx, habove⟩
    obtain ⟨hname, hx⟩ := (ht.get?_eq_some_iff hs).1 hx
    refine ⟨hname, _, hx, fun e y hy hy' => ?_⟩
    obtain ⟨above', s', below', hs', rfl⟩ := ht.exists_scope hy
    by_contra hlt
    have hmem : s' ∈ above := by
      rcases List.append_eq_append_iff.1 (hs.symm.trans hs') with ⟨as, -, has⟩ | ⟨bs, rfl, hbs⟩
      · have := congrArg List.length has
        simp only [List.length_cons, List.length_append] at this
        omega
      · cases bs with
        | nil =>
          obtain ⟨-, rfl⟩ := List.cons.inj hbs
          omega
        | cons b bs =>
          obtain ⟨rfl, -⟩ := List.cons.inj hbs
          simp
    have hnone := habove s' hmem
    rw [(ht.get?_eq_some_iff hs').2 ⟨hy', hy⟩] at hnone
    cases hnone
  · rintro ⟨hname, d, hx, hmax⟩
    obtain ⟨above, s, below, hs, rfl⟩ := ht.exists_scope hx
    refine ⟨above, s, below, hs, (ht.get?_eq_some_iff hs).2 ⟨hname, hx⟩, fun s' hs' => ?_⟩
    obtain ⟨first, last, rfl⟩ := List.append_of_mem hs'
    have hs : t.scopes = first ++ s' :: (last ++ s :: below) := by rw [hs]; simp
    cases hy : s'.get? name with
    | none => rfl
    | some y =>
      obtain ⟨hy', hy⟩ := (ht.get?_eq_some_iff hs).1 hy
      have hle := hmax _ y hy hy'
      simp only [List.length_append, List.length_cons] at hle
      omega

theorem lookup?_eq_none_iff (ht : Mirrors h t) {name : Bytes} :
    t.lookup? name = none ↔ ∀ d x, Denotes h d x → x.name ≠ name := by
  constructor
  · intro hnone d x hx hname
    obtain ⟨above, s, below, hs, rfl⟩ := ht.exists_scope hx
    have hs' := List.findSome?_eq_none_iff.1 hnone s (by rw [hs]; simp)
    rw [(ht.get?_eq_some_iff hs).2 ⟨hname, hx⟩] at hs'
    cases hs'
  · intro hnone
    cases hx : t.lookup? name with
    | none => rfl
    | some x =>
      obtain ⟨hname, d, hx, -⟩ := ht.lookup?_eq_some_iff.1 hx
      exact absurd hname (hnone d x hx)

end Mirrors

namespace History

variable {h : History} {op : Operation}

theorem lawful_concat_iff : Lawful (h ++ [op]) ↔ Lawful h ∧ (op = .pop → 1 < level h) := by
  constructor
  · intro hlawful
    refine ⟨?_, ?_⟩
    · rintro before after rfl
      exact hlawful before (after ++ [op]) (by simp)
    · rintro rfl
      exact hlawful h [] rfl
  · rintro ⟨hlawful, hpop⟩ before after hsplit
    rcases concat_eq_split_iff.1 hsplit with ⟨rfl, hop, -⟩ | ⟨after', -, hsplit⟩
    · exact hpop hop
    · exact hlawful before after' hsplit

/-- The operations can be run unless one of them pops the global scope. -/
theorem exists_run_iff (h : History) : (∃ t, fresh.run h = .ok t) ↔ Lawful h := by
  induction h using List.reverseRecOn with
  | nil => exact iff_of_true ⟨fresh, rfl⟩ fun before after hsplit => by simp at hsplit
  | append_singleton h op ih =>
    rw [lawful_concat_iff, ← ih]
    constructor
    · rintro ⟨t, ht⟩
      obtain ⟨u, hu, hop⟩ := run_concat_eq_ok.1 ht
      exact ⟨⟨u, hu⟩, (mirrors_of_run hu).exists_apply_iff.1 ⟨t, hop⟩⟩
    · rintro ⟨⟨u, hu⟩, hpop⟩
      obtain ⟨t, ht⟩ := (mirrors_of_run hu).exists_apply_iff.2 hpop
      exact ⟨t, run_concat_eq_ok.2 ⟨u, hu, ht⟩⟩

end History

/-- A symbol table is lexically scoped. Unless the global scope is popped, a name is looked up as
what it denotes in the innermost open scope in which a declaration of it stands, and not at all
if none stands. There is one scope, and one more for each push that no pop has undone since the
last reset, and the global scope lists what each name denotes there once. Operations between a
push and the pop that undoes it leave no trace in any table. -/
theorem lexical_scoping (h : History) :
    ((∃ t, fresh.run h = .ok t) ↔ h.Lawful) ∧
    (∀ t, fresh.run h = .ok t →
      t.depth + h.current.count .pop = 1 + h.current.count .push ∧
      (∀ name x, t.lookup? name = some x ↔ x.name = name ∧ ∃ d, h.Denotes d x ∧
        ∀ e y since, h.Declared e y since → y.name = name → e ≤ d) ∧
      (∀ name, t.lookup? name = none ↔ ∀ d y since, h.Declared d y since → y.name ≠ name) ∧
      (t.globals.map Symbol.name).Nodup ∧ ∀ x, x ∈ t.globals ↔ h.Denotes 1 x) ∧
    ∀ (t : SymbolTable) (w : History), w.Stays → w.count .push = w.count .pop →
      t.run (.push :: w ++ [.pop]) = .ok t := by
  refine ⟨exists_run_iff h, fun t ht => ?_, fun t w hw hbalance => run_balanced hw hbalance t⟩
  have hmirrors := mirrors_of_run ht
  obtain ⟨above, hscopes⟩ := exists_scopes_eq t
  have hglobals : t.globals.Ordered := ordered_of_run ht _ (by simp [hscopes])
  refine ⟨?_, fun name x => ?_, fun name => ?_, hglobals.nodup_names, fun x => ?_⟩
  · have hdepth := hmirrors.depth
    rw [level] at hdepth
    omega
  · rw [hmirrors.lookup?_eq_some_iff]
    refine and_congr_right fun _ => exists_congr fun d => and_congr_right fun _ => ?_
    constructor
    · intro hmax e y since hy hname
      obtain ⟨z, hz, hlast⟩ := hy.exists_denotes
      exact hmax e z hlast (hz.trans hname)
    · rintro hmax e y ⟨since, hy, -⟩ hname
      exact hmax e y since hy hname
  · rw [hmirrors.lookup?_eq_none_iff]
    constructor
    · intro hnone d y since hy hname
      obtain ⟨z, hz, hlast⟩ := hy.exists_denotes
      exact hnone d z hlast (hz.trans hname)
    · rintro hnone d y ⟨since, hy, -⟩
      exact hnone d y since hy
  · rw [hglobals.mem_iff, hmirrors.get?_eq_some_iff hscopes]
    simp

/-- A type `f`, a procedure `f` in an inner scope, and a type `g` in a scope that has been
closed. -/
def shadowed : History :=
  [.declare [102] .type, .push, .declare [102] .procedure, .push, .declare [103] .type, .pop]

/-- The inner declaration hides the outer one, which is still global, and the closed scope has
left nothing behind. -/
theorem lexical_scoping_shadowed :
    (∃ t, fresh.run shadowed = .ok t ∧ t.lookup? [102] = some ⟨[102], .procedure⟩ ∧
      t.lookup? [103] = none ∧ t.globals = [⟨[102], .type⟩]) ∧
    shadowed.Lawful ∧ shadowed.Denotes 1 ⟨[102], .type⟩ ∧
    (∃ d, shadowed.Denotes d ⟨[102], .procedure⟩ ∧
      ∀ e y since, shadowed.Declared e y since → y.name = [102] → e ≤ d) ∧
    (∀ d y since, shadowed.Declared d y since → y.name ≠ [103]) ∧
    Stays [.push, .declare [103] .type, .pop] ∧
    fresh.run [.push, .push, .declare [103] .type, .pop, .pop] = .ok fresh := by
  have hrun : fresh.run shadowed =
      .ok ⟨[⟨[102], .procedure⟩], [[⟨[102], .type⟩]]⟩ := rfl
  have hstays : Stays [.push, .declare [103] .type, .pop] := by decide
  obtain ⟨hlawful, hreached, hbalanced⟩ := lexical_scoping shadowed
  obtain ⟨-, hsome, hnone, -, hglobals⟩ := hreached _ hrun
  exact ⟨⟨_, hrun, rfl, rfl, rfl⟩, hlawful.1 ⟨_, hrun⟩, (hglobals _).1 (by decide),
    ((hsome _ _).1 rfl).2, (hnone _).1 rfl, hstays, hbalanced fresh _ hstays rfl⟩

end SymbolTable
end Recognizer
