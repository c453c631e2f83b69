import Recognizer.Proofs.Exactness
import Recognizer.Proofs.Layout
import Recognizer.Proofs.Locality

/-!
# Mending rules

A run that stops at the end of the lexemes was cut short there. A rule can be
mended when every such run, accepting or not, becomes an accepting one once some
pieces are put behind the lexemes, and leaves whatever may follow those pieces.
What a rule needs behind a part that was cut short it has to be supplied with from
nothing.
-/
namespace Recognizer

namespace Piece

/-- A piece of a kind with one fixed spelling. -/
def mark (k : Kind) : Piece := (k, Bytes.ofAscii (k.spelling?.getD []))

/-- A name. -/
def name (w : Bytes) : Piece := (.identifier, w)

/-- The name that stands for anything. -/
def x : Piece := name (Bytes.ofAscii ['x'])

end Piece

namespace Grammar

/-- What follows does not begin with one of the kinds. -/
def Avoids (ks : List Kind) (v : List Lexeme) : Prop := ∀ x ∈ v.head?, x.kind ∉ ks

/-- What follows begins with the kind. -/
def Begins (k : Kind) (v : List Lexeme) : Prop := ∃ x u, v = x :: u ∧ x.kind = k

/-- What follows may be anything. -/
def anything (_ : List Lexeme) : Prop := True

/-- Pieces before what follows in `F` may follow in `G`. -/
def Leads (ps : List Piece) (F G : List Lexeme → Prop) : Prop :=
  ∀ ⦃e v⦄, e.map Lexeme.piece = ps → F v → G (e ++ v)

section Following

variable {F G : List Lexeme → Prop} {ps : List Piece} {p : Piece} {ks ls : List Kind} {k : Kind}
  {v : List Lexeme}

theorem Avoids.mono (h : Avoids ls v) (hk : ∀ k ∈ ks, k ∈ ls) : Avoids ks v :=
  fun x hx hm => h x hx (hk _ hm)

theorem Avoids.kind (h : Avoids ks v) (hk : k ∈ ks) (table : SymbolTable) :
    (Test.kind k).holds table v = false := by
  cases v with
  | nil => rfl
  | cons x v =>
    simp only [Test.holds, beq_eq_false_iff_ne, ne_eq]
    exact fun hx => h x rfl (hx ▸ hk)

theorem Avoids.oneOf (h : Avoids ks v) (hl : ∀ l ∈ ls, l ∈ ks) (table : SymbolTable) :
    (Test.oneOf ls).holds table v = false := by
  cases v with
  | nil => rfl
  | cons x v => simpa [Test.holds] using fun hx => h x rfl (hl _ hx)

theorem Begins.avoids (h : Begins k v) (hk : k ∉ ks) : Avoids ks v := by
  obtain ⟨x, u, rfl, hx⟩ := h
  simpa [Avoids, hx] using hk

theorem Leads.avoids (hp : p.1 ∉ ks) : Leads (p :: ps) F (Avoids ks) := by
  intro e v he _
  obtain ⟨x, e, rfl, rfl, -⟩ := List.map_eq_cons_iff.1 he
  simpa [Avoids, Lexeme.piece] using hp

theorem Leads.begins (hp : p.1 = k) : Leads (p :: ps) F (Begins k) := by
  intro e v he _
  obtain ⟨x, e, rfl, rfl, -⟩ := List.map_eq_cons_iff.1 he
  exact ⟨x, e ++ v, rfl, hp⟩

theorem Leads.nil (h : ∀ v, F v → G v) : Leads [] F G := by
  intro e v he hv
  obtain rfl := List.map_eq_nil_iff.1 he
  exact h v hv

theorem Leads.anything : Leads ps F anything := fun _ _ _ _ => trivial

end Following

variable {prefs : GrammarPreferences} {P : Piece → Prop} {N : Bytes → Prop} {n : Nat}
  {r q y z : Rule} {s t : State} {b : Bool} {v : List Lexeme} {F G : List Lexeme → Prop}
  {ps qs : List Piece}

/-- From the state given, the rule accepts without a refused call and leaves `v`. -/
def Leaves (prefs : GrammarPreferences) (n : Nat) (r : Rule) (s : State) (v : List Lexeme) :
    Prop :=
  ∃ t, FullRuns (body prefs) n r s true t ∧ t.rest = v ∧ t.overflow = none

namespace Leaves

theorem of_open (h : OpenRuns (body prefs) n r s true t) (ho : t.overflow = none)
    (v : List Lexeme) : Leaves prefs n r (s.extend v) (t.rest ++ v) :=
  ⟨_, h.extend_of_open v, rfl, ho⟩

theorem yes {first : Rule} {m : State} (hf : FullRuns (body prefs) n first s true m)
    (hy : Leaves prefs n y m v) : Leaves prefs n (.branch first y z) s v := by
  obtain ⟨t, hy, ht, ho⟩ := hy
  exact ⟨t, .yes hf hy, ht, ho⟩

theorem no {first : Rule} {m : State} (hf : FullRuns (body prefs) n first s false m)
    (hn : Leaves prefs n z m v) : Leaves prefs n (.branch first y z) s v := by
  obtain ⟨t, hn, ht, ho⟩ := hn
  exact ⟨t, .no hf hn, ht, ho⟩

theorem again {c : Test} {m : State} (hc : s.passes c = true)
    (hf : FullRuns (body prefs) n r s true m) (hl : Leaves prefs n (.loop c r) m v) :
    Leaves prefs n (.loop c r) s v := by
  obtain ⟨t, hl, ht, ho⟩ := hl
  exact ⟨t, .again (fun _ => trivial) hc hf hl, ht, ho⟩

end Leaves

/-! ### Supplies -/

/-- Lexemes of these pieces are accepted by the rule from nothing, before what may
follow them. -/
def Supplies (prefs : GrammarPreferences) (n : Nat) (r : Rule) (ps : List Piece)
    (F : List Lexeme → Prop) : Prop :=
  ∀ ⦃s e v⦄, e.map Lexeme.piece = ps → F v → s.rest = e ++ v → s.overflow = none →
    Leaves prefs n r s v

namespace Supplies

theorem accept : Supplies prefs n .accept [] F := by
  intro s e v he _ hs ho
  obtain rfl := List.map_eq_nil_iff.1 he
  exact ⟨s, .accept, hs, ho⟩

theorem take {c : Test} {p : Piece}
    (hc : ∀ table x u, Lexeme.piece x = p → c.holds table (x :: u) = true) :
    Supplies prefs n (.take c) [p] F := by
  intro s e v he _ hs ho
  obtain ⟨x, e, rfl, hx, he⟩ := List.map_eq_cons_iff.1 he
  obtain rfl := List.map_eq_nil_iff.1 he
  refine ⟨s.advance, .take (by simp [hs]) ?_, by simp [hs], ho⟩
  rw [State.passes, hs]
  exact hc _ x _ hx

theorem kind (k : Kind) : Supplies prefs n (Rule.kind k) [.mark k] F :=
  take fun table x u hx => by
    have : x.kind = k := congrArg Prod.fst hx
    simp [Test.holds, this]

theorem word (w : Bytes) : Supplies prefs n (Rule.word w) [.name w] F :=
  take fun table x u hx => by
    have hk : x.kind = .identifier := congrArg Prod.fst hx
    have hw : x.text = w := congrArg Prod.snd hx
    simp [Test.holds, hk, hw]

theorem identifier : Supplies prefs n (Rule.kind .identifier) [.x] F :=
  take fun table x u hx => by
    have : x.kind = .identifier := congrArg Prod.fst hx
    simp [Test.holds, this]

theorem andThen (hr : Supplies prefs n r ps F) (hq : Supplies prefs n q qs G)
    (hF : Leads qs G F) : Supplies prefs n (r.andThen q) (ps ++ qs) G := by
  intro s e v he hv hs ho
  obtain ⟨e, f, rfl, he, hf⟩ := List.map_eq_append_iff.1 he
  rw [List.append_assoc] at hs
  obtain ⟨m, hrun, hm, hmo⟩ := hr he (hF hf hv) hs ho
  exact .yes hrun (hq hf hv hm hmo)

/-- A test that fails on the pieces, or on what follows them, leads to the third rule. -/
theorem skip {c : Test} (hz : Supplies prefs n z ps F)
    (hc : ∀ table e v, e.map Lexeme.piece = ps → F v → c.holds table (e ++ v) = false) :
    Supplies prefs n (.branch (.take c) y z) ps F := by
  intro s e v he hv hs ho
  refine .no (.miss (fun _ => trivial) ?_) (hz he hv hs ho)
  rw [State.passes, hs]
  exact hc _ e v he hv

theorem takeYes {c : Test} (hc : Supplies prefs n (.take c) ps F) (hy : Supplies prefs n y qs G)
    (hF : Leads qs G F) : Supplies prefs n (.branch (.take c) y z) (ps ++ qs) G := by
  intro s e v he hv hs ho
  obtain ⟨e, f, rfl, he, hf⟩ := List.map_eq_append_iff.1 he
  rw [List.append_assoc] at hs
  obtain ⟨m, hrun, hm, hmo⟩ := hc he (hF hf hv) hs ho
  exact .yes hrun (hy hf hv hm hmo)

/-- A loop whose test fails on what follows needs nothing. -/
theorem done {c : Test} (hc : ∀ table v, F v → c.holds table v = false) :
    Supplies prefs n (.loop c r) [] F := by
  intro s e v he hv hs ho
  obtain rfl := List.map_eq_nil_iff.1 he
  refine ⟨s, .done (fun _ => trivial) ?_, hs, ho⟩
  rw [State.passes, hs]
  exact hc _ v hv

theorem declare {k : Symbol.Kind} {next : Bytes → Rule}
    (hnext : Supplies prefs n (next (Bytes.ofAscii ['x'])) ps F) :
    Supplies prefs n (.declare k next) (.x :: ps) F := by
  intro s e v he hv hs ho
  obtain ⟨x, e, rfl, hx, he⟩ := List.map_eq_cons_iff.1 he
  have hk : x.kind = .identifier := congrArg Prod.fst hx
  have hw : x.text = Bytes.ofAscii ['x'] := congrArg Prod.snd hx
  obtain ⟨t, hrun, ht⟩ := hnext (s := (s.declare x.text k).advance) he hv
    (by simp [State.declare, hs]) ho
  rw [← hw] at hrun
  exact ⟨t, .declare (by simp [State.identifier?, hs, hk]) hrun, ht⟩

theorem enclosed (hr : Supplies prefs n r ps F) : Supplies prefs n (.enclosed r) ps F := by
  intro s e v he hv hs ho
  obtain ⟨t, hrun, ht, hto⟩ := hr (s := { s with table := s.table.push }) he hv hs ho
  exact ⟨_, .enclosed hrun, ht, hto⟩

theorem separated (hr : Supplies prefs n r ps F) (hG : ∀ v, G v → F v)
    (hcomma : ∀ v, G v → Avoids [.comma] v) : Supplies prefs n (Rule.separated r) ps G := by
  have hdone : Supplies prefs n (.loop (.kind .comma) ((Rule.kind .comma).andThen r)) [] G :=
    done fun table v hv => (hcomma v hv).kind (by simp) table
  simpa [Rule.separated] using hr.andThen hdone (.nil hG)

/-- Nothing is needed before the lexeme that closes a part. -/
theorem none (c : Kind) : Supplies prefs n (.orElse (.peek (.kind c)) q) [] (Begins c) := by
  intro s e v he hv hs ho
  obtain rfl := List.map_eq_nil_iff.1 he
  obtain ⟨x, u, rfl, hx⟩ := hv
  refine .yes (.peek (fun _ => trivial) ?_) ⟨s, .accept, hs, ho⟩
  simp [State.passes, hs, Test.holds, hx]

/-- An empty list needs its closing lexeme alone. -/
theorem closed (c : Kind) : Supplies prefs n
    (.andThen (.orElse (.peek (.kind c)) q) (.kind c)) [.mark c] F :=
  (none c).andThen (kind c) (.begins rfl)

theorem delimited (o c : Kind) : Supplies prefs n (Rule.delimited o r c) [.mark o, .mark c] F :=
  (kind o).andThen (closed c) .anything

theorem call {g : Guarded} (h : Supplies prefs n (body prefs g) ps F) :
    Supplies prefs (n + 1) (.call g) ps F := by
  intro s e v he hv hs ho
  obtain ⟨t, hrun, ht⟩ := h he hv hs ho
  exact ⟨t, .call ho hrun, ht⟩

end Supplies

/-- Where a run of the rule finds room for its calls, pieces that `P` allows can be
supplied to it. -/
def Renews (prefs : GrammarPreferences) (P : Piece → Prop) (n : Nat) (r : Rule)
    (F : List Lexeme → Prop) : Prop :=
  ∀ ⦃s b t⦄, FullRuns (body prefs) n r s b t → t.overflow = none →
    ∃ ps, (∀ p ∈ ps, P p) ∧ Supplies prefs n r ps F

theorem Supplies.renews (h : Supplies prefs n r ps F) (hP : ∀ p ∈ ps, P p) :
    Renews prefs P n r F := fun _ _ _ _ _ => ⟨ps, hP, h⟩

/-! ### Mending -/

/-- An accepting run of the rule that stops before the end did not look at it. -/
def Opens (prefs : GrammarPreferences) (n : Nat) (r : Rule) : Prop :=
  ∀ ⦃s t⦄, FullRuns (body prefs) n r s true t → t.rest ≠ [] → OpenRuns (body prefs) n r s true t

theorem Opens.of_straight (hr : r.Meets .straight) : Opens prefs n r :=
  fun _ _ h ht => h.open_of_straight hr ht

theorem Opens.of_closing {last : Test → Prop} (h : Closing prefs last n r) : Opens prefs n r :=
  fun _ _ hrun ht => (h hrun).2.mono fun _ hc => ht hc.2

theorem Opens.loop {c : Test} (hr : Opens prefs n r) : Opens prefs n (.loop c r) := by
  intro s t h ht
  generalize hb : true = b at h
  induction h using Runs.loop_induction with
  | done s _ hc => exact .done (absurd · ht) hc
  | again s m t b _ hc hround hl ih =>
    have before {u v : State} (h : v.rest <:+ u.rest) (hv : v.rest ≠ []) : u.rest ≠ [] :=
      fun hu => hv (List.suffix_nil.1 (hu ▸ h))
    have hm := before hl.suffix ht
    exact .again (absurd · (before hround.suffix hm)) hc (hr hround hm) (ih ht hb)
  | stop => cases hb

theorem Opens.peekOr {c : Test} (hq : Opens prefs n q) : Opens prefs n (.orElse (.peek c) q) := by
  intro s t h ht
  rcases h.of_orElse with hf | ⟨m, hf, hn⟩
  · cases hf with
    | peek _ hp => exact .yes (.peek (absurd · ht) hp) .accept
  · cases hf with
    | peek _ hp =>
      have hs : s.rest ≠ [] := fun hs => ht (List.suffix_nil.1 (hs ▸ hn.suffix))
      exact .no (.peek (absurd · hs) hp) (hq hn ht)

/-- Lexemes are left, and their names are among those given. -/
structure State.Live (N : Bytes → Prop) (s : State) : Prop where
  rest_ne_nil : s.rest ≠ []
  names : ∀ x ∈ s.rest, x.kind = .identifier → N x.text

theorem State.Live.of_suffix (hs : s.Live N) (h : t.rest <:+ s.rest) (ht : t.rest ≠ []) :
    t.Live N := ⟨ht, fun x hx => hs.names x (h.subset hx)⟩

theorem State.Live.name_of_identifier? {name : Bytes} (hs : s.Live N)
    (h : s.identifier? = some name) : N name := by
  obtain ⟨x, rest, hx⟩ := List.exists_cons_of_ne_nil hs.rest_ne_nil
  simp only [State.identifier?, hx, Option.ite_none_right_eq_some, Option.some.injEq] at h
  obtain ⟨hk, rfl⟩ := h
  exact hs.names x (by simp [hx]) hk

/-- Some of the pieces make the rule accept when they are put behind the lexemes. -/
def Mendable (prefs : GrammarPreferences) (P : Piece → Prop) (n : Nat) (r : Rule)
    (F : List Lexeme → Prop) (s : State) : Prop :=
  ∃ ps, (∀ p ∈ ps, P p) ∧
    ∀ ⦃e v⦄, e.map Lexeme.piece = ps → F v → Leaves prefs n r (s.extend (e ++ v)) v

/-- Runs of the rule that stop at the end without a refused call can be mended, with
pieces that `P` allows. -/
def Mends (prefs : GrammarPreferences) (P : Piece → Prop) (N : Bytes → Prop) (n : Nat)
    (r : Rule) (F : List Lexeme → Prop) : Prop :=
  ∀ ⦃s b t⦄, FullRuns (body prefs) n r s b t → s.Live N → t.rest = [] → t.overflow = none →
    Mendable prefs P n r F s

theorem Mendable.of_open (h : OpenRuns (body prefs) n r s true t) (ht : t.rest = [])
    (ho : t.overflow = none) : Mendable prefs P n r F s := by
  refine ⟨[], by simp, fun e v he _ => ?_⟩
  obtain rfl := List.map_eq_nil_iff.1 he
  simpa [ht] using Leaves.of_open h ho v

/-- What is mended is mended with what has to stand behind it. -/
theorem Mendable.supply (h : Mendable prefs P n r F s) (hq : Supplies prefs n q qs G)
    (hF : Leads qs G F) (hP : ∀ p ∈ qs, P p) : Mendable prefs P n (.branch r q z) G s := by
  obtain ⟨ps, hps, h⟩ := h
  refine ⟨ps ++ qs, fun p hp => ?_, fun e v he hv => ?_⟩
  · exact (List.mem_append.1 hp).elim (hps p) (hP p)
  · obtain ⟨e, f, rfl, he, hf⟩ := List.map_eq_append_iff.1 he
    rw [List.append_assoc]
    obtain ⟨m, hrun, hm, ho⟩ := h he (hF hf hv)
    exact .yes hrun (hq hf hv hm ho)

/-- What is mended behind an open part is mended with it. -/
theorem Mendable.after {m : State} (hr : OpenRuns (body prefs) n r s true m)
    (h : Mendable prefs P n q F m) : Mendable prefs P n (.branch r q z) F s := by
  obtain ⟨ps, hps, h⟩ := h
  exact ⟨ps, hps, fun e v he hv => .yes (hr.extend_of_open _) (h he hv)⟩

/-- What is mended behind an open rejection is mended with it. -/
theorem Mendable.instead {m : State} (hr : OpenRuns (body prefs) n r s false m)
    (h : Mendable prefs P n q F m) : Mendable prefs P n (.branch r y q) F s := by
  obtain ⟨ps, hps, h⟩ := h
  exact ⟨ps, hps, fun e v he hv => .no (hr.extend_of_open _) (h he hv)⟩

namespace Mends

theorem mono {Q : Piece → Prop} {M : Bytes → Prop} (h : Mends prefs P M n r F)
    (hP : ∀ p, P p → Q p) (hN : ∀ w, N w → M w) (hF : ∀ v, G v → F v) :
    Mends prefs Q N n r G := by
  intro s b t hrun hs ht ho
  obtain ⟨ps, hps, h⟩ := h hrun ⟨hs.rest_ne_nil, fun x hx hk => hN _ (hs.names x hx hk)⟩ ht ho
  exact ⟨ps, fun p hp => hP p (hps p hp), fun e v he hv => h he (hF v hv)⟩

theorem accept : Mends prefs P N n .accept F := by
  intro s b t h hs ht _
  cases h
  exact absurd ht hs.rest_ne_nil

theorem reject : Mends prefs P N n .reject F := by
  intro s b t h hs ht _
  cases h
  exact absurd ht hs.rest_ne_nil

theorem take (c : Test) : Mends prefs P N n (.take c) F := by
  intro s b t h hs ht ho
  cases h with
  | take hne hp => exact .of_open (.take hne hp) ht ho
  | miss => exact absurd ht hs.rest_ne_nil

/-- One rule and then another, which has to be supplied where the first one stops at
the end. -/
theorem andThen (hr : Mends prefs P N n r F) (hopen : Opens prefs n r)
    (hq : Mends prefs P N n q G) (hsup : Supplies prefs n q qs G) (hF : Leads qs G F)
    (hP : ∀ p ∈ qs, P p) : Mends prefs P N n (r.andThen q) G := by
  intro s b t h hs ht ho
  cases h with
  | @yes _ _ _ _ _ m _ _ hf hy =>
    have hmo : m.overflow = none := hy.overflow_eq_none ho
    by_cases hm : m.rest = []
    · exact (hr hf hs hm hmo).supply hsup hF hP
    · exact .after (hopen hf hm) (hq hy (hs.of_suffix hf.suffix hm) ht ho)
  | no hf hn =>
    cases hn
    exact (hr hf hs ht ho).supply hsup hF hP

/-- A lexeme is taken and a rule follows, which has to be supplied where that was the
last lexeme; its run from nothing shows what room there is. -/
theorem branchTake {c : Test} (hy : Mends prefs P N n y G) (hz : Mends prefs P N n z G)
    (hsup : Renews prefs P n y G) :
    Mends prefs P N n (.branch (.take c) y z) G := by
  intro s b t h hs ht ho
  cases h with
  | yes hf hy' =>
    cases hf with
    | take hne hp =>
      have hopen : OpenRuns (body prefs) n (.take c) s true s.advance := .take hne hp
      by_cases hm : s.advance.rest = []
      · obtain ⟨qs, hP, hsup⟩ := hsup hy' ho
        have hmo : s.advance.overflow = none := hy'.overflow_eq_none ho
        exact (Mendable.of_open (F := anything) hopen hm hmo).supply hsup .anything hP
      · exact .after hopen (hy hy' (hs.of_suffix hopen.suffix hm) ht ho)
  | no hf hn =>
    cases hf with
    | miss _ hp => exact .instead (.miss (absurd · hs.rest_ne_nil) hp) (hz hn hs ht ho)

/-- As before, where what is supplied needs no room. -/
theorem takeThen {c : Test} (hy : Mends prefs P N n y G) (hz : Mends prefs P N n z G)
    (hsup : Supplies prefs n y qs G) (hP : ∀ p ∈ qs, P p) :
    Mends prefs P N n (.branch (.take c) y z) G :=
  branchTake hy hz (hsup.renews hP)

theorem when {c : Test} (hy : Mends prefs P N n y G) (hz : Mends prefs P N n z G) :
    Mends prefs P N n (Rule.when c y z) G := by
  intro s b t h hs ht ho
  rcases h.of_when with ⟨hp, hy'⟩ | ⟨hp, hn⟩
  · exact .after (.peek (absurd · hs.rest_ne_nil) hp) (hy hy' hs ht ho)
  · exact .instead (.peek (absurd · hs.rest_ne_nil) hp) (hz hn hs ht ho)

/-- One rule or another. Where the first one stops at the end, it is the one to mend. -/
theorem orElse (hr : Mends prefs P N n r F) (hstraight : r.Meets .straight)
    (hq : Mends prefs P N n q F) : Mends prefs P N n (r.orElse q) F := by
  intro s b t h hs ht ho
  cases h with
  | yes hf hy =>
    cases hy
    exact (hr hf hs ht ho).supply .accept (.nil fun _ => id) (by simp)
  | @no _ _ _ _ _ m _ _ hf hn =>
    have hmo : m.overflow = none := hn.overflow_eq_none ho
    by_cases hm : m.rest = []
    · exact (hr hf hs hm hmo).supply .accept (.nil fun _ => id) (by simp)
    · exact .instead (hf.open_of_straight hstraight hm)
        (hq hn (hs.of_suffix hf.suffix hm) ht ho)

theorem optional (hr : Mends prefs P N n r F) : Mends prefs P N n r.optional F := by
  intro s b t h hs ht ho
  cases h with
  | yes hf hy | no hf hy =>
    cases hy
    exact (hr hf hs ht ho).supply .accept (.nil fun _ => id) (by simp)

/-- A loop whose test fails on what follows. -/
theorem loop {c : Test} (hr : Mends prefs P N n r F) (hopen : Opens prefs n r)
    (hc : ∀ table v, F v → c.holds table v = false) : Mends prefs P N n (.loop c r) F := by
  have last {s : State} (hs : s.rest ≠ []) (hp : s.passes c = true)
      (h : Mendable prefs P n r F s) : Mendable prefs P n (.loop c r) F s := by
    obtain ⟨ps, hps, h⟩ := h
    refine ⟨ps, hps, fun e v he hv => ?_⟩
    obtain ⟨m, hrun, hm, ho⟩ := h he hv
    have hdone : Leaves prefs n (.loop c r) m v := by
      refine ⟨m, .done (fun _ => trivial) ?_, hm, ho⟩
      rw [State.passes, hm]
      exact hc _ v hv
    exact hdone.again ((Test.holds_append hs _).trans hp) hrun
  intro s b t h hs ht ho
  induction h using Runs.loop_induction with
  | done s => exact absurd ht hs.rest_ne_nil
  | again s m t b _ hp hround hl ih =>
    have hmo : m.overflow = none := hl.overflow_eq_none ho
    by_cases hm : m.rest = []
    · exact last hs.rest_ne_nil hp (hr hround hs hm hmo)
    · obtain ⟨ps, hps, h⟩ := ih (hs.of_suffix hround.suffix hm) ht ho
      refine ⟨ps, hps, fun e v he hv => ?_⟩
      exact (h he hv).again ((Test.holds_append hs.rest_ne_nil _).trans hp)
        ((hopen hround hm).extend_of_open _)
  | stop s t _ hp hround => exact last hs.rest_ne_nil hp (hr hround hs ht ho)

theorem declare {k : Symbol.Kind} {next : Bytes → Rule}
    (hnext : ∀ name, N name → Mends prefs P N n (next name) F)
    (hsup : ∀ name, N name → Supplies prefs n (next name) qs F) (hP : ∀ p ∈ qs, P p) :
    Mends prefs P N n (.declare k next) F := by
  intro s b t h hs ht ho
  cases h with
  | nameless => exact absurd ht hs.rest_ne_nil
  | @declare _ _ _ _ name _ _ hname h =>
    have hmo : s.overflow = none := h.overflow_eq_none ho
    have advanced (v : List Lexeme) : ((s.extend v).declare name k).advance =
        (s.declare name k).advance.extend v :=
      State.advance_extend (s := s.declare name k) hs.rest_ne_nil v
    have named (v : List Lexeme) : (s.extend v).identifier? = some name :=
      (State.identifier?_extend hs.rest_ne_nil v).trans hname
    -- the pieces that mend what follows the name mend the declaration
    have lift (h : Mendable prefs P n (next name) F (s.declare name k).advance) :
        Mendable prefs P n (.declare k next) F s := by
      obtain ⟨ps, hps, h⟩ := h
      refine ⟨ps, hps, fun e v he hv => ?_⟩
      obtain ⟨t, hrun, ht⟩ := h he hv
      rw [← advanced] at hrun
      exact ⟨t, .declare (named _) hrun, ht⟩
    have hN := hs.name_of_identifier? hname
    by_cases hm : (s.declare name k).advance.rest = []
    · refine lift ⟨qs, hP, fun e v he hv => hsup name hN he hv ?_ hmo⟩
      rw [State.rest_extend, hm, List.nil_append]
    · exact lift (hnext name hN h (hs.of_suffix (List.tail_suffix _) hm) ht ho)

theorem enclosed (hr : Mends prefs P N n r F) : Mends prefs P N n (.enclosed r) F := by
  intro s b t h hs ht ho
  cases h with
  | enclosed h =>
    obtain ⟨ps, hps, h⟩ := hr h ⟨hs.rest_ne_nil, hs.names⟩ ht ho
    refine ⟨ps, hps, fun e v he hv => ?_⟩
    obtain ⟨t, hrun, ht, hto⟩ := h he hv
    exact ⟨_, .enclosed hrun, ht, hto⟩

theorem call {g : Guarded} (hbody : ∀ m, m + 1 = n → Mends prefs P N m (body prefs g) F) :
    Mends prefs P N n (.call g) F := by
  intro s b t h hs ht ho
  cases h with
  | call hso h =>
    obtain ⟨ps, hps, h⟩ := hbody _ rfl h hs ht ho
    refine ⟨ps, hps, fun e v he hv => ?_⟩
    obtain ⟨t, hrun, ht⟩ := h he hv
    exact ⟨t, .call hso hrun, ht⟩
  | refuse => exact absurd ho s.overflow_refuse
  | refused hso => cases ho.symm.trans hso

/-! ### Lists -/

/-- Any number of items, each behind a lexeme of its own. -/
theorem links {c : Test} (hr : Mends prefs P N n r F) (hstraight : r.Meets .straight)
    (hsup : Renews prefs P n r F)
    (hG : ∀ v, G v → F v) (hc : ∀ table v, G v → c.holds table v = false) :
    Mends prefs P N n (.loop c ((Rule.take c).andThen r)) G := by
  have hround : Mends prefs P N n ((Rule.take c).andThen r) F := branchTake hr reject hsup
  exact loop (hround.mono (fun _ => id) (fun _ => id) hG) (.of_straight (by simp [hstraight])) hc

theorem separated (hr : Mends prefs P N n r F) (hstraight : r.Meets .straight)
    (hsup : Renews prefs P n r F)
    (hG : ∀ v, G v → F v) (hcomma : ∀ v, G v → Avoids [.comma] v) :
    Mends prefs P N n (Rule.separated r) G := by
  have hc (table : SymbolTable) (v : List Lexeme) (hv : G v) :
      (Test.kind .comma).holds table v = false := (hcomma v hv).kind (by simp) table
  exact andThen hr (.of_straight hstraight) (links hr hstraight hsup hG hc) (.done hc)
    (.nil hG) (by simp)

theorem delimited {o c : Kind} (hr : Mends prefs P N n r F) (hstraight : r.Meets .straight)
    (hsup : Renews prefs P n r F)
    (hF : ∀ v, Begins c v → F v) (hc : c ≠ .comma) (hP : P (.mark c)) :
    Mends prefs P N n (Rule.delimited o r c) G := by
  have hitems : Mends prefs P N n (.orElse (.peek (.kind c)) (.separated r)) (Begins c) :=
    when accept (separated hr hstraight hsup hF fun v hv => hv.avoids (by simpa using hc))
  have hclosed : Mends prefs P N n
      (.andThen (.orElse (.peek (.kind c)) (.separated r)) (.kind c)) G :=
    andThen hitems (.of_straight (by simp [Rule.separated, hstraight])) (take _) (.kind c)
      (.begins rfl) (by simpa using hP)
  exact takeThen hclosed reject (.closed c) (by simpa using hP)

end Mends
end Grammar
end Recognizer
