import OpenQasm.Parser.Program
import OpenQasm.Proofs.Lexing.Trees
import OpenQasm.Proofs.Parsing.Completeness.Expr

/-!
# Canonical statements are read back

The lexemes of a canonical statement are read as that statement and nothing is
noted on the way. Every statement ends with a semicolon or a brace of its own, so
nothing is asked of what follows it.
-/
namespace OpenQasm.Parser

open Piece Layout

variable {ts rest : List Lexeme} {l : Lexeme}

/-! Parts of statements -/

theorem yields_expression {e : Expr} (he : e.Canonical) {s : Symbol} (hl : l.token = .symbol s)
    (hs : s ≠ .lparen ∧ s ≠ .lbracket ∧ s ≠ .comma) (hop : s.binaryOp? = none)
    (h : Spells (tokens e.layout) ts (l :: rest)) : (expression ts).Yields e (l :: rest) :=
  yields_inner e he h (follows_cons hl hs rest) (nextOp?_symbol hl hop rest)

/-- Registers, or none, up to a semicolon or an arrow. -/
theorem yields_optionalRegisters {qs : List Expr} (hqs : Expr.CanonicalRegisters qs) {s : Symbol}
    (hl : l.token = .symbol s) (hs : s = .semicolon ∨ s = .arrow)
    (h : Spells (tokens (Expr.layoutSuffix qs)) ts (l :: rest)) :
    (optionalRegisters ts).Yields qs (l :: rest) := by
  have hends : endsRegisters (l :: rest) = true ∧ Ends (l :: rest) ∧
      startsWith .comma (l :: rest) = false := by
    refine ⟨?_, ends_cons hl ?_ rest, ?_⟩
    all_goals rcases hs with rfl | rfl <;> simp [endsRegisters, startsWith, hl]
  rw [optionalRegisters]
  cases qs with
  | nil =>
      obtain rfl : ts = l :: rest := h
      rw [if_pos hends.1]
      exact .pure []
  | cons q qs =>
      have hregs := yields_registers (q :: qs) hqs (by simp) h hends.2.1 hends.2.2
      rw [Expr.layoutSuffix, tokens_gap, tokens_append] at h
      obtain ⟨n, l', r, rfl, hl'⟩ := spells_register hqs.1 h
      rw [if_neg (by simp [endsRegisters, hl'])]
      exact hregs

/-- Arguments in parentheses, which may be left out if there are none. -/
theorem yields_optionalArguments {ps : List Expr} (hps : Expr.CanonicalArguments ps)
    {wanted : Bool} (hwanted : wanted = false → ps = [])
    (h : Spells (tokens (parens wanted (Expr.layoutList ps))) ts rest)
    (hrest : startsWith .lparen rest = false) : (optionalArguments ts).Yields ps rest := by
  rw [optionalArguments]
  cases wanted with
  | true =>
      rw [tokens_parens] at h
      have hargs := yields_arguments ps hps h
      obtain ⟨l, r, rfl, hl, -⟩ := h
      rw [if_pos ((startsWith_cons _ _ _).2 hl)]
      exact hargs
  | false =>
      obtain rfl := hwanted rfl
      obtain rfl : ts = rest := h
      rw [hrest]
      exact .pure []

theorem yields_value {e : Expr} (he : e.CanonicalValue) (hl : l.token = .symbol .semicolon)
    (h : Spells (tokens e.layout) ts (l :: rest)) :
    (value ts).Yields e (l :: rest) ∧ startsWith .semicolon ts = false := by
  by_cases hm : ∃ qs, e = .measure qs
  · obtain ⟨qs, rfl⟩ := hm
    obtain ⟨l', r, rfl, hl', h⟩ := h
    rw [value, if_pos hl']
    exact ⟨.next ((yields_optionalRegisters he hl (.inl rfl) h).map _), by simp [startsWith, hl']⟩
  · have he' : e.Canonical := by
      cases e with
      | measure qs => exact absurd ⟨qs, rfl⟩ hm
      | _ => exact he
    have hexpr := yields_expression he' hl (by decide) rfl h
    cases ts with
    | nil => exact ⟨hexpr, rfl⟩
    | cons l' r =>
        have hstart : ∀ {t}, t = .symbol .rparen ∨ t = .symbol .semicolon ∨ t = .keyword .measure →
            l'.token ≠ t := by
          rintro t ht rfl
          exact not_yields_binary ht hexpr
        rw [value, if_neg (hstart (.inr (.inr rfl)))]
        exact ⟨hexpr, by simp [startsWith, hstart (.inr (.inl rfl))]⟩

theorem yields_typeSize {t : TypeSpec} (ht : t.Canonical) {r : List Lexeme}
    (h : Spells (tokens t.layout) (l :: r) rest) (hrest : startsWith .lbracket rest = false) :
    l.token = .typeName t.kind ∧ (typeSize t.kind r).Yields t rest := by
  obtain ⟨kind, size⟩ := t
  cases size with
  | none =>
      obtain ⟨_, _, ⟨⟩, hl, rfl⟩ := h
      refine ⟨hl, ?_⟩
      rw [typeSize, hrest]
      exact .pure _
  | some e =>
      simp only [TypeSpec.layout, sym, tokens_word, tokens_append, tokens_nil] at h
      obtain ⟨_, _, ⟨⟩, hl, l', r', rfl, hl', h⟩ := h
      obtain ⟨_, hsize, l'', _, rfl, hl'', rfl⟩ := spells_append.1 h
      have hexpr := yields_expression (ht e rfl) hl'' (by decide) rfl hsize
      refine ⟨hl, ?_⟩
      rw [typeSize, if_pos ((startsWith_cons _ _ _).2 hl')]
      exact (yields_expect hl' _).andThen fun _ => hexpr.andThen fun _ =>
        (yields_expect hl'' _).map _

theorem spells_typeName {t : TypeSpec} (h : Spells (tokens t.layout) ts rest) :
    ∃ l r, ts = l :: r := by
  obtain ⟨l, r, rfl, -⟩ := h
  exact ⟨l, r, rfl⟩

theorem yields_typeSpec {t : TypeSpec} (ht : t.Canonical) (h : Spells (tokens t.layout) ts rest)
    (hrest : startsWith .lbracket rest = false) : (typeSpec ts).Yields t rest := by
  obtain ⟨l, r, rfl⟩ := spells_typeName h
  obtain ⟨hl, hsize⟩ := yields_typeSize ht h hrest
  rw [typeSpec]
  simp only [hl]
  exact .next hsize

theorem yields_typedName {d : TypedName} (hd : d.Canonical)
    (h : Spells (tokens d.layout) ts rest) : (typedName ts).Yields d rest := by
  rw [TypedName.layout, tokens_append, tokens_gap, tokens_name hd.2, tokens_nil] at h
  obtain ⟨_, htype, l, _, rfl, hl, rfl⟩ := spells_append.1 h
  have hspec := yields_typeSpec hd.1 htype (by simp [startsWith, hl])
  rw [typedName]
  exact hspec.andThen fun _ => (yields_identifier hl _).map _

theorem yields_typedNameTail {ds : List TypedName} (hds : ∀ d ∈ ds, d.Canonical)
    (h : Spells (tokens (ds.flatMap fun e => sym .comma :: .gap :: e.layout)) ts rest)
    (hrest : startsWith .comma rest = false) : (typedNameTail ts).Yields ds rest := by
  induction ds generalizing ts with
  | nil =>
      obtain rfl : ts = rest := h
      cases ts with
      | nil =>
          rw [typedNameTail]
          exact .pure []
      | cons l r =>
          rw [typedNameTail, if_neg (by simpa [startsWith] using hrest)]
          exact .pure []
  | cons d ds ih =>
      simp only [List.flatMap_cons, List.cons_append, sym, tokens_word, tokens_gap,
        tokens_append] at h
      obtain ⟨l, r, rfl, hl, h⟩ := h
      obtain ⟨mid, hd, hothers⟩ := spells_append.1 h
      have hfirst := yields_typedName (hds d List.mem_cons_self) hd
      have htail := ih (fun d' hd' => hds d' (List.mem_cons_of_mem d hd')) hothers
      rw [typedNameTail, if_pos hl]
      exact .next (hfirst.andThen fun _ => htail.map _)

theorem yields_signature {ds : List TypedName} (hds : ∀ d ∈ ds, d.Canonical)
    (h : Spells (tokens (TypedName.layoutList ds) ++ [.symbol .rparen]) ts rest) :
    (signature ts).Yields ds rest := by
  rw [signature]
  cases ds with
  | nil =>
      obtain ⟨l, _, rfl, hl, rfl⟩ := h
      rw [if_pos ((startsWith_cons _ _ _).2 hl)]
      exact (yields_expect hl _).map _
  | cons d ds =>
      rw [TypedName.layoutList, tokens_append, List.append_assoc] at h
      obtain ⟨mid, hd, h⟩ := spells_append.1 h
      obtain ⟨_, hothers, l, _, rfl, hl, rfl⟩ := spells_append.1 h
      have hfirst := yields_typedName (hds d List.mem_cons_self) hd
      have htail := yields_typedNameTail (fun d' hd' => hds d' (List.mem_cons_of_mem d hd')) hothers
        (by simp [startsWith, hl])
      have hstart : startsWith .rparen ts = false := by
        rw [TypedName.layout, tokens_append] at hd
        obtain ⟨l', r, rfl, hl', -⟩ := hd
        simp [startsWith, hl']
      rw [hstart]
      exact hfirst.andThen fun _ => htail.andThen fun _ => (yields_expect hl _).map _

theorem yields_identifierTail {ns : List String} (hns : ∀ n ∈ ns, IsName n)
    (h : Spells (tokens (ns.flatMap fun m => [sym .comma, .gap, named m])) ts rest)
    (hrest : startsWith .comma rest = false) : (identifierTail ts).Yields ns rest := by
  induction ns generalizing ts with
  | nil =>
      obtain rfl : ts = rest := h
      cases ts with
      | nil =>
          rw [identifierTail]
          exact .pure []
      | cons l r =>
          rw [identifierTail, if_neg (by simpa [startsWith] using hrest)]
          exact .pure []
  | cons n ns ih =>
      simp only [List.flatMap_cons, List.cons_append, List.nil_append, sym, tokens_word, tokens_gap,
        tokens_name (hns n List.mem_cons_self)] at h
      obtain ⟨l, _, rfl, hl, l', r, rfl, hl', hothers⟩ := h
      have htail := ih (fun m hm => hns m (List.mem_cons_of_mem n hm)) hothers
      rw [identifierTail, if_pos hl]
      exact .next ((yields_identifier hl' r).andThen fun _ => htail.map _)

/-- Names in a row start with one, and are read up to what is no comma. -/
theorem yields_identifiers {ns : List String} (hns : ∀ n ∈ ns, IsName n) (hne : ns ≠ [])
    (h : Spells (tokens (names ns)) ts rest) (hrest : startsWith .comma rest = false) :
    (identifiers ts).Yields ns rest ∧ ∃ n l r, ts = l :: r ∧ l.token = .ident n := by
  cases ns with
  | nil => exact absurd rfl hne
  | cons n ns =>
      rw [names, tokens_name (hns n List.mem_cons_self)] at h
      obtain ⟨l, r, rfl, hl, hothers⟩ := h
      have htail := yields_identifierTail (fun m hm => hns m (List.mem_cons_of_mem n hm)) hothers
        hrest
      rw [identifiers]
      exact ⟨(yields_identifier hl r).andThen fun _ => htail.map _, n, l, r, rfl, hl⟩

theorem yields_optionalNames {ns : List String} (hns : ∀ n ∈ ns, IsName n)
    (h : Spells (tokens (if ns.isEmpty then [] else parens true (names ns))) ts rest)
    (hrest : startsWith .lparen rest = false) : (optionalNames ts).Yields ns rest := by
  rw [optionalNames]
  cases ns with
  | nil =>
      obtain rfl : ts = rest := h
      rw [hrest]
      exact .pure []
  | cons n ns =>
      rw [List.isEmpty_cons, if_neg (by simp), tokens_parens] at h
      obtain ⟨l, r, rfl, hl, h⟩ := h
      obtain ⟨_, hnames, l', _, rfl, hl', rfl⟩ := spells_append.1 h
      obtain ⟨hids, m, l'', r'', rfl, hl''⟩ :=
        yields_identifiers hns (by simp) hnames (by simp [startsWith, hl'])
      rw [if_pos ((startsWith_cons _ _ _).2 hl)]
      refine (yields_expect hl _).andThen fun _ => ?_
      rw [if_neg (by simp [startsWith, hl''])]
      exact hids.andThen fun _ => (yields_expect hl' _).map _

theorem yields_modifierTail {m : Modifier} (hm : m.Canonical) {l' : Lexeme} {r : List Lexeme}
    (h : Spells (tokens m.layout) (l :: r) (l' :: rest)) (hl' : l'.token = .symbol .atSign) :
    l.token = .modifier m.kind ∧ (modifierTail m.kind r).Yields m rest := by
  obtain ⟨kind, arg⟩ := m
  cases arg with
  | none =>
      obtain ⟨_, _, ⟨⟩, hl, rfl⟩ := h
      refine ⟨hl, ?_⟩
      have hpow : kind ≠ .pow := fun hk => hm.1 hk rfl
      have hparen : ¬startsWith .lparen (l' :: rest) = true := by simp [startsWith, hl']
      rw [Modifier.kind, modifierTail, if_neg hparen, if_neg hpow]
      exact (yields_expect hl' rest).map _
  | some e =>
      rw [Modifier.layout, tokens_word, tokens_parens] at h
      obtain ⟨_, _, ⟨⟩, hl, lo, r', rfl, hlo, h⟩ := h
      obtain ⟨_, harg, lc, _, rfl, hlc, rfl⟩ := spells_append.1 h
      have hexpr := yields_expression (hm.2 e rfl) hlc (by decide) rfl harg
      refine ⟨hl, ?_⟩
      rw [Modifier.kind, modifierTail, if_pos ((startsWith_cons _ _ _).2 hlo)]
      exact (yields_expect hlo _).andThen fun _ => hexpr.andThen fun _ =>
        (yields_expect hlc _).andThen fun _ => (yields_expect hl' rest).map _

theorem spells_modifier {m : Modifier} {tks : List Token}
    (h : Spells (tokens m.layout ++ tks) ts rest) : ∃ l r, ts = l :: r := by
  obtain ⟨kind, _ | e⟩ := m
  · obtain ⟨l, r, rfl, -⟩ := h
    exact ⟨l, r, rfl⟩
  · obtain ⟨l, r, rfl, -⟩ := h
    exact ⟨l, r, rfl⟩

/-- Modifiers in front of something that is none. -/
theorem yields_modifiers {ms : List Modifier} (hms : ∀ m ∈ ms, m.Canonical) {r : List Lexeme}
    (h : Spells (tokens (Modifier.layoutAll ms)) ts (l :: r))
    (hl : ∀ kind, l.token ≠ .modifier kind) : (modifiers ts).Yields ms (l :: r) := by
  induction ms generalizing ts with
  | nil =>
      obtain rfl : ts = l :: r := h
      rw [modifiers]
      split
      · rename_i kind hkind
        exact absurd hkind (hl kind)
      · exact .pure []
  | cons m ms ih =>
      simp only [Modifier.layoutAll, tokens_append, tokens_gap, sym, tokens_word] at h
      obtain ⟨l₁, r₁, rfl⟩ := spells_modifier h
      obtain ⟨_, hm, lat, r', rfl, hlat, hothers⟩ := spells_append.1 h
      obtain ⟨hkind, hfirst⟩ := yields_modifierTail (hms m List.mem_cons_self) hm hlat
      have htail := ih (fun m' hm' => hms m' (List.mem_cons_of_mem m hm')) hothers
      rw [modifiers]
      simp only [hkind]
      exact .next (hfirst.andThen fun _ => htail.map _)

/-! Statements without a body -/

/-- A statement is read from here, and nothing is noted. -/
def Reads (ts : List Lexeme) (s : Stmt) (rest : List Lexeme) : Prop :=
  ∃ l r reply, ts = l :: r ∧ statement l r = some reply ∧ reply.Yields (s, []) rest

theorem yields_noted {α : Type} {a : α} {r : Reply ParseError ts α} (h : r.Yields a rest) :
    r.noted.Yields (a, []) rest :=
  .mapError (h.map _)

/-- What stands after a value that is a statement: an arrow and a target, or nothing. -/
theorem yields_finishValue_expr (e : Expr) (hl : l.token = .symbol .semicolon) :
    (finishValue e (l :: rest)).Yields (.expr e) rest := by
  rw [finishValue, if_neg (by simp [startsWith, hl])]
  exact (yields_expect hl rest).map _

theorem yields_finishValue_arrow (e : Expr) {target : Expr} (ht : target.CanonicalRegister)
    (h : Spells (.symbol .arrow :: (tokens target.layout ++ [.symbol .semicolon])) ts rest) :
    (finishValue e ts).Yields (.arrow e target) rest := by
  obtain ⟨l, r, rfl, hl, h⟩ := h
  obtain ⟨_, htarget, l', _, rfl, hl', rfl⟩ := spells_append.1 h
  have hreg := yields_register target ht htarget (ends_cons hl' (by decide) _)
  rw [finishValue, if_pos ((startsWith_cons _ _ _).2 hl)]
  exact (yields_expect hl r).andThen fun _ => hreg.andThen fun _ => (yields_expect hl' _).map _

theorem yields_applyTail (g : Builtin) (ms : List Modifier) {ps qs : List Expr}
    (hps : Expr.CanonicalArguments ps) (hne : qs ≠ []) (hqs : Expr.CanonicalRegisters qs)
    (h : Spells (tokens ((if ps.isEmpty then [] else parens true (Expr.layoutList ps)) ++
      (Expr.layoutSuffix qs ++ [sym .semicolon]))) ts rest) :
    (applyTail ms g ts).Yields (.apply g ms ps qs) rest := by
  have hparens : (if ps.isEmpty then [] else parens true (Expr.layoutList ps)) =
      parens (!ps.isEmpty) (Expr.layoutList ps) := by
    cases ps <;> rfl
  rw [hparens, tokens_append, tokens_append] at h
  obtain ⟨mid, hargs, h⟩ := spells_append.1 h
  obtain ⟨_, hregs, l, _, rfl, hl, rfl⟩ := spells_append.1 h
  have hregisters := yields_registers qs hqs hne hregs (ends_cons hl (by decide) _)
    (by simp [startsWith, hl])
  have hstart : startsWith .lparen mid = false := by
    cases qs with
    | nil => exact absurd rfl hne
    | cons q qs =>
        rw [Expr.layoutSuffix, tokens_gap, tokens_append] at hregs
        obtain ⟨n, l', r, rfl, hl'⟩ := spells_register hqs.1 hregs
        simp [startsWith, hl']
  have harguments := yields_optionalArguments hps (by simp) hargs hstart
  rw [applyTail]
  exact harguments.andThen fun _ => hregisters.andThen fun _ => (yields_expect hl _).map _

/-- The name of a call is followed by its arguments and registers and by what ends the
statement; it is never followed by what makes it the target of an assignment. -/
theorem yields_callTail (n : String) (ms : List Modifier) {ps qs : List Expr}
    (hps : Expr.CanonicalArguments ps) (hqs : Expr.CanonicalRegisters qs) {s : Symbol}
    (hl : l.token = .symbol s) (hs : s = .semicolon ∨ s = .arrow) {r : List Lexeme} {stmt : Stmt}
    (h : Spells (tokens (parens (!ps.isEmpty || qs.isEmpty) (Expr.layoutList ps) ++
      Expr.layoutSuffix qs)) ts (l :: r))
    (hfinish : (finishValue (.call n ms ps qs) (l :: r)).Yields stmt rest) :
    (callTail ms n ts).Yields stmt rest ∧
      (startsWith .assign ts || startsWith .lbracket ts) = false := by
  rw [tokens_append] at h
  obtain ⟨mid, hargs, hregs⟩ := spells_append.1 h
  have hregisters := yields_optionalRegisters hqs hl hs hregs
  have hmid : startsWith .lparen mid = false ∧ startsWith .assign mid = false ∧
      startsWith .lbracket mid = false := by
    cases qs with
    | nil =>
        obtain rfl : mid = l :: r := hregs
        rcases hs with rfl | rfl <;> simp [startsWith, hl]
    | cons q qs =>
        rw [Expr.layoutSuffix, tokens_gap, tokens_append] at hregs
        obtain ⟨n, l', r, rfl, hl'⟩ := spells_register hqs.1 hregs
        simp [startsWith, hl']
  have hwanted : (!ps.isEmpty || qs.isEmpty) = false → ps = [] := by
    intro hw
    exact (by simpa using hw : ps = [] ∧ qs ≠ []).1
  refine ⟨?_, ?_⟩
  · have harguments := yields_optionalArguments hps hwanted hargs hmid.1
    rw [callTail]
    exact harguments.andThen fun _ => hregisters.andThen fun _ => hfinish
  · cases hw : (!ps.isEmpty || qs.isEmpty) with
    | true =>
        rw [hw, tokens_parens] at hargs
        obtain ⟨l', r', rfl, hl', -⟩ := hargs
        simp [startsWith, hl']
    | false =>
        obtain rfl := hwanted hw
        rw [hw] at hargs
        obtain rfl : ts = mid := hargs
        simp [hmid.2]

/-- A gate application with modifiers before it. -/
theorem reads_modified {ms : List Modifier} (hms : ∀ m ∈ ms, m.Canonical) (hne : ms ≠ [])
    {r : List Lexeme} {s : Stmt} (h : Spells (tokens (Modifier.layoutAll ms)) ts (l :: r))
    (hl : ∀ kind, l.token ≠ .modifier kind) (hs : (gateStatement ms (l :: r)).Yields s rest) :
    Reads ts s rest := by
  cases ms with
  | nil => exact absurd rfl hne
  | cons m ms =>
      simp only [Modifier.layoutAll, tokens_append, tokens_gap, sym, tokens_word] at h
      obtain ⟨l₁, r₁, rfl⟩ := spells_modifier h
      obtain ⟨_, hm, lat, r', rfl, hlat, hothers⟩ := spells_append.1 h
      obtain ⟨hkind, hfirst⟩ := yields_modifierTail (hms m List.mem_cons_self) hm hlat
      have htail := yields_modifiers (fun m' hm' => hms m' (List.mem_cons_of_mem m hm')) hothers hl
      refine ⟨l₁, r₁, _, rfl, by simp only [statement, hkind]; rfl, ?_⟩
      exact yields_noted (hfirst.andThen fun _ => htail.andThen fun _ => hs)

theorem reads_apply {g : Builtin} {ms : List Modifier} {ps qs : List Expr}
    (hs : (Stmt.apply g ms ps qs).Canonical)
    (h : Spells (tokens (Stmt.apply g ms ps qs).layout) ts rest) :
    Reads ts (.apply g ms ps qs) rest := by
  obtain ⟨hms, hps, hne, hqs⟩ := hs
  rw [Stmt.layout, tokens_append, tokens_word] at h
  obtain ⟨_, hmods, l, r, rfl, hl, h⟩ := spells_append.1 h
  have htail := yields_applyTail g ms hps hne hqs h
  cases ms with
  | nil =>
      obtain rfl : ts = l :: r := hmods
      exact ⟨l, r, _, rfl, by simp only [statement, hl], yields_noted htail⟩
  | cons m ms =>
      refine reads_modified hms (by simp) hmods (by simp [hl]) ?_
      rw [gateStatement]
      simp only [hl]
      exact .next htail

/-- An action and what ends its statement. -/
theorem reads_action {e : Expr} (he : e.CanonicalAction) {s : Symbol} {l : Lexeme}
    (hl : l.token = .symbol s) (hs : s = .semicolon ∨ s = .arrow) {r : List Lexeme} {stmt : Stmt}
    (h : Spells (tokens e.layout) ts (l :: r))
    (hfinish : (finishValue e (l :: r)).Yields stmt rest) : Reads ts stmt rest := by
  cases e with
  | call n ms ps qs =>
      obtain ⟨hms, hn, hps, hqs⟩ := he
      rw [Expr.layout, tokens_append, tokens_name hn] at h
      obtain ⟨_, hmods, l', r', rfl, hl', h⟩ := spells_append.1 h
      obtain ⟨htail, hnot⟩ := yields_callTail n ms hps hqs hl hs h hfinish
      cases ms with
      | nil =>
          obtain rfl : ts = l' :: r' := hmods
          refine ⟨l', r', _, rfl, ?_, yields_noted htail⟩
          simp only [statement, hl', hnot]
          rfl
      | cons m ms =>
          refine reads_modified hms (by simp) hmods (by simp [hl']) ?_
          rw [gateStatement]
          simp only [hl']
          exact .next htail
  | measure qs =>
      obtain ⟨l', r', rfl, hl', h⟩ := h
      have hregs := yields_optionalRegisters he hl hs h
      have htail : (measureTail r').Yields stmt rest := by
        rw [measureTail]
        exact hregs.andThen fun _ => hfinish
      exact ⟨l', r', _, rfl, by simp only [statement, hl'], yields_noted htail⟩
  | _ => exact absurd he (by simp [Expr.CanonicalAction])

theorem reads_assign {target e : Expr} (hs : (Stmt.assign target e).Canonical)
    (h : Spells (tokens (Stmt.assign target e).layout) ts rest) :
    Reads ts (.assign target e) rest := by
  obtain ⟨htarget, he⟩ := hs
  simp only [Stmt.layout, tokens_append, tokens_gap, sym, tokens_word, tokens_nil] at h
  obtain ⟨_, hreg, la, r, rfl, hla, h⟩ := spells_append.1 h
  obtain ⟨_, hval, l, last, rfl, hl, rfl⟩ := spells_append.1 h
  have hvalue := (yields_value he hl hval).1
  obtain ⟨n, l', r', rfl, hl', hpos, hr'⟩ :=
    yields_position target htarget hreg (ends_cons hla (by decide) r)
  have hstart : (startsWith .assign r' || startsWith .lbracket r') = true := by
    rcases hr' with rfl | hr'
    · simp [startsWith, hla]
    · simp [hr']
  have htail : (assignTail n r').Yields (.assign target e) last := by
    rw [assignTail]
    exact hpos.andThen fun _ => (yields_expect hla r).andThen fun _ => hvalue.andThen fun _ =>
      (yields_expect hl _).map _
  refine ⟨l', r', _, rfl, ?_, yields_noted htail⟩
  simp only [statement, hl', hstart]
  rfl

theorem reads_version {v : String} (hv : (Token.float v).Genuine ∨ (Token.int v).Genuine)
    (h : Spells (tokens (Stmt.version v).layout) ts rest) : Reads ts (.version v) rest := by
  have hnumber : number v = .word (.float v) ∨ number v = .word (.int v) :=
    hv.imp number_float number_int
  have htail : ∀ {l r}, Spells (tokens [number v, sym .semicolon]) (l :: r) rest →
      (versionTail (l :: r)).Yields (.version v) rest := by
    intro l r h
    rcases hnumber with hn | hn
    · rw [hn] at h
      obtain ⟨_, _, ⟨⟩, hl, l', _, rfl, hl', rfl⟩ := h
      rw [versionTail]
      simp only [hl]
      exact .next ((yields_expect hl' _).map _)
    · rw [hn] at h
      obtain ⟨_, _, ⟨⟩, hl, l', _, rfl, hl', rfl⟩ := h
      rw [versionTail]
      simp only [hl]
      exact .next ((yields_expect hl' _).map _)
  obtain ⟨l, r, rfl, hl, h⟩ := h
  obtain ⟨l', r', rfl⟩ : ∃ l' r', r = l' :: r' := by
    rcases hnumber with hn | hn
    all_goals
      rw [hn] at h
      obtain ⟨l', r', rfl, -⟩ := h
      exact ⟨l', r', rfl⟩
  exact ⟨l, _, _, rfl, by simp only [statement, hl], yields_noted (htail h)⟩

theorem reads_includes {path : String} (h : Spells (tokens (Stmt.includes path).layout) ts rest) :
    Reads ts (.includes path) rest := by
  obtain ⟨l, _, rfl, hl, l', _, rfl, hl', l'', last, rfl, hl'', rfl⟩ := h
  have htail : (includeTail (l' :: l'' :: last)).Yields (.includes path) last := by
    rw [includeTail]
    simp only [hl']
    exact .next ((yields_expect hl'' last).map _)
  exact ⟨l, _, _, rfl, by simp only [statement, hl], yields_noted htail⟩

theorem reads_declare {d : TypedName} (hd : d.Canonical)
    (h : Spells (tokens (Stmt.declare d).layout) ts rest) : Reads ts (.declare d) rest := by
  obtain ⟨type, name⟩ := d
  rw [Stmt.layout, TypedName.layout, tokens_append, tokens_append, tokens_gap, tokens_name hd.2,
    List.append_assoc] at h
  obtain ⟨_, htype, l', _, rfl, hl', l'', last, rfl, hl'', rfl⟩ := spells_append.1 h
  obtain ⟨l, r, rfl⟩ := spells_typeName htype
  obtain ⟨hl, hsize⟩ := yields_typeSize hd.1 htype (by simp [startsWith, hl'])
  have htail : (declareTail type.kind r).Yields (.declare ⟨type, name⟩) last := by
    rw [declareTail]
    exact hsize.andThen fun _ => (yields_identifier hl' _).andThen fun _ =>
      (yields_expect hl'' last).map _
  exact ⟨l, r, _, rfl, by simp only [statement, hl], yields_noted htail⟩

theorem yields_optionalType {type : Option TypeSpec} {n : String} (hl : l.token = .ident n)
    (h : Spells (tokens (match type with
      | none => []
      | some t => t.layout ++ [.gap])) ts (l :: rest)) (ht : ∀ t ∈ type, t.Canonical) :
    (optionalType ts).Yields type (l :: rest) := by
  cases type with
  | none =>
      obtain rfl : ts = l :: rest := h
      rw [optionalType]
      simp only [hl]
      exact .pure none
  | some t =>
      simp only [tokens_append, tokens_gap, tokens_nil, List.append_nil] at h
      obtain ⟨l', r, rfl⟩ := spells_typeName h
      obtain ⟨hl', hsize⟩ := yields_typeSize (ht t rfl) h (by simp [startsWith, hl])
      rw [optionalType]
      simp only [hl']
      exact .next (hsize.map _)

theorem reads_const {type : Option TypeSpec} {n : String} {e : Expr}
    (hs : (Stmt.const type n e).Canonical)
    (h : Spells (tokens (Stmt.const type n e).layout) ts rest) : Reads ts (.const type n e) rest := by
  obtain ⟨htype, hn, he⟩ := hs
  simp only [Stmt.layout, tokens_word, tokens_gap, tokens_append, tokens_name hn, sym,
    tokens_nil] at h
  obtain ⟨l, r, rfl, hl, h⟩ := h
  obtain ⟨_, ht, ln, _, rfl, hln, la, _, rfl, hla, h⟩ := spells_append.1 h
  obtain ⟨_, hval, l', last, rfl, hl', rfl⟩ := spells_append.1 h
  have hoptional := yields_optionalType hln ht htype
  have hexpr := yields_expression he hl' (by decide) rfl hval
  have htail : (constTail r).Yields (.const type n e) last := by
    rw [constTail]
    exact hoptional.andThen fun _ => (yields_identifier hln _).andThen fun _ =>
      (yields_expect hla _).andThen fun _ => hexpr.andThen fun _ => (yields_expect hl' last).map _
  exact ⟨l, r, _, rfl, by simp only [statement, hl], yields_noted htail⟩

theorem reads_returns {e : Option Expr} (he : ∀ v ∈ e, v.CanonicalValue)
    (h : Spells (tokens (Stmt.returns e).layout) ts rest) : Reads ts (.returns e) rest := by
  cases e with
  | none =>
      obtain ⟨l, _, rfl, hl, l', last, rfl, hl', rfl⟩ := h
      have htail : (returnTail (l' :: last)).Yields (.returns none) last := by
        rw [returnTail, if_pos ((startsWith_cons _ _ _).2 hl')]
        exact (yields_expect hl' last).map _
      exact ⟨l, _, _, rfl, by simp only [statement, hl], yields_noted htail⟩
  | some e =>
      simp only [Stmt.layout, tokens_word, tokens_gap, tokens_append, sym, tokens_nil] at h
      obtain ⟨l, r, rfl, hl, h⟩ := h
      obtain ⟨_, hval, l', last, rfl, hl', rfl⟩ := spells_append.1 h
      obtain ⟨hvalue, hstart⟩ := yields_value (he e rfl) hl' hval
      have htail : (returnTail r).Yields (.returns (some e)) last := by
        rw [returnTail, hstart]
        exact hvalue.andThen fun _ => (yields_expect hl' last).map _
      exact ⟨l, r, _, rfl, by simp only [statement, hl], yields_noted htail⟩

theorem reads_reset {qs : List Expr} (hne : qs ≠ []) (hqs : Expr.CanonicalRegisters qs)
    (h : Spells (tokens (Stmt.reset qs).layout) ts rest) : Reads ts (.reset qs) rest := by
  simp only [Stmt.layout, tokens_word, tokens_append, sym, tokens_nil] at h
  obtain ⟨l, r, rfl, hl, h⟩ := h
  obtain ⟨_, hregs, l', last, rfl, hl', rfl⟩ := spells_append.1 h
  have hregisters := yields_registers qs hqs hne hregs (ends_cons hl' (by decide) _)
    (by simp [startsWith, hl'])
  have htail : (resetTail r).Yields (.reset qs) last := by
    rw [resetTail]
    exact hregisters.andThen fun _ => (yields_expect hl' last).map _
  exact ⟨l, r, _, rfl, by simp only [statement, hl], yields_noted htail⟩

theorem reads_print {es : List Expr} (hes : Expr.CanonicalRegisters es)
    (h : Spells (tokens (Stmt.print es).layout) ts rest) : Reads ts (.print es) rest := by
  simp only [Stmt.layout, tokens_word, tokens_append, sym, tokens_nil] at h
  obtain ⟨l, r, rfl, hl, h⟩ := h
  obtain ⟨_, hregs, l', last, rfl, hl', rfl⟩ := spells_append.1 h
  have htail : (printTail r).Yields (.print es) last := by
    rw [printTail]
    cases es with
    | nil =>
        obtain rfl : r = l' :: last := hregs
        rw [if_pos ((startsWith_cons _ _ _).2 hl')]
        exact (yields_expect hl' last).map _
    | cons e es =>
        have hregisters := yields_registers (e :: es) hes (by simp) hregs
          (ends_cons hl' (by decide) _) (by simp [startsWith, hl'])
        rw [Expr.layoutSuffix, tokens_gap, tokens_append] at hregs
        obtain ⟨n, l'', r', rfl, hl''⟩ := spells_register hes.1 hregs
        rw [if_neg (by simp [startsWith, hl''])]
        exact hregisters.andThen fun _ => (yields_expect hl' last).map _
  exact ⟨l, r, _, rfl, by simp only [statement, hl], yields_noted htail⟩

/-! Definitions and blocks -/

theorem yields_gateHeader {n : String} (hn : IsName n) {ps qs : List String}
    (hps : ∀ p ∈ ps, IsName p) (hne : qs ≠ []) (hqs : ∀ q ∈ qs, IsName q)
    (hl : l.token = .symbol .lbrace)
    (h : Spells (tokens (named n :: ((if ps.isEmpty then [] else parens true (names ps)) ++
      .gap :: names qs))) ts (l :: rest)) :
    (gateHeader ts).Yields (n, ps, qs) (l :: rest) := by
  rw [tokens_name hn, tokens_append, tokens_gap] at h
  obtain ⟨l', r, rfl, hl', h⟩ := h
  obtain ⟨mid, hparams, hqargs⟩ := spells_append.1 h
  obtain ⟨hids, m, l'', r'', rfl, hl''⟩ :=
    yields_identifiers hqs hne hqargs (by simp [startsWith, hl])
  have hnames := yields_optionalNames hps hparams (by simp [startsWith, hl''])
  rw [gateHeader]
  exact (yields_identifier hl' r).andThen fun _ => hnames.andThen fun _ => hids.map _

/-- The result of a subroutine stands between an arrow and a brace. -/
theorem yields_optionalResult {result : Option TypeSpec} (hl : l.token = .symbol .lbrace)
    (h : Spells (tokens (match result with
      | none => []
      | some t => .gap :: sym .arrow :: .gap :: t.layout)) ts (l :: rest))
    (ht : ∀ t ∈ result, t.Canonical) :
    (optionalResult ts).Yields result (l :: rest) ∧
      ∃ l' r s, ts = l' :: r ∧ l'.token = .symbol s ∧ s ≠ .comma := by
  rw [optionalResult]
  cases result with
  | none =>
      obtain rfl : ts = l :: rest := h
      rw [if_neg (by simp [startsWith, hl])]
      exact ⟨.pure none, l, rest, _, rfl, hl, by decide⟩
  | some t =>
      obtain ⟨l', r, rfl, hl', h⟩ := h
      have hspec := yields_typeSpec (ht t rfl) h (by simp [startsWith, hl])
      rw [if_pos ((startsWith_cons _ _ _).2 hl')]
      exact ⟨(yields_expect hl' r).andThen fun _ => hspec.map _, l', r, _, rfl, hl', by decide⟩

theorem yields_optionalIdentifiers {qs : List String} (hqs : ∀ q ∈ qs, IsName q) {s : Symbol}
    (hl : l.token = .symbol s) (hs : s ≠ .comma)
    (h : Spells (tokens (if qs.isEmpty then [] else .gap :: names qs)) ts (l :: rest)) :
    (optionalIdentifiers ts).Yields qs (l :: rest) := by
  cases qs with
  | nil =>
      obtain rfl : ts = l :: rest := h
      rw [optionalIdentifiers]
      simp only [hl]
      exact .pure []
  | cons q qs =>
      rw [List.isEmpty_cons, if_neg (by simp), tokens_gap] at h
      obtain ⟨hids, n, l', r, rfl, hl'⟩ :=
        yields_identifiers hqs (by simp) h (by simp [startsWith, hl, hs])
      rw [optionalIdentifiers]
      simp only [hl']
      exact hids

theorem yields_subroutineHeader {n : String} (hn : IsName n) {ps : List TypedName}
    {qs : List String} {result : Option TypeSpec} (hps : ∀ d ∈ ps, d.Canonical)
    (hqs : ∀ q ∈ qs, IsName q) (hl : l.token = .symbol .lbrace)
    (h : Spells (tokens (named n :: (parens true (TypedName.layoutList ps) ++
      ((if qs.isEmpty then [] else .gap :: names qs) ++
        match result with
        | none => []
        | some t => .gap :: sym .arrow :: .gap :: t.layout)))) ts (l :: rest))
    (ht : ∀ t ∈ result, t.Canonical) :
    (subroutineHeader ts).Yields (n, ps, qs, result) (l :: rest) := by
  rw [tokens_name hn, tokens_append, tokens_append, tokens_parens] at h
  obtain ⟨ln, _, rfl, hln, lo, _, rfl, hlo, h⟩ := h
  obtain ⟨mid, hparams, h⟩ := spells_append.1 h
  obtain ⟨mid', hqargs, hresult⟩ := spells_append.1 h
  have hsignature := yields_signature hps hparams
  obtain ⟨hoptional, l', r, s, rfl, hl', hs⟩ := yields_optionalResult hl hresult ht
  have hidentifiers := yields_optionalIdentifiers hqs hl' hs hqargs
  rw [subroutineHeader]
  exact (yields_identifier hln _).andThen fun _ => (yields_expect hlo _).andThen fun _ =>
    hsignature.andThen fun _ => hidentifiers.andThen fun _ => hoptional.map _

/-- Where statements in a row end. -/
def StopsAt (inBlock : Bool) (rest : List Lexeme) : Prop :=
  match inBlock with
  | true => startsWith .rbrace rest = true
  | false => rest = []

theorem statements_stop {inBlock : Bool} (opening : Bool) (h : StopsAt inBlock ts) :
    (statements inBlock opening ts).statements = [] ∧
      (statements inBlock opening ts).errors = [] ∧
      (statements inBlock opening ts).rest = ts := by
  cases inBlock with
  | false =>
      obtain rfl : ts = [] := h
      rw [statements]
      exact ⟨rfl, rfl, rfl⟩
  | true =>
      cases ts with
      | nil => cases h
      | cons l r =>
          have hl := (startsWith_cons _ _ _).1 h
          rw [statements, if_pos (by simp [hl])]
          exact ⟨rfl, rfl, rfl⟩

/-- A statement that is read comes first, and the others follow. -/
theorem statements_step (inBlock opening : Bool) {s : Stmt} (h : Reads ts s rest)
    (hs : isVersion s = true → opening = true) :
    (statements inBlock opening ts).statements = s :: (statements inBlock false rest).statements ∧
      (statements inBlock opening ts).errors = (statements inBlock false rest).errors ∧
      (statements inBlock opening ts).rest = (statements inBlock false rest).rest := by
  obtain ⟨l, r, reply, rfl, hreply, hs'⟩ := h
  have hbrace : ¬(inBlock && decide (l.token = .symbol .rbrace)) = true := by
    intro hbrace
    simp only [Bool.and_eq_true, decide_eq_true_eq] at hbrace
    simp [statement, hbrace.2] at hreply
  have hversion : ¬(isVersion s && !opening) = true := by
    intro hversion
    simp only [Bool.and_eq_true, Bool.not_eq_true'] at hversion
    have := hs hversion.1
    simp_all
  cases reply with
  | fail => exact absurd hs' id
  | done value left le =>
      obtain ⟨rfl, rfl⟩ := hs'
      rw [statements, if_neg hbrace, hreply]
      dsimp only
      rw [if_neg hversion]
      exact ⟨rfl, rfl, rfl⟩

/-- The statements of a body are read up to its brace. -/
theorem statements_body (inBlock : Bool) {ss : List Stmt} (hss : Stmt.CanonicalBody ss)
    (hreads : ∀ s ∈ ss, ∀ {ts rest}, Spells (tokens s.layout) ts rest → Reads ts s rest)
    (hrest : StopsAt inBlock rest) (h : Spells (ss.flatMap Stmt.tokens) ts rest) :
    (statements inBlock false ts).statements = ss ∧ (statements inBlock false ts).errors = [] ∧
      (statements inBlock false ts).rest = rest := by
  induction ss generalizing ts with
  | nil =>
      obtain rfl : ts = rest := h
      exact statements_stop false hrest
  | cons s ss ih =>
      rw [List.flatMap_cons] at h
      obtain ⟨mid, hs, hothers⟩ := spells_append.1 h
      have hread := hreads s List.mem_cons_self hs
      obtain ⟨hstmts, herrors, hleft⟩ := statements_step inBlock false hread (by simp [hss.2.1])
      obtain ⟨hstmts', herrors', hleft'⟩ :=
        ih hss.2.2 (fun s' hs' => hreads s' (List.mem_cons_of_mem s hs')) hothers
      rw [hstmts, herrors, hleft, hstmts', herrors', hleft']
      exact ⟨rfl, rfl, rfl⟩

theorem tokens_layoutBody (ss : List Stmt) :
    tokens (Stmt.layoutBody ss) = ss.flatMap Stmt.tokens ++ [.symbol .rbrace] := by
  induction ss with
  | nil => rfl
  | cons s ss ih =>
      rw [Stmt.layoutBody, tokens_gap, tokens_append, ih, List.flatMap_cons, List.append_assoc,
        Stmt.tokens]

theorem yields_block {ss : List Stmt} (hss : Stmt.CanonicalBody ss)
    (hreads : ∀ s ∈ ss, ∀ {ts rest}, Spells (tokens s.layout) ts rest → Reads ts s rest)
    (h : Spells (tokens (Stmt.layoutBody ss)) ts rest) : (block ts).Yields (ss, []) rest := by
  rw [tokens_layoutBody] at h
  obtain ⟨_, hbody, l, last, rfl, hl, rfl⟩ := spells_append.1 h
  obtain ⟨hstmts, herrors, hleft⟩ :=
    statements_body true hss hreads ((startsWith_cons _ _ _).2 hl) hbody
  rw [block]
  refine Reply.Yields.later (.mapError ?_) _
  rw [hstmts, herrors, hleft]
  exact (yields_expect hl last).map _

theorem yields_body {ss : List Stmt} (hss : Stmt.CanonicalBody ss)
    (hreads : ∀ s ∈ ss, ∀ {ts rest}, Spells (tokens s.layout) ts rest → Reads ts s rest)
    {r : List Lexeme} (hl : l.token = .symbol .lbrace)
    (h : Spells (tokens (Stmt.layoutBody ss)) r rest) : (body (l :: r)).Yields (ss, []) rest := by
  rw [body, if_pos hl]
  exact .next (yields_block hss hreads h)

theorem tokens_gate (n : String) (ps qs : List String) (ss : List Stmt) :
    tokens (Stmt.gate n ps qs ss).layout = .keyword .gate ::
      (tokens (named n :: ((if ps.isEmpty then [] else parens true (names ps)) ++
        .gap :: names qs)) ++ .symbol .lbrace :: tokens (Stmt.layoutBody ss)) := by
  simp [Stmt.layout, named, sym]

theorem tokens_subroutine (n : String) (ps : List TypedName) (qs : List String)
    (result : Option TypeSpec) (ss : List Stmt) :
    tokens (Stmt.subroutine n ps qs result ss).layout = .keyword .defn ::
      (tokens (named n :: (parens true (TypedName.layoutList ps) ++
        ((if qs.isEmpty then [] else .gap :: names qs) ++
          match result with
          | none => []
          | some t => .gap :: sym .arrow :: .gap :: t.layout))) ++
        .symbol .lbrace :: tokens (Stmt.layoutBody ss)) := by
  cases result <;> simp [Stmt.layout, named, sym]

theorem reads_gate {n : String} {ps qs : List String} {ss : List Stmt} {r mid : List Lexeme}
    (hl : l.token = .keyword .gate) (hheader : (gateHeader r).Yields (n, ps, qs) mid)
    (hbody : (body mid).Yields (ss, []) rest) : Reads (l :: r) (.gate n ps qs ss) rest := by
  refine ⟨l, r, _, rfl, by simp only [statement, hl]; rfl, ?_⟩
  exact hheader.mapError.andThen fun _ => hbody.map _

theorem reads_subroutine {n : String} {ps : List TypedName} {qs : List String}
    {result : Option TypeSpec} {ss : List Stmt} {r mid : List Lexeme}
    (hl : l.token = .keyword .defn)
    (hheader : (subroutineHeader r).Yields (n, ps, qs, result) mid)
    (hbody : (body mid).Yields (ss, []) rest) :
    Reads (l :: r) (.subroutine n ps qs result ss) rest := by
  refine ⟨l, r, _, rfl, by simp only [statement, hl]; rfl, ?_⟩
  exact hheader.mapError.andThen fun _ => hbody.map _

theorem reads_block {ss : List Stmt} {r : List Lexeme} (hl : l.token = .symbol .lbrace)
    (h : (block r).Yields (ss, []) rest) : Reads (l :: r) (.block ss) rest := by
  refine ⟨l, r, _, rfl, by simp only [statement, hl]; rfl, ?_⟩
  exact h.map _

theorem canonical_of_mem {ss : List Stmt} (hss : Stmt.CanonicalBody ss) :
    ∀ s ∈ ss, s.Canonical := by
  induction ss with
  | nil => simp
  | cons s ss ih =>
      intro s' hs'
      rcases List.mem_cons.1 hs' with rfl | hs'
      · exact hss.1
      · exact ih hss.2.2 s' hs'

/-- The lexemes of a canonical statement are read as that statement. -/
theorem reads_statement (s : Stmt) (hs : s.Canonical) {ts rest : List Lexeme}
    (h : Spells (tokens s.layout) ts rest) : Reads ts s rest := by
  cases s with
  | version v => exact reads_version hs h
  | includes path => exact reads_includes h
  | declare d => exact reads_declare hs h
  | const type n e => exact reads_const hs h
  | gate n ps qs ss =>
      obtain ⟨hn, hps, ⟨hne, hqs⟩, hbody⟩ := hs
      rw [tokens_gate] at h
      obtain ⟨l, r, rfl, hl, h⟩ := h
      obtain ⟨_, hheader, lb, rb, rfl, hlb, hblock⟩ := spells_append.1 h
      exact reads_gate hl (yields_gateHeader hn hps hne hqs hlb hheader) (yields_body hbody
        (fun s' hs' {_ _} h' => reads_statement s' (canonical_of_mem hbody s' hs') h') hlb hblock)
  | subroutine n ps qs result ss =>
      obtain ⟨hn, hps, hqs, hresult, hbody⟩ := hs
      rw [tokens_subroutine] at h
      obtain ⟨l, r, rfl, hl, h⟩ := h
      obtain ⟨_, hheader, lb, rb, rfl, hlb, hblock⟩ := spells_append.1 h
      exact reads_subroutine hl (yields_subroutineHeader hn hps hqs hlb hheader hresult)
        (yields_body hbody (fun s' hs' {_ _} h' =>
          reads_statement s' (canonical_of_mem hbody s' hs') h') hlb hblock)
  | returns e => exact reads_returns hs h
  | arrow e target =>
      obtain ⟨he, htarget⟩ := hs
      simp only [Stmt.layout, tokens_append, tokens_gap, sym, tokens_word, tokens_nil] at h
      obtain ⟨mid, haction, h⟩ := spells_append.1 h
      have hfinish := yields_finishValue_arrow e htarget h
      obtain ⟨l, r, rfl, hl, -⟩ := h
      exact reads_action he hl (.inr rfl) haction hfinish
  | assign target e => exact reads_assign hs h
  | reset qs => exact reads_reset hs.1 hs.2 h
  | print es => exact reads_print hs h
  | apply g ms ps qs => exact reads_apply hs h
  | expr e =>
      rw [Stmt.layout, tokens_append] at h
      obtain ⟨_, haction, l, last, rfl, hl, rfl⟩ := spells_append.1 h
      exact reads_action hs hl (.inl rfl) haction (yields_finishValue_expr e hl)
  | block ss =>
      obtain ⟨l, r, rfl, hl, h⟩ := h
      exact reads_block hl (yields_block hs
        (fun s' hs' {_ _} h' => reads_statement s' (canonical_of_mem hs s' hs') h') h)
termination_by sizeOf s

/-- The lexemes of a canonical program are read as that program, without errors. -/
theorem statements_program {p : Program} (hp : p.Canonical)
    (h : Spells (p.statements.flatMap Stmt.tokens) ts []) :
    (statements false true ts).statements = p.statements ∧
      (statements false true ts).errors = [] := by
  obtain ⟨ss⟩ := p
  cases ss with
  | nil =>
      obtain rfl : ts = [] := h
      rw [statements]
      exact ⟨rfl, rfl⟩
  | cons s ss =>
      rw [List.flatMap_cons] at h
      obtain ⟨mid, hs, hothers⟩ := spells_append.1 h
      obtain ⟨hstmts, herrors, -⟩ := statements_step false true
        (reads_statement s hp.1 hs) (fun _ => rfl)
      obtain ⟨hstmts', herrors', -⟩ := statements_body false hp.2
        (fun s' hs' {_ _} h' => reads_statement s' (canonical_of_mem hp.2 s' hs') h') rfl hothers
      rw [hstmts, herrors, hstmts', herrors']
      exact ⟨rfl, rfl⟩

end OpenQasm.Parser
