import OpenQasm.Proofs.Lexing.Pieces
import OpenQasm.Proofs.Parsing.Canonical

/-!
# Cutting the text of a tree

The text of a canonical tree is cut into the tokens of its layout. A statement
ends with a symbol, so the text of a program is cut statement by statement.
-/
namespace OpenQasm

open Piece Layout

theorem selfReading_genuine {t : Token} (h : t.Genuine)
    (ht : (∃ n, t = .ident n) ∨ (∃ s, t = .int s) ∨ ∃ s, t = .float s) : t.SelfReading := by
  rcases ht with ⟨n, rfl⟩ | ⟨s, rfl⟩ | ⟨s, rfl⟩
  · have := Token.selfReading_word h.1 (by rw [h.2]; rfl)
    rwa [h.2] at this
  · exact Token.selfReading_number h
  · exact Token.selfReading_number h

/-- A name, or the word of a constant, in front of pieces that open. -/
theorem lexes_named {n : String} (hn : IsName n ∨ ∃ c : MathConstant, n = c.text)
    {ps : List Piece} (hp : Lexes ps) (ho : Opening ps) : Lexes (named n :: ps) := by
  rcases hn with hn | ⟨c, rfl⟩
  · have hself := selfReading_genuine hn (.inl ⟨n, rfl⟩)
    rw [named, hn.2]
    exact .word hself rfl hp ho
  · have hres := Token.reserved_constant c
    have hword : Token.ofWord c.text = .constant c := (Token.reserved_spelling _ hres).1
    rw [named, hword]
    exact .word (Token.selfReading_reserved hres) rfl hp ho

theorem lexes_name {n : String} (hn : IsName n) {ps : List Piece} (hp : Lexes ps)
    (ho : Opening ps) : Lexes (named n :: ps) :=
  lexes_named (.inl hn) hp ho

theorem lexes_sym {s : Symbol} (h : s ≠ .slash) {ps : List Piece} (hp : Lexes ps) :
    Lexes (sym s :: ps) :=
  .closed (closed_sym h) hp

theorem lexes_gap {ps : List Piece} (hp : Lexes ps) : Lexes (gap :: ps) := .closed closed_gap hp

theorem lexes_single {s : Symbol} (h : s ≠ .slash) : Lexes [sym s] := lexes_sym h .nil

theorem lexes_parens {ps : List Piece} (hp : Lexes ps) (wanted : Bool) :
    Lexes (parens wanted ps) := by
  cases wanted with
  | false => exact hp
  | true =>
      have hclose : Lexes [sym .rparen] := lexes_single (by decide)
      exact lexes_sym (by decide) (hp.append hclose (.sym (by decide) []))

theorem lexes_literal {l : Literal} (hl : l.Canonical) : Lexes [literal l] := by
  obtain ⟨kind, text⟩ := l
  cases kind with
  | int => exact lexes_word (selfReading_genuine hl (.inr (.inl ⟨text, rfl⟩))) rfl
  | float => exact lexes_word (selfReading_genuine hl (.inr (.inr ⟨text, rfl⟩))) rfl
  | string => exact .closed (closed_quoted hl) .nil

theorem opening_tail (es : List Expr) : Opening (Expr.layoutTail es) := by
  cases es with
  | nil => exact .nil
  | cons e es => exact .sym (by decide) _

theorem opening_suffix (es : List Expr) : Opening (Expr.layoutSuffix es) := by
  cases es with
  | nil => exact .nil
  | cons e es => exact .gap _

/-- What follows the name of a call opens: a bracket, a gap, or nothing. -/
theorem opening_arguments (ps qs : List Expr) :
    Opening (parens (!ps.isEmpty || qs.isEmpty) (Expr.layoutList ps) ++ Expr.layoutSuffix qs) := by
  cases ps with
  | nil =>
      cases qs with
      | nil => exact .sym (by decide) _
      | cons q qs => exact .gap _
  | cons p ps => exact .sym (by decide) _

mutual

theorem Expr.lexes_layout : (e : Expr) → e.Canonical → Lexes e.layout
  | .ident n, h => lexes_named h .nil .nil
  | .index n i, h => by
      have hclose : Lexes [sym .rbracket] := lexes_single (by decide)
      have hi := (i.lexes_layout h.2).append hclose (.sym (by decide) [])
      rw [Expr.layout]
      exact lexes_name h.1 (lexes_sym (by decide) hi) (.sym (by decide) _)
  | .lit l, h => lexes_literal h
  | .binary op l r, h => by
      have hl := l.lexes_layout h.1
      have hr := lexes_gap (lexes_parens (r.lexes_layout h.2.1) (r.looser (op.precedence + 1)))
      have hop : Lexes (gap :: sym op.symbol :: gap :: _) :=
        lexes_gap (.word (Token.selfReading_symbol op.symbol) rfl hr (.gap _))
      rw [Expr.layout]
      exact (lexes_parens hl _).append hop (.gap _)
  | .unary op e, h => by
      have he := lexes_parens (e.lexes_layout h.1) (e.looser UnaryOp.precedence)
      rw [Expr.layout]
      cases op with
      | neg => exact lexes_sym (by decide) he
      | pos => exact lexes_sym (by decide) he
  | .call n ms ps qs, h => by
      obtain ⟨rfl, hn, hps, hqs⟩ := h
      have hargs := lexes_parens (Expr.lexes_layoutList ps hps) (!ps.isEmpty || qs.isEmpty)
      have hsuffix := hargs.append (Expr.lexes_layoutSuffix qs hqs) (opening_suffix qs)
      rw [Expr.layout]
      exact lexes_name hn hsuffix (opening_arguments ps qs)
  | .measure qs, h => absurd h id
  | .paren e, h => lexes_parens (e.lexes_layout h) true

theorem Expr.lexes_layoutList : (es : List Expr) → Expr.CanonicalArguments es →
    Lexes (Expr.layoutList es)
  | [], _ => .nil
  | e :: es, h =>
      (e.lexes_layout h.1).append (Expr.lexes_argumentTail es h.2.2) (opening_tail es)

theorem Expr.lexes_argumentTail : (es : List Expr) → Expr.CanonicalArguments es →
    Lexes (Expr.layoutTail es)
  | [], _ => .nil
  | e :: es, h =>
      lexes_sym (by decide) (lexes_gap
        ((e.lexes_layout h.1).append (Expr.lexes_argumentTail es h.2.2) (opening_tail es)))

theorem Expr.lexes_registerTail : (es : List Expr) → Expr.CanonicalRegisters es →
    Lexes (Expr.layoutTail es)
  | [], _ => .nil
  | e :: es, h =>
      lexes_sym (by decide) (lexes_gap
        ((e.lexes_layout h.1.canonical).append (Expr.lexes_registerTail es h.2) (opening_tail es)))

theorem Expr.lexes_layoutSuffix : (es : List Expr) → Expr.CanonicalRegisters es →
    Lexes (Expr.layoutSuffix es)
  | [], _ => .nil
  | e :: es, h =>
      lexes_gap
        ((e.lexes_layout h.1.canonical).append (Expr.lexes_registerTail es h.2) (opening_tail es))

end

theorem lexes_reserved {t : Token} (h : (t.text, t) ∈ Token.reserved) (ht : t.isTrivia = false)
    {ps : List Piece} (hp : Lexes ps) (ho : Opening ps) : Lexes (.word t :: ps) :=
  .word (Token.selfReading_reserved h) ht hp ho

theorem Modifier.lexes_layout {m : Modifier} (h : m.Canonical) : Lexes m.layout := by
  obtain ⟨kind, arg⟩ := m
  cases arg with
  | none => exact lexes_reserved (Token.reserved_modifier kind) rfl .nil .nil
  | some e =>
      have he := lexes_parens (e.lexes_layout (h.2 e rfl)) true
      exact lexes_reserved (Token.reserved_modifier kind) rfl he (.sym (by decide) _)

theorem lexes_modifiers {ms : List Modifier} (h : ∀ m ∈ ms, m.Canonical) {ps : List Piece}
    (hp : Lexes ps) : Lexes (Modifier.layoutAll ms ++ ps) := by
  induction ms with
  | nil => exact hp
  | cons m ms ih =>
      have hm := Modifier.lexes_layout (h m (by simp))
      have hms := ih fun m' hm' => h m' (by simp [hm'])
      have hat : Lexes (gap :: sym .atSign :: gap :: (Modifier.layoutAll ms ++ ps)) :=
        lexes_gap (lexes_sym (by decide) (lexes_gap hms))
      rw [Modifier.layoutAll, List.append_assoc]
      exact hm.append hat (.gap _)

theorem Expr.lexes_action {e : Expr} (h : e.CanonicalAction) : Lexes e.layout := by
  cases e with
  | call n ms ps qs =>
      obtain ⟨hms, hn, hps, hqs⟩ := h
      have hcall := (Expr.call n [] ps qs).lexes_layout ⟨rfl, hn, hps, hqs⟩
      rw [Expr.layout]
      exact lexes_modifiers hms hcall
  | measure qs =>
      rw [Expr.layout]
      exact lexes_reserved (Token.reserved_keyword _) rfl (Expr.lexes_layoutSuffix qs h)
        (opening_suffix qs)
  | _ => exact absurd h id

theorem Expr.lexes_value {e : Expr} (h : e.CanonicalValue) : Lexes e.layout := by
  cases e with
  | measure qs => exact Expr.lexes_action h
  | _ => exact Expr.lexes_layout _ h

theorem lexes_names {n : String} {ns : List String} (hn : ∀ m ∈ n :: ns, IsName m)
    {ps : List Piece} (hp : Lexes ps) (ho : Opening ps) : Lexes (names (n :: ns) ++ ps) := by
  suffices htail : Lexes ((ns.flatMap fun m => [sym .comma, gap, named m]) ++ ps) ∧
      Opening ((ns.flatMap fun m => [sym .comma, gap, named m]) ++ ps) from
    lexes_name (hn n (by simp)) htail.1 htail.2
  induction ns with
  | nil => exact ⟨hp, ho⟩
  | cons m ns ih =>
      have hm := ih fun m' hm' => hn m' (by
        simp only [List.mem_cons] at hm' ⊢
        tauto)
      constructor
      · exact lexes_sym (by decide) (lexes_gap (lexes_name (hn m (by simp)) hm.1 hm.2))
      · exact .sym (by decide) _

/-- A type, in front of pieces that open. -/
theorem TypeSpec.lexes_layout {t : TypeSpec} (h : t.Canonical) {ps : List Piece} (hp : Lexes ps)
    (ho : Opening ps) : Lexes (t.layout ++ ps) := by
  obtain ⟨kind, size⟩ := t
  cases size with
  | none => exact lexes_reserved (Token.reserved_typeName kind) rfl hp ho
  | some e =>
      have hclose : Lexes (sym .rbracket :: ps) := lexes_sym (by decide) hp
      have he := (e.lexes_layout (h e rfl)).append hclose (.sym (by decide) ps)
      have hsize : TypeSpec.layout ⟨kind, some e⟩ ++ ps =
          .word (.typeName kind) :: sym .lbracket :: (e.layout ++ sym .rbracket :: ps) := by
        simp [TypeSpec.layout]
      rw [hsize]
      exact lexes_reserved (Token.reserved_typeName kind) rfl (lexes_sym (by decide) he)
        (.sym (by decide) _)

theorem TypedName.lexes_layout {d : TypedName} (h : d.Canonical) {ps : List Piece} (hp : Lexes ps)
    (ho : Opening ps) : Lexes (d.layout ++ ps) := by
  have hname := lexes_gap (lexes_name h.2 hp ho)
  rw [TypedName.layout, List.append_assoc]
  exact TypeSpec.lexes_layout h.1 hname (.gap _)

theorem TypedName.lexes_layoutList {ds : List TypedName} (h : ∀ d ∈ ds, d.Canonical)
    {ps : List Piece} (hp : Lexes ps) (ho : Opening ps) :
    Lexes (TypedName.layoutList ds ++ ps) := by
  cases ds with
  | nil => exact hp
  | cons d ds =>
      suffices htail : Lexes ((ds.flatMap fun e => sym .comma :: gap :: e.layout) ++ ps) ∧
          Opening ((ds.flatMap fun e => sym .comma :: gap :: e.layout) ++ ps) by
        rw [TypedName.layoutList, List.append_assoc]
        exact TypedName.lexes_layout (h d (by simp)) htail.1 htail.2
      have hds : ∀ e ∈ ds, e.Canonical := fun e he => h e (by simp [he])
      clear h
      induction ds with
      | nil => exact ⟨hp, ho⟩
      | cons e ds ih =>
          have hrest := ih fun e' he' => hds e' (by simp [he'])
          have he := TypedName.lexes_layout (hds e (by simp)) hrest.1 hrest.2
          rw [List.flatMap_cons, List.append_assoc]
          exact ⟨lexes_sym (by decide) (lexes_gap he), .sym (by decide) _⟩

theorem number_int {v : String} (h : (Token.int v).Genuine) : number v = .word (.int v) := by
  obtain ⟨c, cs, hlist, hc, whole, exponent, hwhole, -, hshape⟩ := h
  have hdigits : v.toList.all Char.isDigit = true := by
    rcases hshape with ⟨hreal, -⟩ | ⟨hreal, rfl⟩
    · cases hreal
    · have hnil : exponent = [] := by simpa using hreal
      simpa [hlist, hc, hnil] using hwhole
  rw [number, if_pos hdigits]

theorem number_float {v : String} (h : (Token.float v).Genuine) : number v = .word (.float v) := by
  obtain ⟨c, cs, hlist, -, whole, exponent, -, hexponent, hshape⟩ := h
  have hmark : ∃ d ∈ v.toList, d.isDigit = false := by
    rcases hshape with ⟨-, fraction, -, rfl⟩ | ⟨hreal, rfl⟩
    · exact ⟨'.', by simp [hlist], by decide⟩
    · rcases hexponent with rfl | ⟨mark, sign, ds, hm, -, -, -, rfl⟩
      · simp at hreal
      · exact ⟨mark, by simp [hlist], by rcases hm with rfl | rfl <;> decide⟩
  obtain ⟨d, hd, hdigit⟩ := hmark
  have hdigits : ¬v.toList.all Char.isDigit = true := by
    intro hall
    rw [List.all_eq_true.mp hall d hd] at hdigit
    cases hdigit
  rw [number, if_neg hdigits]

theorem opening_body (ss : List Stmt) : Opening (Stmt.layoutBody ss) := by
  cases ss with
  | nil => exact .gap _
  | cons s ss => exact .gap _

theorem opening_semicolon (qs : List Expr) :
    Opening (Expr.layoutSuffix qs ++ [sym .semicolon]) := by
  cases qs with
  | nil => exact .sym (by decide) _
  | cons q qs => exact .gap _

/-- The end of a statement. -/
theorem Piece.Lexes.semicolon {ps : List Piece} (hp : Lexes ps) : Lexes (ps ++ [sym .semicolon]) :=
  hp.append (lexes_single (by decide)) (.sym (by decide) [])

theorem lexes_keyword (k : Keyword) {ps : List Piece} (hp : Lexes ps) (ho : Opening ps) :
    Lexes (.word (.keyword k) :: ps) :=
  lexes_reserved (Token.reserved_keyword k) rfl hp ho

/-- A symbol between blanks. -/
theorem lexes_spaced {s : Symbol} (h : s ≠ .slash) {ps : List Piece} (hp : Lexes ps) :
    Lexes (gap :: sym s :: gap :: ps) :=
  lexes_gap (lexes_sym h (lexes_gap hp))

theorem lexes_versionNumber {v : String} (h : (Token.float v).Genuine ∨ (Token.int v).Genuine) :
    Lexes [number v, sym .semicolon] := by
  have hsemi : Lexes [sym .semicolon] := lexes_single (by decide)
  rcases h with h | h
  · rw [number_float h]
    exact .word (selfReading_genuine h (.inr (.inr ⟨v, rfl⟩))) rfl hsemi (.sym (by decide) [])
  · rw [number_int h]
    exact .word (selfReading_genuine h (.inr (.inl ⟨v, rfl⟩))) rfl hsemi (.sym (by decide) [])

/-- The name of a gate and its parameters, before its qubits. -/
theorem lexes_gateHeader {n : String} (hn : IsName n) {ps : List String}
    (hps : ∀ p ∈ ps, IsName p) {rest : List Piece} (hrest : Lexes (gap :: rest)) :
    Lexes (named n :: ((if ps.isEmpty then [] else parens true (names ps)) ++ gap :: rest)) := by
  cases ps with
  | nil => exact lexes_name hn hrest (.gap _)
  | cons p ps =>
      have hclose : Lexes [sym .rparen] := lexes_single (by decide)
      have hparams := lexes_sym (s := .lparen) (by decide)
        (lexes_names hps hclose (.sym (by decide) []))
      exact lexes_name hn (hparams.append hrest (.gap _)) (.sym (by decide) _)

theorem lexes_optionalNames {qs : List String} (hqs : ∀ q ∈ qs, IsName q) {rest : List Piece}
    (hrest : Lexes rest) (ho : Opening rest) :
    Lexes ((if qs.isEmpty then [] else gap :: names qs) ++ rest) := by
  cases qs with
  | nil => exact hrest
  | cons q qs => exact lexes_gap (lexes_names hqs hrest ho)

/-- The name of a subroutine, its signature and its qubits. -/
theorem lexes_subroutineHeader {n : String} (hn : IsName n) {ds : List TypedName}
    (hds : ∀ d ∈ ds, d.Canonical) {qs : List String} (hqs : ∀ q ∈ qs, IsName q)
    {rest : List Piece} (hrest : Lexes rest) (ho : Opening rest) :
    Lexes (named n :: (parens true (TypedName.layoutList ds) ++
      ((if qs.isEmpty then [] else gap :: names qs) ++ rest))) := by
  have hqubits := lexes_optionalNames hqs hrest ho
  have hsignature := lexes_sym (s := .lparen) (by decide) (TypedName.lexes_layoutList hds
    (lexes_sym (s := .rparen) (by decide) hqubits) (.sym (by decide) _))
  refine lexes_name hn ?_ (.sym (by decide) _)
  simpa [parens] using hsignature

/-- A constant, with its type or without. -/
theorem lexes_const {type : Option TypeSpec} (htype : ∀ t ∈ type, t.Canonical) {n : String}
    (hn : IsName n) {e : Expr} (he : e.Canonical) : Lexes (Stmt.const type n e).layout := by
  have hvalue := lexes_spaced (s := .assign) (by decide) (e.lexes_layout he).semicolon
  have hname := lexes_name hn hvalue (.gap _)
  cases type with
  | none =>
      rw [Stmt.layout]
      exact lexes_keyword _ (lexes_gap hname) (.gap _)
  | some t =>
      have ht := TypeSpec.lexes_layout (htype t rfl) (lexes_gap hname) (.gap _)
      rw [Stmt.layout, List.append_assoc]
      exact lexes_keyword _ (lexes_gap ht) (.gap _)

theorem lexes_gate {n : String} (hn : IsName n) {ps qs : List String} (hps : ∀ p ∈ ps, IsName p)
    (hne : qs ≠ []) (hqs : ∀ q ∈ qs, IsName q) {body : List Stmt}
    (hbody : Lexes (Stmt.layoutBody body)) : Lexes (Stmt.gate n ps qs body).layout := by
  obtain ⟨q, qs, rfl⟩ := List.exists_cons_of_ne_nil hne
  have hbrace := lexes_gap (lexes_sym (s := .lbrace) (by decide) hbody)
  have hqargs := lexes_gap (lexes_names hqs hbrace (.gap _))
  rw [Stmt.layout]
  exact lexes_keyword _ (lexes_gap (lexes_gateHeader hn hps hqargs)) (.gap _)

theorem lexes_subroutine {n : String} (hn : IsName n) {ps : List TypedName}
    (hps : ∀ d ∈ ps, d.Canonical) {qs : List String} (hqs : ∀ q ∈ qs, IsName q)
    {result : Option TypeSpec} (hresult : ∀ t ∈ result, t.Canonical) {body : List Stmt}
    (hbody : Lexes (Stmt.layoutBody body)) : Lexes (Stmt.subroutine n ps qs result body).layout := by
  have hbrace := lexes_gap (lexes_sym (s := .lbrace) (by decide) hbody)
  cases result with
  | none =>
      have hheader := lexes_subroutineHeader hn hps hqs hbrace (.gap _)
      rw [Stmt.layout]
      exact lexes_keyword _ (lexes_gap hheader) (.gap _)
  | some t =>
      have ht := TypeSpec.lexes_layout (hresult t rfl) hbrace (.gap _)
      have hheader := lexes_subroutineHeader hn hps hqs
        (lexes_spaced (s := .arrow) (by decide) ht) (.gap _)
      rw [Stmt.layout]
      exact lexes_keyword _ (lexes_gap hheader) (.gap _)

/-- A gate with a word of its own. -/
theorem lexes_apply (g : Builtin) {ms : List Modifier} (hms : ∀ m ∈ ms, m.Canonical)
    {ps : List Expr} (hps : Expr.CanonicalArguments ps) {qs : List Expr}
    (hqs : Expr.CanonicalRegisters qs) : Lexes (Stmt.apply g ms ps qs).layout := by
  have hsuffix := (Expr.lexes_layoutSuffix qs hqs).semicolon
  rw [Stmt.layout]
  refine lexes_modifiers hms ?_
  cases ps with
  | nil => exact lexes_reserved (Token.reserved_builtin g) rfl hsuffix (opening_semicolon qs)
  | cons p ps =>
      have hargs := lexes_parens (Expr.lexes_layoutList (p :: ps) hps) true
      exact lexes_reserved (Token.reserved_builtin g) rfl
        (hargs.append hsuffix (opening_semicolon qs)) (.sym (by decide) _)

mutual

theorem Stmt.lexes_layout : (s : Stmt) → s.Canonical → Lexes s.layout
  | .version v, h => by
      rw [Stmt.layout]
      exact lexes_keyword _ (lexes_gap (lexes_versionNumber h)) (.gap _)
  | .includes path, h => by
      have hpath : Lexes [.quoted path, sym .semicolon] :=
        .closed (closed_quoted h) (lexes_single (by decide))
      rw [Stmt.layout]
      exact lexes_keyword _ (lexes_gap hpath) (.gap _)
  | .declare d, h => by
      rw [Stmt.layout]
      exact TypedName.lexes_layout h (lexes_single (by decide)) (.sym (by decide) [])
  | .const _ _ _, ⟨htype, hn, he⟩ => lexes_const htype hn he
  | .gate _ _ _ body, ⟨hn, hps, ⟨hne, hqs⟩, hbody⟩ =>
      lexes_gate hn hps hne hqs (Stmt.lexes_layoutBody body hbody)
  | .subroutine _ _ _ _ body, ⟨hn, hps, hqs, hresult, hbody⟩ =>
      lexes_subroutine hn hps hqs hresult (Stmt.lexes_layoutBody body hbody)
  | .returns none, _ => by
      rw [Stmt.layout]
      exact lexes_keyword _ (lexes_single (by decide)) (.sym (by decide) [])
  | .returns (some e), h => by
      rw [Stmt.layout]
      exact lexes_keyword _ (lexes_gap (Expr.lexes_value (h e rfl)).semicolon) (.gap _)
  | .arrow e target, h => by
      have htarget := (target.lexes_layout h.2.canonical).semicolon
      have harrow := lexes_spaced (s := .arrow) (by decide) htarget
      rw [Stmt.layout]
      exact (Expr.lexes_action h.1).append harrow (.gap _)
  | .assign target e, h => by
      have hvalue := (Expr.lexes_value h.2).semicolon
      have hassign := lexes_spaced (s := .assign) (by decide) hvalue
      rw [Stmt.layout]
      exact (target.lexes_layout h.1.canonical).append hassign (.gap _)
  | .reset qs, h => by
      rw [Stmt.layout]
      exact lexes_keyword _ (Expr.lexes_layoutSuffix qs h.2).semicolon (opening_semicolon qs)
  | .print es, h => by
      rw [Stmt.layout]
      exact lexes_keyword _ (Expr.lexes_layoutSuffix es h).semicolon (opening_semicolon es)
  | .apply g _ _ _, ⟨hms, hps, _, hqs⟩ => lexes_apply g hms hps hqs
  | .expr e, h => by
      rw [Stmt.layout]
      exact (Expr.lexes_action h).semicolon
  | .block body, h => by
      rw [Stmt.layout]
      exact lexes_sym (by decide) (Stmt.lexes_layoutBody body h)

theorem Stmt.lexes_layoutBody : (ss : List Stmt) → Stmt.CanonicalBody ss →
    Lexes (Stmt.layoutBody ss)
  | [], _ => lexes_gap (lexes_single (by decide))
  | s :: ss, h =>
      lexes_gap ((s.lexes_layout h.1).append (Stmt.lexes_layoutBody ss h.2.2) (opening_body ss))

end

def Stmt.tokens (s : Stmt) : List Token := Piece.tokens s.layout

theorem tokensOf_statements {ss : List Stmt} (h : ∀ s ∈ ss, s.Canonical) :
    tokensOf (ss.flatMap fun s => (s.text ++ "\n").toList) = ss.flatMap Stmt.tokens := by
  induction ss with
  | nil => exact tokensOf_nil
  | cons s ss ih =>
      have hs := s.lexes_layout (h s (by simp))
      have hss := ih fun s' hs' => h s' (by simp [hs'])
      rw [List.flatMap_cons, List.flatMap_cons, String.toList_append, Stmt.text, toList_join,
        List.append_assoc, hs.cut]
      · change s.tokens ++ tokensOf ('\n' :: ss.flatMap fun s => (s.text ++ "\n").toList) = _
        rw [tokensOf_blank (by decide), hss]
      · exact opens_cons (by decide) _

/-- The text of a canonical program is cut into the tokens of its statements. -/
theorem Program.tokensOf_text {p : Program} (h : ∀ s ∈ p.statements, s.Canonical) :
    tokensOf p.text.toList = p.statements.flatMap Stmt.tokens := by
  rw [← tokensOf_statements h, Program.text, String.toList_join, List.flatMap_map]

end OpenQasm
