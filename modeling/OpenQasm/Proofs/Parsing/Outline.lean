import OpenQasm.Proofs.Parsing.Completeness.Stmt

/-!
# Outlines of trees

The outline of a tree is the row of tokens it was read from, up to one freedom: where a gate
or a call has no parameters, an empty pair of parentheses may stand or not. The tokens of a
source fit the outline; the canonical text makes a choice of its own at each of these places.
-/
namespace OpenQasm

/-- A place for a token, or for an empty parameter list that may be left out. -/
inductive Slot where
  | token (t : Token)
  /-- The canonical text has the parentheses if they are to be `written`. -/
  | empty (written : Bool)
  deriving DecidableEq, Repr

namespace Slot

def sym (s : Symbol) : Slot := .token (.symbol s)

def word (n : String) : Slot := .token (Token.ofWord n)

/-- The tokens of a layout without such places. -/
def ofPieces (ps : List Piece) : List Slot := (Piece.tokens ps).map .token

def parens (ss : List Slot) : List Slot := sym .lparen :: (ss ++ [sym .rparen])

/-- The tokens that the canonical text has for a slot. -/
def canonicalTokens : Slot → List Token
  | token t => [t]
  | empty true => [.symbol .lparen, .symbol .rparen]
  | empty false => []

/-- The tokens that the canonical text has for slots in a row. -/
def canonical (ss : List Slot) : List Token := ss.flatMap canonicalTokens

end Slot

/-- Tokens that fill slots in order. -/
inductive Fits : List Slot → List Token → Prop
  | nil : Fits [] []
  | token {ss : List Slot} {ts : List Token} (t : Token) : Fits ss ts →
      Fits (.token t :: ss) (t :: ts)
  | stands {ss : List Slot} {ts : List Token} (written : Bool) : Fits ss ts →
      Fits (.empty written :: ss) (.symbol .lparen :: .symbol .rparen :: ts)
  | missing {ss : List Slot} {ts : List Token} (written : Bool) : Fits ss ts →
      Fits (.empty written :: ss) ts

theorem Fits.append {ss ss' : List Slot} {us us' : List Token} (h : Fits ss us)
    (h' : Fits ss' us') : Fits (ss ++ ss') (us ++ us') := by
  induction h with
  | nil => exact h'
  | token t _ ih => exact .token t ih
  | stands written _ ih => exact .stands written ih
  | missing written _ ih => exact .missing written ih

/-! Trees -/

open Slot

mutual

/-- The outline of an expression. In an expression, a call without parameters and registers
has its parentheses, or it would be a name. -/
def Expr.outline : Expr → List Slot
  | .ident n => [word n]
  | .index n i => word n :: sym .lbracket :: (i.outline ++ [sym .rbracket])
  | .lit l => ofPieces [Layout.literal l]
  | .binary op l r => l.outline ++ sym op.symbol :: r.outline
  | .unary op e => sym op.symbol :: e.outline
  | .call n ms ps qs =>
      Modifier.outlines ms ++ word n ::
        ((if ps.isEmpty && !qs.isEmpty then [.empty false] else parens (Expr.outlines ps)) ++
          Expr.outlines qs)
  | .measure qs => .token (.keyword .measure) :: Expr.outlines qs
  | .paren e => parens e.outline

def Expr.outlines : List Expr → List Slot
  | [] => []
  | e :: es => e.outline ++ Expr.outlineTail es

def Expr.outlineTail : List Expr → List Slot
  | [] => []
  | e :: es => sym .comma :: (e.outline ++ Expr.outlineTail es)

def Modifier.outline : Modifier → List Slot
  | .mk kind none => [.token (.modifier kind), sym .atSign]
  | .mk kind (some e) => .token (.modifier kind) :: (parens e.outline ++ [sym .atSign])

def Modifier.outlines : List Modifier → List Slot
  | [] => []
  | m :: ms => m.outline ++ Modifier.outlines ms

end

def Expr.outlineParams (written : Bool) (ps : List Expr) : List Slot :=
  if ps.isEmpty then [.empty written] else parens (Expr.outlines ps)

/-- The outline of a call or a measurement that is a statement of its own, or the left side of
an arrow. The canonical text of a call has parentheses there unless registers follow. -/
def Expr.actionOutline : Expr → List Slot
  | .call n ms ps qs =>
      Modifier.outlines ms ++ word n :: (Expr.outlineParams qs.isEmpty ps ++ Expr.outlines qs)
  | e => e.outline

def TypeSpec.outline (t : TypeSpec) : List Slot :=
  .token (.typeName t.kind) :: match t.size with
    | none => []
    | some e => sym .lbracket :: (e.outline ++ [sym .rbracket])

def TypeSpec.outlineOption : Option TypeSpec → List Slot
  | none => []
  | some t => t.outline

def TypeSpec.outlineResult : Option TypeSpec → List Slot
  | none => []
  | some t => sym .arrow :: t.outline

def TypedName.outline (d : TypedName) : List Slot := d.type.outline ++ [word d.name]

def TypedName.outlines : List TypedName → List Slot
  | [] => []
  | d :: ds => d.outline ++ ds.flatMap fun e => sym .comma :: e.outline

def Slot.names (ps : List String) : List Slot :=
  if ps.isEmpty then [.empty false] else parens (ofPieces (Layout.names ps))

mutual

/-- The outline of a statement. -/
def Stmt.outline : Stmt → List Slot
  | .version v => ofPieces (Stmt.version v).layout
  | .includes path => ofPieces (Stmt.includes path).layout
  | .declare d => d.outline ++ [sym .semicolon]
  | .const type n e =>
      .token (.keyword .const) :: (TypeSpec.outlineOption type ++
        word n :: sym .assign :: (e.outline ++ [sym .semicolon]))
  | .gate n ps qs body =>
      .token (.keyword .gate) :: word n ::
        (Slot.names ps ++ (ofPieces (Layout.names qs) ++ sym .lbrace :: Stmt.outlineBody body))
  | .subroutine n ps qs result body =>
      .token (.keyword .defn) :: word n ::
        (parens (TypedName.outlines ps) ++ (ofPieces (Layout.names qs) ++
          (TypeSpec.outlineResult result ++ sym .lbrace :: Stmt.outlineBody body)))
  | .returns none => [.token (.keyword .returns), sym .semicolon]
  | .returns (some e) => .token (.keyword .returns) :: (e.outline ++ [sym .semicolon])
  | .arrow e target => e.actionOutline ++ sym .arrow :: (target.outline ++ [sym .semicolon])
  | .assign target e => target.outline ++ sym .assign :: (e.outline ++ [sym .semicolon])
  | .reset qs => .token (.keyword .reset) :: (Expr.outlines qs ++ [sym .semicolon])
  | .print es => .token (.keyword .print) :: (Expr.outlines es ++ [sym .semicolon])
  | .apply g ms ps qs =>
      Modifier.outlines ms ++ .token (.builtin g) ::
        (Expr.outlineParams false ps ++ (Expr.outlines qs ++ [sym .semicolon]))
  | .expr e => e.actionOutline ++ [sym .semicolon]
  | .block body => sym .lbrace :: Stmt.outlineBody body

def Stmt.outlineBody : List Stmt → List Slot
  | [] => [sym .rbrace]
  | s :: ss => s.outline ++ Stmt.outlineBody ss

end

theorem Stmt.outlineBody_eq (ss : List Stmt) :
    Stmt.outlineBody ss = ss.flatMap Stmt.outline ++ [sym .rbrace] := by
  induction ss with
  | nil => rfl
  | cons s ss ih => rw [Stmt.outlineBody, ih, List.flatMap_cons, List.append_assoc]

def Program.outline (p : Program) : List Slot := p.statements.flatMap Stmt.outline

/-! The canonical text -/

namespace Slot

@[simp] theorem canonical_nil : canonical [] = [] := rfl
@[simp] theorem canonical_token (t : Token) (ss : List Slot) :
    canonical (.token t :: ss) = t :: canonical ss := rfl
@[simp] theorem canonical_stands (ss : List Slot) :
    canonical (.empty true :: ss) = .symbol .lparen :: .symbol .rparen :: canonical ss := rfl
@[simp] theorem canonical_missing (ss : List Slot) :
    canonical (.empty false :: ss) = canonical ss := rfl
@[simp] theorem canonical_append (ss ss' : List Slot) :
    canonical (ss ++ ss') = canonical ss ++ canonical ss' := List.flatMap_append
@[simp] theorem canonical_sym (s : Symbol) (ss : List Slot) :
    canonical (sym s :: ss) = .symbol s :: canonical ss := rfl
@[simp] theorem canonical_word (n : String) (ss : List Slot) :
    canonical (word n :: ss) = Token.ofWord n :: canonical ss := rfl

@[simp] theorem canonical_ofPieces (ps : List Piece) :
    canonical (ofPieces ps) = Piece.tokens ps := by
  rw [ofPieces, canonical, List.flatMap_map]
  exact List.flatMap_singleton' _

@[simp] theorem canonical_parens (ss : List Slot) :
    canonical (parens ss) = .symbol .lparen :: (canonical ss ++ [.symbol .rparen]) := by
  simp [parens]

end Slot

open Piece Layout

@[simp] theorem Piece.tokens_sym (s : Symbol) (ps : List Piece) :
    tokens (sym s :: ps) = .symbol s :: tokens ps := rfl

@[simp] theorem Piece.tokens_named (n : String) (ps : List Piece) :
    tokens (named n :: ps) = Token.ofWord n :: tokens ps := rfl

@[simp] theorem Piece.tokens_parens_true (ps : List Piece) :
    tokens (Layout.parens true ps) = .symbol .lparen :: (tokens ps ++ [.symbol .rparen]) :=
  Parser.tokens_parens ps

/-- Parentheses that are not wanted are not written. -/
@[simp] theorem Piece.tokens_parens_false (ps : List Piece) :
    tokens (Layout.parens false ps) = tokens ps := rfl

theorem tokens_layoutSuffix (es : List Expr) :
    tokens (Expr.layoutSuffix es) = tokens (Expr.layoutList es) := by
  cases es with
  | nil => rfl
  | cons e es => rw [Expr.layoutSuffix, Expr.layoutList, tokens_gap]

/-- The parameters and registers of a call in an expression. -/
theorem canonical_callOutline {ps qs : List Expr}
    (hps : canonical (Expr.outlines ps) = tokens (Expr.layoutList ps))
    (hqs : canonical (Expr.outlines qs) = tokens (Expr.layoutList qs)) :
    canonical ((if ps.isEmpty && !qs.isEmpty then [.empty false]
        else Slot.parens (Expr.outlines ps)) ++ Expr.outlines qs) =
      tokens (Layout.parens (!ps.isEmpty || qs.isEmpty) (Expr.layoutList ps) ++
        Expr.layoutSuffix qs) := by
  rw [canonical_append, tokens_append, tokens_layoutSuffix, hqs]
  cases ps with
  | nil => cases qs with
    | nil => rfl
    | cons q qs => rfl
  | cons p ps => simp [hps]

mutual

theorem Expr.canonical_outline : (e : Expr) → e.Canonical → canonical e.outline = tokens e.layout
  | .ident n, _ => by rw [Expr.outline, Expr.layout]; rfl
  | .index n i, h => by simp [Expr.outline, Expr.layout, i.canonical_outline h.2]
  | .lit l, _ => by rw [Expr.outline, Expr.layout, canonical_ofPieces]
  | .binary op l r, ⟨hl, hr, hleft, hright⟩ => by
      simp [Expr.outline, Expr.layout, hleft, hright, l.canonical_outline hl,
        r.canonical_outline hr]
  | .unary op e, h => by
      simp [Expr.outline, Expr.layout, h.2, e.canonical_outline h.1]
  | .call n ms ps qs, h => by
      obtain ⟨rfl, -, hps, hqs⟩ := h
      have hcall := canonical_callOutline (Expr.canonical_arguments ps hps)
        (Expr.canonical_registers qs hqs)
      rw [Expr.outline, Expr.layout, Modifier.outlines, Modifier.layoutAll, List.nil_append,
        List.nil_append, canonical_word, tokens_named, hcall]
  | .measure qs, h => absurd h id
  | .paren e, h => by simp [Expr.outline, Expr.layout, e.canonical_outline h]

theorem Expr.canonical_arguments : (es : List Expr) → Expr.CanonicalArguments es →
    canonical (Expr.outlines es) = tokens (Expr.layoutList es)
  | [], _ => rfl
  | e :: es, h => by
      simp [Expr.outlines, Expr.layoutList, e.canonical_outline h.1,
        Expr.canonical_argumentTail es h.2.2]

theorem Expr.canonical_argumentTail : (es : List Expr) → Expr.CanonicalArguments es →
    canonical (Expr.outlineTail es) = tokens (Expr.layoutTail es)
  | [], _ => rfl
  | e :: es, h => by
      simp [Expr.outlineTail, Expr.layoutTail, e.canonical_outline h.1,
        Expr.canonical_argumentTail es h.2.2]

theorem Expr.canonical_registers : (es : List Expr) → Expr.CanonicalRegisters es →
    canonical (Expr.outlines es) = tokens (Expr.layoutList es)
  | [], _ => rfl
  | e :: es, h => by
      simp [Expr.outlines, Expr.layoutList, e.canonical_outline h.1.canonical,
        Expr.canonical_registerTail es h.2]

theorem Expr.canonical_registerTail : (es : List Expr) → Expr.CanonicalRegisters es →
    canonical (Expr.outlineTail es) = tokens (Expr.layoutTail es)
  | [], _ => rfl
  | e :: es, h => by
      simp [Expr.outlineTail, Expr.layoutTail, e.canonical_outline h.1.canonical,
        Expr.canonical_registerTail es h.2]

end

theorem Expr.canonical_suffix {es : List Expr} (h : Expr.CanonicalRegisters es) :
    canonical (Expr.outlines es) = tokens (Expr.layoutSuffix es) := by
  rw [tokens_layoutSuffix, Expr.canonical_registers es h]

theorem Modifier.canonical_outline {m : Modifier} (h : m.Canonical) :
    canonical m.outline = tokens m.layout ++ [.symbol .atSign] := by
  obtain ⟨kind, arg⟩ := m
  cases arg with
  | none => simp [Modifier.outline, Modifier.layout]
  | some e => simp [Modifier.outline, Modifier.layout, e.canonical_outline (h.2 e rfl)]

theorem Modifier.canonical_outlines {ms : List Modifier} (h : ∀ m ∈ ms, m.Canonical) :
    canonical (Modifier.outlines ms) = tokens (Modifier.layoutAll ms) := by
  induction ms with
  | nil => rfl
  | cons m ms ih =>
      obtain ⟨hm, hms⟩ := List.forall_mem_cons.1 h
      simp [Modifier.outlines, Modifier.layoutAll, Modifier.canonical_outline hm, ih hms]

theorem Expr.canonical_action {e : Expr} (h : e.CanonicalAction) :
    canonical e.actionOutline = tokens e.layout := by
  cases e with
  | call n ms ps qs =>
      obtain ⟨hms, -, hps, hqs⟩ := h
      have hparams : canonical (Expr.outlineParams qs.isEmpty ps) =
          tokens (Layout.parens (!ps.isEmpty || qs.isEmpty) (Expr.layoutList ps)) := by
        cases ps with
        | nil => cases qs with
          | nil => rfl
          | cons q qs => rfl
        | cons p ps => simp [Expr.outlineParams, Expr.canonical_arguments (p :: ps) hps]
      simp [Expr.actionOutline, Expr.layout, Modifier.canonical_outlines hms, hparams,
        Expr.canonical_suffix hqs]
  | measure qs =>
      have hregisters : Expr.CanonicalRegisters qs := h
      have hqs := Expr.canonical_suffix hregisters
      simp [Expr.actionOutline, Expr.outline, Expr.layout, hqs]
  | _ => exact absurd h id

theorem Expr.canonical_value {e : Expr} (h : e.CanonicalValue) :
    canonical e.outline = tokens e.layout := by
  cases e with
  | measure qs =>
      have hregisters : Expr.CanonicalRegisters qs := h
      have hqs := Expr.canonical_suffix hregisters
      simp [Expr.outline, Expr.layout, hqs]
  | _ => exact Expr.canonical_outline _ h

theorem TypeSpec.canonical_outline {t : TypeSpec} (h : t.Canonical) :
    canonical t.outline = tokens t.layout := by
  obtain ⟨kind, size⟩ := t
  cases size with
  | none => rfl
  | some e => simp [TypeSpec.outline, TypeSpec.layout, e.canonical_outline (h e rfl)]

theorem TypedName.canonical_outline {d : TypedName} (h : d.Canonical) :
    canonical d.outline = tokens d.layout := by
  simp [TypedName.outline, TypedName.layout, TypeSpec.canonical_outline h.1]

theorem TypedName.canonical_outlines {ds : List TypedName} (h : ∀ d ∈ ds, d.Canonical) :
    canonical (TypedName.outlines ds) = tokens (TypedName.layoutList ds) := by
  have htail : ∀ ds : List TypedName, (∀ d ∈ ds, d.Canonical) →
      canonical (ds.flatMap fun e => Slot.sym .comma :: e.outline) =
        tokens (ds.flatMap fun e => Layout.sym .comma :: .gap :: e.layout) := by
    intro ds hds
    induction ds with
    | nil => rfl
    | cons d ds ih =>
        obtain ⟨hd, hds⟩ := List.forall_mem_cons.1 hds
        simp [TypedName.canonical_outline hd, ih hds]
  cases ds with
  | nil => rfl
  | cons d ds =>
      obtain ⟨hd, hds⟩ := List.forall_mem_cons.1 h
      simp [TypedName.outlines, TypedName.layoutList, TypedName.canonical_outline hd, htail ds hds]

mutual

theorem Stmt.canonical_outline : (s : Stmt) → s.Canonical → canonical s.outline = s.tokens
  | .version v, _ => by rw [Stmt.outline, canonical_ofPieces, Stmt.tokens]
  | .includes path, _ => by rw [Stmt.outline, canonical_ofPieces, Stmt.tokens]
  | .declare d, h => by
      simp [Stmt.outline, Stmt.tokens, Stmt.layout, TypedName.canonical_outline h]
  | .const type n e, h => by
      obtain ⟨htype, -, he⟩ := h
      cases type with
      | none =>
          simp [Stmt.outline, Stmt.tokens, Stmt.layout, TypeSpec.outlineOption,
            e.canonical_outline he]
      | some t =>
          simp [Stmt.outline, Stmt.tokens, Stmt.layout, TypeSpec.outlineOption,
            TypeSpec.canonical_outline (htype t rfl), e.canonical_outline he]
  | .gate n ps qs body, h => by
      have hbody := Stmt.canonical_outlineBody body h.2.2.2
      cases ps with
      | nil => simp [Stmt.outline, Stmt.tokens, Stmt.layout, Slot.names, hbody]
      | cons p ps => simp [Stmt.outline, Stmt.tokens, Stmt.layout, Slot.names, hbody]
  | .subroutine n ps qs result body, h => by
      obtain ⟨-, hps, -, hresult, hbody⟩ := h
      have hbody := Stmt.canonical_outlineBody body hbody
      have hqs : Piece.tokens (if qs = [] then [] else .gap :: Layout.names qs) =
          Piece.tokens (Layout.names qs) := by
        cases qs <;> rfl
      cases result with
      | none =>
          simp [Stmt.outline, Stmt.tokens, Stmt.layout, TypedName.canonical_outlines hps, hqs,
            hbody, TypeSpec.outlineResult]
      | some t =>
          simp [Stmt.outline, Stmt.tokens, Stmt.layout, TypedName.canonical_outlines hps, hqs,
            hbody, TypeSpec.outlineResult, TypeSpec.canonical_outline (hresult t rfl)]
  | .returns none, _ => rfl
  | .returns (some e), h => by
      simp [Stmt.outline, Stmt.tokens, Stmt.layout, Expr.canonical_value (h e rfl)]
  | .arrow e target, h => by
      simp [Stmt.outline, Stmt.tokens, Stmt.layout, Expr.canonical_action h.1,
        target.canonical_outline h.2.canonical]
  | .assign target e, h => by
      simp [Stmt.outline, Stmt.tokens, Stmt.layout, Expr.canonical_value h.2,
        target.canonical_outline h.1.canonical]
  | .reset qs, h => by simp [Stmt.outline, Stmt.tokens, Stmt.layout, Expr.canonical_suffix h.2]
  | .print es, h => by
      have hes : Expr.CanonicalRegisters es := h
      simp [Stmt.outline, Stmt.tokens, Stmt.layout, Expr.canonical_suffix hes]
  | .apply g ms ps qs, h => by
      obtain ⟨hms, hps, -, hqs⟩ := h
      cases ps with
      | nil =>
          simp [Stmt.outline, Stmt.tokens, Stmt.layout, Modifier.canonical_outlines hms,
            Expr.outlineParams, Expr.canonical_suffix hqs]
      | cons p ps =>
          simp [Stmt.outline, Stmt.tokens, Stmt.layout, Modifier.canonical_outlines hms,
            Expr.outlineParams, Expr.canonical_suffix hqs, Expr.canonical_arguments (p :: ps) hps]
  | .expr e, h => by
      have he : e.CanonicalAction := h
      simp [Stmt.outline, Stmt.tokens, Stmt.layout, Expr.canonical_action he]
  | .block body, h => by
      simp [Stmt.outline, Stmt.tokens, Stmt.layout, Stmt.canonical_outlineBody body h]

theorem Stmt.canonical_outlineBody : (ss : List Stmt) → Stmt.CanonicalBody ss →
    canonical (Stmt.outlineBody ss) = Piece.tokens (Stmt.layoutBody ss)
  | [], _ => rfl
  | s :: ss, h => by
      have hs : canonical s.outline = Piece.tokens s.layout := s.canonical_outline h.1
      simp [Stmt.outlineBody, Stmt.layoutBody, hs, Stmt.canonical_outlineBody ss h.2.2]

end

/-- The canonical text of a program has the tokens that are canonical for its outline. -/
theorem Program.canonical_outline {p : Program} (h : ∀ s ∈ p.statements, s.Canonical) :
    canonical p.outline = p.statements.flatMap Stmt.tokens := by
  have hstmts : ∀ s ∈ p.statements, canonical s.outline = s.tokens := fun s hs =>
    s.canonical_outline (h s hs)
  rw [Program.outline, Slot.canonical, List.flatMap_assoc, List.flatMap_def, List.flatMap_def]
  exact congrArg List.flatten (List.map_congr_left hstmts)

end OpenQasm
