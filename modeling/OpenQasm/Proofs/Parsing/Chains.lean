import OpenQasm.Proofs.Parsing.Completeness.Expr
import OpenQasm.Proofs.Parsing.Locality.Expr

/-!
# Chains of operands

Without regard to how tightly operators bind, an expression is a chain: operands with a
binary operator between each two. The chain that the parser reads goes on as long as there
is an operator, and it fails only where an operand does. A chain falls into runs of
multiplicative operators with additive operators between them, and the tree is made by
joining the operands of each run from the left, and then the runs.
-/
namespace OpenQasm

/-- Whether an operator belongs to the tier that binds tighter. -/
def BinaryOp.isMultiplicative : BinaryOp → Bool
  | add => false
  | sub => false
  | mul => true
  | div => true
  | mod => true

theorem BinaryOp.precedence_eq (op : BinaryOp) :
    op.precedence = if op.isMultiplicative then 2 else 1 := by
  cases op <;> rfl

namespace Parser

abbrev Link := BinaryOp × Expr

/-- An expression and the operands after it, joined from the left. -/
def joined (e : Expr) (links : List Link) : Expr :=
  links.foldl (fun left link => .binary link.1 left link.2) e

/-- An additive operator with the run of multiplicative ones after it. -/
structure Term where
  op : BinaryOp
  first : Expr
  factors : List Link

namespace Term

def links (t : Term) : List Link := (t.op, t.first) :: t.factors

def link (t : Term) : Link := (t.op, joined t.first t.factors)

end Term

/-- Runs of a chain: nothing but multiplicative operators in them, and nothing but additive
ones between them. -/
structure Runs (factors : List Link) (terms : List Term) : Prop where
  factors : ∀ x ∈ factors, x.1.isMultiplicative = true
  terms : ∀ t ∈ terms, t.op.isMultiplicative = false ∧ ∀ x ∈ t.factors, x.1.isMultiplicative = true

/-- Every chain falls into runs. -/
theorem exists_runs (links : List Link) :
    ∃ factors terms, links = factors ++ terms.flatMap Term.links ∧ Runs factors terms := by
  induction links with
  | nil => exact ⟨[], [], rfl, by simp, by simp⟩
  | cons x links ih =>
      obtain ⟨factors, terms, rfl, hruns⟩ := ih
      cases hx : x.1.isMultiplicative with
      | true =>
          exact ⟨x :: factors, terms, rfl, List.forall_mem_cons.2 ⟨hx, hruns.factors⟩, hruns.terms⟩
      | false =>
          exact ⟨[], ⟨x.1, x.2, factors⟩ :: terms, rfl, by simp,
            List.forall_mem_cons.2 ⟨⟨hx, hruns.factors⟩, hruns.terms⟩⟩

namespace Reply

variable {ε α β : Type} {ts us : List Lexeme} {e : ε} {rest : List Lexeme}

/-- The reply is a given error at a given place. -/
def Fails (e : ε) (rest : List Lexeme) : Reply ε ts α → Prop
  | done .. => False
  | fail e' left _ => e' = e ∧ left = rest

theorem Yields.unique {a b : α} {rest' : List Lexeme} {r : Reply ε ts α} (h : r.Yields a rest)
    (h' : r.Yields b rest') : a = b ∧ rest = rest' := by
  cases r with
  | done => exact ⟨h.1.symm.trans h'.1, h.2.symm.trans h'.2⟩
  | fail => exact absurd h id

theorem Fails.unique {e' : ε} {rest' : List Lexeme} {r : Reply ε ts α} (h : r.Fails e rest)
    (h' : r.Fails e' rest') : e = e' ∧ rest = rest' := by
  cases r with
  | done => exact absurd h id
  | fail => exact ⟨h.1.symm.trans h'.1, h.2.symm.trans h'.2⟩

theorem Fails.not_yields {a : α} {rest' : List Lexeme} {r : Reply ε ts α} (h : r.Fails e rest) :
    ¬r.Yields a rest' := by
  cases r with
  | done => exact absurd h id
  | fail => exact id

/-- A reply is one or the other. -/
theorem yields_or_fails (r : Reply ε ts α) :
    (∃ a rest, r.Yields a rest) ∨ ∃ e rest, r.Fails e rest := by
  cases r with
  | done a rest _ => exact .inl ⟨a, rest, rfl, rfl⟩
  | fail e rest _ => exact .inr ⟨e, rest, rfl, rfl⟩

theorem Fails.of_next {l : Lexeme} {r : Reply ε ts α}
    (h : (r.next : Reply ε (l :: ts) α).Fails e rest) : r.Fails e rest := by
  cases r with
  | done => exact h
  | fail => exact h

theorem Fails.of_andThen {r : Reply ε ts α}
    {f : α → (rest : List Lexeme) → rest.length ≤ ts.length → Reply ε rest β}
    (h : (r.andThen f).Fails e rest) :
    r.Fails e rest ∨ ∃ a mid le, r.Yields a mid ∧ (f a mid le).Fails e rest := by
  cases r with
  | fail => exact .inl h
  | done a mid le =>
      refine .inr ⟨a, mid, le, ⟨rfl, rfl⟩, ?_⟩
      simp only [andThen] at h
      revert h
      cases f a mid le with
      | done => exact id
      | fail => exact id

end Reply

/-! Chains -/

/-- Operators from `ts` up to `rest`, with an operand after each of them. -/
inductive Chain : List Lexeme → List Link → List Lexeme → Prop
  | nil (ts : List Lexeme) : Chain ts [] ts
  | cons {l : Lexeme} {r mid rest : List Lexeme} {op : BinaryOp} {v : Expr} {links : List Link}
      (hop : binaryOp? l = some op) (hv : (unary r).Yields v mid) (hlinks : Chain mid links rest) :
      Chain (l :: r) ((op, v) :: links) rest

/-- An operand at `ts` and a chain after it. -/
def Operands (ts : List Lexeme) (u : Expr) (links : List Link) (rest : List Lexeme) : Prop :=
  ∃ mid, (unary ts).Yields u mid ∧ Chain mid links rest

/-- Operands with operators between them, up to one that cannot be read. -/
inductive Breaks : List Lexeme → ParseError → List Lexeme → Prop
  | here {ts rest : List Lexeme} {e : ParseError} (h : (unary ts).Fails e rest) : Breaks ts e rest
  | later {ts r rest : List Lexeme} {l : Lexeme} {u : Expr} {op : BinaryOp} {e : ParseError}
      (hu : (unary ts).Yields u (l :: r)) (hop : binaryOp? l = some op) (h : Breaks r e rest) :
      Breaks ts e rest

variable {ts mid rest last : List Lexeme} {links links' : List Link} {u v e : Expr} {m : Nat}

theorem Chain.append (h : Chain ts links mid) (h' : Chain mid links' rest) :
    Chain ts (links ++ links') rest := by
  induction h with
  | nil => exact h'
  | cons hop hv _ ih => exact .cons hop hv (ih h')

theorem Chain.of_append (h : Chain ts (links ++ links') rest) :
    ∃ mid, Chain ts links mid ∧ Chain mid links' rest := by
  induction links generalizing ts with
  | nil => exact ⟨ts, .nil ts, h⟩
  | cons x links ih =>
      cases h with
      | cons hop hv hlinks =>
          obtain ⟨mid, hfirst, hrest⟩ := ih hlinks
          exact ⟨mid, .cons hop hv hfirst, hrest⟩

/-- Whatever breaks after a chain breaks the chain. -/
theorem Breaks.of_chain {l : Lexeme} {r : List Lexeme} {op : BinaryOp} {err : ParseError}
    (hu : (unary ts).Yields u mid) (h : Chain mid links (l :: r)) (hop : binaryOp? l = some op)
    (hbreaks : Breaks r err rest) : Breaks ts err rest := by
  generalize hend : l :: r = place at h
  induction h generalizing ts u with
  | nil =>
      subst hend
      exact .later hu hop hbreaks
  | cons hop' hv _ ih => exact .later hu hop' (ih hv hend)

/-- A chain that breaks does not end at a place without an operator. -/
theorem Breaks.nextOp?_ne_none {err : ParseError} (h : Breaks ts err rest)
    (hu : (unary ts).Yields u mid) (hchain : Chain mid links last) : nextOp? last ≠ none := by
  induction h generalizing u mid links with
  | here hfails => exact absurd hu hfails.not_yields
  | later hu' hop _ ih =>
      obtain ⟨-, rfl⟩ := hu'.unique hu
      cases hchain with
      | nil => simp [nextOp?, hop]
      | cons _ hv hlinks => exact ih hv hlinks

theorem Breaks.unique {err err' : ParseError} {rest' : List Lexeme} (h : Breaks ts err rest)
    (h' : Breaks ts err' rest') : err = err' ∧ rest = rest' := by
  induction h with
  | here hfails =>
      cases h' with
      | here hfails' => exact hfails.unique hfails'
      | later hu' => exact absurd hu' hfails.not_yields
  | later hu _ _ ih =>
      cases h' with
      | here hfails' => exact absurd hu hfails'.not_yields
      | later hu' _ hbreaks =>
          obtain ⟨-, heq⟩ := hu.unique hu'
          cases heq
          exact ih hbreaks

/-! What is read is a chain -/

mutual

theorem chain_of_binary (m : Nat) (ts : List Lexeme) {e : Expr} {rest : List Lexeme}
    (h : (binary m ts).Yields e rest) :
    ∃ u links, Operands ts u links rest ∧ ∀ op ∈ nextOp? rest, op.precedence < m := by
  rw [binary] at h
  obtain ⟨u, mid, hle, hu, h⟩ := h.of_andThen
  obtain ⟨links, hchain, hstop⟩ := chain_of_operators m u mid h
  exact ⟨u, links, ⟨mid, hu, hchain⟩, hstop⟩
termination_by 4 * ts.length + 2

/-- The loop over operators ends where none stands that binds as tightly as asked for. -/
theorem chain_of_operators (m : Nat) (left : Expr) {e : Expr} {rest : List Lexeme} :
    ∀ ts : List Lexeme, (operators m left ts).Yields e rest →
      ∃ links, Chain ts links rest ∧ ∀ op ∈ nextOp? rest, op.precedence < m
  | [], h => by
      rw [operators] at h
      obtain ⟨-, rfl⟩ := h
      exact ⟨[], .nil [], by simp [nextOp?]⟩
  | l :: r, h => by
      rw [operators] at h
      split at h
      · rename_i hnone
        obtain ⟨-, rfl⟩ := h
        exact ⟨[], .nil _, by simp [nextOp?, hnone]⟩
      · rename_i op hop
        split at h
        · rename_i hlt
          obtain ⟨-, rfl⟩ := h
          exact ⟨[], .nil _, by simpa [nextOp?, hop] using hlt⟩
        · obtain ⟨right, mid, hle, hright, h⟩ := h.of_next.of_andThen
          obtain ⟨u, links, ⟨mid', hu, hchain⟩, -⟩ := chain_of_binary (op.precedence + 1) r hright
          obtain ⟨links', hchain', hstop⟩ := chain_of_operators m (.binary op left right) mid h
          exact ⟨(op, u) :: (links ++ links'), .cons hop hu (hchain.append hchain'), hstop⟩
termination_by ts => 4 * ts.length

end

mutual

theorem breaks_of_binary {err : ParseError} (m : Nat) (ts : List Lexeme)
    (h : (binary m ts).Fails err rest) : Breaks ts err rest := by
  rw [binary] at h
  rcases h.of_andThen with hu | ⟨u, mid, hle, hu, h⟩
  · exact .here hu
  · obtain ⟨l, r, op, rfl, hop, hbreaks⟩ := breaks_of_operators m u mid h
    exact .later hu hop hbreaks
termination_by 4 * ts.length + 2

/-- The loop over operators fails only in an operand after an operator. -/
theorem breaks_of_operators {err : ParseError} (m : Nat) (left : Expr) : ∀ ts : List Lexeme,
    (operators m left ts).Fails err rest →
      ∃ l r op, ts = l :: r ∧ binaryOp? l = some op ∧ Breaks r err rest
  | [], h => by
      rw [operators] at h
      exact absurd h id
  | l :: r, h => by
      rw [operators] at h
      split at h
      · exact absurd h id
      · rename_i op hop
        split at h
        · exact absurd h id
        · refine ⟨l, r, op, rfl, hop, ?_⟩
          rcases h.of_next.of_andThen with hright | ⟨right, mid, hle, hright, h⟩
          · exact breaks_of_binary (op.precedence + 1) r hright
          · obtain ⟨u, links, ⟨mid', hu, hchain⟩, -⟩ := chain_of_binary (op.precedence + 1) r hright
            obtain ⟨l', r', op', rfl, hop', hbreaks⟩ :=
              breaks_of_operators m (.binary op left right) mid h
            exact .of_chain hu hchain hop' hbreaks
termination_by ts => 4 * ts.length

end

/-! A chain is joined run by run -/

/-- An operand after a multiplicative operator takes no operator. -/
theorem yields_binary_operand (hv : (unary ts).Yields v mid) : (binary 3 ts).Yields v mid := by
  refine yields_binary_unary hv (yields_operators_stop fun op _ => ?_)
  cases op <;> decide

/-- The loop over operators joins a run of multiplicative ones, and goes on behind it. -/
theorem yields_operators_run (hm : m ≤ 2) {factors : List Link} (hchain : Chain ts factors mid)
    (hfactors : ∀ x ∈ factors, x.1.isMultiplicative = true)
    (h : (operators m (joined u factors) mid).Yields e rest) :
    (operators m u ts).Yields e rest := by
  induction hchain generalizing u with
  | nil => exact h
  | @cons l r mid' last' op v links hop hv hlinks ih =>
      obtain ⟨hx, hlinks'⟩ := List.forall_mem_cons.1 hfactors
      have hprec : op.precedence = 2 := by rw [BinaryOp.precedence_eq, if_pos hx]
      have hright := yields_binary_operand hv
      rw [operators]
      simp only [hop]
      rw [if_neg (by omega), hprec]
      exact .next (hright.andThen fun _ => ih hlinks' h)

/-- Behind a run stands an additive operator, or none. -/
theorem nextOp?_of_terms {terms : List Term}
    (hterms : ∀ t ∈ terms, t.op.isMultiplicative = false)
    (hchain : Chain ts (terms.flatMap Term.links) rest) (hrest : nextOp? rest = none) :
    ∀ op ∈ nextOp? ts, op.precedence < 2 := by
  cases terms with
  | nil =>
      cases hchain
      simp [hrest]
  | cons t terms =>
      cases hchain with
      | cons hop =>
          have hadditive := (List.forall_mem_cons.1 hterms).1
          simp [nextOp?, hop, BinaryOp.precedence_eq, hadditive]

/-- The loop over operators joins the runs after additive ones. -/
theorem yields_operators_terms (hm : m ≤ 1) {terms : List Term}
    (hterms : ∀ t ∈ terms, t.op.isMultiplicative = false ∧
      ∀ x ∈ t.factors, x.1.isMultiplicative = true)
    (hchain : Chain ts (terms.flatMap Term.links) rest) (hrest : nextOp? rest = none) :
    (operators m u ts).Yields (joined u (terms.map Term.link)) rest := by
  induction terms generalizing u ts with
  | nil =>
      cases hchain
      exact yields_operators_stop (by simp [hrest])
  | cons t terms ih =>
      obtain ⟨⟨hadditive, hfactors⟩, hterms⟩ := List.forall_mem_cons.1 hterms
      have hprec : t.op.precedence = 1 := by simp [BinaryOp.precedence_eq, hadditive]
      rw [List.flatMap_cons, Term.links, List.cons_append] at hchain
      cases hchain with
      | cons hop hv hlinks =>
          obtain ⟨place, hrun, hothers⟩ := hlinks.of_append
          -- the right operand is the whole run, which ends before the next additive operator
          have hstop := nextOp?_of_terms (fun t' ht' => (hterms t' ht').1) hothers hrest
          have hright := yields_binary_unary hv
            (yields_operators_run le_rfl hrun hfactors (yields_operators_stop hstop))
          rw [operators]
          simp only [hop]
          rw [if_neg (by omega), hprec]
          exact .next (hright.andThen fun _ => ih hterms hothers)

/-- The chain up to a place without an operator is read as the tree of its runs. -/
theorem yields_expression_of_chain {factors : List Link} {terms : List Term}
    (hruns : Runs factors terms) (h : Operands ts u (factors ++ terms.flatMap Term.links) rest)
    (hrest : nextOp? rest = none) :
    (expression ts).Yields (joined (joined u factors) (terms.map Term.link)) rest := by
  obtain ⟨mid, hu, hchain⟩ := h
  obtain ⟨place, hrun, hothers⟩ := hchain.of_append
  have hsum := yields_operators_terms (m := 0) (u := joined u factors) (by omega) hruns.terms
    hothers hrest
  exact yields_binary_unary hu (yields_operators_run (by omega) hrun hruns.factors hsum)

/-- What is read is the tree of the runs of the longest chain. -/
theorem yields_expression_iff : (expression ts).Yields e rest ↔
    ∃ u factors terms, Operands ts u (factors ++ terms.flatMap Term.links) rest ∧
      nextOp? rest = none ∧ Runs factors terms ∧
      e = joined (joined u factors) (terms.map Term.link) := by
  constructor
  · intro h
    obtain ⟨u, links, hoperands, hstop⟩ := chain_of_binary 0 ts h
    obtain ⟨factors, terms, rfl, hruns⟩ := exists_runs links
    have hrest : nextOp? rest = none := by
      refine Option.eq_none_iff_forall_not_mem.2 fun op hop => ?_
      exact Nat.not_lt_zero _ (hstop op hop)
    have htree := yields_expression_of_chain hruns hoperands hrest
    exact ⟨u, factors, terms, hoperands, hrest, hruns, (h.unique htree).1⟩
  · rintro ⟨u, factors, terms, hoperands, hrest, hruns, rfl⟩
    exact yields_expression_of_chain hruns hoperands hrest

/-- An expression fails where an operand of its chain does, and nowhere else. -/
theorem fails_expression_iff {err : ParseError} :
    (expression ts).Fails err rest ↔ Breaks ts err rest := by
  refine ⟨breaks_of_binary 0 ts, fun hbreaks => ?_⟩
  rcases (expression ts).yields_or_fails with ⟨e, last, h⟩ | ⟨err', last, h⟩
  · obtain ⟨u, factors, terms, ⟨mid, hu, hchain⟩, hrest, -⟩ := yields_expression_iff.1 h
    exact absurd hrest (hbreaks.nextOp?_ne_none hu hchain)
  · obtain ⟨rfl, rfl⟩ := hbreaks.unique (breaks_of_binary 0 ts h)
    exact h

end Parser

end OpenQasm
