import OpenQasm.Proofs.Modifiers.GateScope
import OpenQasm.Proofs.Modifiers.Leaves

/-!
# Names that a definition looks up

A constant that a body does not bind is looked up in the scopes that the body was called
from. A body binds the scalars that it declares and those among its parameters. It does
not bind its registers: in a folded expression a constant from further out comes before a
register of the same name, and only where a bare name is evaluated the bits come first.
A call under `inv` or `pow` may run the body backwards, and then declarations come after
the statements that rely on them.
-/
namespace OpenQasm

/-! Expressions -/

/-- Folding the expression looks up no constant of a list. -/
def Expr.Avoids (hidden : List String) : Expr → Prop
  | .ident name => name ∉ hidden
  | .index _ i => i.Avoids hidden
  | .lit _ => True
  | .binary _ l r => l.Avoids hidden ∧ r.Avoids hidden
  | .unary _ e => e.Avoids hidden
  | .paren e => e.Avoids hidden
  | .call _ _ _ _ => True
  | .measure _ => True

def Expr.IndexAvoids (hidden : List String) : Expr → Prop
  | .index _ i => i.Avoids hidden
  | _ => True

def Modifier.Avoids (hidden : List String) (m : Modifier) : Prop := ∀ e ∈ m.arg, e.Avoids hidden

def TypeSpec.Avoids (hidden : List String) (t : TypeSpec) : Prop := ∀ e ∈ t.size, e.Avoids hidden

/-- The definitions that calls refer to. -/
structure Definitions where
  gates : Table GateDef
  subroutines : Table SubroutineDef

/-- What is known of names on the way through a body. -/
structure Visibility where
  /-- Names that are not bound yet, and must not be looked up further out. -/
  hidden : List String
  /-- Names that stand for bits of the body itself. -/
  bits : List String
  /-- Statements may be run in another order, so declarations bind nothing. -/
  unordered : Bool

mutual

/-- Evaluating the expression looks up nothing that is hidden. -/
def Expr.Clear (D : Definitions) (v : Visibility) : Expr → Prop
  | .measure qs => ∀ e ∈ qs, e.IndexAvoids v.hidden
  | .call name ms ps qs =>
      (∀ m ∈ ms, m.Avoids v.hidden) ∧ (∀ e ∈ qs, e.IndexAvoids v.hidden) ∧
        match D.gates.get? name with
        | some _ => ∀ e ∈ ps, e.Avoids v.hidden
        | none =>
            match D.subroutines.get? name with
            | some d => Expr.ArgumentsClear D v d.params ps
            | none => ∀ e ∈ ps, e.Avoids v.hidden
  | .ident name => name ∈ v.hidden → name ∈ v.bits
  | .index _ i => i.Avoids v.hidden
  | .lit _ => True
  | .binary _ l r => l.Avoids v.hidden ∧ r.Avoids v.hidden
  | .unary _ e => e.Avoids v.hidden
  | .paren e => e.Avoids v.hidden

/-- Evaluating arguments for the parameters of a subroutine looks up nothing that is hidden.
The sizes in its signature are looked up where it is called. -/
def Expr.ArgumentsClear (D : Definitions) (v : Visibility) (params : List TypedName) :
    List Expr → Prop
  | [] => True
  | e :: es =>
      match params with
      | [] => True
      | p :: ps =>
          (match p.type.kind with
            | .qubit => e.IndexAvoids v.hidden ∧ p.type.Avoids v.hidden
            | .bit => p.type.Avoids v.hidden ∧ e.Clear D v
            | _ => e.Clear D v) ∧
          Expr.ArgumentsClear D v ps es

end

/-! Statements -/

namespace Visibility

def scalar (v : Visibility) (name : String) : Visibility :=
  if v.unordered then v else { v with hidden := v.hidden.filter (· ≠ name) }

def bit (v : Visibility) (name : String) : Visibility :=
  if v.unordered then v else { v with bits := name :: v.bits }

def declare (v : Visibility) (d : TypedName) : Visibility :=
  match d.type.kind with
  | .qubit => v
  | .bit => v.bit d.name
  | _ => v.scalar d.name

theorem declare_scalar (v : Visibility) {d : TypedName} (hqubit : d.type.kind ≠ .qubit)
    (hbit : d.type.kind ≠ .bit) : v.declare d = v.scalar d.name := by
  unfold declare
  split
  · exact absurd ‹_› hqubit
  · exact absurd ‹_› hbit
  · rfl

end Visibility

mutual

/-- What is known after a statement. -/
def Stmt.visibility (v : Visibility) : Stmt → Visibility
  | .declare d => v.declare d
  | .const _ name _ => v.scalar name
  | .block body => Stmt.visibilityAfter v body
  | _ => v

def Stmt.visibilityAfter (v : Visibility) : List Stmt → Visibility
  | [] => v
  | c :: cs => Stmt.visibilityAfter (c.visibility v) cs

end

mutual

/-- Running the statement looks up nothing that is hidden. -/
def Stmt.Clear (D : Definitions) (v : Visibility) : Stmt → Prop
  | .declare d => d.type.kind = .bit → d.type.Avoids v.hidden
  | .const _ _ e => e.Avoids v.hidden
  | .returns none => True
  | .returns (some e) => e.Clear D v
  | .arrow e target => e.Clear D v ∧ target.IndexAvoids v.hidden
  | .assign target e => e.Clear D v ∧ target.IndexAvoids v.hidden
  | .reset qs => ∀ e ∈ qs, e.IndexAvoids v.hidden
  | .print es => ∀ e ∈ es, e.IndexAvoids v.hidden
  | .apply _ ms ps qs =>
      (∀ m ∈ ms, m.Avoids v.hidden) ∧ (∀ e ∈ ps, e.Avoids v.hidden) ∧
        ∀ e ∈ qs, e.IndexAvoids v.hidden
  | .expr e => e.Clear D v
  | .block body => Stmt.EachClear D v body
  | _ => True

/-- Running statements in order looks up nothing that is hidden at the time. -/
def Stmt.EachClear (D : Definitions) (v : Visibility) : List Stmt → Prop
  | [] => True
  | c :: cs => c.Clear D v ∧ Stmt.EachClear D (c.visibility v) cs

end

/-! Calls -/

/-- Whether a modifier may invert what it stands before. -/
def Modifier.mayInvert : Modifier → Bool
  | .mk .inv _ => true
  | .mk .pow (some (.lit l)) => l.int?.any (·.toInt < 0)
  | .mk .pow _ => true
  | _ => false

mutual

/-- The names that an expression calls, and whether what is called may be inverted. -/
def Expr.calls : Expr → List (String × Bool)
  | .call name ms ps _ => (name, ms.any Modifier.mayInvert) :: Expr.callsIn ps
  | _ => []

def Expr.callsIn : List Expr → List (String × Bool)
  | [] => []
  | e :: es => e.calls ++ Expr.callsIn es

end

mutual

/-- The names that a statement calls. In a body that may be inverted, so may be the calls
that are statements of it. -/
def Stmt.calls (unordered : Bool) : Stmt → List (String × Bool)
  | .returns (some e) => e.calls
  | .arrow e _ => e.calls
  | .assign _ e => e.calls
  | .expr (.call name ms ps _) =>
      (name, unordered || ms.any Modifier.mayInvert) :: Expr.callsIn ps
  | .block body => Stmt.callsIn unordered body
  | _ => []

def Stmt.callsIn (unordered : Bool) : List Stmt → List (String × Bool)
  | [] => []
  | c :: cs => c.calls unordered ++ Stmt.callsIn unordered cs

end

/-- What a call runs: a gate, whose body may be inverted or not, or a subroutine. -/
inductive Callee where
  | gate (d : GateDef) (unordered : Bool)
  | subroutine (d : SubroutineDef)

namespace Callee

def name : Callee → String
  | gate d _ => d.name
  | subroutine d => d.name

def body : Callee → Block
  | gate d _ => d.body
  | subroutine d => d.body

def result : Callee → Option TypeSpec
  | gate _ _ => none
  | subroutine d => d.result

def unordered : Callee → Bool
  | gate _ unordered => unordered
  | subroutine _ => false

/-- What is known when the body starts, if names of a list must not be looked up. -/
def visibility (names : List String) : Callee → Visibility
  | gate d unordered => ⟨names.filter (· ∉ d.params), [], unordered⟩
  | subroutine d => d.params.foldl Visibility.declare ⟨names, [], false⟩

/-- The definition looks up no constant of a list, other than those it binds itself. -/
def Clear (D : Definitions) (names : List String) (c : Callee) : Prop :=
  Stmt.EachClear D (c.visibility names) c.body ∧
    ∀ t ∈ c.result, t.kind = .bit → t.Avoids (c.visibility names).hidden

end Callee

namespace Definitions

def callee? (D : Definitions) (x : String × Bool) : Option Callee :=
  match D.gates.get? x.1 with
  | some d => some (.gate d x.2)
  | none => (D.subroutines.get? x.1).map .subroutine

/-- What running a gate comes to. -/
inductive Reaches (D : Definitions) (g : GateDef) : Callee → Prop
  | refl : Reaches D g (.gate g false)
  | call {c c' : Callee} {x : String × Bool} (hreach : Reaches D g c)
      (hx : x ∈ Stmt.callsIn c.unordered c.body) (hcallee : D.callee? x = some c') :
      Reaches D g c'

end Definitions

/-! Knowing more -/

namespace Visibility

/-- One knows at least what another one knows. -/
structure Finer (v w : Visibility) : Prop where
  hidden : v.hidden ⊆ w.hidden
  bits : w.bits ⊆ v.bits
  unordered : v.unordered = w.unordered

variable {u v w : Visibility}

theorem Finer.refl (v : Visibility) : v.Finer v := ⟨fun _ h => h, fun _ h => h, rfl⟩

theorem Finer.trans (huv : u.Finer v) (hvw : v.Finer w) : u.Finer w :=
  ⟨List.Subset.trans huv.hidden hvw.hidden, List.Subset.trans hvw.bits huv.bits,
    huv.unordered.trans hvw.unordered⟩

theorem mem_hidden_scalar (v : Visibility) {name x : String} (h : x ∈ (v.scalar name).hidden) :
    x ∈ v.hidden := by
  unfold scalar at h
  split at h
  · exact h
  · exact List.mem_of_mem_filter h

theorem scalar_finer (v : Visibility) (name : String) : (v.scalar name).Finer v := by
  refine ⟨fun x hx => v.mem_hidden_scalar hx, ?_, ?_⟩
  · unfold scalar
    split <;> exact fun _ h => h
  · unfold scalar
    split <;> rfl

theorem bit_finer (v : Visibility) (name : String) : (v.bit name).Finer v := by
  unfold bit
  split
  · exact .refl v
  · exact ⟨fun _ h => h, List.subset_cons_self _ _, rfl⟩

theorem declare_finer (v : Visibility) (d : TypedName) : (v.declare d).Finer v := by
  unfold declare
  split
  · exact .refl v
  · exact v.bit_finer d.name
  · exact v.scalar_finer d.name

theorem Finer.scalar (h : v.Finer w) (name : String) : (v.scalar name).Finer (w.scalar name) := by
  unfold Visibility.scalar
  rw [h.unordered]
  split
  · exact h
  · refine ⟨fun x hx => ?_, h.bits, rfl⟩
    obtain ⟨hx, hne⟩ := List.mem_filter.1 hx
    exact List.mem_filter.2 ⟨h.hidden hx, hne⟩

theorem Finer.bit (h : v.Finer w) (name : String) : (v.bit name).Finer (w.bit name) := by
  unfold Visibility.bit
  rw [h.unordered]
  split
  · exact h
  · exact ⟨h.hidden, List.cons_subset_cons name h.bits, rfl⟩

theorem Finer.declare (h : v.Finer w) (d : TypedName) : (v.declare d).Finer (w.declare d) := by
  unfold Visibility.declare
  split
  · exact h
  · exact h.bit d.name
  · exact h.scalar d.name

theorem scalar_of_unordered (h : v.unordered = true) (name : String) : v.scalar name = v := by
  rw [scalar, if_pos h]

theorem declare_of_unordered (h : v.unordered = true) (d : TypedName) : v.declare d = v := by
  unfold declare
  split
  · rfl
  · rw [bit, if_pos h]
  · exact scalar_of_unordered h d.name

end Visibility

theorem Callee.unordered_visibility (c : Callee) (names : List String) :
    (c.visibility names).unordered = c.unordered := by
  have hparams : ∀ (params : List TypedName) (v : Visibility),
      (params.foldl Visibility.declare v).unordered = v.unordered := by
    intro params
    induction params with
    | nil => exact fun v => rfl
    | cons p ps ih => exact fun v => (ih _).trans (v.declare_finer p).unordered
  cases c with
  | gate d unordered => rfl
  | subroutine d => exact hparams d.params _

theorem Expr.Avoids.mono {hidden hidden' : List String} (h : hidden' ⊆ hidden) :
    ∀ {e : Expr}, e.Avoids hidden → e.Avoids hidden'
  | .ident _, he => fun hx => he (h hx)
  | .index _ i, he => Avoids.mono h (e := i) he
  | .lit _, _ => trivial
  | .binary _ _ _, he => ⟨Avoids.mono h he.1, Avoids.mono h he.2⟩
  | .unary _ e, he => Avoids.mono h (e := e) he
  | .paren e, he => Avoids.mono h (e := e) he
  | .call _ _ _ _, _ => trivial
  | .measure _, _ => trivial

theorem Expr.IndexAvoids.mono {hidden hidden' : List String} (h : hidden' ⊆ hidden) {e : Expr}
    (he : e.IndexAvoids hidden) : e.IndexAvoids hidden' := by
  cases e with
  | index name i => exact Expr.Avoids.mono h (e := i) he
  | _ => trivial

theorem Modifier.Avoids.mono {hidden hidden' : List String} (h : hidden' ⊆ hidden) {m : Modifier}
    (hm : m.Avoids hidden) : m.Avoids hidden' := fun e he => (hm e he).mono h

theorem TypeSpec.Avoids.mono {hidden hidden' : List String} (h : hidden' ⊆ hidden) {t : TypeSpec}
    (ht : t.Avoids hidden) : t.Avoids hidden' := fun e he => (ht e he).mono h

mutual

theorem Expr.Clear.mono {D : Definitions} {v w : Visibility} (h : v.Finer w) :
    ∀ {e : Expr}, e.Clear D w → e.Clear D v
  | .measure _, he => fun e hmem => (he e hmem).mono h.hidden
  | .call name ms ps qs, he => by
      obtain ⟨hms, hqs, hps⟩ := he
      refine ⟨fun m hm => (hms m hm).mono h.hidden, fun e hmem => (hqs e hmem).mono h.hidden, ?_⟩
      split at hps
      · exact fun e hmem => (hps e hmem).mono h.hidden
      · split at hps
        · exact Expr.ArgumentsClear.mono h hps
        · exact fun e hmem => (hps e hmem).mono h.hidden
  | .ident _, he => fun hx => h.bits (he (h.hidden hx))
  | .index _ i, he => Expr.Avoids.mono h.hidden (e := i) he
  | .lit _, _ => trivial
  | .binary _ _ _, he => ⟨he.1.mono h.hidden, he.2.mono h.hidden⟩
  | .unary _ e, he => Expr.Avoids.mono h.hidden (e := e) he
  | .paren e, he => Expr.Avoids.mono h.hidden (e := e) he

theorem Expr.ArgumentsClear.mono {D : Definitions} {v w : Visibility} (h : v.Finer w) :
    ∀ {es : List Expr} {params : List TypedName}, Expr.ArgumentsClear D w params es →
      Expr.ArgumentsClear D v params es
  | [], _, _ => trivial
  | _ :: _, [], _ => trivial
  | e :: es, p :: ps, hes => by
      refine ⟨?_, Expr.ArgumentsClear.mono h hes.2⟩
      have he := hes.1
      split
      · rename_i hkind
        rw [hkind] at he
        exact ⟨he.1.mono h.hidden, he.2.mono h.hidden⟩
      · rename_i hkind
        rw [hkind] at he
        exact ⟨he.1.mono h.hidden, he.2.mono h⟩
      · rename_i hqubit hbit
        split at he
        · exact absurd ‹_› hqubit
        · exact absurd ‹_› hbit
        · exact he.mono h

end

namespace Stmt

mutual

theorem visibility_finer (v : Visibility) : ∀ c : Stmt, (c.visibility v).Finer v
  | .declare d => v.declare_finer d
  | .const _ name _ => v.scalar_finer name
  | .block body => visibilityAfter_finer v body
  | .version _ | .includes _ | .gate .. | .subroutine .. | .returns _ | .arrow .. | .assign ..
  | .reset _ | .print _ | .apply .. | .expr _ => .refl v

theorem visibilityAfter_finer (v : Visibility) : ∀ b : List Stmt, (visibilityAfter v b).Finer v
  | [] => .refl v
  | c :: cs => (visibilityAfter_finer (c.visibility v) cs).trans (visibility_finer v c)

end

mutual

theorem visibility_mono {v w : Visibility} (h : v.Finer w) :
    ∀ c : Stmt, (c.visibility v).Finer (c.visibility w)
  | .declare d => h.declare d
  | .const _ name _ => h.scalar name
  | .block body => visibilityAfter_mono h body
  | .version _ | .includes _ | .gate .. | .subroutine .. | .returns _ | .arrow .. | .assign ..
  | .reset _ | .print _ | .apply .. | .expr _ => h

theorem visibilityAfter_mono {v w : Visibility} (h : v.Finer w) :
    ∀ b : List Stmt, (visibilityAfter v b).Finer (visibilityAfter w b)
  | [] => h
  | c :: cs => visibilityAfter_mono (visibility_mono h c) cs

end

mutual

theorem Clear.mono {D : Definitions} {v w : Visibility} (h : v.Finer w) :
    ∀ {c : Stmt}, c.Clear D w → c.Clear D v
  | .declare _, hc => fun hbit => (hc hbit).mono h.hidden
  | .const _ _ _, hc => Expr.Avoids.mono h.hidden hc
  | .returns none, _ => trivial
  | .returns (some _), hc => Expr.Clear.mono h hc
  | .arrow _ _, hc => ⟨hc.1.mono h, hc.2.mono h.hidden⟩
  | .assign _ _, hc => ⟨hc.1.mono h, hc.2.mono h.hidden⟩
  | .reset _, hc => fun e he => (hc e he).mono h.hidden
  | .print _, hc => fun e he => (hc e he).mono h.hidden
  | .apply _ _ _ _, hc => ⟨fun m hm => (hc.1 m hm).mono h.hidden,
      fun e he => (hc.2.1 e he).mono h.hidden, fun e he => (hc.2.2 e he).mono h.hidden⟩
  | .expr _, hc => Expr.Clear.mono h hc
  | .block _, hc => EachClear.mono h hc
  | .version _, _ | .includes _, _ | .gate .., _ | .subroutine .., _ => trivial

theorem EachClear.mono {D : Definitions} {v w : Visibility} (h : v.Finer w) :
    ∀ {b : List Stmt}, EachClear D w b → EachClear D v b
  | [], _ => trivial
  | c :: _, hb => ⟨hb.1.mono h, EachClear.mono (visibility_mono h c) hb.2⟩

end

theorem eachClear_append {D : Definitions} {v : Visibility} {b b' : List Stmt} :
    EachClear D v (b ++ b') ↔ EachClear D v b ∧ EachClear D (visibilityAfter v b) b' := by
  induction b generalizing v with
  | nil => simp [EachClear, visibilityAfter]
  | cons c cs ih =>
      rw [List.cons_append, EachClear, ih, EachClear, visibilityAfter, and_assoc]

/-! Statements in any order -/

mutual

theorem visibility_of_unordered {v : Visibility} (h : v.unordered = true) :
    ∀ c : Stmt, c.visibility v = v
  | .declare d => Visibility.declare_of_unordered h d
  | .const _ name _ => Visibility.scalar_of_unordered h name
  | .block body => visibilityAfter_of_unordered h body
  | .version _ | .includes _ | .gate .. | .subroutine .. | .returns _ | .arrow .. | .assign ..
  | .reset _ | .print _ | .apply .. | .expr _ => rfl

theorem visibilityAfter_of_unordered {v : Visibility} (h : v.unordered = true) :
    ∀ b : List Stmt, visibilityAfter v b = v
  | [] => rfl
  | c :: cs => by
      rw [visibilityAfter, visibility_of_unordered h c]
      exact visibilityAfter_of_unordered h cs

end

theorem eachClear_iff {D : Definitions} {v : Visibility} (h : v.unordered = true)
    {b : List Stmt} : EachClear D v b ↔ ∀ c ∈ b, c.Clear D v := by
  induction b with
  | nil => simp [EachClear]
  | cons c cs ih => rw [EachClear, visibility_of_unordered h, ih, List.forall_mem_cons]

theorem mem_callsIn {x : String × Bool} {u : Bool} {b : List Stmt} :
    x ∈ callsIn u b ↔ ∃ c ∈ b, x ∈ c.calls u := by
  induction b with
  | nil => simp [callsIn]
  | cons c cs ih => simp [callsIn, ih]

theorem avoids_inv (hidden : List String) : Modifier.inv.Avoids hidden := by
  intro e he
  cases he

theorem Clear.inv {D : Definitions} {v : Visibility} (hv : v.unordered = true) {c : Stmt}
    (h : c.Clear D v) : c.inv.Clear D v := by
  have hmodifiers : ∀ {ms : List Modifier}, (∀ m ∈ ms, m.Avoids v.hidden) →
      ∀ m ∈ ms ++ [Modifier.inv], m.Avoids v.hidden := by
    intro ms hms
    exact List.forall_mem_append.2 ⟨hms, by simpa using avoids_inv v.hidden⟩
  cases c with
  | apply b ms ps qs => exact ⟨hmodifiers h.1, h.2⟩
  | expr e =>
      cases e with
      | call name ms ps qs => exact ⟨hmodifiers h.1, h.2⟩
      | _ => exact h
  | block b =>
      rw [inv_block]
      refine (eachClear_iff hv).2 fun c hc => ?_
      obtain ⟨c', hc', rfl⟩ := List.mem_map.1 (List.mem_reverse.1 hc)
      exact Clear.inv hv ((eachClear_iff hv).1 h c' hc')
  | _ => exact h
termination_by sizeOf c

theorem mem_calls_inv {x : String × Bool} {c : Stmt} (h : x ∈ c.inv.calls true) :
    x ∈ c.calls true := by
  cases c with
  | expr e =>
      cases e with
      | call name ms ps qs => exact h
      | _ => exact h
  | block b =>
      rw [inv_block, calls, mem_callsIn] at h
      obtain ⟨c, hc, hx⟩ := h
      obtain ⟨c', hc', rfl⟩ := List.mem_map.1 (List.mem_reverse.1 hc)
      exact mem_callsIn.2 ⟨c', hc', mem_calls_inv hx⟩
  | _ => exact h
termination_by sizeOf c

/-! Statements under controls -/

section Add

variable {m : Modifier} {qs : List Expr}

mutual

theorem visibility_add (m : Modifier) (qs : List Expr) (v : Visibility) :
    ∀ c : Stmt, (c.add m qs).visibility v = c.visibility v
  | .expr e => by cases e <;> rfl
  | .block b => by
      rw [add_block, visibility, visibility]
      exact visibilityAfter_add m qs v b
  | .version _ | .includes _ | .declare _ | .const .. | .gate .. | .subroutine .. | .returns _
  | .arrow .. | .assign .. | .reset _ | .print _ | .apply .. => rfl

theorem visibilityAfter_add (m : Modifier) (qs : List Expr) (v : Visibility) :
    ∀ b : List Stmt, visibilityAfter v (b.map (Stmt.add m qs)) = visibilityAfter v b
  | [] => rfl
  | c :: cs => by
      rw [List.map_cons, visibilityAfter, visibilityAfter, visibility_add m qs v c]
      exact visibilityAfter_add m qs (c.visibility v) cs

end

mutual

theorem Clear.add {D : Definitions} (hm : ∀ hidden, m.Avoids hidden)
    (hqs : ∀ hidden, ∀ e ∈ qs, e.IndexAvoids hidden) :
    ∀ {c : Stmt} {v : Visibility}, c.Clear D v → (c.add m qs).Clear D v
  | .apply _ _ _ _, v, h => ⟨List.forall_mem_cons.2 ⟨hm v.hidden, h.1⟩, h.2.1,
      List.forall_mem_append.2 ⟨hqs v.hidden, h.2.2⟩⟩
  | .expr (.call _ _ _ _), v, h => ⟨List.forall_mem_cons.2 ⟨hm v.hidden, h.1⟩,
      List.forall_mem_append.2 ⟨hqs v.hidden, h.2.1⟩, h.2.2⟩
  | .expr (.ident _), _, h | .expr (.index _ _), _, h | .expr (.lit _), _, h
  | .expr (.binary ..), _, h | .expr (.unary ..), _, h | .expr (.paren _), _, h
  | .expr (.measure _), _, h => h
  | .block b, v, h => by
      rw [add_block]
      exact EachClear.add hm hqs (b := b) h
  | .version _, _, h | .includes _, _, h | .declare _, _, h | .const .., _, h | .gate .., _, h
  | .subroutine .., _, h | .returns _, _, h | .arrow .., _, h | .assign .., _, h
  | .reset _, _, h | .print _, _, h => h

theorem EachClear.add {D : Definitions} (hm : ∀ hidden, m.Avoids hidden)
    (hqs : ∀ hidden, ∀ e ∈ qs, e.IndexAvoids hidden) :
    ∀ {b : List Stmt} {v : Visibility}, EachClear D v b → EachClear D v (b.map (Stmt.add m qs))
  | [], _, _ => trivial
  | c :: cs, v, h => by
      refine ⟨Clear.add hm hqs h.1, ?_⟩
      rw [visibility_add]
      exact EachClear.add hm hqs h.2

end

theorem mem_calls_add (hm : m.mayInvert = false) {x : String × Bool} {u : Bool} {c : Stmt}
    (h : x ∈ (c.add m qs).calls u) : x ∈ c.calls u := by
  cases c with
  | expr e =>
      cases e with
      | call name ms ps qs' =>
          have hany : (m :: ms).any Modifier.mayInvert = ms.any Modifier.mayInvert := by
            rw [List.any_cons, hm, Bool.false_or]
          change x ∈ (name, u || (m :: ms).any Modifier.mayInvert) :: Expr.callsIn ps at h
          rw [hany] at h
          exact h
      | _ => exact h
  | block b =>
      rw [add_block, calls, mem_callsIn] at h
      obtain ⟨c, hc, hx⟩ := h
      obtain ⟨c', hc', rfl⟩ := List.mem_map.1 hc
      exact mem_callsIn.2 ⟨c', hc', mem_calls_add hm hx⟩
  | _ => exact h
termination_by sizeOf c

end Add

end Stmt

/-! Bodies of modified calls -/

/-- A body that looks up nothing that is hidden and calls only what is allowed. -/
structure Block.Allowed (D : Definitions) (C : Callee → Prop) (v : Visibility) (b : Block) :
    Prop where
  clear : Stmt.EachClear D v b
  calls : ∀ x ∈ Stmt.callsIn v.unordered b, ∀ c, D.callee? x = some c → C c

namespace Block.Allowed

variable {D : Definitions} {C : Callee → Prop} {v : Visibility} {b b' : Block}

theorem append (h : b.Allowed D C v) (h' : Allowed D C v b') : Allowed D C v (b ++ b') := by
  refine ⟨Stmt.eachClear_append.2 ⟨h.clear, h'.clear.mono (Stmt.visibilityAfter_finer v b)⟩, ?_⟩
  intro x hx
  obtain ⟨c, hc, hx⟩ := Stmt.mem_callsIn.1 hx
  rcases List.mem_append.1 hc with hc | hc
  · exact h.calls x (Stmt.mem_callsIn.2 ⟨c, hc, hx⟩)
  · exact h'.calls x (Stmt.mem_callsIn.2 ⟨c, hc, hx⟩)

theorem pow (h : b.Allowed D C v) (n : Nat) : Allowed D C v (b.pow n) := by
  rw [pow_eq]
  induction n with
  | zero => exact ⟨trivial, fun x hx => absurd hx List.not_mem_nil⟩
  | succ n ih =>
      rw [List.replicate_succ, List.flatten_cons]
      exact h.append ih

theorem inv (hv : v.unordered = true) (h : b.Allowed D C v) : Allowed D C v b.inv := by
  refine ⟨(Stmt.eachClear_iff hv).2 fun c hc => ?_, fun x hx => ?_⟩
  · obtain ⟨c', hc', rfl⟩ := List.mem_map.1 (List.mem_reverse.1 hc)
    exact ((Stmt.eachClear_iff hv).1 h.clear c' hc').inv hv
  · obtain ⟨c, hc, hx⟩ := Stmt.mem_callsIn.1 hx
    obtain ⟨c', hc', rfl⟩ := List.mem_map.1 (List.mem_reverse.1 hc)
    refine h.calls x (Stmt.mem_callsIn.2 ⟨c', hc', ?_⟩)
    rw [hv] at hx ⊢
    exact Stmt.mem_calls_inv hx

/-- Only a body that may be run in any order can be turned around. -/
theorem turned (as : List Applied) (hinvert : ∀ a ∈ as, a.factor < 0 → v.unordered = true)
    (h : b.Allowed D C v) : Allowed D C v (Block.turned as b) := by
  induction as with
  | nil => exact h
  | cons a as ih =>
      obtain ⟨ha, has⟩ := List.forall_mem_cons.1 hinvert
      have hrest := ih has
      cases a with
      | control on args => exact hrest
      | inverse => exact hrest.inv (ha (by decide))
      | power k =>
          rw [Block.turned]
          split
          · rename_i hk
            exact (hrest.inv (ha hk)).pow _
          · exact hrest.pow _

theorem addAll (gs : List (Modifier × List Expr)) (hgs : ∀ g ∈ gs, g.1.mayInvert = false ∧
      (∀ hidden, g.1.Avoids hidden) ∧ ∀ hidden, ∀ e ∈ g.2, e.IndexAvoids hidden)
    (h : b.Allowed D C v) : Allowed D C v (Block.addAll gs b) := by
  induction gs with
  | nil => exact h
  | cons g gs ih =>
      obtain ⟨⟨hinvert, hm, hqs⟩, hgs⟩ := List.forall_mem_cons.1 hgs
      have hrest := ih hgs
      refine ⟨hrest.clear.add hm hqs, fun x hx => ?_⟩
      obtain ⟨c, hc, hx⟩ := Stmt.mem_callsIn.1 hx
      obtain ⟨c', hc', rfl⟩ := List.mem_map.1 hc
      exact hrest.calls x (Stmt.mem_callsIn.2 ⟨c', hc', Stmt.mem_calls_add hinvert hx⟩)

end Block.Allowed

/-- What running a gate comes to is allowed if it looks up none of the names. -/
theorem Definitions.Reaches.allowed {D : Definitions} {g : GateDef} {c : Callee}
    (h : D.Reaches g c) {names : List String} (hclear : c.Clear D names) :
    Block.Allowed D (D.Reaches g) (c.visibility names) c.body := by
  refine ⟨hclear.1, fun x hx c' hc' => ?_⟩
  rw [Callee.unordered_visibility] at hx
  exact h.call hx hc'

/-- Controls that are handed down look up nothing and invert nothing. -/
theorem Applied.groups_avoid (start : Nat) (as : List Applied) :
    ∀ g ∈ groups start as, g.1.mayInvert = false ∧ (∀ hidden, g.1.Avoids hidden) ∧
      ∀ hidden, ∀ e ∈ g.2, e.IndexAvoids hidden := by
  intro g hg
  obtain ⟨on, k, n, rfl⟩ := of_mem_groups hg
  refine ⟨?_, ?_, ?_⟩
  · cases on <;> rfl
  · intro hidden e he
    unfold controlModifier at he
    dsimp only [Modifier.arg] at he
    split at he
    · cases he
      trivial
    · cases he
  · intro hidden e he
    obtain ⟨i, -, rfl⟩ := List.mem_map.1 he
    trivial

namespace Scope

variable {R : Type} [Scalar R]

theorem int?_of_exponent {s : Scope R} {kind : ModifierKind} {l : Literal} {k : Int64}
    (h : s.exponent (.mk kind (some (.lit l))) = .ok k) : l.int? = some k := by
  obtain ⟨c, hc, h⟩ := bind_ok_iff.1 h
  rw [fold, Const.ofLiteral] at hc
  cases hkind : l.kind with
  | int =>
      rw [hkind] at hc
      dsimp only at hc
      split at hc
      · rename_i v hv
        cases hc
        cases h
        exact hv
      · cases hc
  | float =>
      rw [hkind] at hc
      dsimp only at hc
      split at hc
      · cases hc
        cases h
      · cases hc
  | string =>
      rw [hkind] at hc
      cases hc
      cases h

theorem factor_of_mayInvert {s : Scope R} {m : Modifier} {qs : List Expr} {a : Applied}
    (h : s.resolveModifier m qs = .ok a) (hm : m.mayInvert = false) : ¬a.factor < 0 := by
  obtain ⟨kind, arg⟩ := m
  cases kind with
  | inv => cases hm
  | ctrl | negctrl =>
      obtain ⟨n, args, -, -, rfl⟩ := (resolveModifier_control rfl).1 h
      simp [Applied.factor]
  | pow =>
      obtain ⟨k, hk, h⟩ := bind_ok_iff.1 h
      cases h
      cases arg with
      | none => cases hm
      | some e =>
          cases e with
          | lit l => simpa [Modifier.mayInvert, Applied.factor, int?_of_exponent hk] using hm
          | _ => cases hm

/-- Modifiers that invert nothing leave the order of a body as it is. -/
theorem factor_of_applied {s : Scope R} {ms : List Modifier} {qs : List Expr} {as : List Applied}
    (h : s.applied ms qs = .ok as) (hms : ms.any Modifier.mayInvert = false) :
    ∀ a ∈ as, ¬a.factor < 0 := by
  induction ms generalizing qs as with
  | nil =>
      cases h
      exact fun a ha => absurd ha List.not_mem_nil
  | cons m ms ih =>
      obtain ⟨a, as', ha, has, rfl⟩ := applied_cons_ok_iff.1 h
      rw [List.any_cons, Bool.or_eq_false_iff] at hms
      exact List.forall_mem_cons.2 ⟨factor_of_mayInvert ha hms.1, ih has hms.2⟩

end Scope

end OpenQasm
