import OpenQasm.Proofs.Inlining.Scopes

/-!
# Arguments in place of formals

The body of a gate with the arguments of a call put in: a parameter becomes the actual
expression in parentheses, a formal qubit becomes the actual argument. What resolves in
the scope of the body then resolves to the same in the scope of the call.
-/
namespace OpenQasm

/-! Putting in arguments -/

/-- The actual expressions that a call has for the formals of a gate. -/
structure Actuals where
  params : List (String × Expr)
  qubits : List (String × Expr)

/-- The actual expressions of a call. -/
def GateDef.actuals (g : GateDef) (ps qs : List Expr) : Actuals :=
  ⟨g.params.zip ps, g.qargs.zip qs⟩

/-- Put in actual expressions, in parentheses, for parameters. Calls and measurements are
no constants, and are left. -/
def Expr.withParams (a : Actuals) : Expr → Expr
  | .ident x =>
      match a.params.lookup x with
      | some e => .paren e
      | none => .ident x
  | .index x i => .index x (i.withParams a)
  | .lit l => .lit l
  | .binary op l r => .binary op (l.withParams a) (r.withParams a)
  | .unary op e => .unary op (e.withParams a)
  | .paren e => .paren (e.withParams a)
  | .call name ms ps qs => .call name ms ps qs
  | .measure qs => .measure qs

/-- Put in an actual argument for a formal, or for a formal with an index. -/
def Expr.withQubits (a : Actuals) : Expr → Expr
  | .ident x => (a.qubits.lookup x).getD (.ident x)
  | .index x i =>
      match a.qubits.lookup x with
      | some (.ident y) => .index y (i.withParams a)
      | _ => .index x (i.withParams a)
  | e => e

/-- Put in actual expressions for the parameters in a modifier. -/
def Modifier.withParams (a : Actuals) : Modifier → Modifier
  | .mk kind arg => .mk kind (arg.map (Expr.withParams a))

mutual

/-- A statement of a body, as it stands in the scope of the call. -/
def Stmt.inlined (a : Actuals) : Stmt → Stmt
  | .apply b ms ps qs =>
      .apply b (ms.map (Modifier.withParams a)) (ps.map (Expr.withParams a))
        (qs.map (Expr.withQubits a))
  | .expr (.call name ms ps qs) =>
      .expr (.call name (ms.map (Modifier.withParams a)) (ps.map (Expr.withParams a))
        (qs.map (Expr.withQubits a)))
  | .block body => .block (Stmt.inlinedEach a body)
  | c => c

def Stmt.inlinedEach (a : Actuals) : List Stmt → List Stmt
  | [] => []
  | c :: cs => c.inlined a :: Stmt.inlinedEach a cs

end

/-- The body of a gate with the arguments of a call put in. -/
def GateDef.inlined (g : GateDef) (ps qs : List Expr) : Block :=
  Stmt.inlinedEach (g.actuals ps qs) g.body

/-- A formal that stands for an element of a register takes no index. -/
def Expr.Whole (a : Actuals) : Expr → Prop
  | .index x _ => ∀ y i, a.qubits.lookup x ≠ some (.index y i)
  | _ => True

mutual

/-- An application of a gate, or a block of them, that uses elements of registers whole. -/
def Stmt.Inlinable (D : Definitions) (a : Actuals) : Stmt → Prop
  | .apply _ _ _ qs => ∀ e ∈ qs, e.Whole a
  | .expr (.call name _ _ qs) =>
      (D.gates.get? name = none → D.subroutines.get? name = none) ∧ ∀ e ∈ qs, e.Whole a
  | .block body => Stmt.EachInlinable D a body
  | _ => False

def Stmt.EachInlinable (D : Definitions) (a : Actuals) : List Stmt → Prop
  | [] => True
  | c :: cs => c.Inlinable D a ∧ Stmt.EachInlinable D a cs

end

/-! The scope of a body and the scope of its call -/

section Lists

variable {α β γ : Type}

theorem forall2_of_mapM {f : α → Except EvalError β} {as : List α} {bs : List β}
    (h : as.mapM f = .ok bs) : List.Forall₂ (fun a b => f a = .ok b) as bs := by
  induction as generalizing bs with
  | nil =>
      rw [mapM_nil_ok_iff.1 h]
      exact .nil
  | cons a as ih =>
      obtain ⟨b, bs', hb, hbs, rfl⟩ := mapM_cons_ok_iff.1 h
      exact .cons hb (ih hbs)

/-- What a name is paired with goes with what the name stands for. -/
theorem exists_of_lookup_zip {P : String → γ → Prop} {Q : β → γ → Prop} {xs : List String}
    {bs : List β} {cs : List γ} (hP : List.Forall₂ P xs cs) (hQ : List.Forall₂ Q bs cs)
    {x : String} {b : β} (h : (xs.zip bs).lookup x = some b) : ∃ c, P x c ∧ Q b c := by
  induction hP generalizing bs with
  | nil => cases h
  | @cons y c xs cs hy _ ih =>
      cases hQ with
      | @cons b' _ bs _ hb' hbs =>
          rw [List.zip_cons_cons, List.lookup_cons] at h
          split at h
          · rename_i hxy
            obtain rfl : x = y := by simpa using hxy
            cases h
            exact ⟨c, hy, hb'⟩
          · exact ih hbs h

theorem not_mem_of_lookup_zip {xs : List String} {bs : List β} (hlen : bs.length = xs.length)
    {x : String} (h : (xs.zip bs).lookup x = none) : x ∉ xs := by
  have hnames : (xs.zip bs).map Prod.fst = xs := List.map_fst_zip (by omega)
  rw [← hnames]
  intro hmem
  obtain ⟨p, hp, rfl⟩ := List.mem_map.1 hmem
  simpa using List.lookup_eq_none_iff.1 h p hp

end Lists

/-- Registers of two tables with the same elements. -/
theorem RegisterTable.refines_select {α : Type} {t t' : RegisterTable α} {x y : String}
    {register : List α} (h : t.get? x = some register) (h' : t'.get? y = some register)
    (index : Option Int64) : Refines (t.select x index) (t'.select y index) := by
  unfold select
  rw [h, h']
  dsimp only
  split
  · exact .refl _
  · split
    · exact .refl _
    · exact .error _ _

namespace Scope

variable {R : Type} [Scalar R]

/-- A scope in which formals stand for what actual expressions are in another scope. -/
structure Instantiates (a : Actuals) (t s : Scope R) : Prop where
  bits : t.bits = .empty
  param : ∀ {x e}, a.params.lookup x = some e → ∃ c, t.const? x = some c ∧ s.fold e = .ok c
  const : ∀ {x}, a.params.lookup x = none → t.const? x = s.const? x
  qubit : ∀ {x e}, a.qubits.lookup x = some e →
    ∃ qs, t.qubits.get? x = some qs ∧ s.qubitsOf e = .ok qs
  free : ∀ {x}, a.qubits.lookup x = none → t.qubits.get? x = none

theorem qubitsOf_index_ok_iff {s : Scope R} {x : String} {i : Expr} {qs : List QubitId} :
    s.qubitsOf (.index x i) = .ok qs ↔ ∃ c k, s.fold i = .ok c ∧ c.toInt = .ok k ∧
      s.qubits.select x (some k) = .ok qs := by
  rw [qubitsOf, reference]
  simp only [bind_ok_iff, pure_ok_iff]
  constructor
  · rintro ⟨_, ⟨c, hc, k, hk, rfl⟩, hselect⟩
    exact ⟨c, k, hc, hk, hselect⟩
  · rintro ⟨c, k, hc, hk, hselect⟩
    exact ⟨_, ⟨c, hc, k, hk, rfl⟩, hselect⟩

theorem get?_of_qubitsOf {s : Scope R} {x : String} {qs : List QubitId}
    (h : s.qubitsOf (.ident x) = .ok qs) : s.qubits.get? x = some qs := by
  obtain ⟨_, href, hselect⟩ := bind_ok_iff.1 h
  cases href
  dsimp only [RegisterTable.select] at hselect
  split at hselect
  · cases hselect
  · rename_i register hget
    cases hselect
    exact hget

namespace Instantiates

variable {a : Actuals} {t s : Scope R}

theorem fold (h : Instantiates a t s) : ∀ e : Expr, Refines (t.fold e) (s.fold (e.withParams a))
  | .lit _ => .refl _
  | .ident x => by
      rw [Expr.withParams]
      split
      · rename_i e he
        obtain ⟨c, hc, hfold⟩ := h.param he
        rw [Scope.fold, hc, Scope.fold, hfold]
        exact .refl _
      · rename_i hx
        rw [Scope.fold, Scope.fold, h.const hx, h.bits]
        split
        · exact .refl _
        · exact .error _ _
  | .index x i => by
      rw [Expr.withParams, Scope.fold, Scope.fold, h.bits]
      refine (h.fold i).bind fun c => (Refines.refl _).bind fun k => ?_
      exact .error _ _
  | .binary _ l r => (h.fold l).bind fun _ => (h.fold r).bind fun _ => .refl _
  | .unary _ e => (h.fold e).bind fun _ => .refl _
  | .paren e => h.fold e
  | .call _ _ _ _ => .error _ _
  | .measure _ => .error _ _

theorem qubitsOf (h : Instantiates a t s) {e : Expr} (he : e.Whole a) :
    Refines (t.qubitsOf e) (s.qubitsOf (e.withQubits a)) := by
  cases e with
  | ident x =>
      rw [Expr.withQubits]
      cases hx : a.qubits.lookup x with
      | some e =>
          obtain ⟨qs, hqs, hactual⟩ := h.qubit hx
          rw [qubitsOf_ident hqs, Option.getD_some, hactual]
          exact .refl _
      | none =>
          intro qs hqs
          have hget := get?_of_qubitsOf hqs
          rw [h.free hx] at hget
          cases hget
  | index x i =>
      intro qs hqs
      obtain ⟨c, k, hc, hk, hselect⟩ := qubitsOf_index_ok_iff.1 hqs
      rw [Expr.withQubits]
      cases hx : a.qubits.lookup x with
      | none =>
          rw [RegisterTable.select, h.free hx] at hselect
          cases hselect
      | some e =>
          obtain ⟨register, hregister, hactual⟩ := h.qubit hx
          cases e with
          | ident y =>
              have hsame := RegisterTable.refines_select hregister (get?_of_qubitsOf hactual) (some k)
              exact qubitsOf_index_ok_iff.2 ⟨c, k, h.fold i c hc, hk, hsame qs hselect⟩
          | index y j => exact absurd hx (he y j)
          | _ => cases hactual
  | _ => exact .error _ _

theorem sameParts (h : Instantiates a t s) (ms : List Modifier) (ps : List Expr) {qs : List Expr}
    (hqs : ∀ e ∈ qs, e.Whole a) :
    t.SameParts s ms (ms.map (Modifier.withParams a)) ps (ps.map (Expr.withParams a)) qs
      (qs.map (Expr.withQubits a)) where
  modifiers := by
    refine List.forall₂_map_right_iff.2 (List.forall₂_same.2 fun m _ => ?_)
    obtain ⟨kind, arg⟩ := m
    refine ⟨rfl, ?_⟩
    cases arg with
    | none => exact .none
    | some e => exact .some (h.fold e)
  params := List.forall₂_map_right_iff.2 (List.forall₂_same.2 fun e _ => h.fold e)
  qargs := List.forall₂_map_right_iff.2 (List.forall₂_same.2 fun e he => h.qubitsOf (hqs e he))

end Instantiates

/-- In the scope of its body, the formals of a gate stand for the arguments of the call. -/
theorem instantiates_gateScope {gate : GateDef} (hparams : gate.params.Nodup)
    (hqargs : gate.qargs.Nodup) {s : Scope R} {ps qs : List Expr} {params : List (Const R)}
    {targets : List (List QubitId)} (hps : ps.mapM s.fold = .ok params)
    (hqs : qs.mapM s.qubitsOf = .ok targets) (hpslen : ps.length = gate.params.length)
    (hqslen : targets.length = gate.qargs.length) (call : Call) :
    Instantiates (gate.actuals ps qs) (s.gateScope gate call [] targets params) s where
  bits := by
    rw [gateScope_eq]
    rfl
  param := by
    intro x e he
    have hlen : params.length = gate.params.length := (length_of_mapM hps).trans hpslen
    obtain ⟨c, hget, hfold⟩ := exists_of_lookup_zip
      (forall2_gateScope_scalars hparams hlen s call [] targets) (forall2_of_mapM hps) he
    refine ⟨c, ?_, hfold⟩
    rw [const?, List.findSome?_cons, hget]
    rfl
  const := by
    intro x hx
    exact const?_gateScope (not_mem_of_lookup_zip hpslen hx) s call [] targets params
  qubit := by
    intro x e he
    exact exists_of_lookup_zip (forall2_gateScope_qubits hqargs hqslen s call [] params)
      (forall2_of_mapM hqs) he
  free := by
    intro x hx
    have hlen : qs.length = gate.qargs.length := (length_of_mapM hqs).symm.trans hqslen
    have hmem := not_mem_of_lookup_zip hlen hx
    rw [gateScope_eq]
    refine Table.get?_setAll_of_not_mem fun b hb hname => hmem ?_
    rw [← hname]
    exact (List.of_mem_zip hb).1

end Scope

end OpenQasm
