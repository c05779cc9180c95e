import OpenQasm.Proofs.Inlining.Simulation
import OpenQasm.Proofs.Lockstep.Statements
import OpenQasm.Proofs.Scoping.Lookups

/-!
# Running a definition from two scopes

A definition is called from two scopes that differ in some names. If it looks none of these
up, and neither does what it calls, both runs end in the same way: with the same result or
the same error, and with the same machine. Only an error that tells of the scopes around the
definition may stand on one side alone: a guard against recursion or depth fires depending on
what is being run already, and the refusal to assign to a constant may be about one further
out.
-/
namespace OpenQasm

/-! Results that are the same -/

/-- Two results that are related, or the same error, unless an error is excused. -/
def SameEnd {ε α β : Type} (E : ε → Prop) (Q : α → β → Prop) : Except ε α → Except ε β → Prop
  | .ok a, .ok b => Q a b
  | .error e, .error e' => E e ∨ E e' ∨ e' = e
  | .error e, .ok _ => E e
  | .ok _, .error e => E e

/-- Two actions that end in the same way and in the same state, unless an error is excused. -/
def RunsSame {ε σ α β : Type} (E : ε → Prop) (Q : α → β → Prop) (x : ExceptT ε (StateM σ) α)
    (y : ExceptT ε (StateM σ) β) : Prop :=
  ∀ m, match x m, y m with
    | (.ok a, m₁), (.ok b, m₂) => Q a b ∧ m₂ = m₁
    | (.error e, m₁), (.error e', m₂) => E e ∨ E e' ∨ e' = e ∧ m₂ = m₁
    | (.error e, _), (.ok _, _) => E e
    | (.ok _, _), (.error e, _) => E e

namespace SameEnd

variable {ε α β γ δ : Type} {E : ε → Prop} {Q : α → β → Prop} {S : γ → δ → Prop}

theorem refl (x : Except ε α) : SameEnd E Eq x x := by
  cases x with
  | ok a => exact rfl
  | error e => exact .inr (.inr rfl)

theorem throw (e : ε) : SameEnd E Q (throw e) (throw e) := .inr (.inr rfl)

theorem left {e : ε} (he : E e) (y : Except ε β) : SameEnd E Q (.error e) y := by
  cases y with
  | ok b => exact he
  | error e' => exact .inl he

theorem right {e : ε} (he : E e) (x : Except ε α) : SameEnd E Q x (.error e) := by
  cases x with
  | ok a => exact he
  | error e' => exact .inr (.inl he)

theorem mono {Q' : α → β → Prop} {x : Except ε α} {y : Except ε β} (h : SameEnd E Q x y)
    (hQ : ∀ a b, Q a b → Q' a b) : SameEnd E Q' x y := by
  cases x with
  | ok a => cases y with
    | ok b => exact hQ a b h
    | error e => exact h
  | error e => cases y with
    | ok b => exact h
    | error e' => exact h

theorem bind {x : Except ε α} {y : Except ε β} {f : α → Except ε γ} {g : β → Except ε δ}
    (h : SameEnd E Q x y) (hfg : ∀ a b, Q a b → SameEnd E S (f a) (g b)) :
    SameEnd E S (x >>= f) (y >>= g) := by
  cases x with
  | error e => cases y with
    | error e' => exact h
    | ok b => exact left (E := E) h (g b)
  | ok a => cases y with
    | error e' => exact right (E := E) h (f a)
    | ok b => exact hfg a b h

/-- The same step first. -/
theorem after (x : Except ε α) {f : α → Except ε γ} {g : α → Except ε δ}
    (hfg : ∀ a, SameEnd E S (f a) (g a)) : SameEnd E S (x >>= f) (x >>= g) := by
  refine (refl x).bind ?_
  rintro a _ rfl
  exact hfg a

end SameEnd

namespace RunsSame

variable {ε σ α β γ δ : Type} {E : ε → Prop} {Q Q' : α → β → Prop} {S : γ → δ → Prop}
  {x : ExceptT ε (StateM σ) α} {y : ExceptT ε (StateM σ) β}

theorem refl (x : ExceptT ε (StateM σ) α) : RunsSame E Eq x x := by
  intro m
  rcases x m with ⟨result, m₁⟩
  cases result with
  | ok a => exact ⟨rfl, rfl⟩
  | error e => exact .inr (.inr ⟨rfl, rfl⟩)

theorem pure {a : α} {b : β} (h : Q a b) :
    RunsSame E Q (pure a : ExceptT ε (StateM σ) α) (pure b) := fun _ => ⟨h, rfl⟩

theorem throw (e : ε) : RunsSame E Q (throw e : ExceptT ε (StateM σ) α) (throw e) :=
  fun _ => .inr (.inr ⟨rfl, rfl⟩)

theorem lift {x : Except ε α} {y : Except ε β} (h : SameEnd E Q x y) :
    RunsSame E Q (liftM x : ExceptT ε (StateM σ) α) (liftM y) := by
  intro m
  cases x with
  | ok a => cases y with
    | ok b => exact ⟨h, rfl⟩
    | error e => exact h
  | error e => cases y with
    | ok b => exact h
    | error e' => exact h.imp id (Or.imp id fun heq => ⟨heq, rfl⟩)

theorem bind {f : α → ExceptT ε (StateM σ) γ} {g : β → ExceptT ε (StateM σ) δ}
    (h : RunsSame E Q x y) (hfg : ∀ a b, Q a b → RunsSame E S (f a) (g b)) :
    RunsSame E S (x >>= f) (y >>= g) := by
  intro m
  have hm := h m
  rw [run_bind, run_bind]
  revert hm
  rcases x m with ⟨result, m₁⟩
  rcases y m with ⟨result', m₂⟩
  cases result with
  | ok a => cases result' with
    | ok b =>
        rintro ⟨hab, rfl⟩
        exact hfg a b hab m₂
    | error e =>
        intro he
        dsimp only
        rcases f a m₁ with ⟨_ | _, _⟩
        · exact .inr (.inl he)
        · exact he
  | error e => cases result' with
    | ok b =>
        intro he
        dsimp only
        rcases g b m₂ with ⟨_ | _, _⟩
        · exact .inl he
        · exact he
    | error e' => exact id

/-- Steps with the same result first. -/
theorem bind_eq {x y : ExceptT ε (StateM σ) α} {f : α → ExceptT ε (StateM σ) γ}
    {g : α → ExceptT ε (StateM σ) δ} (h : RunsSame E Eq x y)
    (hfg : ∀ a, RunsSame E S (f a) (g a)) : RunsSame E S (x >>= f) (y >>= g) := by
  refine h.bind ?_
  rintro a _ rfl
  exact hfg a

theorem after (x : ExceptT ε (StateM σ) α) {f : α → ExceptT ε (StateM σ) γ}
    {g : α → ExceptT ε (StateM σ) δ} (hfg : ∀ a, RunsSame E S (f a) (g a)) :
    RunsSame E S (x >>= f) (x >>= g) := (refl x).bind_eq hfg

theorem mono (h : RunsSame E Q x y) (hQ : ∀ a b, Q a b → Q' a b) : RunsSame E Q' x y := by
  intro m
  have hm := h m
  revert hm
  rcases x m with ⟨_ | a, m₁⟩
  · rcases y m with ⟨_ | b, m₂⟩
    · exact id
    · exact id
  · rcases y m with ⟨_ | b, m₂⟩
    · exact id
    · exact And.imp (hQ a b) id

/-- What holds of every result of the first action. -/
theorem of_left {T : α → Prop} (h : RunsSame E Q x y)
    (hT : ∀ {m a m₁}, x m = (.ok a, m₁) → T a) : RunsSame E (fun a b => Q a b ∧ T a) x y := by
  intro m
  have hm := h m
  have hx : ∀ a m₁, x m = (.ok a, m₁) → T a := fun a m₁ => hT
  revert hm hx
  rcases x m with ⟨_ | a, m₁⟩
  · rcases y m with ⟨_ | b, m₂⟩
    · exact fun hm _ => hm
    · exact fun hm _ => hm
  · rcases y m with ⟨_ | b, m₂⟩
    · exact fun hm _ => hm
    · exact fun hm hx => ⟨⟨hm.1, hx a m₁ rfl⟩, hm.2⟩

/-- The outcome, if no error of either action is excused. -/
theorem outcome {x y : ExceptT ε (StateM σ) α} (h : RunsSame E Eq x y) {m : σ}
    (hx : ∀ e, (x m).1 = .error e → ¬E e) (hy : ∀ e, (y m).1 = .error e → ¬E e) :
    y m = x m := by
  have hm := h m
  revert hm hx hy
  rcases x m with ⟨_ | a, m₁⟩
  · rcases y m with ⟨_ | b, m₂⟩
    · rintro hx hy (he | he | ⟨rfl, rfl⟩)
      · exact absurd he (hx _ rfl)
      · exact absurd he (hy _ rfl)
      · rfl
    · exact fun hx _ he => absurd he (hx _ rfl)
  · rcases y m with ⟨_ | b, m₂⟩
    · exact fun _ hy he => absurd he (hy _ rfl)
    · rintro - - ⟨rfl, rfl⟩
      rfl

end RunsSame

/-! Actions in a scope of their own -/

namespace Exec

variable {R B α β : Type}

theorem within_bind (x : Exec R B α) (f : α → Exec R B β) (s : Scope R) :
    (x >>= f).within s = (do
      let p ← x.within s
      (f p.2).within p.1) := by
  funext m
  rw [run_bind, within, within, run_bind]
  rcases x (s, m) with ⟨_ | a, t, m₁⟩
  · rfl
  · rfl

theorem within_ofRun (f : Scope R → Run R B α) (s : Scope R) :
    (ofRun f).within s = (do
      let a ← f s
      return (s, a)) := by
  funext m
  rw [run_bind, within, ofRun]
  rcases f s m with ⟨_ | a, m₁⟩
  · rfl
  · rfl

theorem within_update (f : Scope R → Except EvalError (Scope R)) (s : Scope R) :
    (update f : Exec R B Unit).within s = (do
      let t ← liftM (f s)
      return (t, ())) := by
  funext m
  rw [run_bind, within, update]
  cases f s with
  | error e => rfl
  | ok t => rfl

end Exec

/-! Scopes around a definition -/

/-- Errors that tell of the scopes a definition was called from: those of the guards, and the
refusal to assign to a constant that may be theirs. -/
def EvalError.TellsCaller (names : List String) : EvalError → Prop
  | recursion _ => True
  | depthLimit _ => True
  | assignToConst x => x ∈ names
  | _ => False

/-- What two runs have in common: the definitions, the names that the scopes around them may
differ in, and what may be called. -/
structure Outlook where
  definitions : Definitions
  names : List String
  allowed : Callee → Prop

namespace Outlook

variable {R B : Type}

/-- Everything that may be called looks up none of the names, and calls what is allowed. -/
def Closed (O : Outlook) : Prop :=
  ∀ c, O.allowed c → Block.Allowed O.definitions O.allowed (c.visibility O.names) c.body ∧
    ∀ t ∈ c.result, t.kind = .bit → t.Avoids (c.visibility O.names).hidden

def CallsAllowed (O : Outlook) (xs : List (String × Bool)) : Prop :=
  ∀ x ∈ xs, ∀ c, O.definitions.callee? x = some c → O.allowed c

/-- Errors that need not be the same. -/
def Excused (O : Outlook) : EvalError → Prop := EvalError.TellsCaller O.names

/-- Two scopes that calls are made from. -/
structure Calls (O : Outlook) (s s' : Scope R) : Prop where
  definitions : s.definitions = O.definitions
  definitions' : s'.definitions = O.definitions
  const : ∀ x, x ∉ O.names → s'.const? x = s.const? x

/-- Two scopes in which a body is run. -/
structure Beside (O : Outlook) (v : Visibility) (s s' : Scope R) : Prop
    extends Scope.Agrees v s s' where
  definitions : s.definitions = O.definitions
  definitions' : s'.definitions = O.definitions
  hidden : v.hidden ⊆ O.names
  modifiers : s'.modifiers = s.modifiers
  running : s'.chain.getLast? = s.chain.getLast?
  isLocal : s.isGlobal = false
  isLocal' : s'.isGlobal = false

variable {O : Outlook} {v w : Visibility} {s s' : Scope R}

namespace Calls

theorem gates (h : O.Calls s s') : s.gates = O.definitions.gates ∧ s'.gates = O.definitions.gates :=
  ⟨congrArg Definitions.gates h.definitions, congrArg Definitions.gates h.definitions'⟩

theorem subroutines (h : O.Calls s s') : s.subroutines = O.definitions.subroutines ∧
    s'.subroutines = O.definitions.subroutines :=
  ⟨congrArg Definitions.subroutines h.definitions,
    congrArg Definitions.subroutines h.definitions'⟩

theorem gateScope (h : O.Calls s s') {gate : GateDef} (unordered : Bool) {call call' : Call}
    (hmodifiers : call'.modifiers = call.modifiers) (controls : List QubitId)
    (targets : List (List QubitId)) {params : List (Const R)}
    (hlen : params.length = gate.params.length) :
    O.Beside ((Callee.gate gate unordered).visibility O.names)
      (s.gateScope gate call controls targets params)
      (s'.gateScope gate call' controls targets params) := by
  have hagrees := Scope.agrees_gateScope h.const unordered call call' controls targets hlen
  rw [Scope.gateScope_eq, Scope.gateScope_eq] at hagrees ⊢
  exact { hagrees with
    definitions := h.definitions
    definitions' := h.definitions'
    hidden := List.filter_subset_self _
    modifiers := hmodifiers
    running := by rw [Scope.enclosed, Scope.enclosed, List.getLast?_concat, List.getLast?_concat]
    isLocal := rfl
    isLocal' := rfl }

theorem enclosed (h : O.Calls s s') (name : String) :
    O.Beside ⟨O.names, [], false⟩ (s.enclosed name []) (s'.enclosed name []) :=
  { Scope.agrees_enclosed h.const name with
    definitions := h.definitions
    definitions' := h.definitions'
    hidden := fun _ hx => hx
    modifiers := rfl
    running := by rw [Scope.enclosed, Scope.enclosed, List.getLast?_concat, List.getLast?_concat]
    isLocal := rfl
    isLocal' := rfl }

end Calls

namespace Beside

theorem calls (h : O.Beside v s s') : O.Calls s s' :=
  ⟨h.definitions, h.definitions', fun x hx => h.const x fun hmem => hx (h.hidden hmem)⟩

theorem mono (hw : v.Finer w) (hsub : w.hidden ⊆ O.names) (h : O.Beside v s s') :
    O.Beside w s s' :=
  { h with
    toAgrees := h.toAgrees.mono hw
    hidden := hsub }

/-! Changes to both scopes -/

theorem addQubits (h : O.Beside v s s') (name : String) (qs : List QubitId) :
    O.Beside v (s.addQubits name qs) (s'.addQubits name qs) :=
  { h with toAgrees := h.toAgrees.addQubits name qs }

theorem addBits (h : O.Beside v s s') (name : String) (bs : List Bool) :
    O.Beside (v.bit name) (s.addBits name bs) (s'.addBits name bs) :=
  { h with
    toAgrees := h.toAgrees.addBits name bs
    hidden := List.Subset.trans (v.bit_finer name).hidden h.hidden }

theorem setScalar (h : O.Beside v s s') (name : String) (b : Binding R) :
    O.Beside (v.scalar name) { s with scalars := s.scalars.set name b }
      { s' with scalars := s'.scalars.set name b } :=
  { h with
    toAgrees := h.toAgrees.setScalar name b
    hidden := List.Subset.trans (v.scalar_finer name).hidden h.hidden }

theorem setVariable (h : O.Beside v s s') (name : String) (c : Const R) :
    SameEnd O.Excused (O.Beside (v.scalar name)) (s.setVariable name c)
      (s'.setVariable name c) := by
  have hset := h.setScalar name ⟨c, true⟩
  rw [h.scalars] at hset
  unfold Scope.setVariable
  rw [h.scalars]
  split
  · exact .throw _
  · exact hset

variable [Scalar R]

/-- An assignment goes to bits or to a variable of the scope itself. Otherwise it is refused,
and whether as one to a constant may depend on the scopes around. -/
theorem assign (h : O.Beside v s s') {target : Expr} (htarget : target.IndexAvoids v.hidden)
    (val : Value R) :
    SameEnd O.Excused (O.Beside v) (s.assign target val) (s'.assign target val) := by
  unfold Scope.assign
  rw [h.reference_eq htarget]
  refine .after _ fun r => ?_
  obtain ⟨name, index⟩ := r
  dsimp only
  rw [h.bits, h.isVariable_eq, h.qubits]
  split
  · refine .after _ fun bs => ?_
    exact (h.addBits name bs).mono (v.bit_finer name) h.hidden
  · split
    · refine .after _ fun c => ?_
      exact (h.setVariable name c).mono fun t t' ht => ht.mono (v.scalar_finer name) h.hidden
    · split
      · exact .throw _
      · by_cases hname : name ∈ v.hidden
        · have hexcused : O.Excused (.assignToConst name) := h.hidden hname
          split
          · exact .left hexcused _
          · split
            · exact .right hexcused _
            · exact .throw _
        · rw [h.const name hname]
          split
          · exact .throw _
          · exact .throw _

/-! Parts of an evaluation -/

omit [Scalar R] in
theorem checkUnitary_eq (h : O.Beside v s s') (what : String) :
    s'.checkUnitary what = s.checkUnitary what := by
  rw [Scope.checkUnitary, Scope.checkUnitary, h.modifiers, h.running]

variable [Backend R B]

theorem measure_eq (h : O.Beside v s s') {qs : List Expr} (hqs : ∀ e ∈ qs, e.IndexAvoids v.hidden) :
    Run.measure (B := B) s' qs = Run.measure s qs := by
  rw [Run.measure, Run.measure, h.checkUnitary_eq, h.measuredQubits_eq hqs]

theorem reset_eq (h : O.Beside v s s') {qs : List Expr} (hqs : ∀ e ∈ qs, e.IndexAvoids v.hidden) :
    Run.reset (B := B) s' qs = Run.reset s qs := by
  rw [Run.reset, Run.reset, h.checkUnitary_eq, h.resetEach_eq hqs]

section Apply

variable {ms : List Modifier} {ps qs : List Expr} (h : O.Beside v s s')
  (hms : ∀ m ∈ ms, m.Avoids v.hidden) (hps : ∀ e ∈ ps, e.Avoids v.hidden)
  (hqs : ∀ e ∈ qs, e.IndexAvoids v.hidden)

include h hms hps hqs

theorem applyStandard_eq (gate : StandardGate) :
    Run.applyStandard (B := B) s' gate ms ps qs = Run.applyStandard s gate ms ps qs := by
  rw [Run.applyStandard, Run.applyStandard, h.standardOperations_eq hqs hps hms]

theorem applyBuiltin_eq (gate : Builtin) :
    Run.applyBuiltin (B := B) s' gate ms ps qs = Run.applyBuiltin s gate ms ps qs := by
  have hfourier : ∀ gate, Run.applyFourier (B := B) s' gate ms ps qs =
      Run.applyFourier s gate ms ps qs := by
    intro gate
    rw [Run.applyFourier, Run.applyFourier, h.fourierCall_eq hqs hms]
  cases gate with
  | qft => exact hfourier .qft
  | iqft => exact hfourier .iqft
  | cmodexp2 =>
      rw [Run.applyBuiltin, Run.applyBuiltin, Run.applyModularPower, Run.applyModularPower,
        h.modularPowerCall_eq hqs hps]
  | _ => exact h.applyStandard_eq hms hps hqs _

end Apply

/-! Scopes of subroutines -/

omit [Scalar R] [Backend R B]

theorem bindArg (h : O.Beside v s s') {p : TypedName} {arg : Arg R} (harg : p.Takes arg) :
    SameEnd O.Excused (O.Beside (v.declare p)) (s.bindArg p.name arg) (s'.bindArg p.name arg) := by
  cases arg with
  | qubits qs =>
      have hkind : p.type.kind = .qubit := harg
      rw [Visibility.declare, hkind]
      exact h.addQubits p.name qs
  | bits bs =>
      have hkind : p.type.kind = .bit := harg
      rw [Visibility.declare, hkind]
      exact h.addBits p.name bs
  | scalar c =>
      obtain ⟨hqubit, hbit⟩ : p.type.kind ≠ .qubit ∧ p.type.kind ≠ .bit := harg
      rw [v.declare_scalar hqubit hbit]
      exact h.setVariable p.name c

theorem bindArgs {params : List TypedName} {args : List (Arg R)}
    (hargs : List.Forall₂ TypedName.Takes params args) (h : O.Beside v s s') :
    SameEnd O.Excused (O.Beside (params.foldl Visibility.declare v))
      ((params.zip args).foldlM (fun t (p, arg) => t.bindArg p.name arg) s)
      ((params.zip args).foldlM (fun t (p, arg) => t.bindArg p.name arg) s') := by
  induction hargs generalizing v s s' with
  | nil => exact h
  | cons harg _ ih =>
      rw [List.zip_cons_cons, List.foldlM_cons, List.foldlM_cons]
      exact (h.bindArg harg).bind fun t t' ht => ih ht

theorem subroutineScope [Scalar R] (h : O.Beside v s s') {d : SubroutineDef} {args : List (Arg R)}
    (hargs : List.Forall₂ TypedName.Takes d.params args) {qs : List Expr}
    (hqs : ∀ e ∈ qs, e.IndexAvoids v.hidden) :
    SameEnd O.Excused (O.Beside ((Callee.subroutine d).visibility O.names))
      (s.subroutineScope d args qs) (s'.subroutineScope d args qs) := by
  unfold Scope.subroutineScope
  rw [h.mapM_qubitsOf_eq hqs]
  refine .after _ fun qubits => ?_
  refine (bindArgs hargs (h.calls.enclosed d.name)).bind fun t t' ht => ?_
  exact List.foldl_rel ht fun b _ _ _ h => h.addQubits b.1 b.2

end Beside

end Outlook

end OpenQasm
