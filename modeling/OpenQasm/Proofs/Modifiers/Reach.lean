import OpenQasm.Proofs.Modifiers.GateScope

/-!
# Gates that a gate comes to

A gate reaches the gates that its body calls, those that their bodies call, and so on.
If all these bodies do nothing but apply gates, so do their transformed copies.
-/
namespace OpenQasm

mutual

/-- A statement that only applies gates, where the gates it calls have names of a kind. -/
def Stmt.OnlyGates (T : String → Prop) : Stmt → Prop
  | .apply b _ _ _ => b ≠ .cmodexp2
  | .expr (.call name _ _ _) => T name
  | .block body => Stmt.EachOnlyGates T body
  | _ => False

def Stmt.EachOnlyGates (T : String → Prop) : List Stmt → Prop
  | [] => True
  | c :: cs => c.OnlyGates T ∧ Stmt.EachOnlyGates T cs

end

mutual

def Stmt.called : Stmt → List String
  | .expr (.call name _ _ _) => [name]
  | .block body => Stmt.calledIn body
  | _ => []

def Stmt.calledIn : List Stmt → List String
  | [] => []
  | c :: cs => c.called ++ Stmt.calledIn cs

end

namespace Stmt

variable {T U : String → Prop}

theorem eachOnlyGates_iff {b : List Stmt} : EachOnlyGates T b ↔ ∀ c ∈ b, c.OnlyGates T := by
  induction b with
  | nil => simp [EachOnlyGates]
  | cons c cs ih => simp [EachOnlyGates, ih]

theorem mem_calledIn {b : List Stmt} {name : String} :
    name ∈ calledIn b ↔ ∃ c ∈ b, name ∈ c.called := by
  induction b with
  | nil => simp [calledIn]
  | cons c cs ih => simp [calledIn, ih]

/-- Only the names that are called matter. -/
theorem OnlyGates.mono {c : Stmt} (h : c.OnlyGates T) (hTU : ∀ name ∈ c.called, T name → U name) :
    c.OnlyGates U := by
  cases c with
  | apply gate ms params qs => exact h
  | expr e =>
      cases e with
      | call name ms params qs => exact hTU name (List.mem_singleton_self name) h
      | _ => exact h
  | block b =>
      refine eachOnlyGates_iff.2 fun c hc => ?_
      refine OnlyGates.mono (eachOnlyGates_iff.1 h c hc) fun name hname => ?_
      exact hTU name (mem_calledIn.2 ⟨c, hc, hname⟩)
  | _ => exact h
termination_by sizeOf c

theorem OnlyGates.add {c : Stmt} (h : c.OnlyGates T) (m : Modifier) (qs : List Expr) :
    (c.add m qs).OnlyGates T := by
  cases c with
  | apply gate ms params qs => exact h
  | expr e => cases e <;> exact h
  | block b =>
      rw [add_block]
      refine eachOnlyGates_iff.2 (List.forall_mem_map.2 fun c hc => ?_)
      exact OnlyGates.add (eachOnlyGates_iff.1 h c hc) m qs
  | _ => exact h
termination_by sizeOf c

theorem OnlyGates.inv {c : Stmt} (h : c.OnlyGates T) : c.inv.OnlyGates T := by
  cases c with
  | apply gate ms params qs => exact h
  | expr e => cases e <;> exact h
  | block b =>
      rw [inv_block]
      refine eachOnlyGates_iff.2 fun c hc => ?_
      obtain ⟨c', hc', rfl⟩ := List.mem_map.1 (List.mem_reverse.1 hc)
      exact OnlyGates.inv (eachOnlyGates_iff.1 h c' hc')
  | _ => exact h
termination_by sizeOf c

end Stmt

namespace Block

variable {T : String → Prop} {b : Block}

theorem onlyGates_turned (h : Stmt.EachOnlyGates T b) (as : List Applied) :
    Stmt.EachOnlyGates T (turned as b) := by
  rw [Stmt.eachOnlyGates_iff] at h ⊢
  exact forall_mem_turned (fun c hc => hc.inv) h as

theorem onlyGates_addAll (h : Stmt.EachOnlyGates T b) (gs : List (Modifier × List Expr)) :
    Stmt.EachOnlyGates T (b.addAll gs) := by
  rw [Stmt.eachOnlyGates_iff] at h ⊢
  exact forall_mem_addAll (fun g _ c hc => hc.add g.1 g.2) h

end Block

/-- A gate and the gates that its body comes to. -/
inductive GateDef.Reaches (gates : Table GateDef) (g : GateDef) : GateDef → Prop
  | refl : Reaches gates g g
  | call {h h' : GateDef} {name : String} (hreach : Reaches gates g h)
      (hname : name ∈ Stmt.calledIn h.body) (hget : gates.get? name = some h') :
      Reaches gates g h'

/-- A gate that calls one other, which calls none, comes to these two. -/
theorem GateDef.Reaches.eq_or_eq {gates : Table GateDef} {g h k : GateDef} {name : String}
    (hcalls : Stmt.calledIn g.body = [name]) (hget : gates.get? name = some k)
    (hnone : Stmt.calledIn k.body = []) (hreach : g.Reaches gates h) : h = g ∨ h = k := by
  induction hreach with
  | refl => exact .inl rfl
  | call _ hname hget' ih =>
      rcases ih with rfl | rfl
      · rw [hcalls, List.mem_singleton] at hname
        subst hname
        exact .inr (Option.some.inj (hget'.symm.trans hget))
      · rw [hnone] at hname
        cases hname

namespace Scope

variable {R : Type} [Scalar R]

/-- A name that stands for a gate: one with a body, or one without. -/
def IsGate (s : Scope R) (name : String) : Prop :=
  s.gates.get? name = none → s.subroutines.get? name = none ∧ StandardGate.ofName? name ≠ none

/-- The bodies that a gate reaches only apply gates, and no formal argument of theirs has
a name that control qubits are bound under. -/
def OnlyGates (s : Scope R) (g : GateDef) : Prop :=
  ∀ h, g.Reaches s.gates h → Stmt.EachOnlyGates s.IsGate h.body ∧ ∀ x ∈ h.qargs, ¬IsControlName x

/-- A name that stands for a gate, which has to be of a kind if it has a body. -/
def Names (s : Scope R) (G : GateDef → Prop) (name : String) : Prop :=
  s.IsGate name ∧ ∀ h, s.gates.get? name = some h → G h

/-- Gates whose bodies only apply gates and call gates of the same kind. -/
def Closed (s : Scope R) (G : GateDef → Prop) : Prop :=
  ∀ h, G h → Stmt.EachOnlyGates (s.Names G) h.body ∧ ∀ x ∈ h.qargs, ¬IsControlName x

omit [Scalar R] in
theorem OnlyGates.closed {s : Scope R} {g : GateDef} (hg : s.OnlyGates g) :
    s.Closed (g.Reaches s.gates) := by
  refine fun h hreach => ⟨Stmt.eachOnlyGates_iff.2 fun c hc => ?_, (hg h hreach).2⟩
  refine (Stmt.eachOnlyGates_iff.1 (hg h hreach).1 c hc).mono fun name hname hgate => ?_
  exact ⟨hgate, fun h' hget => .call hreach (Stmt.mem_calledIn.2 ⟨c, hc, hname⟩) hget⟩

variable {s inner : Scope R} {gate : GateDef} {call : Call} {body : Block} {G : GateDef → Prop}

/-- Definitions are global, so a call sees the same gates. -/
theorem Prepared.names_eq (p : s.Prepared gate call inner body) : inner.Names G = s.Names G := by
  rw [p.scope_eq.trans (gateScope_eq ..)]
  rfl

theorem Prepared.closed (p : s.Prepared gate call inner body) (h : s.Closed G) :
    inner.Closed G := by
  unfold Closed
  rw [p.names_eq]
  exact h

/-- The transformed body of a gate applies gates of the same kind. -/
theorem Prepared.onlyGates (p : s.Prepared gate call inner body) (h : s.Closed G)
    (hgate : G gate) : Stmt.EachOnlyGates (inner.Names G) body := by
  rw [p.names_eq, p.body_eq]
  exact Block.onlyGates_addAll (Block.onlyGates_turned (h gate hgate).1 _) _

end Scope

end OpenQasm
