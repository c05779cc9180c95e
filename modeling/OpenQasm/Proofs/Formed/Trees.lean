import OpenQasm.Proofs.Inlining.Scopes
import OpenQasm.Proofs.Lockstep.Statements
import OpenQasm.Proofs.Parsing.Canonical

/-!
# Trees that can be run

A tree can hold what no text stands for: a statement that is an expression without an effect,
or a `pow` without an exponent. A formed tree holds neither, wherever it may come to be run.
Canonical trees are formed, and so are the bodies that modified calls make out of formed ones.
-/
namespace OpenQasm

mutual

/-- An expression whose calls, also those in arguments of calls, have complete modifiers. -/
def Expr.Formed : Expr → Prop
  | .call _ ms ps _ => (∀ m ∈ ms, m.Complete) ∧ Expr.EachFormed ps
  | _ => True

def Expr.EachFormed : List Expr → Prop
  | [] => True
  | e :: es => e.Formed ∧ Expr.EachFormed es

end

mutual

/-- A statement that there is a rule for, and so have the statements inside of it. -/
def Stmt.Formed : Stmt → Prop
  | .gate _ _ _ body => Stmt.EachFormed body
  | .subroutine _ _ _ _ body => Stmt.EachFormed body
  | .returns e => ∀ v ∈ e, v.Formed
  | .arrow e _ => e.Formed
  | .assign _ e => e.Formed
  | .apply _ ms _ _ => ∀ m ∈ ms, m.Complete
  | .expr e => e.isAction = true ∧ e.Formed
  | .block body => Stmt.EachFormed body
  | _ => True

def Stmt.EachFormed : List Stmt → Prop
  | [] => True
  | c :: cs => c.Formed ∧ Stmt.EachFormed cs

end

theorem Stmt.eachFormed_iff {b : List Stmt} : EachFormed b ↔ ∀ c ∈ b, c.Formed := by
  induction b with
  | nil => simp [EachFormed]
  | cons c cs ih => simp [EachFormed, ih]

/-! Canonical trees -/

mutual

theorem Expr.Canonical.formed : ∀ {e : Expr}, e.Canonical → e.Formed
  | .call _ _ _ _, h => by
      obtain ⟨rfl, -, hps, -⟩ := h
      exact ⟨fun m hm => absurd hm List.not_mem_nil, Expr.CanonicalArguments.formed hps⟩
  | .measure _, _ | .ident _, _ | .index .., _ | .lit _, _ | .binary .., _ | .unary .., _
  | .paren _, _ => trivial

theorem Expr.CanonicalArguments.formed : ∀ {es : List Expr}, Expr.CanonicalArguments es →
    Expr.EachFormed es
  | [], _ => trivial
  | _ :: _, h => ⟨Expr.Canonical.formed h.1, Expr.CanonicalArguments.formed h.2.2⟩

end

theorem Expr.CanonicalValue.formed {e : Expr} (h : e.CanonicalValue) : e.Formed := by
  cases e with
  | measure qs => trivial
  | _ => exact Expr.Canonical.formed h

theorem Expr.CanonicalAction.formed {e : Expr} (h : e.CanonicalAction) :
    e.isAction = true ∧ e.Formed := by
  cases e with
  | call name ms ps qs => exact ⟨rfl, fun m hm => (h.1 m hm).1, h.2.2.1.formed⟩
  | measure qs => exact ⟨rfl, trivial⟩
  | _ => exact absurd h id

mutual

theorem Stmt.Canonical.formed : ∀ {c : Stmt}, c.Canonical → c.Formed
  | .gate _ _ _ _, h => Stmt.CanonicalBody.formed h.2.2.2
  | .subroutine _ _ _ _ _, h => Stmt.CanonicalBody.formed h.2.2.2.2
  | .returns _, h => fun v hv => (h v hv).formed
  | .arrow _ _, h => h.1.formed.2
  | .assign _ _, h => h.2.formed
  | .apply _ _ _ _, h => fun m hm => (h.1 m hm).1
  | .expr _, h => Expr.CanonicalAction.formed h
  | .block _, h => Stmt.CanonicalBody.formed h
  | .version _, _ | .includes _, _ | .declare _, _ | .const .., _ | .reset _, _ | .print _, _ =>
      trivial

theorem Stmt.CanonicalBody.formed : ∀ {b : List Stmt}, Stmt.CanonicalBody b → Stmt.EachFormed b
  | [], _ => trivial
  | _ :: _, h => ⟨Stmt.Canonical.formed h.1, Stmt.CanonicalBody.formed h.2.2⟩

end

/-! Transformed bodies -/

theorem complete_inv : Modifier.inv.Complete := nofun

theorem complete_controlModifier (on : Bool) (n : Nat) :
    (controlModifier (if on then .ctrl else .negctrl) n).Complete := by
  cases on
  · exact nofun
  · exact nofun

namespace Stmt

theorem Formed.inv {c : Stmt} (h : c.Formed) : c.inv.Formed := by
  have hmodifiers : ∀ {ms : List Modifier}, (∀ m ∈ ms, m.Complete) →
      ∀ m ∈ ms ++ [Modifier.inv], m.Complete := fun hms =>
    List.forall_mem_append.2 ⟨hms, List.forall_mem_singleton.2 complete_inv⟩
  cases c with
  | apply b ms ps qs => exact hmodifiers h
  | expr e =>
      cases e with
      | call name ms ps qs => exact ⟨rfl, hmodifiers h.2.1, h.2.2⟩
      | _ => exact h
  | block b =>
      rw [inv_block]
      refine eachFormed_iff.2 fun c hc => ?_
      obtain ⟨c', hc', rfl⟩ := List.mem_map.1 (List.mem_reverse.1 hc)
      exact Formed.inv (eachFormed_iff.1 h c' hc')
  | _ => exact h
termination_by sizeOf c

theorem Formed.add {m : Modifier} (hm : m.Complete) (qs : List Expr) {c : Stmt} (h : c.Formed) :
    (c.add m qs).Formed := by
  cases c with
  | apply b ms ps qs => exact List.forall_mem_cons.2 ⟨hm, h⟩
  | expr e =>
      cases e with
      | call name ms ps qs => exact ⟨rfl, List.forall_mem_cons.2 ⟨hm, h.2.1⟩, h.2.2⟩
      | _ => exact h
  | block b =>
      rw [add_block]
      refine eachFormed_iff.2 (List.forall_mem_map.2 fun c hc => ?_)
      exact Formed.add hm qs (eachFormed_iff.1 h c hc)
  | _ => exact h
termination_by sizeOf c

end Stmt

/-! Definitions -/

/-- Definitions with formed bodies. -/
structure Definitions.Formed (D : Definitions) : Prop where
  gates : ∀ {name : String} {g : GateDef}, D.gates.get? name = some g → Stmt.EachFormed g.body
  subroutines : ∀ {name : String} {d : SubroutineDef}, D.subroutines.get? name = some d →
    Stmt.EachFormed d.body

namespace Scope

variable {R : Type} {s t : Scope R}

theorem formed_root [Scalar R] : (root : Scope R).definitions.Formed where
  gates h := by cases h
  subroutines h := by cases h

theorem formed_addGate (h : s.definitions.Formed) {d : GateDef} (hd : Stmt.EachFormed d.body)
    (ht : s.addGate d = .ok t) : t.definitions.Formed := by
  unfold addGate at ht
  split at ht
  · cases ht
    refine ⟨fun {name g} hget => ?_, h.subroutines⟩
    change Table.get? (Table.set _ _ _) name = some g at hget
    rw [Table.get?_set] at hget
    split at hget
    · cases hget
      exact hd
    · exact h.gates hget
  · cases ht

theorem formed_addSubroutine (h : s.definitions.Formed) {d : SubroutineDef}
    (hd : Stmt.EachFormed d.body) (ht : s.addSubroutine d = .ok t) : t.definitions.Formed := by
  unfold addSubroutine at ht
  split at ht
  · cases ht
    refine ⟨h.gates, fun {name d'} hget => ?_⟩
    change Table.get? (Table.set _ _ _) name = some d' at hget
    rw [Table.get?_set] at hget
    split at hget
    · cases hget
      exact hd
    · exact h.subroutines hget
  · cases ht

theorem definitions_setVariable {name : String} {c : Const R} (h : s.setVariable name c = .ok t) :
    t.definitions = s.definitions := by
  unfold setVariable at h
  split at h
  · cases h
  · cases h
    rfl

theorem definitions_bindArg {name : String} {arg : Arg R} (h : s.bindArg name arg = .ok t) :
    t.definitions = s.definitions := by
  cases arg with
  | qubits qs =>
      cases h
      rfl
  | bits bs =>
      cases h
      rfl
  | scalar c => exact definitions_setVariable h

theorem definitions_bindArgs {bs : List (TypedName × Arg R)} {s : Scope R}
    (h : bs.foldlM (fun t (p, arg) => t.bindArg p.name arg) s = .ok t) :
    t.definitions = s.definitions := by
  induction bs generalizing s with
  | nil =>
      cases h
      rfl
  | cons b bs ih =>
      rw [List.foldlM_cons] at h
      obtain ⟨s₁, hs₁, h⟩ := bind_ok_iff.1 h
      exact (ih h).trans (definitions_bindArg hs₁)

theorem definitions_foldl_addQubits (s : Scope R) (bs : List (String × List QubitId)) :
    (bs.foldl (fun t b => t.addQubits b.1 b.2) s).definitions = s.definitions := by
  rw [foldl_addQubits]
  rfl

variable [Scalar R]

theorem definitions_assign {target : Expr} {v : Value R} (h : s.assign target v = .ok t) :
    t.definitions = s.definitions := by
  obtain ⟨name, index, -, ⟨register, bs, -, -, rfl⟩ | ⟨-, -, -, c, -, hset⟩⟩ :=
    assign_ok_iff.1 h
  · rfl
  · exact definitions_setVariable hset

/-- A subroutine runs with the definitions of its caller. -/
theorem definitions_subroutineScope {d : SubroutineDef} {args : List (Arg R)} {qargs : List Expr}
    {inner : Scope R} (h : s.subroutineScope d args qargs = .ok inner) :
    inner.definitions = s.definitions := by
  unfold subroutineScope at h
  obtain ⟨qubits, -, h⟩ := bind_ok_iff.1 h
  obtain ⟨u, hu, h⟩ := bind_ok_iff.1 h
  cases h
  calc
    _ = u.definitions := definitions_foldl_addQubits u _
    _ = (s.enclosed d.name []).definitions := definitions_bindArgs hu

/-- A gate runs with the definitions of its caller, and with a formed body if it has one. -/
theorem formed_prepareGate {config : Config} {gate : GateDef} {call : Call} {inner : Scope R}
    {body : Block} (h : s.prepareGate config gate call = .ok (inner, body))
    (hgate : Stmt.EachFormed gate.body) :
    inner.definitions = s.definitions ∧ Stmt.EachFormed body := by
  obtain ⟨⟨p⟩, -⟩ := prepareGate_ok h
  refine ⟨?_, ?_⟩
  · rw [p.scope_eq, gateScope_eq]
    rfl
  · rw [Stmt.eachFormed_iff] at hgate ⊢
    rw [p.body_eq]
    refine Block.forall_mem_addAll (fun g hg c hc => ?_)
      (Block.forall_mem_turned (fun c hc => hc.inv) hgate _)
    obtain ⟨on, k, n, rfl⟩ := Applied.of_mem_groups hg
    exact hc.add (complete_controlModifier on n) _

end Scope

end OpenQasm
