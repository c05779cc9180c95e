import OpenQasm.Proofs.Modifiers.Action
import OpenQasm.Proofs.Modifiers.GateScope

/-!
# Gates that a body comes down to

A body that only applies gates stands for a sequence of gates without a body: each
call is replaced by the transformed body of the gate that it calls, down to the
gates that have none. Inverting the body inverts the sequence.
-/
namespace OpenQasm

namespace Scope

variable {R : Type}

def bare (s : Scope R) : Scope R := { s with modifiers := [] }

variable [Scalar R]

/-- The modifiers and the arguments of a gate without a body resolve to a leaf. -/
def Resolves (s : Scope R) (gate : LeafGate) (ms : List Modifier) (ps qs : List Expr)
    (l : Leaf R) : Prop :=
  ∃ as params targets, s.applied ms qs = .ok as ∧ ps.mapM s.angle = .ok params ∧
    qs.mapM s.qubitsOf = .ok (as.flatMap Applied.args ++ targets) ∧
    l = ⟨gate, params, .ofInt (Applied.exponent as), as.flatMap Applied.pairs, targets⟩

/-- One more inversion, inside all modifiers. -/
theorem applied_append_inv {s : Scope R} {ms : List Modifier} {qs : List Expr} {as : List Applied}
    (h : s.applied ms qs = .ok as) : s.applied (ms ++ [Modifier.inv]) qs = .ok (as ++ [.inverse]) := by
  induction ms generalizing qs as with
  | nil =>
      cases h
      rfl
  | cons m ms ih =>
      obtain ⟨a, as', ha, has, rfl⟩ := applied_cons_ok_iff.1 h
      exact applied_cons_ok_iff.2 ⟨a, as' ++ [.inverse], ha, ih has, rfl⟩

theorem Resolves.inv {s : Scope R} {gate : LeafGate} {ms : List Modifier} {ps qs : List Expr}
    {l : Leaf R} (h : s.Resolves gate ms ps qs l) :
    s.Resolves gate (ms ++ [Modifier.inv]) ps qs l.inverse := by
  obtain ⟨as, params, targets, has, hparams, hargs, rfl⟩ := h
  refine ⟨as ++ [.inverse], params, targets, applied_append_inv has, hparams, ?_, ?_⟩
  · simpa [Applied.args] using hargs
  · simp [Leaf.inverse, Applied.exponent_append_inverse, Int64.ofInt_neg, Applied.pairs]

end Scope

namespace Block

theorem turned_append_inverse (as : List Applied) (b : Block) :
    turned (as ++ [.inverse]) b = (turned as b).inv := by
  induction as with
  | nil => rfl
  | cons a as ih =>
      cases a with
      | control on args => exact ih
      | inverse => exact congrArg Block.inv ih
      | power k =>
          rw [List.cons_append, turned, turned, ih]
          split
          · rw [inv_pow]
          · rw [inv_pow]

end Block

theorem Applied.groups_append_inverse (start : Nat) (as : List Applied) :
    groups start (as ++ [.inverse]) = groups start as := by
  induction as generalizing start with
  | nil => rfl
  | cons a as ih =>
      cases a with
      | control on args =>
          rw [List.cons_append, groups, groups, ih]
      | inverse => exact ih start
      | power k => exact ih start

namespace Scope

variable {R : Type} [Scalar R]

def Prepared.inv {s : Scope R} {gate : GateDef} {name : String} {ms : List Modifier}
    {ps qs : List Expr} {inner : Scope R} {body : Block}
    (p : s.Prepared gate ⟨name, ms, ps, qs⟩ inner body) :
    s.Prepared gate ⟨name, ms ++ [Modifier.inv], ps, qs⟩
      { inner with modifiers := ms ++ [Modifier.inv] } body.inv where
  params := p.params
  modifiers := p.modifiers ++ [.inverse]
  controls := p.controls
  targets := p.targets
  fold_params := p.fold_params
  length_params := p.length_params
  applied := applied_append_inv p.applied
  args := by simpa [Applied.args] using p.args
  counts := List.forall_mem_append.2 ⟨p.counts, by simp [Applied.Counted]⟩
  resolved := p.resolved
  length_targets := p.length_targets
  scope_eq := by
    have h := congrArg (fun t : Scope R => { t with modifiers := ms ++ [Modifier.inv] }) p.scope_eq
    rw [gateScope_eq] at h ⊢
    exact h
  body_eq := by
    rw [Block.turned_append_inverse, Applied.groups_append_inverse, ← Block.inv_addAll]
    exact congrArg Block.inv p.body_eq

end Scope

variable {R : Type} [Scalar R]

/-- The leaves that a body comes down to in a scope. -/
inductive Expands : Scope R → List Stmt → List (Leaf R) → Prop
  | nil {s : Scope R} : Expands s [] []
  | apply {s : Scope R} {b : Builtin} {gate : LeafGate} {ms : List Modifier} {ps qs : List Expr}
      {l : Leaf R} {cs : List Stmt} {ls : List (Leaf R)} (hgate : LeafGate.ofBuiltin? b = some gate)
      (hl : s.Resolves gate ms ps qs l) (hcs : Expands s cs ls) :
      Expands s (.apply b ms ps qs :: cs) (l :: ls)
  | standard {s : Scope R} {name : String} {gate : StandardGate} {ms : List Modifier}
      {ps qs : List Expr} {l : Leaf R} {cs : List Stmt} {ls : List (Leaf R)}
      (hname : s.gates.get? name = none) (hgate : StandardGate.ofName? name = some gate)
      (hl : s.Resolves (.standard gate) ms ps qs l) (hcs : Expands s cs ls) :
      Expands s (.expr (.call name ms ps qs) :: cs) (l :: ls)
  | call {s inner : Scope R} {name : String} {gate : GateDef} {ms : List Modifier}
      {ps qs : List Expr} {body : Block} {cs : List Stmt} {ls ls' : List (Leaf R)}
      (hname : s.gates.get? name = some gate) (hformals : ∀ x ∈ gate.qargs, ¬IsControlName x)
      (p : s.Prepared gate ⟨name, ms, ps, qs⟩ inner body) (hbody : Expands inner.bare body ls)
      (hcs : Expands s cs ls') : Expands s (.expr (.call name ms ps qs) :: cs) (ls ++ ls')
  | block {s : Scope R} {b cs : List Stmt} {ls ls' : List (Leaf R)} (hb : Expands s b ls)
      (hcs : Expands s cs ls') : Expands s (.block b :: cs) (ls ++ ls')

namespace Expands

variable {s : Scope R} {b b' : Block} {ls ls' : List (Leaf R)}

theorem of_apply {gate : LeafGate} {g : Builtin} {ms : List Modifier} {ps qs : List Expr}
    (hgate : LeafGate.ofBuiltin? g = some gate) (h : Expands s (.apply g ms ps qs :: b) ls) :
    ∃ l ls', s.Resolves gate ms ps qs l ∧ Expands s b ls' ∧ ls = l :: ls' := by
  cases h with
  | apply hgate' hl hcs =>
      obtain rfl := Option.some.inj (hgate'.symm.trans hgate)
      exact ⟨_, _, hl, hcs, rfl⟩

theorem of_standard {name : String} {gate : StandardGate} {ms : List Modifier} {ps qs : List Expr}
    (hname : s.gates.get? name = none) (hgate : StandardGate.ofName? name = some gate)
    (h : Expands s (.expr (.call name ms ps qs) :: b) ls) :
    ∃ l ls', s.Resolves (.standard gate) ms ps qs l ∧ Expands s b ls' ∧ ls = l :: ls' := by
  cases h with
  | standard _ hgate' hl hcs =>
      obtain rfl := Option.some.inj (hgate'.symm.trans hgate)
      exact ⟨_, _, hl, hcs, rfl⟩
  | call hname' => cases hname.symm.trans hname'

theorem of_call {name : String} {gate : GateDef} {ms : List Modifier} {ps qs : List Expr}
    (hname : s.gates.get? name = some gate) (h : Expands s (.expr (.call name ms ps qs) :: b) ls) :
    ∃ (inner : Scope R) (body : Block) (_ : s.Prepared gate ⟨name, ms, ps, qs⟩ inner body)
      (ls₁ ls₂ : List (Leaf R)),
      Expands inner.bare body ls₁ ∧ Expands s b ls₂ ∧ ls = ls₁ ++ ls₂ := by
  cases h with
  | standard hname' => cases hname.symm.trans hname'
  | call hname' _ p hbody hcs =>
      obtain rfl := Option.some.inj (hname'.symm.trans hname)
      exact ⟨_, _, p, _, _, hbody, hcs, rfl⟩

theorem of_block (h : Expands s (.block b' :: b) ls) :
    ∃ ls₁ ls₂, Expands s b' ls₁ ∧ Expands s b ls₂ ∧ ls = ls₁ ++ ls₂ := by
  cases h with
  | block hb hcs => exact ⟨_, _, hb, hcs, rfl⟩

theorem append (h : Expands s b ls) (h' : Expands s b' ls') : Expands s (b ++ b') (ls ++ ls') := by
  induction h with
  | nil => exact h'
  | apply hgate hl _ ih => exact .apply hgate hl (ih h')
  | standard hname hgate hl _ ih => exact .standard hname hgate hl (ih h')
  | call hname hformals p hbody _ _ ih =>
      rw [List.cons_append, List.append_assoc]
      exact .call hname hformals p hbody (ih h')
  | block hb _ _ ih =>
      rw [List.cons_append, List.append_assoc]
      exact .block hb (ih h')

theorem flatten (h : Expands s b ls) (n : Nat) :
    Expands s (List.replicate n b).flatten (List.replicate n ls).flatten := by
  induction n with
  | zero => exact .nil
  | succ n ih => exact h.append ih

theorem inv (h : Expands s b ls) : Expands s b.inv (ls.map Leaf.inverse).reverse := by
  induction h with
  | nil => exact .nil
  | apply hgate hl _ ih =>
      rw [Block.inv_cons, List.map_cons, List.reverse_cons]
      exact ih.append (.apply hgate hl.inv .nil)
  | standard hname hgate hl _ ih =>
      rw [Block.inv_cons, List.map_cons, List.reverse_cons]
      exact ih.append (.standard hname hgate hl.inv .nil)
  | call hname hformals p _ _ ihbody ih =>
      rw [Block.inv_cons, List.map_append, List.reverse_append]
      have hlast := Expands.call hname hformals p.inv ihbody .nil
      rw [List.append_nil] at hlast
      exact ih.append hlast
  | block _ _ ihb ih =>
      rw [Block.inv_cons, List.map_append, List.reverse_append, Stmt.inv_block]
      have hlast := Expands.block ihb .nil
      rw [List.append_nil] at hlast
      exact ih.append hlast

/-- A body that is inverted and repeated comes down to leaves that are. -/
theorem turned (h : Expands s b ls) (as : List Applied) :
    Expands s (Block.turned as b) (Applied.turn as ls) := by
  induction as with
  | nil => exact h
  | cons a as ih =>
      cases a with
      | control on args => exact ih
      | inverse => exact ih.inv
      | power k =>
          rw [Block.turned, Applied.turn, Applied.act, Block.pow_eq, Block.pow_eq]
          split
          · exact ih.inv.flatten _
          · exact ih.flatten _

end Expands

end OpenQasm
