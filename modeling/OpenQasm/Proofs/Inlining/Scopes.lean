import OpenQasm.Proofs.Inlining.Alike
import OpenQasm.Proofs.Scoping.Lookups

/-!
# Running a definition further up

A definition is run in two scopes that agree on everything but some constants of the
scopes around them. If it looks none of these up, and neither does what it calls, then
wherever the first run succeeds, the second one does the same to the machine. The second
run may be nested less deep.
-/
namespace OpenQasm

def Scope.definitions {R : Type} (s : Scope R) : Definitions := ⟨s.gates, s.subroutines⟩

/-- An assignment goes to bits if there are any of the name, and else to a variable. -/
theorem Scope.assign_ok_iff {R : Type} [Scalar R] {s t : Scope R} {target : Expr} {val : Value R} :
    s.assign target val = .ok t ↔ ∃ name index, s.reference target = .ok (name, index) ∧
      ((∃ register bs, s.bits.get? name = some register ∧
          storeBits name register index val = .ok bs ∧ t = s.addBits name bs) ∨
        (s.bits.get? name = none ∧ index.isNone = true ∧ s.isVariable name = true ∧
          ∃ c, val.toConst = .ok c ∧ s.setVariable name c = .ok t)) := by
  rw [assign, bind_ok_iff]
  constructor
  · rintro ⟨⟨name, index⟩, href, h⟩
    refine ⟨name, index, href, ?_⟩
    dsimp only at h
    split at h
    · rename_i register hregister
      obtain ⟨bs, hbs, h⟩ := bind_ok_iff.1 h
      cases h
      exact .inl ⟨register, bs, hregister, hbs, rfl⟩
    · rename_i hregister
      split at h
      · rename_i hcond
        rw [Bool.and_eq_true] at hcond
        exact .inr ⟨hregister, hcond.1, hcond.2, bind_ok_iff.1 h⟩
      · split at h
        · cases h
        · split at h
          · cases h
          · cases h
  · rintro ⟨name, index, href, ⟨register, bs, hregister, hbs, rfl⟩ |
      ⟨hregister, hindex, hvariable, hset⟩⟩
    · refine ⟨(name, index), href, ?_⟩
      dsimp only
      rw [hregister]
      exact bind_ok_iff.2 ⟨bs, hbs, rfl⟩
    · refine ⟨(name, index), href, ?_⟩
      dsimp only
      rw [hregister, hindex, hvariable]
      exact bind_ok_iff.2 hset

/-- The body of a gate finds a constant that is no parameter where the gate was called. -/
theorem Scope.const?_gateScope {R : Type} {gate : GateDef} {x : String} (hx : x ∉ gate.params)
    (s : Scope R) (call : Call) (controls : List QubitId) (targets : List (List QubitId))
    (params : List (Const R)) :
    (s.gateScope gate call controls targets params).const? x = s.const? x := by
  have hnone : (s.gateScope gate call controls targets params).scalars.get? x = none := by
    rw [gateScope_eq]
    refine Table.get?_setAll_of_not_mem fun b hb hname => hx ?_
    obtain ⟨p, hp, rfl⟩ := List.mem_map.1 hb
    rw [← hname]
    exact (List.of_mem_zip hp).1
  rw [const?_of_outer (s := s) (by rw [gateScope_eq]; rfl), hnone]
  rfl

/-- What two runs have in common: the definitions, the names of the constants that may differ,
the name of the definition that only the first run is inside of, and what may be called. -/
structure Lifting where
  definitions : Definitions
  names : List String
  within : String
  allowed : Callee → Prop

namespace Lifting

variable {R B : Type}

/-- Everything that may be called looks up none of the names, and calls what is allowed. -/
def Closed (L : Lifting) : Prop :=
  ∀ c, L.allowed c → c.name ≠ L.within →
    Block.Allowed L.definitions L.allowed (c.visibility L.names) c.body ∧
      ∀ t ∈ c.result, t.kind = .bit → t.Avoids (c.visibility L.names).hidden

/-- Two scopes that calls are made from. -/
structure Calls (L : Lifting) (s s' : Scope R) : Prop where
  definitions : s.definitions = L.definitions
  definitions' : s'.definitions = L.definitions
  const : ∀ x, x ∉ L.names → s'.const? x = s.const? x
  chain : s'.chain ⊆ s.chain
  within : L.within ∈ s.chain

/-- Two scopes in which a body is run. -/
structure Alike (L : Lifting) (v : Visibility) (s s' : Scope R) : Prop where
  definitions : s.definitions = L.definitions
  definitions' : s'.definitions = L.definitions
  chain : s'.chain ⊆ s.chain
  within : L.within ∈ s.chain
  qubits : s'.qubits = s.qubits
  bits : s'.bits = s.bits
  scalars : s'.scalars = s.scalars
  hidden : v.hidden ⊆ L.names
  const : ∀ x, x ∉ v.hidden → s'.const? x = s.const? x
  known : ∀ x ∈ v.bits, s.bits.contains x = true
  modifiers : s.modifiers = [] → s'.modifiers = []
  isLocal : s.isGlobal = false

namespace Alike

variable {L : Lifting} {v w : Visibility} {s s' : Scope R}

theorem calls (h : L.Alike v s s') : L.Calls s s' :=
  ⟨h.definitions, h.definitions', fun x hx => h.const x fun hmem => hx (h.hidden hmem), h.chain,
    h.within⟩

theorem mono (hw : v.Finer w) (hsub : w.hidden ⊆ L.names) (h : L.Alike v s s') :
    L.Alike w s s' :=
  { h with
    hidden := hsub
    const := fun x hx => h.const x fun hmem => hx (hw.hidden hmem)
    known := fun x hx => h.known x (hw.bits hx) }

theorem agrees (h : L.Alike v s s') : s.Agrees v s' :=
  ⟨h.qubits, h.bits, h.scalars, h.const, h.known⟩

variable [Scalar R]

theorem sameParts (h : L.Alike v s s') {ms : List Modifier} {ps qs : List Expr}
    (hms : ∀ m ∈ ms, m.Avoids v.hidden) (hps : ∀ e ∈ ps, e.Avoids v.hidden)
    (hqs : ∀ e ∈ qs, e.IndexAvoids v.hidden) : s.SameParts s' ms ms ps ps qs qs where
  modifiers := by
    refine List.forall₂_same.2 fun m hm => ⟨rfl, ?_⟩
    have hargs := hms m hm
    unfold Modifier.Avoids at hargs
    cases harg : m.arg with
    | none => exact .none
    | some e =>
        refine .some ?_
        rw [h.agrees.fold_eq (hargs e harg)]
        exact .refl _
  params := by
    refine List.forall₂_same.2 fun e he => ?_
    rw [h.agrees.fold_eq (hps e he)]
    exact .refl _
  qargs := by
    refine List.forall₂_same.2 fun e he => ?_
    rw [h.agrees.qubitsOf_eq (hqs e he)]
    exact .refl _

/-! Changes to both scopes -/

omit [Scalar R] in
theorem addQubits (h : L.Alike v s s') (name : String) (qs : List QubitId) :
    L.Alike v (s.addQubits name qs) (s'.addQubits name qs) :=
  { h with qubits := congrArg (Table.set · name qs) h.qubits }

omit [Scalar R] in
theorem addBits (h : L.Alike v s s') (name : String) (bs : List Bool) :
    L.Alike (v.bit name) (s.addBits name bs) (s'.addBits name bs) :=
  { h.agrees.addBits name bs, h with
    hidden := List.Subset.trans (v.bit_finer name).hidden h.hidden }

omit [Scalar R] in
theorem setScalar (h : L.Alike v s s') (name : String) (b : Binding R) :
    L.Alike (v.scalar name) { s with scalars := s.scalars.set name b }
      { s' with scalars := s'.scalars.set name b } :=
  { h.agrees.setScalar name b, h with
    hidden := List.Subset.trans (v.scalar_finer name).hidden h.hidden }

omit [Scalar R] in
theorem setVariable (h : L.Alike v s s') {name : String} {c : Const R} {t : Scope R}
    (ht : s.setVariable name c = .ok t) :
    ∃ t', s'.setVariable name c = .ok t' ∧ L.Alike (v.scalar name) t t' := by
  unfold Scope.setVariable at ht ⊢
  rw [h.scalars]
  split at ht
  · cases ht
  · rename_i hne
    cases ht
    refine ⟨_, rfl, ?_⟩
    have hboth := h.setScalar name ⟨c, true⟩
    rw [h.scalars] at hboth
    exact hboth

theorem assign (h : L.Alike v s s') {target : Expr} (htarget : target.IndexAvoids v.hidden)
    {val : Value R} {t : Scope R} (ht : s.assign target val = .ok t) :
    ∃ t', s'.assign target val = .ok t' ∧ L.Alike v t t' := by
  obtain ⟨name, index, href, hcases⟩ := Scope.assign_ok_iff.1 ht
  rw [← h.agrees.reference_eq htarget] at href
  rcases hcases with ⟨register, bs, hregister, hbs, rfl⟩ | ⟨hregister, hindex, hname, c, hc, ht⟩
  · rw [← h.bits] at hregister
    refine ⟨s'.addBits name bs, ?_, (h.addBits name bs).mono (v.bit_finer name) h.hidden⟩
    exact Scope.assign_ok_iff.2 ⟨name, index, href, .inl ⟨register, bs, hregister, hbs, rfl⟩⟩
  · rw [← h.bits] at hregister
    rw [← h.agrees.isVariable_eq] at hname
    obtain ⟨t', ht', halike⟩ := h.setVariable ht
    refine ⟨t', ?_, halike.mono (v.scalar_finer name) h.hidden⟩
    exact Scope.assign_ok_iff.2 ⟨name, index, href, .inr ⟨hregister, hindex, hname, c, hc, ht'⟩⟩

end Alike

/-! Scopes of what is called -/

namespace Calls

variable {L : Lifting} {s s' : Scope R}

theorem gateScope (h : L.Calls s s') {gate : GateDef} (unordered : Bool) {call call' : Call}
    (hmodifiers : call.modifiers = [] → call'.modifiers = []) (controls : List QubitId)
    (targets : List (List QubitId)) {params : List (Const R)}
    (hlen : params.length = gate.params.length) :
    L.Alike ((Callee.gate gate unordered).visibility L.names)
      (s.gateScope gate call controls targets params)
      (s'.gateScope gate call' controls targets params) := by
  have hagrees := Scope.agrees_gateScope h.const unordered call call' controls targets hlen
  rw [Scope.gateScope_eq, Scope.gateScope_eq] at hagrees ⊢
  exact { hagrees with
    definitions := h.definitions
    definitions' := h.definitions'
    chain := List.append_subset.2 ⟨List.Subset.trans h.chain (List.subset_append_left _ _),
      List.subset_append_right _ _⟩
    within := List.mem_append_left _ h.within
    hidden := List.filter_subset_self _
    modifiers := hmodifiers
    isLocal := rfl }

theorem enclosed (h : L.Calls s s') (name : String) :
    L.Alike ⟨L.names, [], false⟩ (s.enclosed name []) (s'.enclosed name []) :=
  { Scope.agrees_enclosed h.const name with
    definitions := h.definitions
    definitions' := h.definitions'
    chain := List.append_subset.2 ⟨List.Subset.trans h.chain (List.subset_append_left _ _),
      List.subset_append_right _ _⟩
    within := List.mem_append_left _ h.within
    hidden := fun _ hx => hx
    modifiers := id
    isLocal := rfl }

end Calls

end Lifting

end OpenQasm
