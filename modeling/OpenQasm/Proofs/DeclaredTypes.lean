import Mathlib.Logic.Function.Basic
import Mathlib.Tactic.Ring
import OpenQasm.Proofs.Inlining.Scopes
import OpenQasm.Proofs.ScopeUpdates

/-!
# Declared types of variables

A declaration, a typed constant, an argument and the result of a subroutine are converted to
the declared type; an assignment is not. A ledger notes for every variable of a scope its
declared type and what was assigned to it last. From the scopes in which code starts to run,
each statement changes the scope and the ledger together, so a variable always holds what was
assigned to it last, and a value of its declared type if nothing was. It keeps its type exactly
as long as every value assigned to it has that type.
-/
namespace OpenQasm

variable {R B : Type}

/-! Values of a type -/

namespace Const

/-- The values that a variable of a declared type is meant to hold. -/
def Fits : TypeKind → Const R → Prop
  | .int, .int _ => True
  | .uint, .int v => 0 ≤ v.toInt
  | .float, .float _ => True
  | .angle, .float _ => True
  | _, _ => False

variable [Scalar R]

theorem fits_of_coerce {kind : TypeKind} {c c' : Const R} (h : coerce kind c = .ok c') :
    c'.Fits kind := by
  cases kind with
  | qubit => cases h
  | bit => cases h
  | int =>
      cases c with
      | int v =>
          cases h
          trivial
      | _ => cases h
  | uint =>
      cases c with
      | int v =>
          have hv : ¬v.toInt < 0 := by
            intro hv
            rw [coerce, if_pos hv] at h
            cases h
          rw [coerce, if_neg hv] at h
          cases h
          exact Int.not_lt.1 hv
      | _ => cases h
  | float =>
      cases c with
      | string s => cases h
      | _ =>
          cases h
          trivial
  | angle =>
      cases c with
      | string s => cases h
      | _ =>
          cases h
          trivial

end Const

theorem bitsValue_lt (bits : List Bool) : bitsValue bits < 2 ^ bits.length := by
  have hfold : ∀ (bits : List Bool) (acc : Nat),
      bits.foldl (fun acc b => 2 * acc + b.toNat) acc < 2 ^ bits.length * (acc + 1) := by
    intro bits
    induction bits with
    | nil => simp
    | cons b bits ih =>
        intro acc
        have hbit : b.toNat ≤ 1 := Bool.toNat_le b
        calc bits.foldl (fun acc b => 2 * acc + b.toNat) (2 * acc + b.toNat)
            < 2 ^ bits.length * (2 * acc + b.toNat + 1) := ih _
          _ ≤ 2 ^ bits.length * (2 * (acc + 1)) := Nat.mul_le_mul_left _ (by omega)
          _ = 2 ^ (b :: bits).length * (acc + 1) := by
            rw [List.length_cons, pow_succ, Nat.mul_assoc]
  have hlt := hfold bits 0
  rwa [Nat.zero_add, Nat.mul_one] at hlt

/-- Bits that are read as a number make an integer that is not negative. -/
theorem Value.fits_toConst_bits {bits : List Bool} {c : Const R}
    (h : (Value.bits bits : Value R).toConst = .ok c) : c.Fits .int ∧ c.Fits .uint := by
  rw [toConst] at h
  split at h
  · rename_i hlength
    cases h
    have hlt : bitsValue bits < Nat.pow 2 63 :=
      Nat.lt_of_lt_of_le (bitsValue_lt bits) (Nat.pow_le_pow_right Nat.two_pos hlength)
    refine ⟨trivial, ?_⟩
    rw [Const.Fits, toInt_ofNat hlt]
    exact Int.natCast_nonneg _
  · cases h

/-- The result of a subroutine is of the declared type. -/
theorem Scope.fits_convertResult [Scalar R] {s : Scope R} {d : SubroutineDef} {t : TypeSpec}
    {v w : Value R} (ht : d.result = some t) (hscalar : t.kind ≠ .bit) (h : s.convertResult d v = .ok w) :
    ∃ c, w = .const c ∧ c.Fits t.kind := by
  unfold convertResult at h
  rw [ht] at h
  dsimp only at h
  split at h
  · rename_i hkind
    exact absurd hkind hscalar
  · cases h
  · obtain ⟨c, -, h⟩ := bind_ok_iff.1 h
    obtain ⟨c', hc', h⟩ := bind_ok_iff.1 h
    cases h
    exact ⟨c', rfl, Const.fits_of_coerce hc'⟩

/-! Ledgers -/

/-- What is known of a variable: its declared type, and what was assigned to it last. -/
structure Declared (R : Type) where
  kind : TypeKind
  assigned : Option (Const R)

/-- What a variable holds by its entry. -/
def Declared.Holds (d : Declared R) (c : Const R) : Prop :=
  match d.assigned with
  | none => c.Fits d.kind
  | some v => c = v

theorem Declared.Holds.eq_of_assigned {d : Declared R} {c v : Const R} (h : d.Holds c)
    (hv : d.assigned = some v) : c = v := by
  unfold Holds at h
  rwa [hv] at h

/-- A variable has its type exactly if what was assigned to it has. -/
theorem Declared.Holds.fits_iff {d : Declared R} {c : Const R} (h : d.Holds c) :
    c.Fits d.kind ↔ ∀ v, d.assigned = some v → v.Fits d.kind := by
  cases hassigned : d.assigned with
  | none =>
      unfold Holds at h
      rw [hassigned] at h
      simp [h]
  | some v =>
      rw [h.eq_of_assigned hassigned]
      simp

/-- The variables of a scope. -/
abbrev Ledger (R : Type) := String → Option (Declared R)

namespace Ledger

def empty : Ledger R := fun _ => none

/-- A declaration of a scalar starts a new entry. -/
def declare (L : Ledger R) (d : TypedName) : Ledger R :=
  match d.type.kind with
  | .qubit => L
  | .bit => L
  | kind => Function.update L d.name (some ⟨kind, none⟩)

/-- A constant takes the place of a variable. -/
def const (L : Ledger R) (name : String) : Ledger R := Function.update L name none

/-- An assignment to a variable is noted, unless the name stands for a bit register. -/
def assign (L : Ledger R) (s : Scope R) (target : Expr) (v : Value R) : Ledger R :=
  match target, v.toConst with
  | .ident name, .ok c =>
      if s.bits.contains name then L
      else Function.update L name ((L name).map fun d => { d with assigned := some c })
  | _, _ => L

end Ledger

/-- A binding goes with an entry. -/
inductive Explains : Option (Declared R) → Option (Binding R) → Prop
  | assignable {d : Declared R} {c : Const R} (h : d.Holds c) : Explains (some d) (some ⟨c, true⟩)
  | const {c : Const R} : Explains none (some ⟨c, false⟩)
  | free : Explains none none

/-- Every scalar binding of a scope goes with its entry. -/
def Scope.Follows (s : Scope R) (L : Ledger R) : Prop :=
  ∀ name, Explains (L name) (s.scalars.get? name)

namespace Scope.Follows

variable {s t : Scope R} {L : Ledger R}

theorem congr (h : s.Follows L) (hscalars : t.scalars = s.scalars) : t.Follows L := by
  intro name
  rw [hscalars]
  exact h name

theorem set (h : s.Follows L) (name : String) {d : Option (Declared R)} {b : Binding R}
    (hb : Explains d (some b)) :
    Follows { s with scalars := s.scalars.set name b } (Function.update L name d) := by
  intro x
  dsimp only
  rw [Table.get?_set]
  by_cases hx : x = name
  · rw [if_pos hx, hx, Function.update_self]
    exact hb
  · rw [if_neg hx, Function.update_of_ne hx]
    exact h x

theorem setConst (h : s.Follows L) (name : String) (c : Const R) :
    (s.setConst name c).Follows (L.const name) :=
  h.set name .const

theorem setVariable (h : s.Follows L) {name : String} {c : Const R} {d : Declared R}
    (hc : d.Holds c) (ht : s.setVariable name c = .ok t) :
    t.Follows (Function.update L name (some d)) := by
  unfold Scope.setVariable at ht
  split at ht
  · cases ht
  · cases ht
    exact h.set name (.assignable hc)

theorem declare (h : s.Follows L) {d : TypedName} {c : Const R} (hc : c.Fits d.type.kind)
    (ht : s.setVariable d.name c = .ok t) : t.Follows (L.declare d) := by
  have hset := h.setVariable (d := ⟨d.type.kind, none⟩) hc ht
  unfold Ledger.declare
  cases hkind : d.type.kind with
  | qubit =>
      rw [hkind] at hc
      cases c <;> cases hc
  | bit =>
      rw [hkind] at hc
      cases c <;> cases hc
  | _ =>
      rw [hkind] at hset
      exact hset

/-- A variable holds what its entry says. -/
theorem exists_of_entry (h : s.Follows L) {name : String} {d : Declared R}
    (hd : L name = some d) : ∃ c, s.scalars.get? name = some ⟨c, true⟩ ∧ d.Holds c := by
  have hexplains := h name
  rw [hd] at hexplains
  generalize s.scalars.get? name = binding at hexplains
  cases hexplains with
  | assignable hholds => exact ⟨_, rfl, hholds⟩

theorem isVariable_iff (h : s.Follows L) {name : String} :
    s.isVariable name = true ↔ ∃ d, L name = some d := by
  have hexplains := h name
  unfold isVariable
  generalize L name = entry at hexplains
  generalize s.scalars.get? name = binding at hexplains
  cases hexplains with
  | assignable hholds => simp
  | const => simp
  | free => simp

end Scope.Follows

/-! Statements -/

variable [Scalar R]

/-- What a statement other than a block makes of a scope and its ledger. -/
def Stmt.Enters (evaluates : Scope R → Expr → Value R → Prop) (s : Scope R) (L : Ledger R)
    (t : Scope R) (L' : Ledger R) : Stmt → Prop
  | .declare d => d.Stores s t ∧ L' = L.declare d
  | .const type name e => Stmt.Stores evaluates s t (.const type name e) ∧ L' = L.const name
  | .arrow e target => ∃ v, evaluates s e v ∧ s.assign target v = .ok t ∧ L' = L.assign s target v
  | .assign target e => ∃ v, evaluates s e v ∧ s.assign target v = .ok t ∧ L' = L.assign s target v
  | c => c.Stores evaluates s t ∧ L' = L

/-- Statements in a row. -/
inductive Entered (evaluates : Scope R → Expr → Value R → Prop) :
    List Stmt → Scope R → Ledger R → Scope R → Ledger R → Prop
  | nil {s : Scope R} {L : Ledger R} : Entered evaluates [] s L s L
  | cons {c : Stmt} {cs : List Stmt} {s t u : Scope R} {L L' L'' : Ledger R}
      (hc : c.Enters evaluates s L t L') (hcs : Entered evaluates cs t L' u L'') :
      Entered evaluates (c :: cs) s L u L''

section Statements

variable {evaluates : Scope R → Expr → Value R → Prop} {s t u : Scope R} {L L' L'' : Ledger R}

/-- Whatever a statement stores, the ledger can be kept. -/
theorem Stmt.Stores.exists_enters {c : Stmt} (h : c.Stores evaluates s t) (L : Ledger R) :
    ∃ L', c.Enters evaluates s L t L' := by
  cases c with
  | arrow e target =>
      obtain ⟨v, hv, ht⟩ := h
      exact ⟨L.assign s target v, v, hv, ht, rfl⟩
  | assign target e =>
      obtain ⟨v, hv, ht⟩ := h
      exact ⟨L.assign s target v, v, hv, ht, rfl⟩
  | _ => exact ⟨_, h, rfl⟩

theorem Stored.exists_entered {cs : List Stmt} (h : Stored evaluates cs s t) (L : Ledger R) :
    ∃ L', Entered evaluates cs s L t L' := by
  induction h generalizing L with
  | nil => exact ⟨L, .nil⟩
  | cons hc _ ih =>
      obtain ⟨L', hL'⟩ := hc.exists_enters L
      obtain ⟨L'', hL''⟩ := ih L'
      exact ⟨L'', .cons hL' hL''⟩

omit [Scalar R] in
theorem Scope.scalars_addGate {g : GateDef} (h : s.addGate g = .ok t) : t.scalars = s.scalars := by
  unfold addGate at h
  split at h
  · cases h
    rfl
  · cases h

omit [Scalar R] in
theorem Scope.scalars_addSubroutine {d : SubroutineDef} (h : s.addSubroutine d = .ok t) :
    t.scalars = s.scalars := by
  unfold addSubroutine at h
  split at h
  · cases h
    rfl
  · cases h

/-- A declaration makes a register, or a variable with a value of the declared type. -/
theorem Scope.Follows.stored (h : s.Follows L) {d : TypedName} (hd : d.Stores s t) :
    t.Follows (L.declare d) := by
  unfold TypedName.Stores at hd
  cases hkind : d.type.kind with
  | qubit =>
      rw [hkind] at hd
      obtain ⟨-, qs, rfl⟩ := hd
      unfold Ledger.declare
      rw [hkind]
      exact h.congr rfl
  | bit =>
      rw [hkind] at hd
      obtain ⟨n, -, rfl⟩ := hd
      unfold Ledger.declare
      rw [hkind]
      exact h.congr rfl
  | _ =>
      rw [hkind] at hd
      obtain ⟨c, hc, ht⟩ := hd
      exact h.declare (hkind ▸ Const.fits_of_coerce hc) ht

/-- An assignment changes a bit register, or puts a value that is noted into a variable. -/
theorem Scope.Follows.assign (h : s.Follows L) {target : Expr} {v : Value R}
    (ht : s.assign target v = .ok t) : t.Follows (L.assign s target v) := by
  obtain ⟨name, index, href,
    ⟨register, bs, hregister, -, rfl⟩ | ⟨hnone, hindex, hname, c, hc, hset⟩⟩ := assign_ok_iff.1 ht
  · have hkept : L.assign s target v = L := by
      unfold Ledger.assign
      split
      · cases href
        rw [if_pos (show s.bits.contains _ = true by rw [Table.contains, hregister]; rfl)]
      · rfl
    rw [hkept]
    exact h.congr rfl
  · obtain rfl : target = .ident name := by
      cases target with
      | ident x =>
          cases href
          rfl
      | index x i =>
          obtain ⟨k, -, hk⟩ := bind_ok_iff.1 href
          obtain ⟨k', -, hk'⟩ := bind_ok_iff.1 hk
          cases hk'
          cases hindex
      | _ => cases href
    obtain ⟨d, hd⟩ := h.isVariable_iff.1 hname
    have hnoted : L.assign s (.ident name) v =
        Function.update L name (some { d with assigned := some c }) := by
      have hbits : ¬s.bits.contains name = true := by simp [Table.contains, hnone]
      unfold Ledger.assign
      rw [hc]
      dsimp only
      rw [if_neg hbits, hd]
      rfl
    rw [hnoted]
    exact h.setVariable rfl hset

theorem Scope.Follows.enters (h : s.Follows L) {c : Stmt} (hc : c.Enters evaluates s L t L') :
    t.Follows L' := by
  cases c with
  | declare d =>
      obtain ⟨hd, rfl⟩ := hc
      exact h.stored hd
  | const type name e =>
      obtain ⟨⟨c, rfl⟩, rfl⟩ := hc
      exact h.setConst name c
  | arrow e target =>
      obtain ⟨v, -, ht, rfl⟩ := hc
      exact h.assign ht
  | assign target e =>
      obtain ⟨v, -, ht, rfl⟩ := hc
      exact h.assign ht
  | gate name params qargs body =>
      obtain ⟨ht, rfl⟩ := hc
      exact h.congr (scalars_addGate ht)
  | subroutine name params qargs result body =>
      obtain ⟨ht, rfl⟩ := hc
      exact h.congr (scalars_addSubroutine ht)
  | _ =>
      obtain ⟨ht, rfl⟩ := hc
      exact h.congr (congrArg Scope.scalars ht)

theorem Scope.Follows.entered (h : s.Follows L) {cs : List Stmt}
    (hcs : Entered evaluates cs s L t L') : t.Follows L' := by
  induction hcs with
  | nil => exact h
  | cons hc _ ih => exact ih (h.enters hc)

end Statements

/-! The scopes in which code starts to run -/

/-- An argument goes with a parameter. -/
def Arg.Suits (p : TypedName) : Arg R → Prop
  | .qubits _ => p.type.kind = .qubit
  | .bits _ => p.type.kind = .bit
  | .scalar c => c.Fits p.type.kind

/-- Arguments are evaluated for one parameter each, and converted to its type. -/
theorem Run.suit_arguments [Backend R B] {config : Config} {deeper : Option (BodyRunner R B)}
    {s : Scope R} {ps : List TypedName} {es : List Expr} (hlength : es.length = ps.length)
    {args : List (Arg R)} {m m' : Machine R B}
    (h : Run.arguments config deeper s ps es m = (.ok args, m')) :
    List.Forall₂ Arg.Suits ps args := by
  induction es generalizing ps args m m' with
  | nil =>
      obtain rfl : ps = [] := List.length_eq_zero_iff.1 hlength.symm
      rw [Run.arguments] at h
      obtain ⟨rfl, -⟩ := ran_pure.1 h
      exact .nil
  | cons e es ih =>
      cases ps with
      | nil => cases hlength
      | cons p ps =>
          have hrest : ∀ (arg : Arg R) (m₁ : Machine R B), Arg.Suits p arg →
              (do return arg :: (← Run.arguments config deeper s ps es) : Run R B _) m₁ =
                (.ok args, m') → List.Forall₂ Arg.Suits (p :: ps) args := by
            intro arg m₁ harg hran
            obtain ⟨as, m₂, has, hran⟩ := ran_bind.1 hran
            obtain ⟨rfl, -⟩ := ran_pure.1 hran
            exact .cons harg (ih (Nat.succ.inj hlength) has)
          rw [Run.arguments] at h
          dsimp only at h
          cases hkind : p.type.kind with
          | qubit =>
              rw [hkind] at h
              obtain ⟨qs, m₁, -, h⟩ := ran_bind.1 h
              obtain ⟨size, m₂, -, h⟩ := ran_bind.1 h
              split at h
              · cases h
              · exact hrest (.qubits qs) m₂ hkind h
          | bit =>
              rw [hkind] at h
              obtain ⟨size, m₁, -, h⟩ := ran_bind.1 h
              obtain ⟨v, m₂, -, h⟩ := ran_bind.1 h
              obtain ⟨bs, m₃, -, h⟩ := ran_bind.1 h
              exact hrest (.bits bs) m₃ hkind h
          | _ =>
              rw [hkind] at h
              obtain ⟨v, m₁, -, h⟩ := ran_bind.1 h
              obtain ⟨c, m₂, -, h⟩ := ran_bind.1 h
              obtain ⟨c', m₃, hc', h⟩ := ran_bind.1 h
              have hfits : c'.Fits p.type.kind := hkind ▸ Const.fits_of_coerce (ran_lift.1 hc').1
              exact hrest (.scalar c') m₃ hfits h

namespace Scope

variable {s t inner : Scope R} {L : Ledger R}

omit [Scalar R] in
theorem Follows.bindArgs (h : s.Follows L) {ps : List TypedName} {args : List (Arg R)}
    (hsuit : List.Forall₂ Arg.Suits ps args)
    (ht : (ps.zip args).foldlM (fun t (p, arg) => t.bindArg p.name arg) s = .ok t) :
    t.Follows (ps.foldl Ledger.declare L) := by
  induction hsuit generalizing s L with
  | nil =>
      cases ht
      exact h
  | @cons p arg ps args harg _ ih =>
      rw [List.zip_cons_cons, List.foldlM_cons] at ht
      obtain ⟨s₁, hs₁, ht⟩ := bind_ok_iff.1 ht
      refine ih ?_ ht
      cases arg with
      | qubits qs =>
          cases hs₁
          have hkind : p.type.kind = .qubit := harg
          rw [Ledger.declare, hkind]
          exact h.congr rfl
      | bits bs =>
          cases hs₁
          have hkind : p.type.kind = .bit := harg
          rw [Ledger.declare, hkind]
          exact h.congr rfl
      | scalar c => exact h.declare harg hs₁

omit [Scalar R] in
/-- The scope of a gate's body has constants only. -/
theorem follows_gateScope (s : Scope R) (g : GateDef) (call : Call) (controls : List QubitId)
    (targets : List (List QubitId)) (params : List (Const R)) :
    (s.gateScope g call controls targets params).Follows .empty := by
  intro name
  rw [gateScope_eq]
  dsimp only
  generalize hbinding : Table.get? _ name = binding
  cases binding with
  | none => exact .free
  | some b =>
      rcases Table.mem_of_get?_setAll hbinding with hmem | hnone
      · obtain ⟨p, -, hp⟩ := List.mem_map.1 hmem
        cases hp
        exact .const
      · cases hnone

omit [Scalar R] in
theorem scalars_foldl_addQubits (s : Scope R) (bs : List (String × List QubitId)) :
    (bs.foldl (fun t b => t.addQubits b.1 b.2) s).scalars = s.scalars := by
  rw [foldl_addQubits]

/-- The scope of a subroutine's body has its scalar parameters as variables. -/
theorem follows_subroutineScope {d : SubroutineDef} {args : List (Arg R)} {qargs : List Expr}
    (hsuit : List.Forall₂ Arg.Suits d.params args)
    (h : s.subroutineScope d args qargs = .ok inner) :
    inner.Follows (d.params.foldl Ledger.declare .empty) := by
  unfold subroutineScope at h
  obtain ⟨qubits, -, h⟩ := bind_ok_iff.1 h
  obtain ⟨u, hu, h⟩ := bind_ok_iff.1 h
  cases h
  have hstart : (s.enclosed d.name []).Follows .empty := fun _ => .free
  exact (hstart.bindArgs hsuit hu).congr (scalars_foldl_addQubits u _)

/-- The global scope of a fresh program has the built-in constants only. -/
theorem follows_root : (root : Scope R).Follows .empty := by
  intro name
  generalize hbinding : (root : Scope R).scalars.get? name = binding
  cases binding with
  | none => exact .free
  | some b =>
      obtain ⟨before, after, hentries, -⟩ := List.lookup_eq_some_iff.1 hbinding
      have hmem : (name, b) ∈ (root : Scope R).scalars.entries := by simp [hentries]
      obtain ⟨p, -, hp⟩ := List.mem_map.1 hmem
      cases hp
      exact .const

/-- A scope in which code starts to run, with its variables: the global scope of a fresh program,
the scope of a gate's body, or that of a subroutine's body. -/
inductive Opened [Backend R B] (config : Config) : Scope R → Ledger R → Prop
  | root : Opened config root .empty
  | gate {s inner : Scope R} {g : GateDef} {call : Call} {body : Block}
      (h : s.prepareGate config g call = .ok (inner, body)) : Opened config inner .empty
  | subroutine {s inner : Scope R} {d : SubroutineDef} {es qargs : List Expr}
      {deeper : Option (BodyRunner R B)} {m m' : Machine R B} {args : List (Arg R)}
      (hlength : es.length = d.params.length)
      (hargs : Run.arguments config deeper s d.params es m = (.ok args, m'))
      (h : s.subroutineScope d args qargs = .ok inner) :
      Opened config inner (d.params.foldl Ledger.declare .empty)

theorem Opened.follows [Backend R B] {config : Config} (h : s.Opened (B := B) config L) :
    s.Follows L := by
  cases h with
  | root => exact follows_root
  | gate h =>
      obtain ⟨⟨p⟩, -⟩ := prepareGate_ok h
      rw [p.scope_eq]
      exact follows_gateScope _ _ _ _ _ _
  | subroutine hlength hargs h => exact follows_subroutineScope (Run.suit_arguments hlength hargs) h

end Scope

/-! Calls run bodies in these scopes only -/

section Calls

variable [Backend R B] {config : Config} {run run' : BodyRunner R B}

/-- Two ways to run bodies that agree on the scopes in which code starts to run. -/
def AgreeOnOpened (config : Config) (run run' : BodyRunner R B) : Prop :=
  ∀ (inner : Scope R) (L : Ledger R) (body : List Stmt), inner.Opened (B := B) config L →
    run inner body = run' inner body

omit [Scalar R] [Backend R B] in
theorem Run.bind_liftM_ok {α β : Type} (a : α) (k : α → Run R B β) :
    (liftM (Except.ok a : Except EvalError α) >>= k) = k a := rfl

theorem Run.callGate_congr (h : AgreeOnOpened config run run') (s : Scope R) (g : GateDef)
    (call : Call) :
    callGate config (some run) s g call = callGate config (some run') s g call := by
  unfold callGate Scope.enter
  by_cases hname : g.name ∈ s.chain
  · rw [if_pos hname, if_pos hname]
  · rw [if_neg hname, if_neg hname]
    cases hprepared : s.prepareGate config g call with
    | error e => rfl
    | ok p =>
        have hrun := h p.1 .empty p.2 (.gate hprepared)
        change (run p.1 p.2 >>= _) = (run' p.1 p.2 >>= _)
        rw [hrun]

theorem Run.callSubroutine_congr (h : AgreeOnOpened config run run')
    (deeper : Option (BodyRunner R B)) (s : Scope R) (d : SubroutineDef) (call : Call) :
    callSubroutine config (some run) s d call (arguments config deeper s d.params call.params) =
      callSubroutine config (some run') s d call
        (arguments config deeper s d.params call.params) := by
  obtain ⟨name, ms, params, qargs⟩ := call
  cases ms with
  | cons m ms => rfl
  | nil =>
      unfold callSubroutine Scope.enter
      by_cases hname : d.name ∈ s.chain
      · rw [if_pos hname, if_pos hname]
      rw [if_neg hname, if_neg hname, bind_liftM_ok, bind_liftM_ok]
      refine ite_congr rfl (fun _ => rfl) fun hparams => ite_congr rfl (fun _ => rfl) fun _ => ?_
      funext m
      dsimp only
      rw [run_bind, run_bind]
      rcases hargs : arguments config deeper s d.params params m with ⟨_ | as, m₁⟩
      · rfl
      cases hinner : s.subroutineScope d as qargs with
      | error e =>
          dsimp only
          rw [hinner]
          rfl
      | ok inner =>
          have hrun := h inner _ d.body (.subroutine (not_not.1 hparams) hargs hinner)
          dsimp only
          rw [hinner, bind_liftM_ok, bind_liftM_ok, hrun]

mutual

/-- The value of an expression depends on those bodies only. -/
theorem Run.value_congr (h : AgreeOnOpened config run run') (s : Scope R) : ∀ e : Expr,
    value config (some run) s e = value config (some run') s e
  | .call name ms ps qs => by
      rw [value, value]
      cases s.gates.get? name with
      | some g => exact callGate_congr h s g _
      | none =>
          cases s.subroutines.get? name with
          | some d =>
              dsimp only
              rw [← Run.arguments_congr h s d.params ps]
              exact callSubroutine_congr h (some run) s d ⟨name, ms, ps, qs⟩
          | none => rfl
  | .measure _ | .ident _ | .index .. | .lit _ | .binary .. | .unary .. | .paren _ => by
      rw [value, value]

theorem Run.arguments_congr (h : AgreeOnOpened config run run') (s : Scope R)
    (params : List TypedName) : ∀ es : List Expr,
    arguments config (some run) s params es = arguments config (some run') s params es
  | [] => by rw [arguments, arguments]
  | e :: es => by
      cases params with
      | nil => rw [arguments, arguments]
      | cons p ps =>
          rw [arguments, arguments, Run.value_congr h s e, Run.arguments_congr h s ps es]

end

mutual

/-- What statements do depends on those bodies only. -/
theorem Exec.stmt_congr (h : AgreeOnOpened config run run') : ∀ c : Stmt,
    stmt config (some run) c = stmt config (some run') c
  | .returns (some e) | .arrow e _ | .assign _ e | .expr (.call ..) | .expr (.measure _) => by
      simp only [stmt, Run.value_congr h]
  | .block body => by
      rw [stmt, stmt, Exec.stmts_congr h body]
  | .returns none | .version _ | .includes _ | .declare _ | .const .. | .gate .. | .subroutine ..
  | .reset _ | .print _ | .apply .. => by rw [stmt, stmt]
  | .expr (.ident _) | .expr (.index ..) | .expr (.lit _) | .expr (.binary ..)
  | .expr (.unary ..) | .expr (.paren _) => by simp only [stmt]

theorem Exec.stmts_congr (h : AgreeOnOpened config run run') : ∀ body : List Stmt,
    stmts config (some run) body = stmts config (some run') body
  | [] => by rw [stmts, stmts]
  | c :: cs => by
      rw [stmts, stmts, Exec.stmt_congr h c, Exec.stmts_congr h cs]

end

end Calls

/-! Runs -/

/-- All statements have stored what they store if the run goes on after them. -/
theorem StoredBy.exists_run_all {evaluates : Scope R → Expr → Value R → Prop} {cs : List Stmt}
    {s t : Scope R} {result : Except EvalError (Flow R)} (h : StoredBy evaluates cs s result t) :
    ∃ run, run <+: cs ∧ (∀ v, result = .ok (.next v) → run = cs) ∧ Stored evaluates run s t := by
  match result with
  | .ok (.next _) => exact ⟨cs, List.prefix_refl cs, fun _ _ => rfl, h⟩
  | .ok (.returned _) | .error _ =>
      obtain ⟨run, hrun, hstored⟩ := h
      exact ⟨run, hrun, nofun, hstored⟩

section Runs

variable [Backend R B]

namespace Interpreter

/-- Statements that are run one after the other, whether they succeed or fail. -/
def feed (cs : List Stmt) (i : Interpreter R B) : Interpreter R B :=
  cs.foldl (fun i c => (i.stmt c).2) i

theorem config_stmt (i : Interpreter R B) (c : Stmt) : (i.stmt c).2.config = i.config := by
  unfold stmt
  split <;> rfl

theorem scope_stmt (i : Interpreter R B) (c : Stmt) :
    (i.stmt c).2.scope = (Exec.stmt i.config (bodyRunner? i.config) c (i.scope, i.machine)).2.1 := by
  unfold stmt
  split <;> rename_i heq <;> rw [heq]

/-- The global scope comes from what was run of each statement. -/
theorem exists_stored_feed (cs : List Stmt) (i : Interpreter R B) :
    ∃ run, run.Sublist (Stmt.simpleEach cs) ∧
      Stored (Run.Evaluates i.config (bodyRunner? (B := B) i.config)) run i.scope
        (i.feed cs).scope := by
  induction cs generalizing i with
  | nil => exact ⟨[], .slnil, .nil⟩
  | cons c cs ih =>
      obtain ⟨run, hrun, hstored⟩ :=
        (Exec.storedBy_stmt i.config (bodyRunner? i.config) i.scope i.machine c).exists_run
      obtain ⟨rest, hrest, hstored'⟩ := ih (i.stmt c).2
      rw [config_stmt, scope_stmt] at hstored'
      exact ⟨run ++ rest, hrun.sublist.append hrest, hstored.append hstored'⟩

end Interpreter

/-- A global scope, after any statements that succeeded or failed, comes from those that were
run. The bodies of gates and subroutines are run in scopes of their own kind only, and a scope
that a body ends in, by an error or otherwise, comes from the statements that were run. By all
that, a name is a variable if the ledger has an entry for it. A variable holds what was assigned
to it last; it holds a value of its declared type exactly if this value has that type, or if
nothing was assigned to it since the declaration or the call. Bits make values of the types
`int` and `uint`, and the result of a subroutine is of the type declared for it. -/
theorem variables_hold_declared_type_iff :
    (∀ (config : Config) (b : B) (cs : List Stmt), ∃ run L, run.Sublist (Stmt.simpleEach cs) ∧
      Entered (Run.Evaluates config (bodyRunner? (B := B) config)) run .root .empty
        ((Interpreter.start config b : Interpreter R B).feed cs).scope L) ∧
    (∀ (config : Config) (run run' : BodyRunner R B), AgreeOnOpened config run run' →
      ∀ body, Exec.stmts config (some run) body = Exec.stmts config (some run') body) ∧
    (∀ (config : Config) (n : Nat) (s : Scope R) (L : Ledger R) (body : List Stmt)
      (m : Machine R B),
      let final := Exec.stmts config (runnerAt? config n) body (s, m)
      ∃ run L', run <+: Stmt.simpleEach body ∧
        (∀ v, final.1 = .ok (.next v) → run = Stmt.simpleEach body) ∧
        Entered (Run.Evaluates config (runnerAt? (B := B) config n)) run s L final.2.1 L') ∧
    (∀ (config : Config) (evaluates : Scope R → Expr → Value R → Prop) (run : List Stmt)
      (s t : Scope R) (L L' : Ledger R), s.Opened (B := B) config L →
      Entered evaluates run s L t L' → ∀ name,
        (t.isVariable name = true ↔ ∃ d, L' name = some d) ∧
        ∀ d, L' name = some d → ∃ c, t.scalars.get? name = some ⟨c, true⟩ ∧
          (∀ v, d.assigned = some v → c = v) ∧
          (c.Fits d.kind ↔ ∀ v, d.assigned = some v → v.Fits d.kind)) ∧
    (∀ (bits : List Bool) (c : Const R), (Value.bits bits : Value R).toConst = .ok c →
      c.Fits .int ∧ c.Fits .uint) ∧
    ∀ (s : Scope R) (d : SubroutineDef) (type : TypeSpec) (v w : Value R),
      d.result = some type → type.kind ≠ .bit → s.convertResult d v = .ok w →
      ∃ c, w = .const c ∧ c.Fits type.kind := by
  refine ⟨fun config b cs => ?_, fun config run run' h => Exec.stmts_congr h, ?_, ?_,
    fun bits c => Value.fits_toConst_bits, fun s d type v w => Scope.fits_convertResult⟩
  · obtain ⟨run, hrun, hstored⟩ :=
      Interpreter.exists_stored_feed cs (Interpreter.start config b : Interpreter R B)
    obtain ⟨L, hL⟩ := hstored.exists_entered .empty
    exact ⟨run, L, hrun, hL⟩
  · intro config n s L body m final
    obtain ⟨run, hrun, hall, hstored⟩ :=
      (Exec.storedBy_stmts config (runnerAt? config n) s m body).exists_run_all
    obtain ⟨L', hL'⟩ := hstored.exists_entered L
    exact ⟨run, L', hrun, hall, hL'⟩
  · intro config evaluates run s t L L' hopened hentered name
    have hfollows : t.Follows L' := hopened.follows.entered hentered
    refine ⟨hfollows.isVariable_iff, fun d hd => ?_⟩
    obtain ⟨c, hc, hholds⟩ := hfollows.exists_of_entry hd
    exact ⟨c, hc, fun v => hholds.eq_of_assigned, hholds.fits_iff⟩

end Runs

def countRegister : List Stmt :=
  [.declare ⟨⟨.bit, none⟩, "c"⟩, .declare ⟨⟨.uint, none⟩, "u"⟩, .assign (.ident "u") (.ident "c")]

def registerDeclared : Scope Float :=
  { Scope.root.addBits "c" [false] with
    scalars := (Scope.root : Scope Float).scalars.set "u" ⟨.int 0, true⟩ }

def registerLedger : Ledger Float := Ledger.empty.declare ⟨⟨.uint, none⟩, "u"⟩

theorem variables_hold_declared_type_iff_register :
    let evaluates := Run.Evaluates (R := Float) (B := Simulator Float) {} none
    ∃ t L, Entered evaluates countRegister .root .empty t L ∧
      L "u" = some ⟨.uint, some (.int 0)⟩ ∧
      ∃ c, t.scalars.get? "u" = some ⟨c, true⟩ ∧ c.Fits .uint := by
  intro evaluates
  have hbits : (.declare ⟨⟨.bit, none⟩, "c"⟩ : Stmt).Enters evaluates .root .empty
      (Scope.root.addBits "c" [false]) .empty := ⟨⟨1, rfl, rfl⟩, rfl⟩
  have huint : (.declare ⟨⟨.uint, none⟩, "u"⟩ : Stmt).Enters evaluates
      (Scope.root.addBits "c" [false]) .empty registerDeclared registerLedger :=
    ⟨⟨.int 0, rfl, rfl⟩, rfl⟩
  have hassign : (.assign (.ident "u") (.ident "c") : Stmt).Enters evaluates
      registerDeclared registerLedger
      { registerDeclared with scalars := registerDeclared.scalars.set "u" ⟨.int 0, true⟩ }
      (registerLedger.assign registerDeclared (.ident "u") (.bits [false])) :=
    ⟨.bits [false], ⟨⟨.seeded 0 24, []⟩, ⟨.seeded 0 24, []⟩, rfl⟩, rfl, rfl⟩
  have hentered := Entered.cons hbits (.cons huint (.cons hassign .nil))
  have hentry : registerLedger.assign registerDeclared (.ident "u") (.bits [false]) "u" =
      some ⟨.uint, some (.int 0)⟩ := rfl
  have hholds := (variables_hold_declared_type_iff (R := Float) (B := Simulator Float)).2.2.2.1 {}
    evaluates countRegister .root _ .empty _ .root hentered "u"
  obtain ⟨c, hc, -, hfits⟩ := hholds.2 _ hentry
  refine ⟨_, _, hentered, hentry, c, hc, hfits.2 ?_⟩
  rintro v ⟨⟩
  exact Int.le_refl 0

def assignInteger : List Stmt :=
  [.declare ⟨⟨.float, none⟩, "x"⟩, .assign (.ident "x") (.lit ⟨.int, "1"⟩)]

/-- The assignment does not convert the integer. -/
theorem float_variable_holds_integer :
    let i : Interpreter Float (Simulator Float) := .simulate {}
    (i.stmts assignInteger).1 = .ok () ∧
      (i.stmts assignInteger).2.scope.scalars.get? "x" = some ⟨.int 1, true⟩ ∧
      ¬(Const.int 1 : Const Float).Fits .float := by
  intro i
  exact ⟨rfl, rfl, id⟩

end OpenQasm
