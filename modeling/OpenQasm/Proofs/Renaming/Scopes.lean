import OpenQasm.Proofs.Renaming.Tables
import OpenQasm.Proofs.Scoping.Agreement

/-!
# Scopes with other names for the qubits

Where a gate is run under two definitions that differ in the names of its qubits, the scopes
differ in these names and in the table of gates. Registers resolve to the same qubits as long
as the names stay apart, and the modifiers of a call do the same to both bodies.
-/
namespace OpenQasm

theorem Scope.singleQubit_like {R : Type} [Scalar R] {s s' : Scope R} {e e' : Expr}
    (h : EndsLike Eq (s.qubitsOf e) (s'.qubitsOf e')) :
    EndsLike Eq (s.singleQubit e) (s'.singleQubit e') := h.bind_eq fun _ => .refl _

/-! Bodies of modified calls -/

/-- A body whose qubits are renamed, statement by statement. -/
def Renaming.RenamesBody (r : Renaming) (D : Definitions) (b b' : Block) : Prop :=
  b' = b.map (Stmt.renameQubits D r.map) ∧ ∀ c ∈ b, r.Covers D c

/-- A gate with other names for its qubits. -/
structure Renaming.Renames (r : Renaming) (D : Definitions) (g g' : GateDef) : Prop where
  name : g'.name = g.name
  params : g'.params = g.params
  qargs : g'.qargs = g.qargs.map r.map
  known : ∀ x ∈ g.qargs, r.known x
  body : r.RenamesBody D g.body g'.body

namespace Renaming

variable {R : Type} [Scalar R] {r : Renaming} {D : Definitions} {g g' : GateDef}

theorem renamesBody_none (D : Definitions) (b : Block) : none.RenamesBody D b b := by
  refine ⟨?_, fun c _ => covers_none D c⟩
  rw [← Stmt.renameEach_eq_map]
  exact (Stmt.renameEach_id D b).symm

theorem renames_none (D : Definitions) (g : GateDef) : none.Renames D g g :=
  ⟨rfl, rfl, (List.map_id _).symm, fun _ _ => trivial, renamesBody_none D g.body⟩

theorem RenamesBody.length_eq {b b' : Block} (h : r.RenamesBody D b b') :
    b'.length = b.length := by
  rw [h.1, List.length_map]

theorem RenamesBody.inv {b b' : Block} (h : r.RenamesBody D b b') :
    r.RenamesBody D b.inv b'.inv := by
  obtain ⟨rfl, hcovers⟩ := h
  refine ⟨?_, Block.forall_mem_inv (fun _ => Stmt.covers_inv) hcovers⟩
  rw [Block.inv, Block.inv, List.map_reverse, List.map_map, List.map_map]
  congr 1
  exact List.map_congr_left fun c _ => (c.renameQubits_inv D r.map).symm

theorem RenamesBody.pow {b b' : Block} (h : r.RenamesBody D b b') (n : Nat) :
    r.RenamesBody D (b.pow n) (b'.pow n) := by
  obtain ⟨rfl, hcovers⟩ := h
  refine ⟨?_, Block.forall_mem_pow hcovers n⟩
  rw [Block.pow_eq, Block.pow_eq, List.map_flatten, List.map_replicate]

theorem RenamesBody.add {b b' : Block} (h : r.RenamesBody D b b') {count : Nat}
    (hspares : r.Spares count) {start n : Nat} (hn : start + n ≤ count) (m : Modifier) :
    r.RenamesBody D (b.add m (controlNames start n)) (b'.add m (controlNames start n)) := by
  obtain ⟨rfl, hcovers⟩ := h
  refine ⟨?_, List.forall_mem_map.2 fun c hc =>
    Stmt.covers_add (hspares.known_controlNames hn) (hcovers c hc)⟩
  rw [Block.add, Block.add, List.map_map, List.map_map]
  exact List.map_congr_left fun c _ =>
    (c.renameQubits_add D m (hspares.map_controlNames hn)).symm

/-- Modifiers do the same to both bodies of a gate. -/
theorem Renames.modifyBody (h : r.Renames D g g') {count : Nat} (hspares : r.Spares count)
    (s : Scope R) (qubits : RegisterTable QubitId) (gates : Table GateDef) (limit : Nat)
    {start : Nat} {counted : List (Modifier × Nat)}
    (hcount : start + Scope.totalControls counted ≤ count) :
    EndsLike (r.RenamesBody D) (s.modifyBody g limit start counted)
      ((s.withTables qubits gates).modifyBody g' limit start counted) := by
  induction counted generalizing start with
  | nil => exact h.body
  | cons c counted ih =>
      obtain ⟨m, n⟩ := c
      have htotal : Scope.totalControls ((m, n) :: counted) = n + Scope.totalControls counted := rfl
      rw [Scope.modifyBody, Scope.modifyBody, Scope.exponent_withTables]
      refine (ih (by omega)).bind fun b b' hb => ?_
      split
      · exact hb.inv
      · refine .after _ fun k => ?_
        have hlength : b'.length = b.length := by rw [hb.1, List.length_map]
        dsimp only
        rw [hlength, h.name]
        split
        · exact .error _ _
        · split
          · exact hb.inv.pow _
          · exact hb.pow _
      · exact hb.add hspares (by omega) _

end Renaming

/-! Two definitions of a gate -/

/-- Another definition in place of a gate that is being run. -/
structure Swap where
  definitions : Definitions
  name : String
  gate : GateDef
  other : GateDef
  found : definitions.gates.get? name = some gate
  sameName : other.name = gate.name

namespace Swap

variable {R : Type} {K : Swap} {r : Renaming} {s s' : Scope R}

def gates (K : Swap) : Table GateDef := K.definitions.gates.set K.name K.other

/-- A name refers to the same gate in both tables, or to the two definitions. -/
theorem get?_gates (K : Swap) (name : String) :
    K.gates.get? name = K.definitions.gates.get? name ∨
      K.definitions.gates.get? name = some K.gate ∧ K.gates.get? name = some K.other := by
  unfold gates
  rw [Table.get?_set]
  split
  · rename_i hname
    exact .inr ⟨by rw [hname]; exact K.found, rfl⟩
  · exact .inl rfl

/-- Two scopes that calls are made from. -/
structure Calls (K : Swap) (r : Renaming) (s s' : Scope R) : Prop where
  eq : s' = s.withTables (Table.rename r.map s.qubits) K.gates
  definitions : s.definitions = K.definitions
  known : ∀ x ∈ Table.names s.qubits, r.known x

/-- Two scopes in which a body is run, somewhere below the gate. -/
structure Inside (K : Swap) (r : Renaming) (s s' : Scope R) : Prop extends K.Calls r s s' where
  running : K.gate.name ∈ s.chain
  isLocal : s.isGlobal = false

namespace Calls

theorem gates_eq (h : K.Calls r s s') : s.gates = K.definitions.gates :=
  congrArg Definitions.gates h.definitions

theorem subroutines_eq (h : K.Calls r s s') : s.subroutines = K.definitions.subroutines :=
  congrArg Definitions.subroutines h.definitions

theorem convertResult [Scalar R] (h : K.Calls r s s') (d : SubroutineDef) (val : Value R) :
    s'.convertResult d val = s.convertResult d val := by
  rw [h.eq, Scope.convertResult_withTables]

theorem apart (h : K.Calls r s s') {x : String} (hx : r.known x) :
    ∀ y ∈ Table.names s.qubits, r.map y = r.map x → y = x :=
  fun y hy => r.injective y x (h.known y hy) hx

/-- The scopes of two definitions of a gate, if control qubits keep their names. -/
theorem gateScope (h : K.Calls r s s') {w : Renaming} {g g' : GateDef}
    (hgate : w.Renames K.definitions g g') {controls : List QubitId}
    (hspares : w.Spares controls.length) (hrunning : K.gate.name ∈ s.chain ++ [g.name])
    (call : Call) {call' : Call} (hmodifiers : call'.modifiers = call.modifiers)
    (targets : List (List QubitId)) (params : List (Const R)) :
    K.Inside w (s.gateScope g call controls targets params)
      (s'.gateScope g' call' controls targets params) := by
  obtain ⟨rfl, hdefinitions, -⟩ := h
  have hcontrols : ∀ b ∈ controlBindings controls, w.known b.1 ∧ w.map b.1 = b.1 := by
    intro b hb
    obtain ⟨i, q, hq, rfl⟩ := name_of_mem_controlBindings hb
    have hi := (List.getElem?_eq_some_iff.1 hq).1
    exact ⟨hspares.known i hi, hspares.fixed i hi⟩
  have hformals : ∀ b ∈ g.qargs.zip targets, w.known b.1 := fun b hb =>
    hgate.known b.1 (List.of_mem_zip hb).1
  have hcontrolNames : ∀ x ∈ Table.names (Table.empty.setAll (controlBindings controls)),
      w.known x := by
    intro x hx
    rcases Table.mem_names_setAll hx with hx | hx
    · obtain ⟨b, hb, rfl⟩ := List.mem_map.1 hx
      exact (hcontrols b hb).1
    · cases hx
  have hsame : (controlBindings controls).map (fun b => (w.map b.1, b.2)) =
      controlBindings controls := by
    conv_rhs => rw [← List.map_id (controlBindings controls)]
    exact List.map_congr_left fun b hb => Prod.ext (hcontrols b hb).2 rfl
  have hzip : (g.qargs.zip targets).map (fun b => (w.map b.1, b.2)) = g'.qargs.zip targets := by
    rw [hgate.qargs, List.zip_map_left]
    rfl
  have hqubits : Table.rename w.map
      ((Table.empty.setAll (controlBindings controls)).setAll (g.qargs.zip targets)) =
      (Table.empty.setAll (controlBindings controls)).setAll (g'.qargs.zip targets) := by
    rw [Table.setAll_rename w hcontrolNames hformals,
      Table.setAll_rename w (t := Table.empty) (fun x hx => by cases hx)
        (fun b hb => (hcontrols b hb).1), hsame, hzip]
    rfl
  rw [Scope.gateScope_eq, Scope.gateScope_eq]
  refine ⟨⟨?_, hdefinitions, ?_⟩, hrunning, rfl⟩
  · rw [hgate.name, hgate.params, hmodifiers]
    dsimp only [Scope.withTables]
    rw [hqubits]
    rfl
  · intro x hx
    rcases Table.mem_names_setAll hx with hx | hx
    · obtain ⟨b, hb, rfl⟩ := List.mem_map.1 hx
      exact hformals b hb
    · exact hcontrolNames x hx

variable [Scalar R]

/-! Registers -/

theorem qubitsOf (h : K.Calls r s s') {e : Expr} (he : ∀ x ∈ e.registerNames, r.known x) :
    EndsLike Eq (s.qubitsOf e) (s'.qubitsOf (e.renameRegister r.map)) := by
  have hselect := fun x hx index => RegisterTable.select_rename (h.apart (x := x) hx) index
  obtain rfl := h.eq
  cases e with
  | ident x => exact hselect x (he x List.mem_cons_self) none
  | index x i =>
      unfold Scope.qubitsOf
      rw [Scope.reference_withTables, Expr.renameRegister, Scope.reference, Scope.reference]
      simp only [bind_assoc]
      refine .after _ fun c => .after _ fun k => ?_
      exact hselect x (he x List.mem_cons_self) (some k)
  | _ => exact .error _ _

theorem forall2_qubitsOf (h : K.Calls r s s') {qs : List Expr}
    (hqs : ∀ x ∈ qs.flatMap Expr.registerNames, r.known x) :
    List.Forall₂ (fun e e' => EndsLike Eq (s.qubitsOf e) (s'.qubitsOf e')) qs
      (qs.map (Expr.renameRegister r.map)) := by
  rw [List.forall₂_map_right_iff, List.forall₂_same]
  exact fun e he => h.qubitsOf fun x hx => hqs x (List.mem_flatMap.2 ⟨e, he, hx⟩)

theorem mapM_qubitsOf (h : K.Calls r s s') {qs : List Expr}
    (hqs : ∀ x ∈ qs.flatMap Expr.registerNames, r.known x) :
    EndsLike Eq (qs.mapM s.qubitsOf) ((qs.map (Expr.renameRegister r.map)).mapM s'.qubitsOf) :=
  .mapM (h.forall2_qubitsOf hqs)

theorem measuredQubits (h : K.Calls r s s') {qs : List Expr}
    (hqs : ∀ x ∈ qs.flatMap Expr.registerNames, r.known x) :
    EndsLike Eq (s.measuredQubits qs)
      (s'.measuredQubits (qs.map (Expr.renameRegister r.map))) := by
  have hall := h.mapM_qubitsOf hqs
  obtain rfl := h.eq
  unfold Scope.measuredQubits
  rw [List.isEmpty_map, Scope.qubits_withTables, RegisterTable.all_rename]
  exact .ite (fun _ => .refl _) fun _ => hall.bind_eq fun _ => .refl _

/-! Applications of gates -/

theorem sameParts (h : K.Calls r s s') (ms : List Modifier) (ps : List Expr) {qs : List Expr}
    (hqs : ∀ x ∈ qs.flatMap Expr.registerNames, r.known x) :
    s.SameParts s' ms ms ps ps qs (qs.map (Expr.renameRegister r.map)) ∧
      s'.SameParts s ms ms ps ps (qs.map (Expr.renameRegister r.map)) qs := by
  have hqubits := h.forall2_qubitsOf hqs
  have hfold : s'.fold = s.fold := by rw [h.eq, Scope.fold_withTables]
  have hsame : ∀ t t' : Scope R, t'.fold = t.fold →
      List.Forall₂ (t.SameModifier t') ms ms ∧
        List.Forall₂ (fun e e' => Refines (t.fold e) (t'.fold e')) ps ps := by
    intro t t' ht
    refine ⟨List.forall₂_same.2 fun m _ => ⟨rfl, ?_⟩, List.forall₂_same.2 fun e _ => ?_⟩
    · rw [ht]
      cases m.arg with
      | none => exact .none
      | some e => exact .some (.refl _)
    · rw [ht]
      exact .refl _
  obtain ⟨hms, hps⟩ := hsame s s' hfold
  obtain ⟨hms', hps'⟩ := hsame s' s hfold.symm
  exact ⟨⟨hms, hps, hqubits.imp fun _ _ he => he.refines⟩,
    ⟨hms', hps', (hqubits.imp fun _ _ he => he.symm.refines).flip⟩⟩

theorem applyStandard {B : Type} [Backend R B] (h : K.Calls r s s') (gate : StandardGate)
    (ms : List Modifier) (ps : List Expr) {qs : List Expr}
    (hqs : ∀ x ∈ qs.flatMap Expr.registerNames, r.known x) :
    RunsLike Eq (Run.applyStandard (B := B) s gate ms ps qs)
      (Run.applyStandard s' gate ms ps (qs.map (Expr.renameRegister r.map))) := by
  obtain ⟨hparts, hparts'⟩ := h.sameParts ms ps hqs
  have hops := EndsLike.of_refines (hparts.standardOperations gate)
    (hparts'.standardOperations gate)
  exact (RunsLike.lift hops).bind_eq fun _ => .refl _

theorem applyBuiltin {B : Type} [Backend R B] (h : K.Calls r s s') (gate : Builtin)
    (ms : List Modifier) (ps : List Expr) {qs : List Expr}
    (hqs : ∀ x ∈ qs.flatMap Expr.registerNames, r.known x) :
    RunsLike Eq (Run.applyBuiltin (B := B) s gate ms ps qs)
      (Run.applyBuiltin s' gate ms ps (qs.map (Expr.renameRegister r.map))) := by
  obtain ⟨hparts, hparts'⟩ := h.sameParts ms ps hqs
  have hfourier := fun gate => EndsLike.of_refines (hparts.fourierCall gate)
    (hparts'.fourierCall gate)
  have hmodular := EndsLike.of_refines hparts.modularPowerCall hparts'.modularPowerCall
  cases gate with
  | qft => exact (RunsLike.lift (hfourier .qft)).bind_eq fun _ => .refl _
  | iqft => exact (RunsLike.lift (hfourier .iqft)).bind_eq fun _ => .refl _
  | cmodexp2 => exact (RunsLike.lift hmodular).bind_eq fun _ => .refl _
  | _ => exact h.applyStandard _ ms ps hqs

/-- What a call of a gate runs under each of two definitions. -/
theorem prepareGate (h : K.Calls r s s') {w : Renaming} {g g' : GateDef}
    (hgate : w.Renames K.definitions g g') (hrunning : K.gate.name ∈ s.chain ++ [g.name])
    {qs : List Expr} (hspares : w.Spares (qs.length - g.qargs.length))
    (hqs : ∀ x ∈ qs.flatMap Expr.registerNames, r.known x) (config : Config) (name : String)
    (ms : List Modifier) (ps : List Expr) :
    EndsLike (fun p p' => K.Inside w p.1 p'.1 ∧ w.RenamesBody K.definitions p.2 p'.2)
      (s.prepareGate config g ⟨name, ms, ps, qs⟩)
      (s'.prepareGate config g' ⟨name, ms, ps, qs.map (Expr.renameRegister r.map)⟩) := by
  have hqubits := h.forall2_qubitsOf hqs
  have hscope : ∀ controls : List QubitId, w.Spares controls.length → ∀ targets params,
      K.Inside w (s.gateScope g ⟨name, ms, ps, qs⟩ controls targets params)
        (s'.gateScope g' ⟨name, ms, ps, qs.map (Expr.renameRegister r.map)⟩ controls targets
          params) := fun _ hspares => h.gateScope hgate hspares hrunning _ rfl
  obtain rfl := h.eq
  have hlen : g'.qargs.length = g.qargs.length := by rw [hgate.qargs, List.length_map]
  unfold Scope.prepareGate
  dsimp only
  rw [Scope.fold_withTables, Scope.countControls_withTables, hgate.name, hgate.params, hlen,
    List.length_map]
  refine .ite (fun _ => .error _ _) fun _ => .after _ fun params => .after _ fun counted => ?_
  rw [Scope.foldl_controls, Nat.zero_add]
  by_cases hnames : Scope.totalControls counted + g.qargs.length < 2 ^ 64
  swap
  · -- a call that no memory holds fails under both definitions, at one place or another
    have hrefused : ∀ d : GateDef, d.qargs.length = g.qargs.length → ∀ b,
        (d.checkExpansion (Scope.totalControls counted) b).isOk = false := by
      intro d hd b
      rw [GateDef.checkExpansion, hd, if_neg fun h => hnames h.1]
      rfl
    refine .ite (fun _ => .error _ _) fun _ => .of_not_isOk ?_ ?_
    · exact isOk_bind_of_forall _ fun _ => isOk_bind_of_forall _ fun _ =>
        isOk_bind_of_forall _ fun b => isOk_bind_of_not_isOk (hrefused g rfl b) _
    · exact isOk_bind_of_forall _ fun _ => isOk_bind_of_forall _ fun _ =>
        isOk_bind_of_forall _ fun b => isOk_bind_of_not_isOk (hrefused g' hlen b) _
  have hfits : Scope.totalControls counted < 2 ^ 64 := by omega
  rw [wordOf_of_lt hfits, wordOf_of_lt hnames]
  refine .ite (fun _ => .error _ _) fun hcount => ?_
  rw [not_not] at hcount
  have htotal : Scope.totalControls counted = qs.length - g.qargs.length := by omega
  have hcontrols := (List.forall₂_take (Scope.totalControls counted) hqubits).imp
    fun _ _ => Scope.singleQubit_like
  refine EndsLike.bind_ok (.mapM hcontrols) fun controls hok => ?_
  have hcontrolsLen : controls.length = qs.length - g.qargs.length := by
    rw [length_of_mapM hok, List.length_take]
    omega
  refine EndsLike.bind_eq (.mapM (List.forall₂_drop _ hqubits)) fun targets => ?_
  have htotal' : 0 + Scope.totalControls counted ≤ qs.length - g.qargs.length := by omega
  have hbody := hgate.modifyBody hspares s (Table.rename r.map s.qubits) K.gates config.maxUnroll
    htotal'
  refine hbody.bind fun body body' hbody => ?_
  rw [GateDef.checkExpansion, GateDef.checkExpansion, hlen, hbody.length_eq, hgate.name]
  refine EndsLike.after _ fun _ => ⟨?_, hbody⟩
  exact hscope controls (by rw [hcontrolsLen]; exact hspares) targets params

end Calls

namespace Inside

/-! Changes to both scopes -/

theorem addQubits (h : K.Inside r s s') {name : String} (hname : r.known name)
    (qs : List QubitId) : K.Inside r (s.addQubits name qs) (s'.addQubits (r.map name) qs) := by
  refine ⟨⟨?_, h.definitions, fun x hx => ?_⟩, h.running, h.isLocal⟩
  · have hset := Table.set_rename (h.apart hname) qs
    obtain rfl := h.eq
    unfold Scope.addQubits Scope.withTables
    dsimp only
    rw [hset]
  · rcases Table.mem_names_set hx with rfl | hx
    · exact hname
    · exact h.known x hx

theorem addBits (h : K.Inside r s s') (name : String) (bs : List Bool) :
    K.Inside r (s.addBits name bs) (s'.addBits name bs) := by
  obtain rfl := h.eq
  exact ⟨⟨rfl, h.definitions, h.known⟩, h.running, h.isLocal⟩

theorem setScalar (h : K.Inside r s s') (name : String) (b : Binding R) :
    K.Inside r { s with scalars := s.scalars.set name b }
      { s' with scalars := s'.scalars.set name b } := by
  obtain rfl := h.eq
  exact ⟨⟨rfl, h.definitions, h.known⟩, h.running, h.isLocal⟩

theorem setVariable (h : K.Inside r s s') (name : String) (c : Const R) :
    EndsLike (K.Inside r) (s.setVariable name c) (s'.setVariable name c) := by
  have hset := h.setScalar name ⟨c, true⟩
  obtain rfl := h.eq
  unfold Scope.setVariable
  rw [Scope.scalars_withTables]
  split
  · exact .error _ _
  · exact hset

theorem bindArg (h : K.Inside .none s s') (name : String) (arg : Arg R) :
    EndsLike (K.Inside .none) (s.bindArg name arg) (s'.bindArg name arg) := by
  cases arg with
  | qubits qs => exact h.addQubits trivial qs
  | bits bs => exact h.addBits name bs
  | scalar c => exact h.setVariable name c

theorem bindArgs (args : List (TypedName × Arg R)) (h : K.Inside .none s s') :
    EndsLike (K.Inside .none) (args.foldlM (fun t (p, arg) => t.bindArg p.name arg) s)
      (args.foldlM (fun t (p, arg) => t.bindArg p.name arg) s') := by
  induction args generalizing s s' with
  | nil => exact h
  | cons a as ih =>
      rw [List.foldlM_cons, List.foldlM_cons]
      exact (h.bindArg a.1.name a.2).bind fun t t' ht => ih ht

variable [Scalar R]

/-- The scope of a subroutine, which has qubits of its own. -/
theorem subroutineScope (h : K.Inside r s s') (d : SubroutineDef) (args : List (Arg R))
    {qs : List Expr} (hqs : ∀ x ∈ qs.flatMap Expr.registerNames, r.known x) :
    EndsLike (K.Inside .none) (s.subroutineScope d args qs)
      (s'.subroutineScope d args (qs.map (Expr.renameRegister r.map))) := by
  have hinner : K.Inside .none (s.enclosed d.name []) (s'.enclosed d.name []) := by
    obtain rfl := h.eq
    refine ⟨⟨rfl, h.definitions, fun x hx => ?_⟩, List.mem_append_left _ h.running, rfl⟩
    cases hx
  unfold Scope.subroutineScope
  refine (h.mapM_qubitsOf hqs).bind_eq fun qubits => ?_
  refine (bindArgs _ hinner).bind fun t t' ht => ?_
  exact List.foldl_rel ht fun b _ _ _ h => h.addQubits trivial b.2

/-- An assignment goes to bits or to a variable, and is refused for a qubit whatever it is
called. -/
theorem assign (h : K.Inside r s s') (target : Expr) (val : Value R) :
    EndsLike (K.Inside r) (s.assign target val) (s'.assign target val) := by
  have hbits := h.addBits
  have hvariable := h.setVariable
  have hrefused : ∀ (t : Scope R) (name : String),
      (if t.qubits.contains name then throw (.typeMismatch (.qubitTarget name))
        else if (t.const? name).isSome then throw (.assignToConst name)
        else throw (.undefined name) : Except EvalError (Scope R)).isOk = false := by
    intro t name
    split
    · rfl
    · split <;> rfl
  obtain rfl := h.eq
  unfold Scope.assign
  rw [Scope.reference_withTables]
  refine .after _ fun p => ?_
  obtain ⟨name, index⟩ := p
  dsimp only
  rw [Scope.bits_withTables, Scope.isVariable_withTables]
  split
  · exact .after _ fun bs => hbits name bs
  · split
    · exact .after _ fun c => hvariable name c
    · exact .of_not_isOk (hrefused s name) (hrefused _ name)

/-! Measurements, resets and snapshots -/

variable {B : Type} [Backend R B]

theorem measure (h : K.Inside r s s') {qs : List Expr}
    (hqs : ∀ x ∈ qs.flatMap Expr.registerNames, r.known x) :
    RunsLike Eq (Run.measure (B := B) s qs)
      (Run.measure s' (qs.map (Expr.renameRegister r.map))) := by
  have hqubits := h.measuredQubits hqs
  obtain rfl := h.eq
  unfold Run.measure
  rw [Scope.checkUnitary_withTables]
  refine .after _ fun _ => ?_
  exact (RunsLike.lift hqubits).bind_eq fun _ => .refl _

theorem resetEach (h : K.Inside r s s') {qs : List Expr}
    (hqs : ∀ x ∈ qs.flatMap Expr.registerNames, r.known x) :
    RunsLike Eq (Run.resetEach (B := B) s qs)
      (Run.resetEach s' (qs.map (Expr.renameRegister r.map))) := by
  induction qs with
  | nil => exact .refl _
  | cons e es ih =>
      obtain ⟨he, hes⟩ := List.forall_mem_append.1 hqs
      rw [List.map_cons, Run.resetEach, Run.resetEach]
      refine (RunsLike.lift (h.qubitsOf he)).bind_eq fun qs => .after _ fun _ => ih hes

theorem reset (h : K.Inside r s s') {qs : List Expr}
    (hqs : ∀ x ∈ qs.flatMap Expr.registerNames, r.known x) :
    RunsLike Eq (Run.reset (B := B) s qs)
      (Run.reset s' (qs.map (Expr.renameRegister r.map))) := by
  have hreset := h.resetEach (B := B) hqs
  obtain rfl := h.eq
  unfold Run.reset
  rw [Scope.checkUnitary_withTables]
  exact .after _ fun _ => hreset

/-- A snapshot tells the names of registers, so it is the same only if they are. -/
theorem print (h : K.Inside r s s') (hr : r.map = id) (es : List Expr) :
    Run.print (B := B) s' (es.map (Expr.renameRegister r.map)) = Run.print s es := by
  obtain rfl := h.eq
  have hviews : ∀ es : List Expr, (s.withTables s.qubits K.gates).views es = s.views es := by
    intro es
    induction es with
    | nil => rfl
    | cons e es ih =>
        have hqubits : (s.withTables s.qubits K.gates).qubitsOf e = s.qubitsOf e := by
          rw [Scope.qubitsOf, Scope.qubitsOf, Scope.reference_withTables, Scope.qubits_withTables]
        rw [Scope.views, Scope.views, Scope.reference_withTables, Scope.bitsOf_withTables,
          hqubits, ih]
        rfl
  rw [hr, Table.rename_id, Expr.map_renameRegister_id]
  unfold Run.print
  rw [hviews]
  rfl

end Inside

end Swap

end OpenQasm
