import OpenQasm.Proofs.Inlining.Scopes

/-!
# Names of qubits in a body

A name stands for qubits as an argument of a gate, a measurement, a reset or a snapshot,
after the parameters of a subroutine, and in place of those of its parameters that take
qubits. Everywhere else it stands for bits or scalars, which have tables of their own. So a
qubit is renamed in these places only, and this commutes with all that modifiers do to a body.
-/
namespace OpenQasm

/-! Registers -/

def Expr.renameRegister (ρ : String → String) : Expr → Expr
  | .ident name => .ident (ρ name)
  | .index name i => .index (ρ name) i
  | e => e

def Expr.registerNames : Expr → List String
  | .ident name => [name]
  | .index name _ => [name]
  | _ => []

/-- The parameters of the subroutine that a call of a name runs; none if it runs a gate. -/
def Definitions.signature (D : Definitions) (name : String) : List TypedName :=
  match D.gates.get? name with
  | some _ => []
  | none =>
      match D.subroutines.get? name with
      | some d => d.params
      | none => []

theorem Definitions.signature_of_gate {D : Definitions} {name : String} {g : GateDef}
    (h : D.gates.get? name = some g) : D.signature name = [] := by
  rw [signature, h]

theorem Definitions.signature_of_subroutine {D : Definitions} {name : String} {d : SubroutineDef}
    (hgate : D.gates.get? name = none) (h : D.subroutines.get? name = some d) :
    D.signature name = d.params := by
  rw [signature, hgate, h]

theorem Definitions.signature_of_none {D : Definitions} {name : String}
    (hgate : D.gates.get? name = none) (h : D.subroutines.get? name = none) :
    D.signature name = [] := by
  rw [signature, hgate, h]

/-! Expressions -/

mutual

/-- Rename the qubits of an expression. -/
def Expr.renameQubits (D : Definitions) (ρ : String → String) : Expr → Expr
  | .measure qs => .measure (qs.map (Expr.renameRegister ρ))
  | .call name ms ps qs =>
      .call name ms (Expr.renameArguments D ρ (D.signature name) ps)
        (qs.map (Expr.renameRegister ρ))
  | e => e

def Expr.renameArguments (D : Definitions) (ρ : String → String) (params : List TypedName) :
    List Expr → List Expr
  | [] => []
  | e :: es =>
      match params with
      | [] => e :: es
      | p :: ps =>
          (match p.type.kind with
            | .qubit => e.renameRegister ρ
            | _ => e.renameQubits D ρ) ::
          Expr.renameArguments D ρ ps es

end

mutual

/-- The names that stand for qubits in an expression. -/
def Expr.qubitNames (D : Definitions) : Expr → List String
  | .measure qs => qs.flatMap Expr.registerNames
  | .call name _ ps qs =>
      qs.flatMap Expr.registerNames ++ Expr.argumentNames D (D.signature name) ps
  | _ => []

def Expr.argumentNames (D : Definitions) (params : List TypedName) : List Expr → List String
  | [] => []
  | e :: es =>
      match params with
      | [] => []
      | p :: ps =>
          (match p.type.kind with
            | .qubit => e.registerNames
            | _ => e.qubitNames D) ++
          Expr.argumentNames D ps es

end

/-! Statements -/

mutual

/-- Rename the qubits of a statement. Nothing is ever assigned to a qubit, and definitions
do not see the qubits around them. -/
def Stmt.renameQubits (D : Definitions) (ρ : String → String) : Stmt → Stmt
  | .returns (some e) => .returns (some (e.renameQubits D ρ))
  | .arrow e target => .arrow (e.renameQubits D ρ) target
  | .assign target e => .assign target (e.renameQubits D ρ)
  | .reset qs => .reset (qs.map (Expr.renameRegister ρ))
  | .print es => .print (es.map (Expr.renameRegister ρ))
  | .apply b ms ps qs => .apply b ms ps (qs.map (Expr.renameRegister ρ))
  | .expr e => .expr (e.renameQubits D ρ)
  | .block body => .block (Stmt.renameEach D ρ body)
  | c => c

def Stmt.renameEach (D : Definitions) (ρ : String → String) : List Stmt → List Stmt
  | [] => []
  | c :: cs => c.renameQubits D ρ :: Stmt.renameEach D ρ cs

end

mutual

/-- The names that stand for qubits in a statement. -/
def Stmt.qubitNames (D : Definitions) : Stmt → List String
  | .returns (some e) => e.qubitNames D
  | .arrow e _ => e.qubitNames D
  | .assign _ e => e.qubitNames D
  | .reset qs => qs.flatMap Expr.registerNames
  | .print es => es.flatMap Expr.registerNames
  | .apply _ _ _ qs => qs.flatMap Expr.registerNames
  | .expr e => e.qubitNames D
  | .block body => Stmt.qubitNamesIn D body
  | _ => []

def Stmt.qubitNamesIn (D : Definitions) : List Stmt → List String
  | [] => []
  | c :: cs => c.qubitNames D ++ Stmt.qubitNamesIn D cs

end

mutual

/-- Whether a statement takes a snapshot. -/
def Stmt.prints : Stmt → Bool
  | .print _ => true
  | .block body => Stmt.anyPrints body
  | _ => false

def Stmt.anyPrints : List Stmt → Bool
  | [] => false
  | c :: cs => c.prints || Stmt.anyPrints cs

end

theorem Stmt.renameEach_eq_map (D : Definitions) (ρ : String → String) (b : List Stmt) :
    Stmt.renameEach D ρ b = b.map (Stmt.renameQubits D ρ) := by
  induction b with
  | nil => rw [Stmt.renameEach, List.map_nil]
  | cons c cs ih => rw [Stmt.renameEach, List.map_cons, ih]

theorem Stmt.qubitNamesIn_eq_flatMap (D : Definitions) (b : List Stmt) :
    Stmt.qubitNamesIn D b = b.flatMap (Stmt.qubitNames D) := by
  induction b with
  | nil => rw [Stmt.qubitNamesIn, List.flatMap_nil]
  | cons c cs ih => rw [Stmt.qubitNamesIn, List.flatMap_cons, ih]

theorem Stmt.anyPrints_eq_any (b : List Stmt) : Stmt.anyPrints b = b.any Stmt.prints := by
  induction b with
  | nil => rw [Stmt.anyPrints, List.any_nil]
  | cons c cs ih => rw [Stmt.anyPrints, List.any_cons, ih]

theorem Expr.renameArguments_nil (D : Definitions) (ρ : String → String) (es : List Expr) :
    Expr.renameArguments D ρ [] es = es := by
  cases es <;> rw [Expr.renameArguments]

theorem Expr.length_renameArguments (D : Definitions) (ρ : String → String)
    (params : List TypedName) (es : List Expr) :
    (Expr.renameArguments D ρ params es).length = es.length := by
  induction es generalizing params with
  | nil => rw [Expr.renameArguments]
  | cons e es ih =>
      cases params with
      | nil => rw [Expr.renameArguments]
      | cons p ps => rw [Expr.renameArguments, List.length_cons, List.length_cons, ih]

/-! Renaming nothing -/

theorem Expr.renameRegister_id (e : Expr) : e.renameRegister id = e := by
  cases e <;> rfl

theorem Expr.map_renameRegister_id (es : List Expr) : es.map (Expr.renameRegister id) = es := by
  rw [show Expr.renameRegister id = id from funext Expr.renameRegister_id, List.map_id]

mutual

theorem Expr.renameQubits_id (D : Definitions) : ∀ e : Expr, e.renameQubits D id = e
  | .measure qs => by rw [Expr.renameQubits, Expr.map_renameRegister_id]
  | .call name ms ps qs => by
      rw [Expr.renameQubits, Expr.renameArguments_id D _ ps, Expr.map_renameRegister_id]
  | .ident _ | .index _ _ | .lit _ | .binary _ _ _ | .unary _ _ | .paren _ => by
      rw [Expr.renameQubits] <;> intros <;> contradiction

theorem Expr.renameArguments_id (D : Definitions) : ∀ (params : List TypedName) (es : List Expr),
    Expr.renameArguments D id params es = es
  | _, [] => by rw [Expr.renameArguments]
  | [], _ :: _ => by rw [Expr.renameArguments]
  | p :: ps, e :: es => by
      rw [Expr.renameArguments, Expr.renameArguments_id D ps es]
      split
      · rw [Expr.renameRegister_id]
      · rw [Expr.renameQubits_id D e]

end

theorem Stmt.renameQubits_id (D : Definitions) (c : Stmt) : c.renameQubits D id = c := by
  cases c with
  | block b =>
      have ih : ∀ c ∈ b, c.renameQubits D id = c := fun c _ => renameQubits_id D c
      rw [renameQubits, renameEach_eq_map, List.map_congr_left ih, List.map_id']
  | returns value =>
      cases value with
      | none => rfl
      | some e => rw [renameQubits, Expr.renameQubits_id]
  | arrow e target => rw [renameQubits, Expr.renameQubits_id]
  | assign target e => rw [renameQubits, Expr.renameQubits_id]
  | expr e => rw [renameQubits, Expr.renameQubits_id]
  | reset qs => rw [renameQubits, Expr.map_renameRegister_id]
  | print es => rw [renameQubits, Expr.map_renameRegister_id]
  | apply b ms ps qs => rw [renameQubits, Expr.map_renameRegister_id]
  | _ => rfl
termination_by sizeOf c

theorem Stmt.renameEach_id (D : Definitions) (b : List Stmt) : Stmt.renameEach D id b = b := by
  rw [renameEach_eq_map, show Stmt.renameQubits D id = id from funext (renameQubits_id D),
    List.map_id]

/-! Renamings -/

/-- A way to rename qubits, and the names that stay apart. -/
structure Renaming where
  map : String → String
  known : String → Prop
  injective : ∀ x y, known x → known y → map x = map y → x = y

namespace Renaming

def none : Renaming := ⟨id, fun _ => True, fun _ _ _ _ h => h⟩

/-- The qubits of a statement can be renamed: they stay apart, and as long as they get other
names no snapshot tells what they are called. -/
structure Covers (r : Renaming) (D : Definitions) (c : Stmt) : Prop where
  names : ∀ x ∈ c.qubitNames D, r.known x
  prints : c.prints = true → r.map = id

theorem covers_none (D : Definitions) (c : Stmt) : none.Covers D c :=
  ⟨fun _ _ => trivial, fun _ => rfl⟩

variable {r : Renaming} {D : Definitions}

theorem covers_block_iff {b : List Stmt} :
    r.Covers D (.block b) ↔ ∀ c ∈ b, r.Covers D c := by
  constructor
  · rintro ⟨hnames, hprints⟩ c hc
    rw [Stmt.qubitNames, Stmt.qubitNamesIn_eq_flatMap] at hnames
    rw [Stmt.prints, Stmt.anyPrints_eq_any] at hprints
    exact ⟨fun x hx => hnames x (List.mem_flatMap.2 ⟨c, hc, hx⟩),
      fun hprint => hprints (List.any_eq_true.2 ⟨c, hc, hprint⟩)⟩
  · intro h
    refine ⟨fun x hx => ?_, fun hprint => ?_⟩
    · rw [Stmt.qubitNames, Stmt.qubitNamesIn_eq_flatMap] at hx
      obtain ⟨c, hc, hx⟩ := List.mem_flatMap.1 hx
      exact (h c hc).names x hx
    · rw [Stmt.prints, Stmt.anyPrints_eq_any] at hprint
      obtain ⟨c, hc, hprint⟩ := List.any_eq_true.1 hprint
      exact (h c hc).prints hprint

end Renaming

/-! Bodies of modified calls -/

namespace Stmt

variable {D : Definitions} {r : Renaming}

theorem renameQubits_block (D : Definitions) (ρ : String → String) (b : List Stmt) :
    (Stmt.block b).renameQubits D ρ = .block (b.map (Stmt.renameQubits D ρ)) := by
  rw [renameQubits, renameEach_eq_map]

theorem renameQubits_inv (D : Definitions) (ρ : String → String) (c : Stmt) :
    c.inv.renameQubits D ρ = (c.renameQubits D ρ).inv := by
  cases c with
  | block b =>
      have ih : ∀ c ∈ b, c.inv.renameQubits D ρ = (c.renameQubits D ρ).inv :=
        fun c _ => renameQubits_inv D ρ c
      rw [inv_block, renameQubits_block, renameQubits_block, inv_block, List.map_reverse,
        List.map_map, List.map_map]
      congr 2
      exact List.map_congr_left ih
  | returns value => cases value <;> rfl
  | expr e => cases e <;> rfl
  | _ => rfl
termination_by sizeOf c

theorem renameQubits_add (D : Definitions) {ρ : String → String} (m : Modifier) {qs : List Expr}
    (hqs : qs.map (Expr.renameRegister ρ) = qs) (c : Stmt) :
    (c.add m qs).renameQubits D ρ = (c.renameQubits D ρ).add m qs := by
  have hargs : ∀ args : List Expr, (qs ++ args).map (Expr.renameRegister ρ) =
      qs ++ args.map (Expr.renameRegister ρ) := fun args => by rw [List.map_append, hqs]
  cases c with
  | block b =>
      have ih : ∀ c ∈ b, (c.add m qs).renameQubits D ρ = (c.renameQubits D ρ).add m qs :=
        fun c _ => renameQubits_add D m hqs c
      rw [add_block, renameQubits_block, renameQubits_block, add_block, List.map_map, List.map_map]
      congr 1
      exact List.map_congr_left ih
  | apply b ms ps args => exact congrArg (Stmt.apply b (m :: ms) ps) (hargs args)
  | expr e =>
      cases e with
      | call name ms ps args =>
          exact congrArg (fun args => Stmt.expr (.call name (m :: ms) _ args)) (hargs args)
      | _ => rfl
  | returns value => cases value <;> rfl
  | _ => rfl
termination_by sizeOf c

theorem covers_inv {c : Stmt} (h : r.Covers D c) : r.Covers D c.inv := by
  cases c with
  | block b =>
      have ih : ∀ c ∈ b, r.Covers D c.inv := fun c hc =>
        covers_inv (Renaming.covers_block_iff.1 h c hc)
      rw [inv_block, Renaming.covers_block_iff]
      exact fun c hc => List.forall_mem_map.2 ih c (List.mem_reverse.1 hc)
  | expr e => cases e <;> exact ⟨h.names, h.prints⟩
  | _ => exact ⟨h.names, h.prints⟩
termination_by sizeOf c

theorem covers_add {m : Modifier} {qs : List Expr}
    (hqs : ∀ x ∈ qs.flatMap Expr.registerNames, r.known x) {c : Stmt} (h : r.Covers D c) :
    r.Covers D (c.add m qs) := by
  cases c with
  | block b =>
      have ih : ∀ c ∈ b, r.Covers D (c.add m qs) := fun c hc =>
        covers_add hqs (Renaming.covers_block_iff.1 h c hc)
      rw [add_block, Renaming.covers_block_iff]
      exact List.forall_mem_map.2 ih
  | apply b ms ps args =>
      refine ⟨fun x hx => ?_, h.prints⟩
      have hargs : x ∈ (qs ++ args).flatMap Expr.registerNames := hx
      rw [List.flatMap_append, List.mem_append] at hargs
      exact hargs.elim (hqs x) (h.names x)
  | expr e =>
      cases e with
      | call name ms ps args =>
          refine ⟨fun x hx => ?_, h.prints⟩
          have hargs : x ∈ (qs ++ args).flatMap Expr.registerNames ++
              Expr.argumentNames D (D.signature name) ps := hx
          rw [List.flatMap_append, List.append_assoc, List.mem_append] at hargs
          exact hargs.elim (hqs x) (h.names x)
      | _ => exact h
  | _ => exact h
termination_by sizeOf c

end Stmt

/-- A renaming that leaves the names alone that so many control qubits are bound under. -/
structure Renaming.Spares (r : Renaming) (count : Nat) : Prop where
  known : ∀ i < count, r.known (controlName i)
  fixed : ∀ i < count, r.map (controlName i) = controlName i

namespace Renaming.Spares

variable {r : Renaming} {count : Nat}

theorem none (count : Nat) : Renaming.none.Spares count := ⟨fun _ _ => trivial, fun _ _ => rfl⟩

theorem map_controlNames (h : r.Spares count) {start n : Nat} (hn : start + n ≤ count) :
    (controlNames start n).map (Expr.renameRegister r.map) = controlNames start n := by
  rw [controlNames, List.map_map]
  refine List.map_congr_left fun i hi => ?_
  have hlt := List.mem_range.1 hi
  exact congrArg Expr.ident (h.fixed (start + i) (by omega))

theorem known_controlNames (h : r.Spares count) {start n : Nat} (hn : start + n ≤ count) :
    ∀ x ∈ (controlNames start n).flatMap Expr.registerNames, r.known x := by
  intro x hx
  obtain ⟨e, he, hx⟩ := List.mem_flatMap.1 hx
  obtain ⟨i, hi, rfl⟩ := List.mem_map.1 he
  have hlt := List.mem_range.1 hi
  rw [List.mem_singleton.1 hx]
  exact h.known (start + i) (by omega)

end Renaming.Spares

end OpenQasm
