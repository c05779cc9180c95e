import OpenQasm.Proofs.Controls
import OpenQasm.Proofs.InlinedCalls
import OpenQasm.Proofs.Renaming.Bodies

/-!
# Names of formals

What the qubits of a gate are called in its definition makes no difference to a call, under
any modifiers: it succeeds under one choice of names if and only if it does under the other,
and asks the backend for the same. The names have to stay apart from each other and from the
other names of qubits in the body, and no snapshot may tell them.

One clash is not ruled out by the body. The control qubits of a call are bound under names of
their own before the formals are. These names are not reserved, and a formal of such a name
hides a control qubit.
-/
namespace OpenQasm

namespace GateDef

/-- The definition with other names for its formal qubits. In the body a name is changed
where it stands for qubits; among the arguments of a subroutine, its signature tells where
that is. -/
def renamed (D : Definitions) (ρ : String → String) (g : GateDef) : GateDef :=
  { g with
    qargs := g.qargs.map ρ
    body := Stmt.renameEach D (fun x => if x ∈ g.qargs then ρ x else x) g.body }

variable {g : GateDef} {ρ : String → String}

/-- Names that are neither formals nor the new name of one stay what they are. -/
def onFormals (g : GateDef) (ρ : String → String)
    (hinj : ∀ x ∈ g.qargs, ∀ y ∈ g.qargs, ρ x = ρ y → x = y) : Renaming where
  map x := if x ∈ g.qargs then ρ x else x
  known x := x ∈ g.qargs ∨ x ∉ g.qargs.map ρ
  injective x y hx hy := by
    intro heq
    by_cases hxg : x ∈ g.qargs
    · by_cases hyg : y ∈ g.qargs
      · rw [if_pos hxg, if_pos hyg] at heq
        exact hinj x hxg y hyg heq
      · rw [if_pos hxg, if_neg hyg] at heq
        exact absurd (List.mem_map.2 ⟨x, hxg, heq⟩) (hy.resolve_left hyg)
    · by_cases hyg : y ∈ g.qargs
      · rw [if_neg hxg, if_pos hyg] at heq
        exact absurd (List.mem_map.2 ⟨y, hyg, heq.symm⟩) (hx.resolve_left hxg)
      · rw [if_neg hxg, if_neg hyg] at heq
        exact heq

variable (hinj : ∀ x ∈ g.qargs, ∀ y ∈ g.qargs, ρ x = ρ y → x = y)

theorem renames_renamed {D : Definitions}
    (hfresh : ∀ x ∈ Stmt.qubitNamesIn D g.body, x ∈ g.qargs ∨ x ∉ g.qargs.map ρ)
    (hprint : Stmt.anyPrints g.body = false) :
    (g.onFormals ρ hinj).Renames D g (g.renamed D ρ) where
  name := rfl
  params := rfl
  qargs := List.map_congr_left fun x hx => (if_pos hx).symm
  known _ hx := .inl hx
  body := by
    refine ⟨Stmt.renameEach_eq_map D _ g.body, Renaming.covers_block_iff.1 ⟨?_, ?_⟩⟩
    · rwa [Stmt.qubitNames]
    · intro h
      rw [Stmt.prints, hprint] at h
      cases h

/-- Control qubits keep their names if no formal gets or gives up one of them. -/
theorem spares_onFormals {count : Nat}
    (h : ∀ x ∈ g.qargs, ρ x ≠ x → ∀ i < count, x ≠ controlName i ∧ ρ x ≠ controlName i) :
    (g.onFormals ρ hinj).Spares count := by
  have hfixed : ∀ i < count, controlName i ∈ g.qargs → ρ (controlName i) = controlName i := by
    intro i hi hmem
    by_contra hne
    exact (h _ hmem hne i hi).1 rfl
  refine ⟨fun i hi => ?_, fun i hi => ?_⟩
  · by_contra hknown
    obtain ⟨hmem, hnew⟩ := not_or.1 hknown
    obtain ⟨x, hx, hname⟩ := List.mem_map.1 (not_not.1 hnew)
    refine hmem ?_
    by_cases hsame : ρ x = x
    · rwa [← hname, hsame]
    · exact absurd hname (h x hx hsame i hi).2
  · change (if controlName i ∈ g.qargs then ρ (controlName i) else controlName i) = controlName i
    split
    · rename_i hmem
      exact hfixed i hi hmem
    · rfl

end GateDef

def Scope.withGate {R : Type} (s : Scope R) (name : String) (g : GateDef) : Scope R :=
  { s with gates := s.gates.set name g }

variable {R B : Type} [Scalar R] [Backend R B]

/-- A call of a gate, under any modifiers and from any scope, succeeds under other names for
its formals if and only if it succeeds as it is, and leaves any backend in the same state, be
it one that writes down what it is asked for. The new names are different ones, and no other
qubits of the body have them. The control qubits of the call have other names still. -/
theorem gate_call_ignores_formal_names (config : Config) (n : Nat) {s : Scope R} {name : String}
    {g : GateDef} (hget : s.gates.get? name = some g) {ρ : String → String}
    (hinj : ∀ x ∈ g.qargs, ∀ y ∈ g.qargs, ρ x = ρ y → x = y)
    (hfresh : ∀ x ∈ Stmt.qubitNamesIn s.definitions g.body, x ∈ g.qargs ∨ x ∉ g.qargs.map ρ)
    (hprint : Stmt.anyPrints g.body = false) (ms : List Modifier) (ps qs : List Expr)
    (hcontrols : ∀ x ∈ g.qargs, ρ x ≠ x → ∀ i < qs.length - g.qargs.length,
      x ≠ controlName i ∧ ρ x ≠ controlName i) (m : Machine R B) :
    (Run.value config (runnerAt? config n) (s.withGate name (g.renamed s.definitions ρ))
        (.call name ms ps qs) m).1.isOk =
      (Run.value config (runnerAt? config n) s (.call name ms ps qs) m).1.isOk ∧
    (Run.value config (runnerAt? config n) (s.withGate name (g.renamed s.definitions ρ))
        (.call name ms ps qs) m).2 =
      (Run.value config (runnerAt? config n) s (.call name ms ps qs) m).2 := by
  let K : Swap := ⟨s.definitions, name, g, g.renamed s.definitions ρ, hget, rfl⟩
  have hcalls : K.Calls .none s (s.withGate name (g.renamed s.definitions ρ)) := by
    refine ⟨?_, rfl, fun _ _ => trivial⟩
    rw [show Renaming.none.map = id from rfl, Table.rename_id]
    rfl
  have hsim : K.Simulates (R := R) (B := B) (runnerAt? config n) := K.simulates_runnerAt config n
  have hlike : RunsLike Eq (Run.callGate config (runnerAt? (B := B) config n) s g ⟨name, ms, ps, qs⟩)
      (Run.callGate config (runnerAt? config n) (s.withGate name (g.renamed s.definitions ρ))
        (g.renamed s.definitions ρ)
        ⟨name, ms, ps, qs.map (Expr.renameRegister Renaming.none.map)⟩) :=
    Swap.callGate_like hsim hcalls (GateDef.renames_renamed hinj hfresh hprint)
      (List.mem_append_right _ (List.mem_singleton_self g.name))
      (GateDef.spares_onFormals hinj hcontrols) (fun _ _ => trivial) name ms ps
  rw [show Renaming.none.map = id from rfl, Expr.map_renameRegister_id] at hlike
  have hget' : (s.withGate name (g.renamed s.definitions ρ)).gates.get? name =
      some (g.renamed s.definitions ρ) := by
    rw [Scope.withGate, Table.get?_set, if_pos rfl]
  rw [Run.value, hget', Run.value, hget]
  exact ⟨hlike.isOk_eq m, (hlike m).2⟩

def flipQubit : SubroutineDef :=
  ⟨"f", [⟨⟨.qubit, none⟩, "p"⟩], [], none, [.apply .x [] [] [.ident "p"]]⟩

def flipThrough : GateDef := ⟨"g", ["t"], ["a", "b"], [
  .block [.apply .x [.mk .ctrl none] [] [.ident "a", .index "b" (.ident "t")]],
  .returns (some (.call "f" [] [.ident "a"] []))]⟩

def flipsThrough : Scope Float :=
  { Scope.root with
    gates := ⟨[("g", flipThrough)]⟩
    subroutines := ⟨[("f", flipQubit)]⟩
    qubits := ⟨[("q", [0, 1]), ("c", [2])]⟩ }

def watchedTriple : Machine Float (Recorder Float (Simulator Float)) :=
  ⟨.watch (Backend.allocate 3 (Simulator.seeded 0 24)).2, []⟩

def exchanged (x : String) : String := if x = "a" then "b" else if x = "b" then "a" else x

def flipThroughCall : Expr := .call "g" [.mk .ctrl none] [.lit ⟨.int, "1"⟩]
  [.ident "c", .index "q" (.lit ⟨.int, "0"⟩), .ident "q"]

theorem gate_call_ignores_formal_names_flipThrough :
    flipThrough.renamed flipsThrough.definitions exchanged = ⟨"g", ["t"], ["b", "a"], [
      .block [.apply .x [.mk .ctrl none] [] [.ident "b", .index "a" (.ident "t")]],
      .returns (some (.call "f" [] [.ident "b"] []))]⟩ ∧
    (Run.value {} (runnerAt? {} 2) (flipsThrough.withGate "g"
      (flipThrough.renamed flipsThrough.definitions exchanged)) flipThroughCall
        watchedTriple).1.isOk = true ∧
    (Run.value {} (runnerAt? {} 2) (flipsThrough.withGate "g"
      (flipThrough.renamed flipsThrough.definitions exchanged)) flipThroughCall
        watchedTriple).2.backend.targets = [[1], [0]] := by
  have hnames : Stmt.qubitNamesIn flipsThrough.definitions flipThrough.body = ["a", "b", "a"] :=
    rfl
  have hinj : ∀ x ∈ flipThrough.qargs, ∀ y ∈ flipThrough.qargs,
      exchanged x = exchanged y → x = y := by decide
  have hcontrols : ∀ x ∈ flipThrough.qargs, exchanged x ≠ x → ∀ i < 1,
      x ≠ controlName i ∧ exchanged x ≠ controlName i := by decide +kernel
  have hget : flipsThrough.gates.get? "g" = some flipThrough := rfl
  obtain ⟨hok, hmachine⟩ := gate_call_ignores_formal_names {} 2 hget hinj
    (by rw [hnames]; decide) rfl [.mk .ctrl none] [.lit ⟨.int, "1"⟩]
    [.ident "c", .index "q" (.lit ⟨.int, "0"⟩), .ident "q"] hcontrols watchedTriple
  refine ⟨rfl, ?_, ?_⟩
  · rw [flipThroughCall, hok]
    decide +kernel
  · rw [flipThroughCall, hmachine]
    decide +kernel

def flipSecond : GateDef := ⟨"g", [], ["a", "b"], [.apply .x [] [] [.ident "b"]]⟩

def flipsSecond (x : String) : Program := ⟨[
  .gate "g" [] [x, "b"] [.apply .x [] [] [.ident "b"]],
  .declare ⟨⟨.qubit, some (.lit ⟨.int, "3"⟩)⟩, "q"⟩,
  .expr (.call "g" [.mk .ctrl none] [] [.index "q" (.lit ⟨.int, "0"⟩),
    .index "q" (.lit ⟨.int, "1"⟩), .index "q" (.lit ⟨.int, "2"⟩)])]⟩

/-- The name of a control qubit for a formal. -/
def controlForFormal (x : String) : String := if x = "a" then "__ctrl0" else x

/-- The controls of the operations of a program, in order. -/
def Program.operationControls (p : Program) : List (List Control) :=
  (Traced.simulated (R := Float) {} p).filterMap fun entry =>
    entry.event.operation?.map Operation.controls

/-- A formal that gets the name of a control qubit takes its place: the operation is controlled
by the argument for this formal, and no longer by the control qubit of the call. -/
theorem renamed_formal_hides_control :
    Program.parse (flipsSecond "a").text = .ok (flipsSecond "a") ∧
    Program.parse (flipsSecond "__ctrl0").text = .ok (flipsSecond "__ctrl0") ∧
    (flipsSecond "a").statements.head? = some flipSecond.toStmt ∧
    (∀ D, (flipsSecond "__ctrl0").statements.head? =
      some (flipSecond.renamed D controlForFormal).toStmt) ∧
    (∀ x ∈ flipSecond.qargs, ∀ y ∈ flipSecond.qargs,
      controlForFormal x = controlForFormal y → x = y) ∧
    (∀ D, ∀ x ∈ Stmt.qubitNamesIn D flipSecond.body,
      x ∈ flipSecond.qargs ∨ x ∉ flipSecond.qargs.map controlForFormal) ∧
    Stmt.anyPrints flipSecond.body = false ∧
    (flipsSecond "a").operationControls = [[⟨0, true⟩]] ∧
    (flipsSecond "__ctrl0").operationControls = [[⟨1, true⟩]] := by
  refine ⟨Program.parse_text (by decide +kernel), Program.parse_text (by decide +kernel), rfl,
    fun D => rfl, by decide, fun D => ?_, rfl, by decide +kernel, by decide +kernel⟩
  have hnames : Stmt.qubitNamesIn D flipSecond.body = ["b"] := rfl
  rw [hnames]
  decide

end OpenQasm
