import OpenQasm.Proofs.Lockstep.Statements

/-!
# Earlier output

No statement looks at what was printed before. If output is taken between statements, all
else goes as it would have gone, and what is printed later is the same.
-/
namespace OpenQasm

variable {R B : Type} [Scalar R] [Backend R B]

/-- Machines that differ in what was printed before: `before` is only in the second. -/
structure Later (before : List (Snapshot R)) (m m' : Machine R B) : Prop where
  backend : m'.backend = m.backend
  output : m'.output = before ++ m.output

namespace Later

variable {before : List (Snapshot R)}

omit [Scalar R] [Backend R B] in
theorem request {α : Type} (r : Request B α) :
    Lockstep Any (Later (R := R) before) Any (Run.request r) (Run.request r) := by
  intro m m' h
  unfold Run.request
  rw [h.backend]
  rcases r m.backend with ⟨result, b⟩
  cases result with
  | error e => exact ⟨rfl, trivial, rfl, h.output⟩
  | ok a => exact ⟨rfl, trivial, rfl, h.output⟩

theorem contract : Contract Any fun _ : Scope R => Later (B := B) before where
  ordinary _ _ := trivial
  samePlace _ h := h
  apply _ _ _ := request _
  measure _ _ _ := request _
  reset _ _ _ := request _
  modularPower _ _ _ _ _ _ := request _
  emit _ qubits bits m m' h := by
    refine ⟨rfl, trivial, h.backend, ?_⟩
    have hamplitudes : Backend.amplitudes m'.backend = Backend.amplitudes m.backend :=
      congrArg Backend.amplitudes h.backend
    have hsnapshot := congrArg (fun amplitudes => [Snapshot.capture qubits bits amplitudes])
      hamplitudes
    exact (congrArg₂ (· ++ ·) h.output hsnapshot).trans (List.append_assoc _ _ _)
  declare _ hd := lockstep_declare (fun _ _ => trivial) (fun _ _ => request _)
    (fun _ _ _ _ _ h => h) hd

theorem paired_runnerAt (config : Config) (n : Nat) :
    RunnersPaired Any (fun _ : Scope R => Later (B := B) before) (runnerAt? config n)
      (runnerAt? config n) := by
  induction n with
  | zero => trivial
  | succ n ih =>
      intro s name inner body _ _
      rw [runBody_eq]
      exact lockstep_within (contract.stmts config ih body) (fun _ _ h => h) fun _ _ _ h => h

end Later

namespace Interpreter

omit [Scalar R] [Backend R B] in
/-- Without their output the interpreters are the same. -/
theorem takeOutput_of_paired {before : List (Snapshot R)} {i i' : Interpreter R B}
    (h : i.Paired (fun _ => Later before) i') : i'.takeOutput.2 = i.takeOutput.2 := by
  obtain ⟨_, _, _, _⟩ := i
  obtain ⟨_, _, _, _⟩ := i'
  obtain ⟨rfl, rfl, rfl, -⟩ := h
  rfl

/-- A statement run after output was taken, and the same statement run without taking it. -/
theorem stmt_takeOutput (c : Stmt) (i : Interpreter R B) :
    (i.stmt c).1 = (i.takeOutput.2.stmt c).1 ∧
      (i.stmt c).2.takeOutput.2 = (i.takeOutput.2.stmt c).2.takeOutput.2 ∧
      (i.stmt c).2.takeOutput.1 =
        i.takeOutput.1 ++ (i.takeOutput.2.stmt c).2.takeOutput.1 := by
  have hstart : i.takeOutput.2.Paired (fun _ => Later i.takeOutput.1) i :=
    ⟨rfl, rfl, rfl, (List.append_nil _).symm⟩
  obtain ⟨hresult, -, hend⟩ :=
    Later.contract.stmtWith (Later.paired_runnerAt i.config i.config.maxDepth) c hstart
  rw [stmt_eq, stmt_eq c i.takeOutput.2]
  exact ⟨hresult, takeOutput_of_paired hend, hend.machine.output⟩

end Interpreter

end OpenQasm
