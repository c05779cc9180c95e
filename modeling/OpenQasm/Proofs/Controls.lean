import OpenQasm.Proofs.Parsing.Canonicity
import OpenQasm.Proofs.RoundTrip
import OpenQasm.Proofs.Trace.Invariant

/-!
# Controls of calls

Every operation that is made for a call under controls stands under these controls,
as long as every call on the way to it is a statement and no formal argument has the
name that a control qubit is bound under. Without the one or the other controls are
lost, and the operation takes place whatever the state of the control qubit.
-/
namespace OpenQasm

/-- The operation that a request is made for. -/
def Event.operation? {R : Type} : Event R → Option (Operation (Amplitude R))
  | apply op => some op
  | _ => none

/-- The controls of all calls around an operation are among its controls. -/
def LogEntry.Controlled {R : Type} (entry : LogEntry R) : Prop :=
  ∀ op ∈ entry.event.operation?, ∀ f ∈ entry.frames, f.controls ⊆ op.controls

instance {R : Type} (entry : LogEntry R) : Decidable entry.Controlled :=
  inferInstanceAs (Decidable (∀ op ∈ entry.event.operation?, ∀ f ∈ entry.frames,
    ∀ c ∈ f.controls, c ∈ op.controls))

theorem LogEntry.Sound.of_operation {R : Type} {entry : LogEntry R} (h : entry.Sound)
    {op : Operation (Amplitude R)} (hop : op ∈ entry.event.operation?) :
    Chained entry.frames ∧ ∀ f ∈ entry.frames.head?, f.controls ⊆ op.controls := by
  obtain ⟨frames, event⟩ := entry
  cases event with
  | apply op' =>
      obtain rfl : op' = op := by simpa [Event.operation?] using hop
      exact h
  | _ => cases hop

variable {R B : Type} [Scalar R] [Backend R B]

/-- In every run of a program, the control qubits of a call with a body are single ones,
and they are among the controls of every operation made for the call, unless a call on
the way to the operation is the value of a statement or a formal argument hides one of
the names of the control qubits. -/
theorem controls_reach_operations (config : Config) (b : B) (p : Program) :
    (Interpreter.start config b).program p =
        ((Traced.program config b p).1, (Traced.program config b p).2.forget) ∧
      ∀ entry ∈ (Traced.program config b p).2.machine.backend.log,
        ∀ op ∈ entry.event.operation?, ∀ inner f outer, entry.frames = inner ++ f :: outer →
          inner ≠ [] → (∀ arg ∈ f.controlArgs, ∃ q, arg = [q]) ∧
            ((∀ g ∈ inner, g.place = .statement) → (∀ g ∈ inner ++ [f], ¬g.Shadowed) →
              f.controls ⊆ op.controls) := by
  refine ⟨Traced.program_forget config b p, ?_⟩
  intro entry hentry op hop inner f outer hframes hinner
  obtain ⟨hchain, hhead⟩ := (Traced.sound_program config b p entry hentry).of_operation hop
  rw [hframes] at hchain hhead
  refine ⟨hchain.single_of_ne_nil hinner, fun hplace hnames => ?_⟩
  obtain ⟨g, below, hbelow⟩ := Chained.exists_head inner outer f
  have hg : g ∈ (inner ++ f :: outer).head? := by rw [hbelow]; rfl
  exact List.Subset.trans (hchain.controls_subset_head hplace hnames g hg) (hhead g hg)

def nestedNegctrl : Program := ⟨[
  .gate "h" [] ["a"] [.apply .x [] [] [.ident "a"]],
  .gate "g" [] ["a"] [.block [.expr (.call "h" [] [] [.ident "a"])]],
  .declare ⟨⟨.qubit, some (.lit ⟨.int, "2"⟩)⟩, "q"⟩,
  .expr (.call "g" [.mk .negctrl none] []
    [.index "q" (.lit ⟨.int, "0"⟩), .index "q" (.lit ⟨.int, "1"⟩)])]⟩

def nestedFrames : List Frame :=
  let modifiers : List Applied := [.control false [[0]]]
  [⟨"X", .statement, modifiers, []⟩, ⟨"h", .statement, modifiers, ["a"]⟩,
    ⟨"g", .statement, modifiers, ["a"]⟩]

theorem negctrl_reaches_nested :
    (Traced.simulated (R := Float) {} nestedNegctrl).any (·.event.operation?.isSome) = true ∧
      ∀ entry ∈ Traced.simulated (R := Float) {} nestedNegctrl, ∀ op ∈ entry.event.operation?,
        (⟨0, false⟩ : Control) ∈ op.controls := by
  have hframes : ∀ entry ∈ Traced.simulated (R := Float) {} nestedNegctrl,
      entry.event.operation?.isSome → entry.frames = nestedFrames := by decide +kernel
  refine ⟨by decide +kernel, fun entry hentry op hop => ?_⟩
  have hcalls := hframes entry hentry (Option.isSome_of_mem hop)
  rw [Traced.simulated] at hentry
  have hreach := (controls_reach_operations {} _ nestedNegctrl).2 entry hentry op hop
    (nestedFrames.take 2) _ [] hcalls (by decide)
  exact hreach.2 (by decide) (by decide) (by decide)

def returnsCall : Program := ⟨[
  .gate "g" [] ["a"] [.returns (some (.call "x" [] [] [.ident "a"]))],
  .declare ⟨⟨.qubit, some (.lit ⟨.int, "2"⟩)⟩, "q"⟩,
  .expr (.call "g" [.mk .ctrl none] []
    [.index "q" (.lit ⟨.int, "0"⟩), .index "q" (.lit ⟨.int, "1"⟩)])]⟩

/-- A controlled gate with an argument that has the name of its control qubit. -/
def hidesControl : Program := ⟨[
  .gate "g" [] ["__ctrl0", "b"] [.apply .x [] [] [.ident "b"]],
  .declare ⟨⟨.qubit, some (.lit ⟨.int, "3"⟩)⟩, "q"⟩,
  .expr (.call "g" [.mk .ctrl none] [] [.index "q" (.lit ⟨.int, "0"⟩),
    .index "q" (.lit ⟨.int, "1"⟩), .index "q" (.lit ⟨.int, "2"⟩)])]⟩

/-- Controls do not reach a call in the value of a statement, nor operations in a body
whose formal arguments hide them. -/
theorem controls_lost :
    (Program.parse returnsCall.text = .ok returnsCall ∧
      ¬∀ entry ∈ Traced.simulated (R := Float) {} returnsCall, entry.Controlled) ∧
    Program.parse hidesControl.text = .ok hidesControl ∧
      ¬∀ entry ∈ Traced.simulated (R := Float) {} hidesControl, entry.Controlled :=
  ⟨⟨Program.parse_text (by decide +kernel), by decide +kernel⟩,
    Program.parse_text (by decide +kernel), by decide +kernel⟩

end OpenQasm
