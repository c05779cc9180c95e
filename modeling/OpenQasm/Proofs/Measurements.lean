import OpenQasm.Proofs.Parsing.Canonicity
import OpenQasm.Proofs.RoundTrip
import OpenQasm.Proofs.Trace.Invariant

/-!
# Measurements and modifiers

A measurement or a reset is refused in the body of a call with modifiers. The body of
a call inside such a call is refused one as well, except where the modifiers were not
handed on: in a call that is the value of a statement, and in the body of a call that
`pow` does no more than repeat.
-/
namespace OpenQasm

def Event.isMeasurement {R : Type} : Event R → Bool
  | measure _ => true
  | reset _ => true
  | _ => false

/-- No call around a measurement or a reset has modifiers. -/
def LogEntry.Unmodified {R : Type} (entry : LogEntry R) : Prop :=
  entry.event.isMeasurement = true → ∀ f ∈ entry.frames, f.modifiers = []

instance {R : Type} (entry : LogEntry R) : Decidable entry.Unmodified :=
  inferInstanceAs (Decidable (entry.event.isMeasurement = true →
    ∀ f ∈ entry.frames, f.modifiers = []))

theorem LogEntry.Sound.of_measurement {R : Type} {entry : LogEntry R} (h : entry.Sound)
    (hevent : entry.event.isMeasurement = true) :
    Chained entry.frames ∧ ∀ f ∈ entry.frames.head?, f.modifiers = [] := by
  obtain ⟨frames, event⟩ := entry
  cases event with
  | measure q => exact h
  | reset q => exact h
  | _ => cases hevent

variable {R B : Type} [Scalar R] [Backend R B]

omit [Scalar R] in
theorem Scope.checkUnitary_modified {s : Scope R} (h : s.modifiers ≠ []) (what : String) :
    ∃ fault, s.checkUnitary what = .error (.invalidModifier fault) := by
  unfold checkUnitary
  split
  · rename_i hnil
    exact absurd hnil h
  · exact ⟨_, rfl⟩

/-- In a scope whose call has modifiers, a measurement fails and leaves the machine alone. -/
theorem Run.measure_modified {s : Scope R} (h : s.modifiers ≠ []) (qargs : List Expr)
    (m : Machine R B) :
    ∃ fault, Run.measure s qargs m = (.error (.invalidModifier fault), m) := by
  obtain ⟨fault, hfault⟩ := s.checkUnitary_modified h "measure"
  refine ⟨fault, ?_⟩
  rw [Run.measure, hfault]
  rfl

theorem Run.reset_modified {s : Scope R} (h : s.modifiers ≠ []) (qargs : List Expr)
    (m : Machine R B) :
    ∃ fault, Run.reset s qargs m = (.error (.invalidModifier fault), m) := by
  obtain ⟨fault, hfault⟩ := s.checkUnitary_modified h "reset"
  refine ⟨fault, ?_⟩
  rw [Run.reset, hfault]
  rfl

/-- In every run of a program, the call in which a qubit is measured or reset has no
modifiers. If a call around it has some, they got lost between the two, at a call that
is the value of a statement or in the body of a call that is only repeated. In a scope
whose own call has modifiers, measurements and resets fail and reach no backend. -/
theorem measured_without_modifiers (config : Config) (b : B) (p : Program) :
    (Interpreter.start config b).program p =
        ((Traced.program config b p).1, (Traced.program config b p).2.forget) ∧
      (∀ entry ∈ (Traced.program config b p).2.machine.backend.log,
        entry.event.isMeasurement = true →
          (∀ f ∈ entry.frames.head?, f.modifiers = []) ∧
          ∀ inner f outer, entry.frames = inner ++ f :: outer → f.modifiers ≠ [] →
            ∃ above called caller below, entry.frames = above ++ called :: caller :: below ∧
              caller ∈ inner ++ [f] ∧ caller.modifiers ≠ [] ∧ called.modifiers = [] ∧
              (called.place = .value ∨ caller.OnlyRepeats)) ∧
      ∀ (s : Scope R) (qargs : List Expr) (m : Machine R B), s.modifiers ≠ [] →
        (∃ fault, Run.measure s qargs m = (.error (.invalidModifier fault), m)) ∧
        ∃ fault, Run.reset s qargs m = (.error (.invalidModifier fault), m) := by
  refine ⟨Traced.program_forget config b p, fun entry hentry hevent => ?_, fun s qargs m hs => ?_⟩
  · obtain ⟨hchain, hhead⟩ := (Traced.sound_program config b p entry hentry).of_measurement hevent
    refine ⟨hhead, fun inner f outer hframes hmods => ?_⟩
    rw [hframes] at hchain hhead ⊢
    exact hchain.exists_break hmods hhead
  · exact ⟨Run.measure_modified hs qargs m, Run.reset_modified hs qargs m⟩

def invertsReset : Program := ⟨[
  .gate "h" [] ["a"] [.reset [.ident "a"]],
  .gate "g" [] ["a"] [.returns (some (.call "h" [] [] [.ident "a"]))],
  .declare ⟨⟨.qubit, none⟩, "q"⟩,
  .expr (.call "g" [.mk .inv none] [] [.ident "q"])]⟩

def invertedFrames : List Frame := [⟨"h", .value, [], ["a"]⟩, ⟨"g", .statement, [.inverse], ["a"]⟩]

theorem inverted_reset_is_value :
    (Traced.simulated (R := Float) {} invertsReset).any (·.event.isMeasurement) = true ∧
      ∀ entry ∈ Traced.simulated (R := Float) {} invertsReset,
        entry.event.isMeasurement = true → ∃ f ∈ entry.frames, f.place = .value := by
  have hframes : ∀ entry ∈ Traced.simulated (R := Float) {} invertsReset,
      entry.event.isMeasurement = true → entry.frames = invertedFrames := by decide +kernel
  refine ⟨by decide +kernel, fun entry hentry hevent => ?_⟩
  have hcalls := hframes entry hentry hevent
  rw [Traced.simulated] at hentry
  obtain ⟨above, called, caller, below, heq, hmem, hmods, -, hlost⟩ :=
    ((measured_without_modifiers {} _ invertsReset).2.1 entry hentry hevent).2
      (invertedFrames.take 1) ⟨"g", .statement, [.inverse], ["a"]⟩ [] hcalls (by decide)
  refine ⟨called, by rw [heq]; simp, hlost.resolve_right fun hrepeats => ?_⟩
  have hinverse : ∀ g ∈ invertedFrames, g.modifiers ≠ [] → .inverse ∈ g.modifiers := by decide
  obtain ⟨k, hk, -⟩ := hrepeats _ (hinverse caller hmem hmods)
  cases hk

def repeatsReset : Program := ⟨[
  .gate "h" [] ["a"] [.reset [.ident "a"]],
  .gate "g" [] ["a"] [.expr (.call "h" [] [] [.ident "a"])],
  .declare ⟨⟨.qubit, none⟩, "q"⟩,
  .expr (.call "g" [.mk .pow (some (.lit ⟨.int, "1"⟩))] [] [.ident "q"])]⟩

/-- A qubit can be reset inside a call that has modifiers: where the call is only repeated,
and where the reset is made by a call in the value of a statement. -/
theorem modified_reset :
    (Program.parse repeatsReset.text = .ok repeatsReset ∧
      ¬∀ entry ∈ Traced.simulated (R := Float) {} repeatsReset, entry.Unmodified) ∧
    Program.parse invertsReset.text = .ok invertsReset ∧
      ¬∀ entry ∈ Traced.simulated (R := Float) {} invertsReset, entry.Unmodified :=
  ⟨⟨Program.parse_text (by decide +kernel), by decide +kernel⟩,
    Program.parse_text (by decide +kernel), by decide +kernel⟩

end OpenQasm
