import OpenQasm.Eval.Exec
import OpenQasm.Proofs.Sequencing
import OpenQasm.Proofs.Trace.Recorder

/-!
# Resolving modifiers

What it means for the arguments of modifiers to resolve. The modifier that hands
controls down to a body holds their number as a literal, which reads back as the
same number.
-/
namespace OpenQasm

/-! Requests and actions on a scope -/

section Runs

variable {α : Type}

theorem Run.request_of_ok {R B : Type} {r : Request B α} {m : Machine R B} {a : α} {b : B}
    (h : r m.backend = (.ok a, b)) : request r m = (.ok a, { m with backend := b }) := by
  rw [request, h]

theorem Run.request_of_error {R B : Type} {r : Request B α} {m : Machine R B} {e : BackendError}
    {b : B} (h : r m.backend = (.error e, b)) :
    request r m = (.error (.backend e), { m with backend := b }) := by
  rw [request, h]

theorem ran_request {R B : Type} {r : Request B α} {m m' : Machine R B} {a : α}
    (h : Run.request r m = (.ok a, m')) :
    r m.backend = (.ok a, m'.backend) ∧ m' = { m with backend := m'.backend } := by
  unfold Run.request at h
  split at h
  · rename_i a' b hr
    cases h
    exact ⟨hr, rfl⟩
  · cases h

theorem Exec.ofRun_of_eq {R B : Type} {f : Scope R → Run R B α} {s : Scope R}
    {m m' : Machine R B} {result : Except EvalError α} (h : f s m = (result, m')) :
    ofRun f (s, m) = (result, (s, m')) := by
  simp only [ofRun, h]

theorem Exec.ran_ofRun {R B : Type} {f : Scope R → Run R B α} {s s' : Scope R}
    {m m' : Machine R B} {a : α} :
    ofRun f (s, m) = (.ok a, (s', m')) ↔ s' = s ∧ f s m = (.ok a, m') := by
  unfold ofRun
  dsimp only
  rcases f s m with ⟨result, m₁⟩
  constructor
  · intro h
    cases h
    exact ⟨rfl, rfl⟩
  · rintro ⟨rfl, h⟩
    cases h
    rfl

theorem Exec.ran_within {R B : Type} {x : Exec R B α} {s s' : Scope R} {m m' : Machine R B}
    {a : α} : x.within s m = (.ok (s', a), m') ↔ x (s, m) = (.ok a, (s', m')) := by
  unfold within
  rcases x (s, m) with ⟨result, s₁, m₁⟩
  cases result with
  | error e =>
      constructor
      · intro h
        cases h
      · intro h
        cases h
  | ok a' =>
      constructor
      · intro h
        cases h
        rfl
      · intro h
        cases h
        rfl

def Scope.askQubits {R B : Type} [Scalar R] [Backend R B] (s : Scope R) (d : TypedName) :
    Run R B (List QubitId) := do
  if !s.isGlobal then throw (.notGlobal d.name)
  let size ← s.declaredSize d
  Run.request (Backend.allocate size)

section Declarations

variable {R B : Type} [Scalar R] [Backend R B] {d : TypedName} {s : Scope R}

theorem Exec.declare_qubits (hd : d.type.kind = .qubit) :
    (declare d : Exec R B Unit) = ofRun (fun s => s.askQubits d) >>= fun qs =>
      update fun s => .ok (s.addQubits d.name qs) := by
  rw [declare, hd]
  rfl

theorem Scope.askQubits_of_not_global (hs : s.isGlobal = false) :
    (s.askQubits d : Run R B (List QubitId)) = throw (.notGlobal d.name) := by
  rw [askQubits, hs]
  rfl

/-- No qubits are declared in the body of a call. -/
theorem Exec.declare_refused (hd : d.type.kind = .qubit) (hs : s.isGlobal = false)
    (m : Machine R B) : declare d (s, m) = (.error (.notGlobal d.name), (s, m)) := by
  rw [declare_qubits hd]
  refine run_bind_of_error (ofRun_of_eq ?_) _
  rw [Scope.askQubits_of_not_global hs]
  rfl

theorem Scope.askQubits_of_error (hs : s.isGlobal = true) {e : EvalError}
    (hsize : s.declaredSize d = .error e) :
    (s.askQubits d : Run R B (List QubitId)) = throw e := by
  rw [askQubits, hs, hsize]
  rfl

theorem Scope.askQubits_of_size (hs : s.isGlobal = true) {n : Nat}
    (hsize : s.declaredSize d = .ok n) :
    (s.askQubits d : Run R B (List QubitId)) = Run.request (Backend.allocate n) := by
  rw [askQubits, hs, hsize]
  rfl

end Declarations

end Runs

/-! Numbers in modifiers -/

namespace Decimal

/-- The digits of a number read back as the number. -/
theorem readInt?_toString (n : Nat) : readInt? (toString (n : Int)) = some (n : Int) := by
  have hlist : (toString (n : Int)).toList = Nat.toDigits 10 n := Nat.toList_repr
  have hdigits : ∀ c ∈ Nat.toDigits 10 n, c.isDigit = true :=
    fun c hc => Nat.isDigit_of_mem_toDigits (by decide) (by decide) hc
  have hsign : splitSign (Nat.toDigits 10 n) = (false, Nat.toDigits 10 n) := by
    unfold splitSign
    split
    · rename_i cs heq
      exact absurd (hdigits '-' (by simp [heq])) (by decide)
    · rename_i cs heq
      exact absurd (hdigits '+' (by simp [heq])) (by decide)
    · rfl
  have hall : (!(Nat.toDigits 10 n).isEmpty && (Nat.toDigits 10 n).all Char.isDigit) = true := by
    simp only [Bool.and_eq_true, Bool.not_eq_true', List.isEmpty_eq_false_iff, List.all_eq_true]
    exact ⟨Nat.toDigits_ne_nil, hdigits⟩
  have hvalue : digitsValue (Nat.toDigits 10 n) = n := Nat.ofDigitChars_toDigits (by decide) (by decide)
  rw [readInt?, hlist]
  simp only [hsign, readDigits?, hall, hvalue]
  rfl

theorem readInt64?_toString {n : Nat} (h : n < Nat.pow 2 63) :
    readInt64? (toString (n : Int)) = some (Int64.ofNat n) := by
  have hmax : Int64.maxValue.toInt = 2 ^ 63 - 1 := by decide
  have hmin : Int64.minValue.toInt = -2 ^ 63 := by decide
  have hlt : (n : Int) < 2 ^ 63 := by exact_mod_cast h
  rw [readInt64?, readInt?_toString]
  simp only [Option.bind_some, int64?]
  rw [if_pos (by omega)]
  rfl

end Decimal

theorem toInt_ofNat {n : Nat} (h : n < Nat.pow 2 63) : (Int64.ofNat n).toInt = n := by
  have hlt : (n : Int) < 2 ^ 63 := by exact_mod_cast h
  exact Int64.toInt_ofInt_of_le (by omega) hlt

namespace Scope

variable {R : Type} [Scalar R]

theorem fold_ofInt64 (s : Scope R) {n : Nat} (h : n < Nat.pow 2 63) :
    s.fold (.ofInt64 (Int64.ofNat n)) = .ok (.int (Int64.ofNat n)) := by
  have hread : (Literal.ofInt64 (Int64.ofNat n)).int? = some (Int64.ofNat n) := by
    rw [Literal.ofInt64, toInt_ofNat h]
    exact Decimal.readInt64?_toString h
  rw [Expr.ofInt64, fold, Const.ofLiteral]
  simp only [hread]
  rfl

/-- A modifier takes at least one control, and as many as a 64-bit number can say. -/
theorem controlCount_bounds {s : Scope R} {m : Modifier} {n : Nat} (h : s.controlCount m = .ok n) :
    1 ≤ n ∧ n < Nat.pow 2 63 := by
  unfold controlCount at h
  cases hm : m.arg with
  | none =>
      rw [hm] at h
      cases h
      decide
  | some e =>
      rw [hm] at h
      obtain ⟨c, hc, h⟩ := bind_ok_iff.1 h
      cases c with
      | int v =>
          dsimp only at h
          split at h
          · rename_i hv
            cases h
            have := v.toInt_lt
            have h63 : Nat.pow 2 63 = 9223372036854775808 := by decide
            omega
          · cases h
      | float => cases h
      | string => cases h

/-- The modifier for a number of controls asks for that number. -/
theorem controlCount_controlModifier (s : Scope R) (kind : ModifierKind) {n : Nat} (h : 1 ≤ n)
    (hn : n < Nat.pow 2 63) : s.controlCount (controlModifier kind n) = .ok n := by
  unfold controlCount controlModifier
  by_cases h1 : 1 < n
  · rw [if_pos h1]
    simp only [Modifier.arg, fold_ofInt64 s hn]
    have hint := toInt_ofNat hn
    rw [ok_bind]
    simp only [hint]
    rw [if_pos (by omega)]
    rfl
  · rw [if_neg h1]
    obtain rfl : n = 1 := by omega
    rfl

/-! Modifiers in a row -/

theorem applied_cons_ok_iff {s : Scope R} {m : Modifier} {ms : List Modifier} {qs : List Expr}
    {as : List Applied} :
    s.applied (m :: ms) qs = .ok as ↔ ∃ a as', s.resolveModifier m qs = .ok a ∧
      s.applied ms (qs.drop a.args.length) = .ok as' ∧ as = a :: as' := by
  rw [applied]
  exact bind_bind_ok_iff

theorem length_of_applied {s : Scope R} {ms : List Modifier} {qs : List Expr} {as : List Applied}
    (h : s.applied ms qs = .ok as) : as.length = ms.length := by
  induction ms generalizing qs as with
  | nil =>
      cases h
      rfl
  | cons m ms ih =>
      obtain ⟨a, as', -, has, rfl⟩ := applied_cons_ok_iff.1 h
      simp [ih has]

theorem resolveModifier_control {s : Scope R} {m : Modifier} (hm : m.isControl = true)
    {qs : List Expr} {a : Applied} :
    s.resolveModifier m qs = .ok a ↔ ∃ n args, s.controlCount m = .ok n ∧
      (qs.take n).mapM s.qubitsOf = .ok args ∧ a = .control (m.kind = .ctrl) args := by
  obtain ⟨kind, arg⟩ := m
  cases kind with
  | inv => cases hm
  | pow => cases hm
  | ctrl => exact bind_bind_ok_iff
  | negctrl => exact bind_bind_ok_iff

end Scope

end OpenQasm
