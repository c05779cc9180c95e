import Mathlib.Analysis.SpecialFunctions.Pow.Real
import OpenQasm.Proofs.Quantum.Requests

/-!
# The Fourier transform

The circuit takes the qubits of a register one after the other. A Hadamard matrix makes a
sum over the two values of its qubit, and the later qubits put their phases on it. So by
induction the rotations make a sum over all values of the register. Each value comes with a
power of one root of unity, whose exponent is the value times the register read from its
last qubit to its first. The exchanges at the end turn the register round.
-/
namespace OpenQasm

open StateVector Operation

/-! Exact phases -/

namespace Fourier

section Turns

variable (R : Type) [Scalar R]

/-- The phase that is half a turn, halved `n` times. -/
def turn (n : Nat) : Amplitude R := .polar 1 (Scalar.pi / Scalar.twoPow n)

def hadamardCell : Amplitude R := .ofReal (Scalar.sqrt (Scalar.half 1))

/-- Arithmetic in which half a turn is halved exactly, and in which the squared cells of a row
of the Hadamard matrix add up to one. -/
structure ExactTurns : Prop where
  half : turn R 0 = -1
  halved : ∀ n, turn R (n + 1) * turn R (n + 1) = turn R n
  balanced : hadamardCell R * hadamardCell R + hadamardCell R * hadamardCell R = 1

end Turns

variable {R : Type} [ExactScalar R]

/-- What the value `x` of a register of `n` qubits contributes to the value `y`. -/
def coefficient (R : Type) [ExactScalar R] (n x y : Nat) : Amplitude R :=
  hadamardCell R ^ n * turn R n ^ (2 * (x * y))

namespace ExactTurns

variable (h : ExactTurns R)

include h

theorem turn_add_pow (a b : Nat) : turn R (a + b) ^ 2 ^ b = turn R a := by
  induction b with
  | zero => exact pow_one _
  | succ b ih => rw [← Nat.add_assoc, pow_succ', pow_mul, pow_two, h.halved, ih]

theorem turn_pow (n : Nat) : turn R n ^ 2 ^ n = -1 := by
  have hturn := h.turn_add_pow 0 n
  rwa [Nat.zero_add, h.half] at hturn

/-- The square of the cell is a half. -/
theorem two_pow_mul_hadamardCell_pow (n : Nat) : 2 ^ n * hadamardCell R ^ (2 * n) = 1 := by
  rw [pow_mul, ← mul_pow, two_mul, pow_two, h.balanced, one_pow]

/-- The highest bit of one value meets the lowest bit of the other in a half turn. -/
theorem coefficient_succ (m x r b c : Nat) :
    coefficient R (m + 1) (2 ^ m * b + x) (2 * r + c) =
      hadamardCell R * (-1) ^ (b * c) * turn R m ^ (x * c) * coefficient R m x r := by
  have hexponent : 2 * ((2 ^ m * b + x) * (2 * r + c)) =
      2 ^ (m + 1) * (2 * (b * r) + b * c) + 2 * (x * c + 2 * (x * r)) := by
    ring
  have hsigns : (-1 : Amplitude R) ^ (2 * (b * r) + b * c) = (-1) ^ (b * c) := by
    rw [pow_add, pow_mul, neg_one_sq, one_pow, one_mul]
  have hsquare : turn R (m + 1) ^ 2 = turn R m := by rw [pow_two, h.halved]
  have hroot : turn R (m + 1) ^ (2 * ((2 ^ m * b + x) * (2 * r + c))) =
      (-1) ^ (b * c) * turn R m ^ (x * c + 2 * (x * r)) := by
    rw [hexponent, pow_add, pow_mul, h.turn_pow, hsigns, pow_mul (turn R (m + 1)), hsquare]
  rw [coefficient, coefficient, hroot, pow_add, pow_succ]
  ring

end ExactTurns

end Fourier

/-! Gates on one qubit and exchanges -/

namespace StateVector

theorem readRegister_singleton (q : QubitId) (i : Nat) :
    readRegister [q] i = (i.testBit q).toNat := by
  simp [readRegister]

theorem readRegister_concat (qs : List QubitId) (q : QubitId) (i : Nat) :
    readRegister (qs ++ [q]) i = 2 * readRegister qs i + (i.testBit q).toNat := by
  rw [readRegister, List.foldl_append]
  rfl

theorem writeBit_testBit (q : QubitId) (i : Nat) : writeBit q (i.testBit q) i = i := if_pos rfl

/-- The first qubit of a register holds the highest bit of what is written. -/
theorem writeRegister_cons_add {q : QubitId} {qs : List QubitId} (hqs : (q :: qs).Nodup)
    (b : Bool) {x : Nat} (hx : x < 2 ^ qs.length) (i : Nat) :
    writeRegister (2 ^ qs.length * b.toNat + x) (q :: qs) i =
      writeBit q b (writeRegister x qs i) := by
  refine Nat.eq_of_testBit_eq fun j => ?_
  rw [testBit_writeRegister hqs, testBit_writeBit, testBit_writeRegister hqs.of_cons]
  by_cases hj : j = q
  · subst hj
    rw [if_pos List.mem_cons_self, if_pos rfl, slot_cons_self, Nat.testBit_two_pow_mul_add _ hx,
      if_neg (Nat.lt_irrefl _), Nat.sub_self]
    cases b <;> rfl
  · rw [if_neg hj, slot_cons_of_ne hj]
    by_cases hmem : j ∈ qs
    · rw [if_pos (List.mem_cons_of_mem _ hmem), if_pos hmem, Nat.testBit_two_pow_mul_add _ hx,
        if_pos (slot_lt hmem)]
    · rw [if_neg fun h => (List.mem_cons.1 h).elim hj hmem, if_neg hmem]

def swapBits (a b : QubitId) (i : Nat) : Nat :=
  writeBit b (i.testBit a) (writeBit a (i.testBit b) i)

theorem testBit_swapBits (a b : QubitId) (i j : Nat) :
    (swapBits a b i).testBit j =
      if j = b then i.testBit a else if j = a then i.testBit b else i.testBit j := by
  rw [swapBits, testBit_writeBit, testBit_writeBit]

def swapEach : List (QubitId × QubitId) → Nat → Nat
  | [], i => i
  | (a, b) :: pairs, i => swapBits a b (swapEach pairs i)

theorem testBit_swapEach_of_ne {pairs : List (QubitId × QubitId)} {q : QubitId}
    (hq : ∀ p ∈ pairs, q ≠ p.1 ∧ q ≠ p.2) (i : Nat) :
    (swapEach pairs i).testBit q = i.testBit q := by
  induction pairs with
  | nil => rfl
  | cons p pairs ih =>
      obtain ⟨⟨hfirst, hsecond⟩, hq⟩ := List.forall_mem_cons.1 hq
      rw [swapEach, testBit_swapBits, if_neg hsecond, if_neg hfirst, ih hq]

end StateVector

namespace Operation

variable {R : Type} [ExactScalar R] {cs : List Control} {i : Nat}

/-- A matrix on one qubit takes the row that the qubit names. -/
theorem act_cells2 (a b c d : Amplitude R) (q : QubitId) (f : Nat → Amplitude R)
    (hi : ∀ c ∈ cs, c.Holds i) :
    act ⟨StandardGate.cells2 a b c d, cs, [q]⟩ f i =
      if i.testBit q then c * f (writeBit q false i) + d * f (writeBit q true i)
      else a * f (writeBit q false i) + b * f (writeBit q true i) := by
  have hactive : Active ⟨StandardGate.cells2 a b c d, cs, [q]⟩ i := hi
  refine ((act_of_active hactive f).trans (Fin.sum_univ_two _)).trans ?_
  rw [readRegister_singleton]
  cases i.testBit q with
  | false => simp [StandardGate.get_cells2, writeRegister]
  | true => simp [StandardGate.get_cells2, writeRegister]

theorem act_matrixH (q : QubitId) (f : Nat → Amplitude R) (hi : ∀ c ∈ cs, c.Holds i) :
    act ⟨StandardGate.matrixH, cs, [q]⟩ f i = Fourier.hadamardCell R *
      (f (writeBit q false i) + (-1) ^ (i.testBit q).toNat * f (writeBit q true i)) := by
  have hneg : Amplitude.ofReal (-Scalar.sqrt (Scalar.half (1 : R))) = -Fourier.hadamardCell R :=
    Amplitude.ext rfl neg_zero.symm
  have hact := act_cells2 (Fourier.hadamardCell R) (Fourier.hadamardCell R) (Fourier.hadamardCell R)
    (Amplitude.ofReal (-Scalar.sqrt (Scalar.half (1 : R)))) q f hi
  refine hact.trans ?_
  rw [hneg]
  cases i.testBit q with
  | false => simp [mul_add]
  | true => simp [mul_add]

/-- Phases are powers of a root of unity, one factor for each pair of bits. -/
theorem act_phaseStep (target source : QubitId) (d : Nat) (f : Nat → Amplitude R)
    (hi : ∀ c ∈ cs, c.Holds i) :
    act (Fourier.phaseStep cs target source d) f i =
      Fourier.turn R d ^ ((i.testBit source).toNat * (i.testBit target).toNat) * f i := by
  cases hsource : i.testBit source with
  | false =>
      have hidle : ¬Active (Fourier.phaseStep cs target source d : Operation (Amplitude R)) i := by
        intro hactive
        have hon : i.testBit source = true := hactive ⟨source, true⟩ List.mem_cons_self
        rw [hsource] at hon
        cases hon
      rw [act, if_neg hidle]
      simp
  | true =>
      have hactive : ∀ c ∈ ⟨source, true⟩ :: cs, c.Holds i :=
        List.forall_mem_cons.2 ⟨hsource, hi⟩
      have hself := writeBit_testBit target i
      refine (act_cells2 1 0 0 (Fourier.turn R d) target f hactive).trans ?_
      cases htarget : i.testBit target with
      | false =>
          rw [htarget] at hself
          simp [hself]
      | true =>
          rw [htarget] at hself
          simp [hself]

theorem act_matrixSwap (a b : QubitId) (f : Nat → Amplitude R) (hi : ∀ c ∈ cs, c.Holds i) :
    act ⟨StandardGate.matrixSwap, cs, [a, b]⟩ f i = f (swapBits a b i) := by
  have hcell : ∀ row < 4, ∀ col < 4,
      (StandardGate.matrixSwap : Unitary (Amplitude R)).get row col =
        if row = (col % 2) * 2 + col / 2 then 1 else 0 := fun row hrow col hcol =>
    Unitary.get_ofFn _ hrow hcol
  have hactive : Active (⟨StandardGate.matrixSwap, cs, [a, b]⟩ : Operation (Amplitude R)) i := hi
  refine ((act_of_active hactive f).trans (Fin.sum_univ_four _)).trans ?_
  rw [readRegister_cons, readRegister_singleton]
  unfold swapBits
  cases i.testBit a <;> cases i.testBit b <;> simp [hcell, writeRegister, Nat.testBit]

/-- Where no operation of a sequence takes place, the amplitude stays. -/
theorem actAll_of_idle {ops : List (Operation (Amplitude R))} (h : ∀ op ∈ ops, ¬op.Active i)
    (f : Nat → Amplitude R) : actAll ops f i = f i := by
  induction ops generalizing f with
  | nil => rfl
  | cons op ops ih =>
      obtain ⟨hop, hops⟩ := List.forall_mem_cons.1 h
      exact (ih hops (op.act f)).trans (if_neg hop)

end Operation

/-! The circuit -/

namespace Fourier

variable {R : Type} [ExactScalar R] {cs : List Control} {i : Nat}

/-- The later qubits of a register raise one root of unity to the number they hold. -/
theorem actAll_phaseSteps (hexact : ExactTurns R) (q : QubitId) (d : Nat) (qs : List QubitId)
    (f : Nat → Amplitude R) (hi : ∀ c ∈ cs, c.Holds i) :
    actAll (phaseSteps cs q (d + 1) qs) f i =
      turn R (d + qs.length) ^ (readRegister qs i * (i.testBit q).toNat) * f i := by
  induction qs generalizing d f with
  | nil => simp [phaseSteps, actAll, readRegister]
  | cons r qs ih =>
      have hrest := ih (d + 1) (act (phaseStep cs q r (d + 1)) f)
      have hturn : turn R (d + 1) = turn R (d + 1 + qs.length) ^ 2 ^ qs.length :=
        (hexact.turn_add_pow (d + 1) qs.length).symm
      have hdistance : d + (r :: qs).length = d + 1 + qs.length := by
        rw [List.length_cons]
        omega
      refine hrest.trans ?_
      rw [act_phaseStep q r (d + 1) f hi, hturn, hdistance, readRegister_cons, ← pow_mul,
        ← mul_assoc, ← pow_add]
      ring

/-- The rotations are a sum over the values of the register, and read it backwards. -/
theorem actAll_rotations (hexact : ExactTurns R) {qs : List QubitId}
    (hqubits : (cs.map Control.qubit ++ qs).Nodup) (f : Nat → Amplitude R)
    (hi : ∀ c ∈ cs, c.Holds i) :
    actAll (rotations cs qs) f i = ∑ x ∈ Finset.range (2 ^ qs.length),
      coefficient R qs.length x (readRegister qs.reverse i) * f (writeRegister x qs i) := by
  induction qs generalizing f with
  | nil => simp [rotations, actAll, coefficient, writeRegister]
  | cons q qs ih =>
      obtain ⟨hcs, hqs, hdisjoint⟩ := List.nodup_append'.1 hqubits
      obtain ⟨hq, hrest⟩ := List.nodup_cons.1 hqs
      have hapart : (cs.map Control.qubit).Disjoint qs :=
        List.disjoint_of_disjoint_cons_right hdisjoint
      have hterm : ∀ x < 2 ^ qs.length,
          actAll (phaseSteps cs q 1 qs) (act ⟨StandardGate.matrixH, cs, [q]⟩ f)
            (writeRegister x qs i) =
          turn R qs.length ^ (x * (i.testBit q).toNat) * (hadamardCell R *
            (f (writeRegister x (q :: qs) i) + (-1) ^ (i.testBit q).toNat *
              f (writeRegister (2 ^ qs.length + x) (q :: qs) i))) := by
        intro x hx
        have hholds := (holds_writeRegister hrest hapart x i).2 hi
        have hzero := writeRegister_cons_add hqs false hx i
        have hone := writeRegister_cons_add hqs true hx i
        rw [Bool.toNat_false, Nat.mul_zero, Nat.zero_add] at hzero
        rw [Bool.toNat_true, Nat.mul_one] at hone
        rw [actAll_phaseSteps hexact q 0 qs _ hholds, act_matrixH q f hholds,
          readRegister_writeRegister hrest hx, testBit_writeRegister_of_notMem hrest hq, hzero,
          hone, Nat.zero_add]
      have hsum := ih (List.nodup_append'.2 ⟨hcs, hrest, hapart⟩)
        (actAll (phaseSteps cs q 1 qs) (act ⟨StandardGate.matrixH, cs, [q]⟩ f))
      have hstep : actAll (rotations cs (q :: qs)) f = actAll (rotations cs qs)
          (actAll (phaseSteps cs q 1 qs) (act ⟨StandardGate.matrixH, cs, [q]⟩ f)) :=
        actAll_append _ _ _
      have hcoefficient : ∀ x b, coefficient R (qs.length + 1) (2 ^ qs.length * b + x)
          (readRegister (q :: qs).reverse i) = hadamardCell R * (-1) ^ (b * (i.testBit q).toNat) *
            turn R qs.length ^ (x * (i.testBit q).toNat) *
              coefficient R qs.length x (readRegister qs.reverse i) := by
        intro x b
        rw [List.reverse_cons, readRegister_concat, hexact.coefficient_succ]
      rw [hstep, hsum, List.length_cons, pow_succ, mul_two, Finset.sum_range_add,
        ← Finset.sum_add_distrib]
      refine Finset.sum_congr rfl fun x hx => ?_
      have hlow := hcoefficient x 0
      have hhigh := hcoefficient x 1
      rw [Nat.mul_zero, Nat.zero_add, Nat.zero_mul, pow_zero] at hlow
      rw [Nat.mul_one, Nat.one_mul] at hhigh
      rw [hterm x (Finset.mem_range.1 hx), hlow, hhigh]
      ring

/-- The pairs of qubits that change places when a register is turned round. -/
def mirrored (qs : List QubitId) : List (QubitId × QubitId) :=
  (qs.zip qs.reverse).take (qs.length / 2)

theorem mirrored_singleton (a : QubitId) : mirrored [a] = [] := by simp [mirrored]

theorem mirrored_cons_concat (a b : QubitId) (qs : List QubitId) :
    mirrored (a :: (qs ++ [b])) = (a, b) :: mirrored qs := by
  have hreverse : (a :: (qs ++ [b])).reverse = b :: (qs.reverse ++ [a]) := by simp
  have hhalf : (a :: (qs ++ [b])).length / 2 = qs.length / 2 + 1 := by
    rw [List.length_cons, List.length_append, List.length_singleton]
    omega
  have hzip : (qs ++ [b]).zip (qs.reverse ++ [a]) = qs.zip qs.reverse ++ [(b, a)] :=
    List.zip_append (List.length_reverse).symm
  have hlength : qs.length / 2 ≤ (qs.zip qs.reverse).length := by
    rw [List.length_zip, List.length_reverse]
    omega
  rw [mirrored, hreverse, hhalf, List.zip_cons_cons, List.take_succ_cons, hzip,
    List.take_append_of_le_length hlength, mirrored]

theorem mem_mirrored {qs : List QubitId} {p : QubitId × QubitId} (h : p ∈ mirrored qs) :
    p.1 ∈ qs ∧ p.2 ∈ qs := by
  obtain ⟨hfirst, hsecond⟩ := List.of_mem_zip (List.mem_of_mem_take h)
  exact ⟨hfirst, List.mem_reverse.1 hsecond⟩

theorem testBit_swapEach_of_notMem {qs : List QubitId} {q : QubitId} (hq : q ∉ qs) (i : Nat) :
    (swapEach (mirrored qs) i).testBit q = i.testBit q := by
  refine testBit_swapEach_of_ne (fun p hp => ?_) i
  obtain ⟨hfirst, hsecond⟩ := mem_mirrored hp
  exact ⟨fun h => hq (h ▸ hfirst), fun h => hq (h ▸ hsecond)⟩

theorem fst_ne_snd_of_mem_mirrored {qs : List QubitId} (hqs : qs.Nodup) {p : QubitId × QubitId}
    (h : p ∈ mirrored qs) : p.1 ≠ p.2 := by
  induction qs using List.bidirectionalRec with
  | nil => cases h
  | singleton a =>
      rw [mirrored_singleton] at h
      cases h
  | cons_append a qs b ih =>
      obtain ⟨ha, hrest⟩ := List.nodup_cons.1 hqs
      rw [mirrored_cons_concat] at h
      rcases List.mem_cons.1 h with rfl | h
      · intro hab
        have hmem : a ∈ qs ++ [b] := List.mem_append_right _ (List.mem_singleton.2 hab)
        exact ha hmem
      · exact ih (List.nodup_append'.1 hrest).1 h

/-- Exchanging the mirrored pairs turns a register round. -/
theorem readRegister_swapEach {qs : List QubitId} (hqs : qs.Nodup) (i : Nat) :
    readRegister qs.reverse (swapEach (mirrored qs) i) = readRegister qs i := by
  induction qs using List.bidirectionalRec with
  | nil => rfl
  | singleton a =>
      rw [mirrored_singleton]
      rfl
  | cons_append a qs b ih =>
      obtain ⟨ha, hrest⟩ := List.nodup_cons.1 hqs
      obtain ⟨hmiddle, -, hdisjoint⟩ := List.nodup_append'.1 hrest
      have hb : b ∉ qs := fun h => hdisjoint h (List.mem_singleton_self b)
      have haqs : a ∉ qs := fun h => ha (List.mem_append_left _ h)
      have hab : a ≠ b := fun h => ha (List.mem_append_right _ (List.mem_singleton.2 h))
      have houter : readRegister qs.reverse (swapBits a b (swapEach (mirrored qs) i)) =
          readRegister qs.reverse (swapEach (mirrored qs) i) := by
        refine readRegister_congr fun q hq => ?_
        have hmem := List.mem_reverse.1 hq
        have hqb : q ≠ b := fun h => hb (h ▸ hmem)
        have hqa : q ≠ a := fun h => haqs (h ▸ hmem)
        rw [testBit_swapBits, if_neg hqb, if_neg hqa]
      have hreverse : (a :: (qs ++ [b])).reverse = b :: (qs.reverse ++ [a]) := by simp
      rw [hreverse, mirrored_cons_concat, swapEach, readRegister_cons, readRegister_concat,
        houter, ih hmiddle, readRegister_cons, readRegister_concat, testBit_swapBits,
        testBit_swapBits, if_pos rfl, if_neg hab, if_pos rfl, testBit_swapEach_of_notMem haqs,
        testBit_swapEach_of_notMem hb, List.length_append, List.length_append,
        List.length_reverse]
      rfl

theorem writeRegister_swapEach {qs : List QubitId} (hqs : qs.Nodup) (x i : Nat) :
    writeRegister x qs (swapEach (mirrored qs) i) = writeRegister x qs i := by
  refine Nat.eq_of_testBit_eq fun j => ?_
  rw [testBit_writeRegister hqs, testBit_writeRegister hqs]
  by_cases hj : j ∈ qs
  · rw [if_pos hj, if_pos hj]
  · rw [if_neg hj, if_neg hj, testBit_swapEach_of_notMem hj]

/-- Exchanges take amplitudes from the indices with exchanged bits. -/
theorem actAll_swaps {pairs : List (QubitId × QubitId)}
    (hpairs : ∀ p ∈ pairs, ∀ c ∈ cs, c.qubit ≠ p.1 ∧ c.qubit ≠ p.2) (f : Nat → Amplitude R)
    (hi : ∀ c ∈ cs, c.Holds i) :
    actAll (pairs.map fun (a, b) => ⟨StandardGate.matrixSwap, cs, [a, b]⟩) f i =
      f (swapEach pairs i) := by
  induction pairs generalizing f with
  | nil => rfl
  | cons p pairs ih =>
      obtain ⟨-, hrest⟩ := List.forall_mem_cons.1 hpairs
      have hholds : ∀ c ∈ cs, c.Holds (swapEach pairs i) := by
        intro c hc
        rw [Control.Holds, testBit_swapEach_of_ne fun p hp => hrest p hp c hc]
        exact hi c hc
      exact (ih hrest _).trans (act_matrixSwap p.1 p.2 f hholds)

/-- Where the controls hold, the circuit is a sum over the values of the register. -/
theorem actAll_operations_of_holds (hexact : ExactTurns R) {qs : List QubitId}
    (hqubits : (cs.map Control.qubit ++ qs).Nodup) (f : Nat → Amplitude R)
    (hi : ∀ c ∈ cs, c.Holds i) :
    actAll (operations cs qs) f i = ∑ x ∈ Finset.range (2 ^ qs.length),
      coefficient R qs.length x (readRegister qs i) * f (writeRegister x qs i) := by
  obtain ⟨-, hqs, hdisjoint⟩ := List.nodup_append'.1 hqubits
  have hcontrol : ∀ c ∈ cs, c.qubit ∉ qs := fun c hc hmem =>
    hdisjoint (List.mem_map_of_mem hc) hmem
  have hpairs : ∀ p ∈ mirrored qs, ∀ c ∈ cs, c.qubit ≠ p.1 ∧ c.qubit ≠ p.2 := by
    intro p hp c hc
    obtain ⟨hfirst, hsecond⟩ := mem_mirrored hp
    exact ⟨fun h => hcontrol c hc (h ▸ hfirst), fun h => hcontrol c hc (h ▸ hsecond)⟩
  have hholds : ∀ c ∈ cs, c.Holds (swapEach (mirrored qs) i) := by
    intro c hc
    rw [Control.Holds, testBit_swapEach_of_notMem (hcontrol c hc)]
    exact hi c hc
  have hreversal : actAll (operations cs qs) f i =
      actAll (rotations cs qs) f (swapEach (mirrored qs) i) :=
    (congrFun (actAll_append _ _ _) i).trans (actAll_swaps hpairs _ hi)
  rw [hreversal, actAll_rotations hexact hqubits f hholds, readRegister_swapEach hqs]
  exact Finset.sum_congr rfl fun x _ => by rw [writeRegister_swapEach hqs]

/-! The operations of the circuit -/

theorem exists_of_mem_phaseSteps {q : QubitId} {d : Nat} {qs : List QubitId}
    {op : Operation (Amplitude R)} (h : op ∈ phaseSteps cs q d qs) :
    ∃ r ∈ qs, ∃ d, op = phaseStep cs q r d := by
  induction qs generalizing d with
  | nil => cases h
  | cons r qs ih =>
      rcases List.mem_cons.1 h with rfl | h
      · exact ⟨r, List.mem_cons_self, d, rfl⟩
      · obtain ⟨r', hr', d', hop⟩ := ih h
        exact ⟨r', List.mem_cons_of_mem _ hr', d', hop⟩

theorem cases_of_mem_rotations {qs : List QubitId} (hqs : qs.Nodup) {op : Operation (Amplitude R)}
    (h : op ∈ rotations cs qs) :
    (∃ q ∈ qs, op = ⟨StandardGate.matrixH, cs, [q]⟩) ∨
      ∃ q ∈ qs, ∃ r ∈ qs, r ≠ q ∧ ∃ d, op = phaseStep cs q r d := by
  induction qs with
  | nil => cases h
  | cons q qs ih =>
      obtain ⟨hq, hrest⟩ := List.nodup_cons.1 hqs
      rcases List.mem_cons.1 h with rfl | h
      · exact .inl ⟨q, List.mem_cons_self, rfl⟩
      rcases List.mem_append.1 h with h | h
      · obtain ⟨r, hr, d, hop⟩ := exists_of_mem_phaseSteps h
        exact .inr ⟨q, List.mem_cons_self, r, List.mem_cons_of_mem _ hr, fun heq => hq (heq ▸ hr),
          d, hop⟩
      · rcases ih hrest h with ⟨p, hp, hop⟩ | ⟨p, hp, r, hr, hne, d, hop⟩
        · exact .inl ⟨p, List.mem_cons_of_mem _ hp, hop⟩
        · exact .inr ⟨p, List.mem_cons_of_mem _ hp, r, List.mem_cons_of_mem _ hr, hne, d, hop⟩

/-- An operation of the circuit is a Hadamard matrix, a phase or an exchange. -/
theorem cases_of_mem_operations {qs : List QubitId} (hqs : qs.Nodup) {op : Operation (Amplitude R)}
    (h : op ∈ operations cs qs) :
    (∃ q ∈ qs, op = ⟨StandardGate.matrixH, cs, [q]⟩) ∨
      (∃ q ∈ qs, ∃ r ∈ qs, r ≠ q ∧ ∃ d, op = phaseStep cs q r d) ∨
      ∃ a ∈ qs, ∃ b ∈ qs, a ≠ b ∧ op = ⟨StandardGate.matrixSwap, cs, [a, b]⟩ := by
  rcases List.mem_append.1 h with h | h
  · exact (cases_of_mem_rotations hqs h).imp_right .inl
  · obtain ⟨⟨a, b⟩, hpair, rfl⟩ := List.mem_map.1 h
    obtain ⟨ha, hb⟩ := mem_mirrored hpair
    exact .inr (.inr ⟨a, ha, b, hb, fst_ne_snd_of_mem_mirrored hqs hpair, rfl⟩)

theorem controls_of_mem_operations {qs : List QubitId} (hqs : qs.Nodup)
    {op : Operation (Amplitude R)} (h : op ∈ operations cs qs) : cs.Sublist op.controls := by
  rcases cases_of_mem_operations hqs h with
    ⟨q, -, rfl⟩ | ⟨q, -, r, -, -, d, rfl⟩ | ⟨a, -, b, -, -, rfl⟩
  · exact List.Sublist.refl cs
  · exact List.sublist_cons_self _ _
  · exact List.Sublist.refl cs

/-- The operations fit every state that has the qubits. -/
theorem fits_of_mem_operations {qs : List QubitId} (hqubits : (cs.map Control.qubit ++ qs).Nodup)
    {n : Nat} (hknown : ∀ q ∈ cs.map Control.qubit ++ qs, q < n) {op : Operation (Amplitude R)}
    (h : op ∈ operations cs qs) : op.Fits n := by
  obtain ⟨hcs, hqs, hdisjoint⟩ := List.nodup_append'.1 hqubits
  have hcontrol : ∀ q ∈ qs, q ∉ cs.map Control.qubit := fun q hq hmem => hdisjoint hmem hq
  have hlt : ∀ q ∈ qs, q < n := fun q hq => hknown q (List.mem_append_right _ hq)
  have hcslt : ∀ q ∈ cs.map Control.qubit, q < n := fun q hq =>
    hknown q (List.mem_append_left _ hq)
  rcases cases_of_mem_operations hqs h with
    ⟨q, hq, rfl⟩ | ⟨q, hq, r, hr, hne, d, rfl⟩ | ⟨a, ha, b, hb, hne, rfl⟩
  · refine ⟨rfl, List.nodup_append'.2 ⟨hcs, List.nodup_singleton q, ?_⟩, ?_⟩
    · exact List.disjoint_singleton.2 (hcontrol q hq)
    · exact List.forall_mem_append.2 ⟨hcslt, List.forall_mem_singleton.2 (hlt q hq)⟩
  · refine ⟨rfl, List.nodup_append'.2 ⟨List.nodup_cons.2 ⟨hcontrol r hr, hcs⟩,
      List.nodup_singleton q, ?_⟩, ?_⟩
    · refine List.disjoint_singleton.2 fun hmem => ?_
      rcases List.mem_cons.1 hmem with heq | hmem
      · exact hne heq.symm
      · exact hcontrol q hq hmem
    · exact List.forall_mem_append.2 ⟨List.forall_mem_cons.2 ⟨hlt r hr, hcslt⟩,
        List.forall_mem_singleton.2 (hlt q hq)⟩
  · refine ⟨rfl, List.nodup_append'.2 ⟨hcs, List.nodup_cons.2 ⟨?_, List.nodup_singleton b⟩, ?_⟩, ?_⟩
    · exact fun hmem => hne (List.mem_singleton.1 hmem)
    · refine List.disjoint_cons_right.2 ⟨hcontrol a ha, ?_⟩
      exact List.disjoint_singleton.2 (hcontrol b hb)
    · exact List.forall_mem_append.2 ⟨hcslt, List.forall_mem_cons.2 ⟨hlt a ha,
        List.forall_mem_singleton.2 (hlt b hb)⟩⟩

/-- An operation fits a state only if the controls of the circuit are different qubits of it. -/
theorem controls_of_fits {qs : List QubitId} (hqs : qs.Nodup) {n : Nat}
    {op : Operation (Amplitude R)} (h : op ∈ operations cs qs) (hfits : op.Fits n) :
    (cs.map Control.qubit).Nodup ∧ ∀ q ∈ cs.map Control.qubit, q < n := by
  have hcontrols := (controls_of_mem_operations hqs h).map Control.qubit
  refine ⟨(List.nodup_append'.1 hfits.nodup).1.sublist hcontrols, fun q hq => ?_⟩
  exact hfits.known q (List.mem_append_left _ (hcontrols.subset hq))

theorem operations_ne_nil {qs : List QubitId} (h : qs ≠ []) :
    (operations cs qs : List (Operation (Amplitude R))) ≠ [] := by
  obtain ⟨q, qs, rfl⟩ := List.exists_cons_of_ne_nil h
  exact List.cons_ne_nil _ _

/-- A transform under repeated controls is refused before anything is done. -/
theorem refused_of_not_nodup {q : QubitId} {qs : List QubitId} (hqs : (q :: qs).Nodup)
    (hcs : ¬(cs.map Control.qubit).Nodup) (s : Simulator R) :
    ∃ e, (Backend.fourier cs (q :: qs) : Request (Simulator R) Unit) s = (.error e, s) :=
  Simulator.applyAll_refused (operations_ne_nil (List.cons_ne_nil q qs))
    fun _ hop hfits => hcs (controls_of_fits hqs hop hfits).1

/-- What the circuit does to amplitudes. -/
theorem actAll_operations_eq (hexact : ExactTurns R) {qs : List QubitId}
    (hqubits : (cs.map Control.qubit ++ qs).Nodup) (f : Nat → Amplitude R) (i : Nat) :
    actAll (operations cs qs) f i =
      if ∀ c ∈ cs, c.Holds i then ∑ x ∈ Finset.range (2 ^ qs.length),
        coefficient R qs.length x (readRegister qs i) * f (writeRegister x qs i)
      else f i := by
  split
  · rename_i hi
    exact actAll_operations_of_holds hexact hqubits f hi
  · rename_i hi
    have hqs : qs.Nodup := (List.nodup_append'.1 hqubits).2.1
    refine actAll_of_idle (fun op hop hactive => hi fun c hc => ?_) f
    exact hactive c ((controls_of_mem_operations hqs hop).subset hc)

end Fourier

/-! Basis states -/

namespace StateVector

section Basis

variable {A : Type} [Zero A] [One A]

/-- The state of `n` qubits in which they hold the bits of `j`. -/
def basis (n j : Nat) : StateVector A := ⟨n, Vector.ofFn fun i => if (i : Nat) = j then 1 else 0⟩

theorem get_basis {n i : Nat} (hi : i < dimension n) (j : Nat) :
    (basis n j : StateVector A).get i = if i = j then 1 else 0 :=
  get_ofFn (fun i => if i = j then 1 else 0) hi

end Basis

/-- Two indices name each other's values if they agree outside the register. -/
theorem writeRegister_eq_iff {qs : List QubitId} (hqs : qs.Nodup) {x : Nat}
    (hx : x < dimension qs.length) (i j : Nat) :
    writeRegister x qs i = j ↔
      x = readRegister qs j ∧ writeRegister (readRegister qs i) qs j = i := by
  constructor
  · rintro rfl
    rw [readRegister_writeRegister hqs hx, writeRegister_writeRegister hqs,
      writeRegister_readRegister hqs]
    exact ⟨rfl, rfl⟩
  · rintro ⟨rfl, hback⟩
    rw [← hback, writeRegister_writeRegister hqs, writeRegister_readRegister hqs]

end StateVector

namespace Fourier

variable {R : Type} [ExactScalar R] {cs : List Control}

/-- The circuit on the amplitudes of a basis state: the value `x` of the register becomes a
sum over all values, and an index that does not meet the controls is left alone. -/
theorem sum_basis {qs : List QubitId} (hqubits : (cs.map Control.qubit ++ qs).Nodup) {n i j : Nat}
    (hknown : ∀ q ∈ qs, q < n) (hi : i < dimension n) (hj : j < dimension n) :
    (if ∀ c ∈ cs, c.Holds i then ∑ x ∈ Finset.range (2 ^ qs.length),
        coefficient R qs.length x (readRegister qs i) *
          (basis n j : StateVector (Amplitude R)).get (writeRegister x qs i)
      else (basis n j).get i) =
      if ∀ c ∈ cs, c.Holds j then ∑ y ∈ Finset.range (2 ^ qs.length),
        coefficient R qs.length (readRegister qs j) y *
          (basis n (writeRegister y qs j) : StateVector (Amplitude R)).get i
      else (basis n j).get i := by
  obtain ⟨-, hqs, hdisjoint⟩ := List.nodup_append'.1 hqubits
  have hread : ∀ k, readRegister qs k < 2 ^ qs.length := readRegister_lt qs
  have hleft : ∀ x ∈ Finset.range (2 ^ qs.length),
      coefficient R qs.length x (readRegister qs i) *
        (basis n j : StateVector (Amplitude R)).get (writeRegister x qs i) =
      if x = readRegister qs j then
        (if writeRegister (readRegister qs i) qs j = i then
          coefficient R qs.length (readRegister qs j) (readRegister qs i) else 0)
      else 0 := by
    intro x hx
    have heq := writeRegister_eq_iff hqs (Finset.mem_range.1 hx) i j
    rw [get_basis (writeRegister_lt hqs hknown x hi), if_congr heq rfl rfl]
    by_cases hvalue : x = readRegister qs j
    · subst hvalue
      simp
    · simp [hvalue]
  have hright : ∀ y ∈ Finset.range (2 ^ qs.length),
      coefficient R qs.length (readRegister qs j) y *
        (basis n (writeRegister y qs j) : StateVector (Amplitude R)).get i =
      if y = readRegister qs i then
        (if writeRegister (readRegister qs i) qs j = i then
          coefficient R qs.length (readRegister qs j) (readRegister qs i) else 0)
      else 0 := by
    intro y hy
    rw [get_basis hi]
    by_cases hvalue : y = readRegister qs i
    · subst hvalue
      simp [eq_comm]
    · have hne : i ≠ writeRegister y qs j := fun heq =>
        hvalue ((writeRegister_eq_iff hqs (Finset.mem_range.1 hy) j i).1 heq.symm).1
      simp [hvalue, hne]
  rw [Finset.sum_congr rfl hleft, Finset.sum_congr rfl hright, Finset.sum_ite_eq',
    Finset.sum_ite_eq', if_pos (Finset.mem_range.2 (hread j)), if_pos (Finset.mem_range.2 (hread i)),
    get_basis hi]
  by_cases hagree : writeRegister (readRegister qs i) qs j = i
  · have hholds := holds_writeRegister hqs hdisjoint (readRegister qs i) j
    rw [hagree] at hholds
    exact if_congr hholds rfl rfl
  · have hne : i ≠ j := by
      rintro rfl
      exact hagree (writeRegister_readRegister hqs i)
    rw [if_neg hagree, if_neg hne, ite_self, ite_self]

end Fourier

/-! The real numbers -/

namespace Amplitude

theorem polar_mul_polar (r s a b : ℝ) : polar r a * polar s b = polar (r * s) (a + b) := by
  have hcos : Scalar.cos (a + b) = Scalar.cos a * Scalar.cos b - Scalar.sin a * Scalar.sin b :=
    Real.cos_add a b
  have hsin : Scalar.sin (a + b) = Scalar.sin a * Scalar.cos b + Scalar.cos a * Scalar.sin b :=
    Real.sin_add a b
  ext
  · simp [polar, hcos]
    ring
  · simp [polar, hsin]
    ring

theorem polar_zero (r : ℝ) : polar r 0 = ofReal r := by
  ext
  · exact (congrArg (r * ·) Real.cos_zero).trans (mul_one r)
  · exact (congrArg (r * ·) Real.sin_zero).trans (mul_zero r)

theorem polar_pow (r a : ℝ) (n : Nat) : polar r a ^ n = polar (r ^ n) (n * a) := by
  induction n with
  | zero =>
      rw [pow_zero, pow_zero, Nat.cast_zero, zero_mul, polar_zero]
      rfl
  | succ n ih =>
      rw [pow_succ, ih, polar_mul_polar, ← pow_succ, Nat.cast_succ]
      congr 1
      ring

end Amplitude

namespace Fourier

theorem twoPow_real (n : Nat) : (Scalar.twoPow n : ℝ) = 2 ^ n := by
  induction n with
  | zero => exact (pow_zero _).symm
  | succ n ih =>
      have htwo : (Scalar.ofInt 2 : ℝ) = 2 := Int.cast_ofNat 2
      rw [Scalar.twoPow, ih, htwo, pow_succ']

theorem turn_real (n : Nat) : turn ℝ n = .polar 1 (Real.pi / 2 ^ n) := by
  rw [turn, twoPow_real]
  rfl

theorem exactTurns_real : ExactTurns ℝ where
  half := by
    rw [turn_real, pow_zero, div_one]
    ext
    · exact (one_mul _).trans Real.cos_pi
    · exact ((one_mul _).trans Real.sin_pi).trans neg_zero.symm
  halved n := by
    rw [turn_real, turn_real, Amplitude.polar_mul_polar, one_mul]
    congr 1
    rw [pow_succ]
    ring
  balanced := by
    ext
    · simpa [hadamardCell, Amplitude.ofReal] using StandardGate.sqrt_half_mul_self_add
    · simp [hadamardCell, Amplitude.ofReal]

theorem sqrt_half_pow (n : Nat) :
    (Scalar.sqrt (Scalar.half 1) : ℝ) ^ n = (2 : ℝ) ^ (-(n : ℝ) / 2) := by
  have hhalf : Scalar.half (1 : ℝ) = 2⁻¹ := by
    change (1 : ℝ) / ((2 : ℤ) : ℝ) = 2⁻¹
    norm_num
  have hsqrt : (Scalar.sqrt (2⁻¹ : ℝ) : ℝ) = (2 : ℝ) ^ (-(1 / 2) : ℝ) := by
    rw [Real.rpow_neg zero_le_two, ← Real.sqrt_eq_rpow]
    exact Real.sqrt_inv 2
  rw [hhalf, hsqrt, ← Real.rpow_natCast, ← Real.rpow_mul zero_le_two]
  congr 1
  ring

/-- Over the real numbers the coefficients are those of the discrete Fourier transform. -/
theorem coefficient_real (n x y : Nat) :
    coefficient ℝ n x y =
      .polar ((2 : ℝ) ^ (-(n : ℝ) / 2)) (2 * Real.pi * x * y / 2 ^ n) := by
  have hshare : hadamardCell ℝ = .polar (Scalar.sqrt (Scalar.half 1)) 0 :=
    (Amplitude.polar_zero _).symm
  rw [coefficient, turn_real, hshare, Amplitude.polar_pow, Amplitude.polar_pow,
    Amplitude.polar_mul_polar, sqrt_half_pow, one_pow, mul_one]
  congr 1
  push_cast
  ring

/-- Asking a simulator for the transform of a register it has, under different controls outside
the register, is granted. With exact phases, every amplitude at an index that meets the controls
becomes a sum over the values of the register, all other bits being as they are, and every
other amplitude stays. So a basis state that meets the controls becomes the sum of the basis
states with every other value. Under controls that repeat a qubit nothing is done. The real
numbers have exact phases, and there the coefficients are `2 ^ (-n / 2)` times powers of a root
of unity. -/
theorem fourier_transforms :
    (∀ {R : Type} [ExactScalar R], ExactTurns R → ∀ (s : Simulator R) {cs : List Control}
      {qs : List QubitId}, qs.Nodup → (cs.map Control.qubit).Disjoint qs →
      (∀ q ∈ cs.map Control.qubit ++ qs, q < s.state.qubits) →
      ((cs.map Control.qubit).Nodup → ∃ t : StateVector (Amplitude R),
        (Backend.fourier cs qs : Request (Simulator R) Unit) s = (.ok (), { s with state := t }) ∧
        t = Operation.applyAll (operations cs qs) s.state ∧
        t.qubits = s.state.qubits ∧
        (∀ i < 2 ^ s.state.qubits, t.get i =
          if ∀ c ∈ cs, i.testBit c.qubit = c.on then ∑ x ∈ Finset.range (2 ^ qs.length),
            coefficient R qs.length x (bigEndian qs i) * s.state.get (writeRegister x qs i)
          else s.state.get i) ∧
        (∀ j < 2 ^ s.state.qubits, s.state = basis s.state.qubits j →
          ∀ i < 2 ^ s.state.qubits, t.get i =
            if ∀ c ∈ cs, j.testBit c.qubit = c.on then ∑ y ∈ Finset.range (2 ^ qs.length),
              coefficient R qs.length (bigEndian qs j) y *
                (basis s.state.qubits (writeRegister y qs j) : StateVector (Amplitude R)).get i
            else (basis s.state.qubits j).get i) ∧
        (∀ j, ∀ y < 2 ^ qs.length, bigEndian qs (writeRegister y qs j) = y ∧
          ∀ q ∉ qs, (writeRegister y qs j).testBit q = j.testBit q) ∧
        2 ^ qs.length * hadamardCell R ^ (2 * qs.length) = 1 ∧
        turn R qs.length ^ 2 ^ qs.length = -1) ∧
      (¬(cs.map Control.qubit).Nodup → qs = [] ∨
        ∃ e, (Backend.fourier cs qs : Request (Simulator R) Unit) s = (.error e, s))) ∧
      ExactTurns ℝ ∧ ∀ n x y, coefficient ℝ n x y =
        .polar ((2 : ℝ) ^ (-(n : ℝ) / 2)) (2 * Real.pi * x * y / 2 ^ n) := by
  refine ⟨fun {R} _ hexact s {cs qs} hqs hdisjoint hknown => ⟨fun hcs => ?_, fun hcs => ?_⟩,
    exactTurns_real, coefficient_real⟩
  · have hqubits : (cs.map Control.qubit ++ qs).Nodup :=
      List.nodup_append'.2 ⟨hcs, hqs, hdisjoint⟩
    have hfits : ∀ op ∈ (operations cs qs : List (Operation (Amplitude R))),
        op.Fits s.state.qubits := fun op hop => fits_of_mem_operations hqubits hknown hop
    have hget : ∀ i, (Operation.applyAll (operations cs qs) s.state).get i =
        if ∀ c ∈ cs, c.Holds i then ∑ x ∈ Finset.range (2 ^ qs.length),
          coefficient R qs.length x (readRegister qs i) * s.state.get (writeRegister x qs i)
        else s.state.get i := by
      intro i
      rw [get_applyAll hfits, actAll_operations_eq hexact hqubits]
    refine ⟨Operation.applyAll (operations cs qs) s.state, ?_, rfl, qubits_applyAll _ _,
      fun i _ => ?_, fun j hj hstate i hi => ?_, fun j y hy => ⟨bigEndian_writeRegister hqs hy j,
        fun q hq => testBit_writeRegister_of_notMem hqs hq y j⟩,
      hexact.two_pow_mul_hadamardCell_pow _, hexact.turn_pow _⟩
    · exact Simulator.applyAll_of_fits hfits
    · rw [← readRegister_eq_bigEndian]
      exact hget i
    · have hregister : ∀ q ∈ qs, q < s.state.qubits := fun q hq =>
        hknown q (List.mem_append_right _ hq)
      rw [← readRegister_eq_bigEndian]
      refine ((hget i).trans ?_).trans (sum_basis hqubits hregister hi hj)
      rw [← hstate]
  · cases qs with
    | nil => exact .inl rfl
    | cons q qs => exact .inr (refused_of_not_nodup hqs hcs s)

/-- The register of qubits 2 and 1 holds two, and qubit 0 controls the transform. -/
theorem fourier_transforms_two :
    let s : Simulator ℝ := ⟨basis 3 5, 3, fun _ => 0, 0, 0⟩
    ∃ t, (Backend.fourier [⟨0, true⟩] [2, 1] : Request (Simulator ℝ) Unit) s =
        (.ok (), { s with state := t }) ∧
      t.get 7 = .polar ((2 : ℝ) ^ (-((2 : Nat) : ℝ) / 2))
        (2 * Real.pi * (2 : Nat) * (3 : Nat) / 2 ^ 2) ∧ t.get 2 = 0 := by
  intro s
  have hqs : ([2, 1] : List QubitId).Nodup := by decide
  have hdisjoint : (([⟨0, true⟩] : List Control).map Control.qubit).Disjoint [2, 1] := by
    simp
  have hknown : ∀ q ∈ ([⟨0, true⟩] : List Control).map Control.qubit ++ [2, 1], q < 3 := by decide
  obtain ⟨t, hgranted, -, -, -, hbasis, -⟩ :=
    (fourier_transforms.1 exactTurns_real s hqs hdisjoint hknown).1 (List.nodup_singleton 0)
  have hplaces : ∀ y < 4, writeRegister y [2, 1] 5 = 2 * y + 1 := by decide
  have hsum : ∀ i < 8, t.get i = ∑ y ∈ Finset.range 4,
      coefficient ℝ 2 2 y * if i = 2 * y + 1 then 1 else 0 := by
    intro i hi
    refine ((hbasis 5 (by decide) rfl i hi).trans (if_pos (by decide))).trans ?_
    refine Finset.sum_congr rfl fun y hy => ?_
    rw [get_basis hi, hplaces y (Finset.mem_range.1 hy)]
    rfl
  refine ⟨t, hgranted, ?_, ?_⟩
  · rw [hsum 7 (by decide), ← coefficient_real]
    simp [Finset.sum_range_succ]
  · rw [hsum 2 (by decide)]
    refine Finset.sum_eq_zero fun y hy => ?_
    rw [if_neg (by omega), mul_zero]

/-- A list of controls that names a qubit twice is refused, so nothing is transformed. -/
theorem repeated_control_not_transformed :
    ¬∀ (s : Simulator ℝ) (cs : List Control) (qs : List QubitId), qs.Nodup →
      (cs.map Control.qubit).Disjoint qs →
      (∀ q ∈ cs.map Control.qubit ++ qs, q < s.state.qubits) → ∀ i < 2 ^ s.state.qubits,
        ((Backend.fourier cs qs : Request (Simulator ℝ) Unit) s).2.state.get i =
          if ∀ c ∈ cs, i.testBit c.qubit = c.on then ∑ x ∈ Finset.range (2 ^ qs.length),
            coefficient ℝ qs.length x (bigEndian qs i) * s.state.get (writeRegister x qs i)
          else s.state.get i := by
  intro h
  obtain ⟨s, hs⟩ : ∃ s : Simulator ℝ, s = ⟨basis 2 0, 2, fun _ => 0, 0, 0⟩ := ⟨_, rfl⟩
  have hqubits : s.state.qubits = 2 := congrArg (fun s => s.state.qubits) hs
  have hdisjoint : (([⟨1, false⟩, ⟨1, false⟩] : List Control).map Control.qubit).Disjoint [0] := by
    simp
  have hknown : ∀ q ∈ ([⟨1, false⟩, ⟨1, false⟩] : List Control).map Control.qubit ++ [0],
      q < s.state.qubits := by
    rw [hqubits]
    decide
  have hget := h s [⟨1, false⟩, ⟨1, false⟩] [0] (List.nodup_singleton 0) hdisjoint hknown 1
    (by rw [hqubits]; decide)
  have hrefused : (Backend.fourier [⟨1, false⟩, ⟨1, false⟩] [0] : Request (Simulator ℝ) Unit) s =
      (.error (.duplicateQubit 1), s) := by
    rw [hs]
    rfl
  have hbasis : ∀ i < 4, s.state.get i = if i = 0 then 1 else 0 := by
    intro i hi
    rw [hs]
    exact get_basis hi 0
  have hplaces : writeRegister 0 [0] 1 = 0 ∧ writeRegister 1 [0] 1 = 1 := by decide
  rw [hrefused, if_pos (by decide), List.length_singleton, pow_one, Finset.sum_range_succ,
    Finset.sum_range_one, hplaces.1, hplaces.2, hbasis 0 (by decide), hbasis 1 (by decide)] at hget
  have hcell : hadamardCell ℝ = 0 := by simpa [coefficient] using hget.symm
  have hsquare := exactTurns_real.two_pow_mul_hadamardCell_pow 1
  rw [hcell, zero_pow two_ne_zero, mul_zero] at hsquare
  exact absurd (congrArg Amplitude.re hsquare) zero_ne_one

end Fourier

end OpenQasm
