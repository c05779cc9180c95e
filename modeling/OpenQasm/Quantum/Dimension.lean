/-!
# Counting basis states

The counts of a run are machine words of 64 bits. A state vector is as long as one shifted
by the number of its qubits, and a shift only takes the last six bits of that number, so
there are states with fewer amplitudes than basis states.
-/
namespace OpenQasm

/-- The number of basis states of `k` qubits. -/
def dimension (k : Nat) : Nat := Nat.pow 2 k

/-- The index whose only set bit is bit `q`. -/
def bitAt (q : Nat) : Nat := Nat.pow 2 q

/-- A count as a machine word: what goes beyond 64 bits is lost. -/
def wordOf (n : Nat) : Nat := n % Nat.pow 2 64

/-- The qubits that a vector of one shifted by `n` amplitudes has room for. -/
def roomFor (n : Nat) : Nat := n % 64

theorem wordOf_of_lt {n : Nat} (h : n < Nat.pow 2 64) : wordOf n = n := Nat.mod_eq_of_lt h

theorem roomFor_of_lt {n : Nat} (h : n < 64) : roomFor n = n := Nat.mod_eq_of_lt h

theorem roomFor_le (n : Nat) : roomFor n ≤ n := Nat.mod_le n 64

end OpenQasm
