import OpenQasm.Proofs.Modifiers.Bodies

/-!
# The algebra of block transforms

Inverting, repeating and adding controls commute with each other, repetitions multiply, and
inverting twice puts every statement back in its place. What remains of the two inversions are
two modifiers at every gate application, in nested blocks too.
-/
namespace OpenQasm

mutual

/-- A statement with further modifiers behind those of its gate applications. A block is such a
statement throughout; a statement that applies no gate stays as it is. -/
def Stmt.tagged (extra : List Modifier) : Stmt → Stmt
  | .apply g ms ps qs => .apply g (ms ++ extra) ps qs
  | .expr (.call name ms ps qs) => .expr (.call name (ms ++ extra) ps qs)
  | .block body => .block (Stmt.taggedEach extra body)
  | c => c

def Stmt.taggedEach (extra : List Modifier) : List Stmt → List Stmt
  | [] => []
  | c :: cs => c.tagged extra :: Stmt.taggedEach extra cs

end

namespace Stmt

theorem taggedEach_eq_map (extra : List Modifier) (b : List Stmt) :
    taggedEach extra b = b.map (tagged extra) := by
  induction b with
  | nil => simp [taggedEach]
  | cons c cs ih => simp [taggedEach, ih]

theorem tagged_block (extra : List Modifier) (b : List Stmt) :
    (Stmt.block b).tagged extra = .block (b.map (tagged extra)) := by
  rw [tagged, taggedEach_eq_map]

theorem inv_inv (c : Stmt) : c.inv.inv = c.tagged [.inv, .inv] := by
  cases c with
  | block b =>
      have ih : ∀ c ∈ b, c.inv.inv = c.tagged [.inv, .inv] := fun c hc => inv_inv c
      rw [inv_block, inv_block, tagged_block, List.map_reverse, List.reverse_reverse, List.map_map]
      exact congrArg Stmt.block (List.map_congr_left ih)
  | apply g ms ps qs => simp [inv, editGate, tagged]
  | expr e =>
      cases e with
      | call name ms ps qs => simp [inv, editGate, tagged]
      | _ => rfl
  | _ => rfl
termination_by sizeOf c

end Stmt

namespace Block

theorem pow_add (m n : Nat) (b : Block) : b.pow (m + n) = b.pow m ++ b.pow n := by
  rw [pow_eq, pow_eq, pow_eq, ← List.flatten_append, List.replicate_append_replicate]

theorem pow_pow (m n : Nat) (b : Block) : (b.pow n).pow m = b.pow (m * n) := by
  rw [pow_eq m]
  induction m with
  | zero =>
      rw [Nat.zero_mul, pow_eq 0]
      rfl
  | succ m ih =>
      rw [List.replicate_succ, List.flatten_cons, ih, Nat.succ_mul, Nat.add_comm, pow_add]

theorem inv_inv (b : Block) : b.inv.inv = b.map (Stmt.tagged [.inv, .inv]) := by
  rw [inv, inv, List.map_reverse, List.reverse_reverse, List.map_map]
  exact List.map_congr_left fun c _ => c.inv_inv

/-- The transforms of a block commute, whatever stands in it and however deep its blocks are
nested, repetitions multiply, and a block inverted twice has the same statements in the same
places, each gate application with two more `inv` behind its modifiers. -/
theorem transforms_commute (b : Block) (m n : Nat) (c : Modifier) (qargs : List Expr) :
    (b.pow n).inv = b.inv.pow n ∧
      b.inv.add c qargs = (b.add c qargs).inv ∧
      (b.pow n).add c qargs = (b.add c qargs).pow n ∧
      (b.pow n).pow m = b.pow (m * n) ∧
      b.inv.inv = b.map (Stmt.tagged [.inv, .inv]) :=
  ⟨inv_pow n b, (inv_add c qargs b).symm, add_pow c qargs n b, pow_pow m n b, inv_inv b⟩

end Block

end OpenQasm
