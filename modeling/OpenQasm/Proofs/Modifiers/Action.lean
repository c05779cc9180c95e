import OpenQasm.Proofs.Modifiers.Leaves

/-!
# What modifiers do to a sequence of gates

Without regard to bodies and scopes, a modifier acts on the sequence of gates that
it stands before: `inv` reverses it and negates every exponent, `pow` repeats it,
and a control is put in front of the controls of each gate. Controls may be added
last, all at once.
-/
namespace OpenQasm

namespace Leaf

variable {R : Type}

def inverse (l : Leaf R) : Leaf R := { l with power := -l.power }

def controlled (cs : List (Bool × List QubitId)) (l : Leaf R) : Leaf R :=
  { l with controls := cs ++ l.controls }

theorem controlled_controlled (cs cs' : List (Bool × List QubitId)) (l : Leaf R) :
    (l.controlled cs').controlled cs = l.controlled (cs ++ cs') := by
  simp [controlled]

end Leaf

namespace Applied

variable {R : Type}

def pairs : Applied → List (Bool × List QubitId)
  | control on args => args.map fun arg => (on, arg)
  | _ => []

/-- What a modifier makes of the leaves of a call. -/
def act : Applied → List (Leaf R) → List (Leaf R)
  | control on args, ls => ls.map (Leaf.controlled (args.map fun arg => (on, arg)))
  | inverse, ls => (ls.map Leaf.inverse).reverse
  | power k, ls =>
      (List.replicate k.natAbs (if k < 0 then (ls.map Leaf.inverse).reverse else ls)).flatten

/-- What modifiers make of the leaves of a call, the innermost one first. -/
def actAll (as : List Applied) (ls : List (Leaf R)) : List (Leaf R) := as.foldr act ls

theorem actAll_cons (a : Applied) (as : List Applied) (ls : List (Leaf R)) :
    actAll (a :: as) ls = a.act (actAll as ls) := rfl

/-- What modifiers make of leaves when controls are left out. -/
def turn : List Applied → List (Leaf R) → List (Leaf R)
  | [], ls => ls
  | control _ _ :: as, ls => turn as ls
  | inverse :: as, ls => inverse.act (turn as ls)
  | power k :: as, ls => (power k).act (turn as ls)

theorem map_controlled_inverse (cs : List (Bool × List QubitId)) (ls : List (Leaf R)) :
    ((ls.map (Leaf.controlled cs)).map Leaf.inverse).reverse =
      ((ls.map Leaf.inverse).reverse).map (Leaf.controlled cs) := by
  rw [List.map_reverse, List.map_map, List.map_map]
  rfl

/-- Controls can be added after turning. -/
theorem actAll_eq (as : List Applied) (ls : List (Leaf R)) :
    actAll as ls = (turn as ls).map (Leaf.controlled (as.flatMap pairs)) := by
  induction as with
  | nil => exact (List.map_id' ls).symm
  | cons a as ih =>
      rw [actAll_cons, ih]
      cases a with
      | control on args =>
          rw [act, turn, List.map_map]
          refine List.map_congr_left fun l _ => ?_
          exact Leaf.controlled_controlled _ _ l
      | inverse => exact map_controlled_inverse _ _
      | power k =>
          simp only [act, turn, List.flatMap_cons, pairs, List.nil_append, List.map_flatten,
            List.map_replicate]
          split
          · rw [map_controlled_inverse]
          · rfl

/-- Leaves can be dropped before or after, if what drops them is blind to exponents' signs
and to controls. -/
theorem filter_actAll {p : Leaf R → Bool} (hinverse : ∀ l, p l.inverse = p l)
    (hcontrolled : ∀ cs l, p (l.controlled cs) = p l) (as : List Applied) (ls : List (Leaf R)) :
    (actAll as ls).filter p = actAll as (ls.filter p) := by
  have hreverse : ∀ ls : List (Leaf R), ((ls.map Leaf.inverse).reverse).filter p =
      ((ls.filter p).map Leaf.inverse).reverse := by
    intro ls
    rw [List.filter_reverse, List.filter_map]
    congr 3
    exact funext hinverse
  induction as with
  | nil => rfl
  | cons a as ih =>
      rw [actAll_cons, actAll_cons, ← ih]
      cases a with
      | control on args =>
          rw [act, act, List.filter_map]
          congr 2
          exact funext (hcontrolled _)
      | inverse => exact hreverse _
      | power k =>
          simp only [act, List.filter_flatten, List.map_replicate]
          split
          · rw [hreverse]
          · rfl

end Applied

end OpenQasm
