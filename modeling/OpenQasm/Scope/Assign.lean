import OpenQasm.Scope.Scope

/-!
# Sizes and assignment

How many elements a declaration asks for, and what an assignment does to a scope.
Bit registers and single bits take any value that converts to as many bits;
variables take any constant; nothing else can be assigned to.
-/
namespace OpenQasm.Scope

variable {R : Type} [Scalar R]

/-- The number of elements a type asks for; without a size it is one. -/
def typeSize (s : Scope R) (t : TypeSpec) : Except EvalError Nat :=
  match t.size with
  | none => .ok 1
  | some e => do
      let v ← (← s.fold e).toInt
      if v.toInt < 0 then throw (.typeMismatch (.negativeSize v))
      return v.toInt.toNat

/-- The number of elements a declaration asks for. -/
def declaredSize (s : Scope R) (d : TypedName) : Except EvalError Nat :=
  match d.literalSize? with
  | some n => .ok n
  | none => s.typeSize d.type

/-- A bit register with a value stored in it, or in one place of it. -/
def storeBits (name : String) (register : List Bool) (index : Option Int64) (v : Value R) :
    Except EvalError (List Bool) :=
  match index with
  | none => v.toBits register.length
  | some i =>
      match place? i register.length with
      | none => .error (.indexOutOfRange name i register.length)
      | some k => do
          let bits ← v.toBits 1
          return register.set k (bits.headD false)

def assign (s : Scope R) (target : Expr) (v : Value R) : Except EvalError (Scope R) := do
  let (name, index) ← s.reference target
  match s.bits.get? name with
  | some register => return s.addBits name (← storeBits name register index v)
  | none =>
      if index.isNone && s.isVariable name then s.setVariable name (← v.toConst)
      else if s.qubits.contains name then throw (.typeMismatch (.qubitTarget name))
      else if (s.const? name).isSome then throw (.assignToConst name)
      else throw (.undefined name)

end OpenQasm.Scope
