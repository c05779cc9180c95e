import Mathlib.Algebra.BigOperators.Group.List.Basic
import OpenQasm.Proofs.Modifiers.Bodies

/-!
# The limit on unrolled bodies

Inverting a body and adding controls to it keep its length, and a `pow` multiplies it by its
exponent without the sign. So the length for some modifiers is a product over the `pow` among
them, from the inside out. The limit is checked before a body is repeated: the innermost `pow`
that would exceed it is reported, and no longer body than that is ever made.
-/
namespace OpenQasm

namespace Block

@[simp] theorem length_inv (b : Block) : b.inv.length = b.length := by
  simp [inv]

@[simp] theorem length_add (m : Modifier) (qs : List Expr) (b : Block) :
    (b.add m qs).length = b.length := by
  simp [add]

@[simp] theorem length_pow (n : Nat) (b : Block) : (b.pow n).length = b.length * n := by
  simp [pow_eq, Nat.mul_comm]

end Block

namespace Scope

variable {R : Type} [Scalar R]

/-- How often a modifier has the statements of a body in its place: for a `pow` it is the exponent
without its sign. -/
def copies (s : Scope R) (m : Modifier) : Nat :=
  match m.kind, s.exponent m with
  | .pow, .ok k => k.toInt.natAbs
  | _, _ => 1

/-- The number of statements of a gate's body, unrolled for modifiers. -/
def unrolledLength (s : Scope R) (gate : GateDef) (ms : List Modifier) : Nat :=
  gate.body.length * (ms.map s.copies).prod

/-- No `pow` unrolls the body beyond the limit. -/
def WithinLimit (s : Scope R) (gate : GateDef) (limit : Nat) (ms : List Modifier) : Prop :=
  ∀ m inner, m :: inner <:+ ms → m.kind = .pow → s.unrolledLength gate (m :: inner) ≤ limit

/-- A `pow` unrolls the body beyond the limit, and none of those inside it does. -/
def ExceedsLimit (s : Scope R) (gate : GateDef) (limit : Nat) (ms : List Modifier) : Prop :=
  ∃ m inner, m :: inner <:+ ms ∧ m.kind = .pow ∧ limit < s.unrolledLength gate (m :: inner) ∧
    s.WithinLimit gate limit inner

variable {s : Scope R} {gate : GateDef} {limit : Nat} {m : Modifier} {ms : List Modifier}

/-! Lengths -/

theorem copies_of_pow {k : Int64} (hm : m.kind = .pow) (hk : s.exponent m = .ok k) :
    s.copies m = k.toInt.natAbs := by
  rw [copies, hm, hk]

theorem copies_of_ne_pow (hm : m.kind ≠ .pow) : s.copies m = 1 := by
  unfold copies
  split
  · rename_i hkind _
    exact absurd hkind hm
  · rfl

theorem unrolledLength_nil : s.unrolledLength gate [] = gate.body.length := by
  simp [unrolledLength]

theorem unrolledLength_cons :
    s.unrolledLength gate (m :: ms) = s.unrolledLength gate ms * s.copies m := by
  simp only [unrolledLength, List.map_cons, List.prod_cons]
  rw [Nat.mul_comm (s.copies m), Nat.mul_assoc]

theorem withinLimit_nil : s.WithinLimit gate limit [] := by
  intro m inner hsuffix
  cases List.suffix_nil.1 hsuffix

theorem withinLimit_cons (h : s.WithinLimit gate limit ms)
    (hm : m.kind = .pow → s.unrolledLength gate (m :: ms) ≤ limit) :
    s.WithinLimit gate limit (m :: ms) := by
  intro m' inner hsuffix hkind
  rcases List.suffix_cons_iff.1 hsuffix with heq | hsuffix
  · cases heq
    exact hm hkind
  · exact h m' inner hsuffix hkind

theorem WithinLimit.not_exceedsLimit (h : s.WithinLimit gate limit ms) :
    ¬s.ExceedsLimit gate limit ms := by
  rintro ⟨m, inner, hsuffix, hkind, hlimit, -⟩
  exact absurd (h m inner hsuffix hkind) (Nat.not_le.2 hlimit)

theorem WithinLimit.tail (h : s.WithinLimit gate limit (m :: ms)) : s.WithinLimit gate limit ms :=
  fun m' inner hsuffix => h m' inner (hsuffix.trans (List.suffix_cons m ms))

/-- The outermost `pow` decides about the length, as the modifiers outside it keep it. -/
theorem WithinLimit.unrolledLength_le (h : s.WithinLimit gate limit ms)
    (hpow : ∃ m ∈ ms, m.kind = .pow) : s.unrolledLength gate ms ≤ limit := by
  induction ms with
  | nil =>
      obtain ⟨m, hm, -⟩ := hpow
      cases hm
  | cons m ms ih =>
      by_cases hkind : m.kind = .pow
      · exact h m ms (List.suffix_refl _) hkind
      · obtain ⟨m', hm', hkind'⟩ := hpow
        rcases List.mem_cons.1 hm' with rfl | hm'
        · exact absurd hkind' hkind
        · rw [unrolledLength_cons, copies_of_ne_pow hkind, Nat.mul_one]
          exact ih h.tail ⟨m', hm', hkind'⟩

theorem unrolledLength_eq_of_no_pow (hpow : ¬∃ m ∈ ms, m.kind = .pow) :
    s.unrolledLength gate ms = gate.body.length := by
  induction ms with
  | nil => exact unrolledLength_nil
  | cons m ms ih =>
      have hm : m.kind ≠ .pow := fun h => hpow ⟨m, List.mem_cons_self, h⟩
      rw [unrolledLength_cons, copies_of_ne_pow hm, Nat.mul_one]
      exact ih fun ⟨m', hm', hkind⟩ => hpow ⟨m', List.mem_cons_of_mem m hm', hkind⟩

theorem WithinLimit.unrolledLength_le_max (h : s.WithinLimit gate limit ms) :
    s.unrolledLength gate ms ≤ max limit gate.body.length := by
  by_cases hpow : ∃ m ∈ ms, m.kind = .pow
  · exact Nat.le_trans (h.unrolledLength_le hpow) (Nat.le_max_left _ _)
  · rw [unrolledLength_eq_of_no_pow hpow]
    exact Nat.le_max_right _ _

/-! Bodies -/

variable {start n : Nat} {counted : List (Modifier × Nat)} {b : Block}

/-- A `pow` that would make the body too long is reported. -/
theorem modifyBody_refused {k : Int64} (hb : s.modifyBody gate limit (start + n) counted = .ok b)
    (hm : m.kind = .pow) (hk : s.exponent m = .ok k) (hlimit : limit < b.length * k.toInt.natAbs) :
    s.modifyBody gate limit start ((m, n) :: counted) = .error (.unrollLimit gate.name limit) := by
  rw [modifyBody, hb, ok_bind]
  simp only [hm, hk, ok_bind, if_pos hlimit]
  rfl

/-- Any other modifier makes a body of the length that it asks for. -/
theorem exists_modifyBody_cons (hb : s.modifyBody gate limit (start + n) counted = .ok b)
    (hm : m.kind = .pow → ∃ k, s.exponent m = .ok k ∧ b.length * k.toInt.natAbs ≤ limit) :
    ∃ body, s.modifyBody gate limit start ((m, n) :: counted) = .ok body ∧
      body.length = b.length * s.copies m := by
  rw [modifyBody, hb]
  by_cases hkind : m.kind = .pow
  · obtain ⟨k, hk, hle⟩ := hm hkind
    simp only [ok_bind, hkind, hk, if_neg (Nat.not_lt.2 hle), copies_of_pow hkind hk]
    refine ⟨_, rfl, ?_⟩
    split_ifs <;> simp
  · rw [copies_of_ne_pow hkind, Nat.mul_one]
    cases hk : m.kind with
    | pow => exact absurd hk hkind
    | inv => exact ⟨_, rfl, b.length_inv⟩
    | ctrl => exact ⟨_, rfl, b.length_add _ _⟩
    | negctrl => exact ⟨_, rfl, b.length_add _ _⟩

/-- The body for modifiers has the length they ask for, or the innermost `pow` that goes beyond
the limit is reported. -/
theorem modifyBody_cases (start : Nat)
    (hpow : ∀ m ∈ counted.map Prod.fst, m.kind = .pow → ∃ k, s.exponent m = .ok k) :
    (s.WithinLimit gate limit (counted.map Prod.fst) ∧
      ∃ body, s.modifyBody gate limit start counted = .ok body ∧
        body.length = s.unrolledLength gate (counted.map Prod.fst)) ∨
    (s.ExceedsLimit gate limit (counted.map Prod.fst) ∧
      s.modifyBody gate limit start counted = .error (.unrollLimit gate.name limit)) := by
  induction counted generalizing start with
  | nil => exact .inl ⟨withinLimit_nil, gate.body, rfl, unrolledLength_nil.symm⟩
  | cons c counted ih =>
      obtain ⟨m, n⟩ := c
      rw [List.map_cons, List.forall_mem_cons] at hpow
      obtain ⟨hm, hpow⟩ := hpow
      rw [List.map_cons]
      rcases ih (start + n) hpow with ⟨hwithin, b, hb, hlength⟩ | ⟨hexceeds, herror⟩
      · have hnext : s.unrolledLength gate (m :: counted.map Prod.fst) = b.length * s.copies m := by
          rw [unrolledLength_cons, hlength]
        by_cases hover : m.kind = .pow ∧ limit < b.length * s.copies m
        · obtain ⟨hkind, hlimit⟩ := hover
          obtain ⟨k, hk⟩ := hm hkind
          refine .inr ⟨⟨m, _, List.suffix_refl _, hkind, hnext ▸ hlimit, hwithin⟩, ?_⟩
          rw [copies_of_pow hkind hk] at hlimit
          exact modifyBody_refused hb hkind hk hlimit
        · have hle : m.kind = .pow → b.length * s.copies m ≤ limit :=
            fun hkind => Nat.not_lt.1 fun hlimit => hover ⟨hkind, hlimit⟩
          refine .inl ⟨withinLimit_cons hwithin fun hkind => hnext ▸ hle hkind, ?_⟩
          rw [hnext]
          refine exists_modifyBody_cons hb fun hkind => ?_
          obtain ⟨k, hk⟩ := hm hkind
          exact ⟨k, hk, copies_of_pow hkind hk ▸ hle hkind⟩
      · obtain ⟨m', inner, hsuffix, hkind, hlimit, hwithin⟩ := hexceeds
        refine .inr ⟨⟨m', inner, hsuffix.trans (List.suffix_cons _ _), hkind, hlimit, hwithin⟩, ?_⟩
        rw [modifyBody, herror]
        rfl

/-- A body on the way is no longer than the limit or the original one. -/
theorem length_modifyBody_le
    (hpow : ∀ m ∈ counted.map Prod.fst, m.kind = .pow → ∃ k, s.exponent m = .ok k)
    (hb : s.modifyBody gate limit start counted = .ok b) : b.length ≤ max limit gate.body.length := by
  rcases modifyBody_cases start hpow with ⟨hwithin, b', hb', hlength⟩ | ⟨-, herror⟩
  · cases hb.symm.trans hb'
    exact hlength ▸ hwithin.unrolledLength_le_max
  · cases hb.symm.trans herror

/-- The factors that are multiplied are words, and the product is one or is reported. -/
theorem product_fits_word {k : Int64} (hlimit : limit < 2 ^ 64) (hgate : gate.body.length < 2 ^ 64)
    (hpow : ∀ m ∈ counted.map Prod.fst, m.kind = .pow → ∃ k, s.exponent m = .ok k)
    (hm : m.kind = .pow) (hk : s.exponent m = .ok k)
    (hb : s.modifyBody gate limit (start + n) counted = .ok b) :
    b.length < 2 ^ 64 ∧ k.toInt.natAbs < 2 ^ 64 ∧ (b.length * k.toInt.natAbs < 2 ^ 64 ∨
      s.modifyBody gate limit start ((m, n) :: counted) = .error (.unrollLimit gate.name limit)) := by
  have hlength : b.length < 2 ^ 64 :=
    Nat.lt_of_le_of_lt (length_modifyBody_le hpow hb) (Nat.max_lt.2 ⟨hlimit, hgate⟩)
  have hexponent : k.toInt.natAbs < 2 ^ 64 := by
    have hlt := k.toInt_lt
    have hge := k.le_toInt
    omega
  refine ⟨hlength, hexponent, ?_⟩
  by_cases hover : limit < b.length * k.toInt.natAbs
  · exact .inr (modifyBody_refused hb hm hk hover)
  · exact .inl (Nat.lt_of_le_of_lt (Nat.not_lt.1 hover) hlimit)

theorem map_fst_of_countControls (h : s.countControls ms = .ok counted) :
    counted.map Prod.fst = ms := by
  induction ms generalizing counted with
  | nil => rw [mapM_nil_ok_iff.1 h, List.map_nil]
  | cons m ms ih =>
      obtain ⟨n, rest, -, hrest, rfl⟩ := countControls_cons_ok_iff.1 h
      rw [List.map_cons, ih hrest]

/-- A modified body has the length of the gate's body times the exponents without their signs, or
else the limit is reported, and that exactly if some `pow` asks for more where those inside it do
not. A body with a `pow` is within the limit. No body on the way is longer than the limit or the
original one, and the numbers that are multiplied on the way are 64-bit words: so is their product,
unless the limit is reported. -/
theorem unroll_limit_exact (hcounted : s.countControls ms = .ok counted)
    (hpow : ∀ m ∈ ms, m.kind = .pow → ∃ k, s.exponent m = .ok k) :
    (s.modifyBody gate limit start counted = .error (.unrollLimit gate.name limit) ↔
      s.ExceedsLimit gate limit ms) ∧
    (¬s.ExceedsLimit gate limit ms → ∃ body, s.modifyBody gate limit start counted = .ok body ∧
      body.length = s.unrolledLength gate ms ∧
      ((∃ m ∈ ms, m.kind = .pow) → body.length ≤ limit)) ∧
    (∀ inner, inner <:+ counted → ∀ (start' : Nat) (b : Block),
      s.modifyBody gate limit start' inner = .ok b → b.length ≤ max limit gate.body.length) ∧
    (limit < 2 ^ 64 → gate.body.length < 2 ^ 64 → ∀ m n inner, (m, n) :: inner <:+ counted →
      ∀ (start' : Nat) (b : Block) (k : Int64), m.kind = .pow → s.exponent m = .ok k →
      s.modifyBody gate limit (start' + n) inner = .ok b →
      b.length < 2 ^ 64 ∧ k.toInt.natAbs < 2 ^ 64 ∧ (b.length * k.toInt.natAbs < 2 ^ 64 ∨
        s.modifyBody gate limit start' ((m, n) :: inner) =
          .error (.unrollLimit gate.name limit))) := by
  obtain rfl := map_fst_of_countControls hcounted
  have hinner : ∀ inner, inner <:+ counted →
      ∀ m ∈ inner.map Prod.fst, m.kind = .pow → ∃ k, s.exponent m = .ok k :=
    fun inner hsuffix m hm => hpow m ((hsuffix.map Prod.fst).subset hm)
  have hlengths : ∀ inner, inner <:+ counted → ∀ (start' : Nat) (b : Block),
      s.modifyBody gate limit start' inner = .ok b → b.length ≤ max limit gate.body.length :=
    fun inner hsuffix start' b hb => length_modifyBody_le (hinner inner hsuffix) hb
  refine and_assoc.1 ⟨?_, hlengths, ?_⟩
  · rcases modifyBody_cases start hpow with ⟨hwithin, body, hbody, hlength⟩ | ⟨hexceeds, herror⟩
    · refine ⟨⟨fun herror => ?_, fun h => absurd h hwithin.not_exceedsLimit⟩, fun _ => ?_⟩
      · cases hbody.symm.trans herror
      · exact ⟨body, hbody, hlength, fun h => hlength ▸ hwithin.unrolledLength_le h⟩
    · exact ⟨⟨fun _ => hexceeds, fun _ => herror⟩, fun h => absurd hexceeds h⟩
  · intro hlimit hgate m n inner hsuffix start' b k hm hk hb
    have hrest := hinner inner ((List.suffix_cons _ _).trans hsuffix)
    exact product_fits_word hlimit hgate hrest hm hk hb

end Scope

def leastPower : Modifier :=
  .mk .pow (some (.binary .sub (.unary .neg (.lit ⟨.int, "9223372036854775807"⟩))
    (.lit ⟨.int, "1"⟩)))

def zerothPower : Modifier := .mk .pow (some (.lit ⟨.int, "0"⟩))

def turnTwice : GateDef := ⟨"g", [], ["a"], [
  .apply .h [] [] [.ident "a"],
  .apply .x [] [] [.ident "a"]]⟩

/-- Two statements for the least exponent are `2 ^ 64`, one more than the largest word. -/
theorem unroll_limit_exact_least :
    let s : Scope Float := .root
    s.modifyBody turnTwice (2 ^ 64 - 1) 0 [(.inv, 0), (leastPower, 0)] =
        .error (.unrollLimit "g" (2 ^ 64 - 1)) ∧
      ∃ body, s.modifyBody turnTwice (2 ^ 64 - 1) 0 [(leastPower, 0), (zerothPower, 0)] = .ok body ∧
        body.length = 0 := by
  intro s
  have hleast : s.exponent leastPower = .ok Int64.minValue := by rfl
  have hzeroth : s.exponent zerothPower = .ok 0 := by rfl
  have hcopies : s.copies leastPower = 2 ^ 63 := by
    rw [Scope.copies_of_pow rfl hleast]
    decide
  have hnone : s.copies zerothPower = 0 := by
    rw [Scope.copies_of_pow rfl hzeroth]
    decide
  constructor
  · have hpow : ∀ m ∈ [Modifier.inv, leastPower], m.kind = .pow → ∃ k, s.exponent m = .ok k := by
      simp [Modifier.inv, Modifier.kind, hleast]
    refine (Scope.unroll_limit_exact rfl hpow).1.2 ⟨leastPower, [], ⟨[.inv], rfl⟩, rfl, ?_,
      Scope.withinLimit_nil⟩
    rw [Scope.unrolledLength_cons, Scope.unrolledLength_nil, hcopies]
    decide
  · have hpow : ∀ m ∈ [leastPower, zerothPower], m.kind = .pow → ∃ k, s.exponent m = .ok k := by
      simp [hleast, hzeroth]
    have hinner : s.unrolledLength turnTwice [zerothPower] = 0 := by
      rw [Scope.unrolledLength_cons, hnone, Nat.mul_zero]
    have hlength : s.unrolledLength turnTwice [leastPower, zerothPower] = 0 := by
      rw [Scope.unrolledLength_cons, hinner, Nat.zero_mul]
    have hwithin : s.WithinLimit turnTwice (2 ^ 64 - 1) [leastPower, zerothPower] := by
      refine Scope.withinLimit_cons (Scope.withinLimit_cons Scope.withinLimit_nil fun _ => ?_)
        fun _ => ?_
      · exact hinner ▸ Nat.zero_le _
      · exact hlength ▸ Nat.zero_le _
    obtain ⟨body, hbody, hbodyLength, -⟩ :=
      (Scope.unroll_limit_exact rfl hpow).2.1 hwithin.not_exceedsLimit
    exact ⟨body, hbody, hbodyLength.trans hlength⟩

end OpenQasm
