import OpenQasm.Proofs.Modifiers.Resolution

/-!
# Shapes of transformed bodies

Inverting a block, raising it to a power and adding controls to it can be done in
any order. So the body that a modified call runs is the body of the gate, inverted
and repeated as its modifiers ask for, with all controls added in the end.
-/
namespace OpenQasm

namespace Stmt

theorem add_block (m : Modifier) (qs : List Expr) (b : List Stmt) :
    (Stmt.block b).add m qs = .block (b.map (Stmt.add m qs)) := by
  rw [Stmt.add, Stmt.addEach_eq_map]

theorem inv_block (b : List Stmt) : (Stmt.block b).inv = .block (b.map Stmt.inv).reverse := by
  rw [Stmt.inv, Stmt.invEach_eq_map]

theorem inv_add (m : Modifier) (qs : List Expr) (c : Stmt) :
    (c.add m qs).inv = c.inv.add m qs := by
  cases c with
  | block b =>
      have ih : ∀ c ∈ b, (c.add m qs).inv = c.inv.add m qs := fun c hc => inv_add m qs c
      rw [add_block, inv_block, inv_block, add_block, List.map_map, List.map_reverse,
        List.map_map]
      congr 2
      exact List.map_congr_left ih
  | expr e => cases e <;> rfl
  | _ => rfl
termination_by sizeOf c

end Stmt

namespace Block

theorem inv_add (m : Modifier) (qs : List Expr) (b : Block) :
    (b.add m qs).inv = b.inv.add m qs := by
  simp only [inv, add, List.map_map, List.map_reverse]
  congr 1
  exact List.map_congr_left fun c _ => Stmt.inv_add m qs c

theorem pow_eq (n : Nat) (b : Block) : b.pow n = (List.replicate n b).flatten := by
  unfold pow
  split
  · rename_i hempty
    rw [List.isEmpty_iff.1 hempty]
    simp
  · rfl

theorem add_pow (m : Modifier) (qs : List Expr) (n : Nat) (b : Block) :
    (b.pow n).add m qs = (b.add m qs).pow n := by
  rw [pow_eq, pow_eq, add, add, List.map_flatten, List.map_replicate]

theorem inv_append (b b' : Block) : inv (b ++ b') = b'.inv ++ b.inv := by
  simp [inv]

theorem inv_cons (c : Stmt) (b : Block) : inv (c :: b) = b.inv ++ [c.inv] := by
  simp [inv]

theorem inv_pow (n : Nat) (b : Block) : (b.pow n).inv = b.inv.pow n := by
  rw [pow_eq, pow_eq]
  induction n with
  | zero => rfl
  | succ n ih =>
      rw [List.replicate_succ, List.flatten_cons, inv_append, ih, ← List.flatten_concat,
        ← List.replicate_succ']

/-- A block with the controls of several modifiers, those of the first one in front. -/
def addAll (gs : List (Modifier × List Expr)) (b : Block) : Block :=
  gs.foldr (fun g b => b.add g.1 g.2) b

theorem inv_addAll (gs : List (Modifier × List Expr)) (b : Block) :
    (b.addAll gs).inv = b.inv.addAll gs := by
  induction gs with
  | nil => rfl
  | cons g gs ih =>
      rw [addAll, List.foldr_cons, inv_add]
      exact congrArg (Block.add g.1 g.2) ih

theorem pow_addAll (gs : List (Modifier × List Expr)) (n : Nat) (b : Block) :
    (b.addAll gs).pow n = (b.pow n).addAll gs := by
  induction gs with
  | nil => rfl
  | cons g gs ih =>
      rw [addAll, List.foldr_cons, ← add_pow]
      exact congrArg (Block.add g.1 g.2) ih

/-- A block inverted and repeated as modifiers ask for, the innermost one first. -/
def turned : List Applied → Block → Block
  | [], b => b
  | .control _ _ :: as, b => turned as b
  | .inverse :: as, b => (turned as b).inv
  | .power k :: as, b =>
      if k < 0 then (turned as b).inv.pow k.natAbs else (turned as b).pow k.natAbs

/-! What holds of each statement of a block -/

section Each

variable {S : Stmt → Prop} {b : Block}

theorem forall_mem_inv (hinv : ∀ c, S c → S c.inv) (h : ∀ c ∈ b, S c) : ∀ c ∈ b.inv, S c := by
  intro c hc
  obtain ⟨c', hc', rfl⟩ := List.mem_map.1 (List.mem_reverse.1 hc)
  exact hinv c' (h c' hc')

theorem forall_mem_pow (h : ∀ c ∈ b, S c) (n : Nat) : ∀ c ∈ b.pow n, S c := by
  intro c hc
  rw [pow_eq] at hc
  obtain ⟨b', hb', hc⟩ := List.mem_flatten.1 hc
  rw [List.eq_of_mem_replicate hb'] at hc
  exact h c hc

theorem forall_mem_turned (hinv : ∀ c, S c → S c.inv) (h : ∀ c ∈ b, S c) (as : List Applied) :
    ∀ c ∈ turned as b, S c := by
  induction as with
  | nil => exact h
  | cons a as ih =>
      cases a with
      | control on args => exact ih
      | inverse => exact forall_mem_inv hinv ih
      | power k =>
          rw [turned]
          split
          · exact forall_mem_pow (forall_mem_inv hinv ih) _
          · exact forall_mem_pow ih _

theorem forall_mem_addAll {gs : List (Modifier × List Expr)}
    (hadd : ∀ g ∈ gs, ∀ c, S c → S (c.add g.1 g.2)) (h : ∀ c ∈ b, S c) :
    ∀ c ∈ b.addAll gs, S c := by
  induction gs with
  | nil => exact h
  | cons g gs ih =>
      obtain ⟨hg, hgs⟩ := List.forall_mem_cons.1 hadd
      exact List.forall_mem_map.2 fun c hc => hg c (ih hgs c hc)

end Each

end Block

/-- The controls of a modifier are at least one, and their number is a 64-bit one. -/
def Applied.Counted : Applied → Prop
  | .control _ args => 1 ≤ args.length ∧ args.length < Nat.pow 2 63
  | _ => True

def Applied.isControl : Applied → Bool
  | control _ _ => true
  | _ => false

/-- What only controls contribute to is the same without the other modifiers. -/
theorem Applied.flatMap_filter_control {α : Type} (f : Applied → List α)
    (hinverse : f .inverse = []) (hpower : ∀ k, f (.power k) = []) (as : List Applied) :
    (as.filter isControl).flatMap f = as.flatMap f := by
  induction as with
  | nil => rfl
  | cons a as ih =>
      cases a with
      | control on args =>
          rw [List.filter_cons_of_pos rfl, List.flatMap_cons, List.flatMap_cons, ih]
      | inverse => rw [List.flatMap_cons, hinverse, List.nil_append, ← ih]; rfl
      | power k => rw [List.flatMap_cons, hpower, List.nil_append, ← ih]; rfl

/-- The names of control qubits in a row. -/
def controlNames (start count : Nat) : List Expr :=
  (List.range count).map fun i => .ident (controlName (start + i))

/-- The controls that modifiers add to a body, with the names of their qubits. -/
def Applied.groups (start : Nat) : List Applied → List (Modifier × List Expr)
  | [] => []
  | .control on args :: as =>
      (controlModifier (if on then .ctrl else .negctrl) args.length,
        controlNames start args.length) :: groups (start + args.length) as
  | _ :: as => groups start as

/-- The controls that are added come as modifiers with the names of so many qubits. -/
theorem Applied.of_mem_groups {start : Nat} {as : List Applied} {g : Modifier × List Expr}
    (hg : g ∈ groups start as) : ∃ (on : Bool) (k n : Nat),
      g = (controlModifier (if on then .ctrl else .negctrl) n, controlNames k n) := by
  induction as generalizing start with
  | nil => cases hg
  | cons a as ih =>
      cases a with
      | inverse => exact ih hg
      | power k => exact ih hg
      | control on args =>
          rcases List.mem_cons.1 hg with rfl | hg
          · exact ⟨on, start, args.length, rfl⟩
          · exact ih hg

namespace Scope

variable {R : Type} [Scalar R]

/-- The number of controls that each modifier takes, once its arguments are there. -/
theorem countControls_cons_ok_iff {s : Scope R} {m : Modifier} {ms : List Modifier}
    {counted : List (Modifier × Nat)} :
    s.countControls (m :: ms) = .ok counted ↔ ∃ n counted',
      (m.isControl = true ∧ s.controlCount m = .ok n ∨ m.isControl = false ∧ n = 0) ∧
      s.countControls ms = .ok counted' ∧ counted = (m, n) :: counted' := by
  rw [countControls, mapM_cons_ok_iff]
  constructor
  · rintro ⟨b, counted', hb, hcounted, rfl⟩
    cases hm : m.isControl with
    | true =>
        simp only [hm, if_true, bind_ok_iff, pure_ok_iff] at hb
        obtain ⟨n, hn, rfl⟩ := hb
        exact ⟨n, counted', .inl ⟨rfl, hn⟩, hcounted, rfl⟩
    | false =>
        simp only [hm, Bool.false_eq_true, if_false, pure_ok_iff] at hb
        subst hb
        exact ⟨0, counted', .inr ⟨rfl, rfl⟩, hcounted, rfl⟩
  · rintro ⟨n, counted', ⟨hm, hn⟩ | ⟨hm, rfl⟩, hcounted, rfl⟩
    · refine ⟨(m, n), counted', ?_, hcounted, rfl⟩
      simp only [hm, if_true, bind_ok_iff, pure_ok_iff]
      exact ⟨n, hn, rfl⟩
    · refine ⟨(m, 0), counted', ?_, hcounted, rfl⟩
      simp only [hm, Bool.false_eq_true, if_false, pure_ok_iff]

/-- Counting their controls keeps the modifiers. -/
theorem mem_of_countControls {s : Scope R} {ms : List Modifier} {counted : List (Modifier × Nat)}
    (h : s.countControls ms = .ok counted) : ∀ c ∈ counted, c.1 ∈ ms := by
  induction ms generalizing counted with
  | nil =>
      obtain rfl := mapM_nil_ok_iff.1 h
      exact fun c hc => absurd hc List.not_mem_nil
  | cons m ms ih =>
      obtain ⟨n, rest, -, hrest, rfl⟩ := countControls_cons_ok_iff.1 h
      refine List.forall_mem_cons.2 ⟨List.mem_cons_self, fun c hc => ?_⟩
      exact List.mem_cons_of_mem m (ih hrest c hc)

theorem singleQubit_ok_iff {s : Scope R} {e : Expr} {q : QubitId} :
    s.singleQubit e = .ok q ↔ s.qubitsOf e = .ok [q] := by
  rw [singleQubit, bind_ok_iff]
  constructor
  · rintro ⟨qs, hqs, h⟩
    rw [hqs]
    split at h
    · cases h
      rfl
    · cases h
  · intro h
    exact ⟨[q], h, rfl⟩

theorem mapM_singleQubit_ok_iff {s : Scope R} {es : List Expr} {qs : List QubitId} :
    es.mapM s.singleQubit = .ok qs ↔ es.mapM s.qubitsOf = .ok (qs.map fun q => [q]) := by
  induction es generalizing qs with
  | nil => simp only [mapM_nil_ok_iff, List.map_eq_nil_iff]
  | cons e es ih =>
      simp only [mapM_cons_ok_iff, singleQubit_ok_iff, ih]
      constructor
      · rintro ⟨q, qs', hq, hqs, rfl⟩
        exact ⟨[q], qs'.map fun q => [q], hq, hqs, rfl⟩
      · rintro ⟨v, vs, hv, hvs, heq⟩
        cases qs with
        | nil => cases heq
        | cons q qs =>
            obtain ⟨rfl, rfl⟩ := List.cons.inj heq
            exact ⟨q, qs, hv, hvs, rfl⟩

/-- The body for one more modifier, from the body for those inside it. -/
theorem modifyBody_cons_ok {s : Scope R} {gate : GateDef} {limit start n : Nat} {m : Modifier}
    {counted : List (Modifier × Nat)} {body : Block}
    (h : s.modifyBody gate limit start ((m, n) :: counted) = .ok body) :
    ∃ b, s.modifyBody gate limit (start + n) counted = .ok b ∧
      (m.kind = .inv ∧ body = b.inv ∨
        (∃ k, m.kind = .pow ∧ s.exponent m = .ok k ∧
          body = if k.toInt < 0 then b.inv.pow k.toInt.natAbs else b.pow k.toInt.natAbs) ∨
        m.isControl = true ∧ body = b.add (controlModifier m.kind n) (controlNames start n)) := by
  rw [modifyBody, bind_ok_iff] at h
  obtain ⟨b, hb, h⟩ := h
  refine ⟨b, hb, ?_⟩
  split at h
  · rename_i hkind
    cases h
    exact .inl ⟨hkind, rfl⟩
  · rename_i hkind
    obtain ⟨k, hk, h⟩ := bind_ok_iff.1 h
    dsimp only at h
    split at h
    · cases h
    · cases h
      exact .inr (.inl ⟨k, hkind, hk, rfl⟩)
  · rename_i hinv hpow
    cases h
    refine .inr (.inr ⟨?_, rfl⟩)
    rw [Modifier.isControl]
    cases hkind : m.kind with
    | ctrl => rfl
    | negctrl => rfl
    | inv => exact absurd hkind hinv
    | pow => exact absurd hkind hpow

theorem groups_control {m : Modifier} (hm : m.isControl = true) (start : Nat)
    (args : List (List QubitId)) (as : List Applied) :
    Applied.groups start (.control (m.kind = .ctrl) args :: as) =
      (controlModifier m.kind args.length, controlNames start args.length) ::
        Applied.groups (start + args.length) as := by
  obtain ⟨kind, arg⟩ := m
  cases kind with
  | ctrl => rfl
  | negctrl => rfl
  | inv => cases hm
  | pow => cases hm

/-- The body for a modifier that takes no controls. -/
theorem turned_of_modifyBody {s : Scope R} {m : Modifier} (hm : m.isControl = false)
    {b body : Block} {start n : Nat} {as : List Applied} {original : Block}
    (hb : b = (Block.turned as original).addAll (Applied.groups start as))
    (hshape : m.kind = .inv ∧ body = b.inv ∨
      (∃ k, m.kind = .pow ∧ s.exponent m = .ok k ∧
        body = if k.toInt < 0 then b.inv.pow k.toInt.natAbs else b.pow k.toInt.natAbs) ∨
      m.isControl = true ∧ body = b.add (controlModifier m.kind n) (controlNames start n))
    (qs : List Expr) :
    ∃ a, s.resolveModifier m qs = .ok a ∧ a.args = [] ∧ a.Counted ∧
      body = (Block.turned (a :: as) original).addAll (Applied.groups start (a :: as)) := by
  subst hb
  rcases hshape with ⟨hkind, rfl⟩ | ⟨k, hkind, hk, rfl⟩ | ⟨hcontrol, -⟩
  · refine ⟨.inverse, by rw [resolveModifier, hkind], rfl, trivial, ?_⟩
    exact Block.inv_addAll _ _
  · refine ⟨.power k.toInt, ?_, rfl, trivial, ?_⟩
    · rw [resolveModifier, hkind]
      exact bind_ok_iff.2 ⟨k, hk, rfl⟩
    · rw [Block.turned]
      split
      · rw [Block.inv_addAll, Block.pow_addAll]
        rfl
      · rw [Block.pow_addAll]
        rfl
  · rw [hm] at hcontrol
    cases hcontrol

/-- The body for a modifier that takes controls. -/
theorem controlled_of_modifyBody {s : Scope R} {m : Modifier} (hm : m.isControl = true)
    {b body : Block} {start n : Nat} {as : List Applied} {original : Block} {qs : List Expr}
    {own : List QubitId} (hn : s.controlCount m = .ok n)
    (hown : (qs.take n).mapM s.singleQubit = .ok own) (hlen : own.length = n)
    (hb : b = (Block.turned as original).addAll (Applied.groups (start + n) as))
    (hshape : m.kind = .inv ∧ body = b.inv ∨
      (∃ k, m.kind = .pow ∧ s.exponent m = .ok k ∧
        body = if k.toInt < 0 then b.inv.pow k.toInt.natAbs else b.pow k.toInt.natAbs) ∨
      m.isControl = true ∧ body = b.add (controlModifier m.kind n) (controlNames start n)) :
    ∃ a, s.resolveModifier m qs = .ok a ∧ a.args = own.map (fun q => [q]) ∧ a.Counted ∧
      body = (Block.turned (a :: as) original).addAll (Applied.groups start (a :: as)) := by
  have hcount : (own.map fun q => [q]).length = n := by rw [List.length_map, hlen]
  refine ⟨.control (m.kind = .ctrl) (own.map fun q => [q]), ?_, rfl, ?_, ?_⟩
  · exact (resolveModifier_control hm).2 ⟨n, _, hn, mapM_singleQubit_ok_iff.1 hown, rfl⟩
  · rw [Applied.Counted, hcount]
    exact controlCount_bounds hn
  · subst hb
    rw [groups_control hm, hcount]
    rcases hshape with ⟨hkind, -⟩ | ⟨k, hkind, -⟩ | ⟨-, rfl⟩
    · rw [Modifier.isControl, hkind] at hm
      cases hm
    · rw [Modifier.isControl, hkind] at hm
      cases hm
    · rfl

def totalControls (counted : List (Modifier × Nat)) : Nat := counted.foldr (fun c n => c.2 + n) 0

/-- If the controls of a call are single qubits and its body can be transformed, its
modifiers resolve, and the body is turned as they ask for and gets their controls. -/
theorem applied_of_modifyBody {s : Scope R} {gate : GateDef} {limit : Nat} {ms : List Modifier}
    {counted : List (Modifier × Nat)} {start : Nat} {qs : List Expr} {controls : List QubitId}
    {body : Block} (hcount : s.countControls ms = .ok counted)
    (hlen : totalControls counted ≤ qs.length)
    (hcontrols : (qs.take (totalControls counted)).mapM s.singleQubit = .ok controls)
    (hbody : s.modifyBody gate limit start counted = .ok body) :
    ∃ as, s.applied ms qs = .ok as ∧ as.flatMap Applied.args = controls.map (fun q => [q]) ∧
      (∀ a ∈ as, a.Counted) ∧
      body = (Block.turned as gate.body).addAll (Applied.groups start as) := by
  induction ms generalizing counted start qs controls body with
  | nil =>
      obtain rfl : counted = [] := mapM_nil_ok_iff.1 hcount
      cases hbody
      cases hcontrols
      exact ⟨[], rfl, rfl, by simp, rfl⟩
  | cons m ms ih =>
      obtain ⟨n, counted', hn, hcount', rfl⟩ := countControls_cons_ok_iff.1 hcount
      obtain ⟨b, hb, hshape⟩ := modifyBody_cons_ok hbody
      have htotal : totalControls ((m, n) :: counted') = n + totalControls counted' := rfl
      rw [htotal] at hlen hcontrols
      have hsplit : qs.take (n + totalControls counted') =
          qs.take n ++ (qs.drop n).take (totalControls counted') := List.take_add
      rw [hsplit] at hcontrols
      obtain ⟨own, others, hown, hothers, rfl⟩ := mapM_append_ok_iff.1 hcontrols
      have hownlen : own.length = n := by
        rw [length_of_mapM hown, List.length_take]
        omega
      obtain ⟨as, has, hargs, hcounts, rfl⟩ :=
        ih hcount' (by rw [List.length_drop]; omega) hothers hb
      have hmodifier : ∃ a, s.resolveModifier m qs = .ok a ∧ a.args = own.map (fun q => [q]) ∧
          a.Counted ∧ body =
            (Block.turned (a :: as) gate.body).addAll (Applied.groups start (a :: as)) := by
        rcases hn with ⟨hm, hn⟩ | ⟨hm, rfl⟩
        · exact controlled_of_modifyBody hm hn hown hownlen rfl hshape
        · obtain rfl := List.eq_nil_of_length_eq_zero hownlen
          exact turned_of_modifyBody hm rfl hshape qs
      obtain ⟨a, ha, hown', hcounted, hturned⟩ := hmodifier
      refine ⟨a :: as, applied_cons_ok_iff.2 ⟨a, as, ha, ?_, rfl⟩, ?_,
        List.forall_mem_cons.2 ⟨hcounted, hcounts⟩, hturned⟩
      · rwa [hown', List.length_map, hownlen]
      · rw [List.flatMap_cons, hown', hargs, List.map_append]

end Scope

end OpenQasm
