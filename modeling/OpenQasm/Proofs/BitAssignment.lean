import OpenQasm.Proofs.BitConversions

/-!
# Assignment to bits

An index counts from the start of a register or, if it is negative, from its end. Writing and
reading normalise it in the same way: both are determined by the one place that an index stands
for. So what is stored in a register or in one place of it is read back there under every index
of the place, everything else stays as it was, and an assignment that fails changes nothing.
-/
namespace OpenQasm

/-! Places -/

/-- Whether a register of `n` elements has a place for an index. -/
def InBounds (n : Nat) (i : Int64) : Prop := -(n : Int) ≤ i.toInt ∧ i.toInt < n

/-- Whether two indices stand for the same place of `n`: they are equal, or one counts from the
start and the other one from the end. -/
def SamePlace (n : Nat) (i j : Int64) : Prop :=
  j.toInt = i.toInt ∨ j.toInt = i.toInt - n ∨ j.toInt = i.toInt + n

instance (n : Nat) (i : Int64) : Decidable (InBounds n i) := inferInstanceAs (Decidable (_ ∧ _))

instance (n : Nat) (i j : Int64) : Decidable (SamePlace n i j) :=
  inferInstanceAs (Decidable (_ ∨ _))

/-- An index has the place that it names from the start or from the end. -/
theorem place?_eq_some_iff {i : Int64} {n k : Nat} :
    place? i n = some k ↔ n < 2 ^ 63 ∧ k < n ∧ (i.toInt = k ∨ i.toInt = (k : Int) - n) := by
  have hpow : Nat.pow 2 63 = 2 ^ 63 := rfl
  simp only [place?, Option.ite_none_right_eq_some, Option.some.injEq, hpow]
  split <;> omega

theorem exists_place? {i : Int64} {n : Nat} :
    (∃ k, place? i n = some k) ↔ n < 2 ^ 63 ∧ InBounds n i := by
  simp only [place?_eq_some_iff, InBounds]
  constructor
  · rintro ⟨k, hn, hk, h⟩
    omega
  · rintro ⟨hn, hle, hlt⟩
    by_cases hneg : i.toInt < 0
    · exact ⟨(i.toInt + n).toNat, hn, by omega, by omega⟩
    · exact ⟨i.toInt.toNat, hn, by omega, by omega⟩

/-- Two indices of the same place have it in common. -/
theorem place?_of_samePlace {i j : Int64} {n k : Nat} (hi : place? i n = some k)
    (hij : SamePlace n i j) (hj : InBounds n j) : place? j n = some k := by
  rw [place?_eq_some_iff] at hi ⊢
  unfold SamePlace at hij
  unfold InBounds at hj
  omega

theorem place?_ne_of_not_samePlace {i j : Int64} {n k : Nat} (hi : place? i n = some k)
    (hij : ¬SamePlace n i j) : place? j n ≠ some k := by
  rw [place?_eq_some_iff] at hi
  rw [Ne, place?_eq_some_iff]
  unfold SamePlace at hij
  omega

variable {R B : Type}

theorem Value.length_toBits {v : Value R} {len : Nat} {bs : List Bool} (h : v.toBits len = .ok bs) :
    bs.length = len := by
  cases v with
  | none => cases h
  | bits bits =>
      obtain ⟨hlen, rfl⟩ := toBits_bits_ok_iff.1 h
      exact hlen
  | const c =>
      cases c with
      | int n =>
          obtain ⟨-, rfl⟩ := toBits_int_ok_iff.1 h
          exact length_bitsOf ..
      | float x => cases h
      | string s => cases h

namespace Scope

variable [Scalar R] {s t : Scope R} {name : String} {register : List Bool} {v : Value R}

/-! What is stored -/

omit [Scalar R] in
theorem storeBits_index_ok_iff {i : Int64} {stored : List Bool} :
    storeBits name register (some i) v = .ok stored ↔
      ∃ k b, place? i register.length = some k ∧ v.toBits 1 = .ok [b] ∧
        stored = register.set k b := by
  unfold storeBits
  dsimp only
  cases hplace : place? i register.length with
  | none => simp
  | some k =>
      dsimp only
      rw [bind_ok_iff]
      constructor
      · rintro ⟨bs, hbs, hset⟩
        obtain ⟨b, rfl⟩ := List.length_eq_one_iff.1 (Value.length_toBits hbs)
        cases hset
        exact ⟨k, b, rfl, hbs, rfl⟩
      · rintro ⟨k', b, hk, hbs, rfl⟩
        cases hk
        exact ⟨[b], hbs, rfl⟩

/-- An assignment to a bit register or one of its elements stores bits. -/
theorem assign_bits_ok_iff {target : Expr} {index : Option Int64}
    (href : s.reference target = .ok (name, index)) (hget : s.bits.get? name = some register) :
    s.assign target v = .ok t ↔
      ∃ stored, storeBits name register index v = .ok stored ∧ t = s.addBits name stored := by
  rw [assign_ok_iff]
  constructor
  · rintro ⟨name', index', href', ⟨register', stored, hget', hstored, rfl⟩ | ⟨hnone, -⟩⟩
    · cases href.symm.trans href'
      cases hget.symm.trans hget'
      exact ⟨stored, hstored, rfl⟩
    · cases href.symm.trans href'
      rw [hget] at hnone
      cases hnone
  · rintro ⟨stored, hstored, rfl⟩
    exact ⟨name, index, href, .inl ⟨register, stored, hget, hstored, rfl⟩⟩

theorem reference_index {position : Expr} {i : Int64} (h : s.fold position = .ok (.int i)) :
    s.reference (.index name position) = .ok (name, some i) := by
  rw [reference, h]
  rfl

theorem assign_index_ok_iff {position : Expr} {i : Int64} (hfold : s.fold position = .ok (.int i))
    (hget : s.bits.get? name = some register) :
    s.assign (.index name position) v = .ok t ↔
      ∃ k b, place? i register.length = some k ∧ v.toBits 1 = .ok [b] ∧
        t = s.addBits name (register.set k b) := by
  rw [assign_bits_ok_iff (reference_index hfold) hget]
  simp only [storeBits_index_ok_iff]
  constructor
  · rintro ⟨stored, ⟨k, b, hk, hb, rfl⟩, rfl⟩
    exact ⟨k, b, hk, hb, rfl⟩
  · rintro ⟨k, b, hk, hb, rfl⟩
    exact ⟨_, ⟨k, b, hk, hb, rfl⟩, rfl⟩

theorem assign_ident_ok_iff (hget : s.bits.get? name = some register) :
    s.assign (.ident name) v = .ok t ↔
      ∃ bs, v.toBits register.length = .ok bs ∧ t = s.addBits name bs := by
  have href : s.reference (.ident name) = .ok (name, none) := rfl
  rw [assign_bits_ok_iff href hget]
  rfl

theorem bitsOf_index {position : Expr} {i : Int64} (h : s.fold position = .ok (.int i)) :
    s.bitsOf (.index name position) = s.bits.select name (some i) := by
  rw [bitsOf, reference_index h]
  rfl

omit [Scalar R] in
/-- `t` is `s` with a bit register rewritten, which keeps its length. -/
structure Rewritten (s : Scope R) (name : String) (old new : List Bool) (t : Scope R) : Prop where
  stored : t.bits.get? name = some new
  length : new.length = old.length
  others : ∀ other, other ≠ name → t.bits.get? other = s.bits.get? other
  names : t.bits.names = s.bits.names
  /-- Qubits, constants, variables with their marks, scopes further out, definitions, the
  chain of calls and the modifiers. -/
  rest : t = { s with bits := t.bits }

omit [Scalar R] in
theorem rewritten_addBits {new : List Bool} (hget : s.bits.get? name = some register)
    (hlen : new.length = register.length) : s.Rewritten name register new (s.addBits name new) where
  stored := by rw [addBits, Table.get?_set, if_pos rfl]
  length := hlen
  others other hother := by rw [addBits, Table.get?_set, if_neg hother]
  names := by
    rw [addBits, Table.names_set, Table.contains, hget]
    rfl
  rest := rfl

/-! What is read -/

omit [Scalar R] in
/-- The place of an element is read back. -/
theorem select_of_place? {i : Int64} {k : Nat} (b : Bool)
    (hget : t.bits.get? name = some (register.set k b)) (hplace : place? i register.length = some k) :
    t.bits.select name (some i) = .ok [b] := by
  have hk : k < register.length := (place?_eq_some_iff.1 hplace).2.1
  rw [RegisterTable.select, hget]
  simp [hplace, hk]

omit [Scalar R] in
/-- The other places are read as before, and so are the indices without a place. -/
theorem select_of_place?_ne {i : Int64} {k : Nat} {b : Bool}
    (hold : s.bits.get? name = some register) (hget : t.bits.get? name = some (register.set k b))
    (hplace : place? i register.length ≠ some k) :
    t.bits.select name (some i) = s.bits.select name (some i) := by
  rw [RegisterTable.select, RegisterTable.select, hget, hold]
  dsimp only
  rw [List.length_set]
  cases hi : place? i register.length with
  | none => rfl
  | some k' =>
      have hne : k ≠ k' := fun heq => hplace (heq ▸ hi)
      simp [List.getElem?_set_ne hne]

end Scope

namespace Exec

variable [Scalar R] [Backend R B] {config : Config} {deeper : Option (BodyRunner R B)}
  {s : Scope R} {name : String} {register : List Bool} {v : Value R} {e : Expr}
  {m m' : Machine R B}

/-- An assignment stores the value of its expression, or fails in the scope it started in. -/
theorem assign_of_value (hvalue : Run.value config deeper s e m = (.ok v, m')) (target : Expr) :
    stmt config deeper (.assign target e) (s, m) =
      match s.assign target v with
      | .ok t => (.ok done, (t, m'))
      | .error err => (.error err, (s, m')) := by
  have hread : ofRun (fun s => Run.value config deeper s e) (s, m) = (.ok v, (s, m')) := by
    rw [ofRun, hvalue]
  rw [stmt, run_bind, hread]
  dsimp only
  rw [run_bind, update]
  cases s.assign target v <;> rfl

/-- An assignment to bits succeeds exactly if its target has a place and the value converts to
as many bits. What was stored is then read back, an element under each of its indices, and all
else stays as it was. An assignment that fails leaves the scope. Registers of `2 ^ 63` elements
and more, which no memory holds, have no places. -/
theorem bit_assignment_reads_back (hget : s.bits.get? name = some register) :
    (∀ (position : Expr) (i : Int64), s.fold position = .ok (.int i) →
      ((∃ t, s.assign (.index name position) v = .ok t) ↔
        (register.length < 2 ^ 63 ∧ InBounds register.length i) ∧ ∃ b, v.toBits 1 = .ok [b]) ∧
      ∀ t, s.assign (.index name position) v = .ok t →
        ∃ b new, v.toBits 1 = .ok [b] ∧ s.Rewritten name register new t ∧
          ∀ (reading : Expr) (j : Int64), t.fold reading = .ok (.int j) →
            (SamePlace register.length i j → InBounds register.length j →
              t.bitsOf (.index name reading) = .ok [b]) ∧
            (¬SamePlace register.length i j →
              t.bitsOf (.index name reading) = s.bits.select name (some j))) ∧
    ((∃ t, s.assign (.ident name) v = .ok t) ↔ ∃ bs, v.toBits register.length = .ok bs) ∧
    (∀ t, s.assign (.ident name) v = .ok t →
      ∃ bs, v.toBits register.length = .ok bs ∧ s.Rewritten name register bs t ∧
        t.bitsOf (.ident name) = .ok bs) ∧
    ∀ (config : Config) (deeper : Option (BodyRunner R B)) (target e : Expr) (c : Stmt)
        (err : EvalError) (m m' : Machine R B),
      c = .assign target e ∨ c = .arrow e target →
      Run.value config deeper s e m = (.ok v, m') → s.assign target v = .error err →
      stmt config deeper c (s, m) = (.error err, (s, m')) := by
  refine ⟨fun position i hfold => ⟨?_, fun t ht => ?_⟩, ?_, fun t ht => ?_, ?_⟩
  · rw [← exists_place?]
    constructor
    · rintro ⟨t, ht⟩
      obtain ⟨k, b, hk, hb, -⟩ := (Scope.assign_index_ok_iff hfold hget).1 ht
      exact ⟨⟨k, hk⟩, b, hb⟩
    · rintro ⟨⟨k, hk⟩, b, hb⟩
      exact ⟨_, (Scope.assign_index_ok_iff hfold hget).2 ⟨k, b, hk, hb, rfl⟩⟩
  · obtain ⟨k, b, hk, hb, rfl⟩ := (Scope.assign_index_ok_iff hfold hget).1 ht
    have hrewritten := Scope.rewritten_addBits hget (register.length_set (i := k) (a := b))
    refine ⟨b, _, hb, hrewritten, fun reading j hj => ?_⟩
    rw [Scope.bitsOf_index hj]
    refine ⟨fun hsame hin => ?_, fun hother => ?_⟩
    · exact Scope.select_of_place? b hrewritten.stored (place?_of_samePlace hk hsame hin)
    · exact Scope.select_of_place?_ne hget hrewritten.stored (place?_ne_of_not_samePlace hk hother)
  · constructor
    · rintro ⟨t, ht⟩
      obtain ⟨bs, hbs, -⟩ := (Scope.assign_ident_ok_iff hget).1 ht
      exact ⟨bs, hbs⟩
    · rintro ⟨bs, hbs⟩
      exact ⟨_, (Scope.assign_ident_ok_iff hget).2 ⟨bs, hbs, rfl⟩⟩
  · obtain ⟨bs, hbs, rfl⟩ := (Scope.assign_ident_ok_iff hget).1 ht
    have hrewritten := Scope.rewritten_addBits hget (Value.length_toBits hbs)
    refine ⟨bs, hbs, hrewritten, ?_⟩
    change RegisterTable.select _ name none = .ok bs
    rw [RegisterTable.select, hrewritten.stored]
  · rintro config deeper target e c err m m' (rfl | rfl) hvalue hassign
    · rw [assign_of_value hvalue, hassign]
    · change stmt config deeper (.assign target e) (s, m) = _
      rw [assign_of_value hvalue, hassign]

end Exec

def threeBits : Scope Float := Scope.root.addBits "c" [false, false, true]

/-- The first bit is set under its index from the end and read under the one from the start.
Two does not fit in a bit. -/
theorem bit_assignment_reads_back_first :
    (∃ t, threeBits.assign (.index "c" (.unary .neg (.lit ⟨.int, "3"⟩))) (.const (.int 1)) = .ok t ∧
      t.bitsOf (.index "c" (.lit ⟨.int, "0"⟩)) = .ok [true]) ∧
    ∃ err, Exec.stmt {} none (.assign (.index "c" (.lit ⟨.int, "0"⟩)) (.lit ⟨.int, "2"⟩))
        (threeBits, ⟨Simulator.seeded 0 24, []⟩) =
      (.error err, (threeBits, ⟨Simulator.seeded (R := Float) 0 24, []⟩)) := by
  have hget : threeBits.bits.get? "c" = some [false, false, true] := rfl
  constructor
  · obtain ⟨hok, hread⟩ := (Exec.bit_assignment_reads_back (B := Simulator Float)
      (v := .const (.int 1)) hget).1 (.unary .neg (.lit ⟨.int, "3"⟩)) (-3) rfl
    obtain ⟨t, ht⟩ := hok.2 ⟨by decide, true, rfl⟩
    obtain ⟨b, new, hb, -, hreads⟩ := hread t ht
    cases hb
    exact ⟨t, ht, (hreads (.lit ⟨.int, "0"⟩) 0 rfl).1 (.inr (.inr (by decide))) (by decide)⟩
  · exact ⟨_, (Exec.bit_assignment_reads_back (B := Simulator Float)
      (v := .const (.int 2)) hget).2.2.2 {} none (.index "c" (.lit ⟨.int, "0"⟩))
      (.lit ⟨.int, "2"⟩) _ _ _ _ (.inl rfl) rfl rfl⟩

end OpenQasm
