import Mathlib.Logic.Function.Iterate
import OpenQasm.Proofs.BitAssignment

/-!
# Two readings of an expression

An expression that is stored, returned or passed on is read as a value, which may be a string
of bits. Within parentheses, as an operand and in declarations it is folded to a constant. Read
as a number, its value is the constant, unless the expression is a name that is bound to a bit
register of the scope and to a scalar as well, of this scope or one further out. As a value such
a name is the register, and when it is folded it is the scalar, so that parentheses around it
change what is stored. Around any other expression parentheses change no number.
-/
namespace OpenQasm

variable {R B α β : Type}

/-! Runs that may fail in different ways -/

/-- Two runs that end alike, unless one of them fails. -/
def EndAlike {ε σ α : Type} (x y : Except ε α × σ) : Prop :=
  ∀ a b, x.1 = .ok a → y.1 = .ok b → a = b ∧ x.2 = y.2

namespace EndAlike

variable {ε σ : Type}

theorem refl (x : Except ε α × σ) : EndAlike x x := by
  intro a b ha hb
  rw [ha] at hb
  exact ⟨Except.ok.inj hb, rfl⟩

theorem of_error {x y : Except ε α × σ} {e : ε} (h : y.1 = .error e) : EndAlike x y := by
  intro a b _ hb
  rw [h] at hb
  cases hb

/-- What is done after runs that end alike. -/
theorem bind {x y : ExceptT ε (StateM σ) α} {f g : α → ExceptT ε (StateM σ) β} {s : σ}
    (hxy : EndAlike (x s) (y s)) (hfg : ∀ a s', EndAlike (f a s') (g a s')) :
    EndAlike ((x >>= f) s) ((y >>= g) s) := by
  rw [run_bind, run_bind]
  rcases hx : x s with ⟨_ | a, s₁⟩
  · intro _ _ ha _
    cases ha
  rcases hy : y s with ⟨_ | b, s₂⟩
  · exact of_error rfl
  rw [hx, hy] at hxy
  obtain ⟨rfl, hstate⟩ := hxy a b rfl rfl
  obtain rfl : s₁ = s₂ := hstate
  exact hfg a s₁

end EndAlike

variable [Scalar R]

/-! Values -/

omit [Scalar R] in
/-- A value that reads as a constant is stored as bits like the constant. -/
theorem Value.toBits_of_toConst {v : Value R} {c : Const R} {len : Nat} {bs bs' : List Bool}
    (hc : v.toConst = .ok c) (h : v.toBits len = .ok bs)
    (h' : (Value.const c).toBits len = .ok bs') : bs = bs' := by
  cases v with
  | none => cases hc
  | const c' =>
      cases hc
      rw [h] at h'
      exact Except.ok.inj h'
  | bits register =>
      obtain ⟨hshort, rfl⟩ := toConst_bits_ok_iff.1 hc
      obtain ⟨rfl, rfl⟩ := toBits_bits_ok_iff.1 h
      obtain ⟨-, rfl⟩ := toBits_int_ok_iff.1 h'
      have hint : (Int64.ofNat (bitsValue register)).toInt = bitsValue register :=
        toInt_ofNat (Nat.lt_of_lt_of_le (bitsValue_lt register)
          (Nat.pow_le_pow_right Nat.two_pos hshort))
      rw [hint, Int.toNat_natCast, bitsOf_bitsValue]

namespace Scope

variable {s t t' : Scope R} {v : Value R} {c : Const R}

theorem assign_of_toConst (hc : v.toConst = .ok c) {target : Expr} (h : s.assign target v = .ok t)
    (h' : s.assign target (.const c) = .ok t') : t = t' := by
  obtain ⟨name, index, href, hcases⟩ := assign_ok_iff.1 h
  cases hget : s.bits.get? name with
  | some register =>
      obtain ⟨stored, hstored, rfl⟩ := (assign_bits_ok_iff href hget).1 h
      obtain ⟨stored', hstored', rfl⟩ := (assign_bits_ok_iff href hget).1 h'
      cases index with
      | none => rw [Value.toBits_of_toConst hc hstored hstored']
      | some i =>
          obtain ⟨k, b, hk, hb, rfl⟩ := storeBits_index_ok_iff.1 hstored
          obtain ⟨k', b', hk', hb', rfl⟩ := storeBits_index_ok_iff.1 hstored'
          cases hk.symm.trans hk'
          cases Value.toBits_of_toConst hc hb hb'
          rfl
  | none =>
      have hsame : s.assign target v = s.assign target (.const c) := by
        unfold assign
        rw [href, ok_bind, ok_bind]
        dsimp only
        rw [hget, hc]
        rfl
      rw [← hsame, h] at h'
      exact Except.ok.inj h'

/-- In a variable just the number matters. -/
theorem assign_variable {name : String} (hget : s.bits.get? name = none)
    (hvariable : s.isVariable name = true) :
    s.assign (.ident name) v = v.toConst >>= s.setVariable name := by
  have href : s.reference (.ident name) = .ok (name, none) := rfl
  unfold assign
  rw [href, ok_bind]
  dsimp only
  rw [hget]
  simp [hvariable]

theorem convertResult_of_toConst (hc : v.toConst = .ok c) {d : SubroutineDef} {w w' : Value R}
    (h : s.convertResult d v = .ok w) (h' : s.convertResult d (.const c) = .ok w') :
    w.toConst = w'.toConst ∧ (d.result ≠ none → w = w') := by
  unfold convertResult at h h'
  cases hresult : d.result with
  | none =>
      rw [hresult] at h h'
      cases h
      cases h'
      exact ⟨hc, fun hne => absurd rfl hne⟩
  | some type =>
      rw [hresult] at h h'
      dsimp only at h h'
      suffices hsame : w = w' from ⟨by rw [hsame], fun _ => hsame⟩
      cases hkind : type.kind with
      | bit =>
          rw [hkind] at h h'
          obtain ⟨n, hn, hwritten⟩ := bind_ok_iff.1 h
          obtain ⟨bs, hbs, hw⟩ := bind_ok_iff.1 hwritten
          obtain ⟨n', hn', hwritten'⟩ := bind_ok_iff.1 h'
          obtain ⟨bs', hbs', hw'⟩ := bind_ok_iff.1 hwritten'
          obtain rfl : n = n' := Except.ok.inj (hn.symm.trans hn')
          rw [← Except.ok.inj hw, ← Except.ok.inj hw', Value.toBits_of_toConst hc hbs hbs']
      | qubit =>
          rw [hkind] at h
          cases h
      | _ =>
          rw [hkind] at h h'
          dsimp only at h h'
          rw [hc] at h
          exact Except.ok.inj (h.symm.trans h')

/-! Reading an expression -/

/-- The value of an expression that is neither a call nor a measurement: bits for a name of bits,
and otherwise the constant it folds to. -/
def read (s : Scope R) (e : Expr) : Except EvalError (Value R) :=
  match e with
  | .ident name | .index name _ =>
      if s.bits.contains name then do return .bits (← s.bitsOf e)
      else do return .const (← s.fold e)
  | _ => do return .const (← s.fold e)

/-- A name of a bit register that stands for a scalar as well, here or further out, and not for
the number in the register. -/
def Clashes (s : Scope R) (name : String) : Prop :=
  ∃ register c, s.bits.get? name = some register ∧ s.const? name = some c ∧
    (Value.bits register).toConst ≠ .ok c

/-- An expression that is read in two ways. -/
def Ambiguous (s : Scope R) (e : Expr) : Prop := ∃ name, e = .ident name ∧ s.Clashes name

theorem read_paren (s : Scope R) (e : Expr) :
    s.read (.paren e) = do return .const (← s.fold e) := rfl

theorem read_ident {name : String} {register : List Bool}
    (hget : s.bits.get? name = some register) : s.read (.ident name) = .ok (.bits register) := by
  have hcontains : s.bits.contains name = true := by rw [Table.contains, hget]; rfl
  have hbits : s.bitsOf (.ident name) = .ok register := by
    change s.bits.select name none = .ok register
    rw [RegisterTable.select, hget]
  rw [read, if_pos hcontains, hbits]
  rfl

/-- Unless an expression is ambiguous, its value is the constant it folds to. -/
theorem read_toConst {e : Expr} (h : ¬s.Ambiguous e) : s.read e >>= Value.toConst = s.fold e := by
  have hfold : (do return Value.const (← s.fold e)) >>= Value.toConst = s.fold e := by
    cases s.fold e <;> rfl
  cases e with
  | ident name =>
      cases hget : s.bits.get? name with
      | none =>
          have hcontains : s.bits.contains name = false := by rw [Table.contains, hget]; rfl
          rw [read, hcontains]
          exact hfold
      | some register =>
          have hcontains : s.bits.contains name = true := by rw [Table.contains, hget]; rfl
          rw [read_ident hget, fold]
          change (Value.bits register).toConst = _
          cases hconst : s.const? name with
          | some c =>
              by_contra hne
              exact h ⟨name, rfl, register, c, hget, hconst, hne⟩
          | none =>
              dsimp only
              rw [if_pos hcontains, RegisterTable.select, hget]
              rfl
  | index name position =>
      rw [read]
      split
      · rw [fold, bitsOf, reference]
        simp only [bind_assoc, pure_bind]
      · exact hfold
  | lit l => exact hfold
  | binary op l r => exact hfold
  | unary op e => exact hfold
  | paren e => exact hfold
  | call name ms ps qs => exact hfold
  | measure qs => exact hfold

/-- Parentheses do not matter where an expression is folded. -/
theorem fold_parens (s : Scope R) (e : Expr) (k : Nat) : s.fold (Expr.paren^[k] e) = s.fold e := by
  induction k with
  | zero => rfl
  | succ k ih => rw [Function.iterate_succ_apply', fold, ih]

theorem read_parens (s : Scope R) (e : Expr) (k : Nat) :
    s.read (Expr.paren^[k + 1] e) = do return .const (← s.fold e) := by
  rw [Function.iterate_succ_apply', read_paren, fold_parens]

/-- In parentheses an expression is read as the number that it has without them. -/
theorem toConst_of_read {e : Expr} (h : ¬s.Ambiguous e) {k : Nat} {v' : Value R}
    (hv : s.read e = .ok v) (hv' : s.read (Expr.paren^[k + 1] e) = .ok v') :
    ∃ c, v' = .const c ∧ v.toConst = .ok c := by
  rw [read_parens] at hv'
  obtain ⟨c, hc, hconst⟩ := bind_ok_iff.1 hv'
  have hread := s.read_toConst h
  rw [hv, hc] at hread
  exact ⟨c, (Except.ok.inj hconst).symm, hread⟩

end Scope

/-! Running an expression -/

variable [Backend R B]

namespace Run

variable (config : Config) (deeper : Option (BodyRunner R B)) (s : Scope R)

/-- The value of an expression as a number. -/
def scalar (e : Expr) : Run R B (Const R) := do (← value config deeper s e).toConst

variable {s}

theorem value_eq_read {e : Expr} (he : e.isAction = false) (m : Machine R B) :
    value config deeper s e m = (s.read e, m) := by
  have hfold : ∀ e : Expr,
      (do return .const (← s.fold e) : Run R B (Value R)) m =
        (do return .const (← s.fold e), m) := by
    intro e
    cases s.fold e <;> rfl
  have hbits : ∀ e : Expr,
      (do return .bits (← s.bitsOf e) : Run R B (Value R)) m =
        (do return .bits (← s.bitsOf e), m) := by
    intro e
    cases s.bitsOf e <;> rfl
  cases e with
  | measure qs => cases he
  | call name ms ps qs => cases he
  | ident name | index name position =>
      rw [value, Scope.read]
      split
      · exact hbits _
      · exact hfold _
  | _ =>
      rw [value]
      exact hfold _

theorem scalar_eq_read {e : Expr} (he : e.isAction = false) (m : Machine R B) :
    scalar config deeper s e m = (s.read e >>= Value.toConst, m) := by
  rw [scalar, run_bind, value_eq_read config deeper he]
  cases s.read e with
  | error err => rfl
  | ok v =>
      change (liftM v.toConst : Run R B (Const R)) m = (v.toConst, m)
      cases v.toConst <;> rfl

omit [Scalar R] [Backend R B] in
theorem isAction_parens (e : Expr) (k : Nat) : (Expr.paren^[k + 1] e).isAction = false := by
  rw [Function.iterate_succ_apply']
  rfl

variable {config deeper}

/-- What is made of a value is the same with parentheses, if it is the same for a value and the
constant that the value reads as. -/
theorem endAlike_value {e : Expr} (he : e.isAction = false) (h : ¬s.Ambiguous e) (k : Nat)
    {f : Value R → Run R B α}
    (hf : ∀ v c, v.toConst = .ok c → ∀ m, EndAlike (f v m) (f (.const c) m)) (m : Machine R B) :
    EndAlike ((value config deeper s e >>= f) m)
      ((value config deeper s (Expr.paren^[k + 1] e) >>= f) m) := by
  rw [run_bind, run_bind, value_eq_read config deeper he,
    value_eq_read config deeper (isAction_parens e k)]
  cases hv : s.read e with
  | error err =>
      intro _ _ ha _
      cases ha
  | ok v =>
      cases hv' : s.read (Expr.paren^[k + 1] e) with
      | error err => exact EndAlike.of_error rfl
      | ok v' =>
          obtain ⟨c, rfl, hc⟩ := Scope.toConst_of_read h hv hv'
          exact hf v c hc m

/-- The arguments after one that is evaluated alike. -/
theorem endAlike_arguments_tail {p : TypedName} {ps : List TypedName} {e : Expr}
    {es es' : List Expr}
    (h : ∀ m, EndAlike (arguments config deeper s ps es m) (arguments config deeper s ps es' m))
    (m : Machine R B) :
    EndAlike (arguments config deeper s (p :: ps) (e :: es) m)
      (arguments config deeper s (p :: ps) (e :: es') m) := by
  have hrest : ∀ (arg : Arg R) m,
      EndAlike ((do return arg :: (← arguments config deeper s ps es) : Run R B _) m)
        ((do return arg :: (← arguments config deeper s ps es') : Run R B _) m) :=
    fun arg m => EndAlike.bind (h m) fun args m' => .refl _
  rw [arguments, arguments]
  cases p.type.kind with
  | qubit =>
      refine EndAlike.bind (.refl _) fun qs m => EndAlike.bind (.refl _) fun size m => ?_
      dsimp only
      split
      · exact EndAlike.of_error rfl
      · exact hrest _ m
  | bit =>
      refine EndAlike.bind (.refl _) fun size m => EndAlike.bind (.refl _) fun v m => ?_
      exact EndAlike.bind (.refl _) fun bs m => hrest _ m
  | _ =>
      refine EndAlike.bind (.refl _) fun v m => EndAlike.bind (.refl _) fun c m => ?_
      exact EndAlike.bind (.refl _) fun c' m => hrest _ m

theorem endAlike_arguments_head {e : Expr} (he : e.isAction = false) (h : ¬s.Ambiguous e) (k : Nat)
    (p : TypedName) (ps : List TypedName) (es : List Expr) (m : Machine R B) :
    EndAlike (arguments config deeper s (p :: ps) (e :: es) m)
      (arguments config deeper s (p :: ps) (Expr.paren^[k + 1] e :: es) m) := by
  rw [arguments, arguments]
  cases p.type.kind with
  | qubit =>
      rw [Function.iterate_succ_apply']
      exact EndAlike.of_error rfl
  | bit =>
      refine EndAlike.bind (.refl _) fun size m => endAlike_value he h k (fun v c hc m => ?_) m
      refine EndAlike.bind (fun bs bs' hbs hbs' => ?_) fun bs m => .refl _
      obtain ⟨hbs, hstate⟩ := ran_lift.1 (Prod.ext hbs rfl)
      obtain ⟨hbs', hstate'⟩ := ran_lift.1 (Prod.ext hbs' rfl)
      exact ⟨Value.toBits_of_toConst hc hbs hbs', hstate.symm.trans hstate'⟩
  | _ =>
      refine endAlike_value he h k (fun v c hc m => ?_) m
      dsimp only
      rw [hc]
      exact .refl _

/-- One argument of many. -/
theorem endAlike_arguments {e : Expr} (he : e.isAction = false) (h : ¬s.Ambiguous e) (k : Nat)
    (before after : List Expr) (params : List TypedName) (m : Machine R B) :
    EndAlike (arguments config deeper s params (before ++ e :: after) m)
      (arguments config deeper s params (before ++ Expr.paren^[k + 1] e :: after) m) := by
  induction before generalizing params m with
  | nil =>
      cases params with
      | nil =>
          rw [List.nil_append, List.nil_append, arguments, arguments]
          exact .refl _
      | cons p ps => exact endAlike_arguments_head he h k p ps after m
  | cons b before ih =>
      cases params with
      | nil =>
          rw [List.cons_append, List.cons_append, arguments, arguments]
          exact .refl _
      | cons p ps => exact endAlike_arguments_tail (fun m => ih ps m) m

end Run

/-! Statements -/

/-- The two ways to write an assignment. -/
def Stmt.stores (target : Expr) : List (Expr → Stmt) := [.assign target, fun e => .arrow e target]

namespace Exec

variable {config : Config} {deeper : Option (BodyRunner R B)} {s : Scope R} {e : Expr}

theorem store_eq (target : Expr) {store : Expr → Stmt} (hstore : store ∈ Stmt.stores target)
    (he : e.isAction = false) (m : Machine R B) :
    stmt config deeper (store e) (s, m) =
      match s.read e >>= s.assign target with
      | .ok t => (.ok done, (t, m))
      | .error err => (.error err, (s, m)) := by
  have hsame : stmt config deeper (store e) = stmt config deeper (.assign target e) := by
    simp only [Stmt.stores, List.mem_cons, List.not_mem_nil, or_false] at hstore
    rcases hstore with rfl | rfl
    · rfl
    · rw [stmt, stmt]
  have hvalue := Run.value_eq_read config deeper (s := s) he m
  rw [hsame]
  cases hread : s.read e with
  | ok v =>
      rw [hread] at hvalue
      exact assign_of_value hvalue target
  | error err =>
      have hfails : ofRun (fun s => Run.value config deeper s e) (s, m) = (.error err, (s, m)) := by
        rw [ofRun, hvalue, hread]
      rw [stmt, run_bind, hfails]
      rfl

theorem returns_eq (he : e.isAction = false) (m : Machine R B) :
    stmt config deeper (.returns (some e)) (s, m) = (Flow.returned <$> s.read e, (s, m)) := by
  have hread : ofRun (fun s => Run.value config deeper s e) (s, m) = (s.read e, (s, m)) := by
    rw [ofRun, Run.value_eq_read config deeper he]
  rw [stmt, run_bind, hread]
  cases s.read e <;> rfl

end Exec

/-- Two expressions that denote the same number wherever one is used. A register of bits is
stored in as many bits and may be too long for a number, so one of them may fail where the other
one does not. -/
structure SameScalar (config : Config) (deeper : Option (BodyRunner R B)) (s : Scope R)
    (e e' : Expr) : Prop where
  scalar : ∀ m : Machine R B, Run.scalar config deeper s e' m = Run.scalar config deeper s e m
  stored : ∀ target, ∀ store ∈ Stmt.stores target, ∀ m : Machine R B,
    EndAlike (Exec.stmt config deeper (store e) (s, m)) (Exec.stmt config deeper (store e') (s, m))
  /-- For a variable even the errors are the same. -/
  storedScalar : ∀ name, s.bits.get? name = none → s.isVariable name = true →
    ∀ store ∈ Stmt.stores (.ident name), ∀ m : Machine R B,
      Exec.stmt config deeper (store e') (s, m) = Exec.stmt config deeper (store e) (s, m)
  /-- The results are the same number, and the same if they are converted to a declared type. -/
  returned : ∀ (m : Machine R B) (flow flow' : Flow R) (p p' : Scope R × Machine R B),
    Exec.stmt config deeper (.returns (some e)) (s, m) = (.ok flow, p) →
    Exec.stmt config deeper (.returns (some e')) (s, m) = (.ok flow', p') →
    p = p' ∧ ∃ v v', flow = .returned v ∧ flow' = .returned v' ∧ v.toConst = v'.toConst ∧
      ∀ (final : Scope R) (d : SubroutineDef) (w w' : Value R),
        final.convertResult d v = .ok w → final.convertResult d v' = .ok w' →
        w.toConst = w'.toConst ∧ (d.result ≠ none → w = w')
  passed : ∀ before after params (m : Machine R B),
    EndAlike (Run.arguments config deeper s params (before ++ e :: after) m)
      (Run.arguments config deeper s params (before ++ e' :: after) m)

section Readers

variable {config : Config} {deeper : Option (BodyRunner R B)} {s : Scope R} {e : Expr}

/-- Parentheses around an expression that is not ambiguous. -/
theorem sameScalar_parens (he : e.isAction = false) (h : ¬s.Ambiguous e) (k : Nat) :
    SameScalar config deeper s e (Expr.paren^[k + 1] e) where
  scalar m := by
    rw [Run.scalar_eq_read config deeper he,
      Run.scalar_eq_read config deeper (Run.isAction_parens e k), s.read_toConst h, s.read_parens]
    cases s.fold e <;> rfl
  stored target store hstore m := by
    rw [Exec.store_eq target hstore he, Exec.store_eq target hstore (Run.isAction_parens e k)]
    cases ht : s.read e >>= s.assign target with
    | error err =>
        intro _ _ hok _
        cases hok
    | ok t =>
        cases ht' : s.read (Expr.paren^[k + 1] e) >>= s.assign target with
        | error err => exact EndAlike.of_error rfl
        | ok t' =>
            obtain ⟨v, hv, hassign⟩ := bind_ok_iff.1 ht
            obtain ⟨v', hv', hassign'⟩ := bind_ok_iff.1 ht'
            obtain ⟨c, rfl, hc⟩ := Scope.toConst_of_read h hv hv'
            rw [Scope.assign_of_toConst hc hassign hassign']
            exact .refl _
  storedScalar name hget hvariable store hstore m := by
    have hassign : ∀ v, s.assign (.ident name) v = v.toConst >>= s.setVariable name :=
      fun v => Scope.assign_variable hget hvariable
    rw [Exec.store_eq _ hstore he, Exec.store_eq _ hstore (Run.isAction_parens e k),
      funext hassign, ← bind_assoc, ← bind_assoc, s.read_toConst h, s.read_parens]
    cases s.fold e <;> rfl
  returned m flow flow' p p' hreturn hreturn' := by
    rw [Exec.returns_eq he] at hreturn
    rw [Exec.returns_eq (Run.isAction_parens e k)] at hreturn'
    obtain ⟨hflow, rfl⟩ := Prod.mk.inj hreturn
    obtain ⟨hflow', rfl⟩ := Prod.mk.inj hreturn'
    obtain ⟨v, hv, rfl⟩ := map_ok_iff.1 hflow
    obtain ⟨v', hv', rfl⟩ := map_ok_iff.1 hflow'
    obtain ⟨c, rfl, hc⟩ := Scope.toConst_of_read h hv hv'
    exact ⟨rfl, v, .const c, rfl, rfl, hc, fun final d w w' hw hw' =>
      Scope.convertResult_of_toConst hc hw hw'⟩
  passed before after params m := Run.endAlike_arguments he h k before after params m

/-- Take an expression that is neither a call nor a measurement. If its value reads as a number
and it folds to a constant, then the machine is as it was, and the two are the same exactly if
the expression is not the name of a register that also stands for another scalar. If it is no
such name, its value reads as what it folds to, errors included, and parentheses around it do
not change the number that is stored, returned or passed on. -/
theorem readers_agree (config : Config) (deeper : Option (BodyRunner R B)) (s : Scope R)
    {e : Expr} (he : e.isAction = false) :
    (∀ (m m' : Machine R B) (c c' : Const R), Run.scalar config deeper s e m = (.ok c, m') →
      s.fold e = .ok c' → m' = m ∧ (c = c' ↔ ¬s.Ambiguous e)) ∧
    (¬s.Ambiguous e →
      (∀ m : Machine R B, Run.scalar config deeper s e m = (s.fold e, m)) ∧
        ∀ k, SameScalar config deeper s e (Expr.paren^[k + 1] e)) := by
  constructor
  · intro m m' c c' hscalar hfold
    rw [Run.scalar_eq_read config deeper he] at hscalar
    obtain ⟨hread, rfl⟩ := Prod.mk.inj hscalar
    refine ⟨rfl, ?_, fun h => ?_⟩
    · rintro rfl ⟨name, rfl, register, k, hget, hconst, hne⟩
      rw [Scope.read_ident hget] at hread
      rw [Scope.fold, hconst] at hfold
      cases hfold
      exact hne hread
    · rw [s.read_toConst h, hfold] at hread
      exact (Except.ok.inj hread).symm
  · refine fun h => ⟨fun m => ?_, sameScalar_parens he h⟩
    rw [Run.scalar_eq_read config deeper he, s.read_toConst h]

end Readers

/-- A register reads as the same number within parentheses and without them. -/
theorem readers_agree_register :
    let m : Machine Float (Simulator Float) := ⟨Simulator.seeded 0 24, []⟩
    Run.scalar {} none threeBits (.ident "c") m = (.ok (.int 1), m) ∧
      SameScalar {} (none : Option (BodyRunner Float (Simulator Float))) threeBits (.ident "c")
        (.paren (.paren (.ident "c"))) := by
  have hplain : ¬threeBits.Ambiguous (.ident "c") := by
    rintro ⟨name, hname, register, c, -, hconst, -⟩
    cases hname
    cases hconst
  obtain ⟨hscalar, hparens⟩ := (readers_agree (B := Simulator Float) {} none threeBits
    (e := .ident "c") rfl).2 hplain
  exact ⟨hscalar _, hparens 1⟩

def readTwice : List Stmt :=
  [.const none "c" (.lit ⟨.int, "1"⟩),
    .subroutine "f" [] [] (some ⟨.int, none⟩)
      [.declare ⟨⟨.bit, none⟩, "c"⟩, .declare ⟨⟨.int, none⟩, "x"⟩, .declare ⟨⟨.int, none⟩, "y"⟩,
        .assign (.ident "x") (.ident "c"), .assign (.ident "y") (.paren (.ident "c")),
        .returns (some (.binary .sub (.ident "x") (.ident "y")))]]

/-- In the body of the subroutine the name reads as the register, and it folds to the constant. So
the parentheses change the number, and the difference is not zero. -/
theorem constant_hides_register :
    let i := ((Interpreter.simulate (R := Float) {}).stmts readTwice).2
    let body := (i.scope.enclosed "f" []).addBits "c" [false]
    (∃ c c', Run.scalar i.config (bodyRunner? i.config) body (.ident "c") i.machine =
        (.ok c, i.machine) ∧
      body.fold (.ident "c") = .ok c' ∧ c ≠ c') ∧
    ((i.value (.expr (.call "f" [] [] []))).1.map Value.text).toOption = some "-1" := by
  refine ⟨⟨.int 0, .int 1, rfl, rfl, fun h => ?_⟩, by decide +kernel⟩
  exact absurd (Const.int.inj h) (by decide)

end OpenQasm
