import OpenQasm.Proofs.Lockstep.Statements
import OpenQasm.Proofs.Quantum.Simulation

/-!
# Reachable states

What holds of an interpreter on the simulator after any statements and programs, whether
they succeeded or failed. Registers are made of qubits that were allocated, none of them
twice, so no request that a statement makes is ever refused because a qubit is unknown. A
call binds qubits of its caller under other names, so the same is true of bodies, however
deep they are nested; and no body allocates qubits. The state has an amplitude for each basis
state as long as fewer than 64 qubits are allowed.
-/
namespace OpenQasm

/-! Requests about known qubits -/

/-- A refusal that is not about the number of a qubit. -/
def BackendError.Ordinary : BackendError → Prop
  | .unknownQubit _ => False
  | _ => True

theorem BackendError.Ordinary.backend {e : BackendError} (h : e.Ordinary) :
    (EvalError.backend e).Ordinary := by
  cases e <;> exact h

theorem EvalError.Ordinary.root_ne {e : EvalError} (h : e.Ordinary) (q : QubitId) :
    e.root ≠ .backend (.unknownQubit q) := by
  induction e with
  | inStatement source stmt ih => exact ih h
  | backend error =>
      rintro ⟨⟩
      exact h
  | _ => exact nofun

namespace Simulator

variable {R : Type} {b : Simulator R}

/-- A request that leaves the number of qubits as it is, and that is not refused because of an
unknown qubit. -/
def Steady {α : Type} (r : Request (Simulator R) α) (b : Simulator R) : Prop :=
  Ends BackendError.Ordinary Any (r b).1 ∧ SameSize b (r b).2

theorem Steady.check {α β : Type} {c : Except BackendError α} {f : α → Request (Simulator R) β}
    (hc : Ends BackendError.Ordinary Any c) (hf : ∀ a, Steady (f a) b) :
    Steady (liftM c >>= f : Request (Simulator R) β) b := by
  cases c with
  | error e => exact ⟨hc, .refl b⟩
  | ok a => exact hf a

theorem ends_check {q : QubitId} (hq : q < b.qubits) :
    Ends BackendError.Ordinary Any (b.check q) :=
  .ite (fun _ => trivial) fun _ => .ite (fun _ => trivial) fun hnot => absurd hq hnot

theorem ends_checkAll {qs : List QubitId} (hqs : ∀ q ∈ qs, q < b.qubits)
    (seen : List QubitId) : Ends BackendError.Ordinary Any (b.checkAll seen qs) := by
  induction qs generalizing seen with
  | nil => trivial
  | cons q qs ih =>
      obtain ⟨hq, hqs⟩ := List.forall_mem_cons.1 hqs
      exact (ends_check hq).bind fun _ _ => .ite (fun _ => trivial) fun _ => ih hqs _

theorem ends_checkControls {cs : List Control} (hcs : ∀ c ∈ cs, c.qubit < b.qubits) :
    Ends BackendError.Ordinary Any (b.checkControls cs) := by
  unfold checkControls
  induction cs with
  | nil => trivial
  | cons c cs ih =>
      obtain ⟨hc, hcs⟩ := List.forall_mem_cons.1 hcs
      exact (ends_check hc).bind fun _ _ => ih hcs

theorem ends_validate {A : Type} (op : Operation A) :
    Ends BackendError.Ordinary Any op.validate := by
  unfold Operation.validate
  refine .ite (fun _ => trivial) fun _ => ?_
  split <;> trivial

theorem ends_modularCheck (a n width : Nat) :
    Ends BackendError.Ordinary Any (ModularPower.check a n width) :=
  .ite (fun _ => trivial) fun _ => .ite (fun _ => trivial) fun _ =>
    .ite (fun _ => trivial) fun _ => trivial

variable [Scalar R]

theorem steady_apply {op : Operation (Amplitude R)} (hop : ∀ q ∈ op.qubits, q < b.qubits) :
    Steady (apply op) b := by
  have htargets : ∀ q ∈ op.targets, q < b.qubits :=
    fun q hq => hop q (List.mem_append_right _ hq)
  have hcontrols : ∀ c ∈ op.controls, c.qubit < b.qubits :=
    fun c hc => hop c.qubit (List.mem_append_left _ (List.mem_map_of_mem hc))
  unfold Steady
  rw [apply_eq]
  exact Steady.check (ends_validate op) fun _ => .check (ends_checkAll htargets []) fun _ =>
    .check (ends_checkControls hcontrols) fun _ => ⟨trivial, rfl, rfl, rfl⟩

theorem steady_measure {q : QubitId} (hq : q < b.qubits) : Steady (measure q) b := by
  unfold Steady
  rw [measure_eq]
  exact Steady.check (ends_check hq) fun _ => ⟨trivial, rfl, rfl, rfl⟩

theorem steady_reset {q : QubitId} (hq : q < b.qubits) : Steady (reset q) b := by
  unfold Steady
  rw [reset_eq]
  exact Steady.check (ends_check hq) fun _ => ⟨trivial, qubits_reset _ _ _, rfl, rfl⟩

theorem steady_modularPower {a n : Nat} {control target : List QubitId}
    (h : ∀ q ∈ control ++ target, q < b.qubits) :
    Steady (modularPower a n control target) b := by
  unfold Steady
  rw [modularPower_eq]
  exact Steady.check (ends_checkAll h []) fun _ => .check (ends_modularCheck a n target.length)
    fun _ => ⟨trivial, rfl, rfl, rfl⟩

end Simulator

/-! Runs that keep a property of the scope and the simulator -/

variable {R : Type} [Scalar R]

/-- Sizes are signed integers. -/
theorem TypedName.literalSize?_lt {d : TypedName} {n : Nat} (h : d.literalSize? = some n) :
    n < 2 ^ 63 := by
  unfold literalSize? at h
  split at h
  · cases h
    decide
  · obtain ⟨v, -, h⟩ := Option.bind_eq_some_iff.1 h
    split at h
    · cases h
      have hlt := v.toInt_lt
      omega
    · cases h
  · cases h

theorem Scope.declaredSize_lt {s : Scope R} {d : TypedName} {n : Nat}
    (h : s.declaredSize d = .ok n) : n < 2 ^ 63 := by
  unfold declaredSize at h
  split at h
  · rename_i hliteral
    cases h
    exact TypedName.literalSize?_lt hliteral
  · unfold typeSize at h
    split at h
    · cases h
      decide
    · obtain ⟨c, -, h⟩ := bind_ok_iff.1 h
      obtain ⟨v, -, h⟩ := bind_ok_iff.1 h
      split at h
      · cases h
      · cases h
        have hlt := v.toInt_lt
        omega

/-- A declaration of qubits fails without a trace, or binds new qubits in the global scope. -/
theorem Exec.declare_cases {d : TypedName} (hd : d.type.kind = .qubit) (s : Scope R)
    (m : Machine R (Simulator R)) :
    (∃ e : EvalError, e.Ordinary ∧ declare d (s, m) = (.error e, (s, m))) ∨
      ∃ n total, s.isGlobal = true ∧ n < 2 ^ 63 ∧ total = wordOf (m.backend.qubits + n) ∧
        total ≤ m.backend.limit ∧ (m.backend.qubits < total → total ≤ 2 ^ 32) ∧
        declare d (s, m) = (.ok (),
          (s.addQubits d.name
              ((List.range (total - m.backend.qubits)).map (m.backend.qubits + ·)),
            { m with backend := m.backend.resize total })) := by
  cases hglobal : s.isGlobal with
  | false => exact .inl ⟨.notGlobal d.name, trivial, declare_refused hd hglobal m⟩
  | true =>
      rw [declare_qubits hd]
      cases hsize : s.declaredSize d with
      | error e =>
          have he : e.Ordinary := ((s.plain_declaredSize (P := True) d).of_error hsize).ordinary
          refine .inl ⟨e, he, run_bind_of_error (ofRun_of_eq ?_) _⟩
          rw [Scope.askQubits_of_error hglobal hsize]
          rfl
      | ok n =>
          have hask := Scope.askQubits_of_size (B := Simulator R) hglobal hsize
          rcases Simulator.allocate_cases n m.backend with
            hrefused | ⟨total, htotal, hroom, hnumbers, hgranted⟩
          · refine .inl ⟨.backend (.capacity n m.backend.qubits m.backend.limit), trivial,
              run_bind_of_error (ofRun_of_eq ?_) _⟩
            rw [hask]
            exact Run.request_of_error hrefused
          · refine .inr ⟨n, total, rfl, Scope.declaredSize_lt hsize, htotal, hroom, hnumbers,
              run_bind_of_ok (ofRun_of_eq ?_) _⟩
            rw [hask]
            exact Run.request_of_ok hgranted

/-- One run, which keeps a property. -/
def Alone (P : Scope R → Simulator R → Prop) (s : Scope R) (m m' : Machine R (Simulator R)) : Prop :=
  m' = m ∧ P s m.backend

/-- A property of a scope and a simulator that only the declaration of qubits can threaten. -/
structure Standing (P : Scope R → Simulator R → Prop) : Prop where
  known : ∀ {s b}, P s b → ∀ q ∈ s.qubits.all, q < b.qubits
  stable : ∀ {s b b'}, P s b → b.SameSize b' → P s b'
  samePlace : ∀ {s s' b}, s.SamePlace s' → P s b → P s' b
  declare : ∀ d : TypedName, d.type.kind = .qubit →
    Lockstep EvalError.Ordinary (Paired (Alone P)) Any (Exec.declare d) (Exec.declare d)

namespace Standing

variable {P : Scope R → Simulator R → Prop} (h : Standing P)

include h

theorem request {α : Type} {s : Scope R} {r : Request (Simulator R) α}
    (hr : ∀ b, P s b → Simulator.Steady r b) :
    Lockstep EvalError.Ordinary (Alone P s) Any (Run.request r) (Run.request r) := by
  rintro _ m ⟨rfl, hP⟩
  obtain ⟨hends, hsize⟩ := hr m.backend hP
  unfold Run.request
  revert hends hsize
  rcases r m.backend with ⟨result, b⟩
  intro hends hsize
  have hP' := h.stable hP hsize
  cases result with
  | error e => exact ⟨rfl, BackendError.Ordinary.backend hends, rfl, hP'⟩
  | ok a => exact ⟨rfl, trivial, rfl, hP'⟩

theorem contract : Contract EvalError.Ordinary (Alone P) where
  ordinary _ he := he
  samePlace hsame hP := ⟨hP.1, h.samePlace hsame hP.2⟩
  apply s op hop := h.request fun b hP =>
    Simulator.steady_apply fun q hq => h.known hP q (hop hq)
  measure s q hq := h.request fun b hP => Simulator.steady_measure (h.known hP q hq)
  reset s q hq := h.request fun b hP => Simulator.steady_reset (h.known hP q hq)
  modularPower s a n control target hqs := h.request fun b hP =>
    Simulator.steady_modularPower fun q hq => h.known hP q (hqs hq)
  emit s qubits bits m m' hm := by
    obtain ⟨rfl, hP⟩ := hm
    exact ⟨rfl, trivial, rfl, hP⟩
  declare := h.declare

end Standing

/-- In a body the qubits are those of the caller, and their number stays. -/
structure InBody (start : Simulator R) (s : Scope R) (b : Simulator R) : Prop where
  notGlobal : s.isGlobal = false
  known : ∀ q ∈ s.qubits.all, q < start.qubits
  size : start.SameSize b

theorem standing_inBody (start : Simulator R) : Standing (InBody start) where
  known h q hq := h.size.qubits ▸ h.known q hq
  stable h hsize := ⟨h.notGlobal, h.known, h.size.trans hsize⟩
  samePlace hsame h := by
    refine ⟨?_, hsame.qubits ▸ h.known, h.size⟩
    rw [Scope.isGlobal, hsame.outer]
    exact h.notGlobal
  declare d hd := by
    rintro ⟨_, _⟩ ⟨s, m⟩ ⟨rfl, rfl, hP⟩
    rcases Exec.declare_cases hd s m with ⟨e, he, heq⟩ | ⟨n, total, hglobal, -⟩
    · rw [heq]
      exact ⟨rfl, he, rfl, rfl, hP⟩
    · rw [hP.notGlobal] at hglobal
      cases hglobal

/-- Bodies run on the qubits of their caller, whatever is known of the caller. -/
theorem Standing.paired {P : Scope R → Simulator R → Prop} (h : Standing P) (config : Config)
    (n : Nat) :
    RunnersPaired EvalError.Ordinary (Alone P) (runnerAt? config n) (runnerAt? config n) := by
  induction n generalizing P with
  | zero => trivial
  | succ n ih =>
      rintro s name inner body hname hopens _ m ⟨rfl, hP⟩
      have hbody := (standing_inBody m.backend).contract.stmts config (ih (standing_inBody _)) body
      rw [runBody_eq]
      refine lockstep_within (Ψ := fun m₁ m₁' => Alone P s m₁ m₁' ∧ m.backend.SameSize m₁.backend)
        hbody ?_ ?_ m m ⟨⟨rfl, hP⟩, .refl _⟩ |>.imp_right fun hends => ⟨hends.1, hends.2.1⟩
      · rintro _ m₁ ⟨⟨rfl, -⟩, hsize⟩
        exact ⟨rfl, hopens.notGlobal, fun q hq => h.known hP q (hopens.qubits hq), hsize⟩
      · rintro s' _ m₁ ⟨rfl, hin⟩
        exact ⟨⟨rfl, h.stable hP hin.size⟩, hin.size⟩

/-! Registers without a common qubit -/

namespace Table

variable {α : Type}

theorem ne_of_not_contains {t : Table α} {name : String} (h : ¬t.contains name) {r : String × α}
    (hr : r ∈ t.entries) : r.1 ≠ name := by
  rintro rfl
  exact h (contains_iff_mem_names.2 (List.mem_map_of_mem hr))

theorem nodup_names_set {t : Table α} (h : t.names.Nodup) (name : String) (a : α) :
    (t.set name a).names.Nodup := by
  rw [names_set]
  split
  · exact h
  · rename_i hnone
    refine List.nodup_append.2 ⟨h, List.nodup_singleton name, fun x hx y hy => ?_⟩
    obtain ⟨r, hr, rfl⟩ := List.mem_map.1 hx
    rw [List.mem_singleton.1 hy]
    exact ne_of_not_contains hnone hr

end Table

namespace RegisterTable

variable {α : Type}

/-- A register of new elements, under a new name or in place of an old register. -/
theorem nodup_all_set {t : RegisterTable α} (hnames : (Table.names t).Nodup) (hall : t.all.Nodup)
    (name : String) {as : List α} (has : as.Nodup) (hfresh : ∀ a ∈ as, a ∉ t.all) :
    (RegisterTable.all (Table.set t name as)).Nodup := by
  have hnew : ∀ r ∈ t.entries, as.Disjoint r.2 :=
    fun r hr a ha har => hfresh a ha (mem_all_of_mem hr har)
  unfold all at hall ⊢
  rw [List.nodup_flatMap] at hall
  obtain ⟨hnodup, hdisjoint⟩ := hall
  unfold Table.set
  split
  · rw [List.nodup_flatMap, List.forall_mem_map, List.pairwise_map]
    refine ⟨fun r hr => ?_, ?_⟩
    · dsimp only
      by_cases hname : r.1 = name
      · rw [if_pos hname]
        exact has
      · rw [if_neg hname]
        exact hnodup r hr
    · rw [Table.names, List.Nodup, List.pairwise_map] at hnames
      refine (hnames.and hdisjoint).imp_of_mem fun {r r'} hr hr' hboth => ?_
      obtain ⟨hne, hdisjoint⟩ := hboth
      dsimp only [Function.onFun]
      by_cases hname : r.1 = name
      · rw [if_pos hname, if_neg fun hname' => hne (hname.trans hname'.symm)]
        exact hnew r' hr'
      · rw [if_neg hname]
        split
        · exact (hnew r hr).symm
        · exact hdisjoint
  · rw [List.flatMap_append]
    refine List.nodup_append.2 ⟨List.nodup_flatMap.2 ⟨hnodup, hdisjoint⟩, ?_, ?_⟩
    · simpa using has
    · intro a ha a' ha' heq
      obtain ⟨r, hr, har⟩ := List.mem_flatMap.1 ha
      have has' : a' ∈ as := by simpa using ha'
      exact hnew r hr has' (heq ▸ har)

end RegisterTable

/-- What holds of the global scope and the simulator. -/
structure Accounted (config : Config) (s : Scope R) (b : Simulator R) : Prop where
  limit : b.limit = config.maxQubits
  capacity : b.qubits ≤ config.maxQubits
  narrow : b.qubits ≤ 2 ^ 32
  room : b.state.qubits = roomFor b.qubits
  names : s.qubits.names.Nodup
  apart : s.qubits.all.Nodup
  known : ∀ q ∈ s.qubits.all, q < b.qubits

/-- New qubits are in no register yet. -/
theorem Accounted.declare {config : Config} {s : Scope R} {b : Simulator R}
    (h : Accounted config s b) {total : Nat} (hmore : b.qubits ≤ total) (hroom : total ≤ b.limit)
    (hnarrow : total ≤ 2 ^ 32) (name : String) :
    Accounted config (s.addQubits name ((List.range (total - b.qubits)).map (b.qubits + ·)))
      (b.resize total) where
  limit := h.limit
  capacity := (Simulator.qubits_resize total b).trans_le (h.limit ▸ hroom)
  narrow := (Simulator.qubits_resize total b).trans_le hnarrow
  room := congrArg roomFor (Simulator.qubits_resize total b).symm
  names := Table.nodup_names_set h.names name _
  apart := by
    refine RegisterTable.nodup_all_set h.names h.apart name ?_ fun q hq hold => ?_
    · exact List.nodup_range.map fun x y hxy => Nat.add_left_cancel hxy
    · obtain ⟨k, -, rfl⟩ := List.mem_map.1 hq
      have hlt : b.qubits + k < b.qubits := h.known _ hold
      omega
  known := by
    intro q hq
    rw [Simulator.qubits_resize]
    rcases List.mem_append.1 (RegisterTable.all_set_subset _ _ _ hq) with hq | hq
    · obtain ⟨k, hk, rfl⟩ := List.mem_map.1 hq
      exact Nat.add_lt_of_lt_sub' (List.mem_range.1 hk)
    · exact Nat.lt_of_lt_of_le (h.known q hq) hmore

theorem standing_accounted (config : Config) : Standing (Accounted (R := R) config) where
  known h := h.known
  stable h hsize := ⟨hsize.limit.trans h.limit, hsize.qubits ▸ h.capacity,
    hsize.qubits ▸ h.narrow, hsize.room.trans (h.room.trans (congrArg roomFor hsize.qubits.symm)),
    h.names, h.apart, hsize.qubits ▸ h.known⟩
  samePlace hsame h := ⟨h.limit, h.capacity, h.narrow, h.room, hsame.qubits ▸ h.names,
    hsame.qubits ▸ h.apart, hsame.qubits ▸ h.known⟩
  declare d hd := by
    rintro ⟨_, _⟩ ⟨s, m⟩ ⟨rfl, rfl, hP⟩
    rcases Exec.declare_cases hd s m with
      ⟨e, he, heq⟩ | ⟨n, total, -, hn, htotal, hroom, hnumbers, heq⟩
    · rw [heq]
      exact ⟨rfl, he, rfl, rfl, hP⟩
    · rw [heq]
      -- so few qubits and a signed size do not go beyond a word
      have hnarrow : m.backend.qubits ≤ 2 ^ 32 := hP.narrow
      rw [wordOf_of_lt (show _ < 2 ^ 64 by omega)] at htotal
      have hmore : m.backend.qubits ≤ total := by omega
      refine ⟨rfl, trivial, rfl, rfl, hP.declare hmore hroom ?_ d.name⟩
      rcases hmore.lt_or_eq with hlt | heq
      · exact hnumbers hlt
      · exact heq ▸ hnarrow

/-! Interpreters -/

/-- An interpreter of a configuration all of whose qubits are accounted for. -/
def Interpreter.Accounted (config : Config) (i : Interpreter R (Simulator R)) : Prop :=
  i.config = config ∧ OpenQasm.Accounted config i.scope i.machine.backend

namespace Interpreter

variable {config : Config} {i : Interpreter R (Simulator R)}

/-- A top-level statement keeps all qubits accounted for, and complains about none. -/
theorem Accounted.stmt (h : i.Accounted config) (c : Stmt) :
    Ends EvalError.Ordinary Any (i.stmt c).1 ∧ (i.stmt c).2.Accounted config := by
  obtain ⟨rfl, hP⟩ := h
  have hstanding := standing_accounted (R := R) i.config
  obtain ⟨-, hends, hpaired⟩ := hstanding.contract.stmtWith
    (hstanding.paired i.config i.config.maxDepth) c (i := i) ⟨rfl, rfl, rfl, hP⟩
  rw [← stmt_eq] at hends hpaired
  refine ⟨hends.weaken ?_, ?_, hpaired.machine.2⟩
  · rintro _ ⟨e, he, rfl⟩
    exact he
  · unfold Interpreter.stmt
    split <;> rfl

theorem Accounted.value (h : i.Accounted config) (c : Stmt) :
    Ends EvalError.Ordinary Any (i.value c).1 ∧ (i.value c).2.Accounted config := by
  have hstmt := h.stmt c
  unfold Interpreter.value
  revert hstmt
  rcases i.stmt c with ⟨result, j⟩
  intro hstmt
  cases result with
  | error e => exact hstmt
  | ok flow => cases flow <;> exact ⟨trivial, hstmt.2⟩

theorem Accounted.stmts (h : i.Accounted config) (cs : List Stmt) :
    Ends EvalError.Ordinary Any (Interpreter.stmts cs i).1 ∧
      (Interpreter.stmts cs i).2.Accounted config := by
  induction cs generalizing i with
  | nil => exact ⟨trivial, h⟩
  | cons c cs ih =>
      have hstmt := h.stmt c
      rw [Interpreter.stmts]
      revert hstmt
      rcases i.stmt c with ⟨result, j⟩
      intro hstmt
      cases result with
      | error e => exact hstmt
      | ok flow =>
          cases flow with
          | returned v => exact ⟨trivial, hstmt.2⟩
          | next v => exact ih hstmt.2

end Interpreter

end OpenQasm
