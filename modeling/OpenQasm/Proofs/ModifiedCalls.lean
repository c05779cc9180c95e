import OpenQasm.Proofs.Trace.Written

/-!
# Modified calls

A call of a gate whose body, and all the bodies it comes to, only apply gates makes
the same gates in the end as the call without its modifiers, up to what the modifiers
ask for: the sequence is reversed, repeated and controlled as a whole.
-/
namespace OpenQasm

namespace Leaf

variable {R : Type} {l : Leaf R}

theorem idle_inverse (l : Leaf R) : l.inverse.idle = l.idle := by
  have hzero : -l.power = 0 ↔ l.power = 0 := by
    constructor
    · intro h
      rw [← @Int64.neg_neg l.power, h]
      rfl
    · intro h
      rw [h]
      rfl
  unfold idle inverse
  cases l.gate with
  | standard gate => rfl
  | fourier => simp only [hzero]
  | inverseFourier => simp only [hzero]

theorem idle_controlled (cs : List (Bool × List QubitId)) (l : Leaf R) :
    (l.controlled cs).idle = l.idle := rfl

theorem isEmpty_flatten_of_length {vs ws : List (List QubitId)}
    (h : vs.map List.length = ws.map List.length) : vs.flatten.isEmpty = ws.flatten.isEmpty := by
  have hlength : vs.flatten.length = ws.flatten.length := by
    rw [List.length_flatten, List.length_flatten, h]
  rw [Bool.eq_iff_iff, List.isEmpty_iff_length_eq_zero, List.isEmpty_iff_length_eq_zero, hlength]

theorem Similar.idle_eq {cs : List (Bool × List QubitId)} {l' : Leaf R} (h : l.Similar cs l') :
    l'.idle = l.idle := by
  unfold idle
  rw [h.gate, h.power, isEmpty_flatten_of_length h.targets]

/-- Further controls are in front of every leaf that repeats no control. -/
theorem eq_of_similar {cs : List (Bool × List QubitId)} {ls ls' : List (Leaf R)}
    (h : List.Forall₂ (Similar cs) ls ls') (hls : ∀ l ∈ ls, ¬l.RepeatsControl) :
    ls' = ls.map (controlled cs) := by
  induction h with
  | nil => rfl
  | cons hl _ ih =>
      obtain ⟨hfirst, hrest⟩ := List.forall_mem_cons.1 hls
      rw [List.map_cons, ih hrest, hl.controlled.resolve_right hfirst]

/-- Further controls are in front of every leaf that something is sent for. -/
theorem filter_eq_of_similar {cs : List (Bool × List QubitId)} {ls ls' : List (Leaf R)}
    (h : List.Forall₂ (Similar cs) ls ls')
    (hls : ∀ l ∈ ls, l.idle = true ∨ ¬l.RepeatsControl) :
    ls'.filter (fun l => !l.idle) = (ls.map (controlled cs)).filter fun l => !l.idle := by
  have hsent : List.Forall₂ (Similar cs) (ls.filter fun l => !l.idle)
      (ls'.filter fun l => !l.idle) := by
    refine List.rel_filter (fun l l' hl => ?_) h
    simp only [hl.idle_eq]
  rw [List.filter_map, eq_of_similar hsent]
  · rfl
  · intro l hl
    obtain ⟨hmem, hidle⟩ := List.mem_filter.1 hl
    exact (hls l hmem).resolve_left (by simpa using hidle)

end Leaf

/-- What holds of leaves and of their inverses holds of the leaves of a turned call. -/
theorem Applied.forall_mem_turn {R : Type} {P : Leaf R → Prop} (hP : ∀ l, P l → P l.inverse)
    (as : List Applied) {ls : List (Leaf R)} (h : ∀ l ∈ ls, P l) : ∀ l ∈ turn as ls, P l := by
  have hreverse : ∀ ls : List (Leaf R), (∀ l ∈ ls, P l) →
      ∀ l ∈ (ls.map Leaf.inverse).reverse, P l := by
    intro ls hls l hl
    obtain ⟨l', hl', rfl⟩ := List.mem_map.1 (List.mem_reverse.1 hl)
    exact hP l' (hls l' hl')
  induction as with
  | nil => exact h
  | cons a as ih =>
      cases a with
      | control on args => exact ih
      | inverse => exact hreverse _ ih
      | power k =>
          intro l hl
          rw [turn, act] at hl
          obtain ⟨ls', hls', hl⟩ := List.mem_flatten.1 hl
          rw [List.eq_of_mem_replicate hls'] at hl
          split at hl
          · exact hreverse _ ih l hl
          · exact ih l hl

variable {R B : Type} [Scalar R]

/-- A call with modifiers runs its body on the qubits of the call without them, under the
controls that its modifiers take from the arguments in front. -/
theorem Scope.Prepared.similar {s inner inner' : Scope R} {gate : GateDef}
    (hformals : ∀ x ∈ gate.qargs, ¬IsControlName x) {name : String} {ms : List Modifier}
    {ps cs ts : List Expr} {body body' : Block} {ls ls' : List (Leaf R)}
    (p : s.Prepared gate ⟨name, [], ps, ts⟩ inner body)
    (p' : s.Prepared gate ⟨name, ms, ps, cs ++ ts⟩ inner' body')
    (h : Expands inner.bare body ls) (h' : Expands inner'.bare body' ls') :
    ∃ as, s.applied ms (cs ++ ts) = .ok as ∧
      cs.mapM s.qubitsOf = .ok (as.flatMap Applied.args) ∧
      List.Forall₂ (Leaf.Similar (as.flatMap Applied.pairs)) (Applied.turn as ls) ls' := by
  obtain ⟨params, bs, controls, targets, hfold, -, hbs, hargs, hcounted, hres, hlen, rfl, rfl⟩ := p
  obtain ⟨params', as, controls', targets', hfold', -, has, hargs', hcounted', hres', hlen', rfl,
    rfl⟩ := p'
  cases hbs
  obtain rfl : controls = [] := (List.map_eq_nil_iff.1 hargs.symm)
  obtain rfl : params = params' := Except.ok.inj (hfold.symm.trans hfold')
  obtain ⟨vs, ws, hvs, hws, heq⟩ := mapM_append_ok_iff.1 hres'
  obtain rfl : targets = ws := Except.ok.inj (hres.symm.trans hws)
  obtain ⟨hcontrols, rfl⟩ := List.append_inj' heq (hlen'.trans hlen.symm)
  refine ⟨as, has, ?_, ?_⟩
  · rw [hvs, hargs', hcontrols]
  · have hvalues : SameValues s s := ⟨rfl, rfl, rfl, rfl⟩
    have htargets : List.Forall₂ (Close []) targets' targets' :=
      List.forall₂_same.2 fun _ _ => .inl rfl
    have hlink := linked_gateScope hvalues hformals hargs hargs' hcounted hcounted'
      (Nat.zero_le _) (.inl (List.append_nil _).symm) htargets ⟨name, [], ps, ts⟩
      ⟨name, ms, ps, cs ++ ts⟩ params
    rw [Block.addAll_eq_map] at h'
    refine Expands.similar hlink ?_ h'
    rw [← Block.addAll_eq_map]
    exact h.turned as

variable [Backend R B]

/-- A machine whose backend is observed from now on. -/
def Machine.observed (m : Machine R B) : Machine R (Recorder R B) := ⟨.watch m.backend, m.output⟩

namespace Traced

/-- The gates that a statement which is an expression makes, with `n` further levels of
calls below those that it makes itself. -/
def leavesOf (config : Config) (n : Nat) (s : Scope R) (e : Expr) (m : Machine R B) :
    List (Leaf R) :=
  (value .statement config (some (runBody config n)) s e m.observed).2.backend.leaves

/-- A call that succeeds makes what the transformed body comes down to. -/
theorem expands_leavesOf {config : Config} {n : Nat} {s : Scope R} {name : String} {g : GateDef}
    (hget : s.gates.get? name = some g) (hgates : s.OnlyGates g) {ms : List Modifier}
    {ps qs : List Expr} {m : Machine R B}
    (h : (Run.value config (some (OpenQasm.runBody config n)) s (.call name ms ps qs) m).1.isOk) :
    ∃ inner body, Nonempty (s.Prepared g ⟨name, ms, ps, qs⟩ inner body) ∧
      Expands inner.bare body (leavesOf config n s (.call name ms ps qs) m) ∧
      (Backend.RefusesRepeats R B → ∀ l ∈ leavesOf config n s (.call name ms ps qs) m,
        l.idle = true ∨ ¬l.RepeatsControl) := by
  have hrecords := records_value .statement config (recordsRunner_runBody config n) s
    (.call name ms ps qs) m.observed
  rw [show m.observed.forget = m from rfl] at hrecords
  rw [hrecords] at h
  rw [leavesOf]
  rcases hrun : value .statement config (some (runBody config n)) s (.call name ms ps qs)
    m.observed with ⟨result, m'⟩
  rw [hrun] at h
  cases result with
  | error e => cases h
  | ok v =>
      rw [value, hget] at hrun
      obtain ⟨inner, body, ls, p, hbody⟩ :=
        wrote_callGate (runnerWrites_runBody config n) hgates.closed .refl hrun
      obtain rfl : m'.backend.leaves = ls := hbody.leaves
      exact ⟨inner, body, p, hbody.expands, hbody.accepted⟩

end Traced

open Traced in
/-- Where a call of a gate succeeds with its modifiers and without them, its modifiers act on
the whole sequence of gates that the plain call makes, the innermost one first, and they take
exactly the arguments in front for their controls. Fourier transforms that are made zero times
or on no qubits count for nothing; they follow the same rule unless they name a control qubit
of the call around them. -/
theorem modified_call_leaves (config : Config) (n : Nat) {s : Scope R} {name : String}
    {g : GateDef} (hget : s.gates.get? name = some g) (hgates : s.OnlyGates g)
    {ms : List Modifier} {ps cs ts : List Expr} (m m' : Machine R (Simulator R))
    (hplain : (Run.value config (some (OpenQasm.runBody config n)) s
      (.call name [] ps ts) m).1.isOk)
    (hmodified : (Run.value config (some (OpenQasm.runBody config n)) s
      (.call name ms ps (cs ++ ts)) m').1.isOk) :
    (∀ e, Records (value .statement config (some (Traced.runBody config n)) s e)
      (Run.value (B := Simulator R) config (some (OpenQasm.runBody config n)) s e)) ∧
    ∃ as, s.applied ms (cs ++ ts) = .ok as ∧
      cs.mapM s.qubitsOf = .ok (as.flatMap Applied.args) ∧
      (leavesOf config n s (.call name ms ps (cs ++ ts)) m').filter (fun l => !l.idle) =
        Applied.actAll as
          ((leavesOf config n s (.call name [] ps ts) m).filter fun l => !l.idle) ∧
      ((∀ l ∈ leavesOf config n s (.call name [] ps ts) m, l.idle → ¬l.RepeatsControl) →
        leavesOf config n s (.call name ms ps (cs ++ ts)) m' =
          Applied.actAll as (leavesOf config n s (.call name [] ps ts) m)) := by
  refine ⟨fun e => records_value .statement config (recordsRunner_runBody config n) s e, ?_⟩
  obtain ⟨inner, body, ⟨p⟩, hexpands, haccepted⟩ := expands_leavesOf hget hgates hplain
  obtain ⟨inner', body', ⟨p'⟩, hexpands', -⟩ := expands_leavesOf hget hgates hmodified
  obtain ⟨as, has, hargs, hsimilar⟩ := p.similar (hgates g .refl).2 p' hexpands hexpands'
  have haccepted := haccepted (Simulator.refusesRepeats R)
  refine ⟨as, has, hargs, ?_, fun hidle => ?_⟩
  · rw [← Applied.filter_actAll (fun l => congrArg not l.idle_inverse)
        fun cs l => congrArg not (l.idle_controlled cs),
      Applied.actAll_eq]
    refine Leaf.filter_eq_of_similar hsimilar (Applied.forall_mem_turn (fun l hl => ?_) as haccepted)
    rw [l.idle_inverse]
    exact hl
  · rw [Applied.actAll_eq]
    refine Leaf.eq_of_similar hsimilar (Applied.forall_mem_turn (fun l hl => hl) as ?_)
    intro l hl
    rcases haccepted l hl with h | h
    · exact hidle l hl h
    · exact h

def rotateFlip : GateDef := ⟨"h", ["t"], ["a", "b"], [
  .apply .u [] [.ident "t", .lit ⟨.int, "0"⟩, .lit ⟨.int, "0"⟩] [.ident "a"],
  .apply .x [.mk .ctrl none] [] [.ident "a", .ident "b"]]⟩

def unrotate : GateDef := ⟨"g", ["t"], ["a", "b"], [
  .expr (.call "h" [.mk .inv none] [.ident "t"] [.ident "a", .ident "b"]),
  .block [.apply .qft [] [] [.ident "b"]]]⟩

def rotations : Scope Float :=
  { Scope.root with
    gates := ⟨[("h", rotateFlip), ("g", unrotate)]⟩
    qubits := ⟨[("q", [0, 1, 2])]⟩ }

theorem rotations_onlyGates : rotations.OnlyGates unrotate := by
  intro h hh
  rcases hh.eq_or_eq rfl rfl rfl with rfl | rfl
  · refine ⟨⟨fun hnone => ?_, ⟨Builtin.noConfusion, trivial⟩, trivial⟩, ?_⟩
    · cases hnone
    · simp [unrotate, IsControlName, controlStem]
  · refine ⟨⟨Builtin.noConfusion, Builtin.noConfusion, trivial⟩, ?_⟩
    simp [rotateFlip, IsControlName, controlStem]

def threeQubits : Machine Float (Simulator Float) :=
  ⟨(Backend.allocate 3 (Simulator.seeded 0 24)).2, []⟩

def inverseSquare : List Modifier :=
  [.mk .negctrl none, .mk .pow (some (.unary .neg (.lit ⟨.int, "2"⟩)))]

def callUnrotate (ms : List Modifier) (cs : List Expr) : Expr :=
  .call "g" ms [.lit ⟨.int, "2"⟩]
    (cs ++ [.index "q" (.lit ⟨.int, "1"⟩), .index "q" (.lit ⟨.int, "2"⟩)])

theorem inverseSquare_unrotate :
    (Traced.leavesOf {} 1 rotations (callUnrotate [] []) threeQubits).length = 3 ∧
    Traced.leavesOf {} 1 rotations
        (callUnrotate inverseSquare [.index "q" (.lit ⟨.int, "0"⟩)]) threeQubits =
      Applied.actAll [.control false [[0]], .power (-2)]
        (Traced.leavesOf {} 1 rotations (callUnrotate [] []) threeQubits) := by
  have hplain : (Run.value {} (some (runBody {} 1)) rotations
      (callUnrotate [] []) threeQubits).1.isOk := by decide +kernel
  have hmodified : (Run.value {} (some (runBody {} 1)) rotations
      (callUnrotate inverseSquare [.index "q" (.lit ⟨.int, "0"⟩)]) threeQubits).1.isOk := by
    decide +kernel
  have hsent : ∀ l ∈ Traced.leavesOf {} 1 rotations (callUnrotate [] []) threeQubits,
      l.idle = false := by decide +kernel
  have happlied : (rotations.applied inverseSquare [.index "q" (.lit ⟨.int, "0"⟩),
      .index "q" (.lit ⟨.int, "1"⟩), .index "q" (.lit ⟨.int, "2"⟩)]).toOption =
        some [.control false [[0]], .power (-2)] := by decide +kernel
  refine ⟨by decide +kernel, ?_⟩
  obtain ⟨as, has, -, -, hleaves⟩ :=
    (modified_call_leaves {} 1 rfl rotations_onlyGates _ _ hplain hmodified).2
  obtain rfl : as = [.control false [[0]], .power (-2)] := by
    rw [List.nil_append, List.singleton_append] at has
    rw [has] at happlied
    exact Option.some.inj happlied
  refine hleaves fun l hl hidle => ?_
  rw [hsent l hl] at hidle
  cases hidle

def idleTransform : GateDef := ⟨"h", [], ["a"], [
  .apply .qft [.mk .pow (some (.lit ⟨.int, "0"⟩))] [] [.ident "__ctrl0"]]⟩

def controlsIdle : GateDef := ⟨"g", [], ["x", "y"], [
  .expr (.call "h" [.mk .ctrl none] [] [.ident "x", .ident "y"])]⟩

def idles : Scope Float :=
  { Scope.root with
    gates := ⟨[("h", idleTransform), ("g", controlsIdle)]⟩
    qubits := ⟨[("q", [0, 1, 2])]⟩ }

theorem idles_onlyGates : idles.OnlyGates controlsIdle := by
  intro h hh
  rcases hh.eq_or_eq rfl rfl rfl with rfl | rfl
  · refine ⟨⟨fun hnone => ?_, trivial⟩, ?_⟩
    · cases hnone
    · simp [controlsIdle, IsControlName, controlStem]
  · refine ⟨⟨Builtin.noConfusion, trivial⟩, ?_⟩
    simp [idleTransform, IsControlName, controlStem]

def callIdle (ms : List Modifier) (cs : List Expr) : Expr :=
  .call "g" ms [] (cs ++ [.index "q" (.lit ⟨.int, "1"⟩), .index "q" (.lit ⟨.int, "2"⟩)])

/-- A transform made zero times is not always written down under the outer control: here it
names the first control, which is another qubit in the controlled call. -/
theorem idle_transform_follows_control :
    idles.OnlyGates controlsIdle ∧
    (Run.value {} (some (runBody {} 2)) idles (callIdle [] []) threeQubits).1.isOk ∧
    (Run.value {} (some (runBody {} 2)) idles
      (callIdle [.mk .ctrl none] [.index "q" (.lit ⟨.int, "0"⟩)]) threeQubits).1.isOk ∧
    (idles.applied [.mk .ctrl none] [.index "q" (.lit ⟨.int, "0"⟩),
      .index "q" (.lit ⟨.int, "1"⟩), .index "q" (.lit ⟨.int, "2"⟩)]).toOption =
        some [.control true [[0]]] ∧
    Traced.leavesOf {} 2 idles
        (callIdle [.mk .ctrl none] [.index "q" (.lit ⟨.int, "0"⟩)]) threeQubits ≠
      Applied.actAll [.control true [[0]]]
        (Traced.leavesOf {} 2 idles (callIdle [] []) threeQubits) := by
  have hmodified : (Traced.leavesOf {} 2 idles
      (callIdle [.mk .ctrl none] [.index "q" (.lit ⟨.int, "0"⟩)]) threeQubits).map Leaf.targets =
        [[[0]]] := by decide +kernel
  have hplain : (Applied.actAll [.control true [[0]]]
      (Traced.leavesOf {} 2 idles (callIdle [] []) threeQubits)).map Leaf.targets = [[[1]]] := by
    decide +kernel
  refine ⟨idles_onlyGates, by decide +kernel, by decide +kernel, by decide +kernel, fun heq => ?_⟩
  rw [heq, hplain] at hmodified
  cases hmodified

end OpenQasm
