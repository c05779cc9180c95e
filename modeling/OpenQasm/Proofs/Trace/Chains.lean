import OpenQasm.Proofs.Modifiers.GateScope
import OpenQasm.Proofs.Modifiers.Leaves
import Mathlib.Data.List.Chain

/-!
# What a call hands down

The body of a modified call is transformed before it runs: every gate application
that is a statement gets the controls of the call in front of its own modifiers,
under the names that the control qubits have in the body, and keeps a trace of
every inversion. Calls in the value of a statement are left as they are. So the
calls that are being run at some moment are linked: what one of them hands to the
next depends on where the next one stands.
-/
namespace OpenQasm

/-- A modifier that inverts what it stands before. -/
def Applied.Reverses : Applied → Prop
  | control _ _ => False
  | inverse => True
  | power k => k < 0

namespace Frame

/-- The controls that a call carries. -/
def controls (f : Frame) : List Control := f.modifiers.flatMap Applied.controls

def controlArgs (f : Frame) : List (List QubitId) := f.modifiers.flatMap Applied.args

/-- An argument of the call has the name of one of its control qubits. -/
def Shadowed (f : Frame) : Prop := ∃ i < f.controlArgs.length, controlName i ∈ f.formals

instance (f : Frame) : Decidable f.Shadowed :=
  inferInstanceAs (Decidable (∃ i < f.controlArgs.length, controlName i ∈ f.formals))

/-- All that the modifiers of a call do is repeat it. -/
def OnlyRepeats (f : Frame) : Prop := ∀ a ∈ f.modifiers, ∃ k, a = .power k ∧ 0 ≤ k

/-- What a call hands to a call `g` made in its body. -/
structure Inherits (f g : Frame) : Prop where
  single : ∀ arg ∈ f.controlArgs, ∃ q, arg = [q]
  controls_subset : g.place = .statement → ¬f.Shadowed → f.controls ⊆ g.controls
  onlyRepeats : g.place = .statement → g.modifiers = [] → f.OnlyRepeats

end Frame

/-- Calls, the innermost one first, each of which was made in the body of the next. -/
def Chained (frames : List Frame) : Prop := frames.IsChain fun g f => f.Inherits g

/-- What is known about a request: an operation has the controls of the gate it is made
for, and nothing is measured or reset in a call with modifiers. -/
def LogEntry.Sound {R : Type} (entry : LogEntry R) : Prop :=
  match entry.event with
  | .apply op => Chained entry.frames ∧ ∀ f ∈ entry.frames.head?, f.controls ⊆ op.controls
  | .measure _ => Chained entry.frames ∧ ∀ f ∈ entry.frames.head?, f.modifiers = []
  | .reset _ => Chained entry.frames ∧ ∀ f ∈ entry.frames.head?, f.modifiers = []
  | _ => True

namespace Chained

variable {inner outer : List Frame} {f : Frame}

theorem mem_of_head {g : Frame} (hg : g ∈ (inner ++ f :: outer).head?) : g ∈ inner ++ [f] := by
  cases inner with
  | nil =>
      obtain rfl : f = g := by simpa using hg
      simp
  | cons a inner =>
      obtain rfl : a = g := by simpa using hg
      simp

theorem exists_head (inner outer : List Frame) (f : Frame) :
    ∃ g below, inner ++ f :: outer = g :: below := by
  cases inner with
  | nil => exact ⟨f, outer, rfl⟩
  | cons a inner => exact ⟨a, inner ++ f :: outer, rfl⟩

/-- Along calls that are statements, controls reach the innermost call. -/
theorem controls_subset_head (h : Chained (inner ++ f :: outer))
    (hplace : ∀ g ∈ inner, g.place = .statement) (hnames : ∀ g ∈ inner ++ [f], ¬g.Shadowed) :
    ∀ g ∈ (inner ++ f :: outer).head?, f.controls ⊆ g.controls := by
  induction inner with
  | nil =>
      intro g hg
      obtain rfl : f = g := by simpa using hg
      exact List.Subset.refl _
  | cons a inner ih =>
      intro g hg
      obtain rfl : a = g := by simpa using hg
      obtain ⟨b, below, hbelow⟩ := exists_head inner outer f
      have hb : b ∈ (inner ++ f :: outer).head? := by rw [hbelow]; rfl
      have hcontrols : f.controls ⊆ b.controls :=
        ih h.tail (fun g hg => hplace g (List.mem_cons_of_mem a hg))
          (fun g hg => hnames g (List.mem_cons_of_mem a hg)) b hb
      have hlink : b.Inherits a := (List.isChain_cons.1 h).1 b hb
      have hshadow : ¬b.Shadowed := hnames b (List.mem_cons_of_mem a (mem_of_head hb))
      exact List.Subset.trans hcontrols
        (hlink.controls_subset (hplace a List.mem_cons_self) hshadow)

/-- A call in whose body another one is made has single qubits as its controls. -/
theorem single_of_ne_nil (h : Chained (inner ++ f :: outer)) (hinner : inner ≠ []) :
    ∀ arg ∈ f.controlArgs, ∃ q, arg = [q] := by
  have hlast : inner.getLast hinner ∈ inner.getLast? := List.getLast?_eq_some_getLast hinner
  exact ((List.isChain_append.1 h).2.2 _ hlast f rfl).single

/-- If the innermost call has no modifiers and one around it has, then somewhere between
them the modifiers are lost: at a call that is the value of a statement, or in the body of
a call that is only repeated. -/
theorem exists_break (h : Chained (inner ++ f :: outer)) (hf : f.modifiers ≠ [])
    (hhead : ∀ g ∈ (inner ++ f :: outer).head?, g.modifiers = []) :
    ∃ above called caller below, inner ++ f :: outer = above ++ called :: caller :: below ∧
      caller ∈ inner ++ [f] ∧ caller.modifiers ≠ [] ∧ called.modifiers = [] ∧
      (called.place = .value ∨ caller.OnlyRepeats) := by
  induction inner with
  | nil => exact absurd (hhead f rfl) hf
  | cons a inner ih =>
      have ha : a.modifiers = [] := hhead a rfl
      obtain ⟨b, below, hbelow⟩ := exists_head inner outer f
      have hb : b ∈ (inner ++ f :: outer).head? := by rw [hbelow]; rfl
      by_cases hmods : b.modifiers = []
      · obtain ⟨above, called, caller, rest, heq, hmem, hlost⟩ :=
          ih h.tail (by rw [hbelow]; rintro _ ⟨⟩; exact hmods)
        refine ⟨a :: above, called, caller, rest, ?_, List.mem_cons_of_mem a hmem, hlost⟩
        rw [List.cons_append, heq, List.cons_append]
      · have hlink : b.Inherits a := (List.isChain_cons.1 h).1 b hb
        refine ⟨[], a, b, below, ?_, List.mem_cons_of_mem a (mem_of_head hb), hmods, ha, ?_⟩
        · rw [List.cons_append, hbelow, List.nil_append]
        · cases hplace : a.place with
          | value => exact .inl rfl
          | statement => exact .inr (hlink.onlyRepeats hplace ha)

end Chained

/-! Gate applications in a body -/

mutual

/-- Every gate application that is a statement, also inside blocks, is of a kind. -/
def Stmt.Applies (P : List Modifier → List Expr → Prop) : Stmt → Prop
  | .apply _ ms _ qs => P ms qs
  | .expr (.call _ ms _ qs) => P ms qs
  | .block body => Stmt.EachApplies P body
  | _ => True

def Stmt.EachApplies (P : List Modifier → List Expr → Prop) : List Stmt → Prop
  | [] => True
  | c :: cs => c.Applies P ∧ Stmt.EachApplies P cs

end

namespace Stmt

variable {P Q : List Modifier → List Expr → Prop}

theorem eachApplies_iff {b : List Stmt} : EachApplies P b ↔ ∀ c ∈ b, c.Applies P := by
  induction b with
  | nil => simp [EachApplies]
  | cons c cs ih => simp [EachApplies, ih]

theorem applies_of_forall (h : ∀ ms qs, P ms qs) (c : Stmt) : c.Applies P := by
  cases c with
  | apply gate ms params qs => exact h ms qs
  | expr e =>
      cases e with
      | call name ms params qs => exact h ms qs
      | _ => trivial
  | block b => exact eachApplies_iff.2 fun c _ => applies_of_forall h c
  | _ => trivial
termination_by sizeOf c

theorem Applies.mono (hPQ : ∀ ms qs, P ms qs → Q ms qs) {c : Stmt} (h : c.Applies P) :
    c.Applies Q := by
  cases c with
  | apply gate ms params qs => exact hPQ ms qs h
  | expr e =>
      cases e with
      | call name ms params qs => exact hPQ ms qs h
      | _ => trivial
  | block b => exact eachApplies_iff.2 fun c hc => Applies.mono hPQ (eachApplies_iff.1 h c hc)
  | _ => trivial
termination_by sizeOf c

theorem Applies.add {m : Modifier} {qs : List Expr} {c : Stmt}
    (h : c.Applies fun ms qs' => P (m :: ms) (qs ++ qs')) : (c.add m qs).Applies P := by
  cases c with
  | apply gate ms params qs' => exact h
  | expr e =>
      cases e with
      | call name ms params qs' => exact h
      | _ => trivial
  | block b =>
      rw [add_block]
      refine eachApplies_iff.2 (List.forall_mem_map.2 fun c hc => ?_)
      exact Applies.add (eachApplies_iff.1 h c hc)
  | _ => trivial
termination_by sizeOf c

theorem Applies.inv {c : Stmt} (h : c.Applies fun ms qs => P (ms ++ [Modifier.inv]) qs) :
    c.inv.Applies P := by
  cases c with
  | apply gate ms params qs' => exact h
  | expr e =>
      cases e with
      | call name ms params qs' => exact h
      | _ => trivial
  | block b =>
      rw [inv_block]
      refine eachApplies_iff.2 fun c hc => ?_
      obtain ⟨c', hc', rfl⟩ := List.mem_map.1 (List.mem_reverse.1 hc)
      exact Applies.inv (eachApplies_iff.1 h c' hc')
  | _ => trivial
termination_by sizeOf c

end Stmt

namespace Block

variable {P : List Modifier → List Expr → Prop}

theorem applies_inv {b : Block}
    (h : Stmt.EachApplies (fun ms qs => P (ms ++ [Modifier.inv]) qs) b) :
    Stmt.EachApplies P b.inv := by
  refine Stmt.eachApplies_iff.2 fun c hc => ?_
  obtain ⟨c', hc', rfl⟩ := List.mem_map.1 (List.mem_reverse.1 hc)
  exact (Stmt.eachApplies_iff.1 h c' hc').inv

theorem applies_pow {b : Block} (h : Stmt.EachApplies P b) (n : Nat) :
    Stmt.EachApplies P (b.pow n) := by
  rw [pow_eq]
  refine Stmt.eachApplies_iff.2 fun c hc => ?_
  obtain ⟨b', hb', hc⟩ := List.mem_flatten.1 hc
  rw [List.eq_of_mem_replicate hb'] at hc
  exact Stmt.eachApplies_iff.1 h c hc

theorem applies_addAll {gs : List (Modifier × List Expr)} {b : Block}
    (h : Stmt.EachApplies
      (fun ms qs => P (gs.map Prod.fst ++ ms) (gs.flatMap Prod.snd ++ qs)) b) :
    Stmt.EachApplies P (b.addAll gs) := by
  induction gs generalizing P with
  | nil => exact h
  | cons g gs ih =>
      rw [addAll, List.foldr_cons]
      refine Stmt.eachApplies_iff.2 (List.forall_mem_map.2 fun c hc => Stmt.Applies.add ?_)
      refine Stmt.eachApplies_iff.1 (ih ?_) c hc
      simpa only [List.map_cons, List.flatMap_cons, List.cons_append, List.append_assoc] using h

theorem applies_mono {Q : List Modifier → List Expr → Prop} (hPQ : ∀ ms qs, P ms qs → Q ms qs)
    {b : Block} (h : Stmt.EachApplies P b) : Stmt.EachApplies Q b :=
  Stmt.eachApplies_iff.2 fun c hc => (Stmt.eachApplies_iff.1 h c hc).mono hPQ

/-- Every application in a body that was inverted has a modifier. -/
theorem applies_turned (as : List Applied) (b : Block) :
    Stmt.EachApplies (fun ms _ => ms = [] → ∀ a ∈ as, ¬a.Reverses) (turned as b) := by
  have hinv : ∀ (as' : List Applied) (b' : Block),
      Stmt.EachApplies (fun ms _ => ms = [] → ∀ a ∈ as', ¬a.Reverses) b'.inv := by
    intro as' b'
    refine applies_inv (Stmt.eachApplies_iff.2 fun c _ => Stmt.applies_of_forall ?_ c)
    intro ms qs hms
    simp at hms
  induction as with
  | nil => exact Stmt.eachApplies_iff.2 fun c _ => Stmt.applies_of_forall (by simp) c
  | cons a as ih =>
      cases a with
      | inverse => exact hinv _ _
      | control on args =>
          exact applies_mono (fun ms qs h hms => List.forall_mem_cons.2 ⟨id, h hms⟩) ih
      | power k =>
          rw [turned]
          split
          · exact applies_pow (hinv _ _) _
          · rename_i hk
            refine applies_pow (applies_mono (fun ms qs h hms => ?_) ih) _
            exact List.forall_mem_cons.2 ⟨hk, h hms⟩

end Block

/-! What the body of a call is given -/

namespace Frame

/-- A gate application that has the controls of a call in front of its modifiers, and
some modifier if the call is more than repeated. -/
structure Hands (f : Frame) (ms : List Modifier) (qs : List Expr) : Prop where
  controls : ∃ ms' qs', ms = (Applied.groups 0 f.modifiers).map Prod.fst ++ ms' ∧
    qs = (Applied.groups 0 f.modifiers).flatMap Prod.snd ++ qs'
  onlyRepeats : ms = [] → f.OnlyRepeats

theorem groups_eq_nil {start : Nat} {as : List Applied} (h : Applied.groups start as = []) :
    ∀ a ∈ as, a.args = [] ∧ ∀ on args, a ≠ .control on args := by
  induction as with
  | nil => simp
  | cons a as ih =>
      cases a with
      | control on args => simp [Applied.groups] at h
      | inverse => exact List.forall_mem_cons.2 ⟨⟨rfl, by simp⟩, ih h⟩
      | power k => exact List.forall_mem_cons.2 ⟨⟨rfl, by simp⟩, ih h⟩

theorem hands_turned (f : Frame) (b : Block) :
    Stmt.EachApplies f.Hands
      ((Block.turned f.modifiers b).addAll (Applied.groups 0 f.modifiers)) := by
  refine Block.applies_addAll (Block.applies_mono (fun ms qs h => ⟨⟨ms, qs, rfl, rfl⟩, ?_⟩)
    (Block.applies_turned f.modifiers b))
  intro hnil a ha
  obtain ⟨hgroups, hms⟩ := List.append_eq_nil_iff.1 hnil
  have hnone := (groups_eq_nil (List.map_eq_nil_iff.1 hgroups) a ha).2
  have hreverse := h hms a ha
  cases a with
  | control on args => exact absurd rfl (hnone on args)
  | inverse => exact absurd trivial hreverse
  | power k => exact ⟨k, rfl, Int.not_lt.1 hreverse⟩

/-- A scope in which the body of a call runs. -/
structure Runs {R : Type} (f : Frame) (s : Scope R) : Prop where
  inside : s.isGlobal = false
  modifiers : s.modifiers = [] → f.modifiers = []
  counted : ∀ a ∈ f.modifiers, a.Counted
  single : ∀ arg ∈ f.controlArgs, ∃ q, arg = [q]
  bound : ¬f.Shadowed → ∀ i arg, f.controlArgs[i]? = some arg →
    s.qubits.get? (controlName i) = some arg

end Frame

namespace Scope

variable {R : Type} [Scalar R]

/-- The frame of a call whose modifiers resolve. -/
theorem frame_eq {s : Scope R} (call : Call) {as : List Applied}
    (h : s.applied call.modifiers call.qargs = .ok as) (place : Place) (formals : List String) :
    s.frame place formals call = ⟨call.name, place, as, formals⟩ := by
  rw [frame, h]
  rfl

end Scope

/-- A call in a body inherits what its text was given. -/
theorem Frame.Runs.inherits {R : Type} [Scalar R] {f : Frame} {s : Scope R} (hf : f.Runs s)
    {call : Call} {place : Place} (hands : place = .statement → f.Hands call.modifiers call.qargs)
    {as : List Applied} (has : s.applied call.modifiers call.qargs = .ok as)
    (formals : List String) : f.Inherits (s.frame place formals call) := by
  rw [Scope.frame_eq call has]
  refine ⟨hf.single, fun hplace hnames => ?_, fun hplace hnil => ?_⟩
  · obtain ⟨ms', qs', hms, hqs⟩ := (hands hplace).controls
    rw [hms, hqs] at has
    have hbound : ∀ i arg, (f.modifiers.flatMap Applied.args)[i]? = some arg →
        s.qubits.get? (controlName (0 + i)) = some arg := by
      intro i arg harg
      rw [Nat.zero_add]
      exact hf.bound hnames i arg harg
    obtain ⟨bs', -, rfl⟩ := (Scope.applied_groups hf.counted hbound).1 has
    rw [Frame.controls, Frame.controls, List.flatMap_append,
      Applied.flatMap_filter_control Applied.controls rfl fun _ => rfl]
    exact List.subset_append_left _ _
  · have hlen := Scope.length_of_applied has
    rw [show as = [] from hnil] at hlen
    exact (hands hplace).onlyRepeats (List.length_eq_zero_iff.1 hlen.symm)

end OpenQasm
