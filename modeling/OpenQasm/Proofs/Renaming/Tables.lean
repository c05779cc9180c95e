import OpenQasm.Proofs.Renaming.Ends
import OpenQasm.Proofs.Renaming.Names

/-!
# Tables with other names

A renaming takes a table of registers to one that binds the same registers in the same order
under other names. As long as the names stay apart, each of them finds what it found before.
Besides its qubits nothing in a scope depends on them: constants, bits, sizes, and the
arguments of modifiers are read in the same way.
-/
namespace OpenQasm

/-! Tables -/

namespace Table

variable {α : Type}

def rename (ρ : String → String) (t : Table α) : Table α :=
  ⟨t.entries.map fun r => (ρ r.1, r.2)⟩

@[simp] theorem rename_id (t : Table α) : t.rename id = t := by
  rw [rename, show (fun r : String × α => (id r.1, r.2)) = id from rfl, List.map_id]

/-- A name that no name of the table is confused with finds the same value. -/
theorem get?_rename {ρ : String → String} {t : Table α} {x : String}
    (h : ∀ y ∈ t.names, ρ y = ρ x → y = x) : (t.rename ρ).get? (ρ x) = t.get? x := by
  obtain ⟨entries⟩ := t
  unfold rename get?
  induction entries with
  | nil => rfl
  | cons r rs ih =>
      obtain ⟨hr, hrs⟩ := List.forall_mem_cons.1 h
      rw [List.map_cons, List.lookup_cons, List.lookup_cons, ih hrs]
      by_cases hx : x = r.1
      · subst hx
        simp
      · have hne : (x == r.1) = false := by simpa using hx
        have hne' : (ρ x == ρ r.1) = false := by simpa using fun heq => hx (hr heq.symm).symm
        rw [hne, hne']

theorem set_rename {ρ : String → String} {t : Table α} {x : String}
    (h : ∀ y ∈ t.names, ρ y = ρ x → y = x) (v : α) :
    (t.set x v).rename ρ = (t.rename ρ).set (ρ x) v := by
  have hcontains : (t.rename ρ).contains (ρ x) = t.contains x := by
    rw [contains, contains, get?_rename h]
  unfold set
  rw [hcontains]
  split
  · unfold rename
    rw [List.map_map, List.map_map]
    congr 1
    refine List.map_congr_left fun r hr => ?_
    have hiff : ρ r.1 = ρ x ↔ r.1 = x :=
      ⟨h r.1 (List.mem_map_of_mem hr), fun heq => congrArg ρ heq⟩
    by_cases hx : r.1 = x
    · simp [hx]
    · simp [hx, hiff]
  · rw [rename, List.map_append]
    rfl

theorem mem_names_set {t : Table α} {x y : String} {v : α} (h : y ∈ (t.set x v).names) :
    y = x ∨ y ∈ t.names := by
  rw [names_set] at h
  split at h
  · exact .inr h
  · exact (List.mem_append.1 h).symm.imp List.mem_singleton.1 id

theorem mem_names_setAll {t : Table α} {bs : List (String × α)} {y : String}
    (h : y ∈ (t.setAll bs).names) : y ∈ bs.map Prod.fst ∨ y ∈ t.names := by
  induction bs generalizing t with
  | nil => exact .inr h
  | cons b bs ih =>
      rcases ih h with hbs | hset
      · exact .inl (List.mem_cons_of_mem _ hbs)
      · rcases mem_names_set hset with rfl | ht
        · exact .inl List.mem_cons_self
        · exact .inr ht

/-- Names that stay apart are bound in the same order. -/
theorem setAll_rename (r : Renaming) {t : Table α} {bs : List (String × α)}
    (ht : ∀ y ∈ t.names, r.known y) (hbs : ∀ b ∈ bs, r.known b.1) :
    (t.setAll bs).rename r.map = (t.rename r.map).setAll (bs.map fun b => (r.map b.1, b.2)) := by
  induction bs generalizing t with
  | nil => rfl
  | cons b bs ih =>
      obtain ⟨hb, hbs⟩ := List.forall_mem_cons.1 hbs
      have hset := set_rename (v := b.2) fun y hy heq => r.injective y b.1 (ht y hy) hb heq
      have hknown : ∀ y ∈ (t.set b.1 b.2).names, r.known y := by
        intro y hy
        rcases mem_names_set hy with rfl | hy
        · exact hb
        · exact ht y hy
      have hrest := ih hknown hbs
      rw [hset] at hrest
      exact hrest

end Table

namespace RegisterTable

variable {α : Type}

theorem all_rename (ρ : String → String) (t : RegisterTable α) :
    RegisterTable.all (Table.rename ρ t) = t.all := by
  rw [all, all, Table.rename, List.flatMap_map]

theorem select_rename {ρ : String → String} {t : RegisterTable α} {x : String}
    (h : ∀ y ∈ Table.names t, ρ y = ρ x → y = x) (index : Option Int64) :
    EndsLike Eq (t.select x index) (RegisterTable.select (Table.rename ρ t) (ρ x) index) := by
  unfold select
  rw [Table.get?_rename h]
  cases Table.get? t x with
  | none => exact .error _ _
  | some register => cases index with
    | none => exact .refl _
    | some i =>
        dsimp only
        split
        · exact .refl _
        · exact .error _ _

end RegisterTable

/-! Scopes -/

namespace Scope

variable {R : Type}

def withTables (s : Scope R) (qubits : RegisterTable QubitId) (gates : Table GateDef) : Scope R :=
  { s with
    qubits := qubits
    gates := gates }

variable (s : Scope R) (qubits : RegisterTable QubitId) (gates : Table GateDef)

@[simp] theorem qubits_withTables : (s.withTables qubits gates).qubits = qubits := rfl

@[simp] theorem bits_withTables : (s.withTables qubits gates).bits = s.bits := rfl

@[simp] theorem scalars_withTables : (s.withTables qubits gates).scalars = s.scalars := rfl

@[simp] theorem gates_withTables : (s.withTables qubits gates).gates = gates := rfl

@[simp] theorem subroutines_withTables :
    (s.withTables qubits gates).subroutines = s.subroutines := rfl

@[simp] theorem const?_withTables (x : String) :
    (s.withTables qubits gates).const? x = s.const? x := rfl

@[simp] theorem isVariable_withTables (x : String) :
    (s.withTables qubits gates).isVariable x = s.isVariable x := rfl

@[simp] theorem checkUnitary_withTables (what : String) :
    (s.withTables qubits gates).checkUnitary what = s.checkUnitary what := rfl

@[simp] theorem isGlobal_withTables : (s.withTables qubits gates).isGlobal = s.isGlobal := rfl

variable [Scalar R]

theorem fold_withTables_apply : ∀ e : Expr, (s.withTables qubits gates).fold e = s.fold e
  | .lit _ | .call _ _ _ _ | .measure _ => rfl
  | .ident x => by rw [fold, fold, const?_withTables, bits_withTables]
  | .index x i => by rw [fold, fold, fold_withTables_apply i, bits_withTables]
  | .binary _ l r => by rw [fold, fold, fold_withTables_apply l, fold_withTables_apply r]
  | .unary _ e => by rw [fold, fold, fold_withTables_apply e]
  | .paren e => by rw [fold, fold, fold_withTables_apply e]

@[simp] theorem fold_withTables : (s.withTables qubits gates).fold = s.fold :=
  funext (s.fold_withTables_apply qubits gates)

@[simp] theorem reference_withTables (e : Expr) :
    (s.withTables qubits gates).reference e = s.reference e := by
  cases e with
  | index x i => rw [reference, reference, fold_withTables]
  | _ => rfl

@[simp] theorem bitsOf_withTables (e : Expr) :
    (s.withTables qubits gates).bitsOf e = s.bitsOf e := by
  rw [bitsOf, bitsOf, reference_withTables, bits_withTables]

@[simp] theorem declaredSize_withTables (d : TypedName) :
    (s.withTables qubits gates).declaredSize d = s.declaredSize d := by
  simp only [declaredSize, typeSize, fold_withTables]

@[simp] theorem convertResult_withTables (d : SubroutineDef) (val : Value R) :
    (s.withTables qubits gates).convertResult d val = s.convertResult d val := by
  simp only [convertResult, typeSize, fold_withTables]

@[simp] theorem countControls_withTables (ms : List Modifier) :
    (s.withTables qubits gates).countControls ms = s.countControls ms := by
  simp only [countControls, controlCount, fold_withTables]

@[simp] theorem exponent_withTables (m : Modifier) :
    (s.withTables qubits gates).exponent m = s.exponent m := by
  simp only [exponent, fold_withTables]

end Scope

end OpenQasm
