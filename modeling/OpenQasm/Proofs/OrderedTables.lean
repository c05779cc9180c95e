import OpenQasm.Proofs.BitAssignment

/-!
# Tables in the order of their names

A table has two halves: its names in an order, and what each name is bound to. Binding a name
changes each of them on its own: a new name comes last, and the name is bound to the new value.
Whatever is bound one after the other, the halves stay in step. The table then lists each name
once, in the order in which the names came first, with the value that came last, and this value is
also what is found under the name.
-/
namespace OpenQasm

section Bindings

variable {α : Type} {bs : List (String × α)} {x y : String} {v w : α}

/-- In a list of bindings, `v` is what `x` is bound to last. -/
def LastBinding (bs : List (String × α)) (x : String) (v : α) : Prop :=
  ∃ before after, bs = before ++ (x, v) :: after ∧ ∀ b ∈ after, b.1 ≠ x

theorem lastBinding_iff_lookup : LastBinding bs x v ↔ bs.reverse.lookup x = some v := by
  rw [List.lookup_eq_some_iff]
  constructor
  · rintro ⟨before, after, rfl, hafter⟩
    refine ⟨after.reverse, before.reverse, by simp, fun b hb => ?_⟩
    simpa using (hafter b (List.mem_reverse.1 hb)).symm
  · rintro ⟨after, before, heq, hafter⟩
    refine ⟨before.reverse, after.reverse, ?_, fun b hb => ?_⟩
    · simpa using congrArg List.reverse heq
    · simpa using (bne_iff_ne.1 (hafter b (List.mem_reverse.1 hb))).symm

theorem lastBinding_append_iff :
    LastBinding (bs ++ [(y, w)]) x v ↔ if x = y then v = w else LastBinding bs x v := by
  rw [lastBinding_iff_lookup, lastBinding_iff_lookup, List.reverse_append, List.reverse_singleton,
    List.singleton_append, List.lookup_cons]
  by_cases h : x = y
  · simp [h, eq_comm]
  · rw [if_neg h, beq_eq_false_iff_ne.2 h]

theorem exists_lastBinding_iff : (∃ v, LastBinding bs x v) ↔ x ∈ bs.map Prod.fst := by
  constructor
  · rintro ⟨v, before, after, rfl, -⟩
    simp
  · intro hx
    cases hlook : bs.reverse.lookup x with
    | some v => exact ⟨v, lastBinding_iff_lookup.2 hlook⟩
    | none =>
        obtain ⟨b, hb, rfl⟩ := List.mem_map.1 hx
        have hne := List.lookup_eq_none_iff.1 hlook b (List.mem_reverse.2 hb)
        simp at hne

end Bindings

namespace Table

variable {α : Type} {t : Table α} {bs : List (String × α)} {x : String} {v : α}

/-! Names and bindings of a table -/

theorem mem_entries_iff (hnames : t.names.Nodup) : (x, v) ∈ t.entries ↔ t.get? x = some v := by
  rw [get?, List.lookup_eq_some_iff]
  constructor
  · intro hmem
    obtain ⟨before, after, heq⟩ := List.append_of_mem hmem
    rw [names, heq, List.map_append, List.nodup_append] at hnames
    refine ⟨before, after, heq, fun b hb => bne_iff_ne.2 fun hname => ?_⟩
    exact hnames.2.2 b.1 (List.mem_map_of_mem hb) x List.mem_cons_self hname.symm
  · rintro ⟨before, after, heq, -⟩
    simp [heq]

/-! The two halves -/

/-- Names in an order, and what each name is bound to. Nothing says that the names in the order are
those that are bound. -/
structure Halves (α : Type) where
  order : List String
  value? : String → Option α

namespace Halves

def empty : Halves α := ⟨[], fun _ => none⟩

/-- Bind a name. The order is changed only if the name is not bound yet. -/
def add (s : Halves α) (x : String) (v : α) : Halves α where
  order := if (s.value? x).isSome then s.order else s.order ++ [x]
  value? y := if y = x then some v else s.value? y

/-- The names in order, each with what it is bound to. A name that is not bound is left out. -/
def listed (s : Halves α) : List (String × α) :=
  s.order.filterMap fun x => (s.value? x).map (x, ·)

end Halves

def halves (t : Table α) : Halves α := ⟨t.names, t.get?⟩

theorem halves_set (t : Table α) (x : String) (v : α) :
    (t.set x v).halves = t.halves.add x v :=
  congrArg₂ Halves.mk (names_set t x v) (funext fun y => get?_set t x y v)

theorem halves_setAll (t : Table α) (bs : List (String × α)) :
    (t.setAll bs).halves = bs.foldl (fun s b => s.add b.1 b.2) t.halves := by
  induction bs generalizing t with
  | nil => rfl
  | cons b bs ih =>
      rw [List.foldl_cons, ← halves_set]
      exact ih (t.set b.1 b.2)

/-- Going through the names and looking up each of them leaves nothing out. -/
theorem listed_halves (hnames : t.names.Nodup) : t.halves.listed = t.entries := by
  have hlisted : t.halves.listed = t.names.filterMap fun x => (t.get? x).map (x, ·) := rfl
  rw [hlisted, names, List.filterMap_map]
  refine (List.filterMap_congr fun r hr => ?_).trans List.filterMap_some
  have hget : t.get? r.1 = some r.2 := (mem_entries_iff hnames).1 hr
  rw [Function.comp_apply, hget]
  rfl

/-! Bindings one after the other -/

/-- A table has the names of a list of bindings in the order in which they come first there, each
bound to what comes last. -/
structure Lists (t : Table α) (bs : List (String × α)) : Prop where
  ordered : t.names.Pairwise fun x y => (bs.map Prod.fst).idxOf x < (bs.map Prod.fst).idxOf y
  last : ∀ x v, t.get? x = some v ↔ LastBinding bs x v

theorem Lists.mem_names_iff (h : t.Lists bs) : x ∈ t.names ↔ x ∈ bs.map Prod.fst := by
  rw [← contains_iff_mem_names, contains, Option.isSome_iff_exists, ← exists_lastBinding_iff]
  exact exists_congr (h.last x)

theorem Lists.distinct (h : t.Lists bs) : t.names.Nodup :=
  h.ordered.imp fun hlt heq => by simp [heq] at hlt

theorem lists_empty : (empty : Table α).Lists [] where
  ordered := .nil
  last x v := by
    rw [lastBinding_iff_lookup]
    rfl

/-- One more binding. A name that came before keeps its place. -/
theorem Lists.set (h : t.Lists bs) (y : String) (w : α) : (t.set y w).Lists (bs ++ [(y, w)]) where
  ordered := by
    have hbefore : t.names.Pairwise fun a b =>
        ((bs ++ [(y, w)]).map Prod.fst).idxOf a < ((bs ++ [(y, w)]).map Prod.fst).idxOf b := by
      refine h.ordered.imp_of_mem fun {a b} ha hb hab => ?_
      rwa [List.map_append, List.idxOf_append_of_mem (h.mem_names_iff.1 ha),
        List.idxOf_append_of_mem (h.mem_names_iff.1 hb)]
    rw [names_set]
    split
    · exact hbefore
    · rename_i hy
      rw [contains_iff_mem_names, h.mem_names_iff] at hy
      refine List.pairwise_append.2 ⟨hbefore, List.pairwise_singleton _ _, fun a ha b hb => ?_⟩
      rw [List.mem_singleton.1 hb, List.map_append,
        List.idxOf_append_of_mem (h.mem_names_iff.1 ha), List.idxOf_append_of_notMem hy]
      exact Nat.lt_add_right _ (List.idxOf_lt_length_iff.2 (h.mem_names_iff.1 ha))
  last x v := by
    rw [get?_set, lastBinding_append_iff]
    split
    · rw [Option.some.injEq, eq_comm]
    · exact h.last x v

theorem lists_setAll (bs : List (String × α)) : (empty.setAll bs).Lists bs := by
  induction bs using List.reverseRecOn with
  | nil => exact lists_empty
  | append_singleton bs b ih =>
      rw [setAll, List.foldl_append, ← setAll]
      exact ih.set b.1 b.2

end Table

namespace RegisterTable

variable {α : Type} {t : RegisterTable α} {x : String} {r : List α} {i : Int64}

/-! What is selected -/

theorem select_eq_undefined_iff {index : Option Int64} :
    t.select x index = .error (.undefined x) ↔ t.get? x = none := by
  rw [select]
  cases t.get? x with
  | none => simp
  | some r =>
      cases index with
      | none => simp
      | some i =>
          dsimp only
          cases (place? i r.length).bind (r[·]?) <;> simp

theorem select_index_ok_iff (hget : t.get? x = some r) {as : List α} :
    t.select x (some i) = .ok as ↔ ∃ k a, place? i r.length = some k ∧ r[k]? = some a ∧ as = [a] := by
  rw [select, hget]
  dsimp only
  cases hplace : place? i r.length with
  | none => simp
  | some k =>
      obtain ⟨-, hk, -⟩ := place?_eq_some_iff.1 hplace
      simp [List.getElem?_eq_getElem hk, eq_comm]

theorem select_index_error_iff (hget : t.get? x = some r) {e : EvalError} :
    t.select x (some i) = .error e ↔
      place? i r.length = none ∧ e = .indexOutOfRange x i r.length := by
  rw [select, hget]
  dsimp only
  cases hplace : place? i r.length with
  | none => simp [eq_comm]
  | some k =>
      obtain ⟨-, hk, -⟩ := place?_eq_some_iff.1 hplace
      simp [List.getElem?_eq_getElem hk]

/-- What a name and an index select if the name is bound to a register: the register as a whole,
or one element, counted from the start or from the end. A register of `2 ^ 63` elements and more,
which no memory holds, has no elements that an index selects. -/
structure Selects (t : RegisterTable α) (x : String) (r : List α) : Prop where
  whole : t.select x none = .ok r
  element : ∀ i as, t.select x (some i) = .ok as ↔ r.length < 2 ^ 63 ∧
    ∃ (k : Nat) (a : α), (i.toInt = k ∨ i.toInt = (k : Int) - r.length) ∧ r[k]? = some a ∧ as = [a]
  bounds : ∀ i, (∃ as, t.select x (some i) = .ok as) ↔ r.length < 2 ^ 63 ∧ InBounds r.length i
  outside : ∀ i e, t.select x (some i) = .error e ↔
    ¬(r.length < 2 ^ 63 ∧ InBounds r.length i) ∧ e = .indexOutOfRange x i r.length

theorem selects_of_get? (hget : t.get? x = some r) : t.Selects x r where
  whole := by rw [select, hget]
  element i as := by
    simp only [select_index_ok_iff hget, place?_eq_some_iff]
    constructor
    · rintro ⟨k, a, ⟨hlimit, -, hi⟩, ha, rfl⟩
      exact ⟨hlimit, k, a, hi, ha, rfl⟩
    · rintro ⟨hlimit, k, a, hi, ha, rfl⟩
      exact ⟨k, a, ⟨hlimit, (List.getElem?_eq_some_iff.1 ha).1, hi⟩, ha, rfl⟩
  bounds i := by
    simp only [select_index_ok_iff hget, ← exists_place?]
    constructor
    · rintro ⟨_, k, a, hk, -, -⟩
      exact ⟨k, hk⟩
    · rintro ⟨k, hk⟩
      obtain ⟨-, hlt, -⟩ := place?_eq_some_iff.1 hk
      exact ⟨_, k, r[k], hk, List.getElem?_eq_getElem hlt, rfl⟩
  outside i e := by
    rw [select_index_error_iff hget, ← exists_place?, Option.eq_none_iff_forall_ne_some, not_exists]

/-- Registers bound one after the other, in a table without names at first. The names stand in the
order in which they came first, none of them twice, and they are those that are bound. Each is
listed with the register that came last for it. The halves of the table are what becomes of an
order and of bindings that are changed apart from each other, and yet looking up the names in order
leaves none out, and all elements are those of these registers in turn. A name selects from its
last register; a name that never came is undefined, and no other name is. -/
theorem bound_registers_in_order (adds : List (String × List α)) :
    let t : RegisterTable α := Table.setAll .empty adds
    (t.names.Nodup ∧ (∀ x, x ∈ t.names ↔ t.contains x = true) ∧ t.Lists adds) ∧
    (∀ x r, (x, r) ∈ t.entries ↔ LastBinding adds x r) ∧
    (t.halves = adds.foldl (fun s b => s.add b.1 b.2) .empty ∧ t.halves.listed = t.entries) ∧
    t.all = (t.names.map fun x => (t.get? x).getD []).flatten ∧
    (∀ x index, t.select x index = .error (.undefined x) ↔ x ∉ adds.map Prod.fst) ∧
    ∀ x r, LastBinding adds x r → t.Selects x r := by
  intro t
  have hlists : t.Lists adds := Table.lists_setAll adds
  refine ⟨⟨hlists.distinct, fun x => Table.contains_iff_mem_names.symm, hlists⟩, fun x r => ?_,
    ⟨Table.halves_setAll .empty adds, Table.listed_halves hlists.distinct⟩, ?_, fun x index => ?_,
    fun x r hlast => ?_⟩
  · rw [Table.mem_entries_iff hlists.distinct, hlists.last]
  · rw [RegisterTable.all, List.flatMap_def, Table.names, List.map_map]
    refine congrArg List.flatten (List.map_congr_left fun b hb => ?_)
    rw [Function.comp_apply, (Table.mem_entries_iff hlists.distinct).1 hb, Option.getD_some]
  · rw [select_eq_undefined_iff, ← exists_lastBinding_iff]
    simp only [← hlists.last, not_exists]
    exact Option.eq_none_iff_forall_ne_some
  · exact selects_of_get? ((hlists.last x r).2 hlast)

def rebound : List (String × List Nat) := [("q", [0, 1]), ("r", [2]), ("q", [3, 4, 5])]

theorem bound_registers_in_order_again :
    let t : RegisterTable Nat := Table.setAll .empty rebound
    t.names = ["q", "r"] ∧ LastBinding rebound "q" [3, 4, 5] ∧ t.Selects "q" [3, 4, 5] ∧
      t.select "q" (some (-1)) = .ok [5] ∧ t.select "q" (some 2) = .ok [5] ∧
      t.select "q" (some (-4)) = .error (.indexOutOfRange "q" (-4) 3) := by
  intro t
  have hlast : LastBinding rebound "q" [3, 4, 5] :=
    ⟨[("q", [0, 1]), ("r", [2])], [], rfl, by simp⟩
  have hselects : t.Selects "q" [3, 4, 5] := (bound_registers_in_order rebound).2.2.2.2.2 "q" _ hlast
  refine ⟨by decide, hlast, hselects, ?_, ?_, ?_⟩
  · exact (hselects.element (-1) [5]).2 ⟨by decide, 2, 5, .inr (by decide), rfl, rfl⟩
  · exact (hselects.element 2 [5]).2 ⟨by decide, 2, 5, .inl (by decide), rfl, rfl⟩
  · exact (hselects.outside (-4) _).2 ⟨by decide, rfl⟩

end RegisterTable

end OpenQasm
