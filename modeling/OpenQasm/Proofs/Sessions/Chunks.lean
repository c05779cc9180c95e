import Mathlib.Data.List.Forall2
import OpenQasm.Proofs.Lexing.Lines
import OpenQasm.Proofs.Parsing.Locality.Stmt
import OpenQasm.Session

/-!
# Where a text can be run

A text can be run if no brace is open and it ends with a semicolon or a brace. In a text
without syntax errors this is the case exactly after each of its statements: within a
statement either a brace is open or the last token does not end anything. So a stretch of
such a text that can be run holds whole statements, and is read as these.
-/
namespace OpenQasm

open OpenQasm.Parser

/-! Braces -/

/-- What a token adds to the number of open braces. -/
def Token.brace : Token → Int
  | symbol .lbrace => 1
  | symbol .rbrace => -1
  | _ => 0

theorem Token.brace_of_isInner {t : Token} (h : t.isInner = true) : t.brace = 0 := by
  cases t with
  | symbol s => cases s <;> first | rfl | cases h
  | _ => rfl

theorem Token.ends_of_isInner {t : Token} (h : t.isInner = true) : t.ends = false := by
  cases t with
  | symbol s => cases s <;> first | rfl | cases h
  | _ => rfl

theorem Token.isIllegal_of_isInner {t : Token} (h : t.isInner = true) : t.isIllegal = false := by
  cases t with
  | illegal => cases h
  | _ => rfl

/-- Open braces without the closed ones. -/
def braceDepth : List Token → Int
  | [] => 0
  | t :: ts => t.brace + braceDepth ts

@[simp] theorem braceDepth_nil : braceDepth [] = 0 := rfl

@[simp] theorem braceDepth_cons (t : Token) (ts : List Token) :
    braceDepth (t :: ts) = t.brace + braceDepth ts := rfl

@[simp] theorem braceDepth_append (us vs : List Token) :
    braceDepth (us ++ vs) = braceDepth us + braceDepth vs := by
  induction us with
  | nil => simp
  | cons u us ih =>
      rw [List.cons_append, braceDepth_cons, braceDepth_cons, ih]
      omega

theorem openBraces_eq (ls : List Lexeme) :
    Session.openBraces ls = braceDepth (ls.map Lexeme.token) := by
  have hstep : ∀ (l : Lexeme) (d : Int), (if l.token = .symbol .lbrace then d + 1
      else if l.token = .symbol .rbrace then d - 1 else d) = d + l.token.brace := by
    intro l d
    cases l.token with
    | symbol s => cases s <;> simp [Token.brace, Int.sub_eq_add_neg]
    | _ => simp [Token.brace]
  have hfold : ∀ (ls : List Lexeme) (d : Int), ls.foldl (fun d l =>
      if l.token = .symbol .lbrace then d + 1
      else if l.token = .symbol .rbrace then d - 1
      else d) d = d + braceDepth (ls.map Lexeme.token) := by
    intro ls
    induction ls with
    | nil => simp
    | cons l ls ih =>
        intro d
        rw [List.foldl_cons, hstep, ih, List.map_cons, braceDepth_cons, Int.add_assoc]
  rw [Session.openBraces, hfold, Int.zero_add]

/-- No brace is open, and the last token can end a statement. -/
structure Complete (ts : List Token) : Prop where
  closed : braceDepth ts ≤ 0
  last : ∃ t ∈ ts.getLast?, t.ends = true

theorem Token.ends_iff {t : Token} :
    t.ends = true ↔ t = .symbol .semicolon ∨ t = .symbol .rbrace := by
  cases t with
  | symbol s => cases s <;> simp [Token.ends]
  | _ => simp [Token.ends]

theorem isComplete_iff (source : String) :
    Session.isComplete source = true ↔ Complete (tokensOf source.toList) := by
  rw [← significant_tokens]
  simp only [Session.isComplete, Bool.and_eq_true, decide_eq_true_eq, openBraces_eq]
  constructor
  · rintro ⟨hclosed, hlast⟩
    refine ⟨hclosed, ?_⟩
    rw [List.getLast?_map]
    cases hl : (significant source).getLast? with
    | none => simp [hl] at hlast
    | some l =>
        simp only [hl, Bool.or_eq_true, decide_eq_true_eq] at hlast
        exact ⟨l.token, rfl, Token.ends_iff.2 hlast⟩
  · rintro ⟨hclosed, t, ht, hends⟩
    refine ⟨hclosed, ?_⟩
    rw [List.getLast?_map] at ht
    obtain ⟨l, hl, rfl⟩ := Option.map_eq_some_iff.1 ht
    simpa only [hl, Bool.or_eq_true, decide_eq_true_eq] using Token.ends_iff.1 hends

/-! Braces within statements -/

/-- All braces are closed, and none of them before it is opened. -/
structure Balanced (ts : List Token) : Prop where
  total : braceDepth ts = 0
  nonneg : ∀ v w, ts = v ++ w → 0 ≤ braceDepth v

namespace Balanced

theorem of_brace {ts : List Token} (h : ∀ t ∈ ts, t.brace = 0) : Balanced ts := by
  have hzero : ∀ vs : List Token, (∀ t ∈ vs, t.brace = 0) → braceDepth vs = 0 := by
    intro vs hvs
    induction vs with
    | nil => rfl
    | cons v vs ih =>
        obtain ⟨hv, hvs⟩ := List.forall_mem_cons.1 hvs
        rw [braceDepth_cons, hv, ih hvs, Int.add_zero]
  refine ⟨hzero ts h, fun v w hts => ?_⟩
  subst hts
  have := hzero v (List.forall_mem_append.1 h).1
  omega

theorem append {us vs : List Token} (hu : Balanced us) (hv : Balanced vs) : Balanced (us ++ vs) where
  total := by rw [braceDepth_append, hu.total, hv.total, Int.add_zero]
  nonneg v w h := by
    rcases List.append_eq_append_iff.1 h with ⟨as, rfl, hw⟩ | ⟨bs, hus, -⟩
    · rw [braceDepth_append, hu.total, Int.zero_add]
      exact hv.nonneg as w hw
    · exact hu.nonneg v bs hus

theorem flatten {us : List (List Token)} (h : ∀ u ∈ us, Balanced u) : Balanced us.flatten := by
  induction us with
  | nil => exact .of_brace (by simp)
  | cons u us ih =>
      obtain ⟨hu, hus⟩ := List.forall_mem_cons.1 h
      exact hu.append (ih hus)

/-- Up to its closing brace a body is open. -/
theorem open_of_ne_nil {ts v w : List Token} (h : Balanced ts)
    (hts : ts ++ [.symbol .rbrace] = v ++ w) (hw : w ≠ []) :
    0 < braceDepth (.symbol .lbrace :: v) := by
  have hnonneg : 0 ≤ braceDepth v := by
    rcases List.append_eq_append_iff.1 hts with ⟨as, rfl, hlast⟩ | ⟨bs, hts, -⟩
    · cases as with
      | nil => simp [h.total]
      | cons t as =>
          obtain ⟨-, hnil⟩ := List.cons.inj hlast
          exact absurd (List.append_eq_nil_iff.1 hnil.symm).2 hw
    · exact h.nonneg v bs hts
  have hbrace : Token.brace (.symbol .lbrace) = 1 := rfl
  rw [braceDepth_cons, hbrace]
  omega

theorem enclosed {ts : List Token} (h : Balanced ts) :
    Balanced (.symbol .lbrace :: (ts ++ [.symbol .rbrace])) := by
  have htotal : braceDepth (.symbol .lbrace :: (ts ++ [.symbol .rbrace])) = 0 := by
    simp [h.total, Token.brace]
  refine ⟨htotal, fun v w hts => ?_⟩
  cases v with
  | nil => simp
  | cons t v =>
      obtain ⟨rfl, hrest⟩ := List.cons.inj hts
      by_cases hw : w = []
      · subst hw
        rw [List.append_nil] at hts
        rw [hts] at htotal
        omega
      · have := h.open_of_ne_nil hrest hw
        omega

end Balanced

namespace Parser.Span

theorem balanced {u : List Token} (h : Span u) : Balanced u := by
  induction h with
  | simple hphrase =>
      refine .of_brace (List.forall_mem_append.2 ⟨fun t ht => ?_, by simp [Token.brace]⟩)
      exact Token.brace_of_isInner (hphrase t ht)
  | body hphrase _ ih =>
      exact (Balanced.of_brace fun t ht => Token.brace_of_isInner (hphrase t ht)).append
        (Balanced.flatten ih).enclosed

theorem isIllegal {u : List Token} (h : Span u) : ∀ t ∈ u, t.isIllegal = false := by
  induction h with
  | simple hphrase =>
      intro t ht
      rcases List.mem_append.1 ht with ht | ht
      · exact Token.isIllegal_of_isInner (hphrase t ht)
      · obtain rfl := List.mem_singleton.1 ht
        rfl
  | body hphrase _ ih =>
      intro t ht
      simp only [List.mem_append, List.mem_cons, List.mem_flatten, List.not_mem_nil, or_false] at ht
      rcases ht with ht | rfl | ⟨u, hu, ht⟩ | rfl
      · exact Token.isIllegal_of_isInner (hphrase t ht)
      · rfl
      · exact ih u hu t ht
      · rfl

/-- A statement ends with a token that can end one. -/
theorem complete {u : List Token} (h : Span u) : Complete u := by
  refine ⟨Int.le_of_eq h.balanced.total, ?_⟩
  cases h with
  | simple hphrase => exact ⟨.symbol .semicolon, by simp, rfl⟩
  | body hphrase hus =>
      refine ⟨.symbol .rbrace, ?_, rfl⟩
      refine List.mem_getLast?_append_of_mem_getLast? (List.mem_getLast?_cons ?_)
      exact List.mem_getLast?_append_of_mem_getLast? rfl

theorem not_complete_of_isInner {v : List Token} (h : ∀ t ∈ v, t.isInner = true) : ¬Complete v := by
  rintro ⟨-, t, ht, hends⟩
  rw [Token.ends_of_isInner (h t (List.mem_of_getLast? ht))] at hends
  cases hends

/-- No part of a statement at its front can be run. -/
theorem not_complete {u v w : List Token} (h : Span u) (hu : u = v ++ w) (hw : w ≠ []) :
    ¬Complete v := by
  cases h with
  | simple hphrase =>
      rcases List.append_eq_append_iff.1 hu with ⟨as, rfl, hlast⟩ | ⟨bs, rfl, -⟩
      · cases as with
        | nil => exact not_complete_of_isInner (by simpa using hphrase)
        | cons t as =>
            obtain ⟨-, hnil⟩ := List.cons.inj hlast
            exact absurd (List.append_eq_nil_iff.1 hnil.symm).2 hw
      · exact not_complete_of_isInner (List.forall_mem_append.1 hphrase).1
  | body hphrase hus =>
      rcases List.append_eq_append_iff.1 hu with ⟨as, rfl, hrest⟩ | ⟨bs, rfl, -⟩
      · cases as with
        | nil => exact not_complete_of_isInner (by simpa using hphrase)
        | cons t as =>
            obtain ⟨rfl, htail⟩ := List.cons.inj hrest
            intro hv
            have hopen := (Balanced.flatten fun u hu => (hus u hu).balanced).open_of_ne_nil htail hw
            have hbefore := Balanced.of_brace fun t ht => Token.brace_of_isInner (hphrase t ht)
            have hclosed := hv.closed
            rw [braceDepth_append, hbefore.total] at hclosed
            omega
      · exact not_complete_of_isInner (List.forall_mem_append.1 hphrase).1

end Parser.Span

/-! Statements in a row -/

section Chunks

variable {us : List (List Token)}

theorem complete_flatten (hus : ∀ u ∈ us, Span u) (hne : us ≠ []) : Complete us.flatten := by
  refine ⟨Int.le_of_eq (Balanced.flatten fun u hu => (hus u hu).balanced).total, ?_⟩
  induction us with
  | nil => exact absurd rfl hne
  | cons u us ih =>
      obtain ⟨hu, hus⟩ := List.forall_mem_cons.1 hus
      cases us with
      | nil => simpa using hu.complete.last
      | cons v vs =>
          obtain ⟨t, ht, hends⟩ := ih hus (by simp)
          exact ⟨t, List.mem_getLast?_append_of_mem_getLast? ht, hends⟩

/-- What can be run at the front of statements in a row is some of these statements. -/
theorem exists_chunk (hus : ∀ u ∈ us, Span u) {front back : List Token}
    (h : us.flatten = front ++ back) (hfront : Complete front) :
    ∃ us₁ us₂, us = us₁ ++ us₂ ∧ us₁.flatten = front ∧ us₂.flatten = back := by
  induction us generalizing front with
  | nil =>
      obtain ⟨rfl, -⟩ := List.append_eq_nil_iff.1 h.symm
      obtain ⟨t, ht, -⟩ := hfront.last
      cases ht
  | cons u us ih =>
      obtain ⟨hu, hus⟩ := List.forall_mem_cons.1 hus
      rw [List.flatten_cons] at h
      rcases List.append_eq_append_iff.1 h with ⟨as, rfl, hrest⟩ | ⟨bs, hu', hback⟩
      · by_cases has : as = []
        · subst has
          exact ⟨[u], us, rfl, by simp, hrest⟩
        · have hcomplete : Complete as := by
            have hclosed := hfront.closed
            obtain ⟨t, ht, hends⟩ := hfront.last
            rw [braceDepth_append, hu.balanced.total, Int.zero_add] at hclosed
            rw [List.getLast?_append_of_ne_nil _ has] at ht
            exact ⟨hclosed, t, ht, hends⟩
          obtain ⟨us₁, us₂, rfl, rfl, hback⟩ := ih hus hrest hcomplete
          exact ⟨u :: us₁, us₂, rfl, rfl, hback⟩
      · by_cases hbs : bs = []
        · subst hbs
          rw [List.append_nil] at hu'
          subst hu'
          exact ⟨[u], us, rfl, by simp, hback.symm⟩
        · exact absurd hfront (hu.not_complete hu' hbs)

end Chunks

/-! Texts without syntax errors -/

/-- Sentences in a row and their statements, with a version declaration only where `opening`
allows it. -/
structure Sentences (opening : Bool) (us : List (List Token)) (cs : List Stmt) : Prop where
  each : List.Forall₂ Sentence us cs
  versionFirst : VersionFirst opening cs

namespace Sentences

variable {opening : Bool} {us : List (List Token)} {cs : List Stmt}

theorem of_opening (h : Sentences opening us cs) : Sentences true us cs where
  each := h.each
  versionFirst := by
    cases cs with
    | nil => trivial
    | cons c cs => exact ⟨fun _ => rfl, h.versionFirst.2⟩

theorem of_append {us₁ us₂ : List (List Token)} (h : Sentences opening (us₁ ++ us₂) cs) :
    ∃ cs₁ cs₂, cs = cs₁ ++ cs₂ ∧ Sentences opening us₁ cs₁ ∧ Sentences true us₂ cs₂ := by
  induction us₁ generalizing opening cs with
  | nil => exact ⟨[], cs, rfl, ⟨.nil, trivial⟩, h.of_opening⟩
  | cons u us₁ ih =>
      obtain ⟨c, cs', hu, hothers, rfl⟩ := List.forall₂_cons_left_iff.1 h.each
      obtain ⟨cs₁, cs₂, rfl, hfirst, hsecond⟩ := ih ⟨hothers, h.versionFirst.2⟩
      exact ⟨c :: cs₁, cs₂, rfl,
        ⟨.cons hu hfirst.each, h.versionFirst.1, hfirst.versionFirst⟩, hsecond⟩

/-- A text that is cut into sentences is read as their statements. -/
theorem recover (h : Sentences true us cs) {source : String}
    (hsource : tokensOf source.toList = us.flatten) : Program.recover source = (⟨cs⟩, []) := by
  have hspells : Spells us.flatten (significant source) [] := by
    have hmap := spells_map (significant source) []
    rwa [significant_tokens, hsource, List.append_nil] at hmap
  have hstops : StopsAt false [] := rfl
  obtain ⟨hstmts, herrors, -⟩ := statements_of_sentences h.each h.versionFirst hstops hspells
  rw [Program.recover]
  simp only [hstmts, herrors]

end Sentences

theorem map_token_of_spells {used : List Token} {ts : List Lexeme} (h : Spells used ts []) :
    ts.map Lexeme.token = used := by
  induction used generalizing ts with
  | nil =>
      obtain rfl : ts = [] := h
      rfl
  | cons t used ih =>
      obtain ⟨l, r, rfl, hl, hr⟩ := h
      rw [List.map_cons, hl, ih hr]

/-- A text without syntax errors is cut into sentences. -/
theorem exists_sentences {source : String} {p : Program} (h : Program.parse source = .ok p) :
    ∃ us, tokensOf source.toList = us.flatten ∧ Sentences true us p.statements := by
  rw [Program.parse] at h
  split at h
  · rename_i hrecover
    cases h
    obtain ⟨rfl, herrors⟩ := Prod.mk.inj hrecover
    obtain ⟨us, hus⟩ := exists_written (significant source) false true herrors
    have hspells := hus.spells
    rw [hus.stops rfl] at hspells
    refine ⟨us, ?_, hus.sentences, hus.versionFirst⟩
    rw [← significant_tokens]
    exact map_token_of_spells hspells
  · cases h

/-- If a part of a text can be run that is cut on its own, it is read as the statements that
start there, and the rest of the text is cut into the others. -/
theorem Sentences.chunk {us : List (List Token)} {cs : List Stmt} (h : Sentences true us cs)
    {source : String} {rest : List Token} (hcut : tokensOf source.toList ++ rest = us.flatten)
    (hcomplete : Session.isComplete source = true) :
    ∃ cs₁ us₂ cs₂, cs = cs₁ ++ cs₂ ∧ Program.recover source = (⟨cs₁⟩, []) ∧
      rest = us₂.flatten ∧ Sentences true us₂ cs₂ := by
  obtain ⟨us₁, us₂, rfl, hfront, hback⟩ :=
    exists_chunk (span_of_mem h.each) hcut.symm ((isComplete_iff source).1 hcomplete)
  obtain ⟨cs₁, cs₂, rfl, hfirst, hsecond⟩ := h.of_append
  exact ⟨cs₁, us₂, cs₂, rfl, hfirst.recover hfront.symm, hback.symm, hsecond⟩

end OpenQasm
