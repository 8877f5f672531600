import Jpql.Proofs.Token.Piece

/-! # Texts with normalised blanks

Blanks are normalised without a look at the tokens: single quotes alone say whether a blank belongs to a
string. In a text of pieces that is enough, since a string has its quotes doubled. So lexemes stay as
they are, and each gap between two of them becomes one space.

Normalising a second time changes nothing, as the results are just the texts that are *tidy*: a blank outside
single quotes is one space between two other characters.

* `Text.Tidy`: tidy texts. `Text.normalizeBlanks_eq_self_iff`: they are the texts that stay as they are.
* `Text.collapseBlanks_lexeme`: a lexeme is kept.
* `Piece.normalizeBlanks_render`, `Piece.Fit.exists_normalized`: what becomes of a text that ends in a lexeme,
  and of a text without lexical problems.
* `Text.normalizeBlanks_lossless`: what normalising keeps. -/

namespace Jpql

open Scan

namespace Text

theorem isBlank_of_isGap {c : Char} (h : isGap c = true) : isBlank c = true := by
  rcases gap_cases h with rfl | rfl | rfl | rfl | rfl <;> rfl

/-- The space that a run of blanks leaves behind, if it has to be written. -/
def pendingSpace (pending started : Bool) : List Char :=
  if pending && started then [' '] else []

/-- A character that is no blank is kept; a quote starts a string. -/
theorem collapseBlanks_cons {c : Char} (hc : isBlank c = false) (pending started : Bool)
    (rest : List Char) : collapseBlanks false pending started (c :: rest) =
      pendingSpace pending started ++ c :: collapseBlanks (c == '\'') false true rest := by
  rw [collapseBlanks, hc]
  simp only [Bool.and_false, Bool.false_bne, Bool.false_eq_true, if_false, pendingSpace]
  split <;> rfl

/-! ## Tidy texts -/

/-- The characters leave a quote open: there is an odd number of quotes among them. -/
def leavesOpen (cs : List Char) : Bool := cs.count '\'' % 2 == 1

theorem leavesOpen_cons (c : Char) (cs : List Char) :
    leavesOpen (c :: cs) = ((c == '\'') != leavesOpen cs) := by
  unfold leavesOpen
  rw [List.count_cons]
  cases c == '\'' with
  | false => simp
  | true =>
    rcases Nat.mod_two_eq_zero_or_one (cs.count '\'') with hcount | hcount
    · simp [Nat.add_mod, hcount]
    · simp [Nat.add_mod, hcount]

/-- **Every blank outside quotes is one space between two other characters.** `quoted` says that the text
starts between quotes, and `inner` that something stands in front of it. -/
def TidyFrom (quoted inner : Bool) (cs : List Char) : Prop := ∀ front c back, cs = front ++ c :: back →
  (quoted != leavesOpen front) = false → isBlank c = true →
    c = ' ' ∧ (front = [] → inner = true) ∧ ∃ next ∈ back.head?, isBlank next = false

/-- **A tidy text.** -/
def Tidy (text : String) : Prop := TidyFrom false false text.toList

/-- One character more in front. -/
theorem tidyFrom_cons {quoted inner : Bool} {c : Char} {cs : List Char} :
    TidyFrom quoted inner (c :: cs) ↔
      (quoted = false → isBlank c = true →
        c = ' ' ∧ inner = true ∧ ∃ next ∈ cs.head?, isBlank next = false) ∧
      TidyFrom (quoted != (c == '\'')) true cs := by
  constructor
  · refine fun h => ⟨fun hquoted hblank => ?_, fun front d back heq hout hblank => ?_⟩
    · obtain ⟨hspace, hinner, hnext⟩ := h [] c cs rfl (by simp [hquoted, leavesOpen]) hblank
      exact ⟨hspace, hinner rfl, hnext⟩
    · rw [Bool.bne_assoc, ← leavesOpen_cons] at hout
      obtain ⟨hspace, -, hnext⟩ := h (c :: front) d back (congrArg (c :: ·) heq) hout hblank
      exact ⟨hspace, fun _ => rfl, hnext⟩
  · rintro ⟨hfirst, hrest⟩ front d back heq hout hblank
    cases front with
    | nil =>
      obtain ⟨rfl, rfl⟩ := List.cons.inj heq
      obtain ⟨hspace, hinner, hnext⟩ := hfirst (by simpa [leavesOpen] using hout) hblank
      exact ⟨hspace, fun _ => hinner, hnext⟩
    | cons e front =>
      obtain ⟨rfl, rfl⟩ := List.cons.inj heq
      rw [leavesOpen_cons, ← Bool.bne_assoc] at hout
      obtain ⟨hspace, -, hnext⟩ := hrest front d back rfl hout hblank
      exact ⟨hspace, by simp, hnext⟩

theorem tidyFrom_collapseBlanks (quoted pending started : Bool) (cs : List Char) :
    TidyFrom quoted started (collapseBlanks quoted pending started cs) := by
  induction cs generalizing quoted pending started with
  | nil => intro front c back heq; simp [collapseBlanks] at heq
  | cons c cs ih =>
    rw [collapseBlanks]
    split
    · exact ih quoted true started
    · next hkept =>
      -- whatever is kept is no blank, or stands between quotes
      have hsolid : quoted = false → isBlank c = false := by simpa using hkept
      have hrest (inner : Bool) :
          TidyFrom quoted inner (c :: collapseBlanks (quoted != (c == '\'')) false true cs) :=
        tidyFrom_cons.mpr ⟨fun hquoted hblank => absurd hblank (by simp [hsolid hquoted]), ih _ _ _⟩
      dsimp only
      split
      · next hspace =>
        obtain ⟨-, rfl⟩ := Bool.and_eq_true_iff.mp hspace
        refine tidyFrom_cons.mpr ⟨fun hquoted _ => ⟨rfl, rfl, c, rfl, hsolid hquoted⟩, ?_⟩
        rw [show (quoted != (' ' == '\'')) = quoted by simp]
        exact hrest true
      · exact hrest started

theorem collapseBlanks_of_tidyFrom {quoted started : Bool} {cs : List Char}
    (h : TidyFrom quoted started cs) : collapseBlanks quoted false started cs = cs := by
  induction cs generalizing quoted started with
  | nil => rfl
  | cons c cs ih =>
    obtain ⟨hfirst, hrest⟩ := tidyFrom_cons.mp h
    rw [collapseBlanks]
    split
    · next hdropped =>
      -- the space is put off, and written in front of the next character
      obtain ⟨hquoted, hblank⟩ : quoted = false ∧ isBlank c = true := by simpa using hdropped
      obtain ⟨rfl, rfl, next, hnext, hsolid⟩ := hfirst hquoted hblank
      obtain ⟨rest, rfl⟩ := List.head?_eq_some_iff.mp hnext
      subst hquoted
      have hkept := ih hrest
      rw [show (false != (' ' == '\'')) = false from rfl, collapseBlanks_cons hsolid] at hkept
      rw [collapseBlanks_cons hsolid]
      exact congrArg (' ' :: ·) hkept
    · rw [ih hrest]
      rfl

theorem tidy_normalizeBlanks (text : String) : Tidy (normalizeBlanks text) := by
  rw [Tidy, normalizeBlanks, String.toList_ofList]
  exact tidyFrom_collapseBlanks false false false text.toList

/-- **The tidy texts are those that normalising leaves as they are.** -/
theorem normalizeBlanks_eq_self_iff {text : String} : normalizeBlanks text = text ↔ Tidy text := by
  refine ⟨fun h => h ▸ tidy_normalizeBlanks text, fun h => ?_⟩
  rw [normalizeBlanks, collapseBlanks_of_tidyFrom h, String.ofList_toList]

/-- A quote that is never closed keeps the blanks behind it, those at the end as well. -/
example : normalizeBlanks "\u00a0 it's\u2003 \t" = "it's\u2003 \t" := by decide +kernel

/-! ## Lexemes and gaps -/

theorem collapseBlanks_solid {c : Char} (hc : isSolid c = true) (pending started : Bool)
    (rest : List Char) : collapseBlanks false pending started (c :: rest) =
      pendingSpace pending started ++ c :: collapseBlanks false false true rest := by
  simp only [isSolid, Bool.and_eq_true, Bool.not_eq_true', bne_iff_ne] at hc
  rw [collapseBlanks_cons hc.1, beq_eq_false_iff_ne.mpr hc.2]

theorem collapseBlanks_solids {cs : List Char} (hcs : ∀ c ∈ cs, isSolid c = true)
    (rest : List Char) : collapseBlanks false false true (cs ++ rest) =
      cs ++ collapseBlanks false false true rest := by
  induction cs with
  | nil => rfl
  | cons c cs ih =>
    rw [List.forall_mem_cons] at hcs
    rw [List.cons_append, collapseBlanks_solid hcs.1, ih hcs.2]
    rfl

/-- Inside a string every character is kept. -/
theorem collapseBlanks_quoted (value rest : List Char) :
    collapseBlanks true false true (double value ++ '\'' :: rest) =
      double value ++ '\'' :: collapseBlanks false false true rest := by
  induction value with
  | nil => rfl
  | cons c cs ih =>
    unfold double
    by_cases hc : c = '\''
    · -- a doubled quote ends the string and starts it again
      rw [if_pos hc]
      exact congrArg (fun cs => '\'' :: '\'' :: cs) ih
    · have hquote : (c == '\'') = false := beq_eq_false_iff_ne.mpr hc
      rw [if_neg hc, List.cons_append, collapseBlanks]
      simp only [hquote, Bool.not_true, Bool.false_and, Bool.bne_false, ih, Bool.false_eq_true,
        if_false, List.cons_append]

/-- **A lexeme is kept as it is.** -/
theorem collapseBlanks_lexeme {w : Lexeme} (hw : w.IsRead) (pending started : Bool)
    (rest : List Char) : collapseBlanks false pending started (w.chars ++ rest) =
      pendingSpace pending started ++ (w.chars ++ collapseBlanks false false true rest) := by
  obtain ⟨c, cs, hchars, -⟩ := hw.exists_cons
  unfold Lexeme.IsRead at hw
  rw [hchars] at hw ⊢
  by_cases hc : c = '\''
  · subst hc
    obtain ⟨value, after, rfl, hlength, -, -⟩ := lexeme?_quote hw
    obtain rfl : after = [] := by
      simp only [List.length_cons, List.length_append] at hlength
      exact List.length_eq_zero_iff.mp (by omega)
    rw [List.cons_append, List.append_assoc, List.singleton_append, collapseBlanks_cons rfl]
    show _ ++ '\'' :: collapseBlanks true false true _ = _
    rw [collapseBlanks_quoted]
    simp
  · have hsolid := (lexeme?_solid hc hw).1
    rw [Solid, List.take_length, List.forall_mem_cons] at hsolid
    rw [List.cons_append, collapseBlanks_solid hsolid.1, collapseBlanks_solids hsolid.2]
    rfl

/-- A gap is put off. -/
theorem collapseBlanks_gap {gap : List Char} (hgap : ∀ c ∈ gap, isGap c = true)
    (pending started : Bool) (rest : List Char) :
    collapseBlanks false pending started (gap ++ rest) =
      collapseBlanks false (pending || !gap.isEmpty) started rest := by
  induction gap generalizing pending with
  | nil => simp
  | cons c cs ih =>
    rw [List.forall_mem_cons] at hgap
    rw [List.cons_append, collapseBlanks, isBlank_of_isGap hgap.1]
    simpa using ih hgap.2 true

end Text

namespace Piece

/-- The piece with its gap, if it has one, made one space. -/
def tidy (p : Piece) : Piece := { p with gap := Text.pendingSpace (!p.gap.isEmpty) true }

/-- The pieces can be read, each by itself, and have gaps behind them. -/
def Plain (ps : List Piece) : Prop := ∀ p ∈ ps, p.toLexeme.IsRead ∧ ∀ c ∈ p.gap, isGap c = true

theorem Fit.plain {ps : List Piece} (h : Fit ps) : Plain ps := by
  induction h with
  | nil => exact List.forall_mem_nil _
  | cons hl hgap _ ih =>
    exact List.forall_mem_cons.mpr ⟨⟨lexeme?_of_append hl (Nat.le_refl _), hgap⟩, ih⟩

/-- A text with its gaps tidied, and any gap at its end, has the same lexemes. -/
theorem Respaced.tidy_append {inner ps qs : List Piece} (hinner : Plain inner) {last : Piece}
    {gap : List Char} (hgap : ∀ c ∈ gap, Scan.isGap c = true) (hkept : gap = [] → qs = [])
    (h : Respaced ps qs) :
    Respaced (inner ++ last :: ps) (inner.map tidy ++ { last with gap } :: qs) := by
  induction inner with
  | nil => exact .cons hgap (fun hnil => .inr (hkept hnil)) h
  | cons p inner ih =>
    rw [Plain, List.forall_mem_cons] at hinner
    refine .cons ?_ (fun hnil => .inl ?_) (ih hinner.2)
    · unfold Text.pendingSpace
      split <;> simp [Scan.isGap]
    · unfold Text.pendingSpace at hnil
      split at hnil
      · cases hnil
      · next hempty => simpa using hempty

/-- The gaps between lexemes are tidied, and a gap behind the last of them is dropped. -/
theorem collapseBlanks_render {ps : List Piece} (hps : Plain ps) {w : Lexeme} (hw : w.IsRead)
    {gap : List Char} (hgap : ∀ c ∈ gap, isGap c = true) (pending started : Bool) :
    Text.collapseBlanks false pending started (render ps ++ (w.chars ++ gap)) =
      Text.pendingSpace pending started ++ (render (ps.map tidy) ++ w.chars) := by
  induction ps generalizing pending started with
  | nil =>
    have hlast := Text.collapseBlanks_gap hgap false true []
    rw [List.append_nil, Text.collapseBlanks] at hlast
    rw [render, List.nil_append, Text.collapseBlanks_lexeme hw, hlast, List.append_nil]
    rfl
  | cons p ps ih =>
    obtain ⟨⟨hp, hgap⟩, hps⟩ := List.forall_mem_cons.mp hps
    simp only [render, List.map_cons, List.append_assoc]
    rw [Text.collapseBlanks_lexeme hp, Text.collapseBlanks_gap hgap, Bool.false_or, ih hps]
    rfl

/-- **The lexemes of a text stay as they are**, and each gap between them becomes one space. -/
theorem normalizeBlanks_render {ps : List Piece} (hps : Plain ps) {w : Lexeme} (hw : w.IsRead) :
    (Text.normalizeBlanks (String.ofList (render ps ++ w.chars))).toList =
      render (ps.map tidy) ++ w.chars := by
  have hrender := collapseBlanks_render hps hw (List.forall_mem_nil _) false false
  rw [List.append_nil] at hrender
  rw [Text.normalizeBlanks, String.toList_ofList, String.toList_ofList, hrender]
  rfl

/-- **A normalised text has the lexemes of the text**, with a space where there was a gap between them. -/
theorem Fit.exists_normalized {lead : List Char} (hlead : ∀ c ∈ lead, Scan.isGap c = true)
    {ps : List Piece} (h : Fit ps) : ∃ qs, Respaced ps qs ∧
      Text.normalizeBlanks (String.ofList (lead ++ render ps)) = String.ofList (render qs) := by
  rw [Text.normalizeBlanks, String.toList_ofList, Text.collapseBlanks_gap hlead]
  rcases List.eq_nil_or_concat ps with rfl | ⟨inner, last, rfl⟩
  · exact ⟨[], .nil, rfl⟩
  · rw [List.concat_eq_append] at h ⊢
    have hplain := h.plain
    rw [Plain, List.forall_mem_append, List.forall_mem_singleton] at hplain
    obtain ⟨hinner, hread, hgap⟩ := hplain
    refine ⟨inner.map tidy ++ [{ last with gap := [] }],
      .tidy_append hinner (List.forall_mem_nil _) (fun _ => rfl) .nil, congrArg String.ofList ?_⟩
    simp only [render_append, render, List.append_nil]
    rw [collapseBlanks_render hinner hread hgap]
    simp [Text.pendingSpace]

end Piece

namespace Text

/-- **Normalising blanks loses nothing but blanks.** A second time it changes nothing, whatever the text, and
a text without lexical problems keeps the kinds of its tokens, to which the values of names, numbers and
strings belong, and gets no problems. -/
theorem normalizeBlanks_lossless (text : String) :
    normalizeBlanks (normalizeBlanks text) = normalizeBlanks text ∧
    ((tokenize text).problems = [] →
      (tokenize (normalizeBlanks text)).tokens.map (·.kind) = (tokenize text).tokens.map (·.kind) ∧
      (tokenize (normalizeBlanks text)).problems = []) := by
  refine ⟨normalizeBlanks_eq_self_iff.mpr (tidy_normalizeBlanks text), fun hclean => ?_⟩
  obtain ⟨lead, ps, hsource, hlead, hfit⟩ := Scan.exists_fit text.toList 0 hclean
  obtain ⟨qs, hrespaced, hnormal⟩ := hfit.exists_normalized hlead
  rw [← hsource, String.ofList_toList] at hnormal
  have hbefore := tokenize_of_fit text hlead hfit hsource
  have hafter := tokenize_of_fit (normalizeBlanks text) (List.forall_mem_nil _)
    (hrespaced.fit hfit) (by rw [hnormal, String.toList_ofList, List.nil_append])
  refine ⟨?_, congrArg Lexed.problems hafter⟩
  rw [hbefore, hafter]
  simp only [List.map_append, Piece.map_kind_tokens, hrespaced.map_kind, List.map_cons, List.map_nil]

/-- Blanks at both ends, between strings side by side, next to doubled quotes and in a string that has nothing
else. -/
theorem normalizeBlanks_lossless_quotes :
    (tokenize "\t a='it''s  '' '\n\r '\u00a0 ' +\x0c\n1. ").problems = [] ∧
    normalizeBlanks "\t a='it''s  '' '\n\r '\u00a0 ' +\x0c\n1. " = "a='it''s  '' ' '\u00a0 ' + 1." ∧
    (tokenize (normalizeBlanks "\t a='it''s  '' '\n\r '\u00a0 ' +\x0c\n1. ")).tokens.map (·.kind) =
      (tokenize "\t a='it''s  '' '\n\r '\u00a0 ' +\x0c\n1. ").tokens.map (·.kind) ∧
    (tokenize (normalizeBlanks "\t a='it''s  '' '\n\r '\u00a0 ' +\x0c\n1. ")).problems = [] := by
  have hclean : (tokenize "\t a='it''s  '' '\n\r '\u00a0 ' +\x0c\n1. ").problems = [] := by
    decide +kernel
  exact ⟨hclean, by decide +kernel, (normalizeBlanks_lossless _).2 hclean⟩

end Text

end Jpql
