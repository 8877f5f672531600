import Jpql.Parse.Path
import Jpql.Proofs.Reader.Ahead

/-! # Reading names

Variables and paths where they lie ahead. A path starts at a name; behind a dot every word is a
segment. What a path stands for is given by the text of its words: `HasPath kindOf id name words`.

* `Reads.segments`: the segments of a path are read up to the first token that is no dot, or behind a dot
  up to the first that is no word.
* `Reads.pathOrVariable`: a variable is read, or a path with its segments. -/

namespace Jpql

namespace Lexeme

/-- A name. -/
def name (name : Name) : Lexeme := ⟨.identifier name.text, name.text.toList⟩

theorem isRead_name (n : Name) : (name n).IsRead := by
  have h := isRead_word n.toWord
  unfold Lexeme.word Scan.wordKind at h
  rw [n.notKeyword] at h
  exact h

/-- Words, each behind a dot. -/
def dotted (words : List Word) : List Lexeme := words.flatMap fun w => [dot, word w]

/-- A dot with nothing behind it, or nothing at all. -/
def trailing : (dot : Bool) → List Lexeme
  | true => [dot]
  | false => []

end Lexeme

/-- The token is a word, a name or a keyword. -/
def TokenKind.isWord : TokenKind → Bool
  | .identifier _ | .keyword _ => true
  | _ => false

namespace Parse

variable {env : Env} {s : State} {ws rest : List Lexeme}

/-- The node is a variable with this name, written in the text. -/
def IsVariable (kindOf : Nat → NodeKind) (id : Nat) (name : String) : Prop :=
  kindOf id = .identifier name false none

/-- The node is a path with this first name and these segments. -/
def HasPath (kindOf : Nat → NodeKind) (kind : PathKind) (id : Nat) (name : String)
    (words : List Word) : Prop :=
  ∃ root segments, kindOf id = .path kind root segments false ∧ IsVariable kindOf root name ∧
    segments.map (·.value) = words.map (·.text)

/-- The node is a path with this first name and these segments, and perhaps a dot behind them. -/
def StartsPath (kindOf : Nat → NodeKind) (kind : PathKind) (id : Nat) (name : String)
    (words : List Word) (dot : Bool) : Prop :=
  ∃ root segments, kindOf id = .path kind root segments dot ∧ IsVariable kindOf root name ∧
    segments.map (·.value) = words.map (·.text)

theorem IsVariable.grows {a b : Draft} (hg : a.Grows b) {id : Nat} {name : String}
    (h : IsVariable a.kind id name) : IsVariable b.kind id name :=
  hg.kind_eq_of h (by simp)

theorem StartsPath.grows {a b : Draft} (hg : a.Grows b) {kind : PathKind} {id : Nat} {name : String}
    {words : List Word} {dot : Bool} (h : StartsPath a.kind kind id name words dot) :
    StartsPath b.kind kind id name words dot := by
  obtain ⟨root, segments, hid, hroot, hsegments⟩ := h
  exact ⟨root, segments, hg.kind_eq_of hid (by simp), hroot.grows hg, hsegments⟩

/-- A word behind a dot is a segment. -/
theorem State.Ahead.pathSegment? {word : Word} (h : s.Ahead env (Lexeme.word word :: ws)) :
    (s.stream env).pathSegment? = some word.text := by
  unfold TokenStream.pathSegment?
  rw [h.kind, headKind, Lexeme.word, Scan.wordKind]
  cases hword : Keyword.ofWord? word.text with
  | none => rfl
  | some keyword =>
    show some (s.stream env).currentText = _
    rw [h.currentText]
    show some (String.ofList word.text.toList) = _
    rw [String.ofList_toList]

/-- Anything else behind a dot is none. -/
theorem State.Ahead.pathSegment?_eq_none (h : s.Ahead env ws) (hws : (headKind ws).isWord = false) :
    (s.stream env).pathSegment? = none := by
  unfold TokenStream.pathSegment?
  rw [h.kind]
  cases hkind : headKind ws <;> rw [hkind] at hws <;> first | rfl | cases hws

theorem State.Ahead.consume?_dot (h : s.Ahead env ws) (hws : headKind ws ≠ .dot) :
    (s.stream env).consume? .dot = none := by
  rw [TokenStream.consume?, TokenStream.check, h.kind, if_neg (by simpa using hws)]

/-- A token behind which a path has come to its end: behind a dot no word, else no dot. -/
def EndsPath (dot : Bool) (kind : TokenKind) : Prop :=
  if dot then kind.isWord = false else kind ≠ .dot

theorem segments_stream {words : List Word} {dot : Bool}
    (h : s.Ahead env (Lexeme.dotted words ++ (Lexeme.trailing dot ++ rest)))
    (hrest : EndsPath dot (headKind rest)) (bound : Nat) (hbound : words.length < bound) :
    ∃ segments position, (s.stream env).segments bound =
        ((segments, dot), { s with position := position }.stream env) ∧
      segments.map (·.value) = words.map (·.text) ∧
      { s with position := position }.Ahead env rest := by
  obtain ⟨bound, rfl⟩ : ∃ n, bound = n + 1 := Nat.exists_eq_succ_of_ne_zero (by omega)
  have hconsume : ∀ {s : State} {ws}, s.Ahead env (Lexeme.dot :: ws) →
      (s.stream env).consume? .dot = some ((s.stream env).current.span, (s.stream env).advance) := by
    intro s ws hs
    rw [TokenStream.consume?, TokenStream.check, hs.kind]
    rfl
  induction words generalizing s bound with
  | nil =>
    cases dot with
    | false =>
      refine ⟨[], s.position, ?_, rfl, h⟩
      rw [TokenStream.segments, h.consume?_dot hrest]
    | true =>
      have hdot : s.Ahead env (Lexeme.dot :: rest) := h
      obtain ⟨position, hadvance, hahead⟩ := hdot.exists_advance
      refine ⟨[], position, ?_, rfl, hahead⟩
      rw [TokenStream.segments, hconsume hdot]
      dsimp only
      rw [hadvance, hahead.pathSegment?_eq_none hrest]
  | cons word words ih =>
    obtain ⟨bound, rfl⟩ : ∃ n, bound = n + 1 := Nat.exists_eq_succ_of_ne_zero (by
      rw [List.length_cons] at hbound
      omega)
    have hdot : s.Ahead env (Lexeme.dot :: Lexeme.word word ::
        (Lexeme.dotted words ++ (Lexeme.trailing dot ++ rest))) := h
    obtain ⟨first, hfirst, hword⟩ := hdot.exists_advance
    obtain ⟨second, hsecond, hmore⟩ := hword.exists_advance
    obtain ⟨segments, position, hsegments, hvalues, hahead⟩ :=
      ih hmore bound (by rw [List.length_cons] at hbound; omega)
    refine ⟨⟨word.text, ({ s with position := first }.stream env).current.span⟩ :: segments,
      position, ?_, by rw [List.map_cons, hvalues]; rfl, hahead⟩
    rw [TokenStream.segments, hconsume hdot]
    dsimp only
    rw [hfirst, hword.pathSegment?]
    dsimp only
    rw [hsecond, hsegments]

/-- **The segments of a path are read** up to the first token that is no dot, or behind a dot up to the
first that is no word. -/
theorem Reads.segments {words : List Word} {dot : Bool}
    (h : s.Ahead env (Lexeme.dotted words ++ (Lexeme.trailing dot ++ rest)))
    (hrest : EndsPath dot (headKind rest)) :
    Reads env segments s rest fun found d =>
      found.1.map (·.value) = words.map (·.text) ∧ found.2 = dot ∧ d = s.draft := by
  have hbound : words.length < env.tokens.size := h.length_flatMap_lt fun _ => List.cons_ne_nil _ _
  obtain ⟨located, position, hsegments, hvalues, hahead⟩ :=
    segments_stream h hrest env.tokens.size hbound
  refine ⟨(located, dot), { s with position := position }, ?_,
    ⟨hahead, .refl _, rfl⟩, hvalues, rfl, rfl⟩
  show Except.ok (((s.stream env).segments env.tokens.size).1,
    { s with position := ((s.stream env).segments env.tokens.size).2.position }) = _
  rw [hsegments]
  rfl

theorem virtualFor?_bind {β : Type} {name : String} {f : Option String → Parser β}
    {post : β → Draft → Prop} (h : s.Ahead env ws) (hf : Reads env (f none) s rest post) :
    Reads env (virtualFor? name >>= f) s rest post := by
  refine Runs.bind (⟨none, s, ?_, rfl, rfl⟩ : Runs env (virtualFor? name) s fun a t =>
    a = none ∧ t = s) ?_
  · show Except.ok (Option.filter _ s.virtualVariable, s) = _
    rw [h.notVirtual]
    rfl
  · rintro _ _ ⟨rfl, rfl⟩
    exact hf

/-- **A name ahead is a variable if no dot follows it**, else it starts a path. Nothing is reported if the
path ends with a dot. -/
theorem Reads.pathOrVariable {name : Name} {words : List Word} {dot : Bool}
    (h : s.Ahead env (Lexeme.name name :: (Lexeme.dotted words ++ (Lexeme.trailing dot ++ rest))))
    (hrest : EndsPath dot (headKind rest)) :
    Reads env pathOrVariable s rest fun id d => s.draft.size ≤ id ∧
      if words = [] ∧ dot = false then IsVariable d.kind id name.text
      else StartsPath d.kind .stateField id name.text words dot := by
  have htext : (s.stream env).currentText = name.text := by
    rw [h.currentText]
    exact String.ofList_toList
  refine look_bind (look_bind ?_)
  rw [htext]
  refine (advance h).bind fun _ t ht hd => ?_
  refine (segments ht.ahead hrest).bind fun found u hu hfound => ?_
  obtain ⟨hvalues, hdot, hdraft⟩ := hfound
  obtain ⟨located, endsWithDot⟩ := found
  obtain rfl : endsWithDot = dot := hdot
  have hempty : located.isEmpty = true ↔ words = [] := by
    rw [List.isEmpty_iff, ← List.map_eq_nil_iff (f := (·.value)), hvalues, List.map_eq_nil_iff]
  have hbare : (located.isEmpty && !endsWithDot) = true ↔ words = [] ∧ endsWithDot = false := by
    rw [Bool.and_eq_true, hempty, Bool.not_eq_true']
  refine virtualFor?_bind hu.ahead ?_
  refine (push (.identifier name.text false none) _ hu.ahead).bind fun root v hv hroot => ?_
  have hsize : s.draft.size ≤ root := by rw [hroot.1, hdraft, hd]
  by_cases hvariable : words = [] ∧ endsWithDot = false
  · rw [hbare.mpr hvariable]
    exact Reads.pure hv.ahead ⟨hsize, by rw [if_pos hvariable]; exact hroot.2⟩
  · rw [Bool.eq_false_iff.mpr fun he => hvariable (hbare.mp he), if_neg Bool.false_ne_true]
    refine (pushFrom _ _ hv.ahead).mono fun id d hgrows hid => ?_
    rw [if_neg hvariable]
    refine ⟨?_, root, located, hid.2, hgrows.kind_eq_of hroot.2 (by simp), hvalues⟩
    have hle : s.draft.size ≤ v.draft.size := by
      rw [← hd, ← hdraft]
      exact hv.grows.size_le
    rw [hid.1]
    exact hle

end Parse

end Jpql
