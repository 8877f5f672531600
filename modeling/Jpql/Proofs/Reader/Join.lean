import Jpql.Proofs.Reader.Select
import Jpql.Proofs.Token.Piece

/-! # Reading joins

A chain of joins is `SELECT a FROM E a JOIN a.f b JOIN b.g c`: each join goes over a field of the variable
in front of it, and declares the next one.

* `Lexeme.joinChain`: the lexemes of a query with such a chain.
* `Parse.JoinsAlong`, `Parse.SelectsChain`: the nodes of a join and of the whole statement.
* `Parse.Reads.join`, `Parse.Reads.joinChain`: a join is read up to the first token behind its variable,
  and a chain join by join. `parse_joinChain`: so is every text with the lexemes of a chain.
* `Text.joinChain`: the text of a chain with single spaces. `Text.lexemes_joinChain`: its lexemes. -/

namespace Jpql

namespace Lexeme

/-- `JOIN a.f b`. -/
def joinAlong (spelling : Keyword → List Char) (var : Name) (field : Word) (next : Name) : List Lexeme :=
  [spelt spelling .join, name var, dot, word field, name next]

/-- **`SELECT v₀ FROM E v₀ JOIN v₀.f₀ v₁ … JOIN vₙ₋₁.fₙ₋₁ vₙ`**, in any spelling. -/
def joinChain (spelling : Keyword → List Char) (entity : Name) (var : Nat → Name) (field : Nat → Word)
    (length : Nat) : List Lexeme :=
  spelt spelling .select :: name (var 0) :: spelt spelling .from :: name entity :: name (var 0) ::
    (List.range length).flatMap fun i => joinAlong spelling (var i) (field i) (var (i + 1))

end Lexeme

namespace Parse

variable {env : Env} {deeper : Deeper} {s : State} {ws rest : List Lexeme}

/-! ## The nodes of a chain -/

/-- The nodes of a join: its own, that of its path and that of its variable. -/
structure JoinNodes where
  node : Nat
  path : Nat
  declared : Nat
deriving Inhabited

/-- `JOIN a.f b`. -/
structure JoinsAlong (kindOf : Nat → NodeKind) (var : Name) (field : Word) (next : Name)
    (join : JoinNodes) : Prop where
  node : kindOf join.node = .join .join false join.path false (some join.declared) none
  path : HasPath kindOf .collectionValued join.path var.text [field]
  declared : IsVariable kindOf join.declared next.text

/-- A node is that of a join `JOIN a.f b`. -/
def IsJoinAlong (kindOf : Nat → NodeKind) (var : Name) (field : Word) (next : Name) (id : Nat) : Prop :=
  ∃ join : JoinNodes, join.node = id ∧ JoinsAlong kindOf var field next join

/-- **A statement with a chain of joins.** -/
def SelectsChain (kindOf : Nat → NodeKind) (entity : Name) (var : Nat → Name) (field : Nat → Word)
    (length id : Nat) (join : Nat → JoinNodes) : Prop :=
  ∃ select fromClause entry range,
    kindOf id = .selectStatement select (some fromClause) none none none none ∧
    SelectsOne kindOf select (var 0).text ∧ kindOf fromClause = .fromClause [entry] ∧
    kindOf entry = .variableDeclaration range ((List.range length).map fun i => (join i).node) ∧
    Ranges kindOf range entity.text (var 0).text ∧
    ∀ i < length, JoinsAlong kindOf (var i) (field i) (var (i + 1)) (join i)

section

variable {a b : Draft} (hg : a.Grows b) {id : Nat}

include hg

theorem HasPath.grows {kind : PathKind} {name : String} {words : List Word}
    (h : HasPath a.kind kind id name words) : HasPath b.kind kind id name words :=
  StartsPath.grows hg h

theorem JoinsAlong.grows {var next : Name} {field : Word} {join : JoinNodes}
    (h : JoinsAlong a.kind var field next join) : JoinsAlong b.kind var field next join where
  node := hg.kind_eq_of h.node (by simp)
  path := h.path.grows hg
  declared := h.declared.grows hg

theorem IsJoinAlong.grows {var next : Name} {field : Word} (h : IsJoinAlong a.kind var field next id) :
    IsJoinAlong b.kind var field next id :=
  h.imp fun _ hjoin => ⟨hjoin.1, hjoin.2.grows hg⟩

theorem SelectsChain.grows {entity : Name} {var : Nat → Name} {field : Nat → Word} {length : Nat}
    {join : Nat → JoinNodes} (h : SelectsChain a.kind entity var field length id join) :
    SelectsChain b.kind entity var field length id join := by
  obtain ⟨select, fromClause, entry, range, hid, hselect, hfrom, hentry, hrange, hjoins⟩ := h
  exact ⟨select, fromClause, entry, range, hg.kind_eq_of hid (by simp), hselect.grows hg,
    hg.kind_eq_of hfrom (by simp), hg.kind_eq_of hentry (by simp), hrange.grows hg,
    fun i hi => (hjoins i hi).grows hg⟩

end

/-- What is found for the items of a list in turn is a sequence. -/
theorem exists_seq {α γ : Type} [Inhabited γ] {node : γ → α} {P : Nat → γ → Prop} {length : Nat}
    {ids : List α} (h : List.Forall₂ (fun i id => ∃ x, node x = id ∧ P i x) (List.range length) ids) :
    ∃ f : Nat → γ, ids = (List.range length).map (fun i => node (f i)) ∧ ∀ i < length, P i (f i) := by
  have hlength : length = ids.length := List.length_range.symm.trans h.length_eq
  have hget : ∀ i, ∃ x, i < length → ids[i]? = some (node x) ∧ P i x := by
    intro i
    by_cases hi : i < length
    · obtain ⟨x, hx, hp⟩ := h.get (List.length_range.symm ▸ hi) (hlength ▸ hi)
      rw [List.get_eq_getElem, List.getElem_range] at hp
      exact ⟨x, fun _ => ⟨by rw [hx, List.getElem?_eq_getElem]; rfl, hp⟩⟩
    · exact ⟨default, fun hlt => absurd hlt hi⟩
  choose f hf using hget
  refine ⟨f, List.ext_getElem? fun i => ?_, fun i hi => (hf i hi).2⟩
  by_cases hi : i < length
  · rw [(hf i hi).1]
    simp [hi]
  · rw [List.getElem?_eq_none (by omega), List.getElem?_eq_none (by simpa using hi)]

namespace Reads

variable {spelling : Keyword → List Char} {entity var next : Name} {field : Word}

/-- **A path read last may be read as a collection**: nobody relies on its kind yet. -/
theorem asCollection_bind {β : Type} {p : Unit → Parser β} (post : β → Draft → Prop) {u : State} {id : Nat}
    {name : String} {words : List Word} {dot : Bool} (hu : Reached env s u ws) (hnew : s.draft.size ≤ id)
    (hid : StartsPath u.draft.kind .stateField id name words dot)
    (hp : ∀ t, Reached env s t ws → StartsPath t.draft.kind .collectionValued id name words dot →
      Reads env (p ()) t rest post) :
    Runs env (asCollection id >>= p) u fun a t => Reached env s t rest ∧ post a t.draft := by
  obtain ⟨root, segments, hkind, hroot, hvalues⟩ := hid
  have hlt : id < u.draft.size := by
    by_contra hge
    rw [Draft.kind, TreeBuilder.kind_of_size_le (Nat.le_of_not_lt hge)] at hkind
    cases hkind
  have hne : root ≠ id := by
    rintro rfl
    rw [IsVariable, hkind] at hroot
    cases hroot
  have hreached : Reached env s
      { u with builder := u.builder.retag id (u.builder.kind id).asCollection } ws :=
    ⟨hu.ahead.congr rfl rfl, hu.grows.asCollection hnew hlt, hu.problems⟩
  refine Runs.mono (hp _ hreached ⟨root, segments, ?_, ?_, hvalues⟩) fun _ _ ht =>
    ⟨hreached.trans ht.1, ht.2⟩
  · show (u.draft.asCollection id).kind id = _
    rw [Draft.kind_asCollection _ hlt, if_pos rfl, hkind]
    rfl
  · show (u.draft.asCollection id).kind root = _
    rw [Draft.kind_asCollection _ hlt, if_neg hne]
    exact hroot

theorem dispatch_joinPath : Grammar.standard.dispatch RuleId.joinPath .identifier = .ok (some .path) := by
  decide +kernel

/-- **A join is read** up to the first token behind its variable, unless a condition follows. -/
theorem join (hgrammar : env.grammar = .standard) (hrest : (headKind rest).isKeyword .on = false)
    (h : s.Ahead env (Lexeme.joinAlong spelling var field next ++ rest)) :
    Reads env (Parse.join deeper) s rest fun id d => IsJoinAlong d.kind var field next id := by
  have htype : Reads env joinType s (Lexeme.joinAlong spelling var field next ++ rest)
      fun type _ => type = .join := by
    refine consume_miss_bind h (headKind_spelt_ne (by decide)) ?_
    exact consume_miss_bind h (headKind_spelt_ne (by decide)) (Reads.pure h rfl)
  refine look_bind (htype.bind fun type t ht hjoin => ?_)
  subst hjoin
  refine (expectKeyword ht.ahead rfl).bind fun _ u hu _ => ?_
  refine consume_miss_bind hu.ahead headKind_name_ne ?_
  have hpath : Reads env (Parse.primary deeper RuleId.joinPath) u (Lexeme.name next :: rest)
      fun id d => u.draft.size ≤ id ∧ StartsPath d.kind .stateField id var.text [field] false := by
    refine primary_of_dispatch hgrammar dispatch_joinPath ?_ ?_
    · rw [trigger?, hu.ahead.kind]
      rfl
    · have hahead : u.Ahead env (Lexeme.name var ::
          (Lexeme.dotted [field] ++ (Lexeme.trailing false ++ Lexeme.name next :: rest))) := hu.ahead
      have hends : headKind (Lexeme.name next :: rest) ≠ .dot := fun hdot => by cases hdot
      refine (pathOrVariable hahead hends).mono fun id d _ hid => ⟨hid.1, ?_⟩
      have hstarts := hid.2
      rwa [if_neg (by simp)] at hstarts
  refine Runs.bind hpath fun path v hread => ?_
  obtain ⟨hv, hnew, hstarts⟩ := hread
  have hkind : Runs env (kindOf path) v fun kind w => kind = v.draft.kind path ∧ w = v :=
    ⟨_, v, rfl, rfl, rfl⟩
  refine hkind.bind ?_
  rintro _ _ ⟨rfl, rfl⟩
  obtain ⟨root, segments, hkind, -⟩ := id hstarts
  rw [hkind]
  refine asCollection_bind (fun id d => IsJoinAlong d.kind var field next id) hv hnew hstarts
    fun w hw hcollection => ?_
  refine consume_miss_bind hw.ahead headKind_name_ne ?_
  refine (declaredVariable? hw.ahead).bind fun id? x hx hid => ?_
  obtain ⟨declared, rfl, hdeclared⟩ := hid
  have hon : Reads env (onClause? deeper) x rest fun on d => on = none ∧ d = x.draft := by
    refine look_bind ?_
    rw [TokenStream.checkKeyword, hx.ahead.kind, hrest]
    exact Reads.pure hx.ahead ⟨rfl, rfl⟩
  refine hon.bind fun on y hy hnone => ?_
  obtain ⟨rfl, hdraft⟩ := hnone
  refine (pushFrom _ _ hy.ahead).mono fun id d hgrows hid => ⟨⟨id, path, declared⟩, rfl, hid.2, ?_, ?_⟩
  · exact StartsPath.grows (hx.grows.trans (hy.grows.trans hgrows)) hcollection
  · exact hdeclared.grows (hy.grows.trans hgrows)

/-- **A range is read with the joins behind it**, up to the end of the text. -/
theorem declaration_joins (hgrammar : env.grammar = .standard) {var : Nat → Name} {field : Nat → Word}
    {length : Nat} (h : s.Ahead env (Lexeme.name entity :: Lexeme.name (var 0) ::
      (List.range length).flatMap fun i => Lexeme.joinAlong spelling (var i) (field i) (var (i + 1)))) :
    Reads env (declaration deeper) s [] fun id d => ∃ range joins,
      d.kind id = .variableDeclaration range joins ∧ Ranges d.kind range entity.text (var 0).text ∧
      List.Forall₂ (fun i => IsJoinAlong d.kind (var i) (field i) (var (i + 1))) (List.range length) joins := by
  refine look_bind ?_
  rw [TokenStream.checkKeyword, h.kind]
  refine look_bind ((rangeDeclaration h).bind fun range t ht hrange => ?_)
  have hjoins : Reads env (loop (fun joins => do
      if ← look atJoin then return some (joins ++ [← Parse.join deeper]) else return none) []) t [] fun joins d =>
        List.Forall₂ (fun i => IsJoinAlong d.kind (var i) (field i) (var (i + 1))) (List.range length) joins := by
    have hahead := ht.ahead
    rw [← List.append_nil (List.flatMap _ _)] at hahead
    refine collect (fun kind => kind.isKeyword .on = false) ?_ ?_ ?_ rfl ?_ ?_ hahead .nil
    · exact fun a b i id hg hjoin => hjoin.grows hg
    · exact fun i ws => rfl
    · exact fun i => List.cons_ne_nil _ _
    · intro items u hu
      refine (Runs.look atJoin u).bind ?_
      rintro _ _ ⟨rfl, rfl⟩
      rw [atJoin, hu.kind]
      exact Runs.pure ⟨rfl, rfl⟩
    · intro i hi items u ws hws hu
      refine look_bind ?_
      rw [atJoin, hu.kind]
      exact (join hgrammar hws hu).bind fun id v hv hjoin => Reads.pure hv.ahead ⟨id, rfl, hjoin⟩
  refine hjoins.bind fun joins u hu hjoins => ?_
  refine (pushFrom _ _ hu.ahead).mono fun id d hgrows hid => ⟨range, joins, hid.2, ?_, ?_⟩
  · exact hrange.grows (hu.grows.trans hgrows)
  · exact hjoins.imp fun i id hjoin => hjoin.grows hgrows

/-- **A chain of joins is read join by join.** -/
theorem joinChain (hgrammar : env.grammar = .standard) {var : Nat → Name} {field : Nat → Word}
    {length : Nat} (h : s.Ahead env (Lexeme.joinChain spelling entity var field length)) :
    Reads env (selectStatement deeper) s [] fun id d =>
      ∃ join, SelectsChain d.kind entity var field length id join := by
  refine look_bind ((selectClause hgrammar h).bind fun select t ht hselect => ?_)
  have hfrom : Reads env (Parse.fromClause? deeper false) t [] fun id? d => ∃ id entry range joins,
      id? = some id ∧ d.kind id = .fromClause [entry] ∧ d.kind entry = .variableDeclaration range joins ∧
      Ranges d.kind range entity.text (var 0).text ∧
      List.Forall₂ (fun i => IsJoinAlong d.kind (var i) (field i) (var (i + 1))) (List.range length) joins := by
    refine look_bind (consume_hit_bind ht.ahead rfl fun u hu _ => ?_)
    refine (separated_one (declaration_joins hgrammar hu.ahead) nofun).bind fun ids v hv hids => ?_
    obtain ⟨entry, rfl, range, joins, hentry, hrange, hjoins⟩ := hids
    refine (pushFrom _ _ hv.ahead).bind fun id w hw hid => Reads.pure hw.ahead ?_
    exact ⟨id, entry, range, joins, rfl, hid.2, hw.grows.kind_eq_of hentry (by simp),
      hrange.grows hw.grows, hjoins.imp fun i id hjoin => hjoin.grows hw.grows⟩
  refine hfrom.bind fun from? u hu hfrom => ?_
  obtain ⟨fromClause, entry, range, joins, rfl, hclause, hentry, hrange, hjoins⟩ := hfrom
  obtain ⟨join, rfl, hjoin⟩ := exists_seq hjoins
  refine clause_miss_bind hu.ahead (clause_miss_bind hu.ahead (clause_miss_bind hu.ahead
    (clause_miss_bind hu.ahead ?_)))
  refine (pushFrom _ _ hu.ahead).mono fun id d hgrows hid => ?_
  exact ⟨join, select, fromClause, entry, range, hid.2, hselect.grows (hu.grows.trans hgrows),
    hgrows.kind_eq_of hclause (by simp), hgrows.kind_eq_of hentry (by simp), hrange.grows hgrows,
    fun i hi => (hjoin i hi).grows hgrows⟩

end Reads

end Parse

open Parse

/-- **A text with a chain of joins is read without a problem**, whatever its layout: its statement is the
chain. -/
theorem parse_joinChain {source : String} {spelling : Keyword → List Char} {entity : Name}
    {var : Nat → Name} {field : Nat → Word} {length : Nat} (maxDepth : Nat)
    (hlexical : (tokenize source).problems = [])
    (hsource : Text.lexemes source = Lexeme.joinChain spelling entity var field length) :
    ∃ tree id join, parse source RuleId.statement maxDepth = .ok ⟨tree, []⟩ ∧
      tree.kind tree.root = .query (some id) none ∧
      SelectsChain tree.kind entity var field length id join := by
  have hahead := State.ahead_lexemes source maxDepth
  rw [hsource] at hahead
  have hregistered : (Grammar.standard.rule? RuleId.statement).isSome = true :=
    Grammar.standard_registers (by simp)
  obtain ⟨tree, hparse, id, hroot, join, hchain⟩ := parse_of_reads
    (fun root kindOf => ∃ id, kindOf root = .query (some id) none ∧
      ∃ join, SelectsChain kindOf entity var field length id join)
    hlexical hregistered (.query (fun id a b hg h => h.imp fun join hchain => hchain.grows hg)
      (.start_select rfl rfl (.joinChain rfl hahead) hahead))
  exact ⟨tree, id, join, hparse, hroot, hchain⟩

/-! ## The text of a chain -/

theorem Scan.Cuts.name {cs : List Char} {ws : List Lexeme} (name : Name)
    (hcs : ∀ c ∈ cs.head?, Scan.isWordPart c = false) (h : Scan.Cuts cs ws) :
    Scan.Cuts (name.text.toList ++ cs) (Lexeme.name name :: ws) := by
  have hword := word name.toWord hcs h
  unfold Lexeme.word Scan.wordKind at hword
  rwa [name.notKeyword] at hword

/-- The text of one join. -/
def Text.joinAlong (var : Name) (field : Word) (next : Name) : String :=
  " JOIN " ++ var.text ++ "." ++ field.text ++ " " ++ next.text

/-- **`SELECT v₀ FROM E v₀ JOIN v₀.f₀ v₁ … JOIN vₙ₋₁.fₙ₋₁ vₙ`**, with single spaces. -/
def Text.joinChain (entity : Name) (var : Nat → Name) (field : Nat → Word) (length : Nat) : String :=
  "SELECT " ++ (var 0).text ++ " FROM " ++ entity.text ++ " " ++ (var 0).text ++
    String.join ((List.range length).map fun i => joinAlong (var i) (field i) (var (i + 1)))

theorem Scan.Cuts.joins (var : Nat → Name) (field : Nat → Word) (is : List Nat) :
    Scan.Cuts (is.flatMap fun i => (Text.joinAlong (var i) (field i) (var (i + 1))).toList)
        (is.flatMap fun i => Lexeme.joinAlong (·.spelling.toList) (var i) (field i) (var (i + 1))) ∧
      ∀ c ∈ (is.flatMap fun i => (Text.joinAlong (var i) (field i) (var (i + 1))).toList).head?,
        Scan.isWordPart c = false := by
  induction is with
  | nil => exact ⟨.nil, nofun⟩
  | cons i is ih =>
    have htext : ∀ rest : List Char, (Text.joinAlong (var i) (field i) (var (i + 1))).toList ++ rest =
        ' ' :: (Keyword.join.spelling.toList ++ ' ' :: ((var i).text.toList ++
          '.' :: ((field i).text.toList ++ ' ' :: ((var (i + 1)).text.toList ++ rest)))) := by
      intro rest
      have hjoin : Keyword.join.spelling = "JOIN" := rfl
      simp [Text.joinAlong, hjoin]
    rw [List.flatMap_cons, List.flatMap_cons, htext]
    refine ⟨?_, stops rfl⟩
    have hnext := (name (var (i + 1)) ih.2 ih.1).space
    have hpath := dot (field i) (word (field i) (stops rfl) hnext)
    exact (keyword .join (stops rfl) (name (var i) (stops rfl) hpath).space).space

/-- **The text of a chain** has the lexemes of the chain, and no lexical problem. -/
theorem Text.lexemes_joinChain (entity : Name) (var : Nat → Name) (field : Nat → Word) (length : Nat) :
    (tokenize (Text.joinChain entity var field length)).problems = [] ∧
      Text.lexemes (Text.joinChain entity var field length) =
        Lexeme.joinChain (·.spelling.toList) entity var field length := by
  obtain ⟨hjoins, hstops⟩ := Scan.Cuts.joins var field (List.range length)
  have htext : (Text.joinChain entity var field length).toList = Keyword.select.spelling.toList ++
      ' ' :: ((var 0).text.toList ++ ' ' :: (Keyword.from.spelling.toList ++
        ' ' :: (entity.text.toList ++ ' ' :: ((var 0).text.toList ++ (List.range length).flatMap fun i =>
          (Text.joinAlong (var i) (field i) (var (i + 1))).toList)))) := by
    have hselect : Keyword.select.spelling = "SELECT" := rfl
    have hfrom : Keyword.from.spelling = "FROM" := rfl
    simp [Text.joinChain, hselect, hfrom, String.toList_join, List.flatMap_map]
  refine tokenize_of_cuts ?_
  rw [htext]
  have hrange := (Scan.Cuts.name (var 0) hstops hjoins).space
  have hfrom := (Scan.Cuts.keyword .from (Scan.Cuts.stops rfl)
    (Scan.Cuts.name entity (Scan.Cuts.stops rfl) hrange).space).space
  exact Scan.Cuts.keyword .select (Scan.Cuts.stops rfl)
    (Scan.Cuts.name (var 0) (Scan.Cuts.stops rfl) hfrom).space

end Jpql
