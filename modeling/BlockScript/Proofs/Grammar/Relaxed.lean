import BlockScript.Proofs.Grammar.Programs

/-!
The grammar with one rule relaxed: any equality may be the target of an assignment. Derivations are
trees that keep all their tokens, and the targets that are no names can be listed from them. Reading
a program of the relaxed grammar reports those targets and nothing else.
-/
namespace BlockScript.Grammar
open Program

/-- A single identifier is read as a name by every level. -/
private theorem Derives.eq_name {l : Level} {tokens : List Token} {e : Expr}
    {marks : List SyntaxError}
    (h : Derives l tokens e marks) {t : Token} (ht : tokens = [t]) (hk : t.kind = .identifier) :
    e = .name t := by
  induction h with
  | assign => cases ht
  | group => simp at ht
  | badTarget hd | binary hd =>
    obtain ⟨first, rest, rfl, -⟩ := hd.head
    simp at ht
  | unary _ hd =>
    obtain ⟨first, rest, rfl, -⟩ := hd.head
    cases ht
  | equality _ ih | operand _ ih | primary _ ih => exact ih ht
  | literal hv =>
    cases ht
    cases hv <;> simp_all
  | name =>
    cases ht
    rfl

namespace Relaxed

/-- A token of one of some kinds. -/
abbrev Terminal (kinds : List TokenKind) := { t : Token // t.kind ∈ kinds }

/-- The tokens that are an operand by themselves. -/
def atoms : List TokenKind :=
  [.number, .string, .keyword .trueWord, .keyword .falseWord, .keyword .nilWord, .identifier]

/-- Derivations of the expressions of a level. -/
inductive Phrase : Level → Type where
  | assignment (target : Phrase (.binary .equality)) (mark : Terminal [.symbol .equal])
      (value : Phrase .assignment) : Phrase .assignment
  | equality (inner : Phrase (.binary .equality)) : Phrase .assignment
  | binary {b : Binding} (left : Phrase (.binary b)) (operator : Terminal (b.operators.map .symbol))
      (right : Phrase b.tighter) : Phrase (.binary b)
  | operand {b : Binding} (inner : Phrase b.tighter) : Phrase (.binary b)
  | unary (operator : Terminal [.symbol .bang, .symbol .minus]) (inner : Phrase .unary) :
      Phrase .unary
  | primary (inner : Phrase .primary) : Phrase .unary
  | atom (t : Terminal atoms) : Phrase .primary
  | group (opening : Terminal [.symbol .leftParen]) (inner : Phrase .assignment)
      (closing : Terminal [.symbol .rightParen]) : Phrase .primary

/-- Derivations of declarations and statements. -/
inductive Clause : Type where
  | variable (word : Terminal [.keyword .varWord]) (name : Terminal [.identifier])
      (closing : Terminal [.symbol .semicolon])
  | initialized (word : Terminal [.keyword .varWord]) (name : Terminal [.identifier])
      (mark : Terminal [.symbol .equal]) (initial : Phrase .assignment)
      (closing : Terminal [.symbol .semicolon])
  | print (word : Terminal [.keyword .printWord]) (value : Phrase .assignment)
      (closing : Terminal [.symbol .semicolon])
  | block (opening : Terminal [.symbol .leftBrace]) (clauses : List Clause)
      (closing : Terminal [.symbol .rightBrace])
  | expression (value : Phrase .assignment) (closing : Terminal [.symbol .semicolon])

/-- A single identifier. -/
def isName : List Token → Bool
  | [t] => t.kind = .identifier
  | _ => false

namespace Phrase

/-- The tokens that are derived. -/
def tokens {l : Level} : Phrase l → List Token
  | assignment target mark value => target.tokens ++ mark.val :: value.tokens
  | binary left operator right => left.tokens ++ operator.val :: right.tokens
  | equality inner | operand inner | primary inner => inner.tokens
  | unary operator inner => operator.val :: inner.tokens
  | atom t => [t.val]
  | group opening inner closing => opening.val :: inner.tokens ++ [closing.val]

/-- The equals signs of the assignments to what is not a single identifier. Those in a target come
before those in the value, and the sign of the assignment itself is last. -/
def badMarks {l : Level} : Phrase l → List Token
  | assignment target mark value =>
    target.badMarks ++ value.badMarks ++ if isName target.tokens then [] else [mark.val]
  | binary left _ right => left.badMarks ++ right.badMarks
  | equality inner | operand inner | primary inner | unary _ inner | group _ inner _ =>
    inner.badMarks
  | atom _ => []

end Phrase

namespace Clause

mutual

def tokens : Clause → List Token
  | .variable word name closing => [word.val, name.val, closing.val]
  | .initialized word name mark initial closing =>
    word.val :: name.val :: mark.val :: initial.tokens ++ [closing.val]
  | .print word value closing => word.val :: value.tokens ++ [closing.val]
  | .block opening clauses closing => opening.val :: allTokens clauses ++ [closing.val]
  | .expression value closing => value.tokens ++ [closing.val]

def allTokens : List Clause → List Token
  | [] => []
  | first :: rest => first.tokens ++ allTokens rest

end

mutual

def badMarks : Clause → List Token
  | .variable .. => []
  | .initialized _ _ _ inner _ | .print _ inner _ | .expression inner _ => inner.badMarks
  | .block _ clauses _ => allBadMarks clauses

/-- The equals signs of the bad targets of a program, in the order of the derivation. -/
def allBadMarks : List Clause → List Token
  | [] => []
  | first :: rest => first.badMarks ++ allBadMarks rest

end

end Clause

/-- What is reported about an assignment to what is no name. -/
def badTargetAt (mark : Token) : SyntaxError := ⟨.invalidTarget, mark⟩

private theorem isName_iff {tokens : List Token} :
    isName tokens = true ↔ ∃ t, tokens = [t] ∧ t.kind = .identifier := by
  fun_cases isName tokens <;> simp_all

/-- A token of the only kind. -/
def Terminal.of {kind : TokenKind} (t : Token) (h : t.kind = kind) : Terminal [kind] :=
  ⟨t, List.mem_singleton.mpr h⟩

private theorem Terminal.kind_eq {kind : TokenKind} (t : Terminal [kind]) : t.val.kind = kind :=
  List.mem_singleton.mp t.property

private theorem kind_mem_atoms {t : Token} {v : Value} (h : Denotes t v) : t.kind ∈ atoms := by
  cases h <;> simp [atoms, *]

/-- An atom is a literal or a name. -/
private theorem exists_derives_atom (t : Terminal atoms) : ∃ e, Derives .primary [t.val] e [] := by
  obtain ⟨t, ht⟩ := t
  simp only [atoms, List.mem_cons, List.not_mem_nil, or_false] at ht
  rcases ht with h | h | h | h | h | h
  · exact ⟨_, .literal (.number h)⟩
  · exact ⟨_, .literal (.string h)⟩
  · exact ⟨_, .literal (.true h)⟩
  · exact ⟨_, .literal (.false h)⟩
  · exact ⟨_, .literal (.nil h)⟩
  · exact ⟨_, .name h⟩

/-- A phrase is a derivation by the strict or the relaxed rules, with a mark for each bad target. -/
theorem Phrase.derives {l : Level} (p : Phrase l) :
    ∃ e, Derives l p.tokens e (p.badMarks.map badTargetAt) := by
  induction p with
  | assignment target mark value ihTarget ihValue =>
    obtain ⟨left, hleft⟩ := ihTarget
    obtain ⟨right, hright⟩ := ihValue
    by_cases hname : isName target.tokens = true
    · obtain ⟨t, ht, hk⟩ := isName_iff.mp hname
      cases hleft.eq_name ht hk
      obtain ⟨-, -, hmarks⟩ := hleft.tokens_of_name
      refine ⟨.assign t right, ?_⟩
      rw [tokens, badMarks, ht, if_pos (ht ▸ hname), List.append_nil, List.map_append, hmarks]
      exact .assign hk mark.kind_eq hright
    · have hne : ∀ t, left ≠ .name t := by
        rintro t rfl
        obtain ⟨ht, hk, -⟩ := hleft.tokens_of_name
        exact hname (isName_iff.mpr ⟨t, ht, hk⟩)
      refine ⟨left, ?_⟩
      rw [tokens, badMarks, if_neg hname, List.map_append, List.map_append]
      exact .badTarget hleft hne mark.kind_eq hright
  | equality inner ih =>
    obtain ⟨e, he⟩ := ih
    exact ⟨e, .equality he⟩
  | binary left operator right ihLeft ihRight =>
    obtain ⟨l, hl⟩ := ihLeft
    obtain ⟨r, hr⟩ := ihRight
    obtain ⟨s, hs, hk⟩ := List.mem_map.mp operator.property
    refine ⟨.binary l operator.val r, ?_⟩
    rw [tokens, badMarks, List.map_append]
    exact .binary hl hk.symm hs hr
  | operand inner ih =>
    obtain ⟨e, he⟩ := ih
    exact ⟨e, .operand he⟩
  | unary operator inner ih =>
    obtain ⟨e, he⟩ := ih
    exact ⟨.unary operator.val e, .unary (by simpa using operator.property) he⟩
  | primary inner ih =>
    obtain ⟨e, he⟩ := ih
    exact ⟨e, .primary he⟩
  | atom t => exact exists_derives_atom t
  | group opening inner closing ih =>
    obtain ⟨e, he⟩ := ih
    exact ⟨.group e, .group opening.kind_eq closing.kind_eq he⟩

mutual

theorem Clause.declaration : ∀ c : Clause,
    ∃ s, Declaration c.tokens s (c.badMarks.map badTargetAt)
  | .variable word name closing =>
    ⟨_, .variable word.kind_eq name.kind_eq closing.kind_eq⟩
  | .initialized word name mark initial closing => by
    obtain ⟨e, he⟩ := initial.derives
    exact ⟨_, .initialized word.kind_eq name.kind_eq mark.kind_eq he closing.kind_eq⟩
  | .print word value closing => by
    obtain ⟨e, he⟩ := value.derives
    exact ⟨_, .print word.kind_eq he closing.kind_eq⟩
  | .block opening clauses closing => by
    obtain ⟨list, hlist⟩ := Clause.declarations clauses
    exact ⟨_, .block opening.kind_eq hlist closing.kind_eq⟩
  | .expression value closing => by
    obtain ⟨e, he⟩ := value.derives
    exact ⟨_, .expression he closing.kind_eq⟩

/-- A program of the relaxed grammar is one of the strict or the relaxed rules. -/
theorem Clause.declarations : ∀ clauses : List Clause,
    ∃ list, Declarations (allTokens clauses) list ((allBadMarks clauses).map badTargetAt)
  | [] => ⟨[], .nil⟩
  | first :: rest => by
    obtain ⟨s, hs⟩ := Clause.declaration first
    obtain ⟨list, hlist⟩ := Clause.declarations rest
    rw [allTokens, allBadMarks, List.map_append]
    exact ⟨s :: list, .cons hs hlist⟩

end

/-- The loosest operators reach down to the tightest level. -/
def Phrase.ofPrimary (p : Phrase .primary) : Phrase (.binary .equality) :=
  .operand (b := .equality) (.operand (b := .comparison) (.operand (b := .term)
    (.operand (b := .factor) (.primary p))))

/-- What any rules derive is derived by the relaxed ones. -/
theorem exists_phrase {l : Level} {tokens : List Token} {e : Expr} {marks : List SyntaxError}
    (h : Derives l tokens e marks) : ∃ p : Phrase l, p.tokens = tokens := by
  induction h with
  | @assign name _ _ _ _ hk hm _ ih =>
    obtain ⟨value, rfl⟩ := ih
    let target : Phrase .primary := .atom ⟨name, by simp [atoms, hk]⟩
    exact ⟨.assignment target.ofPrimary (.of _ hm) value, rfl⟩
  | badTarget _ _ hm _ ih ih' =>
    obtain ⟨target, rfl⟩ := ih
    obtain ⟨value, rfl⟩ := ih'
    exact ⟨.assignment target (.of _ hm) value, rfl⟩
  | equality _ ih =>
    obtain ⟨inner, rfl⟩ := ih
    exact ⟨.equality inner, rfl⟩
  | @binary _ operator _ _ _ _ _ _ _ _ hk hs _ ih ih' =>
    obtain ⟨left, rfl⟩ := ih
    obtain ⟨right, rfl⟩ := ih'
    exact ⟨.binary left ⟨operator, List.mem_map.mpr ⟨_, hs, hk.symm⟩⟩ right, rfl⟩
  | operand _ ih =>
    obtain ⟨inner, rfl⟩ := ih
    exact ⟨.operand inner, rfl⟩
  | @unary operator _ _ _ ho _ ih =>
    obtain ⟨inner, rfl⟩ := ih
    exact ⟨.unary ⟨operator, by simpa using ho⟩ inner, rfl⟩
  | primary _ ih =>
    obtain ⟨inner, rfl⟩ := ih
    exact ⟨.primary inner, rfl⟩
  | @literal t _ hv => exact ⟨.atom ⟨t, kind_mem_atoms hv⟩, rfl⟩
  | @name t hk => exact ⟨.atom ⟨t, by simp [atoms, hk]⟩, rfl⟩
  | group ho hc _ ih =>
    obtain ⟨inner, rfl⟩ := ih
    exact ⟨.group (.of _ ho) inner (.of _ hc), rfl⟩

mutual

theorem exists_clause {tokens : List Token} {s : Stmt} {marks : List SyntaxError}
    (h : Declaration tokens s marks) : ∃ c : Clause, c.tokens = tokens := by
  cases h with
  | «variable» hw hk hc => exact ⟨.variable (.of _ hw) (.of _ hk) (.of _ hc), rfl⟩
  | initialized hw hk hm hd hc =>
    obtain ⟨initial, rfl⟩ := exists_phrase hd
    exact ⟨.initialized (.of _ hw) (.of _ hk) (.of _ hm) initial (.of _ hc), rfl⟩
  | print hw hd hc =>
    obtain ⟨value, rfl⟩ := exists_phrase hd
    exact ⟨.print (.of _ hw) value (.of _ hc), rfl⟩
  | block ho hds hc =>
    obtain ⟨clauses, rfl⟩ := exists_clauses hds
    exact ⟨.block (.of _ ho) clauses (.of _ hc), rfl⟩
  | expression hd hc =>
    obtain ⟨value, rfl⟩ := exists_phrase hd
    exact ⟨.expression value (.of _ hc), rfl⟩

theorem exists_clauses {tokens : List Token} {list : List Stmt} {marks : List SyntaxError}
    (h : Declarations tokens list marks) : ∃ clauses, Clause.allTokens clauses = tokens := by
  cases h with
  | nil => exact ⟨[], rfl⟩
  | cons hd hds =>
    obtain ⟨first, rfl⟩ := exists_clause hd
    obtain ⟨rest, rfl⟩ := exists_clauses hds
    exact ⟨first :: rest, rfl⟩

end

/-- A token list that the relaxed grammar derives as a declaration. -/
def IsClause (tokens : List Token) : Prop := ∃ c : Clause, c.tokens = tokens

/-- A token list that the relaxed grammar derives. -/
def IsProgram (tokens : List Token) : Prop := ∃ clauses, Clause.allTokens clauses = tokens

theorem isProgram_iff {tokens : List Token} :
    IsProgram tokens ↔ ∃ list marks, Declarations tokens list marks := by
  constructor
  · rintro ⟨clauses, rfl⟩
    obtain ⟨list, hlist⟩ := Clause.declarations clauses
    exact ⟨list, _, hlist⟩
  · rintro ⟨list, marks, h⟩
    exact exists_clauses h

/-- Bad targets are reported exactly. A token list that is a program of the relaxed grammar has an
error at each equals sign behind a target that is no single identifier, in the order of its
derivation, and no other error. So it is read as a program exactly if it has no such sign. -/
theorem ofTokens_eq_badTargets (tokens : List Token) (clauses : List Clause)
    (h : body tokens = Clause.allTokens clauses) :
    (∃ program, ofTokens tokens =
      if Clause.allBadMarks clauses = [] then .ok program
      else .error ((Clause.allBadMarks clauses).map fun mark => ⟨.invalidTarget, mark⟩)) ∧
    ((∃ program, ofTokens tokens = .ok program) ↔ Clause.allBadMarks clauses = []) := by
  obtain ⟨program, hd⟩ := Clause.declarations clauses
  have hread := ofTokens_of_declarations (h ▸ hd)
  simp only [List.map_eq_nil_iff] at hread
  refine ⟨⟨program, hread⟩, ?_, fun hnil => ⟨program, hread.trans (if_pos hnil)⟩⟩
  rintro ⟨other, hok⟩
  by_cases hnil : Clause.allBadMarks clauses = []
  · exact hnil
  · rw [hread, if_neg hnil] at hok
    cases hok

/-- Three bad targets in a block: in a target, in the value, and the target they are in. -/
theorem ofTokens_eq_badTargets_nested :
    let symbol (s : Symbol) (line : Nat) : Token := ⟨.symbol s, "", .nil, line⟩
    let number : Token := ⟨.number, "1", .nil, 1⟩
    let name : Token := ⟨.identifier, "a", .nil, 1⟩
    let tokens := [symbol .leftBrace 1, symbol .leftParen 1, number, symbol .equal 1, name,
      symbol .rightParen 1, symbol .equal 2, number, symbol .equal 3, name, symbol .equal 4, name,
      symbol .semicolon 4, symbol .rightBrace 4, .endOfInput 4]
    ofTokens tokens = .error [⟨.invalidTarget, symbol .equal 1⟩, ⟨.invalidTarget, symbol .equal 3⟩,
      ⟨.invalidTarget, symbol .equal 2⟩] := by
  intro symbol number name tokens
  let one : Phrase (.binary .equality) := (Phrase.atom ⟨number, by decide⟩).ofPrimary
  let a : Phrase (.binary .equality) := (Phrase.atom ⟨name, by decide⟩).ofPrimary
  let sign (line : Nat) : Terminal [.symbol .equal] := .of (symbol .equal line) rfl
  let inner : Phrase .assignment := .assignment one (sign 1) (.equality a)
  let target : Phrase .primary :=
    .group (.of (symbol .leftParen 1) rfl) inner (.of (symbol .rightParen 1) rfl)
  let value : Phrase .assignment :=
    .assignment one (sign 3) (.assignment a (sign 4) (.equality a))
  let clause : Clause := .block (.of (symbol .leftBrace 1) rfl)
    [.expression (.assignment target.ofPrimary (sign 2) value) (.of (symbol .semicolon 4) rfl)]
    (.of (symbol .rightBrace 4) rfl)
  obtain ⟨⟨program, hread⟩, -⟩ := ofTokens_eq_badTargets tokens [clause] rfl
  exact hread

end Relaxed
end BlockScript.Grammar
