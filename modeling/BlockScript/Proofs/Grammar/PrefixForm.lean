import BlockScript.Program.Expression
import BlockScript.Program.PrefixForm
import BlockScript.Proofs.Grammar.Relabeling
import BlockScript.Proofs.Grammar.Subexpressions
import BlockScript.Proofs.Grammar.Vocabulary
import BlockScript.Proofs.Number.Text
import BlockScript.Proofs.Source.Spelling

/-!
The prefix form tells expressions apart. A form is a word, or a head and operands in parentheses.
The word or the head ends at the first character that does not belong to it, and each operand ends
where its own form does, so a text that begins with a form has no other form at its beginning.
-/
namespace BlockScript
open Source

/-- The values that are written as one word. -/
inductive Value.Written : Value → Prop where
  | nil : Written .nil
  | bool (b : Bool) : Written (.bool b)
  | number {code : Nat} :
      code < Number.Binary64.infinity → Written (.number (Number.ofCode false code))

namespace Expr

/-- An expression over tokens of the language, with values that are written as one word. -/
structure Printable (e : Expr) : Prop where
  tokens : e.Over fun t => Spelled t.kind t.lexeme t.literal
  written (v : Value) : (literal v).Inside e → v.Written

namespace Printable
variable {e : Expr} {kind : TokenKind}

private theorem operands (h : e.Printable) : ∀ part ∈ e.operands, part.Printable := by
  obtain ⟨htokens, hwritten⟩ := h
  cases e with
  | literal | name => simp [Expr.operands]
  | group inner =>
    exact List.forall_mem_singleton.mpr ⟨htokens, fun v hv => hwritten v (.group hv)⟩
  | unary operator operand =>
    exact List.forall_mem_singleton.mpr ⟨htokens.2.2, fun v hv => hwritten v (.unary hv)⟩
  | binary left operator right =>
    exact List.forall_mem_cons.mpr ⟨⟨htokens.1, fun v hv => hwritten v (.left hv)⟩,
      List.forall_mem_singleton.mpr ⟨htokens.2.2, fun v hv => hwritten v (.right hv)⟩⟩
  | assign target value =>
    have hname (v : Value) : ¬ (literal v).Inside (name target) := by
      intro hv
      cases hv
    exact List.forall_mem_cons.mpr ⟨⟨⟨htokens.1, htokens.2.1⟩, fun v hv => absurd hv (hname v)⟩,
      List.forall_mem_singleton.mpr ⟨htokens.2.2, fun v hv => hwritten v (.assign hv)⟩⟩

/-- A word stands for the expression by itself, as the grammar reads it. -/
private theorem word (h : e.Printable) (hk : e.headKind = none) : ∃ kind value,
    Lexeme kind e.headText ∧ kind ≠ .string ∧ literal? kind e.headText = some value ∧
      Program.atom? ⟨kind, String.ofList e.headText, value, 0⟩ =
        some (e.mapTokens Token.unplaced) := by
  obtain ⟨htokens, hwritten⟩ := h
  cases e with
  | group | unary | binary | assign => cases hk
  | literal v =>
    cases hwritten v .whole with
    | nil => exact ⟨.keyword .nilWord, .nil, .keyword .nilWord, by simp, rfl, rfl⟩
    | bool b =>
      cases b with
      | true => exact ⟨.keyword .trueWord, .nil, .keyword .trueWord, by simp, rfl, rfl⟩
      | false => exact ⟨.keyword .falseWord, .nil, .keyword .falseWord, by simp, rfl, rfl⟩
    | @number code hcode =>
      have htext : (Value.number (Number.ofCode false code)).display.toList =
          (Number.Numeral.shortest code).toChars := by
        rw [Value.display, Number.text_ofCode hcode]
        simp
      refine ⟨.number, _, ?_, by simp, ?_, rfl⟩
      · rw [headText, htext]
        exact Number.Numeral.lexeme_toChars _
      · rw [headText, htext, literal?, Number.ofChars?_shortest hcode, Option.map_some]
  | name t =>
    obtain ⟨kind, lexeme, value, line⟩ := t
    obtain ⟨hspelled, hkind⟩ := htokens
    obtain rfl : kind = .identifier := hkind
    refine ⟨.identifier, value, hspelled.lexeme, by simp, hspelled.literal, ?_⟩
    have htext : String.ofList (name ⟨.identifier, lexeme, value, line⟩).headText = lexeme :=
      String.ofList_toList
    rw [htext]
    rfl

private theorem lexeme_group : Lexeme .identifier "group".toList := by
  apply Lexeme.identifier (by decide) (List.all_eq_true.mp (by decide))
  intro k
  cases k <;> decide

/-- An operator without its line is made of its kind and its text. -/
private theorem unplaced_operator {t : Token} {s : Symbol} (h : Spelled t.kind t.lexeme t.literal)
    (hs : t.kind = .symbol s) :
    (⟨.symbol s, String.ofList t.lexeme.toList, .nil, 0⟩ : Token) = t.unplaced := by
  obtain ⟨kind, lexeme, value, line⟩ := t
  obtain rfl : kind = .symbol s := hs
  obtain rfl : Value.nil = value := Option.some.inj h.literal
  rw [Token.unplaced, String.ofList_toList]

/-- A head and operands stand for the expression. -/
private theorem node (h : e.Printable) (hk : e.headKind = some kind) :
    Lexeme kind e.headText ∧ kind ≠ .string ∧
      ofParts kind e.headText (e.operands.map (mapTokens Token.unplaced)) =
        some (e.mapTokens Token.unplaced) := by
  obtain ⟨htokens, -⟩ := h
  cases e with
  | literal | name => cases hk
  | group inner =>
    cases hk
    exact ⟨lexeme_group, by simp, rfl⟩
  | unary operator operand =>
    obtain ⟨hspelled, hkind, -⟩ := htokens
    obtain ⟨s, hs⟩ : ∃ s, operator.kind = .symbol s := by
      rcases hkind with hs | hs <;> exact ⟨_, hs⟩
    obtain rfl : TokenKind.symbol s = kind := by rw [← hs, ← Option.some_inj, ← hk]; rfl
    refine ⟨hs ▸ hspelled.lexeme, by simp, ?_⟩
    rw [headText, Expr.operands, List.map_singleton, ofParts, if_neg (by simp),
      unplaced_operator hspelled hs]
    rfl
  | binary left operator right =>
    obtain ⟨-, ⟨hspelled, b, s, hb, hs⟩, -⟩ := htokens
    obtain rfl : TokenKind.symbol s = kind := by rw [← hs, ← Option.some_inj, ← hk]; rfl
    have hne : s ≠ .equal := by
      rintro rfl
      cases b <;> simp [Grammar.Binding.operators] at hb
    refine ⟨hs ▸ hspelled.lexeme, by simp, ?_⟩
    rw [headText, Expr.operands, List.map_cons, List.map_singleton,
      ofParts_binary (by simpa using hne), unplaced_operator hspelled hs]
    rfl
  | assign target value =>
    cases hk
    exact ⟨.symbol .equal, by simp, rfl⟩

end Printable

/-- What may stand behind a form: nothing, or what ends a word. -/
def Closes (rest : List Char) : Prop := ∀ c ∈ rest.head?, (isNamePart c || c = '.') = false

/-- A text that begins with the form of the expression has no other form at its beginning. -/
def Decodes (e : Expr) : Prop :=
  ∀ (other : Expr) (rest rest' : List Char), other.Printable → Closes rest → Closes rest' →
    e.prefixForm.toList ++ rest = other.prefixForm.toList ++ rest' →
    e.mapTokens Token.unplaced = other.mapTokens Token.unplaced ∧ rest = rest'

section Decoding
variable {e : Expr} {kind : TokenKind} {rest : List Char}

private theorem closes_spaced (parts : List Expr) (rest : List Char) :
    Closes (spaced parts ++ ')' :: rest) := by
  cases parts with
  | nil => simp [Closes, spaced, isNamePart, isNameStart]
  | cons first more => simp [Closes, spaced, isNamePart, isNameStart]

/-- Operands are told apart one by one, up to the closing parenthesis. -/
private theorem spaced_inj {parts others : List Expr} {rest' : List Char}
    (h : ∀ part ∈ parts, Decodes part) (h' : ∀ part ∈ others, part.Printable)
    (heq : spaced parts ++ ')' :: rest = spaced others ++ ')' :: rest') :
    parts.map (mapTokens Token.unplaced) = others.map (mapTokens Token.unplaced) ∧
      rest = rest' := by
  induction parts generalizing others with
  | nil =>
    cases others with
    | nil => exact ⟨rfl, (List.cons.inj heq).2⟩
    | cons => exact absurd (List.cons.inj heq).1 (by decide)
  | cons part parts ih =>
    cases others with
    | nil => exact absurd (List.cons.inj heq).1 (by decide)
    | cons other others =>
      obtain ⟨hpart, hparts⟩ := List.forall_mem_cons.mp h
      obtain ⟨hother, hothers⟩ := List.forall_mem_cons.mp h'
      rw [spaced, spaced, List.flatMap_cons, List.flatMap_cons, List.append_assoc,
        List.append_assoc, List.cons_append, List.cons_append] at heq
      obtain ⟨hfirst, hrest⟩ := hpart other _ _ hother (closes_spaced parts rest)
        (closes_spaced others rest') (List.cons.inj heq).2
      obtain ⟨hmore, hends⟩ := ih hparts hothers hrest
      rw [List.map_cons, List.map_cons, hfirst, hmore]
      exact ⟨rfl, hends⟩

/-- Two runs of a class that nothing of the class follows are the same run. -/
private theorem run_append_inj {p : Char → Bool} {run other rest' : List Char}
    (h : ∀ c ∈ run, p c = true) (h' : ∀ c ∈ other, p c = true) (hrest : ∀ c ∈ rest.head?, p c = false)
    (hrest' : ∀ c ∈ rest'.head?, p c = false) (heq : run ++ rest = other ++ rest') :
    run = other ∧ rest = rest' := by
  obtain ⟨htake, hdrop⟩ := span_append h hrest
  obtain ⟨htake', hdrop'⟩ := span_append h' hrest'
  rw [heq] at htake hdrop
  exact ⟨htake.symm.trans htake', hdrop.symm.trans hdrop'⟩

/-- No word starts with a parenthesis. -/
private theorem word_ne_node {word inside : List Char} (h : Lexeme kind word)
    (hchars : ∀ c ∈ word, (isNamePart c || c = '.') = true) : word ++ rest ≠ '(' :: inside := by
  obtain ⟨c, tail, rfl, -⟩ := h.head
  intro heq
  obtain rfl : c = '(' := (List.cons.inj heq).1
  exact absurd (hchars '(' List.mem_cons_self) (by decide)

private theorem Printable.word_chars (h : e.Printable) (hk : e.headKind = none) :
    ∀ c ∈ e.headText, (isNamePart c || c = '.') = true := by
  obtain ⟨kind, value, hlexeme, hstring, -, hatom⟩ := h.word hk
  have hsymbol : ∀ s, kind ≠ .symbol s := by
    rintro s rfl
    cases hatom
  simpa using hlexeme.isNamePart_or_point hstring hsymbol

private theorem Printable.decodes_word (h : e.Printable) (hk : e.headKind = none) : Decodes e := by
  intro other rest rest' h' hrest hrest' heq
  obtain ⟨kind, value, hlexeme, -, hvalue, hatom⟩ := h.word hk
  rw [prefixForm_word hk] at heq
  cases hk' : other.headKind with
  | some kind' =>
    rw [(prefixForm_node hk').2] at heq
    exact absurd heq (word_ne_node hlexeme (h.word_chars hk))
  | none =>
    rw [prefixForm_word hk'] at heq
    obtain ⟨htext, hends⟩ := run_append_inj (h.word_chars hk) (h'.word_chars hk') hrest hrest' heq
    obtain ⟨kind', value', hlexeme', -, hvalue', hatom'⟩ := h'.word hk'
    rw [← htext] at hlexeme' hvalue' hatom'
    obtain rfl := hlexeme.kind_unique hlexeme'
    obtain rfl := Option.some.inj (hvalue.symm.trans hvalue')
    exact ⟨Option.some.inj (hatom.symm.trans hatom'), hends⟩

private theorem Printable.head_chars (h : e.Printable) (hk : e.headKind = some kind) :
    ∀ c ∈ e.headText, (!isBlank c) = true := by
  obtain ⟨hlexeme, hstring, -⟩ := h.node hk
  intro c hc
  obtain ⟨first, rest, htext, -⟩ := hlexeme.head
  rw [htext] at hlexeme hc
  rw [hlexeme.isBlank_of_mem ?_ hc]
  · rfl
  · rintro rfl
    exact hstring hlexeme.of_quote.1

/-- Behind a head there are operands, so a space follows it. -/
private theorem spaced_head {parts : List Expr} (h : parts ≠ []) (rest : List Char) :
    ∀ c ∈ (spaced parts ++ rest).head?, (!isBlank c) = false := by
  obtain ⟨first, more, rfl⟩ := List.exists_cons_of_ne_nil h
  simp [spaced, isBlank]

private theorem Printable.decodes_node (h : e.Printable) (hk : e.headKind = some kind)
    (hoperands : ∀ part ∈ e.operands, Decodes part) : Decodes e := by
  intro other rest rest' h' hrest hrest' heq
  obtain ⟨hlexeme, -, hparts⟩ := h.node hk
  obtain ⟨hne, hform⟩ := prefixForm_node hk
  cases hk' : other.headKind with
  | none =>
    obtain ⟨kind', value', hlexeme', -⟩ := h'.word hk'
    rw [hform, prefixForm_word hk'] at heq
    exact absurd heq.symm (word_ne_node hlexeme' (h'.word_chars hk'))
  | some kind' =>
    obtain ⟨hlexeme', -, hparts'⟩ := h'.node hk'
    obtain ⟨hne', hform'⟩ := prefixForm_node hk'
    rw [hform, hform', List.cons_append, List.cons_append, List.append_assoc, List.append_assoc,
      List.append_assoc, List.append_assoc] at heq
    obtain ⟨htext, hinside⟩ := run_append_inj (h.head_chars hk) (h'.head_chars hk')
      (spaced_head hne _) (spaced_head hne' _) (List.cons.inj heq).2
    obtain ⟨hsame, hends⟩ := spaced_inj hoperands h'.operands hinside
    rw [← htext] at hlexeme' hparts'
    obtain rfl := hlexeme.kind_unique hlexeme'
    rw [← hsame] at hparts'
    exact ⟨Option.some.inj (hparts.symm.trans hparts'), hends⟩

/-- By induction on the expression, as far as its operands go. -/
theorem Printable.decodes (h : e.Printable) : Decodes e := by
  induction e with
  | literal | name => exact h.decodes_word rfl
  | group inner ih =>
    have hinner := List.forall_mem_singleton.mp h.operands
    exact h.decodes_node rfl (List.forall_mem_singleton.mpr (ih hinner))
  | unary operator operand ih =>
    have hoperand := List.forall_mem_singleton.mp h.operands
    exact h.decodes_node rfl (List.forall_mem_singleton.mpr (ih hoperand))
  | binary left operator right ihLeft ihRight =>
    obtain ⟨hleft, hright⟩ := List.forall_mem_cons.mp h.operands
    exact h.decodes_node rfl (List.forall_mem_cons.mpr ⟨ihLeft hleft,
      List.forall_mem_singleton.mpr (ihRight (List.forall_mem_singleton.mp hright))⟩)
  | assign target value ih =>
    obtain ⟨htarget, hvalue⟩ := List.forall_mem_cons.mp h.operands
    exact h.decodes_node rfl (List.forall_mem_cons.mpr ⟨htarget.decodes_word rfl,
      List.forall_mem_singleton.mpr (ih (List.forall_mem_singleton.mp hvalue))⟩)

/-- Expressions with the same form are the same but for lines. -/
theorem Printable.prefixForm_inj {other : Expr} (h : e.Printable) (h' : other.Printable)
    (heq : e.prefixForm = other.prefixForm) :
    e.mapTokens Token.unplaced = other.mapTokens Token.unplaced := by
  have hnil : Closes [] := by simp [Closes]
  exact (h.decodes other [] [] h' hnil hnil (by rw [heq])).1

end Decoding

theorem prefixForm_mapTokens {f : Token → Token} (hf : Token.KeepsText f) (e : Expr) :
    (e.mapTokens f).prefixForm = e.prefixForm := by
  induction e with
  | literal => rfl
  | name t => exact hf.lexeme t
  | group inner ih => rw [mapTokens, prefixForm, prefixForm, ih]
  | unary operator operand ih => rw [mapTokens, prefixForm, prefixForm, ih, hf.lexeme]
  | binary left operator right ihLeft ihRight =>
    rw [mapTokens, prefixForm, prefixForm, ihLeft, ihRight, hf.lexeme]
  | assign target value ih => rw [mapTokens, prefixForm, prefixForm, ih, hf.lexeme]

end Expr
end BlockScript
