import BlockScript.Proofs.Grammar.Reading

/-!
Predictive parsers. What such a parser takes belongs to a language, what it has taken when it stops
can be completed to something of that language, and it never looks behind the next token.
-/
namespace BlockScript.Program
open BlockScript.Program.Parser Grammar

variable {α β : Type}

theorem Parser.bind_eq_iff {p : Parser α} {f : α → Parser β} {last : Token}
    {tokens rest : List Token} {errors : List SyntaxError} {outcome : Except SyntaxError β} :
    (p >>= f) last tokens = ⟨errors, rest, outcome⟩ ↔
      (∃ e, outcome = .error e ∧ p last tokens = ⟨errors, rest, .error e⟩) ∨
      ∃ before middle a after, p last tokens = ⟨before, middle, .ok a⟩ ∧
        f a last middle = ⟨after, rest, outcome⟩ ∧ errors = before ++ after := by
  rcases hp : p last tokens with ⟨before, middle, e | a⟩
  · rw [bind_of_error hp]
    simp [eq_comm, and_comm, and_assoc]
  · rcases hf : f a last middle with ⟨after, left, result⟩
    rw [bind_of_ok hp hf]
    constructor
    · rintro ⟨⟩
      exact .inr ⟨before, middle, a, after, rfl, hf, rfl⟩
    · rintro (⟨e, -, ⟨⟩⟩ | ⟨_, _, _, _, ⟨⟩, hf', rfl⟩)
      cases hf.symm.trans hf'
      rfl

/-- The parser follows a language of token lists, which may depend on what it reads. Errors that do
not stop it are about targets, and the one that stops it is at the next token. -/
structure Predictive (p : Parser α) (L : α → List Token → Prop) : Prop where
  inhabited : ∃ a used, L a used
  reads {last : Token} {tokens rest : List Token} {errors : List SyntaxError} {a : α} :
    p last tokens = ⟨errors, rest, .ok a⟩ → ∃ used, tokens = used ++ rest ∧ L a used
  breaks {last : Token} {tokens rest : List Token} {errors : List SyntaxError} {e : SyntaxError} :
    p last tokens = ⟨errors, rest, .error e⟩ →
      ∃ used, tokens = used ++ rest ∧ ∃ a more, L a (used ++ more)
  reports {last : Token} {tokens rest : List Token} {errors : List SyntaxError}
    {outcome : Except SyntaxError α} : p last tokens = ⟨errors, rest, outcome⟩ →
      ∀ e ∈ errors, e.fault = .invalidTarget
  stops {last : Token} {tokens rest : List Token} {errors : List SyntaxError} {e : SyntaxError} :
    p last tokens = ⟨errors, rest, .error e⟩ →
      e.fault ≠ .invalidTarget ∧ e.token = rest.head?.getD last
  ahead {last final t : Token} {used rest more : List Token} {errors : List SyntaxError}
    {outcome : Except SyntaxError α} :
    p last (used ++ t :: rest) = ⟨errors, t :: rest, outcome⟩ →
      p final (used ++ t :: more) = ⟨errors, t :: more, outcome⟩

namespace Predictive
variable {p q : Parser α} {f : α → Parser β} {L M : α → List Token → Prop}
  {N : β → List Token → Prop} {kind : TokenKind} {fault : SyntaxFault}

theorem takes (h : Predictive p L) {last : Token} {tokens rest : List Token}
    {errors : List SyntaxError} {outcome : Except SyntaxError α}
    (hp : p last tokens = ⟨errors, rest, outcome⟩) : ∃ used, tokens = used ++ rest := by
  cases outcome with
  | ok a =>
    obtain ⟨used, htokens, -⟩ := h.reads hp
    exact ⟨used, htokens⟩
  | error e =>
    obtain ⟨used, htokens, -⟩ := h.breaks hp
    exact ⟨used, htokens⟩

/-- The next token is one of what is put before the tokens that differ, or the first of these. -/
private theorem ahead_append (h : Predictive p L) {last final t : Token}
    {used others rest more : List Token}
    {errors : List SyntaxError} {outcome : Except SyntaxError α}
    (hp : p last (used ++ (others ++ t :: rest)) = ⟨errors, others ++ t :: rest, outcome⟩) :
    p final (used ++ (others ++ t :: more)) = ⟨errors, others ++ t :: more, outcome⟩ := by
  cases others with
  | nil => exact h.ahead hp
  | cons next others => exact h.ahead hp

/-- What the first parser took leaves the second one the rest of the language. -/
theorem bind (hp : Predictive p M)
    (hf : ∀ a used, M a used → Predictive (f a) fun b more => N b (used ++ more)) :
    Predictive (p >>= f) N where
  inhabited := by
    obtain ⟨a, used, ha⟩ := hp.inhabited
    obtain ⟨b, more, hb⟩ := (hf a used ha).inhabited
    exact ⟨b, used ++ more, hb⟩
  reads h := by
    obtain ⟨before, middle, a, after, hfirst, hsecond, -⟩ := bind_eq_ok_iff.mp h
    obtain ⟨used, rfl, ha⟩ := hp.reads hfirst
    obtain ⟨more, rfl, hb⟩ := (hf a used ha).reads hsecond
    exact ⟨used ++ more, (List.append_assoc ..).symm, hb⟩
  breaks h := by
    rcases bind_eq_iff.mp h with ⟨e, -, hfirst⟩ | ⟨before, middle, a, after, hfirst, hsecond, -⟩
    · obtain ⟨used, htokens, a, more, ha⟩ := hp.breaks hfirst
      obtain ⟨b, others, hb⟩ := (hf a _ ha).inhabited
      exact ⟨used, htokens, b, more ++ others, by rwa [← List.append_assoc]⟩
    · obtain ⟨used, rfl, ha⟩ := hp.reads hfirst
      obtain ⟨others, rfl, b, more, hb⟩ := (hf a used ha).breaks hsecond
      exact ⟨used ++ others, (List.append_assoc ..).symm, b, more, by rwa [List.append_assoc]⟩
  reports h := by
    rcases bind_eq_iff.mp h with ⟨e, -, hfirst⟩ | ⟨before, middle, a, after, hfirst, hsecond, rfl⟩
    · exact hp.reports hfirst
    · obtain ⟨used, -, ha⟩ := hp.reads hfirst
      exact List.forall_mem_append.mpr ⟨hp.reports hfirst, (hf a used ha).reports hsecond⟩
  stops h := by
    rcases bind_eq_iff.mp h with ⟨e, ⟨⟩, hfirst⟩ | ⟨before, middle, a, after, hfirst, hsecond, -⟩
    · exact hp.stops hfirst
    · obtain ⟨used, -, ha⟩ := hp.reads hfirst
      exact (hf a used ha).stops hsecond
  ahead {last final t used rest more errors outcome} h := by
    rcases bind_eq_iff.mp h with ⟨e, rfl, hfirst⟩ | ⟨before, middle, a, after, hfirst, hsecond, rfl⟩
    · exact bind_of_error (hp.ahead hfirst)
    · obtain ⟨taken, htaken, ha⟩ := hp.reads hfirst
      obtain ⟨others, rfl⟩ := (hf a taken ha).takes hsecond
      rw [← List.append_assoc] at htaken
      obtain rfl := List.append_cancel_right htaken
      rw [List.append_assoc] at hfirst ⊢
      exact bind_of_ok (hp.ahead_append hfirst) ((hf a taken ha).ahead hsecond)

theorem mono (h : Predictive p M) (hL : ∀ a used, M a used → L a used) : Predictive p L where
  inhabited := by
    obtain ⟨a, used, ha⟩ := h.inhabited
    exact ⟨a, used, hL a used ha⟩
  reads hp := by
    obtain ⟨used, htokens, ha⟩ := h.reads hp
    exact ⟨used, htokens, hL _ used ha⟩
  breaks hp := by
    obtain ⟨used, htokens, a, more, ha⟩ := h.breaks hp
    exact ⟨used, htokens, a, more, hL a _ ha⟩
  reports := h.reports
  stops := h.stops
  ahead := h.ahead

/-- A parser that never stops. -/
theorem of_ok (hok : ∀ last tokens, ∃ errors used rest a, p last tokens = ⟨errors, rest, .ok a⟩ ∧
      tokens = used ++ rest ∧ L a used ∧ ∀ e ∈ errors, e.fault = .invalidTarget)
    (hahead : ∀ last final t used rest more errors a,
      p last (used ++ t :: rest) = ⟨errors, t :: rest, .ok a⟩ →
        p final (used ++ t :: more) = ⟨errors, t :: more, .ok a⟩) : Predictive p L where
  inhabited := by
    obtain ⟨errors, used, rest, a, -, -, ha, -⟩ := hok (.endOfInput 1) []
    exact ⟨a, used, ha⟩
  reads {last tokens _ _ _} h := by
    obtain ⟨errors, used, rest, a, hp, htokens, ha, -⟩ := hok last tokens
    cases hp.symm.trans h
    exact ⟨used, htokens, ha⟩
  breaks {last tokens _ _ _} h := by
    obtain ⟨errors, used, rest, a, hp, -⟩ := hok last tokens
    cases hp.symm.trans h
  reports {last tokens _ _ _} h := by
    obtain ⟨errors, used, rest, a, hp, -, -, hreported⟩ := hok last tokens
    cases hp.symm.trans h
    exact hreported
  stops {last tokens _ _ _} h := by
    obtain ⟨errors, used, rest, a, hp, -⟩ := hok last tokens
    cases hp.symm.trans h
  ahead {last final t used rest more _ _} h := by
    obtain ⟨errors, -, left, a, hp, -⟩ := hok last (used ++ t :: rest)
    cases hp.symm.trans h
    exact hahead last final t used rest more _ a h

/-- A parser that never stops and takes nothing. -/
theorem of_still (h : ∀ last tokens, ∃ errors a, p last tokens = ⟨errors, tokens, .ok a⟩ ∧
      L a [] ∧ ∀ e ∈ errors, e.fault = .invalidTarget)
    (hahead : ∀ last final t rest more,
      (p last (t :: rest)).reported = (p final (t :: more)).reported ∧
        (p last (t :: rest)).outcome = (p final (t :: more)).outcome) : Predictive p L := by
  refine .of_ok (fun last tokens => ?_) fun last final t used rest more errors a hp => ?_
  · obtain ⟨errors, a, hp, ha, hreported⟩ := h last tokens
    exact ⟨errors, [], tokens, a, hp, rfl, ha, hreported⟩
  · obtain ⟨_, _, hstill, -⟩ := h last (used ++ t :: rest)
    have hrest : used ++ t :: rest = t :: rest := congrArg Reply.rest (hstill.symm.trans hp)
    obtain rfl := List.append_left_eq_self.mp hrest
    obtain ⟨_, _, hstill', -⟩ := h final (t :: more)
    have hsame := hahead last final t rest more
    rw [List.nil_append] at hp ⊢
    rw [hp, hstill'] at hsame
    obtain ⟨rfl, ⟨⟩⟩ := hsame
    exact hstill'

theorem pure {a : α} (ha : L a []) : Predictive (pure a) L :=
  .of_still (fun _ _ => ⟨[], a, rfl, ha, by simp⟩) fun _ _ _ _ _ => ⟨rfl, rfl⟩

theorem report (mark : Token) :
    Predictive (report ⟨.invalidTarget, mark⟩) fun _ used => used = [] :=
  .of_still (fun _ _ => ⟨_, (), rfl, rfl, by simp⟩) fun _ _ _ _ _ => ⟨rfl, rfl⟩

theorem stopsAt (stop : TokenKind → Bool) : Predictive (stopsAt stop) fun _ used => used = [] :=
  .of_still (fun _ _ => ⟨[], _, rfl, rfl, by simp⟩) fun _ _ _ _ _ => ⟨rfl, rfl⟩

theorem fail (hfault : fault ≠ .invalidTarget) (hL : ∃ a used, L a used) :
    Predictive (fail fault) L where
  inhabited := hL
  reads h := by cases h
  breaks h := by
    cases h
    exact ⟨[], rfl, hL⟩
  reports h := by
    cases h
    simp
  stops h := by
    cases h
    exact ⟨hfault, rfl⟩
  ahead {last final t used rest more _ _} h := by
    have hrest : used ++ t :: rest = t :: rest := congrArg Reply.rest h
    obtain rfl := List.append_left_eq_self.mp hrest
    cases h
    rfl

theorem accept? (classify : Token → Option α) :
    Predictive (accept? classify) (Accepts classify) := by
  refine .of_ok (fun last tokens => ?_) fun last final t used rest more errors found h => ?_
  · cases tokens with
    | nil => exact ⟨[], [], [], none, rfl, rfl, .inl ⟨rfl, rfl⟩, by simp⟩
    | cons t rest =>
      cases ht : classify t with
      | none =>
        refine ⟨[], [], t :: rest, none, ?_, rfl, .inl ⟨rfl, rfl⟩, by simp⟩
        exact accept?_eq_none_iff.mpr ⟨rfl, rfl, by simpa using ht⟩
      | some a =>
        refine ⟨[], [t], rest, some a, ?_, rfl, .inr ⟨t, a, rfl, rfl, ht⟩, by simp⟩
        exact accept?_eq_some_iff.mpr ⟨rfl, t, rfl, ht⟩
  · cases found with
    | none =>
      obtain ⟨rfl, hrest, hnone⟩ := accept?_eq_none_iff.mp h
      obtain rfl := List.append_left_eq_self.mp hrest.symm
      exact accept?_eq_none_iff.mpr ⟨rfl, rfl, hnone⟩
    | some a =>
      obtain ⟨rfl, first, htokens, hfirst⟩ := accept?_eq_some_iff.mp h
      obtain rfl : used = [first] := List.append_cancel_right htokens
      exact accept?_eq_some_iff.mpr ⟨rfl, first, rfl, hfirst⟩

theorem take? (wanted : TokenKind → Bool) : Predictive (take? wanted) fun found used =>
    found = none ∧ used = [] ∨ ∃ t, found = some t ∧ used = [t] ∧ wanted t.kind = true := by
  refine (accept? _).mono fun found used => Or.imp_right ?_
  rintro ⟨t, a, rfl, rfl, ht⟩
  obtain ⟨hwanted, ⟨⟩⟩ := Option.ite_none_right_eq_some.mp ht
  exact ⟨t, rfl, rfl, hwanted⟩

theorem map {g : α → β} (hp : Predictive p M) (hg : ∀ a used, M a used → N (g a) used) :
    Predictive (do let a ← p; return g a) N :=
  .bind hp fun a used ha => .pure (by simpa using hg a used ha)

theorem skip (kind : TokenKind) : Predictive (skip kind) fun taken used =>
    taken = false ∧ used = [] ∨ ∃ t : Token, taken = true ∧ used = [t] ∧ t.kind = kind := by
  refine .map (take? _) fun found used => ?_
  rintro (⟨rfl, rfl⟩ | ⟨t, rfl, rfl, ht⟩)
  · exact .inl ⟨rfl, rfl⟩
  · exact .inr ⟨t, rfl, rfl, by simpa using ht⟩

theorem expect (kind : TokenKind) (hfault : fault ≠ .invalidTarget) :
    Predictive (expect kind fault) fun t used => used = [t] ∧ t.kind = kind := by
  refine .bind (take? _) fun found used => ?_
  rintro (⟨rfl, rfl⟩ | ⟨t, rfl, rfl, ht⟩)
  · exact .fail hfault ⟨⟨kind, "", .nil, 1⟩, _, rfl, rfl⟩
  · exact .pure ⟨rfl, by simpa using ht⟩

/-- A part that a token has to close. -/
theorem closed {g : α → β} (hfault : fault ≠ .invalidTarget) (hp : Predictive p M)
    (hg : ∀ a used t, M a used → t.kind = kind → N (g a) (used ++ [t])) :
    Predictive (do let a ← p; let _ ← Parser.expect kind fault; return g a) N :=
  .bind hp fun a used ha => .map (expect kind hfault) fun t _ ht => ht.1 ▸ hg a used t ha ht.2

/-- A branch on the next token, which only the first branch takes. -/
theorem branch (hp : ∀ t : Token, t.kind = kind → Predictive p fun a used => L a (t :: used))
    (hq : Predictive q L) : Predictive (do if ← Parser.skip kind then p else q) L := by
  refine .bind (skip kind) fun taken used => ?_
  rintro (⟨rfl, rfl⟩ | ⟨t, rfl, rfl, ht⟩)
  · exact hq
  · exact hp t ht

/-- A loop that may take as many rounds as there are tokens, if more rounds make no difference. -/
theorem of_remaining {bounded : Nat → Parser α} (h : ∀ bound, Predictive (bounded bound) L)
    (heq : ∀ {bound last tokens}, tokens.length ≤ bound →
      bounded bound last tokens = bounded tokens.length last tokens) :
    Predictive (do bounded (← remaining)) L where
  inhabited := (h 0).inhabited
  reads {_ tokens _ _ _} hp := (h tokens.length).reads hp
  breaks {_ tokens _ _ _} hp := (h tokens.length).breaks hp
  reports {_ tokens _ _ _} hp := (h tokens.length).reports hp
  stops {_ tokens _ _ _} hp := (h tokens.length).stops hp
  ahead {last final t used rest more _ _} hp := by
    let bound := max (used ++ t :: rest).length (used ++ t :: more).length
    have hp' := (heq (Nat.le_max_left _ _ : _ ≤ bound)).trans hp
    exact (heq (Nat.le_max_right _ _ : _ ≤ bound)).symm.trans ((h bound).ahead hp')

/-- What follows the target of an assignment. -/
theorem assigned {inner : Parser Expr} {K : Expr → List Token → List SyntaxError → Prop}
    (hi : Predictive inner fun e used => ∃ marks, K e used marks) (target : Expr) :
    Predictive (assigned inner target) fun e used => ∃ marks, Assigned K target e used marks := by
  refine .bind (take? _) fun found used => ?_
  rintro (⟨rfl, rfl⟩ | ⟨mark, rfl, rfl, hm⟩)
  · exact .pure ⟨[], .target⟩
  · have hm : mark.kind = .symbol .equal := by simpa using hm
    refine .bind hi ?_
    rintro value used ⟨marks, hv⟩
    cases target with
    | name token => exact .pure ⟨marks, by simpa using Assigned.name rfl hm hv⟩
    | literal | group | unary | binary | assign =>
      refine .bind (.report mark) ?_
      rintro _ _ rfl
      exact .pure ⟨_, by simpa using Assigned.badTarget (by simp) hm hv⟩

end Predictive

/-- Parsers of the logic are predictive. -/
theorem Reads.predictive {p : Parser α} {L : α → List Token → List SyntaxError → Prop}
    (h : Reads p L) : Predictive p fun a used => ∃ marks, L a used marks := by
  induction h with
  | pure ha => exact .pure ⟨[], ha⟩
  | fail hfault _ hL =>
    obtain ⟨a, used, marks, ha⟩ := hL
    exact .fail hfault ⟨a, used, marks, ha⟩
  | accept? => exact (Predictive.accept? _).mono fun _ _ ha => ⟨[], rfl, ha⟩
  | bind _ _ ih ih' =>
    refine .bind ih ?_
    rintro a used ⟨marks, ha⟩
    exact (ih' a used marks ha).mono fun b more ⟨others, hb⟩ => ⟨marks ++ others, hb⟩
  | mono _ hL ih => exact ih.mono fun a used ⟨marks, ha⟩ => ⟨marks, hL a used marks ha⟩
  | assigned _ ih => exact ih.assigned _
  | bounded _ heq ih => exact .of_remaining ih (heq _ _ _)

end BlockScript.Program
