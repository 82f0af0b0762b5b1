import BlockScript.Proofs.Grammar.EarliestError
import Mathlib.Data.List.Perm.Subperm

/-!
Which tokens syntax errors are about. A parser blames each token it takes at most once, and with
errors that are no bad targets in the order of the tokens. Only then errors at the end follow, at
most one for every block it opens and one more.
-/
namespace BlockScript.Program
open BlockScript.Program.Parser Grammar

variable {α β : Type}

/-- The opening braces among some tokens. -/
def openings (tokens : List Token) : Nat := tokens.countP fun t => t.kind = .symbol .leftBrace

private theorem openings_append (tokens more : List Token) :
    openings (tokens ++ more) = openings tokens + openings more :=
  List.countP_append

/-- The errors in `inside` are about tokens that were taken, each about another one, and those in
`ending` about the end, which is next if there are any. -/
structure Tally (perBlock spare : Nat) (last : Token) (used rest : List Token)
    (inside ending : List SyntaxError) : Prop where
  taken : ∀ t ∈ used, t.kind ≠ .endOfInput
  once : (inside.map SyntaxError.token).Subperm used
  ordered : ((inside.filter fun e => e.fault ≠ .invalidTarget).map SyntaxError.token).Sublist used
  atEnd : ∀ e ∈ ending, AtStop (fun _ => false) rest ∧ e.token = rest.head?.getD last
  few : ending.length ≤ perBlock * openings used + spare

namespace Tally
variable {perBlock perBlock' spare spare' : Nat} {last : Token} {used more rest : List Token}
  {inside ending others endings : List SyntaxError}

/-- No error is about any token. -/
private theorem silent (h : ∀ t ∈ used, t.kind ≠ .endOfInput) :
    Tally perBlock spare last used rest [] [] where
  taken := h
  once := List.nil_subperm
  ordered := List.nil_sublist used
  atEnd := by simp
  few := Nat.zero_le _

theorem mono (h : Tally perBlock spare last used rest inside ending)
    (hper : perBlock ≤ perBlock') (hspare : spare ≤ spare') :
    Tally perBlock' spare' last used rest inside ending where
  taken := h.taken
  once := h.once
  ordered := h.ordered
  atEnd := h.atEnd
  few := Nat.le_trans h.few (Nat.add_le_add (Nat.mul_le_mul_right _ hper) hspare)

theorem not_end_of_mem_inside (h : Tally perBlock spare last used rest inside ending)
    {e : SyntaxError} (he : e ∈ inside) : e.token.kind ≠ .endOfInput :=
  h.taken _ (h.once.subset (List.mem_map_of_mem he))

/-- One error about the first of the tokens. -/
private theorem first {e : SyntaxError} (h : ∀ t ∈ e.token :: used, t.kind ≠ .endOfInput) :
    Tally 0 0 last (e.token :: used) rest [e] [] where
  taken := h
  once := List.singleton_subperm_iff.mpr List.mem_cons_self
  ordered := by
    refine (List.filter_sublist.map SyntaxError.token).trans ?_
    exact List.singleton_sublist.mpr List.mem_cons_self
  atEnd := by simp
  few := Nat.zero_le _

/-- One more error at the end. -/
private theorem blame_end (h : Tally perBlock spare last used rest inside ending) {e : SyntaxError}
    (hstop : AtStop (fun _ => false) rest) (he : e.token = rest.head?.getD last) :
    Tally perBlock (spare + 1) last used rest inside (ending ++ [e]) where
  taken := h.taken
  once := h.once
  ordered := h.ordered
  atEnd := List.forall_mem_append.mpr ⟨h.atEnd, by simpa using ⟨hstop, he⟩⟩
  few := by
    rw [List.length_append, List.length_singleton]
    exact Nat.succ_le_succ h.few

/-- Where the end is next, nothing is taken, and no token is left to blame. -/
private theorem at_end (h : Tally perBlock spare last more rest inside ending)
    (hstop : AtStop (fun _ => false) (more ++ rest)) : more = [] ∧ inside = [] := by
  have hmore : more = [] := by
    cases more with
    | nil => rfl
    | cons t more => simpa [h.taken t List.mem_cons_self] using hstop t rfl
  have honce := h.once
  rw [hmore, List.subperm_nil, List.map_eq_nil_iff] at honce
  exact ⟨hmore, honce⟩

/-- After errors at the end only such errors follow, so those of the first part can be put behind
those of the second one that are about tokens. -/
private theorem ending_append (h : Tally perBlock spare last used (more ++ rest) inside ending)
    (h' : Tally perBlock' spare' last more rest others endings) :
    inside ++ ending ++ (others ++ endings) = inside ++ others ++ (ending ++ endings) := by
  cases ending with
  | nil => simp
  | cons e ending =>
    rw [(h'.at_end (h.atEnd e List.mem_cons_self).1).2]
    simp

theorem append {perBlocks spares : Nat}
    (h : Tally perBlock spare last used (more ++ rest) inside ending)
    (h' : Tally perBlock' spare' last more rest others endings)
    (hfew : (ending ++ endings).length ≤ perBlocks * openings (used ++ more) + spares) :
    Tally perBlocks spares last (used ++ more) rest (inside ++ others) (ending ++ endings) where
  taken := List.forall_mem_append.mpr ⟨h.taken, h'.taken⟩
  once := by
    rw [List.map_append]
    exact h.once.append h'.once
  ordered := by
    rw [List.filter_append, List.map_append]
    exact h.ordered.append h'.ordered
  atEnd := by
    refine List.forall_mem_append.mpr ⟨fun e he => ?_, h'.atEnd⟩
    have hend := h.atEnd e he
    rwa [(h'.at_end hend.1).1] at hend
  few := hfew

/-- A token that no error is about, in front of the others. -/
theorem cons (h : Tally perBlock spare last used rest inside ending) {t : Token}
    (ht : t.kind ≠ .endOfInput) : Tally perBlock spare last ([t] ++ used) rest inside ending := by
  have hfirst : Tally 0 0 last [t] (used ++ rest) [] [] := .silent (by simpa using ht)
  refine hfirst.append h (Nat.le_trans h.few (Nat.add_le_add_right (Nat.mul_le_mul_left _ ?_) _))
  rw [openings_append]
  exact Nat.le_add_left _ _

/-- An equals sign that was taken is blamed behind the errors in its value. -/
private theorem mark (h : Tally perBlock spare last used rest inside ending) {t : Token}
    (ht : t.kind ≠ .endOfInput) :
    Tally perBlock spare last ([t] ++ used) rest (inside ++ [⟨.invalidTarget, t⟩]) ending where
  taken := (h.cons ht).taken
  once := by
    rw [List.map_append]
    exact (h.once.append (List.Subperm.refl [t])).trans List.perm_append_comm.subperm
  ordered := by
    rw [List.filter_append]
    simpa using (h.cons ht).ordered
  atEnd := h.atEnd
  few := (h.cons ht).few

end Tally

/-- What a parser reports is about the tokens it takes and then the end, and what stops it is about
the next token. A parser that reads no blocks reports nothing about the end. -/
structure Blames (perBlock spare : Nat) (p : Parser α) : Prop where
  tally {last : Token} {tokens rest : List Token} {errors : List SyntaxError}
    {outcome : Except SyntaxError α} : p last tokens = ⟨errors, rest, outcome⟩ →
      ∃ used inside ending, tokens = used ++ rest ∧ errors = inside ++ ending ∧
        Tally perBlock spare last used rest inside ending
  stops {last : Token} {tokens rest : List Token} {errors : List SyntaxError} {e : SyntaxError} :
    p last tokens = ⟨errors, rest, .error e⟩ →
      e.token = rest.head?.getD last ∧ (e.fault = .unclosedBlock → 0 < perBlock)

namespace Parser
variable {p q : Parser α} {kind : TokenKind} {last t : Token} {tokens rest : List Token}

theorem next_cases (P : Token → Prop) (tokens : List Token) :
    (∃ t rest, tokens = t :: rest ∧ P t) ∨ ∀ t ∈ tokens.head?, ¬ P t := by
  cases tokens with
  | nil => simp
  | cons t rest => by_cases ht : P t <;> simp [ht]

private theorem take?_of_next {wanted : TokenKind → Bool} {f : Option Token → Parser α}
    (ht : wanted t.kind = true) : (take? wanted >>= f) last (t :: rest) = f (some t) last rest :=
  bind_of_ok (take?_eq_some_iff.mpr ⟨rfl, rfl, ht⟩) rfl

theorem take?_of_other {wanted : TokenKind → Bool} {f : Option Token → Parser α}
    (h : ∀ t ∈ tokens.head?, wanted t.kind = false) :
    (take? wanted >>= f) last tokens = f none last tokens :=
  bind_of_ok (take?_eq_none_iff.mpr ⟨rfl, rfl, h⟩) rfl

theorem branch_of_next (ht : t.kind = kind) :
    (do if ← skip kind then p else q : Parser α) last (t :: rest) = p last rest :=
  bind_of_ok (skip_eq_true_iff.mpr ⟨rfl, t, rfl, ht⟩) rfl

theorem branch_of_other (h : ∀ t ∈ tokens.head?, t.kind ≠ kind) :
    (do if ← skip kind then p else q : Parser α) last tokens = q last tokens :=
  bind_of_ok (skip_eq_false_iff.mpr ⟨rfl, rfl, h⟩) rfl

end Parser

namespace Blames
variable {perBlock perBlock' spare spare' : Nat} {p q : Parser α} {f : α → Parser β}
  {kind : TokenKind} {fault : SyntaxFault}

theorem mono (h : Blames perBlock spare p) (hper : perBlock ≤ perBlock') (hspare : spare ≤ spare') :
    Blames perBlock' spare' p where
  tally hp := by
    obtain ⟨used, inside, ending, htokens, herrors, htally⟩ := h.tally hp
    exact ⟨used, inside, ending, htokens, herrors, htally.mono hper hspare⟩
  stops hp := (h.stops hp).imp_right fun hfault hunclosed =>
    Nat.lt_of_lt_of_le (hfault hunclosed) hper

/-- Each part blames the tokens that it takes itself. -/
theorem bind (hp : Blames perBlock spare p)
    (hf : ∀ a, p.Returns a → Blames perBlock spare' (f a)) :
    Blames perBlock (spare + spare') (p >>= f) where
  tally h := by
    rcases bind_eq_iff.mp h with ⟨e, -, hfirst⟩ | ⟨before, middle, a, after, hfirst, hsecond, rfl⟩
    · obtain ⟨used, inside, ending, htokens, herrors, htally⟩ := hp.tally hfirst
      exact ⟨used, inside, ending, htokens, herrors,
        htally.mono (Nat.le_refl _) (Nat.le_add_right _ _)⟩
    · obtain ⟨used, inside, ending, rfl, rfl, htally⟩ := hp.tally hfirst
      have hreturns : p.Returns a := ⟨_, _, _, _, hfirst⟩
      obtain ⟨more, others, endings, rfl, rfl, htally'⟩ := (hf a hreturns).tally hsecond
      refine ⟨used ++ more, _, _, (List.append_assoc ..).symm, htally.ending_append htally', ?_⟩
      refine htally.append htally' ?_
      have hfew := htally.few
      have hfew' := htally'.few
      rw [List.length_append, openings_append, Nat.mul_add]
      omega
  stops h := by
    rcases bind_eq_iff.mp h with ⟨e, ⟨⟩, hfirst⟩ | ⟨before, middle, a, after, hfirst, hsecond, -⟩
    · exact hp.stops hfirst
    · exact (hf a ⟨_, _, _, _, hfirst⟩).stops hsecond

/-- A first part with no errors at the end to spare. -/
theorem andThen (hp : Blames perBlock 0 p)
    (hf : ∀ a, p.Returns a → Blames perBlock spare (f a)) : Blames perBlock spare (p >>= f) :=
  Nat.zero_add spare ▸ hp.bind hf

/-- A parser that reports nothing and never stops. -/
theorem of_ok (h : ∀ last tokens, ∃ used rest a, p last tokens = ⟨[], rest, .ok a⟩ ∧
      tokens = used ++ rest ∧ ∀ t ∈ used, t.kind ≠ .endOfInput) : Blames perBlock spare p where
  tally {last tokens _ _ _} hp := by
    obtain ⟨used, rest, a, hok, htokens, hused⟩ := h last tokens
    cases hok.symm.trans hp
    exact ⟨used, [], [], htokens, rfl, .silent hused⟩
  stops {last tokens _ _ _} hp := by
    obtain ⟨used, rest, a, hok, -⟩ := h last tokens
    cases hok.symm.trans hp

theorem pure (a : α) : Blames perBlock spare (pure a) :=
  .of_ok fun _ tokens => ⟨[], tokens, a, rfl, rfl, by simp⟩

theorem stopsAt (stop : TokenKind → Bool) : Blames perBlock spare (stopsAt stop) :=
  .of_ok fun _ tokens => ⟨[], tokens, _, rfl, rfl, by simp⟩

theorem fail (hfault : fault = .unclosedBlock → 0 < perBlock) :
    Blames perBlock spare (fail fault : Parser α) where
  tally {_ tokens _ _ _} h := by
    cases h
    exact ⟨[], [], [], rfl, rfl, .silent (by simp)⟩
  stops h := by
    cases h
    exact ⟨rfl, hfault⟩

theorem map {g : α → β} (hp : Blames perBlock spare p) :
    Blames perBlock spare (do let a ← p; return g a) :=
  hp.bind fun a _ => (pure (g a) : Blames perBlock 0 _)

/-- An end of input is of no class that a parser looks for. -/
theorem accept? {classify : Token → Option α}
    (h : ∀ t : Token, t.kind = .endOfInput → classify t = none) :
    Blames perBlock spare (accept? classify) := by
  refine .of_ok fun last tokens => ?_
  cases tokens with
  | nil => exact ⟨[], [], none, rfl, rfl, by simp⟩
  | cons t rest =>
    cases ht : classify t with
    | none =>
      refine ⟨[], t :: rest, none, ?_, rfl, by simp⟩
      exact accept?_eq_none_iff.mpr ⟨rfl, rfl, by simpa using ht⟩
    | some a =>
      refine ⟨[t], rest, some a, accept?_eq_some_iff.mpr ⟨rfl, t, rfl, ht⟩, rfl, ?_⟩
      refine List.forall_mem_singleton.mpr fun hend => ?_
      cases (h t hend).symm.trans ht

theorem take? {wanted : TokenKind → Bool} (h : wanted .endOfInput = false) :
    Blames perBlock spare (take? wanted) :=
  .accept? fun t ht => by rw [ht, h]; rfl

theorem skip (h : kind ≠ .endOfInput) : Blames perBlock spare (skip kind) :=
  .map (.take? (decide_eq_false h.symm))

theorem expect (h : kind ≠ .endOfInput) (hfault : fault = .unclosedBlock → 0 < perBlock) :
    Blames perBlock spare (expect kind fault) := by
  refine .andThen (.take? (decide_eq_false h.symm)) fun found _ => ?_
  cases found with
  | some t => exact .pure t
  | none => exact .fail hfault

/-- A part that a token has to close. -/
theorem closed {g : α → β} (hp : Blames perBlock spare p) (h : kind ≠ .endOfInput)
    (hfault : fault = .unclosedBlock → 0 < perBlock) :
    Blames perBlock spare (do let a ← p; let _ ← Parser.expect kind fault; return g a) :=
  hp.bind fun _ _ => (map (expect h hfault) : Blames perBlock 0 _)

/-- A branch on the next token, which only the first branch takes. -/
theorem branch (h : kind ≠ .endOfInput) (hp : ∀ t : Token, t.kind = kind → Blames perBlock spare p)
    (hq : Blames perBlock spare q) :
    Blames perBlock spare (do if ← Parser.skip kind then p else q) := by
  refine .andThen (.skip h) fun taken _ => ?_
  cases taken with
  | true => exact hp ⟨kind, "", .nil, 1⟩ rfl
  | false => exact hq

/-- A branch that an opening brace leads to may report one more error at the end. -/
theorem opened (hp : Blames perBlock (perBlock + spare) p) (hq : Blames perBlock spare q) :
    Blames perBlock spare (do if ← Parser.skip (.symbol .leftBrace) then p else q) where
  tally {last tokens rest _ _} h := by
    rcases next_cases (·.kind = .symbol .leftBrace) tokens with ⟨t, more, rfl, ht⟩ | hother
    · rw [branch_of_next ht] at h
      obtain ⟨used, inside, ending, rfl, rfl, htally⟩ := hp.tally h
      have htaken : Tally 0 0 last [t] (used ++ rest) [] [] := .silent (by simp [ht])
      refine ⟨[t] ++ used, inside, ending, rfl, rfl, htaken.append htally ?_⟩
      have hfew := htally.few
      have hopen : openings [t] = 1 := by simp [openings, ht]
      rw [List.nil_append, openings_append, hopen, Nat.mul_add]
      omega
    · rw [branch_of_other hother] at h
      exact hq.tally h
  stops {_ tokens _ _ _} h := by
    rcases next_cases (·.kind = .symbol .leftBrace) tokens with ⟨t, more, rfl, ht⟩ | hother
    · rw [branch_of_next ht] at h
      exact hp.stops h
    · rw [branch_of_other hother] at h
      exact hq.stops h

/-- A report is about the equals sign that was taken before the value. -/
theorem assigned {inner : Parser Expr} (hi : Blames 0 0 inner) (target : Expr) :
    Blames 0 0 (assigned inner target) where
  tally {last tokens _ _ _} h := by
    unfold Program.assigned at h
    rcases next_cases (·.kind = .symbol .equal) tokens with ⟨mark, more, rfl, hm⟩ | hother
    · have hend : mark.kind ≠ .endOfInput := by simp [hm]
      rw [take?_of_next (decide_eq_true hm)] at h
      rcases bind_eq_iff.mp h with ⟨e, -, hvalue⟩ | ⟨_, middle, value, _, hvalue, hresult, rfl⟩
      · obtain ⟨used, inside, ending, rfl, rfl, htally⟩ := hi.tally hvalue
        exact ⟨[mark] ++ used, inside, ending, rfl, rfl, htally.cons hend⟩
      · obtain ⟨used, inside, ending, rfl, rfl, htally⟩ := hi.tally hvalue
        obtain rfl : ending = [] := by simpa using htally.few
        have hreport (e : Expr) : (do report ⟨.invalidTarget, mark⟩; return e) last middle =
            ⟨[⟨.invalidTarget, mark⟩], middle, .ok e⟩ := rfl
        cases target with
        | name token =>
          cases hresult
          exact ⟨[mark] ++ used, inside, [], rfl, by simp, htally.cons hend⟩
        | literal | group | unary | binary | assign =>
          cases (hreport _).symm.trans hresult
          exact ⟨[mark] ++ used, inside ++ [⟨.invalidTarget, mark⟩], [], rfl, by simp,
            htally.mark hend⟩
    · rw [take?_of_other (by simpa using hother)] at h
      cases h
      exact ⟨[], [], [], rfl, rfl, .silent (by simp)⟩
  stops {_ tokens _ _ _} h := by
    unfold Program.assigned at h
    rcases next_cases (·.kind = .symbol .equal) tokens with ⟨mark, more, rfl, hm⟩ | hother
    · rw [take?_of_next (decide_eq_true hm)] at h
      rcases bind_eq_iff.mp h with ⟨e, ⟨⟩, hvalue⟩ | ⟨_, middle, value, _, hvalue, hresult, rfl⟩
      · exact hi.stops hvalue
      · cases target <;> cases hresult
    · rw [take?_of_other (by simpa using hother)] at h
      cases h

/-- A loop that may take as many rounds as there are tokens. -/
theorem of_remaining {bounded : Nat → Parser α}
    (h : ∀ bound, Blames perBlock spare (bounded bound)) :
    Blames perBlock spare (do bounded (← remaining)) where
  tally {_ tokens _ _ _} hp := (h tokens.length).tally hp
  stops {_ tokens _ _ _} hp := (h tokens.length).stops hp

end Blames

/-- Parsers of the logic report nothing about the end. -/
theorem Reads.blames {p : Parser α} {L : α → List Token → List SyntaxError → Prop}
    (h : Reads p L) : Blames 0 0 p := by
  induction h with
  | pure => exact .pure _
  | fail _ hblock => exact .fail fun hfault => absurd hfault hblock
  | accept? hclass => exact .accept? fun t ht => hclass t (.inl ht)
  | bind hp _ ih ih' =>
    refine .andThen ih fun a ha => ?_
    obtain ⟨used, marks, hM⟩ := hp.of_returns ha
    exact ih' a used marks hM
  | mono _ _ ih => exact ih
  | assigned _ ih => exact ih.assigned _
  | bounded _ _ ih => exact .of_remaining ih

section Statements
variable {item : Parser (Option Stmt)} {last t : Token} {tokens rest : List Token}
  {perBlock spare : Nat}

/-- Recovery drops the token that is blamed and others up to the end of input at most. -/
private theorem exists_dropped (ht : t.kind ≠ .endOfInput) (rest : List Token) :
    ∃ dropped, rest = dropped ++ resume (t :: rest) ∧ ∀ u ∈ dropped, u.kind ≠ .endOfInput := by
  induction rest generalizing t with
  | nil => exact ⟨[], by simp [resume, ht], by simp⟩
  | cons next rest ih =>
    rw [resume, if_neg ht]
    split
    · exact ⟨[], rfl, by simp⟩
    · split
      · exact ⟨[], rfl, by simp⟩
      · by_cases hnext : next.kind = .endOfInput
        · exact ⟨[], by simp [resume, hnext], by simp⟩
        · obtain ⟨dropped, hrest, hdropped⟩ := ih hnext
          exact ⟨next :: dropped, congrArg (next :: ·) hrest,
            List.forall_mem_cons.mpr ⟨hnext, hdropped⟩⟩

private theorem resume_of_atStop (h : AtStop (fun _ => false) tokens) : resume tokens = tokens := by
  cases tokens with
  | nil => rfl
  | cons t rest =>
    have ht : t.kind = .endOfInput := by simpa using h t rfl
    rw [resume, if_pos ht]

/-- The error that recovery reports is about the first token it drops, or at the end. -/
theorem Blames.recovering {p : Parser α} (hp : Blames perBlock spare p) :
    Blames perBlock (spare + 1) (recovering p) where
  tally {last tokens left errors outcome} h := by
    rcases hr : p last tokens with ⟨reported, rest, e | a⟩
    · obtain ⟨used, inside, ending, rfl, rfl, htally⟩ := hp.tally hr
      have htoken := (hp.stops hr).1
      cases (recovering_of_error hr).symm.trans h
      rcases atStop_or_next (fun _ => false) rest with hstop | ⟨t, more, rfl, hstop⟩
      · rw [resume_of_atStop hstop]
        exact ⟨used, inside, ending ++ [e], rfl, List.append_assoc ..,
          htally.blame_end hstop htoken⟩
      · have ht := kind_ne_end_of_not_atStop hstop
        obtain rfl : ending = [] := List.eq_nil_iff_forall_not_mem.mpr fun e he =>
          hstop (htally.atEnd e he).1
        obtain ⟨dropped, hmore, hdropped⟩ := exists_dropped ht more
        obtain rfl : e.token = t := htoken
        have hleft : e.token :: more = e.token :: dropped ++ resume (e.token :: more) :=
          congrArg (e.token :: ·) hmore
        rw [hleft] at htally
        refine ⟨used ++ e.token :: dropped, inside ++ [e], [], ?_, by simp, ?_⟩
        · rw [List.append_assoc, ← hleft]
        · exact htally.append (.first (List.forall_mem_cons.mpr ⟨ht, hdropped⟩)) (Nat.zero_le _)
    · obtain ⟨used, inside, ending, htokens, herrors, htally⟩ := hp.tally hr
      cases (recovering_of_ok hr).symm.trans h
      exact ⟨used, inside, ending, htokens, herrors,
        htally.mono (Nat.le_refl _) (Nat.le_succ _)⟩
  stops {last tokens _ _ _} h := by
    rcases hr : p last tokens with ⟨reported, rest, e | a⟩
    · cases (recovering_of_error hr).symm.trans h
    · cases (recovering_of_ok hr).symm.trans h

private theorem statements_of_atStop (h : AtStop (fun _ => false) tokens) (stop : TokenKind → Bool)
    (bound : Nat) : statements stop item bound last tokens = ⟨[], tokens, .ok []⟩ := by
  cases bound with
  | zero => rfl
  | succ bound =>
    refine statements_eq_ok_iff.mpr (.inl ⟨fun t ht => ?_, rfl, rfl, rfl⟩)
    exact .inl (by simpa using h t ht)

/-- An item that reports errors at the end is the last one. -/
theorem statements_blames (hi : Blames perBlock spare item) (stop : TokenKind → Bool)
    (bound : Nat) : Blames perBlock spare (statements stop item bound) := by
  induction bound with
  | zero => exact .pure []
  | succ bound ih =>
    refine .andThen (.stopsAt stop) fun stopped _ => ?_
    cases stopped with
    | true => exact .pure []
    | false =>
      have hrest (first : Option Stmt) : Blames perBlock spare (do
          let rest ← statements stop item bound
          return first.toList ++ rest) := .map ih
      refine ⟨fun {last tokens rest errors outcome} h => ?_, (hi.bind fun a _ => hrest a).stops⟩
      rcases bind_eq_iff.mp h with
        ⟨e, -, hfirst⟩ | ⟨before, middle, first, after, hfirst, hmore, rfl⟩
      · exact hi.tally hfirst
      · obtain ⟨used, inside, ending, rfl, rfl, htally⟩ := hi.tally hfirst
        obtain ⟨more, others, endings, rfl, rfl, htally'⟩ := (hrest first).tally hmore
        refine ⟨used ++ more, _, _, (List.append_assoc ..).symm, htally.ending_append htally',
          htally.append htally' ?_⟩
        have hone : ending = [] ∨ endings = [] := by
          cases ending with
          | nil => exact .inl rfl
          | cons e ending =>
            have hstop := (htally.atEnd e List.mem_cons_self).1
            rw [bind_return, statements_of_atStop hstop] at hmore
            exact .inr (List.append_eq_nil_iff.mp (congrArg Reply.reported hmore).symm).2
        have hfew := htally.few
        have hfew' := htally'.few
        rw [List.length_append, openings_append, Nat.mul_add]
        rcases hone with rfl | rfl <;> rw [List.length_nil] <;> omega

/-- In a block the statements report one error at the end more than its own blocks, which the
opening brace of the block makes up for. -/
theorem statement_blames (hi : Blames 1 1 item) (bound : Nat) :
    Blames 1 0 (statement bound item) := by
  have hsimple {p : Parser Stmt} (hp : Blames 0 0 p) : Blames 1 0 p :=
    hp.mono (Nat.zero_le 1) (Nat.le_refl 0)
  refine .branch (by simp) (fun word hw => hsimple (declaration_reads hw).blames) ?_
  refine .branch (by simp) (fun word hw => hsimple (print_reads hw).blames) ?_
  refine .opened ?_ (hsimple evaluate_reads.blames)
  exact .closed (statements_blames hi _ bound) (by simp) (by simp)

theorem statementWithin_blames (bound : Nat) : Blames 1 1 (statementWithin bound) := by
  induction bound with
  | zero => exact .recovering (.fail (by simp))
  | succ bound ih => exact .recovering (statement_blames ih (bound + 1))

theorem statementsUpTo_blames (stop : TokenKind → Bool) : Blames 1 1 (statementsUpTo stop) :=
  .of_remaining fun bound => statements_blames (statementWithin_blames bound) _ bound

end Statements

section Tokens
variable {tokens : List Token} {errors : List SyntaxError}

/-- The errors of a token list, sorted by whether they are about a token or the end. -/
theorem exists_tally (h : ofTokens tokens = .error errors) :
    ∃ rest inside ending, errors = inside ++ ending ∧
      Tally 1 1 (lastToken tokens) (body tokens) rest inside ending ∧
      ∀ e ∈ ending, e.token = endOf tokens := by
  obtain ⟨reported, program, rest, hrounds⟩ := exists_rounds (lastToken tokens) tokens
  obtain ⟨rfl, -⟩ := ofTokens_eq_error_iff.mp h
  rw [hrounds.statementsOf]
  obtain ⟨used, inside, ending, htokens, herrors, htally⟩ :=
    (statementsUpTo_blames _).tally hrounds.statementsOf
  have hbody : body tokens = used := by rw [htokens, body_append htally.taken hrounds.atStop]
  rw [hbody]
  refine ⟨rest, inside, ending, herrors, htally, fun e he => ?_⟩
  rw [(htally.atEnd e he).2, htokens, endOf_append htally.taken hrounds.atStop]

/-- If the tokens are all different, none but the end is blamed twice. Errors that are no bad
targets come in the order of the tokens, and errors at the end come last, at most one for every
opening brace and one more. -/
theorem blamed_once (hdistinct : tokens.Nodup) (h : ofTokens tokens = .error errors) :
    ∃ inside ending, errors = inside ++ ending ∧
      (∀ e ∈ inside, e.token ∈ body tokens) ∧ (inside.map SyntaxError.token).Nodup ∧
      ((inside.filter fun e => e.fault ≠ .invalidTarget).map SyntaxError.token).Sublist
        (body tokens) ∧
      (∀ e ∈ ending, e.token = endOf tokens) ∧
      ending.length ≤ (body tokens).countP (fun t => t.kind = .symbol .leftBrace) + 1 := by
  obtain ⟨rest, inside, ending, herrors, htally, hend⟩ := exists_tally h
  refine ⟨inside, ending, herrors, fun e he => ?_, ?_, htally.ordered, hend, ?_⟩
  · exact htally.once.subset (List.mem_map_of_mem he)
  · obtain ⟨chosen, hperm, hsub⟩ := htally.once
    exact hperm.nodup_iff.mp ((hdistinct.sublist (List.takeWhile_sublist _)).sublist hsub)
  · have hfew := htally.few
    rwa [Nat.one_mul] at hfew

/-- A bad target and a stray parenthesis in a block, and two blocks and a print left open. -/
theorem blamed_once_open :
    let opening (line : Nat) : Token := ⟨.symbol .leftBrace, "\x7b", .nil, line⟩
    let name (line : Nat) : Token := ⟨.keyword .nilWord, "nil", .nil, line⟩
    let semicolon (line : Nat) : Token := ⟨.symbol .semicolon, ";", .nil, line⟩
    let mark : Token := ⟨.symbol .equal, "=", .nil, 1⟩
    let stray : Token := ⟨.symbol .rightParen, ")", .nil, 3⟩
    let tokens := [opening 1, name 1, mark, name 2, semicolon 2, stray, semicolon 3, opening 3,
      ⟨.keyword .printWord, "print", .nil, 4⟩]
    let errors : List SyntaxError := [⟨.invalidTarget, mark⟩, ⟨.expectedExpression, stray⟩,
      ⟨.expectedExpression, .endOfInput 4⟩, ⟨.unclosedBlock, .endOfInput 4⟩,
      ⟨.unclosedBlock, .endOfInput 4⟩]
    tokens.Nodup ∧ ofTokens tokens = .error errors ∧
      ∃ inside ending, errors = inside ++ ending ∧
        (∀ e ∈ inside, e.token ∈ body tokens) ∧ (inside.map SyntaxError.token).Nodup ∧
        ((inside.filter fun e => e.fault ≠ .invalidTarget).map SyntaxError.token).Sublist
          (body tokens) ∧
        (∀ e ∈ ending, e.token = endOf tokens) ∧
        ending.length ≤ (body tokens).countP (fun t => t.kind = .symbol .leftBrace) + 1 := by
  intro opening name semicolon mark stray tokens errors
  have hdistinct : tokens.Nodup := by decide
  have hread : ofTokens tokens = .error errors :=
    ofTokens_eq_error_iff.mpr ⟨by decide +kernel, List.cons_ne_nil _ _⟩
  exact ⟨hdistinct, hread, blamed_once hdistinct hread⟩

end Tokens
end BlockScript.Program
