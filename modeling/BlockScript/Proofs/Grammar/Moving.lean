import BlockScript.Program.Expression
import BlockScript.Proofs.Grammar.Relabeling

/-!
Reading tokens that were moved: changed but for their texts, and put in front of more tokens. A
parser that did not get to the end of its tokens does the same with the moved ones, and whatever
bounds its loops have, if only they have a round for every token.
-/
namespace BlockScript.Program
open BlockScript.Program.Parser

variable {α β α' β' : Type}

namespace Reply

/-- What a reply is on moved tokens. -/
def moved (f : Token → Token) (g : α → β) (more : List Token) (r : Reply α) : Reply β :=
  ⟨r.reported.map (SyntaxError.mapToken f), r.rest.map f ++ more,
    (r.outcome.map g).mapError (SyntaxError.mapToken f)⟩

/-- The parser did not need what is behind its tokens: it left some, or closed what it read. -/
def Inside (closing : Prop) (r : Reply α) : Prop :=
  r.rest ≠ [] ∨ closing ∧ ∃ a, r.outcome = .ok a

def map (h : α → β) (r : Reply α) : Reply β := ⟨r.reported, r.rest, r.outcome.map h⟩

/-- Unchanged tokens only have more tokens behind them. -/
theorem moved_id {g : α → α} (hg : ∀ a, g a = a) (more : List Token)
    (r : Reply α) : r.moved id g more = ⟨r.reported, r.rest ++ more, r.outcome⟩ := by
  have herror : SyntaxError.mapToken id = id := rfl
  rw [moved, herror, List.map_id, List.map_id]
  cases r.outcome with
  | error e => rfl
  | ok a => exact congrArg (fun a => Reply.mk _ _ (.ok a)) (hg a)

end Reply

namespace Parser

/-- The results that a parser can have. -/
def Returns (p : Parser α) (a : α) : Prop :=
  ∃ last tokens errors rest, p last tokens = ⟨errors, rest, .ok a⟩

theorem bind_of_error {p : Parser α} {next : α → Parser β} {last : Token}
    {tokens rest : List Token} {errors : List SyntaxError} {e : SyntaxError}
    (h : p last tokens = ⟨errors, rest, .error e⟩) :
    (p >>= next) last tokens = ⟨errors, rest, .error e⟩ := by
  change andThen p next last tokens = _
  rw [andThen, h]

theorem bind_of_ok {p : Parser α} {next : α → Parser β} {last : Token}
    {tokens rest left : List Token} {errors others : List SyntaxError} {a : α}
    {outcome : Except SyntaxError β}
    (h : p last tokens = ⟨errors, rest, .ok a⟩) (h' : next a last rest = ⟨others, left, outcome⟩) :
    (p >>= next) last tokens = ⟨errors ++ others, left, outcome⟩ := by
  change andThen p next last tokens = _
  simp only [andThen, h, h']

theorem bind_return (p : Parser α) (h : α → β) (last : Token) (tokens : List Token) :
    (do let a ← p; return h a : Parser β) last tokens = (p last tokens).map h := by
  rcases hr : p last tokens with ⟨errors, rest, e | a⟩
  · exact bind_of_error hr
  · refine (bind_of_ok hr rfl).trans ?_
    rw [List.append_nil]
    rfl

end Parser

/-- On these tokens `p` leaves an end of them and stops only at the next token, and `q` does on
moved tokens what `p` does on these. A closing parser takes a token whenever it succeeds, and
nothing behind the last one it takes matters to it. -/
structure Moves (closing : Prop) (f : Token → Token) (g : α → β) (p : Parser α) (q : Parser β)
    (last : Token) (tokens : List Token) : Prop where
  suffix : (p last tokens).rest <:+ tokens
  blame : ∀ e, (p last tokens).outcome = .error e → e.token = (p last tokens).rest.head?.getD last
  shorter : closing → ∀ a, (p last tokens).outcome = .ok a →
    (p last tokens).rest.length < tokens.length
  reply : ∀ final more, more = [] ∧ final = f last ∨ (p last tokens).Inside closing →
    q final (tokens.map f ++ more) = (p last tokens).moved f g more

section Moves
variable {closing : Prop} {f : Token → Token} {g : α → β} {g' : α' → β'} {p p' : Parser α}
  {q q' : Parser β} {next : α → Parser α'} {next' : β → Parser β'} {last : Token}
  {tokens : List Token} {kind : TokenKind} {fault : SyntaxFault}

theorem Moves.bind (hp : Moves False f g p q last tokens)
    (hnext : ∀ {errors rest a}, p last tokens = ⟨errors, rest, .ok a⟩ → rest <:+ tokens →
      Moves closing f g' (next a) (next' (g a)) last rest) :
    Moves closing f g' (p >>= next) (q >>= next') last tokens := by
  obtain ⟨hsuffix, hblame, -, hreply⟩ := hp
  rcases hr : p last tokens with ⟨errors, rest, e | a⟩ <;> rw [hr] at hsuffix hblame hreply
  · have hbind : (p >>= next) last tokens = ⟨errors, rest, .error e⟩ := bind_of_error hr
    constructor <;> rw [hbind]
    · exact hsuffix
    · intro e' he
      cases he
      exact hblame e rfl
    · intro _ a ha
      cases ha
    · intro final more hmore
      refine bind_of_error (hreply final more (hmore.imp_right ?_))
      rintro (hrest | ⟨-, a, ha⟩)
      · exact .inl hrest
      · cases ha
  · obtain ⟨hsuffix', hblame', hshorter', hreply'⟩ := hnext hr hsuffix
    rcases hs : next a last rest with ⟨others, left, outcome⟩
    rw [hs] at hsuffix' hblame' hshorter' hreply'
    have hbind : (p >>= next) last tokens = ⟨errors ++ others, left, outcome⟩ := bind_of_ok hr hs
    constructor <;> rw [hbind]
    · exact hsuffix'.trans hsuffix
    · exact hblame'
    · exact fun hc b hb => Nat.lt_of_lt_of_le (hshorter' hc b hb) hsuffix.length_le
    · intro final more hmore
      -- The second parser leaves tokens or takes some, so the first one left some.
      have hrest : (⟨errors ++ others, left, outcome⟩ : Reply α').Inside closing → rest ≠ [] := by
        rintro (hleft | ⟨hc, b, hb⟩) rfl
        · exact hleft (List.suffix_nil.mp hsuffix')
        · exact Nat.not_lt_zero _ (hshorter' hc b hb)
      have hfirst := hreply final more (hmore.imp_right fun h => .inl (hrest h))
      have hsecond := hreply' final more hmore
      refine (bind_of_ok hfirst hsecond).trans ?_
      rw [← List.map_append]
      rfl

theorem Moves.opened (h : Moves closing f g p q last tokens) : Moves False f g p q last tokens where
  suffix := h.suffix
  blame := h.blame
  shorter := False.elim
  reply := fun final more hmore =>
    h.reply final more (hmore.imp_right (Or.imp_right fun hc => hc.1.elim))

/-- A parser that succeeds without looking further than its next token. -/
theorem Moves.of_ok {errors : List SyntaxError} {rest : List Token} {a : α}
    (hp : p last tokens = ⟨errors, rest, .ok a⟩) (hsuffix : rest <:+ tokens)
    (hshorter : closing → rest.length < tokens.length)
    (hq : ∀ final more, more = [] ∧ final = f last ∨ tokens ≠ [] → q final (tokens.map f ++ more) =
      ⟨errors.map (SyntaxError.mapToken f), rest.map f ++ more, .ok (g a)⟩) :
    Moves closing f g p q last tokens := by
  constructor <;> rw [hp]
  · exact hsuffix
  · intro e he
    cases he
  · exact fun hc _ _ => hshorter hc
  · intro final more hmore
    refine hq final more (hmore.imp_right ?_)
    rintro (hrest | ⟨hc, -⟩) rfl
    · exact hrest (List.suffix_nil.mp hsuffix)
    · exact Nat.not_lt_zero _ (hshorter hc)

theorem Moves.pure (a : α) : Moves False f g (pure a) (pure (g a)) last tokens :=
  .of_ok rfl List.suffix_rfl False.elim fun _ _ _ => rfl

theorem Moves.report (e : SyntaxError) :
    Moves False f id (report e) (report (e.mapToken f)) last tokens :=
  .of_ok rfl List.suffix_rfl False.elim fun _ _ _ => rfl

theorem Moves.fail : Moves closing f g (fail fault) (fail fault) last tokens where
  suffix := List.suffix_rfl
  blame := fun _ he => by
    cases he
    rfl
  shorter := fun _ _ ha => by cases ha
  reply := fun final more hmore => by
    cases tokens with
    | cons t rest => rfl
    | nil =>
      obtain ⟨rfl, rfl⟩ | hrest | ⟨-, a, ha⟩ := hmore
      · rfl
      · exact absurd rfl hrest
      · cases ha

theorem Moves.map {h : α → α'} {h' : β → β'} (hp : Moves closing f g p q last tokens)
    (hh : ∀ a, h' (g a) = g' (h a)) :
    Moves closing f g' (do let a ← p; return h a) (do let b ← q; return h' b) last tokens := by
  rcases hr : p last tokens with ⟨errors, rest, e | a⟩
  · exact .bind hp.opened fun ha => by cases hr.symm.trans ha
  · obtain ⟨hsuffix, -, hshorter, hreply⟩ := hp
    rw [hr] at hsuffix hshorter hreply
    have hmap : (do let a ← p; return h a) last tokens = ⟨errors, rest, .ok (h a)⟩ := by
      rw [bind_return, hr]
      rfl
    constructor <;> rw [hmap]
    · exact hsuffix
    · intro e he
      cases he
    · exact fun hc _ _ => hshorter hc a rfl
    · intro final more hmore
      rw [bind_return, hreply final more (hmore.imp_right (Or.imp_right fun hc => ⟨hc.1, a, rfl⟩))]
      exact congrArg (fun b => Reply.mk _ _ (.ok b)) (hh a)

theorem Moves.accept? {classify : Token → Option α} {classify' : Token → Option β}
    (h : ∀ t, classify' (f t) = (classify t).map g) :
    Moves False f (Option.map g) (accept? classify) (accept? classify') last tokens := by
  cases tokens with
  | nil =>
    refine .of_ok (a := none) rfl List.suffix_rfl False.elim ?_
    rintro final more (⟨rfl, rfl⟩ | hne)
    · rfl
    · exact absurd rfl hne
  | cons t rest =>
    cases ht : classify t with
    | none =>
      refine .of_ok (accept?_eq_none_iff.mpr ⟨rfl, rfl, by simpa using ht⟩) List.suffix_rfl
        False.elim fun final more _ => accept?_eq_none_iff.mpr ⟨rfl, rfl, ?_⟩
      simpa [ht] using h t
    | some a =>
      refine .of_ok (accept?_eq_some_iff.mpr ⟨rfl, t, rfl, ht⟩) (List.suffix_cons t rest) False.elim
        fun final more _ => accept?_eq_some_iff.mpr ⟨rfl, f t, rfl, ?_⟩
      rw [h, ht]
      rfl

theorem Moves.stopsAt (hf : Token.KeepsText f) (stop : TokenKind → Bool) :
    Moves False f id (stopsAt stop) (stopsAt stop) last tokens := by
  refine .of_ok rfl List.suffix_rfl False.elim ?_
  rintro final more (⟨rfl, rfl⟩ | hne) <;> cases tokens <;> simp_all [Parser.stopsAt, hf.kind]

theorem Moves.take? (hf : Token.KeepsText f) (wanted : TokenKind → Bool) :
    Moves False f (Option.map f) (take? wanted) (take? wanted) last tokens := by
  refine .accept? fun t => ?_
  rw [hf.kind]
  cases wanted t.kind <;> rfl

theorem Moves.skip (hf : Token.KeepsText f) :
    Moves False f id (skip kind) (skip kind) last tokens := by
  refine .map (.take? hf _) fun found => ?_
  exact Option.isSome_map

theorem Moves.expect (hf : Token.KeepsText f) :
    Moves True f f (expect kind fault) (expect kind fault) last tokens := by
  by_cases h : ∃ t rest, tokens = t :: rest ∧ t.kind = kind
  · obtain ⟨t, rest, rfl, hk⟩ := h
    exact .of_ok (expect_eq_ok_iff.mpr ⟨rfl, rfl, hk⟩) (List.suffix_cons t rest) (by simp)
      fun final more _ => expect_eq_ok_iff.mpr ⟨rfl, rfl, (hf.kind t).trans hk⟩
  · refine .bind (.take? hf _) fun {_ rest found} hfound _ => ?_
    cases found with
    | none => exact .fail
    | some t =>
      obtain ⟨-, rfl, hk⟩ := take?_eq_some_iff.mp hfound
      exact absurd ⟨t, rest, rfl, by simpa using hk⟩ h

/-- A part that a token has to close. -/
theorem Moves.closed {h : α → α'} {h' : β → β'} (hf : Token.KeepsText f)
    (hp : Moves False f g p q last tokens) (hh : ∀ a, h' (g a) = g' (h a)) :
    Moves True f g' (do let a ← p; let _ ← Parser.expect kind fault; return h a)
      (do let b ← q; let _ ← Parser.expect kind fault; return h' b) last tokens :=
  .bind hp fun _ _ => .map (.expect hf) fun _ => hh _

/-- A branch on the next token, which only the first branch takes. -/
theorem Moves.branch (hf : Token.KeepsText f)
    (hp : ∀ t rest, tokens = t :: rest → Moves closing f g p q last rest)
    (hp' : Moves closing f g p' q' last tokens) :
    Moves closing f g (do if ← Parser.skip kind then p else p')
      (do if ← Parser.skip kind then q else q') last tokens := by
  refine .bind (.skip hf) fun {_ rest taken} htaken _ => ?_
  cases taken with
  | true =>
    obtain ⟨-, t, rfl, -⟩ := skip_eq_true_iff.mp htaken
    exact hp t rest rfl
  | false =>
    obtain ⟨-, rfl, -⟩ := skip_eq_false_iff.mp htaken
    exact hp'

/-- Where nothing is changed or added, both parsers do the same. -/
theorem Moves.eq {g : α → α} {p q : Parser α} (h : Moves closing id g p q last tokens)
    (hg : ∀ a, g a = a) :
    q last tokens = p last tokens := by
  have hreply := h.reply last [] (.inl ⟨rfl, rfl⟩)
  rwa [Reply.moved_id hg, List.map_id, List.append_nil, List.append_nil] at hreply

/-- With no token left, only what the parsers do there counts. -/
theorem Moves.congr_nil (h : Moves False f g p q last []) (hp : p' last [] = p last [])
    (hq : q' (f last) [] = q (f last) []) : Moves False f g p' q' last [] where
  suffix := hp ▸ h.suffix
  blame := hp ▸ h.blame
  shorter := False.elim
  reply := by
    rintro final more (⟨rfl, rfl⟩ | hrest | ⟨hc, -⟩)
    · rw [hp]
      exact hq.trans (h.reply (f last) [] (.inl ⟨rfl, rfl⟩))
    · rw [hp] at hrest
      exact absurd (List.suffix_nil.mp h.suffix) hrest
    · exact hc.elim

/-- Induction for two loops with a round for every token at least. A first token is taken in one
round of each, and the rounds that are left do for any tokens not more than the others. -/
theorem bounds_induction {motive : Nat → Nat → List Token → Prop} (nil : ∀ n m, motive n m [])
    (cons : ∀ n m t rest, rest.length ≤ n → rest.length ≤ m →
      (∀ left : List Token, left.length ≤ rest.length → motive n m left) →
      motive (n + 1) (m + 1) (t :: rest))
    {n m : Nat} (hn : tokens.length ≤ n) (hm : tokens.length ≤ m) : motive n m tokens := by
  induction n generalizing m tokens with
  | zero =>
    obtain rfl := List.length_eq_zero_iff.mp (Nat.le_zero.mp hn)
    exact nil 0 m
  | succ n ih =>
    cases tokens with
    | nil => exact nil (n + 1) m
    | cons t rest =>
      obtain ⟨m, rfl⟩ := Nat.exists_eq_succ_of_ne_zero (Nat.ne_zero_of_lt hm)
      replace hn := Nat.le_of_succ_le_succ hn
      replace hm := Nat.le_of_succ_le_succ hm
      exact cons n m t rest hn hm fun left hleft =>
        ih (Nat.le_trans hleft hn) (Nat.le_trans hleft hm)

/-- Loops with a round for every token. -/
theorem Moves.of_remaining {bounded : Nat → Parser α} {bounded' : Nat → Parser β}
    (h : ∀ m, tokens.length ≤ m →
      Moves False f g (bounded tokens.length) (bounded' m) last tokens) :
    Moves False f g (do bounded (← remaining)) (do bounded' (← remaining)) last tokens where
  suffix := (h _ (Nat.le_refl _)).suffix
  blame := (h _ (Nat.le_refl _)).blame
  shorter := False.elim
  reply := fun final more hmore => by
    have hm : tokens.length ≤ (tokens.map f ++ more).length := by simp
    exact (h _ hm).reply final more hmore

end Moves

section Expressions
variable {f : Token → Token} {inner inner' next next' base base' : Parser Expr} {last : Token}
  {tokens : List Token} {k n m : Nat} {isOperator : TokenKind → Bool}

private theorem atom?_mapToken (hf : Token.KeepsText f) (t : Token) :
    atom? (f t) = (atom? t).map (Expr.mapTokens f) := by
  unfold atom?
  rw [hf.kind, hf.literal]
  split <;> rfl

/-- Of at most `k` moved tokens `q` reads the expression that `p` reads. -/
def MovesExpr (f : Token → Token) (k : Nat) (p q : Parser Expr) : Prop :=
  ∀ ⦃last tokens⦄, tokens.length ≤ k → Moves False f (Expr.mapTokens f) p q last tokens

private theorem operand_moves (hf : Token.KeepsText f) (hi : MovesExpr f k inner inner') :
    MovesExpr f (k + 1) (operand inner) (operand inner') := by
  intro last tokens hlen
  refine .bind (.accept? (atom?_mapToken hf)) fun {_ rest found} hfound _ => ?_
  cases found with
  | some e => exact .pure e
  | none =>
    obtain ⟨-, rfl, -⟩ := accept?_eq_none_iff.mp hfound
    refine .branch hf (fun t rest ht => ?_) .fail
    rw [ht, List.length_cons] at hlen
    exact Moves.opened (.closed hf (hi (Nat.le_of_succ_le_succ hlen)) fun _ => rfl)

private theorem unary_nil (base : Parser Expr) (bound : Nat) (last : Token) :
    unary base bound last [] = base last [] := by
  cases bound <;> rfl

private theorem unary_moves (hf : Token.KeepsText f) (hb : MovesExpr f k base base') (hn : k ≤ n)
    (hm : k ≤ m) : MovesExpr f k (unary base n) (unary base' m) := by
  intro last tokens hlen
  refine bounds_induction (motive := fun n m tokens => tokens.length ≤ k →
    Moves False f (Expr.mapTokens f) (unary base n) (unary base' m) last tokens) ?_ ?_
    (Nat.le_trans hlen hn) (Nat.le_trans hlen hm) hlen
  · exact fun n m hlen => (hb hlen).congr_nil (unary_nil base n last) (unary_nil base' m (f last))
  · intro n m t rest _ _ ih hlen
    refine .bind (.take? hf _) fun {_ _ found} hfound _ => ?_
    cases found with
    | none =>
      obtain ⟨-, rfl, -⟩ := take?_eq_none_iff.mp hfound
      exact hb hlen
    | some operator =>
      obtain ⟨-, htaken, -⟩ := take?_eq_some_iff.mp hfound
      cases htaken
      exact .map (ih rest (Nat.le_refl _) (Nat.le_of_succ_le hlen)) fun _ => rfl

private theorem extend_nil (isOperator : TokenKind → Bool) (next : Parser Expr) (bound : Nat)
    (left : Expr)
    (last : Token) : extend isOperator next bound left last [] = ⟨[], [], .ok left⟩ := by
  cases bound <;> rfl

private theorem extend_moves (hf : Token.KeepsText f) (hnext : MovesExpr f k next next')
    (hlen : tokens.length ≤ k) (hn : tokens.length ≤ n) (hm : tokens.length ≤ m) (left : Expr) :
    Moves False f (Expr.mapTokens f) (extend isOperator next n left)
      (extend isOperator next' m (left.mapTokens f)) last tokens := by
  refine bounds_induction (motive := fun n m tokens => tokens.length ≤ k → ∀ left,
    Moves False f (Expr.mapTokens f) (extend isOperator next n left)
      (extend isOperator next' m (left.mapTokens f)) last tokens) ?_ ?_ hn hm hlen left
  · exact fun n m _ left => (Moves.pure left).congr_nil (extend_nil _ _ n _ _) (extend_nil _ _ m _ _)
  · intro n m t rest _ _ ih hlen left
    replace hlen := Nat.le_of_succ_le hlen
    refine .bind (.take? hf _) fun {_ _ found} hfound _ => ?_
    cases found with
    | none => exact .pure left
    | some operator =>
      obtain ⟨-, htaken, -⟩ := take?_eq_some_iff.mp hfound
      cases htaken
      refine .bind (hnext hlen) fun {_ behind right} _ hsuffix => ?_
      exact ih behind hsuffix.length_le (Nat.le_trans hsuffix.length_le hlen) _

private theorem level_moves (hf : Token.KeepsText f) (hnext : MovesExpr f k next next') (hn : k ≤ n)
    (hm : k ≤ m) : MovesExpr f k (level isOperator n next) (level isOperator m next') := by
  intro last tokens hlen
  refine .bind (hnext hlen) fun {_ rest left} _ hsuffix => ?_
  have hrest := Nat.le_trans hsuffix.length_le hlen
  exact extend_moves hf hnext hrest (Nat.le_trans hrest hn) (Nat.le_trans hrest hm) left

private theorem equality_moves (hf : Token.KeepsText f) (hi : MovesExpr f k inner inner')
    (hn : k + 1 ≤ n)
    (hm : k + 1 ≤ m) : MovesExpr f (k + 1) (equality n inner) (equality m inner') := by
  have hunary := unary_moves hf (operand_moves hf hi) hn hm
  exact level_moves hf (level_moves hf (level_moves hf (level_moves hf hunary hn hm) hn hm) hn hm)
    hn hm

private theorem assignment_moves (hf : Token.KeepsText f) (hi : MovesExpr f k inner inner')
    (hn : k + 1 ≤ n)
    (hm : k + 1 ≤ m) : MovesExpr f (k + 1) (assignment n inner) (assignment m inner') := by
  intro last tokens hlen
  refine .bind (equality_moves hf hi hn hm hlen) fun {_ left target} _ hsuffix => ?_
  refine .bind (.take? hf _) fun {_ rest found} hfound _ => ?_
  cases found with
  | none => exact .pure target
  | some mark =>
    obtain ⟨-, rfl, -⟩ := take?_eq_some_iff.mp hfound
    have hleft := hsuffix.length_le
    rw [List.length_cons] at hleft
    refine .bind (hi (by omega)) fun {_ _ value} _ _ => ?_
    cases target with
    | name token => exact .pure (Expr.assign token value)
    | literal | group | unary | binary | assign =>
      exact .bind (.report ⟨.invalidTarget, mark⟩) fun _ _ => .pure _

private theorem expressionWithin_nil (bound : Nat) (last : Token) :
    expressionWithin bound last [] = ⟨[], [], .error ⟨.expectedExpression, last⟩⟩ := by
  cases bound <;> rfl

theorem expressionWithin_moves (hf : Token.KeepsText f) (hn : k ≤ n) (hm : k ≤ m) :
    MovesExpr f k (expressionWithin n) (expressionWithin m) := by
  induction k generalizing n m with
  | zero =>
    intro last tokens hlen
    obtain rfl := List.length_eq_zero_iff.mp (Nat.le_zero.mp hlen)
    exact Moves.fail.congr_nil (expressionWithin_nil n last) (expressionWithin_nil m (f last))
  | succ k ih =>
    obtain ⟨n, rfl⟩ := Nat.exists_eq_succ_of_ne_zero (Nat.ne_zero_of_lt hn)
    obtain ⟨m, rfl⟩ := Nat.exists_eq_succ_of_ne_zero (Nat.ne_zero_of_lt hm)
    exact assignment_moves hf (ih (Nat.le_of_succ_le_succ hn) (Nat.le_of_succ_le_succ hm)) hn hm

theorem expression_moves (hf : Token.KeepsText f) (last : Token) (tokens : List Token) :
    Moves False f (Expr.mapTokens f) expression expression last tokens :=
  .of_remaining fun _ hm => expressionWithin_moves hf (Nat.le_refl _) hm (Nat.le_refl _)

end Expressions

end BlockScript.Program
