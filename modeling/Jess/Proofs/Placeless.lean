import Jess.Proofs.Tables

/-!
# Trees without the places of their tokens

Where a token stands in a source says nothing about what it means. The tree of
a program whose tokens stand elsewhere is the same up to the places in it:
each rule of the grammar looks at the kinds and literals of the tokens alone.
-/

namespace Jess

namespace Token

/-- The token without its line and its span. -/
def placeless (t : Token) : Token := { t with line := 0, span := .nowhere }

theorem kind_of_placeless {t u : Token} (same : t.placeless = u.placeless) : t.kind = u.kind :=
  (congrArg Token.kind same :)

theorem lexeme_of_placeless {t u : Token} (same : t.placeless = u.placeless) :
    t.lexeme = u.lexeme :=
  (congrArg Token.lexeme same :)

theorem literal_of_placeless {t u : Token} (same : t.placeless = u.placeless) :
    t.literal = u.literal :=
  (congrArg Token.literal same :)

end Token

namespace Expr

mutual

def placeless : Expr → Expr
  | .literal value => .literal value
  | .grouping inner => .grouping inner.placeless
  | .unary op operator operand => .unary op operator.placeless operand.placeless
  | .binary op operator left right => .binary op operator.placeless left.placeless right.placeless
  | .logical op operator left right => .logical op operator.placeless left.placeless right.placeless
  | .variable name => .variable name.placeless
  | .assign name value => .assign name.placeless value.placeless
  | .call callee paren args => .call callee.placeless paren.placeless (placelessAll args)

def placelessAll : List Expr → List Expr
  | [] => []
  | arg :: rest => arg.placeless :: placelessAll rest

end

theorem placelessAll_eq_map (args : List Expr) : placelessAll args = args.map placeless := by
  induction args with
  | nil => rfl
  | cons arg rest ih => rw [placelessAll, List.map_cons, ih]

theorem placelessAll_length (args : List Expr) : (placelessAll args).length = args.length := by
  rw [placelessAll_eq_map, List.length_map]

end Expr

namespace Stmt

mutual

def placeless : Stmt → Stmt
  | .expression e => .expression e.placeless
  | .print e => .print e.placeless
  | .declare name initializer => .declare name.placeless (initializer.map Expr.placeless)
  | .block body => .block (placelessAll body)
  | .ifThen condition thenBranch => .ifThen condition.placeless thenBranch.placeless
  | .ifElse condition thenBranch elseBranch =>
      .ifElse condition.placeless thenBranch.placeless elseBranch.placeless
  | .loop condition body => .loop condition.placeless body.placeless
  | .function name params body =>
      .function name.placeless (params.map Token.placeless) (placelessAll body)
  | .giveBack keyword value => .giveBack keyword.placeless (value.map Expr.placeless)

def placelessAll : List Stmt → List Stmt
  | [] => []
  | s :: rest => s.placeless :: placelessAll rest

end

theorem placelessAll_eq_map (body : List Stmt) : placelessAll body = body.map placeless := by
  induction body with
  | nil => rfl
  | cons s rest ih => rw [placelessAll, List.map_cons, ih]

theorem placelessAll_length (body : List Stmt) : (placelessAll body).length = body.length := by
  rw [placelessAll_eq_map, List.length_map]

end Stmt

namespace Grammar

open Token (placeless kind_of_placeless literal_of_placeless)

def Phrase.placeless : Phrase → Phrase
  | .expression level e => .expression level e.placeless
  | .arguments args => .arguments (Expr.placelessAll args)
  | .items args => .items (Expr.placelessAll args)

/-- Tokens that are the same up to their places. -/
abbrev SameUpToPlace (tokens others : List Token) : Prop :=
  tokens.map placeless = others.map placeless

theorem SameUpToPlace.append {front back others : List Token}
    (same : SameUpToPlace others (front ++ back)) :
    ∃ front' back', others = front' ++ back' ∧ SameUpToPlace front' front ∧
      SameUpToPlace back' back := by
  rw [SameUpToPlace, List.map_append] at same
  obtain ⟨front', back', rfl, first, second⟩ := List.map_eq_append_iff.mp same
  exact ⟨front', back', rfl, first, second⟩

theorem SameUpToPlace.cons {t : Token} {rest others : List Token}
    (same : SameUpToPlace others (t :: rest)) :
    ∃ u later, others = u :: later ∧ u.placeless = t.placeless ∧ SameUpToPlace later rest := by
  rw [SameUpToPlace, List.map_cons] at same
  obtain ⟨u, later, rfl, first, second⟩ := List.map_eq_cons_iff.mp same
  exact ⟨u, later, rfl, first, second⟩

theorem SameUpToPlace.nil {others : List Token} (same : SameUpToPlace others []) : others = [] :=
  List.map_eq_nil_iff.mp same

theorem SameUpToPlace.concat {t : Token} {front others : List Token}
    (same : SameUpToPlace others (front ++ [t])) :
    ∃ front' u, others = front' ++ [u] ∧ SameUpToPlace front' front ∧
      u.placeless = t.placeless := by
  obtain ⟨front', back, rfl, sameFront, sameBack⟩ := same.append
  obtain ⟨u, _, rfl, sameLast, last⟩ := sameBack.cons
  rw [SameUpToPlace.nil last]
  exact ⟨front', u, rfl, sameFront, sameLast⟩

theorem Phrase.placeless_expression {phrase : Phrase} {level : Level} {e : Expr}
    (same : phrase.placeless = (Phrase.expression level e).placeless) :
    ∃ e', phrase = .expression level e' ∧ e'.placeless = e.placeless := by
  cases phrase with
  | expression level' e' =>
      simp only [Phrase.placeless, Phrase.expression.injEq] at same
      obtain ⟨rfl, same⟩ := same
      exact ⟨e', rfl, same⟩
  | arguments args => simp [Phrase.placeless] at same
  | items args => simp [Phrase.placeless] at same

theorem Phrase.placeless_arguments {phrase : Phrase} {args : List Expr}
    (same : phrase.placeless = (Phrase.arguments args).placeless) :
    ∃ args', phrase = .arguments args' ∧ Expr.placelessAll args' = Expr.placelessAll args := by
  cases phrase with
  | expression level' e' => simp [Phrase.placeless] at same
  | arguments args' => exact ⟨args', rfl, by simpa [Phrase.placeless] using same⟩
  | items args => simp [Phrase.placeless] at same

theorem Phrase.placeless_items {phrase : Phrase} {args : List Expr}
    (same : phrase.placeless = (Phrase.items args).placeless) :
    ∃ args', phrase = .items args' ∧ Expr.placelessAll args' = Expr.placelessAll args := by
  cases phrase with
  | expression level' e' => simp [Phrase.placeless] at same
  | arguments args' => simp [Phrase.placeless] at same
  | items args' => exact ⟨args', rfl, by simpa [Phrase.placeless] using same⟩

theorem Constant.move {t u : Token} {v : Literal} (constant : Constant t v)
    (same : u.placeless = t.placeless) : Constant u v := by
  have kinds := kind_of_placeless same
  cases constant with
  | falsity kind => exact .falsity (kinds.trans kind)
  | truth kind => exact .truth (kinds.trans kind)
  | nothing kind => exact .nothing (kinds.trans kind)
  | number kind =>
      rw [← literal_of_placeless same]
      exact .number (kinds.trans kind)
  | string kind =>
      rw [← literal_of_placeless same]
      exact .string (kinds.trans kind)

/-- Tokens that stand elsewhere derive the same phrase up to places. -/
theorem Derives.move {phrase : Phrase} {tokens : List Token} (derived : Derives phrase tokens) :
    ∀ others, SameUpToPlace others tokens →
      ∃ phrase', Derives phrase' others ∧ phrase'.placeless = phrase.placeless := by
  induction derived with
  | literal constant =>
      intro others same
      obtain ⟨u, _, rfl, first, last⟩ := same.cons
      rw [SameUpToPlace.nil last]
      exact ⟨_, .literal (constant.move first), rfl⟩
  | named kind =>
      intro others same
      obtain ⟨u, _, rfl, first, last⟩ := same.cons
      rw [SameUpToPlace.nil last]
      refine ⟨_, .named ((kind_of_placeless first).trans kind), ?_⟩
      simp only [Phrase.placeless, Expr.placeless, first]
  | grouping left inner right ih =>
      intro others same
      obtain ⟨front, closing, rfl, sameFront, sameClosing⟩ := same.concat
      obtain ⟨opening, tokens, rfl, sameOpening, sameTokens⟩ := sameFront.cons
      obtain ⟨phrase, derived, samePhrase⟩ := ih tokens sameTokens
      obtain ⟨e, rfl, sameTree⟩ := Phrase.placeless_expression samePhrase
      refine ⟨_, .grouping ((kind_of_placeless sameOpening).trans left) derived
        ((kind_of_placeless sameClosing).trans right), ?_⟩
      simp only [Phrase.placeless, Expr.placeless, sameTree]
  | call called left given few right ihCalled ihGiven =>
      intro others same
      obtain ⟨front, closing, rfl, sameFront, sameClosing⟩ := same.concat
      obtain ⟨first, middle, rfl, sameFirst, sameMiddle⟩ := sameFront.append
      obtain ⟨opening, tokens, rfl, sameOpening, sameTokens⟩ := sameMiddle.cons
      obtain ⟨phrase, derived, samePhrase⟩ := ihCalled first sameFirst
      obtain ⟨callee, rfl, sameCallee⟩ := Phrase.placeless_expression samePhrase
      obtain ⟨phrase', derived', samePhrase'⟩ := ihGiven tokens sameTokens
      obtain ⟨args, rfl, sameArgs⟩ := Phrase.placeless_arguments samePhrase'
      have lengths := congrArg List.length sameArgs
      rw [Expr.placelessAll_length, Expr.placelessAll_length] at lengths
      refine ⟨_, .call derived ((kind_of_placeless sameOpening).trans left) derived' (by omega)
        ((kind_of_placeless sameClosing).trans right), ?_⟩
      simp only [Phrase.placeless, Expr.placeless, sameCallee, sameArgs, sameClosing]
  | noArguments =>
      intro others same
      rw [SameUpToPlace.nil same]
      exact ⟨_, .noArguments, rfl⟩
  | someArguments given ih =>
      intro others same
      obtain ⟨phrase, derived, samePhrase⟩ := ih others same
      obtain ⟨args, rfl, sameArgs⟩ := Phrase.placeless_items samePhrase
      exact ⟨_, .someArguments derived, by simp only [Phrase.placeless, sameArgs]⟩
  | lastItem item ih =>
      intro others same
      obtain ⟨phrase, derived, samePhrase⟩ := ih others same
      obtain ⟨e, rfl, sameTree⟩ := Phrase.placeless_expression samePhrase
      exact ⟨_, .lastItem derived, by simp only [Phrase.placeless, Expr.placelessAll, sameTree]⟩
  | moreItems item kind others' ihItem ihOthers =>
      intro others same
      obtain ⟨front, back, rfl, sameFront, sameBack⟩ := same.append
      obtain ⟨comma, rest, rfl, sameComma, sameRest⟩ := sameBack.cons
      obtain ⟨phrase, derived, samePhrase⟩ := ihItem front sameFront
      obtain ⟨e, rfl, sameTree⟩ := Phrase.placeless_expression samePhrase
      obtain ⟨phrase', derived', samePhrase'⟩ := ihOthers rest sameRest
      obtain ⟨args, rfl, sameArgs⟩ := Phrase.placeless_items samePhrase'
      refine ⟨_, .moreItems derived ((kind_of_placeless sameComma).trans kind) derived', ?_⟩
      simp only [Phrase.placeless, Expr.placelessAll, sameTree, sameArgs]
  | unary listed operand ih =>
      intro others same
      obtain ⟨operator, rest, rfl, sameOperator, sameRest⟩ := same.cons
      obtain ⟨phrase, derived, samePhrase⟩ := ih rest sameRest
      obtain ⟨e, rfl, sameTree⟩ := Phrase.placeless_expression samePhrase
      refine ⟨_, .unary (kind_of_placeless sameOperator ▸ listed) derived, ?_⟩
      simp only [Phrase.placeless, Expr.placeless, sameTree, sameOperator]
  | operation first joined second ihFirst ihSecond =>
      intro others same
      obtain ⟨front, back, rfl, sameFront, sameBack⟩ := same.append
      obtain ⟨operator, rest, rfl, sameOperator, sameRest⟩ := sameBack.cons
      obtain ⟨phrase, derived, samePhrase⟩ := ihFirst front sameFront
      obtain ⟨left, rfl, sameLeft⟩ := Phrase.placeless_expression samePhrase
      obtain ⟨phrase', derived', samePhrase'⟩ := ihSecond rest sameRest
      obtain ⟨right, rfl, sameRight⟩ := Phrase.placeless_expression samePhrase'
      have kinds := kind_of_placeless sameOperator
      cases joined with
      | binary listed =>
          refine ⟨_, .operation derived (.binary (kinds ▸ listed)) derived', ?_⟩
          simp only [Phrase.placeless, Expr.placeless, sameLeft, sameRight, sameOperator]
      | logical listed =>
          refine ⟨_, .operation derived (.logical (kinds ▸ listed)) derived', ?_⟩
          simp only [Phrase.placeless, Expr.placeless, sameLeft, sameRight, sameOperator]
  | assign kind sign value ih =>
      intro others same
      obtain ⟨name, rest, rfl, sameName, sameRest⟩ := same.cons
      obtain ⟨equals, rest, rfl, sameEquals, sameRest⟩ := sameRest.cons
      obtain ⟨phrase, derived, samePhrase⟩ := ih rest sameRest
      obtain ⟨e, rfl, sameTree⟩ := Phrase.placeless_expression samePhrase
      refine ⟨_, .assign ((kind_of_placeless sameName).trans kind)
        ((kind_of_placeless sameEquals).trans sign) derived, ?_⟩
      simp only [Phrase.placeless, Expr.placeless, sameTree, sameName]
  | tighter inner ih =>
      intro others same
      obtain ⟨phrase, derived, samePhrase⟩ := ih others same
      obtain ⟨e, rfl, sameTree⟩ := Phrase.placeless_expression samePhrase
      exact ⟨_, .tighter derived, by simp only [Phrase.placeless, sameTree]⟩

theorem IsExpression.move {e : Expr} {tokens others : List Token} (derived : IsExpression e tokens)
    (same : SameUpToPlace others tokens) :
    ∃ e', IsExpression e' others ∧ e'.placeless = e.placeless := by
  obtain ⟨phrase, derived', samePhrase⟩ := Derives.move derived others same
  obtain ⟨e', rfl, sameTree⟩ := Phrase.placeless_expression samePhrase
  exact ⟨e', derived', sameTree⟩

theorem IsVariable.move {s : Stmt} {tokens others : List Token} (formed : IsVariable s tokens)
    (same : SameUpToPlace others tokens) :
    ∃ s', IsVariable s' others ∧ s'.placeless = s.placeless := by
  cases formed with
  | bare kind semicolon =>
      obtain ⟨name, rest, rfl, sameName, sameRest⟩ := same.cons
      obtain ⟨closing, _, rfl, sameClosing, last⟩ := sameRest.cons
      rw [SameUpToPlace.nil last]
      refine ⟨_, .bare ((kind_of_placeless sameName).trans kind)
        ((kind_of_placeless sameClosing).trans semicolon), ?_⟩
      simp only [Stmt.placeless, sameName, Option.map_none]
  | initialized kind sign value semicolon =>
      obtain ⟨front, closing, rfl, sameFront, sameClosing⟩ := same.concat
      obtain ⟨name, rest, rfl, sameName, sameRest⟩ := sameFront.cons
      obtain ⟨equals, rest, rfl, sameEquals, sameRest⟩ := sameRest.cons
      obtain ⟨e, derived, sameTree⟩ := IsExpression.move value sameRest
      refine ⟨_, .initialized ((kind_of_placeless sameName).trans kind)
        ((kind_of_placeless sameEquals).trans sign) derived
        ((kind_of_placeless sameClosing).trans semicolon), ?_⟩
      simp only [Stmt.placeless, sameName, Option.map_some, sameTree]

theorem AreNames.move {names tokens : List Token} (listed : AreNames names tokens) :
    ∀ others, SameUpToPlace others tokens →
      ∃ names', AreNames names' others ∧ SameUpToPlace names' names := by
  induction listed with
  | last kind =>
      intro others same
      obtain ⟨name, _, rfl, sameName, last⟩ := same.cons
      rw [SameUpToPlace.nil last]
      refine ⟨_, .last ((kind_of_placeless sameName).trans kind), ?_⟩
      simp only [SameUpToPlace, List.map_cons, List.map_nil, sameName]
  | more kind separator others' ih =>
      intro others same
      obtain ⟨name, rest, rfl, sameName, sameRest⟩ := same.cons
      obtain ⟨comma, rest, rfl, sameComma, sameRest⟩ := sameRest.cons
      obtain ⟨names, formed, sameNames⟩ := ih rest sameRest
      refine ⟨_, .more ((kind_of_placeless sameName).trans kind)
        ((kind_of_placeless sameComma).trans separator) formed, ?_⟩
      rw [SameUpToPlace, List.map_cons, List.map_cons, sameName, sameNames]

theorem AreParameters.move {params tokens others : List Token}
    (listed : AreParameters params tokens) (same : SameUpToPlace others tokens) :
    ∃ params', AreParameters params' others ∧ SameUpToPlace params' params := by
  rcases listed with ⟨rfl, rfl⟩ | ⟨names, few⟩
  · rw [SameUpToPlace.nil same]
    exact ⟨[], .inl ⟨rfl, rfl⟩, rfl⟩
  · obtain ⟨params', formed, sameParams⟩ := names.move others same
    have lengths := congrArg List.length sameParams
    rw [List.length_map, List.length_map] at lengths
    exact ⟨params', .inr ⟨formed, by omega⟩, sameParams⟩

theorem IsInitializer.move {initializer : Option Stmt} {tokens others : List Token}
    (formed : IsInitializer initializer tokens) (same : SameUpToPlace others tokens) :
    ∃ initializer', IsInitializer initializer' others ∧
      initializer'.map Stmt.placeless = initializer.map Stmt.placeless := by
  cases formed with
  | absent semicolon =>
      obtain ⟨closing, _, rfl, sameClosing, last⟩ := same.cons
      rw [SameUpToPlace.nil last]
      exact ⟨_, .absent ((kind_of_placeless sameClosing).trans semicolon), rfl⟩
  | declared kind inner =>
      obtain ⟨keyword, rest, rfl, sameKeyword, sameRest⟩ := same.cons
      obtain ⟨s, formed, sameTree⟩ := inner.move sameRest
      refine ⟨_, .declared ((kind_of_placeless sameKeyword).trans kind) formed, ?_⟩
      simp only [Option.map_some, sameTree]
  | expression value semicolon =>
      obtain ⟨front, closing, rfl, sameFront, sameClosing⟩ := same.concat
      obtain ⟨e, derived, sameTree⟩ := IsExpression.move value sameFront
      refine ⟨_, .expression derived ((kind_of_placeless sameClosing).trans semicolon), ?_⟩
      simp only [Option.map_some, Stmt.placeless, sameTree]

theorem IsClause.move {clause : Option Expr} {tokens others : List Token}
    (formed : IsClause clause tokens) (same : SameUpToPlace others tokens) :
    ∃ clause', IsClause clause' others ∧
      clause'.map Expr.placeless = clause.map Expr.placeless := by
  cases formed with
  | absent =>
      rw [SameUpToPlace.nil same]
      exact ⟨none, .absent, rfl⟩
  | present value =>
      obtain ⟨e, derived, sameTree⟩ := IsExpression.move value same
      exact ⟨some e, .present derived, by simp only [Option.map_some, sameTree]⟩

theorem placeless_desugarFor (initializer : Option Stmt) (condition increment : Option Expr)
    (body : Stmt) :
    (Parser.desugarFor initializer condition increment body).placeless =
      Parser.desugarFor (initializer.map Stmt.placeless) (condition.map Expr.placeless)
        (increment.map Expr.placeless) body.placeless := by
  cases initializer <;> cases condition <;> cases increment <;> rfl

def Part.placeless : Part → Part
  | .statement inFunction isOpen s => .statement inFunction isOpen s.placeless
  | .declaration inFunction isOpen s => .declaration inFunction isOpen s.placeless
  | .declarations inFunction body => .declarations inFunction (Stmt.placelessAll body)

theorem Part.placeless_statement {part : Part} {inFunction isOpen : Bool} {s : Stmt}
    (same : part.placeless = (Part.statement inFunction isOpen s).placeless) :
    ∃ s', part = .statement inFunction isOpen s' ∧ s'.placeless = s.placeless := by
  cases part <;> simp only [Part.placeless, Part.statement.injEq, reduceCtorEq] at same
  obtain ⟨rfl, rfl, same⟩ := same
  exact ⟨_, rfl, same⟩

theorem Part.placeless_declaration {part : Part} {inFunction isOpen : Bool} {s : Stmt}
    (same : part.placeless = (Part.declaration inFunction isOpen s).placeless) :
    ∃ s', part = .declaration inFunction isOpen s' ∧ s'.placeless = s.placeless := by
  cases part <;> simp only [Part.placeless, Part.declaration.injEq, reduceCtorEq] at same
  obtain ⟨rfl, rfl, same⟩ := same
  exact ⟨_, rfl, same⟩

theorem Part.placeless_declarations {part : Part} {inFunction : Bool} {body : List Stmt}
    (same : part.placeless = (Part.declarations inFunction body).placeless) :
    ∃ body', part = .declarations inFunction body' ∧
      Stmt.placelessAll body' = Stmt.placelessAll body := by
  cases part <;> simp only [Part.placeless, Part.declarations.injEq, reduceCtorEq] at same
  obtain ⟨rfl, same⟩ := same
  exact ⟨_, rfl, same⟩

theorem condition_moves {keyword opening closing : Token} {condition : Expr}
    {tested tokens others : List Token} (test : IsExpression condition tested)
    (same : SameUpToPlace others (keyword :: opening :: tested ++ closing :: tokens)) :
    ∃ keyword' opening' closing' condition' tested' tokens',
      others = keyword' :: opening' :: tested' ++ closing' :: tokens' ∧
        keyword'.kind = keyword.kind ∧ opening'.kind = opening.kind ∧
        closing'.kind = closing.kind ∧ IsExpression condition' tested' ∧
        condition'.placeless = condition.placeless ∧ SameUpToPlace tokens' tokens := by
  obtain ⟨front, back, rfl, sameFront, sameBack⟩ := same.append
  obtain ⟨closing', tokens', rfl, sameClosing, sameTokens⟩ := sameBack.cons
  obtain ⟨keyword', middle, rfl, sameKeyword, sameMiddle⟩ := sameFront.cons
  obtain ⟨opening', tested', rfl, sameOpening, sameTested⟩ := sameMiddle.cons
  obtain ⟨condition', derived, sameTree⟩ := IsExpression.move test sameTested
  exact ⟨keyword', opening', closing', condition', tested', tokens', rfl,
    kind_of_placeless sameKeyword, kind_of_placeless sameOpening, kind_of_placeless sameClosing,
    derived, sameTree, sameTokens⟩

/-- Tokens that stand elsewhere form the same part up to places. -/
theorem Forms.move {part : Part} {tokens : List Token} (formed : Forms part tokens) :
    ∀ others, SameUpToPlace others tokens →
      ∃ part', Forms part' others ∧ part'.placeless = part.placeless := by
  -- Each token has one of the same kind in its place, so the same rule applies.
  induction formed with
  | @expression inFunction _ _ _ value semicolon =>
      intro others same
      obtain ⟨front, closing, rfl, sameFront, sameClosing⟩ := same.concat
      obtain ⟨e, derived, sameTree⟩ := IsExpression.move value sameFront
      refine ⟨.statement inFunction _ _,
        .expression derived ((kind_of_placeless sameClosing).trans semicolon), ?_⟩
      simp only [Part.placeless, Stmt.placeless, sameTree]
  | @print inFunction _ _ _ _ kind value semicolon =>
      intro others same
      obtain ⟨front, closing, rfl, sameFront, sameClosing⟩ := same.concat
      obtain ⟨keyword, rest, rfl, sameKeyword, sameRest⟩ := sameFront.cons
      obtain ⟨e, derived, sameTree⟩ := IsExpression.move value sameRest
      refine ⟨.statement inFunction _ _, .print ((kind_of_placeless sameKeyword).trans kind) derived
        ((kind_of_placeless sameClosing).trans semicolon), ?_⟩
      simp only [Part.placeless, Stmt.placeless, sameTree]
  | giveBack kind semicolon =>
      intro others same
      obtain ⟨keyword, rest, rfl, sameKeyword, sameRest⟩ := same.cons
      obtain ⟨closing, _, rfl, sameClosing, last⟩ := sameRest.cons
      rw [SameUpToPlace.nil last]
      refine ⟨_, .giveBack ((kind_of_placeless sameKeyword).trans kind)
        ((kind_of_placeless sameClosing).trans semicolon), ?_⟩
      simp only [Part.placeless, Stmt.placeless, sameKeyword, Option.map_none]
  | giveBackValue kind value semicolon =>
      intro others same
      obtain ⟨front, closing, rfl, sameFront, sameClosing⟩ := same.concat
      obtain ⟨keyword, rest, rfl, sameKeyword, sameRest⟩ := sameFront.cons
      obtain ⟨e, derived, sameTree⟩ := IsExpression.move value sameRest
      refine ⟨_, .giveBackValue ((kind_of_placeless sameKeyword).trans kind) derived
        ((kind_of_placeless sameClosing).trans semicolon), ?_⟩
      simp only [Part.placeless, Stmt.placeless, sameKeyword, Option.map_some, sameTree]
  | block left inner right ih =>
      intro others same
      obtain ⟨front, closing, rfl, sameFront, sameClosing⟩ := same.concat
      obtain ⟨opening, rest, rfl, sameOpening, sameRest⟩ := sameFront.cons
      obtain ⟨part, formed, samePart⟩ := ih rest sameRest
      obtain ⟨body, rfl, sameBody⟩ := Part.placeless_declarations samePart
      refine ⟨_, .block ((kind_of_placeless sameOpening).trans left) formed
        ((kind_of_placeless sameClosing).trans right), ?_⟩
      simp only [Part.placeless, Stmt.placeless, sameBody]
  | ifThen kind left test right first ih =>
      intro others same
      obtain ⟨keyword, opening, closing, condition, tested, rest, rfl, sameKeyword, sameOpening,
        sameClosing, derived, sameTree, sameRest⟩ := condition_moves test same
      obtain ⟨part, formed, samePart⟩ := ih rest sameRest
      obtain ⟨branch, rfl, sameBranch⟩ := Part.placeless_statement samePart
      refine ⟨_, .ifThen (sameKeyword.trans kind) (sameOpening.trans left) derived
        (sameClosing.trans right) formed, ?_⟩
      simp only [Part.placeless, Stmt.placeless, sameTree, sameBranch]
  | ifElse kind left test right first middle second ihFirst ihSecond =>
      intro others same
      obtain ⟨front, back, rfl, sameFront, sameBack⟩ := same.append
      obtain ⟨divider, rest, rfl, sameDivider, sameRest⟩ := sameBack.cons
      obtain ⟨keyword, opening, closing, condition, tested, chosen, rfl, sameKeyword, sameOpening,
        sameClosing, derived, sameTree, sameChosen⟩ := condition_moves test sameFront
      obtain ⟨part, formed, samePart⟩ := ihFirst chosen sameChosen
      obtain ⟨branch, rfl, sameBranch⟩ := Part.placeless_statement samePart
      obtain ⟨part', formed', samePart'⟩ := ihSecond rest sameRest
      obtain ⟨other, rfl, sameOther⟩ := Part.placeless_statement samePart'
      refine ⟨_, .ifElse (sameKeyword.trans kind) (sameOpening.trans left) derived
        (sameClosing.trans right) formed ((kind_of_placeless sameDivider).trans middle) formed', ?_⟩
      simp only [Part.placeless, Stmt.placeless, sameTree, sameBranch, sameOther]
  | loop kind left test right repeated ih =>
      intro others same
      obtain ⟨keyword, opening, closing, condition, tested, rest, rfl, sameKeyword, sameOpening,
        sameClosing, derived, sameTree, sameRest⟩ := condition_moves test same
      obtain ⟨part, formed, samePart⟩ := ih rest sameRest
      obtain ⟨body, rfl, sameBody⟩ := Part.placeless_statement samePart
      refine ⟨_, .loop (sameKeyword.trans kind) (sameOpening.trans left) derived
        (sameClosing.trans right) formed, ?_⟩
      simp only [Part.placeless, Stmt.placeless, sameTree, sameBody]
  | loopWithClauses kind left start test semicolon step right repeated tree ih =>
      intro others same
      obtain rfl := isLoop_iff.mp tree
      obtain ⟨front, back, rfl, sameFront, sameBack⟩ := same.append
      obtain ⟨closing, rest, rfl, sameClosing, sameRest⟩ := sameBack.cons
      obtain ⟨head, tail, rfl, sameHead, sameTail⟩ := sameFront.append
      obtain ⟨middle, stepped, rfl, sameMiddle, sameStepped⟩ := sameTail.cons
      obtain ⟨starting, tested, rfl, sameStarting, sameTested⟩ := sameHead.append
      obtain ⟨keyword, behind, rfl, sameKeyword, sameBehind⟩ := sameStarting.cons
      obtain ⟨opening, started, rfl, sameOpening, sameStarted⟩ := sameBehind.cons
      obtain ⟨initializer, formedStart, sameInitializer⟩ := start.move sameStarted
      obtain ⟨condition, formedTest, sameCondition⟩ := test.move sameTested
      obtain ⟨increment, formedStep, sameIncrement⟩ := step.move sameStepped
      obtain ⟨part, formed, samePart⟩ := ih rest sameRest
      obtain ⟨body, rfl, sameBody⟩ := Part.placeless_statement samePart
      refine ⟨_, .loopWithClauses ((kind_of_placeless sameKeyword).trans kind)
        ((kind_of_placeless sameOpening).trans left) formedStart formedTest
        ((kind_of_placeless sameMiddle).trans semicolon) formedStep
        ((kind_of_placeless sameClosing).trans right) formed (isLoop_iff.mpr rfl), ?_⟩
      simp only [Part.placeless, placeless_desugarFor, sameInitializer, sameCondition,
        sameIncrement, sameBody]
  | @function inFunction _ _ _ _ _ _ _ _ _ _ kind named left parameters right start inner stop ih =>
      intro others same
      obtain ⟨front, unbrace, rfl, sameFront, sameUnbrace⟩ := same.concat
      obtain ⟨head, tail, rfl, sameHead, sameTail⟩ := sameFront.append
      obtain ⟨closing, rest, rfl, sameClosing, sameRest⟩ := sameTail.cons
      obtain ⟨brace, tokens, rfl, sameBrace, sameTokens⟩ := sameRest.cons
      obtain ⟨keyword, behind, rfl, sameKeyword, sameBehind⟩ := sameHead.cons
      obtain ⟨name, later, rfl, sameName, sameLater⟩ := sameBehind.cons
      obtain ⟨opening, listed, rfl, sameOpening, sameListed⟩ := sameLater.cons
      obtain ⟨params, listedParams, sameParams⟩ := parameters.move sameListed
      obtain ⟨part, formed, samePart⟩ := ih tokens sameTokens
      obtain ⟨body, rfl, sameBody⟩ := Part.placeless_declarations samePart
      refine ⟨.declaration inFunction _ _, .function ((kind_of_placeless sameKeyword).trans kind)
        ((kind_of_placeless sameName).trans named) ((kind_of_placeless sameOpening).trans left)
        listedParams ((kind_of_placeless sameClosing).trans right)
        ((kind_of_placeless sameBrace).trans start) formed
        ((kind_of_placeless sameUnbrace).trans stop), ?_⟩
      rw [SameUpToPlace] at sameParams
      simp only [Part.placeless, Stmt.placeless, sameName, sameParams, sameBody]
  | @declared inFunction _ _ _ kind inner =>
      intro others same
      obtain ⟨keyword, rest, rfl, sameKeyword, sameRest⟩ := same.cons
      obtain ⟨s, formed, sameTree⟩ := inner.move sameRest
      refine ⟨.declaration inFunction _ _,
        .declared ((kind_of_placeless sameKeyword).trans kind) formed, ?_⟩
      simp only [Part.placeless, sameTree]
  | statement inner ih =>
      intro others same
      obtain ⟨part, formed, samePart⟩ := ih others same
      obtain ⟨s, rfl, sameTree⟩ := Part.placeless_statement samePart
      exact ⟨_, .statement formed, by simp only [Part.placeless, sameTree]⟩
  | @noDeclarations inFunction =>
      intro others same
      rw [SameUpToPlace.nil same]
      exact ⟨.declarations inFunction _, .noDeclarations, rfl⟩
  | moreDeclarations first others' ihFirst ihOthers =>
      intro others same
      obtain ⟨front, back, rfl, sameFront, sameBack⟩ := same.append
      obtain ⟨part, formed, samePart⟩ := ihFirst front sameFront
      obtain ⟨s, rfl, sameTree⟩ := Part.placeless_declaration samePart
      obtain ⟨part', formed', samePart'⟩ := ihOthers back sameBack
      obtain ⟨body, rfl, sameBody⟩ := Part.placeless_declarations samePart'
      refine ⟨_, .moreDeclarations formed formed', ?_⟩
      simp only [Part.placeless, Stmt.placelessAll, sameTree, sameBody]

theorem IsProgram.move {program : List Stmt} {tokens others : List Token}
    (formed : IsProgram program tokens) (same : SameUpToPlace others tokens) :
    ∃ program', IsProgram program' others ∧
      Stmt.placelessAll program' = Stmt.placelessAll program := by
  obtain ⟨part, formed', samePart⟩ := Forms.move formed others same
  obtain ⟨program', rfl, sameProgram⟩ := Part.placeless_declarations samePart
  exact ⟨program', formed', sameProgram⟩

theorem IsProgram.append {first second : List Stmt} {tokens rest : List Token}
    (formed : IsProgram first tokens) (others : IsProgram second rest) :
    IsProgram (first ++ second) (tokens ++ rest) := by
  unfold IsProgram at formed
  generalize same : Part.declarations false first = part at formed
  induction formed generalizing first with
  | noDeclarations =>
      cases same
      exact others
  | moreDeclarations formed _ _ ih =>
      cases same
      rw [List.append_assoc]
      exact .moreDeclarations formed (ih rfl)
  | expression | print | giveBack | giveBackValue | block | ifThen | ifElse | loop
    | loopWithClauses | function | declared | statement => cases same

end Grammar

end Jess
