import Jess.Proofs.Double
import Jess.Proofs.Precedence
import Jess.Proofs.Rewriting
import Jess.Tree.Canonical

/-!
# The canonical text of an expression

The canonical text of an expression is spelled with tokens from which the tree
is derived that the rewriting `reprint` gives: operations stand in parentheses,
and each node has the token that it is spelled with. The text of an operand
binds like a call, so it fits wherever the text of an operation puts it.
-/

namespace Jess

open Token (Spells IsIdentifier Symbol Keyword ofSymbol ofKeyword ofName IsNumeral)
open Grammar

namespace Expr

mutual

/-- Names are identifiers, strings hold no quote, and calls have few arguments. -/
def Writable : Expr → Prop
  | .literal (.string s) => '"' ∉ s.toList
  | .literal _ => True
  | .grouping inner => inner.Writable
  | .unary _ _ operand => operand.Writable
  | .binary _ _ left right => left.Writable ∧ right.Writable
  | .logical _ _ left right => left.Writable ∧ right.Writable
  | .variable name => IsIdentifier name.lexeme.toList
  | .assign name value => IsIdentifier name.lexeme.toList ∧ value.Writable
  | .call callee _ args => callee.Writable ∧ args.length ≤ 255 ∧ WritableAll args

def WritableAll : List Expr → Prop
  | [] => True
  | arg :: rest => arg.Writable ∧ WritableAll rest

end

end Expr

/-- A text is spelled with tokens that an expression of a level is derived from. Behind a symbol
such a text does not go on with it. -/
structure Reads (level : Level) (text : List Char) (e : Expr) : Prop where
  derived : ∃ tokens, Spells text tokens ∧ Derives (.expression level e) tokens
  starts : ∃ c cs, text = c :: cs ∧ c ≠ '='

namespace Reads

variable {text front back : List Char} {e a b : Expr} {level : Level}

theorem loosen (reads : Reads level text e) (weaker : Level) (below : weaker.rank ≤ level.rank) :
    Reads weaker text e := by
  obtain ⟨⟨tokens, spells, derived⟩, starts⟩ := reads
  exact ⟨⟨tokens, spells, derived.loosen weaker below⟩, starts⟩

theorem grouped (reads : Reads .assignment text e) :
    Reads .call ('(' :: (text ++ [')'])) (.grouping e) := by
  obtain ⟨⟨tokens, spells, derived⟩, _⟩ := reads
  refine ⟨⟨ofSymbol .leftParen :: tokens ++ [ofSymbol .rightParen], ?_, ?_⟩, '(', _, rfl, by decide⟩
  · have closed : Spells (text ++ [')']) (tokens ++ [ofSymbol .rightParen]) :=
      spells.append (.symbol .rightParen) fun rest _ => Token.breaks_cons rest (by decide)
    exact closed.opened
  · exact (Derives.grouping rfl derived rfl).loosen .call (by decide)

theorem unary (op : UnaryOp) (reads : Reads .unary text e) :
    Reads .unary (op.spelling.toList ++ text) (.unary op (ofSymbol op.symbol) e) := by
  obtain ⟨⟨tokens, spells, derived⟩, c, cs, rfl, other⟩ := reads
  have listed : ((ofSymbol op.symbol).kind, op) ∈ unaryOperators := by cases op <;> decide
  have apart : ∀ rest : List Char, (c :: cs ++ rest).head? ≠ some '=' := by
    intro rest first
    exact other (Option.some.inj first)
  refine ⟨⟨ofSymbol op.symbol :: tokens, ?_, .unary listed derived⟩, ?_⟩
  · cases op with
    | negate => exact spells.behind rfl rfl (by decide) fun _ _ _ => rfl
    | not => exact spells.behind rfl rfl (by decide) fun rest _ first => absurd first (apart rest)
  · cases op with
    | negate => exact ⟨'-', _, rfl, by decide⟩
    | not => exact ⟨'!', _, rfl, by decide⟩

theorem operation {symbol : List Char} {operator : Token} {op : InfixOp}
    (spells : Spells symbol [operator]) (stands : InfixOp.ofKind? operator.kind = some op)
    (left : Reads .unary front a) (right : Reads .unary back b) :
    Reads .assignment (front ++ ' ' :: (symbol ++ ' ' :: back)) (op.apply operator a b) := by
  obtain ⟨⟨tokens, first, derivedLeft⟩, c, cs, rfl, other⟩ := left
  obtain ⟨⟨others, second, derivedRight⟩, _⟩ := right
  obtain ⟨level, rank, tighter⟩ := exists_level_of_rank op
  have bound := rank_le op
  have unaryRank : Level.unary.rank = 7 := rfl
  have joined : Operation operator a b level (op.apply operator a b) :=
    operation_iff.mpr ⟨op, stands, rank.symm, rfl⟩
  have derived := Derives.operation (derivedLeft.loosen level (by omega)) joined
    (derivedRight.loosen level.tighter (by omega))
  refine ⟨⟨tokens ++ ([operator] ++ others), first.spaced (spells.spaced second), ?_⟩, c, _, rfl,
    other⟩
  exact derived.loosen .assignment (Nat.zero_le _)

theorem binary (op : BinaryOp) (left : Reads .unary front a) (right : Reads .unary back b) :
    Reads .assignment (front ++ ' ' :: (op.spelling.toList ++ ' ' :: back))
      (.binary op (ofSymbol op.symbol) a b) := by
  have spells := Spells.symbol op.symbol
  rw [op.spelling_symbol] at spells
  have stands : InfixOp.ofKind? (ofSymbol op.symbol).kind = some (.binary op) := by
    cases op <;> rfl
  exact operation spells stands left right

theorem logical (op : LogicalOp) (left : Reads .unary front a) (right : Reads .unary back b) :
    Reads .assignment (front ++ ' ' :: (op.spelling.toList ++ ' ' :: back))
      (.logical op (ofKeyword op.keyword) a b) := by
  have spells := Spells.keyword op.keyword
  rw [op.spelling_keyword] at spells
  have stands : InfixOp.ofKind? (ofKeyword op.keyword).kind = some (.logical op) := by
    cases op <;> rfl
  exact operation spells stands left right

theorem identifier_starts {name : List Char} (identifier : IsIdentifier name) :
    ∃ c cs, name = c :: cs ∧ c ≠ '=' := by
  obtain ⟨⟨c, cs, text, starts, _⟩, _⟩ := identifier
  refine ⟨c, cs, text, ?_⟩
  rintro rfl
  cases starts

theorem named {name : String} (identifier : IsIdentifier name.toList) :
    Reads .call name.toList (.variable (ofName name)) :=
  ⟨⟨[ofName name], .name identifier, (Derives.named rfl).loosen .call (by decide)⟩,
    identifier_starts identifier⟩

theorem assign {name : String} (identifier : IsIdentifier name.toList)
    (value : Reads .assignment text e) :
    Reads .assignment (name.toList ++ ' ' :: ('=' :: ' ' :: text)) (.assign (ofName name) e) := by
  obtain ⟨⟨tokens, spells, derived⟩, _⟩ := value
  obtain ⟨c, cs, same, other⟩ := identifier_starts identifier
  have sign : Spells ['='] [ofSymbol .equal] := .symbol .equal
  refine ⟨⟨[ofName name] ++ ([ofSymbol .equal] ++ tokens), ?_, .assign rfl rfl derived⟩, c,
    cs ++ ' ' :: ('=' :: ' ' :: text), by rw [same]; rfl, other⟩
  exact (Spells.name identifier).spaced (sign.spaced spells)

theorem constant {t : Token} {value : Literal} (spells : Spells text [t])
    (constant : Constant t value) (starts : ∃ c cs, text = c :: cs ∧ c ≠ '=') :
    Reads .call text (.literal value) :=
  ⟨⟨[t], spells, (Derives.literal constant).loosen .call (by decide)⟩, starts⟩

theorem numeral {lexeme whole fraction : List Char} (numeral : IsNumeral lexeme whole fraction) :
    Reads .call lexeme (.literal (.number (Token.numberValue lexeme))) := by
  apply constant (Spells.numeral numeral) (.number rfl)
  obtain ⟨c, cs, spelled, digit⟩ := numeral.starts
  refine ⟨c, cs, spelled, ?_⟩
  rintro rfl
  cases digit

theorem whole (digits : Nat) (char : Char) (digit : char.isDigit = true)
    (value : Token.digitsValue [char] = digits) : Reads .call [char] (Number.whole digits) := by
  have isNumeral : IsNumeral [char] [char] [] :=
    ⟨by simp, by simpa using digit, by simp, by simp⟩
  have reads := numeral isNumeral
  rw [Token.numberValue_of_numeral isNumeral, List.append_nil, value] at reads
  exact reads

end Reads

namespace Number

open Token

theorem reads_positional (finite : Nat) (small : finite ≤ Binary.infinityCode) :
    Reads .call (positional (Decimal.shortest finite)).toList
      (.literal (.number (Binary.ofCode finite))) := by
  obtain ⟨whole, fraction, numeral, value⟩ := positional_numeral (Decimal.shortest finite)
  have reads := Reads.numeral numeral
  rwa [value, Decimal.code_shortest finite small] at reads

theorem reads_canonical (x : Float) : Reads .call (canonical x).toList (reprint x) := by
  have zero : Reads .call ['0'] (whole 0) := .whole 0 '0' rfl rfl
  have one : Reads .call ['1'] (whole 1) := .whole 1 '1' rfl rfl
  have zeroOperand := zero.loosen .unary (by decide)
  have oneOperand := one.loosen .unary (by decide)
  unfold canonical reprint isPlain expression text spell
  simp only
  by_cases past : Binary.infinityCode < Binary.code x
  · have top : ¬Binary.code x < Binary.infinityCode := by omega
    simp only [past, top, if_true, decide_false, Bool.false_and, Bool.false_eq_true, if_false]
    exact (Reads.binary .div zeroOperand zeroOperand).grouped
  by_cases infinite : Binary.code x = Binary.infinityCode
  · have top : ¬Binary.code x < Binary.infinityCode := by omega
    simp only [infinite, lt_irrefl, if_true, decide_false, Bool.false_and, Bool.false_eq_true,
      if_false]
    cases Binary.isNegative x with
    | true =>
        have minusOne := Reads.unary .negate oneOperand
        exact (Reads.binary .div minusOne zeroOperand).grouped
    | false => exact (Reads.binary .div oneOperand zeroOperand).grouped
  · have below : Binary.code x < Binary.infinityCode := by omega
    have reads := reads_positional (Binary.code x) (by omega)
    simp only [past, infinite, below, if_false, decide_true, Bool.true_and]
    cases signed : Binary.isNegative x with
    | true =>
        have operand := reads.loosen .unary (by decide)
        have negated := (Reads.unary .negate operand).loosen .assignment (by decide)
        simpa [UnaryOp.spelling, UnaryOp.symbol] using negated.grouped
    | false =>
        have same := Binary.ofCode_code x (by omega) signed
        rw [same] at reads
        simpa using reads

end Number

def ReadsItems (text : List Char) (args : List Expr) : Prop :=
  ∃ tokens, Spells text tokens ∧ Derives (.items args) tokens

namespace Reads

variable {text front : List Char} {e callee : Expr} {args : List Expr}

theorem lastItem (reads : Reads .assignment text e) : ReadsItems text [e] := by
  obtain ⟨⟨tokens, spells, derived⟩, _⟩ := reads
  exact ⟨tokens, spells, .lastItem derived⟩

theorem moreItems (reads : Reads .assignment front e) (others : ReadsItems text args) :
    ReadsItems (front ++ (',' :: ' ' :: text)) (e :: args) := by
  obtain ⟨⟨tokens, spells, derived⟩, _⟩ := reads
  obtain ⟨rest, later, derived'⟩ := others
  have comma : Spells [','] [ofSymbol .comma] := .symbol .comma
  refine ⟨tokens ++ ([ofSymbol .comma] ++ rest), ?_, .moreItems derived rfl derived'⟩
  exact spells.append (comma.spaced later) fun rest _ => Token.breaks_cons _ (by decide)

theorem call (called : Reads .call front callee) (items : ReadsItems text args)
    (few : args.length ≤ 255) :
    Reads .call (front ++ ('(' :: (text ++ [')']))) (.call callee (ofSymbol .rightParen) args) := by
  obtain ⟨⟨tokens, first, derived⟩, c, cs, rfl, other⟩ := called
  obtain ⟨given, spells, items⟩ := items
  have closed : Spells (text ++ [')']) (given ++ [ofSymbol .rightParen]) :=
    spells.append (.symbol .rightParen) fun rest _ => Token.breaks_cons rest (by decide)
  have left : (ofSymbol .leftParen).kind = .symbol .leftParen := rfl
  have right : (ofSymbol .rightParen).kind = .symbol .rightParen := rfl
  have derivedCall := Derives.call derived left (.someArguments items) few right
  refine ⟨⟨_, ?_, derivedCall⟩, c, _, rfl, other⟩
  have spelled := first.append closed.opened fun rest _ => Token.breaks_cons _ (by decide)
  simpa using spelled

theorem bareCall (called : Reads .call front callee) :
    Reads .call (front ++ ['(', ')']) (.call callee (ofSymbol .rightParen) []) := by
  obtain ⟨⟨tokens, first, derived⟩, c, cs, rfl, other⟩ := called
  have closed : Spells [')'] [ofSymbol .rightParen] := .symbol .rightParen
  have left : (ofSymbol .leftParen).kind = .symbol .leftParen := rfl
  have right : (ofSymbol .rightParen).kind = .symbol .rightParen := rfl
  have derivedCall := Derives.call derived left .noArguments (Nat.zero_le _) right
  refine ⟨⟨_, ?_, derivedCall⟩, c, _, rfl, other⟩
  have spelled := first.append closed.opened fun rest _ => Token.breaks_cons _ (by decide)
  simpa using spelled

end Reads

namespace Expr

open Rewriting (reprint)

theorem reads_literal (value : Literal) (writable : (literal value).Writable) :
    Reads .call value.canonical.toList ((literal value).rewrite reprint) := by
  cases value with
  | number x => exact Number.reads_canonical x
  | string s =>
      have spells := Spells.quoted writable
      have content : Token.literalOf .string ('"' :: s.toList ++ ['"']) = some (.string s) := by
        simp [Token.literalOf]
      have reads := Reads.constant spells (.string rfl) ⟨'"', _, rfl, by decide⟩
      have text : (Literal.canonical (.string s)).toList = '"' :: s.toList ++ ['"'] := by
        simp [Literal.canonical]
      rw [Token.made, content] at reads
      rw [text]
      exact reads
  | boolean b =>
      cases b with
      | true => exact Reads.constant (.keyword .kwTrue) (.truth rfl) ⟨'t', _, rfl, by decide⟩
      | false => exact Reads.constant (.keyword .kwFalse) (.falsity rfl) ⟨'f', _, rfl, by decide⟩
  | nil => exact Reads.constant (.keyword .kwNil) (.nothing rfl) ⟨'n', _, rfl, by decide⟩

mutual

/-- The canonical text of an expression is read as the expression with parentheses. -/
theorem reads (e : Expr) (writable : e.Writable) :
    Reads .call e.canonical.toList (e.rewrite reprint) := by
  match e with
  | .literal value => exact reads_literal value writable
  | .grouping inner =>
      have within := (reads inner writable).loosen .assignment (by decide)
      have text : (canonical (.grouping inner)).toList =
          '(' :: (inner.canonical.toList ++ [')']) := by
        simp [canonical]
      rw [text]
      exact within.grouped
  | .unary op operator operand =>
      have within := ((reads operand writable).loosen .unary (by decide)).unary op
      have text : (canonical (.unary op operator operand)).toList =
          '(' :: (op.spelling.toList ++ operand.canonical.toList ++ [')']) := by
        simp [canonical]
      rw [text]
      exact (within.loosen .assignment (by decide)).grouped
  | .binary op operator left right =>
      have first := (reads left writable.1).loosen .unary (by decide)
      have second := (reads right writable.2).loosen .unary (by decide)
      have text : (canonical (.binary op operator left right)).toList =
          '(' :: (left.canonical.toList ++
            ' ' :: (op.spelling.toList ++ ' ' :: right.canonical.toList) ++ [')']) := by
        simp [canonical]
      rw [text]
      exact (Reads.binary op first second).grouped
  | .logical op operator left right =>
      have first := (reads left writable.1).loosen .unary (by decide)
      have second := (reads right writable.2).loosen .unary (by decide)
      have text : (canonical (.logical op operator left right)).toList =
          '(' :: (left.canonical.toList ++
            ' ' :: (op.spelling.toList ++ ' ' :: right.canonical.toList) ++ [')']) := by
        simp [canonical]
      rw [text]
      exact (Reads.logical op first second).grouped
  | .variable name => exact Reads.named writable
  | .assign name value =>
      have within := (reads value writable.2).loosen .assignment (by decide)
      have text : (canonical (.assign name value)).toList =
          '(' :: (name.lexeme.toList ++
            ' ' :: ('=' :: ' ' :: value.canonical.toList) ++ [')']) := by
        simp [canonical]
      rw [text]
      exact (Reads.assign writable.1 within).grouped
  | .call callee paren [] =>
      have text : (canonical (.call callee paren [])).toList =
          callee.canonical.toList ++ ['(', ')'] := by
        simp [canonical, canonicalArgs]
      rw [text]
      exact (reads callee writable.1).bareCall
  | .call callee paren (arg :: rest) =>
      have first := (reads arg writable.2.2.1).loosen .assignment (by decide)
      have items := reads_more rest writable.2.2.2 first
      have few : (rewriteAll reprint (arg :: rest)).length ≤ 255 := by
        rw [rewriteAll_length]
        exact writable.2.1
      have text : (canonical (.call callee paren (arg :: rest))).toList =
          callee.canonical.toList ++
            ('(' :: (arg.canonical.toList ++ (canonicalMore rest).toList ++ [')'])) := by
        simp [canonical, canonicalArgs]
      rw [text]
      exact (reads callee writable.1).call items few

theorem reads_more (args : List Expr) (writable : WritableAll args) {front : List Char} {e : Expr}
    (first : Reads .assignment front e) :
    ReadsItems (front ++ (canonicalMore args).toList) (e :: rewriteAll reprint args) := by
  match args with
  | [] => simpa [canonicalMore, rewriteAll] using first.lastItem
  | arg :: rest =>
      have next := (reads arg writable.1).loosen .assignment (by decide)
      have others := reads_more rest writable.2 next
      simpa [canonicalMore, rewriteAll] using first.moreItems others

end

end Expr

end Jess
