import Jess.Proofs.Rereading
import Jess.Proofs.StatementWriting

/-!
# The canonical text of an expression reads back

The canonical text of an expression, as a statement of its own, is a source
without static mistakes that has this one statement. Up to groupings and places
it is the expression with its numbers written out, and evaluating both comes to
the same result in every state.
-/

namespace Jess

open Token (ofSymbol)

namespace Number

theorem computes_expression (x : Float) : Computes x (expression x) := by
  have zero : Computes (read 0 0) (whole 0) := .number _
  have one : Computes (read 1 0) (whole 1) := .number _
  have infinite : read 1 0 / read 0 0 = Binary.ofCode Binary.infinityCode := by decide +kernel
  have negative : -read 1 0 / read 0 0 = -Binary.ofCode Binary.infinityCode := by decide +kernel
  have undefined_ : Binary.infinityCode < Binary.code (read 0 0 / read 0 0) := by decide +kernel
  unfold expression
  simp only
  split
  · rename_i past
    rw [Binary.nan_unique x (read 0 0 / read 0 0) past undefined_]
    exact .quotient zero zero
  split
  · rename_i top
    have ordered : Binary.code x ≤ Binary.infinityCode := by omega
    split
    · rename_i signed
      have same := Binary.neg_ofCode_code x ordered signed
      rw [top] at same
      rw [← same, ← negative]
      exact .quotient (.negation one) zero
    · rename_i unsigned
      have same := Binary.ofCode_code x ordered (by simpa using unsigned)
      rw [top] at same
      rw [← same, ← infinite]
      exact .quotient one zero
  · rename_i past top
    split
    · rename_i signed
      have same := Binary.neg_ofCode_code x (by omega) signed
      have negated : Computes (-Binary.ofCode (Binary.code x))
          (.unary .negate (ofSymbol .minus) (.literal (.number (Binary.ofCode (Binary.code x))))) :=
        .negation (.number _)
      rwa [same] at negated
    · exact .number x

end Number

section Likeness

variable {free : Freedom} (loose : free ≠ .place)

include loose

theorem Freedom.marks_of_ne (t u : Token) : free.Marks t u := fun strict => absurd strict loose

theorem Freedom.names_of_lexeme (t : Token) : free.Names t (Token.ofName t.lexeme) :=
  ⟨(Token.lexeme_ofName _).symm, fun strict => absurd strict loose⟩

theorem Number.like_reprint (x : Float) :
    Expr.Like free (.literal (.number x)) (Number.reprint x) := by
  unfold Number.reprint
  split
  · exact .literal _
  · exact .regrouped loose (.computed loose (Number.computes_expression x))

end Likeness

variable {free : Freedom}

mutual

theorem Expr.like_reprint (loose : free ≠ .place) (e : Expr) :
    Expr.Like free e (e.rewrite Rewriting.reprint) := by
  match e with
  | .literal value =>
      cases value with
      | number x => exact Number.like_reprint loose x
      | _ => exact .literal _
  | .grouping inner => exact .grouping (Expr.like_reprint loose inner)
  | .unary op operator operand =>
      exact .regrouped loose
        (.unary op (Freedom.marks_of_ne loose _ _) (Expr.like_reprint loose operand))
  | .binary op operator left right =>
      exact .regrouped loose
        (.binary op (Freedom.marks_of_ne loose _ _) (Expr.like_reprint loose left)
          (Expr.like_reprint loose right))
  | .logical op operator left right =>
      exact .regrouped loose
        (.logical op (Freedom.marks_of_ne loose _ _) (Expr.like_reprint loose left)
          (Expr.like_reprint loose right))
  | .variable name => exact .named (Freedom.names_of_lexeme loose name)
  | .assign name value =>
      exact .regrouped loose
        (.assign (Freedom.names_of_lexeme loose name) (Expr.like_reprint loose value))
  | .call callee paren args =>
      exact .call (Freedom.marks_of_ne loose _ _) (Expr.like_reprint loose callee)
        (Expr.likeAll_reprint loose args)

theorem Expr.likeAll_reprint (loose : free ≠ .place) (args : List Expr) :
    Fragment.Like free (.exprs args) (.exprs (Expr.rewriteAll Rewriting.reprint args)) := by
  match args with
  | [] => exact .noExprs
  | arg :: rest => exact .moreExprs (Expr.like_reprint loose arg) (Expr.likeAll_reprint loose rest)

end

namespace Expr

/-- The tree without groupings and places. -/
abbrev bare (e : Expr) : Expr := e.rewrite .bare

/-- The tree without groupings and places, and with numbers as they are written. -/
abbrev writtenOut (e : Expr) : Expr := e.rewrite .writtenOut

/-- The tree with the tokens that its nodes are spelled with. -/
abbrev standard (e : Expr) : Expr := e.rewrite .standard

end Expr

/-- Results that a program cannot tell apart: values of one type with one text, or errors with one
cause, which fixes the message. -/
def SameResult : Except Fault Value → Except Fault Value → Prop
  | .ok v, .ok w => v.type = w.type ∧ v.text = w.text
  | .error f, .error g => f.cause = g.cause
  | _, _ => False

theorem SameResult.symm {x y : Except Fault Value} (same : SameResult x y) : SameResult y x := by
  cases x with
  | ok v =>
      cases y with
      | ok w => exact ⟨same.1.symm, same.2.symm⟩
      | error g => exact same.elim
  | error f =>
      cases y with
      | ok w => exact same.elim
      | error g => exact Eq.symm same

theorem SameResult.trans {x y z : Except Fault Value} (first : SameResult x y)
    (second : SameResult y z) : SameResult x z := by
  cases x with
  | ok v =>
      cases y with
      | ok w =>
          cases z with
          | ok u => exact ⟨first.1.trans second.1, first.2.trans second.2⟩
          | error h => exact second.elim
      | error g => exact first.elim
  | error f =>
      cases y with
      | ok w => exact first.elim
      | error g =>
          cases z with
          | ok u => exact second.elim
          | error h => exact Eq.trans first second

namespace Interpreter

/-- Where evaluating one expression comes to a result, evaluating the other one comes to the same
result and has printed the same. -/
def Matches (i : Interpreter) (a b : Expr) : Prop :=
  ∀ steps result j, i.evaluate steps a = some (result, j) →
    ∃ result' k, (∃ enough, ∀ more, enough ≤ more → i.evaluate more b = some (result', k)) ∧
      SameResult result result' ∧ j.printed = k.printed

theorem Matches.trans {i : Interpreter} {a b c : Expr} (first : i.Matches a b)
    (second : i.Matches b c) : i.Matches a c := by
  intro steps result j evaluated
  obtain ⟨result', k, ⟨enough, on⟩, same, printed⟩ := first steps result j evaluated
  obtain ⟨result'', l, later, same', printed'⟩ := second enough result' k (on enough (le_refl _))
  exact ⟨result'', l, later, same.trans same', printed.trans printed'⟩

theorem reaches_of_evaluate {steps : Nat} {e : Expr} {i j : Interpreter}
    {result : Except Fault Value} (evaluated : i.evaluate steps e = some (result, j)) :
    ∃ a, Machine.Reaches ⟨.evaluate e .stop, i⟩ ⟨.halted a, j⟩ ∧ a.valueOr? = some result := by
  unfold evaluate at evaluated
  split at evaluated
  · cases evaluated
  · rename_i a j' ran
    cases found : a.valueOr? with
    | none =>
        rw [found] at evaluated
        cases evaluated
    | some result' =>
        rw [found] at evaluated
        cases evaluated
        exact ⟨a, Machine.reaches_of_run ran, found⟩

theorem evaluate_of_reaches {e : Expr} {i j : Interpreter} {a : Answer}
    {result : Except Fault Value} (reaches : Machine.Reaches ⟨.evaluate e .stop, i⟩ ⟨.halted a, j⟩)
    (found : a.valueOr? = some result) :
    ∃ enough, ∀ more, enough ≤ more → i.evaluate more e = some (result, j) := by
  obtain ⟨enough, runs⟩ := Machine.run_of_reaches reaches
  refine ⟨enough, fun more bound => ?_⟩
  simp only [evaluate, runs more bound, found, Option.map_some]

theorem result_like {free : Freedom} {c : Chart} {a b : Answer} (like : Answer.Like free c a b) :
    Option.Rel SameResult a.valueOr? b.valueOr? := by
  cases like with
  | value values => exact .some ⟨values.type, values.text⟩
  | completed _ => exact .none
  | failed cause => exact .some cause

theorem matches_of_like {free : Freedom} (plain : free ≠ .blocks) {a b : Expr}
    (trees : Expr.Like free a b) (i : Interpreter) : i.Matches a b ∧ i.Matches b a := by
  have start : Machine.Like free [] ⟨.evaluate a .stop, i⟩ ⟨.evaluate b .stop, i⟩ :=
    ⟨_, i.like_refl plain, .evaluate trees .stop⟩
  constructor
  · intro steps result j evaluated
    obtain ⟨x, reaches, found⟩ := reaches_of_evaluate evaluated
    obtain ⟨c, y, k, reaches', answers, like⟩ := Machine.reaches_like start reaches
    have results := result_like answers
    rw [found] at results
    cases found' : y.valueOr? with
    | none =>
        rw [found'] at results
        cases results
    | some result' =>
        rw [found'] at results
        cases results with
        | some same =>
            refine ⟨result', k, evaluate_of_reaches reaches' found', same, ?_⟩
            exact Array.toList_inj.mp like.printed
  · intro steps result k evaluated
    obtain ⟨y, reaches, found⟩ := reaches_of_evaluate evaluated
    obtain ⟨c, x, j, reaches', answers, like⟩ := Machine.like_reaches start reaches
    have results := result_like answers
    rw [found] at results
    cases found' : x.valueOr? with
    | none =>
        rw [found'] at results
        cases results
    | some result' =>
        rw [found'] at results
        cases results with
        | some same =>
            refine ⟨result', j, evaluate_of_reaches reaches' found', same.symm, ?_⟩
            exact (Array.toList_inj.mp like.printed).symm

end Interpreter

namespace Expr

/-- The canonical text of an expression reads back as an expression that is the same up to
parentheses, places and the spelling of numbers, and that evaluates to the same result. -/
theorem canonical_round_trip (e : Expr) (writable : e.Writable) :
    Source.IsClean (e.canonical ++ ";") ∧
      ∃ e', Source.statements (e.canonical ++ ";") = [.expression e'] ∧
        e'.bare = e.standard.writtenOut ∧
        (e.standard = e.placeless → e'.bare = e.writtenOut) ∧
        ∀ i : Interpreter, i.Matches e e' ∧ i.Matches e' e := by
  have text : e.canonical ++ ";" = (Stmt.expression e).canonical := by
    simp only [Stmt.canonical]
  obtain ⟨clean, same⟩ := Source.clean_of_canonical (.expression e) writable
  rw [← text] at clean same
  obtain ⟨e', single, tree⟩ : ∃ e', Source.statements (e.canonical ++ ";") = [.expression e'] ∧
      e'.placeless = (e.rewrite .reprint).placeless := by
    cases program : Source.statements (e.canonical ++ ";") with
    | nil =>
        rw [program] at same
        cases same
    | cons s rest =>
        rw [program] at same
        obtain ⟨first, later⟩ := List.cons.inj same
        cases rest with
        | cons _ _ => cases later
        | nil =>
            cases s with
            | expression e' => exact ⟨e', rfl, Stmt.expression.inj first⟩
            | _ => cases first
  have bare : e'.bare = e.rewrite .writtenStandard := by
    rw [Expr.bare, ← rewrite_placeless Rewriting.placing_bare, tree,
      rewrite_placeless Rewriting.placing_bare]
    exact rewrite_rewrite Rewriting.reprint_bare e
  have standard : e.standard.writtenOut = e.rewrite .writtenStandard :=
    rewrite_rewrite Rewriting.standard_writtenOut e
  refine ⟨clean, e', single, bare.trans standard.symm, ?_, ?_⟩
  · intro own
    rw [bare, ← standard, own]
    exact rewrite_placeless Rewriting.placing_writtenOut e
  · intro i
    have loose : Freedom.spelling ≠ .place := by decide
    have plain : Freedom.spelling ≠ .blocks := by decide
    have strict : Freedom.place ≠ .blocks := by decide
    have printed := Interpreter.matches_of_like plain (e.like_reprint loose) i
    have placed := Interpreter.matches_of_like strict (like_of_placeless _ _ tree) i
    exact ⟨printed.1.trans placed.2, placed.1.trans printed.2⟩

/-- A call that assigns a number below zero to its argument. -/
private def callWithNegative : Expr :=
  .call (.variable (.unplaced .identifier "f" 1)) (.unplaced (.symbol .rightParen) ")" 1)
    [.assign (.unplaced .identifier "x" 1) (.literal (.number (-Number.read 25 1)))]

theorem canonical_round_trip_negative :
    callWithNegative.Writable ∧ Source.IsClean (callWithNegative.canonical ++ ";") ∧
      ∃ e', Source.statements (callWithNegative.canonical ++ ";") = [.expression e'] ∧
        e'.bare = callWithNegative.standard.writtenOut ∧
        ∀ i : Interpreter, i.Matches callWithNegative e' ∧ i.Matches e' callWithNegative := by
  have writable : callWithNegative.Writable :=
    ⟨(by decide : Token.IsIdentifier "f".toList), by decide,
      ⟨(by decide : Token.IsIdentifier "x".toList), trivial⟩, trivial⟩
  obtain ⟨clean, e', single, bare, _, results⟩ := canonical_round_trip _ writable
  exact ⟨writable, clean, e', single, bare, results⟩

end Expr

end Jess
