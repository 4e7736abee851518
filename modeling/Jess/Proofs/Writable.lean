import Jess.Proofs.StatementWriting

/-!
# What is read can be written

The trees that are derived from the tokens of a source have canonical texts:
their names are identifiers and their strings hold no quote, since the tokens
are like that, and the rest is what the grammar asks for. What rewritings do to
other tokens and to other numbers makes no difference to them.
-/

namespace Jess

open Token (IsSound ofSymbol ofKeyword ofName)
open Grammar

namespace Token

theorem ofName_of_sound {t : Token} (sound : t.IsSound) (kind : t.kind = .identifier) :
    ofName t.lexeme = t.placeless := by
  have literal := sound.literal
  rw [kind] at literal
  simp only [ofName, made, placeless, String.ofList_toList, kind, literal]

theorem ofKind_of_sound {t : Token} (sound : t.IsSound) {kind : Kind} (same : t.kind = kind)
    (fixed : kind.isFixed = true) : ofKind kind = t.placeless := by
  have literal := sound.literal
  have lexeme := sound.sound.fixed (by rw [same]; exact fixed)
  rw [same] at literal lexeme
  rw [lexeme] at literal
  have display : t.lexeme = kind.display := String.toList_inj.mp lexeme
  simp only [ofKind, made, placeless, String.ofList_toList, same, literal, display]

end Token

/-- Rewritings that do the same to what a source is made of: to the numbers that digits are read as,
and to the tokens that stand in a source. -/
structure Rewriting.Agree (r s : Rewriting) : Prop where
  number : ∀ digits places,
    r.number (Number.read digits places) = s.number (Number.read digits places)
  group : r.group = s.group
  wrap : r.wrap = s.wrap
  mark : ∀ kind t, t.IsSound → t.kind = kind → kind.isFixed = true → r.mark kind t = s.mark kind t
  name : ∀ t, t.IsSound → t.kind = .identifier → r.name t = s.name t
  branch : r.branch = s.branch

namespace Rewriting

theorem agree_standard : Agree standard placing where
  number _ _ := rfl
  group := rfl
  wrap := rfl
  mark _ _ sound same fixed := Token.ofKind_of_sound sound same fixed
  name _ sound kind := Token.ofName_of_sound sound kind
  branch := rfl

/-- No number of a source has a sign, so only those that are too large are written out. -/
theorem agree_overflowing : Agree writtenOut overflowing where
  number digits places := by
    change Number.expression _ = if _ then _ else _
    have small := Decimal.code_le_infinity ⟨digits, -places⟩
    have code := Binary.code_ofCode _ small
    have unsigned := Binary.isNegative_ofCode _ small
    have known : ¬Binary.infinityCode < Binary.code (Number.read digits places) := by
      rw [Number.read, code]
      omega
    have positive : Binary.isNegative (Number.read digits places) = false := unsigned
    simp only [Number.expression, known, positive, if_false, Bool.false_eq_true]
  group := rfl
  wrap := rfl
  mark _ _ _ _ _ := rfl
  name _ _ _ := rfl
  branch := rfl

end Rewriting

/-- An expression that can be written, and that a source can be read as. -/
structure Expr.IsSound (e : Expr) : Prop where
  writable : e.Writable
  agree : ∀ {r s : Rewriting}, r.Agree s → e.rewrite r = e.rewrite s

structure Expr.AreSound (args : List Expr) : Prop where
  writable : Expr.WritableAll args
  agree : ∀ {r s : Rewriting}, r.Agree s → Expr.rewriteAll r args = Expr.rewriteAll s args

namespace Grammar

def Phrase.IsSound : Phrase → Prop
  | .expression _ e => e.IsSound
  | .arguments args => Expr.AreSound args
  | .items args => Expr.AreSound args

theorem constant_isSound {t : Token} {v : Literal} (constant : Constant t v) (sound : t.IsSound) :
    (Expr.literal v).IsSound := by
  have literal := sound.literal
  cases constant with
  | falsity _ => exact ⟨trivial, fun _ => rfl⟩
  | truth _ => exact ⟨trivial, fun _ => rfl⟩
  | nothing _ => exact ⟨trivial, fun _ => rfl⟩
  | number kind =>
      rw [kind] at literal
      rw [literal]
      exact ⟨trivial, fun agree => agree.number _ _⟩
  | string kind =>
      obtain ⟨content, plain, value⟩ := sound.sound.quoted kind
      rw [← literal] at value
      rw [value]
      refine ⟨?_, fun _ => rfl⟩
      simpa [Expr.Writable] using plain

theorem operation_isSound {op : InfixOp} {operator : Token} (sound : operator.IsSound)
    (stands : InfixOp.ofKind? operator.kind = some op) {left right : Expr} (first : left.IsSound)
    (second : right.IsSound) : (op.apply operator left right).IsSound := by
  cases op with
  | binary op =>
      have kind : operator.kind = .symbol op.symbol := by
        unfold InfixOp.ofKind? at stands
        split at stands <;> cases stands <;> assumption
      refine ⟨⟨first.writable, second.writable⟩, fun agree => ?_⟩
      have mark := agree.mark _ operator sound kind rfl
      simp only [InfixOp.apply, Expr.rewrite, agree.wrap, mark, first.agree agree,
        second.agree agree]
  | logical op =>
      have kind : operator.kind = .keyword op.keyword := by
        unfold InfixOp.ofKind? at stands
        split at stands <;> cases stands <;> assumption
      refine ⟨⟨first.writable, second.writable⟩, fun agree => ?_⟩
      have mark := agree.mark _ operator sound kind rfl
      simp only [InfixOp.apply, Expr.rewrite, agree.wrap, mark, first.agree agree,
        second.agree agree]

theorem Derives.isSound {phrase : Phrase} {tokens : List Token} (derived : Derives phrase tokens) :
    (∀ t ∈ tokens, t.IsSound) → phrase.IsSound := by
  induction derived with
  | literal constant =>
      intro sounds
      exact constant_isSound constant (sounds _ (List.mem_singleton_self _))
  | named kind =>
      intro sounds
      have sound := sounds _ (List.mem_singleton_self _)
      exact ⟨sound.sound.name kind, fun agree => congrArg Expr.variable (agree.name _ sound kind)⟩
  | @grouping opening closing tokens e _ _ _ ih =>
      intro sounds
      have inner : e.IsSound := ih fun t member => sounds t (by simp [member])
      refine ⟨inner.writable, fun agree => ?_⟩
      simp only [Expr.rewrite, agree.group, inner.agree agree]
  | @call opening closing front tokens callee args _ _ _ few right ihCalled ihGiven =>
      intro sounds
      have called : callee.IsSound := ihCalled fun t member => sounds t (by simp [member])
      have given : Expr.AreSound args := ihGiven fun t member => sounds t (by simp [member])
      refine ⟨⟨called.writable, few, given.writable⟩, fun agree => ?_⟩
      have mark := agree.mark _ closing (sounds closing (by simp)) right rfl
      simp only [Expr.rewrite, mark, called.agree agree, given.agree agree]
  | noArguments =>
      intro _
      exact ⟨trivial, fun _ => rfl⟩
  | someArguments _ ih => exact ih
  | @lastItem e tokens _ ih =>
      intro sounds
      have item : e.IsSound := ih sounds
      refine ⟨⟨item.writable, trivial⟩, fun agree => ?_⟩
      simp only [Expr.rewriteAll, item.agree agree]
  | @moreItems comma e args tokens rest _ _ _ ihItem ihOthers =>
      intro sounds
      have item : e.IsSound := ihItem fun t member => sounds t (by simp [member])
      have others : Expr.AreSound args := ihOthers fun t member => sounds t (by simp [member])
      refine ⟨⟨item.writable, others.writable⟩, fun agree => ?_⟩
      simp only [Expr.rewriteAll, item.agree agree, others.agree agree]
  | @unary operator op e tokens listed _ ih =>
      intro sounds
      have operand : e.IsSound := ih fun t member => sounds t (by simp [member])
      have stands := (mem_unaryOperators_iff _ op).mp listed
      have kind : operator.kind = .symbol op.symbol := by
        unfold UnaryOp.ofKind? at stands
        split at stands <;> cases stands <;> assumption
      refine ⟨operand.writable, fun agree => ?_⟩
      have mark := agree.mark _ operator (sounds operator (by simp)) kind rfl
      simp only [Expr.rewrite, agree.wrap, mark, operand.agree agree]
  | @operation level operator left right e front back _ joined _ ihFirst ihSecond =>
      intro sounds
      have first : left.IsSound := ihFirst fun t member => sounds t (by simp [member])
      have second : right.IsSound := ihSecond fun t member => sounds t (by simp [member])
      obtain ⟨op, stands, _, rfl⟩ := operation_iff.mp joined
      exact operation_isSound (sounds operator (by simp)) stands first second
  | @assign name equals e tokens kind _ _ ih =>
      intro sounds
      have value : e.IsSound := ih fun t member => sounds t (by simp [member])
      have sound := sounds name (by simp)
      refine ⟨⟨sound.sound.name kind, value.writable⟩, fun agree => ?_⟩
      simp only [Expr.rewrite, agree.wrap, agree.name name sound kind, value.agree agree]
  | tighter _ ih => exact ih

theorem IsExpression.isSound {e : Expr} {tokens : List Token} (derived : IsExpression e tokens)
    (sounds : ∀ t ∈ tokens, t.IsSound) : e.IsSound := Derives.isSound derived sounds

end Grammar

structure Stmt.IsSound (s : Stmt) (inFunction : Bool) : Prop where
  writable : s.Writable inFunction
  agree : ∀ {r s' : Rewriting}, r.Agree s' → s.rewrite r = s.rewrite s'

structure Stmt.AreSound (body : List Stmt) (inFunction : Bool) : Prop where
  writable : Stmt.WritableAll body inFunction
  agree : ∀ {r s : Rewriting}, r.Agree s → Stmt.rewriteAll r body = Stmt.rewriteAll s body

namespace Stmt

variable {inFunction : Bool} {e : Expr} {s p : Stmt} {body : List Stmt}

theorem isSound_expression (value : e.IsSound) : (expression e).IsSound inFunction := by
  refine ⟨value.writable, fun agree => ?_⟩
  simp only [rewrite, value.agree agree]

theorem isSound_block (inner : AreSound body inFunction) : (block body).IsSound inFunction := by
  refine ⟨inner.writable, fun agree => ?_⟩
  simp only [rewrite, inner.agree agree]

theorem isSound_loop (condition : e.IsSound) (plain : s.declares = false)
    (repeated : s.IsSound inFunction) : (loop e s).IsSound inFunction := by
  refine ⟨⟨condition.writable, plain, repeated.writable⟩, fun agree => ?_⟩
  simp only [rewrite, condition.agree agree, repeated.agree agree]

theorem areSound_nil : AreSound [] inFunction := ⟨trivial, fun _ => rfl⟩

theorem areSound_cons (first : s.IsSound inFunction) (others : AreSound body inFunction) :
    AreSound (s :: body) inFunction := by
  refine ⟨⟨first.writable, others.writable⟩, fun agree => ?_⟩
  simp only [rewriteAll, first.agree agree, others.agree agree]

end Stmt

namespace Grammar

variable {inFunction : Bool} {tokens : List Token}

theorem IsVariable.isSound {s : Stmt} (formed : IsVariable s tokens)
    (sounds : ∀ t ∈ tokens, t.IsSound) : s.IsSound inFunction := by
  cases formed with
  | @bare name closing kind _ =>
      have sound := sounds name (by simp)
      refine ⟨sound.sound.name kind, fun agree => ?_⟩
      simp only [Stmt.rewrite, agree.name name sound kind, Option.map_none]
  | @initialized name equals closing e tokens kind _ value _ =>
      have sound := sounds name (by simp)
      have own := value.isSound fun t member => sounds t (by simp [member])
      refine ⟨⟨sound.sound.name kind, own.writable⟩, fun agree => ?_⟩
      simp only [Stmt.rewrite, agree.name name sound kind, Option.map_some, own.agree agree]

theorem AreNames.isSound {names : List Token} (listed : AreNames names tokens) :
    (∀ t ∈ tokens, t.IsSound) → ∀ name ∈ names, name.IsSound ∧ name.kind = .identifier := by
  induction listed with
  | last kind =>
      intro sounds other member
      rw [List.mem_singleton.mp member]
      exact ⟨sounds _ (by simp), kind⟩
  | more kind _ _ ih =>
      intro sounds other member
      rcases List.mem_cons.mp member with rfl | member
      · exact ⟨sounds _ (by simp), kind⟩
      · exact ih (fun t inside => sounds t (by simp [inside])) other member

theorem AreParameters.isSound {params : List Token} (listed : AreParameters params tokens)
    (sounds : ∀ t ∈ tokens, t.IsSound) :
    params.length ≤ 255 ∧ ∀ name ∈ params, name.IsSound ∧ name.kind = .identifier := by
  rcases listed with ⟨rfl, _⟩ | ⟨named, few⟩
  · exact ⟨Nat.zero_le _, by simp⟩
  · exact ⟨few, named.isSound sounds⟩

theorem IsInitializer.isSound {initializer : Option Stmt}
    (formed : IsInitializer initializer tokens) (sounds : ∀ t ∈ tokens, t.IsSound) :
    ∀ s ∈ initializer, s.IsSound inFunction := by
  cases formed with
  | absent _ =>
      intro s member
      cases member
  | declared _ inner =>
      intro s member
      cases member
      exact inner.isSound fun t member => sounds t (by simp [member])
  | expression value _ =>
      intro s member
      cases member
      exact Stmt.isSound_expression (value.isSound fun t member => sounds t (by simp [member]))

theorem IsClause.isSound {clause : Option Expr} (formed : IsClause clause tokens)
    (sounds : ∀ t ∈ tokens, t.IsSound) : ∀ e ∈ clause, e.IsSound := by
  cases formed with
  | absent =>
      intro e member
      cases member
  | present value =>
      intro e member
      cases member
      exact value.isSound sounds

theorem desugarFor_isSound {initializer : Option Stmt} {condition increment : Option Expr}
    {body : Stmt} (start : ∀ s ∈ initializer, s.IsSound inFunction)
    (test : ∀ e ∈ condition, e.IsSound) (step : ∀ e ∈ increment, e.IsSound)
    (plain : body.declares = false) (repeated : body.IsSound inFunction) :
    (Parser.desugarFor initializer condition increment body).declares = false ∧
      (Parser.desugarFor initializer condition increment body).IsSound inFunction := by
  have condition_ : (condition.getD (.literal (.boolean true))).IsSound := by
    cases condition with
    | none => exact ⟨trivial, fun _ => rfl⟩
    | some e => exact test e rfl
  have started : ∀ inner : Stmt, inner.declares = false → inner.IsSound inFunction →
      (Parser.desugarFor initializer condition none inner).declares = false ∧
        (Parser.desugarFor initializer condition none inner).IsSound inFunction := by
    intro inner plainInner sound
    have loop := Stmt.isSound_loop condition_ plainInner sound
    cases initializer with
    | none => exact ⟨rfl, loop⟩
    | some first =>
        have alone : Stmt.AreSound [_] inFunction := Stmt.areSound_cons loop Stmt.areSound_nil
        exact ⟨rfl, Stmt.isSound_block (Stmt.areSound_cons (start first rfl) alone)⟩
  cases increment with
  | none => exact started body plain repeated
  | some e =>
      have last : Stmt.AreSound [.expression e] inFunction :=
        Stmt.areSound_cons (Stmt.isSound_expression (step e rfl)) Stmt.areSound_nil
      have both := Stmt.isSound_block (Stmt.areSound_cons repeated last)
      exact started (.block [body, .expression e]) rfl both

/-- What a part of a program stands for can be written. Only declarations declare. -/
def Part.IsSound : Part → Prop
  | .statement inFunction _ s => s.declares = false ∧ s.IsSound inFunction
  | .declaration inFunction _ s => s.IsSound inFunction
  | .declarations inFunction body => Stmt.AreSound body inFunction

theorem Forms.isSound {part : Part} (formed : Forms part tokens) :
    (∀ t ∈ tokens, t.IsSound) → part.IsSound := by
  induction formed with
  | expression value _ =>
      intro sounds
      have own := value.isSound fun t member => sounds t (by simp [member])
      exact ⟨rfl, Stmt.isSound_expression own⟩
  | print _ value _ =>
      intro sounds
      have own := value.isSound fun t member => sounds t (by simp [member])
      refine ⟨rfl, own.writable, fun agree => ?_⟩
      simp only [Stmt.rewrite, own.agree agree]
  | @giveBack keyword closing kind _ =>
      intro sounds
      refine ⟨rfl, rfl, fun agree => ?_⟩
      have mark := agree.mark _ keyword (sounds keyword (by simp)) kind rfl
      simp only [Stmt.rewrite, mark, Option.map_none]
  | @giveBackValue keyword closing e tokens kind value _ =>
      intro sounds
      have own := value.isSound fun t member => sounds t (by simp [member])
      refine ⟨rfl, ⟨rfl, own.writable⟩, fun agree => ?_⟩
      have mark := agree.mark _ keyword (sounds keyword (by simp)) kind rfl
      simp only [Stmt.rewrite, mark, Option.map_some, own.agree agree]
  | block _ _ _ ih =>
      intro sounds
      exact ⟨rfl, Stmt.isSound_block (ih fun t member => sounds t (by simp [member]))⟩
  | ifThen _ _ test _ _ ih =>
      intro sounds
      have condition := test.isSound fun t member => sounds t (by simp [member])
      obtain ⟨plain, branch⟩ := ih fun t member => sounds t (by simp [member])
      refine ⟨rfl, ⟨condition.writable, plain, branch.writable⟩, fun agree => ?_⟩
      simp only [Stmt.rewrite, condition.agree agree, branch.agree agree]
  | ifElse _ _ test _ _ _ _ ihFirst ihSecond =>
      intro sounds
      have condition := test.isSound fun t member => sounds t (by simp [member])
      obtain ⟨plain, branch⟩ := ihFirst fun t member => sounds t (by simp [member])
      obtain ⟨plain', other⟩ := ihSecond fun t member => sounds t (by simp [member])
      have writable := And.intro condition.writable
        (And.intro (And.intro plain branch.writable) (And.intro plain' other.writable))
      refine ⟨rfl, writable, fun agree => ?_⟩
      simp only [Stmt.rewrite, agree.branch, condition.agree agree, branch.agree agree,
        other.agree agree]
  | loop _ _ test _ _ ih =>
      intro sounds
      have condition := test.isSound fun t member => sounds t (by simp [member])
      obtain ⟨plain, repeated⟩ := ih fun t member => sounds t (by simp [member])
      exact ⟨rfl, Stmt.isSound_loop condition plain repeated⟩
  | @loopWithClauses inFunction _ _ _ _ _ initializer _ _ _ _ _ _ _ _ _ _ start test _ step _ _
      tree ih =>
      intro sounds
      obtain rfl := isLoop_iff.mp tree
      have first : ∀ s ∈ initializer, s.IsSound inFunction :=
        start.isSound fun t member => sounds t (by simp [member])
      have condition := test.isSound fun t member => sounds t (by simp [member])
      have increment := step.isSound fun t member => sounds t (by simp [member])
      obtain ⟨plain, repeated⟩ := ih fun t member => sounds t (by simp [member])
      exact desugarFor_isSound first condition increment plain repeated
  | @function _ keyword name _ _ _ _ params listed tokens body _ named _ parameters _ _ _ _ ih =>
      intro sounds
      have sound := sounds name (by simp)
      have inner : Stmt.AreSound body true := ih fun t member => sounds t (by simp [member])
      obtain ⟨few, own⟩ := parameters.isSound fun t member => sounds t (by simp [member])
      have identifiers : ∀ param ∈ params, Token.IsIdentifier param.lexeme.toList := by
        intro param member
        obtain ⟨listed, identifier⟩ := own param member
        exact listed.sound.name identifier
      refine ⟨⟨sound.sound.name named, few, identifiers, inner.writable⟩, fun {r s} agree => ?_⟩
      have same : params.map r.name = params.map s.name := by
        apply List.map_congr_left
        intro param member
        exact agree.name param (own param member).1 (own param member).2
      simp only [Stmt.rewrite, agree.name name sound named, same, inner.agree agree]
  | declared _ inner =>
      intro sounds
      exact inner.isSound fun t member => sounds t (by simp [member])
  | statement _ ih =>
      intro sounds
      exact (ih sounds).2
  | noDeclarations =>
      intro _
      exact Stmt.areSound_nil
  | moreDeclarations _ _ ihFirst ihOthers =>
      intro sounds
      exact Stmt.areSound_cons (ihFirst fun t member => sounds t (by simp [member]))
        (ihOthers fun t member => sounds t (by simp [member]))

theorem IsProgram.areSound {program : List Stmt} (formed : IsProgram program tokens)
    (sounds : ∀ t ∈ tokens, t.IsSound) : Stmt.AreSound program false :=
  Forms.isSound formed sounds

end Grammar

end Jess
