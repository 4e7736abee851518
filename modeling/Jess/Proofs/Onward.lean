import Jess.Proofs.Steps

/-!
# Parsers only go forward

However a parser ends, it leaves the cursor where some steps forward lead, and
it leaves all complaints filed, with its own behind them. Both hold of the steps
that parsers are made of, so it is left to instances to find them for parsers
put together from these.
-/

namespace Jess.Parser

open Token (Kind)

variable {α β : Type}

def leaves : EStateM.Result Stop State α → State
  | .ok _ s => s
  | .error _ s => s

/-- Places that steps forward lead to. -/
inductive Cursor.Onward : Cursor → Cursor → Prop
  | here (c : Cursor) : Onward c c
  | further {c d : Cursor} (later : Onward c.advance d) : Onward c d

theorem Cursor.Onward.trans {c d e : Cursor} (first : c.Onward d) (later : d.Onward e) :
    c.Onward e := by
  induction first with
  | here => exact later
  | further _ ih => exact .further (ih later)

theorem Cursor.onward_advance (c : Cursor) : c.Onward c.advance := .further (.here _)

theorem Cursor.advance_of_inside {before rest : List Token} {current next : Token}
    (inside : current.kind ≠ .eof) :
    Cursor.advance ⟨before, current, next :: rest⟩ = ⟨current :: before, next, rest⟩ := by
  have more := List.cons_ne_nil next rest
  exact Cursor.advance_over inside more

theorem onward_skip (before : List Token) (current : Token) (after : List Token) :
    Cursor.Onward ⟨before, current, after⟩ (Cursor.skip before current after) := by
  induction after generalizing before current with
  | nil => exact .here _
  | cons next rest ih =>
      rw [Cursor.skip]
      split
      · exact .here _
      · rename_i within
        have inside : current.kind ≠ .eof := by
          intro isEnd
          simp [Cursor.atBoundary, Cursor.atEnd, Cursor.kind, isEnd] at within
        apply Cursor.Onward.further
        rw [Cursor.advance_of_inside inside]
        exact ih (current :: before) next

theorem onward_toBoundary (c : Cursor) : c.Onward c.toBoundary :=
  c.onward_advance.trans (onward_skip _ _ _)

theorem onward_skipPrefixes (done : List (UnaryOp × Token)) (before : List Token)
    (current : Token) (after : List Token) :
    Cursor.Onward ⟨before, current, after⟩ (skipPrefixes done before current after).2 := by
  induction after generalizing done before current with
  | nil => exact .here _
  | cons next rest ih =>
      rw [skipPrefixes]
      cases found : UnaryOp.ofKind? current.kind with
      | none => exact .here _
      | some op =>
          have inside : current.kind ≠ .eof := by
            intro isEnd
            simp [UnaryOp.ofKind?, isEnd] at found
          apply Cursor.Onward.further
          rw [Cursor.advance_of_inside inside]
          exact ih ((op, current) :: done) (current :: before) next

/-- A later state: the cursor has gone forward, and complaints were only added. -/
structure State.Onward (s t : State) : Prop where
  cursor : s.cursor.Onward t.cursor
  complaints : ∃ more, t.complaints = s.complaints ++ more

theorem State.Onward.here (s : State) : s.Onward s := ⟨.here _, #[], Array.append_empty.symm⟩

theorem State.Onward.trans {s t u : State} (first : s.Onward t) (later : t.Onward u) :
    s.Onward u := by
  obtain ⟨filed, grown⟩ := first.complaints
  obtain ⟨others, grownLater⟩ := later.complaints
  refine ⟨first.cursor.trans later.cursor, filed ++ others, ?_⟩
  rw [grownLater, grown, Array.append_assoc]

theorem State.onward_cursor {s : State} {c : Cursor} (onward : s.cursor.Onward c) :
    s.Onward { s with cursor := c } :=
  ⟨onward, #[], Array.append_empty.symm⟩

theorem State.onward_push (s : State) (x : Complaint) :
    s.Onward { s with complaints := s.complaints.push x } :=
  ⟨.here _, #[x], Array.push_eq_append⟩

/-- A parser that leaves a later state. -/
class Proceeds (p : Parser α) : Prop where
  onward : ∀ s : State, s.Onward (leaves (p s))

theorem onward_of_ok {p : Parser α} [proceeds : Proceeds p] {s t : State} {v : α}
    (ran : p s = .ok v t) : s.cursor.Onward t.cursor := by
  have onward := (proceeds.onward s).cursor
  rw [ran] at onward
  exact onward

namespace Proceeds

instance (v : α) : Proceeds (pure v : Parser α) := ⟨fun s => .here s⟩

instance (p : Parser α) (f : α → Parser β) [first : Proceeds p] [later : ∀ v, Proceeds (f v)] :
    Proceeds (p >>= f) where
  onward s := by
    have onward := first.onward s
    rw [bind_apply]
    cases run : p s with
    | ok v t =>
        rw [run] at onward
        exact onward.trans ((later v).onward t)
    | error stop t =>
        rw [run] at onward
        exact onward

theorem after {p : Parser α} {f : α → Parser β} [Proceeds p] (later : ∀ v, Proceeds (f v)) :
    Proceeds (p >>= f) := inferInstance

instance (f : α → β) (p : Parser α) [Proceeds p] : Proceeds (f <$> p) := by
  rw [map_eq_pure_bind]
  infer_instance

instance (c : Prop) [Decidable c] (p q : Parser α) [Proceeds p] [Proceeds q] :
    Proceeds (if c then p else q) := by
  split <;> infer_instance

instance : Proceeds current := ⟨fun s => .here s⟩

instance (kind : Kind) : Proceeds (check kind) := ⟨fun s => .here s⟩

instance : Proceeds atEnd := ⟨fun s => .here s⟩

instance : Proceeds (tooDeep : Parser α) := ⟨fun s => .here s⟩

instance : Proceeds advance := ⟨fun s => State.onward_cursor s.cursor.onward_advance⟩

instance : Proceeds prefixes := ⟨fun _ => State.onward_cursor (onward_skipPrefixes _ _ _ _)⟩

instance (token : Token) (mistake : Mistake) : Proceeds (report token mistake) :=
  ⟨fun s => s.onward_push _⟩

instance (what : Expectation) : Proceeds (fail what : Parser α) := ⟨fun s => s.onward_push _⟩

instance (kind : Kind) : Proceeds (eat kind) where
  onward s := by
    unfold eat
    split
    · exact State.onward_cursor s.cursor.onward_advance
    · exact .here s

instance (kind : Kind) (what : Expectation) : Proceeds (expect kind what) where
  onward s := by
    unfold expect
    split
    · exact State.onward_cursor s.cursor.onward_advance
    · exact s.onward_push _

instance (p : Parser α) [proceeds : Proceeds p] : Proceeds (recovering p) where
  onward s := by
    have onward := proceeds.onward s
    unfold recovering
    cases run : p s with
    | ok v t =>
        rw [run] at onward
        exact onward
    | error stop t =>
        rw [run] at onward
        cases stop with
        | tooDeep => exact onward
        | unwound => exact onward.trans (State.onward_cursor (onward_toBoundary _))

end Proceeds

structure ExpressionsProceed (depth : Nat) : Prop where
  expression : Proceeds (expression depth)
  chain : Proceeds (chain depth)
  links : ∀ done, Proceeds (links depth done)
  operand : Proceeds (operand depth)
  calls : ∀ callee, Proceeds (calls depth callee)
  arguments : ∀ done, Proceeds (arguments depth done)
  primary : Proceeds (primary depth)

theorem expressions_proceed (depth : Nat) : ExpressionsProceed depth := by
  induction depth with
  | zero =>
      refine ⟨?_, ?_, fun done => ?_, ?_, fun callee => ?_, fun done => ?_, ?_⟩
      · unfold expression
        infer_instance
      · unfold chain
        infer_instance
      · unfold links
        infer_instance
      · unfold operand
        infer_instance
      · unfold calls
        infer_instance
      · unfold arguments
        infer_instance
      · unfold primary
        infer_instance
  | succ depth deeper =>
      obtain ⟨_, _, _, _, _, _, _⟩ := deeper
      refine ⟨?_, ?_, fun done => ?_, ?_, fun callee => ?_, fun done => ?_, ?_⟩
      · unfold expression
        refine .after fun target => .after fun found => ?_
        split
        · refine .after fun equals => .after fun value => ?_
          split <;> infer_instance
        · infer_instance
      · unfold chain
        infer_instance
      · unfold links
        refine .after fun token => ?_
        split <;> infer_instance
      · unfold operand
        infer_instance
      · unfold calls
        infer_instance
      · unfold arguments
        infer_instance
      · unfold primary
        refine .after fun token => ?_
        split
        · infer_instance
        · split <;> infer_instance

section Expressions

variable (depth : Nat)

instance : Proceeds (expression depth) := (expressions_proceed depth).expression

instance : Proceeds (primary depth) := (expressions_proceed depth).primary

instance (done : Array Chain.Link) : Proceeds (links depth done) :=
  (expressions_proceed depth).links done

instance (callee : Expr) : Proceeds (calls depth callee) :=
  (expressions_proceed depth).calls callee

instance (done : Array Expr) : Proceeds (arguments depth done) :=
  (expressions_proceed depth).arguments done

end Expressions

instance (what : Expectation) : Proceeds (closedBy what) := by
  unfold closedBy
  infer_instance

instance (depth : Nat) : Proceeds (variableDeclaration depth) := by
  unfold variableDeclaration
  infer_instance

instance (depth : Nat) : Proceeds (expressionStatement depth) := by
  unfold expressionStatement
  infer_instance

instance (depth : Nat) : Proceeds (printStatement depth) := by
  unfold printStatement
  infer_instance

instance (inFunction : Bool) (keyword : Token) (depth : Nat) :
    Proceeds (returnStatement inFunction keyword depth) := by
  unfold returnStatement
  infer_instance

instance (depth : Nat) : Proceeds (loopInitializer depth) := by
  unfold loopInitializer
  infer_instance

instance (stop : Kind) (what : Expectation) (depth : Nat) :
    Proceeds (loopClause stop what depth) := by
  unfold loopClause
  infer_instance

instance (depth : Nat) (done : Array Token) : Proceeds (parameters depth done) := by
  induction depth generalizing done with
  | zero =>
      unfold parameters
      infer_instance
  | succ depth deeper =>
      unfold parameters
      infer_instance

structure StatementsProceed (depth : Nat) : Prop where
  declaration : ∀ inFunction, Proceeds (declaration depth inFunction)
  block : ∀ inFunction done, Proceeds (block depth inFunction done)
  statement : ∀ inFunction, Proceeds (statement depth inFunction)

theorem statements_proceed (depth : Nat) : StatementsProceed depth := by
  induction depth with
  | zero =>
      refine ⟨fun inFunction => ?_, fun inFunction done => ?_, fun inFunction => ?_⟩
      · unfold declaration
        infer_instance
      · unfold block
        infer_instance
      · unfold statement
        infer_instance
  | succ depth deeper =>
      obtain ⟨_, _, _⟩ := deeper
      refine ⟨fun inFunction => ?_, fun inFunction done => ?_, fun inFunction => ?_⟩
      · unfold declaration
        refine .after fun isFunction => ?_
        split
        · refine .after fun name => .after fun _ => .after fun empty => ?_
          split <;> infer_instance
        · infer_instance
      · unfold block
        refine .after fun closes => .after fun ends => ?_
        split
        · infer_instance
        · refine .after fun found => ?_
          cases found <;> infer_instance
      · unfold statement
        refine .after fun token => ?_
        split <;> refine .after fun _ => ?_
        all_goals infer_instance

section Statements

variable (depth : Nat) (inFunction : Bool)

instance : Proceeds (declaration depth inFunction) :=
  (statements_proceed depth).declaration inFunction

instance (done : Array Stmt) : Proceeds (block depth inFunction done) :=
  (statements_proceed depth).block inFunction done

instance : Proceeds (statement depth inFunction) := (statements_proceed depth).statement inFunction

end Statements

instance (depth : Nat) (done : Array Stmt) : Proceeds (declarations depth done) := by
  induction depth generalizing done with
  | zero =>
      unfold declarations
      infer_instance
  | succ depth deeper =>
      unfold declarations
      refine .after fun ends => ?_
      split
      · infer_instance
      · refine .after fun found => ?_
        cases found <;> infer_instance

end Jess.Parser
