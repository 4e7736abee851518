import Jess.Proofs.Runs

/-!
# Programs run one after another

A longer program takes the steps of its first part, with the rest of its
statements waiting, until the first part is through. So it fails where its
first part fails, and else it goes on as the rest does from where that ended.
-/

namespace Jess

mutual

def ValueCont.followed (more : List Stmt) : ValueCont → ValueCont
  | .stop => .stop
  | .discard k => .discard (k.followed more)
  | .print k => .print (k.followed more)
  | .declare name k => .declare name (k.followed more)
  | .branch thenBranch elseBranch k => .branch thenBranch elseBranch (k.followed more)
  | .test condition body k => .test condition body (k.followed more)
  | .giveBack k => .giveBack (k.followed more)
  | .unary op operator k => .unary op operator (k.followed more)
  | .left op operator right k => .left op operator right (k.followed more)
  | .right op operator left k => .right op operator left (k.followed more)
  | .decide op right k => .decide op right (k.followed more)
  | .assign name k => .assign name (k.followed more)
  | .callee paren args k => .callee paren args (k.followed more)
  | .argument callee done rest paren k => .argument callee done rest paren (k.followed more)

def StmtCont.followed (more : List Stmt) : StmtCont → StmtCont
  | .stop => .stop
  | .program rest => .program (rest ++ more)
  | .sequence rest k => .sequence rest (k.followed more)
  | .again condition body k => .again condition body (k.followed more)
  | .leaveBlock env k => .leaveBlock env (k.followed more)
  | .leaveCall env k => .leaveCall env (k.followed more)

end

mutual

def ValueCont.inProgram : ValueCont → Bool
  | .stop => false
  | .discard k => k.inProgram
  | .print k => k.inProgram
  | .declare _ k => k.inProgram
  | .branch _ _ k => k.inProgram
  | .test _ _ k => k.inProgram
  | .giveBack k => k.inProgram
  | .unary _ _ k => k.inProgram
  | .left _ _ _ k => k.inProgram
  | .right _ _ _ k => k.inProgram
  | .decide _ _ k => k.inProgram
  | .assign _ k => k.inProgram
  | .callee _ _ k => k.inProgram
  | .argument _ _ _ _ k => k.inProgram

def StmtCont.inProgram : StmtCont → Bool
  | .stop => false
  | .program _ => true
  | .sequence _ k => k.inProgram
  | .again _ _ k => k.inProgram
  | .leaveBlock _ k => k.inProgram
  | .leaveCall _ k => k.inProgram

end

namespace Control

def followed (more : List Stmt) : Control → Control
  | .evaluate e k => .evaluate e (k.followed more)
  | .execute s k => .execute s (k.followed more)
  | .deliver v k => .deliver v (k.followed more)
  | .finish x k => .finish x (k.followed more)
  | .raise f k => .raise f (k.followed more)
  | .abandon f k => .abandon f (k.followed more)
  | .halted a => .halted a

def inProgram : Control → Bool
  | .evaluate _ k => k.inProgram
  | .execute _ k => k.inProgram
  | .deliver _ k => k.inProgram
  | .finish _ k => k.inProgram
  | .raise _ k => k.inProgram
  | .abandon _ k => k.inProgram
  | .halted (.failed _) => true
  | .halted _ => false

end Control

namespace Machine

def followed (more : List Stmt) (m : Machine) : Machine := ⟨m.control.followed more, m.interpreter⟩

/-- A machine that takes the steps of a program takes them in a longer program as well. -/
structure Within (more : List Stmt) (m n : Machine) : Prop where
  followed : n = m.followed more
  inside : m.control.inProgram = true

section Parts

variable (more : List Stmt) {k : ValueCont} (inside : k.inProgram = true)

include inside

theorem raiseAt_within (cause : Fault.Cause) (line : Nat) (i : Interpreter) :
    Within more (raiseAt cause line k i) (raiseAt cause line (k.followed more) i) :=
  ⟨rfl, inside⟩

theorem deliverOr_within (result : Except Fault.Cause Value) (operator : Token) (i : Interpreter) :
    Within more (deliverOr result operator k i)
      (deliverOr result operator (k.followed more) i) := by
  cases result with
  | ok v => exact ⟨rfl, inside⟩
  | error cause => exact raiseAt_within more inside cause operator.line i

theorem callFunction_within (f : Function) (closure : Nat) (args : List Value) (i : Interpreter) :
    Within more (callFunction f closure args k i)
      (callFunction f closure args (k.followed more) i) := by
  simp only [callFunction]
  split
  · exact ⟨rfl, inside⟩
  · exact raiseAt_within more inside _ _ _

theorem callNative_within (n : Native) (args : List Value) (i : Interpreter) :
    Within more (callNative n args k i) (callNative n args (k.followed more) i) := by
  simp only [callNative]
  cases (n.action (args.map Value.glimpse)).answer with
  | data l => exact ⟨rfl, inside⟩
  | argument index => exact ⟨rfl, inside⟩
  | fault f own => exact ⟨rfl, inside⟩

theorem call_within (callee : Value) (args : List Value) (paren : Token) (i : Interpreter) :
    Within more (call callee args paren k i) (call callee args paren (k.followed more) i) := by
  unfold call
  cases callee with
  | callable identity c =>
      simp only
      split
      · exact raiseAt_within more inside _ _ _
      split
      · exact raiseAt_within more inside _ _ _
      cases c with
      | native n => exact callNative_within more inside n args i
      | function f closure => exact callFunction_within more inside f closure args i
  | _ => exact raiseAt_within more inside _ _ _

theorem callNext_within (callee : Value) (done : List Value) (rest : List Expr) (paren : Token)
    (i : Interpreter) :
    Within more (callNext callee done rest paren k i)
      (callNext callee done rest paren (k.followed more) i) := by
  cases rest with
  | nil => exact call_within more inside callee _ paren i
  | cons arg rest => exact ⟨rfl, inside⟩

end Parts

section Steps

variable (more : List Stmt)

theorem declare_within {k : StmtCont} (inside : k.inProgram = true) (name : Token) (v : Value)
    (i : Interpreter) :
    Within more (declare name v k i) (declare name v (k.followed more) i) := by
  unfold declare
  split
  · exact ⟨rfl, inside⟩
  · exact ⟨rfl, inside⟩

theorem evaluate_within {k : ValueCont} (inside : k.inProgram = true) (e : Expr)
    (i : Interpreter) : Within more (evaluate e k i) (evaluate e (k.followed more) i) := by
  cases e with
  | «variable» name =>
      simp only [evaluate]
      split
      · exact ⟨rfl, inside⟩
      · exact raiseAt_within more inside _ _ _
  | _ => exact ⟨rfl, inside⟩

theorem execute_within {k : StmtCont} (inside : k.inProgram = true) (s : Stmt)
    (i : Interpreter) : Within more (execute s k i) (execute s (k.followed more) i) := by
  cases s with
  | declare name initializer =>
      cases initializer with
      | none => exact declare_within more inside name .nil i
      | some e => exact ⟨rfl, inside⟩
  | function name params body => exact declare_within more inside name _ _
  | giveBack keyword value =>
      cases value with
      | none => exact ⟨rfl, inside⟩
      | some e => exact ⟨rfl, inside⟩
  | _ => exact ⟨rfl, inside⟩

theorem deliver_within {k : ValueCont} (inside : k.inProgram = true) (v : Value)
    (i : Interpreter) : Within more (deliver v k i) (deliver v (k.followed more) i) := by
  cases k with
  | stop => cases inside
  | declare name k => exact declare_within more inside name v i
  | branch thenBranch elseBranch k =>
      simp only [deliver, ValueCont.followed]
      split
      · exact ⟨rfl, inside⟩
      · cases elseBranch with
        | none => exact ⟨rfl, inside⟩
        | some other => exact ⟨rfl, inside⟩
  | test condition body k =>
      simp only [deliver, ValueCont.followed]
      split
      · exact ⟨rfl, inside⟩
      · exact ⟨rfl, inside⟩
  | unary op operator k => exact deliverOr_within more (k := k) inside _ operator i
  | right op operator left k => exact deliverOr_within more (k := k) inside _ operator i
  | decide op right k =>
      simp only [deliver, ValueCont.followed]
      split
      · exact ⟨rfl, inside⟩
      · exact ⟨rfl, inside⟩
  | assign name k =>
      simp only [deliver, ValueCont.followed]
      split
      · exact ⟨rfl, inside⟩
      · exact raiseAt_within more (k := k) inside _ _ _
  | callee paren args k => exact callNext_within more (k := k) inside v [] args paren i
  | argument callee done rest paren k =>
      exact callNext_within more (k := k) inside callee (v :: done) rest paren i
  | _ => exact ⟨rfl, inside⟩

theorem finish_within {k : StmtCont} (inside : k.inProgram = true) (through : k ≠ .program [])
    (x : Completion) (i : Interpreter) :
    Within more (finish x k i) (finish x (k.followed more) i) := by
  cases k with
  | stop => cases inside
  | program rest =>
      cases rest with
      | nil => exact absurd rfl through
      | cons s rest => exact ⟨rfl, rfl⟩
  | sequence rest k =>
      cases x with
      | normal =>
          cases rest with
          | nil => exact ⟨rfl, inside⟩
          | cons s rest => exact ⟨rfl, inside⟩
      | returned v => exact ⟨rfl, inside⟩
  | again condition body k =>
      cases x with
      | normal => exact ⟨rfl, inside⟩
      | returned v => exact ⟨rfl, inside⟩
  | leaveBlock env k => exact ⟨rfl, inside⟩
  | leaveCall env k =>
      cases x with
      | normal => exact ⟨rfl, inside⟩
      | returned v => exact ⟨rfl, inside⟩

theorem raise_within {k : ValueCont} (inside : k.inProgram = true) (f : Fault)
    (i : Interpreter) : Within more (raise f k i) (raise f (k.followed more) i) := by
  cases k with
  | stop => cases inside
  | _ => exact ⟨rfl, inside⟩

theorem abandon_within {k : StmtCont} (inside : k.inProgram = true) (f : Fault)
    (i : Interpreter) : Within more (abandon f k i) (abandon f (k.followed more) i) := by
  cases k with
  | stop => cases inside
  | program rest => exact ⟨rfl, rfl⟩
  | _ => exact ⟨rfl, inside⟩

theorem step_within {m n : Machine} (within : Within more m n)
    (through : ∀ x, m.control ≠ .finish x (.program [])) : Within more m.step n.step := by
  obtain ⟨control, i⟩ := m
  obtain ⟨rfl, inside⟩ := within
  cases control with
  | evaluate e k => exact evaluate_within more inside e i
  | execute s k => exact execute_within more inside s i
  | deliver v k => exact deliver_within more inside v i
  | finish x k =>
      apply finish_within more inside
      rintro rfl
      exact through x rfl
  | raise f k => exact raise_within more inside f i
  | abandon f k => exact abandon_within more inside f i
  | halted a => exact ⟨rfl, inside⟩

end Steps

/-- A program goes on in the same way however the statement before ended. -/
theorem program_ignores (x y : Completion) (rest : List Stmt) (i : Interpreter) :
    (⟨.finish x (.program rest), i⟩ : Machine).step =
      (⟨.finish y (.program rest), i⟩ : Machine).step
    := by
  cases rest with
  | nil => rfl
  | cons s rest => rfl

theorem reaches_program {rest : List Stmt} {a : Answer} {i j : Interpreter} (x y : Completion)
    (reaches : Reaches ⟨.finish x (.program rest), i⟩ ⟨.halted a, j⟩) :
    Reaches ⟨.finish y (.program rest), i⟩ ⟨.halted a, j⟩ := by
  cases reaches with
  | step later =>
      rw [program_ignores x y] at later
      exact .step later

theorem split_of_reaches {more : List Stmt} {m n : Machine} {a : Answer} {j : Interpreter}
    (within : Within more m n) (reaches : Reaches n ⟨.halted a, j⟩) :
    (∃ f, a = .failed f ∧ Reaches m ⟨.halted (.failed f), j⟩) ∨
      ∃ between, Reaches m ⟨.halted (.completed .normal), between⟩ ∧
        Reaches (ofProgram more between) ⟨.halted a, j⟩ := by
  generalize same : (⟨.halted a, j⟩ : Machine) = stop at reaches
  induction reaches generalizing m with
  | @refl n =>
      subst same
      obtain ⟨control, i⟩ := m
      obtain ⟨same, inside⟩ := within
      cases control with
      | halted b =>
          cases same
          cases a with
          | failed f => exact .inl ⟨f, rfl, .refl⟩
          | value v => cases inside
          | completed x => cases inside
      | _ => cases same
  | @step n stop later ih =>
      subst same
      by_cases through : ∃ x, m.control = .finish x (.program [])
      · obtain ⟨x, through⟩ := through
        obtain ⟨control, i⟩ := m
        cases through
        obtain ⟨rfl, _⟩ := within
        exact .inr ⟨i, .step .refl, reaches_program x .normal (.step later)⟩
      · have on := step_within more within fun x same => through ⟨x, same⟩
        rcases ih on rfl with ⟨f, failed, reaches⟩ | ⟨between, reaches, rest⟩
        · exact .inl ⟨f, failed, .step reaches⟩
        · exact .inr ⟨between, .step reaches, rest⟩

theorem reaches_within {more : List Stmt} {m n : Machine} {a : Answer} {i : Interpreter}
    (within : Within more m n) (reaches : Reaches m ⟨.halted a, i⟩) :
    (∃ f, a = .failed f ∧ Reaches n ⟨.halted (.failed f), i⟩) ∨
      (a = .completed .normal ∧ ∃ x, Reaches n ⟨.finish x (.program more), i⟩) := by
  generalize same : (⟨.halted a, i⟩ : Machine) = stop at reaches
  induction reaches generalizing n with
  | refl =>
      subst same
      obtain ⟨rfl, inside⟩ := within
      cases a with
      | failed f => exact .inl ⟨f, rfl, .refl⟩
      | value v => cases inside
      | completed x => cases inside
  | @step m stop later ih =>
      subst same
      by_cases through : ∃ x, m.control = .finish x (.program [])
      · obtain ⟨x, through⟩ := through
        obtain ⟨control, i'⟩ := m
        cases through
        obtain ⟨rfl, _⟩ := within
        cases reaches_halted later
        exact .inr ⟨rfl, x, .refl⟩
      · have on := step_within more within fun x same => through ⟨x, same⟩
        rcases ih on rfl with ⟨f, failed, reaches⟩ | ⟨ended, x, reaches⟩
        · exact .inl ⟨f, failed, .step reaches⟩
        · exact .inr ⟨ended, x, .step reaches⟩

/-- A program halts as its first part does if that fails, and else as the rest does after it. -/
theorem program_append (first second : List Stmt) (a : Answer) (i j : Interpreter) :
    Reaches (ofProgram (first ++ second) i) ⟨.halted a, j⟩ ↔
      (∃ f, a = .failed f ∧ Reaches (ofProgram first i) ⟨.halted (.failed f), j⟩) ∨
        ∃ between, Reaches (ofProgram first i) ⟨.halted (.completed .normal), between⟩ ∧
          Reaches (ofProgram second between) ⟨.halted a, j⟩ := by
  have within : Within second (ofProgram first i) (ofProgram (first ++ second) i) := ⟨rfl, rfl⟩
  constructor
  · exact split_of_reaches within
  · rintro (⟨f, rfl, failed⟩ | ⟨between, ended, rest⟩)
    · rcases reaches_within within failed with ⟨g, same, reaches⟩ | ⟨ended, _⟩
      · cases same
        exact reaches
      · cases ended
    · rcases reaches_within within ended with ⟨g, same, _⟩ | ⟨_, x, reaches⟩
      · cases same
      · exact reaches.trans (reaches_program .normal x rest)

end Machine

end Jess
