import Jess.Proofs.ExpressionRoundTrip
import Jess.Proofs.Sources
import Jess.Proofs.Writable

/-!
# The canonical text of a program reads back

A source without static mistakes is read as a program whose canonical text has
none either. That text is read as a tree that differs from the program in
groupings, in places, in the spelling of overflowed numbers and in braces around
open branches, and it behaves like the program: the scopes that the added
braces open stay empty.
-/

namespace Jess

open Grammar
open Machine (Runs interpret_of_runs runs_of_interpret)

namespace Stmt

mutual

theorem like_reprint (s : Stmt) (inFunction : Bool) (writable : s.Writable inFunction) :
    Stmt.Like .blocks s (s.rewrite .reprint) := by
  have loose : Freedom.blocks ≠ .place := by decide
  match s with
  | .expression e => exact .expression (e.like_reprint loose)
  | .print e => exact .print (e.like_reprint loose)
  | .declare name none => exact .declare (Freedom.names_of_lexeme loose name)
  | .declare name (some e) =>
      exact .declareValue (Freedom.names_of_lexeme loose name) (e.like_reprint loose)
  | .block body => exact .block (likeAll_reprint body inFunction writable)
  | .ifThen condition thenBranch =>
      obtain ⟨_, plain, branch⟩ := writable
      exact .ifThen (condition.like_reprint loose) (fun _ => plain)
        (like_reprint thenBranch inFunction branch)
  | .ifElse condition thenBranch elseBranch =>
      obtain ⟨_, ⟨plain, branch⟩, plain', other⟩ := writable
      have first := like_reprint thenBranch inFunction branch
      have second := like_reprint elseBranch inFunction other
      -- An open branch is read in braces, which open a scope that stays empty.
      have braced : Stmt.Like .blocks thenBranch
          (Rewriting.reprint.branch thenBranch.endsOpen (thenBranch.rewrite .reprint)) := by
        cases isOpen : thenBranch.endsOpen with
        | true => exact .wrapped rfl plain first
        | false => exact first
      exact .ifElse (condition.like_reprint loose) (fun _ => plain) braced (fun _ => plain') second
  | .loop condition body =>
      obtain ⟨_, plain, repeated⟩ := writable
      exact .loop (condition.like_reprint loose) (fun _ => plain)
        (like_reprint body inFunction repeated)
  | .function name params body =>
      obtain ⟨_, _, _, inner⟩ := writable
      have bound : List.Forall₂ (Freedom.Names .blocks) params
          (params.map Rewriting.reprint.name) := by
        rw [List.forall₂_map_right_iff, List.forall₂_same]
        intro param _
        exact Freedom.names_of_lexeme loose param
      exact .function (Freedom.names_of_lexeme loose name) bound (likeAll_reprint body true inner)
  | .giveBack keyword none => exact .giveBack (Freedom.marks_of_ne loose _ _)
  | .giveBack keyword (some e) =>
      exact .giveBackValue (Freedom.marks_of_ne loose _ _) (e.like_reprint loose)

theorem likeAll_reprint (body : List Stmt) (inFunction : Bool)
    (writable : WritableAll body inFunction) :
    Fragment.Like .blocks (.stmts body) (.stmts (rewriteAll .reprint body)) := by
  match body with
  | [] => exact .noStmts
  | s :: rest =>
      exact .moreStmts (like_reprint s inFunction writable.1)
        (likeAll_reprint rest inFunction writable.2)

end

theorem bare_of_canonical {program read : List Stmt} {inFunction : Bool}
    (sound : AreSound program inFunction)
    (same : placelessAll read = placelessAll (rewriteAll .reprint program)) :
    rewriteAll .bare read = rewriteAll .overflowing program := by
  calc rewriteAll .bare read
      = rewriteAll .bare (placelessAll read) := by
        rw [rewriteAll_placeless Rewriting.placing_bare]
    _ = rewriteAll .bare (rewriteAll .reprint program) := by
        rw [same, rewriteAll_placeless Rewriting.placing_bare]
    _ = rewriteAll .writtenOut (rewriteAll .standard program) := by
        rw [rewriteAll_rewriteAll Rewriting.reprint_bare,
          rewriteAll_rewriteAll Rewriting.standard_writtenOut]
    _ = rewriteAll .writtenOut program := by
        rw [sound.agree Rewriting.agree_standard, rewriteAll_placing,
          rewriteAll_placeless Rewriting.placing_writtenOut]
    _ = rewriteAll .overflowing program := sound.agree Rewriting.agree_overflowing

end Stmt

namespace Interpreter

/-- Where running one program finishes, running the other one finishes too, with the same output and
with the same result: none, or a fault with the same cause, which fixes the message. -/
def Follows (i : Interpreter) (first second : List Stmt) : Prop :=
  ∀ steps fault j, i.interpret steps first = some (fault, j) →
    ∃ fault' k, (∃ enough, ∀ more, enough ≤ more → i.interpret more second = some (fault', k)) ∧
      k.output = j.output ∧ fault'.map Fault.cause = fault.map Fault.cause

theorem Follows.trans {i : Interpreter} {first second third : List Stmt}
    (before : i.Follows first second) (after : i.Follows second third) :
    i.Follows first third := by
  intro steps fault j ran
  obtain ⟨fault', k, ⟨enough, runs⟩, printed, cause⟩ := before steps fault j ran
  obtain ⟨fault'', l, later, printed', cause'⟩ := after enough fault' k (runs enough (le_refl _))
  exact ⟨fault'', l, later, printed'.trans printed, cause'.trans cause⟩

theorem output_of_like {free : Freedom} {c : Chart} {i j : Interpreter}
    (like : Interpreter.Like free c [] i j) : i.output = j.output := by
  have printed : i.printed = j.printed := Array.toList_inj.mp like.printed
  rw [output, output, printed]

theorem cause_of_like {free : Freedom} {c : Chart} {a b : Answer}
    (answers : Answer.Like free c a b) : a.fault?.map Fault.cause = b.fault?.map Fault.cause := by
  cases answers with
  | value _ => rfl
  | completed _ => rfl
  | failed cause => exact congrArg some cause

theorem follows_of_like {free : Freedom} {first second : List Stmt}
    (trees : Fragment.Like free (.stmts first) (.stmts second)) (limit : Nat) :
    (new limit).Follows first second ∧ (new limit).Follows second first := by
  have start : Machine.Like free [] (Machine.ofProgram first (new limit))
      (Machine.ofProgram second (new limit)) :=
    Machine.ofProgram_like trees (like_new limit) rfl
  constructor
  · intro steps fault j ran
    obtain ⟨a, runs, rfl⟩ := runs_of_interpret ran
    obtain ⟨c, b, k, runs', answers, like⟩ := Machine.reaches_like start runs
    exact ⟨b.fault?, k, interpret_of_runs runs', (output_of_like like).symm,
      (cause_of_like answers).symm⟩
  · intro steps fault k ran
    obtain ⟨b, runs, rfl⟩ := runs_of_interpret ran
    obtain ⟨c, a, j, runs', answers, like⟩ := Machine.like_reaches start runs
    exact ⟨a.fault?, j, interpret_of_runs runs', output_of_like like, cause_of_like answers⟩

end Interpreter

namespace Source

theorem IsClean.areSound {source : String} (clean : IsClean source) :
    Stmt.AreSound (statements source) false := by
  obtain ⟨tokens, placed, _, _, sounds, formed⟩ := clean.exists_program
  exact formed.areSound sounds

/-- The canonical text of a source without mistakes reads back as a program that is the same up to
groupings, places, the spelling of overflowed numbers and the braces of the printer, and that
behaves the same in every new interpreter. -/
theorem program_round_trip {source : String} (clean : IsClean source) :
    IsClean (Stmt.canonicalProgram (statements source)) ∧
      (statements (Stmt.canonicalProgram (statements source))).length =
        (statements source).length ∧
      Stmt.rewriteAll .bare (statements (Stmt.canonicalProgram (statements source))) =
        Stmt.rewriteAll .overflowing (statements source) ∧
      ∀ limit, (Interpreter.new limit).Follows (statements source)
          (statements (Stmt.canonicalProgram (statements source))) ∧
        (Interpreter.new limit).Follows (statements (Stmt.canonicalProgram (statements source)))
          (statements source) := by
  have sound := clean.areSound
  obtain ⟨clean', same⟩ := clean_of_reads (Stmt.reads_program _ sound.writable)
  refine ⟨clean', ?_, Stmt.bare_of_canonical sound same, ?_⟩
  · have count := congrArg List.length same
    rwa [Stmt.placelessAll_length, Stmt.placelessAll_length, Stmt.rewriteAll_length] at count
  · intro limit
    have plain : Freedom.place ≠ .blocks := by decide
    have printed := Interpreter.follows_of_like
      (Stmt.likeAll_reprint _ false sound.writable) limit
    have placed := Interpreter.follows_of_like (Stmt.likeAll_of_placeless plain _ _ same) limit
    exact ⟨printed.1.trans placed.2, placed.1.trans printed.2⟩

/-- An open branch in braces before an `else`, and a function that gives itself back. -/
private def dangling : String :=
  "if (a) { if (b) print a; } else while (b) f();\nfunc f(b) { return f; }\n"

theorem program_round_trip_dangling :
    IsClean dangling ∧
      IsClean (Stmt.canonicalProgram (statements dangling)) ∧
      Stmt.rewriteAll .bare (statements (Stmt.canonicalProgram (statements dangling))) =
        Stmt.rewriteAll .overflowing (statements dangling) ∧
      (Interpreter.new 1).Follows (statements dangling)
        (statements (Stmt.canonicalProgram (statements dangling))) := by
  let name (lexeme : String) : Token := .unplaced .identifier lexeme 1
  let a : Expr := .variable (name "a")
  let b : Expr := .variable (name "b")
  let call : Stmt := .expression (.call (.variable (name "f")) (name ")") [])
  let program : List Stmt := [.ifElse a (.ifThen b (.print a)) (.loop b call),
    .function (name "f") [name "b"] [.giveBack (name "return") (some (.variable (name "f")))]]
  have identifiers : Token.IsIdentifier "a".toList ∧ Token.IsIdentifier "b".toList ∧
      Token.IsIdentifier "f".toList := by decide
  obtain ⟨first, second, third⟩ := identifiers
  have parameter : ∀ param ∈ [name "b"], Token.IsIdentifier param.lexeme.toList := by
    intro param member
    rw [List.mem_singleton.mp member]
    exact second
  have writable : Stmt.WritableAll program false :=
    ⟨⟨first, ⟨rfl, second, rfl, first⟩, rfl, second, rfl, third, by decide, trivial⟩,
      ⟨third, by decide, parameter, ⟨rfl, third⟩, trivial⟩, trivial⟩
  have text : dangling = Stmt.canonicalProgram program := by decide
  have clean : IsClean dangling := by
    rw [text]
    exact (clean_of_reads (Stmt.reads_program program writable)).1
  obtain ⟨clean', _, trees, behaves⟩ := program_round_trip clean
  exact ⟨clean, clean', trees, (behaves 1).1⟩

end Source

end Jess
