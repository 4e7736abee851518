import Jess.Diagnostic.Log
import Jess.Proofs.Advancing
import Jess.Proofs.Calls
import Jess.Proofs.EarliestMistake

/-!
# Reading comes to its end

A token list whose last token is an end token is read up to its first one, and
no further. Each rule has a depth to be paid for the tokens that are left before
that end, and every call leaves enough of it for the calls it makes. So no call
runs out of depth, every declaration that is called gets past a token, and one
that gives nothing has filed a complaint.
-/

namespace Jess.Parser

open Token (Kind)

/-- How deep a rule may go for the tokens that are left before the end. -/
def Rule.cost (left : Nat) : Rule → Nat
  | program _ => 8 * left + 15
  | block _ _ => 8 * left + 15
  | declaration _ => 8 * left + 14
  | statement _ => 8 * left + 13

theorem Rule.cost_of_fewer {rule caller : Rule} {ahead left depth : Nat} (fewer : ahead < left)
    (enough : caller.cost left ≤ depth + 1) : rule.cost ahead ≤ depth := by
  cases caller <;> cases rule <;> simp only [cost] at enough ⊢ <;> omega

variable {tokens front beyond : List Token} {stop : Token} {start : Cursor}

def Affords (front behind : List Token) (depth : Nat) (rule : Rule) (s : State) : Prop :=
  ∃ left, s.cursor.Stands front behind left ∧ rule.cost left.length ≤ depth

section Costs

variable (inside : ∀ t ∈ front, t.kind ≠ .eof) (isEnd : stop.kind = .eof)

include inside isEnd

theorem stands_behind {α : Type} {p : Parser α} [Proceeds p] {v : α} {s t : State}
    {left : List Token} (stands : s.cursor.Stands front (stop :: beyond) left)
    (more : s.cursor.kind ≠ .eof) (ran : p s.past = .ok v t) :
    ∃ ahead, t.cursor.Stands front (stop :: beyond) ahead ∧ ahead.length < left.length := by
  obtain ⟨rest, past, fewer⟩ := stands_past inside isEnd stands more
  obtain ⟨ahead, there, still⟩ := stands_proceed inside isEnd (s := s.past) past ran
  exact ⟨ahead, there, Nat.lt_of_le_of_lt still fewer⟩

theorem stands_declared {depth : Nat} {inFunction : Bool} {found : Option Stmt} {s t : State}
    {left : List Token} (stands : s.cursor.Stands front (stop :: beyond) left)
    (more : s.cursor.atEnd = false) (enough : 8 * left.length + 14 ≤ depth)
    (ran : recovering (declaration depth inFunction) s = .ok found t) :
    ∃ ahead, t.cursor.Stands front (stop :: beyond) ahead ∧ ahead.length < left.length := by
  have begun := stands_begun inside isEnd stands more
  obtain ⟨found', t', ahead, ran', there, fewer, _⟩ :=
    declaration_advances inside isEnd inFunction stands begun enough
  cases ran.symm.trans ran'
  exact ⟨ahead, there, fewer⟩

theorem Called.affords (whole : tokens = front ++ stop :: beyond) {depth : Nat} {rule : Rule}
    {s : State} (called : Called tokens depth rule s) :
    Affords front (stop :: beyond) depth rule s := by
  -- A rule gives up one step of depth to what it calls, or gets past a token.
  induction called with
  | reading begins =>
      subst whole
      refine ⟨front, stands_start begins, ?_⟩
      simp only [Rule.cost, enoughDepth, List.length_append, List.length_cons]
      omega
  | declared _ more ih =>
      obtain ⟨left, stands, enough⟩ := ih
      exact ⟨left, stands, Nat.le_of_succ_le_succ enough⟩
  | program _ more first ih =>
      obtain ⟨left, stands, enough⟩ := ih
      obtain ⟨ahead, there, fewer⟩ :=
        stands_declared inside isEnd stands more (Nat.le_of_succ_le_succ enough) first
      exact ⟨ahead, there, Rule.cost_of_fewer fewer enough⟩
  | within _ unclosed more ih =>
      obtain ⟨left, stands, enough⟩ := ih
      exact ⟨left, stands, Nat.le_of_succ_le_succ enough⟩
  | block _ unclosed more first ih =>
      obtain ⟨left, stands, enough⟩ := ih
      obtain ⟨ahead, there, fewer⟩ :=
        stands_declared inside isEnd stands more (Nat.le_of_succ_le_succ enough) first
      exact ⟨ahead, there, Rule.cost_of_fewer fewer enough⟩
  | statement _ noFunction noVariable ih =>
      obtain ⟨left, stands, enough⟩ := ih
      exact ⟨left, stands, Nat.le_of_succ_le_succ enough⟩
  | body _ word first ih | clauses _ word first ih | loop _ word first ih
  | thenBranch _ word first ih =>
      obtain ⟨left, stands, enough⟩ := ih
      obtain ⟨ahead, there, fewer⟩ :=
        stands_behind inside isEnd stands (by rw [word]; decide) first
      exact ⟨ahead, there, Rule.cost_of_fewer fewer enough⟩
  | elseBranch _ word first second other ih =>
      obtain ⟨left, stands, enough⟩ := ih
      obtain ⟨ahead, there, fewer⟩ :=
        stands_behind inside isEnd stands (by rw [word]; decide) first
      obtain ⟨later, behind, less⟩ := stands_proceed inside isEnd there second
      obtain ⟨rest, past, fewest⟩ := stands_past inside isEnd behind (by rw [other]; decide)
      have fewer := Nat.lt_trans fewest (Nat.lt_of_le_of_lt less fewer)
      exact ⟨rest, past, Rule.cost_of_fewer fewer enough⟩
  | braces _ opened ih =>
      obtain ⟨left, stands, enough⟩ := ih
      obtain ⟨rest, past, fewer⟩ := stands_past inside isEnd stands (by rw [opened]; decide)
      exact ⟨rest, past, Rule.cost_of_fewer fewer enough⟩

end Costs

section Reading

/-- How many diagnostics about grammar a log holds. -/
def grammarCount (log : Diagnostic.Log) : Nat :=
  log.held.toList.countP fun d => d.kind = .syntactic

theorem grammarCount_append (log : Diagnostic.Log) (o : Outcome) :
    grammarCount (log.append o.diagnostics) = grammarCount log + o.errorCount := by
  have all : ∀ d ∈ o.diagnostics, decide (d.kind = .syntactic) = true := by
    intro d member
    obtain ⟨c, _, rfl⟩ := List.mem_map.mp member
    rfl
  rw [grammarCount, Diagnostic.Log.held_append, List.countP_append, List.countP_eq_length.mpr all,
    Outcome.diagnostics, List.length_map]
  rfl

def beforeEnd (tokens : List Token) : List Token := tokens.takeWhile fun t => t.kind ≠ .eof

theorem exists_beforeEnd {tokens : List Token} (closes : ∃ t ∈ tokens, t.kind = .eof) :
    ∃ stop beyond, tokens = beforeEnd tokens ++ stop :: beyond ∧
      (∀ t ∈ beforeEnd tokens, t.kind ≠ .eof) ∧ stop.kind = .eof := by
  obtain ⟨front, stop, beyond, rfl, inside, isEnd⟩ := exists_first_end closes
  have same : beforeEnd (front ++ stop :: beyond) = front := by
    rw [beforeEnd, List.takeWhile_append_of_pos (by simpa using inside)]
    simp [isEnd]
  exact ⟨stop, beyond, by rw [same], by rwa [same], isEnd⟩

/-- A reading that does not leave the tokens up to the first end token, and every declaration of
which gets ahead. -/
structure StaysInside (tokens : List Token) (start : Cursor) : Prop where
  /-- The depth is enough, and the reading comes to an end at the first end token. -/
  ends : ∃ s, declarations (enoughDepth tokens.length) #[] ⟨start, #[]⟩ =
      .ok (read tokens).statements s ∧ s.complaints.toList = (read tokens).complaints ∧
    s.cursor.tokens = tokens ∧ s.cursor.position = (beforeEnd tokens).length ∧
    s.cursor.atEnd = true
  /-- All places that steps forward lead to are in the list and not behind its first end. -/
  within : ∀ c, start.Onward c → c.tokens = tokens ∧ c.position < tokens.length ∧
    c.position ≤ (beforeEnd tokens).length
  /-- Every call begins at such a place, and it is not cut off. -/
  calls : ∀ depth rule s, Called tokens depth rule s →
    start.Onward s.cursor ∧ ¬rule.RunsOut depth s
  /-- A declaration is read before the end. It gets past a token, and it has complained where it
  gives no statement. -/
  declarations : ∀ depth inFunction s, Called tokens depth (.declaration inFunction) s →
    s.cursor.atEnd = false ∧ ∃ found t filed,
      recovering (declaration depth inFunction) s = .ok found t ∧ start.Onward t.cursor ∧
      s.cursor.position < t.cursor.position ∧
      t.complaints = s.complaints ++ filed ∧ (found = none → filed ≠ #[])
  /-- As many diagnostics about grammar are added to a log as there are complaints. -/
  counted : ∀ log : Diagnostic.Log, grammarCount (log.append (read tokens).diagnostics) =
    grammarCount log + (read tokens).errorCount

/-- A token list that ends with an end token is read up to its first one, however malformed it
is, and every declaration on the way gets past a token. -/
theorem read_stays_inside {tokens : List Token}
    (ends : ∃ last, tokens.getLast? = some last ∧ last.kind = .eof) :
    ∃ start, Cursor.ofList? tokens = some start ∧ StaysInside tokens start := by
  obtain ⟨last, isLast, lastEnds⟩ := ends
  have closes : ∃ t ∈ tokens, t.kind = .eof := ⟨last, List.mem_of_getLast? isLast, lastEnds⟩
  obtain ⟨stop, beyond, whole, inside, isEnd⟩ := exists_beforeEnd closes
  obtain ⟨start, begins⟩ : ∃ start, Cursor.ofList? tokens = some start := by
    cases tokens with
    | nil => cases isLast
    | cons t rest => exact ⟨_, rfl⟩
  have stands : start.Stands (beforeEnd tokens) (stop :: beyond) (beforeEnd tokens) := by
    apply stands_start
    rw [← whole, begins]
  have within : ∀ c, start.Onward c → c.tokens = tokens ∧ c.position < tokens.length ∧
      c.position ≤ (beforeEnd tokens).length := by
    intro c onward
    obtain ⟨ahead, there, _⟩ := stands_onward inside isEnd stands onward
    have same : c.tokens = tokens := (stands_tokens there).trans whole.symm
    exact ⟨same, same ▸ c.position_lt_length, (stands_position there) ▸ Nat.le_add_right ..⟩
  have place : (⟨start, #[]⟩ : State) = .over [] tokens #[] := by rw [over_start begins]
  obtain ⟨cursor, run⟩ := declarations_read closes (Nat.le_refl _) #[] [] #[]
  rw [← place] at run
  refine ⟨start, begins, ?_, within, ?_, ?_, fun log => grammarCount_append log _⟩
  · have onward := onward_of_ok run
    have atEnd := declarations_atEnd run
    obtain ⟨ahead, there, _⟩ := stands_onward inside isEnd stands onward
    have last := stands_position there
    rw [(stands_atEnd inside isEnd there).mp atEnd] at last
    exact ⟨_, by simpa using run, by simp, (within _ onward).1, last, atEnd⟩
  · intro depth rule s called
    refine ⟨called.onward begins, fun out => ?_⟩
    -- A call that is cut off cuts off the whole reading, which came to its end.
    obtain ⟨t, cut⟩ := called.runs_out begins out
    cases run.symm.trans cut
  · intro depth inFunction s called
    have more := called.before_end
    obtain ⟨left, there, enough⟩ := called.affords inside isEnd whole
    have begun := stands_begun inside isEnd there more
    obtain ⟨found, t, ahead, ran, behind, fewer, filed, grown, complains⟩ :=
      declaration_advances inside isEnd inFunction there begun enough
    have first := stands_position there
    have second := stands_position behind
    have onward := (called.onward begins).trans (onward_of_ok ran)
    exact ⟨more, found, t, filed, ran, onward, by omega, grown, complains⟩

/-- A block with a mistake before a function whose body is broken off by an end token, and more
tokens behind that. -/
def brokenBody : List Token :=
  [Kind.symbol .leftBrace, .keyword .kwPrint, .symbol .semicolon, .keyword .kwFunc, .identifier,
    .symbol .leftParen, .symbol .rightParen, .symbol .leftBrace, .keyword .kwVar, .eof,
    .symbol .semicolon, .eof].map bareToken

theorem read_stays_inside_brokenBody :
    (∃ last, brokenBody.getLast? = some last ∧ last.kind = .eof) ∧
      (beforeEnd brokenBody).length = 9 ∧ (read brokenBody).errorCount = 4 ∧
      ∃ start, Cursor.ofList? brokenBody = some start ∧ StaysInside brokenBody start ∧
        ∃ depth, Called brokenBody depth (.declaration false) ⟨start, #[]⟩ := by
  have ends : ∃ last, brokenBody.getLast? = some last ∧ last.kind = .eof := ⟨_, rfl, rfl⟩
  obtain ⟨start, begins, stays⟩ := read_stays_inside ends
  have first : start.atEnd = false := by
    rw [over_start begins]
    decide
  exact ⟨ends, by decide +kernel, by decide +kernel, start, begins, stays, _,
    .declared (.reading begins) first⟩

end Reading

end Jess.Parser
