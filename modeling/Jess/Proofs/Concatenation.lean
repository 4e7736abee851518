import Jess.Proofs.Calls
import Jess.Proofs.StatementLocality
import Jess.Proofs.StatementSoundness

/-!
# One text after another

A text that ends with a semicolon, and about whose end there is no complaint,
is read in the same way whether it stands alone or another text follows. What
follows is then read as if it stood alone. So the statements and the complaints
of both together are those of the first text and then those of the second one,
also where recovery from a mistake took place in either.
-/

namespace Jess.Parser

open Token (Kind)

variable {later s l : List Token}

/-- A reading that ends with what an outcome holds, behind what there was before. -/
def Yields (r : EStateM.Result Stop State (List Stmt)) (done : Array Stmt) (c : Array Complaint)
    (o : Outcome) : Prop :=
  ∃ cursor, r = .ok (done.toList ++ o.statements) ⟨cursor, c ++ o.complaints.toArray⟩

section Yields

variable {r : EStateM.Result Stop State (List Stmt)} {done : Array Stmt} {c : Array Complaint}
  {o o' : Outcome}

theorem yields_ok (statements : List Stmt) (cursor : Cursor) (filed : Array Complaint) :
    Yields (.ok statements ⟨cursor, filed⟩) #[] #[] ⟨statements, filed.toList⟩ :=
  ⟨cursor, by simp⟩

theorem yields_nothing (done : Array Stmt) (cursor : Cursor) (c : Array Complaint) :
    Yields (.ok done.toList ⟨cursor, c⟩) done c ⟨[], []⟩ :=
  ⟨cursor, by simp⟩

theorem Yields.unique (yields : Yields r #[] #[] o) (yields' : Yields r #[] #[] o') : o = o' := by
  obtain ⟨cursor, ends⟩ := yields
  obtain ⟨cursor', ends'⟩ := yields'
  obtain ⟨statements, complaints⟩ := o
  obtain ⟨statements', complaints'⟩ := o'
  have same := ends.symm.trans ends'
  simp only [EStateM.Result.ok.injEq, State.mk.injEq] at same
  have given : statements = statements' := by simpa using same.1
  have filed : complaints = complaints' := by simpa using same.2.2
  rw [given, filed]

theorem toArray_joined (filed : Array Complaint) (more : List Complaint) :
    (filed.toList ++ more).toArray = filed ++ more.toArray := by
  rw [← List.append_toArray, Array.toArray_toList]

theorem Yields.behind {found : List Stmt} {filed : Array Complaint}
    (yields : Yields r (done ++ found.toArray) (c ++ filed) o) :
    Yields r done c ⟨found ++ o.statements, filed.toList ++ o.complaints⟩ := by
  obtain ⟨cursor, rfl⟩ := yields
  exact ⟨cursor, by simp [toArray_joined, Array.append_assoc]⟩

end Yields

/-- How the readings of two texts end. If the texts part, the reading of the second one has come
to where it does so, with as much as it may go deeper left to it. -/
inductive Continues (later : List Token) (slack : Nat) (done done' : Array Stmt)
    (c c' : Array Complaint) :
    EStateM.Result Stop State (List Stmt) → EStateM.Result Stop State (List Stmt) → Prop
  | tooDeep (s : State) (r' : EStateM.Result Stop State (List Stmt)) :
      Continues later slack done done' c c' (.error .tooDeep s) r'
  | spoiled {r : EStateM.Result Stop State (List Stmt)}
      (r' : EStateM.Result Stop State (List Stmt)) (cut : later ≠ []) {x : Complaint}
      (filed : x ∈ (leaves r).complaints) (atEnd : x.token.kind = .eof) :
      Continues later slack done done' c c' r r'
  | ended {r r' : EStateM.Result Stop State (List Stmt)} (uncut : later = []) (o : Outcome)
      (short : Yields r done c o) (long : Yields r' done' c' o) :
      Continues later slack done done' c c' r r'
  | parted {r : EStateM.Result Stop State (List Stmt)} (cut : later ≠ []) (o : Outcome)
      (short : Yields r done c o) (left : Nat) (before : List Token) :
      Continues later slack done done' c c' r (declarations (left + slack)
        (done' ++ o.statements.toArray) (.over before later (c' ++ o.complaints.toArray)))

section Continues

variable {slack depth : Nat} {done done' : Array Stmt} {c c' : Array Complaint}

theorem Continues.behind {found : List Stmt} {filed : Array Complaint}
    {r r' : EStateM.Result Stop State (List Stmt)}
    (continues : Continues later slack (done ++ found.toArray) (done' ++ found.toArray)
      (c ++ filed) (c' ++ filed) r r') : Continues later slack done done' c c' r r' := by
  cases continues with
  | tooDeep s r' => exact .tooDeep s r'
  | spoiled r' cut filed atEnd => exact .spoiled r' cut filed atEnd
  | ended uncut o short long => exact .ended uncut _ short.behind long.behind
  | parted cut o short left before =>
      have whole : Continues later slack done done' c c' r _ :=
        .parted cut _ short.behind left before
      simpa [toArray_joined, Array.append_assoc] using whole

theorem recovering_stop {α : Type} {p : Parser α} {s t : State} {stop : Stop}
    (run : recovering p s = .error stop t) : stop = .tooDeep := by
  unfold recovering at run
  split at run
  · cases run
  · cases run
  · cases run
    rfl

theorem Continues.of_meets {p p' : Parser Stmt} {t t' : State}
    (meets : Meets later (Beside later) c c' (recovering p t) (recovering p' t'))
    (rest : ∀ {s' l'}, Beside later s' l' → ∀ done done' before before' c c',
      Continues later slack done done' c c' (declarations depth done (.over before s' c))
        (declarations (depth + slack) done' (.over before' l' c'))) :
    Continues later slack done done' c c'
      ((recovering p >>= fun found => declarations depth (done ++ found.toArray)) t)
      ((recovering p' >>= fun found => declarations (depth + slack) (done' ++ found.toArray)) t')
      := by
  rw [bind_apply, bind_apply]
  generalize first : recovering p t = r at meets ⊢
  generalize recovering p' t' = r' at meets ⊢
  cases meets with
  | tooDeep s r' => exact .tooDeep s _
  | @spoiled r _ cut x filed atEnd =>
      refine .spoiled _ cut (x := x) ?_ atEnd
      cases r with
      | error stop t => exact filed
      | ok found t =>
          have keeps : Keeps (declarations depth (done ++ found.toArray)) := inferInstance
          exact keeps.keeps t x filed
  | gives found b b' filed beside =>
      exact (rest beside (done ++ found.toArray) (done' ++ found.toArray) b b' _ _).behind
  | unwinds b b' filed alike => cases recovering_stop first

end Continues

section Declarations

variable {t : Token} {depth : Nat} {done : Array Stmt} {before rest : List Token}
  {c : Array Complaint}

theorem declarations_end (isEnd : t.kind = .eof) :
    declarations (depth + 1) done (.over before (t :: rest) c) =
      .ok done.toList (.over before (t :: rest) c) := by
  rw [declarations, bind_of_ok (atEnd_over ..), beq_iff_eq.mpr isEnd]
  rfl

theorem declarations_inside (inside : t.kind ≠ .eof) :
    declarations (depth + 1) done (.over before (t :: rest) c) =
      (recovering (declaration depth false) >>= fun found =>
        declarations depth (done ++ found.toArray)) (.over before (t :: rest) c) :=
  declarations_before_end depth done (beq_eq_false_iff_ne.mpr inside)

end Declarations

theorem declarations_continue (apart : ∀ t ∈ later.head?, t.kind ≠ .keyword .kwElse)
    (slack depth : Nat) (beside : Beside later s l) :
    ∀ done done' before before' c c',
      Continues later slack done done' c c' (declarations depth done (.over before s c))
        (declarations (depth + slack) done' (.over before' l c')) := by
  induction depth generalizing s l with
  | zero =>
      intro done done' before before' c c'
      exact .tooDeep _ _
  | succ depth ih =>
      intro done done' before before' c c'
      cases beside with
      | @parted stop cut isEnd =>
          rw [declarations_end isEnd]
          have whole : Continues later slack done done' c c' _ _ :=
            .parted cut _ (yields_nothing done (Cursor.over before [stop]) c) (depth + 1) before'
          simpa using whole
      | alike alike =>
          obtain ⟨t, s, l, rfl, rfl⟩ := alike.heads
          rw [Nat.succ_add]
          by_cases isEnd : t.kind = .eof
          · rw [declarations_end isEnd, declarations_end isEnd]
            exact .ended (alike.uncut isEnd) _ (yields_nothing done _ c) (yields_nothing done' _ c')
          · rw [declarations_inside isEnd, declarations_inside isEnd]
            have below := Nat.le_add_right depth slack
            have inStep := (statements_inStep apart below).declaration false alike
            exact .of_meets (inStep.recovering before before' c c') ih

theorem Alike.behind {front : List Token} (inside : ∀ t ∈ front, t.kind ≠ .eof)
    (alike : Alike later s l) : Alike later (front ++ s) (front ++ l) := by
  induction front with
  | nil => exact alike
  | cons t front ih =>
      exact .more (inside t (List.mem_cons_self ..))
        (ih fun u member => inside u (List.mem_cons_of_mem _ member))

theorem exists_first_end {tokens : List Token} (closes : ∃ t ∈ tokens, t.kind = .eof) :
    ∃ front stop beyond, tokens = front ++ stop :: beyond ∧ (∀ t ∈ front, t.kind ≠ .eof) ∧
      stop.kind = .eof := by
  induction tokens with
  | nil =>
      obtain ⟨t, member, _⟩ := closes
      cases member
  | cons t rest ih =>
      by_cases isEnd : t.kind = .eof
      · exact ⟨[], t, rest, rfl, List.forall_mem_nil _, isEnd⟩
      · have more : ∃ u ∈ rest, u.kind = .eof := by simpa [isEnd] using closes
        obtain ⟨front, stop, beyond, rfl, inside, last⟩ := ih more
        exact ⟨t :: front, stop, beyond, rfl, List.forall_mem_cons.mpr ⟨isEnd, inside⟩, last⟩

theorem declarations_stop {depth : Nat} {done : Array Stmt} {s t : State} {stop : Stop}
    (run : declarations depth done s = .error stop t) : stop = .tooDeep := by
  induction depth generalizing done s with
  | zero =>
      unfold declarations at run
      cases run
      rfl
  | succ depth ih =>
      have atEnd : atEnd s = .ok s.cursor.atEnd s := rfl
      rw [declarations, bind_of_ok atEnd] at run
      split at run
      · cases run
      · rw [bind_apply] at run
        cases first : recovering (declaration depth false) s with
        | error why u =>
            rw [first] at run
            cases run
            exact recovering_stop first
        | ok found u =>
            rw [first] at run
            cases found <;> exact ih run

theorem exists_program {tokens : List Token} (closed : Closed tokens) :
    ∃ program t, declarations (enoughDepth tokens.length) #[] (.over [] tokens #[]) =
      .ok program t := by
  have settles : Settles (declarations (enoughDepth tokens.length) #[]) [] tokens 0 _ :=
    declarations_settle #[] closed (by simp only [enoughDepth]; omega)
  have settled := settles #[]
  cases run : declarations (enoughDepth tokens.length) #[] (.over [] tokens #[]) with
  | ok program t => exact ⟨program, t, rfl⟩
  | error stop t =>
      rw [run] at settled
      cases settled.1.symm.trans (declarations_stop run)

/-- A text that contains an end token is read in the same way at every place, after whatever was
read and filed before, and at every depth that is enough for its length. -/
theorem exists_reading {tokens : List Token} (closes : ∃ t ∈ tokens, t.kind = .eof) :
    ∃ o, ∀ depth done before c, enoughDepth tokens.length ≤ depth →
      Yields (declarations depth done (.over before tokens c)) done c o := by
  obtain ⟨front, stop, beyond, rfl, inside, isEnd⟩ := exists_first_end closes
  obtain ⟨program, t, run⟩ := exists_program (closed_append inside isEnd)
  refine ⟨⟨program, t.complaints.toList⟩, fun depth done before c enough => ?_⟩
  have less : enoughDepth (front ++ [stop]).length ≤ depth := by
    simp only [enoughDepth, List.length_append, List.length_cons, List.length_nil] at enough ⊢
    omega
  obtain ⟨slack, rfl⟩ := Nat.exists_eq_add_of_le less
  have continues := declarations_continue (by simp) slack (enoughDepth (front ++ [stop]).length)
    (.alike ((Alike.ended rfl isEnd beyond).behind inside)) #[] done [] before #[] c
  rw [run] at continues
  generalize declarations (enoughDepth (front ++ [stop]).length + slack) done
    (.over before (front ++ stop :: beyond) c) = r at continues ⊢
  cases continues with
  | spoiled _ cut => exact absurd rfl cut
  | ended uncut o short long =>
      rw [(yields_ok program t.cursor t.complaints).unique short]
      exact long
  | parted cut => exact absurd rfl cut

theorem declarations_read {tokens : List Token} (closes : ∃ t ∈ tokens, t.kind = .eof)
    {depth : Nat} (enough : enoughDepth tokens.length ≤ depth) (done : Array Stmt)
    (before : List Token) (c : Array Complaint) :
    Yields (declarations depth done (.over before tokens c)) done c (read tokens) := by
  obtain ⟨o, reads⟩ := exists_reading closes
  obtain ⟨t, rest, rfl⟩ : ∃ t rest, tokens = t :: rest := by
    obtain ⟨t, member, _⟩ := closes
    exact List.exists_cons_of_ne_nil (List.ne_nil_of_mem member)
  obtain ⟨cursor, alone⟩ := reads _ #[] [] #[] (Nat.le_refl _)
  have whole : read (t :: rest) = o := by
    have start : (⟨⟨[], t, rest⟩, #[]⟩ : State) = .over [] (t :: rest) #[] := rfl
    simp only [read, Cursor.ofList?, readFrom, start, alone]
    simp
  rw [whole]
  exact reads depth done before c enough

theorem read_joined {front second : List Token} {semicolon stop : Token}
    (inside : ∀ t ∈ front, t.kind ≠ .eof) (ends : semicolon.kind = .symbol .semicolon)
    (isEnd : stop.kind = .eof)
    (whole : ∀ x ∈ (read (front ++ [semicolon, stop])).complaints, x.token.kind ≠ .eof)
    (closes : ∃ t ∈ second, t.kind = .eof)
    (apart : ∀ t ∈ second.head?, t.kind ≠ .keyword .kwElse) :
    read (front ++ semicolon :: second) =
      ⟨(read (front ++ [semicolon, stop])).statements ++ (read second).statements,
        (read (front ++ [semicolon, stop])).complaints ++ (read second).complaints⟩ := by
  have cut : second ≠ [] := by
    obtain ⟨t, member, _⟩ := closes
    exact List.ne_nil_of_mem member
  have closesBoth : ∃ t ∈ front ++ semicolon :: second, t.kind = .eof := by
    obtain ⟨t, member, atEnd⟩ := closes
    exact ⟨t, List.mem_append_right _ (List.mem_cons_of_mem _ member), atEnd⟩
  have closesFirst : ∃ t ∈ front ++ [semicolon, stop], t.kind = .eof := ⟨stop, by simp, isEnd⟩
  -- The reading of both texts starts with depth to spare for the second one.
  have enough : enoughDepth (front ++ semicolon :: second).length ≤
      enoughDepth (front ++ [semicolon, stop]).length + enoughDepth second.length := by
    simp only [enoughDepth, List.length_append, List.length_cons, List.length_nil]
    omega
  have continues := declarations_continue apart (enoughDepth second.length)
    (enoughDepth (front ++ [semicolon, stop]).length)
    (.alike ((Alike.parting cut ends isEnd).behind inside)) #[] #[] [] [] #[] #[]
  have alone := declarations_read closesFirst (Nat.le_refl _) #[] [] #[]
  have both := declarations_read closesBoth enough #[] [] #[]
  generalize declarations (enoughDepth (front ++ [semicolon, stop]).length) #[]
    (.over [] (front ++ [semicolon, stop]) #[]) = r at continues alone
  generalize declarations
    (enoughDepth (front ++ [semicolon, stop]).length + enoughDepth second.length) #[]
    (.over [] (front ++ semicolon :: second) #[]) = r' at continues both
  cases continues with
  | tooDeep =>
      obtain ⟨_, impossible⟩ := alone
      cases impossible
  | spoiled _ _ filed atEnd =>
      obtain ⟨_, rfl⟩ := alone
      exact absurd atEnd (whole _ (by simpa [leaves] using filed))
  | ended uncut => exact absurd uncut cut
  | parted _ o short left before =>
      have behind := Nat.le_add_left (enoughDepth second.length) left
      have rest := declarations_read closes behind (#[] ++ o.statements.toArray) before
        (#[] ++ o.complaints.toArray)
      rw [short.unique alone] at rest both
      exact both.unique rest.behind

theorem place_of_eof {x : Complaint} (atEnd : x.token.kind = .eof) :
    x.diagnostic.place = .atEnd := by
  simp [Complaint.diagnostic, Diagnostic.syntactic, Token.isEof, atEnd]

/-- Reading a text that ends with a semicolon, and another one behind it that does not begin with
`else`, is reading both of them alone, mistakes included, unless the first one is mistaken about
its end. -/
theorem read_append {first second : List Token} {semicolon stop : Token}
    (inside : ∀ t ∈ first, t.kind ≠ .eof) (last : first.getLast? = some semicolon)
    (ends : semicolon.kind = .symbol .semicolon) (isEnd : stop.kind = .eof)
    (whole : ∀ d ∈ (read (first ++ [stop])).diagnostics, d.place ≠ .atEnd)
    (closes : ∃ t, second.getLast? = some t ∧ t.kind = .eof)
    (apart : ∀ t, second.head? = some t → t.kind ≠ .keyword .kwElse) :
    (read (first ++ second)).statements =
        (read (first ++ [stop])).statements ++ (read second).statements ∧
      (read (first ++ second)).diagnostics =
        (read (first ++ [stop])).diagnostics ++ (read second).diagnostics ∧
      (read (first ++ second)).errorCount =
        (read (first ++ [stop])).errorCount + (read second).errorCount := by
  obtain ⟨front, rfl⟩ := List.getLast?_eq_some_iff.mp last
  obtain ⟨t, final, atEnd⟩ := closes
  simp only [List.append_assoc, List.cons_append, List.nil_append] at whole ⊢
  have unmistaken : ∀ x ∈ (read (front ++ [semicolon, stop])).complaints, x.token.kind ≠ .eof :=
    fun x filed isEnd => whole _ (List.mem_map_of_mem filed) (place_of_eof isEnd)
  have joined := read_joined (fun u member => inside u (List.mem_append_left _ member)) ends isEnd
    unmistaken ⟨t, List.mem_of_getLast? final, atEnd⟩ apart
  rw [joined]
  exact ⟨rfl, List.map_append, List.length_append⟩

def bareToken (kind : Kind) : Token := .unplaced kind "" 1

/-- A block with a mistake in its first statement, and a mistaken declaration behind it. -/
private def mistakenBlock : List Token :=
  [.symbol .leftBrace, .keyword .kwPrint, .symbol .semicolon, .keyword .kwPrint, .keyword .kwNil,
    .symbol .semicolon, .symbol .rightBrace, .keyword .kwVar, .symbol .semicolon].map bareToken

/-- A mistaken statement before one that is left unfinished at the end. -/
private def mistakenTwice : List Token :=
  [.keyword .kwPrint, .symbol .semicolon, .keyword .kwPrint, .keyword .kwNil].map bareToken ++
    [Token.eof 1 0]

theorem read_append_mistaken :
    (read (mistakenBlock ++ [Token.eof 1 0])).errorCount = 2 ∧ (read mistakenTwice).errorCount = 2 ∧
      (read (mistakenBlock ++ mistakenTwice)).errorCount = 4 := by
  have inside : ∀ t ∈ mistakenBlock, t.kind ≠ .eof := by decide
  have whole : ∀ d ∈ (read (mistakenBlock ++ [Token.eof 1 0])).diagnostics, d.place ≠ .atEnd := by
    decide +kernel
  have apart : ∀ t, mistakenTwice.head? = some t → t.kind ≠ .keyword .kwElse := by
    rintro t ⟨⟩
    decide
  have both := (read_append inside rfl rfl rfl whole ⟨Token.eof 1 0, rfl, rfl⟩ apart).2.2
  have first : (read (mistakenBlock ++ [Token.eof 1 0])).errorCount = 2 := by decide +kernel
  have second : (read mistakenTwice).errorCount = 2 := by decide +kernel
  exact ⟨first, second, by rw [both, first, second]⟩

end Jess.Parser
