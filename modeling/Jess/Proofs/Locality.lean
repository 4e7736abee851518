import Jess.Proofs.Filing

/-!
# Parsers in step

Two texts that begin with the same tokens. Either they begin with the same text
up to an end token, or the first one ends behind a semicolon where the second
one goes on. A parser is in step over them if it does the same in both: it gives
the same value or is unwound in both, adds the same complaints, and stops where
the texts are still alike or have just parted. Nothing is said of the second
text where the first one makes it complain about its end, and the second parser
may go deeper than the first one.
-/

namespace Jess.Parser

open Token (Kind)

/-- Tokens that begin alike. What comes in the second text behind the semicolon that the first
one ends with is known; if there is nothing, the texts are alike up to an end token. -/
inductive Alike (later : List Token) : List Token → List Token → Prop
  | ended {stop : Token} (uncut : later = []) (isEnd : stop.kind = .eof) (beyond : List Token) :
      Alike later [stop] (stop :: beyond)
  | parting {semicolon stop : Token} (cut : later ≠ [])
      (closes : semicolon.kind = .symbol .semicolon) (isEnd : stop.kind = .eof) :
      Alike later [semicolon, stop] (semicolon :: later)
  | more {t : Token} {s l : List Token} (inside : t.kind ≠ .eof) (others : Alike later s l) :
      Alike later (t :: s) (t :: l)

/-- Tokens that are alike, or that have parted behind a semicolon. -/
inductive Beside (later : List Token) : List Token → List Token → Prop
  | alike {s l : List Token} (alike : Alike later s l) : Beside later s l
  | parted {stop : Token} (cut : later ≠ []) (isEnd : stop.kind = .eof) : Beside later [stop] later

section Texts

variable {later s l : List Token} {t u : Token}

theorem Alike.heads (alike : Alike later s l) : ∃ t s' l', s = t :: s' ∧ l = t :: l' := by
  cases alike with
  | ended => exact ⟨_, _, _, rfl, rfl⟩
  | parting => exact ⟨_, _, _, rfl, rfl⟩
  | more => exact ⟨_, _, _, rfl, rfl⟩

theorem Alike.ne_nil (alike : Alike later s l) : s ≠ [] ∧ l ≠ [] := by
  obtain ⟨t, s', l', rfl, rfl⟩ := alike.heads
  exact ⟨List.cons_ne_nil _ _, List.cons_ne_nil _ _⟩

theorem Alike.uncut (alike : Alike later (t :: s) l) (isEnd : t.kind = .eof) : later = [] := by
  cases alike with
  | ended uncut => exact uncut
  | parting _ closes => simp [closes] at isEnd
  | more inside => exact absurd isEnd inside

theorem Beside.ne_nil (beside : Beside later s l) : s ≠ [] ∧ l ≠ [] := by
  cases beside with
  | alike alike => exact alike.ne_nil
  | parted cut => exact ⟨List.cons_ne_nil _ _, cut⟩

theorem Alike.tail (alike : Alike later (t :: s) (t :: l)) (inside : t.kind ≠ .eof) :
    Beside later s l := by
  cases alike with
  | ended _ isEnd => exact absurd isEnd inside
  | parting cut _ isEnd => exact .parted cut isEnd
  | more _ others => exact .alike others

/-- The kinds of tokens behind which two texts neither end nor part. -/
def GoesOn (kind : Kind) : Prop := kind ≠ .eof ∧ kind ≠ .symbol .semicolon

instance (kind : Kind) : Decidable (GoesOn kind) := inferInstanceAs (Decidable (_ ∧ _))

theorem Alike.rest (alike : Alike later (t :: s) (t :: l)) (goesOn : GoesOn t.kind) :
    Alike later s l := by
  cases alike with
  | ended _ isEnd => exact absurd isEnd goesOn.1
  | parting _ closes => exact absurd closes goesOn.2
  | more _ others => exact others

end Texts

variable {α β : Type} {later s l : List Token} {Rest Mid : List Token → List Token → Prop}

/-- How two runs end that are in step: see the head of the file. -/
inductive Meets (later : List Token) (Rest : List Token → List Token → Prop)
    (c c' : Array Complaint) :
    EStateM.Result Stop State α → EStateM.Result Stop State α → Prop
  | tooDeep (s : State) (r' : EStateM.Result Stop State α) :
      Meets later Rest c c' (.error .tooDeep s) r'
  | spoiled {r : EStateM.Result Stop State α} (r' : EStateM.Result Stop State α)
      (cut : later ≠ []) {x : Complaint} (filed : x ∈ (leaves r).complaints)
      (atEnd : x.token.kind = .eof) : Meets later Rest c c' r r'
  | gives (v : α) (before before' : List Token) {s l : List Token} (filed : Array Complaint)
      (related : Rest s l) :
      Meets later Rest c c' (.ok v (.over before s (c ++ filed)))
        (.ok v (.over before' l (c' ++ filed)))
  | unwinds (before before' : List Token) {s l : List Token} (filed : Array Complaint)
      (alike : Alike later s l) :
      Meets later Rest c c' (.error .unwound (.over before s (c ++ filed)))
        (.error .unwound (.over before' l (c' ++ filed)))

/-- Two parsers do the same over two texts, wherever these are and whatever was filed before. -/
def InStep (later : List Token) (p p' : Parser α) (s l : List Token)
    (Rest : List Token → List Token → Prop) : Prop :=
  ∀ before before' c c',
    Meets later Rest c c' (p (.over before s c)) (p' (.over before' l c'))

section Rules

theorem Meets.behind {c c' filed : Array Complaint} {r r' : EStateM.Result Stop State α}
    (meets : Meets later Rest (c ++ filed) (c' ++ filed) r r') : Meets later Rest c c' r r' := by
  cases meets with
  | tooDeep s r' => exact .tooDeep s r'
  | spoiled r' cut filed atEnd => exact .spoiled r' cut filed atEnd
  | gives v before before' more related =>
      rw [Array.append_assoc, Array.append_assoc]
      exact .gives v before before' (filed ++ more) related
  | unwinds before before' more alike =>
      rw [Array.append_assoc, Array.append_assoc]
      exact .unwinds before before' (filed ++ more) alike

theorem inStep_tooDeep {p' : Parser α} : InStep later tooDeep p' s l Rest :=
  fun _ _ _ _ => .tooDeep _ _

theorem inStep_pure {v : α} (related : Rest s l) : InStep later (pure v) (pure v) s l Rest := by
  intro before before' c c'
  exact .gives v before before' #[] related

theorem Meets.bindKeeping {p p' : Parser α} {f f' : α → Parser β} {c c' : Array Complaint}
    {s s' : State} (keep : ∀ v, Keeps (f v)) (meets : Meets later Mid c c' (p s) (p' s'))
    (second : ∀ v s' l', Mid s' l' → InStep later (f v) (f' v) s' l' Rest) :
    Meets later Rest c c' ((p >>= f) s) ((p' >>= f') s') := by
  rw [bind_apply, bind_apply]
  revert meets
  generalize p s = r
  generalize p' s' = r'
  intro meets
  cases meets with
  | tooDeep s => exact .tooDeep s _
  | @spoiled r _ cut x filed atEnd =>
      -- Nothing relates the states that the second parsers start in, but the complaint stays.
      refine .spoiled _ cut (x := x) ?_ atEnd
      cases r with
      | ok v t => exact (keep v).keeps t x filed
      | error stop t => exact filed
  | gives v b b' filed related => exact (second v _ _ related b b' _ _).behind
  | unwinds b b' filed alike => exact .unwinds b b' filed alike

theorem InStep.bindKeeping {p p' : Parser α} {f f' : α → Parser β} (keep : ∀ v, Keeps (f v))
    (first : InStep later p p' s l Mid)
    (second : ∀ v s' l', Mid s' l' → InStep later (f v) (f' v) s' l' Rest) :
    InStep later (p >>= f) (p' >>= f') s l Rest :=
  fun before before' c c' => (first before before' c c').bindKeeping keep second

theorem InStep.bind {p p' : Parser α} {f f' : α → Parser β} [∀ v, Keeps (f v)]
    (first : InStep later p p' s l Mid)
    (second : ∀ v s' l', Mid s' l' → InStep later (f v) (f' v) s' l' Rest) :
    InStep later (p >>= f) (p' >>= f') s l Rest := .bindKeeping inferInstance first second

theorem InStep.map {p p' : Parser α} (f : α → β) (inStep : InStep later p p' s l Rest) :
    InStep later (f <$> p) (f <$> p') s l Rest := by
  rw [map_eq_pure_bind, map_eq_pure_bind]
  exact inStep.bind fun v s' l' related => inStep_pure related

theorem InStep.step {p p' : Parser α} {f f' : α → Parser β} {v : α} {s' l' : List Token}
    (filed : Array Complaint)
    (short : ∀ before c, ∃ before', p (.over before s c) = .ok v (.over before' s' (c ++ filed)))
    (long : ∀ before c, ∃ before', p' (.over before l c) = .ok v (.over before' l' (c ++ filed)))
    (next : InStep later (f v) (f' v) s' l' Rest) :
    InStep later (p >>= f) (p' >>= f') s l Rest := by
  intro before before' c c'
  obtain ⟨b, first⟩ := short before c
  obtain ⟨b', first'⟩ := long before' c'
  rw [bind_of_ok first, bind_of_ok first']
  exact (next b b' _ _).behind

theorem InStep.look {p p' : Parser α} {f f' : α → Parser β} {v : α}
    (short : ∀ before c, p (.over before s c) = .ok v (.over before s c))
    (long : ∀ before c, p' (.over before l c) = .ok v (.over before l c))
    (next : InStep later (f v) (f' v) s l Rest) : InStep later (p >>= f) (p' >>= f') s l Rest :=
  InStep.step #[] (fun before c => ⟨before, short before c⟩)
    (fun before c => ⟨before, long before c⟩) next

variable {t : Token}

theorem InStep.current {f f' : Token → Parser β}
    (next : InStep later (f t) (f' t) (t :: s) (t :: l) Rest) :
    InStep later (current >>= f) (current >>= f') (t :: s) (t :: l) Rest :=
  InStep.look (fun _ _ => rfl) (fun _ _ => rfl) next

theorem InStep.report {token : Token} {mistake : Mistake} {f f' : Unit → Parser β}
    (next : InStep later (f ()) (f' ()) s l Rest) :
    InStep later (report token mistake >>= f) (report token mistake >>= f') s l Rest := by
  have step : ∀ (text before : List Token) (c : Array Complaint), ∃ before',
      Parser.report token mistake (.over before text c) =
        .ok () (.over before' text (c ++ #[⟨token, mistake⟩])) :=
    fun text before c => ⟨before, rfl⟩
  exact InStep.step #[⟨token, mistake⟩] (step s) (step l) next

section Alike

variable (alike : Alike later s l)

include alike

theorem inStep_fail {what : Expectation} :
    InStep later (fail what : Parser α) (fail what) s l Rest := by
  obtain ⟨t, s, l, rfl, rfl⟩ := alike.heads
  intro before before' c c'
  exact .unwinds before before' #[⟨t, .expected what⟩] alike

theorem InStep.check {kind : Kind} {f f' : Bool → Parser β}
    (found : (∀ t ∈ s.head?, t.kind = kind) → InStep later (f true) (f' true) s l Rest)
    (missing : InStep later (f false) (f' false) s l Rest) :
    InStep later (check kind >>= f) (check kind >>= f') s l Rest := by
  obtain ⟨t, s, l, rfl, rfl⟩ := alike.heads
  apply InStep.look (v := t.kind == kind) (fun _ _ => rfl) fun _ _ => rfl
  by_cases same : t.kind = kind
  · rw [beq_iff_eq.mpr same]
    exact found fun u first => Option.some.inj first ▸ same
  · rw [beq_eq_false_iff_ne.mpr same]
    exact missing

theorem InStep.eatLast {kind : Kind} {f f' : Bool → Parser β} (inside : kind ≠ .eof)
    (found : ∀ t s' l', t.kind = kind → Alike later (t :: s') (t :: l') →
      InStep later (f true) (f' true) s' l' Rest)
    (missing : InStep later (f false) (f' false) s l Rest) :
    InStep later (eat kind >>= f) (eat kind >>= f') s l Rest := by
  obtain ⟨t, s, l, rfl, rfl⟩ := alike.heads
  by_cases same : t.kind = kind
  · obtain ⟨more, more'⟩ := (alike.tail (same ▸ inside)).ne_nil
    exact InStep.step #[]
      (fun before c => ⟨t :: before, eat_over before s t c same inside more⟩)
      (fun before c => ⟨t :: before, eat_over before l t c same inside more'⟩)
      (found t s l same alike)
  · exact InStep.look (fun before c => eat_over_of_ne before s t c same)
      (fun before c => eat_over_of_ne before l t c same) missing

theorem InStep.eat {kind : Kind} {f f' : Bool → Parser β} (goesOn : GoesOn kind)
    (found : ∀ s' l', Alike later s' l' → InStep later (f true) (f' true) s' l' Rest)
    (missing : InStep later (f false) (f' false) s l Rest) :
    InStep later (eat kind >>= f) (eat kind >>= f') s l Rest := by
  refine InStep.eatLast alike goesOn.1 ?_ missing
  exact fun t s' l' same behind => found s' l' (behind.rest (same ▸ goesOn))

theorem InStep.expectLast {kind : Kind} {what : Expectation} {f f' : Token → Parser β}
    (inside : kind ≠ .eof)
    (found : ∀ t s' l', t.kind = kind → Alike later (t :: s') (t :: l') →
      InStep later (f t) (f' t) s' l' Rest) :
    InStep later (expect kind what >>= f) (expect kind what >>= f') s l Rest := by
  obtain ⟨t, s, l, rfl, rfl⟩ := alike.heads
  by_cases same : t.kind = kind
  · obtain ⟨more, more'⟩ := (alike.tail (same ▸ inside)).ne_nil
    exact InStep.step #[]
      (fun before c => ⟨t :: before, expect_over before s t c same inside more⟩)
      (fun before c => ⟨t :: before, expect_over before l t c same inside more'⟩)
      (found t s l same alike)
  · intro before before' c c'
    rw [bind_apply, bind_apply, expect_over_of_ne before s t c same,
      expect_over_of_ne before' l t c' same]
    exact inStep_fail alike before before' c c'

theorem InStep.expect {kind : Kind} {what : Expectation} {f f' : Token → Parser β}
    (goesOn : GoesOn kind)
    (found : ∀ t s' l', Alike later s' l' → InStep later (f t) (f' t) s' l' Rest) :
    InStep later (expect kind what >>= f) (expect kind what >>= f') s l Rest := by
  refine InStep.expectLast alike goesOn.1 ?_
  exact fun t s' l' same behind => found t s' l' (behind.rest (same ▸ goesOn))

end Alike

theorem InStep.advance {f f' : Token → Parser β} (alike : Alike later (t :: s) (t :: l))
    (goesOn : GoesOn t.kind) (next : Alike later s l → InStep later (f t) (f' t) s l Rest) :
    InStep later (advance >>= f) (advance >>= f') (t :: s) (t :: l) Rest := by
  obtain ⟨more, more'⟩ := (alike.rest goesOn).ne_nil
  exact InStep.step #[]
    (fun before c => ⟨t :: before, advance_over before s t c goesOn.1 more⟩)
    (fun before c => ⟨t :: before, advance_over before l t c goesOn.1 more'⟩)
    (next (alike.rest goesOn))

/-- A parser that cannot begin at the end, and complains about it. -/
def Balks (p : Parser α) : Prop :=
  ∀ (before : List Token) (stop : Token) (c : Array Complaint), stop.kind = .eof →
    (∃ s, p (.over before [stop] c) = .error .tooDeep s) ∨
      ∃ s, p (.over before [stop] c) = .error .unwound s ∧
        ∃ x ∈ s.complaints, x.token.kind = .eof

theorem balks_tooDeep : Balks (tooDeep : Parser α) := fun _ _ _ _ => .inl ⟨_, rfl⟩

theorem balks_fail {what : Expectation} : Balks (fail what : Parser α) :=
  fun _ _ _ isEnd => .inr ⟨_, rfl, _, Array.mem_push_self, isEnd⟩

theorem balks_expect {kind : Kind} {what : Expectation} (inside : kind ≠ .eof) :
    Balks (expect kind what) := by
  intro before stop c isEnd
  rw [expect_over_of_ne before [] stop c (isEnd ▸ inside.symm)]
  exact balks_fail before stop c isEnd

theorem Balks.bind {p : Parser α} {f : α → Parser β} (balks : Balks p) : Balks (p >>= f) := by
  intro before stop c isEnd
  rw [bind_apply]
  obtain ⟨s, run⟩ | ⟨s, run, complains⟩ := balks before stop c isEnd
  · rw [run]
    exact .inl ⟨s, rfl⟩
  · rw [run]
    exact .inr ⟨s, rfl, complains⟩

theorem Balks.map {p : Parser α} {f : α → β} (balks : Balks p) : Balks (f <$> p) := by
  rw [map_eq_pure_bind]
  exact balks.bind

theorem Balks.look {p : Parser α} {f : α → Parser β} {v : Token → α}
    (looked : ∀ (before : List Token) (stop : Token) (c : Array Complaint), stop.kind = .eof →
      p (.over before [stop] c) = .ok (v stop) (.over before [stop] c))
    (balks : ∀ stop, stop.kind = .eof → Balks (f (v stop))) : Balks (p >>= f) := by
  intro before stop c isEnd
  rw [bind_of_ok (looked before stop c isEnd)]
  exact balks stop isEnd before stop c isEnd

theorem Balks.check {kind : Kind} {f : Bool → Parser β} (inside : kind ≠ .eof)
    (balks : Balks (f false)) : Balks (check kind >>= f) := by
  apply Balks.look (v := fun stop => stop.kind == kind) fun _ _ _ _ => rfl
  intro stop isEnd
  rw [beq_eq_false_iff_ne.mpr (isEnd ▸ inside.symm)]
  exact balks

theorem Balks.atEnd {f : Bool → Parser β} (balks : Balks (f true)) : Balks (atEnd >>= f) := by
  apply Balks.look (v := fun stop => stop.kind == .eof) fun _ _ _ _ => rfl
  intro stop isEnd
  rw [beq_iff_eq.mpr isEnd]
  exact balks

theorem Balks.inStep {p p' : Parser α} {stop : Token} (balks : Balks p) (cut : later ≠ [])
    (isEnd : stop.kind = .eof) : InStep later p p' [stop] l Rest := by
  intro before before' c c'
  obtain ⟨s, run⟩ | ⟨s, run, x, filed, atEnd⟩ := balks before stop c isEnd
  · rw [run]
    exact .tooDeep s _
  · rw [run]
    exact .spoiled _ cut filed atEnd

end Rules

end Jess.Parser
