import Jess.Proofs.LenientLanguages

/-!
# The lenient grammar has every program

A derivation of the grammar becomes one of the lenient grammar when only the
kinds of its tokens are kept: each rule has its counterpart there, with less to
satisfy.
-/

namespace Jess.Grammar.Lenient

open Token (Kind)

def Phrase.of : Grammar.Phrase → Phrase
  | .expression level _ => .expression level
  | .arguments _ => .arguments
  | .items _ => .items

def Part.of : Grammar.Part → Part
  | .statement _ _ _ => .statement
  | .declaration _ _ _ => .declaration
  | .declarations _ _ => .declarations

theorem constant_listed {t : Token} {v : Literal} (constant : Constant t v) :
    t.kind ∈ constants := by
  cases constant <;> simp [constants, *]

theorem derives_kinds {phrase : Grammar.Phrase} {tokens : List Token}
    (derived : Grammar.Derives phrase tokens) :
    Derives (.of phrase) (tokens.map Token.kind) := by
  induction derived with
  | literal constant => exact .literal (constant_listed constant)
  | named kind => simpa [Phrase.of, kind] using Derives.named
  | grouping left _ right ih => simpa [Phrase.of, left, right] using Derives.grouping ih
  | call _ left _ _ right ih given => simpa [Phrase.of, left, right] using Derives.call ih given
  | noArguments => exact .noArguments
  | someArguments _ ih => exact .someArguments ih
  | lastItem _ ih => exact .lastItem ih
  | moreItems _ kind _ ih others => simpa [Phrase.of, kind] using Derives.moreItems ih others
  | unary listed _ ih => exact .unary listed ih
  | operation _ joined _ ih second =>
      obtain ⟨op, stands, ranked, _⟩ := operation_iff.mp joined
      have listed := (Level.mem_infixes_iff _ _).mpr ⟨op, stands, ranked⟩
      simpa [Phrase.of] using Derives.operation ih listed second
  | assign kind sign _ ih =>
      have target : Derives (.expression .or) [.identifier] := Derives.named.loosen .or (by decide)
      simpa [Phrase.of, kind, sign] using Derives.assign target ih
  | tighter _ ih => exact .tighter ih

theorem expression_kinds {e : Expr} {tokens : List Token} (derived : IsExpression e tokens) :
    tokens.map Token.kind ∈ expressions := derives_kinds derived

theorem variable_kinds {s : Stmt} {tokens : List Token} (formed : IsVariable s tokens) :
    tokens.map Token.kind ∈ bindings := by
  cases formed with
  | bare kind semicolon =>
      simp only [List.map_cons, List.map_nil, kind, semicolon]
      exact cons_mem (mem_mul_just.mpr ⟨[], .inl rfl, rfl⟩)
  | initialized kind sign value semicolon =>
      simp only [List.map_append, List.map_cons, List.map_nil, kind, sign, semicolon]
      exact cons_mem (mem_mul_just.mpr ⟨_, .inr (cons_mem (expression_kinds value)), rfl⟩)

theorem names_kinds {params tokens : List Token} (formed : AreNames params tokens) :
    tokens.map Token.kind ∈ names := by
  induction formed with
  | last kind =>
      simp only [List.map_cons, List.map_nil, kind]
      rw [names_eq]
      exact cons_mem (.inl rfl)
  | more kind separator _ ih =>
      simp only [List.map_cons, kind, separator]
      rw [names_eq]
      exact cons_mem (.inr (cons_mem ih))

theorem initializer_kinds {initializer : Option Stmt} {tokens : List Token}
    (formed : IsInitializer initializer tokens) : tokens.map Token.kind ∈ initializers := by
  cases formed with
  | absent semicolon =>
      simp only [List.map_cons, List.map_nil, semicolon]
      exact .inl (.inl rfl)
  | declared kind inner =>
      simp only [List.map_cons, kind]
      exact .inl (.inr (cons_mem (variable_kinds inner)))
  | expression value semicolon =>
      simp only [List.map_append, List.map_cons, List.map_nil, semicolon]
      exact .inr (mem_mul_just.mpr ⟨_, expression_kinds value, rfl⟩)

theorem clause_kinds {clause : Option Expr} {tokens : List Token}
    (formed : IsClause clause tokens) : tokens.map Token.kind ∈ clauses := by
  cases formed with
  | absent => exact .inl rfl
  | present value => exact .inr (expression_kinds value)

theorem forms_kinds {part : Grammar.Part} {tokens : List Token}
    (formed : Grammar.Forms part tokens) :
    Forms (.of part) (tokens.map Token.kind) := by
  induction formed with
  | expression value semicolon =>
      simpa [Part.of, semicolon] using Forms.expression (expression_kinds value)
  | print kind value semicolon =>
      simpa [Part.of, kind, semicolon] using Forms.print (expression_kinds value)
  | giveBack kind semicolon => simpa [Part.of, kind, semicolon] using Forms.giveBack
  | giveBackValue kind value semicolon =>
      simpa [Part.of, kind, semicolon] using Forms.giveBackValue (expression_kinds value)
  | block left _ right ih => simpa [Part.of, left, right] using Forms.block ih
  | ifThen kind left test right _ ih =>
      simpa [Part.of, kind, left, right] using Forms.ifThen (expression_kinds test) ih
  | ifElse kind left test right _ middle _ ih second =>
      simpa [Part.of, kind, left, right, middle] using
        Forms.ifElse (expression_kinds test) ih second
  | loop kind left test right _ ih =>
      simpa [Part.of, kind, left, right] using Forms.loop (expression_kinds test) ih
  | loopWithClauses kind left start test semicolon step right _ _ ih =>
      simpa [Part.of, kind, left, right, semicolon] using
        Forms.loopWithClauses (initializer_kinds start) (clause_kinds test) (clause_kinds step) ih
  | function kind named left params right start _ stop ih =>
      have listed : _ ∈ parameters := params.elim
        (fun none => .inl (by rw [none.2]; rfl)) fun some => .inr (names_kinds some.1)
      simpa [Part.of, kind, named, left, right, start, stop] using Forms.function listed ih
  | declared kind inner => simpa [Part.of, kind] using Forms.declared (variable_kinds inner)
  | statement _ ih => exact .statement ih
  | noDeclarations => exact .noDeclarations
  | moreDeclarations _ _ ih others => simpa [Part.of] using Forms.moreDeclarations ih others

/-- Every program is one of the lenient grammar. -/
theorem isProgram_of_strict {program : List Stmt} {tokens : List Token}
    (formed : Grammar.IsProgram program tokens) : IsProgram tokens := forms_kinds formed

end Jess.Grammar.Lenient
