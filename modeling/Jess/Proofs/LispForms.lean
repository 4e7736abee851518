import Jess.Proofs.Double
import Jess.Proofs.Rewriting
import Jess.Tree.Lisp

/-!
# The Lisp form determines the tree

The Lisp form of an expression is the text of a form: an atom, or a list that
starts with a word and goes on with other forms. An atom is a word or a string
in quotes, and a word ends before a space or a closing parenthesis. So a text
is that of one form only. The form tells the tree: the word that a list starts
with and the number of forms behind it tell the operation, and the first
character of an atom tells what kind of operand it is.
-/

namespace Jess

open Token (Kind IsIdentifier IsNumeral ofName)

/-- What a Lisp text shows: an atom, or a list that starts with a word. -/
inductive LispForm
  | atom (text : List Char)
  | list (head : List Char) (items : List LispForm)

namespace LispForm

mutual

def text : LispForm → List Char
  | atom text => text
  | list head items => '(' :: (head ++ (textAll items ++ [')']))

def textAll : List LispForm → List Char
  | [] => []
  | form :: rest => ' ' :: (form.text ++ textAll rest)

end

/-- The characters of words: all but those that a Lisp text is laid out with. -/
def isPlain (c : Char) : Bool := c != ' ' && c != '(' && c != ')' && c != '"'

structure IsWord (text : List Char) : Prop where
  some : text ≠ []
  plain : ∀ c ∈ text, isPlain c = true

theorem isWord_of_all {text : List Char} (some : text ≠ []) (plain : text.all isPlain = true) :
    IsWord text := ⟨some, List.all_eq_true.mp plain⟩

/-- A word, or anything without a quote between two of them. -/
inductive IsAtom : List Char → Prop
  | word {text : List Char} (word : IsWord text) : IsAtom text
  | string {content : List Char} (plain : '"' ∉ content) : IsAtom ('"' :: (content ++ ['"']))

mutual

def IsProper : LispForm → Prop
  | atom text => IsAtom text
  | list head items => IsWord head ∧ AreProper items

def AreProper : List LispForm → Prop
  | [] => True
  | form :: rest => form.IsProper ∧ AreProper rest

end

def Stops (text : List Char) : Prop := ∀ c, text.head? = some c → c = ' ' ∨ c = ')'

theorem stops_textAll (items : List LispForm) (rest : List Char) :
    Stops (textAll items ++ ')' :: rest) := by
  intro c first
  cases items with
  | nil => exact .inr (Option.some.inj first).symm
  | cons form others => exact .inl (Option.some.inj first).symm

section Reading

variable {a b r s : List Char}

theorem IsWord.split (word : IsWord a) (stops : Stops r) :
    (a ++ r).takeWhile isPlain = a ∧ (a ++ r).dropWhile isPlain = r := by
  rw [List.takeWhile_append_of_pos word.plain, List.dropWhile_append_of_pos word.plain]
  cases r with
  | nil => simp
  | cons c rest =>
      have marked : ¬isPlain c = true := by
        rcases stops c rfl with rfl | rfl <;> decide
      rw [List.takeWhile_cons_of_neg marked, List.dropWhile_cons_of_neg marked]
      simp

theorem IsWord.append_inj (first : IsWord a) (second : IsWord b) (left : Stops r)
    (right : Stops s) (same : a ++ r = b ++ s) : a = b ∧ r = s := by
  obtain ⟨taken, dropped⟩ := first.split left
  obtain ⟨taken', dropped'⟩ := second.split right
  rw [same] at taken dropped
  exact ⟨taken.symm.trans taken', dropped.symm.trans dropped'⟩

theorem IsWord.append_ne (word : IsWord a) {c : Char} (marked : isPlain c = false)
    (rest : List Char) : a ++ r ≠ c :: rest := by
  intro same
  obtain ⟨d, others, rfl⟩ := List.exists_cons_of_ne_nil word.some
  obtain ⟨rfl, _⟩ := List.cons.inj same
  have plain := word.plain d (List.mem_cons_self ..)
  rw [marked] at plain
  cases plain

theorem quoted_inj (first : '"' ∉ a) (second : '"' ∉ b)
    (same : a ++ '"' :: r = b ++ '"' :: s) : a = b ∧ r = s := by
  obtain ⟨taken, dropped⟩ := Token.quoted_split first r
  obtain ⟨taken', dropped'⟩ := Token.quoted_split second s
  rw [same] at taken dropped
  exact ⟨taken.symm.trans taken', (List.cons.inj (dropped.symm.trans dropped')).2⟩

theorem IsAtom.append_inj (first : IsAtom a) (second : IsAtom b) (left : Stops r)
    (right : Stops s) (same : a ++ r = b ++ s) : a = b ∧ r = s := by
  cases first with
  | word word =>
      cases second with
      | word word' => exact word.append_inj word' left right same
      | string _ => exact absurd same (word.append_ne (by decide) _)
  | @string content plain =>
      cases second with
      | word word' => exact absurd same.symm (word'.append_ne (by decide) _)
      | @string content' plain' =>
          have inner : content ++ '"' :: r = content' ++ '"' :: s := by
            simpa using same
          obtain ⟨rfl, rest⟩ := quoted_inj plain plain' inner
          exact ⟨rfl, rest⟩

theorem IsAtom.append_ne (isAtom : IsAtom a) (rest : List Char) : a ++ r ≠ '(' :: rest := by
  cases isAtom with
  | word word => exact word.append_ne (by decide) rest
  | string _ => simp

end Reading

mutual

/-- A text is that of one form only, whatever stops it. -/
theorem text_append_inj {f g : LispForm} {r s : List Char} (first : f.IsProper)
    (second : g.IsProper) (left : Stops r) (right : Stops s)
    (same : f.text ++ r = g.text ++ s) : f = g ∧ r = s := by
  match f, g with
  | .atom a, .atom b =>
      obtain ⟨rfl, rest⟩ := IsAtom.append_inj first second left right same
      exact ⟨rfl, rest⟩
  | .atom a, .list head items => exact absurd same (IsAtom.append_ne first _)
  | .list head items, .atom a => exact absurd same.symm (IsAtom.append_ne second _)
  | .list head items, .list head' items' =>
      have inner : head ++ (textAll items ++ ')' :: r) = head' ++ (textAll items' ++ ')' :: s) := by
        simpa [text] using same
      obtain ⟨rfl, behind⟩ := first.1.append_inj second.1 (stops_textAll items r)
        (stops_textAll items' s) inner
      obtain ⟨rfl, rest⟩ := textAll_append_inj first.2 second.2 behind
      exact ⟨rfl, rest⟩

theorem textAll_append_inj {fs gs : List LispForm} {r s : List Char} (first : AreProper fs)
    (second : AreProper gs) (same : textAll fs ++ ')' :: r = textAll gs ++ ')' :: s) :
    fs = gs ∧ r = s := by
  match fs, gs with
  | [], [] => exact ⟨rfl, (List.cons.inj same).2⟩
  | [], _ :: _ => simp [textAll] at same
  | _ :: _, [] => simp [textAll] at same
  | f :: fs, g :: gs =>
      have inner : f.text ++ (textAll fs ++ ')' :: r) = g.text ++ (textAll gs ++ ')' :: s) := by
        simpa [textAll] using same
      obtain ⟨rfl, behind⟩ := text_append_inj first.1 second.1 (stops_textAll fs r)
        (stops_textAll gs s) inner
      obtain ⟨rfl, rest⟩ := textAll_append_inj first.2 second.2 behind
      exact ⟨rfl, rest⟩

end

theorem text_inj {f g : LispForm} (first : f.IsProper) (second : g.IsProper)
    (same : f.text = g.text) : f = g := by
  have nothing : Stops [] := by
    intro c first
    cases first
  have extended : f.text ++ [] = g.text ++ [] := congrArg (· ++ []) same
  exact (text_append_inj first second nothing nothing extended).1

def operand (text : List Char) : Expr :=
  if text.head? = some '"' then .literal (.string (String.ofList (text.drop 1).dropLast))
  else if text.head? = some '-' then .literal (.number (-Token.numberValue (text.drop 1)))
  else if text.head?.any Char.isDigit then .literal (.number (Token.numberValue text))
  else match Token.Piece.nameKind text with
    | .keyword .kwTrue => .literal (.boolean true)
    | .keyword .kwFalse => .literal (.boolean false)
    | .keyword .kwNil => .literal .nil
    | _ => .variable (ofName (String.ofList text))

/-- The operation with a given head, by the number of its parts where they can differ. -/
def operation? (head : String) : List Expr → Option Expr
  | [] => none
  | callee :: args =>
      if head = "call" then some (.call callee (Token.ofKind (.symbol .rightParen)) args)
      else match args with
        | [] =>
            if head = "group" then some (.grouping callee)
            else (UnaryOp.ofSpelling? head).map fun op =>
              .unary op (Token.ofKind (.symbol op.symbol)) callee
        | [right] =>
            match callee, BinaryOp.ofSpelling? head, LogicalOp.ofSpelling? head with
            | _, some op, _ => some (.binary op (Token.ofKind (.symbol op.symbol)) callee right)
            | _, none, some op =>
                some (.logical op (Token.ofKind (.keyword op.keyword)) callee right)
            | .variable name, none, none => some (.assign name right)
            | _, none, none => none
        | _ => none

mutual

def tree? : LispForm → Option Expr
  | atom text => some (operand text)
  | list head items => (trees? items).bind (operation? (String.ofList head))

def trees? : List LispForm → Option (List Expr)
  | [] => some []
  | form :: rest => form.tree?.bind fun e => (trees? rest).map (e :: ·)

end

theorem tree?_one (head : String) (item : LispForm) :
    (list head.toList [item]).tree? = item.tree?.bind fun e => operation? head [e] := by
  rw [tree?, trees?, trees?, String.ofList_toList]
  cases item.tree? <;> rfl

theorem tree?_two (head : String) (left right : LispForm) :
    (list head.toList [left, right]).tree? =
      left.tree?.bind fun a => right.tree?.bind fun b => operation? head [a, b] := by
  rw [tree?, trees?, trees?, trees?, String.ofList_toList]
  cases left.tree? <;> cases right.tree? <;> rfl

theorem operation?_group (inner : Expr) : operation? "group" [inner] = some (.grouping inner) := rfl

theorem operation?_unary (op : UnaryOp) (operand : Expr) :
    operation? op.spelling [operand] =
      some (.unary op (Token.ofKind (.symbol op.symbol)) operand) := by
  cases op <;> rfl

theorem operation?_binary (op : BinaryOp) (left right : Expr) :
    operation? op.spelling [left, right] =
      some (.binary op (Token.ofKind (.symbol op.symbol)) left right) := by
  cases op <;> rfl

theorem operation?_logical (op : LogicalOp) (left right : Expr) :
    operation? op.spelling [left, right] =
      some (.logical op (Token.ofKind (.keyword op.keyword)) left right) := by
  cases op <;> rfl

theorem operation?_assign (name : Token) (value : Expr) :
    operation? "=" [.variable name, value] = some (.assign name value) := rfl

theorem operation?_call (callee : Expr) (args : List Expr) :
    operation? "call" (callee :: args) =
      some (.call callee (Token.ofKind (.symbol .rightParen)) args) := rfl

theorem isPlain_of_namePart {c : Char} (part : Token.isNamePart c = true) : isPlain c = true := by
  have apart : ∀ d, Token.isNamePart d = false → (c != d) = true := by
    intro d none
    rw [bne_iff_ne]
    rintro rfl
    rw [part] at none
    cases none
  have space := apart ' ' (by decide)
  have opening := apart '(' (by decide)
  have closing := apart ')' (by decide)
  have quote := apart '"' (by decide)
  simp only [isPlain, space, opening, closing, quote, Bool.and_self]

theorem isWord_of_identifier {name : List Char} (identifier : IsIdentifier name) : IsWord name := by
  obtain ⟨⟨c, cs, rfl, starts, parts⟩, _⟩ := identifier
  refine ⟨List.cons_ne_nil c cs, ?_⟩
  intro d member
  rcases List.mem_cons.mp member with rfl | member
  · have part : Token.isNamePart d = true := by
      rcases Bool.or_eq_true_iff.mp starts with letter | underscore
      · simp [Token.isNamePart, Char.isAlphanum, letter]
      · simp [Token.isNamePart, underscore]
    exact isPlain_of_namePart part
  · exact isPlain_of_namePart (parts d member)

theorem isWord_of_numeral {lexeme whole fraction : List Char}
    (numeral : IsNumeral lexeme whole fraction) : IsWord lexeme := by
  obtain ⟨some_, wholeDigits, fractionDigits, spelled⟩ := numeral
  have plain : ∀ c : Char, c.isDigit = true → isPlain c = true := fun c digit =>
    isPlain_of_namePart (Token.namePart_of_digit digit)
  subst spelled
  split
  · exact ⟨some_, fun c member => plain c (wholeDigits c member)⟩
  · refine ⟨List.append_ne_nil_of_left_ne_nil some_ _, ?_⟩
    intro c member
    rcases List.mem_append.mp member with inWhole | behind
    · exact plain c (wholeDigits c inWhole)
    · rcases List.mem_cons.mp behind with rfl | inFraction
      · decide
      · exact plain c (fractionDigits c inFraction)

end LispForm

inductive Number.IsWritten (x : Float) : List Char → Prop
  | plain {digits whole fraction : List Char} (numeral : IsNumeral digits whole fraction)
      (value : Token.numberValue digits = x) : IsWritten x digits
  | signed {digits whole fraction : List Char} (numeral : IsNumeral digits whole fraction)
      (value : -Token.numberValue digits = x) : IsWritten x ('-' :: digits)

theorem Number.text_isWritten {x : Float} (finite : x.isFinite = true) :
    Number.IsWritten x (Number.text x).toList := by
  have small : Binary.code x < Binary.infinityCode := (Binary.status_of_code x).1.mp finite
  have ordered : ¬Binary.infinityCode < Binary.code x := by omega
  have noInfinity : ¬Binary.code x = Binary.infinityCode := by omega
  obtain ⟨whole, fraction, numeral, value⟩ :=
    Number.positional_numeral (Decimal.shortest (Binary.code x))
  rw [Decimal.code_shortest _ (Nat.le_of_lt small)] at value
  simp only [Number.text, Number.spell, if_neg ordered, if_neg noInfinity]
  cases signed : Binary.isNegative x with
  | true =>
      have negated := Binary.neg_ofCode_code x (Nat.le_of_lt small) signed
      rw [← value] at negated
      simpa using Number.IsWritten.signed numeral negated
  | false =>
      have own := Binary.ofCode_code x (Nat.le_of_lt small) signed
      simpa using Number.IsWritten.plain numeral (value.trans own)

namespace LispForm

theorem isWord_of_written {x : Float} {text : List Char} (written : Number.IsWritten x text) :
    IsWord text := by
  cases written with
  | plain numeral _ => exact isWord_of_numeral numeral
  | signed numeral _ =>
      refine ⟨List.cons_ne_nil _ _, ?_⟩
      intro c member
      rcases List.mem_cons.mp member with rfl | member
      · decide
      · exact (isWord_of_numeral numeral).plain c member

theorem operand_of_written {x : Float} {text : List Char} (written : Number.IsWritten x text) :
    operand text = .literal (.number x) := by
  cases written with
  | plain numeral value =>
      obtain ⟨c, cs, rfl, digit⟩ := numeral.starts
      have noQuote : c ≠ '"' := by
        rintro rfl
        cases digit
      have noMinus : c ≠ '-' := by
        rintro rfl
        cases digit
      simp [operand, noQuote, noMinus, digit, value]
  | signed _ value => simp [operand, value]

theorem operand_of_string (s : String) :
    operand ('"' :: (s.toList ++ ['"'])) = .literal (.string s) := by
  simp [operand]

theorem operand_of_identifier {name : String} (identifier : IsIdentifier name.toList) :
    operand name.toList = .variable (ofName name) := by
  obtain ⟨⟨c, cs, text, starts, _⟩, free⟩ := identifier
  have noQuote : c ≠ '"' := by
    rintro rfl
    cases starts
  have noMinus : c ≠ '-' := by
    rintro rfl
    cases starts
  have noDigit := Token.not_digit_of_nameStart starts
  have back : String.ofList (c :: cs) = name := by rw [← text, String.ofList_toList]
  rw [text] at free ⊢
  simp [operand, noQuote, noMinus, noDigit, free, back]

end LispForm

namespace Expr

mutual

/-- Numbers are finite, strings hold no quote, and names are identifiers. -/
def Legible : Expr → Prop
  | .literal (.number x) => x.isFinite = true
  | .literal (.string s) => '"' ∉ s.toList
  | .literal _ => True
  | .grouping inner => inner.Legible
  | .unary _ _ operand => operand.Legible
  | .binary _ _ left right => left.Legible ∧ right.Legible
  | .logical _ _ left right => left.Legible ∧ right.Legible
  | .variable name => IsIdentifier name.lexeme.toList
  | .assign name value => IsIdentifier name.lexeme.toList ∧ value.Legible
  | .call callee _ args => callee.Legible ∧ LegibleAll args

def LegibleAll : List Expr → Prop
  | [] => True
  | arg :: rest => arg.Legible ∧ LegibleAll rest

end

mutual

def lispForm : Expr → LispForm
  | .literal value => .atom value.lisp.toList
  | .grouping inner => .list "group".toList [inner.lispForm]
  | .unary op _ operand => .list op.spelling.toList [operand.lispForm]
  | .binary op _ left right => .list op.spelling.toList [left.lispForm, right.lispForm]
  | .logical op _ left right => .list op.spelling.toList [left.lispForm, right.lispForm]
  | .variable name => .atom name.lexeme.toList
  | .assign name value => .list "=".toList [.atom name.lexeme.toList, value.lispForm]
  | .call callee _ args => .list "call".toList (callee.lispForm :: lispForms args)

def lispForms : List Expr → List LispForm
  | [] => []
  | arg :: rest => arg.lispForm :: lispForms rest

end

mutual

theorem text_lispForm (e : Expr) : e.lispForm.text = e.lisp.toList := by
  match e with
  | .literal value => simp only [lispForm, lisp, LispForm.text]
  | .grouping inner =>
      simp [lispForm, lisp, LispForm.text, LispForm.textAll, text_lispForm inner]
  | .unary op _ operand =>
      simp [lispForm, lisp, LispForm.text, LispForm.textAll, text_lispForm operand]
  | .binary op _ left right | .logical op _ left right =>
      simp [lispForm, lisp, LispForm.text, LispForm.textAll, text_lispForm left,
        text_lispForm right]
  | .variable name => simp only [lispForm, lisp, LispForm.text]
  | .assign name value =>
      simp [lispForm, lisp, LispForm.text, LispForm.textAll, text_lispForm value]
  | .call callee _ args =>
      simp [lispForm, lisp, LispForm.text, LispForm.textAll, text_lispForm callee,
        textAll_lispForms args]

theorem textAll_lispForms (args : List Expr) :
    LispForm.textAll (lispForms args) = (lispArgs args).toList := by
  match args with
  | [] => simp [lispForms, lispArgs, LispForm.textAll]
  | arg :: rest =>
      simp [lispForms, lispArgs, LispForm.textAll, text_lispForm arg, textAll_lispForms rest]

end

theorem lisp_string (s : String) :
    (Literal.lisp (.string s)).toList = '"' :: (s.toList ++ ['"']) := by
  simp [Literal.lisp]

theorem isAtom_lisp {value : Literal} (legible : (literal value).Legible) :
    LispForm.IsAtom value.lisp.toList := by
  cases value with
  | number x => exact .word (LispForm.isWord_of_written (Number.text_isWritten legible))
  | string s =>
      rw [lisp_string]
      exact .string legible
  | boolean b => cases b <;> exact .word (LispForm.isWord_of_all (by decide) (by decide))
  | nil => exact .word (LispForm.isWord_of_all (by decide) (by decide))

theorem operand_lisp {value : Literal} (legible : (literal value).Legible) :
    LispForm.operand value.lisp.toList = .literal value := by
  cases value with
  | number x => exact LispForm.operand_of_written (Number.text_isWritten legible)
  | string s => rw [lisp_string, LispForm.operand_of_string]
  | boolean b => cases b <;> rfl
  | nil => rfl

theorem isWord_unary (op : UnaryOp) : LispForm.IsWord op.spelling.toList := by
  cases op <;> exact LispForm.isWord_of_all (by decide) (by decide)

theorem isWord_binary (op : BinaryOp) : LispForm.IsWord op.spelling.toList := by
  cases op <;> exact LispForm.isWord_of_all (by decide) (by decide)

theorem isWord_logical (op : LogicalOp) : LispForm.IsWord op.spelling.toList := by
  cases op <;> exact LispForm.isWord_of_all (by decide) (by decide)

mutual

theorem isProper_lispForm (e : Expr) (legible : e.Legible) : e.lispForm.IsProper := by
  match e with
  | .literal value => exact isAtom_lisp legible
  | .grouping inner =>
      exact ⟨LispForm.isWord_of_all (by decide) (by decide), isProper_lispForm inner legible,
        trivial⟩
  | .unary op _ operand => exact ⟨isWord_unary op, isProper_lispForm operand legible, trivial⟩
  | .binary op _ left right =>
      exact ⟨isWord_binary op, isProper_lispForm left legible.1,
        isProper_lispForm right legible.2, trivial⟩
  | .logical op _ left right =>
      exact ⟨isWord_logical op, isProper_lispForm left legible.1,
        isProper_lispForm right legible.2, trivial⟩
  | .variable name => exact .word (LispForm.isWord_of_identifier legible)
  | .assign name value =>
      exact ⟨LispForm.isWord_of_all (by decide) (by decide),
        .word (LispForm.isWord_of_identifier legible.1), isProper_lispForm value legible.2, trivial⟩
  | .call callee _ args =>
      exact ⟨LispForm.isWord_of_all (by decide) (by decide), isProper_lispForm callee legible.1,
        areProper_lispForms args legible.2⟩

theorem areProper_lispForms (args : List Expr) (legible : LegibleAll args) :
    LispForm.AreProper (lispForms args) := by
  match args with
  | [] => exact trivial
  | arg :: rest => exact ⟨isProper_lispForm arg legible.1, areProper_lispForms rest legible.2⟩

end

mutual

theorem tree?_lispForm (e : Expr) (legible : e.Legible) :
    e.lispForm.tree? = some (e.rewrite .standard) := by
  match e with
  | .literal value =>
      rw [lispForm, LispForm.tree?, operand_lisp legible]
      cases value <;> rfl
  | .grouping inner =>
      rw [lispForm, LispForm.tree?_one, tree?_lispForm inner legible]
      exact LispForm.operation?_group _
  | .unary op _ operand =>
      rw [lispForm, LispForm.tree?_one, tree?_lispForm operand legible]
      exact LispForm.operation?_unary op _
  | .binary op _ left right =>
      rw [lispForm, LispForm.tree?_two, tree?_lispForm left legible.1,
        tree?_lispForm right legible.2]
      exact LispForm.operation?_binary op _ _
  | .logical op _ left right =>
      rw [lispForm, LispForm.tree?_two, tree?_lispForm left legible.1,
        tree?_lispForm right legible.2]
      exact LispForm.operation?_logical op _ _
  | .variable name =>
      rw [lispForm, LispForm.tree?, LispForm.operand_of_identifier legible]
      rfl
  | .assign name value =>
      rw [lispForm, LispForm.tree?_two, LispForm.tree?,
        LispForm.operand_of_identifier legible.1, tree?_lispForm value legible.2]
      exact LispForm.operation?_assign _ _
  | .call callee _ args =>
      rw [lispForm, LispForm.tree?, LispForm.trees?, tree?_lispForm callee legible.1,
        trees?_lispForms args legible.2]
      exact LispForm.operation?_call _ _

theorem trees?_lispForms (args : List Expr) (legible : LegibleAll args) :
    LispForm.trees? (lispForms args) = some (rewriteAll .standard args) := by
  match args with
  | [] => rfl
  | arg :: rest =>
      rw [lispForms, LispForm.trees?, tree?_lispForm arg legible.1,
        trees?_lispForms rest legible.2]
      rfl

end

/-- Expressions with one Lisp form are one expression, whatever tokens their nodes come with. Where
the tokens are those that the nodes are spelled with, the expressions differ in places only. -/
theorem lisp_determines (a b : Expr) (first : a.Legible) (second : b.Legible)
    (same : a.lisp = b.lisp) :
    a.rewrite .standard = b.rewrite .standard ∧
      (a.rewrite .standard = a.placeless → b.rewrite .standard = b.placeless →
        a.placeless = b.placeless) := by
  have texts : a.lispForm.text = b.lispForm.text := by
    rw [text_lispForm, text_lispForm, same]
  have forms : a.lispForm = b.lispForm :=
    LispForm.text_inj (isProper_lispForm a first) (isProper_lispForm b second) texts
  have trees : a.rewrite .standard = b.rewrite .standard := by
    have shown := tree?_lispForm a first
    rw [forms, tree?_lispForm b second] at shown
    exact (Option.some.inj shown).symm
  exact ⟨trees, fun spelled spelled' => spelled.symm.trans (trees.trans spelled')⟩

/-- A call on one line, of a variable with the name of a head, with a string that looks like the end
of one list and the start of another, and with a number below zero. -/
private def callOfGroup (line : Nat) : Expr :=
  .call (.variable (.unplaced .identifier "group" line)) (.unplaced (.symbol .rightParen) ")" line)
    [.literal (.string ") (call"), .literal (.number (-Number.read 25 1))]

theorem lisp_determines_call :
    (callOfGroup 1).lisp = (callOfGroup 2).lisp ∧
      (callOfGroup 1).placeless = (callOfGroup 2).placeless := by
  have legible : ∀ line, (callOfGroup line).Legible := by
    intro line
    have finite : (-Number.read 25 1).isFinite = true :=
      (Binary.status_of_code _).1.mpr (by decide +kernel)
    exact ⟨(by decide : IsIdentifier "group".toList), (by decide : '"' ∉ ") (call".toList), finite,
      trivial⟩
  have name : ofName "group" = .unplaced .identifier "group" 0 := by decide
  have paren : Token.ofKind (.symbol .rightParen) = .unplaced (.symbol .rightParen) ")" 0 := by
    decide
  have spelled : ∀ line, (callOfGroup line).rewrite .standard = (callOfGroup line).placeless := by
    intro line
    simp only [callOfGroup, rewrite, rewriteAll, Rewriting.standard, Rewriting.placing,
      Token.unplaced]
    rw [name, paren]
    rfl
  have same : (callOfGroup 1).lisp = (callOfGroup 2).lisp := rfl
  exact ⟨same, (lisp_determines _ _ (legible 1) (legible 2) same).2 (spelled 1) (spelled 2)⟩

end Expr

end Jess
