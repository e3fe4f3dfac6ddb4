import LoxLang.Proofs.Number.Texts
import LoxLang.Proofs.Tree.Forms
import LoxLang.Proofs.Grammar.Lexemes

namespace LoxLang

open Printed Grammar

mutual

def Expr.form : Expr → Form
  | .literal value => .word value.render
  | .group inner => .node [.word "group", inner.form]
  | .unary operator operand => .node [.word operator.lexeme, operand.form]
  | .binary left operator right => .node [.word operator.lexeme, left.form, right.form]
  | .logical left operator right => .node [.word operator.lexeme, left.form, right.form]
  | .ternary condition thenBranch elseBranch =>
    .node [.word "?:", condition.form, thenBranch.form, elseBranch.form]
  | .variable _ name => .word name.lexeme
  | .assign _ name value => .node [.word "=", .word name.lexeme, value.form]
  | .this _ _ => .word "this"
  | .call callee _ arguments => .node (.word "call" :: callee.form :: Expr.formAll arguments)
  | .get object name => .node [.word ".", object.form, .word name.lexeme]
  | .set object name value =>
    .node [.word "=", .node [.word ".", object.form, .word name.lexeme], value.form]

def Expr.formAll : List Expr → List Form
  | [] => []
  | e :: es => e.form :: Expr.formAll es

end

def Printed.Form.ofNames (names : List Token) : List Form := names.map fun name => .word name.lexeme

mutual

def Stmt.form : Stmt → Form
  | .expression value => .node [.word ";", value.form]
  | .print value => .node [.word "print", value.form]
  | .var name none => .node [.word "var", .word name.lexeme]
  | .var name (some value) => .node [.word "var", .word name.lexeme, value.form]
  | .block body => .node (.word "block" :: Stmt.formAll body)
  | .branch condition thenBranch none => .node [.word "if", condition.form, thenBranch.form]
  | .branch condition thenBranch (some elseBranch) =>
    .node [.word "if-else", condition.form, thenBranch.form, elseBranch.form]
  | .loop condition body => .node [.word "while", condition.form, body.form]
  | .break _ => .node [.word "break"]
  | .return _ none => .node [.word "return"]
  | .return _ (some value) => .node [.word "return", value.form]
  | .function declaration => .node (.word "fun" :: declaration.parts)
  | .class name methods => .node (.word "class" :: .word name.lexeme :: Function.formAll methods)

def Stmt.formAll : List Stmt → List Form
  | [] => []
  | s :: ss => s.form :: Stmt.formAll ss

/-- What follows the head: the name, the parameters and the statements of the body. -/
def Function.parts : Function → List Form
  | .mk name parameters body => .word name.lexeme :: .node (Form.ofNames parameters) :: Stmt.formAll body

def Function.formAll : List Function → List Form
  | [] => []
  | f :: fs => .node (.word "method" :: f.parts) :: Function.formAll fs

end

/-- The token that a word is, on no line. -/
def Token.ofWord (word : String) : Token where
  kind :=
    match word.toList with
    | [] => .finish
    | c :: cs =>
      match (Piece.first c cs).1.form with
      | .token kind => kind
      | _ => .finish
  lexeme := word
  line := 0

def Expr.ofWord (word : String) : Expr :=
  match Parse.literal? (Token.ofWord word) with
  | some value => .literal value
  | none => if word = "this" then .this 0 (Token.ofWord word) else .variable 0 (Token.ofWord word)

/-- A node with its head and its other parts. -/
def Expr.ofParts? : String → List Expr → Option Expr
  | "group", [inner] => some (.group inner)
  | "?:", [condition, thenBranch, elseBranch] => some (.ternary condition thenBranch elseBranch)
  | "=", [.variable _ name, value] => some (.assign 0 name value)
  | "=", [.get object name, value] => some (.set object name value)
  | ".", [object, .variable _ name] => some (.get object name)
  | "call", callee :: arguments => some (.call callee (Token.ofWord ")") arguments)
  | operator, [operand] => some (.unary (Token.ofWord operator) operand)
  | operator, [left, right] =>
    if (Token.ofWord operator).kind ∈ logicalKinds then some (.logical left (Token.ofWord operator) right)
    else some (.binary left (Token.ofWord operator) right)
  | _, _ => none

mutual

def Printed.Form.expr? : Form → Option Expr
  | .word text => some (Expr.ofWord text)
  | .node (.word head :: parts) => (Form.exprs? parts).bind (Expr.ofParts? head)
  | .node _ => none

def Printed.Form.exprs? : List Form → Option (List Expr)
  | [] => some []
  | f :: fs => do
    let e ← f.expr?
    let es ← Form.exprs? fs
    pure (e :: es)

end

def Printed.Form.token? : Form → Option Token
  | .word text => some (Token.ofWord text)
  | .node _ => none

mutual

def Printed.Form.stmt? : Form → Option Stmt
  | .node [.word ";", value] => .expression <$> value.expr?
  | .node [.word "print", value] => .print <$> value.expr?
  | .node [.word "var", .word name] => some (.var (Token.ofWord name) none)
  | .node [.word "var", .word name, value] => (.var (Token.ofWord name) ∘ some) <$> value.expr?
  | .node (.word "block" :: body) => .block <$> Form.stmts? body
  | .node [.word "if", condition, thenBranch] => do
    let c ← condition.expr?
    let a ← thenBranch.stmt?
    pure (.branch c a none)
  | .node [.word "if-else", condition, thenBranch, elseBranch] => do
    let c ← condition.expr?
    let a ← thenBranch.stmt?
    let b ← elseBranch.stmt?
    pure (.branch c a (some b))
  | .node [.word "while", condition, body] => do
    let c ← condition.expr?
    let b ← body.stmt?
    pure (.loop c b)
  | .node [.word "break"] => some (.break (Token.ofWord "break"))
  | .node [.word "return"] => some (.return (Token.ofWord "return") none)
  | .node [.word "return", value] => (.return (Token.ofWord "return") ∘ some) <$> value.expr?
  | .node (.word "fun" :: parts) => .function <$> Form.function? parts
  | .node (.word "class" :: .word name :: methods) => .class (Token.ofWord name) <$> Form.methods? methods
  | _ => none

def Printed.Form.stmts? : List Form → Option (List Stmt)
  | [] => some []
  | f :: fs => do
    let s ← f.stmt?
    let ss ← Form.stmts? fs
    pure (s :: ss)

def Printed.Form.function? : List Form → Option Function
  | .word name :: .node parameters :: body =>
    .mk (Token.ofWord name) (parameters.filterMap Form.token?) <$> Form.stmts? body
  | _ => none

def Printed.Form.methods? : List Form → Option (List Function)
  | [] => some []
  | .node (.word "method" :: parts) :: fs => do
    let f ← Form.function? parts
    let fs ← Form.methods? fs
    pure (f :: fs)
  | _ => none

end

/-- The statement that a printed tree shows. -/
def Stmt.ofText? (text : String) : Option Stmt := (Form.ofText? text).bind Form.stmt?

/-- A literal whose text is its own: no string, and a number that is not too large. -/
def Literal.Readable : Literal → Prop
  | number value => value.isFinite = true
  | string _ => False
  | _ => True

mutual

def Expr.literals : Expr → List Literal
  | .literal value => [value]
  | .group inner => inner.literals
  | .unary _ operand => operand.literals
  | .binary left _ right => left.literals ++ right.literals
  | .logical left _ right => left.literals ++ right.literals
  | .ternary condition thenBranch elseBranch =>
    condition.literals ++ thenBranch.literals ++ elseBranch.literals
  | .variable _ _ => []
  | .assign _ _ value => value.literals
  | .this _ _ => []
  | .call callee _ arguments => callee.literals ++ Expr.literalsAll arguments
  | .get object _ => object.literals
  | .set object _ value => object.literals ++ value.literals

def Expr.literalsAll : List Expr → List Literal
  | [] => []
  | e :: es => e.literals ++ Expr.literalsAll es

end

mutual

def Stmt.literals : Stmt → List Literal
  | .expression value => value.literals
  | .print value => value.literals
  | .var _ initializer => Expr.literalsAll initializer.toList
  | .block body => Stmt.literalsAll body
  | .branch condition thenBranch none => condition.literals ++ thenBranch.literals
  | .branch condition thenBranch (some elseBranch) =>
    condition.literals ++ thenBranch.literals ++ elseBranch.literals
  | .loop condition body => condition.literals ++ body.literals
  | .break _ => []
  | .return _ value => Expr.literalsAll value.toList
  | .function declaration => declaration.literals
  | .class _ methods => Function.literalsAll methods

def Stmt.literalsAll : List Stmt → List Literal
  | [] => []
  | s :: ss => s.literals ++ Stmt.literalsAll ss

def Function.literals : Function → List Literal
  | .mk _ _ body => Stmt.literalsAll body

def Function.literalsAll : List Function → List Literal
  | [] => []
  | f :: fs => f.literals ++ Function.literalsAll fs

end

/-- Without lines and identities. -/
abbrev Expr.bare : Expr → Expr := Expr.relabel (fun _ => 0) fun _ => 0

abbrev Expr.bareAll : List Expr → List Expr := Expr.relabelAll (fun _ => 0) fun _ => 0

abbrev Stmt.bare : Stmt → Stmt := Stmt.relabel (fun _ => 0) fun _ => 0

abbrev Stmt.bareAll : List Stmt → List Stmt := Stmt.relabelAll (fun _ => 0) fun _ => 0

abbrev Function.bare : Function → Function := Function.relabel (fun _ => 0) fun _ => 0

abbrev Function.bareAll : List Function → List Function := Function.relabelAll (fun _ => 0) fun _ => 0

/-- Tokens of these kinds are printed as words of their own. -/
def Token.Kind.isWord : Token.Kind → Bool
  | mark m => m != .leftParen && m != .rightParen
  | string _ => false
  | finish => false
  | _ => true

/-- The only text that tokens of a kind have. -/
def Token.Kind.fixed? : Token.Kind → Option String
  | mark m => some m.text
  | keyword k => some k.word
  | _ => none

namespace Lexeme

variable {l : List Char} {k : Token.Kind}

theorem isPlain_of_isDigit {c : Char} (h : c.isDigit) : isPlain c := by
  simp only [isPlain, Bool.not_eq_true', Bool.or_eq_false_iff, beq_eq_false_iff_ne]
  refine ⟨⟨?_, ?_⟩, ?_⟩ <;> rintro rfl <;> exact absurd h (by decide)

theorem isPlain_of_isWordPart {c : Char} (h : Piece.isWordPart c) : isPlain c := by
  simp only [isPlain, Bool.not_eq_true', Bool.or_eq_false_iff, beq_eq_false_iff_ne]
  refine ⟨⟨?_, ?_⟩, ?_⟩ <;> rintro rfl <;> exact absurd h (by decide)

/-- A lexeme that is printed has no blanks and no parentheses. -/
theorem all_isPlain (h : Lexeme l k) (hk : k.isWord) : l.all isPlain = true := by
  cases h with
  | mark m => cases m <;> first | (exact absurd hk (by decide)) | decide
  | string => cases hk
  | whole _ hd _ => exact List.all_eq_true.mpr fun c hc => isPlain_of_isDigit (hd c hc)
  | fraction _ hd _ hd' _ =>
    have hpoint : Printed.isPlain '.' = true := rfl
    rw [List.all_append, List.all_cons, hpoint, Bool.true_and, Bool.and_eq_true]
    exact ⟨List.all_eq_true.mpr fun c hc => isPlain_of_isDigit (hd c hc),
      List.all_eq_true.mpr fun c hc => isPlain_of_isDigit (hd' c hc)⟩
  | keyword k => cases k <;> decide
  | @identifier c cs hc hcs _ =>
    have hstart : Piece.isWordPart c := by
      simp only [Piece.isWordStart, Bool.or_eq_true] at hc
      simp only [Piece.isWordPart, Char.isAlphanum, Bool.or_eq_true]
      exact hc.imp_left .inl
    rw [List.all_cons, isPlain_of_isWordPart hstart, Bool.true_and]
    exact List.all_eq_true.mpr fun d hd => isPlain_of_isWordPart (hcs d hd)

theorem of_fixed {text : String} (h : Lexeme l k) (hk : k.fixed? = some text) : l = text.toList := by
  cases h with
  | mark m => cases hk; rfl
  | keyword k => cases hk; rfl
  | _ => cases hk

end Lexeme

namespace Token

variable {t : Token} {kinds : List Token.Kind}

theorem ofWord_of_lexeme {word : String} {k : Token.Kind} (h : Lexeme word.toList k) : ofWord word = ⟨k, word, 0⟩ := by
  obtain ⟨c, cs, hcs, hfirst⟩ := h.first_eq
  simp [ofWord, hcs, hfirst]

theorem Among.ofWord (h : t.Among kinds) : ofWord t.lexeme = t.relined fun _ => 0 := ofWord_of_lexeme h.2

theorem shows_lexeme {word : String} {k : Token.Kind} (h : Lexeme word.toList k) (hk : k.isWord) :
    Shows word (.word word) := .word h.ne_nil (h.all_isPlain hk)

theorem Among.shows (h : t.Among kinds) (hkinds : ∀ k ∈ kinds, k.isWord) : Shows t.lexeme (.word t.lexeme) :=
  shows_lexeme h.2 (hkinds _ h.1)

theorem Among.lexeme_eq {text : String} (h : t.Among kinds) (hk : t.kind.fixed? = some text) : t.lexeme = text :=
  String.toList_inj.mp (h.2.of_fixed hk)

/-- A token that a printed tree does not show is the only one of its kind. -/
theorem Among.of_fixed {k : Kind} {text : String} (h : t.Among [k]) (hk : k.fixed? = some text) :
    t.relined (fun _ => 0) = Token.ofWord text := by
  have hkind := List.mem_singleton.mp h.1
  rw [← h.ofWord, h.lexeme_eq (hkind ▸ hk)]

end Token

/-- The heads of many nodes are keywords. -/
theorem shows_keyword (k : Keyword) : Shows k.word (.word k.word) := Token.shows_lexeme (.keyword k) rfl

/-- The text of a literal is a lexeme that is read as this literal. -/
theorem literal_lexeme {value : Literal} (h : value.Genuine) (hr : value.Readable) :
    ∃ k, k.isWord = true ∧ Lexeme value.render.toList k ∧
      ∀ t : Token, t.kind = k → Parse.literal? t = some value := by
  cases value with
  | number x =>
    refine ⟨.number x, rfl, ?_, fun t ht => by simp [Parse.literal?, ht]⟩
    simpa [Literal.render] using Number.treeText_lexeme hr h
  | string text => exact hr.elim
  | bool b =>
    cases b with
    | false => exact ⟨.keyword .false_, rfl, .keyword .false_, fun t ht => by simp [Parse.literal?, ht]⟩
    | true => exact ⟨.keyword .true_, rfl, .keyword .true_, fun t ht => by simp [Parse.literal?, ht]⟩
  | nil => exact ⟨.keyword .nil_, rfl, .keyword .nil_, fun t ht => by simp [Parse.literal?, ht]⟩

theorem literal_shows {value : Literal} (h : value.Genuine) (hr : value.Readable) :
    Shows value.render (.word value.render) := by
  obtain ⟨k, hk, hlexeme, -⟩ := literal_lexeme h hr
  exact Token.shows_lexeme hlexeme hk

theorem literal_readBack {value : Literal} (h : value.Genuine) (hr : value.Readable) :
    Expr.ofWord value.render = .literal value := by
  obtain ⟨k, -, hlexeme, hread⟩ := literal_lexeme h hr
  have hkind : (Token.ofWord value.render).kind = k := by rw [Token.ofWord_of_lexeme hlexeme]
  simp [Expr.ofWord, hread _ hkind]

/-- A name that stands for itself is a variable. -/
theorem name_readBack {name : Token} (h : name.Among [.identifier]) :
    Expr.ofWord name.lexeme = .variable 0 (name.relined fun _ => 0) := by
  have hkind := List.mem_singleton.mp h.1
  have hne : name.lexeme ≠ "this" := by
    intro hthis
    have hlexeme := h.2
    rw [hthis, hkind] at hlexeme
    cases hlexeme.kind_unique (.keyword .this_)
  simp [Expr.ofWord, h.ofWord, Parse.literal?, hkind, hne]

theorem name_shows {name : Token} (h : name.Among [.identifier]) : Shows name.lexeme (.word name.lexeme) :=
  h.shows (by decide)

mutual

theorem expr_shows : ∀ e : Expr, e.Genuine → (∀ l ∈ e.literals, l.Readable) → Shows e.render e.form
  | .literal value, h, hr => literal_shows h (hr value (by simp [Expr.literals]))
  | .group inner, h, hr => .node (.cons (.word (by decide) rfl) (.cons (expr_shows inner h hr) .nil))
  | .unary _ operand, h, hr => .node (.cons (h.1.shows (by decide)) (.cons (expr_shows operand h.2 hr) .nil))
  | .binary left _ right, h, hr => by
    simp only [Expr.literals, List.mem_append, or_imp, forall_and] at hr
    exact .node (.cons (h.2.1.shows (by decide)) (.cons (expr_shows left h.1 hr.1)
      (.cons (expr_shows right h.2.2 hr.2) .nil)))
  | .logical left _ right, h, hr => by
    simp only [Expr.literals, List.mem_append, or_imp, forall_and] at hr
    exact .node (.cons (h.2.1.shows (by decide)) (.cons (expr_shows left h.1 hr.1)
      (.cons (expr_shows right h.2.2 hr.2) .nil)))
  | .ternary condition thenBranch elseBranch, h, hr => by
    simp only [Expr.literals, List.mem_append, or_imp, forall_and] at hr
    exact .node (.cons (.word (by decide) rfl) (.cons (expr_shows condition h.1 hr.1.1)
      (.cons (expr_shows thenBranch h.2.1 hr.1.2) (.cons (expr_shows elseBranch h.2.2 hr.2) .nil))))
  | .variable _ _, h, _ => name_shows h
  | .assign _ _ value, h, hr =>
    .node (.cons (.word (by decide) rfl) (.cons (name_shows h.1) (.cons (expr_shows value h.2 hr) .nil)))
  | .this _ _, _, _ => shows_keyword .this_
  | .call callee _ arguments, h, hr => by
    simp only [Expr.literals, List.mem_append, or_imp, forall_and] at hr
    exact .node (.cons (.word (by decide) rfl) (.cons (expr_shows callee h.1 hr.1)
      (exprs_show arguments h.2.2 hr.2)))
  | .get object _, h, hr =>
    .node (.cons (.word (by decide) rfl) (.cons (expr_shows object h.1 hr) (.cons (name_shows h.2) .nil)))
  | .set object _ value, h, hr => by
    simp only [Expr.literals, List.mem_append, or_imp, forall_and] at hr
    have hdot : Shows "." (.word ".") := .word (by decide) rfl
    have hget : Shows _ _ := .node (.cons hdot (.cons (expr_shows object h.1 hr.1) (.cons (name_shows h.2.1) .nil)))
    exact .node (.cons (.word (by decide) rfl) (.cons hget (.cons (expr_shows value h.2.2 hr.2) .nil)))

theorem exprs_show : ∀ es : List Expr, Expr.GenuineAll es → (∀ l ∈ Expr.literalsAll es, l.Readable) →
    List.Forall₂ Shows (Expr.renderAll es) (Expr.formAll es)
  | [], _, _ => .nil
  | e :: es, h, hr => by
    simp only [Expr.literalsAll, List.mem_append, or_imp, forall_and] at hr
    exact .cons (expr_shows e h.1 hr.1) (exprs_show es h.2 hr.2)

end

/-- An operator is read back where each text that it can have is. -/
theorem ofParts?_operator {kinds : List Token.Kind} {operator : Token} (h : operator.Among kinds) {parts : List Expr}
    (whole : Token → Expr) (hparts : ∀ k ∈ kinds, ∃ text, k.fixed? = some text ∧
      Expr.ofParts? text parts = some (whole (Token.ofWord text))) :
    Expr.ofParts? operator.lexeme parts = some (whole (operator.relined fun _ => 0)) := by
  obtain ⟨text, hfixed, hread⟩ := hparts _ h.1
  rw [← h.ofWord, h.lexeme_eq hfixed, hread]

theorem ofParts?_unary {operator : Token} (h : operator.Among unaryKinds) (operand : Expr) :
    Expr.ofParts? operator.lexeme [operand] = some (.unary (operator.relined fun _ => 0) operand) := by
  refine ofParts?_operator h (fun t => .unary t operand) ?_
  simp only [unaryKinds, List.forall_mem_cons]
  exact ⟨⟨_, rfl, rfl⟩, ⟨_, rfl, rfl⟩, by simp⟩

theorem ofParts?_binary {operator : Token} (h : operator.Among binaryKinds) (left right : Expr) :
    Expr.ofParts? operator.lexeme [left, right] = some (.binary left (operator.relined fun _ => 0) right) := by
  refine ofParts?_operator h (fun t => .binary left t right) ?_
  simp only [binaryKinds, List.forall_mem_cons]
  exact ⟨⟨_, rfl, rfl⟩, ⟨_, rfl, rfl⟩, ⟨_, rfl, rfl⟩, ⟨_, rfl, rfl⟩, ⟨_, rfl, rfl⟩, ⟨_, rfl, rfl⟩, ⟨_, rfl, rfl⟩,
    ⟨_, rfl, rfl⟩, ⟨_, rfl, rfl⟩, ⟨_, rfl, rfl⟩, by simp⟩

theorem ofParts?_logical {operator : Token} (h : operator.Among logicalKinds) (left right : Expr) :
    Expr.ofParts? operator.lexeme [left, right] = some (.logical left (operator.relined fun _ => 0) right) := by
  refine ofParts?_operator h (fun t => .logical left t right) ?_
  simp only [logicalKinds, List.forall_mem_cons]
  exact ⟨⟨_, rfl, rfl⟩, ⟨_, rfl, rfl⟩, by simp⟩

mutual

/-- The form of an expression is read back as this expression. -/
theorem expr_readBack : ∀ e : Expr, e.Genuine → (∀ l ∈ e.literals, l.Readable) → e.form.expr? = some e.bare
  | .literal value, h, hr => by
    simp [Expr.form, Form.expr?, literal_readBack h (hr value (by simp [Expr.literals])), Expr.relabel]
  | .group inner, h, hr => by
    simp [Expr.form, Form.expr?, Form.exprs?, expr_readBack inner h hr, Expr.ofParts?, Expr.relabel]
  | .unary operator operand, h, hr => by
    simp [Expr.form, Form.expr?, Form.exprs?, expr_readBack operand h.2 hr, ofParts?_unary h.1, Expr.relabel]
  | .binary left operator right, h, hr => by
    simp only [Expr.literals, List.mem_append, or_imp, forall_and] at hr
    simp [Expr.form, Form.expr?, Form.exprs?, expr_readBack left h.1 hr.1, expr_readBack right h.2.2 hr.2,
      ofParts?_binary h.2.1, Expr.relabel]
  | .logical left operator right, h, hr => by
    simp only [Expr.literals, List.mem_append, or_imp, forall_and] at hr
    simp [Expr.form, Form.expr?, Form.exprs?, expr_readBack left h.1 hr.1, expr_readBack right h.2.2 hr.2,
      ofParts?_logical h.2.1, Expr.relabel]
  | .ternary condition thenBranch elseBranch, h, hr => by
    simp only [Expr.literals, List.mem_append, or_imp, forall_and] at hr
    simp [Expr.form, Form.expr?, Form.exprs?, expr_readBack condition h.1 hr.1.1,
      expr_readBack thenBranch h.2.1 hr.1.2, expr_readBack elseBranch h.2.2 hr.2, Expr.ofParts?, Expr.relabel]
  | .variable _ name, h, _ => by simp [Expr.form, Form.expr?, name_readBack h, Expr.relabel]
  | .assign _ name value, h, hr => by
    simp [Expr.form, Form.expr?, Form.exprs?, name_readBack h.1, expr_readBack value h.2 hr, Expr.ofParts?,
      Expr.relabel]
  | .this _ keyword, h, _ => by
    have hkeyword : Expr.ofWord "this" = .this 0 (Token.ofWord "this") := rfl
    have hword : keyword.relined (fun _ => 0) = Token.ofWord "this" := h.of_fixed rfl
    simp [Expr.form, Form.expr?, hkeyword, hword, Expr.relabel]
  | .call callee paren arguments, h, hr => by
    simp only [Expr.literals, List.mem_append, or_imp, forall_and] at hr
    have hparen : paren.relined (fun _ => 0) = Token.ofWord ")" := h.2.1.of_fixed rfl
    simp [Expr.form, Form.expr?, Form.exprs?, expr_readBack callee h.1 hr.1, exprs_readBack arguments h.2.2 hr.2,
      Expr.ofParts?, hparen, Expr.relabel]
  | .get object name, h, hr => by
    simp [Expr.form, Form.expr?, Form.exprs?, name_readBack h.2, expr_readBack object h.1 hr, Expr.ofParts?,
      Expr.relabel]
  | .set object name value, h, hr => by
    simp only [Expr.literals, List.mem_append, or_imp, forall_and] at hr
    simp [Expr.form, Form.expr?, Form.exprs?, expr_readBack object h.1 hr.1, name_readBack h.2.1,
      expr_readBack value h.2.2 hr.2, Expr.ofParts?, Expr.relabel]

theorem exprs_readBack : ∀ es : List Expr, Expr.GenuineAll es → (∀ l ∈ Expr.literalsAll es, l.Readable) →
    Form.exprs? (Expr.formAll es) = some (Expr.bareAll es)
  | [], _, _ => rfl
  | e :: es, h, hr => by
    simp only [Expr.literalsAll, List.mem_append, or_imp, forall_and] at hr
    simp [Expr.formAll, Form.exprs?, expr_readBack e h.1 hr.1, exprs_readBack es h.2 hr.2, Expr.relabelAll]

end

theorem names_show {names : List Token} (h : ∀ p ∈ names, p.Among [.identifier]) :
    List.Forall₂ Shows (names.map Token.lexeme) (Form.ofNames names) := by
  induction names with
  | nil => exact .nil
  | cons p names ih =>
    rw [List.forall_mem_cons] at h
    exact .cons (name_shows h.1) (ih h.2)

theorem names_readBack {names : List Token} (h : ∀ p ∈ names, p.Among [.identifier]) :
    (Form.ofNames names).filterMap Form.token? = names.map (Token.relined fun _ => 0) := by
  induction names with
  | nil => rfl
  | cons p names ih =>
    rw [List.forall_mem_cons] at h
    have hrest := ih h.2
    simp_all [Form.ofNames, Form.token?, h.1.ofWord]

/-- What is known of the literals of an optional expression. -/
theorem readable_of_some {e : Expr} (h : ∀ l ∈ Expr.literalsAll (some e).toList, l.Readable) :
    ∀ l ∈ e.literals, l.Readable := by
  simpa [Expr.literalsAll] using h

mutual

theorem stmt_shows : ∀ s : Stmt, s.Genuine → (∀ l ∈ s.literals, l.Readable) → Shows s.render s.form
  | .expression value, h, hr => .node (.cons (.word (by decide) rfl) (.cons (expr_shows value h hr) .nil))
  | .print value, h, hr => .node (.cons (.word (by decide) rfl) (.cons (expr_shows value h hr) .nil))
  | .var name none, h, _ => .node (.cons (.word (by decide) rfl) (.cons (name_shows h.1) .nil))
  | .var name (some value), h, hr =>
    .node (.cons (.word (by decide) rfl) (.cons (name_shows h.1)
      (.cons (expr_shows value (h.2 value rfl) (readable_of_some hr)) .nil)))
  | .block body, h, hr => .node (.cons (.word (by decide) rfl) (stmts_show body h hr))
  | .branch condition thenBranch none, h, hr => by
    simp only [Stmt.literals, List.mem_append, or_imp, forall_and] at hr
    exact .node (.cons (.word (by decide) rfl) (.cons (expr_shows condition h.1 hr.1)
      (.cons (stmt_shows thenBranch h.2 hr.2) .nil)))
  | .branch condition thenBranch (some elseBranch), h, hr => by
    simp only [Stmt.literals, List.mem_append, or_imp, forall_and] at hr
    exact .node (.cons (.word (by decide) rfl) (.cons (expr_shows condition h.1 hr.1.1)
      (.cons (stmt_shows thenBranch h.2.1 hr.1.2) (.cons (stmt_shows elseBranch h.2.2 hr.2) .nil))))
  | .loop condition body, h, hr => by
    simp only [Stmt.literals, List.mem_append, or_imp, forall_and] at hr
    exact .node (.cons (.word (by decide) rfl) (.cons (expr_shows condition h.1 hr.1)
      (.cons (stmt_shows body h.2 hr.2) .nil)))
  | .break _, _, _ => .node (.cons (.word (by decide) rfl) .nil)
  | .return _ none, _, _ => .node (.cons (.word (by decide) rfl) .nil)
  | .return _ (some value), h, hr =>
    .node (.cons (.word (by decide) rfl) (.cons (expr_shows value (h.2 value rfl) (readable_of_some hr)) .nil))
  | .function declaration, h, hr => function_shows declaration h hr "fun" (.word (by decide) rfl)
  | .class name methods, h, hr =>
    .node (.cons (.word (by decide) rfl) (.cons (name_shows h.1) (methods_show methods h.2 hr)))

theorem stmts_show : ∀ ss : List Stmt, Stmt.GenuineAll ss → (∀ l ∈ Stmt.literalsAll ss, l.Readable) →
    List.Forall₂ Shows (Stmt.renderAll ss) (Stmt.formAll ss)
  | [], _, _ => .nil
  | s :: ss, h, hr => by
    simp only [Stmt.literalsAll, List.mem_append, or_imp, forall_and] at hr
    exact .cons (stmt_shows s h.1 hr.1) (stmts_show ss h.2 hr.2)

theorem function_shows : ∀ f : Function, f.Genuine → (∀ l ∈ f.literals, l.Readable) → ∀ head,
    Shows head (.word head) → Shows (f.render head) (.node (.word head :: f.parts))
  | .mk _ _ body, h, hr, _, hhead => .callable hhead (name_shows h.1) (names_show h.2.1) (stmts_show body h.2.2 hr)

theorem methods_show : ∀ fs : List Function, Function.GenuineAll fs → (∀ l ∈ Function.literalsAll fs, l.Readable) →
    List.Forall₂ Shows (Function.renderAll fs) (Function.formAll fs)
  | [], _, _ => .nil
  | f :: fs, h, hr => by
    simp only [Function.literalsAll, List.mem_append, or_imp, forall_and] at hr
    exact .cons (function_shows f h.1 hr.1 "method" (.word (by decide) rfl)) (methods_show fs h.2 hr.2)

end

mutual

/-- The form of a statement is read back as this statement. -/
theorem stmt_readBack : ∀ s : Stmt, s.Genuine → (∀ l ∈ s.literals, l.Readable) → s.form.stmt? = some s.bare
  | .expression value, h, hr => by simp [Stmt.form, Form.stmt?, expr_readBack value h hr, Stmt.relabel]
  | .print value, h, hr => by simp [Stmt.form, Form.stmt?, expr_readBack value h hr, Stmt.relabel]
  | .var name none, h, _ => by simp [Stmt.form, Form.stmt?, h.1.ofWord, Stmt.relabel]
  | .var name (some value), h, hr => by
    simp [Stmt.form, Form.stmt?, h.1.ofWord, expr_readBack value (h.2 value rfl) (readable_of_some hr), Stmt.relabel]
  | .block body, h, hr => by simp [Stmt.form, Form.stmt?, stmts_readBack body h hr, Stmt.relabel]
  | .branch condition thenBranch none, h, hr => by
    simp only [Stmt.literals, List.mem_append, or_imp, forall_and] at hr
    simp [Stmt.form, Form.stmt?, expr_readBack condition h.1 hr.1, stmt_readBack thenBranch h.2 hr.2, Stmt.relabel]
  | .branch condition thenBranch (some elseBranch), h, hr => by
    simp only [Stmt.literals, List.mem_append, or_imp, forall_and] at hr
    simp [Stmt.form, Form.stmt?, expr_readBack condition h.1 hr.1.1, stmt_readBack thenBranch h.2.1 hr.1.2,
      stmt_readBack elseBranch h.2.2 hr.2, Stmt.relabel]
  | .loop condition body, h, hr => by
    simp only [Stmt.literals, List.mem_append, or_imp, forall_and] at hr
    simp [Stmt.form, Form.stmt?, expr_readBack condition h.1 hr.1, stmt_readBack body h.2 hr.2, Stmt.relabel]
  | .break keyword, h, _ => by
    have hkeyword : keyword.relined (fun _ => 0) = Token.ofWord "break" := h.of_fixed rfl
    simp [Stmt.form, Form.stmt?, hkeyword, Stmt.relabel]
  | .return keyword none, h, _ => by
    have hkeyword : keyword.relined (fun _ => 0) = Token.ofWord "return" := h.1.of_fixed rfl
    simp [Stmt.form, Form.stmt?, hkeyword, Stmt.relabel]
  | .return keyword (some value), h, hr => by
    have hkeyword : keyword.relined (fun _ => 0) = Token.ofWord "return" := h.1.of_fixed rfl
    simp [Stmt.form, Form.stmt?, hkeyword, expr_readBack value (h.2 value rfl) (readable_of_some hr), Stmt.relabel]
  | .function declaration, h, hr => by
    simp [Stmt.form, Form.stmt?, function_readBack declaration h hr, Stmt.relabel]
  | .class name methods, h, hr => by
    simp [Stmt.form, Form.stmt?, h.1.ofWord, methods_readBack methods h.2 hr, Stmt.relabel]

theorem stmts_readBack : ∀ ss : List Stmt, Stmt.GenuineAll ss → (∀ l ∈ Stmt.literalsAll ss, l.Readable) →
    Form.stmts? (Stmt.formAll ss) = some (Stmt.bareAll ss)
  | [], _, _ => rfl
  | s :: ss, h, hr => by
    simp only [Stmt.literalsAll, List.mem_append, or_imp, forall_and] at hr
    simp [Stmt.formAll, Form.stmts?, stmt_readBack s h.1 hr.1, stmts_readBack ss h.2 hr.2, Stmt.relabelAll]

theorem function_readBack : ∀ f : Function, f.Genuine → (∀ l ∈ f.literals, l.Readable) →
    Form.function? f.parts = some f.bare
  | .mk name parameters body, h, hr => by
    simp [Function.parts, Form.function?, h.1.ofWord, names_readBack h.2.1, stmts_readBack body h.2.2 hr,
      Function.relabel]

theorem methods_readBack : ∀ fs : List Function, Function.GenuineAll fs → (∀ l ∈ Function.literalsAll fs, l.Readable) →
    Form.methods? (Function.formAll fs) = some (Function.bareAll fs)
  | [], _, _ => rfl
  | f :: fs, h, hr => by
    simp only [Function.literalsAll, List.mem_append, or_imp, forall_and] at hr
    simp [Function.formAll, Form.methods?, function_readBack f h.1 hr.1, methods_readBack fs h.2 hr.2,
      Function.relabelAll]

end

/-- A printed statement is read back. -/
theorem Stmt.ofText?_render {s : Stmt} (h : s.Genuine) (hr : ∀ l ∈ s.literals, l.Readable) :
    Stmt.ofText? s.render = some s.bare := by
  rw [Stmt.ofText?, Form.ofText?_of_shows (stmt_shows s h hr), Option.bind_some, stmt_readBack s h hr]

/-- Statements that are read from sources, without string literals and with finite numbers only, and that print as
the same text are the same up to the lines of their tokens and the identities of their occurrences. Tokens that the
text does not show are no exception. -/
theorem Stmt.bare_eq_of_render_eq {source source' : String} {n n' : OccurrenceId} {s s' : Stmt}
    (hs : s ∈ (Parsed.ofTokens (Token.ofSource source) n).statements)
    (hs' : s' ∈ (Parsed.ofTokens (Token.ofSource source') n').statements) (hr : ∀ l ∈ s.literals, l.Readable)
    (hr' : ∀ l ∈ s'.literals, l.Readable) (h : s.render = s'.render) :
    s.bare = s'.bare := by
  have hread := Stmt.ofText?_render (Stmt.genuine_of_mem (Parse.ofTokens_genuine source n) hs) hr
  have hread' := Stmt.ofText?_render (Stmt.genuine_of_mem (Parse.ofTokens_genuine source' n') hs') hr'
  rw [h, hread'] at hread
  exact (Option.some.inj hread).symm

/-- A loop without clauses, in two spellings: on other lines, with other identities and another text of its number. -/
theorem Stmt.bare_eq_of_render_eq_loops :
    let ss := (Parsed.ofTokens (Token.ofSource "for (;;) print n + 1;") 0).statements
    let ss' := (Parsed.ofTokens (Token.ofSource "while (true)\n  print n + 1.0;") 7).statements
    ss.map Stmt.render = ["(while true (print (+ n 1.0)))"] ∧
      ∃ s s', ss = [s] ∧ ss' = [s'] ∧ s.bare = s'.bare := by
  intro ss ss'
  have hone : ss.length = 1 ∧ ss'.length = 1 := by decide +kernel
  have hrender : ss.map Stmt.render = ["(while true (print (+ n 1.0)))"] ∧
      ss'.map Stmt.render = ss.map Stmt.render := by
    decide +kernel
  have hliterals : Stmt.literalsAll ss = [.bool true, .number (.ofMagnitude 0x3FF0000000000000)] ∧
      Stmt.literalsAll ss' = Stmt.literalsAll ss := by decide +kernel
  obtain ⟨s, hs⟩ := List.length_eq_one_iff.mp hone.1
  obtain ⟨s', hs'⟩ := List.length_eq_one_iff.mp hone.2
  have hreadable : ∀ l ∈ Stmt.literalsAll ss, l.Readable := by
    rw [hliterals.1]
    simp only [List.forall_mem_cons]
    exact ⟨trivial, (by decide : Number.isFinite _ = true), by simp⟩
  have hreadable' : ∀ l ∈ Stmt.literalsAll ss', l.Readable := hliterals.2 ▸ hreadable
  have hmem : s ∈ ss := by simp [hs]
  have hmem' : s' ∈ ss' := by simp [hs']
  have hsame : s.render = s'.render := by simpa [hs, hs', eq_comm] using hrender.2
  refine ⟨hrender.1, s, s', hs, hs', Stmt.bare_eq_of_render_eq hmem hmem' ?_ ?_ hsame⟩
  · simpa [hs, Stmt.literalsAll] using hreadable
  · simpa [hs', Stmt.literalsAll] using hreadable'

end LoxLang
