import LoxLang.Proofs.Grammar.Strewn

namespace LoxLang.Parse
open Grammar

/-- A statement begins as it does without segments inside. -/
theorem strewnStmt_heads {w w' : List Token} {s : Stmt} {isOpen : Bool} {us : List (List Token)}
    (h : StrewnStmt w w' s isOpen us) : Heads w' beginsStatement := by
  cases h with
  | plain h => exact stmt_heads h
  | «if» h | ifElse h | «while» h | «for» h | block h => exact ⟨_, _, rfl, by rw [h]; rfl⟩

/-- So does a declaration. -/
theorem strewnDeclaration_heads {w w' : List Token} {s : Stmt} {isOpen : Bool} {us : List (List Token)}
    (h : StrewnDeclaration w w' s isOpen us) : Heads w' beginsDeclaration := by
  cases h with
  | plain h => exact declaration_heads h
  | «class» h | function h => exact ⟨_, _, rfl, by rw [h]; rfl⟩
  | statement h => exact (strewnStmt_heads h).mono fun k hk => by simp [beginsDeclaration, hk]

theorem strewnFunction_heads {w w' : List Token} {f : Function} {us : List (List Token)}
    (h : StrewnFunction w w' f us) : Heads w' isName := by
  cases h with
  | mk hn => exact ⟨_, _, rfl, by rw [hn]; rfl⟩

/-- No segment begins with a word that an open statement would take. -/
theorem noElse_strewn {w w' rest : List Token} {ss : List Stmt} {us : List (List Token)} {inBraces : Bool}
    (h : StrewnDeclarations w w' ss us) (hr : EndsDeclarations inBraces rest) : NoElse (w' ++ rest) := by
  cases h with
  | nil => exact hr.noElse
  | cons h _ =>
    rw [List.append_assoc]
    exact noElse_heads ((strewnDeclaration_heads h).mono fun k hk => beginsDeclaration_continues hk) _
  | @segment u _ w' semicolon _ _ hu _ =>
    have hhead := noElse_heads hu.head (w' ++ rest)
    simpa using hhead

/-- The errors of segments, each read by itself. -/
def errorsOf (us : List (List Token)) : List SyntaxError := us.flatMap fun u => (Parsed.ofTokens u 0).errors

theorem errorsOf_append (us us' : List (List Token)) : errorsOf (us ++ us') = errorsOf us ++ errorsOf us' :=
  List.flatMap_append

mutual

/-- A statement with segments inside is read as the statement, by induction on how they are put there. -/
theorem strewnStmt_back {w w' : List Token} {s : Stmt} {isOpen : Bool} {us : List (List Token)} :
    StrewnStmt w w' s isOpen us → StatementBack w' s isOpen (errorsOf us)
  | .plain h => statement_back h
  | .if hi hl h hr hyes => .if hi hl h hr (strewnStmt_back hyes)
  | .ifElse hi hl h hr hyes he hno => by
    rw [errorsOf_append]
    exact .ifElse hi hl h hr (strewnStmt_back hyes) he (strewnStmt_back hno)
  | .while hw hl h hr hbody => .while hw hl h hr (strewnStmt_back hbody)
  | .for hf hl hstart hc hs hi hr hbody => .for hf hl hstart hc hs hi hr (strewnStmt_back hbody)
  | .block hl h hr => .block hl (.of_declarations (strewnDeclarations_back h) hr)

theorem strewnDeclaration_back {w w' : List Token} {s : Stmt} {isOpen : Bool} {us : List (List Token)} :
    StrewnDeclaration w w' s isOpen us → DeclarationBack w' s isOpen (errorsOf us)
  | .plain h => declaration_back h
  | .class hk hn hl h hr => .class hk hn hl (strewnMethods_back h) hr
  | .function hk h => .function hk (strewnFunction_back h)
  | .statement h => .statement (strewnStmt_heads h) (strewnStmt_back h)

/-- Declarations are read as if there were no segments between them, save for the errors. -/
theorem strewnDeclarations_back {w w' : List Token} {ss : List Stmt} {us : List (List Token)} :
    StrewnDeclarations w w' ss us → DeclarationsBack w' ss (errorsOf us)
  | .nil => .nil
  | .cons h hs => by
    rw [errorsOf_append]
    have hhead := (strewnDeclaration_heads h).mono fun _ hk => beginsDeclaration_continues hk
    exact (strewnDeclarations_back hs).cons hhead (strewnDeclaration_back h) fun _ _ hr => noElse_strewn hs hr
  | .segment hu hs => by
    rw [List.append_cons]
    exact .segment hu.skipped (strewnDeclarations_back hs)

theorem strewnFunction_back {w w' : List Token} {f : Function} {us : List (List Token)} :
    StrewnFunction w w' f us → FunctionBack w' f (errorsOf us)
  | .mk hn hl hps hr hb h hc => .mk hn hl hps hr hb (.of_declarations (strewnDeclarations_back h) hc)

theorem strewnMethods_back {w w' : List Token} {fs : List Function} {us : List (List Token)} :
    StrewnMethods w w' fs us → MethodsBack w' fs (errorsOf us)
  | .nil => .nil
  | .cons h hs => by
    rw [errorsOf_append]
    exact (strewnMethods_back hs).cons (strewnFunction_heads h) (strewnFunction_back h)

end

/-- However many bad segments are put between the declarations of a program without errors, at whatever depth, all of
its statements are read as before, and the errors are those of the segments, in their order, as each yields them by
itself. -/
theorem recovery_loses_nothing {tokens strewn : List Token} {ss : List Stmt} {us : List (List Token)}
    (h : StrewnDeclarations (tokens.takeWhile (·.kind != .finish)) (strewn.takeWhile (·.kind != .finish)) ss us)
    (n : OccurrenceId) :
    (Parsed.ofTokens tokens n).errors = [] ∧
      Stmt.erasedAll (Parsed.ofTokens strewn n).statements = Stmt.erasedAll (Parsed.ofTokens tokens n).statements ∧
      (Parsed.ofTokens strewn n).errors = us.flatMap fun u => (Parsed.ofTokens u 0).errors := by
  obtain ⟨herrors, herased, -⟩ := ofTokens_complete n h.reads
  obtain ⟨ss', n', he, -, hc⟩ := strewnDeclarations_back h false n
  have hread : Parsed.ofTokens strewn n = ⟨ss', errorsOf us, n'⟩ := by
    apply ofTokens_of_reporting
    intro st fuel
    have hend : EndsDeclarations false [] := rfl
    have hgives := hc st fuel [] hend
    rwa [List.append_nil] at hgives
  rw [hread]
  exact ⟨herrors, he.trans herased.symm, rfl⟩

/-- A block gets a segment inside, which fails at its first token, and one behind it, which fails at its last. -/
theorem segments_in_and_behind_block :
    let left : Token := ⟨.mark .leftBrace, "\x7b", 1⟩
    let print : Token := ⟨.keyword .print_, "print", 1⟩
    let name : Token := ⟨.identifier, "x", 1⟩
    let semicolon : Token := ⟨.mark .semicolon, ";", 1⟩
    let right : Token := ⟨.mark .rightBrace, "\x7d", 1⟩
    let paren : Token := ⟨.mark .rightParen, ")", 1⟩
    let var : Token := ⟨.keyword .var_, "var", 1⟩
    let tokens := [left, print, name, semicolon, right]
    let strewn := [left, paren, name, semicolon, print, name, semicolon, right, var, semicolon]
    ∃ ss, StrewnDeclarations tokens strewn ss [[paren, name, semicolon], [var, semicolon]] ∧
      Stmt.erasedAll (Parsed.ofTokens strewn 0).statements = Stmt.erasedAll (Parsed.ofTokens tokens 0).statements ∧
      (Parsed.ofTokens strewn 0).errors = [⟨.expression, paren⟩, ⟨.variableName, semicolon⟩] := by
  intro left print name semicolon right paren var tokens strewn
  have hfirst : BadSegment [paren, name] semicolon := by
    refine ⟨rfl, ?_, ?_, ?_, _, rfl⟩ <;> decide
  have hsecond : BadSegment [var] semicolon := by
    refine ⟨rfl, ?_, ?_, ?_, _, rfl⟩ <;> decide
  have hnone : (Parsed.ofTokens [print, name, semicolon] 0).errors = [] := by decide +kernel
  have hinside := StrewnDeclarations.segment hfirst (.of_reads (ofTokens_sound hnone))
  have hblock : StrewnDeclaration tokens [left, paren, name, semicolon, print, name, semicolon, right] _ false
      [[paren, name, semicolon]] := .statement (.block rfl hinside rfl)
  have hstrewn : StrewnDeclarations (tokens.takeWhile (·.kind != .finish)) (strewn.takeWhile (·.kind != .finish)) _
      [[paren, name, semicolon], [var, semicolon]] := .cons hblock (.segment hsecond .nil)
  obtain ⟨-, hsame, herrors⟩ := recovery_loses_nothing hstrewn 0
  exact ⟨_, hstrewn, hsame, herrors.trans (by decide +kernel)⟩

end LoxLang.Parse
