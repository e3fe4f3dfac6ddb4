import LoxLang.Proofs.Grammar.Names
import LoxLang.Proofs.Run.Alike.Evaluation
import LoxLang.Proofs.Run.Access
import LoxLang.Proofs.Scope.Following
import LoxLang.Proofs.Scope.Renamed

namespace LoxLang
open Scoping

theorem Stmt.namedAll_echoed {P : Token → Prop} {ss : List Stmt} (h : Stmt.NamedAll P ss) :
    Stmt.NamedAll P (ss.map Stmt.echoed) := by
  induction ss with
  | nil => trivial
  | cons s ss ih =>
    refine ⟨?_, ih h.2⟩
    cases s <;> exact h.1

/-- What holds of all identifiers of a source holds of the names in its program. -/
theorem Program.ofSource_named {P : Token → Prop} (echo : Bool) {source : String} {n : OccurrenceId}
    (hp : (Parsed.ofTokens (Token.ofSource source) n).errors = [])
    (hP : ∀ t ∈ Token.ofSource source, t.kind = .identifier → P t) :
    Stmt.NamedAll P (Program.ofSource echo source n) := by
  have hnames : ∀ t ∈ (Token.ofSource source).takeWhile (·.kind != .finish), Grammar.Names P t := by
    intro t ht
    have hsource := (List.takeWhile_sublist _).subset ht
    exact ⟨hP t hsource, (Token.ofSource_spelled hsource).2 .this_⟩
  have hnamed := Grammar.declarations_named (Parse.ofTokens_sound hp) hnames
  unfold Program.ofSource
  cases echo with
  | false => exact hnamed
  | true => exact Stmt.namedAll_echoed hnamed

namespace Renaming

variable {r : Renaming}

/-- In all spellings but that of the target's scope a name is itself, and in that one too, unless it is the target's. -/
theorem spelling_or (isTarget : Bool) {x : String} (hx : x ≠ r.name) :
    r.spelling isTarget x = x ∨ r.spelling isTarget x = r.name := by
  rw [spelling_eq hx]
  unfold here
  split
  · exact .inr rfl
  · exact .inl rfl

/-- The new name is in no scope of the program, so that it stands in nobody's way. -/
theorem novel (hold : r.target.name ≠ "this") (hnew : r.name ≠ "this") :
    Binding.Novel (r.agreement hold hnew) r.name where
  ne_this := hnew.symm
  refl := ⟨false, rfl⟩
  apart := by
    intro κ μ hκ hμ x hx
    obtain ⟨isTarget, rfl⟩ := hκ
    obtain ⟨isTarget', rfl⟩ := hμ
    cases isTarget with
    | false => exact spelling_or isTarget' hx
    | true =>
      cases isTarget' with
      | false => exact spelling_or (r := r) true hx
      | true => exact .inl (Equiv.symm_apply_apply _ x)

end Renaming

namespace Interpreter

/-- What a run shows: what it prints and the error that ends it, if any, but for the name of a variable in its text. -/
def shown (i : Interpreter) (c : Conditions) (program : List Stmt) : Option (List String × Option RuntimeError) :=
  (i.interpret c program).map fun (error, i) => (i.takePrinted.1, error.map RuntimeError.unnamed)

/-- Programs that are alike show the same, if the distances are those of their occurrences. -/
theorem shown_alike {A : Agreement} {i : Interpreter} (hA : ∀ k, A.distance? k = i.distances[k]?)
    (hi : i.machine = .initial) (c : Conditions) {ss ss' : List Stmt} (h : AlikeStmts A [] ss ss') :
    i.shown c ss' = i.shown c ss := by
  have hlikewise : Eval.Likewise A #[[]] [] Eval.Same (runAll (i.setting c) c.fuel ss)
      (runAll (i.setting c) c.fuel ss') := runAll_likewise hA c.fuel h #[[]]
  have hrun := hlikewise .initial .initial (.initial A) rfl
  unfold shown interpret
  rw [hi]
  generalize runAll (i.setting c) c.fuel ss .initial = o at hrun ⊢
  generalize runAll (i.setting c) c.fuel ss' .initial = o' at hrun ⊢
  cases hrun with
  | done hW hm hs ha => simp [takePrinted, forgetTopLevel, hm.printed]
  | failed hW hm he => simp [takePrinted, forgetTopLevel, hm.printed, he]
  | exhausted => rfl

/-- Another name for a local of a program whose names are bound. -/
def rename (i : Interpreter) (target : Local) (name : String) : Renaming := ⟨target, name, fun k => i.distances[k]?⟩

variable {echo : Bool} {source : String} {n : OccurrenceId} {i : Interpreter} {target : Local} {name : String}

/-- Scoping is lexical. In a program accepted by parser and binding, a local variable or parameter is given a name that
is not in the program, and so is each occurrence that is bound to it. A local is one declaration, and no other changes.
The names are bound as before, and a run on a fresh interpreter shows the same and takes the same fuel. -/
theorem local_names_are_only_names (hp : (Parsed.ofTokens (Token.ofSource source) n).errors = [])
    (hb : initial.bind (Program.ofSource echo source n) = .ok i)
    (ht : target ∈ Stmt.localsAll [] 0 (Program.ofSource echo source n)) (hname : Keyword.ofWord? name = none)
    (hfresh : ∀ t ∈ Token.ofSource source, t.lexeme ≠ name) :
    let program := Program.ofSource echo source n
    let renamed := (i.rename target name).program program
    (Stmt.localsAll [] 0 program).Nodup ∧
      Stmt.localsAll [] 0 renamed = (Stmt.localsAll [] 0 program).map (i.rename target name).onLocal ∧
      initial.bind renamed = .ok i ∧ ∀ c, i.shown c renamed = i.shown c program := by
  intro program renamed
  have hread := Program.ofSource_read echo hp
  have hold : target.name ≠ "this" := by
    have hthis := Program.ofSource_named (P := fun t => t.lexeme ≠ "this") echo hp fun t ht hk =>
      (Token.ofSource_spelled ht).ne_this hk
    obtain ⟨t, hne, he⟩ := Stmt.localsAll_named [] 0 program hthis target ht
    exact he ▸ hne
  have hnew : name ≠ "this" := by
    intro he
    rw [he] at hname
    cases hname
  have hnamed : Stmt.NamedAll (i.rename target name).Old program :=
    Program.ofSource_named echo hp fun t ht _ => hfresh t ht
  obtain ⟨hmachine, -, -, -, htidy⟩ := bind_ok hread.formed hb
  have halike : AlikeStmts ((i.rename target name).agreement hold hnew) [] program renamed :=
    Renaming.stmts_alike hold hnew .top [] [] 0 program hread.formed htidy hnamed (by simp [Renaming.Apart])
  have hknows : Binding.Knows ((i.rename target name).agreement hold hnew) (Stmt.sitesAll .top program) :=
    fun σ hσ => InOrder.initial.agrees (Nat.zero_le n) hread hb ⟨.ticking, 0⟩ σ (.inl hσ)
  refine ⟨Stmt.localsAll_nodup .top [] 0 program htidy, Renaming.stmts_locals [] [] 0 program, ?_,
    fun c => shown_alike (fun _ => rfl) hmachine c halike⟩
  -- the interpreter is what it was if the walk over the renamed program notes the same
  unfold Interpreter.bind at hb ⊢
  cases ho : Binding.ofProgram program with
  | error es => rw [ho] at hb; cases hb
  | ok b =>
    rw [Binding.ofProgram_alike (Renaming.novel hold hnew) halike hread.formed hnamed hknows ho, ← hb, ho]

/-- A parameter that a function outlives, with a global and a later declaration of the same name. -/
def keepsParameter : String :=
  "var x; fun f(x) { fun g() { return x; } { var x; } return g; } print f(3)();"

/-- Its parameter is called otherwise. -/
theorem parameter_is_only_name :
    let program := Program.ofSource false keepsParameter 0
    let i := initial.bound program
    let renamed := (i.rename ⟨[1], "x"⟩ "y").program program
    Stmt.localsAll [] 0 renamed = [⟨[1], "y"⟩, ⟨[1, 1], "x"⟩] ∧ initial.bind renamed = .ok i ∧
      i.shown ⟨.ticking, 40⟩ renamed = some (["3"], none) := by
  intro program i renamed
  have hp : (Parsed.ofTokens (Token.ofSource keepsParameter) 0).errors = [] := by decide +kernel
  have hb : initial.bind program = .ok i := bind_eq_bound (by decide +kernel)
  have hlocals : Stmt.localsAll [] 0 program = [⟨[1], "x"⟩, ⟨[1, 1], "x"⟩] := by decide +kernel
  have hmem : ⟨[1], "x"⟩ ∈ Stmt.localsAll [] 0 program := by simp [hlocals]
  have hname : Keyword.ofWord? "y" = none := by decide +kernel
  have hfresh : ∀ t ∈ Token.ofSource keepsParameter, t.lexeme ≠ "y" := by decide +kernel
  have hshown : i.shown ⟨.ticking, 40⟩ program = some (["3"], none) := by decide +kernel
  obtain ⟨-, hlocals', hb', hshown'⟩ := local_names_are_only_names hp hb hmem hname hfresh
  refine ⟨?_, hb', (hshown' _).trans hshown⟩
  rw [hlocals', hlocals]
  decide

end Interpreter

end LoxLang
