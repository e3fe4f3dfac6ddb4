import LoxLang.Proofs.Run.Receivers.Evaluation
import LoxLang.Proofs.Run.Renaming
import LoxLang.Proofs.Run.Unwinding

namespace LoxLang
open Scoping

/-- The distances noted are those of the setting. -/
def Notes.Agrees (N : Notes) (setting : Setting) : Prop := ∀ id d, N.distance id d → setting.distances[id]? = some d

/-- The notes of programs: the distances of occurrences inside functions, and the functions of statements. -/
def Notes.ofPrograms (programs : List (List Stmt)) : Notes where
  distance := fun id d =>
    ∃ σ ∈ programs.flatMap (Stmt.sitesAll .top), σ.Inner ∧ σ.id = id ∧ σ.distance? = some d
  function := fun f => f ∈ programs.flatMap Stmt.functionsAll

/-- Notes are added with each program, and none is taken back. -/
theorem Notes.ofPrograms_within (programs : List (List Stmt)) (program : List Stmt) :
    (ofPrograms programs).Within (ofPrograms (programs ++ [program])) where
  distance := by
    rintro id d ⟨σ, hσ, h⟩
    exact ⟨σ, by simp only [List.flatMap_append, List.mem_append]; exact .inl hσ, h⟩
  function := by
    intro f hf
    change f ∈ (programs ++ [program]).flatMap Stmt.functionsAll
    rw [List.flatMap_append]
    exact List.mem_append_left _ hf

namespace Interpreter

/-- An interpreter on which programs have run, each accepted by scanner, parser and binding: the programs, what was told
of all runs, and the first identity not given out. -/
inductive Observed : List (List Stmt) → List Event → Interpreter → OccurrenceId → Prop
  | initial : Observed [] [] .initial 0
  | run {programs : List (List Stmt)} {log : List Event} {i i' i'' : Interpreter} {n n₀ : OccurrenceId} {echo : Bool}
    {source : String} {c : Conditions} {error : Option RuntimeError} (h : Observed programs log i n) (hn : n ≤ n₀)
    (hp : (Parsed.ofTokens (Token.ofSource source) n₀).errors = [])
    (hb : i.bind (Program.ofSource echo source n₀) = .ok i')
    (hr : i'.interpret c (Program.ofSource echo source n₀) = some (error, i'')) :
    Observed (programs ++ [Program.ofSource echo source n₀])
      (log ++ (i'.watch c (Program.ofSource echo source n₀)).2) i''
      (Parsed.ofTokens (Token.ofSource source) n₀).nextId
  | taken {programs : List (List Stmt)} {log : List Event} {i : Interpreter} {n : OccurrenceId}
    (h : Observed programs log i n) : Observed programs log i.takePrinted.2 n

/-- Between programs: the machine has each function with its receiver, and so had all that was told. -/
structure Settled (programs : List (List Stmt)) (log : List Event) (i : Interpreter) : Prop where
  machine : i.machine.Proper (.ofPrograms programs)
  scope : i.machine.scope = Machine.globals
  events : ∀ v ∈ log, v.Proper (.ofPrograms programs)
  trail : Trail Machine.initial.store log (some i.machine)

variable {programs : List (List Stmt)} {log : List Event} {i i' i'' : Interpreter} {n n₀ : OccurrenceId} {echo : Bool}
  {source : String} {c : Conditions}

/-- What is told of a run has no part in it: the same programs have run. -/
theorem Observed.reached (h : Observed programs log i n) :
    ∃ moments, Reached (programs.flatMap (Stmt.sitesAll .top)) moments i n := by
  induction h with
  | initial => exact ⟨[], .initial⟩
  | run _ hn hp hb hr ih =>
    obtain ⟨moments, h⟩ := ih
    rw [List.flatMap_append, List.flatMap_singleton]
    exact ⟨_, h.run hn hp hb hr⟩
  | taken _ ih =>
    obtain ⟨moments, h⟩ := ih
    exact ⟨moments, h.taken⟩

/-- Distances inside functions are never forgotten, so the notes of all programs are those of the next setting. -/
theorem Observed.agrees (h : Observed programs log i n) (hn : n ≤ n₀)
    (hp : (Parsed.ofTokens (Token.ofSource source) n₀).errors = [])
    (hb : i.bind (Program.ofSource echo source n₀) = .ok i') (c : Conditions) :
    (Notes.ofPrograms (programs ++ [Program.ofSource echo source n₀])).Agrees (i'.setting c) := by
  obtain ⟨moments, h⟩ := h.reached
  rintro _ d ⟨σ, hσ, hin, rfl, hd⟩
  rw [List.flatMap_append, List.flatMap_singleton] at hσ
  rw [h.inOrder.agrees hn (Program.ofSource_read echo hp) hb c σ, hd]
  exact (List.mem_append.1 hσ).elim (fun hσ => .inr ⟨hσ, hin⟩) .inl

/-- In an accepted program, each `this` has the distance of the nearest scope around methods. -/
theorem aimed_ofSource (hp : (Parsed.ofTokens (Token.ofSource source) n₀).errors = [])
    (hb : i.bind (Program.ofSource echo source n₀) = .ok i') (programs : List (List Stmt)) :
    Stmt.AimedAll (.ofPrograms (programs ++ [Program.ofSource echo source n₀])) [false]
      (Program.ofSource echo source n₀) := by
  have hread := Program.ofSource_read echo hp
  have hnamed := Program.ofSource_named (P := fun t => t.lexeme ≠ "this") echo hp fun t ht hk =>
    (Token.ofSource_spelled ht).ne_this hk
  have hopen := (bind_ok hread.formed hb).2.2.2.1
  refine Stmt.aimedAll_of_sites .top (by rintro ⟨⟩) _ (fun σ hσ => ?_) hnamed fun f hf => ?_
  · exact ⟨hread.worded σ hσ, hopen σ hσ, fun hin d hd => ⟨σ, by simp [hσ], hin, rfl, hd⟩⟩
  · change f ∈ (programs ++ [_]).flatMap Stmt.functionsAll
    simp [hf]

/-- The run of the next program. -/
theorem Settled.watch (h : Settled programs log i)
    (hp : (Parsed.ofTokens (Token.ofSource source) n₀).errors = [])
    (hb : i.bind (Program.ofSource echo source n₀) = .ok i') (c : Conditions) :
    Watched.Onward (.ofPrograms (programs ++ [Program.ofSource echo source n₀])) i.machine
      (Watched.runAll (i'.setting c) c.fuel ⟨.program (Program.ofSource echo source n₀), []⟩
        (Program.ofSource echo source n₀)) fun _ _ => True := by
  refine Watched.runAll_onward (i'.setting c) c.fuel ⟨?_, trivial, ?_, ?_⟩ (aimed_ofSource hp hb programs)
  · exact h.machine.mono (Notes.ofPrograms_within programs _)
  · exact h.scope ▸ h.machine.globals
  · rw [h.scope]
    exact h.machine.globals.receiver?_eq_none (by simp)

/-- What has been told so far and what is told of the next run. -/
theorem Settled.told (h : Settled programs log i)
    (hp : (Parsed.ofTokens (Token.ofSource source) n₀).errors = [])
    (hb : i.bind (Program.ofSource echo source n₀) = .ok i') (c : Conditions) :
    (∀ v ∈ log ++ (i'.watch c (Program.ofSource echo source n₀)).2,
      v.Proper (.ofPrograms (programs ++ [Program.ofSource echo source n₀]))) ∧
    Trail Machine.initial.store (log ++ (i'.watch c (Program.ofSource echo source n₀)).2)
      (i'.watch c (Program.ofSource echo source n₀)).1.machine? := by
  obtain ⟨hevents, htrail, -⟩ := h.watch hp hb c
  unfold Interpreter.watch
  rw [(bind_ok (Program.ofSource_read echo hp).formed hb).1]
  refine ⟨fun v hv => ?_, h.trail.append htrail⟩
  rcases List.mem_append.1 hv with hv | hv
  · exact (h.events v hv).mono (Notes.ofPrograms_within programs _)
  · exact hevents v hv

theorem Observed.settled (h : Observed programs log i n) : Settled programs log i := by
  induction h with
  | initial => exact ⟨.initial _, rfl, by rintro v ⟨⟩, .silent (by rintro _ ⟨⟩; exact .refl _)⟩
  | @run programs log i i' i'' n n₀ echo source c error h hn hp hb hr ih =>
    have hm := machine_of_interpret hr
    obtain ⟨hevents, htrail⟩ := ih.told hp hb c
    have houtcome := (ih.watch hp hb c).outcome
    rw [← (bind_ok (Program.ofSource_read echo hp).formed hb).1] at houtcome
    change (i'.watch c (Program.ofSource echo source n₀)).1.Onward _ _ _ at houtcome
    rw [watch_fst] at houtcome htrail
    have hl := houtcome.machine hm
    have hscope : i'.machine.scope = Machine.globals := by
      rw [(bind_ok (Program.ofSource_read echo hp).formed hb).1]
      exact ih.scope
    rw [Option.mem_def.1 hm] at htrail
    exact ⟨hl.proper, hl.scope.trans hscope, hevents, htrail⟩
  | taken _ ih => exact ⟨ih.machine.of_eq rfl rfl, ih.scope, ih.events, ih.trail⟩

variable {outcome : Eval.Outcome Unit} {log' : List Event}

/-- Whatever programs have run, and wherever the next one has got to: each function that is held was declared by a
statement, in no scope that binds `this`, or it is a method, and its scope binds `this` alone, to an instance of a class
that has the method under its name. No such scope changes, and no function gets another receiver. `this` is the receiver
of the running function: for a method, what its scope binds; and a function that is declared inside has the same one. A
method that is read from an instance is bound to it, unless it was kept in a field of it; and an initializer gives the
instance that it is bound to, whether its class is called or it is called itself. -/
theorem methods_stay_bound_to_their_receivers (h : Observed programs log i n) (hn : n ≤ n₀)
    (hp : (Parsed.ofTokens (Token.ofSource source) n₀).errors = [])
    (hb : i.bind (Program.ofSource echo source n₀) = .ok i')
    (hw : i'.watch c (Program.ofSource echo source n₀) = (outcome, log')) :
    let declared := fun f => f ∈ (programs ++ [Program.ofSource echo source n₀]).flatMap Stmt.functionsAll
    outcome = runAll (i'.setting c) c.fuel (Program.ofSource echo source n₀) i'.machine ∧
    (∀ f, i.machine.Holds (.function f) → f.Ordinary declared i.machine.store ∨ f.Bound i.machine.store) ∧
    (∀ v ∈ log ++ log', ∀ f, v.Holds f → f.Ordinary declared v.machine.store ∨ f.Bound v.machine.store) ∧
    ((log ++ log').Pairwise fun u v =>
      (∀ s x, u.machine.store.Hides s x → v.machine.store.Hides s x) ∧
        ∀ f, u.Holds f → v.machine.store.receiver? f.scope = u.machine.store.receiver? f.scope) ∧
    (∀ v ∈ log', ∀ id keyword, v.report = .seeks id keyword → ∃ f caller around x,
      v.position.activation = .call f caller around ∧
        (∀ fuel, Eval.evaluate (i'.setting c) (fuel + 1) (.this id keyword) v.machine = .done x v.machine) ∧
        v.machine.store.receiver? f.scope = some x ∧ (f.Bound v.machine.store → v.machine.store.Hides f.scope x) ∧
        ∃ id cls, x = .instance id cls) ∧
    ∀ v ∈ log ++ log',
      (∀ d flow, v.report = .ends (.function d) flow →
        v.machine.store.receiver? v.machine.scope = v.position.activation.receiver? v.machine.store ∧ ∃ id,
          v.machine.store.cell? v.machine.scope d.name.lexeme =
            some (some (.function ⟨id, d, v.machine.scope, false⟩))) ∧
      (∀ id cls name f, v.report = .reads id cls name (.function f) →
        (∃ fields, v.machine.fields[id]? = some fields ∧ fields.find? name.lexeme = some (.function f)) ∨
          f.name = name.lexeme ∧ v.machine.store.Hides f.scope (.instance id cls)) ∧
      ∀ f x, (v.report = .builds f x ∨ v.report = .results x ∧ f.initializes = true ∧
          ∃ caller around, v.position.activation = .call f caller around) →
        f.Bound v.machine.store ∧ f.initializes = true ∧ v.machine.store.Hides f.scope x ∧
          ∃ id cls, x = .instance id cls := by
  intro declared
  have hfst := i'.watch_fst c (Program.ofSource echo source n₀)
  obtain ⟨hevents, htrail⟩ := h.settled.told hp hb c
  rw [hw] at hfst hevents htrail
  dsimp only at hfst hevents htrail
  have hmachine := h.settled.machine.mono (Notes.ofPrograms_within programs (Program.ofSource echo source n₀))
  refine ⟨hfst, fun f hf => ?_, fun v hv f hf => ((hevents v hv).holds hf).kind, ?_, fun v hv id keyword hr => ?_,
    fun v hv => ?_⟩
  · exact Closure.Proper.kind (hmachine.values _ hf)
  · refine htrail.pairwise.imp_of_mem fun {u v} hu _ hk => ⟨fun s x hh => hh.keeps hk, fun f hf => ?_⟩
    obtain ⟨-, shape, hs, -⟩ := (hevents u hu).holds hf
    exact hk.receiver?_eq hs.exist
  · obtain ⟨f, caller, around, d, x, ha, hd, hget, hx⟩ := (hevents v (List.mem_append_right _ hv)).seeks hr
    have hdistance := h.agrees hn hp hb c id d hd
    exact ⟨f, caller, around, x, ha, fun _ => Eval.readName_of_getAt hdistance hget, hx⟩
  · have hproper := hevents v hv
    have hreport := hproper.report
    refine ⟨fun d flow hr => ?_, fun id cls name f hr => ?_, fun f x hr => hproper.initializes hr⟩
    · rw [hr] at hreport
      exact ⟨hreport.1, hreport.2.2 d rfl⟩
    · rw [hr] at hreport
      apply hreport.2.imp_right
      rintro ⟨_, ⟨⟩, hf⟩
      exact hf

/-- A method with a function inside, kept by a program that ends in an error. -/
def keepsMethod : String := "class A { m() { fun g() { return this; } return g; } } var f = A().m; nil();"

/-- A `this` is read in a function that a kept method has declared. -/
def seeksInside (v : Event) : Bool :=
  match v.report, v.position.activation with
  | .seeks _ _, .call f _ _ => f.name == "g"
  | _, _ => false

/-- The function is called by another program. -/
theorem function_inside_kept_method_has_its_instance :
    let c : Conditions := ⟨.ticking, 40⟩
    let p := Program.ofSource false keepsMethod 0
    let i := (initial.bound p).ran c p
    let q := Program.ofSource false "f()();" 7
    ∃ v ∈ ((i.bound q).watch c q).2, ∃ f caller around id cls, v.position.activation = .call f caller around ∧
      f.name = "g" ∧ v.machine.store.receiver? f.scope = some (.instance id cls) := by
  intro c p i q
  have hp : (Parsed.ofTokens (Token.ofSource keepsMethod) 0).errors = [] := by decide +kernel
  have hb : initial.bind p = .ok (initial.bound p) := bind_eq_bound (by decide +kernel)
  obtain ⟨error, hr⟩ : ∃ error, (initial.bound p).interpret c p = some (error, i) :=
    interpret_eq_ran (by decide +kernel)
  have hq : (Parsed.ofTokens (Token.ofSource "f()();") 7).errors = [] := by decide +kernel
  have hb' : i.bind q = .ok (i.bound q) := bind_eq_bound (by decide +kernel)
  have hany : ((i.bound q).watch c q).2.any seeksInside = true := by decide +kernel
  obtain ⟨v, hv, hin⟩ := List.any_eq_true.1 hany
  obtain ⟨-, -, -, -, hthis, -⟩ := methods_stay_bound_to_their_receivers (.run .initial (Nat.le_refl 0) hp hb hr)
    (by decide +kernel) hq hb' (rfl : _ = (((i.bound q).watch c q).1, ((i.bound q).watch c q).2))
  unfold seeksInside at hin
  split at hin
  · next id keyword f caller around hr ha =>
    obtain ⟨f', caller', around', x, ha', -, hx, -, id, cls, rfl⟩ := hthis v hv id keyword hr
    rw [ha] at ha'
    cases ha'
    exact ⟨v, hv, f, caller, around, id, cls, ha, by simpa using hin, hx⟩
  · cases hin

end Interpreter

end LoxLang
