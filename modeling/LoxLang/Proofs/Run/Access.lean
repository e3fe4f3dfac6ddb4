import LoxLang.Proofs.Run.Programs

namespace LoxLang
open Scoping

namespace Moment

variable {μ : Moment} {σ : Site} {d : Nat} {a : ScopeId} {form : Form}

/-- With a distance noted, a read looks at one scope only, and at no other if that has no value. -/
theorem read_eq (hd : μ.distance = some d) (ha : μ.machine.store.ancestor? μ.machine.scope d = some a)
    (hh : μ.machine.store.Has a μ.name) :
    μ.read = match Store.readCell (μ.machine.store.cell? a μ.name) with
      | .ok v => .done v μ.machine
      | .error e => .failed ⟨e.cause μ.name, μ.occurrence.token.line⟩ μ.machine := by
  have hget : μ.machine.store.getAt μ.machine.scope d μ.name =
      Store.readCell (μ.machine.store.cell? a μ.name) := by
    unfold Store.getAt
    rw [Store.holderAt_of_has ha hh]
    rfl
  unfold Moment.distance at hd
  unfold Moment.read Eval.readName
  rw [hd]
  change Eval.access (·.getAt μ.machine.scope d μ.name) μ.occurrence.token μ.machine = _
  simp only [Eval.access, hget]
  rfl

theorem read_filled (hd : μ.distance = some d) (ha : μ.machine.store.ancestor? μ.machine.scope d = some a)
    (hf : μ.machine.store.Filled a μ.name) : ∃ v, μ.read = .done v μ.machine := by
  have hr := read_eq hd ha hf.has
  obtain ⟨v, hv⟩ := hf
  rw [hv] at hr
  exact ⟨v, hr⟩

/-- A cell without a value is found, and the read fails on it. -/
theorem read_empty (hd : μ.distance = some d) (ha : μ.machine.store.ancestor? μ.machine.scope d = some a)
    (hc : μ.machine.store.cell? a μ.name = some none) :
    μ.read = .failed ⟨.uninitializedVariable μ.name, μ.occurrence.token.line⟩ μ.machine := by
  have hr := read_eq hd ha (by simp [Store.Has, hc])
  rw [hc] at hr
  exact hr

namespace At

theorem name (h : μ.At σ) : σ.name = μ.name := by
  unfold Site.name Moment.name
  rw [h.occurrence]

/-- The scope that the site is bound to has a cell for it. -/
theorem cell (h : μ.At σ) (hd : σ.declaration? = some (d, form)) :
    ∃ a, μ.machine.store.ancestor? μ.machine.scope d = some a ∧ a ≠ Machine.globals ∧
      μ.machine.store.Has a μ.name ∧ (form ≠ .bare → μ.machine.store.Filled a μ.name) := by
  unfold Site.declaration? at hd
  rw [h.name] at hd
  exact h.stands.realizes.chain.declared hd

/-- What is noted for an occurrence is where its text binds it, apart from an own initializer. -/
theorem declaration (h : μ.At σ) (ho : ¬σ.InOwnInitializer) (hd : μ.distance = some d) :
    ∃ form, σ.declaration? = some (d, form) := by
  rw [h.distance, Site.distance?, if_neg ho] at hd
  obtain ⟨⟨d', form⟩, hr, rfl⟩ := Option.map_eq_some_iff.1 hd
  exact ⟨form, hr⟩

/-- In its own initializer a variable has no cell. -/
theorem holderAt_own (h : μ.At σ) (ho : σ.InOwnInitializer) (hd : μ.distance = some d) :
    μ.machine.store.holderAt μ.machine.scope d μ.name = .error .undefined := by
  rw [h.distance, Site.distance?, if_pos ho] at hd
  cases hd
  obtain ⟨hi, hf⟩ := ho
  have hn := h.stands.not_has (h.stands.fresh _ hi) (h.stands.realizes.local_iff.2 hf)
  rw [h.name] at hn
  change (if (μ.machine.store.cell? μ.machine.scope μ.name).isSome then _ else _) = _
  exact if_neg hn

end At

end Moment

namespace Interpreter

namespace Reached

variable {sites : List Site} {log : List Moment} {i i' : Interpreter} {n n₀ : OccurrenceId} {echo : Bool}
  {source : String} {before after : List Moment} {μ : Moment} {d : Nat}

/-- Each moment of the next run is at a site of the programs so far, and has before it what has been assigned. -/
theorem moment_at_site (h : Reached sites log i n) (hn : n ≤ n₀)
    (hp : (Parsed.ofTokens (Token.ofSource source) n₀).errors = [])
    (hb : i.bind (Program.ofSource echo source n₀) = .ok i') (c : Conditions)
    (hμ : i'.moments c (Program.ofSource echo source n₀) = before ++ μ :: after) :
    ∃ σ ∈ sites ++ Stmt.sitesAll .top (Program.ofSource echo source n₀),
      μ.At σ ∧ σ.Worded ∧ ¬Binding.Barred σ ∧ ∀ ν ∈ log ++ before, ν.Remembered μ.machine.store := by
  have hread := Program.ofSource_read echo hp
  obtain ⟨hat, hrem⟩ := h.inOrder.moments hn hread hb c
  rw [hμ] at hat hrem
  obtain ⟨σ, hσ, hat⟩ := hat μ (by simp)
  refine ⟨σ, hσ, hat, ?_, ?_, fun ν hν => ?_⟩
  · exact (List.mem_append.1 hσ).elim (h.inOrder.worded σ) (hread.worded σ)
  · exact (List.mem_append.1 hσ).elim (h.inOrder.open_ σ) ((bind_ok hread.formed hb).2.2.2.1 σ)
  · rw [← List.append_assoc] at hrem
    exact (List.pairwise_append.1 hrem).2.2 ν hν μ List.mem_cons_self

/-- Whatever has run before and wherever the run has got to: a variable or `this` that is bound to a local scope
finds its cell in that very scope. The cell is empty only if its variable is declared without an initializer and
no assignment has reached the cell so far. -/
theorem reads_find_their_cells (h : Reached sites log i n) (hn : n ≤ n₀)
    (hp : (Parsed.ofTokens (Token.ofSource source) n₀).errors = [])
    (hb : i.bind (Program.ofSource echo source n₀) = .ok i') (c : Conditions)
    (hμ : i'.moments c (Program.ofSource echo source n₀) = before ++ μ :: after)
    (hform : μ.occurrence.form ≠ .assign) (hd : μ.distance = some d) :
    ∃ a form,
      (∃ σ ∈ sites ++ Stmt.sitesAll .top (Program.ofSource echo source n₀),
        σ.occurrence = μ.occurrence ∧ σ.declaration? = some (d, form)) ∧
      μ.machine.store.ancestor? μ.machine.scope d = some a ∧ μ.machine.store.Has a μ.name ∧
      ((∃ v, μ.read = .done v μ.machine) ∨
        μ.read = .failed ⟨.uninitializedVariable μ.name, μ.occurrence.token.line⟩ μ.machine ∧
          form = .bare ∧ ∀ ν ∈ log ++ before, ¬ν.Assigns a μ.name) ∧
      (μ.occurrence.form = .this → form = .this) := by
  obtain ⟨σ, hσ, hat, hworded, hopen, hrem⟩ := h.moment_at_site hn hp hb c hμ
  have hown : ¬σ.InOwnInitializer := by
    intro hown
    cases hf : σ.occurrence.form with
    | assign => exact hform (hat.occurrence ▸ hf)
    | «variable» => exact hopen (.inl ⟨hf, hown⟩)
    | this => exact hworded.1.initializing (hworded.2 hf ▸ hown.1)
  obtain ⟨form, hdecl⟩ := hat.declaration hown hd
  obtain ⟨a, ha, hg, hh, hfill⟩ := hat.cell hdecl
  refine ⟨a, form, ⟨σ, hσ, hat.occurrence, hdecl⟩, ha, hh, ?_, fun hthis => ?_⟩
  · by_cases hf : μ.machine.store.Filled a μ.name
    · exact .inl (Moment.read_filled hd ha hf)
    · refine .inr ⟨Moment.read_empty hd ha (hh.cell.resolve_left hf), ?_, fun ν hν hassigns => ?_⟩
      · exact Decidable.byContradiction fun hb => hf (hfill hb)
      · exact hf (hrem ν hν a μ.name hg hassigns)
  · have hname := hworded.2 (hat.occurrence ▸ hthis)
    unfold Site.declaration? at hdecl
    rw [hname] at hdecl
    exact hworded.1.this_declared hdecl

end Reached

def bound (i : Interpreter) (program : List Stmt) : Interpreter := (i.bind program).toOption.getD i

def ran (i : Interpreter) (c : Conditions) (program : List Stmt) : Interpreter :=
  ((i.interpret c program).map Prod.snd).getD i

/-- The distances of a program that is accepted are those that are added for it. -/
theorem bind_eq_bound {i : Interpreter} {program : List Stmt} (h : (i.bind program).toOption.isSome = true) :
    i.bind program = .ok (i.bound program) := by
  unfold bound
  cases hb : i.bind program with
  | ok i' => rfl
  | error es => rw [hb] at h; cases h

/-- A run that ends leaves one interpreter behind, whatever error it ends in. -/
theorem interpret_eq_ran {i : Interpreter} {c : Conditions} {program : List Stmt}
    (h : (i.interpret c program).isSome = true) :
    ∃ error, i.interpret c program = some (error, i.ran c program) := by
  unfold ran
  cases hr : i.interpret c program with
  | some r => exact ⟨r.1, rfl⟩
  | none => rw [hr] at h; cases h

theorem exists_moment {α : Type} (log : List Moment) (f : Moment → α) {k : Nat} {a : α}
    (h : (log.map f)[k]? = some a) : ∃ before μ after, log = before ++ μ :: after ∧ f μ = a := by
  rw [List.getElem?_map, Option.map_eq_some_iff] at h
  obtain ⟨μ, hμ, ha⟩ := h
  obtain ⟨hk, rfl⟩ := List.getElem?_eq_some_iff.1 hμ
  exact ⟨log.take k, log[k], log.drop (k + 1), by rw [← List.drop_eq_getElem_cons, List.take_append_drop], ha⟩

/-- A function that outlives its block, kept by a program that ends in an error. -/
def keepsFunction : String := "var f; { var x; fun g() { return x; } f = g; x = nil; nil(); }"

/-- The function is called by another program. -/
theorem kept_function_reads_its_cell :
    let c : Conditions := ⟨.ticking, 40⟩
    let p := Program.ofSource false keepsFunction 0
    let i := (initial.bound p).ran c p
    let q := Program.ofSource false "f();" 7
    ∃ μ ∈ (i.bound q).moments c q, μ.distance = some 1 ∧ μ.name = "x" ∧
      ∃ a, μ.machine.store.ancestor? μ.machine.scope 1 = some a ∧ μ.machine.store.Has a "x" := by
  intro c p i q
  have hp : (Parsed.ofTokens (Token.ofSource keepsFunction) 0).errors = [] := by decide +kernel
  have hb : initial.bind p = .ok (initial.bound p) := bind_eq_bound (by decide +kernel)
  obtain ⟨error, hr⟩ : ∃ error, (initial.bound p).interpret c p = some (error, i) :=
    interpret_eq_ran (by decide +kernel)
  have hq : (Parsed.ofTokens (Token.ofSource "f();") 7).errors = [] := by decide +kernel
  have hb' : i.bind q = .ok (i.bound q) := bind_eq_bound (by decide +kernel)
  obtain ⟨before, μ, after, hμ, hf⟩ := exists_moment ((i.bound q).moments c q)
    (fun μ => (μ.occurrence.form, μ.name, μ.distance)) (k := 1) (a := (.variable, "x", some 1)) (by decide +kernel)
  simp only [Prod.mk.injEq] at hf
  obtain ⟨hform, hname, hd⟩ := hf
  obtain ⟨a, form, -, ha, hh, -⟩ := Reached.reads_find_their_cells (.run .initial (Nat.le_refl 0) hp hb hr)
    (by decide +kernel) hq hb' c hμ (by rw [hform]; nofun) hd
  exact ⟨μ, by simp [hμ], hd, hname, a, ha, hname ▸ hh⟩

namespace Reached

variable {sites : List Site} {log : List Moment} {i i' : Interpreter} {n n₀ : OccurrenceId} {echo : Bool}
  {source : String} {before after : List Moment} {μ : Moment} {d : Nat}

/-- An assignment that is bound to a local scope fills its cell in that very scope and leaves all others as they are.
Only in the initializer of the variable itself there is no cell yet, and the assignment fails. -/
theorem assignments_find_their_cells (h : Reached sites log i n) (hn : n ≤ n₀)
    (hp : (Parsed.ofTokens (Token.ofSource source) n₀).errors = [])
    (hb : i.bind (Program.ofSource echo source n₀) = .ok i') (c : Conditions)
    (hμ : i'.moments c (Program.ofSource echo source n₀) = before ++ μ :: after)
    (hd : μ.distance = some d) :
    ∃ σ ∈ sites ++ Stmt.sitesAll .top (Program.ofSource echo source n₀),
      σ.occurrence = μ.occurrence ∧
      (¬σ.InOwnInitializer → ∃ a, μ.machine.store.ancestor? μ.machine.scope d = some a ∧
        μ.machine.store.Has a μ.name ∧ ∀ v, ∃ st, μ.assign v = .done () { μ.machine with store := st } ∧
          st.cell? a μ.name = some (some v) ∧
          ∀ s x, (s, x) ≠ (a, μ.name) → st.cell? s x = μ.machine.store.cell? s x) ∧
      (σ.InOwnInitializer → ∀ v,
        μ.assign v = .failed ⟨.undefinedVariable μ.name, μ.occurrence.token.line⟩ μ.machine) := by
  obtain ⟨σ, hσ, hat, -, -, -⟩ := h.moment_at_site hn hp hb c hμ
  refine ⟨σ, hσ, hat.occurrence, fun hown => ?_, fun hown v => ?_⟩
  · obtain ⟨form, hdecl⟩ := hat.declaration hown hd
    obtain ⟨a, ha, -, hh, -⟩ := hat.cell hdecl
    refine ⟨a, ha, hh, fun v => ⟨_, Eval.assignName_of_holderAt v hd (Store.holderAt_of_has ha hh), ?_, ?_⟩⟩
    · rw [Store.define, Store.cell?_setCell hh.lt, if_pos ⟨rfl, rfl⟩]
    · intro s x hne
      rw [Store.define, Store.cell?_setCell hh.lt, if_neg]
      rintro ⟨rfl, rfl⟩
      exact hne rfl
  · have ho := hat.holderAt_own hown hd
    unfold Moment.distance at hd
    unfold Moment.assign
    rw [Eval.assignName_eq]
    rw [hd]
    change Eval.assign (·.holderAt μ.machine.scope d μ.name) μ.occurrence.token v μ.machine = _
    simp only [Eval.assign, ho]
    rfl

end Reached

/-- The initializer of a local variable assigns to the variable itself. -/
theorem own_initializer_misses_its_cell :
    let c : Conditions := ⟨.ticking, 40⟩
    let p := Program.ofSource false "\x7b var a = (a = 1); print a; \x7d" 0
    ∃ μ ∈ (initial.bound p).moments c p, μ.distance = some 0 ∧
      ∀ v, μ.assign v = .failed ⟨.undefinedVariable "a", 1⟩ μ.machine := by
  intro c p
  have hp : (Parsed.ofTokens (Token.ofSource "\x7b var a = (a = 1); print a; \x7d") 0).errors = [] := by
    decide +kernel
  have hb : initial.bind p = .ok (initial.bound p) := bind_eq_bound (by decide +kernel)
  obtain ⟨before, μ, after, hμ, hf⟩ := exists_moment ((initial.bound p).moments c p)
    (fun μ => (μ.occurrence, μ.distance)) (k := 0) (a := (⟨.assign, 1, ⟨.identifier, "a", 1⟩⟩, some 0))
    (by decide +kernel)
  simp only [Prod.mk.injEq] at hf
  obtain ⟨ho, hd⟩ := hf
  obtain ⟨σ, hσ, hat, -, hmiss⟩ := Reached.assignments_find_their_cells .initial (Nat.le_refl 0) hp hb c hμ hd
  have hown : ∀ σ ∈ Stmt.sitesAll .top p, σ.occurrence = ⟨.assign, 1, ⟨.identifier, "a", 1⟩⟩ →
      σ.InOwnInitializer := by decide +kernel
  refine ⟨μ, by simp [hμ], hd, fun v => ?_⟩
  have hfail := hmiss (hown σ hσ (hat.trans ho)) v
  unfold Moment.name at hfail
  rw [ho] at hfail
  exact hfail

end Interpreter

end LoxLang
