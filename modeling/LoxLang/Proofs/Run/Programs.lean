import LoxLang.Proofs.Run.Evaluation
import LoxLang.Proofs.Scope.Programs

namespace LoxLang
open Scoping

namespace Interpreter

/-- The moments of a run of a program whose names are bound. -/
def moments (i : Interpreter) (c : Conditions) (program : List Stmt) : List Moment :=
  (Logged.runAll (i.setting c) c.fuel program i.machine).2

/-- An interpreter on which programs have run, each accepted by scanner, parser and binding: their sites, the moments
of all runs, and the first identity not given out. -/
inductive Reached : List Site → List Moment → Interpreter → OccurrenceId → Prop
  | initial : Reached [] [] .initial 0
  | run {sites : List Site} {log : List Moment} {i i' i'' : Interpreter} {n n₀ : OccurrenceId} {echo : Bool}
    {source : String} {c : Conditions} {error : Option RuntimeError} (h : Reached sites log i n) (hn : n ≤ n₀)
    (hp : (Parsed.ofTokens (Token.ofSource source) n₀).errors = [])
    (hb : i.bind (Program.ofSource echo source n₀) = .ok i')
    (hr : i'.interpret c (Program.ofSource echo source n₀) = some (error, i'')) :
    Reached (sites ++ Stmt.sitesAll .top (Program.ofSource echo source n₀))
      (log ++ i'.moments c (Program.ofSource echo source n₀)) i''
      (Parsed.ofTokens (Token.ofSource source) n₀).nextId
  | taken {sites : List Site} {log : List Moment} {i : Interpreter} {n : OccurrenceId}
    (h : Reached sites log i n) : Reached sites log i.takePrinted.2 n

/-- Between programs: the machine is in order for the sites inside functions, their distances are all noted, and the
log is sound. -/
structure InOrder (sites : List Site) (log : List Moment) (i : Interpreter) (n : OccurrenceId) : Prop where
  machine : i.machine.Ok fun σ => σ ∈ sites ∧ σ.Inner
  scope : i.machine.scope = Machine.globals
  distances : ∀ σ ∈ sites, σ.Inner → i.distances[σ.id]? = σ.distance?
  topLevel : i.topLevel = []
  known : ∀ (id : OccurrenceId) (d : Nat), i.distances[id]? = some d → id < n
  ids : ∀ σ ∈ sites, σ.id < n
  worded : ∀ σ ∈ sites, σ.Worded
  open_ : ∀ σ ∈ sites, ¬Binding.Barred σ
  at_site : ∀ μ ∈ log, ∃ σ ∈ sites, μ.At σ
  remembered : log.Pairwise fun ν μ => ν.Remembered μ.machine.store
  remembers : ∀ μ ∈ log, μ.Remembered i.machine.store

/-- The sites that the next program may come to: its own, and those inside the functions of earlier ones. -/
def Live (sites : List Site) (program : List Stmt) (σ : Site) : Prop :=
  σ ∈ Stmt.sitesAll .top program ∨ σ ∈ sites ∧ σ.Inner

/-- A site that the next program may come to is one of a program so far, or its own. -/
theorem Live.mem {sites : List Site} {program : List Stmt} {σ : Site} (h : Live sites program σ) :
    σ ∈ sites ++ Stmt.sitesAll .top program :=
  h.elim (List.mem_append_right _) fun h => List.mem_append_left _ h.1

namespace InOrder

variable {sites : List Site} {log : List Moment} {i i' i'' : Interpreter} {n n₀ n' : OccurrenceId}
  {program : List Stmt}

theorem initial : InOrder [] [] .initial 0 where
  machine := .initial _
  scope := rfl
  distances := by rintro σ ⟨⟩
  topLevel := rfl
  known := by
    intro id d h
    rw [show Interpreter.initial.distances = ∅ from rfl, Std.ExtTreeMap.getElem?_empty] at h
    cases h
  ids := by rintro σ ⟨⟩
  worded := by rintro σ ⟨⟩
  open_ := by rintro σ ⟨⟩
  at_site := by rintro μ ⟨⟩
  remembered := .nil
  remembers := by rintro μ ⟨⟩

/-- What is found among the distances of the next program is noted for it, or was there before. -/
theorem noted_or_known (hp : Program.Read n₀ n' program) (hb : i.bind program = .ok i') {id : OccurrenceId} {d : Nat}
    (hid : i'.distances[id]? = some d) :
    (∃ τ ∈ Stmt.sitesAll .top program, τ.id = id ∧ τ.distance? = some d) ∨ i.distances[id]? = some d := by
  rw [(bind_ok hp.formed hb).2.1] at hid
  refine (getElem?_foldl_insert hid).imp_left fun hmem => ?_
  obtain ⟨τ, hτ, he⟩ := List.mem_filterMap.1 hmem
  obtain ⟨d', hd', he⟩ := Option.map_eq_some_iff.1 he
  cases he
  exact ⟨τ, hτ, rfl, hd'⟩

/-- All live sites have their distances when the next program runs. -/
theorem agrees (h : InOrder sites log i n) (hn : n ≤ n₀) (hp : Program.Read n₀ n' program)
    (hb : i.bind program = .ok i') (c : Conditions) : (i'.setting c).Agrees (Live sites program) := by
  intro σ hσ
  change i'.distances[σ.id]? = σ.distance?
  have hd := (bind_ok hp.formed hb).2.1
  rcases hσ with hσ | ⟨hσ, hin⟩
  · rw [hd]
    refine getElem?_foldl_noted hp.ids.nodup hσ ?_
    rw [Option.eq_none_iff_forall_ne_some]
    exact fun d hold => absurd (Nat.le_trans hn (hp.first_le hσ)) (Nat.not_le_of_lt (h.known _ _ hold))
  · rw [← h.distances σ hσ hin, hd, getElem?_foldl_insert_of_not_mem]
    intro hmem
    obtain ⟨e, he, hid⟩ := List.mem_map.1 hmem
    obtain ⟨τ, hτ, he⟩ := List.mem_filterMap.1 he
    obtain ⟨d, -, rfl⟩ := Option.map_eq_some_iff.1 he
    have hid : τ.id = σ.id := hid
    have hlt := Nat.lt_of_lt_of_le (h.ids σ hσ) hn
    exact absurd (hp.first_le hτ) (Nat.not_le_of_lt (hid ▸ hlt))

/-- The run of the next program is safe. -/
theorem runs (h : InOrder sites log i n) (hn : n ≤ n₀) (hp : Program.Read n₀ n' program)
    (hb : i.bind program = .ok i') (c : Conditions) :
    Safe (Live sites program) (some i'.machine.scope) i'.machine
      (Logged.runAll (i'.setting c) c.fuel program) fun _ st =>
        st.Stands i'.machine.scope (Context.top.afterAll program) := by
  obtain ⟨hm, -, -, -, htidy⟩ := bind_ok hp.formed hb
  rw [hm]
  have hok : i.machine.Ok (Live sites program) := h.machine.mono fun σ hσ _ => .inr hσ
  refine runAll_safe (h.agrees hn hp hb c) c.fuel program hok ?_ rfl (fun σ hσ => .inl hσ) htidy hp.formed
  exact ⟨h.scope ▸ hok.globals, by rintro _ ⟨⟩, by rintro _ ⟨⟩⟩

/-- The log goes on with the moments of the run. -/
theorem moments (h : InOrder sites log i n) (hn : n ≤ n₀) (hp : Program.Read n₀ n' program)
    (hb : i.bind program = .ok i') (c : Conditions) :
    (∀ μ ∈ log ++ i'.moments c program, ∃ σ ∈ sites ++ Stmt.sitesAll .top program, μ.At σ) ∧
      (log ++ i'.moments c program).Pairwise fun ν μ => ν.Remembered μ.machine.store := by
  have hsound := (h.runs hn hp hb c).sound
  refine ⟨fun μ hμ => ?_, ?_⟩
  · rcases List.mem_append.1 hμ with hμ | hμ
    · obtain ⟨σ, hσ, hat⟩ := h.at_site μ hμ
      exact ⟨σ, List.mem_append_left _ hσ, hat⟩
    · obtain ⟨σ, hσ, hat⟩ := hsound.at_site μ hμ
      exact ⟨σ, hσ.mem, hat⟩
  · refine List.pairwise_append.2 ⟨h.remembered, hsound.remembered, fun ν hν μ hμ s name hg ha => ?_⟩
    refine hsound.filled μ hμ s name hg ?_
    rw [(bind_ok hp.formed hb).1]
    exact h.remembers ν hν s name hg ha

/-- The machine in which a run ended. -/
theorem interpret_machine {c : Conditions} {error : Option RuntimeError}
    (hr : i.interpret c program = some (error, i')) :
    ∃ m', m' ∈ (Logged.runAll (i.setting c) c.fuel program i.machine).1.machine? ∧
      i' = { i with machine := m' }.forgetTopLevel := by
  have hplain : (Logged.runAll (i.setting c) c.fuel program i.machine).1 =
      runAll (i.setting c) c.fuel program i.machine :=
    congrFun (Logged.plain_runAll (i.setting c) c.fuel program) i.machine
  rw [hplain]
  exact concluded_eq_some hr

/-- Inside functions nothing is forgotten. -/
theorem kept (h : InOrder sites log i n) (hn : n ≤ n₀) (hp : Program.Read n₀ n' program)
    (hb : i.bind program = .ok i') {σ : Site} (hσ : σ ∈ sites ++ Stmt.sitesAll .top program) (hin : σ.Inner) :
    σ.id ∉ i'.topLevel := by
  rw [(bind_ok hp.formed hb).2.2.1, h.topLevel, List.nil_append]
  intro hmem
  obtain ⟨τ, hτ, he⟩ := List.mem_filterMap.1 hmem
  unfold Binding.notedTopLevel at he
  split at he
  · next htop =>
    obtain ⟨d, -, hid⟩ := Option.map_eq_some_iff.1 he
    rcases List.mem_append.1 hσ with hσ | hσ
    · have hlt := Nat.lt_of_lt_of_le (h.ids σ hσ) hn
      exact absurd (hp.first_le hτ) (Nat.not_le_of_lt (hid ▸ hlt))
    · exact hin (hp.site_eq hσ hτ hid.symm ▸ htop)
  · cases he

/-- After the run, however it ended. -/
theorem interpreted (h : InOrder sites log i n) (hn : n ≤ n₀) (hp : Program.Read n₀ n' program)
    (hb : i.bind program = .ok i') {c : Conditions} {error : Option RuntimeError}
    (hr : i'.interpret c program = some (error, i'')) :
    InOrder (sites ++ Stmt.sitesAll .top program) (log ++ i'.moments c program) i'' n' := by
  have hsafe := h.runs hn hp hb c
  obtain ⟨hat, hrem⟩ := h.moments hn hp hb c
  obtain ⟨m', hm', hi⟩ := interpret_machine hr
  have hl := hsafe.outcome.leads hm'
  obtain ⟨hm, -, -, hopen, -⟩ := bind_ok hp.formed hb
  subst hi
  constructor
  case machine => exact hl.ok.mono fun σ hσ hin => ⟨hσ.mem, hin⟩
  case scope => exact hl.scope.trans (hm ▸ h.scope)
  case distances =>
    intro σ hσ hin
    rw [forgetTopLevel, getElem?_foldl_erase, if_neg (h.kept hn hp hb hσ hin)]
    refine h.agrees hn hp hb c σ ?_
    exact (List.mem_append.1 hσ).elim (fun hσ => .inr ⟨hσ, hin⟩) .inl
  case topLevel => rfl
  case known =>
    intro id d hid
    rw [forgetTopLevel, getElem?_foldl_erase] at hid
    split at hid
    · cases hid
    · rcases noted_or_known hp hb hid with ⟨τ, hτ, rfl, -⟩ | hold
      · exact hp.lt_next hτ
      · exact Nat.lt_of_lt_of_le (h.known id d hold) (Nat.le_trans hn hp.ids.le)
  case ids =>
    intro σ hσ
    rcases List.mem_append.1 hσ with hσ | hσ
    · exact Nat.lt_of_lt_of_le (h.ids σ hσ) (Nat.le_trans hn hp.ids.le)
    · exact hp.lt_next hσ
  case worded =>
    intro σ hσ
    exact (List.mem_append.1 hσ).elim (h.worded σ) (hp.worded σ)
  case open_ =>
    intro σ hσ
    exact (List.mem_append.1 hσ).elim (h.open_ σ) (hopen σ)
  case at_site => exact hat
  case remembered => exact hrem
  case remembers =>
    intro μ hμ
    rcases List.mem_append.1 hμ with hμ | hμ
    · exact (h.remembers μ hμ).grows (hm ▸ hl.grows)
    · exact hsafe.remembered m' hm' μ hμ

/-- Taking what has been printed changes nothing else. -/
theorem taken (h : InOrder sites log i n) : InOrder sites log i.takePrinted.2 n :=
  { h with machine := ⟨h.machine.cells, h.machine.fields, h.machine.globals⟩ }

end InOrder

/-- Whatever has run is in order. -/
theorem Reached.inOrder {sites : List Site} {log : List Moment} {i : Interpreter} {n : OccurrenceId}
    (h : Reached sites log i n) : InOrder sites log i n := by
  induction h with
  | initial => exact .initial
  | @run _ _ _ _ _ _ n₀ echo source _ _ _ hn hp hb hr ih =>
    exact ih.interpreted hn (Program.ofSource_read echo hp) hb hr
  | taken _ ih => exact ih.taken

end Interpreter

end LoxLang
