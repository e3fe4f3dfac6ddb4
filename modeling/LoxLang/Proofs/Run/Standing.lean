import LoxLang.Proofs.Run.Scopes
import LoxLang.Proofs.Scope.Sites

namespace LoxLang
open Scoping

namespace Store

/-- The scope has the names of a frame, and all but the variables without an initializer have values. -/
def Holds (st : Store) (s : ScopeId) (frame : Frame) : Prop :=
  ∀ name form, frame.lookup name = some form → st.Has s name ∧ (form ≠ .bare → st.Filled s name)

/-- Scopes one around the other that hold frames one around the other, out to the globals. -/
inductive Matches (st : Store) : List ScopeId → List Frame → Prop
  | globals : st.Matches [Machine.globals] []
  | inner {s : ScopeId} {frame : Frame} {chain : List ScopeId} {frames : List Frame} (hs : s ≠ Machine.globals)
    (h : st.Holds s frame) (outer : st.Matches chain frames) : st.Matches (s :: chain) (frame :: frames)

/-- A scope that holds the innermost of the frames, with the others around it. -/
structure Realizes (st : Store) (s : ScopeId) (frames : List Frame) : Prop where
  lt : s < st.next
  chain : st.Matches (st.chain s) frames

variable {st st' : Store} {s : ScopeId} {chain : List ScopeId} {frame : Frame} {frames : List Frame}
  {current : Option ScopeId}

theorem Holds.nil (st : Store) (s : ScopeId) : st.Holds s [] := by
  rintro name form ⟨⟩

/-- A scope that is not that of the globals keeps what it has. -/
theorem Holds.grows (h : st.Holds s frame) (hs : s ≠ Machine.globals) (hg : Grows current st st') :
    st'.Holds s frame := fun name form hl =>
  ⟨hg.has s name (h name form hl).1, fun hb => hg.filled s name hs ((h name form hl).2 hb)⟩

/-- A frame with one declaration more. -/
theorem Holds.append {name : String} {form : Form} (h : st.Holds s frame) (hn : st.Has s name)
    (hf : form ≠ .bare → st.Filled s name) : st.Holds s (frame ++ [(name, form)]) := by
  intro x form' hl
  rw [List.lookup_append] at hl
  cases hx : frame.lookup x with
  | some form'' =>
    rw [hx] at hl
    cases hl
    exact h x form' hx
  | none =>
    rw [hx, Option.none_or, List.lookup_cons] at hl
    split at hl
    · next he =>
      rw [beq_iff_eq] at he
      cases hl
      subst he
      exact ⟨hn, hf⟩
    · cases hl

/-- Scopes around a place stay where they are while the run goes on. -/
theorem Matches.grows (h : st.Matches chain frames) (hg : Grows current st st') : st'.Matches chain frames := by
  induction h with
  | globals => exact .globals
  | inner hs h _ ih => exact .inner hs (h.grows hs hg) ih

/-- A declared name has its cell in the scope that its distance tells. -/
theorem Matches.declared (h : st.Matches chain frames) {name : String} {d : Nat} {form : Form}
    (hd : declaration? name frames = some (d, form)) :
    ∃ a, chain[d]? = some a ∧ a ≠ Machine.globals ∧ st.Has a name ∧ (form ≠ .bare → st.Filled a name) := by
  induction h generalizing d with
  | globals => cases hd
  | @inner s frame chain frames hs h _ ih =>
    rw [declaration?] at hd
    split at hd
    · next hl =>
      cases hd
      exact ⟨s, rfl, hs, h name _ hl⟩
    · cases hr : declaration? name frames with
      | none => rw [hr] at hd; cases hd
      | some r =>
        rw [hr] at hd
        cases hd
        obtain ⟨a, ha, hh⟩ := ih hr
        exact ⟨a, ha, hh⟩

namespace Realizes

theorem grows (h : st.Realizes s frames) (hg : Grows current st st') : st'.Realizes s frames where
  lt := Nat.lt_of_lt_of_le h.lt hg.next_le
  chain := by
    rw [hg.chain_eq s h.lt]
    exact h.chain.grows hg

theorem globals (hn : 0 < st.next) (hc : st.chain Machine.globals = [Machine.globals]) :
    st.Realizes Machine.globals [] where
  lt := hn
  chain := by rw [hc]; exact .globals

/-- At the top level of a text, and only there, the run is in the scope of the globals. -/
theorem local_iff (h : st.Realizes s frames) : s ≠ Machine.globals ↔ frames ≠ [] := by
  have hm := h.chain
  obtain ⟨outer, ho⟩ := st.chain_eq_cons s
  rw [ho] at hm
  cases hm with
  | globals => simp
  | inner hs _ _ => simp [hs]

/-- A new scope inside. -/
theorem child (h : st.Realizes s frames) : (st.child s).2.Realizes st.next ([] :: frames) where
  lt := by simp [Store.child]
  chain := by
    rw [Store.child, chain_addScope_next]
    refine .inner (fun he => ?_) (.nil _ _) (h.chain.grows (.addScope none st _))
    exact absurd h.lt (he ▸ Nat.not_lt_zero s)

/-- The innermost frame held anew. -/
theorem head (h : st.Realizes s (frame :: frames)) {frame' : Frame} (hh : st.Holds s frame') :
    st.Realizes s (frame' :: frames) where
  lt := h.lt
  chain := by
    have hm := h.chain
    obtain ⟨outer, ho⟩ := st.chain_eq_cons s
    rw [ho] at hm ⊢
    cases hm with
    | inner hs _ outer => exact .inner hs hh outer

theorem holds (h : st.Realizes s (frame :: frames)) : st.Holds s frame := by
  have hm := h.chain
  obtain ⟨outer, ho⟩ := st.chain_eq_cons s
  rw [ho] at hm
  cases hm with
  | inner _ hh _ => exact hh

end Realizes

theorem lookup_parameters (ps : List Token) (x : String) :
    (ps.map fun p => (p.lexeme, Form.parameter)).lookup x =
      if x ∈ ps.map Token.lexeme then some .parameter else none := by
  induction ps with
  | nil => rfl
  | cons p ps ih =>
    rw [List.map_cons, List.lookup_cons, ih]
    by_cases hx : x = p.lexeme
    · simp [hx]
    · have : (x == p.lexeme) = false := by simpa using hx
      simp [this, hx]

/-- A scope stands for a place of the text: the scopes are those of the place, and the innermost has no other names
than the text says. -/
structure Stands (st : Store) (s : ScopeId) (c : Context) : Prop where
  realizes : st.Realizes s c.frames
  only : ∀ frame ∈ c.frames.head?, ∀ name, st.Has s name → frame.lookup name ≠ none
  fresh : ∀ name ∈ c.initializing, c.Fresh name

namespace Stands

variable {c : Context} {name : Token} {form : Form}

theorem lt (h : st.Stands s c) : s < st.next := h.realizes.lt

theorem grows (h : st.Stands s c) (hg : Grows none st st') : st'.Stands s c where
  realizes := h.realizes.grows hg
  only := fun frame hf name hh => h.only frame hf name (hg.no_more _ name h.lt nofun hh)
  fresh := h.fresh

/-- A name that the text is free to declare has no cell yet. -/
theorem not_has (h : st.Stands s c) {x : String} (hf : c.Fresh x) (hs : s ≠ Machine.globals) : ¬st.Has s x := by
  intro hh
  cases hc : c.frames with
  | nil => exact h.realizes.local_iff.1 hs hc
  | cons frame frames =>
    have hm : frame ∈ c.frames.head? := by simp [hc]
    exact h.only frame hm x hh (hf frame hm)

/-- In its own initializer a variable is not declared yet. -/
theorem inInitializer (h : st.Stands s c) (hf : c.Fresh name.lexeme) : st.Stands s (c.inInitializer name) where
  realizes := h.realizes
  only := h.only
  fresh := by
    rintro _ ⟨⟩
    exact hf

/-- One more name in the scope. -/
theorem declared (h : st.Stands s c) (hi : c.initializing = none) (hg : Grows (some s) st st')
    (hn : st'.Has s name.lexeme) (hf : form ≠ .bare → st'.Filled s name.lexeme)
    (hmore : ∀ x, st'.Has s x → x = name.lexeme ∨ st.Has s x) : st'.Stands s (c.declare name form) := by
  have hr := h.realizes.grows hg
  obtain ⟨frames, initializing, place⟩ := c
  cases hi
  cases frames with
  | nil => exact ⟨hr, by rintro _ ⟨⟩, by rintro _ ⟨⟩⟩
  | cons frame frames =>
    refine ⟨hr.head (hr.holds.append hn hf), ?_, by rintro _ ⟨⟩⟩
    rintro _ ⟨⟩ x hx
    rw [List.lookup_append]
    rcases hmore x hx with rfl | hx
    · cases frame.lookup name.lexeme <;> simp
    · have := h.only frame rfl x hx
      cases hl : frame.lookup x with
      | none => exact absurd hl this
      | some => simp

theorem define (h : st.Stands s c) (hi : c.initializing = none) (v : Value) (form : Form) :
    (st.define s name.lexeme v).Stands s (c.declare name form) := by
  refine h.declared hi (.define_current h.lt _ v) ?_ (fun _ => ?_) fun x hx => ?_
  · exact (has_setCell h.lt _ _ _ _).2 (.inl ⟨rfl, rfl⟩)
  · exact (filled_define h.lt _ v _ _).2 (.inl ⟨rfl, rfl⟩)
  · exact ((has_setCell h.lt _ _ _ _).1 hx).imp (fun he => he.2.symm) id

theorem declare_grows (h : st.Stands s c) (hf : c.Fresh name.lexeme) :
    Grows (some s) st (st.declare s name.lexeme) :=
  .declare_current h.lt (h.not_has hf)

theorem declare (h : st.Stands s c) (hi : c.initializing = none) (hf : c.Fresh name.lexeme) :
    (st.declare s name.lexeme).Stands s (c.declare name .bare) := by
  refine h.declared hi (h.declare_grows hf) ?_ (fun he => absurd rfl he) fun x hx => ?_
  · exact (has_setCell h.lt _ _ _ _).2 (.inl ⟨rfl, rfl⟩)
  · exact ((has_setCell h.lt _ _ _ _).1 hx).imp (fun he => he.2.symm) id

/-- A name declared and then filled, as that of a class. -/
theorem declare_define (h : st.Stands s c) (hi : c.initializing = none) (hf : c.Fresh name.lexeme) (v : Value) :
    ((st.declare s name.lexeme).define s name.lexeme v).Stands s (c.declare name form) := by
  have hlt : s < (st.declare s name.lexeme).next := by simpa [Store.declare] using h.lt
  refine h.declared hi ((h.declare_grows hf).trans (.define_current hlt _ v)) ?_ (fun _ => ?_) fun x hx => ?_
  · exact (has_setCell hlt _ _ _ _).2 (.inl ⟨rfl, rfl⟩)
  · exact (filled_define hlt _ v _ _).2 (.inl ⟨rfl, rfl⟩)
  · rcases (has_setCell hlt _ _ _ _).1 hx with he | hx
    · exact .inl he.2.symm
    · exact ((has_setCell h.lt _ _ _ _).1 hx).imp (fun he => he.2.symm) id

/-- A new scope inside. -/
theorem child (h : st.Stands s c) (hi : c.initializing = none) :
    (st.child s).2.Stands st.next (c.inside []) where
  realizes := h.realizes.child
  only := by
    rintro _ ⟨⟩ x hx
    have hx : st.Has st.next x := by simpa [Has, Store.child] using hx
    exact absurd hx.lt (Nat.lt_irrefl _)
  fresh := by
    intro x hx
    rw [show (c.inside []).initializing = none from hi] at hx
    cases hx

/-- In a new scope that has got the parameters of a function. -/
theorem inBody {place : Binding.Place} {ps : List Token} (h : st.Realizes s c.frames) (hi : c.initializing = none)
    (hg : Grows (some st.next) (st.child s).2 st') (hps : ∀ p ∈ ps, st'.Filled st.next p.lexeme)
    (hmore : ∀ x, st'.Has st.next x → x ∈ ps.map Token.lexeme ∨ (st.child s).2.Has st.next x) :
    st'.Stands st.next (c.inBody place ps) where
  realizes := by
    refine (h.child.grows hg).head fun x form hl => ?_
    rw [lookup_parameters] at hl
    split at hl
    · next hx =>
      obtain ⟨p, hp, rfl⟩ := List.mem_map.1 hx
      exact ⟨(hps p hp).has, fun _ => hps p hp⟩
    · cases hl
  only := by
    rintro _ ⟨⟩ x hx
    rw [lookup_parameters]
    rcases hmore x hx with hx | hx
    · simp [hx]
    · have hx : st.Has st.next x := by simpa [Has, Store.child] using hx
      exact absurd hx.lt (Nat.lt_irrefl _)
  fresh := by
    intro x hx
    rw [show (c.inBody place ps).initializing = none from hi] at hx
    cases hx

end Stands

end Store

end LoxLang
