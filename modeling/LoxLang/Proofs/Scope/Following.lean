import LoxLang.Proofs.Scope.Alike
import LoxLang.Proofs.Scope.Seam

namespace LoxLang.Binding
open Scoping

/-- From one scope to another the spelling of a name leads to no other name than a new one. -/
structure Novel (A : Agreement) (new : String) : Prop where
  ne_this : "this" ≠ new
  refl : A.Allowed (.refl _)
  apart : ∀ κ μ, A.Allowed κ → A.Allowed μ → ∀ x, x ≠ new → κ.symm (μ x) = x ∨ κ.symm (μ x) = new

/-- The scopes of the second walk have the names of those of the first, spelled in another way. -/
inductive AlikeScopes : Spelling → List Scope → List Scope → Prop
  | nil : AlikeScopes [] [] []
  | cons {κ : Equiv.Perm String} {Γ : Spelling} {scope scope' : Scope} {scopes scopes' : List Scope}
    (h : ∀ x, scope'.find? (κ x) = scope.find? x) (hs : AlikeScopes Γ scopes scopes') :
    AlikeScopes (κ :: Γ) (scope :: scopes) (scope' :: scopes')

/-- Two walks that have noted the same, the second of them without an error. -/
structure Walk.Alike (A : Agreement) (new : String) (Γ : Spelling) (w w' : Walk) : Prop where
  scopes : AlikeScopes Γ w.scopes w'.scopes
  unused : ∀ scope ∈ w.scopes, scope.find? new = none
  allowed : ∀ κ ∈ Γ, A.Allowed κ
  errors : w'.errors = #[]
  distances : w'.distances = w.distances
  topLevel : w'.topLevel = w.topLevel

variable {A : Agreement} {new : String} {Γ : Spelling} {w w' : Walk}

/-- A name is looked up in the second scope by what it stands for in the first. -/
theorem AlikeScopes.find? {κ : Equiv.Perm String} {scope scope' : Scope}
    (h : ∀ x, scope'.find? (κ x) = scope.find? x) (x : String) : scope'.find? x = scope.find? (κ.symm x) := by
  rw [← h, Equiv.apply_symm_apply]

/-- All ways of spelling that a place has around it are allowed, and so is the plain one. -/
theorem outward_allowed (hN : Novel A new) (hΓ : ∀ κ ∈ Γ, A.Allowed κ) (d : Option Nat) :
    A.Allowed (Γ.outward d) := by
  cases d with
  | none => exact hN.refl
  | some d =>
    unfold Spelling.outward
    dsimp only
    rw [List.getD_eq_getElem?_getD]
    cases hd : Γ[d]? with
    | none => exact hN.refl
    | some κ => exact hΓ κ (List.mem_of_getElem? hd)

/-- A name that a scope does not have is not there in any spelling. -/
theorem find?_eq_none (hN : Novel A new) {κ μ : Equiv.Perm String} (hκ : A.Allowed κ) (hμ : A.Allowed μ)
    {scope scope' : Scope} (h : ∀ x, scope'.find? (κ x) = scope.find? x) (hnew : scope.find? new = none) {x : String}
    (hx : x ≠ new) : scope'.find? (μ x) = scope.find? x ∨ scope'.find? (μ x) = none := by
  rw [AlikeScopes.find? h]
  rcases hN.apart κ μ hκ hμ x hx with he | he
  · exact .inl (by rw [he])
  · exact .inr (by rw [he, hnew])

/-- The nearest scope with a name is as far outward as the nearest with its other spelling: in the scopes before it
neither is found. -/
theorem AlikeScopes.findIdx? (hN : Novel A new) {scopes scopes' : List Scope} (h : AlikeScopes Γ scopes scopes')
    (hΓ : ∀ κ ∈ Γ, A.Allowed κ) (hnew : ∀ scope ∈ scopes, scope.find? new = none) {x : String} (hx : x ≠ new) :
    scopes'.findIdx? (·.contains (Γ.outward (scopes.findIdx? (·.contains x)) x)) = scopes.findIdx? (·.contains x) := by
  induction h with
  | nil => rfl
  | @cons κ Γ scope scope' scopes scopes' h hs ih =>
    have hΓ' : ∀ κ ∈ Γ, A.Allowed κ := fun κ hκ => hΓ κ (List.mem_cons_of_mem _ hκ)
    have ih := ih hΓ' fun s hs => hnew s (List.mem_cons_of_mem _ hs)
    rw [List.findIdx?_cons, List.findIdx?_cons]
    by_cases hc : scope.contains x = true
    · have hc' : scope'.contains (κ x) = true := by
        unfold NameMap.contains
        rw [h]
        exact hc
      rw [if_pos hc]
      exact if_pos hc'
    · rw [if_neg hc]
      -- the scope further out spells the name, and in this spelling it must not be found here
      have houtward : Spelling.outward (κ :: Γ) ((scopes.findIdx? (·.contains x)).map (· + 1)) =
          Γ.outward (scopes.findIdx? (·.contains x)) := by
        cases scopes.findIdx? (·.contains x) <;> rfl
      have hnone : scope.find? x = none := by simpa [NameMap.contains] using hc
      have hallowed := outward_allowed hN hΓ' (scopes.findIdx? (·.contains x))
      have hfind := find?_eq_none hN (hΓ κ List.mem_cons_self) hallowed h (hnew scope List.mem_cons_self) hx
      rw [hnone, or_self] at hfind
      have hc' : scope'.contains (Γ.outward (scopes.findIdx? (·.contains x)) x) = false :=
        congrArg Option.isSome hfind
      rw [houtward, hc', if_neg Bool.false_ne_true, ih]

namespace Walk.Alike

/-- An occurrence is bound as far outward. -/
theorem distance?_eq (hN : Novel A new) (h : w.Alike A new Γ w') {x : String} (hx : x ≠ new) :
    w'.distance? (Γ.outward (w.distance? x) x) = w.distance? x :=
  h.scopes.findIdx? hN h.allowed h.unused hx

theorem note (hN : Novel A new) (h : w.Alike A new Γ w') (place : Place) (i : OccurrenceId) {name : Token}
    (hn : name.lexeme ≠ new) :
    (w.note place i name).Alike A new Γ (w'.note place i (name.renamed (Γ.outward (w.distance? name.lexeme)))) := by
  unfold Walk.note
  rw [Token.renamed_lexeme, h.distance?_eq hN hn]
  cases w.distance? name.lexeme with
  | none => exact h
  | some d =>
    dsimp only
    split
    · exact { h with
        distances := congrArg (·.push (i, d)) h.distances
        topLevel := congrArg (·.push i) h.topLevel }
    · exact { h with distances := congrArg (·.push (i, d)) h.distances }

/-- A name that is complete in its scope, or not there, is so in any spelling. -/
theorem not_isIncomplete (hN : Novel A new) (h : w.Alike A new Γ w') {name : Token} (hn : name.lexeme ≠ new)
    (hi : w.isIncomplete name = false) (d : Option Nat) :
    w'.isIncomplete (name.renamed (Γ.outward d)) = false := by
  have hallowed := outward_allowed hN h.allowed d
  have hscopes := h.scopes
  unfold Walk.isIncomplete at hi ⊢
  cases hs : w.scopes with
  | nil =>
    rw [hs] at hscopes
    cases hscopes' : w'.scopes with
    | nil => rfl
    | cons => rw [hscopes'] at hscopes; cases hscopes
  | cons scope scopes =>
    cases hs' : w'.scopes with
    | nil => rfl
    | cons scope' scopes' =>
      rw [hs] at hi
      rw [hs, hs'] at hscopes
      cases hscopes with
      | cons hfind =>
        have hκ := h.allowed _ List.mem_cons_self
        have hnew := h.unused scope (hs ▸ List.mem_cons_self)
        rcases find?_eq_none hN hκ hallowed hfind hnew hn with he | he
        · simpa [he] using hi
        · simp [he]

end Walk.Alike

/-- Two parts of the walk, the second over the program that is alike. If nothing is reported at the end of the first,
both note the same. -/
structure Follows (A : Agreement) (new : String) (Γ : Spelling) (f f' : Walk → Walk) (c c' : Context) : Prop where
  passes : ∃ σs P, Passes f c c' σs P
  alike : ∀ w w', Agrees w c → w.Alike A new Γ w' → (f w).errors = #[] → (f w).Alike A new Γ (f' w')

namespace Follows

variable {f f' g g' : Walk → Walk} {c c' c'' : Context}

theorem id : Follows A new Γ (fun w => w) (fun w => w) c c where
  passes := ⟨[], True, .id trivial⟩
  alike := fun _ _ _ h _ => h

theorem comp (hf : Follows A new Γ f f' c c') (hg : Follows A new Γ g g' c' c'') :
    Follows A new Γ (fun w => g (f w)) (fun w => g' (f' w)) c c'' where
  passes := by
    obtain ⟨σs, P, hpf⟩ := hf.passes
    obtain ⟨τs, Q, hpg⟩ := hg.passes
    exact ⟨_, _, hpf.comp hpg⟩
  alike := by
    intro w w' ha h he
    obtain ⟨σs, P, hpf⟩ := hf.passes
    obtain ⟨τs, Q, hpg⟩ := hg.passes
    -- no error is ever dropped, so the first part has reported none
    have hef := hpg.errors _ he
    exact hg.alike _ _ (hpf.passes w ha hef).1 (hf.alike w w' ha h hef) he

/-- Inside a scope of the walks' own, its names spelled in a way that is allowed. -/
theorem inScope {κ : Equiv.Perm String} {scope scope' : Scope} {frame : Frame} {c₁ c₂ : Context}
    (h : Follows A new (κ :: Γ) f f' c₁ c₂) (hκ : A.Allowed κ) (hscope : ∀ x, scope'.find? (κ x) = scope.find? x)
    (hnew : scope.find? new = none) (hs : scope.find? = view frame) (hc : c.initializing = none)
    (hf₁ : c₁.frames = frame :: c.frames) (hi₁ : c₁.initializing = none) (hf₂ : c₂.frames.tail = c.frames)
    (hi₂ : c₂.initializing = none) :
    Follows A new Γ (fun w => w.inScope scope f) (fun w => w.inScope scope' f') c c where
  passes := by
    obtain ⟨σs, P, hp⟩ := h.passes
    exact ⟨_, _, hp.inScope hs hc hf₁ hi₁ hf₂ hi₂⟩
  alike := by
    intro w w' ha hw he
    have hin : Agrees { w with scopes := scope :: w.scopes } c₁ := by
      unfold Agrees at ha ⊢
      rw [views_complete hc] at ha
      rw [views_complete hi₁, hf₁, List.map_cons, List.map_cons, hs, ha]
    have hwin : Walk.Alike A new (κ :: Γ) { w with scopes := scope :: w.scopes }
        { w' with scopes := scope' :: w'.scopes } := { hw with
      scopes := .cons hscope hw.scopes
      unused := fun s hm => (List.mem_cons.1 hm).elim (fun he => he ▸ hnew) (hw.unused s)
      allowed := fun μ hm => (List.mem_cons.1 hm).elim (fun he => he ▸ hκ) (hw.allowed μ) }
    have hout := h.alike _ _ hin hwin he
    have hscopes := hout.scopes
    refine { hout with scopes := ?_, unused := ?_, allowed := hw.allowed }
    · unfold Walk.inScope
      dsimp only
      generalize (f { w with scopes := scope :: w.scopes }).scopes = s at hscopes ⊢
      generalize (f' { w' with scopes := scope' :: w'.scopes }).scopes = s' at hscopes ⊢
      cases hscopes with
      | cons _ hs => exact hs
    · exact fun s hm => hout.unused s (List.mem_of_mem_drop hm)

end Follows

/-- The distances of the occurrences are those that the text says. -/
def Knows (A : Agreement) (σs : List Site) : Prop := ∀ σ ∈ σs, A.distance? σ.id = σ.distance?

namespace Knows

variable {σs τs : List Site}

theorem left (h : Knows A (σs ++ τs)) : Knows A σs := fun σ hσ => h σ (List.mem_append_left _ hσ)

theorem right (h : Knows A (σs ++ τs)) : Knows A τs := fun σ hσ => h σ (List.mem_append_right _ hσ)

/-- What the text says of an occurrence is what the walk counts. -/
theorem distance?_eq {c : Context} {form : Occurrence.Form} {i : OccurrenceId} {name : Token}
    (h : Knows A [⟨⟨form, i, name⟩, c⟩]) (ha : Agrees w c) : A.distance? i = w.distance? name.lexeme :=
  (h _ List.mem_cons_self).trans (Binding.distance?_eq ha).symm

end Knows

theorem note_follows (hN : Novel A new) {c : Context} {form : Occurrence.Form} {i : OccurrenceId} {name : Token}
    (hb : ¬Barred ⟨⟨form, i, name⟩, c⟩) (hn : name.lexeme ≠ new) (hA : Knows A [⟨⟨form, i, name⟩, c⟩]) :
    Follows A new Γ (fun w => w.note c.place i name)
      (fun w => w.note c.place i (name.renamed (Γ.outward (A.distance? i)))) c c where
  passes := ⟨_, _, note_passes hb⟩
  alike := by
    intro w w' ha hw _
    rw [hA.distance?_eq ha]
    exact hw.note hN c.place i hn

theorem variable_follows (hN : Novel A new) {c : Context} {i : OccurrenceId} {name : Token} (hn : name.lexeme ≠ new)
    (hA : Knows A [⟨⟨.variable, i, name⟩, c⟩]) :
    Follows A new Γ (expr c.place (.variable i name)) (expr c.place (A.expr Γ (.variable i name))) c c where
  passes := ⟨_, _, variable_passes c i name⟩
  alike := by
    intro w w' ha hw he
    cases hi : w.isIncomplete name with
    | true =>
      simp only [expr, hi, if_true, note_errors] at he
      exact absurd he (push_ne_empty _ _)
    | false =>
      have hi' := hw.not_isIncomplete hN hn hi (A.distance? i)
      have hnote := hw.note hN c.place i hn
      rw [← hA.distance?_eq ha] at hnote
      simpa [expr, Agreement.expr, Expr.renamed, hi, hi'] using hnote

theorem this_follows (hN : Novel A new) {c : Context} {i : OccurrenceId} {keyword : Token}
    (hk : keyword.lexeme = "this") (hA : Knows A [⟨⟨.this, i, keyword⟩, c⟩]) :
    Follows A new Γ (expr c.place (.this i keyword)) (expr c.place (A.expr Γ (.this i keyword))) c c where
  passes := ⟨_, _, this_passes c i keyword⟩
  alike := by
    intro w w' ha hw he
    cases hc : c.place.inClass with
    | false =>
      simp only [expr, hc] at he
      exact absurd he (push_ne_empty _ _)
    | true =>
      have hnote := hw.note hN c.place i (hk ▸ hN.ne_this)
      rw [← hA.distance?_eq ha] at hnote
      simpa [expr, Agreement.expr, Expr.renamed, hc] using hnote

mutual

theorem expr_follows (hN : Novel A new) (c : Context) :
    (e : Expr) → e.Named (fun t => t.lexeme ≠ new) → Knows A (e.sites c) →
      Follows A new Γ (expr c.place e) (expr c.place (A.expr Γ e)) c c
  | .literal _, _, _ => .id
  | .group inner, hn, hA => expr_follows hN c inner hn hA
  | .unary _ operand, hn, hA => expr_follows hN c operand hn hA
  | .binary left _ right, hn, hA | .logical left _ right, hn, hA =>
    (expr_follows hN c left hn.1 hA.left).comp (expr_follows hN c right hn.2 hA.right)
  | .ternary condition thenBranch elseBranch, hn, hA =>
    ((expr_follows hN c condition hn.1.1 hA.left.left).comp (expr_follows hN c thenBranch hn.1.2 hA.left.right)).comp
      (expr_follows hN c elseBranch hn.2 hA.right)
  | .variable i name, hn, hA => variable_follows hN hn hA
  | .assign i name value, hn, hA => by
    have hb : ¬Barred ⟨⟨.assign, i, name⟩, c⟩ := by
      rintro (⟨h, -⟩ | ⟨h, -⟩) <;> cases h
    exact (expr_follows hN c value hn.2 hA.left).comp (note_follows hN hb hn.1 hA.right)
  | .this i keyword, hn, hA => this_follows hN hn hA
  | .call callee _ arguments, hn, hA =>
    (expr_follows hN c callee hn.1 hA.left).comp (exprs_follow hN c arguments hn.2 hA.right)
  | .get object _, hn, hA => expr_follows hN c object hn hA
  | .set object _ value, hn, hA =>
    (expr_follows hN c value hn.2 hA.left).comp (expr_follows hN c object hn.1 hA.right)

theorem exprs_follow (hN : Novel A new) (c : Context) :
    (es : List Expr) → Expr.NamedAll (fun t => t.lexeme ≠ new) es → Knows A (Expr.sitesAll c es) →
      Follows A new Γ (exprs c.place es)
        (exprs c.place (Expr.renamedAll (fun i => Γ.outward (A.distance? i)) es)) c c
  | [], _, _ => .id
  | e :: es, hn, hA => (expr_follows hN c e hn.1 hA.left).comp (exprs_follow hN c es hn.2 hA.right)

end

/-- A name set in the innermost scope of both, under the name that it has there. -/
theorem Walk.Alike.set (h : w.Alike A new Γ w') {scope scope' : Scope} {scopes scopes' : List Scope}
    (hs : w.scopes = scope :: scopes) (hs' : w'.scopes = scope' :: scopes') {x : String} (hx : x ≠ new)
    (complete : Bool) :
    Walk.Alike A new Γ { w with scopes := scope.set x complete :: scopes }
      { w' with scopes := scope'.set (Γ.here x) complete :: scopes' } := by
  have hscopes := h.scopes
  have hunused := h.unused
  rw [hs] at hscopes hunused
  rw [hs'] at hscopes
  cases hscopes with
  | @cons κ Γ _ _ _ _ hfind hrest =>
    refine { h with scopes := .cons (fun y => ?_) hrest, unused := fun s hm => ?_ }
    · change (scope'.set (κ x) complete).find? (κ y) = _
      rw [NameMap.find?_set, NameMap.find?_set, hfind]
      simp
    · rcases List.mem_cons.1 hm with rfl | hm
      · rw [NameMap.find?_set, if_neg hx]
        exact hunused scope List.mem_cons_self
      · exact hunused s (List.mem_cons_of_mem _ hm)

/-- Both have no local scope, or both have an innermost one, where the names of the first are spelled as told. -/
theorem Walk.Alike.innermost (h : w.Alike A new Γ w') :
    w.scopes = [] ∧ w'.scopes = [] ∨ ∃ scope scopes scope' scopes', w.scopes = scope :: scopes ∧
      w'.scopes = scope' :: scopes' ∧ ∀ x, scope'.find? (Γ.here x) = scope.find? x := by
  have hscopes := h.scopes
  generalize w.scopes = ss at hscopes ⊢
  generalize w'.scopes = ss' at hscopes ⊢
  cases hscopes with
  | nil => exact .inl ⟨rfl, rfl⟩
  | cons hfind _ => exact .inr ⟨_, _, _, _, rfl, rfl, hfind⟩

/-- A name that the innermost scope of the first walk does not have yet is not in that of the second, as spelled there.
-/
theorem declare_follows {c : Context} (hc : c.initializing = none) {name name' : Token}
    (hname : Γ.here name.lexeme = name'.lexeme) (hn : name.lexeme ≠ new) :
    Follows A new Γ (·.declare name) (·.declare name') c (c.inInitializer name) where
  passes := ⟨_, _, declare_passes hc name⟩
  alike := by
    intro w w' _ hw he
    rcases hw.innermost with ⟨hs, hs'⟩ | ⟨scope, scopes, scope', scopes', hs, hs', hfind⟩
    · simpa [Walk.declare, hs, hs'] using hw
    · have hcontains : scope'.contains name'.lexeme = scope.contains name.lexeme := by
        rw [← hname]
        exact congrArg Option.isSome (hfind name.lexeme)
      unfold Walk.declare at he ⊢
      simp only [hs, hs', hcontains] at he ⊢
      by_cases hc : scope.contains name.lexeme = true
      · rw [if_pos hc] at he
        exact absurd he (push_ne_empty _ _)
      · rw [if_neg hc, if_neg hc, ← hname]
        exact hw.set hs hs' hn false

theorem define_follows {c : Context} (hc : c.initializing = none) (form : Form) {name name' : Token}
    (hname : Γ.here name.lexeme = name'.lexeme) (hn : name.lexeme ≠ new) :
    Follows A new Γ (·.define name) (·.define name') (c.inInitializer name) (c.declare name form) where
  passes := ⟨_, _, define_passes hc name form⟩
  alike := by
    intro w w' _ hw _
    rcases hw.innermost with ⟨hs, hs'⟩ | ⟨scope, scopes, scope', scopes', hs, hs', -⟩
    · simpa [Walk.define, hs, hs'] using hw
    · unfold Walk.define
      simp only [hs, hs', ← hname]
      exact hw.set hs hs' hn true

theorem declare_define_follows {c : Context} (hc : c.initializing = none) (form : Form) {name name' : Token}
    (hname : Γ.here name.lexeme = name'.lexeme) (hn : name.lexeme ≠ new) :
    Follows A new Γ (fun w => (w.declare name).define name) (fun w => (w.declare name').define name') c
      (c.declare name form) :=
  (declare_follows hc hname hn).comp (define_follows hc form hname hn)

theorem parameters_follow {c : Context} (hc : c.initializing = none) (frame : Frame) (κ : Equiv.Perm String)
    (ps : List Token) (hn : ∀ p ∈ ps, p.lexeme ≠ new) :
    Follows A new (κ :: Γ) (fun w => ps.foldl (fun w p => (w.declare p).define p) w)
      (fun w => (ps.map (Token.renamed κ)).foldl (fun w p => (w.declare p).define p) w) (c.inside frame)
      (c.inside (frame ++ ps.map fun p => (p.lexeme, .parameter))) := by
  induction ps generalizing frame with
  | nil => simpa using Follows.id (c := c.inside frame)
  | cons p ps ih =>
    have hps : ∀ q ∈ ps, q.lexeme ≠ new := fun q hq => hn q (List.mem_cons_of_mem p hq)
    have hp : Follows A new (κ :: Γ) (fun w => (w.declare p).define p)
        (fun w => (w.declare (p.renamed κ)).define (p.renamed κ)) (c.inside frame)
        (c.inside (frame ++ [(p.lexeme, .parameter)])) :=
      declare_define_follows (c := c.inside frame) hc .parameter rfl (hn p List.mem_cons_self)
    have h := hp.comp (ih (frame ++ [(p.lexeme, .parameter)]) hps)
    rw [List.append_assoc] at h
    exact h

theorem checkReturn_follows (c : Context) (keyword : Token) (hasValue : Bool) :
    Follows A new Γ (checkReturn c.place keyword hasValue) (checkReturn c.place keyword hasValue) c c where
  passes := ⟨_, _, checkReturn_passes c keyword hasValue⟩
  alike := by
    intro w w' _ hw he
    unfold checkReturn at he ⊢
    by_cases hr : (hasValue && decide (c.place.body = .initializer)) = true
    · simp only [hr, if_true] at he
      exact absurd he (push_ne_empty _ _)
    · simp only [hr] at he ⊢
      by_cases ht : c.place.body = .topLevel
      · simp only [ht, if_true] at he
        exact absurd he (push_ne_empty _ _)
      · simpa [ht] using hw

mutual

theorem stmt_follows (hN : Novel A new) {Γ : Spelling} {s s' : Stmt} :
    AlikeStmt A Γ s s' → ∀ c : Context, c.initializing = none → s.Formed → s.Named (fun t => t.lexeme ≠ new) →
      Knows A (s.sites c) → Follows A new Γ (stmt c.place s) (stmt c.place s') c (c.after s)
  | .expression _ value, c, _, _, hn, hA => expr_follows hN c value hn hA
  | .print _ value, c, _, _, hn, hA => expr_follows hN c value hn hA
  | .var _ name none, _, hc, _, hn, _ => declare_define_follows hc .bare rfl hn
  | .var _ name (some value), c, hc, _, hn, hA =>
    ((declare_follows hc rfl hn.1).comp (expr_follows hN (c.inInitializer name) value hn.2 hA)).comp
      (define_follows hc .initialized rfl hn.1)
  | @AlikeStmt.block _ _ _ body _ hκ h, c, hc, hf, hn, hA => by
    have h := stmts_follow hN h (c.inside []) hc hf hn hA
    exact h.inScope hκ (fun _ => rfl) rfl rfl hc rfl hc (Context.afterAll_tail _ body)
      ((Context.afterAll_initializing _ body).trans hc)
  | .branch condition h, c, hc, hf, hn, hA => by
    have h := (expr_follows hN c condition hn.1 hA.left).comp (stmt_follows hN h c hc hf.2 hn.2 hA.right)
    rw [Context.after_of_not_declaration hf.1] at h
    exact h
  | .branchElse condition hyes hno, c, hc, hf, hn, hA => by
    have hyes := stmt_follows hN hyes c hc hf.1.2 hn.1.2 hA.left.right
    have hno := stmt_follows hN hno c hc hf.2.2 hn.2 hA.right
    rw [Context.after_of_not_declaration hf.1.1] at hyes
    rw [Context.after_of_not_declaration hf.2.1] at hno
    exact ((expr_follows hN c condition hn.1.1 hA.left.left).comp hyes).comp hno
  | .loop condition h, c, hc, hf, hn, hA => by
    have h := (expr_follows hN c condition hn.1 hA.left).comp (stmt_follows hN h c hc hf.2 hn.2 hA.right)
    rw [Context.after_of_not_declaration hf.1] at h
    exact h
  | .break _ _, _, _, _, _, _ => .id
  | .return _ keyword none, c, _, _, _, _ => checkReturn_follows c keyword false
  | .return _ keyword (some value), c, _, _, hn, hA =>
    (checkReturn_follows c keyword true).comp (expr_follows hN c value hn hA)
  | .function (f := f) hname h, c, hc, hf, hn, hA => by
    have hd := (Context.declare_initializing c f.name .function).trans hc
    have hnew : f.name.lexeme ≠ new := by
      cases f
      exact hn.1
    have hlexeme := hname.trans (congrArg Token.lexeme h.name_eq.symm)
    exact (declare_define_follows hc .function hlexeme hnew).comp
      (function_follows hN h (c.declare f.name .function) ⟨.function, c.place.inClass⟩ hd hf hn hA)
  | @AlikeStmt.class _ _ name _ _ hname h, c, hc, hf, hn, hA => by
    have hd := (Context.declare_initializing c name .class).trans hc
    have h := methods_follow hN h (c.declare name .class).inClass hd hf hn.2 hA
    have hthis : ("this" : String) ≠ new := hN.ne_this
    have hscope : thisScope.find? new = none := by simp [thisScope, NameMap.find?_set, hthis]
    exact (declare_define_follows hc .class hname hn.1).comp
      (h.inScope hN.refl (fun _ => rfl) hscope (by funext x; exact thisScope_view x) hd rfl hd rfl hd)

theorem stmts_follow (hN : Novel A new) {Γ : Spelling} {ss ss' : List Stmt} :
    AlikeStmts A Γ ss ss' → ∀ c : Context, c.initializing = none → Stmt.FormedAll ss →
      Stmt.NamedAll (fun t => t.lexeme ≠ new) ss → Knows A (Stmt.sitesAll c ss) →
      Follows A new Γ (stmts c.place ss) (stmts c.place ss') c (c.afterAll ss)
  | .nil _, _, _, _, _, _ => .id
  | .cons (s := s) h hs, c, hc, hf, hn, hA => by
    have hs := stmts_follow hN hs (c.after s) ((Context.after_initializing c s).trans hc) hf.2 hn.2 hA.right
    rw [Context.after_place] at hs
    exact (stmt_follows hN h c hc hf.1 hn.1 hA.left).comp hs

theorem function_follows (hN : Novel A new) {Γ : Spelling} {f f' : Function} :
    AlikeFunction A Γ f f' → ∀ (c : Context) (place : Place), c.initializing = none → f.Formed →
      f.Named (fun t => t.lexeme ≠ new) → Knows A (f.sites place c) →
      Follows A new Γ (function place f) (function place f') c c
  | @AlikeFunction.mk _ _ κ name parameters body _ hκ h, c, place, hc, hf, hn, hA => by
    have hp : Follows A new (κ :: Γ) _ _ _ _ :=
      parameters_follow (c := { c with place := place }) hc [] κ parameters hn.2.1
    have hb := stmts_follow hN h (c.inBody place parameters) hc hf hn.2.2 hA
    exact (hp.comp hb).inScope hκ (fun _ => rfl) rfl rfl hc rfl hc (Context.afterAll_tail _ body)
      ((Context.afterAll_initializing _ body).trans hc)

theorem methods_follow (hN : Novel A new) {Γ : Spelling} {fs fs' : List Function} :
    AlikeFunctions A Γ fs fs' → ∀ c : Context, c.initializing = none → Function.FormedAll fs →
      Function.NamedAll (fun t => t.lexeme ≠ new) fs → Knows A (Function.sitesAll c fs) →
      Follows A new Γ (methods fs) (methods fs') c c
  | .nil _, _, _, _, _, _ => .id
  | @AlikeFunctions.cons _ _ f f' _ _ h hs, c, hc, hf, hn, hA => by
    have hplace : methodPlace f' = methodPlace f := by
      unfold methodPlace
      rw [h.isInitializer_eq]
    have hmethod : Follows A new Γ (function (methodPlace f) f) (function (methodPlace f') f') c c := by
      rw [hplace]
      exact function_follows hN h c (methodPlace f) hc hf.1 hn.1 hA.left
    exact hmethod.comp (methods_follow hN hs c hc hf.2 hn.2 hA.right)

end

theorem Walk.Alike.start (A : Agreement) (new : String) : Walk.start.Alike A new [] .start where
  scopes := .nil
  unused := by simp [Walk.start]
  allowed := by simp
  errors := rfl
  distances := rfl
  topLevel := rfl

/-- A program that is alike to an accepted one has the same binding. -/
theorem ofProgram_alike (hN : Novel A new) {ss ss' : List Stmt} {b : Binding} (h : AlikeStmts A [] ss ss')
    (hf : Stmt.FormedAll ss) (hn : Stmt.NamedAll (fun t => t.lexeme ≠ new) ss) (hA : Knows A (Stmt.sitesAll .top ss))
    (hb : ofProgram ss = .ok b) : ofProgram ss' = .ok b := by
  have herrors : (walk ss).errors = #[] := exists_ofProgram_iff.1 ⟨b, hb⟩
  have hfollows := stmts_follow hN h .top rfl hf hn hA
  have halike : (walk ss).Alike A new [] (walk ss') := hfollows.alike _ _ rfl (.start A new) herrors
  rw [ofProgram_eq] at hb ⊢
  rw [halike.errors, halike.distances, halike.topLevel, ← herrors]
  exact hb

end LoxLang.Binding
