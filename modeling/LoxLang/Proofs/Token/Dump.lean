import LoxLang.Session
import LoxLang.Proofs.Json.Numbers
import LoxLang.Proofs.Session.Accepted

namespace LoxLang

namespace Json

open Number Text.Quoted

/-- The number that is nearest. -/
def double? : Json → Option Number
  | number negative d => some (.ofParts negative d.magnitude)
  | _ => none

/-- A comma or a brace ends a number. -/
theorem ends_cons {c : Char} (hc : c ∈ [',', '\x7d']) (rest : List Char) : Ends (c :: rest) := by
  rintro d ⟨⟩
  simp only [List.mem_cons, List.not_mem_nil, or_false] at hc
  obtain rfl | rfl := hc <;> decide

/-- A natural number in digits. -/
theorem value_digitsOf {steps : Nat} (n : Nat) {rest : List Char} (hrest : Ends rest) :
    value (steps + 1) (digitsOf n ++ rest) = some (.number false ⟨n, 0⟩, rest) := by
  have hread := @decimal_plain _ [] _ (leads_digitsOf n) (fun _ => isDigit_of_mem_digitsOf) (by simp) hrest
  rw [List.append_nil, ofDigits_digitsOf] at hread
  exact value_numeral (numeral_unsigned hread)

/-- A number, if JSON can write it. -/
theorem value_jsonText {steps : Nat} (x : Number) {rest : List Char} (hrest : Ends rest) :
    ∃ v, value (steps + 1) (x.jsonText ++ rest) = some (v, rest) ∧
      if x.isFinite then v.double? = some x else v = .null := by
  split
  · next hfinite =>
    obtain ⟨d, hd, hmagnitude⟩ := numeral_jsonText hfinite hrest
    exact ⟨_, value_numeral hd, by rw [double?, hmagnitude, ofParts_eq]⟩
  · next hinfinite =>
    rw [jsonText, if_neg hinfinite]
    exact ⟨_, value_null, rfl⟩

end Json

namespace Token

/-- The literal in a token's JSON. Null stands for a number that JSON cannot write. -/
inductive Payload where
  | none
  | text (text : String)
  | number (value : Number)
  | null
deriving DecidableEq, Repr

/-- A token as its JSON tells it. -/
structure Entry where
  /-- The name of the kind. -/
  name : String
  payload : Payload
  lexeme : String
  line : Nat
deriving DecidableEq, Repr

def Kind.payload : Kind → Payload
  | .string text => .text text
  | .number x => if x.isFinite then .number x else .null
  | _ => .none

def entry (t : Token) : Entry := ⟨t.kind.name, t.kind.payload, t.lexeme, t.line⟩

namespace Entry

/-- The literal beside the name of a kind. -/
def payload? : Json → Option Payload
  | .null => some .null
  | .string text => some (.text text)
  | v => v.double?.map .number

/-- A kind: a name, or an object of which the only member has it. -/
def kind? : Json → Option (String × Payload)
  | .string name => some (name, .none)
  | .object [(name, v)] => (payload? v).map (name, ·)
  | _ => none

/-- What an object tells of a token. -/
def ofJson? (v : Json) : Option Entry := do
  let (name, payload) ← kind? (← v.member? "token_type")
  let lexeme ← (← v.member? "lexeme").string?
  let line ← (← v.member? "line").natural?
  some ⟨name, payload, lexeme, line⟩

theorem payload?_double {v : Json} {x : Number} (h : v.double? = some x) : payload? v = some (.number x) := by
  cases v with
  | number negative d => exact congrArg (Option.map Payload.number) h
  | _ => cases h

/-- The kinds without literals. -/
def plainKinds : List Kind := Mark.all.map .mark ++ Keyword.all.map .keyword ++ [.identifier, .finish]

def kindOf? (name : String) : Payload → Option Kind
  | .none => plainKinds.find? (·.name == name)
  | .text text => if name = "STRING" then some (.string text) else none
  | .number x => if name = "NUMBER" then some (.number x) else none
  | .null => none

/-- The token, if its number has been told. -/
def token? (e : Entry) : Option Token := (kindOf? e.name e.payload).map fun kind => ⟨kind, e.lexeme, e.line⟩

end Entry

/-- No number, or one that JSON can write. -/
def Kind.isFinite : Kind → Bool
  | .number x => x.isFinite
  | _ => true

/-- The name of a kind and its literal tell the kind, unless its number has not been told. -/
theorem token?_entry {t : Token} (h : t.kind.isFinite = true) : t.entry.token? = some t := by
  obtain ⟨kind, lexeme, line⟩ := t
  suffices hkind : Entry.kindOf? kind.name kind.payload = some kind by simp [Entry.token?, entry, hkind]
  cases kind with
  | mark m => cases m <;> rfl
  | keyword k => cases k <;> rfl
  | identifier => rfl
  | string text => rfl
  | number x =>
    have hx : x.isFinite = true := h
    simp [Kind.payload, hx, Entry.kindOf?, Kind.name]
  | finish => rfl

open Json Number Text.Quoted

/-- A kind is read as what it tells. -/
theorem value_kind {steps : Nat} (kind : Kind) (rest : List Char) :
    ∃ v, value (steps + 3) (kind.json ++ ',' :: rest) = some (v, ',' :: rest) ∧
      Entry.kind? v = some (kind.name, kind.payload) := by
  cases kind with
  | string text =>
    exact ⟨_, value_single (value_encode _ _), by simp [Entry.kind?, Entry.payload?, Kind.payload, Kind.name]⟩
  | number x =>
    obtain ⟨v, hv, hnumber⟩ := @value_jsonText steps x ('\x7d' :: ',' :: rest) (ends_cons (by simp) _)
    refine ⟨_, value_single hv, ?_⟩
    split at hnumber
    · next hfinite => simp [Entry.payload?_double hnumber, Entry.kind?, Kind.payload, Kind.name, hfinite]
    · next hinfinite => simp [hnumber, Entry.kind?, Entry.payload?, Kind.payload, Kind.name, hinfinite]
  | _ => exact ⟨_, value_encode _ _, by simp [Entry.kind?, Kind.payload]⟩

/-- The JSON of a token is an object that tells the token. -/
theorem value_json {steps : Nat} (t : Token) :
    ∃ ms, value (steps + 5) t.json = some (.object ms, []) ∧ Entry.ofJson? (.object ms) = some t.entry := by
  have hline := @value_digitsOf steps t.line ['\x7d'] (ends_cons (by simp) _)
  have hlast := @members_last _ "line".toList _ _ _ hline
  have hlexeme := @members_cons _ _ "lexeme".toList _ _ _ _ (value_encode t.lexeme.toList _) hlast
  obtain ⟨v, hv, hkind⟩ := @value_kind steps t.kind
    (member "lexeme" (encode t.lexeme.toList) ++ ',' :: member "line" (digitsOf t.line) ++ ['\x7d'])
  have hrest : member "lexeme" (encode t.lexeme.toList) ++ ',' :: member "line" (digitsOf t.line) ++ ['\x7d'] =
      encode "lexeme".toList ++ ':' :: (encode t.lexeme.toList ++
        ',' :: (encode "line".toList ++ ':' :: (digitsOf t.line ++ ['\x7d']))) := by
    simp [member]
  rw [hrest] at hv
  have hobject := value_object (@members_cons _ _ "token_type".toList _ _ _ _ hv hlexeme)
  refine ⟨[("token_type", v), ("lexeme", .string t.lexeme), ("line", .number false ⟨t.line, 0⟩)], ?_, ?_⟩
  · simpa [json, member] using hobject
  · have hnatural : (Json.number false ⟨t.line, 0⟩).natural? = some t.line := by
      simp [natural?, Decimal.numerator, tenPow]
    simp [Entry.ofJson?, member?, List.lookup_cons, hkind, string?, hnatural, entry]

/-- A decoder gets what a token is from its JSON. -/
theorem decode_json (t : Token) :
    ∃ ms, Json.decode t.json = some (.object ms) ∧ Entry.ofJson? (.object ms) = some t.entry := by
  have hlength : 4 ≤ t.json.length := by
    simp only [json, List.cons_append, List.length_cons, List.length_append]
    omega
  obtain ⟨steps, hsteps⟩ := Nat.exists_eq_add_of_le' hlength
  obtain ⟨ms, hms, hentry⟩ := @value_json steps t
  refine ⟨ms, ?_, hentry⟩
  rw [Json.decode, hsteps, hms]
  rfl

/-- All characters are shown, or blanks. -/
def Shown (cs : List Char) : Prop := ∀ c ∈ cs, 0x20 ≤ c.toNat

theorem Shown.append {cs ds : List Char} (hc : Shown cs) (hd : Shown ds) : Shown (cs ++ ds) :=
  fun _ h => (List.mem_append.1 h).elim (hc _) (hd _)

theorem Shown.cons {c : Char} {cs : List Char} (hc : 0x20 ≤ c.toNat) (hcs : Shown cs) : Shown (c :: cs) :=
  List.forall_mem_cons.2 ⟨hc, hcs⟩

theorem shown_of_isDigit {cs : List Char} (h : ∀ c ∈ cs, c.isDigit) : Shown cs := by
  intro c hc
  have hdigit := Char.isDigit_iff_toNat.1 (h c hc)
  exact (by decide : 0x20 ≤ 48).trans hdigit.1

theorem shown_digitsOf (n : Nat) : Shown (digitsOf n) := shown_of_isDigit fun _ => isDigit_of_mem_digitsOf

/-- Controls in a text are escaped. -/
theorem shown_encode (text : List Char) : Shown (encode text) := by
  refine .append (.cons (by decide) fun c hc => ?_) (.cons (by decide) (List.forall_mem_nil _))
  obtain ⟨d, -, hd⟩ := List.mem_flatMap.1 hc
  exact le_of_mem_escape hd

theorem shown_positional (d : Decimal) : Shown d.positional := by
  by_cases h : 0 ≤ d.exponent
  · rw [Decimal.positional_whole h]
    exact (shown_digitsOf _).append (shown_of_isDigit fun _ => isDigit_of_mem_zeros)
  · obtain ⟨whole, part, htext, -, hdigits, -⟩ := Decimal.positional_point (not_le.1 h)
    rw [htext]
    exact (shown_of_isDigit fun c hc => hdigits c (List.mem_append_left _ hc)).append
      (.cons (by decide) (shown_of_isDigit fun c hc => hdigits c (List.mem_append_right _ hc)))

theorem shown_scientific (d : Decimal) : Shown d.scientific := by
  have hdigits := shown_digitsOf d.digits
  have htake : Shown ((digitsOf d.digits).take 1) := fun c hc => hdigits c (List.mem_of_mem_take hc)
  have hdrop : Shown ((digitsOf d.digits).drop 1) := fun c hc => hdigits c (List.mem_of_mem_drop hc)
  unfold Decimal.scientific
  refine .append (.append htake ?_) (.cons (by decide) (.cons ?_ (shown_digitsOf _)))
  · split
    · exact List.forall_mem_nil _
    · exact .cons (by decide) hdrop
  · split <;> decide

theorem shown_jsonText (x : Number) : Shown x.jsonText := by
  have hsigned : ∀ {text}, Shown text → Shown (x.signed text) := by
    intro text htext
    unfold signed
    split
    · exact .cons (by decide) htext
    · exact htext
  have hzero : Shown ['.', '0'] := .cons (by decide) (.cons (by decide) (List.forall_mem_nil _))
  unfold jsonText
  split
  · refine hsigned ?_
    split
    · exact shown_scientific _
    · split
      · exact (shown_positional _).append hzero
      · exact shown_positional _
  · exact .cons (by decide) (.cons (by decide) (.cons (by decide) (.cons (by decide) (List.forall_mem_nil _))))

theorem shown_kind (kind : Kind) : Shown kind.json := by
  have hobject : ∀ {text}, Shown text → Shown ('\x7b' :: encode kind.name.toList ++ ':' :: text ++ ['\x7d']) :=
    fun htext => .append (.append (.cons (by decide) (shown_encode _)) (.cons (by decide) htext))
      (.cons (by decide) (List.forall_mem_nil _))
  cases kind with
  | string text => exact hobject (shown_encode _)
  | number x => exact hobject (shown_jsonText x)
  | _ => exact shown_encode _

/-- Nothing in the JSON of a token is a control. -/
theorem shown_json (t : Token) : Shown t.json := by
  have hmember : ∀ {key text}, Shown text → Shown (member key text) :=
    fun htext => .append (shown_encode _) (.cons (by decide) htext)
  exact .append (.append (.append (.cons (by decide) (hmember (shown_kind _)))
    (.cons (by decide) (hmember (shown_encode _)))) (.cons (by decide) (hmember (shown_digitsOf _))))
    (.cons (by decide) (List.forall_mem_nil _))

end Token

namespace Session

/-- What a source's tokens add to the standard output, as JSON. -/
def dumped (s : Session) (source : String) : String :=
  Write.textOn .out ((s.printTokens true source).written.toList.drop s.written.size)

theorem reportAll_lexical (s : Session) (es : List LexicalError) :
    (s.reportAll (es.map .lexical)).written =
      s.written ++ (es.map fun e => ⟨.err, (Diagnostic.lexical e).message ++ "\n"⟩ : List Write).toArray := by
  induction es generalizing s with
  | nil => simp [reportAll]
  | cons e es ih =>
    have h := ih (s.report (.lexical e))
    change ((s.report (.lexical e)).reportAll (es.map .lexical)).written = _
    rw [h]
    simp [report, writeLine, write, Diagnostic.isStatic]

/-- Errors are written before all tokens. -/
theorem printTokens_written (s : Session) (source : String) :
    (s.printTokens true source).written.toList = s.written.toList ++
      ((LexicalError.ofSource source).map (fun e => ⟨.err, (Diagnostic.lexical e).message ++ "\n"⟩) ++
        (Token.ofSource source).map fun t => ⟨.out, String.ofList t.json ++ "\n"⟩) := by
  unfold printTokens
  rw [writeLines_eq]
  simp [reportAll_lexical, Write.ofRun]

theorem dumped_toList (s : Session) (source : String) :
    (s.dumped source).toList = ((Token.ofSource source).map Token.json).flatMap (· ++ ['\n']) := by
  unfold dumped
  rw [printTokens_written, List.drop_left' (by simp)]
  simp [Write.textOn, List.filter_map, Function.comp_def, String.toList_join, List.flatMap_map]

/-- Lines that each end in a newline are joined by newlines, with an empty one at the end. -/
theorem intercalate_concat_nil {α : Type} (x : α) (ls : List (List α)) :
    [x].intercalate (ls ++ [[]]) = ls.flatMap (· ++ [x]) := by
  induction ls with
  | nil => rfl
  | cons l ls ih =>
    rw [List.cons_append, List.intercalate_cons_of_ne_nil (by simp), ih, List.flatMap_cons]

/-- The lines of the dump are the tokens. -/
theorem splitOn_dumped (s : Session) (source : String) :
    (s.dumped source).toList.splitOn '\n' = (Token.ofSource source).map Token.json ++ [[]] := by
  rw [dumped_toList, ← intercalate_concat_nil]
  refine List.splitOn_intercalate '\n' ?_ (by simp)
  intro line hline hnewline
  obtain hline | hline := List.mem_append.1 hline
  · obtain ⟨t, -, rfl⟩ := List.mem_map.1 hline
    exact absurd (Token.shown_json t _ hnewline) (by decide)
  · rw [List.mem_singleton.1 hline] at hnewline
    cases hnewline

/-- After the lexical errors each token is written on a line of its own, without controls. As JSON this line is an
object that tells the token: its kind, its lexeme, its line, the text of a string and the number, if that is finite.
So sources of which all numbers are finite have the same tokens if the same is written for them. -/
theorem json_dump_tells_tokens (s : Session) (source : String) :
    (s.printTokens true source).written.toList = s.written.toList ++
      ((LexicalError.ofSource source).map (fun e => ⟨.err, (Diagnostic.lexical e).message ++ "\n"⟩) ++
        (Token.ofSource source).map fun t => ⟨.out, String.ofList t.json ++ "\n"⟩) ∧
    (s.dumped source).toList.splitOn '\n' = (Token.ofSource source).map Token.json ++ [[]] ∧
    (∀ t ∈ Token.ofSource source, Token.Shown t.json ∧
      ∃ ms, Json.decode t.json = some (.object ms) ∧ Token.Entry.ofJson? (.object ms) = some t.entry ∧
        (t.kind.isFinite = true → t.entry.token? = some t)) ∧
    ∀ (s' : Session) (source' : String), (∀ t ∈ Token.ofSource source, t.kind.isFinite = true) →
      (∀ t ∈ Token.ofSource source', t.kind.isFinite = true) → s.dumped source = s'.dumped source' →
      Token.ofSource source = Token.ofSource source' := by
  refine ⟨printTokens_written s source, splitOn_dumped s source, fun t _ => ⟨Token.shown_json t, ?_⟩, ?_⟩
  · obtain ⟨ms, hms, hentry⟩ := Token.decode_json t
    exact ⟨ms, hms, hentry, Token.token?_entry⟩
  · intro s' source' hfinite hfinite' hsame
    have hlines := congrArg (fun text : String => text.toList.splitOn '\n') hsame
    simp only [splitOn_dumped, List.append_cancel_right_eq] at hlines
    -- what a line tells is the token
    have hback : ∀ {ts : List Token}, (∀ t ∈ ts, t.kind.isFinite = true) →
        (ts.map Token.json).map (fun line => ((Json.decode line).bind Token.Entry.ofJson?).bind Token.Entry.token?) =
          ts.map some := by
      intro ts hts
      rw [List.map_map]
      refine List.map_congr_left fun t ht => ?_
      obtain ⟨ms, hms, hentry⟩ := Token.decode_json t
      simp [hms, hentry, Token.token?_entry (hts t ht)]
    have htokens := hback hfinite
    rw [hlines, hback hfinite'] at htokens
    exact (List.map_injective_iff.2 (Option.some_injective _) htokens).symm

/-- Blanks are not told. -/
theorem json_dump_tells_tokens_blanks :
    initial.dumped "x=\"\n\"" = initial.dumped "x = \"\n\"" ∧
      Token.ofSource "x=\"\n\"" = Token.ofSource "x = \"\n\"" :=
  have hsame : initial.dumped "x=\"\n\"" = initial.dumped "x = \"\n\"" := by decide +kernel
  ⟨hsame, (json_dump_tells_tokens initial "x=\"\n\"").2.2.2 initial "x = \"\n\"" (by decide +kernel) (by decide +kernel)
    hsame⟩

end Session

end LoxLang
