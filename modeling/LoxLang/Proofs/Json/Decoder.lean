import LoxLang.Number.Text
import LoxLang.Text.Quoted

namespace LoxLang

/-- A number is a decimal under a sign, an object its members in order. -/
inductive Json where
  | null
  | bool (value : Bool)
  | number (negative : Bool) (value : Number.Decimal)
  | string (text : String)
  | array (elements : List Json)
  | object (members : List (String × Json))

namespace Json

def isSpace (c : Char) : Bool := c == ' ' || c == '\t' || c == '\n' || c == '\r'

def skip (cs : List Char) : List Char := cs.dropWhile isSpace

/-- Spaces, and then this character. -/
def expect (c : Char) (cs : List Char) : Option (List Char) :=
  match skip cs with
  | d :: rest => if d = c then some rest else none
  | [] => none

def hexValue? (c : Char) : Option Nat :=
  if c.isDigit then some (c.toNat - '0'.toNat)
  else if 'a' ≤ c ∧ c ≤ 'f' then some (10 + (c.toNat - 'a'.toNat))
  else if 'A' ≤ c ∧ c ≤ 'F' then some (10 + (c.toNat - 'A'.toNat))
  else none

/-- Four hexadecimal digits. -/
def codeUnit : List Char → Option (Nat × List Char)
  | a :: b :: c :: d :: rest => do
    let a ← hexValue? a
    let b ← hexValue? b
    let c ← hexValue? c
    let d ← hexValue? d
    some (16 * (16 * (16 * a + b) + c) + d, rest)
  | _ => none

/-- The character of a code unit, or of two that are surrogates for it. -/
def codePoint (cs : List Char) : Option (Char × List Char) := do
  let (high, rest) ← codeUnit cs
  if high < 0xd800 || 0xe000 ≤ high then some (Char.ofNat high, rest)
  else if 0xdc00 ≤ high then none
  else
    match rest with
    | '\\' :: 'u' :: rest => do
      let (low, rest) ← codeUnit rest
      if 0xdc00 ≤ low && low < 0xe000 then
        some (Char.ofNat (0x10000 + 0x400 * (high - 0xd800) + (low - 0xdc00)), rest)
      else none
    | _ => none

/-- What a character stands for behind a backslash. -/
def unescape? : Char → Option Char
  | '"' => some '"'
  | '\\' => some '\\'
  | '/' => some '/'
  | 'b' => some '\x08'
  | 'f' => some '\x0c'
  | 'n' => some '\n'
  | 'r' => some '\r'
  | 't' => some '\t'
  | _ => none

/-- One character of a string; controls have to be escaped. -/
def character : List Char → Option (Char × List Char)
  | '\\' :: 'u' :: rest => codePoint rest
  | '\\' :: c :: rest => (unescape? c).map (·, rest)
  | ['\\'] => none
  | c :: rest => if c.toNat < 0x20 then none else some (c, rest)
  | [] => none

/-- Whatever is read takes characters, so readers come to an end. -/
theorem codeUnit_lt {cs rest : List Char} {n : Nat} (h : codeUnit cs = some (n, rest)) : rest.length < cs.length := by
  unfold codeUnit at h
  split at h
  · simp only [Option.bind_eq_bind, Option.bind_eq_some_iff] at h
    obtain ⟨a, -, b, -, c, -, d, -, h⟩ := h
    cases h
    simp only [List.length_cons]
    omega
  · cases h

theorem codePoint_lt {cs rest : List Char} {c : Char} (h : codePoint cs = some (c, rest)) :
    rest.length < cs.length := by
  obtain ⟨⟨high, more⟩, hhigh, h⟩ := Option.bind_eq_some_iff.1 h
  have hmore := codeUnit_lt hhigh
  dsimp only at h
  split at h
  · cases h
    exact hmore
  · split at h
    · cases h
    · split at h
      · obtain ⟨⟨low, last⟩, hlow, h⟩ := Option.bind_eq_some_iff.1 h
        have hlast := codeUnit_lt hlow
        dsimp only at h
        split at h
        · rw [← (Prod.mk.inj (Option.some.inj h)).2]
          simp only [List.length_cons] at hmore
          omega
        · cases h
      · cases h

theorem character_lt {cs rest : List Char} {c : Char} (h : character cs = some (c, rest)) :
    rest.length < cs.length := by
  unfold character at h
  split at h
  · have := codePoint_lt h
    simp only [List.length_cons]
    omega
  · obtain ⟨d, -, h⟩ := Option.map_eq_some_iff.1 h
    cases h
    simp only [List.length_cons]
    omega
  · cases h
  · split at h
    · cases h
    · cases h
      exact Nat.lt_succ_self _
  · cases h

/-- The characters up to the quote that ends a string. -/
def text (cs : List Char) : Option (List Char × List Char) :=
  match cs with
  | '"' :: rest => some ([], rest)
  | cs =>
    match _h : character cs with
    | some (c, rest) => (text rest).map fun (t, rest) => (c :: t, rest)
    | none => none
termination_by cs.length
decreasing_by exact character_lt _h

/-- One digit or more. -/
def digits (cs : List Char) : Option (List Char × List Char) :=
  if (cs.takeWhile Char.isDigit).isEmpty then none
  else some (cs.takeWhile Char.isDigit, cs.dropWhile Char.isDigit)

/-- An integer has no zeros in front. -/
def integer : List Char → Option (List Char × List Char)
  | '0' :: rest => some (['0'], rest)
  | cs => digits cs

def fraction : List Char → Option (List Char × List Char)
  | '.' :: rest => digits rest
  | cs => some ([], cs)

/-- The digits of an exponent, behind its sign. -/
def magnitudeOfExponent (negative : Bool) (cs : List Char) : Option (Int × List Char) :=
  (digits cs).map fun (ds, rest) =>
    (if negative then -(Number.ofDigits ds : Int) else Number.ofDigits ds, rest)

def signedExponent : List Char → Option (Int × List Char)
  | '-' :: rest => magnitudeOfExponent true rest
  | '+' :: rest => magnitudeOfExponent false rest
  | cs => magnitudeOfExponent false cs

def exponent : List Char → Option (Int × List Char)
  | 'e' :: rest => signedExponent rest
  | 'E' :: rest => signedExponent rest
  | cs => some (0, cs)

def decimal (cs : List Char) : Option (Number.Decimal × List Char) := do
  let (whole, rest) ← integer cs
  let (part, rest) ← fraction rest
  let (shift, rest) ← exponent rest
  some (⟨Number.ofDigits (whole ++ part), shift - part.length⟩, rest)

def numeral : List Char → Option (Json × List Char)
  | '-' :: rest => (decimal rest).map fun (d, rest) => (.number true d, rest)
  | cs => (decimal cs).map fun (d, rest) => (.number false d, rest)

mutual

/-- A value, where no more than so many stand in one another and before one another. -/
def value : Nat → List Char → Option (Json × List Char)
  | 0, _ => none
  | steps + 1, cs =>
    match skip cs with
    | 'n' :: 'u' :: 'l' :: 'l' :: rest => some (.null, rest)
    | 't' :: 'r' :: 'u' :: 'e' :: rest => some (.bool true, rest)
    | 'f' :: 'a' :: 'l' :: 's' :: 'e' :: rest => some (.bool false, rest)
    | '"' :: rest => (text rest).map fun (t, rest) => (.string (String.ofList t), rest)
    | '[' :: rest =>
      match expect ']' rest with
      | some rest => some (.array [], rest)
      | none => (elements steps rest).map fun (vs, rest) => (.array vs, rest)
    | '\x7b' :: rest =>
      match expect '\x7d' rest with
      | some rest => some (.object [], rest)
      | none => (members steps rest).map fun (ms, rest) => (.object ms, rest)
    | cs => numeral cs

/-- The elements of an array, up to its end. -/
def elements : Nat → List Char → Option (List Json × List Char)
  | 0, _ => none
  | steps + 1, cs => do
    let (v, rest) ← value steps cs
    match skip rest with
    | ',' :: rest => (elements steps rest).map fun (vs, rest) => (v :: vs, rest)
    | ']' :: rest => some ([v], rest)
    | _ => none

/-- The members of an object, up to its end. -/
def members : Nat → List Char → Option (List (String × Json) × List Char)
  | 0, _ => none
  | steps + 1, cs => do
    let rest ← expect '"' cs
    let (key, rest) ← text rest
    let rest ← expect ':' rest
    let (v, rest) ← value steps rest
    match skip rest with
    | ',' :: rest => (members steps rest).map fun (ms, rest) => ((String.ofList key, v) :: ms, rest)
    | '\x7d' :: rest => some ([(String.ofList key, v)], rest)
    | _ => none

end

/-- The value that a text stands for. Every value takes a character at least. -/
def decode (cs : List Char) : Option Json := do
  let (v, rest) ← value (cs.length + 1) cs
  if (skip rest).isEmpty then some v else none

example : decode " [1.50e2, \"\\ud83d\\ude00\\u0041\", null]".toList =
    some (.array [.number false ⟨150, 0⟩, .string "😀A", .null]) := by
  cbv

def member? (key : String) : Json → Option Json
  | object members => members.lookup key
  | _ => none

def string? : Json → Option String
  | string text => some text
  | _ => none

/-- The natural number that is meant by digits alone. -/
def natural? : Json → Option Nat
  | number false d => if 0 ≤ d.exponent then some d.numerator else none
  | _ => none

section

open Text.Quoted

/-- Hexadecimal digits are read as they are written. -/
theorem hexValue?_hexDigit : ∀ n < 16, hexValue? (hexDigit n) = some n := by decide

/-- The three forms of a character: behind a backslash, as a code unit, as it is. -/
theorem escape_cases (c : Char) :
    (∃ d, 0x20 ≤ d.toNat ∧ escape c = ['\\', d] ∧ unescape? d = some c) ∨
    (c.toNat < 0x20 ∧ escape c = ['\\', 'u', '0', '0', hexDigit (c.toNat / 16), hexDigit (c.toNat % 16)]) ∨
    (c ≠ '"' ∧ c ≠ '\\' ∧ 0x20 ≤ c.toNat ∧ escape c = [c]) := by
  by_cases hshort : c ∈ ['"', '\\', '\x08', '\x0c', '\n', '\r', '\t']
  · refine .inl ?_
    simp only [List.mem_cons, List.not_mem_nil, or_false] at hshort
    obtain rfl | rfl | rfl | rfl | rfl | rfl | rfl := hshort
    all_goals exact ⟨_, by decide, rfl, rfl⟩
  · simp only [List.mem_cons, List.not_mem_nil, or_false, not_or] at hshort
    unfold escape
    by_cases hcontrol : c.toNat < 0x20
    · exact .inr (.inl ⟨hcontrol, by simp [hshort, hcontrol]⟩)
    · exact .inr (.inr ⟨hshort.1, hshort.2.1, Nat.le_of_not_lt hcontrol, by simp [hshort, hcontrol]⟩)

/-- However a character is written, it is read. -/
theorem character_escape (c : Char) (rest : List Char) : character (escape c ++ rest) = some (c, rest) := by
  obtain ⟨d, -, hescape, hc⟩ | ⟨hcontrol, hescape⟩ | ⟨-, hslash, hshown, hescape⟩ := escape_cases c
  · have hunit : d ≠ 'u' := by
      rintro rfl
      cases hc
    rw [hescape, List.cons_append, List.singleton_append, character, hc, Option.map_some]
    exact hunit
  · have hhigh := hexValue?_hexDigit (c.toNat / 16) (by omega)
    have hlow := hexValue?_hexDigit (c.toNat % 16) (by omega)
    have hzero : hexValue? '0' = some 0 := rfl
    have hvalue : 16 * (c.toNat / 16) + c.toNat % 16 = c.toNat := Nat.div_add_mod _ _
    have hbelow : c.toNat < 0xd800 := by omega
    rw [hescape]
    simp [character, codePoint, codeUnit, hhigh, hlow, hzero, hvalue, hbelow]
  · rw [hescape]
    have hplain : ¬c.toNat < 0x20 := Nat.not_lt.2 hshown
    simp [character, hslash, hplain]

/-- No written form begins with the quote that ends a string. -/
theorem escape_head (c : Char) : ∃ d ds, escape c = d :: ds ∧ d ≠ '"' := by
  obtain ⟨d, -, hescape, -⟩ | ⟨-, hescape⟩ | ⟨hquote, -, -, hescape⟩ := escape_cases c
  · exact ⟨_, _, hescape, by decide⟩
  · exact ⟨_, _, hescape, by decide⟩
  · exact ⟨_, _, hescape, hquote⟩

/-- Nothing that is written is a control. -/
theorem le_of_mem_escape {c d : Char} (h : d ∈ escape c) : 0x20 ≤ d.toNat := by
  have hdigit : ∀ n < 16, 0x20 ≤ (hexDigit n).toNat := by decide
  obtain ⟨e, he, hescape, -⟩ | ⟨hcontrol, hescape⟩ | ⟨-, -, hshown, hescape⟩ := escape_cases c
  · rw [hescape] at h
    simp only [List.mem_cons, List.not_mem_nil, or_false] at h
    obtain rfl | rfl := h
    · decide
    · exact he
  · rw [hescape] at h
    simp only [List.mem_cons, List.not_mem_nil, or_false] at h
    obtain rfl | rfl | rfl | rfl | rfl | rfl := h
    any_goals decide
    · exact hdigit _ (by omega)
    · exact hdigit _ (by omega)
  · rw [hescape, List.mem_singleton] at h
    rwa [h]

/-- One character of a string and then the others. -/
theorem text_escape (c : Char) (rest : List Char) :
    text (escape c ++ rest) = (text rest).map fun (t, rest) => (c :: t, rest) := by
  have hread := character_escape c rest
  obtain ⟨d, ds, hd, hne⟩ := escape_head c
  rw [hd, List.cons_append] at hread ⊢
  rw [text.eq_def]
  split
  · next heq => exact absurd (List.cons.inj heq).1 hne
  · split
    · next c' rest' hfound =>
      rw [hread] at hfound
      cases hfound
      rfl
    · next hnone =>
      rw [hread] at hnone
      cases hnone

/-- A text is read as it was, whatever its characters. -/
theorem text_encode (cs rest : List Char) : text (cs.flatMap escape ++ '"' :: rest) = some (cs, rest) := by
  induction cs with
  | nil => rw [List.flatMap_nil, List.nil_append, text]
  | cons c cs ih => rw [List.flatMap_cons, List.append_assoc, text_escape, ih, Option.map_some]

variable {steps : Nat} {cs key more rest : List Char} {v : Json} {ms : List (String × Json)}

theorem encode_append (cs rest : List Char) : encode cs ++ rest = '"' :: (cs.flatMap escape ++ '"' :: rest) := by
  simp [encode]

theorem expect_same {c : Char} (hc : isSpace c = false) : expect c (c :: rest) = some rest := by
  simp [expect, skip, hc]

theorem expect_other {c d : Char} (hd : isSpace d = false) (h : d ≠ c) : expect c (d :: rest) = none := by
  simp [expect, skip, hd, h]

/-- What is written as a string is read as that string. -/
theorem value_encode (cs rest : List Char) :
    value (steps + 1) (encode cs ++ rest) = some (.string (String.ofList cs), rest) := by
  rw [encode_append]
  simp [value, skip, isSpace, text_encode]

theorem value_null : value (steps + 1) ('n' :: 'u' :: 'l' :: 'l' :: rest) = some (.null, rest) := by
  simp [value, skip, isSpace]

/-- The last member of an object. -/
theorem members_last (h : value steps more = some (v, '\x7d' :: rest)) :
    members (steps + 1) (encode key ++ ':' :: more) = some ([(String.ofList key, v)], rest) := by
  rw [encode_append]
  simp [members, expect_same, isSpace, text_encode, h, skip]

/-- A member of an object and, behind a comma, the others. -/
theorem members_cons (h : value steps more = some (v, ',' :: cs)) (hrest : members steps cs = some (ms, rest)) :
    members (steps + 1) (encode key ++ ':' :: more) = some ((String.ofList key, v) :: ms, rest) := by
  rw [encode_append]
  simp [members, expect_same, isSpace, text_encode, h, hrest, skip]

theorem value_object (h : members steps (encode key ++ more) = some (ms, rest)) :
    value (steps + 1) ('\x7b' :: (encode key ++ more)) = some (.object ms, rest) := by
  rw [encode_append] at h ⊢
  simp [value, skip, isSpace, expect_other, h]

/-- An object with one member. -/
theorem value_single {text : List Char} (h : value steps (text ++ '\x7d' :: rest) = some (v, '\x7d' :: rest)) :
    value (steps + 2) ('\x7b' :: encode key ++ ':' :: text ++ ['\x7d'] ++ rest) =
      some (.object [(String.ofList key, v)], rest) := by
  have hobject := value_object (@members_last _ key _ _ _ h)
  simpa using hobject

end

end Json

end LoxLang
