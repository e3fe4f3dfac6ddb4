import Mathlib.Data.List.Forall2
import LoxLang.Tree.Printer

namespace LoxLang

namespace Printed

/-- What a printed tree is made of, apart from blanks. -/
inductive Sign where
  | opening
  | closing
  | word (text : String)

/-- Part of a word. -/
def isPlain (c : Char) : Bool := !(c == ' ' || c == '(' || c == ')')

def signs : List Char → List Sign
  | [] => []
  | c :: cs =>
    if c = '(' then .opening :: signs cs
    else if c = ')' then .closing :: signs cs
    else if c = ' ' then signs cs
    else .word (String.ofList (c :: cs.takeWhile isPlain)) :: signs (cs.dropWhile isPlain)
termination_by cs => cs.length
decreasing_by
  all_goals simp only [List.length_cons]
  · omega
  · omega
  · omega
  · exact Nat.lt_succ_of_le (List.dropWhile_sublist isPlain).length_le

inductive Form where
  | word (text : String)
  | node (parts : List Form)

namespace Form

mutual

def signs : Form → List Sign
  | .word text => [.word text]
  | .node parts => .opening :: (signsAll parts ++ [.closing])

def signsAll : List Form → List Sign
  | [] => []
  | f :: fs => f.signs ++ signsAll fs

end

/-- Read signs inside of nodes that are not yet closed; `around` are their parts so far, the innermost first, and
`before` are the parts of the node that is being read. -/
def gather (around : List (List Form)) (before : List Form) : List Sign → Option Form
  | [] =>
    match around, before with
    | [], [form] => some form
    | _, _ => none
  | .word text :: rest => gather around (before ++ [.word text]) rest
  | .opening :: rest => gather (before :: around) [] rest
  | .closing :: rest =>
    match around with
    | outer :: around => gather around (outer ++ [.node before]) rest
    | [] => none

def ofText? (text : String) : Option Form := gather [] [] (Printed.signs text.toList)

mutual

/-- A form is gathered as one part. -/
theorem gather_signs (f : Form) (around : List (List Form)) (before : List Form) (rest : List Sign) :
    gather around before (f.signs ++ rest) = gather around (before ++ [f]) rest := by
  cases f with
  | word text => simp [signs, gather]
  | node parts =>
    have hparts := gather_signsAll parts (before :: around) [] (.closing :: rest)
    simpa [signs, gather] using hparts

theorem gather_signsAll (fs : List Form) (around : List (List Form)) (before : List Form) (rest : List Sign) :
    gather around before (signsAll fs ++ rest) = gather around (before ++ fs) rest := by
  cases fs with
  | nil => simp [signsAll]
  | cons f fs => simp [signsAll, gather_signs f, gather_signsAll fs]

end

end Form

/-- The text begins no word that goes on in front of it. -/
def Stops (rest : List Char) : Prop := ∀ c ∈ rest.head?, isPlain c = false

/-- In front of whatever ends a word, the text is these signs. -/
def Reads (text : List Char) (ss : List Sign) : Prop := ∀ rest, Stops rest → signs (text ++ rest) = ss ++ signs rest

/-- The text is that form. -/
def Shows (text : String) (form : Form) : Prop := Reads text.toList form.signs

theorem signs_opening (cs : List Char) : signs ('(' :: cs) = .opening :: signs cs := by simp [signs]

theorem signs_closing (cs : List Char) : signs (')' :: cs) = .closing :: signs cs := by simp [signs]

theorem signs_blank (cs : List Char) : signs (' ' :: cs) = signs cs := by simp [signs]

/-- A word ends where a blank or a parenthesis stands. -/
theorem reads_word {text : String} (hne : text.toList ≠ []) (hplain : text.toList.all isPlain = true) :
    Reads text.toList [.word text] := by
  intro rest hrest
  rw [List.all_eq_true] at hplain
  obtain ⟨c, cs, hcs⟩ := List.exists_cons_of_ne_nil hne
  have htext : text = String.ofList (c :: cs) := by rw [← hcs, String.ofList_toList]
  have hc : isPlain c := hplain c (by simp [hcs])
  have hall : ∀ d ∈ cs, isPlain d := fun d hd => hplain d (by simp [hcs, hd])
  have htake : (cs ++ rest).takeWhile isPlain = cs := by
    rw [List.takeWhile_append_of_pos hall]
    cases rest with
    | nil => simp
    | cons d rest => simp [hrest d rfl]
  have hdrop : (cs ++ rest).dropWhile isPlain = rest := by
    rw [List.dropWhile_append_of_pos hall]
    cases rest with
    | nil => simp
    | cons d rest => simp [hrest d rfl]
  simp only [isPlain, Bool.not_eq_true', Bool.or_eq_false_iff, beq_eq_false_iff_ne] at hc
  rw [hcs, List.cons_append, signs, if_neg hc.1.2, if_neg hc.2, if_neg hc.1.1, htake, hdrop, ← htext]
  rfl

/-- One text after another, if no word goes on from the first to the second. -/
theorem Reads.append {text text' : List Char} {ss ss' : List Sign} (h : Reads text ss) (h' : Reads text' ss')
    (hstops : ∀ rest, Stops (text' ++ rest)) : Reads (text ++ text') (ss ++ ss') := by
  intro rest hrest
  rw [List.append_assoc, h _ (hstops rest), h' rest hrest, List.append_assoc]

/-- Parts with blanks between them, and a parenthesis that closes them. -/
theorem signs_parts {parts : List String} {sss : List (List Sign)}
    (h : List.Forall₂ (fun part ss => Reads part.toList ss) parts sss) (rest : List Char) :
    signs ((" ".intercalate parts).toList ++ ')' :: rest) = sss.flatten ++ .closing :: signs rest := by
  induction h with
  | nil => simp [signs_closing]
  | @cons part ss parts sss hpart hparts ih =>
    cases hparts with
    | nil =>
      have hlast := hpart (')' :: rest) (by simp [Stops, isPlain])
      simpa [signs_closing] using hlast
    | @cons next ss' parts sss hnext hparts =>
      have hblank : Stops (' ' :: ((" ".intercalate (next :: parts)).toList ++ ')' :: rest)) := by
        simp [Stops, isPlain]
      have hfirst := hpart _ hblank
      rw [signs_blank, ih] at hfirst
      simpa using hfirst

theorem reads_node {parts : List String} {sss : List (List Sign)}
    (h : List.Forall₂ (fun part ss => Reads part.toList ss) parts sss) :
    Reads (node parts).toList (.opening :: (sss.flatten ++ [.closing])) := by
  intro rest _
  have hparts := signs_parts h rest
  simpa [node, signs_opening] using hparts

theorem signsAll_eq (fs : List Form) : Form.signsAll fs = (fs.map Form.signs).flatten := by
  induction fs with
  | nil => rfl
  | cons f fs ih => simp [Form.signsAll, ih]

theorem Shows.word {text : String} (hne : text.toList ≠ []) (hplain : text.toList.all isPlain = true) :
    Shows text (.word text) := by
  simpa [Shows, Form.signs] using reads_word hne hplain

theorem Shows.node {parts : List String} {forms : List Form} (h : List.Forall₂ Shows parts forms) :
    Shows (node parts) (.node forms) := by
  have hparts : List.Forall₂ (fun part ss => Reads part.toList ss) parts (forms.map Form.signs) :=
    List.forall₂_map_right_iff.mpr h
  simpa [Shows, Form.signs, signsAll_eq] using reads_node hparts

/-- A name with a node right behind it, among the parts of a node: the two count as two parts. -/
theorem Shows.callable {head name : String} {parts parts' : List String} {forms forms' : List Form}
    (hhead : Shows head (.word head)) (hname : Shows name (.word name)) (h : List.Forall₂ Shows parts forms)
    (h' : List.Forall₂ Shows parts' forms') :
    Shows (LoxLang.node (head :: (name ++ LoxLang.node parts) :: parts'))
      (.node (.word head :: .word name :: .node forms :: forms')) := by
  have hjoined : Reads (name ++ LoxLang.node parts).toList ([.word name] ++ (Form.node forms).signs) := by
    rw [String.toList_append]
    exact Reads.append (by simpa [Shows, Form.signs] using hname) (Shows.node h)
      (by simp [Stops, LoxLang.node, isPlain])
  have hrest : List.Forall₂ (fun part ss => Reads part.toList ss) parts' (forms'.map Form.signs) :=
    List.forall₂_map_right_iff.mpr h'
  have hnode := reads_node (.cons hhead (.cons hjoined hrest))
  simpa [Shows, Form.signs, Form.signsAll, signsAll_eq] using hnode

/-- A text that shows a form is read back as this form. -/
theorem Form.ofText?_of_shows {text : String} {f : Form} (h : Shows text f) : Form.ofText? text = some f := by
  have htext := h [] (by simp [Stops])
  rw [List.append_nil] at htext
  rw [Form.ofText?, htext, Form.gather_signs]
  simp [Printed.signs, Form.gather]

end Printed

end LoxLang
