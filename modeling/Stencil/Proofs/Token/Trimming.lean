import Stencil.Proofs.Token.Lines

/-! # Trimming

Lines of markers lose their texts, and nothing else is lost.
-/

/-! ## Lists with elements left out

One list is another without some elements, all of them of a kind that may be left out. What is left
out of the parts of a list is left out of the list.
-/

namespace Stencil

/-- The first list is the second without some of the elements for which `P` holds. -/
inductive Omits {α : Type} (P : α → Prop) : List α → List α → Prop
  | nil : Omits P [] []
  | keep (a : α) {part all : List α} : Omits P part all → Omits P (a :: part) (a :: all)
  | drop {a : α} {part all : List α} : P a → Omits P part all → Omits P part (a :: all)

namespace Omits

variable {α : Type} {P : α → Prop} {part all others otherAll : List α}

theorem refl (l : List α) : Omits P l l := by
  induction l with
  | nil => exact .nil
  | cons a l ih => exact .keep a ih

theorem append (h : Omits P part all) (h' : Omits P others otherAll) :
    Omits P (part ++ others) (all ++ otherAll) := by
  induction h with
  | nil => exact h'
  | keep a _ ih => exact .keep a ih
  | drop droppable _ ih => exact .drop droppable ih

theorem reverse (h : Omits P part all) : Omits P part.reverse all.reverse := by
  induction h with
  | nil => exact .nil
  | keep a _ ih =>
    rw [List.reverse_cons, List.reverse_cons]
    exact ih.append (.refl [a])
  | drop droppable _ ih =>
    rw [List.reverse_cons, ← List.append_nil (List.reverse _)]
    exact ih.append (.drop droppable .nil)

theorem nil_of_forall (h : ∀ a ∈ all, P a) : Omits P [] all := by
  induction all with
  | nil => exact .nil
  | cons a all ih =>
    exact .drop (h a List.mem_cons_self) (ih fun b mem => h b (List.mem_cons_of_mem a mem))

theorem of_filter {p : α → Bool} (h : ∀ a ∈ all, p a = false → P a) :
    Omits P (all.filter p) all := by
  induction all with
  | nil => exact .nil
  | cons a all ih =>
    have later := ih fun b mem => h b (List.mem_cons_of_mem a mem)
    cases here : p a with
    | true =>
      rw [List.filter_cons_of_pos here]
      exact .keep a later
    | false =>
      rw [List.filter_cons_of_neg (by simp [here])]
      exact .drop (h a List.mem_cons_self here) later

theorem exists_of_cons {a : α} (h : Omits P part (a :: all)) (kept : ¬P a) :
    ∃ rest, part = a :: rest ∧ Omits P rest all := by
  cases h with
  | keep _ h => exact ⟨_, rfl, h⟩
  | drop droppable _ => exact absurd droppable kept

theorem sublist (h : Omits P part all) : part.Sublist all := by
  induction h with
  | nil => exact .slnil
  | keep a _ ih => exact ih.cons_cons a
  | drop _ _ ih => exact ih.cons _

/-- What is left out shows in no selection of other elements. -/
theorem filter_eq {p : α → Bool} (h : Omits P part all) (other : ∀ a, P a → p a = false) :
    part.filter p = all.filter p := by
  induction h with
  | nil => rfl
  | keep a _ ih => rw [List.filter_cons, List.filter_cons, ih]
  | drop droppable _ ih => rw [List.filter_cons_of_neg (by simp [other _ droppable]), ih]

end Omits

/-! ## Trimming lines of markers

What trimming does to the lexemes of a template: those on a line of markers lose their texts, which
are blank, and all others stay as they are, with their places. Whether a template can be read does
not depend on it. Main statement: `drain_trim`.
-/

namespace Lexeme

def isText (l : Lexeme) : Bool :=
  match l.token with
  | .text _ => true
  | _ => false

def IsBlankText (l : Lexeme) : Prop :=
  ∃ content, l.token = .text content ∧ ∀ c ∈ content.toList, Text.isBlank c = true

/-- The line of the lexeme, if `ls` are all lexemes, has a marker on it, and otherwise nothing but
blanks. -/
structure OnMarkerLine (ls : List Lexeme) (l : Lexeme) : Prop where
  marker : ∃ other ∈ ls, other.position.line = l.position.line ∧
    (∀ content, other.token ≠ .text content) ∧ ∀ name, other.token ≠ .var name
  bare : ∀ other ∈ ls, other.position.line = l.position.line → ∀ name, other.token ≠ .var name
  blank : ∀ other ∈ ls, other.position.line = l.position.line →
    other.isText = true → other.IsBlankText

def onLine (ls : List Lexeme) (line : Nat) : List Lexeme :=
  ls.filter (·.position.line == line)

theorem mem_onLine {ls : List Lexeme} {line : Nat} {l : Lexeme} :
    l ∈ onLine ls line ↔ l ∈ ls ∧ l.position.line = line := by
  rw [onLine, List.mem_filter, beq_iff_eq]

theorem isMarker_iff {l : Lexeme} : l.token.isMarker = true ↔
    (∀ content, l.token ≠ .text content) ∧ ∀ name, l.token ≠ .var name := by
  cases l.token <;> simp [Token.isMarker]

theorem isMarkerOrBlank_iff {l : Lexeme} : l.isMarkerOrBlank Text.isBlank = true ↔
    (∀ name, l.token ≠ .var name) ∧ (l.isText = true → l.IsBlankText) := by
  obtain ⟨token, position, raw⟩ := l
  cases token <;> simp [isMarkerOrBlank, isText, IsBlankText, Token.isMarker]

/-- The tokenizer decides for each line which texts to drop, and so finds the lines of markers. -/
theorem onMarkerLine_iff {ls : List Lexeme} {l : Lexeme} :
    OnMarkerLine ls l ↔ Line.isMarkerLine (onLine ls l.position.line) = true := by
  rw [Line.isMarkerLine, Bool.and_eq_true, List.any_eq_true, List.all_eq_true]
  constructor
  · rintro ⟨⟨other, mem, here, marker⟩, bare, blank⟩
    refine ⟨⟨other, mem_onLine.2 ⟨mem, here⟩, isMarker_iff.2 marker⟩, fun other mem => ?_⟩
    obtain ⟨mem, here⟩ := mem_onLine.1 mem
    exact isMarkerOrBlank_iff.2 ⟨bare other mem here, blank other mem here⟩
  · rintro ⟨⟨other, mem, marker⟩, stands⟩
    obtain ⟨mem, here⟩ := mem_onLine.1 mem
    have stands (other : Lexeme) (mem : other ∈ ls)
        (here : other.position.line = l.position.line) :=
      isMarkerOrBlank_iff.1 (stands other (mem_onLine.2 ⟨mem, here⟩))
    exact ⟨⟨other, mem, here, isMarker_iff.1 marker⟩,
      fun other mem here => (stands other mem here).1,
      fun other mem here => (stands other mem here).2⟩

instance (ls : List Lexeme) (l : Lexeme) : Decidable (OnMarkerLine ls l) :=
  decidable_of_iff _ onMarkerLine_iff.symm

def trimmed (ls : List Lexeme) : List Lexeme :=
  ls.filter fun l => !(l.isText && decide (OnMarkerLine ls l))

theorem trimmed_eq (ls : List Lexeme) : trimmed ls =
    ls.filter fun l => !(l.isText && Line.isMarkerLine (onLine ls l.position.line)) := by
  simp only [trimmed, onMarkerLine_iff, Bool.decide_eq_true]

/-- Trimming leaves out blank texts and nothing else. -/
theorem omits_trimmed (ls : List Lexeme) : Omits IsBlankText (trimmed ls) ls := by
  refine .of_filter fun l mem out => ?_
  rw [Bool.not_eq_false', Bool.and_eq_true, decide_eq_true_eq] at out
  exact out.2.blank l mem rfl out.1

end Lexeme

namespace Line

theorem isMarkerLine_reverse (ls : List Lexeme) : isMarkerLine ls.reverse = isMarkerLine ls := by
  rw [isMarkerLine, isMarkerLine, List.any_reverse, List.all_reverse]

/-- Blanks at the end of a line do not matter for whether it is a line of markers. -/
theorem isMarkerLine_addText {content : String}
    (blank : ∀ c ∈ content.toList, Text.isBlank c = true) (position : Position)
    (done : List Lexeme) :
    isMarkerLine (Lexeme.addText position content done) = isMarkerLine done := by
  have all : content.toList.all Text.isBlank = true := List.all_eq_true.2 blank
  rcases done with _ | ⟨⟨token, start, raw⟩, done⟩
  · simp [Lexeme.addText, isMarkerLine, Token.isMarker]
  · cases token <;>
      simp [Lexeme.addText, isMarkerLine, Lexeme.isMarkerOrBlank, Token.isMarker, all]

theorem filter_isMarker_addText (position : Position) (content : String) (done : List Lexeme) :
    (Lexeme.addText position content done).filter (·.token.isMarker) =
      done.filter (·.token.isMarker) := by
  rcases done with _ | ⟨⟨token, start, raw⟩, done⟩
  · rfl
  · cases token <;> simp [Lexeme.addText, Token.isMarker]

/-- On a line of markers, whatever is not a text is a marker. -/
theorem filter_isMarker {found : List Lexeme} (h : isMarkerLine found = true) :
    found.filter (·.token.isMarker) = found.filter fun l => !l.isText := by
  rw [isMarkerLine, Bool.and_eq_true, List.all_eq_true] at h
  apply List.filter_congr
  intro l mem
  obtain ⟨token, position, raw⟩ := l
  cases token with
  | var name => cases h.2 _ mem
  | _ => rfl

/-- The lexemes of a line are `whole`, last first, when `found` are those of its content. -/
theorem filter_texts_reverse {found whole : List Lexeme}
    (markers : isMarkerLine whole = isMarkerLine found)
    (same : whole.filter (·.token.isMarker) = found.filter (·.token.isMarker)) :
    (whole.reverse.filter fun l => !(l.isText && isMarkerLine whole.reverse)) =
      if isMarkerLine found then (found.filter (·.token.isMarker)).reverse else whole.reverse := by
  simp only [isMarkerLine_reverse, markers]
  split
  · next h =>
    rw [h, ← same, filter_isMarker (markers.trans h), List.filter_reverse]
    simp only [Bool.and_true]
  · next h =>
    rw [List.filter_eq_self]
    simp [h]

theorem lexemes_trim {line : Line} (blank : ∀ c ∈ line.terminator, Text.isBlank c = true)
    (number : Nat) :
    line.lexemes true number = (line.lexemes false number).map fun found =>
      found.filter fun l => !(l.isText && isMarkerLine found) := by
  have blank' : ∀ c ∈ (String.ofList line.terminator).toList, Text.isBlank c = true := by
    simpa using blank
  unfold lexemes
  cases Token.readContent number 1 [] line.content with
  | error e => rfl
  | ok found =>
    simp only [Bool.true_and, Bool.false_and, Bool.false_eq_true, if_false]
    cases line.terminator.isEmpty with
    | true =>
      simp only [if_true, Except.map, filter_texts_reverse rfl rfl]
      split <;> rfl
    | false =>
      simp only [Bool.false_eq_true, if_false, Except.map, filter_texts_reverse
        (isMarkerLine_addText blank' _ found) (filter_isMarker_addText _ _ found)]
      split <;> rfl

theorem line_of_lexemes {trim : Bool} {number : Nat} {line : Line} {found : List Lexeme}
    (h : line.lexemes trim number = .ok found) : ∀ l ∈ found, l.position.line = number := by
  have invariant : Invariant number line.content fun l => l.position.line = number :=
    ⟨fun _ _ => rfl, fun _ => id, fun _ _ _ => rfl⟩
  exact invariant.lexemes h

theorem blank_of_ended (before : List Char) :
    ∀ c ∈ (ended before).terminator, Text.isBlank c = true := by
  intro c mem
  rcases mem_terminator_ended mem with rfl | rfl <;> rfl

end Line

namespace Tokenizer

/-- No lexeme stands on a line that has been read before. -/
theorem le_line_of_drain (trim : Bool) (cs : List Char) (line : Nat) :
    ∀ l ∈ (drain ⟨trim, cs, line, []⟩).1, line ≤ l.position.line :=
  (forall_drain (Q := fun _ => True) (fun _ _ _ _ onward read l mem =>
    onward.trans (Line.line_of_lexemes read l mem).ge) (fun _ _ _ _ => trivial) cs
    (Nat.le_refl line)).1

end Tokenizer

namespace Lexeme

/-- Lines are trimmed one by one. -/
theorem trimmed_append {number : Nat} {found later : List Lexeme}
    (here : ∀ l ∈ found, l.position.line = number)
    (beyond : ∀ l ∈ later, number < l.position.line) :
    trimmed (found ++ later) =
      (found.filter fun l => !(l.isText && Line.isMarkerLine found)) ++ trimmed later := by
  have same (l : Lexeme) (mem : l ∈ found) : onLine (found ++ later) l.position.line = found := by
    rw [onLine, List.filter_append, List.filter_eq_self.2, List.filter_eq_nil_iff.2,
      List.append_nil]
    · intro other mem'
      have := beyond other mem'
      simp only [beq_iff_eq, here l mem]
      omega
    · intro other mem'
      rw [here l mem, here other mem', beq_self_eq_true]
  have other (l : Lexeme) (mem : l ∈ later) :
      onLine (found ++ later) l.position.line = onLine later l.position.line := by
    rw [onLine, List.filter_append, List.filter_eq_nil_iff.2, List.nil_append, onLine]
    intro other mem'
    have := beyond l mem
    simp only [beq_iff_eq, here other mem']
    omega
  rw [trimmed_eq, trimmed_eq, List.filter_append]
  congr 1
  · refine List.filter_congr fun l mem => ?_
    rw [same l mem]
  · refine List.filter_congr fun l mem => ?_
    rw [other l mem]

end Lexeme

namespace Tokenizer

theorem drain_trim_lines (cs : List Char) (line : Nat) :
    drain ⟨true, cs, line, []⟩ =
      (Lexeme.trimmed (drain ⟨false, cs, line, []⟩).1, (drain ⟨false, cs, line, []⟩).2) := by
  induction cs using Line.induction_lines '\n' generalizing line with
  | last cs alone =>
    rw [drain_last alone, drain_last alone, Line.lexemes_trim (by simp)]
    cases read : Line.lexemes false line ⟨cs, []⟩ with
    | error e => rfl
    | ok found =>
      have beyond : ∀ l ∈ ([] : List Lexeme), line < l.position.line := nofun
      have one := Lexeme.trimmed_append (Line.line_of_lexemes read) beyond
      rw [List.append_nil] at one
      simp only [Except.map, one]
      simp [Lexeme.trimmed]
  | line before rest inside ih =>
    rw [drain_line inside, drain_line inside, Line.lexemes_trim (Line.blank_of_ended before), ih]
    cases read : (Line.ended before).lexemes false line with
    | error e => rfl
    | ok found =>
      simp only [Except.map]
      have beyond := le_line_of_drain false rest (line + 1)
      rw [Lexeme.trimmed_append (Line.line_of_lexemes read) beyond]

/-- Trimming takes the texts off the lines of markers and changes nothing else. -/
theorem drain_trim (text : String) :
    (ofText true text).drain =
      (Lexeme.trimmed (ofText false text).drain.1, (ofText false text).drain.2) :=
  drain_trim_lines text.toList 1

end Tokenizer

end Stencil
