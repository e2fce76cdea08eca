import Mathlib.Data.List.TakeWhile
import Stencil.Proofs.Token.Delivery

/-! # Delivery line by line

What is delivered of a line does not depend on the lines around it, wherever the line stands and
however often the tokenizer is called.
-/

/-! ## Templates line by line

A text is a sequence of lines that a line feed ends, and a last line without one. What a tokenizer
delivers is found line by line; main statement: what it delivers of a text that begins with whole
lines is what it delivers of these and then of the rest, `drain_append`.
-/

namespace Stencil

namespace Line

def ended (before : List Char) : Line :=
  if before.getLast? == some '\r' then ⟨before.dropLast, ['\r', '\n']⟩ else ⟨before, ['\n']⟩

theorem newline_not_mem_ended {before : List Char} (h : '\n' ∉ before) :
    '\n' ∉ (ended before).content := by
  rw [ended]
  split
  · exact fun mem => h (List.dropLast_subset _ mem)
  · exact h

theorem content_append_terminator (before : List Char) :
    (ended before).content ++ (ended before).terminator = before ++ ['\n'] := by
  rw [ended]
  split
  · next last =>
    obtain ⟨init, rfl⟩ := List.getLast?_eq_some_iff.1 (beq_iff_eq.1 last)
    simp
  · rfl

theorem mem_terminator_ended {before : List Char} {c : Char}
    (h : c ∈ (ended before).terminator) : c = '\r' ∨ c = '\n' := by
  rw [ended] at h
  split at h
  · simpa using h
  · exact .inr (List.mem_singleton.1 h)

theorem first_of_newline {before : List Char} (h : '\n' ∉ before) (rest : List Char) :
    first (before ++ '\n' :: rest) = (ended before, rest) := by
  have content : (before ++ '\n' :: rest).takeWhile (· != '\n') = before := by
    rw [List.takeWhile_append_of_pos, List.takeWhile_cons_of_neg (by simp), List.append_nil]
    intro c mem
    simpa using fun same : c = '\n' => h (same ▸ mem)
  simp only [first, content, List.drop_left]
  rw [ended]
  split <;> rfl

theorem first_of_not_mem {cs : List Char} (h : '\n' ∉ cs) : first cs = (⟨cs, []⟩, []) := by
  have content : cs.takeWhile (· != '\n') = cs := by
    rw [List.takeWhile_eq_self_iff]
    intro c mem
    simpa using fun same : c = '\n' => h (same ▸ mem)
  simp only [first, content, List.drop_length]

/-- Lists are made of lines, which `feed` ends, and of a last line. -/
@[elab_as_elim]
theorem induction_lines {α : Type} (feed : α) {P : List α → Prop}
    (last : ∀ cs, feed ∉ cs → P cs)
    (line : ∀ before rest, feed ∉ before → P rest → P (before ++ feed :: rest)) (cs : List α) :
    P cs := by
  induction hlength : cs.length using Nat.strongRecOn generalizing cs with
  | ind length ih =>
    by_cases ends : feed ∈ cs
    · obtain ⟨before, rest, rfl, first⟩ := List.eq_append_cons_of_mem ends
      refine line before rest first (ih rest.length ?_ rest rfl)
      rw [← hlength, List.length_append, List.length_cons]
      omega
    · exact last cs ends

def Complete (cs : List Char) : Prop :=
  ∀ c ∈ cs.getLast?, c = '\n'

theorem complete_nil : Complete [] := by
  simp [Complete]

theorem eq_nil_of_complete {cs : List Char} (complete : Complete cs) (h : '\n' ∉ cs) : cs = [] := by
  cases hlast : cs.getLast? with
  | none => exact List.getLast?_eq_none_iff.1 hlast
  | some c => exact absurd (complete c hlast ▸ List.mem_of_getLast? hlast) h

theorem Complete.rest {before rest : List Char} (complete : Complete (before ++ '\n' :: rest)) :
    Complete rest := by
  intro c mem
  refine complete c ?_
  rw [List.getLast?_append, List.getLast?_cons, Option.mem_def.1 mem]
  rfl

theorem Complete.line (before : List Char) {rest : List Char} (complete : Complete rest) :
    Complete (before ++ '\n' :: rest) := by
  intro c mem
  rw [List.getLast?_append, List.getLast?_cons, Option.some_or, Option.mem_some_iff] at mem
  cases last : rest.getLast? with
  | none => simpa [last] using mem.symm
  | some d =>
    rw [last] at mem
    exact mem ▸ complete d last

/-- A line holds one line feed, at its end. -/
theorem count_newline {before : List Char} (h : '\n' ∉ before) (rest : List Char) :
    (before ++ '\n' :: rest).count '\n' = 1 + rest.count '\n' := by
  rw [List.count_append, List.count_eq_zero.2 h, List.count_cons_self]
  omega

end Line

namespace Tokenizer

/-- A line is read on its own, and then the lines after it. -/
theorem drain_line {before : List Char} (h : '\n' ∉ before) (trim : Bool) (rest : List Char)
    (line : Nat) :
    drain ⟨trim, before ++ '\n' :: rest, line, []⟩ =
      match (Line.ended before).lexemes trim line with
      | .error e => ([], some e)
      | .ok found =>
        (found ++ (drain ⟨trim, rest, line + 1, []⟩).1, (drain ⟨trim, rest, line + 1, []⟩).2) := by
  have first := Line.first_of_newline h rest
  cases htext : before ++ '\n' :: rest with
  | nil => simp at htext
  | cons c cs =>
    rw [htext] at first
    have here : (Line.first (c :: cs)).1 = Line.ended before := by rw [first]
    rw [← here]
    cases hline : (Line.first (c :: cs)).1.lexemes trim line with
    | error e => exact drain_of_error hline
    | ok found =>
      rw [drain_of_ok hline, first]

theorem drain_last {cs : List Char} (h : '\n' ∉ cs) (trim : Bool) (line : Nat) :
    drain ⟨trim, cs, line, []⟩ =
      match Line.lexemes trim line ⟨cs, []⟩ with
      | .error e => ([], some e)
      | .ok found => (found, none) := by
  have first := Line.first_of_not_mem h
  cases cs with
  | nil =>
    have nothing : Line.lexemes trim line ⟨[], []⟩ = .ok [] := by
      simp [Line.lexemes, Token.readContent, Line.isMarkerLine]
    rw [nothing]
    exact drain_nil trim line
  | cons c cs =>
    have here : (Line.first (c :: cs)).1 = ⟨c :: cs, []⟩ := by rw [first]
    rw [← here]
    cases hline : (Line.first (c :: cs)).1.lexemes trim line with
    | error e => exact drain_of_error hline
    | ok found => rw [drain_of_ok hline, first, drain_nil, List.append_nil]

/-- Whole lines are delivered before the text that follows them. -/
theorem drain_append (trim : Bool) {cs : List Char} (complete : Line.Complete cs)
    (more : List Char) (line : Nat) :
    drain ⟨trim, cs ++ more, line, []⟩ =
      match drain ⟨trim, cs, line, []⟩ with
      | (found, some e) => (found, some e)
      | (found, none) =>
        (found ++ (drain ⟨trim, more, line + cs.count '\n', []⟩).1,
          (drain ⟨trim, more, line + cs.count '\n', []⟩).2) := by
  induction cs using Line.induction_lines '\n' generalizing line with
  | last cs alone =>
    cases Line.eq_nil_of_complete complete alone
    rw [drain_nil]
    rfl
  | line before rest inside ih =>
    rw [List.append_assoc, List.cons_append, drain_line inside, drain_line inside,
      Line.count_newline inside, ih complete.rest]
    cases (Line.ended before).lexemes trim line with
    | error e => rfl
    | ok found =>
      rcases drain ⟨trim, rest, line + 1, []⟩ with ⟨others, stopped | e⟩
      · simp only [List.append_assoc, Nat.add_assoc]
      · rfl

end Tokenizer

/-! ## Texts further down

The number of a line shows in the places of its lexemes and nowhere else: a text that starts some
lines further down delivers the same lexemes that many lines further down, and the same error.
-/

def Position.down (lines : Nat) (p : Position) : Position :=
  { p with line := p.line + lines }

def Lexeme.down (lines : Nat) (l : Lexeme) : Lexeme :=
  { l with position := l.position.down lines }

def SyntaxError.down (lines : Nat) (e : SyntaxError) : SyntaxError :=
  { e with position := e.position.down lines }

namespace Lexeme

def downResult (lines : Nat) : Except SyntaxError (List Lexeme) → Except SyntaxError (List Lexeme)
  | .error e => .error (e.down lines)
  | .ok found => .ok (found.map (down lines))

theorem token_down (lines : Nat) (ls : List Lexeme) :
    (ls.map (down lines)).map token = ls.map token := by
  rw [List.map_map]
  rfl

theorem addText_down (lines : Nat) (position : Position) (content : String) (done : List Lexeme) :
    addText (position.down lines) content (done.map (down lines)) =
      (addText position content done).map (down lines) := by
  rcases done with _ | ⟨⟨token, start, raw⟩, done⟩
  · rfl
  · cases token <;> rfl

end Lexeme

namespace Token

theorem add_down (lines : Nat) (position : Position) (raw : List Char) (element : Element)
    (done : List Lexeme) :
    element.add (position.down lines) raw (done.map (Lexeme.down lines)) =
      (element.add position raw done).map (Lexeme.down lines) := by
  cases element with
  | literal c => exact Lexeme.addText_down lines position _ done
  | marked token => rfl

theorem readContent_down (lines line column : Nat) (done : List Lexeme) (cs : List Char) :
    readContent (line + lines) column (done.map (Lexeme.down lines)) cs =
      Lexeme.downResult lines (readContent line column done cs) := by
  fun_induction readContent line column done cs with
  | case1 => rw [readContent]; rfl
  | case2 column done c cs fault hread =>
    rw [readContent, hread]
    rfl
  | case3 column done c cs element more hread ih =>
    rw [readContent, hread, ← ih]
    exact congrArg (readContent _ _ · _) (add_down lines ⟨line, column⟩ _ element done)

end Token

namespace Line

theorem isMarkerLine_down (lines : Nat) (ls : List Lexeme) :
    isMarkerLine (ls.map (Lexeme.down lines)) = isMarkerLine ls := by
  rw [isMarkerLine, List.any_map, List.all_map]
  rfl

theorem lexemes_down (lines : Nat) (trim : Bool) (number : Nat) (line : Line) :
    line.lexemes trim (number + lines) = Lexeme.downResult lines (line.lexemes trim number) := by
  have read := Token.readContent_down lines number 1 [] line.content
  rw [List.map_nil] at read
  rw [lexemes, lexemes, read]
  cases Token.readContent number 1 [] line.content with
  | error e => rfl
  | ok found =>
    simp only [Lexeme.downResult, isMarkerLine_down]
    split
    · simp only [List.filter_map, List.map_reverse]
      rfl
    · split
      · simp only [List.map_reverse]
      · simp only [List.map_reverse, ← Lexeme.addText_down]
        rfl

end Line

namespace Tokenizer

theorem drain_down (lines : Nat) (trim : Bool) (cs : List Char) (line : Nat) :
    drain ⟨trim, cs, line + lines, []⟩ =
      ((drain ⟨trim, cs, line, []⟩).1.map (Lexeme.down lines),
        (drain ⟨trim, cs, line, []⟩).2.map (SyntaxError.down lines)) := by
  induction cs using Line.induction_lines '\n' generalizing line with
  | last cs alone =>
    rw [drain_last alone, drain_last alone, Line.lexemes_down]
    cases Line.lexemes trim line ⟨cs, []⟩ <;> rfl
  | line before rest inside ih =>
    rw [drain_line inside, drain_line inside, Line.lexemes_down, Nat.add_right_comm, ih]
    cases (Line.ended before).lexemes trim line with
    | error e => rfl
    | ok found => simp [Lexeme.downResult]

/-- A text of whole lines is delivered before the text that follows it, which is delivered as by
itself, but for the numbers of its lines. -/
theorem drain_ofText_append (trim : Bool) {first : String} (complete : Line.Complete first.toList)
    (second : String) :
    (ofText trim (first ++ second)).drain =
      match (ofText trim first).drain with
      | (ls, some e) => (ls, some e)
      | (ls, none) =>
        (ls ++ (ofText trim second).drain.1.map (Lexeme.down (first.toList.count '\n')),
          (ofText trim second).drain.2.map (SyntaxError.down (first.toList.count '\n'))) := by
  rw [ofText, String.toList_append, drain_append trim complete, drain_down]
  rfl

end Tokenizer

end Stencil

/-! ## Calling a tokenizer

A tokenizer is asked for one lexeme at a time. Call by call it answers what a draining delivers, and
then the end, or the error of the line that cannot be read, as often as it is asked. What is
delivered is found line by line, wherever a line stands. Main statement: `drain_by_lines`.
-/

namespace Stencil.Tokenizer

def afterCalls (t : Tokenizer) : Nat → Tokenizer
  | 0 => t
  | calls + 1 => t.next.2.afterCalls calls

/-- What the call answers that comes after some others. -/
def answer (t : Tokenizer) (calls : Nat) : Except SyntaxError (Option Lexeme) :=
  (t.afterCalls calls).next.1

def ending : Option SyntaxError → Except SyntaxError (Option Lexeme)
  | none => .ok none
  | some e => .error e

/-! ### Calls -/

/-- A tokenizer that delivers nothing answers the next call in the same way. -/
theorem next_next {t : Tokenizer} (ended : ∀ l, t.next.1 ≠ .ok (some l)) :
    t.next.2.next = t.next := by
  fun_induction next t with
  | case1 trim rest line l queue => exact absurd rfl (ended l)
  | case2 trim line => rw [next]
  | case3 trim c cs line cut e failed =>
    rw [next]
    simp only [show (Line.first (c :: cs)).1.lexemes trim line = .error e from failed]
  | case4 trim c cs line cut queue read ih => exact ih ended

theorem answer_of_ended {t : Tokenizer} (ended : ∀ l, t.next.1 ≠ .ok (some l)) (calls : Nat) :
    t.answer calls = t.next.1 := by
  induction calls generalizing t with
  | zero => rfl
  | succ calls ih =>
    have again := next_next ended
    have later : t.next.2.answer calls = t.next.2.next.1 := ih (by rwa [again])
    exact later.trans (congrArg Prod.fst again)

/-- A call answers the lexeme at its place among those that are delivered, or how they end. -/
theorem answer_eq (t : Tokenizer) (calls : Nat) :
    t.answer calls =
      match t.drain.1[calls]? with
      | some l => .ok (some l)
      | none => ending t.drain.2 := by
  rcases called : t.next with ⟨result, t'⟩
  match result with
  | .error e =>
    have ended : ∀ l, t.next.1 ≠ .ok (some l) := by simp [called]
    rw [answer_of_ended ended, called, drain, drainInto_of_error called]
    rfl
  | .ok none =>
    have ended : ∀ l, t.next.1 ≠ .ok (some l) := by simp [called]
    rw [answer_of_ended ended, called, drain, drainInto_of_none called]
    rfl
  | .ok (some l) =>
    rw [drain, drainInto_of_some called, drainInto_eq]
    cases calls with
    | zero => rw [answer, afterCalls, called]; rfl
    | succ calls =>
      have onward : t.answer (calls + 1) = t'.answer calls := by
        rw [answer, afterCalls, called]
        rfl
      rw [onward, answer_eq t' calls]
      rfl

/-! ### Lines -/

/-- Where the delivery of a text stops: the lines of `before` are delivered, and the line that
`rest` begins with cannot be read. -/
structure StopsAt (trim : Bool) (cs : List Char) (line : Nat) (ls : List Lexeme) (e : SyntaxError)
    (before rest : List Char) : Prop where
  whole : cs = before ++ rest
  complete : Line.Complete before
  delivered : drain ⟨trim, before, line, []⟩ = (ls, none)
  remains : rest ≠ []
  failed : (Line.first rest).1.lexemes trim (line + before.count '\n') = .error e

/-- A delivery that ends in an error has delivered the lines before one that cannot be read. -/
theorem exists_stopsAt {trim : Bool} {cs : List Char} {line : Nat} {ls : List Lexeme}
    {e : SyntaxError} (h : drain ⟨trim, cs, line, []⟩ = (ls, some e)) :
    ∃ before rest, StopsAt trim cs line ls e before rest := by
  induction cs using Line.induction_lines '\n' generalizing line ls with
  | last cs alone =>
    have remains : cs ≠ [] := by
      rintro rfl
      cases (drain_nil trim line).symm.trans h
    rw [drain_last alone] at h
    split at h
    · next read =>
      cases h
      refine ⟨[], cs, rfl, Line.complete_nil, drain_nil trim line, remains, ?_⟩
      rw [Line.first_of_not_mem alone]
      exact read
    · cases h
  | line before rest inside ih =>
    rw [drain_line inside] at h
    split at h
    · next read =>
      cases h
      refine ⟨[], before ++ '\n' :: rest, rfl, Line.complete_nil, drain_nil trim line, by simp, ?_⟩
      rw [Line.first_of_newline inside]
      exact read
    · next found read =>
      obtain ⟨rfl, stopped⟩ := Prod.mk.inj h
      obtain ⟨front, back, stops⟩ := ih (Prod.ext rfl stopped)
      refine ⟨before ++ '\n' :: front, back, ?_, stops.complete.line before, ?_, stops.remains, ?_⟩
      · rw [stops.whole, List.append_assoc, List.cons_append]
      · rw [drain_line inside, read, stops.delivered]
      · rw [Line.count_newline inside, ← Nat.add_assoc]
        exact stops.failed

/-- Texts of whole lines are delivered one after the other. An error comes after the lexemes of the
lines before it. Call by call a tokenizer answers what is delivered, and from then on the end or
the error. -/
theorem drain_by_lines (trim : Bool) :
    (∀ first second : String, Line.Complete first.toList →
      (ofText trim (first ++ second)).drain =
        match (ofText trim first).drain with
        | (ls, some e) => (ls, some e)
        | (ls, none) =>
          (ls ++ (ofText trim second).drain.1.map (Lexeme.down (first.toList.count '\n')),
            (ofText trim second).drain.2.map (SyntaxError.down (first.toList.count '\n')))) ∧
    (∀ (text : String) ls e, (ofText trim text).drain = (ls, some e) →
      ∃ before rest, StopsAt trim text.toList 1 ls e before rest) ∧
    ∀ (text : String) ls stopped, (ofText trim text).drain = (ls, stopped) →
      (∀ (calls : Nat) (h : calls < ls.length),
        (ofText trim text).answer calls = .ok (some ls[calls])) ∧
      ∀ calls, ls.length ≤ calls → (ofText trim text).answer calls = ending stopped := by
  refine ⟨fun first second complete => drain_ofText_append trim complete second,
    fun text ls e => exists_stopsAt, fun text ls stopped drained => ⟨fun calls h => ?_,
    fun calls h => ?_⟩⟩
  · rw [answer_eq, drained, List.getElem?_eq_getElem h]
  · rw [answer_eq, drained, List.getElem?_eq_none h]

/-- A marker that is not closed, on the second line. -/
theorem drain_by_lines_unclosed :
    Line.Complete "x\n".toList ∧
    (ofText true "x\n[if:").drain = ([⟨.text "x\n", ⟨1, 1⟩, ""⟩],
      some ⟨.malformedMarker, ⟨2, 1⟩, "[if:", none⟩) ∧
    (∃ before rest, StopsAt true "x\n[if:".toList 1 [⟨.text "x\n", ⟨1, 1⟩, ""⟩]
      ⟨.malformedMarker, ⟨2, 1⟩, "[if:", none⟩ before rest) ∧
    (ofText true "x\n[if:").answer 0 = .ok (some ⟨.text "x\n", ⟨1, 1⟩, ""⟩) ∧
    (ofText true "x\n[if:").answer 7 = .error ⟨.malformedMarker, ⟨2, 1⟩, "[if:", none⟩ := by
  obtain ⟨append, stops, calls⟩ := drain_by_lines true
  have complete : Line.Complete "x\n".toList := by
    intro c last
    exact (Option.some.inj last).symm
  have first : (ofText true "x\n").drain = ([⟨.text "x\n", ⟨1, 1⟩, ""⟩], none) :=
    (drain_ofText ..).trans rfl
  have second : (ofText true "[if:").drain =
      ([], some ⟨.malformedMarker, ⟨1, 1⟩, "[if:", none⟩) :=
    (drain_ofText ..).trans rfl
  have whole := append "x\n" "[if:" complete
  rw [first, second] at whole
  exact ⟨complete, whole, stops _ _ _ whole, (calls _ _ _ whole).1 0 (by decide),
    (calls _ _ _ whole).2 7 (by decide)⟩

end Stencil.Tokenizer
