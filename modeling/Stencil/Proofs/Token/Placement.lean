import Mathlib.Data.List.TakeWhile
import Stencil.Proofs.Token.Elements
import Stencil.Proofs.Token.Trimming

/-! # Where lexemes and errors stand

A text is made of its lexemes, each at its place, and an error stands where its marker is found.
-/

/-! ## Where lexemes come from

The lexemes of a template make up its text: every lexeme is written in a segment of it, the segments
follow one another without gaps, and the place of a lexeme is where its segment begins. An error is
found where its marker stands. Main statement: `drain_lossless`.
-/

namespace Stencil

def Position.after (cs : List Char) : Position :=
  ⟨1 + cs.count '\n', 1 + (cs.reverse.takeWhile (· != '\n')).length⟩

namespace Position

theorem after_append {more : List Char} (h : '\n' ∉ more) (cs : List Char) :
    after (cs ++ more) = ⟨(after cs).line, (after cs).column + more.length⟩ := by
  have unbroken : ∀ c ∈ more.reverse, (c != '\n') = true := by
    intro c mem
    simpa using fun same : c = '\n' => h (same ▸ List.mem_reverse.1 mem)
  simp only [after, List.count_append, List.count_eq_zero.2 h, List.reverse_append,
    List.takeWhile_append_of_pos unbroken, List.length_append, List.length_reverse, mk.injEq]
  omega

theorem after_feed (cs : List Char) : after (cs ++ ['\n']) = ⟨(after cs).line + 1, 1⟩ := by
  simp [after, Nat.add_assoc]

end Position

/-- The text of the error's marker stands in the source, at the place of the error. -/
def SyntaxError.Occurs (e : SyntaxError) (source : List Char) : Prop :=
  ∃ before after, source = before ++ (e.marker.toList ++ after) ∧ e.position = .after before

theorem SyntaxError.Occurs.append {e : SyntaxError} {source : List Char} (h : e.Occurs source)
    (more : List Char) : e.Occurs (source ++ more) := by
  obtain ⟨before, after, rfl, place⟩ := h
  exact ⟨before, after ++ more, by simp, place⟩

namespace Token

def unescape : List Char → List Char
  | [] => []
  | [c] => [c]
  | c :: d :: cs =>
    if c == '\\' && isEscapable d then d :: unescape cs else c :: unescape (d :: cs)

theorem unescape_pair {d : Char} (h : isEscapable d = true) (cs : List Char) :
    unescape ('\\' :: d :: cs) = d :: unescape cs := by
  simp [unescape, h]

theorem unescape_cons {c : Char} {cs : List Char}
    (h : c = '\\' → ∀ d ∈ cs.head?, isEscapable d = false) :
    unescape (c :: cs) = c :: unescape cs := by
  cases cs with
  | nil => rfl
  | cons d cs =>
    rw [unescape, if_neg]
    rw [Bool.and_eq_true, beq_iff_eq]
    rintro ⟨backslash, special⟩
    simp [h backslash d rfl] at special

theorem unescape_append {cs : List Char} (plain : ∀ c ∈ cs, isEscapable c = false)
    (more : List Char) : unescape (cs ++ more) = cs ++ unescape more := by
  induction cs with
  | nil => rfl
  | cons c cs ih =>
    have other : c ≠ '\\' := by
      rintro rfl
      cases plain _ List.mem_cons_self
    rw [List.cons_append, unescape_cons fun same => absurd same other,
      ih fun d mem => plain d (List.mem_cons_of_mem c mem), List.cons_append]

/-- What is written of a literal character stands for it, whatever part of the text follows. -/
theorem unescape_read {c d : Char} {cs tail : List Char} {more : Nat}
    (h : Element.read c cs = .ok (.literal d, more))
    (plain : ∀ e ∈ tail.head?, isEscapable e = false) {ahead : List Char}
    (follows : ahead <+: cs.drop more ++ tail) :
    unescape (c :: cs.take more ++ ahead) = d :: unescape ahead := by
  cases Element.reading_of_read h with
  | escaped backslash next special =>
    rw [backslash, next]
    exact unescape_pair special ahead
  | single alone =>
    refine unescape_cons fun backslash e mem => ?_
    have first : ahead.head? = some e := mem
    obtain ⟨others, rfl⟩ := List.head?_eq_some_iff.1 first
    obtain ⟨beyond, same⟩ := follows
    rw [List.drop_zero, List.cons_append] at same
    cases cs with
    | nil => exact plain e (by rw [← List.nil_append tail, ← same]; rfl)
    | cons first cs =>
      cases (List.cons.inj same).1
      exact alone backslash _ rfl

end Token

/-! ### Segments -/

namespace Lexeme

theorem addText_of_ne_text {l : Lexeme} (h : ∀ content, l.token ≠ .text content)
    (position : Position) (content : String) (done : List Lexeme) :
    addText position content (l :: done) = ⟨.text content, position, ""⟩ :: l :: done := by
  obtain ⟨token, start, raw⟩ := l
  cases token with
  | text before => exact absurd rfl (h before)
  | _ => rfl

/-- The lexeme is written in this way: a variable or marker as it is, a text with backslashes. -/
def WrittenAs (l : Lexeme) (segment : List Char) : Prop :=
  match l.token with
  | .text content => Token.unescape segment = content.toList
  | _ => segment = l.raw.toList

/-- The lexemes are written one after another and nothing else is: `cs`, which follows `before`, is
made of their segments, and every place is where a segment begins. -/
inductive Cover : (before : List Char) → List Lexeme → (cs : List Char) → Prop
  | nil (before : List Char) : Cover before [] []
  | cons {before segment rest : List Char} {l : Lexeme} {ls : List Lexeme} :
    l.WrittenAs segment → l.position = .after before → Cover (before ++ segment) ls rest →
      Cover before (l :: ls) (segment ++ rest)

theorem Cover.append {before cs cs' : List Char} {ls ls' : List Lexeme} (h : Cover before ls cs)
    (h' : Cover (before ++ cs) ls' cs') : Cover before (ls ++ ls') (cs ++ cs') := by
  induction h with
  | nil before =>
    rw [List.append_nil] at h'
    exact h'
  | cons written place _ ih =>
    rw [List.append_assoc]
    rw [← List.append_assoc] at h'
    exact .cons written place (ih h')

theorem Cover.concat {before cs segment : List Char} {l : Lexeme} {ls : List Lexeme}
    (h : Cover before ls cs) (written : l.WrittenAs segment)
    (place : l.position = .after (before ++ cs)) : Cover before (ls ++ [l]) (cs ++ segment) := by
  have last : Cover (before ++ cs) [l] (segment ++ []) := .cons written place (.nil _)
  rw [List.append_nil] at last
  exact h.append last

/-- The lexemes `done`, last first, have been read of `consumed`, the part `start` of which comes
before them; `rest` has not been read yet. -/
inductive Trail (start : List Char) : (done : List Lexeme) → (consumed rest : List Char) → Prop
  | start {rest : List Char} : Trail start [] start rest
  | text {done : List Lexeme} {consumed segment rest : List Char} {content : String} :
    Trail start done consumed (segment ++ rest) →
    (∀ ahead, ahead <+: rest →
      Token.unescape (segment ++ ahead) = content.toList ++ Token.unescape ahead) →
      Trail start (⟨.text content, .after consumed, ""⟩ :: done) (consumed ++ segment) rest
  | marked {done : List Lexeme} {consumed segment rest : List Char} {token : Token} :
    (∀ content, token ≠ .text content) → Trail start done consumed (segment ++ rest) →
      Trail start (⟨token, .after consumed, String.ofList segment⟩ :: done) (consumed ++ segment)
        rest

namespace Trail

variable {start consumed segment rest : List Char} {done : List Lexeme}

theorem cover (h : Trail start done consumed rest) :
    ∃ written, consumed = start ++ written ∧ Cover start done.reverse written := by
  induction h with
  | start => exact ⟨[], by simp, .nil start⟩
  | text _ spells ih =>
    obtain ⟨written, rfl, covers⟩ := ih
    refine ⟨_, List.append_assoc .., ?_⟩
    rw [List.reverse_cons]
    have alone := spells [] List.nil_prefix
    rw [List.append_nil, Token.unescape, List.append_nil] at alone
    exact covers.concat alone rfl
  | marked other _ ih =>
    obtain ⟨written, rfl, covers⟩ := ih
    refine ⟨_, List.append_assoc .., ?_⟩
    rw [List.reverse_cons]
    refine covers.concat ?_ rfl
    unfold WrittenAs
    split
    · next same => exact absurd same (other _)
    · exact String.toList_ofList.symm

theorem addText {content : String} (h : Trail start done consumed (segment ++ rest))
    (spells : ∀ ahead, ahead <+: rest →
      Token.unescape (segment ++ ahead) = content.toList ++ Token.unescape ahead) :
    Trail start (Lexeme.addText (.after consumed) content done) (consumed ++ segment) rest := by
  cases h with
  | start => exact .text .start spells
  | @text done consumed segment' _ before inner spells' =>
    rw [List.append_assoc]
    rw [← List.append_assoc] at inner
    refine .text inner fun ahead follows => ?_
    rw [List.append_assoc, spells' _ ((List.prefix_append_right_inj segment).2 follows),
      spells ahead follows, String.toList_append, List.append_assoc]
  | marked other inner =>
    rw [addText_of_ne_text other]
    exact .text (.marked other inner) spells

end Trail

end Lexeme

namespace Token

open Lexeme (Trail)

/-- Reading the content of a line goes on with what has been read, or finds an error where its
marker stands. -/
theorem trail_readContent {start consumed cs tail : List Char} {line column : Nat}
    {done : List Lexeme} (here : (⟨line, column⟩ : Position) = .after consumed)
    (one_line : '\n' ∉ cs) (plain : ∀ c ∈ tail.head?, isEscapable c = false)
    (trail : Trail start done consumed (cs ++ tail)) :
    match readContent line column done cs with
    | .ok found => Trail start found (consumed ++ cs) tail
    | .error e => e.Occurs (consumed ++ cs) := by
  fun_induction readContent line column done cs generalizing consumed with
  | case1 => simpa using trail
  | case2 column done c cs fault read =>
    obtain ⟨beyond, same⟩ := Element.marker_of_read read
    exact ⟨consumed, beyond, by simp [same], here⟩
  | case3 column done c cs element more read ih =>
    have cut : c :: cs = (c :: cs.take more) ++ cs.drop more := by simp
    have legible := Element.legible_of_read read fun mem => one_line (List.mem_cons_of_mem c mem)
    rw [cut, List.mem_append, not_or] at one_line
    have place :
        (⟨line, column + 1 + more⟩ : Position) = .after (consumed ++ (c :: cs.take more)) := by
      rw [Position.after_append one_line.1, ← here, List.length_cons,
        List.length_take_of_le (Element.length_of_read read), Nat.add_assoc, Nat.add_comm 1 more]
    rw [cut, ← List.append_assoc]
    rw [cut, List.append_assoc] at trail
    refine ih place one_line.2 ?_
    rw [here]
    cases element with
    | literal d =>
      refine trail.addText fun ahead follows => ?_
      rw [unescape_read read plain follows]
      simp
    | marked token => exact .marked legible.1 trail

end Token

namespace Line

/-- A line is made of its lexemes, or an error is found where its marker stands. -/
theorem cover_lexemes {start : List Char} {number : Nat} {line : Line}
    (here : (⟨number, 1⟩ : Position) = .after start) (one_line : '\n' ∉ line.content)
    (plain : ∀ c ∈ line.terminator, Token.isEscapable c = false) :
    match line.lexemes false number with
    | .ok found => Lexeme.Cover start found (line.content ++ line.terminator)
    | .error e => e.Occurs (start ++ line.content) := by
  have nothing : Lexeme.Trail start [] start (line.content ++ line.terminator) := .start
  have read := Token.trail_readContent here one_line
    (fun c mem => plain c (List.mem_of_mem_head? mem)) nothing
  have covers {whole : List Lexeme}
      (trail : Lexeme.Trail start whole (start ++ (line.content ++ line.terminator)) []) :
      Lexeme.Cover start whole.reverse (line.content ++ line.terminator) := by
    obtain ⟨written, same, covers⟩ := trail.cover
    rwa [List.append_cancel_left same]
  rw [lexemes]
  cases found : Token.readContent number 1 [] line.content with
  | error e => simpa only [found] using read
  | ok found' =>
    simp only [found] at read
    simp only [Bool.false_and, Bool.false_eq_true, if_false]
    cases nothing : line.terminator.isEmpty with
    | true =>
      simp only [if_true]
      refine covers ?_
      rwa [List.isEmpty_iff.1 nothing, List.append_nil, ← List.isEmpty_iff.1 nothing]
    | false =>
      simp only [Bool.false_eq_true, if_false]
      refine covers ?_
      have place : (⟨number, line.content.length + 1⟩ : Position) =
          .after (start ++ line.content) := by
        rw [Position.after_append one_line, ← here, Nat.add_comm]
      rw [← List.append_nil line.terminator] at read
      rw [place, ← List.append_assoc]
      refine read.addText fun ahead _ => ?_
      rw [Token.unescape_append plain, String.toList_ofList]

theorem isEscapable_ended (before : List Char) :
    ∀ c ∈ (ended before).terminator, Token.isEscapable c = false := by
  intro c mem
  rcases mem_terminator_ended mem with rfl | rfl <;> rfl

end Line

namespace Tokenizer

/-- The lexemes of the lines from `cs` on make up `cs`, which follows `start`. -/
theorem cover_drain {start cs : List Char} {line : Nat}
    (here : (⟨line, 1⟩ : Position) = .after start) :
    match drain ⟨false, cs, line, []⟩ with
    | (found, none) => Lexeme.Cover start found cs
    | (_, some e) => e.Occurs (start ++ cs) := by
  induction cs using Line.induction_lines '\n' generalizing start line with
  | last cs alone =>
    have covers := @Line.cover_lexemes start line ⟨cs, []⟩ here alone (by simp)
    rw [drain_last alone]
    cases read : Line.lexemes false line ⟨cs, []⟩ with
    | error e => simpa only [read] using covers
    | ok found => simpa only [read, List.append_nil] using covers
  | line before rest inside ih =>
    have cut : before ++ '\n' :: rest = before ++ ['\n'] ++ rest := by simp
    have covers := Line.cover_lexemes here (Line.newline_not_mem_ended inside)
      (Line.isEscapable_ended before)
    have next : (⟨line + 1, 1⟩ : Position) = .after (start ++ (before ++ ['\n'])) := by
      rw [← List.append_assoc, Position.after_feed, Position.after_append inside, ← here]
    have later := ih next
    rw [drain_line inside, cut]
    cases read : (Line.ended before).lexemes false line with
    | error e =>
      simp only [read] at covers
      have whole : start ++ (before ++ ['\n'] ++ rest) =
          start ++ (Line.ended before).content ++ ((Line.ended before).terminator ++ rest) := by
        rw [← Line.content_append_terminator]
        simp only [List.append_assoc]
      rw [whole]
      exact covers.append _
    | ok found =>
      simp only [read, Line.content_append_terminator] at covers
      rcases drained : drain ⟨false, rest, line + 1, []⟩ with ⟨others, stopped | e⟩
      · simp only [drained] at later
        exact covers.append later
      · simpa only [drained, List.append_assoc] using later

/-- The lexemes of a text that can be read make it up, each at its place. Trimming leaves out blank
texts and keeps the other lexemes as they are. An error is found where its marker stands. -/
theorem drain_lossless (text : String) :
    ((ofText false text).drain.2 = none →
      Lexeme.Cover [] (ofText false text).drain.1 text.toList) ∧
    Omits Lexeme.IsBlankText (ofText true text).drain.1 (ofText false text).drain.1 ∧
    ∀ trim e, (ofText trim text).drain.2 = some e → e.Occurs text.toList := by
  have covers := @cover_drain [] text.toList 1 rfl
  change match (ofText false text).drain with
    | (found, none) => Lexeme.Cover [] found text.toList
    | (_, some e) => e.Occurs text.toList at covers
  refine ⟨fun accepted => ?_, ?_, fun trim e failed => ?_⟩
  · rcases drained : (ofText false text).drain with ⟨found, stopped⟩
    rw [drained] at accepted covers
    cases accepted
    exact covers
  · rw [drain_trim]
    exact Lexeme.omits_trimmed _
  · have untrimmed : (ofText false text).drain.2 = some e := by
      cases trim with
      | false => exact failed
      | true => rwa [drain_trim] at failed
    rcases drained : (ofText false text).drain with ⟨found, stopped⟩
    rw [drained] at untrimmed covers
    cases untrimmed
    exact covers

/-- Escapes, a character of two bytes and a carriage return before the line feed. -/
theorem drain_lossless_variable :
    (ofText false "é\\[{a}\r\n").drain.2 = none ∧
      Lexeme.Cover [] [⟨.text "é[", ⟨1, 1⟩, ""⟩, ⟨.var "a", ⟨1, 4⟩, "{a}"⟩,
        ⟨.text "\r\n", ⟨1, 7⟩, ""⟩] "é\\[{a}\r\n".toList ∧
      (⟨.missingArgument, ⟨1, 2⟩, "[if]", none⟩ : SyntaxError).Occurs "ß[if]\n".toList := by
  have accepted : (ofText false "é\\[{a}\r\n").drain =
      ([⟨.text "é[", ⟨1, 1⟩, ""⟩, ⟨.var "a", ⟨1, 4⟩, "{a}"⟩, ⟨.text "\r\n", ⟨1, 7⟩, ""⟩], none) :=
    (drain_ofText ..).trans rfl
  have rejected : (ofText false "ß[if]\n").drain =
      ([], some ⟨.missingArgument, ⟨1, 2⟩, "[if]", none⟩) :=
    (drain_ofText ..).trans rfl
  have covers := (drain_lossless "é\\[{a}\r\n").1
  rw [accepted] at covers ⊢
  exact ⟨rfl, covers rfl, (drain_lossless "ß[if]\n").2.2 false _ (by rw [rejected])⟩

end Tokenizer

/-! ## Where markers stand

The text of a template reads on with a variable or marker as it is written, at the place that its
lexeme gives. This holds of all lexemes that are delivered, also before an error, and of the error
itself; main statement: `occurs_drain`.
-/

namespace Position

/-- Different beginnings of a text end at different places. -/
theorem eq_of_after_eq {cs first second : List Char} (begins : first <+: cs)
    (begins' : second <+: cs) (same : after first = after second) : first = second := by
  have extends_eq {a b : List Char} (inside : a <+: b) (same : after a = after b) : a = b := by
    obtain ⟨more, rfl⟩ := inside
    have unbroken : '\n' ∉ more := by
      intro mem
      have lines := congrArg Position.line same
      simp only [after, List.count_append] at lines
      have := List.count_pos_iff.2 mem
      omega
    have columns := congrArg Position.column same
    rw [after_append unbroken] at columns
    have none : more = [] := List.length_eq_zero_iff.1 (by simp only at columns; omega)
    rw [none, List.append_nil]
  rcases List.prefix_or_prefix_of_prefix begins begins' with inside | inside
  · exact extends_eq inside same
  · exact (extends_eq inside same.symm).symm

end Position

/-- At a place in the text, an error stands there just if the text goes on with its marker. -/
theorem SyntaxError.occurs_iff {e : SyntaxError} {before rest : List Char}
    (place : e.position = .after before) :
    e.Occurs (before ++ rest) ↔ e.marker.toList <+: rest := by
  constructor
  · rintro ⟨before', after, cut, place'⟩
    obtain rfl := Position.eq_of_after_eq ⟨_, rfl⟩ ⟨_, cut.symm⟩ (place.symm.trans place')
    exact ⟨after, (List.append_cancel_left cut).symm⟩
  · rintro ⟨after, rfl⟩
    exact ⟨before, after, rfl, place⟩

namespace Lexeme

/-- The lexeme as written stands in the source, at the place of the lexeme. -/
def Occurs (l : Lexeme) (source : List Char) : Prop :=
  ∃ before after, source = before ++ (l.raw.toList ++ after) ∧ l.position = .after before

theorem Occurs.append {l : Lexeme} {source : List Char} (h : l.Occurs source)
    (more : List Char) : l.Occurs (source ++ more) := by
  obtain ⟨before, after, rfl, place⟩ := h
  exact ⟨before, after ++ more, by simp, place⟩

theorem Cover.occurs {before cs : List Char} {ls : List Lexeme} (covers : Cover before ls cs)
    {l : Lexeme} (mem : l ∈ ls) (isText : l.isText = false) : l.Occurs (before ++ cs) := by
  induction covers with
  | nil before => cases mem
  | @cons before segment rest first ls written place _ ih =>
    rcases List.mem_cons.1 mem with rfl | mem
    · have raw : segment = l.raw.toList := by
        obtain ⟨token, position, raw⟩ := l
        cases token with
        | text content => cases isText
        | _ => exact written
      exact ⟨before, rest, by rw [raw], place⟩
    · rw [← List.append_assoc]
      exact ih mem

end Lexeme

/-! ### Something is written -/

theorem SyntaxError.IsFault.marker_ne {e : SyntaxError} (h : e.IsFault) : e.marker ≠ "" := by
  obtain ⟨c, cs, fault, wrong, same⟩ := h
  obtain ⟨rest, written, -⟩ := Token.Element.exists_marker_of_read wrong
  rw [same]
  simp [written]

namespace Line

theorem raw_ne_of_lexemes {trim : Bool} {number : Nat} {line : Line} {found : List Lexeme}
    (h : line.lexemes trim number = .ok found) : ∀ l ∈ found, l.isText = false → l.raw ≠ "" := by
  have invariant : Invariant number line.content fun l => l.isText = false → l.raw ≠ "" :=
    ⟨fun _ _ => nofun, fun _ _ => nofun, fun _ _ _ _ => by simp⟩
  exact invariant.lexemes h

end Line

namespace Tokenizer

/-- The lexemes delivered of the lines from `cs` on, which follow `start`, stand there. -/
theorem occurs_drain_lines {start cs : List Char} {line : Nat}
    (here : (⟨line, 1⟩ : Position) = .after start) :
    ∀ l ∈ (drain ⟨false, cs, line, []⟩).1, l.isText = false → l.Occurs (start ++ cs) := by
  induction cs using Line.induction_lines '\n' generalizing start line with
  | last cs alone =>
    have covers := @Line.cover_lexemes start line ⟨cs, []⟩ here alone (by simp)
    rw [drain_last alone]
    cases read : Line.lexemes false line ⟨cs, []⟩ with
    | error e => simp
    | ok found =>
      simp only [read, List.append_nil] at covers
      exact fun l mem => covers.occurs mem
  | line before rest inside ih =>
    have cut : start ++ (before ++ '\n' :: rest) = start ++ (before ++ ['\n']) ++ rest := by simp
    have covers := Line.cover_lexemes here (Line.newline_not_mem_ended inside)
      (Line.isEscapable_ended before)
    have next : (⟨line + 1, 1⟩ : Position) = .after (start ++ (before ++ ['\n'])) := by
      rw [← List.append_assoc, Position.after_feed, Position.after_append inside, ← here]
    rw [drain_line inside, cut]
    cases read : (Line.ended before).lexemes false line with
    | error e => simp
    | ok found =>
      simp only [read, Line.content_append_terminator] at covers
      intro l mem isText
      rcases List.mem_append.1 mem with mem | mem
      · exact (covers.occurs mem isText).append rest
      · exact ih next l mem isText

variable {trim : Bool} {text : String}

/-- Every variable and marker that is delivered stands in the text as it is written. -/
theorem occurs_drain {l : Lexeme} (mem : l ∈ (ofText trim text).drain.1)
    (isText : l.isText = false) : l.Occurs text.toList := by
  have untrimmed : l ∈ (ofText false text).drain.1 := by
    cases trim with
    | false => exact mem
    | true =>
      rw [drain_trim] at mem
      exact (List.mem_filter.1 mem).1
  exact @occurs_drain_lines [] text.toList 1 rfl l untrimmed isText

theorem raw_ne_of_drain {l : Lexeme} (mem : l ∈ (ofText trim text).drain.1)
    (isText : l.isText = false) : l.raw ≠ "" :=
  (forall_drain (Q := fun _ => True) (fun _ _ _ _ _ => Line.raw_ne_of_lexemes)
    (fun _ _ _ _ => trivial) text.toList (Nat.le_refl 1)).1 l mem isText

/-- The error that stops the delivery stands in the text with its marker, which is not empty. -/
theorem occurs_of_drain {e : SyntaxError} (stopped : (ofText trim text).drain.2 = some e) :
    e.Occurs text.toList ∧ e.marker ≠ "" := by
  refine ⟨?_, (isFault_of_drain stopped).marker_ne⟩
  have untrimmed : (ofText false text).drain.2 = some e := by
    cases trim with
    | false => exact stopped
    | true => rwa [drain_trim] at stopped
  have covers := @cover_drain [] text.toList 1 rfl
  have drained : drain ⟨false, text.toList, 1, []⟩ = ((ofText false text).drain.1, some e) :=
    Prod.ext rfl untrimmed
  rw [drained] at covers
  exact covers

end Tokenizer

end Stencil
