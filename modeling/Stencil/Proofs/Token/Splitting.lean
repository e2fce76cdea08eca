import Stencil.Proofs.Results
import Stencil.Proofs.Token.Elements
import Stencil.Proofs.Token.Lines

/-! # Reading what has been written

A text that is made of elements as they can be written is read as these elements.
-/

/-! ## Splitting texts into elements

A text splits into elements as they can be written: a character alone or behind a backslash, a
variable, or a marker with its keyword in any case and with blanks around its argument. What is
written of an element does not depend on what follows, except that a character must not be the
beginning of something else. Main statement: a text is delivered as the elements that it splits
into, `Tokenizer.exists_drain_of_splits`.
-/

namespace Stencil

namespace Text

theorem trim_blanks {before after : List Char} (leading : ∀ c ∈ before, isBlank c = true)
    (trailing : ∀ c ∈ after, isBlank c = true) (cs : List Char) :
    trim (before ++ cs ++ after) = trim cs := by
  rw [trim_eq_rdropWhile, trim_eq_rdropWhile, List.append_assoc,
    List.dropWhile_append_of_pos leading, List.dropWhile_append]
  split
  · next blank =>
    rw [List.isEmpty_iff.1 blank, List.dropWhile_eq_nil_iff.2 trailing]
  · rw [List.rdropWhile, List.reverse_append,
      List.dropWhile_append_of_pos (by simpa using trailing)]
    rfl

end Text

namespace Token

/-! ### Ways to write an element -/

/-- The ways to write a marker with an argument: the keyword in any case, and blanks around the
argument, but no line feed. Without an argument the colon may be left out. -/
inductive Keyword.Writes (keyword : Keyword) : (argument text : List Char) → Prop
  | bare {word : List Char} : keyword.Spells word → Writes keyword [] ('[' :: (word ++ [']']))
  | argument {word before argument after : List Char} : keyword.Spells word →
    (∀ c ∈ before ++ after, Text.isBlank c = true ∧ c ≠ '\n') →
    ']' ∉ argument → '\n' ∉ argument → Text.trim argument = argument →
    Writes keyword argument ('[' :: (word ++ ':' :: (before ++ argument ++ after ++ [']'])))

def IsWritten (token : Token) (text : List Char) : Prop :=
  ∃ (keyword : Keyword) (argument : List Char),
    keyword.Writes argument text ∧ keyword.token argument = .ok token

namespace Element

inductive Stands (rest : List Char) : Element → List Char → Prop
  | escaped {d : Char} : isEscapable d = true → Stands rest (literal d) ['\\', d]
  | single {c : Char} : Element.read c rest = .ok (literal c, 0) → Stands rest (literal c) [c]
  | var {name : String} : Name.isValid name.toList = true →
    Stands rest (marked (.var name)) ('{' :: (name.toList ++ ['}']))
  | marker {token : Token} {text : List Char} : token.IsWritten text →
    Stands rest (marked token) text

end Element

inductive Splits : List Char → List Element → Prop
  | nil : Splits [] []
  | cons {text rest : List Char} {element : Element} {elements : List Element} :
    element.Stands rest text → Splits rest elements → Splits (text ++ rest) (element :: elements)

/-! ### Reading an element -/

theorem Keyword.isMarker_of_token {keyword : Keyword} {argument : List Char} {token : Token}
    (h : keyword.token argument = .ok token) : token.isMarker = true := by
  have named {f : String → Token} (marks : ∀ name, (f name).isMarker = true)
      (h : (blockName argument).map f = .ok token) : token.isMarker = true := by
    obtain ⟨name, -, rfl⟩ := Except.map_eq_ok_iff.1 h
    exact marks name
  by_cases bare : argument = []
  · subst bare
    cases keyword <;> cases h <;> rfl
  · rw [token_of_ne_nil keyword bare] at h
    cases keyword with
    | beginBlock | endBlock => exact named (fun _ => rfl) h
    | _ => cases h <;> rfl

/-- A marker is read up to its closing bracket. -/
theorem IsWritten.read {token : Token} {text : List Char} (h : token.IsWritten text)
    (rest : List Char) :
    ∃ more, text = '[' :: more ∧
      Element.read '[' (more ++ rest) = .ok (.marked token, more.length) := by
  obtain ⟨keyword, argument, writes, means⟩ := h
  cases writes with
  | @bare word spells =>
    refine ⟨_, rfl, Element.read_bracket ?_⟩
    have read := spells.readMarker?_bare means rest
    simpa using read
  | @argument word before argument after spells blanks unclosed one_line trimmed =>
    refine ⟨_, rfl, Element.read_bracket ?_⟩
    have leading (c : Char) (mem : c ∈ before) := (blanks c (List.mem_append_left _ mem)).1
    have trailing (c : Char) (mem : c ∈ after) := (blanks c (List.mem_append_right _ mem)).1
    have open_ended : ']' ∉ before ++ argument ++ after := by
      simp only [List.mem_append, not_or]
      exact ⟨⟨fun mem => absurd (leading _ mem) (by decide), unclosed⟩,
        fun mem => absurd (trailing _ mem) (by decide)⟩
    have read := spells.readMarker?_trim open_ended rest
    rw [Text.trim_blanks leading trailing, trimmed, means] at read
    simpa [Nat.add_assoc] using read

namespace Element

theorem Stands.read {rest text : List Char} {element : Element} (h : element.Stands rest text) :
    ∃ c more, text = c :: more ∧ Element.read c (more ++ rest) = .ok (element, more.length) := by
  cases h with
  | @escaped d special => exact ⟨'\\', [d], rfl, by simp [Element.read, special]⟩
  | single alone => exact ⟨_, [], rfl, alone⟩
  | var named =>
    refine ⟨'{', _, rfl, ?_⟩
    have read := readVariable?_append named rest
    simp [Element.read, read]
  | marker written =>
    obtain ⟨more, same, read⟩ := written.read rest
    exact ⟨'[', more, same, read⟩

end Element

/-! ### What an element depends on -/

/-- Two texts are the same up to a bracket, or up to the end of a line. -/
inductive Ahead : List Char → List Char → Prop
  | refl (cs : List Char) : Ahead cs cs
  | bracket (cs cs' : List Char) : Ahead ('[' :: cs) ('[' :: cs')
  | ends {cs cs' : List Char} : (∀ c ∈ cs.head?, c = '\n' ∨ c = '\r') →
    (∀ c ∈ cs'.head?, c = '\n' ∨ c = '\r') → Ahead cs cs'
  | cons {cs cs' : List Char} (c : Char) : Ahead cs cs' → Ahead (c :: cs) (c :: cs')

namespace Ahead

variable {cs cs' : List Char}

theorem append (h : Ahead cs cs') (before : List Char) : Ahead (before ++ cs) (before ++ cs') := by
  induction before with
  | nil => exact h
  | cons c before ih => exact .cons c ih

theorem head?_iff (h : Ahead cs cs') {c : Char} (inside : c ≠ '\n' ∧ c ≠ '\r') :
    cs.head? = some c ↔ cs'.head? = some c := by
  cases h with
  | ends stops stops' =>
    have outside {cs : List Char} (stops : ∀ c ∈ cs.head?, c = '\n' ∨ c = '\r') :
        cs.head? ≠ some c := fun first => (stops c first).elim inside.1 inside.2
    exact ⟨fun first => absurd first (outside stops), fun first => absurd first (outside stops')⟩
  | _ => rfl

/-- Characters of a kind are taken from both alike. -/
theorem skip {p : Char → Bool} (bracket : p '[' = false) (feed : p '\n' = false)
    (return_ : p '\r' = false) (h : Ahead cs cs') :
    cs'.takeWhile p = cs.takeWhile p ∧
      Ahead (cs.drop (cs.takeWhile p).length) (cs'.drop (cs.takeWhile p).length) := by
  have nothing {cs : List Char} (stops : ∀ c ∈ cs.head?, c = '\n' ∨ c = '\r') :
      cs.takeWhile p = [] := by
    cases cs with
    | nil => rfl
    | cons c cs =>
      refine List.takeWhile_cons_of_neg ?_
      rcases stops c rfl with rfl | rfl
      · simp [feed]
      · simp [return_]
  induction h with
  | refl cs => exact ⟨rfl, .refl _⟩
  | bracket cs cs' =>
    rw [List.takeWhile_cons_of_neg (by simp [bracket]),
      List.takeWhile_cons_of_neg (by simp [bracket])]
    exact ⟨rfl, .bracket cs cs'⟩
  | ends stops stops' =>
    rw [nothing stops, nothing stops']
    exact ⟨rfl, .ends stops stops'⟩
  | @cons cs cs' c h ih =>
    by_cases here : p c = true
    · rw [List.takeWhile_cons_of_pos here, List.takeWhile_cons_of_pos here, ih.1]
      exact ⟨rfl, ih.2⟩
    · rw [List.takeWhile_cons_of_neg here, List.takeWhile_cons_of_neg here]
      exact ⟨rfl, .cons c h⟩

end Ahead

theorem readMarker?_eq_none_iff {cs : List Char} :
    readMarker? cs = .ok none ↔ Keyword.ofWord? (cs.takeWhile Char.isAlpha) = none ∨
      (cs.drop (cs.takeWhile Char.isAlpha).length).head? ≠ some ']' ∧
        (cs.drop (cs.takeWhile Char.isAlpha).length).head? ≠ some ':' := by
  unfold readMarker?
  simp only
  split
  · next other => simp [other]
  · next keyword spelled =>
    simp only [spelled, reduceCtorEq, false_or]
    split
    · next found =>
      rw [found]
      cases keyword.token [] <;> simp
    · next after found =>
      rw [found]
      split
      · simp
      · cases keyword.token _ <;> simp
    · next bracket colon =>
      refine ⟨fun _ => ⟨fun first => ?_, fun first => ?_⟩, fun _ => rfl⟩
      · obtain ⟨rest, found⟩ := List.head?_eq_some_iff.1 first
        exact bracket rest found
      · obtain ⟨rest, found⟩ := List.head?_eq_some_iff.1 first
        exact colon rest found

theorem readVariable?_of_ahead {cs cs' : List Char} (ahead : Ahead cs cs') :
    readVariable? cs' = readVariable? cs := by
  obtain ⟨name, rest⟩ := ahead.skip (p := Name.isChar) rfl rfl rfl
  have closing := rest.head?_iff (c := '}') (by decide)
  simp only [readVariable?, name]
  congr 1
  simp only [Bool.and_eq_true, beq_iff_eq, closing]

namespace Element

/-- A character stands alone where it begins no escape, no variable and no marker. -/
theorem read_single_iff {c : Char} {cs : List Char} :
    Element.read c cs = .ok (literal c, 0) ↔
      (c = '\\' → ∀ d ∈ cs.head?, isEscapable d = false) ∧
        (c = '{' → readVariable? cs = none) ∧ (c = '[' → readMarker? cs = .ok none) := by
  by_cases backslash : c = '\\'
  · subst backslash
    cases cs with
    | nil => simp [Element.read]
    | cons d cs =>
      cases special : isEscapable d <;> simp [Element.read, special]
  by_cases brace : c = '{'
  · subst brace
    cases read : readVariable? cs <;> simp [Element.read, read]
  by_cases bracket : c = '['
  · subst bracket
    rcases read : readMarker? cs with fault | _ | found <;> simp [Element.read, read]
  simp [Element.read, backslash, brace, bracket]

/-- A character that stands alone does so whatever follows further ahead. -/
theorem read_of_ahead {c : Char} {cs cs' : List Char} (ahead : Ahead cs cs')
    (h : Element.read c cs = .ok (literal c, 0)) : Element.read c cs' = .ok (literal c, 0) := by
  obtain ⟨backslash, brace, bracket⟩ := read_single_iff.1 h
  refine read_single_iff.2 ⟨fun same d first => ?_, fun same => ?_, fun same => ?_⟩
  · by_cases ends : d = '\n' ∨ d = '\r'
    · rcases ends with rfl | rfl <;> rfl
    · exact backslash same d ((ahead.head?_iff (not_or.1 ends)).2 first)
  · rw [readVariable?_of_ahead ahead, brace same]
  · have none := readMarker?_eq_none_iff.1 (bracket same)
    obtain ⟨word, rest⟩ := ahead.skip (p := Char.isAlpha) rfl rfl rfl
    rw [readMarker?_eq_none_iff, word, ne_eq, ne_eq, ← rest.head?_iff (by decide),
      ← rest.head?_iff (by decide)]
    exact none

theorem Stands.of_ahead {rest rest' text : List Char} {element : Element}
    (ahead : Ahead rest rest') (h : element.Stands rest text) : element.Stands rest' text := by
  cases h with
  | escaped special => exact .escaped special
  | single alone => exact .single (read_of_ahead ahead alone)
  | var named => exact .var named
  | marker written => exact .marker written

end Element

/-! ### Ends of lines -/

theorem Keyword.Spells.not_mem {keyword : Keyword} {word : List Char} (h : keyword.Spells word)
    {c : Char} (other : c.isAlpha = false) : c ∉ word := by
  intro mem
  rw [h.isAlpha c mem] at other
  cases other

theorem IsWritten.newline_not_mem {token : Token} {text : List Char} (h : token.IsWritten text) :
    '\n' ∉ text := by
  obtain ⟨keyword, argument, writes, -⟩ := h
  cases writes with
  | bare spells => simp [spells.not_mem]
  | argument spells blanks unclosed one_line trimmed =>
    have apart : '\n' ∉ _ := fun mem => (blanks _ mem).2 rfl
    simp_all [spells.not_mem]

theorem IsWritten.getLast? {token : Token} {text : List Char} (h : token.IsWritten text) :
    text.getLast? = some ']' := by
  obtain ⟨keyword, argument, writes, -⟩ := h
  cases writes with
  | @bare word => exact List.getLast?_concat (l := '[' :: word)
  | @argument word before argument after =>
    rw [← List.cons_append, ← List.cons_append, ← List.append_assoc, List.getLast?_concat]

namespace Element

variable {element : Element} {rest text : List Char}

theorem Stands.of_newline_mem (h : element.Stands rest text) (mem : '\n' ∈ text) :
    element = literal '\n' ∧ text = ['\n'] := by
  cases h with
  | escaped special =>
    simp only [List.mem_cons, List.not_mem_nil, or_false] at mem
    rcases mem with same | rfl
    · cases same
    · cases special
  | single alone =>
    cases List.mem_singleton.1 mem
    exact ⟨rfl, rfl⟩
  | var named =>
    have argument := isArgument_of_isValid named
    simp [argument.one_line] at mem
  | marker written => exact absurd mem written.newline_not_mem

/-- A carriage return stands last only alone. -/
theorem Stands.of_return_last (h : element.Stands rest text) (last : text.getLast? = some '\r') :
    element = literal '\r' ∧ text = ['\r'] := by
  cases h with
  | escaped special =>
    cases last
    cases special
  | single alone =>
    cases last
    exact ⟨rfl, rfl⟩
  | @var name named =>
    rw [← List.cons_append, List.getLast?_concat] at last
    cases last
  | marker written =>
    rw [written.getLast?] at last
    cases last

end Element

namespace Splits

/-- A line feed that is an element ends the line of the elements before it. -/
theorem cut_feed {first second : List Element} {cs : List Char}
    (h : Splits cs (first ++ .literal '\n' :: second)) :
    ∃ before rest, cs = before ++ '\n' :: rest ∧ Splits before first ∧ Splits rest second := by
  induction first generalizing cs with
  | nil =>
    cases h with
    | @cons text rest _ _ stands splits =>
      cases stands with
      | escaped special => cases special
      | single alone => exact ⟨[], rest, rfl, .nil, splits⟩
  | cons element first ih =>
    cases h with
    | @cons text rest _ _ stands splits =>
      obtain ⟨before, after, rfl, inside, beyond⟩ := ih splits
      have ends : Ahead ('\n' :: after) [] := .ends (by simp) (by simp)
      have ahead := ends.append before
      rw [List.append_nil] at ahead
      exact ⟨text ++ before, after, (List.append_assoc ..).symm,
        .cons (stands.of_ahead ahead) inside, beyond⟩

/-- Elements without a line feed are written on one line. -/
theorem newline_not_mem {elements : List Element} {cs : List Char} (h : Splits cs elements)
    (unbroken : .literal '\n' ∉ elements) : '\n' ∉ cs := by
  induction h with
  | nil => exact List.not_mem_nil
  | cons stands _ ih =>
    rw [List.mem_cons, not_or] at unbroken
    rw [List.mem_append, not_or]
    exact ⟨fun mem => unbroken.1 (stands.of_newline_mem mem).1.symm, ih unbroken.2⟩

theorem eq_nil {elements : List Element} (h : Splits [] elements) : elements = [] := by
  generalize nothing : [] = cs at h
  cases h with
  | nil => rfl
  | cons stands _ =>
    obtain ⟨c, more, rfl, -⟩ := stands.read
    cases nothing

/-- A carriage return at the end is an element of its own. -/
theorem cut_return {elements : List Element} {before : List Char}
    (h : Splits (before ++ ['\r']) elements) :
    ∃ first, elements = first ++ [.literal '\r'] ∧ Splits before first := by
  generalize whole : before ++ ['\r'] = cs at h
  induction h generalizing before with
  | nil => simp at whole
  | @cons text rest element elements stands splits ih =>
    rcases List.eq_nil_or_concat rest with rfl | ⟨rest, c, rfl⟩
    · rw [List.append_nil] at whole
      obtain ⟨rfl, rfl⟩ := stands.of_return_last (by rw [← whole, List.getLast?_concat])
      cases splits.eq_nil
      cases List.append_cancel_right (whole.trans (List.nil_append _).symm)
      exact ⟨[], rfl, .nil⟩
    · rw [List.concat_eq_append, ← List.append_assoc] at whole
      obtain ⟨rfl, last⟩ := List.append_inj' whole rfl
      cases last
      obtain ⟨first, rfl, inside⟩ := ih List.concat_eq_append.symm
      have ends : Ahead ['\r'] [] := .ends (by simp) (by simp)
      have ahead := ends.append rest
      rw [List.append_nil, ← List.concat_eq_append] at ahead
      exact ⟨element :: first, rfl, .cons (stands.of_ahead ahead) inside⟩

end Splits

end Token

/-! ### Reading a text -/

def Lexeme.elements (ls : List Lexeme) : List Token.Element :=
  ls.flatMap fun l => l.token.elements

theorem Lexeme.elements_addText (position : Position) (content : String) (done : List Lexeme) :
    elements (addText position content done).reverse =
      elements done.reverse ++ content.toList.map .literal := by
  rcases done with _ | ⟨⟨token, start, raw⟩, done⟩
  · simp [addText, elements, Token.elements]
  · cases token <;> simp [addText, elements, Token.elements]

namespace Token

theorem Element.elements_add {element : Element} (h : element.Legible) (position : Position)
    (raw : List Char) (done : List Lexeme) :
    Lexeme.elements (element.add position raw done).reverse =
      Lexeme.elements done.reverse ++ [element] := by
  cases element with
  | literal c => simp [Element.add, Lexeme.elements_addText]
  | marked token => simp [Element.add, Lexeme.elements, elements_of_ne_text h.1]

theorem exists_readContent_of_splits {elements : List Element} {cs : List Char}
    (h : Splits cs elements) (one_line : '\n' ∉ cs) (line column : Nat) (done : List Lexeme) :
    ∃ found, readContent line column done cs = .ok found ∧
      Lexeme.elements found.reverse = Lexeme.elements done.reverse ++ elements := by
  induction h generalizing column done with
  | nil => exact ⟨done, by rw [readContent], (List.append_nil _).symm⟩
  | @cons text rest element elements stands _ ih =>
    obtain ⟨c, more, rfl, read⟩ := stands.read
    rw [List.cons_append] at one_line ⊢
    have beyond : '\n' ∉ more ++ rest := fun mem => one_line (List.mem_cons_of_mem c mem)
    have legible := Element.legible_of_read read beyond
    obtain ⟨found, reads, same⟩ := ih (fun mem => beyond (List.mem_append_right _ mem))
      (column + 1 + more.length) (element.add ⟨line, column⟩ (c :: more) done)
    refine ⟨found, ?_, ?_⟩
    · rw [readContent, read]
      simpa using reads
    · rw [same, Element.elements_add legible, List.append_assoc]
      rfl

end Token

namespace Line

open Token (Splits)

theorem exists_lexemes_of_splits {elements : List Token.Element} {cs : List Char}
    (h : Splits cs elements) (one_line : '\n' ∉ cs) (number : Nat) (terminator : List Char) :
    ∃ found, lexemes false number ⟨cs, terminator⟩ = .ok found ∧
      Lexeme.elements found = elements ++ terminator.map .literal := by
  obtain ⟨found, reads, same⟩ := Token.exists_readContent_of_splits h one_line number 1 []
  simp only [lexemes, reads, Bool.false_and, Bool.false_eq_true, if_false]
  cases terminator with
  | nil => exact ⟨_, rfl, by simpa [Lexeme.elements] using same⟩
  | cons c cs => exact ⟨_, rfl, by rw [Lexeme.elements_addText, same]; simp [Lexeme.elements]⟩

/-- A line ended by a line feed. The carriage return before the line feed may belong to it. -/
theorem exists_lexemes_ended {elements : List Token.Element} {cs : List Char}
    (h : Splits cs elements) (one_line : '\n' ∉ cs) (number : Nat) :
    ∃ found, (ended cs).lexemes false number = .ok found ∧
      Lexeme.elements found = elements ++ [.literal '\n'] := by
  rw [ended]
  split
  · next last =>
    obtain ⟨before, rfl⟩ := List.getLast?_eq_some_iff.1 (beq_iff_eq.1 last)
    obtain ⟨first, rfl, inside⟩ := h.cut_return
    rw [List.mem_append, not_or] at one_line
    rw [List.dropLast_concat]
    obtain ⟨found, reads, same⟩ := exists_lexemes_of_splits inside one_line.1 number ['\r', '\n']
    exact ⟨found, reads, by rw [same]; simp⟩
  · exact exists_lexemes_of_splits h one_line number ['\n']

end Line

/-- A text is delivered as the elements that it splits into. -/
theorem Tokenizer.exists_drain_of_splits {elements : List Token.Element} {cs : List Char}
    (h : Token.Splits cs elements) (line : Nat) :
    ∃ found, drain ⟨false, cs, line, []⟩ = (found, none) ∧ Lexeme.elements found = elements := by
  induction elements using Line.induction_lines (Token.Element.literal '\n')
    generalizing cs line with
  | last elements unbroken =>
    have one_line := h.newline_not_mem unbroken
    obtain ⟨found, reads, same⟩ := Line.exists_lexemes_of_splits h one_line line []
    exact ⟨found, by rw [drain_last one_line, reads], by simpa using same⟩
  | line before rest unbroken ih =>
    obtain ⟨first, others, rfl, inside, beyond⟩ := h.cut_feed
    have one_line := inside.newline_not_mem unbroken
    obtain ⟨found, reads, same⟩ := Line.exists_lexemes_ended inside one_line line
    obtain ⟨found', drained, same'⟩ := ih beyond (line + 1)
    refine ⟨found ++ found', by rw [drain_line one_line, reads, drained], ?_⟩
    rw [Lexeme.elements, List.flatMap_append]
    show Lexeme.elements found ++ Lexeme.elements found' = _
    rw [same, same', List.append_assoc]
    rfl

/-! ## Reading written tokens

Tokens that are written down and read again without trimming come down to the same elements. Texts
may come back in other parts than they were written in, since a text ends with its line; that and
nothing else is lost.
-/

namespace Token

/-- A marker is written with blanks nowhere and its keyword in lower case. -/
theorem isWritten_print {token : Token} (legible : token.Legible) (h : token.isMarker = true) :
    token.IsWritten token.print := by
  obtain ⟨keyword, argument, same, arguments, means⟩ := Keyword.exists_marker legible h
  rw [same]
  refine ⟨keyword, _, ?_, means⟩
  cases argument with
  | none =>
    rw [Keyword.marker, List.append_nil]
    exact .bare keyword.spells_spelling
  | some text =>
    obtain ⟨-, unclosed, one_line, trimmed⟩ := arguments text rfl
    have writes := @Keyword.Writes.argument keyword _ [] _ [] keyword.spells_spelling nofun unclosed
      one_line trimmed
    simpa [Keyword.marker] using writes

namespace Element

/-- What is written of an element stands for it, whatever follows. -/
theorem stands_print {element : Element} (h : element.Legible) (rest : List Char) :
    element.Stands rest element.print := by
  cases element with
  | literal c =>
    rw [print, escapeChar]
    split
    · next special => exact .escaped special
    · next plain =>
      simp only [isEscapable, Bool.or_eq_true, not_or, beq_iff_eq] at plain
      exact .single (read_single_iff.2 ⟨fun same => absurd same plain.2,
        fun same => absurd same plain.1.1, fun same => absurd same plain.1.2⟩)
  | marked token =>
    obtain ⟨other, legible⟩ := h
    cases token with
    | text content => exact absurd rfl (other content)
    | var name => exact .var legible
    | _ => exact .marker (isWritten_print legible rfl)

end Element

theorem splits_print {elements : List Element} (h : ∀ e ∈ elements, e.Legible) :
    Splits (elements.flatMap Element.print) elements := by
  induction elements with
  | nil => exact .nil
  | cons element elements ih =>
    obtain ⟨first, others⟩ := List.forall_mem_cons.1 h
    exact .cons (Element.stands_print first _) (ih others)

end Token

/-- Tokens that have been written are delivered again, up to the parts of the texts. -/
theorem Tokenizer.exists_drain_printAll {tokens : List Token}
    (h : ∀ e ∈ tokens.flatMap Token.elements, e.Legible) :
    ∃ found, (ofText false (Token.printAll tokens)).drain = (found, none) ∧
      Lexeme.elements found = tokens.flatMap Token.elements := by
  have text : (Token.printAll tokens).toList =
      (tokens.flatMap Token.elements).flatMap Token.Element.print := by
    rw [Token.printAll, String.toList_ofList, List.flatMap_assoc]
    exact congrArg (tokens.flatMap ·) (funext Token.print_eq)
  rw [ofText, text]
  exact exists_drain_of_splits (Token.splits_print h) 1

end Stencil
