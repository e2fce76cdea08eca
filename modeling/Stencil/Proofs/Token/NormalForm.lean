import Mathlib.Data.List.Chain
import Stencil.Proofs.Token.Splitting

/-! # The normal form of tokens

Texts can be cut in many places and still be written the same. In the normal form no text is empty,
a text ends with its line, and two texts stand next to each other only where a line ends between
them. Main statements: the normal form is determined by what the tokens come down to,
`normalForm_eq`, and a tokenizer delivers tokens in normal form, `normal_drain`.
-/

namespace Stencil

namespace Token

/-! ## Bringing tokens into normal form -/

def joinTexts : List Token → List Token
  | [] => []
  | .text content :: tokens =>
    match joinTexts tokens with
    | .text more :: others => .text (content ++ more) :: others
    | others => .text content :: others
  | token :: tokens => token :: joinTexts tokens

def splitLines : List Char → List (List Char)
  | [] => []
  | c :: cs =>
    if c == '\n' then [c] :: splitLines cs
    else
      match splitLines cs with
      | [] => [[c]]
      | line :: lines => (c :: line) :: lines

def splitText : Token → List Token
  | .text content => (splitLines content.toList).map fun line => .text (String.ofList line)
  | token => [token]

/-- The tokens without empty texts, with neighbouring texts joined and the texts cut after every
line feed. -/
def normalForm (tokens : List Token) : List Token :=
  (joinTexts (tokens.filter (· ≠ .text ""))).flatMap splitText

theorem elements_joinTexts (tokens : List Token) :
    (joinTexts tokens).flatMap elements = tokens.flatMap elements := by
  fun_induction joinTexts tokens with
  | case1 => rfl
  | case2 content tokens more others same ih =>
    rw [same] at ih
    rw [List.flatMap_cons, List.flatMap_cons, ← ih]
    simp [elements]
  | case3 content tokens _ ih => rw [List.flatMap_cons, List.flatMap_cons, ih]
  | case4 token tokens _ ih => rw [List.flatMap_cons, List.flatMap_cons, ih]

theorem flatten_splitLines (cs : List Char) : (splitLines cs).flatten = cs := by
  fun_induction splitLines cs <;> simp_all

theorem elements_splitText (token : Token) :
    (splitText token).flatMap elements = token.elements := by
  cases token with
  | text content =>
    rw [splitText, List.flatMap_map]
    simp only [elements, String.toList_ofList]
    rw [← List.map_flatMap, List.flatMap_id', flatten_splitLines]
  | _ => exact List.flatMap_singleton _ _

/-- The normal form comes down to the same as the tokens. -/
theorem elements_normalForm (tokens : List Token) :
    (normalForm tokens).flatMap elements = tokens.flatMap elements := by
  have filled : (tokens.filter (· ≠ .text "")).flatMap elements = tokens.flatMap elements := by
    induction tokens with
    | nil => rfl
    | cons token tokens ih =>
      by_cases empty : token = .text ""
      · rw [List.filter_cons_of_neg (by simp [empty]), ih, empty]
        rfl
      · rw [List.filter_cons_of_pos (by simpa using empty), List.flatMap_cons, ih,
          List.flatMap_cons]
  rw [normalForm, List.flatMap_assoc, funext elements_splitText, elements_joinTexts, filled]

/-! ## Tokens in normal form -/

/-- Text that goes on until the end of its line, or not so far. -/
structure IsLine (cs : List Char) : Prop where
  nonempty : cs ≠ []
  one_line : '\n' ∉ cs.dropLast

def Apart : Token → Token → Prop
  | .text _, .text _ => False
  | _, _ => True

/-- Only after the end of a line, a text follows a text. -/
def MayFollow : Token → Token → Prop
  | .text content, .text _ => content.toList.getLast? = some '\n'
  | _, _ => True

structure Normal (tokens : List Token) : Prop where
  lines : ∀ content, .text content ∈ tokens → IsLine content.toList
  cut : tokens.IsChain MayFollow

theorem Apart.symm {token other : Token} (h : Apart token other) : Apart other token := by
  cases token <;> cases other <;> exact h

theorem Apart.of_text {content more : String} {other : Token} (h : Apart (.text content) other) :
    Apart (.text more) other := by
  cases other <;> exact h

theorem Apart.mayFollow {token other : Token} (h : Apart token other) : MayFollow token other := by
  cases token <;> cases other <;> first | exact h | exact h.elim

theorem mayFollow_of_ne_text {token : Token} (h : ∀ content, token ≠ .text content)
    (other : Token) : MayFollow token other := by
  cases token with
  | text content => exact absurd rfl (h content)
  | _ => trivial

theorem mayFollow_of_feed {content : String} (h : content.toList.getLast? = some '\n')
    (other : Token) : MayFollow (.text content) other := by
  cases other <;> first | exact h | trivial

namespace Normal

variable {tokens others : List Token}

theorem nil : Normal [] :=
  ⟨nofun, .nil⟩

theorem append (h : Normal tokens) (h' : Normal others)
    (between : ∀ last ∈ tokens.getLast?, ∀ first ∈ others.head?, MayFollow last first) :
    Normal (tokens ++ others) := by
  refine ⟨fun content mem => ?_, List.isChain_append.2 ⟨h.cut, h'.cut, between⟩⟩
  rcases List.mem_append.1 mem with mem | mem
  · exact h.lines content mem
  · exact h'.lines content mem

theorem tail {token : Token} (h : Normal (token :: tokens)) : Normal tokens :=
  ⟨fun content mem => h.lines content (List.mem_cons_of_mem token mem), h.cut.tail⟩

theorem cons {token : Token} (line : ∀ content, token = .text content → IsLine content.toList)
    (between : ∀ first ∈ tokens.head?, MayFollow token first) (h : Normal tokens) :
    Normal (token :: tokens) := by
  refine ⟨fun content mem => ?_, List.isChain_cons.2 ⟨between, h.cut⟩⟩
  rcases List.mem_cons.1 mem with same | mem
  · exact line content same.symm
  · exact h.lines content mem

theorem of_ne_text (h : ∀ token ∈ tokens, ∀ content, token ≠ .text content) : Normal tokens := by
  induction tokens with
  | nil => exact .nil
  | cons token tokens ih =>
    obtain ⟨other, others⟩ := List.forall_mem_cons.1 h
    exact .cons (fun content same => absurd same (other content))
      (fun next _ => mayFollow_of_ne_text other next) (ih others)

end Normal

/-! ## The tokens of elements -/

def Element.cons : Element → List Token → List Token
  | .literal c, .text content :: tokens =>
    if c == '\n' then .text (String.singleton c) :: .text content :: tokens
    else .text (String.ofList (c :: content.toList)) :: tokens
  | .literal c, tokens => .text (String.singleton c) :: tokens
  | .marked token, tokens => token :: tokens

theorem foldr_literals {cs : List Char} (line : IsLine cs) {tokens : List Token}
    (cut : ∀ other ∈ tokens.head?, MayFollow (.text (String.ofList cs)) other) :
    (cs.map Element.literal).foldr Element.cons tokens = .text (String.ofList cs) :: tokens := by
  induction cs with
  | nil => exact absurd rfl line.nonempty
  | cons c cs ih =>
    cases cs with
    | nil =>
      rcases tokens with _ | ⟨other, tokens⟩
      · rfl
      · have feed := cut other rfl
        cases other with
        | text content =>
          have same : c = '\n' := by simpa [MayFollow] using feed
          rw [same]
          rfl
        | _ => rfl
    | cons d cs =>
      have inside : c ≠ '\n' ∧ '\n' ∉ (d :: cs).dropLast := by
        have := line.one_line
        rw [List.dropLast_cons_cons, List.mem_cons, not_or] at this
        exact ⟨Ne.symm this.1, this.2⟩
      have cut' : ∀ other ∈ tokens.head?, MayFollow (.text (String.ofList (d :: cs))) other := by
        intro other mem
        have := cut other mem
        cases other with
        | text content => simpa [MayFollow] using this
        | _ => trivial
      rw [List.map_cons, List.foldr_cons, ih ⟨List.cons_ne_nil d cs, inside.2⟩ cut', Element.cons,
        if_neg (by simpa using inside.1), String.toList_ofList]

/-- Tokens in normal form are found again from what they come down to. -/
theorem Normal.foldr_elements {tokens : List Token} (h : Normal tokens) :
    (tokens.flatMap elements).foldr Element.cons [] = tokens := by
  induction tokens with
  | nil => rfl
  | cons token tokens ih =>
    rw [List.flatMap_cons, List.foldr_append, ih h.tail]
    cases token with
    | text content =>
      have line := h.lines content List.mem_cons_self
      have cut := (List.isChain_cons.1 h.cut).1
      rw [← String.ofList_toList (s := content)] at cut
      rw [elements, foldr_literals line cut, String.ofList_toList]
    | _ => rfl

theorem Normal.eq_of_elements {tokens others : List Token} (h : Normal tokens) (h' : Normal others)
    (same : tokens.flatMap elements = others.flatMap elements) : tokens = others := by
  rw [← h.foldr_elements, same, h'.foldr_elements]

/-! ## The normal form is in normal form -/

theorem normal_splitLines (cs : List Char) :
    Normal ((splitLines cs).map fun line => .text (String.ofList line)) := by
  fun_induction splitLines cs with
  | case1 => exact .nil
  | case2 c cs feed ih =>
    have same : c = '\n' := by simpa using feed
    refine .cons ?_ (fun other _ => mayFollow_of_feed (by simp [same]) other) ih
    rintro _ ⟨⟩
    exact ⟨by simp, by simp⟩
  | case3 c cs other nothing ih =>
    refine .cons ?_ (by simp) .nil
    rintro _ ⟨⟩
    exact ⟨by simp, by simp⟩
  | case4 c cs other line lines found ih =>
    rw [found] at ih
    have first := ih.lines (String.ofList line) List.mem_cons_self
    rw [String.toList_ofList] at first
    refine .cons ?_ (fun next mem => ?_) ih.tail
    · rintro _ ⟨⟩
      rw [String.toList_ofList]
      refine ⟨List.cons_ne_nil c line, ?_⟩
      rw [List.dropLast_cons_of_ne_nil first.nonempty, List.mem_cons, not_or]
      exact ⟨fun same => other (beq_iff_eq.2 same.symm), first.one_line⟩
    · have follows := (List.isChain_cons.1 ih.cut).1 next mem
      cases next with
      | text content =>
        simp only [MayFollow, String.toList_ofList] at follows ⊢
        rw [List.getLast?_cons, follows]
        rfl
      | _ => trivial

theorem isChain_joinTexts (tokens : List Token) : (joinTexts tokens).IsChain Apart := by
  fun_induction joinTexts tokens with
  | case1 => exact .nil
  | case2 content tokens more others same ih =>
    rw [same, List.isChain_cons] at ih
    exact List.isChain_cons.2 ⟨fun other mem => (ih.1 other mem).of_text, ih.2⟩
  | case3 content tokens separate ih =>
    refine List.isChain_cons.2 ⟨fun other mem => ?_, ih⟩
    obtain ⟨others, same⟩ := List.head?_eq_some_iff.1 mem
    cases other with
    | text more => exact (separate more others same).elim
    | _ => trivial
  | case4 token tokens other ih =>
    refine List.isChain_cons.2 ⟨fun next _ => ?_, ih⟩
    cases token with
    | text content => exact (other content rfl).elim
    | _ => trivial

theorem normal_flatMap_splitText {tokens : List Token} (apart : tokens.IsChain Apart) :
    Normal (tokens.flatMap splitText) := by
  induction tokens with
  | nil => exact .nil
  | cons token tokens ih =>
    obtain ⟨between, beyond⟩ := List.isChain_cons.1 apart
    rw [List.flatMap_cons]
    cases token with
    | text content =>
      refine (normal_splitLines _).append (ih beyond) fun last _ first mem => ?_
      rcases tokens with _ | ⟨next, tokens⟩
      · cases mem
      · have follows := between next rfl
        cases next with
        | text more => exact follows.elim
        | _ =>
          cases mem
          cases last <;> trivial
    | _ => exact .cons (by simp) (fun _ _ => trivial) (ih beyond)

theorem normal_normalForm (tokens : List Token) : Normal (normalForm tokens) :=
  normal_flatMap_splitText (isChain_joinTexts _)

/-- The normal form is the only list of tokens in normal form that comes down to the same. -/
theorem normalForm_eq {tokens others : List Token} (h : Normal others)
    (same : others.flatMap elements = tokens.flatMap elements) : normalForm tokens = others :=
  (normal_normalForm tokens).eq_of_elements h (by rw [elements_normalForm, same])

/-! ## What is delivered is in normal form -/

/-- A text is not empty and holds no line feed. -/
def IsPart : Token → Prop
  | .text content => content ≠ "" ∧ '\n' ∉ content.toList
  | _ => True

/-- Tokens of a part of a line, in either order. -/
structure Unbroken (tokens : List Token) : Prop where
  parts : ∀ token ∈ tokens, token.IsPart
  apart : tokens.IsChain Apart

theorem IsPart.isLine {content : String} (h : (text content).IsPart) : IsLine content.toList :=
  ⟨by simpa using h.1, fun mem => h.2 (List.dropLast_subset _ mem)⟩

namespace Unbroken

theorem nil : Unbroken [] :=
  ⟨nofun, .nil⟩

theorem reverse {tokens : List Token} (h : Unbroken tokens) : Unbroken tokens.reverse :=
  ⟨fun token mem => h.parts token (List.mem_reverse.1 mem),
    List.isChain_reverse.2 (h.apart.imp fun _ _ => Apart.symm)⟩

theorem normal {tokens : List Token} (h : Unbroken tokens) : Normal tokens :=
  ⟨fun content mem => (h.parts (text content) mem).isLine, h.apart.imp fun _ _ => Apart.mayFollow⟩

variable {done : List Lexeme}

theorem addText (h : Unbroken (done.map Lexeme.token)) {content : String}
    (part : (text content).IsPart) (position : Position) :
    Unbroken ((Lexeme.addText position content done).map Lexeme.token) := by
  rcases done with _ | ⟨⟨found, start, raw⟩, done⟩
  · exact ⟨List.forall_mem_cons.2 ⟨part, nofun⟩, .singleton _⟩
  · obtain ⟨first, others⟩ := List.forall_mem_cons.1 h.parts
    obtain ⟨between, apart⟩ := List.isChain_cons.1 h.apart
    cases found with
    | text before =>
      have joined : (text (before ++ content)).IsPart := by
        refine ⟨by simp [first.1], ?_⟩
        rw [String.toList_append, List.mem_append, not_or]
        exact ⟨first.2, part.2⟩
      exact ⟨List.forall_mem_cons.2 ⟨joined, others⟩,
        List.isChain_cons.2 ⟨fun other mem => (between other mem).of_text, apart⟩⟩
    | _ =>
      refine ⟨List.forall_mem_cons.2 ⟨part, h.parts⟩, List.isChain_cons.2 ⟨?_, h.apart⟩⟩
      rintro _ ⟨⟩
      trivial

theorem add (h : Unbroken (done.map Lexeme.token)) {element : Element} (legible : element.Legible)
    (one_line : element ≠ .literal '\n') (position : Position) (raw : List Char) :
    Unbroken ((element.add position raw done).map Lexeme.token) := by
  cases element with
  | literal c =>
    have other : '\n' ≠ c := fun same => one_line (by rw [same])
    exact h.addText ⟨by simp, by simpa using other⟩ position
  | marked token =>
    cases token with
    | text content => exact (legible.1 content rfl).elim
    | _ =>
      exact ⟨List.forall_mem_cons.2 ⟨trivial, h.parts⟩,
        List.isChain_cons.2 ⟨fun _ _ => trivial, h.apart⟩⟩

theorem readContent {line column : Nat} {cs : List Char} {found : List Lexeme}
    (h : Unbroken (done.map Lexeme.token)) (one_line : '\n' ∉ cs)
    (read : Token.readContent line column done cs = .ok found) :
    Unbroken (found.map Lexeme.token) := by
  fun_induction Token.readContent line column done cs with
  | case1 =>
    cases read
    exact h
  | case2 => cases read
  | case3 column done c cs element more here ih =>
    have beyond : '\n' ∉ cs := fun mem => one_line (List.mem_cons_of_mem c mem)
    have other : element ≠ .literal '\n' := by
      rintro rfl
      cases Element.reading_of_read here with
      | escaped _ follows _ => exact beyond (follows ▸ List.mem_cons_self)
      | single _ => exact one_line List.mem_cons_self
    exact ih (h.add (Element.legible_of_read here beyond) other _ _)
      (fun mem => beyond (List.mem_of_mem_drop mem)) read

/-- The end of a line ends the last text of the line. -/
theorem exists_addText (h : Unbroken (done.map Lexeme.token)) {terminator : String}
    (line : IsLine terminator.toList) (position : Position) :
    ∃ content others, (Lexeme.addText position terminator done).map Lexeme.token =
        .text content :: others ∧ Unbroken others ∧
      (∀ other ∈ others.head?, Apart (.text content) other) ∧ IsLine content.toList ∧
      content.toList.getLast? = terminator.toList.getLast? := by
  rcases done with _ | ⟨⟨found, start, raw⟩, done⟩
  · exact ⟨terminator, [], rfl, nil, nofun, line, rfl⟩
  · cases found with
    | text before =>
      obtain ⟨first, others⟩ := List.forall_mem_cons.1 h.parts
      obtain ⟨between, apart⟩ := List.isChain_cons.1 h.apart
      refine ⟨before ++ terminator, _, rfl, ⟨others, apart⟩,
        fun other mem => (between other mem).of_text, ⟨by simp [first.1], ?_⟩, ?_⟩
      · rw [String.toList_append, List.dropLast_append_of_ne_nil line.nonempty, List.mem_append,
          not_or]
        exact ⟨first.2, line.one_line⟩
      · rw [String.toList_append, List.getLast?_append_of_ne_nil _ line.nonempty]
    | _ =>
      refine ⟨terminator, _, rfl, h, ?_, line, rfl⟩
      rintro _ ⟨⟩
      trivial

theorem normal_addText (h : Unbroken (done.map Lexeme.token)) {terminator : String}
    (line : IsLine terminator.toList) (feed : terminator.toList.getLast? = some '\n')
    (position : Position) :
    Normal ((Lexeme.addText position terminator done).reverse.map Lexeme.token) ∧
      ∀ last ∈ ((Lexeme.addText position terminator done).reverse.map Lexeme.token).getLast?,
        ∀ other, MayFollow last other := by
  obtain ⟨content, others, tokens, unbroken, between, line, last⟩ := h.exists_addText line position
  rw [List.map_reverse, tokens, List.reverse_cons]
  constructor
  · refine unbroken.reverse.normal.append (.cons ?_ nofun .nil) ?_
    · rintro _ ⟨⟩
      exact line
    · rintro before mem _ ⟨⟩
      rw [List.getLast?_reverse] at mem
      exact (between before mem).symm.mayFollow
  · intro token mem
    rw [List.getLast?_concat] at mem
    cases mem
    exact mayFollow_of_feed (last.trans feed)

end Unbroken

end Token

namespace Line

open Token (Normal IsLine MayFollow Unbroken)

/-- The tokens of a line are in normal form, and any token may follow those of a line that ends. -/
theorem normal_lexemes {trim : Bool} {number : Nat} {line : Line} {found : List Lexeme}
    (read : line.lexemes trim number = .ok found) (one_line : '\n' ∉ line.content)
    (terminated : line.terminator ≠ [] →
      IsLine line.terminator ∧ line.terminator.getLast? = some '\n') :
    Normal (found.map Lexeme.token) ∧ (line.terminator ≠ [] →
      ∀ last ∈ (found.map Lexeme.token).getLast?, ∀ other, MayFollow last other) := by
  unfold lexemes at read
  split at read
  · cases read
  · next found' here =>
    have nothing : Unbroken (([] : List Lexeme).map Lexeme.token) := .nil
    have unbroken := nothing.readContent one_line here
    split at read
    · cases read
      have others : ∀ token ∈ (found'.filter (·.token.isMarker)).reverse.map Lexeme.token,
          ∀ content, token ≠ .text content := by
        rintro _ mem content rfl
        obtain ⟨l, mem, same⟩ := List.mem_map.1 mem
        have marker := (List.mem_filter.1 (List.mem_reverse.1 mem)).2
        rw [same] at marker
        cases marker
      exact ⟨.of_ne_text others, fun _ last mem =>
        Token.mayFollow_of_ne_text (others last (List.mem_of_getLast? mem))⟩
    · split at read
      · next nothing =>
        cases read
        rw [List.map_reverse]
        exact ⟨unbroken.reverse.normal, fun ended => absurd (List.isEmpty_iff.1 nothing) ended⟩
      · next something =>
        cases read
        obtain ⟨line, feed⟩ := terminated (by simpa using something)
        rw [← String.toList_ofList (l := Line.terminator _)] at line feed
        obtain ⟨normal, last⟩ := unbroken.normal_addText line feed _
        exact ⟨normal, fun _ => last⟩

theorem isLine_ended (before : List Char) :
    IsLine (ended before).terminator ∧ (ended before).terminator.getLast? = some '\n' := by
  rw [ended]
  split
  · exact ⟨⟨by simp, by simp⟩, rfl⟩
  · exact ⟨⟨by simp, by simp⟩, rfl⟩

end Line

namespace Tokenizer

open Token (Normal)

theorem normal_drain_lines (trim : Bool) (cs : List Char) (line : Nat) :
    Normal ((drain ⟨trim, cs, line, []⟩).1.map Lexeme.token) := by
  induction cs using Line.induction_lines '\n' generalizing line with
  | last cs alone =>
    rw [drain_last alone]
    cases read : Line.lexemes trim line ⟨cs, []⟩ with
    | error e => exact .nil
    | ok found => exact (Line.normal_lexemes read alone (absurd rfl)).1
  | line before rest inside ih =>
    rw [drain_line inside]
    cases read : (Line.ended before).lexemes trim line with
    | error e => exact .nil
    | ok found =>
      have ended := Line.isLine_ended before
      obtain ⟨normal, last⟩ :=
        Line.normal_lexemes read (Line.newline_not_mem_ended inside) fun _ => ended
      rw [List.map_append]
      exact normal.append (ih (line + 1)) fun token mem other _ =>
        last ended.1.nonempty token mem other

/-- Whatever is delivered is in normal form. -/
theorem normal_drain (trim : Bool) (text : String) :
    Normal ((ofText trim text).drain.1.map Lexeme.token) :=
  normal_drain_lines trim text.toList 1

end Tokenizer

end Stencil
