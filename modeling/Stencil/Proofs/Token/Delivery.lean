import Mathlib.Data.List.TakeWhile
import Stencil.Token

/-! # What a tokenizer delivers

Every way in which an element of a line is read, and from there all that is delivered of a text.
-/

/-! ## What stands next on a line

An element is a character after a backslash, a character by itself, a variable or a marker. What
holds of every element that is read follows from these four cases, `Element.reading_of_read`.
-/

namespace Stencil

namespace Token

theorem exists_name_of_readVariable? {cs : List Char} {token : Token} {length : Nat}
    (h : readVariable? cs = some (token, length)) :
    ∃ name, token = .var name ∧ Name.isValid name.toList = true ∧
      cs.take length = name.toList ++ ['}'] ∧ length ≤ cs.length := by
  unfold readVariable? at h
  simp only at h
  split at h
  · next closed =>
    cases h
    rw [Bool.and_eq_true, beq_iff_eq] at closed
    obtain ⟨rest, closing⟩ := List.head?_eq_some_iff.1 closed.2
    have whole := List.take_append_drop (cs.takeWhile Name.isChar).length cs
    rw [closing, ← List.prefix_iff_eq_take.1 (List.takeWhile_prefix _)] at whole
    refine ⟨_, rfl, by simpa using closed.1, ?_, ?_⟩
    · rw [String.toList_ofList]
      generalize cs.takeWhile Name.isChar = name at whole ⊢
      rw [← whole, List.take_length_add_append]
      rfl
    · have := congrArg List.length closing
      rw [List.length_drop, List.length_cons] at this
      omega
  · cases h

/-- What follows the opening bracket of a marker: a keyword and, after a colon, an argument. -/
inductive Keyword.Follows (keyword : Keyword) : (argument text : List Char) → Prop
  | bare {word : List Char} : ofWord? word = some keyword → Follows keyword [] (word ++ [']'])
  | argument {word argument : List Char} : ofWord? word = some keyword → ']' ∉ argument →
    Follows keyword argument (word ++ ':' :: (argument ++ [']']))

/-- A marker is that of a keyword with an argument, which is empty where none is given. -/
theorem exists_follows_of_readMarker? {cs : List Char} {token : Token} {length : Nat}
    (h : readMarker? cs = .ok (some (token, length))) :
    ∃ (keyword : Keyword) (argument : List Char), keyword.token (Text.trim argument) = .ok token ∧
      keyword.Follows argument (cs.take length) ∧ length ≤ cs.length := by
  have whole := List.take_append_drop (cs.takeWhile Char.isAlpha).length cs
  rw [← List.prefix_iff_eq_take.1 (List.takeWhile_prefix _)] at whole
  unfold readMarker? at h
  simp only at h
  generalize cs.takeWhile Char.isAlpha = word at h whole
  split at h
  · cases h
  · next keyword spelled =>
    split at h
    · next rest found =>
      rw [found] at whole
      split at h
      · next read =>
        cases h
        refine ⟨keyword, [], read, ?_, by simp [← whole]⟩
        rw [← whole, List.take_length_add_append]
        exact .bare spelled
      · cases h
    · next after found =>
      rw [found] at whole
      split at h
      · cases h
      · next close rest found' =>
        have cut := List.takeWhile_append_dropWhile (p := (· != ']')) (l := after)
        have unclosed : ']' ∉ after.takeWhile (· != ']') := fun mem => by
          simpa using List.mem_takeWhile_imp mem
        have closing := List.head?_dropWhile_not (· != ']') after
        generalize after.takeWhile (· != ']') = argument at h cut found' unclosed
        rw [← cut, List.drop_left] at found'
        rw [found'] at cut closing
        have bracket : close = ']' := by simpa using closing
        split at h
        · next read =>
          cases h
          rw [← whole, ← cut, bracket]
          refine ⟨keyword, argument, read, ?_, ?_⟩
          · have text : word ++ ':' :: (argument ++ ']' :: rest) =
                (word ++ ':' :: (argument ++ [']'])) ++ rest := by simp
            rw [text, List.take_left' (by simp; omega)]
            exact .argument spelled unclosed
          · simp only [List.length_append, List.length_cons]
            omega
        · cases h
    · cases h

theorem exists_keyword_of_readMarker? {cs : List Char} {token : Token} {length : Nat}
    (h : readMarker? cs = .ok (some (token, length))) :
    ∃ (keyword : Keyword) (argument : List Char),
      keyword.token (Text.trim argument) = .ok token ∧ argument ⊆ cs ∧ ']' ∉ argument ∧
        length ≤ cs.length := by
  obtain ⟨keyword, argument, means, follows, within⟩ := exists_follows_of_readMarker? h
  refine ⟨keyword, argument, means, ?_, ?_, within⟩
  · generalize text : cs.take length = text at follows
    cases follows with
    | bare => exact List.nil_subset cs
    | argument =>
      intro c mem
      refine List.mem_of_mem_take (i := length) ?_
      rw [text]
      simp [mem]
  · generalize cs.take length = text at follows
    cases follows with
    | bare => exact List.not_mem_nil
    | argument _ unclosed => exact unclosed

/-- A fault concerns text from its bracket on. -/
theorem exists_marker_of_readMarker? {cs : List Char} {fault : Fault}
    (h : readMarker? cs = .error fault) : ∃ rest, fault.marker = '[' :: rest ∧ rest <+: cs := by
  unfold readMarker? at h
  simp only at h
  split at h
  · cases h
  · split at h
    · split at h
      · cases h
      · cases h
        exact ⟨_, rfl, List.take_prefix _ cs⟩
    · split at h
      · cases h
        exact ⟨cs, rfl, List.prefix_refl cs⟩
      · split at h
        · cases h
        · cases h
          exact ⟨_, rfl, List.take_prefix _ cs⟩
    · cases h

namespace Element

/-- The ways to read an element that starts with `c`, with the number of characters it takes of
those that follow. -/
inductive Reading (c : Char) (cs : List Char) : Element → Nat → Prop
  | escaped {d : Char} {rest : List Char} :
    c = '\\' → cs = d :: rest → isEscapable d = true → Reading c cs (.literal d) 1
  | single : (c = '\\' → ∀ d ∈ cs.head?, isEscapable d = false) → Reading c cs (.literal c) 0
  | var {token : Token} {length : Nat} :
    c = '{' → readVariable? cs = some (token, length) → Reading c cs (.marked token) length
  | marker {token : Token} {length : Nat} :
    c = '[' → readMarker? cs = .ok (some (token, length)) → Reading c cs (.marked token) length

variable {c : Char} {cs : List Char}

theorem reading_of_read {element : Element} {more : Nat}
    (h : Element.read c cs = .ok (element, more)) : Reading c cs element more := by
  unfold Element.read at h
  split at h
  · next backslash =>
    split at h
    · cases h
      exact .single fun _ => by simp
    · next d rest =>
      split at h
      · next special =>
        cases h
        exact .escaped (beq_iff_eq.1 backslash) rfl special
      · next plain =>
        cases h
        exact .single fun _ => by simpa using plain
  · next other =>
    have single : Reading c cs (.literal c) 0 :=
      .single fun backslash => absurd (beq_iff_eq.2 backslash) other
    split at h
    · next brace =>
      split at h
      · next read =>
        cases h
        exact .var (beq_iff_eq.1 brace) read
      · cases h
        exact single
    · split at h
      · next bracket =>
        split at h
        · cases h
        · next read =>
          cases h
          exact .marker (beq_iff_eq.1 bracket) read
        · cases h
          exact single
      · cases h
        exact single

theorem length_of_read {element : Element} {more : Nat}
    (h : Element.read c cs = .ok (element, more)) : more ≤ cs.length := by
  cases reading_of_read h with
  | escaped _ follows _ => simp [follows]
  | single _ => exact Nat.zero_le _
  | var _ read =>
    obtain ⟨_, -, -, -, within⟩ := exists_name_of_readVariable? read
    exact within
  | marker _ read =>
    obtain ⟨_, _, -, -, -, within⟩ := exists_keyword_of_readMarker? read
    exact within

/-- The text that a fault concerns stands where it has been read. -/
theorem exists_marker_of_read {fault : Fault} (h : Element.read c cs = .error fault) :
    ∃ rest, fault.marker = c :: rest ∧ rest <+: cs := by
  unfold Element.read at h
  split at h
  · split at h
    · cases h
    · split at h <;> cases h
  · split at h
    · split at h <;> cases h
    · split at h
      · next bracket =>
        rw [beq_iff_eq.1 bracket]
        split at h
        · next read =>
          cases h
          exact exists_marker_of_readMarker? read
        · cases h
        · cases h
      · cases h

theorem marker_of_read {fault : Fault} (h : Element.read c cs = .error fault) :
    fault.marker <+: c :: cs := by
  obtain ⟨rest, same, within⟩ := exists_marker_of_read h
  rw [same]
  exact (List.prefix_cons_inj c).2 within

end Element

end Token

/-! ## Delivering lines

Draining a tokenizer delivers the lexemes of one line after another, so what holds of the lexemes of
every line holds of all that is delivered: the names that a token carries are names, and an error is
the fault of an element. What is delivered of a given text is found by evaluation, `drain_ofText`.
-/

def Token.Named : Token → Prop
  | .var name => Name.isValid name.toList = true
  | .beginBlock name => Name.isValid name.toList = true
  | .endBlock (some name) => Name.isValid name.toList = true
  | _ => True

namespace Token

theorem Keyword.isValid_of_blockName {argument : List Char} {name : String}
    (h : blockName argument = .ok name) : Name.isValid name.toList = true := by
  unfold blockName at h
  split at h
  · next valid =>
    cases h
    simpa using valid
  · cases h

theorem Keyword.named_token {keyword : Keyword} {argument : List Char} {token : Token}
    (h : keyword.token argument = .ok token) : token.Named := by
  unfold Keyword.token at h
  split at h
  case h_5 | h_6 =>
    cases hname : blockName argument with
    | error e => simp [hname, Except.map] at h
    | ok name =>
      simp only [hname, Except.map, Except.ok.injEq] at h
      subst h
      exact isValid_of_blockName hname
  all_goals cases h
  all_goals trivial

theorem Element.named_of_read {c : Char} {cs : List Char} {token : Token} {length : Nat}
    (h : Element.read c cs = .ok (.marked token, length)) : token.Named := by
  cases reading_of_read h with
  | var _ read =>
    obtain ⟨name, rfl, valid, -⟩ := exists_name_of_readVariable? read
    exact valid
  | marker _ read =>
    obtain ⟨keyword, argument, read, -⟩ := exists_keyword_of_readMarker? read
    exact Keyword.named_token read

end Token

/-- What reading a line keeps, of the lexemes that it finds. -/
structure Line.Invariant (number : Nat) (content : List Char) (P : Lexeme → Prop) : Prop where
  text (column : Nat) (content : String) : P ⟨.text content, ⟨number, column⟩, ""⟩
  join {first : String} {position : Position} {raw : String} (second : String) :
    P ⟨.text first, position, raw⟩ → P ⟨.text (first ++ second), position, raw⟩
  marked {c : Char} {cs : List Char} {token : Token} {length : Nat} (column : Nat) :
    c :: cs <:+ content → Token.Element.read c cs = .ok (.marked token, length) →
      P ⟨token, ⟨number, column⟩, String.ofList (c :: cs.take length)⟩

namespace Line.Invariant

variable {number : Nat} {content : List Char} {P : Lexeme → Prop}

theorem addText (invariant : Invariant number content P) {done : List Lexeme}
    (h : ∀ l ∈ done, P l) (column : Nat) (added : String) :
    ∀ l ∈ Lexeme.addText ⟨number, column⟩ added done, P l := by
  intro l mem
  unfold Lexeme.addText at mem
  split at mem
  · rcases List.mem_cons.1 mem with rfl | old
    · exact invariant.join added (h _ List.mem_cons_self)
    · exact h l (List.mem_cons_of_mem _ old)
  · rcases List.mem_cons.1 mem with rfl | old
    · exact invariant.text column added
    · exact h l old

theorem readContent (invariant : Invariant number content P) {column : Nat}
    {done found : List Lexeme} {cs : List Char} (within : cs <:+ content)
    (h : Token.readContent number column done cs = .ok found) (earlier : ∀ l ∈ done, P l) :
    ∀ l ∈ found, P l := by
  fun_induction Token.readContent number column done cs with
  | case1 =>
    cases h
    exact earlier
  | case2 => cases h
  | case3 column done c cs element more hread ih =>
    have rest : cs.drop more <:+ content :=
      (List.drop_suffix more cs).trans ((List.suffix_cons c cs).trans within)
    refine ih rest h ?_
    cases element with
    | literal c => exact invariant.addText earlier column _
    | marked token =>
      intro l mem
      rcases List.mem_cons.1 mem with rfl | old
      · exact invariant.marked column within hread
      · exact earlier l old

end Line.Invariant

/-- The error is the fault of an element that cannot be read. -/
def SyntaxError.IsFault (e : SyntaxError) : Prop :=
  ∃ c cs fault, Token.Element.read c cs = .error fault ∧
    e = ⟨fault.kind, e.position, String.ofList fault.marker, none⟩

namespace Token

theorem isFault_of_readContent {line column : Nat} {done : List Lexeme} {cs : List Char}
    {e : SyntaxError} (h : readContent line column done cs = .error e) : e.IsFault := by
  fun_induction readContent line column done cs with
  | case1 => cases h
  | case2 column done c cs fault read =>
    cases h
    exact ⟨c, cs, fault, read, rfl⟩
  | case3 _ _ _ _ _ _ _ ih => exact ih h

/-- Reading a line's content element by element. It evaluates by recursion on the number of
elements left, `fuel`, which is to be no less than the number of characters. -/
def readWithin (line : Nat) : (fuel column : Nat) → List Lexeme → List Char →
    Except SyntaxError (List Lexeme)
  | _, _, done, [] => .ok done
  | 0, _, done, _ :: _ => .ok done
  | fuel + 1, column, done, c :: cs =>
    match Element.read c cs with
    | .error fault => .error ⟨fault.kind, ⟨line, column⟩, String.ofList fault.marker, none⟩
    | .ok (element, more) =>
      readWithin line fuel (column + 1 + more)
        (element.add ⟨line, column⟩ (c :: cs.take more) done) (cs.drop more)

theorem readContent_eq_readWithin {fuel line column : Nat} {done : List Lexeme} {cs : List Char}
    (h : cs.length ≤ fuel) :
    readContent line column done cs = readWithin line fuel column done cs := by
  induction fuel generalizing column done cs with
  | zero =>
    cases List.length_eq_zero_iff.1 (Nat.le_zero.1 h)
    rw [readContent, readWithin]
  | succ fuel ih =>
    cases cs with
    | nil => rw [readContent, readWithin]
    | cons c cs =>
      rw [readContent, readWithin]
      cases Element.read c cs with
      | error fault => rfl
      | ok found =>
        refine ih ?_
        rw [List.length_cons] at h
        rw [List.length_drop]
        omega

end Token

namespace Line

/-- What becomes of the lexemes in the content of a line, which are listed last first. -/
def finish (trim : Bool) (number : Nat) (line : Line) (found : List Lexeme) : List Lexeme :=
  if trim && isMarkerLine found then
    (found.filter (·.token.isMarker)).reverse
  else if line.terminator.isEmpty then
    found.reverse
  else
    (Lexeme.addText ⟨number, line.content.length + 1⟩ (String.ofList line.terminator)
      found).reverse

def lexemesWithin (trim : Bool) (number : Nat) (line : Line) : Except SyntaxError (List Lexeme) :=
  (Token.readWithin number line.content.length 1 [] line.content).map (line.finish trim number)

theorem lexemes_eq_lexemesWithin (trim : Bool) (number : Nat) (line : Line) :
    line.lexemes trim number = line.lexemesWithin trim number := by
  rw [lexemes, lexemesWithin, Token.readContent_eq_readWithin (Nat.le_refl _)]
  cases Token.readWithin number line.content.length 1 [] line.content with
  | error e => rfl
  | ok found =>
    simp only [Except.map, finish]
    split
    · rfl
    · split <;> rfl

/-- What reading a line keeps holds of the lexemes of the line. -/
theorem Invariant.lexemes {trim : Bool} {number : Nat} {line : Line} {P : Lexeme → Prop}
    (invariant : Invariant number line.content P) {found : List Lexeme}
    (h : line.lexemes trim number = .ok found) : ∀ l ∈ found, P l := by
  unfold Line.lexemes at h
  split at h
  · cases h
  · next read hread =>
    have kept := invariant.readContent (List.suffix_refl _) hread (by simp)
    split at h
    · cases h
      intro l mem
      exact kept l (List.mem_filter.1 (List.mem_reverse.1 mem)).1
    · split at h
      · cases h
        intro l mem
        exact kept l (List.mem_reverse.1 mem)
      · cases h
        intro l mem
        exact invariant.addText kept _ _ l (List.mem_reverse.1 mem)

theorem named_lexemes {trim : Bool} {number : Nat} {line : Line} {found : List Lexeme}
    (h : line.lexemes trim number = .ok found) : ∀ l ∈ found, l.token.Named := by
  have invariant : Invariant number line.content fun l => l.token.Named :=
    ⟨fun _ _ => trivial, fun _ _ => trivial, fun _ _ => Token.Element.named_of_read⟩
  exact invariant.lexemes h

theorem newline_not_mem_first (cs : List Char) : '\n' ∉ (first cs).1.content := by
  have inside : '\n' ∉ cs.takeWhile (· != '\n') :=
    fun mem => by simpa using List.mem_takeWhile_imp mem
  simp only [first]
  split
  · exact inside
  · split
    · exact fun mem => inside (List.dropLast_subset _ mem)
    · exact inside

theorem isFault_of_lexemes {trim : Bool} {number : Nat} {line : Line} {e : SyntaxError}
    (h : line.lexemes trim number = .error e) : e.IsFault := by
  unfold lexemes at h
  split at h
  · next hread =>
    cases h
    exact Token.isFault_of_readContent hread
  · split at h
    · cases h
    · split at h <;> cases h

end Line

namespace Tokenizer

theorem drainInto_of_some {t t' : Tokenizer} {l : Lexeme} (h : t.next = (.ok (some l), t'))
    (done : List Lexeme) : t.drainInto done = t'.drainInto (l :: done) := by
  rw [drainInto.eq_def]
  split <;> simp_all

theorem drainInto_of_none {t t' : Tokenizer} (h : t.next = (.ok none, t'))
    (done : List Lexeme) : t.drainInto done = (done.reverse, none) := by
  rw [drainInto.eq_def]
  split <;> simp_all

theorem drainInto_of_error {t t' : Tokenizer} {e : SyntaxError} (h : t.next = (.error e, t'))
    (done : List Lexeme) : t.drainInto done = (done.reverse, some e) := by
  rw [drainInto.eq_def]
  split <;> simp_all

/-- What is delivered does not depend on what has been delivered before. -/
theorem drainInto_append (t : Tokenizer) (done first : List Lexeme) :
    t.drainInto (done ++ first) =
      (first.reverse ++ (t.drainInto done).1, (t.drainInto done).2) := by
  fun_induction drainInto t done with
  | case1 t done _ h => rw [drainInto_of_none h, List.reverse_append]
  | case2 t done e _ h => rw [drainInto_of_error h, List.reverse_append]
  | case3 t done l t' h ih => rw [drainInto_of_some h, ← List.cons_append, ih]

theorem drainInto_eq (t : Tokenizer) (done : List Lexeme) :
    t.drainInto done = (done.reverse ++ t.drain.1, t.drain.2) :=
  drainInto_append t [] done

theorem drain_queue (trim : Bool) (rest : List Char) (line : Nat) (queue : List Lexeme) :
    drain ⟨trim, rest, line, queue⟩ =
      (queue ++ (drain ⟨trim, rest, line, []⟩).1, (drain ⟨trim, rest, line, []⟩).2) := by
  induction queue with
  | nil => rfl
  | cons l queue ih =>
    have first : next ⟨trim, rest, line, l :: queue⟩ =
        (.ok (some l), ⟨trim, rest, line, queue⟩) := by rw [next]
    rw [drain, drainInto_of_some first, drainInto_eq, ih]
    simp

theorem drain_nil (trim : Bool) (line : Nat) : drain ⟨trim, [], line, []⟩ = ([], none) := by
  have none : next ⟨trim, [], line, []⟩ = (.ok none, ⟨trim, [], line, []⟩) := by rw [next]
  rw [drain, drainInto_of_none none, List.reverse_nil]

theorem drain_eq_of_next_eq {t t' : Tokenizer} (h : t.next = t'.next) : t.drain = t'.drain := by
  cases hnext : t'.next with
  | mk result after =>
    rw [hnext] at h
    unfold drain
    match result with
    | .error e => rw [drainInto_of_error h, drainInto_of_error hnext]
    | .ok none => rw [drainInto_of_none h, drainInto_of_none hnext]
    | .ok (some l) => rw [drainInto_of_some h, drainInto_of_some hnext]

/-- A line that cannot be read stops the delivery. -/
theorem drain_of_error {trim : Bool} {c : Char} {cs : List Char} {line : Nat} {e : SyntaxError}
    (h : (Line.first (c :: cs)).1.lexemes trim line = .error e) :
    drain ⟨trim, c :: cs, line, []⟩ = ([], some e) := by
  have failed : next ⟨trim, c :: cs, line, []⟩ = (.error e, ⟨trim, c :: cs, line, []⟩) := by
    rw [next]
    simp only [h]
  rw [drain, drainInto_of_error failed, List.reverse_nil]

/-- A line that can be read is delivered before the lines after it. -/
theorem drain_of_ok {trim : Bool} {c : Char} {cs : List Char} {line : Nat} {found : List Lexeme}
    (h : (Line.first (c :: cs)).1.lexemes trim line = .ok found) :
    drain ⟨trim, c :: cs, line, []⟩ =
      (found ++ (drain ⟨trim, (Line.first (c :: cs)).2, line + 1, []⟩).1,
        (drain ⟨trim, (Line.first (c :: cs)).2, line + 1, []⟩).2) := by
  rw [← drain_queue]
  apply drain_eq_of_next_eq
  rw [next]
  simp only [h]

/-- What holds of the lexemes and the error of every line from number `start` on holds of those of
the text. -/
theorem forall_drain {trim : Bool} {P : Lexeme → Prop} {Q : SyntaxError → Prop} {start : Nat}
    (lexemes : ∀ (line : Line) number found, '\n' ∉ line.content → start ≤ number →
      line.lexemes trim number = .ok found → ∀ l ∈ found, P l)
    (errors : ∀ (line : Line) number e, line.lexemes trim number = .error e → Q e)
    (cs : List Char) {line : Nat} (onward : start ≤ line) :
    (∀ l ∈ (drain ⟨trim, cs, line, []⟩).1, P l) ∧
      ∀ e, (drain ⟨trim, cs, line, []⟩).2 = some e → Q e := by
  -- A line is taken off the text at each step.
  induction hlength : cs.length using Nat.strongRecOn generalizing cs line with
  | ind length ih =>
    cases cs with
    | nil => simp [drain_nil]
    | cons c cs =>
      cases hline : (Line.first (c :: cs)).1.lexemes trim line with
      | error e =>
        rw [drain_of_error hline]
        simpa using errors _ _ _ hline
      | ok found =>
        rw [drain_of_ok hline]
        have shorter := Line.length_first_lt (List.cons_ne_nil c cs)
        obtain ⟨later, stopped⟩ := ih _ (hlength ▸ shorter) _ (Nat.le_succ_of_le onward) rfl
        refine ⟨fun l mem => ?_, stopped⟩
        rcases List.mem_append.1 mem with now | after
        · exact lexemes _ _ _ (Line.newline_not_mem_first _) onward hline l now
        · exact later l after

/-- Every name in a template is a name. -/
theorem named_drain (trim : Bool) (text : String) :
    ∀ l ∈ (ofText trim text).drain.1, l.token.Named :=
  (forall_drain (Q := fun _ => True) (fun _ _ _ _ _ => Line.named_lexemes)
    (fun _ _ _ _ => trivial) text.toList (Nat.le_refl 1)).1

/-- What stops the delivery is an element that cannot be read. -/
theorem isFault_of_drain {trim : Bool} {text : String} {e : SyntaxError}
    (h : (ofText trim text).drain.2 = some e) : e.IsFault :=
  (forall_drain (P := fun _ => True) (fun _ _ _ _ _ _ _ _ => trivial)
    (fun _ _ _ => Line.isFault_of_lexemes) text.toList (Nat.le_refl 1)).2 e h

theorem origin_of_drain {trim : Bool} {text : String} {e : SyntaxError}
    (h : (ofText trim text).drain.2 = some e) : e.origin = none := by
  obtain ⟨c, cs, fault, -, same⟩ := isFault_of_drain h
  rw [same]

/-- All lexemes of the remaining text, and the error that stops their delivery, line by line. It
evaluates by recursion on the number of lines left, `fuel`, which is to be no less than the number
of characters. -/
def drainWithin (trim : Bool) : (fuel line : Nat) → List Char → List Lexeme × Option SyntaxError
  | _, _, [] => ([], none)
  | 0, _, _ :: _ => ([], none)
  | fuel + 1, line, c :: cs =>
    match (Line.first (c :: cs)).1.lexemesWithin trim line with
    | .error e => ([], some e)
    | .ok found =>
      let (later, stopped) := drainWithin trim fuel (line + 1) (Line.first (c :: cs)).2
      (found ++ later, stopped)

theorem drain_eq_drainWithin {trim : Bool} {fuel line : Nat} {cs : List Char}
    (h : cs.length ≤ fuel) : drain ⟨trim, cs, line, []⟩ = drainWithin trim fuel line cs := by
  induction fuel generalizing line cs with
  | zero =>
    cases List.length_eq_zero_iff.1 (Nat.le_zero.1 h)
    rw [drain_nil, drainWithin]
  | succ fuel ih =>
    cases cs with
    | nil => rw [drain_nil, drainWithin]
    | cons c cs =>
      rw [drainWithin, ← Line.lexemes_eq_lexemesWithin]
      cases read : (Line.first (c :: cs)).1.lexemes trim line with
      | error e => rw [drain_of_error read]
      | ok found =>
        have shorter := Line.length_first_lt (List.cons_ne_nil c cs)
        rw [drain_of_ok read, ih (Nat.le_of_lt_succ (Nat.lt_of_lt_of_le shorter h))]

theorem drain_ofText (trim : Bool) (text : String) :
    (ofText trim text).drain = drainWithin trim text.toList.length 1 text.toList :=
  drain_eq_drainWithin (Nat.le_refl _)

end Tokenizer

end Stencil
