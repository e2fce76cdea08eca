import Stencil.Condition
import Stencil.Proofs.Token.Elements

/-! # Conditions and their grammar

The reader of conditions does what the grammar says, and no more depends on how a condition is
written.
-/

/-! ## Splitting conditions

A text is read as tokens just if it splits into them. Since reading has one result, a text splits
in one way at most.
-/

namespace Stencil

/-- A text begins with a run of name characters, which no name character follows. -/
theorem Name.exists_rest (cs : List Char) :
    ∃ rest, cs = cs.takeWhile isChar ++ rest ∧ ∀ c ∈ rest.head?, isChar c = false := by
  refine ⟨cs.dropWhile isChar, List.takeWhile_append_dropWhile.symm, fun c mem => ?_⟩
  have stops := List.head?_dropWhile_not isChar cs
  rwa [Option.mem_def.1 mem] at stops

theorem Name.takeWhile_append {run rest : List Char} (h : ∀ c ∈ run, isChar c = true)
    (stops : ∀ c ∈ rest.head?, isChar c = false) : (run ++ rest).takeWhile isChar = run := by
  rw [List.takeWhile_append_of_pos h]
  cases rest with
  | nil => exact List.append_nil run
  | cons c rest => rw [List.takeWhile_cons_of_neg (by simp [stops c rfl]), List.append_nil]

theorem Text.trimStart_append {blanks : List Char} (h : ∀ c ∈ blanks, isBlank c = true)
    (rest : List Char) : trimStart (blanks ++ rest) = trimStart rest :=
  List.dropWhile_append_of_pos h

namespace Condition.Token

/-! ### One token -/

/-- A token that is read stands where it is read. -/
theorem stands_of_read {c : Char} {cs : List Char} {token : Token} {more : Nat}
    (h : read c cs = .ok (token, more)) :
    token.Stands (cs.drop more) ∧ c :: cs = token.spelling ++ cs.drop more := by
  unfold read at h
  split at h
  · next bang =>
    cases h
    exact ⟨trivial, congrArg (· :: cs) (beq_iff_eq.1 bang)⟩
  split at h
  · next opening =>
    cases h
    exact ⟨trivial, congrArg (· :: cs) (beq_iff_eq.1 opening)⟩
  split at h
  · next closing =>
    cases h
    exact ⟨trivial, congrArg (· :: cs) (beq_iff_eq.1 closing)⟩
  split at h
  · next both =>
    cases h
    obtain ⟨first, second⟩ := Bool.and_eq_true_iff.1 both
    obtain ⟨rest, rfl⟩ := List.head?_eq_some_iff.1 (beq_iff_eq.1 second)
    exact ⟨trivial, congrArg (· :: '&' :: rest) (beq_iff_eq.1 first)⟩
  split at h
  · next either =>
    cases h
    obtain ⟨first, second⟩ := Bool.and_eq_true_iff.1 either
    obtain ⟨rest, rfl⟩ := List.head?_eq_some_iff.1 (beq_iff_eq.1 second)
    exact ⟨trivial, congrArg (· :: '|' :: rest) (beq_iff_eq.1 first)⟩
  split at h
  · simp only at h
    split at h
    · next valid =>
      cases h
      obtain ⟨rest, whole, stops⟩ := Name.exists_rest cs
      generalize cs.takeWhile Name.isChar = run at whole valid ⊢
      subst whole
      rw [List.drop_left]
      refine ⟨⟨by rwa [String.toList_ofList], stops⟩, ?_⟩
      rw [spelling, String.toList_ofList, List.cons_append]
    · cases h
  · cases h

/-- A token is read where it stands. -/
theorem read_of_stands {token : Token} {rest : List Char} (h : token.Stands rest) :
    ∃ c cs more, token.spelling ++ rest = c :: cs ∧ Text.isBlank c = false ∧
      read c cs = .ok (token, more) ∧ cs.drop more = rest := by
  cases token with
  | flag name =>
    obtain ⟨valid, stops⟩ := h
    have chars := Name.forall_isChar_of_isValid valid
    rw [spelling]
    generalize spelled : name.toList = run at valid chars
    obtain rfl : name = String.ofList run := by rw [← spelled, String.ofList_toList]
    cases run with
    | nil => cases valid
    | cons c run =>
      have here := chars c List.mem_cons_self
      have more : (run ++ rest).takeWhile Name.isChar = run :=
        Name.takeWhile_append (fun d mem => chars d (List.mem_cons_of_mem c mem)) stops
      refine ⟨c, run ++ rest, run.length, rfl, Name.isBlank_of_isChar here, ?_, List.drop_left⟩
      have visible {d : Char} (other : Name.isChar d = false) : (c == d) = false := by
        rw [beq_eq_false_iff_ne]
        rintro rfl
        cases here.symm.trans other
      simp only [read, visible (show Name.isChar '!' = false from rfl),
        visible (show Name.isChar '(' = false from rfl),
        visible (show Name.isChar ')' = false from rfl),
        visible (show Name.isChar '&' = false from rfl),
        visible (show Name.isChar '|' = false from rfl), here, more, valid, if_true,
        Bool.false_eq_true, if_false, Bool.false_and]
  | bang => exact ⟨'!', rest, 0, rfl, rfl, rfl, rfl⟩
  | both => exact ⟨'&', '&' :: rest, 1, rfl, rfl, rfl, rfl⟩
  | either => exact ⟨'|', '|' :: rest, 1, rfl, rfl, rfl, rfl⟩
  | opening => exact ⟨'(', rest, 0, rfl, rfl, rfl, rfl⟩
  | closing => exact ⟨')', rest, 0, rfl, rfl, rfl, rfl⟩

/-! ### All tokens -/

theorem readAllInto_of_blank {cs : List Char} (h : ∀ c ∈ cs, Text.isBlank c = true)
    (done : List Token) : readAllInto done cs = .ok done.reverse := by
  have nothing : Text.trimStart cs = [] := List.dropWhile_eq_nil_iff.2 h
  rw [readAllInto]
  split
  · rfl
  · next c rest first => cases nothing.symm.trans first

theorem readAllInto_of_stands {blanks rest : List Char} {token : Token}
    (blank : ∀ c ∈ blanks, Text.isBlank c = true) (stands : token.Stands rest)
    (done : List Token) :
    readAllInto done (blanks ++ (token.spelling ++ rest)) = readAllInto (token :: done) rest := by
  obtain ⟨c, cs, more, spelled, visible, here, rfl⟩ := read_of_stands stands
  have first : Text.trimStart (blanks ++ (token.spelling ++ cs.drop more)) = c :: cs := by
    rw [Text.trimStart_append blank, spelled]
    exact List.dropWhile_cons_of_neg (by simp [visible])
  rw [readAllInto]
  split
  · next nothing => cases first.symm.trans nothing
  · next c' cs' first' =>
    cases first.symm.trans first'
    rw [here]

/-- Reading goes on after some tokens just with those that the text splits into. -/
theorem readAllInto_eq_ok_iff {done all : List Token} {cs : List Char} :
    readAllInto done cs = .ok all ↔ ∃ tokens, Splits cs tokens ∧ all = done.reverse ++ tokens := by
  constructor
  · intro h
    fun_induction readAllInto done cs with
    | case1 done cs nothing =>
      cases h
      exact ⟨[], .blank (List.dropWhile_eq_nil_iff.1 nothing), (List.append_nil _).symm⟩
    | case2 done cs c rest first e wrong => cases h
    | case3 done cs c rest first token more here ih =>
      obtain ⟨tokens, splits, rfl⟩ := ih h
      obtain ⟨stands, spelled⟩ := stands_of_read here
      refine ⟨token :: tokens, ?_, by rw [List.reverse_cons, List.append_assoc]; rfl⟩
      rw [← List.takeWhile_append_dropWhile (p := Text.isBlank) (l := cs),
        show cs.dropWhile Text.isBlank = c :: rest from first, spelled]
      exact .token (fun d mem => List.mem_takeWhile_imp mem) stands splits
  · rintro ⟨tokens, splits, rfl⟩
    induction splits generalizing done with
    | blank blank => rw [readAllInto_of_blank blank, List.append_nil]
    | token blank stands _ ih =>
      rw [readAllInto_of_stands blank stands, ih, List.reverse_cons, List.append_assoc]
      rfl

theorem readAll_eq_ok_iff {cs : List Char} {tokens : List Token} :
    readAll cs = .ok tokens ↔ Splits cs tokens := by
  rw [readAll, readAllInto_eq_ok_iff]
  exact ⟨fun ⟨_, splits, same⟩ => same ▸ splits, fun splits => ⟨tokens, splits, rfl⟩⟩

theorem Splits.unique {cs : List Char} {tokens tokens' : List Token} (h : Splits cs tokens)
    (h' : Splits cs tokens') : tokens = tokens' :=
  Except.ok.inj ((readAll_eq_ok_iff.2 h).symm.trans (readAll_eq_ok_iff.2 h'))

end Condition.Token

end Stencil

/-! ## Reading is deriving

What a reader takes off the front of some tokens is derived by the rules of the grammar, and the
longest chains there are. Derivations of the same tokens are the same. Main statement:
`parse_derives`.
-/

namespace Stencil.Condition

/-! ### Derivations -/

/-- The tokens in front of which a part may end: none goes on with the part. -/
def Rank.Ends (rest : List Token) : Rank → Prop
  | unary => True
  | chain .both => .both ∉ rest.head?
  | chain .either => .either ∉ rest.head? ∧ .both ∉ rest.head?

theorem Rank.ends_chain_iff {operator : Operator} {rest : List Token} :
    (chain operator).Ends rest ↔ operator.token ∉ rest.head? ∧ operator.member.Ends rest := by
  cases operator with
  | both => exact ⟨fun h => ⟨h, trivial⟩, And.left⟩
  | either => exact Iff.rfl

theorem Operator.ends_member (operator : Operator) (rest : List Token) :
    operator.member.Ends (operator.token :: rest) := by
  cases operator with
  | both => trivial
  | either => exact fun same => by cases same

theorem Rank.ends_nil (rank : Rank) : rank.Ends [] := by
  rcases rank with _ | _ | _ <;> simp [Ends]

theorem Rank.ends_closing (rank : Rank) (rest : List Token) : rank.Ends (.closing :: rest) := by
  rcases rank with _ | _ | _ <;> simp [Ends]

namespace Derivation

/-- Tokens are derived in one way: derivations that end agree if their tokens do, whatever
follows. -/
theorem eq_of_tokens_append {rank : Rank} (d d' : Derivation rank) {rest rest' : List Token}
    (ends : rank.Ends rest) (ends' : rank.Ends rest')
    (same : d.tokens ++ rest = d'.tokens ++ rest') : d = d' ∧ rest = rest' := by
  induction d generalizing rest rest' with
  | flag name =>
    cases d' with
    | flag name' => simpa [tokens] using same
    | not inner' => simp [tokens] at same
    | group inner' => simp [tokens] at same
  | not inner ih =>
    cases d' with
    | flag name' => simp [tokens] at same
    | not inner' =>
      obtain ⟨rfl, rfl⟩ := ih inner' trivial trivial (List.cons.inj same).2
      exact ⟨rfl, rfl⟩
    | group inner' => simp [tokens] at same
  | group inner ih =>
    cases d' with
    | flag name' => simp [tokens] at same
    | not inner' => simp [tokens] at same
    | group inner' =>
      simp only [tokens, List.cons_append, List.append_assoc, List.nil_append, List.cons.injEq,
        true_and] at same
      obtain ⟨rfl, h⟩ := ih inner' (Rank.ends_closing _ _) (Rank.ends_closing _ _) same
      exact ⟨rfl, (List.cons.inj h).2⟩
  | @single operator only ih =>
    obtain ⟨stops, ends⟩ := Rank.ends_chain_iff.1 ends
    cases d' with
    | single only' =>
      obtain ⟨rfl, rfl⟩ := ih only' ends (Rank.ends_chain_iff.1 ends').2 same
      exact ⟨rfl, rfl⟩
    | more first' rest' =>
      simp only [tokens, List.append_assoc, List.cons_append] at same
      obtain ⟨-, rfl⟩ := ih first' ends (operator.ends_member _) same
      exact absurd rfl stops
  | @more operator first later ihFirst ihLater =>
    cases d' with
    | single only' =>
      simp only [tokens, List.append_assoc, List.cons_append] at same
      obtain ⟨stops, ends'⟩ := Rank.ends_chain_iff.1 ends'
      obtain ⟨-, rfl⟩ := ihFirst only' (operator.ends_member _) ends' same
      exact absurd rfl stops
    | more first' later' =>
      simp only [tokens, List.append_assoc, List.cons_append] at same
      obtain ⟨rfl, h⟩ := ihFirst first' (operator.ends_member _) (operator.ends_member _) same
      obtain ⟨rfl, rfl⟩ := ihLater later' ends ends' (List.cons.inj h).2
      exact ⟨rfl, rfl⟩

theorem eq_of_tokens_eq {rank : Rank} {d d' : Derivation rank} (same : d.tokens = d'.tokens) :
    d = d' :=
  (eq_of_tokens_append d d' rank.ends_nil rank.ends_nil (congrArg (· ++ []) same)).1

end Derivation

/-! ### Truth -/

theorem Operator.eval_join_cons {flags : FlagSet} (operator : Operator) (c : Condition)
    (cs : List Condition) :
    (operator.join (c :: cs)).eval flags = true ↔
      operator.combine (c.eval flags = true) ((operator.join cs).eval flags = true) := by
  cases operator with
  | both => rw [join, eval_and, List.all_cons, Bool.and_eq_true, ← eval_and]; rfl
  | either => rw [join, eval_or, List.any_cons, Bool.or_eq_true, ← eval_or]; rfl

theorem Operator.eval_join_singleton {flags : FlagSet} (operator : Operator) (c : Condition) :
    (operator.join [c]).eval flags = c.eval flags := by
  cases operator with
  | both => rw [join, eval_and, List.all_cons, List.all_nil, Bool.and_true]
  | either => rw [join, eval_or, List.any_cons, List.any_nil, Bool.or_false]

theorem Rank.eval_chain {flags : FlagSet} {operator : Operator} (terms : List Condition) :
    ((chain operator).condition terms).eval flags = (operator.join terms).eval flags := by
  rcases terms with _ | ⟨c, _ | ⟨c', cs⟩⟩
  · rfl
  · exact (operator.eval_join_singleton c).symm
  · rfl

/-- The condition of a derivation is true just if the derivation is. -/
theorem Derivation.eval_condition_iff {flags : FlagSet} {rank : Rank} (d : Derivation rank) :
    d.condition.eval flags = true ↔ d.Holds flags := by
  induction d with
  | flag name => exact List.contains_iff_mem
  | not inner ih =>
    rw [Holds, ← ih, Bool.not_eq_true, ← Bool.not_eq_true']
    rfl
  | group inner ih => exact ih
  | @single operator only ih => exact ih
  | @more operator first rest ihFirst ihRest =>
    have whole : (more first rest).condition.eval flags =
        (operator.join (first.condition :: rest.meaning)).eval flags := Rank.eval_chain _
    have later : rest.condition.eval flags = (operator.join rest.meaning).eval flags :=
      Rank.eval_chain _
    rw [Holds, ← ihFirst, ← ihRest, whole, later]
    exact operator.eval_join_cons _ _

/-! ### Readers -/

/-- A reader takes a condition off the front of some tokens, and leaves the rest. -/
def Reads (reader : Reader) (tokens : List Token) (c : Condition) (rest : List Token) : Prop :=
  ∃ shorter, reader tokens = .ok ⟨(c, rest), shorter⟩

inductive Continues (separator : Token) (member : Reader) :
    List Token → List Condition → List Token → Prop
  | stop {rest : List Token} : separator ∉ rest.head? → Continues separator member rest [] rest
  | more {tokens after rest : List Token} {c : Condition} {cs : List Condition} :
    Reads member tokens c after → Continues separator member after cs rest →
      Continues separator member (separator :: tokens) (c :: cs) rest

theorem members_eq_ok_iff {separator : Token} {member : Reader} {bound : Nat}
    {done all : List Condition} {tokens rest : List Token} (h : tokens.length < bound) :
    (∃ shorter, members separator member bound done tokens h = .ok ⟨(all, rest), shorter⟩) ↔
      ∃ cs, Continues separator member tokens cs rest ∧ all = done.reverse ++ cs := by
  constructor
  · rintro ⟨shorter, read⟩
    fun_induction members separator member bound done tokens h with
    | case1 done h =>
      cases read
      exact ⟨[], .stop (by simp), (List.append_nil _).symm⟩
    | case2 done tokens h e wrong => cases read
    | case3 done tokens c after shorter' here h _ ih =>
      obtain ⟨cs, continues, rfl⟩ := ih read
      exact ⟨c :: cs, .more ⟨shorter', here⟩ continues, by simp⟩
    | case4 done token tokens h other =>
      cases read
      exact ⟨[], .stop (by simpa using other), (List.append_nil _).symm⟩
  · rintro ⟨cs, continues, rfl⟩
    induction continues generalizing done with
    | @stop rest stops =>
      refine ⟨h, ?_⟩
      cases rest with
      | nil => rw [members]; simp
      | cons token rest => rw [members, if_neg (by simpa using stops)]; simp
    | @more tokens after rest c cs here _ ih =>
      obtain ⟨shorter, here⟩ := here
      have bounded : after.length < bound :=
        Nat.lt_trans shorter (Nat.lt_of_succ_lt h)
      obtain ⟨shorter', read⟩ := @ih (c :: done) bounded
      refine ⟨shorter', ?_⟩
      rw [members, if_pos rfl]
      simp only [here, read, List.reverse_cons, List.append_assoc]
      rfl

theorem joined_eq (operator : Operator) (terms : List Condition) :
    joined operator.join terms = (Rank.chain operator).condition terms := by
  rcases terms with _ | ⟨c, _ | ⟨c', cs⟩⟩ <;> rfl

/-- A chain is read as its members, and ends where no separator follows. -/
theorem reads_chain_iff {operator : Operator} {member : Reader} {tokens rest : List Token}
    {c : Condition} :
    Reads (chain operator.token operator.join member) tokens c rest ↔
      ∃ first after cs, Reads member tokens first after ∧
        Continues operator.token member after cs rest ∧
        c = (Rank.chain operator).condition (first :: cs) := by
  constructor
  · rintro ⟨shorter, read⟩
    rw [chain] at read
    split at read
    · cases read
    · next first after shorter' here =>
      split at read
      · cases read
      · next terms rest' bounded others =>
        cases read
        obtain ⟨cs, continues, rfl⟩ := (members_eq_ok_iff _).1 ⟨_, others⟩
        exact ⟨first, after, cs, ⟨shorter', here⟩, continues, joined_eq operator _⟩
  · rintro ⟨first, after, cs, ⟨shorter, here⟩, continues, rfl⟩
    obtain ⟨bounded, others⟩ : ∃ bounded, members operator.token member tokens.length [first] after
        shorter = .ok ⟨(first :: cs, rest), bounded⟩ :=
      (members_eq_ok_iff _).2 ⟨cs, continues, rfl⟩
    refine ⟨bounded, ?_⟩
    simp only [chain, here, others, ← joined_eq]

/-- A unary expression is read as the rules have it. -/
theorem reads_primary_iff {inner : Reader} {tokens rest : List Token} {c : Condition} :
    Reads (primary inner) tokens c rest ↔
      (∃ name, tokens = .flag name :: rest ∧ c = .flag name) ∨
      (∃ after negated, tokens = .bang :: after ∧ Reads inner after negated rest ∧
        c = .not negated) ∨
      ∃ after, tokens = .opening :: after ∧
        Reads (disjunction inner) after c (.closing :: rest) := by
  constructor
  · rintro ⟨shorter, read⟩
    unfold primary at read
    split at read
    · cases read
    · cases read
      exact .inl ⟨_, rfl, rfl⟩
    · next after =>
      split at read
      · cases read
      · next negated rest' shorter' here =>
        cases read
        exact .inr (.inl ⟨after, negated, rfl, ⟨shorter', here⟩, rfl⟩)
    · next after =>
      split at read
      · cases read
      · next grouped rest' shorter' here =>
        split at read
        · cases read
          exact .inr (.inr ⟨after, rfl, ⟨_, here⟩⟩)
        · cases read
    · cases read
  · rintro (⟨name, rfl, rfl⟩ | ⟨after, negated, rfl, ⟨shorter, here⟩, rfl⟩ |
      ⟨after, rfl, ⟨shorter, here⟩⟩)
    · exact ⟨_, rfl⟩
    · exact ⟨Nat.lt_succ_of_lt shorter, by simp only [primary, here]⟩
    · exact ⟨Nat.lt_succ_of_lt (Nat.lt_of_succ_lt shorter), by simp only [primary, here]⟩

/-! ### Reading along derivations -/

/-- A part of the given rank is derived from the front of some tokens, with fewer than `levels`
levels of nesting, and may end before the rest. -/
def Derives (levels : Nat) (rank : Rank) (tokens : List Token) (c : Condition)
    (rest : List Token) : Prop :=
  ∃ d : Derivation rank, tokens = d.tokens ++ rest ∧ d.nesting < levels ∧ c = d.condition ∧
    rank.Ends rest

section Chains

variable {member : Reader} {levels : Nat} (operator : Operator)
  (reads_iff : ∀ tokens c rest,
    Reads member tokens c rest ↔ Derives levels operator.member tokens c rest)
include reads_iff

/-- The members that are read make up a chain. -/
theorem exists_chain_of_continues {after rest tokens : List Token} {first : Condition}
    {cs : List Condition} (here : Reads member tokens first after)
    (continues : Continues operator.token member after cs rest) :
    ∃ d : Derivation (.chain operator), tokens = d.tokens ++ rest ∧ d.nesting < levels ∧
      d.meaning = first :: cs ∧ (Rank.chain operator).Ends rest := by
  induction continues generalizing tokens first with
  | stop stops =>
    obtain ⟨only, rfl, shallow, rfl, ends⟩ := (reads_iff _ _ _).1 here
    exact ⟨.single only, rfl, shallow, rfl, Rank.ends_chain_iff.2 ⟨stops, ends⟩⟩
  | more next _ ih =>
    obtain ⟨d, rfl, shallow, rfl, -⟩ := (reads_iff _ _ _).1 here
    obtain ⟨later, rfl, shallow', meaning, ends⟩ := ih next
    refine ⟨.more d later, ?_, Nat.max_lt.2 ⟨shallow, shallow'⟩, ?_, ends⟩
    · rw [Derivation.tokens, List.append_assoc, List.cons_append]
    · rw [Derivation.meaning, meaning]
      rfl

/-- A chain is read to its last member. -/
theorem exists_continues_of_chain : ∀ (d : Derivation (.chain operator)) {rest : List Token},
    d.nesting < levels → (Rank.chain operator).Ends rest →
    ∃ first after cs, Reads member (d.tokens ++ rest) first after ∧
      Continues operator.token member after cs rest ∧ d.meaning = first :: cs
  | .single only, rest, shallow, ends => by
    obtain ⟨stops, ends⟩ := Rank.ends_chain_iff.1 ends
    exact ⟨_, _, _, (reads_iff _ _ _).2 ⟨only, rfl, shallow, rfl, ends⟩, .stop stops, rfl⟩
  | .more d later, rest, shallow, ends => by
    obtain ⟨shallow, shallow'⟩ := Nat.max_lt.1 shallow
    obtain ⟨second, after, cs, next, continues, meaning⟩ :=
      exists_continues_of_chain later shallow' ends
    refine ⟨d.condition, operator.token :: (later.tokens ++ rest), second :: cs, ?_,
      .more next continues, ?_⟩
    · refine (reads_iff _ _ _).2 ⟨d, ?_, shallow, rfl, operator.ends_member _⟩
      rw [Derivation.tokens, List.append_assoc, List.cons_append]
    · rw [Derivation.meaning, meaning]
      rfl

theorem reads_chain_iff_derives (tokens : List Token) (c : Condition) (rest : List Token) :
    Reads (chain operator.token operator.join member) tokens c rest ↔
      Derives levels (.chain operator) tokens c rest := by
  rw [reads_chain_iff]
  constructor
  · rintro ⟨first, after, cs, here, continues, rfl⟩
    obtain ⟨d, same, shallow, meaning, ends⟩ :=
      exists_chain_of_continues operator reads_iff here continues
    exact ⟨d, same, shallow, by rw [Derivation.condition, meaning], ends⟩
  · rintro ⟨d, rfl, shallow, rfl, ends⟩
    obtain ⟨first, after, cs, here, continues, meaning⟩ :=
      exists_continues_of_chain operator reads_iff d shallow ends
    exact ⟨first, after, cs, here, continues, by rw [Derivation.condition, meaning]⟩

end Chains

theorem reads_disjunction_iff {unary : Reader} {levels : Nat}
    (reads_iff : ∀ tokens c rest, Reads unary tokens c rest ↔ Derives levels .unary tokens c rest)
    (tokens : List Token) (c : Condition) (rest : List Token) :
    Reads (disjunction unary) tokens c rest ↔
      Derives levels (.chain .either) tokens c rest :=
  reads_chain_iff_derives .either (reads_chain_iff_derives .both reads_iff) tokens c rest

/-- A unary expression is read just if it is derived with the levels of nesting there are. -/
theorem reads_unary_iff (levels : Nat) (tokens : List Token) (c : Condition) (rest : List Token) :
    Reads (unary levels) tokens c rest ↔ Derives levels .unary tokens c rest := by
  induction levels generalizing tokens c rest with
  | zero =>
    constructor
    · rintro ⟨_, ⟨⟩⟩
    · rintro ⟨d, -, shallow, -⟩
      exact absurd shallow (Nat.not_lt_zero _)
  | succ levels ih =>
    rw [unary, reads_primary_iff]
    constructor
    · rintro (⟨name, rfl, rfl⟩ | ⟨after, negated, rfl, here, rfl⟩ | ⟨after, rfl, here⟩)
      · exact ⟨.flag name, rfl, Nat.zero_lt_succ levels, rfl, trivial⟩
      · obtain ⟨inner, rfl, shallow, rfl, -⟩ := (ih _ _ _).1 here
        exact ⟨.not inner, rfl, Nat.succ_lt_succ shallow, rfl, trivial⟩
      · obtain ⟨inner, rfl, shallow, rfl, -⟩ := (reads_disjunction_iff ih _ _ _).1 here
        refine ⟨.group inner, ?_, Nat.succ_lt_succ shallow, rfl, trivial⟩
        rw [Derivation.tokens, List.cons_append, List.append_assoc]
        rfl
    · rintro ⟨d, rfl, shallow, rfl, -⟩
      cases d with
      | flag name => exact .inl ⟨name, rfl, rfl⟩
      | not inner =>
        have deeper := Nat.lt_of_succ_lt_succ shallow
        exact .inr (.inl ⟨inner.tokens ++ rest, inner.condition, rfl,
          (ih _ _ _).2 ⟨inner, rfl, deeper, rfl, trivial⟩, rfl⟩)
      | group inner =>
        have deeper := Nat.lt_of_succ_lt_succ shallow
        refine .inr (.inr ⟨inner.tokens ++ .closing :: rest, ?_,
          (reads_disjunction_iff ih _ _ _).2 ⟨inner, rfl, deeper, rfl, Rank.ends_closing _ _⟩⟩)
        rw [Derivation.tokens, List.cons_append, List.append_assoc]
        rfl

/-- A text is a condition just if it splits into tokens that are derived within the nesting
allowed. -/
theorem parse_eq_ok_iff {input : String} {c : Condition} :
    parse input = .ok c ↔ ∃ d : Derivation (.chain .either),
      Token.Splits input.toList d.tokens ∧ d.nesting ≤ maxNesting ∧ d.condition = c := by
  constructor
  · intro h
    unfold parse at h
    split at h
    · cases h
    · next tokens read =>
      split at h
      · cases h
      · next c' rest shorter here =>
        split at h
        · cases h
          obtain ⟨d, rfl, shallow, rfl, -⟩ :=
            (reads_disjunction_iff (reads_unary_iff _) _ _ _).1 ⟨_, here⟩
          rw [List.append_nil] at read
          exact ⟨d, Token.readAll_eq_ok_iff.1 read, Nat.le_of_lt_succ shallow, rfl⟩
        · cases h
  · rintro ⟨d, splits, shallow, rfl⟩
    obtain ⟨shorter, here⟩ := (reads_disjunction_iff (reads_unary_iff (maxNesting + 1)) _ _ _).2
      ⟨d, (List.append_nil _).symm, Nat.lt_succ_of_le shallow, rfl, Rank.ends_nil _⟩
    simp only [parse, Token.readAll_eq_ok_iff.2 splits, here]

/-- A name alone is the condition that the flag of the name is set. -/
theorem parse_name {name : String} (valid : Name.isValid name.toList = true) :
    parse name = .ok (.flag name) := by
  have splits : Token.Splits name.toList [.flag name] := by
    have stands : (Token.flag name).Stands [] := ⟨valid, by simp⟩
    simpa [Token.spelling] using
      @Token.Splits.token [] [] (.flag name) [] (by simp) stands (.blank (by simp))
  exact parse_eq_ok_iff.2 ⟨.single (.single (.flag name)), splits, Nat.zero_le _, rfl⟩

/-- Reading accepts a text just if it splits into tokens that are derived by the rules, within the
nesting allowed, and gives the condition of the derivation. There is at most one derivation for a
text, and its condition is true just if the derivation is. -/
theorem parse_derives (input : String) :
    (∀ c, parse input = .ok c ↔ ∃ d : Derivation (.chain .either),
      Token.Splits input.toList d.tokens ∧ d.nesting ≤ maxNesting ∧ d.condition = c) ∧
    Subsingleton {d : Derivation (.chain .either) // Token.Splits input.toList d.tokens} ∧
    ∀ (d : Derivation (.chain .either)) (flags : FlagSet),
      d.condition.eval flags = true ↔ d.Holds flags := by
  refine ⟨fun _ => parse_eq_ok_iff, ⟨?_⟩, fun d _ => d.eval_condition_iff⟩
  rintro ⟨d, splits⟩ ⟨d', splits'⟩
  exact Subtype.ext (Derivation.eq_of_tokens_eq (splits.unique splits'))

end Stencil.Condition

/-! ## Other spellings of a condition

Blanks between the tokens of a condition and the ASCII case of its flags do not matter: a condition
spelled in another way is read as well, and holds with the same flags. Main statement:
`parse_of_respelled`.
-/

namespace Stencil

namespace Text

/-- Upper-casing takes both cases of an ASCII letter to the same. -/
theorem upperChar_toLower (c : Char) : upperChar c.toLower = upperChar c := by
  by_cases upper : 'A' ≤ c ∧ c ≤ 'Z'
  · have letters : ∀ n < 91, 65 ≤ n →
        upperChar (Char.ofNat n).toLower = upperChar (Char.ofNat n) := by decide +kernel
    obtain ⟨low, high⟩ := upper
    have := letters c.toNat (Nat.lt_succ_of_le (UInt32.le_iff_toNat_le.1 high))
      (UInt32.le_iff_toNat_le.1 low)
    rwa [Char.ofNat_toNat] at this
  · rw [toLower_eq_self upper]

theorem upper_congr {s s' : String} (h : s.toList.map Char.toLower = s'.toList.map Char.toLower) :
    upper s = upper s' := by
  have lower (s : String) :
      upper s = String.ofList ((s.toList.map Char.toLower).flatMap upperChar) := by
    rw [upper, List.flatMap_map]
    exact congrArg (fun f => String.ofList (s.toList.flatMap f))
      (funext fun c => (upperChar_toLower c).symm)
  rw [lower, lower, h]

end Text

namespace Condition

def Token.folded : Token → Token
  | flag name => flag (String.ofList (name.toList.map Char.toLower))
  | token => token

theorem Token.eq_of_folded_eq {token token' : Token} (plain : ∀ name, token ≠ flag name)
    (h : token'.folded = token.folded) : token' = token := by
  cases token with
  | flag name => exact absurd rfl (plain name)
  | _ =>
    cases token' <;> cases h
    rfl

/-- Two texts have the same tokens, but for the ASCII case of flags. -/
def Respelled (text other : String) : Prop :=
  ∃ tokens tokens', Token.Splits text.toList tokens ∧ Token.Splits other.toList tokens' ∧
    tokens'.map Token.folded = tokens.map Token.folded

/-- Tokens that are the same but for the case of flags are derived alike. -/
theorem Derivation.exists_folded {rank : Rank} (d : Derivation rank) {tokens : List Token}
    (same : tokens.map Token.folded = d.tokens.map Token.folded) :
    ∃ d' : Derivation rank, d'.tokens = tokens ∧ d'.nesting = d.nesting ∧
      ∀ flags, d'.Holds flags ↔ d.Holds flags := by
  induction d generalizing tokens with
  | flag name =>
    obtain ⟨token, _, rfl, here, rest⟩ := List.map_eq_cons_iff.1 same
    cases List.map_eq_nil_iff.1 rest
    cases token with
    | flag name' =>
      have lower : name'.toList.map Char.toLower = name.toList.map Char.toLower := by
        have spelled := congrArg String.toList (Token.flag.inj here)
        rwa [String.toList_ofList, String.toList_ofList] at spelled
      exact ⟨.flag name', rfl, rfl, fun flags => by rw [Holds, Holds, Text.upper_congr lower]⟩
    | _ => cases here
  | not inner ih =>
    obtain ⟨token, tokens, rfl, here, rest⟩ := List.map_eq_cons_iff.1 same
    cases Token.eq_of_folded_eq (by simp) here
    obtain ⟨d', rfl, nesting, holds⟩ := ih rest
    exact ⟨.not d', rfl, congrArg (· + 1) nesting, fun flags => not_congr (holds flags)⟩
  | group inner ih =>
    obtain ⟨token, tokens, rfl, here, beyond⟩ := List.map_eq_cons_iff.1 same
    cases Token.eq_of_folded_eq (by simp) here
    rw [List.map_append] at beyond
    obtain ⟨inside, last, rfl, enclosed, ends⟩ := List.map_eq_append_iff.1 beyond
    obtain ⟨token, _, rfl, here, nothing⟩ := List.map_eq_cons_iff.1 ends
    cases Token.eq_of_folded_eq (by simp) here
    cases List.map_eq_nil_iff.1 nothing
    obtain ⟨d', rfl, nesting, holds⟩ := ih enclosed
    exact ⟨.group d', rfl, congrArg (· + 1) nesting, holds⟩
  | single only ih =>
    obtain ⟨d', rfl, nesting, holds⟩ := ih same
    exact ⟨.single d', rfl, nesting, holds⟩
  | @more operator first rest ihFirst ihRest =>
    rw [Derivation.tokens, List.map_append] at same
    obtain ⟨before, _, rfl, here, onward⟩ := List.map_eq_append_iff.1 same
    obtain ⟨token, after, rfl, separator, beyond⟩ := List.map_eq_cons_iff.1 onward
    have plain : ∀ name, operator.token ≠ .flag name := by cases operator <;> simp [Operator.token]
    cases Token.eq_of_folded_eq plain separator
    obtain ⟨d, rfl, nesting, holds⟩ := ihFirst here
    obtain ⟨d', rfl, nesting', holds'⟩ := ihRest beyond
    refine ⟨.more d d', rfl, by rw [Derivation.nesting, Derivation.nesting, nesting, nesting'],
      fun flags => ?_⟩
    rw [Holds, Holds, propext (holds flags), propext (holds' flags)]

/-- A condition that is spelled in another way holds with the same flags. -/
theorem parse_of_respelled {text other : String} (respelled : Respelled text other)
    {c : Condition} (h : parse text = .ok c) :
    ∃ c', parse other = .ok c' ∧ ∀ flags, c'.eval flags = c.eval flags := by
  obtain ⟨tokens, tokens', splits, splits', same⟩ := respelled
  obtain ⟨d, derived, shallow, rfl⟩ := parse_eq_ok_iff.1 h
  cases splits.unique derived
  obtain ⟨d', rfl, nesting, holds⟩ := d.exists_folded same
  refine ⟨d'.condition, parse_eq_ok_iff.2 ⟨d', splits', nesting ▸ shallow, rfl⟩, fun flags => ?_⟩
  rw [Bool.eq_iff_iff, d'.eval_condition_iff, d.eval_condition_iff, holds]

end Condition

end Stencil
