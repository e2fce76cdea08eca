import Mathlib.Data.List.Basic
import Mathlib.Data.List.Dedup
import Mathlib.Data.List.Infix
import Mathlib.Data.List.Sort
import Stencil.Condition

/-! # Texts and sets of flags

Escaping loses nothing; upper-casing and the order of texts by their bytes make equal sets of flags
equal lists.
-/

/-! ## Escaped text

A character is escaped as itself or as an entity, and an entity begins with its only `&`. So no
character of markup is left, every `&` begins an entity, and no `&` of the text is taken for that of
an entity when the text is read back. Main statement: `escape_lossless`.
-/

namespace Stencil.Text.Html

def entities : List String :=
  ["&amp;", "&lt;", "&gt;", "&quot;", "&#39;"]

def forbidden : List Char :=
  ['<', '>', '"', '\'']

/-! ### One character -/

/-- A character is written as itself, or as an entity that is read back as the character. -/
theorem escapeChar_cases (c : Char) :
    (escapeChar c = [c] ∧ c ≠ '&' ∧ c ∉ forbidden) ∨
      ∃ entity ∈ entities, escapeChar c = entity.toList ∧
        ∀ rest, unescapeChars (entity.toList ++ rest) = c :: unescapeChars rest := by
  by_cases ampersand : c = '&'
  · subst ampersand
    exact .inr ⟨"&amp;", by decide, rfl, fun _ => rfl⟩
  by_cases less : c = '<'
  · subst less
    exact .inr ⟨"&lt;", by decide, rfl, fun _ => rfl⟩
  by_cases greater : c = '>'
  · subst greater
    exact .inr ⟨"&gt;", by decide, rfl, fun _ => rfl⟩
  by_cases quote : c = '"'
  · subst quote
    exact .inr ⟨"&quot;", by decide, rfl, fun _ => rfl⟩
  by_cases apostrophe : c = '\''
  · subst apostrophe
    exact .inr ⟨"&#39;", by decide, rfl, fun _ => rfl⟩
  refine .inl ⟨?_, ampersand, ?_⟩
  · simp [escapeChar, ampersand, less, greater, quote, apostrophe]
  · simp [forbidden, less, greater, quote, apostrophe]

/-- An entity begins with its only `&` and holds no character of markup. -/
theorem exists_body_of_entity {entity : String} (h : entity ∈ entities) :
    ∃ body, entity.toList = '&' :: body ∧ '&' ∉ body ∧ ∀ c ∈ body, c ∉ forbidden := by
  have shapes : ∀ entity ∈ entities, entity.toList = '&' :: entity.toList.tail ∧
      '&' ∉ entity.toList.tail ∧ entity.toList.tail.all (· ∉ forbidden) = true := by decide
  obtain ⟨spelled, only, allowed⟩ := shapes entity h
  exact ⟨_, spelled, only, fun c mem => of_decide_eq_true (List.all_eq_true.1 allowed c mem)⟩

theorem unescapeChars_cons {c : Char} (h : c ≠ '&') (rest : List Char) :
    unescapeChars (c :: rest) = c :: unescapeChars rest := by
  rw [unescapeChars.eq_def]
  split <;> simp_all

/-! ### Whole texts -/

theorem not_forbidden_of_mem (cs : List Char) :
    ∀ d ∈ cs.flatMap escapeChar, d ∉ forbidden := by
  intro d mem
  obtain ⟨c, -, here⟩ := List.mem_flatMap.1 mem
  rcases escapeChar_cases c with ⟨same, -, allowed⟩ | ⟨entity, listed, same, -⟩
  · rw [same, List.mem_singleton] at here
    exact here ▸ allowed
  · obtain ⟨body, spelled, -, allowed⟩ := exists_body_of_entity listed
    rw [same, spelled, List.mem_cons] at here
    rcases here with rfl | inside
    · decide
    · exact allowed d inside

/-- What begins with a character that `front` does not hold begins after `front`. -/
theorem suffix_of_suffix_append {c : Char} {front rest after : List Char} (h : c ∉ front)
    (suffix : c :: after <:+ front ++ rest) : c :: after <:+ rest := by
  induction front with
  | nil => exact suffix
  | cons d front ih =>
    obtain ⟨other, later⟩ := not_or.1 (List.mem_cons.not.1 h)
    rcases List.suffix_cons_iff.1 suffix with whole | shorter
    · exact absurd (List.cons.inj whole).1 other
    · exact ih later shorter

/-- A `&` stands nowhere but where an entity begins. -/
theorem exists_entity_of_suffix {cs after : List Char}
    (h : '&' :: after <:+ cs.flatMap escapeChar) :
    ∃ entity ∈ entities, entity.toList <+: '&' :: after := by
  induction cs with
  | nil => simp at h
  | cons c cs ih =>
    rw [List.flatMap_cons] at h
    rcases escapeChar_cases c with ⟨same, plain, -⟩ | ⟨entity, listed, same, -⟩
    · rw [same] at h
      exact ih (suffix_of_suffix_append (by simpa using plain.symm) h)
    · obtain ⟨body, spelled, only, -⟩ := exists_body_of_entity listed
      rw [same] at h
      by_cases here : '&' :: after = entity.toList ++ cs.flatMap escapeChar
      · exact ⟨entity, listed, here ▸ List.prefix_append _ _⟩
      · rw [spelled, List.cons_append] at here h
        have later := (List.suffix_cons_iff.1 h).resolve_left here
        exact ih (suffix_of_suffix_append only later)

theorem unescapeChars_escape (cs : List Char) : unescapeChars (cs.flatMap escapeChar) = cs := by
  induction cs with
  | nil => rfl
  | cons c cs ih =>
    rw [List.flatMap_cons]
    rcases escapeChar_cases c with ⟨same, plain, -⟩ | ⟨entity, -, same, back⟩
    · rw [same, List.singleton_append, unescapeChars_cons plain, ih]
    · rw [same, back, ih]

theorem unescape_escape (s : String) : unescape (escape s) = s := by
  rw [unescape, escape, String.toList_ofList, unescapeChars_escape, String.ofList_toList]

theorem escape_append (s t : String) : escape (s ++ t) = escape s ++ escape t := by
  rw [escape, String.toList_append, List.flatMap_append, String.ofList_append]
  rfl

/-- An escaped text holds no character of markup, and a `&` only where an entity begins. It is read
back as the text, so different texts are escaped differently, also where they hold entities
themselves; and a text is escaped piece by piece. -/
theorem escape_lossless (s t : String) :
    (∀ c ∈ (escape s).toList, c ∉ forbidden) ∧
    (∀ before after, (escape s).toList = before ++ '&' :: after →
      ∃ entity ∈ entities, entity.toList <+: '&' :: after) ∧
    unescape (escape s) = s ∧
    (escape s = escape t → s = t) ∧
    escape (s ++ t) = escape s ++ escape t := by
  have written : (escape s).toList = s.toList.flatMap escapeChar := String.toList_ofList
  refine ⟨written ▸ not_forbidden_of_mem s.toList, fun before after split => ?_,
    unescape_escape s, fun same => ?_, escape_append s t⟩
  · rw [written] at split
    exact exists_entity_of_suffix ⟨before, split.symm⟩
  · rw [← unescape_escape s, same, unescape_escape t]

/-- A text that holds an entity keeps it as text. -/
theorem escape_lossless_entity :
    ('l' ∈ (escape "&lt;").toList ∧ 'l' ∉ forbidden) ∧
    ((escape "&lt;").toList = [] ++ '&' :: "amp;lt;".toList ∧
      ∃ entity ∈ entities, entity.toList <+: '&' :: "amp;lt;".toList) ∧
    (escape "&lt;" = escape "&lt;" ∧ "&lt;" = "&lt;") ∧
    unescape (escape "&lt;") = "&lt;" := by
  obtain ⟨allowed, begins, back, injective, -⟩ := escape_lossless "&lt;" "&lt;"
  have letter : 'l' ∈ (escape "&lt;").toList := by decide
  have written : (escape "&lt;").toList = [] ++ '&' :: "amp;lt;".toList := by decide
  exact ⟨⟨letter, allowed 'l' letter⟩, ⟨written, begins _ _ written⟩, ⟨rfl, injective rfl⟩, back⟩

end Stencil.Text.Html

/-! ## Upper-casing twice

No upper-case form holds a character that has another upper-case form: the characters that the table
lists and the ones that it lists for them are apart. So upper-casing a text in upper case changes
nothing, also where one character has become several. Main statement: `upper_upper`.
-/

namespace Stencil.Text

namespace UpperTable

/-- As many code points as the run has, from `start` on and equally far apart. -/
def Run.along (r : Run) (start : Nat) : List Nat :=
  (List.range ((r.last - r.first) / r.step + 1)).map fun k => start + r.step * k

def sources : List Nat :=
  runs.flatMap (fun r => r.along r.first) ++ expansions.map (·.1)

def images : List Nat :=
  runs.flatMap (fun r => r.along r.image) ++ expansions.flatMap (·.2)

theorem Run.add_sub_mem_along {r : Run} {n : Nat} (h : r.holds n = true) (start : Nat) :
    start + (n - r.first) ∈ r.along start := by
  simp only [holds, Bool.and_eq_true, decide_eq_true_eq, beq_iff_eq] at h
  obtain ⟨⟨-, inside⟩, met⟩ := h
  have steps : r.step * ((n - r.first) / r.step) = n - r.first :=
    Nat.mul_div_cancel' (Nat.dvd_of_mod_eq_zero met)
  refine List.mem_map.2 ⟨(n - r.first) / r.step, List.mem_range.2 ?_, by rw [steps]⟩
  exact Nat.lt_succ_of_le (Nat.div_le_div_right (Nat.sub_le_sub_right inside _))

theorem mem_sources_of_holds {r : Run} {n : Nat} (listed : r ∈ runs) (h : r.holds n = true) :
    n ∈ sources := by
  have first : r.first + (n - r.first) = n := by
    simp only [Run.holds, Bool.and_eq_true, decide_eq_true_eq] at h
    omega
  refine List.mem_append_left _ (List.mem_flatMap.2 ⟨r, listed, ?_⟩)
  exact first ▸ Run.add_sub_mem_along h r.first

theorem mem_images_of_holds {r : Run} {n : Nat} (listed : r ∈ runs) (h : r.holds n = true) :
    r.image + (n - r.first) ∈ images :=
  List.mem_append_left _ (List.mem_flatMap.2 ⟨r, listed, Run.add_sub_mem_along h r.image⟩)

/-! ### The table -/

/-- A set of numbers as the bits of one number, for comparing long lists at once. -/
def bits (ns : List Nat) : Nat :=
  ns.foldr (fun n rest => rest ||| 1 <<< n) 0

theorem testBit_bits (ns : List Nat) (n : Nat) : (bits ns).testBit n = true ↔ n ∈ ns := by
  induction ns with
  | nil => simp [bits]
  | cons m ns ih =>
    have step : bits (m :: ns) = bits ns ||| 1 <<< m := rfl
    rw [step, Nat.testBit_or, Bool.or_eq_true, ih, Nat.one_shiftLeft, Nat.testBit_two_pow,
      decide_eq_true_eq, List.mem_cons, or_comm, eq_comm]

/-- What the table lists as an upper-case form it does not list again. -/
theorem not_mem_sources_of_mem_images {n : Nat} (h : n ∈ images) : n ∉ sources := by
  have apart : bits images &&& bits sources = 0 := by decide +kernel
  intro again
  have both : (bits images &&& bits sources).testBit n = true := by
    rw [Nat.testBit_and, (testBit_bits _ _).2 h, (testBit_bits _ _).2 again]
    rfl
  rw [apart, Nat.zero_testBit] at both
  cases both

/-- What the table lists as an upper-case form is a character. -/
theorem toNat_of_mem_images {n : Nat} (h : n ∈ images) : (Char.ofNat n).toNat = n := by
  have valid : ∀ n ∈ images, (Char.ofNat n).toNat = n := by decide +kernel
  exact valid n h

end UpperTable

/-! ### Characters and texts -/

open UpperTable

theorem upperChar_of_not_mem {c : Char} (h : c.toNat ∉ sources) : upperChar c = [c] := by
  have no_run : runs.find? (·.holds c.toNat) = none :=
    List.find?_eq_none.2 fun r listed here => h (mem_sources_of_holds listed here)
  have no_expansion : expansions.find? (·.1 == c.toNat) = none := by
    refine List.find?_eq_none.2 fun e listed here => h (List.mem_append_right _ ?_)
    exact beq_iff_eq.1 here ▸ List.mem_map_of_mem listed
  rw [upperChar, no_run, no_expansion]

/-- A character stays as it is, or becomes characters of the table. -/
theorem upperChar_cases (c : Char) :
    upperChar c = [c] ∨ ∀ d ∈ upperChar c, ∃ n ∈ images, d = Char.ofNat n := by
  rw [upperChar]
  split
  · next r found =>
    have listed := List.mem_of_find?_eq_some found
    have held := List.find?_some (p := fun r : Run => r.holds c.toNat) found
    exact .inr fun d mem => ⟨_, mem_images_of_holds listed held, List.mem_singleton.1 mem⟩
  · split
    · next source several found =>
      right
      intro d mem
      obtain ⟨n, inside, rfl⟩ := List.mem_map.1 mem
      have listed : (source, several) ∈ expansions := List.mem_of_find?_eq_some found
      exact ⟨n, List.mem_append_right _ (List.mem_flatMap.2 ⟨_, listed, inside⟩), rfl⟩
    · exact .inl rfl

/-- An upper-case form is made of characters that are their own upper-case form. -/
theorem upperChar_of_mem_upperChar {c d : Char} (h : d ∈ upperChar c) : upperChar d = [d] := by
  rcases upperChar_cases c with same | made
  · rw [same, List.mem_singleton] at h
    rw [h, same]
  · obtain ⟨n, listed, rfl⟩ := made d h
    apply upperChar_of_not_mem
    rw [toNat_of_mem_images listed]
    exact not_mem_sources_of_mem_images listed

theorem upper_upper (s : String) : upper (upper s) = upper s := by
  have settled : ∀ cs : List Char, (∀ d ∈ cs, upperChar d = [d]) → cs.flatMap upperChar = cs := by
    intro cs h
    rw [List.flatMap_congr h]
    exact List.flatMap_singleton' cs
  rw [upper, upper, String.toList_ofList, settled]
  intro d mem
  obtain ⟨c, -, mem⟩ := List.mem_flatMap.1 mem
  exact upperChar_of_mem_upperChar mem

end Stencil.Text

/-! ## The order of texts and of their bytes

In UTF-8 a character with a greater code point has greater bytes, whatever follows: a longer form
begins with a greater byte, and forms of one length are the digits of the code point. So texts are
in the order of their bytes. Main statement: `bytes_lt_bytes`.
-/

namespace Stencil.Text

def bytes (s : String) : List UInt8 :=
  s.toUTF8.data.toList

theorem bytes_eq (s : String) : bytes s = s.toList.flatMap String.utf8EncodeChar := by
  rw [bytes, String.toUTF8_eq_toByteArray, ← String.utf8Encode_toList, List.utf8Encode,
    List.toList_data_toByteArray]

/-- Bytes come before those that begin with a greater byte, or with the same one and go on with
greater bytes. -/
theorem ofNat_cons_lt {first first' : Nat} {later later' : List UInt8} (bounded : first' < 256)
    (le : first ≤ first') (h : first = first' → later < later') :
    UInt8.ofNat first :: later < UInt8.ofNat first' :: later' := by
  rw [List.cons_lt_cons_iff, UInt8.lt_iff_toNat_lt]
  rcases Nat.lt_or_eq_of_le le with less | rfl
  · left
    simpa [Nat.mod_eq_of_lt bounded, Nat.mod_eq_of_lt (Nat.lt_of_le_of_lt le bounded)] using less
  · exact .inr ⟨rfl, h rfl⟩

theorem utf8EncodeChar_append_lt {c d : Char} (h : c < d) (rest rest' : List UInt8) :
    String.utf8EncodeChar c ++ rest < String.utf8EncodeChar d ++ rest' := by
  have less : c.val.toNat < d.val.toNat := h
  have bounded : d.val.toNat < 0x110000 := by
    have valid := d.valid
    simp only [UInt32.isValidChar, Nat.isValidChar] at valid
    omega
  unfold String.utf8EncodeChar
  generalize c.val.toNat = v at *
  generalize d.val.toNat = w at *
  simp only
  -- The form of `c` is not longer than that of `d`; where it is shorter, the first bytes differ.
  by_cases one : v ≤ 127
  · rw [if_pos one]
    split
    · exact ofNat_cons_lt (by omega) (by omega) (by omega)
    · split
      · exact ofNat_cons_lt (by omega) (by omega) (by omega)
      · split <;> exact ofNat_cons_lt (by omega) (by omega) (by omega)
  rw [if_neg one, if_neg (show ¬w ≤ 127 by omega)]
  by_cases two : v ≤ 2047
  · rw [if_pos two]
    split
    · refine ofNat_cons_lt (by omega) (by omega) fun first => ?_
      exact ofNat_cons_lt (by omega) (by omega) (by omega)
    · split <;> exact ofNat_cons_lt (by omega) (by omega) (by omega)
  rw [if_neg two, if_neg (show ¬w ≤ 2047 by omega)]
  by_cases three : v ≤ 65535
  · rw [if_pos three]
    split
    · refine ofNat_cons_lt (by omega) (by omega) fun first => ?_
      refine ofNat_cons_lt (by omega) (by omega) fun second => ?_
      exact ofNat_cons_lt (by omega) (by omega) (by omega)
    · exact ofNat_cons_lt (by omega) (by omega) (by omega)
  rw [if_neg three, if_neg (show ¬w ≤ 65535 by omega)]
  refine ofNat_cons_lt (by omega) (by omega) fun first => ?_
  refine ofNat_cons_lt (by omega) (by omega) fun second => ?_
  refine ofNat_cons_lt (by omega) (by omega) fun third => ?_
  exact ofNat_cons_lt (by omega) (by omega) (by omega)

theorem flatMap_utf8EncodeChar_lt {cs ds : List Char} (h : cs < ds) :
    cs.flatMap String.utf8EncodeChar < ds.flatMap String.utf8EncodeChar := by
  induction cs generalizing ds with
  | nil =>
    cases ds with
    | nil => cases h
    | cons d ds =>
      obtain ⟨first, later, same⟩ := List.exists_cons_of_ne_nil (@String.utf8EncodeChar_ne_nil d)
      rw [List.flatMap_cons, same]
      exact List.nil_lt_cons _ _
  | cons c cs ih =>
    cases ds with
    | nil => cases h
    | cons d ds =>
      rw [List.flatMap_cons, List.flatMap_cons]
      rcases List.cons_lt_cons_iff.1 h with less | ⟨rfl, less⟩
      · exact utf8EncodeChar_append_lt less _ _
      · exact List.append_left_lt (ih less)

/-- Texts are in the order of their bytes. -/
theorem bytes_lt_bytes {s t : String} (h : s < t) : bytes s < bytes t := by
  rw [bytes_eq, bytes_eq]
  exact flatMap_utf8EncodeChar_lt (String.lt_iff.1 h)

end Stencil.Text

/-! ## Sets of flags

A set that has been filled by any calls is determined by the upper-case names it was given, in
whatever order, how often and in which case they came. Main statement: `canonical`.
-/

namespace Stencil.FlagSet

inductive Change
  | insert (flag : String)
  | extend (flags : List String)

namespace Change

def flags : Change → List String
  | insert flag => [flag]
  | extend flags => flags

def apply (set : FlagSet) : Change → FlagSet
  | insert flag => set.insert flag
  | extend flags => set.extend flags

theorem apply_eq (set : FlagSet) (change : Change) :
    change.apply set = set.extend change.flags := by
  cases change <;> rfl

end Change

def after (changes : List Change) : FlagSet :=
  changes.foldl Change.apply empty

/-- The names in upper case that some calls put into a set, as often as they do. -/
def given (changes : List Change) : List String :=
  (changes.flatMap Change.flags).map Text.upper

/-! ### Members -/

theorem mem_extend {set : FlagSet} {flags : List String} {n : String} :
    n ∈ (set.extend flags).names ↔ n ∈ set.names ∨ n ∈ flags.map Text.upper := by
  induction flags generalizing set with
  | nil => simp [extend]
  | cons flag flags ih =>
    have step : set.extend (flag :: flags) = (set.insert flag).extend flags := rfl
    rw [step, ih, insert, mem_insertName, List.map_cons, List.mem_cons, or_assoc, or_left_comm]

theorem mem_ofList {flags : List String} {n : String} :
    n ∈ (ofList flags).names ↔ n ∈ flags.map Text.upper :=
  mem_extend.trans (or_iff_right List.not_mem_nil)

theorem after_eq (changes : List Change) :
    after changes = ofList (changes.flatMap Change.flags) := by
  rw [after, ofList, extend, List.foldl_flatMap]
  exact congrArg (fun f => changes.foldl f empty) (funext fun set => funext (Change.apply_eq set))

theorem mem_after {changes : List Change} {n : String} :
    n ∈ (after changes).names ↔ n ∈ given changes := by
  rw [after_eq, mem_ofList, given]

theorem nodup_names (set : FlagSet) : set.names.Nodup := by
  refine set.ascending.imp fun {m n} less => ?_
  rintro rfl
  exact String.lt_irrefl m less

/-- A set is determined by its members. -/
theorem eq_of_mem_iff {set set' : FlagSet} (h : ∀ n, n ∈ set.names ↔ n ∈ set'.names) :
    set = set' := by
  have names : set.names = set'.names := set.ascending.eq_of_mem_iff set'.ascending h
  cases set
  cases set'
  cases names
  rfl

theorem size_after (changes : List Change) :
    (after changes).size = (given changes).dedup.length := by
  have same : (after changes).names.Perm (given changes).dedup :=
    (List.perm_ext_iff_of_nodup (nodup_names _) (List.nodup_dedup _)).2 fun _ =>
      mem_after.trans List.mem_dedup.symm
  exact same.length_eq

theorem contains_iff {set : FlagSet} {flag : String} :
    set.contains flag = true ↔ Text.upper flag ∈ set.names :=
  List.contains_iff_mem

/-- A name that has been put into a set is its own upper-case form. -/
theorem upper_of_mem_after {changes : List Change} {n : String} (h : n ∈ (after changes).names) :
    Text.upper n = n := by
  obtain ⟨flag, -, rfl⟩ := List.mem_map.1 (mem_after.1 h)
  exact Text.upper_upper flag

/-- Collecting the names of a set makes the same set. -/
theorem ofList_names_after (changes : List Change) :
    ofList (after changes).names = after changes := by
  have names : (after changes).names.map Text.upper = (after changes).names :=
    List.map_congr_left (fun n mem => upper_of_mem_after mem) |>.trans (List.map_id _)
  exact eq_of_mem_iff fun n => mem_ofList.trans (by rw [names])

/-- After any calls, a set holds the upper-case forms of the flags it was given, each once and
ascending by bytes, and knows a flag by its upper-case form. Sets are equal just if they were given
the same upper-case names. Collecting the names of a set makes the same set, which knows all of
them. -/
theorem canonical (changes changes' : List Change) :
    (after changes).names.Pairwise (fun m n => Text.bytes m < Text.bytes n) ∧
    (after changes).names.Nodup ∧
    (∀ n, n ∈ (after changes).names ↔ ∃ flag ∈ changes.flatMap Change.flags, Text.upper flag = n) ∧
    (after changes).size = (given changes).dedup.length ∧
    (∀ y, (after changes).contains y = true ↔
      ∃ flag ∈ changes.flatMap Change.flags, Text.upper flag = Text.upper y) ∧
    (after changes = after changes' ↔ ∀ n, n ∈ given changes ↔ n ∈ given changes') ∧
    ofList (after changes).names = after changes ∧
    ∀ n ∈ (after changes).names, (after changes).contains n = true := by
  have members (n : String) :
      n ∈ (after changes).names ↔ ∃ flag ∈ changes.flatMap Change.flags, Text.upper flag = n :=
    mem_after.trans List.mem_map
  refine ⟨(after changes).ascending.imp Text.bytes_lt_bytes, nodup_names _, members,
    size_after changes, fun y => contains_iff.trans (members _), ⟨fun same n => ?_, fun same => ?_⟩,
    ofList_names_after changes, fun n mem => ?_⟩
  · rw [← mem_after, ← mem_after, same]
  · exact eq_of_mem_iff fun n => mem_after.trans ((same n).trans mem_after.symm)
  · rw [contains_iff, upper_of_mem_after mem]
    exact mem

/-- Two spellings of a word that becomes longer in upper case. -/
theorem canonical_sharp_s :
    "STRASSE" ∈ (after [.insert "straße", .extend ["Strasse", "b"]]).names ∧
    (after [.insert "straße", .extend ["Strasse", "b"]]).contains "STRASSE" = true ∧
    after [.insert "straße", .extend ["Strasse", "b"]] = after [.extend ["B", "STRASSE"]] := by
  obtain ⟨-, -, members, -, -, equal, -, known⟩ :=
    canonical [.insert "straße", .extend ["Strasse", "b"]] [.extend ["B", "STRASSE"]]
  have there := (members "STRASSE").2 ⟨"straße", by decide, by decide +kernel⟩
  have first :
      given [.insert "straße", .extend ["Strasse", "b"]] = ["STRASSE", "STRASSE", "B"] := by
    decide +kernel
  have second : given [.extend ["B", "STRASSE"]] = ["B", "STRASSE"] := by decide +kernel
  refine ⟨there, known _ there, equal.2 fun n => ?_⟩
  rw [first, second]
  simp only [List.mem_cons, List.not_mem_nil, or_false, or_self_left]
  exact or_comm

end Stencil.FlagSet
