import JsonTemplate.Proofs.Separators
import JsonTemplate.Proofs.Tokens

/-!
# The grammar of tokens and directives

The token at the head of a text, the texts that are tokens and the texts that are directives are all
told by one grammar (`Token.recognized`): a token is the longest prefix that is one, and a directive
is a token with blanks at its ends and before its list.
-/

namespace JsonTemplate

open Text

namespace Text

theorem eq_nil_of_utf8Length {t : List Char} (h : utf8Length t = 0) : t = [] := by
  cases t with
  | nil => rfl
  | cons c t =>
    have := c.utf8Size_pos
    rw [utf8Length] at h
    omega

theorem utf8Length_le_of_prefix {t u : List Char} (h : t <+: u) : utf8Length t ≤ utf8Length u := by
  obtain ⟨v, rfl⟩ := h
  rw [utf8Length_append]
  omega

/-- Of two prefixes of a text of one length in bytes, each is the other. -/
theorem eq_of_prefix_of_utf8Length {t u v : List Char} (ht : t <+: v) (hu : u <+: v)
    (h : utf8Length t = utf8Length u) : t = u := by
  rcases List.prefix_or_prefix_of_prefix ht hu with ⟨w, rfl⟩ | ⟨w, rfl⟩
  · rw [utf8Length_append] at h
    rw [eq_nil_of_utf8Length (t := w) (by omega), List.append_nil]
  · rw [utf8Length_append] at h
    rw [eq_nil_of_utf8Length (t := w) (by omega), List.append_nil]

theorem trim_trim (t : List Char) : trim (trim t) = trim t := by
  refine trim_eq_self (fun c hc => ?_) (getLast?_trimEnd _)
  have hprefix := trimEnd_isPrefix (trimStart t)
  have hhead := List.head?_dropWhile_not isBlank t
  rw [trim] at hc
  cases hend : trimEnd (trimStart t) with
  | nil =>
    rw [hend] at hc
    cases hc
  | cons d u =>
    rw [hend] at hc hprefix
    cases hc
    obtain ⟨v, hv⟩ := hprefix
    rw [trimStart] at hv
    rw [← hv, List.cons_append, List.head?_cons] at hhead
    exact hhead

end Text

namespace Token

/-- The texts that are tokens. -/
theorem isToken_iff {t : List Char} :
    isToken t = true ↔ ∃ k : Token, k.WellFormed ∧ t = k.text := by
  constructor
  · intro h
    unfold isToken at h
    split at h
    · rename_i k heq
      have happ := split?_append heq
      rw [List.append_nil] at happ
      exact ⟨k, wellFormed_of_split? heq, happ.symm⟩
    · cases h
  · rintro ⟨k, hk, rfl⟩
    exact isToken_text hk

/-- What begins with a token has a token at its head that begins with it. -/
theorem exists_split?_append {k : Token} (hk : k.WellFormed) (rest : List Char) :
    ∃ k' rest', split? (k.text ++ rest) = some (k', rest') ∧ k.text <+: k'.text := by
  cases ha : k.arguments with
  | some a =>
    have hends : k.EndsBefore rest := by constructor <;> simp [ha]
    exact ⟨k, rest, hends.split?_append hk, List.prefix_rfl⟩
  | none =>
    cases hm : k.method with
    | some m =>
      have hpoint : ∀ c ∈ ('.' :: (m ++ rest)).head?, isNameChar c = false := by
        intro c hc
        cases hc
        rfl
      have hname := splitName?_isName_append hk.name hpoint
      have hmethod := splitName?_append_takeWhile (hk.method m hm) rest
      refine ⟨⟨k.name, some (m ++ rest.takeWhile isNameChar),
        (splitArguments (rest.dropWhile isNameChar)).1⟩, _,
        split?_eq_some_iff.2 ⟨_, _, _, ?_, hname, by simp only [splitMethod, hmethod], rfl⟩, ?_⟩
      · simp [text, ha, hm, methodText, argumentsText]
      · simp [text, ha, hm, methodText, argumentsText]
    | none =>
      have hname := splitName?_append_takeWhile hk.name rest
      refine ⟨⟨k.name ++ rest.takeWhile isNameChar, (splitMethod (rest.dropWhile isNameChar)).1,
        (splitArguments (splitMethod (rest.dropWhile isNameChar)).2).1⟩, _,
        split?_eq_some_iff.2 ⟨_, _, _, ?_, hname, rfl, rfl⟩, ?_⟩
      · simp [text, ha, hm, methodText, argumentsText]
      · simp [text, ha, hm, methodText, argumentsText]

/-- The token at the head of a text begins with every prefix that is a token. -/
theorem prefix_of_split? {t u rest : List Char} {k : Token} (h : split? t = some (k, rest))
    (hu : u <+: t) (htoken : isToken u = true) : u <+: k.text := by
  obtain ⟨v, rfl⟩ := hu
  obtain ⟨k', hk', rfl⟩ := isToken_iff.1 htoken
  obtain ⟨k'', rest', hsplit, hprefix⟩ := exists_split?_append hk' v
  rw [hsplit] at h
  cases h
  exact hprefix

theorem length?_eq_some_iff {t : List Char} {n : Nat} : length? t = some n ↔
    ∃ k rest, split? t = some (k, rest) ∧ utf8Length k.text = n := by
  simp [length?]

theorem length?_eq_none_iff {t : List Char} :
    length? t = none ↔ ∀ u, u <+: t → isToken u = false := by
  rw [length?, Option.map_eq_none_iff]
  constructor
  · rintro h u ⟨v, rfl⟩
    refine Bool.eq_false_iff.2 fun htoken => ?_
    obtain ⟨k, hk, rfl⟩ := isToken_iff.1 htoken
    obtain ⟨k', rest', hsplit, -⟩ := exists_split?_append hk v
    rw [h] at hsplit
    cases hsplit
  · intro h
    cases hsplit : split? t with
    | none => rfl
    | some r =>
      have := h r.1.text ⟨r.2, split?_append hsplit⟩
      rw [isToken_text (wellFormed_of_split? hsplit)] at this
      cases this

/-- The token at the head of a text is the longest prefix that is one. -/
theorem length?_eq_some_iff_longest {t : List Char} {n : Nat} : length? t = some n ↔
    ∃ u, utf8Length u = n ∧ u <+: t ∧ isToken u = true
      ∧ ∀ v, v <+: t → isToken v = true → utf8Length v ≤ utf8Length u := by
  rw [length?_eq_some_iff]
  constructor
  · rintro ⟨k, rest, hsplit, hn⟩
    exact ⟨k.text, hn, ⟨rest, split?_append hsplit⟩, isToken_text (wellFormed_of_split? hsplit),
      fun v hv htoken => utf8Length_le_of_prefix (prefix_of_split? hsplit hv htoken)⟩
  · rintro ⟨u, hn, ⟨v, rfl⟩, htoken, hlongest⟩
    obtain ⟨k, hk, rfl⟩ := isToken_iff.1 htoken
    obtain ⟨k', rest, hsplit, hprefix⟩ := exists_split?_append hk v
    have hle := hlongest k'.text ⟨rest, split?_append hsplit⟩
      (isToken_text (wellFormed_of_split? hsplit))
    have hge := utf8Length_le_of_prefix hprefix
    exact ⟨k', rest, hsplit, by omega⟩

theorem isToken_iff_length? {t : List Char} :
    isToken t = true ↔ length? t = some (utf8Length t) := by
  rw [length?_eq_some_iff_longest]
  constructor
  · intro h
    exact ⟨t, rfl, List.prefix_rfl, h, fun v hv _ => utf8Length_le_of_prefix hv⟩
  · rintro ⟨u, hlength, hu, htoken, -⟩
    rwa [eq_of_prefix_of_utf8Length hu List.prefix_rfl hlength] at htoken

end Token

namespace Directive

/-- What the text between the brackets of a directive lists, if there are any: nothing if it is
blank, and else the values between its commas, each without the blanks around it. -/
inductive Lists : Option (List Char) → List Json → Prop
  | absent : Lists none []
  | blank {a : List Char} (h : ∀ c ∈ a, isBlank c = true) : Lists (some a) []
  | values {pieces : List (List Char)} (hne : pieces ≠ []) (hcomma : ∀ p ∈ pieces, ',' ∉ p)
      (h : ∃ c ∈ [','].intercalate pieces, isBlank c = false) :
      Lists (some ([','].intercalate pieces)) (pieces.map fun p => readArgument (trim p))

theorem readArgument_trim (t : List Char) : readArgument (trim t) = readArgument t := by
  rw [readArgument, readArgument, trim_trim]

theorem lists_iff {arguments : Option (List Char)} {args : List Json} :
    Lists arguments args ↔ args = (arguments.map parseArguments).getD [] := by
  have hpieces : ∀ ps : List (List Char),
      (ps.map fun p => readArgument (trim p)) = ps.map readArgument :=
    fun ps => List.map_congr_left fun p _ => readArgument_trim p
  constructor
  · intro h
    cases h with
    | absent => rfl
    | @blank a h =>
      have hall : a.all isBlank = true := List.all_eq_true.2 h
      rw [Option.map_some, parseArguments, if_pos hall]
      rfl
    | @values pieces hne hcomma h =>
      obtain ⟨c, hc, hblank⟩ := h
      have hall : ¬ ([','].intercalate pieces).all isBlank = true := by
        intro hall
        rw [List.all_eq_true.1 hall c hc] at hblank
        cases hblank
      rw [Option.map_some, parseArguments, if_neg hall, splitOn_intercalate hne hcomma, hpieces]
      rfl
  · rintro rfl
    cases arguments with
    | none => exact .absent
    | some a =>
      rw [Option.map_some, Option.getD_some, parseArguments]
      by_cases hall : a.all isBlank = true
      · rw [if_pos hall]
        exact .blank (List.all_eq_true.1 hall)
      · have hblank : ∃ c ∈ a, isBlank c = false := by simpa using hall
        have hjoin := intercalate_splitOn ',' a
        have hvalues := Lists.values (splitOn_ne_nil ',' a) (fun p hp => notMem_of_mem_splitOn hp)
          (by rwa [hjoin])
        rw [hjoin] at hvalues
        rwa [if_neg hall, ← hpieces]

/-- A directive is a sign and a name, a point and a method if there is one, and after blanks, or
none, a list in brackets if there is one; blanks at its ends do not matter. -/
theorem parse?_eq_some_iff_written {t : List Char} {d : Directive} : parse? t = some d ↔
    ∃ name method blanks arguments, Token.IsName name ∧ (∀ m ∈ method, Token.IsName m)
      ∧ (∀ c ∈ blanks, isBlank c = true) ∧ (∀ a ∈ arguments, ')' ∉ a)
      ∧ trim t = '@' :: (name ++ Token.methodText method
        ++ (blanks ++ Token.argumentsText arguments))
      ∧ d.name = String.ofList name ∧ d.method = method.map String.ofList
      ∧ Lists arguments d.args := by
  simp only [lists_iff]
  rw [parse?_eq_some_iff]
  constructor
  · rintro ⟨k, blanks, hk, hblanks, ht, rfl⟩
    exact ⟨k.name, k.method, blanks, k.arguments, hk.name, hk.method, hblanks, hk.arguments, ht,
      rfl, rfl, rfl⟩
  · rintro ⟨name, method, blanks, arguments, hname, hmethod, hblanks, harguments, ht, h⟩
    obtain ⟨name', method', args⟩ := d
    obtain ⟨rfl, rfl, rfl⟩ := h
    exact ⟨⟨name, method, arguments⟩, blanks, ⟨hname, hmethod, harguments⟩, hblanks, ht, rfl⟩

end Directive

/-- Tokens and directives are recognised by one grammar. A text is a token exactly if the token at
its head is as long as it is, and that is a sign and a name, a point and a method or nothing, and a
bracketed list or nothing. The token at the head of a text is the longest prefix that is a token,
and there is none exactly if no prefix is one. A token is read as a directive. A text is read as a
directive exactly if it is one without the blanks at its ends, a token that may have blanks before
its list, and its name, its method and the values of its list are those written there. -/
theorem Token.recognized (t : List Char) :
    (isToken t = true ↔ length? t = some (utf8Length t)) ∧
    (isToken t = true ↔ ∃ name method arguments, IsName name ∧ (∀ m ∈ method, IsName m)
      ∧ (∀ a ∈ arguments, ')' ∉ a)
      ∧ t = '@' :: (name ++ methodText method ++ argumentsText arguments)) ∧
    (∀ n, length? t = some n ↔ ∃ u, utf8Length u = n ∧ u <+: t ∧ isToken u = true
      ∧ ∀ v, v <+: t → isToken v = true → utf8Length v ≤ utf8Length u) ∧
    (length? t = none ↔ ∀ u, u <+: t → isToken u = false) ∧
    (isToken t = true → (Directive.parse? t).isSome = true) ∧
    ∀ d, Directive.parse? t = some d ↔
      ∃ name method blanks arguments, IsName name ∧ (∀ m ∈ method, IsName m)
        ∧ (∀ c ∈ blanks, isBlank c = true) ∧ (∀ a ∈ arguments, ')' ∉ a)
        ∧ trim t = '@' :: (name ++ methodText method ++ (blanks ++ argumentsText arguments))
        ∧ d.name = String.ofList name ∧ d.method = method.map String.ofList
        ∧ Directive.Lists arguments d.args := by
  refine ⟨isToken_iff_length?, ?_, fun n => length?_eq_some_iff_longest, length?_eq_none_iff,
    fun h => ?_, fun d => Directive.parse?_eq_some_iff_written⟩
  · rw [isToken_iff]
    constructor
    · rintro ⟨k, hk, rfl⟩
      exact ⟨k.name, k.method, k.arguments, hk.name, hk.method, hk.arguments, by simp [text]⟩
    · rintro ⟨name, method, arguments, hname, hmethod, harguments, rfl⟩
      exact ⟨⟨name, method, arguments⟩, ⟨hname, hmethod, harguments⟩, by simp [text]⟩
  · obtain ⟨k, hk, rfl⟩ := isToken_iff.1 h
    rw [Directive.parse?_text hk]
    rfl

theorem Token.recognized_list :
    length? "@a.b(é,\n x)".toList = some 12 ∧
      (Directive.parse? "@a.b(é,\n x)".toList).isSome = true := by
  have htoken : isToken "@a.b(é,\n x)".toList = true := by decide
  have h := recognized "@a.b(é,\n x)".toList
  exact ⟨h.1.1 htoken, h.2.2.2.2.1 htoken⟩

end JsonTemplate
