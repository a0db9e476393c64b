import Mathlib.Data.List.TakeWhile
import JsonTemplate.Proofs.PlaceholderText

/-!
# Tokens

A token is read off its own text, whatever follows that does not continue it
(`split?_text_append`), and the text read as a whole is the token's directive (`parse?_text`).
-/

namespace JsonTemplate

open Text

namespace Text

theorem trimStart_eq_self {t : List Char} (h : ∀ c ∈ t.head?, isBlank c = false) :
    trimStart t = t := by
  cases t with
  | nil => rfl
  | cons c t =>
    rw [trimStart, List.dropWhile_cons_of_neg]
    simp [h c rfl]

theorem trimEnd_eq_self {t : List Char} (h : ∀ c ∈ t.getLast?, isBlank c = false) :
    trimEnd t = t := by
  have := trimStart_eq_self (t := t.reverse) (by rwa [List.head?_reverse])
  rw [trimStart] at this
  rw [trimEnd, this, List.reverse_reverse]

/-- A text with no blank at either end has none to be trimmed. -/
theorem trim_eq_self {t : List Char} (hhead : ∀ c ∈ t.head?, isBlank c = false)
    (hlast : ∀ c ∈ t.getLast?, isBlank c = false) : trim t = t := by
  rw [trim, trimStart_eq_self hhead, trimEnd_eq_self hlast]

/-- The blanks around a text are trimmed, up to where it begins and ends without one. -/
theorem trim_append {before t after : List Char} (hb : ∀ c ∈ before, isBlank c = true)
    (ha : ∀ c ∈ after, isBlank c = true) (hne : t ≠ []) (hhead : ∀ c ∈ t.head?, isBlank c = false)
    (hlast : ∀ c ∈ t.getLast?, isBlank c = false) : trim (before ++ (t ++ after)) = t := by
  have hstart : trimStart (before ++ (t ++ after)) = t ++ after := by
    rw [trimStart, List.dropWhile_append_of_pos hb]
    obtain ⟨d, u, rfl⟩ := List.exists_cons_of_ne_nil hne
    exact trimStart_eq_self hhead
  have hend : trimEnd (t ++ after) = trimEnd t := by
    rw [trimEnd, trimEnd, List.reverse_append, List.dropWhile_append_of_pos]
    exact fun c hc => ha c (List.mem_reverse.1 hc)
  rw [trim, hstart, hend, trimEnd_eq_self hlast]

theorem getLast?_trimEnd (t : List Char) : ∀ c ∈ (trimEnd t).getLast?, isBlank c = false := by
  intro c hc
  rw [trimEnd, List.getLast?_reverse] at hc
  have := List.head?_dropWhile_not isBlank t.reverse
  rw [hc] at this
  exact this

/-- Trimming the end stops at a character that is no blank. -/
theorem trimEnd_append {s t : List Char} (h : ∃ c ∈ t, isBlank c = false) :
    trimEnd (s ++ t) = s ++ trimEnd t ∧ trimEnd t ≠ [] := by
  have hne : t.reverse.dropWhile isBlank ≠ [] := by
    obtain ⟨c, hc, hblank⟩ := h
    intro hnil
    have hall := List.takeWhile_append_dropWhile (p := isBlank) (l := t.reverse)
    rw [hnil, List.append_nil] at hall
    have := List.all_eq_true.1 List.all_takeWhile c (by rw [hall]; exact List.mem_reverse.2 hc)
    rw [hblank] at this
    cases this
  refine ⟨?_, fun hnil => hne (List.reverse_eq_nil_iff.1 hnil)⟩
  rw [trimEnd, List.reverse_append, List.dropWhile_append, if_neg (by simpa using hne)]
  simp [trimEnd]

/-- Nothing is left of blanks only. -/
theorem trim_eq_nil_iff {t : List Char} : trim t = [] ↔ ∀ c ∈ t, isBlank c = true := by
  constructor
  · intro h c hc
    refine Bool.of_not_eq_false fun hblank => ?_
    have hstart : trimStart t = [] := by
      have hhead := List.head?_dropWhile_not isBlank t
      cases hs : trimStart t with
      | nil => rfl
      | cons d u =>
        rw [trimStart] at hs
        rw [hs, List.head?_cons] at hhead
        have hend := (trimEnd_append (s := []) ⟨d, List.mem_cons_self (l := u), hhead⟩).2
        rw [← hs] at hend
        exact absurd h hend
    rw [trimStart, List.dropWhile_eq_nil_iff] at hstart
    rw [hstart c hc] at hblank
    cases hblank
  · intro h
    rw [trim, trimStart, List.dropWhile_eq_nil_iff.2 h]
    rfl

theorem trimStart_isSuffix (t : List Char) : trimStart t <:+ t :=
  List.dropWhile_suffix _

theorem trimEnd_isPrefix (t : List Char) : trimEnd t <+: t := by
  have := List.reverse_prefix.2 (List.dropWhile_suffix isBlank (l := t.reverse))
  rwa [List.reverse_reverse] at this

theorem trim_isInfix (t : List Char) : trim t <:+: t :=
  (trimEnd_isPrefix _).isInfix.trans (trimStart_isSuffix t).isInfix

end Text

namespace Token

theorem isBlank_of_isNameChar {c : Char} (h : isNameChar c = true) : isBlank c = false := by
  have := toNat_of_isNameChar h
  simp only [isBlank, Bool.or_eq_false_iff, Bool.and_eq_false_iff, decide_eq_false_iff_not,
    beq_eq_false_iff_ne]
  omega

theorem isNameChar_of_isNameStart {c : Char} (h : isNameStart c = true) :
    isNameChar c = true := by
  simp only [isNameStart, isNameChar, Char.isAlphanum, Bool.or_eq_true] at h ⊢
  rcases h with h | h
  · exact .inl (.inl h)
  · exact .inr h

/-- A letter or underscore, and after it letters, digits and underscores. -/
def IsName (t : List Char) : Prop :=
  ∃ c u, t = c :: u ∧ isNameStart c = true ∧ ∀ d ∈ u, isNameChar d = true

theorem IsName.isNameChar {t : List Char} (h : IsName t) : ∀ c ∈ t, isNameChar c = true := by
  obtain ⟨c, u, rfl, hc, hu⟩ := h
  intro d hd
  rcases List.mem_cons.1 hd with rfl | hd
  · exact isNameChar_of_isNameStart hc
  · exact hu d hd

/-- The parts of a token are as they are read: names, and arguments without a closing bracket. -/
structure WellFormed (k : Token) : Prop where
  name : IsName k.name
  method : ∀ m ∈ k.method, IsName m
  arguments : ∀ a ∈ k.arguments, ')' ∉ a

/-- Up to its list a token is of name characters, its sign and its point. -/
theorem WellFormed.path_chars {k : Token} (h : k.WellFormed) :
    ∀ c ∈ '@' :: k.name ++ methodText k.method, isNameChar c = true ∨ c = '@' ∨ c = '.' := by
  intro c hc
  rcases List.mem_append.1 hc with hc | hc
  · rcases List.mem_cons.1 hc with rfl | hc
    · exact .inr (.inl rfl)
    · exact .inl (h.name.isNameChar c hc)
  · cases hm : k.method with
    | none =>
      rw [hm] at hc
      cases hc
    | some m =>
      rw [hm] at hc
      rcases List.mem_cons.1 hc with rfl | hc
      · exact .inr (.inr rfl)
      · exact .inl ((h.method m hm).isNameChar c hc)

theorem splitName?_eq_some {t name rest : List Char} (h : splitName? t = some (name, rest)) :
    IsName name := by
  match t, h with
  | c :: t, h =>
    simp only [splitName?] at h
    split at h
    · rename_i hc
      cases h
      exact ⟨c, _, rfl, hc, fun d hd => List.all_eq_true.1 List.all_takeWhile d hd⟩
    · cases h

theorem isName_of_mem_splitMethod {t m : List Char} (h : m ∈ (splitMethod t).1) : IsName m := by
  unfold splitMethod at h
  split at h
  · split at h
    · rename_i hn
      cases h
      exact splitName?_eq_some hn
    · cases h
  · cases h

theorem notMem_of_mem_splitArguments {t a : List Char} (h : a ∈ (splitArguments t).1) :
    ')' ∉ a := by
  unfold splitArguments at h
  split at h
  · split at h
    · cases h
      intro hm
      have := List.all_eq_true.1 List.all_takeWhile _ hm
      simp at this
    · cases h
  · cases h

theorem wellFormed_of_parts {k : Token} {t t₁ t₂ t₃ r₁ r₂ : List Char}
    (h₁ : splitName? t = some (k.name, r₁)) (h₂ : splitMethod t₁ = (k.method, r₂))
    (h₃ : splitArguments t₂ = (k.arguments, t₃)) : k.WellFormed where
  name := splitName?_eq_some h₁
  method m hm := isName_of_mem_splitMethod (t := t₁) (by rw [h₂]; exact hm)
  arguments a ha := notMem_of_mem_splitArguments (t := t₂) (by rw [h₃]; exact ha)

/-- A token is split off part by part. -/
theorem split?_eq_some_iff {t rest : List Char} {k : Token} :
    split? t = some (k, rest) ↔ ∃ u r₁ r₂, t = '@' :: u ∧ splitName? u = some (k.name, r₁)
      ∧ splitMethod r₁ = (k.method, r₂) ∧ splitArguments r₂ = (k.arguments, rest) := by
  constructor
  · intro h
    unfold split? at h
    split at h
    · rename_i u
      cases hn : splitName? u with
      | none => simp [hn] at h
      | some r =>
        simp only [hn, Option.bind_eq_bind, Option.bind_some, Option.pure_def, Option.some.injEq,
          Prod.mk.injEq] at h
        obtain ⟨rfl, rfl⟩ := h
        exact ⟨u, _, _, rfl, hn, rfl, rfl⟩
    · cases h
  · rintro ⟨u, r₁, r₂, rfl, h₁, h₂, h₃⟩
    simp only [split?, h₁, Option.bind_eq_bind, Option.bind_some, h₂, h₃, Option.pure_def]

theorem wellFormed_of_split? {t rest : List Char} {k : Token} (h : split? t = some (k, rest)) :
    k.WellFormed := by
  obtain ⟨u, r₁, r₂, -, h₁, h₂, h₃⟩ := split?_eq_some_iff.1 h
  exact wellFormed_of_parts h₁ h₂ h₃

/-! ## Reading a token back -/

/-- The text does not continue a token before it. -/
def Stops (rest : List Char) : Prop :=
  ∀ c ∈ rest.head?, isNameChar c = false ∧ c ≠ '.' ∧ c ≠ '('

theorem stops_nil : Stops [] := by
  intro c hc
  cases hc

/-- A name goes on as far as the text after it has characters of names. -/
theorem splitName?_append_takeWhile {name : List Char} (hn : IsName name) (rest : List Char) :
    splitName? (name ++ rest)
      = some (name ++ rest.takeWhile isNameChar, rest.dropWhile isNameChar) := by
  obtain ⟨c, u, rfl, hc, hu⟩ := hn
  rw [List.cons_append, splitName?, if_pos hc, List.takeWhile_append_of_pos hu,
    List.dropWhile_append_of_pos hu, List.cons_append]

theorem splitName?_isName_append {name rest : List Char} (hn : IsName name)
    (h : ∀ c ∈ rest.head?, isNameChar c = false) :
    splitName? (name ++ rest) = some (name, rest) := by
  have hstop : rest.takeWhile isNameChar = [] ∧ rest.dropWhile isNameChar = rest := by
    cases rest with
    | nil => exact ⟨rfl, rfl⟩
    | cons d rest =>
      have hd : ¬ isNameChar d = true := by simp [h d rfl]
      exact ⟨List.takeWhile_cons_of_neg hd, List.dropWhile_cons_of_neg hd⟩
  rw [splitName?_append_takeWhile hn, hstop.1, hstop.2, List.append_nil]

theorem splitMethod_methodText_append {method : Option (List Char)} {rest : List Char}
    (hm : ∀ m ∈ method, IsName m) (h : ∀ c ∈ rest.head?, isNameChar c = false ∧ c ≠ '.') :
    splitMethod (methodText method ++ rest) = (method, rest) := by
  cases method with
  | none =>
    rw [methodText, List.nil_append]
    unfold splitMethod
    split
    · exact absurd rfl (h '.' rfl).2
    · rfl
  | some m =>
    rw [methodText, List.cons_append, splitMethod,
      splitName?_isName_append (hm m rfl) fun c hc => (h c hc).1]

/-- A list is closed by its first closing bracket, whatever follows. -/
theorem splitArguments_list_append {a : List Char} (ha : ')' ∉ a) (rest : List Char) :
    splitArguments (argumentsText (some a) ++ rest) = (some a, rest) := by
  have hall : ∀ c ∈ a, (c != ')') = true := by
    intro c hc
    rw [bne_iff_ne]
    rintro rfl
    exact ha hc
  have heq : argumentsText (some a) ++ rest = '(' :: (a ++ ')' :: rest) := by
    simp [argumentsText]
  rw [heq, splitArguments, List.dropWhile_append_of_pos hall, List.takeWhile_append_of_pos hall]
  simp

theorem splitArguments_argumentsText_append {arguments : Option (List Char)} {rest : List Char}
    (ha : ∀ a ∈ arguments, ')' ∉ a) (h : ∀ c ∈ rest.head?, c ≠ '(') :
    splitArguments (argumentsText arguments ++ rest) = (arguments, rest) := by
  cases arguments with
  | none =>
    rw [argumentsText, List.nil_append]
    unfold splitArguments
    split
    · exact absurd rfl (h '(' rfl)
    · rfl
  | some a => exact splitArguments_list_append (ha a rfl) rest

/-- A method does not continue the name before it. -/
theorem head?_methodText_append (method : Option (List Char)) {rest : List Char}
    (h : ∀ c ∈ rest.head?, isNameChar c = false) :
    ∀ c ∈ (methodText method ++ rest).head?, isNameChar c = false := by
  cases method with
  | some m =>
    intro c hc
    cases hc
    rfl
  | none => exact h

/-- A list does not continue a name before it, and adds no method to it. -/
theorem head?_argumentsText_append (arguments : Option (List Char)) {rest : List Char}
    (h : ∀ c ∈ rest.head?, isNameChar c = false ∧ c ≠ '.') :
    ∀ c ∈ (argumentsText arguments ++ rest).head?, isNameChar c = false ∧ c ≠ '.' := by
  cases arguments with
  | some a =>
    intro c hc
    cases hc
    decide
  | none => exact h

/-! ## The end of a token -/

theorem splitName?_head {t name rest : List Char} (h : splitName? t = some (name, rest)) :
    ∀ c ∈ rest.head?, isNameChar c = false := by
  match t, h with
  | c :: t, h =>
    simp only [splitName?] at h
    split at h
    · cases h
      intro d hd
      have := List.head?_dropWhile_not isNameChar t
      rw [hd] at this
      simpa using this
    · cases h

/-- A token with arguments ends with them; another one ends where the text does not go on with
it. -/
structure EndsBefore (k : Token) (rest : List Char) : Prop where
  name : k.arguments = none → ∀ c ∈ rest.head?, isNameChar c = false
  method : k.arguments = none → k.method = none → (splitMethod rest).1 = none
  arguments : k.arguments = none → (splitArguments rest).1 = none

theorem endsBefore_of_split? {t rest : List Char} {k : Token} (h : split? t = some (k, rest)) :
    k.EndsBefore rest := by
  obtain ⟨u, r₁, r₂, -, h₁, h₂, h₃⟩ := split?_eq_some_iff.1 h
  have hmethod := splitMethod_append r₁
  rw [h₂] at hmethod
  have harguments : k.arguments = none → r₂ = rest := by
    intro ha
    have := splitArguments_append r₂
    rw [h₃, ha] at this
    exact this.symm
  refine ⟨fun ha => ?_, fun ha hm => ?_, fun ha => ?_⟩
  · obtain rfl := harguments ha
    cases hm : k.method with
    | none =>
      rw [hm] at hmethod
      obtain rfl : r₂ = r₁ := hmethod
      exact splitName?_head h₁
    | some m =>
      rw [hm] at hmethod h₂
      rw [← hmethod] at h₂
      simp only [methodText, List.cons_append, splitMethod] at h₂
      split at h₂
      · rename_i hname
        cases h₂
        exact splitName?_head hname
      · cases h₂
  · obtain rfl := harguments ha
    rw [hm] at hmethod h₂
    obtain rfl : r₂ = r₁ := hmethod
    rw [h₂]
  · obtain rfl := harguments ha
    rw [h₃, ha]

/-- A token is read off its own text where it ends. -/
theorem EndsBefore.split?_append {k : Token} {rest : List Char} (h : k.EndsBefore rest)
    (hk : k.WellFormed) : split? (k.text ++ rest) = some (k, rest) := by
  have hname : ∀ c ∈ (argumentsText k.arguments ++ rest).head?, isNameChar c = false := by
    intro c hc
    cases ha : k.arguments with
    | some a => rw [ha] at hc; cases hc; rfl
    | none => rw [ha] at hc; exact h.name ha c hc
  refine split?_eq_some_iff.2
    ⟨k.name ++ (methodText k.method ++ (argumentsText k.arguments ++ rest)),
    methodText k.method ++ (argumentsText k.arguments ++ rest), argumentsText k.arguments ++ rest,
    by simp [text], splitName?_isName_append hk.name ?_, ?_, ?_⟩
  · exact head?_methodText_append k.method hname
  · cases hm : k.method with
    | some m =>
      rw [methodText, List.cons_append, splitMethod,
        splitName?_isName_append (hk.method m hm) hname]
    | none =>
      cases ha : k.arguments with
      | some a => rfl
      | none =>
        have := splitMethod_append rest
        rw [h.method ha hm] at this
        exact Prod.ext (h.method ha hm) this
  · cases ha : k.arguments with
    | some a => exact splitArguments_list_append (hk.arguments a ha) rest
    | none =>
      have := splitArguments_append rest
      rw [h.arguments ha] at this
      exact Prod.ext (h.arguments ha) this

theorem Stops.endsBefore {rest : List Char} (h : Stops rest) (k : Token) : k.EndsBefore rest where
  name _ c hc := (h c hc).1
  method _ _ := by
    unfold splitMethod
    split
    · exact absurd rfl (h '.' rfl).2.1
    · rfl
  arguments _ := by
    unfold splitArguments
    split
    · exact absurd rfl (h '(' rfl).2.2
    · rfl

/-- A token is the longest one at the head of its text. -/
theorem split?_text_append {k : Token} (hk : k.WellFormed) {rest : List Char} (h : Stops rest) :
    split? (k.text ++ rest) = some (k, rest) :=
  (h.endsBefore k).split?_append hk

theorem exists_eq_of_isToken {t : List Char} (h : isToken t = true) : ∃ u, t = '@' :: u := by
  unfold isToken at h
  split at h
  · rename_i heq
    exact ⟨_, by rw [← split?_append heq]; rfl⟩
  · cases h

theorem isToken_text {k : Token} (hk : k.WellFormed) : isToken k.text = true := by
  have := split?_text_append hk stops_nil
  rw [List.append_nil] at this
  rw [isToken, this]

theorem isBlank_getLast?_text {k : Token} (hk : k.WellFormed) :
    ∀ c ∈ k.text.getLast?, isBlank c = false := by
  intro c hc
  cases ha : k.arguments with
  | some a =>
    have : k.text = '@' :: (k.name ++ methodText k.method ++ '(' :: a) ++ [')'] := by
      simp [text, ha, argumentsText]
    rw [this, List.getLast?_concat] at hc
    cases hc
    rfl
  | none =>
    have hlast : ∀ {u v : List Char}, k.text = u ++ v → IsName v → isBlank c = false := by
      intro u v heq hv
      have hname := hv.isNameChar
      obtain ⟨d, w, rfl, -⟩ := hv
      rw [heq, List.getLast?_append, List.getLast?_eq_some_getLast (List.cons_ne_nil d w),
        Option.some_or] at hc
      cases hc
      exact isBlank_of_isNameChar (hname _ (List.getLast_mem _))
    cases hm : k.method with
    | some m =>
      exact hlast (u := '@' :: (k.name ++ ['.']))
        (by simp [text, ha, hm, argumentsText, methodText]) (hk.method m hm)
    | none =>
      exact hlast (u := ['@']) (by simp [text, ha, hm, argumentsText, methodText]) hk.name

theorem trim_text {k : Token} (hk : k.WellFormed) : trim k.text = k.text := by
  refine trim_eq_self (fun c hc => ?_) (isBlank_getLast?_text hk)
  cases hc
  rfl

end Token

namespace Directive

/-- A text that begins with `@` is read as a directive part by part. -/
theorem parse?_of_trim {t u : List Char} {d : Directive} (ht : trim t = '@' :: u) :
    parse? t = some d ↔ ∃ k r₁ r₂, Token.splitName? u = some (k.name, r₁)
      ∧ Token.splitMethod r₁ = (k.method, r₂)
      ∧ Token.splitArguments (trimStart r₂) = (k.arguments, []) ∧ d = ofToken k := by
  rw [parse?, ht]
  constructor
  · intro h
    cases hn : Token.splitName? u with
    | none => simp [hn] at h
    | some r =>
      obtain ⟨name, r₁⟩ := r
      simp only [hn, Option.bind_eq_bind, Option.bind_some] at h
      split at h
      · rename_i arguments harguments
        cases h
        exact ⟨⟨name, (Token.splitMethod r₁).1, arguments⟩, r₁, (Token.splitMethod r₁).2, rfl, rfl,
          harguments, rfl⟩
      · cases h
  · rintro ⟨k, r₁, r₂, h₁, h₂, h₃, rfl⟩
    simp only [h₁, h₂, h₃, Option.bind_eq_bind, Option.bind_some, Option.pure_def]

/-- What a directive is read off is, blanks at its ends aside, a token that may have blanks before
its list. -/
theorem exists_token_of_parse? {t : List Char} {d : Directive} (h : parse? t = some d) :
    ∃ (k : Token) (blanks : List Char), k.WellFormed ∧ (∀ c ∈ blanks, isBlank c = true)
      ∧ trim t = '@' :: (k.name ++ Token.methodText k.method
        ++ (blanks ++ Token.argumentsText k.arguments)) ∧ d = ofToken k := by
  have hsign : ∃ u, trim t = '@' :: u := by
    unfold parse? at h
    split at h
    · exact ⟨_, ‹_›⟩
    · cases h
  obtain ⟨u, hu⟩ := hsign
  obtain ⟨k, r₁, r₂, h₁, h₂, h₃, rfl⟩ := (parse?_of_trim hu).1 h
  have hmethod := Token.splitMethod_append r₁
  have hlist := Token.splitArguments_append (trimStart r₂)
  rw [h₂] at hmethod
  rw [h₃, List.append_nil] at hlist
  refine ⟨k, r₂.takeWhile isBlank, Token.wellFormed_of_parts h₁ h₂ h₃,
    fun c hc => List.all_eq_true.1 List.all_takeWhile c hc, ?_, rfl⟩
  rw [hu, hlist, trimStart, List.takeWhile_append_dropWhile, List.append_assoc, hmethod,
    Token.splitName?_append h₁]

/-- Blanks do not continue a name before them, and add no method to it. -/
theorem head?_blanks_append {blanks rest : List Char} (hblanks : ∀ c ∈ blanks, isBlank c = true)
    (h : ∀ c ∈ rest.head?, Token.isNameChar c = false ∧ c ≠ '.') :
    ∀ c ∈ (blanks ++ rest).head?, Token.isNameChar c = false ∧ c ≠ '.' := by
  cases blanks with
  | nil => exact h
  | cons b blanks =>
    intro c hc
    cases hc
    have hb := hblanks b List.mem_cons_self
    refine ⟨Bool.eq_false_iff.2 fun hname => ?_, ?_⟩
    · rw [Token.isBlank_of_isNameChar hname] at hb
      cases hb
    · rintro rfl
      cases hb

theorem trimStart_argumentsText (arguments : Option (List Char)) :
    trimStart (Token.argumentsText arguments) = Token.argumentsText arguments := by
  cases arguments <;> rfl

/-- A directive is read off a text that is, blanks at its ends aside, a token that may have blanks
before its list. -/
theorem parse?_eq_some_iff {t : List Char} {d : Directive} :
    parse? t = some d ↔ ∃ (k : Token) (blanks : List Char), k.WellFormed
      ∧ (∀ c ∈ blanks, isBlank c = true)
      ∧ trim t = '@' :: (k.name ++ Token.methodText k.method
        ++ (blanks ++ Token.argumentsText k.arguments)) ∧ d = ofToken k := by
  refine ⟨exists_token_of_parse?, ?_⟩
  rintro ⟨k, blanks, hk, hblanks, ht, rfl⟩
  have hend := @Token.head?_argumentsText_append k.arguments [] nofun
  rw [List.append_nil] at hend
  have hhead := head?_blanks_append hblanks hend
  have hname := Token.head?_methodText_append k.method fun c hc => (hhead c hc).1
  have hlist : trimStart (blanks ++ Token.argumentsText k.arguments)
      = Token.argumentsText k.arguments := by
    rw [trimStart, List.dropWhile_append_of_pos hblanks]
    exact trimStart_argumentsText k.arguments
  have harguments : Token.splitArguments (Token.argumentsText k.arguments) = (k.arguments, []) := by
    have := @Token.splitArguments_argumentsText_append k.arguments [] hk.arguments nofun
    rwa [List.append_nil] at this
  rw [List.append_assoc] at ht
  exact (parse?_of_trim ht).2 ⟨k, _, _, Token.splitName?_isName_append hk.name hname,
    Token.splitMethod_methodText_append hk.method hhead, by rw [hlist, harguments], rfl⟩

/-- The text of a token is read as its directive. -/
theorem parse?_text {k : Token} (hk : k.WellFormed) : parse? k.text = some (ofToken k) :=
  parse?_eq_some_iff.2 ⟨k, [], hk, nofun, by rw [Token.trim_text hk]; simp [Token.text], rfl⟩

theorem toList_path (k : Token) :
    (ofToken k).path.toList = k.name ++ Token.methodText k.method := by
  unfold ofToken path
  cases k.method with
  | none => simp [Token.methodText]
  | some m => simp [Token.methodText, show ".".toList = ['.'] from rfl]

/-- The name and the method stand in the text that they are read from. -/
theorem path_infix_of_parse? {t : List Char} {d : Directive} (h : parse? t = some d) :
    d.path.toList <:+: t := by
  obtain ⟨k, blanks, -, -, ht, rfl⟩ := parse?_eq_some_iff.1 h
  rw [toList_path]
  refine List.IsInfix.trans ?_ (trim_isInfix t)
  exact ⟨['@'], blanks ++ Token.argumentsText k.arguments, by rw [ht]; simp⟩

end Directive

end JsonTemplate
