import JsonTemplate.Proofs.FloatText
import JsonTemplate.Proofs.Grammar

/-!
# Texts of directives

A directive that has been read is read back from its text (`Directive.parse?_display`). An argument
is written without a comma and without a closing bracket, and what is written is read as the same
argument (`Directive.Writable`): a number may have been spelled in another way, but a text that was
no number is still none.
-/

namespace JsonTemplate

open Text

theorem trim_of_isNumeric {t : List Char} (h : ∀ c ∈ t, isNumeric c = true) : trim t = t :=
  trim_eq_self (fun c hc => isBlank_of_isNumeric (h c (List.mem_of_mem_head? hc)))
    fun c hc => isBlank_of_isNumeric (h c (List.mem_of_mem_getLast? hc))

namespace Directive

/-! ## Arguments -/

/-- An argument that may stand in a list, and is read back from its text. -/
structure Writable (v : Json) : Prop where
  noComma : ',' ∉ v.display.toList
  noClosing : ')' ∉ v.display.toList
  isRead : readArgument v.display.toList = v

theorem readArgument_cases (t : List Char) :
    (∃ n, readArgument t = .ofInt n ∧ Width.leastInt64 ≤ n ∧ n ≤ Width.greatestInt64)
      ∨ (∃ x : Numeral, readArgument t = .number (.float x.toBinary64)
        ∧ x.toBinary64.isFinite = true)
      ∨ readArgument t = .string (String.ofList (trim t)) := by
  unfold readArgument
  dsimp only
  split
  · rename_i n hn
    exact .inl ⟨n, rfl, readInt?_bounds hn⟩
  · cases hx : Numeral.read? (trim t) with
    | none => exact .inr (.inr rfl)
    | some x =>
      rw [Option.map_some]
      dsimp only
      split
      · exact .inr (.inl ⟨x, rfl, ‹_›⟩)
      · exact .inr (.inr rfl)

theorem toList_display_number (n : JsonNumber) :
    (Json.number n).display.toList = Json.numberText n := by
  simp [Json.display, Json.compact, Json.compactText]

theorem writable_ofInt {n : Int} (hlo : Width.leastInt64 ≤ n) (hhi : n ≤ Width.greatestInt64) :
    Writable (.ofInt n) := by
  have hnumeric : ∀ c ∈ intText n, isNumeric c = true := fun c => isNumeric_of_mem_intText
  have htext : (Json.ofInt n).display.toList = intText n := toList_display_number (.integer n)
  refine ⟨fun h => ?_, fun h => ?_, ?_⟩
  · rw [htext] at h
    exact absurd (hnumeric _ h) (by decide)
  · rw [htext] at h
    exact absurd (hnumeric _ h) (by decide)
  · rw [htext]
    simp only [readArgument, trim_of_isNumeric hnumeric, readInt?_intText hlo hhi]

theorem writable_float {x : Numeral} (hx : x.toBinary64.isFinite = true) :
    Writable (.number (.float x.toBinary64)) := by
  have hnumeric : ∀ c ∈ Json.floatText x.toBinary64, isNumeric c = true :=
    fun c => Json.isNumeric_of_mem_floatText hx
  have htext : (Json.number (.float x.toBinary64)).display.toList = Json.floatText x.toBinary64 :=
    toList_display_number (.float x.toBinary64)
  refine ⟨fun h => ?_, fun h => ?_, ?_⟩
  · rw [htext] at h
    exact absurd (hnumeric _ h) (by decide)
  · rw [htext] at h
    exact absurd (hnumeric _ h) (by decide)
  · have hnone := Json.readInt?_floatText hx Width.leastInt64 Width.greatestInt64
    have hback := Json.toBinary64_floatText_toBinary64 hx
    rw [htext]
    simp only [readArgument, trim_of_isNumeric hnumeric, hnone, hback]
    rw [if_pos hx]

/-- A text that is no number is none without the blanks around it. -/
theorem writable_string {t : List Char} (hcomma : ',' ∉ t) (hclosing : ')' ∉ t)
    (h : readArgument t = .string (String.ofList (trim t))) :
    Writable (.string (String.ofList (trim t))) := by
  have hsubset := (trim_isInfix t).subset
  refine ⟨fun hm => hcomma (hsubset ?_), fun hm => hclosing (hsubset ?_), ?_⟩
  · simpa [Json.display] using hm
  · simpa [Json.display] using hm
  · rw [Json.display, String.toList_ofList, readArgument_trim, h]

theorem writable_readArgument {t : List Char} (hcomma : ',' ∉ t) (hclosing : ')' ∉ t) :
    Writable (readArgument t) := by
  rcases readArgument_cases t with ⟨n, hn, hlo, hhi⟩ | ⟨x, hx, hfinite⟩ | hstring
  · rw [hn]
    exact writable_ofInt hlo hhi
  · rw [hx]
    exact writable_float hfinite
  · rw [hstring]
    exact writable_string hcomma hclosing hstring

/-- What is not blank is read as an argument whose text is not blank. -/
theorem exists_notBlank_display {t : List Char} (ht : ∃ c ∈ t, isBlank c = false)
    (h : Writable (readArgument t)) :
    ∃ c ∈ (readArgument t).display.toList, isBlank c = false := by
  by_contra hall
  have hblank : ∀ c ∈ (readArgument t).display.toList, isBlank c = true := by simpa using hall
  have hread : readArgument t = .string "" := by
    rw [← h.isRead, ← readArgument_trim, trim_eq_nil_iff.2 hblank]
    rfl
  rcases readArgument_cases t with ⟨n, hn, -⟩ | ⟨x, hx, -⟩ | hstring
  · rw [hread] at hn
    cases hn
  · rw [hread] at hx
    cases hx
  · rw [hread] at hstring
    have hnil : trim t = [] := by simpa using hstring.symm
    obtain ⟨c, hc, hfalse⟩ := ht
    rw [trim_eq_nil_iff.1 hnil c hc] at hfalse
    cases hfalse

/-! ## Lists of arguments -/

/-- The text between the brackets. -/
def listText (args : List Json) : List Char :=
  [',', ' '].intercalate (args.map fun v => v.display.toList)

theorem notMem_listText {args : List Json} {c : Char} (hc : c ∉ [',', ' '])
    (h : ∀ v ∈ args, c ∉ v.display.toList) : c ∉ listText args := by
  intro hm
  rcases mem_intercalate hm with hm | ⟨t, ht, hm⟩
  · exact hc hm
  · obtain ⟨v, hv, rfl⟩ := List.mem_map.1 ht
    exact h v hv hm

/-- Arguments are read back from the text between the brackets, unless it is blank. -/
theorem parseArguments_listText {args : List Json} (hne : args ≠ []) (h : ∀ v ∈ args, Writable v)
    (hblank : ∃ c ∈ listText args, isBlank c = false) : parseArguments (listText args) = args := by
  obtain ⟨v, vs, rfl⟩ := List.exists_cons_of_ne_nil hne
  have hall : ¬ (listText (v :: vs)).all isBlank = true := by simpa using hblank
  have hpieces : splitOn ',' (listText (v :: vs))
      = v.display.toList :: vs.map fun w => ' ' :: w.display.toList := by
    rw [listText, List.map_cons, intercalate_pair, List.map_map, splitOn_intercalate]
    · rfl
    · exact List.cons_ne_nil _ _
    · refine List.forall_mem_cons.2 ⟨(h v List.mem_cons_self).noComma, fun p hp => ?_⟩
      obtain ⟨w, hw, rfl⟩ := List.mem_map.1 hp
      simpa using (h w (List.mem_cons_of_mem v hw)).noComma
  have hspace : ∀ t, readArgument (' ' :: t) = readArgument t := fun _ => rfl
  rw [parseArguments, if_neg hall, hpieces, List.map_cons, (h v List.mem_cons_self).isRead,
    List.map_map]
  have hrest : ∀ w ∈ vs, readArgument (' ' :: w.display.toList) = w :=
    fun w hw => (h w (List.mem_cons_of_mem v hw)).isRead
  rw [show vs.map (readArgument ∘ fun w => ' ' :: w.display.toList) = vs.map id from
    List.map_congr_left hrest, List.map_id]

/-- The values of a list are written, and if there are any, their text is not blank. -/
theorem writable_parseArguments {a : List Char} (hclosing : ')' ∉ a) :
    (∀ v ∈ parseArguments a, Writable v) ∧
      (parseArguments a ≠ [] → ∃ c ∈ listText (parseArguments a), isBlank c = false) := by
  unfold parseArguments
  by_cases hall : a.all isBlank = true
  · rw [if_pos hall]
    exact ⟨nofun, fun h => absurd rfl h⟩
  · rw [if_neg hall]
    have hwritable : ∀ p ∈ splitOn ',' a, Writable (readArgument p) :=
      fun p hp => writable_readArgument (notMem_of_mem_splitOn hp)
        fun h => hclosing ((infix_of_mem_splitOn hp).subset h)
    refine ⟨fun v hv => ?_, fun _ => ?_⟩
    · obtain ⟨p, hp, rfl⟩ := List.mem_map.1 hv
      exact hwritable p hp
    · have hjoin := intercalate_splitOn ',' a
      match hsplit : splitOn ',' a with
      | [] => exact absurd hsplit (splitOn_ne_nil ',' a)
      | [p] =>
        rw [hsplit, List.intercalate_singleton] at hjoin
        rw [hjoin] at hsplit
        have hone := exists_notBlank_display (by simpa using hall)
          (hwritable a (by rw [hsplit]; exact List.mem_cons_self))
        rw [hjoin]
        simpa [listText] using hone
      | p :: q :: ps =>
        -- a comma is no blank
        exact ⟨',', by simp [listText, List.intercalate_cons_cons], rfl⟩

/-! ## Directives -/

/-- The token that a directive is written as. -/
def written (k : Token) : Token :=
  { k with arguments := if (ofToken k).args = [] then none else some (listText (ofToken k).args) }

theorem toList_display (k : Token) : (ofToken k).display.toList = (written k).text := by
  rw [display, String.toList_append, String.toList_append, toList_path]
  by_cases h : (ofToken k).args = []
  · simp [h, written, Token.text, Token.argumentsText]
  · simp [h, written, Token.text, Token.argumentsText, listText, String.toList_intercalate,
      Function.comp_def]

/-- A directive that has been read is read back from its text. -/
theorem parse?_display {t : List Char} {d : Directive} (h : parse? t = some d) :
    parse? d.display.toList = some d := by
  obtain ⟨k, -, hk, -, -, rfl⟩ := parse?_eq_some_iff.1 h
  have hargs : (ofToken k).args = (k.arguments.map parseArguments).getD [] := rfl
  have hlist : (∀ v ∈ (ofToken k).args, Writable v) ∧
      ((ofToken k).args ≠ [] → ∃ c ∈ listText (ofToken k).args, isBlank c = false) := by
    rw [hargs]
    cases ha : k.arguments with
    | none => exact ⟨nofun, fun h => absurd rfl h⟩
    | some a => exact writable_parseArguments (hk.arguments a ha)
  obtain ⟨hwritable, hblank⟩ := hlist
  have hwritten : (written k).WellFormed := by
    refine ⟨hk.name, hk.method, fun a ha => ?_⟩
    unfold written at ha
    split at ha
    · cases ha
    · cases ha
      exact notMem_listText (by decide) fun v hv => (hwritable v hv).noClosing
  have hread : ofToken (written k) = ofToken k := by
    have hlast : ((written k).arguments.map parseArguments).getD [] = (ofToken k).args := by
      unfold written
      split
      · rename_i hnil
        rw [hnil]
        rfl
      · rename_i hne
        exact parseArguments_listText hne hwritable (hblank hne)
    rw [ofToken, hlast]
    rfl
  rw [toList_display, parse?_text hwritten, hread]

/-- A sign before an integer, an exponent, a negative zero, an integer of more than 64 bits, a word
that other readers take for a number, and nothing between two commas. -/
def motley : List Char :=
  " @x.y (+5, 1e2 ,-0.0,9223372036854775808,inf,)".toList

theorem parse?_display_motley : ∃ d, parse? motley = some d ∧
    d.display = "@x.y(5, 100.0, -0.0, 9.223372036854776e+18, inf, )" ∧
      parse? d.display.toList = some d := by
  have hread : parse? motley = some ⟨"x", some "y", [.ofInt 5, .number (.float (.ofInt 100)),
      .number (.float (.zero true)), .number (.float (.ofInt 9223372036854775808)), .string "inf",
      .string ""]⟩ := by
    rfl
  exact ⟨_, hread, by decide +kernel, parse?_display hread⟩

end Directive

end JsonTemplate
